import ExprLang.Expr.Equality
import ExprLang.Proofs.Expr.Induction

/-!
# Trees without their locations

`Expr.unlocated` takes all locations off a tree. It commutes with everything that builds trees, and
two trees agree by shape exactly when they are the same without their locations
(`agrees_byShape_iff`).
-/

namespace ExprLang

namespace Expr

mutual

/-- A tree without its locations. -/
def unlocated : Expr → Expr
  | .int _ value => .int none value
  | .str _ text => .str none text
  | .bool _ value => .bool none value
  | .null => .null
  | .endOfProgram => .endOfProgram
  | .list _ items => .list none (unlocatedAll items)
  | .ident _ name => .ident none name
  | .binding _ name value => .binding none name (unlocated value)
  | .choice _ test yes no => .choice none (unlocated test) (unlocated yes) (unlocated no)
  | .loop _ test body => .loop none (unlocated test) (unlocated body)
  | .block _ exprs => .block none (unlocatedAll exprs)
  | .program _ exprs => .program none (unlocatedAll exprs)
  | .fn _ param body => .fn none param (unlocated body)
  | .call _ callee none => .call none (unlocated callee) none
  | .call _ callee (some arg) => .call none (unlocated callee) (some (unlocated arg))
  | .builtin _ name missing supplied => .builtin none name missing (unlocatedAll supplied)

/-- The trees of a list without their locations. -/
def unlocatedAll : List Expr → List Expr
  | [] => []
  | e :: es => unlocated e :: unlocatedAll es

end

@[simp] theorem unlocatedAll_eq (es : List Expr) : unlocatedAll es = es.map unlocated := by
  induction es with
  | nil => rfl
  | cons e es ih => rw [unlocatedAll, ih, List.map_cons]

/-! ## Building trees -/

theorem unlocated_curried (names : List String) (body : Expr) :
    (curried names body).unlocated = curried names body.unlocated := by
  have hfold : ∀ names : List String,
      (names.foldr (fun param body => fn none (some param) body) body).unlocated
        = names.foldr (fun param body => fn none (some param) body) body.unlocated := by
    intro names
    induction names with
    | nil => rfl
    | cons name names ih => rw [List.foldr_cons, List.foldr_cons, unlocated, ih]
  cases names with
  | nil => simp [curried, unlocated]
  | cons name names => exact hfold (name :: names)

/-- A chain of calls without its locations depends on nothing but what is called and with what. -/
theorem unlocated_applied {callee callee' : Expr} {args args' : List Expr} (loc loc' : Loc)
    (hcallee : callee.unlocated = callee'.unlocated)
    (hargs : args.map unlocated = args'.map unlocated) :
    (applied loc callee args).unlocated = (applied loc' callee' args').unlocated := by
  have hfold : ∀ {args args' : List Expr} {callee callee' : Expr},
      callee.unlocated = callee'.unlocated → args.map unlocated = args'.map unlocated →
      (args.foldl (fun callee arg => call (some loc) callee (some arg)) callee).unlocated
        = (args'.foldl (fun callee arg => call (some loc') callee (some arg))
          callee').unlocated := by
    intro args
    induction args with
    | nil =>
        intro args' callee callee' hcallee hargs
        rw [List.map_eq_nil_iff.mp hargs.symm]
        exact hcallee
    | cons arg args ih =>
        intro args' callee callee' hcallee hargs
        obtain ⟨arg', rest', rfl, harg, hrest⟩ := List.map_eq_cons_iff.mp hargs.symm
        rw [List.foldl_cons, List.foldl_cons]
        refine ih ?_ hrest.symm
        simp only [unlocated, hcallee, harg]
  cases args with
  | nil =>
      rw [List.map_eq_nil_iff.mp hargs.symm]
      simp only [applied, unlocated, hcallee]
  | cons arg args =>
      obtain ⟨arg', rest', rfl, -, -⟩ := List.map_eq_cons_iff.mp hargs.symm
      exact hfold hcallee hargs

end Expr

/-! ## Agreement -/

theorem agreesAll_byShape_iff {as : List Expr}
    (h : ∀ a ∈ as, ∀ b, agrees .byShape a b = true ↔ a.unlocated = b.unlocated)
    (bs : List Expr) :
    agreesAll .byShape as bs = true ↔ as.map Expr.unlocated = bs.map Expr.unlocated := by
  induction as generalizing bs with
  | nil => cases bs <;> simp [agreesAll]
  | cons a as ih =>
      cases bs with
      | nil => simp [agreesAll]
      | cons b bs =>
          obtain ⟨ha, has⟩ := List.forall_mem_cons.mp h
          rw [agreesAll, Bool.and_eq_true, ha, ih has, List.map_cons, List.map_cons,
            List.cons.injEq]

/-- Two trees agree by shape exactly when they are the same without their locations. -/
theorem agrees_byShape_iff (a b : Expr) :
    agrees .byShape a b = true ↔ a.unlocated = b.unlocated := by
  induction a generalizing b with
  | list loc items ih =>
      cases b <;> simp [agrees, Expr.unlocated, agreesAll_byShape_iff ih]
  | block loc exprs ih =>
      cases b <;> simp [agrees, Expr.unlocated, agreesAll_byShape_iff ih]
  | program loc exprs ih =>
      cases b <;> simp [agrees, Expr.unlocated, agreesAll_byShape_iff ih]
  | builtin loc name missing supplied ih =>
      cases b <;> simp [agrees, Expr.unlocated, agreesAll_byShape_iff ih, and_assoc]
  | binding loc name value ih =>
      cases b <;> simp [agrees, Expr.unlocated, ih]
  | choice loc test yes no ihTest ihYes ihNo =>
      cases b <;> simp [agrees, Expr.unlocated, ihTest, ihYes, ihNo, and_assoc]
  | loop loc test body ihTest ihBody =>
      cases b <;> simp [agrees, Expr.unlocated, ihTest, ihBody]
  | fn loc param body ih =>
      cases b <;> simp [agrees, Expr.unlocated, ih]
  | bareCall loc callee ih =>
      cases b <;> simp [agrees, Expr.unlocated, ih]
  | call loc callee arg ihCallee ihArg =>
      cases b <;> simp [agrees, Expr.unlocated, ihCallee, ihArg]
  | int | str | bool | null | endOfProgram | ident =>
      cases b <;> simp [agrees, Expr.unlocated]

end ExprLang
