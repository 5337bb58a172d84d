import ExprLang.Proofs.Expr.Induction

/-!
# Trees at other places

`Expr.moved` gives every location of a tree another one and leaves the rest of it alone. It commutes
with the building of functions and calls.
-/

namespace ExprLang

namespace Expr

mutual

/-- A tree whose locations have moved. -/
def moved (move : Loc → Loc) : Expr → Expr
  | .int loc value => .int (loc.map move) value
  | .str loc text => .str (loc.map move) text
  | .bool loc value => .bool (loc.map move) value
  | .null => .null
  | .endOfProgram => .endOfProgram
  | .list loc items => .list (loc.map move) (movedAll move items)
  | .ident loc name => .ident (loc.map move) name
  | .binding loc name value => .binding (loc.map move) name (moved move value)
  | .choice loc test yes no =>
      .choice (loc.map move) (moved move test) (moved move yes) (moved move no)
  | .loop loc test body => .loop (loc.map move) (moved move test) (moved move body)
  | .block loc exprs => .block (loc.map move) (movedAll move exprs)
  | .program loc exprs => .program (loc.map move) (movedAll move exprs)
  | .fn loc param body => .fn (loc.map move) param (moved move body)
  | .call loc callee none => .call (loc.map move) (moved move callee) none
  | .call loc callee (some arg) => .call (loc.map move) (moved move callee) (some (moved move arg))
  | .builtin loc name missing supplied =>
      .builtin (loc.map move) name missing (movedAll move supplied)

/-- The trees of a list whose locations have moved. -/
def movedAll (move : Loc → Loc) : List Expr → List Expr
  | [] => []
  | e :: es => moved move e :: movedAll move es

end

variable {move : Loc → Loc}

@[simp] theorem movedAll_eq (move : Loc → Loc) (es : List Expr) :
    movedAll move es = es.map (moved move) := by
  induction es with
  | nil => rfl
  | cons e es ih => rw [movedAll, ih, List.map_cons]

/-! ## Building trees -/

theorem moved_curried (names : List String) (body : Expr) :
    (curried names body).moved move = curried names (body.moved move) := by
  have hfold : ∀ names : List String,
      (names.foldr (fun param body => fn none (some param) body) body).moved move
        = names.foldr (fun param body => fn none (some param) body) (body.moved move) := by
    intro names
    induction names with
    | nil => rfl
    | cons name names ih => rw [List.foldr_cons, List.foldr_cons, moved, ih, Option.map_none]
  cases names with
  | nil => simp only [curried, moved, Option.map_none]
  | cons name names => exact hfold (name :: names)

theorem moved_applied (loc : Loc) (callee : Expr) (args : List Expr) :
    (applied loc callee args).moved move
      = applied (move loc) (callee.moved move) (args.map (moved move)) := by
  have hfold : ∀ (args : List Expr) (callee : Expr),
      (args.foldl (fun callee arg => call (some loc) callee (some arg)) callee).moved move
        = (args.map (moved move)).foldl (fun callee arg => call (some (move loc)) callee (some arg))
            (callee.moved move) := by
    intro args
    induction args with
    | nil => exact fun _ => rfl
    | cons arg args ih =>
        intro callee
        rw [List.foldl_cons, List.map_cons, List.foldl_cons, ih, moved, Option.map_some]
  cases args with
  | nil => simp only [applied, List.map_nil, moved, Option.map_some]
  | cons arg args => exact hfold (arg :: args) callee

end Expr

end ExprLang
