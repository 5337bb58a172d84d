import ExprLang.Expr

/-!
# Induction over trees

A tree holds its parts directly, in lists and behind an option. The principle below hides the lists
and the option: a property holds of every tree once each node inherits it from its parts. A call is
two cases, with an argument and without. Functions of several parameters and calls with several
arguments are nodes around nodes, and have an induction of their own each.
-/

namespace ExprLang

/-- A property that every node inherits from its parts holds of every tree. -/
@[elab_as_elim, induction_eliminator]
theorem Expr.treeInduction {P : Expr → Prop}
    (int : ∀ loc value, P (.int loc value))
    (str : ∀ loc text, P (.str loc text))
    (bool : ∀ loc value, P (.bool loc value))
    (null : P .null)
    (endOfProgram : P .endOfProgram)
    (list : ∀ loc items, (∀ e ∈ items, P e) → P (.list loc items))
    (ident : ∀ loc name, P (.ident loc name))
    (binding : ∀ loc name value, P value → P (.binding loc name value))
    (choice : ∀ loc test yes no, P test → P yes → P no → P (.choice loc test yes no))
    (loop : ∀ loc test body, P test → P body → P (.loop loc test body))
    (block : ∀ loc exprs, (∀ e ∈ exprs, P e) → P (.block loc exprs))
    (program : ∀ loc exprs, (∀ e ∈ exprs, P e) → P (.program loc exprs))
    (fn : ∀ loc param body, P body → P (.fn loc param body))
    (bareCall : ∀ loc callee, P callee → P (.call loc callee none))
    (call : ∀ loc callee arg, P callee → P arg → P (.call loc callee (some arg)))
    (builtin : ∀ loc name missing supplied, (∀ e ∈ supplied, P e) →
      P (.builtin loc name missing supplied))
    (e : Expr) : P e := by
  refine @Expr.rec P (fun es => ∀ e ∈ es, P e) (fun arg => ∀ e ∈ arg, P e) int str bool null
    endOfProgram list ident binding choice loop block program fn ?_ builtin ?_ ?_ ?_ ?_ e
  · intro loc callee arg hcallee harg
    cases arg with
    | none => exact bareCall loc callee hcallee
    | some arg => exact call loc callee arg hcallee (harg arg rfl)
  · exact fun e h => absurd h List.not_mem_nil
  · intro first rest hfirst hrest e h
    rcases List.mem_cons.mp h with rfl | h
    · exact hfirst
    · exact hrest e h
  · exact fun e h => absurd h (Option.not_mem_none e)
  · intro arg harg e h
    rw [← Option.mem_some_iff.mp h]
    exact harg

/-- A property holds of every tree that holds of every kind of node. -/
@[elab_as_elim, cases_eliminator]
theorem Expr.treeCases {P : Expr → Prop}
    (int : ∀ loc value, P (.int loc value))
    (str : ∀ loc text, P (.str loc text))
    (bool : ∀ loc value, P (.bool loc value))
    (null : P .null)
    (endOfProgram : P .endOfProgram)
    (list : ∀ loc items, P (.list loc items))
    (ident : ∀ loc name, P (.ident loc name))
    (binding : ∀ loc name value, P (.binding loc name value))
    (choice : ∀ loc test yes no, P (.choice loc test yes no))
    (loop : ∀ loc test body, P (.loop loc test body))
    (block : ∀ loc exprs, P (.block loc exprs))
    (program : ∀ loc exprs, P (.program loc exprs))
    (fn : ∀ loc param body, P (.fn loc param body))
    (bareCall : ∀ loc callee, P (.call loc callee none))
    (call : ∀ loc callee arg, P (.call loc callee (some arg)))
    (builtin : ∀ loc name missing supplied, P (.builtin loc name missing supplied))
    (e : Expr) : P e :=
  Expr.treeInduction int str bool null endOfProgram (fun loc items _ => list loc items) ident
    (fun loc name value _ => binding loc name value)
    (fun loc test yes no _ _ _ => choice loc test yes no)
      (fun loc test body _ _ => loop loc test body)
    (fun loc exprs _ => block loc exprs) (fun loc exprs _ => program loc exprs)
    (fun loc param body _ => fn loc param body) (fun loc callee _ => bareCall loc callee)
    (fun loc callee arg _ _ => call loc callee arg)
    (fun loc name missing supplied _ => builtin loc name missing supplied) e

/-! ## Nodes around nodes -/

/-- What functions inherit from their bodies, a function of a list of parameters inherits from its
own. -/
theorem Expr.curriedInduction {P : Expr → Prop}
    (hfn : ∀ {param body}, P body → P (.fn none param body)) {body : Expr} (h : P body)
    (params : List String) : P (.curried params body) := by
  cases params with
  | nil => exact hfn h
  | cons first rest =>
      show P (List.foldr _ body (first :: rest))
      induction first :: rest with
      | nil => exact h
      | cons param params ih => exact hfn ih

/-- A call with a list of arguments has a property if the calls inherit it that it is made of, each
with one argument more than the one that it calls. -/
theorem Expr.appliedInduction {P : Expr → Prop} {loc : Loc} {callee : Expr} {args : List Expr}
    (hcallee : P callee) (hbare : args = [] → P (.call (some loc) callee none))
    (hcall : ∀ given arg inner, given ++ [arg] <+: args →
      applied loc callee (given ++ [arg]) = .call (some loc) inner (some arg) → P inner →
        P (.call (some loc) inner (some arg))) : P (.applied loc callee args) := by
  let around (callee arg : Expr) : Expr := .call (some loc) callee (some arg)
  have happlied : ∀ {args}, args ≠ [] →
      applied loc callee args = args.foldl around callee := by
    intro args hne
    cases args with
    | nil => exact absurd rfl hne
    | cons first rest => rfl
  have hgrow : ∀ more given, given ++ more = args → P (given.foldl around callee) →
      P (args.foldl around callee) := by
    intro more
    induction more with
    | nil =>
        rintro given rfl hgiven
        rwa [List.append_nil]
    | cons arg more ih =>
        intro given hsplit hgiven
        have hsplit' : given ++ [arg] ++ more = args := by
          rw [← hsplit, List.append_assoc]
          rfl
        refine ih (given ++ [arg]) hsplit' ?_
        have hnode : (given ++ [arg]).foldl around callee
            = .call (some loc) (given.foldl around callee) (some arg) := by
              rw [List.foldl_append]; rfl
        have hne : given ++ [arg] ≠ [] :=
          List.append_ne_nil_of_right_ne_nil _ (List.cons_ne_nil _ _)
        rw [hnode]
        exact hcall given arg _ ⟨more, hsplit'⟩ ((happlied hne).trans hnode) hgiven
  by_cases hnil : args = []
  · subst hnil
    exact hbare rfl
  · rw [happlied hnil]
    exact hgrow args [] rfl hcallee

end ExprLang
