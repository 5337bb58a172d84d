import Mathlib
import ExprLang.Proofs.Eval.Lockstep
import ExprLang.Proofs.Scope.Agreement

/-!
# Unrelated bindings

Scoping is dynamic, so a function sees all names that are bound where it is called. Which of them
have influence is told by the names in the code alone: a set of names that neither the tree nor any
value under another name tells may be bound in whatever way. Two runs that differ in these bindings
cannot be told apart, and each leaves them as they were (`evaluate_unrelated`).

That a run never comes across code which tells one of the names is what carries the proof: code that
avoids the names only ever meets values that do, so the property is one of trees and of values at
once.
-/

namespace ExprLang

open EvalM

/-! ## Code that avoids names -/

/-- The names that a node itself tells: the one that it looks up or binds, or that of its
parameter. -/
def Expr.ownNames : Expr → List String
  | .ident _ name | .binding _ name _ | .fn _ (some name) _ => [name]
  | _ => []

/-- Nothing in a tree tells one of the names, the bodies of functions and the members of lists
included. -/
def Avoids (names : Set String) : Expr → Prop :=
  Everywhere fun node => ∀ name ∈ node.ownNames, name ∉ names

theorem hereditary_avoids (names : Set String) : Hereditary (Avoids names) := by
  refine hereditary_everywhere (fun {e} hbuilt => ?_) fun _ => by simp [Expr.ownNames]
  cases e with
  | int | str | bool | null | list | builtin => simp [Expr.ownNames]
  | ident | binding | choice | loop | block | program | fn | bareCall | call | endOfProgram =>
      exact hbuilt.elim

namespace Avoids

variable {names : Set String} {loc : Option Loc} {name : String} {e : Expr}

theorem ident (h : Avoids names (.ident loc name)) : name ∉ names :=
  h.node name List.mem_cons_self

theorem binding (h : Avoids names (.binding loc name e)) : name ∉ names :=
  h.node name List.mem_cons_self

theorem param (h : Avoids names (.fn loc (some name) e)) : name ∉ names :=
  h.node name List.mem_cons_self

end Avoids

/-! ## States -/

/-- Two states that differ in the bindings of the names and in the log at most. What is bound under
other names avoids the names. -/
structure RunState.AlikeBut (names : Set String) (s t : RunState) : Prop where
  scope : s.scope.Shares namesᶜ (Avoids names) t.scope
  floors : t.floors = s.floors
  calls : t.calls = s.calls
  last : t.last = s.last
  console : s.console.Alike t.console

/-- The states of two runs that began on two stacks, when so many frames have been pushed: they are
still alike but for the names, and the frames that they began on say of these what they said. -/
structure Unrelated (names : Set String) (start start' : ScopeStack) (count : Nat)
    (s t : RunState) : Prop where
  alike : s.AlikeBut names t
  kept : ScopeStack.LiesUnder names start count s.scope
  kept' : ScopeStack.LiesUnder names start' count t.scope

namespace Unrelated

variable {names : Set String} {start start' : ScopeStack} {count : Nat} {s t : RunState}

theorem enter (h : Unrelated names start start' count s t) :
    Unrelated names start start' (count + 1)
    { s with scope := s.scope.enter } { t with scope := t.scope.enter } :=
  ⟨{ h.alike with scope := h.alike.scope.enter }, h.kept.enter, h.kept'.enter⟩

theorem exit (h : Unrelated names start start' (count + 1) s t) : Unrelated names start start' count
    { s with scope := s.scope.exit } { t with scope := t.scope.exit } :=
  ⟨{ h.alike with scope := h.alike.scope.exit }, h.kept.exit, h.kept'.exit⟩

/-- A change to anything but the stack. -/
theorem withAlike {s' t' : RunState} (h : Unrelated names start start' count s t)
    (halike : s'.AlikeBut names t') (hscope : s'.scope = s.scope) (hscope' : t'.scope = t.scope) :
    Unrelated names start start' count s' t' :=
  ⟨halike, hscope ▸ h.kept, hscope' ▸ h.kept'⟩

/-- A change to the stack that is not told by the names. -/
theorem withScope {scope scope' : ScopeStack} (h : Unrelated names start start' count s t)
    (hshares : scope.Shares namesᶜ (Avoids names) scope') (hkept : s.scope.AgreesOn names scope)
    (hkept' : t.scope.AgreesOn names scope') : Unrelated names start start' count
      { s with scope := scope } { t with scope := scope' } :=
  ⟨{ h.alike with scope := hshares }, h.kept.trans hkept, h.kept'.trans hkept'⟩

/-! ### Steps -/

theorem lookup {name : String} (hname : name ∉ names) :
    InStep (Unrelated names start start' count) (Avoids names) (lookup name) (lookup name) := by
  intro s t h
  unfold EvalM.lookup
  rw [h.alike.scope.resolve hname]
  cases hfound : s.scope.resolve name with
  | some value => exact .ok (h.alike.scope.holds_of_resolve hname hfound) h
  | none => exact .error h

section
variable {name : String} (hname : name ∉ names) {value : Expr} (hvalue : Avoids names value)
include hname hvalue

theorem bindName : InStep (Unrelated names start start' (count + 1)) (fun _ => True)
    (bindName name value) (bindName name value) := by
  intro s t h
  obtain ⟨scope, scope', hbind, hbind', hshares⟩ :=
    h.alike.scope.rebind hname hvalue h.kept.below_ne_nil (s.floors.headD 0)
  rw [← h.alike.floors] at hbind'
  unfold EvalM.bindName onScope
  simp only [hbind, hbind']
  exact .ok trivial (h.withScope hshares (ScopeStack.agreesOn_of_rebind hname hbind)
    (ScopeStack.agreesOn_of_rebind hname hbind'))

theorem bindParam : InStep (Unrelated names start start' (count + 1)) (fun _ => True)
    (bindParam name value) (bindParam name value) := by
  intro s t h
  obtain ⟨scope, scope', hbind, hbind', hshares⟩ :=
    h.alike.scope.bindOuter h.kept.below_ne_nil name hvalue
  unfold EvalM.bindParam onScope
  simp only [hbind, hbind']
  exact .ok trivial (h.withScope hshares (ScopeStack.agreesOn_of_bindOuter hname hbind)
    (ScopeStack.agreesOn_of_bindOuter hname hbind'))

end

/-- No step of code that avoids the names can tell the two states apart. -/
theorem linked (names : Set String) (start start' : ScopeStack) :
    Linked (Avoids names) (Unrelated names start start') where
  hereditary := hereditary_avoids names
  enter := enter
  exit := exit
  pushFloor := fun h => by
    refine h.withAlike { h.alike with floors := ?_ } rfl rfl
    simp only [h.alike.scope.depth, h.alike.floors]
  popFloor := fun h =>
    h.withAlike { h.alike with floors := congrArg List.tail h.alike.floors } rfl rfl
  pushCall := fun call h =>
    h.withAlike { h.alike with calls := congrArg (call :: ·) h.alike.calls } rfl rfl
  popCall := fun h =>
    h.withAlike { h.alike with calls := congrArg List.tail h.alike.calls } rfl rfl
  logLeft := fun _ h => h.withAlike { h.alike with console := h.alike.console } rfl rfl
  logRight := fun _ h => h.withAlike { h.alike with console := h.alike.console } rfl rfl
  lookup := fun he => lookup he.ident
  bindName := fun he => bindName he.binding
  bindParam := fun hfn => bindParam hfn.param
  onConsole := fun name args => InStep.onConsole (LogBlind.runBuiltin name args)
    (fun h => h.alike.console) fun h halike =>
      h.withAlike { h.alike with console := halike } rfl rfl
  setLast := fun _ _ h => h.withAlike { h.alike with last := rfl } rfl rfl

end Unrelated

/-! ## Whole evaluations -/

/-- Two runs that began in states with different bindings of the names have come to these states:
they differ in these bindings and in the log at most, and each has the bindings that it began
with. -/
structure LeftAlone (names : Set String) (start start' : RunState) (s t : RunState) : Prop where
  alike : s.AlikeBut names t
  kept : start.scope.AgreesOn names s.scope
  kept' : start'.scope.AgreesOn names t.scope

/-- **Unrelated bindings have no influence**: if neither the tree nor a value under another name
tells one of the names, then evaluations in states that differ in what is bound under them end with
the same value or the same failure, have read and written the same, and leave stacks that again
differ in these bindings alone. The bindings are left as they were. -/
theorem evaluate_unrelated {names : Set String} (settings : Settings) {e : Expr}
    (he : Avoids names e) {s t : RunState} (h : s.AlikeBut names t) :
    EndAlike (Avoids names) (LeftAlone names s t) (evaluate settings e s)
    (evaluate settings e t) := by
  have hstart : Unrelated names s.scope t.scope 0 s t :=
    ⟨h, ScopeStack.AgreesOn.refl s.scope, ScopeStack.AgreesOn.refl t.scope⟩
  have hend := (Unrelated.linked names s.scope t.scope).evaluate_inStep settings
    settings.tracing he 0
    s t hstart
  match evaluate settings e s, evaluate settings e t, hend with
  | _, _, .ok hvalue hstate => exact .ok hvalue ⟨hstate.alike, hstate.kept, hstate.kept'⟩
  | _, _, .error hstate => exact .error ⟨hstate.alike, hstate.kept, hstate.kept'⟩

/-- A number is printed that a name was bound to. Whether another name stands for a number or for a
text makes no difference, and it stands for the same at the end. -/
theorem evaluate_unrelated_print :
    let printed := Expr.call none (.ident none "print") (some (.ident none "y"))
    let tree := Expr.block none [.binding none "y" (.int none 3), printed]
    let state := fun value => RunState.initial (.ofRoot (builtinFrame.set "x" value)) (.ofInput "")
    let settings : Settings := { nesting := 0, patience := 0 }
    ∃ t, evaluate settings tree (state (.str none "a")) = .ok .null t ∧
      t.console.output = "3" ∧
      t.scope.resolve "x" = some (.str none "a") := by
  intro printed tree state settings
  have hleaf : ∀ name, name ≠ "x" → Avoids {"x"} (.ident none name) :=
    fun name hname => .leaf (List.forall_mem_singleton.mpr hname) rfl
  have hprinted : Avoids {"x"} printed :=
    .of_parts nofun (List.forall_mem_cons.mpr ⟨hleaf _ (by decide), List.forall_mem_singleton.mpr
      (hleaf _ (by decide))⟩)
  have hbinding : Avoids {"x"} (.binding none "y" (.int none 3)) :=
    .of_parts (List.forall_mem_singleton.mpr (show "y" ≠ "x" by decide))
      (List.forall_mem_singleton.mpr (.leaf nofun rfl))
  have htree : Avoids {"x"} tree :=
    .of_parts nofun (List.forall_mem_cons.mpr
      ⟨hbinding, List.forall_mem_singleton.mpr hprinted⟩)
  have hvalues : builtinFrame.Each (Avoids {"x"}) :=
    builtinFrame_each fun operation => .leaf nofun rfl
  have hframes : ∀ value value' : Expr,
    (builtinFrame.set "x" value).Shares {"x"}ᶜ (Avoids {"x"})
      (builtinFrame.set "x" value') := by
    intro value value' name hname
    have hne : name ≠ "x" := hname
    rw [Frame.get?_set, Frame.get?_set, if_neg hne, if_neg hne]
    exact ⟨rfl, hvalues name⟩
  have hstates : (state (.int none 1)).AlikeBut {"x"} (state (.str none "a")) :=
    ⟨.cons (hframes _ _) .nil, rfl, rfl, rfl, rfl⟩
  obtain ⟨s', hrun, houtput⟩ :
      ∃ s', evaluate settings tree (state (.int none 1)) = .ok .null s' ∧
        s'.console.output = "3" := by
    simp only [tree, printed, state, settings]
    exact ⟨_, by cbv, by cbv⟩
  have hend := evaluate_unrelated settings htree hstates
  rw [hrun] at hend
  generalize evaluate settings tree (state (.str none "a")) = result at hend ⊢
  cases hend with
  | ok _ hstate =>
      have hbound : (state (.str none "a")).scope.resolve "x" = some (.str none "a") := by
        simp only [state]
        cbv
      refine ⟨_, rfl, hstate.alike.console.output.trans houtput, ?_⟩
      have hmem : "x" ∈ ({"x"} : Set String) := rfl
      exact (ScopeStack.Shares.resolve hmem hstate.kept').trans hbound

end ExprLang
