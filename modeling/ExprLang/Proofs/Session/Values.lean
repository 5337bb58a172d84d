import Mathlib
import ExprLang.Proofs.Eval.OnlyValues
import ExprLang.Proofs.Eval.Reach
import ExprLang.Proofs.Session.Kept

/-!
# Syntax never escapes as a value

Whatever is evaluated, values come of it, and values are all that is left in the state, as long as
built-ins hold values to begin with (`evaluate_keepsValues`). The end of a program is a value as
well, but only a whole program is evaluated to it: in a session no name is ever bound to it, no list
holds it, and no operation or function gets it, so every script that succeeds ends with it and no
line ever does (`syntax_never_escapes`).
-/

namespace ExprLang

open EvalM

/-! ## Trees without the end of a program -/

/-- A node that is neither a program nor the end of one. -/
def Expr.NoEnd : Expr → Prop
  | .program .. | .endOfProgram => False
  | _ => True

/-- A tree that holds neither a program nor the end of one. -/
abbrev EndFree : Expr → Prop := Everywhere Expr.NoEnd

theorem hereditary_endFree : Hereditary EndFree := by
  refine hereditary_everywhere (fun {e} hbuilt => ?_) (fun hprogram => absurd hprogram not_false)
  cases e with
  | program | endOfProgram => exact absurd hbuilt not_false
  | _ => trivial

theorem IsWritten.endFree {e : Expr} (h : IsWritten e) : EndFree e := by
  refine h.mono fun e hwritten => ?_
  cases e with
  | program | endOfProgram => exact absurd hwritten not_false
  | _ => trivial

theorem EndFree.ne_endOfProgram {e : Expr} (h : EndFree e) : e ≠ .endOfProgram := by
  rintro rfl
  exact h.node

/-! ## Runs -/

/-- The end of a program stays out of a run. -/
structure EndStaysOut (settings : Settings) (ev : Evaluation) : Prop where
  /-- Only a whole program is evaluated to something that holds it. What a `let` binds and what a
  list literal is made of are values of other trees, and so is what an operation returns. -/
  values : ∀ {sub value s'}, Reaches settings ev sub → sub.tree.isProgram = false →
    evalNested settings sub.nesting sub.tree sub.state = .ok value s' → EndFree value
  /-- No value that is bound to a name holds it. -/
  bound : ∀ {sub}, Reaches settings ev sub → sub.state.scope.Each EndFree
  /-- No operation gets it, so it is neither written nor put into a list. -/
  operations : ∀ {call}, Applies settings ev call → ∀ a ∈ call.args, EndFree a
  /-- No function gets it. -/
  functions : ∀ {call}, Executes settings ev call → ∀ a ∈ call.args, EndFree a

section
variable {settings : Settings} {nesting : Nat} {s : RunState} (heach : s.scope.Each EndFree)
include heach

theorem endStaysOut_expression {e : Expr} (he : EndFree e) :
    EndStaysOut settings ⟨nesting, e, s⟩ where
  values := fun hreaches _ hend => by
    obtain ⟨htree, heach'⟩ := hreaches.inherits hereditary_endFree he heach
    exact (evalNested_inherits hereditary_endFree htree heach' hend).1
  bound := fun hreaches => (hreaches.inherits hereditary_endFree he heach).2
  operations := fun happlies => (happlies.inherits hereditary_endFree he heach).2
  functions := fun hexecutes => hexecutes.inherits hereditary_endFree he heach

/-- What a program comes to, its expressions come to, and it is nothing that is executed itself. -/
theorem endStaysOut_program {loc : Option Loc} {es : List Expr} (hes : ∀ e ∈ es, EndFree e) :
    EndStaysOut settings ⟨nesting, .program loc es, s⟩ := by
  have hinside : ∀ {sub}, Reaches settings ⟨nesting, .program loc es, s⟩ sub →
      sub = ⟨nesting, .program loc es, s⟩ ∨
        ∃ ev, EndStaysOut settings ev ∧ Reaches settings ev sub := by
    intro sub hreaches
    obtain rfl | ⟨e, hmem, s₁, hreaches', hkeeps⟩ := hreaches.of_program
    · exact .inl rfl
    · have heach₁ := hkeeps hereditary_endFree hes heach
      exact .inr ⟨_, endStaysOut_expression heach₁ (hes e hmem), hreaches'⟩
  refine ⟨fun hreaches hnode hend => ?_, fun hreaches => ?_, ?_, ?_⟩
  · obtain rfl | ⟨ev, hout, hreaches'⟩ := hinside hreaches
    · exact absurd hnode nofun
    · exact hout.values hreaches' hnode hend
  · obtain rfl | ⟨ev, hout, hreaches'⟩ := hinside hreaches
    · exact heach
    · exact hout.bound hreaches'
  · rintro call ⟨inner, s₁, hreaches, hoperates⟩
    obtain rfl | ⟨ev, hout, hreaches'⟩ := hinside hreaches
    · cases hoperates
    · exact hout.operations ⟨inner, s₁, hreaches', hoperates⟩
  · rintro call ⟨inner, body, s₁, hreaches, henters⟩
    obtain rfl | ⟨ev, hout, hreaches'⟩ := hinside hreaches
    · cases henters
    · exact hout.functions ⟨inner, body, s₁, hreaches', henters⟩

end

/-- A program that succeeds is evaluated to the end of a program. -/
theorem runProgram_value (settings : Settings) {es : List Expr} {s s' : RunState} {value : Expr}
    (h : runProgram settings es s = .ok value s') : value = .endOfProgram := by
  induction es generalizing s with
  | nil =>
      cases h
      rfl
  | cons e es ih =>
      cases hrun : evaluate settings e s with
      | ok first s₁ =>
          rw [runProgram_cons_ok hrun] at h
          exact ih h
      | error failure s₁ =>
          rw [runProgram_cons_error hrun] at h
          exact absurd h nofun

theorem evaluate_program_value {settings : Settings} {loc : Option Loc} {es : List Expr}
    {s s' : RunState} {value : Expr} (h : evaluate settings (.program loc es) s = .ok value s') :
    value = .endOfProgram := by
  rw [evaluate_program] at h
  unfold inFrame at h
  split at h
  next hrun =>
      cases h
      exact runProgram_value settings hrun
  next => exact absurd h nofun

/-! ## Sessions -/

/-- What a step of a session does with the end of a program. -/
structure EndNeverEscapes (session : Session) (goal : Reader.Goal) (source : String) : Prop where
  /-- It stays out of the run. -/
  run : ∀ {tree}, Reader.parse goal source = .ok tree →
    EndStaysOut session.settings ⟨session.settings.nesting, tree, session.cleared.state⟩
  /-- Neither a name is left bound to it nor to what holds it, and no top-level value is that. -/
  kept : (session.handle goal source).2.state.Kept EndFree
  /-- A script that succeeds comes to it. -/
  script : ∀ {value}, goal = .program →
    (session.handle goal source).1 = .ok (.success value) →
    value = .endOfProgram
  /-- No line comes to it or to what holds it. -/
  line : ∀ {value}, goal = .expression →
    (session.handle goal source).1 = .ok (.success value) →
    EndFree value ∧ value ≠ .endOfProgram

/-- A step that succeeds has run its source to that value. -/
theorem Session.success_iff {session : Session} {goal : Reader.Goal} {source : String}
    {value : Expr} : (session.handle goal source).1 = .ok (.success value) ↔ ∃ tree s,
      Reader.parse goal source = .ok tree ∧
        evaluate session.settings tree session.cleared.state = .ok value s := by
  constructor
  · intro h
    obtain ⟨result, after, hstep⟩ := session.exists_stepsTo goal source
    rw [hstep.handle_eq] at h
    cases hstep with
    | unread | refused | failed => exact absurd h nofun
    | done hparse hend =>
        cases h
        exact ⟨_, _, hparse, hend⟩
  · rintro ⟨tree, s, hparse, hend⟩
    rw [(StepsTo.done hparse hend).handle_eq]

theorem endNeverEscapes {settings : Settings} {session : Session} (h : Reachable settings session)
    (goal : Reader.Goal) (source : String) : EndNeverEscapes session goal source := by
  have hkept : ∀ {session}, Reachable settings session → session.state.Kept EndFree :=
    Reachable.kept hereditary_endFree (fun _ => .leaf trivial rfl) fun _ => IsWritten.endFree
  have hread : ∀ e, IsReadFrom goal source e → EndFree e :=
    fun _ hread => hread.parserBuilt.written.endFree
  have hcleared : session.cleared.state.Kept EndFree := ⟨(hkept h).scope, (hkept h).last⟩
  refine ⟨fun hparse => ?_, hkept (h.step goal source), fun hgoal hend =>
    ?_, fun hgoal hend => ?_⟩
  · obtain ⟨-, htree⟩ | ⟨-, loc, es, rfl, hes⟩ := parse_cases hparse
    · exact endStaysOut_expression hcleared.scope (hread _ htree)
    · exact endStaysOut_program hcleared.scope fun e hmem => hread e (hes e hmem)
  · obtain ⟨tree, s, hparse, hrun⟩ := Session.success_iff.mp hend
    obtain ⟨hgoal', -⟩ | ⟨-, loc, es, rfl, -⟩ := parse_cases hparse
    · exact absurd (hgoal.symm.trans hgoal') nofun
    · exact evaluate_program_value hrun
  · obtain ⟨tree, s, hparse, hrun⟩ := Session.success_iff.mp hend
    obtain ⟨-, htree⟩ | ⟨hgoal', -⟩ := parse_cases hparse
    · have hvalue := evaluate_kept hereditary_endFree session.settings
        (hread tree htree) _ hcleared
      rw [hrun] at hvalue
      exact ⟨hvalue.1, hvalue.1.ne_endOfProgram⟩
    · exact absurd (hgoal.symm.trans hgoal') nofun

/-- **Syntax never escapes as a value.** Evaluation leaves nothing but values where there was
nothing else before, and in a session the end of a program goes nowhere. -/
theorem syntax_never_escapes :
    (∀ settings e s, WellSupplied e → s.OnlyValues → KeepsValues settings e s) ∧
      ∀ settings session goal source, Reachable settings session →
        EndNeverEscapes session goal source :=
  ⟨fun settings _ _ he hs => evaluate_keepsValues settings he hs,
    fun _ _ goal source h => endNeverEscapes h goal source⟩

/-- A function around a sum that holds one of its arguments already is put into a list; and a script
that binds a list of such an operation comes to the end of a program. -/
theorem syntax_never_escapes_partial_sum :
    let sum : Expr := .builtin none "+" 1 [.int none 1]
    let tree : Expr :=
      .list none [.fn none (some "x") (.call none sum (some (.ident none "x"))), sum]
    let state := { RunState.initial (.ofRoot builtinFrame) (.ofInput "") with
      last := some sum, calls := [⟨"+", sum, [.int none 1]⟩] }
    let settings : Settings := { nesting := 1, patience := 0 }
    let session := Session.start settings (.ofInput "")
    (∃ value s', evaluate {} tree state = .ok value s' ∧ IsSoundValue value) ∧
      (session.handle .program "let f = [list_push([])]").1 = .ok (.success .endOfProgram) ∧
      (session.handle .program "let f = [list_push([])]").2.state.Kept EndFree := by
  intro sum tree state settings session
  obtain ⟨hvalues, hsessions⟩ := syntax_never_escapes
  have hint : IsSoundValue (.int none 1) := .leaf (.int none 1) rfl
  have hsum : IsSoundValue sum := .builtin _ _ _ (List.forall_mem_singleton.mpr hint)
  have hcall : WellSupplied (.call none sum (some (.ident none "x"))) :=
    .of_parts trivial (List.forall_mem_cons.mpr ⟨hsum.supplied,
      List.forall_mem_singleton.mpr (.leaf trivial rfl)⟩)
  have htree : WellSupplied tree :=
    .of_parts trivial (List.forall_mem_cons.mpr
      ⟨.of_parts trivial (List.forall_mem_singleton.mpr hcall),
        List.forall_mem_singleton.mpr hsum.supplied⟩)
  have hstate : state.OnlyValues := by
    refine ⟨List.forall_mem_singleton.mpr (builtinFrame_each fun operation => ?_), ?_, ?_⟩
    · exact .builtin _ _ _ fun _ hmem => absurd hmem List.not_mem_nil
    · exact List.forall_mem_singleton.mpr ⟨hsum, List.forall_mem_singleton.mpr hint⟩
    · rintro _ ⟨⟩
      exact hsum
  have hsession := hsessions settings session .program "let f = [list_push([])]"
    (.start (.ofInput ""))
  refine ⟨?_, ?_, hsession.kept⟩
  · obtain ⟨value, s', hrun⟩ : ∃ value s', evaluate {} tree state = .ok value s' :=
      ⟨_, _, rfl⟩
    exact ⟨value, s', hrun, (hvalues {} tree state htree hstate).value hrun⟩
  · let push : Expr :=
      .call (some ⟨1, 10⟩) (.ident (some ⟨1, 10⟩) "list_push") (some (.list none []))
    have hparse : Reader.parse .program "let f = [list_push([])]"
        = .ok (.program none [.binding (some ⟨1, 1⟩) "f" (.list none [push])]) := by rfl
    obtain ⟨s', hrun⟩ : ∃ s', evaluate session.settings (.program none
        [.binding (some ⟨1, 1⟩) "f" (.list none [push])]) session.cleared.state
          = .ok .endOfProgram s' := by
      simp only [push, session, settings]
      exact ⟨_, by cbv⟩
    have hend := Session.success_iff.mpr ⟨_, s', hparse, hrun⟩
    rw [hend, hsession.script rfl hend]

end ExprLang
