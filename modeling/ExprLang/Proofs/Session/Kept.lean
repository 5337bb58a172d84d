import ExprLang.Proofs.Eval.Invariant
import ExprLang.Proofs.Session.Survival

/-!
# What the values of a session have in common

The values that a session keeps between its steps come of the operations that are bound at first and
of the expressions that its steps have read. What is hereditary and holds of those holds of all that
is bound to a name and of the last top-level value (`Reachable.kept`), whichever way the steps have
ended.
-/

namespace ExprLang

open EvalM

/-- The values that are bound to names have the property, and so has the last top-level value. -/
structure RunState.Kept (P : Expr → Prop) (s : RunState) : Prop where
  scope : s.scope.Each P
  last : ∀ value, s.last = some value → P value

namespace RunState.Kept

variable {P : Expr → Prop} {s : RunState}

theorem mono {Q : Expr → Prop} (h : s.Kept P) (hPQ : ∀ e, P e → Q e) : s.Kept Q :=
  ⟨fun frame hframe name value hvalue => hPQ value (h.scope frame hframe name value hvalue),
    fun value hlast => hPQ value (h.last value hlast)⟩

theorem enter (h : s.Kept P) : Kept P { s with scope := s.scope.enter } :=
  ⟨h.scope.enter, h.last⟩

theorem exit (h : s.Kept P) : Kept P { s with scope := s.scope.exit } :=
  ⟨h.scope.exit, h.last⟩

end RunState.Kept

section
variable {P : Expr → Prop} (hP : Hereditary P) (settings : Settings)
include hP

/-- No step of an evaluation writes a value without the property. -/
theorem kept_stable : Stable settings P P (fun _ => RunState.Kept P) fun _ => True := by
  have hkept : (fun _ : Nat => RunState.Kept P)
      = fun _ s => s.scope.Each P ∧ ∀ value, s.last = some value → P value := by
    funext _ s
    exact propext ⟨fun h => ⟨h.scope, h.last⟩, fun h => ⟨h.1, h.2⟩⟩
  rw [hkept]
  refine @each_stable P hP settings (fun last => ∀ value, last = some value → P value) ?_
  rintro _ _ value _ hvalue _ ⟨⟩
  exact hvalue

/-- An expression with the property comes to a value with it, if it comes to one, and leaves no
other. -/
theorem evaluate_kept {e : Expr} (he : P e) : Triple (RunState.Kept P) (evaluate settings e)
    (fun value s => P value ∧ s.Kept P) (fun _ s => s.Kept P) :=
  Triple.mono ((kept_stable hP settings).evaluate he 0) (fun _ h => h) (fun _ _ h => h)
    fun _ _ h => h.2

/-- A program of such expressions leaves no other value, though it comes to the end of a program. -/
theorem runProgram_kept {es : List Expr} (hes : ∀ e ∈ es, P e) {s : RunState} (hs : s.Kept P) :
    (final (runProgram settings es s)).Kept P := by
  induction es generalizing s with
  | nil => exact hs
  | cons e es ih =>
      obtain ⟨he, hes⟩ := List.forall_mem_cons.mp hes
      have hend := evaluate_kept hP settings he s hs
      cases hrun : evaluate settings e s with
      | ok value s' =>
          rw [hrun] at hend
          rw [runProgram_cons_ok hrun]
          exact ih hes ⟨hend.2.scope, fun _ hlast => Option.some.inj hlast ▸ hend.1⟩
      | error failure s' =>
          rw [hrun] at hend
          rw [runProgram_cons_error hrun]
          exact hend

end

/-! ## Steps of a session -/

/-- An expression is read from a source, as the whole of it or as one of the expressions of a
program. -/
def IsReadFrom (goal : Reader.Goal) (source : String) (e : Expr) : Prop :=
  goal = .expression ∧ Reader.parse goal source = .ok e ∨
    ∃ loc es, Reader.parse goal source = .ok (.program loc es) ∧ e ∈ es

/-- What is read from a source is an expression, or a program of expressions that are read from
it. -/
theorem parse_cases {goal : Reader.Goal} {source : String} {tree : Expr}
    (h : Reader.parse goal source = .ok tree) :
    goal = .expression ∧ IsReadFrom goal source tree ∨
      goal = .program ∧ ∃ loc es, tree = .program loc es ∧
        ∀ e ∈ es, IsReadFrom goal source e := by
  cases goal with
  | expression => exact .inl ⟨rfl, .inl ⟨rfl, h⟩⟩
  | program =>
      obtain ⟨-, ⟨es, -, rfl⟩, -⟩ := Reader.parse_eq_ok_iff.mp h
      exact .inr ⟨rfl, _, es, rfl, fun e hmem => .inr ⟨_, es, h, hmem⟩⟩

theorem IsReadFrom.parserBuilt {goal : Reader.Goal} {source : String} {e : Expr}
    (h : IsReadFrom goal source e) : ParserBuilt e := by
  rcases h with ⟨rfl, hparse⟩ | ⟨loc, es, hparse, hmem⟩
  · exact .inl ⟨source, hparse⟩
  · cases goal with
    | program => exact .inr ⟨source, loc, es, hparse, hmem⟩
    | expression =>
        have hfree := ParserBuilt.programFree (.inl ⟨source, hparse⟩)
        cases hfree with
        | of_parts hnode => exact absurd hnode nofun

/-- The root frame is one of those on the stack. -/
theorem ScopeStack.root_mem_frames (scope : ScopeStack) : scope.root ∈ scope.frames :=
  List.getLastD_mem_cons

section
variable {session after : Session} {goal : Reader.Goal} {source : String} {P : Expr → Prop}
  (hP : Hereditary P) (hread : ∀ e, IsReadFrom goal source e → P e)
include hP hread

/-- A source is run to a state in which values have what its expressions and the values before
have. -/
theorem evaluate_read_kept (settings : Settings) {tree : Expr}
    (hparse : Reader.parse goal source = .ok tree) {s : RunState} (hs : s.Kept P) :
    (final (evaluate settings tree s)).Kept P := by
  obtain ⟨-, htree⟩ | ⟨-, loc, es, rfl, hes⟩ := parse_cases hparse
  · exact (Triple.mono (evaluate_kept hP settings (hread tree htree)) (fun _ h => h)
      (fun _ _ h => h.2)
      fun _ _ h => h).final hs
  · rw [evaluate_program, final_inFrame]
    exact (runProgram_kept hP settings (fun e hmem => hread e (hes e hmem)) hs.enter).exit

theorem Session.StepsTo.kept {result : Except Reader.ReadError Outcome}
    (h : session.StepsTo goal source result after) (hs : session.state.Kept P) :
    after.state.Kept P := by
  have hcleared : session.cleared.state.Kept P := ⟨hs.scope, hs.last⟩
  cases h with
  | unread | refused => exact hcleared
  | done hparse hend =>
      have hkept := evaluate_read_kept hP hread session.settings hparse hcleared
      rwa [hend] at hkept
  | @failed tree failure s hparse hend =>
      have hkept := evaluate_read_kept hP hread session.settings hparse hcleared
      rw [hend] at hkept
      exact ⟨List.forall_mem_singleton.mpr (hkept.scope _ s.scope.root_mem_frames), hkept.last⟩

end

/-- What holds of the operations and of all expressions that can be written down holds of all that a
session keeps. -/
theorem Reachable.kept {P : Expr → Prop} (hP : Hereditary P)
    (hoperation : ∀ operation : Operation, P operation.value)
    (hwritten : ∀ e, IsWritten e → P e) {settings : Settings} {session : Session}
    (h : Reachable settings session) : session.state.Kept P := by
  induction h with
  | start console => exact ⟨List.forall_mem_singleton.mpr (builtinFrame_each hoperation), nofun⟩
  | step goal source _ ih =>
      obtain ⟨result, after, hstep⟩ := Session.exists_stepsTo _ goal source
      rw [hstep.handle_eq]
      exact hstep.kept hP (fun e hread => hwritten e hread.parserBuilt.written) ih
  | console console _ ih => exact ⟨ih.scope, ih.last⟩

end ExprLang
