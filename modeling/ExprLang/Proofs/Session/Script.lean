import ExprLang.Proofs.Eval.Overlay
import ExprLang.Proofs.Scope.Values

/-!
# Scripts and sessions

A program does what a session does that evaluates its expressions one by one in one scope, up to the
first failure (`program_agrees_with_session`): it succeeds or fails in the same way, reads and
writes the same, and the last top-level value runs through the values of its expressions.

The two bind their names in different frames, the program in a frame of its own over the root frame
and the session in the root frame itself. `Overlaid` states cannot be told apart by an evaluation,
so the expressions of the program keep step with those of the session, one by one
(`runProgram_endsLike`).
-/

namespace ExprLang

open EvalM

/-! ## Expressions one by one -/

/-- What comes of evaluating expressions one after the other, up to the first failure. -/
structure OneByOne where
  /-- The values, in order, of the expressions before the failure. -/
  values : List Expr
  /-- The failure, if there is one. -/
  failure? : Option Failure
  /-- The state in the end. -/
  state : RunState

/-- Evaluates expressions one after the other in one persistent state, and stops at the first
failure. -/
def evaluateEach (settings : Settings) : List Expr → RunState → OneByOne
  | [], s => ⟨[], none, s⟩
  | e :: es, s =>
      match evaluate settings e s with
      | .ok value s =>
          let rest := evaluateEach settings es s
          { rest with values := value :: rest.values }
      | .error failure s => ⟨[], some failure, s⟩

/-- Evaluates the expressions of a program in the frame that the program has pushed. -/
def runProgram (settings : Settings) (es : List Expr) : EvalM Expr :=
  evalProgram settings (runBodies settings settings.nesting) es

theorem evaluate_program (settings : Settings) (loc : Option Loc) (es : List Expr) :
    evaluate settings (.program loc es) = inFrame loc (runProgram settings es) := by
  rw [evaluate_eq, evalWith]
  rfl

section
variable {settings : Settings} {e : Expr} {es : List Expr} {s s' : RunState}

/-- A program goes on with its other expressions once the first has a value. -/
theorem runProgram_cons_ok {value : Expr} (h : evaluate settings e s = .ok value s') :
    runProgram settings (e :: es) s = runProgram settings es { s' with last := some value } := by
  rw [evaluate_eq] at h
  rw [runProgram, evalProgram, bind_apply, h]
  rfl

theorem runProgram_cons_error {failure : Failure} (h : evaluate settings e s = .error failure s') :
    runProgram settings (e :: es) s = .error failure s' := by
  rw [evaluate_eq] at h
  rw [runProgram, evalProgram, bind_apply, h]

end

/-! ## Keeping step -/

/-- The program has ended as the expressions one by one have, and what was the last top-level value
before is so still if none of them has a value. -/
def EndsLike (last last' : Option Expr) (each : OneByOne) :
    EStateM.Result Failure RunState Expr → Prop
  | .ok value s => value = .endOfProgram ∧ each.failure? = none ∧
      Overlaid (each.values.getLast?.or last) last' 0 s each.state
  | .error failure s => each.failure? = some failure ∧
      Overlaid (each.values.getLast?.or last) last' 0 s each.state

theorem getLast?_cons_or (value : Expr) (values : List Expr) (last : Option Expr) :
    (value :: values).getLast?.or last = values.getLast?.or (some value) := by
  cases h : values.getLast? with
  | none => simp [List.getLast?_cons, h]
  | some other => simp [List.getLast?_cons, h]

section
variable (settings : Settings) {last last' : Option Expr} {s t : RunState}

/-- One expression has the same end in the program and by itself. -/
theorem evaluate_overlaid {e : Expr} (he : ProgramFree e) (h : Overlaid last last' 0 s t) :
    EndAlike ProgramFree (Overlaid last last' 0) (evaluate settings e s) (evaluate settings e t) :=
  (overlaid_linked last last').evaluate_inStep settings settings.tracing he 0 s t h

/-- The expressions of a program keep step with those of a session. -/
theorem runProgram_endsLike {es : List Expr} (hes : ∀ e ∈ es, ProgramFree e)
    (h : Overlaid last last' 0 s t) :
    EndsLike last last' (evaluateEach settings es t) (runProgram settings es s) := by
  induction es generalizing last s t with
  | nil => exact ⟨rfl, rfl, h⟩
  | cons e es ih =>
      have ⟨he, hes⟩ := List.forall_mem_cons.mp hes
      rw [evaluateEach]
      match hs : evaluate settings e s, evaluate settings e t, evaluate_overlaid settings he h with
      | _, _, @EndAlike.ok _ _ _ value s' t' _ h' =>
          -- only the program keeps the value, and that is all the difference it makes
          have hnext : Overlaid (some value) last' 0 { s' with last := some value } t' :=
            { h' with last := rfl }
          rw [runProgram_cons_ok hs]
          simp only [EndsLike, getLast?_cons_or]
          exact ih hes hnext
      | _, _, .error h' =>
          rw [runProgram_cons_error hs]
          exact ⟨rfl, h'⟩

/-- When so many expressions of a program have a value, the last of these values is the last
top-level one, the others are still to be evaluated, and evaluating the next changes nothing of
that. -/
theorem runProgram_passes {es : List Expr} (hes : ∀ e ∈ es, ProgramFree e)
    (h : Overlaid last last' 0 s t) {count : Nat}
    (hcount : count ≤ (evaluateEach settings es t).values.length) :
    ∃ u, runProgram settings (es.take count) s = .ok .endOfProgram u ∧
      u.last = ((evaluateEach settings es t).values.take count).getLast?.or last ∧
      runProgram settings es s = runProgram settings (es.drop count) u ∧
      ∀ e, es[count]? = some e → (final (evaluate settings e u)).last = u.last := by
  induction es generalizing last s t count with
  | nil =>
      have hzero : count = 0 := Nat.le_zero.mp hcount
      subst hzero
      exact ⟨s, rfl, h.last, rfl, fun e he => absurd he nofun⟩
  | cons e es ih =>
      have ⟨he, hes⟩ := List.forall_mem_cons.mp hes
      cases count with
      | zero =>
          -- nothing has a value yet, and no evaluation of an expression touches the last value
          refine ⟨s, rfl, h.last, rfl, fun next hnext => ?_⟩
          obtain rfl : e = next := Option.some.inj hnext
          rw [h.last]
          match evaluate settings e s, evaluate settings e t, evaluate_overlaid settings he h with
          | _, _, .ok _ h' => exact h'.last
          | _, _, .error h' => exact h'.last
      | succ count =>
          revert hcount
          rw [evaluateEach]
          match hs : evaluate settings e s, evaluate settings e t,
            evaluate_overlaid settings he h with
          | _, _, .error _ => exact fun hcount => absurd hcount (Nat.not_succ_le_zero count)
          | _, _, @EndAlike.ok _ _ _ value s' t' _ h' =>
              intro hcount
              have hnext : Overlaid (some value) last' 0 { s' with last := some value } t' :=
                { h' with last := rfl }
              obtain ⟨u, hu, hlast, hrest, hkeeps⟩ :=
                ih hes hnext (Nat.le_of_succ_le_succ hcount)
              refine ⟨u, ?_, ?_, ?_, hkeeps⟩
              · rw [List.take_succ_cons, runProgram_cons_ok hs, hu]
              · simp only [List.take_succ_cons, getLast?_cons_or]
                exact hlast
              · rw [List.drop_succ_cons, runProgram_cons_ok hs, hrest]

end

/-! ## A program and a session -/

/-- What is left to be seen is the same: what has been read and written, the calls that are active,
and as the last top-level value that of the last expression that has one. -/
structure SeenAlike (each : OneByOne) (s : RunState) : Prop where
  console : s.console.Alike each.state.console
  calls : s.calls = each.state.calls
  last : s.last = each.values.getLast?

/-- A program of these expressions does what they do when they are evaluated one by one. -/
structure AgreesWithSession (settings : Settings) (es : List Expr) (start : RunState) : Prop where
  /-- If they all have values, the program succeeds. -/
  succeeds : (evaluateEach settings es start).failure? = none →
    ∃ s, evaluate settings (.program none es) start = .ok .endOfProgram s ∧
      SeenAlike (evaluateEach settings es start) s
  /-- If one of them fails, the program fails with the same failure. -/
  fails : ∀ failure, (evaluateEach settings es start).failure? = some failure →
    ∃ s, evaluate settings (.program none es) start = .error failure s ∧
      SeenAlike (evaluateEach settings es start) s
  /-- The last top-level value runs through their values: when the program has evaluated so many of
  them, it is the value of the last of these, and it stays until the next one has a value. -/
  last_values : ∀ count ≤ (evaluateEach settings es start).values.length,
    ∃ s, runProgram settings (es.take count) { start with scope := start.scope.enter }
        = .ok .endOfProgram s ∧
      s.last = ((evaluateEach settings es start).values.take count).getLast? ∧
      runProgram settings es { start with scope := start.scope.enter }
        = runProgram settings (es.drop count) s ∧
      ∀ e, es[count]? = some e → (final (evaluate settings e s)).last = s.last

theorem builtinFrame_programFree : builtinFrame.ProgramFree :=
  builtinFrame_each fun _ => .leaf rfl rfl

/-- In a program that has just begun, the frame that it has pushed lies over the root frame. -/
theorem overlaid_fresh (console : Console) :
    let fresh := RunState.initial (.ofRoot builtinFrame) console
    Overlaid none none 0 { fresh with scope := fresh.scope.enter } fresh where
  scope := .bottom (fun _ => rfl) .empty builtinFrame_programFree
  floors := rfl
  floors_pos := fun _ hfloor => absurd hfloor List.not_mem_nil
  calls := rfl
  console := rfl
  last := rfl
  last' := rfl

theorem Failure.locate_none (failure : Failure) : failure.locate none = failure := by
  cases failure with
  | fault cause place => cases place with
    | none => rfl
    | some loc => rfl
  | _ => rfl

theorem Overlaid.seenAlike {each : OneByOne} {s : RunState}
    (h : Overlaid (each.values.getLast?.or none) none 0 s each.state) :
    SeenAlike each { s with scope := s.scope.exit } :=
  ⟨h.console, h.calls.symm, by simpa using h.last⟩

/-- A program of expressions that the parser builds, run on a fresh scope, does what a session on a
fresh scope does that evaluates these expressions one by one. -/
theorem program_agrees_with_session (settings : Settings) (console : Console) {es : List Expr}
    (hes : ∀ e ∈ es, ParserBuilt e) :
    AgreesWithSession settings es (.initial (.ofRoot builtinFrame) console) := by
  have hfree : ∀ e ∈ es, ProgramFree e := fun e hmem => (hes e hmem).programFree
  have hfresh := overlaid_fresh console
  have hend := runProgram_endsLike settings hfree hfresh
  refine ⟨fun hnone => ?_, fun failure hsome => ?_, fun count hcount => ?_⟩
  · rw [evaluate_program]
    unfold inFrame
    revert hend
    cases runProgram settings es _ with
    | ok value s => exact fun ⟨hvalue, _, h⟩ => ⟨_, by rw [hvalue], h.seenAlike⟩
    | error failure s => exact fun ⟨hsome, _⟩ => absurd (hnone.symm.trans hsome) nofun
  · rw [evaluate_program]
    unfold inFrame
    revert hend
    cases runProgram settings es _ with
    | ok value s => exact fun ⟨_, hnone, _⟩ => absurd (hnone.symm.trans hsome) nofun
    | error failure' s =>
        intro ⟨hsome', h⟩
        obtain rfl : failure' = failure := Option.some.inj (hsome'.symm.trans hsome)
        exact ⟨_, by simp only [Failure.locate_none], h.seenAlike⟩
  · simpa using runProgram_passes settings hfree hfresh hcount

/-- A built-in name is bound to a function, whose parameter is still bound after its call; the last
name is bound nowhere. -/
theorem program_agrees_with_session_rebound :
    let es := [.binding (some ⟨1, 1⟩) "inc"
        (.fn none (some "n") (.block none [.ident (some ⟨1, 18⟩) "n"])),
      .call (some ⟨1, 1⟩) (.ident (some ⟨1, 1⟩) "inc") (some (.int none 7)),
      .ident (some ⟨1, 1⟩) "n", .ident (some ⟨1, 1⟩) "m"]
    (∀ e ∈ es, ParserBuilt e) ∧
      AgreesWithSession {} es (.initial (.ofRoot builtinFrame) (.ofInput "")) := by
  intro es
  have hes : ∀ e ∈ es, ParserBuilt e := by
    simp only [es, List.forall_mem_cons]
    exact ⟨.inl ⟨"let inc = fn(n) {n}", by rfl⟩, .inl ⟨"inc(7)", by rfl⟩,
      .inl ⟨"n", by rfl⟩,
      .inl ⟨"m", by rfl⟩, nofun⟩
  exact ⟨hes, program_agrees_with_session {} (.ofInput "") hes⟩

end ExprLang
