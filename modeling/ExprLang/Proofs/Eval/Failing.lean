import ExprLang.Proofs.Eval.Activity

/-!
# How steps fail

A step fails where one of the steps that it is put together from fails, once those before have ended
with values. Said for each combinator of evaluation: a bind, a frame, trees that are evaluated one
after the other (`InTurn.eq_error_iff`), a condition, a round of a loop, and what a call executes.
-/

namespace ExprLang

open EvalM

variable {settings : Settings}

/-! ## Binds and brackets -/

theorem bind_eq_error_iff {α β : Type} {m : EvalM β} {f : β → EvalM α} {s s' : RunState}
    {failure : Failure} : (m >>= f) s = .error failure s' ↔ m s = .error failure s' ∨
      ∃ value s₁, m s = .ok value s₁ ∧ f value s₁ = .error failure s' := by
  rw [bind_apply]
  constructor
  · intro h
    cases hm : m s with
    | ok value s₁ =>
        rw [hm] at h
        exact .inr ⟨value, s₁, rfl, h⟩
    | error failure s₁ =>
        rw [hm] at h
        obtain ⟨rfl, rfl⟩ := EStateM.Result.error.inj h
        exact .inl rfl
  · rintro (h | ⟨value, s₁, hm, h⟩)
    · rw [h]
    · rw [hm]
      exact h

theorem bind_of_ok {α β : Type} {m : EvalM α} {s s' : RunState} {value : α}
    (h : m s = .ok value s') (f : α → EvalM β) : (m >>= f) s = f value s' := by
  rw [bind_apply, h]

theorem bracket_eq_error_iff {α : Type} {start stop halt : RunState → RunState}
    {mark : Failure → Failure} {act : EvalM α} {s s' : RunState} {failure : Failure} :
    bracket start stop halt mark act s = .error failure s' ↔
      ∃ raw s₁, act (start s) = .error raw s₁ ∧ mark raw = failure ∧ halt s₁ = s' := by
  unfold bracket
  constructor
  · intro h
    split at h
    next => exact absurd h nofun
    next raw s₁ hact =>
        obtain ⟨rfl, rfl⟩ := EStateM.Result.error.inj h
        exact ⟨raw, s₁, hact, rfl, rfl⟩
  · rintro ⟨raw, s₁, hact, rfl, rfl⟩
    rw [hact]

theorem inFrame_eq_error_iff {α : Type} {place : Option Loc} {act : EvalM α} {s s' : RunState}
    {failure : Failure} : inFrame place act s = .error failure s' ↔
      ∃ raw s₁, act s.entered = .error raw s₁ ∧ raw.locate place = failure ∧
        { s₁ with scope := s₁.scope.exit } = s' := by
  rw [inFrame_eq_bracket]
  exact bracket_eq_error_iff

theorem inFrame_of_ok {α : Type} (place : Option Loc) {act : EvalM α} {s s₁ : RunState}
    {value : α} (h : act s.entered = .ok value s₁) :
    inFrame place act s = .ok value { s₁ with scope := s₁.scope.exit } := by
  unfold inFrame
  rw [show act { s with scope := s.scope.enter } = .ok value s₁ from h]

/-- A frame sees nothing of the step inside it but what comes of that step. -/
theorem inFrame_congr {α : Type} {act act' : EvalM α} {s s' : RunState}
    (h : act s.entered = act' s') (place : Option Loc) :
    inFrame place act s = inFrame place (fun _ => act' s') s :=
  congrArg (fun result : EStateM.Result Failure RunState α => inFrame place (fun _ => result) s) h

/-- A failure inside a frame comes out of it, with the calls that are on record then. -/
theorem inFrame_of_error {α : Type} (place : Option Loc) {act : EvalM α} {s s₁ : RunState}
    {raw : Failure} (h : act s.entered = .error raw s₁) :
    ∃ s', inFrame place act s = .error (raw.locate place) s' ∧ s'.calls = s₁.calls :=
  ⟨_, inFrame_eq_error_iff.mpr ⟨raw, s₁, h, rfl, rfl⟩, rfl⟩

theorem onConsole_eq_error_iff {α : Type} {act : ConsoleM α} {s s' : RunState}
    {failure : Failure} : onConsole act s = .error failure s' ↔
      ∃ console, act s.console = .error failure console ∧
        { s with console := console } = s' := by
  unfold onConsole
  constructor
  · intro h
    split at h
    next => exact absurd h nofun
    next raw console hact =>
        obtain ⟨rfl, rfl⟩ := EStateM.Result.error.inj h
        exact ⟨console, hact, rfl⟩
  · rintro ⟨console, hact, rfl⟩
    rw [hact]

/-- A trace does not fail, and leaves the scope alone. -/
theorem traced_eq_error {α : Type} {trace : EvalM Unit} (htrace : Logs trace) {m : EvalM α}
    {s s' : RunState} {failure : Failure}
    (h : (if settings.tracing then trace >>= fun _ => m else m) s = .error failure s') :
    ∃ s₁, s₁.scope = s.scope ∧ m s₁ = .error failure s' := by
  split at h
  · obtain ⟨line, hline⟩ := htrace s
    rw [bind_apply, hline] at h
    exact ⟨s.logged line, rfl, h⟩
  · exact ⟨s, rfl, h⟩

theorem traced_apply {α : Type} (parts : List String) (m : EvalM α) (s : RunState) :
    (if settings.tracing then log parts >>= fun _ => m else m) s = m (s.noted settings parts) := by
  unfold RunState.noted
  cases settings.tracing with
  | true => rfl
  | false => rfl

/-! ## Sequences and loops -/

section
variable {nesting : Nat} {s s' : RunState} {failure : Failure}

/-- Evaluating trees one after the other: `run` goes on with the next tree as long as there are
values, and may carry something along. -/
structure InTurn (settings : Settings) (nesting : Nat) (keep : Expr → RunState → RunState)
    {σ α : Type} (run : σ → List Expr → EvalM α) : Prop where
  nil : ∀ a s, ∃ value, run a [] s = .ok value s
  cons : ∀ a e es s, match evalNested settings nesting e s with
    | .error failure s' => run a (e :: es) s = .error failure s'
    | .ok value s₁ => ∃ a', ∀ failure s',
        run a (e :: es) s = .error failure s' ↔ run a' es (keep value s₁) = .error failure s'

/-- Of trees that are evaluated one after the other, the first one that fails makes all of them
fail. -/
theorem InTurn.eq_error_iff {keep : Expr → RunState → RunState} {σ α : Type}
    {run : σ → List Expr → EvalM α} (h : InTurn settings nesting keep run) {a : σ}
    {es : List Expr} :
    run a es s = .error failure s' ↔ ∃ before e after s₁, es = before ++ e :: after ∧
      Passes settings nesting keep before s s₁ ∧
        evalNested settings nesting e s₁ = .error failure s' := by
  induction es generalizing a s with
  | nil =>
      obtain ⟨value, hvalue⟩ := h.nil a s
      rw [hvalue]
      refine iff_of_false nofun ?_
      rintro ⟨before, e, after, s₁, hsplit, -, -⟩
      cases before <;> exact absurd hsplit nofun
  | cons e es ih =>
      have hcons := h.cons a e es s
      cases hend : evalNested settings nesting e s with
      | error failure' s₁ =>
          rw [hend] at hcons
          rw [hcons]
          constructor
          · intro heq
            obtain ⟨rfl, rfl⟩ := EStateM.Result.error.inj heq
            exact ⟨[], e, es, s, rfl, .nil, hend⟩
          · rintro ⟨before, e', after, s₂, hsplit, hpasses, hfails⟩
            cases hpasses with
            | nil =>
                obtain ⟨rfl, -⟩ := List.cons.inj hsplit
                obtain ⟨rfl, rfl⟩ := EStateM.Result.error.inj (hend.symm.trans hfails)
                rfl
            | cons hvalue _ =>
                obtain ⟨rfl, -⟩ := List.cons.inj hsplit
                exact absurd (hend.symm.trans hvalue) nofun
      | ok value s₁ =>
          rw [hend] at hcons
          obtain ⟨a', hgoes⟩ := hcons
          rw [hgoes, ih]
          constructor
          · rintro ⟨before, e', after, s₂, rfl, hpasses, hfails⟩
            exact ⟨e :: before, e', after, s₂, rfl, .cons hend hpasses, hfails⟩
          · rintro ⟨before, e', after, s₂, hsplit, hpasses, hfails⟩
            cases hpasses with
            | nil =>
                obtain ⟨rfl, -⟩ := List.cons.inj hsplit
                exact absurd (hend.symm.trans hfails) nofun
            | cons hvalue hpasses =>
                obtain ⟨rfl, rfl⟩ := List.cons.inj hsplit
                cases hend.symm.trans hvalue
                exact ⟨_, e', after, s₂, rfl, hpasses, hfails⟩

theorem evalItems_inTurn : InTurn settings nesting (fun _ => id)
    fun (_ : Unit) es => evalItems settings (runBodies settings nesting) es where
  nil := fun _ s => ⟨[], rfl⟩
  cons := by
    intro _ e es s
    rw [evalItems, evalNested_eq, bind_apply]
    cases evalWith settings (runBodies settings nesting) e s with
    | error failure s' => rfl
    | ok value s₁ =>
        refine ⟨(), fun failure s' => ?_⟩
        simp only [bind_eq_error_iff]
        exact ⟨fun h => h.resolve_right (by rintro ⟨_, _, _, ⟨⟩⟩), .inl⟩

theorem evalSequence_inTurn : InTurn settings nesting (fun _ => id)
    (evalSequence settings (runBodies settings nesting)) where
  nil := fun last s => ⟨last, rfl⟩
  cons := by
    intro last e es s
    rw [evalSequence, evalNested_eq, bind_apply]
    cases evalWith settings (runBodies settings nesting) e s with
    | error failure s' => rfl
    | ok value s₁ => exact ⟨value, fun _ _ => .rfl⟩

theorem evalProgram_inTurn : InTurn settings nesting RunState.withLast
    fun (_ : Unit) es => evalProgram settings (runBodies settings nesting) es where
  nil := fun _ s => ⟨.endOfProgram, rfl⟩
  cons := by
    intro _ e es s
    rw [evalProgram, evalNested_eq, bind_apply]
    cases evalWith settings (runBodies settings nesting) e s with
    | error failure s' => rfl
    | ok value s₁ => exact ⟨(), fun _ _ => .rfl⟩

/-! ## Conditions and loops -/

theorem condition_eq_error_iff {construct : Construct} {test : Expr} :
    (evalNested settings nesting test >>= conditionValue construct) s = .error failure s' ↔
      evalNested settings nesting test s = .error failure s' ∨
        ∃ found, evalNested settings nesting test s = .ok found s' ∧ NotBoolean found ∧
          failure = .ofFault (.conditionNotBoolean construct found) := by
  have hvalue : ∀ found s₁, conditionValue construct found s₁ = .error failure s' ↔
      s₁ = s' ∧ NotBoolean found ∧
        failure = .ofFault (.conditionNotBoolean construct found) := by
    intro found s₁
    cases found with
    | bool loc value => exact iff_of_false nofun fun h => h.2.1 loc value rfl
    | _ =>
        constructor
        · rintro ⟨⟩
          exact ⟨rfl, nofun, rfl⟩
        · rintro ⟨rfl, -, rfl⟩
          rfl
  rw [bind_eq_error_iff]
  refine or_congr_right ⟨?_, ?_⟩
  · rintro ⟨found, s₁, hfound, hfails⟩
    obtain ⟨rfl, hnot, hfailure⟩ := (hvalue found s₁).mp hfails
    exact ⟨found, hfound, hnot, hfailure⟩
  · rintro ⟨found, hfound, hnot, hfailure⟩
    exact ⟨found, s', hfound, (hvalue found s').mpr ⟨rfl, hnot, hfailure⟩⟩

theorem condition_eq_ok_iff {construct : Construct} {test : Expr} {holds : Bool} :
    (evalNested settings nesting test >>= conditionValue construct) s = .ok holds s' ↔
      ∃ loc, evalNested settings nesting test s = .ok (.bool loc holds) s' := by
  rw [bind_apply]
  cases evalNested settings nesting test s with
  | error failure s₁ => exact iff_of_false nofun nofun
  | ok found s₁ =>
      cases found with
      | bool loc value =>
          constructor
          · rintro ⟨⟩
            exact ⟨loc, rfl⟩
          · rintro ⟨loc', ⟨⟩⟩
            rfl
      | _ => exact iff_of_false nofun nofun

/-- How a loop that may still test its condition fails. -/
theorem repeatWhile_eq_error_iff {test : EvalM Bool} {body : EvalM Expr} {tests done : Nat}
    {last : Expr} : repeatWhile settings test body (tests + 1) done last s = .error failure s' ↔
      test s = .error failure s' ∨ ∃ s₁, test s = .ok true s₁ ∧
        (settings.capReached done = true ∧ failure = .ofFault .loopLimit ∧ s₁ = s' ∨
          settings.capReached done = false ∧ (body s₁ = .error failure s' ∨
            ∃ value s₂, body s₁ = .ok value s₂ ∧
              repeatWhile settings test body tests (done + 1) value s₂ = .error failure s')) := by
  rw [repeatWhile, bind_eq_error_iff]
  refine or_congr_right ⟨?_, ?_⟩
  · rintro ⟨holds, s₁, htest, hfails⟩
    cases holds with
    | false => exact absurd hfails nofun
    | true =>
        refine ⟨s₁, htest, ?_⟩
        cases hcap : settings.capReached done with
        | true =>
            simp only [hcap, if_true] at hfails
            obtain ⟨rfl, rfl⟩ := EStateM.Result.error.inj hfails
            exact .inl ⟨rfl, rfl, rfl⟩
        | false =>
            simp only [hcap, if_true, Bool.false_eq_true, if_false] at hfails
            exact .inr ⟨rfl, bind_eq_error_iff.mp hfails⟩
  · rintro ⟨s₁, htest, ⟨hcap, rfl, rfl⟩ | ⟨hcap, hfails⟩⟩
    · refine ⟨true, s₁, htest, ?_⟩
      simp only [hcap, if_true]
      rfl
    · refine ⟨true, s₁, htest, ?_⟩
      simp only [hcap, if_true, Bool.false_eq_true, if_false]
      exact bind_eq_error_iff.mpr hfails

/-! ## The inside of each node -/

section
variable (settings nesting) (loc : Option Loc)

theorem evalNested_ident (name : String) :
    evalNested settings nesting (.ident loc name) = inFrame loc (lookup name) := by
  rw [evalNested_eq, evalWith]

theorem evalNested_list (items : List Expr) :
    evalNested settings nesting (.list loc items) = inFrame loc do
      return .list none (← evalItems settings (runBodies settings nesting) items) := by
  rw [evalNested_eq, evalWith]

theorem evalNested_block (exprs : List Expr) : evalNested settings nesting (.block loc exprs)
    = inFrame loc (evalSequence settings (runBodies settings nesting) .null exprs) := by
  rw [evalNested_eq, evalWith]

theorem evalNested_program (exprs : List Expr) : evalNested settings nesting (.program loc exprs)
    = inFrame loc (evalProgram settings (runBodies settings nesting) exprs) := by
  rw [evalNested_eq, evalWith]

theorem evalNested_binding (name : String) (value : Expr) :
    evalNested settings nesting (.binding loc name value) = inFrame loc (do
      let value ← evalNested settings nesting value
      if settings.tracing then
        log ["let", name, "=", value.display, "depth", toString (← get).scope.depth]
      bindName name value
      return value) := by
  rw [evalNested_eq, evalWith]

theorem evalNested_choice (test yes no : Expr) :
    evalNested settings nesting (.choice loc test yes no) = inFrame loc (do
      if ← evalNested settings nesting test >>= conditionValue .choice then
        evalNested settings nesting yes
      else evalNested settings nesting no) := by
  rw [evalNested_eq, evalWith]

theorem evalNested_loop (test body : Expr) :
    evalNested settings nesting (.loop loc test body) = inFrame loc (repeatWhile settings
      (evalNested settings nesting test >>= conditionValue .loop)
      (evalNested settings nesting body) settings.tests 0 .null) := by
  rw [evalNested_eq, evalWith]

theorem evalNested_call (callee : Expr) (arg : Option Expr) :
    evalNested settings nesting (.call loc callee arg) = inFrame loc
      (evalNested settings nesting callee >>= apply settings (runBodies settings nesting)
        (calleeName callee) (arg.map (evalNested settings nesting))) := by
  rw [evalNested_eq]
  cases arg with
  | none =>
      rw [evalWith]
      rfl
  | some arg =>
      rw [evalWith]
      rfl

end

/-! ## Calls -/

section
variable {ev : Evaluation} {call : CallRecord} {s₁ : RunState}

/-- A call that comes to execute a body is the execution of that body inside a frame. -/
theorem Enters.eval_eq {body : Expr} (h : Enters settings ev call body s₁) :
    evalNested settings ev.nesting ev.tree ev.state = inFrame ev.tree.loc? (fun _ =>
      enterBody settings (runBodies settings ev.nesting) call.name call.callee body call.args s₁)
        ev.state := by
  cases h with
  | bare hcallee =>
      rw [evalNested_call]
      exact inFrame_congr (bind_of_ok hcallee _) _
  | given hcallee harg hparam =>
      rw [evalNested_call]
      refine inFrame_congr ((bind_of_ok hcallee _).trans ?_) _
      exact (bind_of_ok harg _).trans (bind_of_ok hparam _)

/-- A call that comes to run an operation is the running of that operation inside a frame. -/
theorem Operates.eval_eq (h : Operates settings ev call s₁) :
    evalNested settings ev.nesting ev.tree ev.state = inFrame ev.tree.loc? (fun _ =>
      invoke settings call.callee call.name call.args s₁) ev.state := by
  cases h with
  | full hcallee =>
      rw [evalNested_call]
      exact inFrame_congr (bind_of_ok hcallee _) _
  | last hcallee harg =>
      rw [evalNested_call]
      exact inFrame_congr ((bind_of_ok hcallee _).trans (bind_of_ok harg _)) _

end

/-- A call is refused for what is called alone. -/
theorem apply_of_refused {runBody : Expr → EvalM Expr} {name : String} {arg : Option (EvalM Expr)}
    {found : Expr} {fault : Fault} (h : refusal? name arg.isSome found = some fault) :
    apply settings runBody name arg found s = .error (.ofFault fault) s := by
  cases found with
  | fn loc param body =>
      match param, arg with
      | none, some _ | some _, none =>
          cases h
          rfl
      | none, none | some _, some _ => exact absurd h nofun
  | builtin loc operation missing supplied =>
      match missing, arg with
      | _ + 1, none =>
          cases h
          rfl
      | 0, _ | _ + 1, some _ => exact absurd h nofun
  | _ =>
      cases h
      rfl

/-- A call fails with its argument, if what is called takes one. -/
theorem apply_of_argument {runBody : Expr → EvalM Expr} {name : String} {arg : EvalM Expr}
    {found : Expr} (htakes : TakesArgument found) (harg : arg s = .error failure s') :
    apply settings runBody name (some arg) found s = .error failure s' := by
  cases found with
  | fn loc param body =>
      cases param with
      | none => exact htakes.elim
      | some param => exact bind_eq_error_iff.mpr (.inl harg)
  | builtin loc operation missing supplied =>
      cases missing with
      | zero => exact htakes.elim
      | succ missing => exact bind_eq_error_iff.mpr (.inl harg)
  | _ => exact htakes.elim

/-- A body fails in the state in which it is executed. -/
theorem enterBody_eq_error_iff {runBody : Expr → EvalM Expr} {name : String} {callee body : Expr}
    {args : List Expr} : enterBody settings runBody name callee body args s = .error failure s' ↔
      ∃ s₁, runBody body
        ((s.noted settings (CallRecord.functionNote ⟨name, callee, args⟩)).executing
          ⟨name, callee, args⟩) = .error failure s₁ ∧
        { s₁ with floors := s₁.floors.tail } = s' := by
  have happly : enterBody settings runBody name callee body args s
      = recorded ⟨name, callee, args⟩ (aboveFloor (runBody body)) (s.noted settings _) :=
    traced_apply (CallRecord.functionNote ⟨name, callee, args⟩) _ s
  rw [happly, recorded_eq_bracket, bracket_eq_error_iff]
  constructor
  · rintro ⟨raw, s₁, hact, rfl, rfl⟩
    rw [aboveFloor_eq_bracket] at hact
    obtain ⟨raw', s₂, hbody, rfl, rfl⟩ := bracket_eq_error_iff.mp hact
    exact ⟨s₂, hbody, rfl⟩
  · rintro ⟨s₁, hbody, rfl⟩
    refine ⟨failure, _, ?_, rfl, rfl⟩
    rw [aboveFloor_eq_bracket]
    exact bracket_eq_error_iff.mpr ⟨failure, s₁, hbody, rfl, rfl⟩

theorem invoke_eq_error_iff {callee : Expr} {name : String} {args : List Expr} :
    invoke settings callee name args s = .error failure s' ↔
      ∃ console, runBuiltin name args
          (s.noted settings (CallRecord.operationNote ⟨name, callee, args⟩)).console
            = .error failure console ∧
        { s.noted settings (CallRecord.operationNote ⟨name, callee, args⟩) with
          calls := ⟨name, callee, args⟩ ::
            (s.noted settings (CallRecord.operationNote ⟨name, callee, args⟩)).calls,
          console := console } = s' := by
  have happly : invoke settings callee name args s
      = recorded ⟨name, callee, args⟩ (onConsole (runBuiltin name args)) (s.noted settings _) :=
    traced_apply (CallRecord.operationNote ⟨name, callee, args⟩) _ s
  rw [happly, recorded_eq_bracket, bracket_eq_error_iff]
  constructor
  · rintro ⟨raw, s₁, hact, rfl, rfl⟩
    exact onConsole_eq_error_iff.mp hact
  · intro h
    exact ⟨failure, s', onConsole_eq_error_iff.mpr h, rfl, rfl⟩

end

end ExprLang
