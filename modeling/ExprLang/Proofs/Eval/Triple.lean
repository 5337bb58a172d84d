import ExprLang.Eval

/-!
# Triples for steps of a run

A step ends with a value or with a failure, and in a state either way. `Triple before m after
failed` says of a step `m` that begins in a state with `before` that it ends with a value and
`after` or with a failure and `failed`; `Keeps I m` says that the step leaves `I` true however it
ends. Both go through the combinators that evaluation is built from, loops and sequences included.
-/

namespace ExprLang

namespace EvalM

variable {α β : Type}

/-! ## Endings -/

/-- The state in which a step ends, whichever way it does. -/
def final : EStateM.Result Failure RunState α → RunState
  | .ok _ s => s
  | .error _ s => s

/-- What holds at the end of a step: one thing after a value, another after a failure. -/
def Ends (after : α → RunState → Prop) (failed : Failure → RunState → Prop) :
    EStateM.Result Failure RunState α → Prop
  | .ok value s => after value s
  | .error failure s => failed failure s

/-- A step that begins with `before` ends with `after` or with `failed`. -/
def Triple (before : RunState → Prop) (m : EvalM α) (after : α → RunState → Prop)
    (failed : Failure → RunState → Prop) : Prop :=
  ∀ s, before s → Ends after failed (m s)

/-- A step that leaves a property of the state true however it ends. -/
def Keeps (I : RunState → Prop) (m : EvalM α) : Prop :=
  Triple I m (fun _ => I) (fun _ => I)

/-! ## Rules -/

theorem bind_apply (m : EvalM α) (f : α → EvalM β) (s : RunState) :
    (m >>= f) s = match m s with
      | .ok value s => f value s
      | .error failure s => .error failure s := by
  show EStateM.bind m f s = _
  unfold EStateM.bind
  cases m s with
  | ok => rfl
  | error => rfl

namespace Triple

variable {before : RunState → Prop} {after : α → RunState → Prop}
  {failed : Failure → RunState → Prop}

theorem pure {value : α} (h : ∀ s, before s → after value s) :
    Triple before (Pure.pure value) after failed := h

theorem bind {middle : β → RunState → Prop} {m : EvalM β} {f : β → EvalM α}
    (hm : Triple before m middle failed)
    (hf : ∀ value, Triple (middle value) (f value) after failed) :
    Triple before (m >>= f) after failed := by
  intro s hs
  have hmid := hm s hs
  rw [bind_apply]
  cases hms : m s with
  | ok value s' =>
      rw [hms] at hmid
      exact hf value s' hmid
  | error failure s' =>
      rw [hms] at hmid
      exact hmid

/-- A triple holds of less to begin with and of more in the end. -/
theorem mono {before' : RunState → Prop} {after' : α → RunState → Prop}
    {failed' : Failure → RunState → Prop} {m : EvalM α} (h : Triple before m after failed)
    (hbefore : ∀ s, before' s → before s)
    (hafter : ∀ value s, after value s → after' value s)
    (hfailed : ∀ failure s, failed failure s → failed' failure s) :
    Triple before' m after' failed' := by
  intro s hs
  have hend := h s (hbefore s hs)
  cases hms : m s with
  | ok value s' =>
      rw [hms] at hend
      exact hafter value s' hend
  | error failure s' =>
      rw [hms] at hend
      exact hfailed failure s' hend

/-- What holds after a value and after a failure alike holds where the step ends. -/
theorem final {I : RunState → Prop} {m : EvalM α} (h : Triple before m (fun _ => I) (fun _ => I))
    {s : RunState} (hs : before s) : I (EvalM.final (m s)) := by
  have hend := h s hs
  cases hms : m s with
  | ok value s' =>
      rw [hms] at hend
      exact hend
  | error failure s' =>
      rw [hms] at hend
      exact hend

theorem of_final {I : RunState → Prop} {m : EvalM α}
    (h : ∀ s, before s → I (EvalM.final (m s))) :
    Triple before m (fun _ => I) (fun _ => I) := by
  intro s hs
  have hend := h s hs
  cases hms : m s with
  | ok value s' =>
      rw [hms] at hend
      exact hend
  | error failure s' =>
      rw [hms] at hend
      exact hend

end Triple

/-! ## Brackets -/

/-- A step with a change of the state before it and another after it, which depends on how it
ends. -/
def bracket (start stop halt : RunState → RunState) (mark : Failure → Failure)
    (act : EvalM α) : EvalM α := fun s =>
  match act (start s) with
  | .ok value s => .ok value (stop s)
  | .error failure s => .error (mark failure) (halt s)

theorem inFrame_eq_bracket (place : Option Loc) (act : EvalM α) :
    inFrame place act = bracket (fun s => { s with scope := s.scope.enter })
      (fun s => { s with scope := s.scope.exit }) (fun s => { s with scope := s.scope.exit })
      (Failure.locate place) act := rfl

theorem aboveFloor_eq_bracket (act : EvalM α) :
    aboveFloor act = bracket (fun s => { s with floors := s.scope.depth :: s.floors })
      (fun s => { s with floors := s.floors.tail }) (fun s => { s with floors := s.floors.tail }) id
      act := rfl

theorem recorded_eq_bracket (call : CallRecord) (act : EvalM α) :
    recorded call act = bracket (fun s => { s with calls := call :: s.calls })
      (fun s => { s with calls := s.calls.tail }) id id act := rfl

theorem final_inFrame (place : Option Loc) (act : EvalM α) (s : RunState) :
    final (inFrame place act s) =
      { final (act { s with scope := s.scope.enter }) with
        scope := (final (act { s with scope := s.scope.enter })).scope.exit } := by
  unfold inFrame
  cases act { s with scope := s.scope.enter } with
  | ok => rfl
  | error => rfl

theorem final_aboveFloor (act : EvalM α) (s : RunState) :
    final (aboveFloor act s) =
      { final (act { s with floors := s.scope.depth :: s.floors }) with
        floors := (final (act { s with floors := s.scope.depth :: s.floors })).floors.tail } := by
  unfold aboveFloor
  cases act { s with floors := s.scope.depth :: s.floors } with
  | ok => rfl
  | error => rfl

/-! ## Steps that keep a property -/

namespace Keeps

variable {I : RunState → Prop}

theorem pure (value : α) : Keeps I (Pure.pure value : EvalM α) := fun _ h => h

theorem throw (failure : Failure) : Keeps I (throw failure : EvalM α) := fun _ h => h

theorem raise (fault : Fault) : Keeps I (raise fault : EvalM α) := fun _ h => h

theorem bind {m : EvalM α} {f : α → EvalM β} (hm : Keeps I m)
    (hf : ∀ value, Keeps I (f value)) : Keeps I (m >>= f) :=
  Triple.bind hm hf

theorem ite {m m' : EvalM α} (test : Bool) (hm : Keeps I m) (hm' : Keeps I m') :
    Keeps I (if test then m else m') := by
  cases test with
  | true => exact hm
  | false => exact hm'

theorem final {m : EvalM α} (hm : Keeps I m) {s : RunState} (h : I s) : I (EvalM.final (m s)) :=
  Triple.final hm h

theorem of_final {m : EvalM α} (h : ∀ s, I s → I (EvalM.final (m s))) : Keeps I m :=
  Triple.of_final h

theorem conditionValue (construct : Construct) (value : Expr) :
    Keeps I (ExprLang.conditionValue construct value) := by
  cases value with
  | bool loc value => exact pure value
  | _ => exact raise _

/-- A loop keeps what its test and its body keep. -/
theorem repeatWhile {settings : Settings} {test : EvalM Bool} {body : EvalM Expr}
    (htest : Keeps I test) (hbody : Keeps I body) (tests done : Nat) (last : Expr) :
    Keeps I (repeatWhile settings test body tests done last) := by
  induction tests generalizing done last with
  | zero => exact throw _
  | succ tests ih =>
      refine bind htest fun holds => ite holds ?_ (pure last)
      exact ite _ (raise _) (bind hbody fun value => ih (done + 1) value)

section
variable {settings : Settings} {runBody : Expr → EvalM Expr}

/-- A sequence keeps what each of its members keeps. -/
theorem evalSequence {es : List Expr} (h : ∀ e ∈ es, Keeps I (evalWith settings runBody e))
    (last : Expr) : Keeps I (evalSequence settings runBody last es) := by
  induction es generalizing last with
  | nil => exact pure last
  | cons e es ih =>
      rw [ExprLang.evalSequence]
      obtain ⟨he, hes⟩ := List.forall_mem_cons.mp h
      exact bind he fun value => ih hes value

/-- A list keeps what each of its members keeps. -/
theorem evalItems {es : List Expr} (h : ∀ e ∈ es, Keeps I (evalWith settings runBody e)) :
    Keeps I (evalItems settings runBody es) := by
  induction es with
  | nil => exact pure []
  | cons e es ih =>
      rw [ExprLang.evalItems]
      obtain ⟨he, hes⟩ := List.forall_mem_cons.mp h
      exact bind he fun value => bind (ih hes) fun values => pure _

/-- A program keeps what each of its expressions and the keeping of their values keeps. -/
theorem evalProgram {es : List Expr} (h : ∀ e ∈ es, Keeps I (evalWith settings runBody e))
    (hlast : ∀ value, Keeps I (setLast value)) : Keeps I (evalProgram settings runBody es) := by
  induction es with
  | nil => exact pure _
  | cons e es ih =>
      rw [ExprLang.evalProgram]
      obtain ⟨he, hes⟩ := List.forall_mem_cons.mp h
      exact bind he fun value => bind (hlast value) fun _ => ih hes

end

end Keeps

end EvalM

/-! ## Nested calls -/

/-- How the bodies of user functions are run where calls may nest to a depth. -/
def runBodies (settings : Settings) : (nesting : Nat) → Expr → EvalM Expr
  | 0 => fun _ => throw .tooDeep
  | nesting + 1 => evalNested settings nesting

theorem evalNested_eq (settings : Settings) (nesting : Nat) :
    evalNested settings nesting = evalWith settings (runBodies settings nesting) := by
  cases nesting with
  | zero => rfl
  | succ nesting => rfl

theorem evaluate_eq (settings : Settings) :
    evaluate settings = evalWith settings (runBodies settings settings.nesting) := by
  rw [← evalNested_eq]
  rfl

/-- What holds of giving up, and of evaluation once it holds of the running of bodies, holds of the
running of bodies at every depth. -/
theorem runBodies_induction {settings : Settings} {C : (Expr → EvalM Expr) → Prop}
    (stop : C fun _ => throw .tooDeep)
    (step : ∀ runBody, C runBody → C (evalWith settings runBody)) (nesting : Nat) :
    C (runBodies settings nesting) := by
  induction nesting with
  | zero => exact stop
  | succ nesting ih =>
      show C (evalNested settings nesting)
      rw [evalNested_eq]
      exact step _ ih

end ExprLang
