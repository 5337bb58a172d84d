import ExprLang.Proofs.Console.Alike
import ExprLang.Proofs.Eval.Congruence

/-!
# Two runs in lockstep

Two runs of the same tree in related states go the same way: they end with the same value or with
the same failure, and in related states again (`Linked.evaluate_inStep`). This holds of every
relation that the primitive steps of evaluation cannot break (`Linked`), so a relation between
states has to be looked at only where a step touches the state.

The relation may depend on how many frames have been pushed on top of those that the runs started
on. It may speak of the trees that the runs come across, if what it says of them is hereditary. The
runs may differ in whether they are traced.
-/

namespace ExprLang

open EvalM

/-! ## Steps that go the same way -/

/-- Two ends of a step that are alike: the same value or the same failure, in related states. -/
inductive EndAlike {α : Type} (V : α → Prop) (I : RunState → RunState → Prop) :
    EStateM.Result Failure RunState α → EStateM.Result Failure RunState α → Prop
  | ok {value : α} {s t : RunState} : V value → I s t →
      EndAlike V I (.ok value s) (.ok value t)
  | error {failure : Failure} {s t : RunState} : I s t →
      EndAlike V I (.error failure s) (.error failure t)

/-- Two steps that end alike in related states. -/
def InStep {α : Type} (I : RunState → RunState → Prop) (V : α → Prop)
    (m m' : EvalM α) : Prop :=
  ∀ s t, I s t → EndAlike V I (m s) (m' t)

namespace InStep

variable {α β : Type} {I : RunState → RunState → Prop} {V : α → Prop} {U : β → Prop}

theorem pure {value : α} (h : V value) : InStep I V (Pure.pure value) (Pure.pure value) :=
  fun _ _ hI => .ok h hI

theorem throw (failure : Failure) : InStep I V (throw failure : EvalM α) (throw failure) :=
  fun _ _ hI => .error hI

theorem raise (fault : Fault) : InStep I V (raise fault : EvalM α) (raise fault) := throw _

theorem mono {V' : α → Prop} {m m' : EvalM α} (hm : InStep I V m m')
    (hV : ∀ value, V value → V' value) : InStep I V' m m' := by
  intro s t hI
  match m s, m' t, hm s t hI with
  | _, _, .ok hvalue hI' => exact .ok (hV _ hvalue) hI'
  | _, _, .error hI' => exact .error hI'

theorem bind {m m' : EvalM β} {f f' : β → EvalM α} (hm : InStep I U m m')
    (hf : ∀ value, U value → InStep I V (f value) (f' value)) :
    InStep I V (m >>= f) (m' >>= f') := by
  intro s t hI
  rw [bind_apply, bind_apply]
  match m s, m' t, hm s t hI with
  | _, _, .ok hvalue hI' => exact hf _ hvalue _ _ hI'
  | _, _, .error hI' => exact .error hI'

theorem ite {m m' n n' : EvalM α} (test : Bool) (hm : InStep I V m m') (hn : InStep I V n n') :
    InStep I V (if test then m else n) (if test then m' else n') := by
  cases test with
  | true => exact hm
  | false => exact hn

theorem bracket {start stop halt start' stop' halt' : RunState → RunState}
    {mark : Failure → Failure} {I' : RunState → RunState → Prop} {m m' : EvalM α}
    (hstart : ∀ {s t}, I s t → I' (start s) (start' t))
    (hstop : ∀ {s t}, I' s t → I (stop s) (stop' t))
    (hhalt : ∀ {s t}, I' s t → I (halt s) (halt' t)) (hm : InStep I' V m m') :
    InStep I V (bracket start stop halt mark m) (bracket start' stop' halt' mark m') := by
  intro s t hI
  unfold EvalM.bracket
  match m (start s), m' (start' t), hm _ _ (hstart hI) with
  | _, _, .ok hvalue hI' => exact .ok hvalue (hstop hI')
  | _, _, .error hI' => exact .error (hhalt hI')

/-- A step on consoles that differ in the log at most. -/
theorem onConsole {act : ConsoleM α} (hact : LogBlind act)
    (hconsole : ∀ {s t}, I s t → s.console.Alike t.console)
    (hwith : ∀ {s t console console'}, I s t → console.Alike console' →
      I { s with console := console } { t with console := console' }) :
    InStep I (fun value => ∃ console console', act console = .ok value console') (onConsole act)
      (onConsole act) := by
  intro s t hI
  unfold EvalM.onConsole
  match hs : act s.console, act t.console, hact s.console t.console (hconsole hI) with
  | _, _, .ok halike => exact .ok ⟨_, _, hs⟩ (hwith hI halike)
  | _, _, .error halike => exact .error (hwith hI halike)

/-- Loops with the same cap go the same way if their tests and their bodies do. -/
theorem repeatWhile {V : Expr → Prop} {settings : Settings} (tracing : Bool)
    {test test' : EvalM Bool} {body body' : EvalM Expr}
    (htest : InStep I (fun _ => True) test test') (hbody : InStep I V body body') (tests done : Nat)
    {last : Expr} (hlast : V last) : InStep I V (repeatWhile settings test body tests done last)
      (ExprLang.repeatWhile { settings with tracing := tracing } test' body' tests done last) := by
  induction tests generalizing done last with
  | zero => exact throw _
  | succ tests ih =>
      -- neither the cap nor the tests that are left depend on the run
      refine bind htest fun holds _ => ite holds ?_ (pure hlast)
      refine ite (settings.capReached done) (raise _) ?_
      exact bind hbody fun value hvalue => ih (done + 1) hvalue

end InStep

/-! ## Relations that evaluation cannot break -/

/-- A relation between states, by the number of frames pushed, that no primitive step breaks. -/
structure Linked (P : Expr → Prop) (R : Nat → RunState → RunState → Prop) : Prop where
  hereditary : Hereditary P
  enter : ∀ {k s t}, R k s t →
    R (k + 1) { s with scope := s.scope.enter } { t with scope := t.scope.enter }
  exit : ∀ {k s t}, R (k + 1) s t →
    R k { s with scope := s.scope.exit } { t with scope := t.scope.exit }
  pushFloor : ∀ {k s t}, R k s t → R k { s with floors := s.scope.depth :: s.floors }
    { t with floors := t.scope.depth :: t.floors }
  popFloor : ∀ {k s t}, R k s t → R k { s with floors := s.floors.tail }
    { t with floors := t.floors.tail }
  pushCall : ∀ {k s t} call, R k s t → R k { s with calls := call :: s.calls }
    { t with calls := call :: t.calls }
  popCall : ∀ {k s t}, R k s t → R k { s with calls := s.calls.tail }
    { t with calls := t.calls.tail }
  logLeft : ∀ {k s t} line, R k s t → R k (s.logged line) t
  logRight : ∀ {k s t} line, R k s t → R k s (t.logged line)
  lookup : ∀ {k loc name}, P (.ident loc name) → InStep (R k) P (lookup name) (lookup name)
  bindName : ∀ {k loc name bound value}, P (.binding loc name bound) → P value →
    InStep (R (k + 1)) (fun _ => True) (bindName name value) (bindName name value)
  bindParam : ∀ {k loc name body value}, P (.fn loc (some name) body) → P value →
    InStep (R (k + 1)) (fun _ => True) (bindParam name value) (bindParam name value)
  onConsole : ∀ {k} name args, InStep (R k) (fun value => ∃ console console',
    runBuiltin name args console = .ok value console') (onConsole (runBuiltin name args))
      (onConsole (runBuiltin name args))
  setLast : ∀ {k s t loc es value}, P (.program loc es) → P value → R k s t →
    R k { s with last := some value } { t with last := some value }

namespace Linked

variable {α : Type} {P : Expr → Prop} {R : Nat → RunState → RunState → Prop}
  (h : Linked P R)
  {k : Nat}
include h

/-! ### Brackets -/

theorem inFrame {V : α → Prop} {m m' : EvalM α} (place : Option Loc)
    (hm : InStep (R (k + 1)) V m m') : InStep (R k) V (inFrame place m) (inFrame place m') := by
  rw [inFrame_eq_bracket, inFrame_eq_bracket]
  exact InStep.bracket h.enter h.exit h.exit hm

theorem aboveFloor {V : α → Prop} {m m' : EvalM α} (hm : InStep (R k) V m m') :
    InStep (R k) V (aboveFloor m) (aboveFloor m') := by
  rw [aboveFloor_eq_bracket, aboveFloor_eq_bracket]
  exact InStep.bracket h.pushFloor h.popFloor h.popFloor hm

/-- A failure leaves the call on the record of both. -/
theorem recorded {V : α → Prop} {m m' : EvalM α} (call : CallRecord)
    (hm : InStep (R k) V m m') : InStep (R k) V (recorded call m) (recorded call m') := by
  rw [recorded_eq_bracket, recorded_eq_bracket]
  exact InStep.bracket (h.pushCall call) h.popCall id hm

/-- Tracing on either side makes no difference. -/
theorem traced {V : α → Prop} {m m' : EvalM α} {trace : EvalM Unit} (tracing tracing' : Bool)
    (htrace : Logs trace) (hm : InStep (R k) V m m') :
    InStep (R k) V (if tracing then trace >>= fun _ => m else m)
      (if tracing' then trace >>= fun _ => m' else m') := by
  have hleft : InStep (R k) V (if tracing then trace >>= fun _ => m else m) m' := by
    cases tracing with
    | false => exact hm
    | true =>
        intro s t hI
        obtain ⟨line, hline⟩ := htrace s
        rw [if_pos rfl, bind_apply, hline]
        exact hm _ _ (h.logLeft line hI)
  cases tracing' with
  | false => exact hleft
  | true =>
      intro s t hI
      obtain ⟨line, hline⟩ := htrace t
      rw [if_pos rfl, bind_apply, hline]
      exact hleft _ _ (h.logRight line hI)

/-- Steps in lockstep go together to evaluations in lockstep, whether these are traced or not. -/
theorem congruence (settings : Settings) (tracing : Bool) :
    Congruence settings { settings with tracing := tracing } P P
      fun k V m m' => InStep (R k) V m m' where
  valued := h.hereditary.valued
  pure := InStep.pure
  bind := InStep.bind
  raise := InStep.raise
  inFrame := fun place _ _ => h.inFrame place
  aboveFloor := h.aboveFloor
  recorded := fun {_ call _ _} _ => h.recorded call
  traced := h.traced _ _
  repeatWhile := fun htest hbody =>
    InStep.repeatWhile tracing htest hbody settings.tests 0 h.hereditary.null
  lookup := h.lookup
  bindName := h.bindName
  bindParam := h.bindParam
  runBuiltin := fun {_ call} hfilled =>
    (h.onConsole call.name call.args).mono fun _ ⟨_, _, hvalue⟩ =>
      runBuiltin_keeps h.hereditary.valued.toValueClosed
        (hfilled.args h.hereditary.valued.toValueClosed) hvalue
  setLast := fun hprogram hvalue _ _ hI => .ok trivial (h.setLast hprogram hvalue hI)

/-! ## Whole evaluations -/

variable (settings : Settings) (tracing : Bool)

theorem runBodies (nesting : Nat) {e : Expr} (he : P e) (k : Nat) :
    InStep (R k) P (runBodies settings nesting e)
      (ExprLang.runBodies { settings with tracing := tracing } nesting e) := by
  induction nesting generalizing e k with
  | zero => exact InStep.throw _
  | succ nesting ih =>
      show InStep (R k) P (evalNested settings nesting e) (evalNested _ nesting e)
      rw [evalNested_eq, evalNested_eq]
      exact (h.congruence settings tracing).evalWith (fun k e he => ih he k) he k

/-- Evaluations of one tree from related states end alike, whether they are traced or not. -/
theorem evaluate_inStep {e : Expr} (he : P e) (k : Nat) : InStep (R k) P (evaluate settings e)
    (evaluate { settings with tracing := tracing } e) := by
  rw [evaluate_eq, evaluate_eq]
  exact (h.congruence settings tracing).evalWith
    (fun k e he => h.runBodies settings tracing _ he k) he k

end Linked

end ExprLang
