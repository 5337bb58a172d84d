import ExprLang.Proofs.Eval.Congruence

/-!
# Invariants of evaluation

What no primitive step of a run breaks holds all along the run and in its end (`Stable.evaluate`).
An invariant is a property of states, which may depend on how many frames have been pushed, together
with properties of the trees and of the values that the run comes across and a property of the
failures it may end with.

Under a loop cap no loop is given up: the tests that a loop may make outlast the runs of its body
that it may make (`Safely.repeatWhile`).
-/

namespace ExprLang

open EvalM

/-- A step that keeps an invariant, ends with a value as told, and fails only as told. -/
def Safely (I : Nat → RunState → Prop) (F : Failure → Prop) {α : Type} (k : Nat)
    (V : α → Prop) (m : EvalM α) : Prop :=
  Triple (I k) m (fun value s => V value ∧ I k s) (fun failure s => F failure ∧ I k s)

/-- An invariant that no primitive step breaks. -/
structure Stable (settings : Settings) (P V : Expr → Prop) (I : Nat → RunState → Prop)
    (F : Failure → Prop) : Prop where
  valued : Valued P V
  enter : ∀ {k s}, I k s → I (k + 1) { s with scope := s.scope.enter }
  exit : ∀ {k s}, I (k + 1) s → I k { s with scope := s.scope.exit }
  pushFloor : ∀ {k s}, I k s → I k { s with floors := s.scope.depth :: s.floors }
  popFloor : ∀ {k s}, I k s → I k { s with floors := s.floors.tail }
  pushCall : ∀ {k s call}, OnRecord V call → I k s → I k { s with calls := call :: s.calls }
  popCall : ∀ {k s}, I k s → I k { s with calls := s.calls.tail }
  logged : ∀ {k s} line, I k s → I k (s.logged line)
  setLast : ∀ {k s loc es value}, P (.program loc es) → V value → I k s →
    I k { s with last := some value }
  resolve : ∀ {k s name value}, I k s → s.scope.resolve name = some value → V value
  bindName : ∀ {k} name {value}, V value →
    Safely I F (k + 1) (fun _ => True) (bindName name value)
  bindParam : ∀ {k} name {value}, V value →
    Safely I F (k + 1) (fun _ => True) (bindParam name value)
  runBuiltin : ∀ {k call}, Filled V call →
    Safely I F k V (onConsole (runBuiltin call.name call.args))
  fault : ∀ cause place, F (.fault cause place)
  tooDeep : F .tooDeep
  stalled : settings.loopCap = none → F .stalled

/-! ## Steps -/

namespace Safely

variable {α β : Type} {I : Nat → RunState → Prop} {F : Failure → Prop} {k : Nat}
  {V : α → Prop} {U : β → Prop}

theorem pure {value : α} (h : V value) : Safely I F k V (Pure.pure value) :=
  fun _ hs => ⟨h, hs⟩

theorem throw {failure : Failure} (h : F failure) : Safely I F k V (throw failure : EvalM α) :=
  fun _ hs => ⟨h, hs⟩

theorem bind {m : EvalM β} {f : β → EvalM α} (hm : Safely I F k U m)
    (hf : ∀ value, U value → Safely I F k V (f value)) : Safely I F k V (m >>= f) :=
  Triple.bind hm fun value s ⟨hvalue, hs⟩ => hf value hvalue s hs

theorem bracket {start stop halt : RunState → RunState} {mark : Failure → Failure} {k' : Nat}
    {m : EvalM α} (hstart : ∀ {s}, I k s → I k' (start s))
    (hstop : ∀ {s}, I k' s → I k (stop s)) (hhalt : ∀ {s}, I k' s → I k (halt s))
    (hmark : ∀ {failure}, F failure → F (mark failure)) (hm : Safely I F k' V m) :
    Safely I F k V (bracket start stop halt mark m) := by
  intro s hs
  have hend := hm _ (hstart hs)
  unfold EvalM.bracket
  cases hms : m (start s) with
  | ok value s' =>
      rw [hms] at hend
      exact ⟨hend.1, hstop hend.2⟩
  | error failure s' =>
      rw [hms] at hend
      exact ⟨hmark hend.1, hhalt hend.2⟩

theorem final {m : EvalM α} (hm : Safely I F k V m) {s : RunState} (hs : I k s) :
    I k (EvalM.final (m s)) :=
  (Triple.mono hm (fun _ h => h) (fun _ _ h => h.2) (fun _ _ h => h.2)).final hs

/-- A step on the scope, where what may be written keeps the invariant. -/
theorem onScope {f : ScopeStack → Except ScopeError ScopeStack} (hF : ∀ e, F (.scope e))
    (hf : ∀ {s scope}, I k s → f s.scope = .ok scope → I k { s with scope := scope }) :
    Safely I F k (fun _ => True) (onScope f) := by
  intro s hs
  unfold EvalM.onScope
  cases hscope : f s.scope with
  | ok scope => exact ⟨trivial, hf hs hscope⟩
  | error e => exact ⟨hF e, hs⟩

/-- The binding of a name, wherever it is written. -/
theorem bindName (name : String) (value : Expr) (hF : ∀ e, F (.scope e))
    (hf : ∀ {s scope floor}, I k s → s.scope.rebind name value floor = .ok scope →
      I k { s with scope := scope }) :
    Safely I F k (fun _ => True) (bindName name value) :=
  fun s hs => @onScope I F k (·.rebind name value (s.floors.headD 0)) hF
    (fun hs hbind => hf hs hbind) s hs

/-- A step on the console, which the invariant does not speak of. -/
theorem onConsole {act : ConsoleM α}
    (hI : ∀ {s} console, I k s → I k { s with console := console })
    (hok : ∀ {console value console'}, act console = .ok value console' → V value)
    (herror : ∀ {console failure console'}, act console = .error failure console' → F failure) :
    Safely I F k V (onConsole act) := by
  intro s hs
  unfold EvalM.onConsole
  cases hend : act s.console with
  | ok value console => exact ⟨hok hend, hI console hs⟩
  | error failure console => exact ⟨herror hend, hI console hs⟩

/-- A loop is given up only if that is foreseen; under a cap it never is, since it may make one test
more than it may run its body. -/
theorem repeatWhile {settings : Settings} {test : EvalM Bool} {body : EvalM Expr}
    {P : Expr → Prop} (hlimit : F (.ofFault .loopLimit))
    (htest : Safely I F k (fun _ => True) test) (hbody : Safely I F k P body) {tests done : Nat}
    (hroom : F .stalled ∨ ∃ cap, settings.loopCap = some cap ∧ done ≤ cap.toNat ∧
      done + tests = cap.toNat + 1)
    {last : Expr} (hlast : P last) :
    Safely I F k P (repeatWhile settings test body tests done last) := by
  induction tests generalizing done last with
  | zero =>
      rcases hroom with hstalled | ⟨cap, -, hle, heq⟩
      · exact throw hstalled
      · omega
  | succ tests ih =>
      refine bind htest fun holds _ => ?_
      cases holds with
      | false => exact pure hlast
      | true =>
          by_cases hreached : settings.capReached done = true
          · simp only [hreached, if_true]
            exact throw hlimit
          · simp only [hreached, if_true, Bool.false_eq_true, if_false]
            refine bind hbody fun value hvalue => ih (hroom.imp_right ?_) hvalue
            rintro ⟨cap, hcap, hle, heq⟩
            simp only [Settings.capReached, hcap, decide_eq_true_eq] at hreached
            exact ⟨cap, hcap, by omega, by omega⟩

end Safely

/-! ## Evaluations -/

namespace Stable

variable {settings : Settings} {P V : Expr → Prop} {I : Nat → RunState → Prop}
  {F : Failure → Prop}
  (h : Stable settings P V I F)
include h

theorem locate (place : Option Loc) {failure : Failure} (hfailure : F failure) :
    F (failure.locate place) := by
  unfold Failure.locate
  split
  · exact h.fault _ _
  · exact hfailure

theorem inFrame {α : Type} {U : α → Prop} {k : Nat} (place : Option Loc) {m : EvalM α}
    (hm : Safely I F (k + 1) U m) : Safely I F k U (inFrame place m) := by
  rw [inFrame_eq_bracket]
  exact Safely.bracket h.enter h.exit h.exit (h.locate place) hm

theorem aboveFloor {α : Type} {U : α → Prop} {k : Nat} {m : EvalM α} (hm : Safely I F k U m) :
    Safely I F k U (aboveFloor m) := by
  rw [aboveFloor_eq_bracket]
  exact Safely.bracket h.pushFloor h.popFloor h.popFloor id hm

theorem recorded {α : Type} {U : α → Prop} {k : Nat} {call : CallRecord} {m : EvalM α}
    (hcall : OnRecord V call) (hm : Safely I F k U m) : Safely I F k U (recorded call m) := by
  rw [recorded_eq_bracket]
  exact Safely.bracket (h.pushCall hcall) h.popCall id id hm

theorem traced {k : Nat} {trace : EvalM Unit} {m : EvalM Expr} (htrace : Logs trace)
    (hm : Safely I F k V m) :
    Safely I F k V (if settings.tracing then trace >>= fun _ => m else m) := by
  cases settings.tracing with
  | false => exact hm
  | true =>
      intro s hs
      obtain ⟨line, hline⟩ := htrace s
      rw [if_pos rfl, bind_apply, hline]
      exact hm _ (h.logged line hs)

theorem lookup {k : Nat} (name : String) : Safely I F k V (lookup name) := by
  intro s hs
  unfold EvalM.lookup
  split
  · rename_i value hvalue
    exact ⟨h.resolve hs hvalue, hs⟩
  · exact ⟨h.fault _ _, hs⟩

/-- A loop that is about to begin may test its condition as often as it has to. -/
theorem room : F .stalled ∨ ∃ cap, settings.loopCap = some cap ∧ 0 ≤ cap.toNat ∧
    0 + settings.tests = cap.toNat + 1 := by
  unfold Settings.tests
  cases hcap : settings.loopCap with
  | none => exact .inl (h.stalled hcap)
  | some cap => exact .inr ⟨cap, rfl, Nat.zero_le _, Nat.zero_add _⟩

/-- Steps that keep the invariant go together to evaluations that do. -/
theorem congruence : Congruence settings settings P V fun k U m _ => Safely I F k U m where
  valued := h.valued
  pure := Safely.pure
  bind := Safely.bind
  raise := fun fault => Safely.throw (h.fault fault none)
  inFrame := fun place _ _ => h.inFrame place
  aboveFloor := h.aboveFloor
  recorded := h.recorded
  traced := h.traced
  repeatWhile := fun htest hbody =>
    Safely.repeatWhile (h.fault _ _) htest hbody h.room h.valued.null
  lookup := fun _ => h.lookup _
  bindName := fun _ => h.bindName _
  bindParam := fun _ => h.bindParam _
  runBuiltin := h.runBuiltin
  setLast := fun hprogram hvalue _ hs => ⟨trivial, h.setLast hprogram hvalue hs⟩

/-- However deep calls may nest, the bodies of functions are run safely. -/
theorem runBodies (nesting : Nat) {e : Expr} (he : P e) (k : Nat) :
    Safely I F k V (runBodies settings nesting e) := by
  induction nesting generalizing e k with
  | zero => exact Safely.throw h.tooDeep
  | succ nesting ih =>
      show Safely I F k V (evalNested settings nesting e)
      rw [evalNested_eq]
      exact @Congruence.evalWith _ _ _ _ _ _ (ExprLang.runBodies settings nesting) h.congruence
        (fun k e he => ih he k) _ he k

/-- An evaluation that begins with an invariant ends with it, with a value or a failure as told. -/
theorem evaluate {e : Expr} (he : P e) (k : Nat) : Safely I F k V (evaluate settings e) := by
  rw [evaluate_eq]
  exact @Congruence.evalWith _ _ _ _ _ _ (ExprLang.runBodies settings settings.nesting) h.congruence
    (fun k e he => h.runBodies _ he k) _ he k

end Stable

end ExprLang
