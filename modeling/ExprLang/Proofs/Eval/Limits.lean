import Mathlib
import ExprLang.Proofs.Eval.Output

/-!
# The limits of a run

A cap on loops and a cap on nested calls only cut a run short. Under wider limits a run that has hit
none goes the very same way, and one that has hit a limit goes on from there, so what it had written
is the beginning of what is written then. A loop runs its body no more often than its cap allows
(`limits_only`).

The two runs are compared step by step. `Outlasts gaveUp m m'` says that `m'` does what `m` does,
unless `m` ends in a failure that counts as giving up; then all that `m` has written is written by
`m'` as well. This goes through a sequence of steps because no step takes back what has been written
before it.
-/

namespace ExprLang

open EvalM

/-! ## Steps that outlast others -/

/-- `m'` does what `m` does, or goes on where `m` gives up. -/
structure Outlasts {α : Type} (gaveUp : Failure → Prop) (k : Nat) (V : α → Prop)
    (m m' : EvalM α) : Prop where
  alike : ∀ s, m s = m' s ∨ ∃ failure stopped, m s = .error failure stopped ∧
    gaveUp failure ∧
    stopped.console.Grows (final (m' s)).console
  writes : OnlyAdds k V m'

/-- Under `settings'` a run goes on wherever it gives up under `settings`. -/
structure Loosens (gaveUp : Failure → Prop) (settings settings' : Settings) : Prop where
  tracing : settings'.tracing = settings.tracing
  tests : settings.tests ≤ settings'.tests
  stalled : gaveUp .stalled
  capped : ∀ done, settings.capReached done = true →
    settings'.capReached done = true ∨ gaveUp (.ofFault .loopLimit)
  uncapped : ∀ done, settings.capReached done = false → settings'.capReached done = false
  locate : ∀ place failure, gaveUp failure → gaveUp (failure.locate place)

namespace Outlasts

variable {α β : Type} {gaveUp : Failure → Prop} {k : Nat} {V : α → Prop} {U : β → Prop}

theorem same {m : EvalM α} (h : OnlyAdds k V m) : Outlasts gaveUp k V m m :=
  ⟨fun _ => .inl rfl, h⟩

/-- Giving up at once is outlasted by every step. -/
theorem throw {failure : Failure} (hfailure : gaveUp failure) {m' : EvalM α}
    (h : OnlyAdds k V m') : Outlasts gaveUp k V (throw failure) m' :=
  ⟨fun s => .inr ⟨failure, s, rfl, hfailure, h.grows s⟩, h⟩

theorem bind {m m' : EvalM β} {f f' : β → EvalM α} (hm : Outlasts gaveUp k U m m')
    (hf : ∀ value, U value → Outlasts gaveUp k V (f value) (f' value)) :
    Outlasts gaveUp k V (m >>= f) (m' >>= f') := by
  refine ⟨fun s => ?_, hm.writes.bind fun value hvalue => (hf value hvalue).writes⟩
  rw [bind_apply, bind_apply]
  rcases hm.alike s with hsame | ⟨failure, stopped, hstop, hfailure, hgrows⟩
  · rw [hsame]
    cases hend : m' s with
    | ok value s' => exact (hf value (hm.writes.value hend)).alike s'
    | error failure s' => exact .inl rfl
  · -- what `m'` goes on to write is not taken back by what follows it
    rw [hstop]
    refine .inr ⟨failure, stopped, rfl, hfailure, hgrows.trans ?_⟩
    cases hend : m' s with
    | ok value s' => exact (hf value (hm.writes.value hend)).writes.grows s'
    | error failure s' => exact Console.Grows.refl s'.console

theorem ite {m m' n n' : EvalM α} (test : Bool) (hm : Outlasts gaveUp k V m m')
    (hn : Outlasts gaveUp k V n n') :
    Outlasts gaveUp k V (if test then m else n) (if test then m' else n') := by
  cases test with
  | true => exact hm
  | false => exact hn

theorem bracket {start stop halt : RunState → RunState} {mark : Failure → Failure} {k' : Nat}
    {m m' : EvalM α} (hstop : ∀ s, (stop s).console = s.console)
    (hhalt : ∀ s, (halt s).console = s.console)
    (hmark : ∀ failure, gaveUp failure → gaveUp (mark failure))
    (hwrites : OnlyAdds k V (bracket start stop halt mark m')) (hm : Outlasts gaveUp k' V m m') :
    Outlasts gaveUp k V (bracket start stop halt mark m) (bracket start stop halt mark m') := by
  refine ⟨fun s => ?_, hwrites⟩
  unfold EvalM.bracket
  rcases hm.alike (start s) with hsame | ⟨failure, stopped, hstop', hfailure, hgrows⟩
  · left
    rw [hsame]
  · right
    rw [hstop']
    refine ⟨mark failure, halt stopped, rfl, hmark failure hfailure, ?_⟩
    rw [hhalt]
    cases hend : m' (start s) with
    | ok value s' =>
        rw [hend] at hgrows
        exact (hstop s').symm ▸ hgrows
    | error failure s' =>
        rw [hend] at hgrows
        exact (hhalt s').symm ▸ hgrows

theorem aboveFloor (settings : Settings) {m m' : EvalM Expr}
    (hm : Outlasts gaveUp k (fun _ => True) m m') :
    Outlasts gaveUp k (fun _ => True) (aboveFloor m) (aboveFloor m') :=
  bracket (fun _ => rfl) (fun _ => rfl) (fun _ => id)
    (fun console => (growing_stable settings console).aboveFloor (hm.writes console)) hm

theorem recorded (settings : Settings) {call : CallRecord} {m m' : EvalM Expr}
    (hcall : OnRecord (fun _ => True) call) (hm : Outlasts gaveUp k (fun _ => True) m m') :
    Outlasts gaveUp k (fun _ => True) (recorded call m) (recorded call m') :=
  bracket (fun _ => rfl) (fun _ => rfl) (fun _ => id)
    (fun console => (growing_stable settings console).recorded hcall (hm.writes console)) hm

end Outlasts

namespace Loosens

variable {gaveUp : Failure → Prop} {settings settings' : Settings} {k : Nat}
  (h : Loosens gaveUp settings settings')
include h

theorem inFrame (place : Option Loc) {m m' : EvalM Expr}
    (hm : Outlasts gaveUp (k + 1) (fun _ => True) m m') :
    Outlasts gaveUp k (fun _ => True) (inFrame place m) (inFrame place m') :=
  Outlasts.bracket (fun _ => rfl) (fun _ => rfl) (h.locate place)
    (fun console => (growing_stable settings console).inFrame place (hm.writes console)) hm

theorem traced {trace : EvalM Unit} {m m' : EvalM Expr} (htrace : Logs trace)
    (hm : Outlasts gaveUp k (fun _ => True) m m') :
    Outlasts gaveUp k (fun _ => True) (if settings.tracing then trace >>= fun _ => m else m)
      (if settings'.tracing then trace >>= fun _ => m' else m') := by
  rw [h.tracing]
  have hlog : OnlyAdds k (fun _ => True) trace := by
    intro console s hs
    obtain ⟨line, hline⟩ := htrace s
    rw [hline]
    exact ⟨trivial, hs⟩
  exact Outlasts.ite _ ((Outlasts.same hlog).bind fun _ _ => hm) hm

/-- A loop that may go on for longer goes the same way, or goes on. -/
theorem repeatWhile {test test' : EvalM Bool} {body body' : EvalM Expr}
    (htest : Outlasts gaveUp k (fun _ => True) test test')
    (hbody : Outlasts gaveUp k (fun _ => True) body body') {tests tests' : Nat}
    (hle : tests ≤ tests') (done : Nat) (last : Expr) :
    Outlasts gaveUp k (fun _ => True) (repeatWhile settings test body tests done last)
      (ExprLang.repeatWhile settings' test' body' tests' done last) := by
  induction tests generalizing tests' done last with
  | zero =>
      refine Outlasts.throw h.stalled fun console => ?_
      exact Safely.repeatWhile trivial (htest.writes console) (hbody.writes console) (.inl trivial)
        trivial
  | succ tests ih =>
      obtain ⟨tests', rfl⟩ := Nat.exists_eq_add_one_of_ne_zero (Nat.ne_zero_of_lt hle)
      refine htest.bind fun holds _ => Outlasts.ite holds ?_ (Outlasts.same (OnlyAdds.pure trivial))
      have hagain := hbody.bind fun value _ => ih (Nat.le_of_succ_le_succ hle) (done + 1) value
      cases hreached : settings.capReached done with
      | false =>
          rw [h.uncapped done hreached]
          exact hagain
      | true =>
          rcases h.capped done hreached with hreached' | hlimit
          · rw [hreached']
            exact Outlasts.same (OnlyAdds.throw _)
          · refine Outlasts.throw hlimit ?_
            cases settings'.capReached done with
            | true => exact OnlyAdds.throw _
            | false => exact hagain.writes

/-- Steps that outlast others go together to evaluations that do. -/
theorem congruence : Congruence settings settings' (fun _ => True) (fun _ => True)
    fun k V m m' => Outlasts gaveUp k V m m' where
  valued := hereditary_true.valued
  pure := fun hvalue => Outlasts.same (OnlyAdds.pure hvalue)
  bind := Outlasts.bind
  raise := fun _ => Outlasts.same (OnlyAdds.throw _)
  inFrame := fun place _ _ => h.inFrame place
  aboveFloor := Outlasts.aboveFloor settings
  recorded := Outlasts.recorded settings
  traced := h.traced
  repeatWhile := fun htest hbody => h.repeatWhile htest hbody h.tests 0 .null
  lookup := fun {_ _ name} _ => Outlasts.same fun console =>
    (growing_stable settings console).lookup name
  bindName := fun _ _ => Outlasts.same (OnlyAdds.bindName _ _)
  bindParam := fun _ _ => Outlasts.same (OnlyAdds.onScope _)
  runBuiltin := fun _ => Outlasts.same (OnlyAdds.runBuiltin _ _)
  setLast := fun _ _ => Outlasts.same fun _ _ hs => ⟨trivial, hs⟩

/-- However deep calls may nest, if they may nest as deep at least. -/
theorem runBodies {nesting nesting' : Nat} (hle : nesting ≤ nesting')
    (hdeep : nesting = nesting' ∨ gaveUp .tooDeep) (e : Expr) (k : Nat) :
    Outlasts gaveUp k (fun _ => True) (runBodies settings nesting e)
      (ExprLang.runBodies settings' nesting' e) := by
  induction nesting generalizing nesting' e k with
  | zero =>
      have honly : OnlyAdds k (fun _ => True) (ExprLang.runBodies settings' nesting' e) :=
        fun console => (growing_stable settings' console).runBodies nesting' trivial k
      rcases hdeep with rfl | hdeep
      · exact Outlasts.same honly
      · exact Outlasts.throw hdeep honly
  | succ nesting ih =>
      obtain ⟨nesting', rfl⟩ := Nat.exists_eq_add_one_of_ne_zero (Nat.ne_zero_of_lt hle)
      show Outlasts gaveUp k _ (evalNested settings nesting e) (evalNested settings' nesting' e)
      rw [evalNested_eq, evalNested_eq]
      have hle' : nesting ≤ nesting' := Nat.le_of_succ_le_succ hle
      have hdeep' : nesting = nesting' ∨ gaveUp .tooDeep := hdeep.imp_left Nat.succ.inj
      exact @Congruence.evalWith _ _ _ _ _ _ _ h.congruence
        (fun k e _ => ih hle' hdeep' e k) _ trivial
        k

/-- Under looser settings an evaluation goes the same way, or on where it gave up. -/
theorem evaluate (hle : settings.nesting ≤ settings'.nesting)
    (hdeep : settings.nesting = settings'.nesting ∨ gaveUp .tooDeep) (e : Expr) :
    Outlasts gaveUp 0 (fun _ => True) (evaluate settings e) (ExprLang.evaluate settings' e) := by
  rw [evaluate_eq, evaluate_eq]
  exact @Congruence.evalWith _ _ _ _ _ _ _ h.congruence (fun k e _ => h.runBodies hle hdeep e k) _
    trivial 0

end Loosens

/-! ## Patience -/

theorem Loosens.of_patience (settings : Settings) {patience patience' : Nat}
    (hle : patience ≤ patience') : Loosens (· = .stalled) { settings with patience := patience }
      { settings with patience := patience' } where
  tracing := rfl
  tests := by
    cases hcap : settings.loopCap with
    | none => simpa [Settings.tests, hcap] using hle
    | some cap => simp [Settings.tests]
  stalled := rfl
  capped := fun _ h => .inl h
  uncapped := fun _ h => h
  locate := fun place failure h => by rw [h]; rfl

/-- How an evaluation ends if it does, however patient one has to be with loops without a cap. -/
def Settings.EndsWith (settings : Settings) (e : Expr) (s : RunState)
    (result : EStateM.Result Failure RunState Expr) : Prop :=
  (∃ patience, evaluate { settings with patience := patience } e s = result) ∧
    ∀ s', result ≠ .error .stalled s'

/-- An evaluation that ends does so with any greater patience. -/
theorem Settings.EndsWith.patient {settings : Settings} {e : Expr} {s : RunState}
    {result : EStateM.Result Failure RunState Expr} (h : settings.EndsWith e s result) :
    ∃ patience, ∀ patience' ≥ patience,
      evaluate { settings with patience := patience' } e s = result := by
  obtain ⟨⟨patience, hend⟩, hnot⟩ := h
  refine ⟨patience, fun patience' hle => ?_⟩
  have houtlasts := (Loosens.of_patience settings hle).evaluate (Nat.le_refl _) (.inl rfl) e
  rcases houtlasts.alike s with hsame | ⟨failure, stopped, hstop, rfl, -⟩
  · rw [← hsame, hend]
  · exact absurd (hend.symm.trans hstop) (hnot stopped)

/-- An evaluation ends in one way. -/
theorem Settings.EndsWith.unique {settings : Settings} {e : Expr} {s : RunState}
    {result result' : EStateM.Result Failure RunState Expr} (h : settings.EndsWith e s result)
    (h' : settings.EndsWith e s result') : result' = result := by
  obtain ⟨patience, hend⟩ := h.patient
  obtain ⟨patience', hend'⟩ := h'.patient
  rw [← hend _ (Nat.le_max_left patience patience'),
    hend' _ (Nat.le_max_right patience patience')]

/-! ## Wider limits -/

/-- The failures with which a run hits one of its limits. -/
inductive Failure.IsLimit : Failure → Prop
  | loopLimit (place : Option Loc) : IsLimit (.fault .loopLimit place)
  | tooDeep : IsLimit .tooDeep

/-- A run that ends by hitting a limit. -/
def HitsLimit : EStateM.Result Failure RunState Expr → Prop
  | .ok _ _ => False
  | .error failure _ => failure.IsLimit

/-- Limits that are the same or wider. -/
structure Settings.Widens (settings settings' : Settings) : Prop where
  tracing : settings'.tracing = settings.tracing
  loopCap : ∀ cap' ∈ settings'.loopCap, ∃ cap ∈ settings.loopCap, cap ≤ cap'
  nesting : settings.nesting ≤ settings'.nesting

/-- Wider limits are looser, given the patience for all the tests that there may have been
before. -/
theorem Settings.Widens.loosens {settings settings' : Settings} (h : settings.Widens settings')
    (hpatience : settings.tests ≤ settings'.patience) :
    Loosens (fun failure => failure = .stalled ∨ failure.IsLimit) settings settings' where
  tracing := h.tracing
  tests := by
    cases hcap' : settings'.loopCap with
    | none => simpa [Settings.tests, hcap'] using hpatience
    | some cap' =>
        obtain ⟨cap, hcap, hle⟩ := h.loopCap cap' hcap'
        simp only [Settings.tests, Option.mem_def.mp hcap, hcap']
        omega
  stalled := .inl rfl
  capped := fun _ _ => .inr (.inr (.loopLimit none))
  uncapped := fun done hreached => by
    cases hcap' : settings'.loopCap with
    | none => simp [Settings.capReached, hcap']
    | some cap' =>
        obtain ⟨cap, hcap, hle⟩ := h.loopCap cap' hcap'
        simp only [Settings.capReached, Option.mem_def.mp hcap, hcap', decide_eq_false_iff_not]
          at hreached ⊢
        omega
  locate := by
    rintro place failure (rfl | hlimit)
    · exact .inl rfl
    · cases hlimit with
      | loopLimit place' => cases place' <;> exact .inr (.loopLimit _)
      | tooDeep => exact .inr .tooDeep

/-! ## How often a loop runs its body -/

/-- The course of a loop that has run its body `done` times, the last time with the value `last`: it
runs its body `runs` times more, the run that fails included, and ends as told. -/
inductive LoopRun (settings : Settings) (test : EvalM Bool) (body : EvalM Expr) :
    (done : Nat) → (last : Expr) → RunState → (runs : Nat) →
      EStateM.Result Failure RunState Expr → Prop
  | testFails {done last s failure s'} : test s = .error failure s' →
      LoopRun settings test body done last s 0 (.error failure s')
  | leaves {done last s s'} : test s = .ok false s' →
      LoopRun settings test body done last s 0 (.ok last s')
  | limit {done last s s'} : test s = .ok true s' → settings.capReached done = true →
      LoopRun settings test body done last s 0 (.error (.ofFault .loopLimit) s')
  | bodyFails {done last s s' failure s''} : test s = .ok true s' →
      settings.capReached done = false → body s' = .error failure s'' →
      LoopRun settings test body done last s 1 (.error failure s'')
  | again {done last s s' value s'' runs result} : test s = .ok true s' →
      settings.capReached done = false → body s' = .ok value s'' →
      LoopRun settings test body (done + 1) value s'' runs result →
      LoopRun settings test body done last s (runs + 1) result

namespace LoopRun

variable {settings : Settings} {test : EvalM Bool} {body : EvalM Expr} {done : Nat} {cap : Int}

/-- A loop runs its body no more often than its cap allows. -/
theorem runs_le {last : Expr} {s : RunState} {runs : Nat}
    {result : EStateM.Result Failure RunState Expr}
    (h : LoopRun settings test body done last s runs result) (hcap : settings.loopCap = some cap)
    (hdone : done ≤ cap.toNat) : done + runs ≤ cap.toNat := by
  have hroom : ∀ {done}, settings.capReached done = false → done < cap.toNat := by
    intro done hreached
    simp only [Settings.capReached, hcap, decide_eq_false_iff_not] at hreached
    omega
  induction h with
  | testFails | leaves | limit => exact hdone
  | bodyFails _ hreached _ => exact hroom hreached
  | again _ hreached _ _ ih =>
      have := ih (hroom hreached)
      omega

/-- Under a cap a loop has a course, and ends as it does. -/
theorem of_repeatWhile (hcap : settings.loopCap = some cap) {tests : Nat} (hle : done ≤ cap.toNat)
    (htests : done + tests = cap.toNat + 1) (last : Expr) (s : RunState) :
    ∃ runs, LoopRun settings test body done last s runs
      (repeatWhile settings test body tests done last s) := by
  induction tests generalizing done last s with
  | zero => omega
  | succ tests ih =>
      rw [repeatWhile, bind_apply]
      cases htest : test s with
      | error failure s' => exact ⟨0, .testFails htest⟩
      | ok holds s' =>
          cases holds with
          | false => exact ⟨0, .leaves htest⟩
          | true =>
              cases hreached : settings.capReached done with
              | true => exact ⟨0, .limit htest hreached⟩
              | false =>
                  simp only [if_true, Bool.false_eq_true, if_false]
                  rw [bind_apply]
                  cases hbody : body s' with
                  | error failure s'' => exact ⟨1, .bodyFails htest hreached hbody⟩
                  | ok value s'' =>
                      have hmore : done + 1 ≤ cap.toNat := by
                        simp only [Settings.capReached, hcap, decide_eq_false_iff_not] at hreached
                        omega
                      obtain ⟨runs, hruns⟩ := ih hmore (by omega) value s''
                      exact ⟨runs + 1, .again htest hreached hbody hruns⟩

/-- A loop has one course. -/
theorem unique {last : Expr} {s : RunState} {runs runs' : Nat}
    {result result' : EStateM.Result Failure RunState Expr}
    (h : LoopRun settings test body done last s runs result)
    (h' : LoopRun settings test body done last s runs' result') :
    runs' = runs ∧ result' = result := by
  induction h generalizing runs' with
  | testFails htest =>
      cases h' <;> simp_all
  | leaves htest => cases h' <;> simp_all
  | limit htest hreached => cases h' <;> simp_all
  | bodyFails htest hreached hbody => cases h' <;> simp_all
  | again htest hreached hbody _ ih =>
      cases h' with
      | again htest' _ hbody' hmore =>
          rw [htest] at htest'
          cases htest'
          rw [hbody] at hbody'
          cases hbody'
          obtain ⟨rfl, rfl⟩ := ih hmore
          exact ⟨rfl, rfl⟩
      | _ => simp_all

end LoopRun

/-- The course of the evaluation of a loop where calls may nest to a depth. -/
def LoopCourse (settings : Settings) (nesting : Nat) (test body : Expr) (s : RunState) :
    (runs : Nat) → EStateM.Result Failure RunState Expr → Prop :=
  LoopRun settings (evalNested settings nesting test >>= conditionValue .loop)
    (evalNested settings nesting body) 0 .null { s with scope := s.scope.enter }

/-- Under a cap the evaluation of a loop has a course, and every course is that of the evaluation
and runs the body no more often than the cap allows. -/
theorem loop_course {settings : Settings} {cap : Int} (hcap : settings.loopCap = some cap)
    (nesting : Nat) (loc : Option Loc) (test body : Expr) (s : RunState) :
    (∃ runs result, LoopCourse settings nesting test body s runs result) ∧
      ∀ runs result, LoopCourse settings nesting test body s runs result →
        evalNested settings nesting (.loop loc test body) s = inFrame loc (fun _ => result) s ∧
          runs ≤ cap.toNat := by
  obtain ⟨runs, hruns⟩ := @LoopRun.of_repeatWhile settings
    (evalNested settings nesting test >>= conditionValue .loop) (evalNested settings nesting body)
    0 cap hcap settings.tests (Nat.zero_le _) (by simp [Settings.tests, hcap]) .null
    { s with scope := s.scope.enter }
  refine ⟨⟨runs, _, hruns⟩, fun runs' result hcourse => ?_⟩
  obtain ⟨rfl, rfl⟩ := hruns.unique hcourse
  constructor
  · rw [evalNested_eq, evalWith]
    rfl
  · have hle := hruns.runs_le hcap (Nat.zero_le _)
    omega

/-! ## The limits -/

/-- What a run under some limits tells about the run under others. -/
structure LimitsOnly (settings settings' : Settings) (e : Expr) (s : RunState) : Prop where
  /-- A run that ends without hitting a limit ends so under the other limits, and in no other
  way. -/
  same : ∀ result, settings.EndsWith e s result → ¬ HitsLimit result →
    ∀ result', settings'.EndsWith e s result' ↔ result' = result
  /-- What has been written when a limit is hit is the beginning of what is written otherwise. -/
  written : ∀ result, settings.EndsWith e s result → HitsLimit result →
    ∀ result', settings'.EndsWith e s result' →
      (final result).console.Grows (final result').console
  /-- No evaluation of a loop runs its body more often than the cap allows. -/
  loops : ∀ cap, settings.loopCap = some cap → ∀ nesting loc test body s,
    (∃ runs result, LoopCourse settings nesting test body s runs result) ∧
      ∀ runs result, LoopCourse settings nesting test body s runs result →
        evalNested settings nesting (.loop loc test body) s = inFrame loc (fun _ => result) s ∧
          runs ≤ cap.toNat

/-- Under wider limits a run ends as before, or it had hit a limit; then it goes on from there. -/
theorem Settings.Widens.compare {settings settings' : Settings} (h : settings.Widens settings')
    {e : Expr} {s : RunState} {result : EStateM.Result Failure RunState Expr}
    (hends : settings.EndsWith e s result) : ∃ patience, ∀ patience' ≥ patience,
      evaluate { settings' with patience := patience' } e s = result ∨
        HitsLimit result ∧ (final result).console.Grows
          (final (evaluate { settings' with patience := patience' } e s)).console := by
  obtain ⟨⟨patience, hend⟩, hnot⟩ := hends
  refine ⟨({ settings with patience := patience } : Settings).tests, fun patience' hle => ?_⟩
  have hwidens : Settings.Widens { settings with patience := patience }
      { settings' with patience := patience' } := ⟨h.tracing, h.loopCap, h.nesting⟩
  have houtlasts := (hwidens.loosens hle).evaluate h.nesting (.inr (.inr .tooDeep)) e
  rcases houtlasts.alike s with hsame | ⟨failure, stopped, hstop, hgave, hgrows⟩
  · exact .inl (hsame.symm.trans hend)
  · rw [hend] at hstop
    subst hstop
    rcases hgave with rfl | hlimit
    · exact absurd rfl (hnot stopped)
    · exact .inr ⟨hlimit, hgrows⟩

/-- **The limits are only limits.** -/
theorem limits_only {settings settings' : Settings} (h : settings.Widens settings') (e : Expr)
    (s : RunState) : LimitsOnly settings settings' e s := by
  refine ⟨fun result hends hlimit result' => ?_, fun result hends _ result' hends' => ?_,
    fun cap hcap => loop_course hcap⟩
  · obtain ⟨patience, hpatience⟩ := h.compare hends
    have hends' : settings'.EndsWith e s result := by
      rcases hpatience patience (Nat.le_refl _) with hsame | ⟨hhits, -⟩
      · exact ⟨⟨patience, hsame⟩, hends.2⟩
      · exact absurd hhits hlimit
    constructor
    · exact fun h' => hends'.unique h'
    · rintro rfl
      exact hends'
  · obtain ⟨patience, hpatience⟩ := h.compare hends
    obtain ⟨patience', hpatience'⟩ := hends'.patient
    have hend' := hpatience' _ (Nat.le_max_right patience patience')
    rcases hpatience _ (Nat.le_max_left patience patience') with hsame | ⟨-, hgrows⟩
    · rw [← hsame, ← hend']
      exact Console.Grows.refl _
    · rw [← hend']
      exact hgrows

/-- A loop that is over after one run of its body ends without a cap as it does under a cap of
one. -/
theorem limits_only_single_run :
    let start := RunState.initial (.ofRoot .empty) (.ofInput "")
    let loop : Expr := .block none [.binding none "on" (.bool none true),
      .loop none (.ident none "on") (.binding none "on" (.bool none false))]
    Settings.Widens { loopCap := some 1, nesting := 1 } {} ∧
      ({} : Settings).EndsWith loop start (.ok (.bool none false) start) := by
  intro start loop
  have hwidens : Settings.Widens { loopCap := some 1, nesting := 1 } {} :=
    ⟨rfl, by simp, by decide⟩
  have hends : ({ loopCap := some 1, nesting := 1 } : Settings).EndsWith loop start
      (.ok (.bool none false) start) := by
    refine ⟨⟨0, ?_⟩, by simp⟩
    simp only [loop, start]
    cbv
  exact ⟨hwidens, ((limits_only hwidens loop start).same _ hends id _).mpr rfl⟩

end ExprLang
