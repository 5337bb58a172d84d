import ExprLang.Session

/-!
# What a step of a session can come to

A source text that cannot be read is reported, or refused for a numeral with too many digits; one
that can be read is run, to a value or to a failure. `handle_eq_iff` says what is left of the
session in each case.
-/

namespace ExprLang

/-- A step of a session comes to a result and leaves this session behind. -/
inductive Session.StepsTo (session : Session) (goal : Reader.Goal) (source : String) :
    Except Reader.ReadError Outcome → Session → Prop
  | unread {complaint loc} : Reader.parse goal source = .error (.rejected complaint loc) →
      StepsTo session goal source
        (.ok (.error (Report.ofComplaint source complaint loc) (some loc))) session.cleared
  | refused {digits} : Reader.parse goal source = .error (.digitLimit digits) →
      StepsTo session goal source (.error (.digitLimit digits)) session.cleared
  | done {tree value s} : Reader.parse goal source = .ok tree →
      evaluate session.settings tree session.cleared.state = .ok value s →
      StepsTo session goal source (.ok (.success value)) { session with state := s }
  | failed {tree failure s} : Reader.parse goal source = .ok tree →
      evaluate session.settings tree session.cleared.state = .error failure s →
      StepsTo session goal source
        (.ok (.error (Report.ofFailure source s.calls failure) (Report.failureLoc? failure)))
        { session with state := { s with scope := s.scope.toRoot } }

namespace Session

variable {session after : Session} {goal : Reader.Goal} {source : String}
  {result : Except Reader.ReadError Outcome}

theorem StepsTo.handle_eq (h : session.StepsTo goal source result after) :
    session.handle goal source = (result, after) := by
  cases h with
  | unread hparse | refused hparse => simp [handle, hparse]
  | done hparse hrun | failed hparse hrun =>
      simp only [handle, hparse, runTree]
      rw [show session.cleared.settings = session.settings from rfl, hrun]

theorem exists_stepsTo (session : Session) (goal : Reader.Goal) (source : String) :
    ∃ result after, session.StepsTo goal source result after := by
  cases hparse : Reader.parse goal source with
  | ok tree =>
      cases hrun : evaluate session.settings tree session.cleared.state with
      | ok value s => exact ⟨_, _, .done hparse hrun⟩
      | error failure s => exact ⟨_, _, .failed hparse hrun⟩
  | error e =>
      cases e with
      | rejected complaint loc => exact ⟨_, _, .unread hparse⟩
      | digitLimit digits => exact ⟨_, _, .refused hparse⟩

theorem handle_eq_iff :
    session.handle goal source = (result, after) ↔ session.StepsTo goal source result after := by
  refine ⟨fun h => ?_, StepsTo.handle_eq⟩
  obtain ⟨result', after', hstep⟩ := session.exists_stepsTo goal source
  obtain ⟨rfl, rfl⟩ := Prod.mk.inj (hstep.handle_eq.symm.trans h)
  exact hstep

end Session

end ExprLang
