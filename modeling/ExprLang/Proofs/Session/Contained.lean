import ExprLang.Proofs.Eval.Limits
import ExprLang.Proofs.Reader.Overlong
import ExprLang.Proofs.Session.Reports

/-!
# What a step of a session contains

A step has an outcome or runs on: whatever fails in a run is told in an outcome. Only one thing is
not caught, and that while the source is still being read, an integer literal with too many digits
(`Session.contained`).

A run that does not end is one that no patience with its loops is enough for, so the result of a
step is what it comes to with patience enough.
-/

namespace ExprLang

open Reader

namespace Session

/-! ## Patience -/

/-- The session with another patience. -/
def patient (session : Session) (patience : Nat) : Session :=
  { session with settings := { session.settings with patience := patience } }

variable (session : Session) (goal : Goal) (source : String)

/-- The run of a source does not end. -/
def RunsOn : Prop := ∀ patience, (session.patient patience).GivesUp goal source

/-- What a step comes to, given patience enough. -/
def Returns (result : Except ReadError Outcome) : Prop :=
  ∃ patience, ∀ more ≥ patience, ¬ (session.patient more).GivesUp goal source ∧
    ((session.patient more).handle goal source).1 = result

/-- A step contains what fails in it, but for one thing. -/
structure Contained : Prop where
  /-- What is not caught is a literal with too many digits, and this never is. -/
  escapes : ∀ e, session.Returns goal source (.error e) ↔
    ∃ count, e = .digitLimit count ∧ HasOverlongLiteral goal source.toList count
  /-- Every other step runs on or has an outcome. -/
  otherwise : (∀ count, ¬ HasOverlongLiteral goal source.toList count) →
    session.RunsOn goal source ∨ ∃ outcome, session.Returns goal source (.ok outcome)
  /-- A step that comes to something does not run on, and comes to nothing else. -/
  only : ∀ result, session.Returns goal source result →
    ¬ session.RunsOn goal source ∧
      ∀ other, session.Returns goal source other → other = result

end Session

section
variable {session : Session} {goal : Goal} {source : String}

namespace Session

theorem Returns.not_runsOn {result : Except ReadError Outcome}
    (h : session.Returns goal source result) : ¬ session.RunsOn goal source := by
  obtain ⟨patience, hmore⟩ := h
  exact fun hruns => (hmore patience (Nat.le_refl _)).1 (hruns patience)

theorem Returns.unique {result other : Except ReadError Outcome}
    (h : session.Returns goal source result) (h' : session.Returns goal source other) :
    other = result := by
  obtain ⟨patience, hmore⟩ := h
  obtain ⟨patience', hmore'⟩ := h'
  rw [← (hmore _ (Nat.le_max_left patience patience')).2,
    ← (hmore' _ (Nat.le_max_right patience patience')).2]

/-! ## Sources that are not run -/

theorem not_givesUp_of_parse {e : ReadError} (hparse : parse goal source = .error e) :
    ¬ session.GivesUp goal source := by
  rintro ⟨tree, s, htree, -⟩
  exact absurd (hparse.symm.trans htree) nofun

theorem returns_complaint {complaint : Complaint} {loc : Loc}
    (hparse : parse goal source = .error (.rejected complaint loc)) :
    session.Returns goal source
      (.ok (.error (Report.ofComplaint source complaint loc) (some loc))) :=
  ⟨0, fun _ _ => ⟨not_givesUp_of_parse hparse,
    congrArg Prod.fst (StepsTo.unread hparse).handle_eq⟩⟩

theorem returns_digitLimit {count : Nat} (hparse : parse goal source = .error (.digitLimit count)) :
    session.Returns goal source (.error (.digitLimit count)) :=
  ⟨0, fun _ _ => ⟨not_givesUp_of_parse hparse,
    congrArg Prod.fst (StepsTo.refused hparse).handle_eq⟩⟩

/-! ## Runs -/

/-- A run that ends has an outcome. -/
theorem returns_outcome {tree : Expr} (hparse : parse goal source = .ok tree)
    {result : EStateM.Result Failure RunState Expr}
    (hends : session.settings.EndsWith tree session.cleared.state result) :
    ∃ outcome, session.Returns goal source (.ok outcome) := by
  obtain ⟨patience, hmore⟩ := hends.patient
  have hnot : ∀ more ≥ patience, ¬ (session.patient more).GivesUp goal source := by
    rintro more hle ⟨tree', s, hparse', hstalled⟩
    obtain rfl := Except.ok.inj (hparse.symm.trans hparse')
    exact hends.2 s ((hmore more hle).symm.trans hstalled)
  cases result with
  | ok value s =>
      exact ⟨_, patience, fun more hle => ⟨hnot more hle,
        congrArg Prod.fst (StepsTo.done hparse (hmore more hle)).handle_eq⟩⟩
  | error failure s =>
      exact ⟨_, patience, fun more hle => ⟨hnot more hle,
        congrArg Prod.fst (StepsTo.failed hparse (hmore more hle)).handle_eq⟩⟩

/-- A run that ends in no way does not end. -/
theorem runsOn_of_not_endsWith {tree : Expr} (hparse : parse goal source = .ok tree)
    (hnot : ∀ result, ¬ session.settings.EndsWith tree session.cleared.state result) :
    session.RunsOn goal source := by
  intro patience
  by_contra hgives
  refine hnot _ ⟨⟨patience, rfl⟩, fun s hstalled => hgives ⟨tree, s, hparse, hstalled⟩⟩

/-! ## All steps -/

/-- A source without an overlong literal runs on or has an outcome. -/
theorem runsOn_or_returns (hshort : ∀ count, ¬ HasOverlongLiteral goal source.toList count) :
    session.RunsOn goal source ∨ ∃ outcome, session.Returns goal source (.ok outcome) := by
  cases hparse : parse goal source with
  | error e =>
      cases e with
      | rejected complaint loc => exact .inr ⟨_, returns_complaint hparse⟩
      | digitLimit count =>
          exact absurd ((parse_digitLimit_iff goal source count).mp hparse) (hshort count)
  | ok tree =>
      by_cases hends : ∃ result, session.settings.EndsWith tree session.cleared.state result
      · obtain ⟨result, hends⟩ := hends
        exact .inr (returns_outcome hparse hends)
      · exact .inl (runsOn_of_not_endsWith hparse (not_exists.mp hends))

/-- What a step does not catch is what reading refuses for the number of its digits. -/
theorem handle_eq_error {e : ReadError} (h : (session.handle goal source).1 = .error e) :
    ∃ count, e = .digitLimit count ∧ parse goal source = .error (.digitLimit count) := by
  obtain ⟨result, after, hstep⟩ := session.exists_stepsTo goal source
  rw [hstep.handle_eq] at h
  cases hstep with
  | refused hparse =>
      cases h
      exact ⟨_, rfl, hparse⟩
  | unread | done | failed => exact absurd h nofun

theorem contained (session : Session) (goal : Goal) (source : String) :
    session.Contained goal source := by
  refine ⟨fun e => ⟨?_, ?_⟩, runsOn_or_returns, fun result h =>
    ⟨h.not_runsOn, fun _ => h.unique⟩⟩
  · rintro ⟨patience, hmore⟩
    obtain ⟨count, rfl, hparse⟩ := handle_eq_error (hmore patience (Nat.le_refl _)).2
    exact ⟨count, rfl, (parse_digitLimit_iff goal source count).mp hparse⟩
  · rintro ⟨count, rfl, hoverlong⟩
    exact returns_digitLimit ((parse_digitLimit_iff goal source count).mpr hoverlong)

end Session

end

end ExprLang
