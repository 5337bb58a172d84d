import ExprLang.Proofs.Reader.Viability

/-!
# The first thing wrong with a source

A refusal names the first place where a source cannot be continued (`parse_rejects_iff`). All before
that place is the beginning of some source that has a tree; and with what stands there, it is not: a
token after which no tokens lead to a tree, a character with which nothing begins, or the end of
tokens that derive no tree yet.

Which of these comes first is decided by the run of the machine alone, since it takes exactly the
tokens that can be continued. So a token that has no place is reported before a character further on
at which no token can be formed, and an integer literal that is too large only in a source that is
complete.
-/

namespace ExprLang

open Grammar Reader

/-! ## Complete and refused tokens -/

/-- Tokens that derive a tree. -/
def Grammar.Complete (goal : Goal) (tokens : List Token) : Prop :=
  ∃ tree, DerivesTree goal tokens tree

theorem Grammar.Complete.viable {goal : Goal} {tokens : List Token} (h : Complete goal tokens) :
    Viable goal tokens := by
  obtain ⟨tree, htree⟩ := h
  exact ⟨[], tree, by rwa [List.append_nil]⟩

/-- The tokens at hand are followed by one with which they cannot be continued. -/
def Grammar.Refused (goal : Goal) (before : List Lexeme) (token : Token) : Prop :=
  Viable goal (before.map (·.token)) ∧ ¬ Viable goal (before.map (·.token) ++ [token])

/-- The place of the last token of a source text; its beginning if there is none. -/
def IsLastPlace (source : List Char) (loc : Loc) : Prop :=
  (scan source).lexemes = [] ∧ loc = .start ∨
    ∃ before last, (scan source).lexemes = before ++ [last] ∧ last.Follows before source ∧
      loc = last.loc

/-- What is wrong at a place in a source text, where nothing before that place is wrong. -/
def FirstObstacle (goal : Goal) (source : List Char) (loc : Loc) : Complaint → Prop
  | .unexpectedToken token => ∃ before after,
      (scan source).lexemes = before ++ ⟨token, loc⟩ :: after ∧ Refused goal before token ∧
        Lexeme.Follows ⟨token, loc⟩ before source
  | .unexpectedChar c => (scan source).stop? = some (c, loc) ∧
      Viable goal ((scan source).lexemes.map (·.token)) ∧
      ∃ before rest, source = before ++ c :: rest ∧ loc = Loc.start.after before ∧
        scan before = ⟨(scan source).lexemes, none⟩ ∧ ¬ Lexical (c :: rest)
  | .unexpectedEnd => (scan source).stop? = none ∧
      Viable goal ((scan source).lexemes.map (·.token)) ∧
      ¬ Complete goal ((scan source).lexemes.map (·.token)) ∧ IsLastPlace source loc
  | .integerTooLarge digits => (scan source).stop? = none ∧
      Complete goal ((scan source).lexemes.map (·.token)) ∧
      (scan source).lexemes.findSome? literalError?
        = some (.rejected (.integerTooLarge digits) loc)

namespace Reader

/-- The machine refuses a token exactly where the tokens cannot be continued with it. -/
theorem run_eq_error_iff {goal : Goal} {lexemes : List Lexeme} {lexeme : Lexeme} :
    (State.initial goal).run lexemes = .error lexeme ↔
      ∃ before after, lexemes = before ++ lexeme :: after ∧
        Refused goal before lexeme.token := by
  have hnext : ∀ {before state}, (State.initial goal).run before = .ok state →
      (Viable goal (before.map (·.token) ++ [lexeme.token]) ↔
        ∃ next, state.step lexeme = some next) := by
    intro before state hrun
    have hmap : before.map (·.token) ++ [lexeme.token] = (before ++ [lexeme]).map (·.token) := by
      simp
    rw [hmap, ← run_eq_ok_iff_viable, State.run_append_of_run _ hrun, State.run]
    cases state.step lexeme with
    | none => simp
    | some next => simp [State.run]
  constructor
  · intro h
    obtain ⟨before, after, state, rfl, hrun, hstep⟩ := State.run_eq_error h
    refine ⟨before, after, rfl, run_eq_ok_iff_viable.mp ⟨state, hrun⟩, ?_⟩
    rw [hnext hrun, hstep]
    rintro ⟨next, hnone⟩
    cases hnone
  · rintro ⟨before, after, rfl, hviable, hrefused⟩
    obtain ⟨state, hrun⟩ := run_eq_ok_iff_viable.mpr hviable
    rw [hnext hrun] at hrefused
    have hstep : state.step lexeme = none := by
      cases hstep : state.step lexeme with
      | none => rfl
      | some next => exact (hrefused ⟨next, hstep⟩).elim
    rw [State.run_append_of_run _ hrun, State.run, hstep]

/-- A run that takes all tokens ends in a tree exactly if they derive one. -/
theorem finish_iff_complete {goal : Goal} {lexemes : List Lexeme} {state : State}
    (hrun : (State.initial goal).run lexemes = .ok state) :
    (∃ tree, state.finish = some tree) ↔ Complete goal (lexemes.map (·.token)) := by
  constructor
  · rintro ⟨tree, hfinish⟩
    exact ⟨_, lexemes, tree, rfl, derivesGoal_of_finish hrun hfinish, rfl⟩
  · rintro ⟨t, hderives⟩
    obtain ⟨tree, htree, -⟩ := derivesTree_at_places hderives
    obtain ⟨last, hlast, hfinish⟩ := finish_of_derivesGoal htree
    obtain rfl : last = state := Except.ok.inj (hlast.symm.trans hrun)
    exact ⟨tree, hfinish⟩

/-- The place of an end that comes too early. -/
theorem eq_endLoc_iff {source : List Char} {loc : Loc} :
    loc = endLoc (scan source).lexemes ↔ IsLastPlace source loc := by
  obtain hnil | ⟨before, last, hlast⟩ := List.eq_nil_or_concat (scan source).lexemes
  · simp [IsLastPlace, endLoc, hnil]
  · rw [List.concat_eq_append] at hlast
    have hplace : endLoc (scan source).lexemes = last.loc := by simp [endLoc, hlast]
    rw [hplace]
    constructor
    · rintro rfl
      exact .inr ⟨before, last, hlast, scan_follows hlast, rfl⟩
    · rintro (⟨hnil, -⟩ | ⟨before', last', hlast', -, rfl⟩)
      · simp [hnil] at hlast
      · obtain ⟨-, hsame⟩ := List.append_inj' (hlast'.symm.trans hlast) rfl
        rw [List.singleton_inj.mp hsame]

/-- A literal that is refused is refused for itself, at its place. -/
theorem literalError?_eq_rejected {lexeme : Lexeme} {complaint : Complaint} {loc : Loc}
    (h : literalError? lexeme = some (.rejected complaint loc)) :
    ∃ digits, complaint = .integerTooLarge digits ∧ lexeme = ⟨.int digits, loc⟩ := by
  obtain ⟨token, place⟩ := lexeme
  unfold literalError? at h
  split at h
  next digits htoken =>
      obtain rfl : token = .int digits := htoken
      dsimp only at h
      split at h
      · exact absurd h nofun
      · split at h
        · cases h
          exact ⟨digits, rfl, rfl⟩
        · exact absurd h nofun
  next => exact absurd h nofun

theorem complaint_of_literalError {lexemes : List Lexeme} {complaint : Complaint} {loc : Loc}
    (h : lexemes.findSome? literalError? = some (.rejected complaint loc)) :
    ∃ digits, complaint = .integerTooLarge digits := by
  obtain ⟨before, lexeme, after, -, hlexeme, -⟩ := List.findSome?_eq_some_iff.mp h
  obtain ⟨digits, rfl, -⟩ := literalError?_eq_rejected hlexeme
  exact ⟨digits, rfl⟩

/-! ## Whole sources -/

section
variable {goal : Goal} {source : List Char} {complaint : Complaint} {loc : Loc} {state : State}

/-- Where a token is refused, nothing else is the first thing wrong. -/
theorem firstObstacle_of_refused {lexeme : Lexeme}
    (hrun : (State.initial goal).run (scan source).lexemes = .error lexeme) :
    FirstObstacle goal source loc complaint
      ↔ Complaint.unexpectedToken lexeme.token = complaint ∧ lexeme.loc = loc := by
  have hnot : ¬ Viable goal ((scan source).lexemes.map (·.token)) := by
    rw [← run_eq_ok_iff_viable, hrun]
    exact nofun
  cases complaint with
  | unexpectedToken token =>
      constructor
      · rintro ⟨before, after, hsplit, hrefused, -⟩
        have hrun' : (State.initial goal).run (scan source).lexemes = .error ⟨token, loc⟩ :=
          run_eq_error_iff.mpr ⟨before, after, hsplit, hrefused⟩
        obtain rfl := Except.error.inj (hrun.symm.trans hrun')
        exact ⟨rfl, rfl⟩
      · rintro ⟨htoken, rfl⟩
        obtain rfl := Complaint.unexpectedToken.inj htoken
        obtain ⟨before, after, hsplit, hrefused⟩ := run_eq_error_iff.mp hrun
        exact ⟨before, after, hsplit, hrefused, scan_follows hsplit⟩
  | unexpectedChar c => exact iff_of_false (fun h => hnot h.2.1) (fun h => absurd h.1 nofun)
  | unexpectedEnd => exact iff_of_false (fun h => hnot h.2.1) (fun h => absurd h.1 nofun)
  | integerTooLarge digits =>
      exact iff_of_false (fun h => hnot h.2.1.viable) (fun h => absurd h.1 nofun)

theorem not_unexpectedChar (hstop : (scan source).stop? = none) (c : Char) :
    ¬ FirstObstacle goal source loc (.unexpectedChar c) := by
  rintro ⟨hstop', -, -⟩
  exact absurd (hstop.symm.trans hstop') nofun

section
variable (hrun : (State.initial goal).run (scan source).lexemes = .ok state)
include hrun

theorem not_unexpectedToken (token : Token) :
    ¬ FirstObstacle goal source loc (.unexpectedToken token) := by
  rintro ⟨before, after, hsplit, hrefused, -⟩
  have herror : (State.initial goal).run (scan source).lexemes = .error ⟨token, loc⟩ :=
    run_eq_error_iff.mpr ⟨before, after, hsplit, hrefused⟩
  exact absurd (hrun.symm.trans herror) nofun

/-- Where all tokens are taken and the scan has stopped, it is the character that is wrong. -/
theorem firstObstacle_of_stop {c : Char} {place : Loc}
    (hstop : (scan source).stop? = some (c, place)) : FirstObstacle goal source loc complaint
      ↔ Complaint.unexpectedChar c = complaint ∧ place = loc := by
  have hnone : (scan source).stop? ≠ none := by simp [hstop]
  cases complaint with
  | unexpectedToken token =>
      exact iff_of_false (not_unexpectedToken hrun token) (fun h => absurd h.1 nofun)
  | unexpectedChar d =>
      constructor
      · rintro ⟨hstop', -, -⟩
        obtain ⟨rfl, rfl⟩ := Prod.mk.inj (Option.some.inj (hstop.symm.trans hstop'))
        exact ⟨rfl, rfl⟩
      · rintro ⟨hc, rfl⟩
        obtain rfl := Complaint.unexpectedChar.inj hc
        exact ⟨hstop, run_eq_ok_iff_viable.mp ⟨state, hrun⟩, scan_stops hstop⟩
  | unexpectedEnd => exact iff_of_false (fun h => hnone h.1) (fun h => absurd h.1 nofun)
  | integerTooLarge digits => exact iff_of_false (fun h => hnone h.1) (fun h => absurd h.1 nofun)

section
variable (hstop : (scan source).stop? = none)
include hstop

/-- Where all tokens are taken and derive no tree, it is the end that is wrong. -/
theorem firstObstacle_of_unfinished (hfinish : state.finish = none) :
    FirstObstacle goal source loc complaint
      ↔ Complaint.unexpectedEnd = complaint ∧ endLoc (scan source).lexemes = loc := by
  have hincomplete : ¬ Complete goal ((scan source).lexemes.map (·.token)) := by
    rw [← finish_iff_complete hrun, hfinish]
    exact nofun
  cases complaint with
  | unexpectedToken token =>
      exact iff_of_false (not_unexpectedToken hrun token) (fun h => absurd h.1 nofun)
  | unexpectedChar c =>
      exact iff_of_false (not_unexpectedChar hstop c) (fun h => absurd h.1 nofun)
  | unexpectedEnd =>
      constructor
      · rintro ⟨-, -, -, hplace⟩
        exact ⟨rfl, (eq_endLoc_iff.mpr hplace).symm⟩
      · rintro ⟨-, hplace⟩
        exact ⟨hstop, run_eq_ok_iff_viable.mp ⟨state, hrun⟩, hincomplete,
          eq_endLoc_iff.mp hplace.symm⟩
  | integerTooLarge digits =>
      exact iff_of_false (fun h => hincomplete h.2.1) (fun h => absurd h.1 nofun)

/-- Where all tokens are taken and derive a tree, only a literal can be wrong. -/
theorem firstObstacle_of_finished {tree : Expr} (hfinish : state.finish = some tree) :
    FirstObstacle goal source loc complaint
      ↔ (scan source).lexemes.findSome? literalError? = some (.rejected complaint loc) := by
  have hcomplete : Complete goal ((scan source).lexemes.map (·.token)) :=
    (finish_iff_complete hrun).mp ⟨tree, hfinish⟩
  have hliteral : ∀ {complaint}, (scan source).lexemes.findSome? literalError?
      = some (.rejected complaint loc) → ∃ digits, complaint = .integerTooLarge digits :=
    complaint_of_literalError
  cases complaint with
  | unexpectedToken token =>
      exact iff_of_false (not_unexpectedToken hrun token)
        (fun h => absurd (hliteral h) (by simp))
  | unexpectedChar c =>
      exact iff_of_false (not_unexpectedChar hstop c) (fun h => absurd (hliteral h) (by simp))
  | unexpectedEnd =>
      exact iff_of_false (fun h => h.2.2.1 hcomplete) (fun h => absurd (hliteral h) (by simp))
  | integerTooLarge digits => exact ⟨fun h => h.2.2, fun h => ⟨hstop, hcomplete, h⟩⟩

end

end

end

/-- A source is rejected for exactly the first thing wrong with it, at the place where that is. -/
theorem parse_rejects_iff (goal : Goal) (source : String) (complaint : Complaint) (loc : Loc) :
    parse goal source = .error (.rejected complaint loc)
      ↔ FirstObstacle goal source.toList loc complaint := by
  rw [parse, ofScan]
  cases hrun : (State.initial goal).run (scan source.toList).lexemes with
  | error lexeme =>
      rw [firstObstacle_of_refused hrun]
      simp only [Except.error.injEq, ReadError.rejected.injEq]
  | ok state =>
      cases hstop : (scan source.toList).stop? with
      | some stop =>
          rw [firstObstacle_of_stop hrun hstop]
          simp only [Except.error.injEq, ReadError.rejected.injEq]
      | none =>
          cases hfinish : state.finish with
          | none =>
              rw [firstObstacle_of_unfinished hrun hstop hfinish]
              simp only [hfinish, Except.error.injEq, ReadError.rejected.injEq]
          | some tree =>
              rw [firstObstacle_of_finished hrun hstop hfinish]
              simp only [hfinish]
              cases (scan source.toList).lexemes.findSome? literalError? with
              | none => simp only [reduceCtorEq]
              | some error => simp only [Except.error.injEq, Option.some.injEq]

end Reader

end ExprLang
