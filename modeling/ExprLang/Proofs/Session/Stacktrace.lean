import ExprLang.Proofs.Eval.Unwinding
import ExprLang.Proofs.Session.Step

/-!
# The calls that a report lists

The record of calls is true (`stacktrace_true`). After a value it is what it was before; after a
failure it has grown by exactly the calls that were being executed where the run failed, and the
report of a step of a session lists these, since every step begins with none.
-/

namespace ExprLang

/-! ## What is listed -/

/-- What is listed of some calls, the outermost first: the innermost twenty, after dots if there are
more. -/
def listedCalls (calls : List CallRecord) : List String :=
  (if 20 < calls.length then ["..."] else [])
    ++ (calls.drop (calls.length - 20)).map Report.callText

/-- The line of a report that lists some calls, the outermost first. There is no such line if there
are no calls. -/
def stacktraceLine (calls : List CallRecord) : String :=
  if calls.isEmpty then "" else "\nInf stacktrace: " ++ " ".intercalate (listedCalls calls)

/-- What a report says of a failure apart from the calls. -/
def failureHead (source : String) (failure : Failure) : String :=
  Report.failureText failure ++ match Report.failureLoc? failure with
    | some loc => "\n" ++ Report.placeText source loc
    | none => ""

theorem callsText_reverse (calls : List CallRecord) (hcalls : calls ≠ []) :
    Report.callsText calls.reverse = "Inf stacktrace: " ++ " ".intercalate (listedCalls calls) := by
  have hshown : ((calls.reverse.take Report.maxCalls).map Report.callText).reverse
      = (calls.drop (calls.length - 20)).map Report.callText := by
    rw [List.take_reverse, List.map_reverse, List.reverse_reverse]
    rfl
  unfold Report.callsText listedCalls
  rw [hshown, List.isEmpty_reverse, List.length_reverse]
  by_cases hmany : 20 < calls.length
  · simp [hcalls, hmany, Report.maxCalls]
  · simp [hcalls, hmany, Report.maxCalls]

/-- A report lists the calls on record after all else. -/
theorem ofFailure_reverse (source : String) (calls : List CallRecord) (failure : Failure) :
    Report.ofFailure source calls.reverse failure = failureHead source failure
      ++ stacktraceLine calls := by
  unfold Report.ofFailure failureHead stacktraceLine
  by_cases hcalls : calls = []
  · subst hcalls
    rfl
  · have htext := callsText_reverse calls hcalls
    have hline : Report.callsText calls.reverse ≠ "" := by
      rw [htext]
      exact fun h => absurd (String.append_eq_empty_iff.mp h).1 (by decide)
    have hnone : calls.isEmpty = false := by simpa using hcalls
    have hbreak : "\nInf stacktrace: " = "\n" ++ "Inf stacktrace: " := by decide
    dsimp only
    rw [if_neg hline, htext, hnone, if_neg Bool.false_ne_true, hbreak]
    cases Report.failureLoc? failure with
    | none => simp only [String.append_assoc]
    | some loc => simp only [String.append_assoc]

/-! ## The calls of a step -/

/-- A step of a session fails while these calls are being executed, and this is what there is to say
of the failure apart from them. -/
inductive FailsAmid (session : Session) (goal : Reader.Goal) (source : String) :
    (head : String) → (calls : List CallRecord) → Prop
  | unread {complaint loc} : Reader.parse goal source = .error (.rejected complaint loc) →
      FailsAmid session goal source (Report.ofComplaint source complaint loc) []
  | failed {tree activity raw} : Reader.parse goal source = .ok tree →
      FailsIn session.settings ⟨session.settings.nesting, tree, session.cleared.state⟩
        activity raw →
      FailsAmid session goal source (failureHead source (raw.locate activity.place)) activity.calls

/-- The record of calls tells what was being executed. -/
structure RecordTrue (settings : Settings) (e : Expr) (s : RunState) : Prop where
  /-- After a value the record is what it was before. -/
  unchanged : ∀ {value s'}, evaluate settings e s = .ok value s' → s'.calls = s.calls
  /-- After a failure it has grown by the calls that are being executed at the point where the run
  fails, the innermost last. -/
  grown : ∀ {failure s'}, evaluate settings e s = .error failure s' → ∃ activity raw,
    FailsIn settings ⟨settings.nesting, e, s⟩ activity raw ∧
      raw.locate activity.place = failure ∧
      activity.calls.reverse ++ s.calls = s'.calls
  /-- There is no other such point, and so there are no other calls. -/
  determined : ∀ {activity raw}, FailsIn settings ⟨settings.nesting, e, s⟩ activity raw →
    ∃ s', evaluate settings e s = .error (raw.locate activity.place) s' ∧
      s'.calls = activity.calls.reverse ++ s.calls
  /-- They are calls of user functions, and after these perhaps that of a built-in, which is there
  exactly when its operation has raised the failure. -/
  kinds : ∀ {activity raw}, FailsIn settings ⟨settings.nesting, e, s⟩ activity raw →
    (∀ call ∈ activity.functions, call.IsFunction) ∧
      (∀ call ∈ activity.operation, call.IsBuiltin) ∧
      RaisedAt settings activity raw

theorem recordTrue (settings : Settings) (e : Expr) (s : RunState) : RecordTrue settings e s where
  unchanged := fun hok => (level_of_ok hok).calls
  grown := fun hfails => unwinds_of_error settings.nesting e hfails
  determined := fun hin => hin.fails
  kinds := fun hin => ⟨hin.kinds.1, hin.kinds.2, hin.raisedAt⟩

/-- A step begins with no call on record, so the report of its failure lists those of its own
run. -/
theorem handle_reports_iff {session : Session} {goal : Reader.Goal} {source report : String} :
    (∃ place, (session.handle goal source).1 = .ok (.error report place)) ↔
      ∃ head calls, FailsAmid session goal source head calls ∧
        report = head ++ stacktraceLine calls := by
  constructor
  · rintro ⟨place, hreport⟩
    obtain ⟨result, after, hstep⟩ := session.exists_stepsTo goal source
    rw [hstep.handle_eq] at hreport
    cases hstep with
    | refused | done => exact absurd hreport nofun
    | unread hparse =>
        cases hreport
        exact ⟨_, _, .unread hparse, by simp [stacktraceLine]⟩
    | failed hparse hfails =>
        cases hreport
        obtain ⟨activity, raw, hin, rfl, hcalls⟩ := (recordTrue _ _ _).grown hfails
        refine ⟨_, _, .failed hparse hin, ?_⟩
        rw [← hcalls, ← ofFailure_reverse]
        exact congrArg (Report.ofFailure source · _) (List.append_nil _)
  · rintro ⟨head, calls, hamid, rfl⟩
    cases hamid with
    | @unread complaint loc hparse =>
        rw [(Session.StepsTo.unread hparse).handle_eq]
        exact ⟨some loc, by simp [stacktraceLine]⟩
    | failed hparse hin =>
        obtain ⟨s, hfails, hcalls⟩ := (recordTrue _ _ _).determined hin
        have hrecord : s.calls = _ := hcalls.trans (List.append_nil _)
        rw [(Session.StepsTo.failed hparse hfails).handle_eq, ← ofFailure_reverse, ← hrecord]
        exact ⟨_, rfl⟩

/-- The record of calls is true of every evaluation, and the report of a failing step of a session
lists exactly the calls that are being executed at the point where the step fails. -/
theorem stacktrace_true : (∀ settings e s, RecordTrue settings e s) ∧
    ∀ (session : Session) goal source report,
      (∃ place, (session.handle goal source).1 = .ok (.error report place)) ↔
        ∃ head calls, FailsAmid session goal source head calls ∧
          report = head ++ stacktraceLine calls :=
  ⟨recordTrue, fun _ _ _ _ => handle_reports_iff⟩

/-- In a session that has failed before, a line fails in an operation, and a tree in a function
beside the call that is on record already. -/
theorem stacktrace_true_failing :
    let session := Session.start {} (.ofInput "")
    let session := { session with state.calls := [⟨"/", .null, [.int none 1, .int none 0]⟩] }
    (∃ report head calls, (session.handle .expression "not(7)").1
      = .ok (.error report (some ⟨1, 1⟩)) ∧
      FailsAmid session .expression "not(7)" head calls ∧
        report = head ++ stacktraceLine calls) ∧
      (∃ s, evaluate {} (.ident none "not") session.state
          = .ok (.builtin none "not" 1 []) s ∧ s.calls = session.state.calls) ∧
      ∃ activity raw,
        FailsIn {} ⟨256, .call none (.fn none none (.ident none "x")) none, session.state⟩
          activity raw ∧
        raw.locate activity.place = .ofFault (.unknownIdentifier "x") ∧
        activity.calls.reverse.map (·.args.length) ++ [2] = [0, 2] := by
  obtain ⟨hrecords, hreports⟩ := stacktrace_true
  intro start session
  refine ⟨?_, ⟨_, rfl, (hrecords {} (.ident none "not") session.state).unchanged rfl⟩, ?_⟩
  · have hparse : Reader.parse .expression "not(7)"
        = .ok (.call (some ⟨1, 1⟩) (.ident (some ⟨1, 1⟩) "not") (some (.int none 7))) := by
      rfl
    obtain ⟨s, hrun⟩ : ∃ s,
        evaluate session.settings
          (.call (some ⟨1, 1⟩) (.ident (some ⟨1, 1⟩) "not") (some (.int none 7)))
          session.cleared.state
          = .error (.fault (.wrongOperand "not" .boolean (.int none 7)) (some ⟨1, 1⟩)) s :=
      ⟨_, rfl⟩
    have hreport := (Session.StepsTo.failed hparse hrun).handle_eq
    obtain ⟨head, calls, hamid, htext⟩ :=
      (hreports session .expression "not(7)" _).mp ⟨_, congrArg Prod.fst hreport⟩
    exact ⟨_, head, calls, congrArg Prod.fst hreport, hamid, htext⟩
  · obtain ⟨s, hrun, hargs⟩ : ∃ s,
        evaluate {} (.call none (.fn none none (.ident none "x")) none) session.state
            = .error (.ofFault (.unknownIdentifier "x")) s ∧
          s.calls.map (·.args.length) = [0, 2] := ⟨_, rfl, rfl⟩
    obtain ⟨activity, raw, hin, hfailure, hcalls⟩ := (hrecords {} _ session.state).grown hrun
    refine ⟨activity, raw, hin, hfailure, ?_⟩
    rwa [← hcalls, List.map_append] at hargs

end ExprLang
