import ExprLang.Proofs.Eval.Reach
import ExprLang.Proofs.Eval.Termination
import ExprLang.Proofs.Session.Kept

/-!
# What is reported as an error

An error report begins with a label, and no report begins with two. In a session a run fails in few
ways: with a fault of the program, with calls that are nested too deeply, or in one of two
operations that cannot do what they are asked for. These two alone are told as internal errors: a
numeral of more digits than can be read, and a list of more members than an integer can count
(`failures_are_language_errors`). Where lists fit in memory only the first is left.

No name is bound where there is no frame for it, and no operation is run on a number of arguments
that is not its own, since all built-ins of a session keep their books.
-/

namespace ExprLang

open EvalM

/-! ## Labels -/

/-- What an error report begins with. -/
inductive Label where
  | parseError
  | recursionError
  | fault (faultClass : FaultClass)
  | internalError
deriving DecidableEq

namespace Label

/-- The text of a label. -/
def text : Label → String
  | parseError => "ParseError"
  | recursionError => "RecursionError"
  | fault faultClass => faultClass.name
  | internalError => "InternalError"

/-- A report begins with a label and a colon. -/
def Heads (label : Label) (report : String) : Prop :=
  ∃ rest, report = label.text ++ ": " ++ rest

/-- All labels. -/
def all : List Label :=
  [parseError, recursionError, internalError, fault .unknownIdentifier, fault .typeMismatch,
    fault .arityMismatch, fault .notCallable, fault .indexOutOfRange, fault .ioFailure,
    fault .arithmeticFault, fault .evalError]

theorem mem_all (label : Label) : label ∈ all := by
  cases label with
  | fault faultClass => cases faultClass <;> decide
  | _ => decide

theorem text_no_colon (label : Label) : label.text.toList.all (· ≠ ':') = true := by
  cases label with
  | fault faultClass => cases faultClass <;> rfl
  | _ => rfl

/-- A label is what stands before the first colon. -/
theorem takeWhile_of_heads {label : Label} {report : String} (h : label.Heads report) :
    report.toList.takeWhile (· ≠ ':') = label.text.toList := by
  obtain ⟨rest, rfl⟩ := h
  have hcolon := List.all_eq_true.mp label.text_no_colon
  rw [String.toList_append, String.toList_append, List.append_assoc,
    List.takeWhile_append_of_pos hcolon]
  simp

theorem Heads.append {label : Label} {report : String} (h : label.Heads report) (more : String) :
    label.Heads (report ++ more) := by
  obtain ⟨rest, rfl⟩ := h
  exact ⟨rest ++ more, String.append_assoc ..⟩

/-- No report begins with two labels. -/
theorem Heads.unique {label other : Label} {report : String} (h : label.Heads report)
    (h' : other.Heads report) : label = other := by
  have htexts : ∀ label ∈ all, ∀ other ∈ all, label.text.toList = other.text.toList →
      label = other := by
    decide +kernel
  have heq := (takeWhile_of_heads h).symm.trans (takeWhile_of_heads h')
  exact htexts label (mem_all label) other (mem_all other) heq

end Label

/-- The label of the report of a failure. -/
def Failure.label : Failure → Label
  | .fault cause _ => .fault cause.faultClass
  | .tooDeep => .recursionError
  | _ => .internalError

theorem Failure.heads_failureText (failure : Failure) :
    failure.label.Heads (Report.failureText failure) := by
  cases failure with
  | fault | tooDeep | digitLimit | scope | malformed | argumentCount | foreign | stalled =>
      exact ⟨_, rfl⟩

theorem Failure.heads_ofFailure (source : String) (calls : List CallRecord) (failure : Failure) :
    failure.label.Heads (Report.ofFailure source calls failure) :=
  (failure.heads_failureText.append _).append _

theorem heads_ofComplaint (source : String) (complaint : Reader.Complaint) (loc : Loc) :
    Label.parseError.Heads (Report.ofComplaint source complaint loc) := by
  have hlabel : Label.parseError.Heads ("ParseError: " ++ complaint.message) := ⟨_, rfl⟩
  exact (hlabel.append " ").append _

/-! ## The built-ins of a session -/

/-- The built-ins of a tree keep their books, and none of them goes by the name of an attribute. -/
def Expr.InOrder (e : Expr) : Prop := Booked e ∧ HostFree e

theorem hereditary_inOrder : Hereditary Expr.InOrder := hereditary_booked.and hereditary_hostFree

/-- The value of an operation misses all of its arguments. -/
theorem inOrder_value (operation : Operation) : operation.value.InOrder := by
  refine ⟨.leaf (fun other hname => ?_) rfl, .leaf ?_ rfl⟩
  · obtain rfl := Option.some.inj ((Operation.ofName?_name operation).symm.trans hname)
    rfl
  · show Attribute.ofName? operation.name = none
    cases operation <;> rfl

/-- What is written down has no built-ins. -/
theorem IsWritten.inOrder {e : Expr} (h : IsWritten e) : e.InOrder := by
  refine ⟨h.mono fun e hwritten => ?_, h.mono fun e hwritten => ?_⟩
  all_goals
    cases e with
    | builtin => exact absurd hwritten not_false
    | _ => trivial

/-- What is read is in order. -/
theorem inOrder_of_parse {goal : Reader.Goal} {source : String} {tree : Expr}
    (h : Reader.parse goal source = .ok tree) : tree.InOrder := by
  obtain ⟨-, htree⟩ | ⟨-, loc, es, rfl, hes⟩ := parse_cases h
  · exact htree.parserBuilt.written.inOrder
  · have hmembers : ∀ e ∈ es, e.InOrder :=
      fun e hmem => (hes e hmem).parserBuilt.written.inOrder
    exact ⟨.of_parts trivial fun e hmem => (hmembers e hmem).1,
      .of_parts trivial fun e hmem => (hmembers e hmem).2⟩

/-! ## How runs fail -/

section
variable {settings : Settings}

theorem Breaks.raw {ev : Evaluation} {raw : Failure} (h : Breaks settings ev raw) :
    (∃ cause, raw = .ofFault cause) ∨ raw = .stalled := by
  cases h with
  | unknown | choiceTest | loopTest | loopLimit | refused => exact .inl ⟨_, rfl⟩
  | stalled => exact .inr rfl

theorem Operates.callee {ev : Evaluation} {call : CallRecord} {s₁ : RunState}
    (h : Operates settings ev call s₁) :
    ∃ loc, call.callee = .builtin loc call.name 0 call.args := by
  cases h with
  | full | last => exact ⟨_, rfl⟩

/-- Where the built-ins are in order, an evaluation fails with a fault or hits a limit, or it
applies an operation to arguments that this takes, and on which it fails. -/
theorem FailsAt.raw {ev : Evaluation} {raw : Failure} (htree : ev.tree.InOrder)
    (heach : ev.state.scope.Each Expr.InOrder) (h : FailsAt settings ev raw) :
    (∃ cause, raw = .ofFault cause) ∨ raw = .stalled ∨ raw = .tooDeep ∨
      ∃ call operation, Applies settings ev call ∧
        Operation.ofName? call.name = some operation ∧
        operation.Fails call.args raw := by
  cases h with
  | breaks _ hbreaks =>
      obtain hfault | hstalled := hbreaks.raw
      · exact .inl hfault
      · exact .inr (.inl hstalled)
  | tooDeep => exact .inr (.inr (.inl rfl))
  | @operates inner call s₁ _ _ hreaches hoperates hrun =>
      have happlies : Applies settings ev call := ⟨inner, s₁, hreaches, hoperates⟩
      obtain ⟨loc, hcallee⟩ := hoperates.callee
      obtain ⟨hbooked, hfree⟩ := (happlies.inherits hereditary_inOrder htree heach).1
      rw [hcallee] at hbooked hfree
      cases runBuiltin_fails hrun with
      | unknown => exact .inl ⟨_, rfl⟩
      | foreign hfound => exact absurd (hfound.symm.trans hfree.node) nofun
      | fails hname hfails => exact .inr (.inr (.inr ⟨call, _, happlies, hname, hfails⟩))
      | @argumentCount operation hname hcount =>
          -- the books say how many arguments there are
          have hbooks := hbooked.node operation hname
          exact absurd ((Nat.zero_add _).symm.trans hbooks) hcount

end

/-! ## What a step applies -/

namespace Session

variable (session : Session) (goal : Reader.Goal) (source : String)

/-- The run of a source comes to apply an operation. -/
def Applies (call : CallRecord) : Prop :=
  ∃ tree, Reader.parse goal source = .ok tree ∧
    ExprLang.Applies session.settings
      ⟨session.settings.nesting, tree, session.cleared.state⟩ call

/-- The run of a source has not ended when the patience with its loops does. -/
def GivesUp : Prop :=
  ∃ tree s, Reader.parse goal source = .ok tree ∧
    evaluate session.settings tree session.cleared.state = .error .stalled s

/-- The run of a source asks for the value of a numeral that has more digits than can be read. -/
def ReadsOverlongNumeral : Prop :=
  ∃ call loc text, session.Applies goal source call ∧ call.name = "str_to_int" ∧
    call.args = [.str loc text] ∧ IsOverlongNumeral text.toList

/-- The run of a source asks for the length of a list that has more members than an integer can
count. -/
def CountsOverlongList : Prop :=
  ∃ call loc items, session.Applies goal source call ∧ call.name = "list_len" ∧
    call.args = [.list loc items] ∧ maxInteger < items.length

/-- The lists that operations get have no more members than there is room for in a memory with
addresses of 64 bits, where the length of a list is a signed number of one word. -/
def FitsMemory : Prop :=
  ∀ call, session.Applies goal source call → ∀ loc items, .list loc items ∈ call.args →
    items.length ≤ 9223372036854775807

/-- A step reports an internal error. -/
def ReportsInternalError : Prop :=
  ∃ report loc, (session.handle goal source).1 = .ok (.error report loc) ∧
    Label.internalError.Heads report

end Session

section
variable {session : Session} {goal : Reader.Goal} {source : String}

/-- A run that applies an operation to arguments on which it fails as nothing but an internal error
does is reported so. -/
theorem Session.Applies.reported {call : CallRecord} {raw : Failure}
    (h : session.Applies goal source call)
    (hrun : ∀ console, runBuiltin call.name call.args console = .error raw console)
    (hlabel : raw.label = .internalError) (hnot : raw ≠ .stalled) :
    session.ReportsInternalError goal source ∧ ¬ session.GivesUp goal source := by
  obtain ⟨tree, hparse, happlies⟩ := h
  obtain ⟨activity, s, -, hend⟩ := happlies.fails fun console => ⟨console, hrun console⟩
  have hplace : raw.locate activity.place = raw := by
    cases raw with
    | fault => exact absurd hlabel nofun
    | _ => rfl
  rw [hplace] at hend
  have hfails : evaluate session.settings tree session.cleared.state = .error raw s := hend
  constructor
  · refine ⟨_, _, congrArg Prod.fst (Session.StepsTo.failed hparse hfails).handle_eq, ?_⟩
    rw [← hlabel]
    exact raw.heads_ofFailure source s.calls
  · rintro ⟨tree', s', hparse', hstalled⟩
    obtain rfl := Except.ok.inj (hparse.symm.trans hparse')
    exact hnot (EStateM.Result.error.inj (hfails.symm.trans hstalled)).1

theorem Session.ReadsOverlongNumeral.reported (h : session.ReadsOverlongNumeral goal source) :
    session.ReportsInternalError goal source ∧ ¬ session.GivesUp goal source := by
  obtain ⟨call, loc, text, happlies, hname, hargs, hoverlong⟩ := h
  obtain ⟨digits, hrun⟩ := hoverlong.runBuiltin_eq loc
  rw [← hname, ← hargs] at hrun
  exact happlies.reported hrun rfl nofun

theorem Session.CountsOverlongList.reported (h : session.CountsOverlongList goal source) :
    session.ReportsInternalError goal source ∧ ¬ session.GivesUp goal source := by
  obtain ⟨call, loc, items, happlies, hname, hargs, hlong⟩ := h
  have hrun := runBuiltin_list_len_eq hlong loc
  rw [← hname, ← hargs] at hrun
  exact happlies.reported hrun rfl nofun

theorem Session.CountsOverlongList.not_fits (h : session.CountsOverlongList goal source) :
    ¬ session.FitsMemory goal source := by
  intro hfits
  obtain ⟨call, loc, items, happlies, -, hargs, hlong⟩ := h
  have hle := hfits call happlies loc items (by rw [hargs]; exact List.mem_cons_self)
  unfold maxInteger at hlong
  omega

end

/-! ## Runs of a session -/

/-- How the run of a source may fail. -/
inductive Session.MayFail (session : Session) (goal : Reader.Goal) (source : String) :
    Failure → Prop
  | fault (cause : Fault) (loc : Option Loc) : MayFail session goal source (.fault cause loc)
  | tooDeep : MayFail session goal source .tooDeep
  | stalled : session.GivesUp goal source → MayFail session goal source .stalled
  | digitLimit {digits : Nat} : session.ReadsOverlongNumeral goal source →
      MayFail session goal source (.digitLimit digits)
  | tooLong {length : Nat} : session.CountsOverlongList goal source →
      MayFail session goal source (.malformed (.integerRange length))

theorem Reachable.kept_inOrder {settings : Settings} {session : Session}
    (h : Reachable settings session) : session.state.Kept Expr.InOrder :=
  h.kept hereditary_inOrder inOrder_value fun _ => IsWritten.inOrder

theorem Reachable.mayFail {settings : Settings} {session : Session} (h : Reachable settings session)
    {goal : Reader.Goal} {source : String} {tree : Expr}
    (hparse : Reader.parse goal source = .ok tree) {failure : Failure} {s : RunState}
    (hend : evaluate session.settings tree session.cleared.state = .error failure s) :
    session.MayFail goal source failure := by
  obtain ⟨activity, raw, hin, rfl, -⟩ := unwinds_of_error session.settings.nesting tree hend
  have hscope : session.cleared.state.scope.Each Expr.InOrder := h.kept_inOrder.scope
  obtain ⟨cause, rfl⟩ | rfl | rfl | ⟨call, operation, happlies, hname, hfails⟩ :=
    hin.failsAt.raw (inOrder_of_parse hparse) hscope
  · exact .fault cause activity.place
  · exact .stalled ⟨tree, s, hparse, hend⟩
  · exact .tooDeep
  · have happlies' : session.Applies goal source call := ⟨tree, hparse, happlies⟩
    generalize hargs : call.args = args at hfails
    cases hfails with
    | found hfound =>
        cases hfound with
        | fault => exact .fault _ activity.place
    | digitLimit hoverlong =>
        have hcall := Operation.name_of_ofName? hname rfl
        exact .digitLimit ⟨call, _, _, happlies', hcall, hargs, hoverlong⟩
    | tooLong hlong =>
        have hcall := Operation.name_of_ofName? hname rfl
        exact .tooLong ⟨call, _, _, happlies', hcall, hargs, hlong⟩

/-- What is reported of the failures of a step. -/
structure LanguageErrors (session : Session) (goal : Reader.Goal) (source : String) : Prop where
  /-- An error report begins with one label. -/
  labelled : ∀ {report loc}, (session.handle goal source).1 = .ok (.error report loc) →
    ∃ label : Label, ∀ other : Label, other.Heads report ↔ other = label
  /-- A step whose run ends reports an internal error exactly if the run asks for the value of an
  overlong numeral, or for the length of a list that is too long to be told. -/
  internal : session.ReportsInternalError goal source ∧ ¬ session.GivesUp goal source ↔
    session.ReadsOverlongNumeral goal source ∨ session.CountsOverlongList goal source
  /-- In memory there is no such list. -/
  internal_of_fits : session.FitsMemory goal source →
    (session.ReportsInternalError goal source ∧ ¬ session.GivesUp goal source ↔
      session.ReadsOverlongNumeral goal source)
  /-- No name is ever bound without a frame, no operation run on a number of arguments that is not
  its own, no attribute of the host come across, and no value asked for that cannot be built, but
  for the length of such a list. -/
  unreachable : ∀ {tree failure s}, Reader.parse goal source = .ok tree →
    evaluate session.settings tree session.cleared.state = .error failure s →
      (∀ e, failure ≠ .scope e) ∧
        (∀ signature given, failure ≠ .argumentCount signature given) ∧
        (∀ name found, failure ≠ .foreign name found) ∧
        (session.FitsMemory goal source → ∀ e, failure ≠ .malformed e)

/-- The report of a step that is an internal error is that of a run which ends as few do. -/
theorem Reachable.internal {settings : Settings} {session : Session}
    (h : Reachable settings session) {goal : Reader.Goal} {source : String}
    (hreports : session.ReportsInternalError goal source) (hends : ¬ session.GivesUp goal source) :
    session.ReadsOverlongNumeral goal source ∨ session.CountsOverlongList goal source := by
  obtain ⟨report, loc, hreport, hlabel⟩ := hreports
  obtain ⟨result, after, hstep⟩ := session.exists_stepsTo goal source
  rw [hstep.handle_eq] at hreport
  cases hstep with
  | refused | done => exact absurd hreport nofun
  | unread =>
      cases hreport
      exact absurd (hlabel.unique (heads_ofComplaint ..)) nofun
  | @failed tree failure s hparse hend =>
      cases hreport
      have hfailure := hlabel.unique (failure.heads_ofFailure source s.calls)
      cases h.mayFail hparse hend with
      | fault | tooDeep => exact absurd hfailure nofun
      | stalled hstalled => exact absurd hstalled hends
      | digitLimit hreads => exact .inl hreads
      | tooLong hcounts => exact .inr hcounts

/-- **Failures are language errors.** In a session every error is told under the label of a class,
and an internal one for nothing but an overlong numeral, as long as lists fit in memory. -/
theorem failures_are_language_errors {settings : Settings} {session : Session}
    (h : Reachable settings session) (goal : Reader.Goal) (source : String) :
    LanguageErrors session goal source := by
  have hinternal : session.ReportsInternalError goal source ∧ ¬ session.GivesUp goal source ↔
      session.ReadsOverlongNumeral goal source ∨ session.CountsOverlongList goal source := by
    refine ⟨fun ⟨hreports, hends⟩ => h.internal hreports hends, ?_⟩
    rintro (hreads | hcounts)
    · exact hreads.reported
    · exact hcounts.reported
  refine ⟨fun hreport => ?_, hinternal, fun hfits => ?_, fun hparse hend => ?_⟩
  · obtain ⟨result, after, hstep⟩ := session.exists_stepsTo goal source
    rw [hstep.handle_eq] at hreport
    have hone : ∀ {label : Label} {report}, label.Heads report →
        ∃ label : Label, ∀ other : Label, other.Heads report ↔ other = label := by
      refine fun {label report} hlabel =>
        ⟨label, fun other => ⟨fun hother => hother.unique hlabel, ?_⟩⟩
      rintro rfl
      exact hlabel
    cases hstep with
    | refused | done => exact absurd hreport nofun
    | unread =>
        cases hreport
        exact hone (heads_ofComplaint ..)
    | failed =>
        cases hreport
        exact hone (Failure.heads_ofFailure ..)
  · rw [hinternal]
    exact ⟨fun hcase => hcase.resolve_right fun hcounts => hcounts.not_fits hfits, .inl⟩
  · have hmay := h.mayFail hparse hend
    refine ⟨?_, ?_, ?_, ?_⟩
    · rintro e rfl
      cases hmay
    · rintro signature given rfl
      cases hmay
    · rintro name found rfl
      cases hmay
    · rintro hfits e rfl
      cases hmay with
      | tooLong hcounts => exact hcounts.not_fits hfits

/-- An operation gets an operand of the wrong kind, which is no internal error, so no numeral is
overlong. -/
theorem failures_are_language_errors_operand :
    let session := Session.start {} (.ofInput "")
    Reachable {} session ∧
      (∃ report, (session.handle .expression "not(7)").1
        = .ok (.error report (some ⟨1, 1⟩)) ∧
        ∀ label : Label, label.Heads report ↔ label = .fault .typeMismatch) ∧
      ¬ session.ReadsOverlongNumeral .expression "not(7)" := by
  intro session
  have hstart : Reachable {} session := .start (.ofInput "")
  have herrors := failures_are_language_errors hstart .expression "not(7)"
  have hparse : Reader.parse .expression "not(7)"
      = .ok (.call (some ⟨1, 1⟩) (.ident (some ⟨1, 1⟩) "not") (some (.int none 7))) := by
    rfl
  obtain ⟨s, hrun⟩ : ∃ s,
      evaluate session.settings
        (.call (some ⟨1, 1⟩) (.ident (some ⟨1, 1⟩) "not") (some (.int none 7)))
        session.cleared.state
        = .error (.fault (.wrongOperand "not" .boolean (.int none 7)) (some ⟨1, 1⟩)) s :=
    ⟨_, rfl⟩
  have hreport := congrArg Prod.fst (Session.StepsTo.failed hparse hrun).handle_eq
  have hlabel := Failure.heads_ofFailure "not(7)" s.calls
    (.fault (.wrongOperand "not" .boolean (.int none 7)) (some ⟨1, 1⟩))
  obtain ⟨label, hall⟩ := herrors.labelled hreport
  obtain rfl := (hall _).mp hlabel
  refine ⟨hstart, ⟨_, hreport, hall⟩, fun hreads => ?_⟩
  obtain ⟨⟨report, loc, hreport', hinternal⟩, -⟩ := herrors.internal.mpr (.inl hreads)
  obtain ⟨rfl, -⟩ := Outcome.error.inj (Except.ok.inj (hreport.symm.trans hreport'))
  exact absurd ((hall _).mp hinternal) nofun

end ExprLang
