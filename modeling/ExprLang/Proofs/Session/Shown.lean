import Mathlib.Data.List.Infix
import ExprLang.Proofs.Excerpt
import ExprLang.Proofs.Reader.Refusal
import ExprLang.Proofs.Session.Blame
import ExprLang.Proofs.Session.Kept

/-!
# What an error report shows

The place in an error report is counted in the text that the expression at fault was read from. That
is the text of the step, unless it is a function of an earlier step that fails: then the place is
one in the text of that step, and the excerpt is cut out of another. And the excerpt counts lines
that end at more characters than a newline. Where neither is the case, the marked row of the excerpt
is the line of the place, with the caret under what is at fault (`reports_show_place`).
-/

namespace ExprLang

open Reader

/-! ## What cannot be read -/

/-- What a complaint is about stands at a place in a source; an end that comes too early is told of
at the last token. -/
def Reader.Complaint.StandsAt (source : String) (loc : Loc) : Complaint → Prop
  | .unexpectedToken token => IsTokenAt source token loc
  | .unexpectedChar c => ∃ before rest, source.toList = before ++ c :: rest ∧
      loc = Loc.start.after before
  | .unexpectedEnd => IsLastPlace source.toList loc
  | .integerTooLarge digits => IsTokenAt source (.int digits) loc

/-- A source is rejected at the place where it has what is complained about. -/
theorem parse_stands {goal : Goal} {source : String} {complaint : Complaint} {loc : Loc}
    (h : parse goal source = .error (.rejected complaint loc)) : complaint.StandsAt source loc := by
  rw [parse, ofScan] at h
  split at h
  next hrun =>
      cases h
      obtain ⟨before, after, state, hsplit, -, -⟩ := State.run_eq_error hrun
      exact isTokenAt_of_mem (hsplit ▸ List.mem_append_right _ List.mem_cons_self)
  next hstop =>
      cases h
      obtain ⟨before, rest, hsource, hloc, -, -⟩ := scan_stops hstop
      exact ⟨before, rest, hsource, hloc⟩
  next =>
      split at h
      next =>
          cases h
          exact eq_endLoc_iff.mp rfl
      next hliteral =>
          cases h
          obtain ⟨before, lexeme, after, hsplit, hlexeme, -⟩ :=
            List.findSome?_eq_some_iff.mp hliteral
          obtain ⟨digits, rfl, rfl⟩ := literalError?_eq_rejected hlexeme
          exact isTokenAt_of_mem (hsplit ▸ List.mem_append_right _ List.mem_cons_self)
      next => cases h

/-! ## Sessions and the texts of their steps -/

/-- The sessions that come of steps one after another, with the texts of the steps, the latest
first. -/
inductive History (settings : Settings) : List String → Session → Prop
  | start (console : Console) : History settings [] (.start settings console)
  | step {texts : List String} {session : Session} (goal : Goal) (source : String) :
      History settings texts session →
        History settings (source :: texts) (session.handle goal source).2
  | console {texts : List String} {session : Session} (console : Console) :
      History settings texts session → History settings texts (session.withConsole console)

/-- Every node of a tree stands in one of these texts. -/
def StandsIn (texts : List String) : Expr → Prop :=
  Everywhere fun e => ∃ text ∈ texts, e.Stands (scan text.toList).lexemes

theorem hereditary_standsIn (text : String) (texts : List String) :
    Hereditary (StandsIn (text :: texts)) := by
  refine hereditary_everywhere (fun {e} hbuilt => ⟨text, List.mem_cons_self, ?_⟩)
    fun _ => ⟨text, List.mem_cons_self, trivial⟩
  cases e with
  | int | str | bool | null | list | builtin => trivial
  | _ => exact absurd hbuilt not_false

theorem Anchored.standsIn {text : String} {texts : List String} (hmem : text ∈ texts) {e : Expr}
    (h : Anchored (scan text.toList).lexemes e) : StandsIn texts e := by
  induction h with
  | of_parts hstands _ ih => exact .of_parts ⟨text, hmem, hstands⟩ ih

theorem StandsIn.more {texts : List String} {e : Expr} (h : StandsIn texts e) (text : String) :
    StandsIn (text :: texts) e :=
  h.mono fun _ ⟨other, hmem, hstands⟩ => ⟨other, List.mem_cons_of_mem _ hmem, hstands⟩

theorem parse_standsIn {goal : Goal} {source : String} {tree : Expr} (texts : List String)
    (h : parse goal source = .ok tree) : StandsIn (source :: texts) tree :=
  (parse_anchored h).standsIn List.mem_cons_self

theorem IsReadFrom.standsIn {goal : Goal} {source : String} {e : Expr} (texts : List String)
    (h : IsReadFrom goal source e) : StandsIn (source :: texts) e := by
  obtain ⟨-, hparse⟩ | ⟨loc, es, hparse, hmem⟩ := h
  · exact parse_standsIn texts hparse
  · exact (parse_standsIn texts hparse).parts e hmem

/-- All that a session keeps stands in the texts that it has been given. -/
theorem History.kept {settings : Settings} {texts : List String} {session : Session}
    (h : History settings texts session) (text : String) :
    session.state.Kept (StandsIn (text :: texts)) := by
  induction h generalizing text with
  | start console =>
      refine ⟨List.forall_mem_singleton.mpr (builtinFrame_each fun operation => ?_), nofun⟩
      exact .leaf ⟨text, List.mem_cons_self, trivial⟩ rfl
  | @step texts session goal source _ ih =>
      obtain ⟨result, after, hstep⟩ := Session.exists_stepsTo session goal source
      rw [hstep.handle_eq]
      have hkept := hstep.kept (hereditary_standsIn source texts)
        (fun _ hread => hread.standsIn texts)
        (ih source)
      exact hkept.mono fun _ hvalue => hvalue.more text
  | console console _ ih => exact ⟨(ih text).scope, (ih text).last⟩

/-! ## Places of errors -/

/-- A place in a text. -/
def Loc.IsPlaceOf (text : String) (loc : Loc) : Prop :=
  ∃ before rest, text.toList = before ++ rest ∧ loc = Loc.start.after before

theorem Loc.IsPlaceOf.one_le_line {text : String} {loc : Loc} (h : loc.IsPlaceOf text) :
    1 ≤ loc.line := by
  obtain ⟨before, -, -, rfl⟩ := h
  obtain ⟨above, left, -, -, hafter⟩ := Loc.after_lines before
  rw [hafter]
  exact Nat.le_add_left 1 _

theorem Lexeme.IsIn.place {text : String} {lexeme : Lexeme} (h : lexeme.IsIn text.toList) :
    lexeme.loc.IsPlaceOf text := by
  obtain ⟨before, after, htext, hloc⟩ := h
  exact ⟨before, lexeme.token.text.toList ++ after, by rw [htext, List.append_assoc], hloc⟩

theorem IsTokenAt.place {text : String} {token : Token} {loc : Loc} (h : IsTokenAt text token loc) :
    loc.IsPlaceOf text :=
  Lexeme.IsIn.place h.2

theorem Reader.Complaint.StandsAt.place {source : String} {complaint : Complaint} {loc : Loc}
    (h : complaint.StandsAt source loc) : loc.IsPlaceOf source := by
  cases complaint with
  | unexpectedToken | integerTooLarge => exact IsTokenAt.place h
  | unexpectedChar c =>
      obtain ⟨before, rest, hsource, hloc⟩ := h
      exact ⟨before, c :: rest, hsource, hloc⟩
  | unexpectedEnd =>
      obtain ⟨-, rfl⟩ | ⟨_, last, -, hfollows, rfl⟩ := h
      · exact ⟨[], source.toList, rfl, rfl⟩
      · exact hfollows.isIn.place

/-- At the place of a fault there is a token. -/
theorem Fault.PointsAt.token {text : String} {cause : Fault} {node : Expr} {loc : Loc}
    (h : cause.PointsAt text node loc) : ∃ token, IsTokenAt text token loc := by
  unfold Fault.PointsAt at h
  split at h
  next => exact ⟨_, h.2⟩
  next => exact ⟨_, h.2⟩
  next => exact ⟨_, h.2⟩
  next => exact ⟨_, h.2⟩
  next =>
      obtain ⟨-, token, htoken, -⟩ := h
      exact ⟨token, htoken⟩

/-- What is at fault in a step, and reported so, stands in a text at a place: what cannot be read
does so in the source of the step, and the innermost expression that fails in the text that it was
read from. -/
inductive FaultIn (session : Session) (goal : Goal) (source : String) (loc : Loc) :
    (text report : String) → Prop
  | unread {complaint : Complaint} : parse goal source = .error (.rejected complaint loc) →
      complaint.StandsAt source loc →
      FaultIn session goal source loc source (Report.ofComplaint source complaint loc)
  | failed {tree : Expr} {cause : Fault} {s : RunState} {activity : Activity} {node : Expr}
      {text : String} : parse goal source = .ok tree →
      evaluate session.settings tree session.cleared.state = .error (.fault cause (some loc)) s →
      FailsIn session.settings ⟨session.settings.nesting, tree, session.cleared.state⟩ activity
        (.ofFault cause) →
      activity.trees.getLast? = some node → cause.PointsAt text node loc →
      FaultIn session goal source loc text
        (Report.ofFailure source s.calls (.fault cause (some loc)))

variable {texts : List String} {session : Session} {goal : Goal}
  {source text report : String} {loc : Loc}

theorem FaultIn.place (h : FaultIn session goal source loc text report) : loc.IsPlaceOf text := by
  cases h with
  | unread _ hstands => exact hstands.place
  | failed _ _ _ _ hpoints =>
      obtain ⟨token, htoken⟩ := hpoints.token
      exact htoken.place

/-- What is at fault stands in the source of the step or in that of a step before. -/
theorem History.faultIn {settings : Settings} (h : History settings texts session)
    (hreport : (session.handle goal source).1 = .ok (.error report (some loc))) :
    ∃ text ∈ source :: texts, FaultIn session goal source loc text report := by
  obtain ⟨result, after, hstep⟩ := session.exists_stepsTo goal source
  rw [hstep.handle_eq] at hreport
  cases hstep with
  | refused | done => exact absurd hreport nofun
  | unread hparse =>
      cases hreport
      exact ⟨source, List.mem_cons_self, .unread hparse (parse_stands hparse)⟩
  | @failed tree failure s hparse hend =>
      cases failure with
      | fault cause place =>
          obtain ⟨rfl, hplace⟩ := Outcome.error.inj (Except.ok.inj hreport)
          obtain rfl : place = some loc := hplace
          obtain ⟨activity, hin, hactive⟩ := fault_place hend
          obtain ⟨-, node, hlast, hraised⟩ := hin.raisedBy
          have hkept := (h.kept source).scope
          have hnode :=
            hin.inherits (hereditary_standsIn source texts) (parse_standsIn texts hparse) hkept
            node (List.mem_of_getLast? hlast)
          obtain ⟨text, hmem, hstands⟩ := hnode.node
          obtain ⟨loc', hloc, hpoints⟩ := hstands.pointsAt hraised
          obtain rfl := Option.some.inj (hactive.trans (Activity.place_of_last hlast hloc))
          exact ⟨text, hmem, .failed hparse hend hin hlast hpoints⟩
      | _ => exact absurd hreport nofun

/-! ## Excerpts in reports -/

/-- A report of an error with a place has the place in it, and the excerpt of the source of the
step. -/
theorem FaultIn.report_eq (h : FaultIn session goal source loc text report) : ∃ head trace,
    report = head ++ "(line " ++ toString loc.line ++ ", col " ++ toString loc.col ++ ")\n"
        ++ excerpt source (some loc.line) (some loc.col) Report.radius ++ trace ∧
      (trace = "" ∨ ∃ calls, trace = "\n" ++ calls) := by
  cases h with
  | @unread complaint =>
      refine ⟨"ParseError: " ++ complaint.message ++ " ", "", ?_, .inl rfl⟩
      simp only [Report.ofComplaint, Report.placeText, String.append_assoc, String.append_empty]
  | @failed tree cause s =>
      refine ⟨Report.failureText (.fault cause (some loc)) ++ "\n",
        if Report.callsText s.calls = "" then "" else "\n" ++ Report.callsText s.calls, ?_, ?_⟩
      · simp only [Report.ofFailure, Report.failureLoc?, Report.placeText, String.append_assoc]
      · split
        · exact .inl rfl
        · exact .inr ⟨_, rfl⟩

/-- What the report of an error with a place shows. -/
structure ShowsPlace (texts : List String) (session : Session) (goal : Goal)
    (source report : String) (loc : Loc) : Prop where
  /-- What is at fault stands at the place in the source of the step or, if a run fails, in the text
  of some step before. -/
  fault : ∃ text ∈ source :: texts, FaultIn session goal source loc text report ∧
    loc.IsPlaceOf text
  /-- The report has the place in it, and then an excerpt of the source of the step. -/
  report_eq : ∃ head trace,
    report = head ++ "(line " ++ toString loc.line ++ ", col " ++ toString loc.col ++ ")\n"
        ++ excerpt source (some loc.line) (some loc.col) Report.radius ++ trace ∧
      (trace = "" ∨ ∃ calls, trace = "\n" ++ calls)
  /-- The excerpt marks the line with the number of the place, by any kind of line break, and has a
  caret at the offset of the column. -/
  row : ∀ line, (Text.lines source.toList)[loc.line - 1]? = some line →
    Marks (excerpt source (some loc.line) (some loc.col) Report.radius) loc.line line loc.col
  /-- It is empty if there is no such line. -/
  no_row : (Text.lines source.toList)[loc.line - 1]? = none →
    excerpt source (some loc.line) (some loc.col) Report.radius = ""
  /-- If the place is one in the source of the step, the line that it is in by newlines is the one
  that is marked, and the caret is under what begins there, as long as nothing but newlines breaks
  the lines down to that one. -/
  marked : ∀ before rest, source.toList = before ++ rest → loc = Loc.start.after before →
    ∃ above left, before = above.flatMap (· ++ ['\n']) ++ left ∧
      PlaceIn source.toList loc above left (rest.takeWhile (· ≠ '\n')) ∧
      (rest.takeWhile (· ≠ '\n') ≠ [] →
        (∀ line ∈ (left ++ rest.takeWhile (· ≠ '\n')) :: above, Unbroken line) →
        Marks (excerpt source (some loc.line) (some loc.col) Report.radius) loc.line
          (left ++ rest.takeWhile (· ≠ '\n')) loc.col)

/-- **Error reports show the place of the error**, if it is in the source of the step and newlines
are all that breaks its lines. -/
theorem reports_show_place {settings : Settings} (h : History settings texts session)
    (hreport : (session.handle goal source).1 = .ok (.error report (some loc))) :
    ShowsPlace texts session goal source report loc := by
  obtain ⟨text, hmem, hfault⟩ := h.faultIn hreport
  have hline := hfault.place.one_le_line
  have hrow : ∀ line, (Text.lines source.toList)[loc.line - 1]? = some line →
      Marks (excerpt source (some loc.line) (some loc.col) Report.radius) loc.line line loc.col :=
    fun _ => excerpt_marks (by decide) hline
  refine ⟨⟨text, hmem, hfault, hfault.place⟩, hfault.report_eq, hrow,
    excerpt_eq_empty _ hline, ?_⟩
  intro before rest hsource hloc
  obtain ⟨above, left, hbefore, hplace⟩ := exists_placeIn hsource hloc
  exact ⟨above, left, hbefore, hplace, fun hrest hunbroken =>
    hrow _ (hplace.lines_getElem? hrest hunbroken)⟩

/-- A name that stands for nothing, in the second line of a script. -/
theorem reports_show_place_second_line :
    let session := Session.start {} (.ofInput "")
    History {} [] session ∧ ∃ report,
      (session.handle .program "1\n  y").1 = .ok (.error report (some ⟨2, 3⟩)) ∧
        ShowsPlace [] session .program "1\n  y" report ⟨2, 3⟩ ∧
        Marks (excerpt "1\n  y" (some 2) (some 3) Report.radius) 2 "  y".toList 3 := by
  intro session
  have hstart : History {} [] session := .start (.ofInput "")
  have hparse : parse .program "1\n  y"
      = .ok (.program none [.int none 1, .ident (some ⟨2, 3⟩) "y"]) := by rfl
  obtain ⟨s, hrun⟩ : ∃ s, evaluate session.settings
      (.program none [.int none 1, .ident (some ⟨2, 3⟩) "y"]) session.cleared.state
        = .error (.fault (.unknownIdentifier "y") (some ⟨2, 3⟩)) s := ⟨_, rfl⟩
  have hreport := congrArg Prod.fst (Session.StepsTo.failed hparse hrun).handle_eq
  have hshows := reports_show_place hstart hreport
  exact ⟨hstart, _, hreport, hshows, hshows.row "  y".toList (by decide)⟩

/-- A function that fails in a later step than that which it was read in, and a line that ends at a
carriage return. -/
theorem report_shows_other_place :
    let session := Session.start {} (.ofInput "")
    let after := (session.handle .expression "let f = fn() { boom }").2
    History {} ["let f = fn() { boom }"] after ∧
      ((after.handle .expression "f()").1 = .ok (.error
          ("UnknownIdentifier: unknown identifier `boom`\n(line 1, col 16)\n"
            ++ "> 1 | f()\n    |                ^\nInf stacktrace: (f)")
          (some ⟨1, 16⟩)) ∧
        ∀ before rest, "f()".toList = before ++ rest →
          Loc.start.after before ≠ ⟨1, 16⟩) ∧
      (session.handle .expression "# a\rb\nx").1 = .ok (.error
          ("UnknownIdentifier: unknown identifier `x`\n(line 2, col 1)\n  1 | # a\n"
            ++ "> 2 | b\n    | ^\n  3 | x")
          (some ⟨2, 1⟩)) ∧
        PlaceIn "# a\rb\nx".toList ⟨2, 1⟩ ["# a\rb".toList] [] "x".toList := by
  intro session after
  have hstart : History {} [] session := .start (.ofInput "")
  refine ⟨hstart.step .expression _, ⟨?_, ?_⟩, ?_, ?_⟩
  · let fn : Expr := .fn none none (.block none [.ident (some ⟨1, 16⟩) "boom"])
    let bound : RunState := { session.state with scope := .ofRoot (builtinFrame.set "f" fn) }
    have hbinding : parse .expression "let f = fn() { boom }"
        = .ok (.binding (some ⟨1, 1⟩) "f" fn) := by rfl
    have hcall : parse .expression "f()"
        = .ok (.call (some ⟨1, 1⟩) (.ident (some ⟨1, 1⟩) "f") none) := by rfl
    have hbind : evaluate session.settings (.binding (some ⟨1, 1⟩) "f" fn) session.cleared.state
        = .ok fn bound := by rfl
    have hafter : after = { session with state := bound } :=
      congrArg Prod.snd (Session.StepsTo.done hbinding hbind).handle_eq
    have hfails : evaluate session.settings
      (.call (some ⟨1, 1⟩) (.ident (some ⟨1, 1⟩) "f") none)
        (Session.cleared { session with state := bound }).state
          = .error (.fault (.unknownIdentifier "boom") (some ⟨1, 16⟩))
              { bound with calls := [⟨"f", fn, []⟩] } := by rfl
    have hreport : Report.ofFailure "f()" [⟨"f", fn, []⟩]
        (.fault (.unknownIdentifier "boom") (some ⟨1, 16⟩))
          = "UnknownIdentifier: unknown identifier `boom`\n(line 1, col 16)\n"
            ++ "> 1 | f()\n    |                ^\nInf stacktrace: (f)" := by
      decide +kernel
    rw [hafter, ← hreport]
    exact congrArg Prod.fst
      (@Session.StepsTo.failed { session with state := bound } _ _ _ _ _ hcall hfails).handle_eq
  · intro before rest hsplit
    have hplaces : ∀ before ∈ ['f', '(', ')'].inits,
        Loc.start.after before ≠ ⟨1, 16⟩ := by decide
    exact hplaces before ((List.mem_inits _ _).mpr ⟨rest, hsplit.symm⟩)
  · have hparse : parse .expression "# a\rb\nx" = .ok (.ident (some ⟨2, 1⟩) "x") := by rfl
    obtain ⟨s, hrun, hcalls⟩ : ∃ s, evaluate session.settings (.ident (some ⟨2, 1⟩) "x")
        session.cleared.state = .error (.fault (.unknownIdentifier "x") (some ⟨2, 1⟩)) s ∧
          s.calls = [] :=
      ⟨_, rfl, rfl⟩
    have hreport : Report.ofFailure "# a\rb\nx" []
      (.fault (.unknownIdentifier "x") (some ⟨2, 1⟩))
        = "UnknownIdentifier: unknown identifier `x`\n(line 2, col 1)\n  1 | # a\n"
            ++ "> 2 | b\n    | ^\n  3 | x" := by
      decide +kernel
    rw [← hreport, ← hcalls]
    exact congrArg Prod.fst (Session.StepsTo.failed hparse hrun).handle_eq
  · exact ⟨⟨[], by decide, .inl rfl⟩, by decide, rfl⟩

end ExprLang
