import ExprLang.CommandLine
import ExprLang.Proofs.Console.Lines
import ExprLang.Proofs.Eval.Output
import ExprLang.Proofs.Session.Contained

/-!
# How a dialogue ends

A dialogue takes a line at each round. It ends where the input ends, at a line that says so, and at
a line with an integer literal of too many digits, which is the only one that it has no answer to
(`failures_contained`). That is so of a host whose own stack is deep enough: reading, displaying and
unwinding are idealised here, and none of them runs out of room for what is nested too deeply.

No round gives anything back to the input: a run takes lines off it and does nothing else to it. So
the rounds that a dialogue is allowed do not run out before the input does.
-/

namespace ExprLang

open Reader

/-! ## The input of a run -/

/-- The second console has what is left of the input of the first. -/
def Console.ReadsOn (console console' : Console) : Prop := console'.input <:+ console.input

theorem Console.readsOn_respected : Console.Respected Console.ReadsOn where
  refl := fun console => List.suffix_refl console.input
  trans := fun h h' => List.IsSuffix.trans h' h
  read := fun console => Console.splitLine_suffix console.input
  write := fun console _ => List.suffix_refl console.input
  log := fun console _ => List.suffix_refl console.input

/-- A run takes lines off its input and adds none. -/
theorem evaluate_readsOn (settings : Settings) (e : Expr) (s : RunState) :
    s.console.ReadsOn (EvalM.final (evaluate settings e s)).console :=
  ((console_stable Console.readsOn_respected settings s.console).evaluate trivial 0).final
    (Console.readsOn_respected.refl s.console)

theorem Session.StepsTo.readsOn {session after : Session} {goal : Goal} {source : String}
    {result : Except ReadError Outcome} (h : session.StepsTo goal source result after) :
    session.state.console.ReadsOn after.state.console := by
  cases h with
  | unread | refused => exact List.suffix_refl _
  | @done tree value s hparse hend =>
      have hreads := evaluate_readsOn session.settings tree session.cleared.state
      rw [hend] at hreads
      exact hreads
  | @failed tree failure s hparse hend =>
      have hreads := evaluate_readsOn session.settings tree session.cleared.state
      rw [hend] at hreads
      exact hreads

/-! ## Lines as they are taken -/

theorem Text.isBlank_of_isDigit {c : Char} (h : c.isDigit = true) : Text.isBlank c = false := by
  have hrange : 48 ≤ c.toNat ∧ c.toNat ≤ 57 := by
    rw [Char.isDigit, Bool.and_eq_true, decide_eq_true_eq, decide_eq_true_eq] at h
    exact ⟨UInt32.le_iff_toNat_le.mp h.1, UInt32.le_iff_toNat_le.mp h.2⟩
  simp only [Text.isBlank, Text.blankRanges, List.any_cons, List.any_nil, Bool.or_false,
    Bool.or_eq_false_iff, Bool.and_eq_false_iff, decide_eq_false_iff_not]
  omega

/-- Nothing is taken off a text that has no blanks. -/
theorem Text.trim_of_no_blank {text : List Char} (h : ∀ c ∈ text, Text.isBlank c = false) :
    Text.trim text = text := by
  have hkept : ∀ {text : List Char}, (∀ c ∈ text, Text.isBlank c = false) →
      text.dropWhile Text.isBlank = text := by
    intro text h
    cases text with
    | nil => rfl
    | cons c rest => rw [List.dropWhile_cons_of_neg (by simp [h c List.mem_cons_self])]
  have hreverse : ∀ c ∈ text.reverse, Text.isBlank c = false :=
    fun c hmem => h c (List.mem_reverse.mp hmem)
  rw [Text.trim, hkept h, hkept hreverse, List.reverse_reverse]

theorem Text.plainNewlines_append {text : List Char} (h : '\r' ∉ text) (rest : List Char) :
    Text.plainNewlines (text ++ rest) = text ++ Text.plainNewlines rest := by
  induction text with
  | nil => rfl
  | cons c text ih =>
      obtain ⟨hc, htext⟩ := not_or.mp (mt List.mem_cons.mpr h)
      rw [List.cons_append, Text.plainNewlines, ih htext, if_neg (Ne.symm hc), List.cons_append]
      rintro rest' rfl
      exact absurd rfl hc

namespace CommandLine

/-! ## Rounds -/

/-- The line that comes next, without the blanks around it, unless the input has ended. -/
def nextLine? (session : Session) : Option String :=
  if session.state.console.input.isEmpty then none
  else some (String.ofList (Text.trim (Console.splitLine session.state.console.input).1))

/-- The session that has asked for a line and taken it. -/
def lineTaken (session : Session) : Session :=
  let session := say prompt session
  let console := session.state.console
  session.withConsole { console with input := (Console.splitLine console.input).2 }

/-- A round after which there is another. -/
inductive Round (session : Session) : Session → Prop
  | blank : nextLine? session = some "" → Round session (lineTaken session)
  | answered {line next} : nextLine? session = some line → line ≠ "" → line ≠ "exit" →
      answer (lineTaken session) line = .ok next → Round session next

/-- What a dialogue comes to that ends at this round. -/
inductive Ends (session : Session) : Except ReadError Exit → Prop
  | endOfInput : nextLine? session = none →
      Ends session (.ok (exitWith 0 (say "\nExiting.\n" (say prompt session))))
  | exit : nextLine? session = some "exit" → Ends session (.ok (exitWith 0 (lineTaken session)))
  | overlong {line count} : nextLine? session = some line →
      HasOverlongLiteral .expression line.toList count → Ends session (.error (.digitLimit count))

/-- The session that a dialogue begins in. -/
def opened (settings : Settings) (input : String) : Session :=
  say banner (.start settings (.ofInput (String.ofList (Text.plainNewlines input.toList))))

theorem opened_input (settings : Settings) (input : String) :
    (opened settings input).state.console.input = Text.plainNewlines input.toList :=
  String.toList_ofList

/-! ## Answers -/

section
variable {session after : Session} {line : String} {outcome : Outcome} {e : ReadError}

theorem answer_of_error (h : session.handle .expression line = (.error e, after)) :
    answer session line = .error e := by
  rw [answer, Session.handleLine, h]

/-- An outcome is shown on the output or on the log, and all else is left alone. -/
theorem answer_of_outcome (h : session.handle .expression line = (.ok outcome, after)) :
    ∃ output log, answer session line
      = .ok (after.withConsole { after.state.console with output := output, log := log }) := by
  rw [answer, Session.handleLine, h]
  cases outcome with
  | error report loc => exact ⟨_, _, rfl⟩
  | success value => cases value <;> exact ⟨_, _, rfl⟩

/-- A line has an answer unless it has an overlong literal. -/
theorem answer_eq_error_iff : answer session line = .error e ↔
    ∃ count, e = .digitLimit count ∧ HasOverlongLiteral .expression line.toList count := by
  constructor
  · intro h
    obtain ⟨result, after, hstep⟩ := session.exists_stepsTo .expression line
    cases result with
    | ok outcome =>
        obtain ⟨output, log, hnext⟩ := answer_of_outcome hstep.handle_eq
        exact absurd (h.symm.trans hnext) nofun
    | error e' =>
        obtain rfl := Except.error.inj (h.symm.trans (answer_of_error hstep.handle_eq))
        cases hstep with
        | refused hparse => exact ⟨_, rfl, (parse_digitLimit_iff ..).mp hparse⟩
  · rintro ⟨count, rfl, hoverlong⟩
    exact answer_of_error
      (Session.StepsTo.refused ((parse_digitLimit_iff ..).mpr hoverlong)).handle_eq

/-- An answer gives nothing back to the input. -/
theorem answer_readsOn {next : Session} (h : answer session line = .ok next) :
    session.state.console.ReadsOn next.state.console := by
  obtain ⟨result, after, hstep⟩ := session.exists_stepsTo .expression line
  cases result with
  | error e => exact absurd (h.symm.trans (answer_of_error hstep.handle_eq)) nofun
  | ok outcome =>
      obtain ⟨output, log, hnext⟩ := answer_of_outcome hstep.handle_eq
      obtain rfl := Except.ok.inj (h.symm.trans hnext)
      exact hstep.readsOn

end

/-! ## One round -/

section
variable {session next : Session} {result : Except ReadError Exit}

theorem nextLine?_eq_none_iff : nextLine? session = none ↔ session.state.console.input = [] := by
  rw [nextLine?]
  cases session.state.console.input with
  | nil => exact iff_of_true rfl rfl
  | cons => exact iff_of_false nofun nofun

theorem dialogue_of_end (rounds : Nat) (h : nextLine? session = none) :
    dialogue (rounds + 1) session = .ok (exitWith 0 (say "\nExiting.\n" (say prompt session))) := by
  have hinput : (say prompt session).state.console.input = [] := nextLine?_eq_none_iff.mp h
  rw [dialogue]
  simp only [hinput, List.isEmpty_nil, if_true]

theorem dialogue_of_line (rounds : Nat) {line : String} (h : nextLine? session = some line) :
    dialogue (rounds + 1) session = if line = "" then dialogue rounds (lineTaken session)
      else if line = "exit" then .ok (exitWith 0 (lineTaken session))
      else (answer (lineTaken session) line).bind (dialogue rounds) := by
  rw [nextLine?] at h
  split at h
  next => exact absurd h nofun
  next hinput =>
      obtain rfl := Option.some.inj h
      exact if_neg hinput

theorem Ends.dialogue_eq (h : Ends session result) (rounds : Nat) :
    dialogue (rounds + 1) session = result := by
  cases h with
  | endOfInput hline => exact dialogue_of_end rounds hline
  | exit hline => exact dialogue_of_line rounds hline
  | @overlong line count hline hoverlong =>
      have hanswer : answer (lineTaken session) line = .error (.digitLimit count) :=
        answer_eq_error_iff.mpr ⟨count, rfl, hoverlong⟩
      have hblank : line ≠ "" := by
        rintro rfl
        exact not_short_of_overlong hoverlong (by decide)
      have hexit : line ≠ "exit" := by
        rintro rfl
        exact not_short_of_overlong hoverlong (by decide)
      rw [dialogue_of_line rounds hline, if_neg hblank, if_neg hexit, hanswer]
      rfl

theorem Round.dialogue_eq (h : Round session next) (rounds : Nat) :
    dialogue (rounds + 1) session = dialogue rounds next := by
  cases h with
  | blank hline => exact dialogue_of_line rounds hline
  | answered hline hblank hexit hanswer =>
      rw [dialogue_of_line rounds hline, if_neg hblank, if_neg hexit, hanswer]
      rfl

theorem nextLine?_shorter {line : String} (h : nextLine? session = some line) :
    (lineTaken session).state.console.input.length < session.state.console.input.length := by
  refine Console.splitLine_shorter fun hnil => ?_
  exact absurd (h.symm.trans (nextLine?_eq_none_iff.mpr hnil)) nofun

/-- A round leaves less of the input. -/
theorem Round.shorter (h : Round session next) :
    next.state.console.input.length < session.state.console.input.length := by
  cases h with
  | blank hline => exact nextLine?_shorter hline
  | answered hline _ _ hanswer =>
      exact Nat.lt_of_le_of_lt (answer_readsOn hanswer).length_le (nextLine?_shorter hline)

/-- A dialogue ends at a round, or there is another. -/
theorem ends_or_round (session : Session) :
    (∃ result, Ends session result) ∨ ∃ next, Round session next := by
  cases hline : nextLine? session with
  | none => exact .inl ⟨_, .endOfInput hline⟩
  | some line =>
      by_cases hblank : line = ""
      · subst hblank
        exact .inr ⟨_, .blank hline⟩
      by_cases hexit : line = "exit"
      · subst hexit
        exact .inl ⟨_, .exit hline⟩
      cases hanswer : answer (lineTaken session) line with
      | ok next => exact .inr ⟨next, .answered hline hblank hexit hanswer⟩
      | error e =>
          obtain ⟨count, rfl, hoverlong⟩ := answer_eq_error_iff.mp hanswer
          exact .inl ⟨_, .overlong hline hoverlong⟩

end

/-! ## Whole dialogues -/

open Relation (ReflTransGen)

/-- A dialogue ends as its last round does, given more rounds than there are characters to be
read. -/
theorem dialogue_of_rounds {session last : Session} {result : Except ReadError Exit}
    (hrounds : ReflTransGen Round session last) (hends : Ends last result) :
    ∀ {rounds}, session.state.console.input.length < rounds →
      dialogue rounds session = result := by
  induction hrounds using ReflTransGen.head_induction_on with
  | refl =>
      rintro (_ | rounds) hlt
      · exact absurd hlt (Nat.not_lt_zero _)
      · exact hends.dialogue_eq rounds
  | head hround _ ih =>
      rintro (_ | rounds) hlt
      · exact absurd hlt (Nat.not_lt_zero _)
      · rw [hround.dialogue_eq rounds]
        exact ih (Nat.lt_of_lt_of_le hround.shorter (Nat.le_of_lt_succ hlt))

/-- Every dialogue has a last round. -/
theorem exists_last_round (session : Session) :
    ∃ last result, ReflTransGen Round session last ∧ Ends last result := by
  induction hlength : session.state.console.input.length using Nat.strong_induction_on
    generalizing session with
  | h length ih =>
      obtain ⟨result, hends⟩ | ⟨next, hround⟩ := ends_or_round session
      · exact ⟨session, result, .refl, hends⟩
      · obtain ⟨last, result, hrounds, hends⟩ := ih _ (hlength ▸ hround.shorter) next rfl
        exact ⟨last, result, .head hround hrounds, hends⟩

/-- What a dialogue comes to is what its last round does. -/
theorem run_dialogue_iff (settings : Settings) (file? : Option String) (input : String)
    (result : Except ReadError Exit) :
    run settings .dialogue file? input = result ↔
      ∃ last, ReflTransGen Round (opened settings input) last ∧ Ends last result := by
  have hall : ∀ {last result}, ReflTransGen Round (opened settings input) last →
    Ends last result →
      run settings .dialogue file? input = result := by
    intro last result hrounds hends
    refine dialogue_of_rounds hrounds hends ?_
    rw [opened_input]
    exact Nat.lt_succ_self _
  constructor
  · rintro rfl
    obtain ⟨last, result, hrounds, hends⟩ := exists_last_round (opened settings input)
    rw [hall hrounds hends]
    exact ⟨last, hrounds, hends⟩
  · rintro ⟨last, hrounds, hends⟩
    exact hall hrounds hends

/-! ## Lines of digits -/

/-- A line of digits is taken as it stands. -/
theorem nextLine?_of_digits {settings : Settings} {digits : List Char}
    (hdigits : ∀ c ∈ digits, c.isDigit = true) (rest : List Char) :
    nextLine? (opened settings (String.ofList (digits ++ '\n' :: rest)))
      = some (String.ofList digits) := by
  have hnot : ∀ {c : Char}, c.isDigit = false → c ∉ digits :=
    fun hc hmem => absurd ((hdigits _ hmem).symm.trans hc) nofun
  have hinput : (opened settings (String.ofList (digits ++ '\n' :: rest))).state.console.input
      = digits ++ '\n' :: Text.plainNewlines rest := by
    rw [opened_input, String.toList_ofList, Text.plainNewlines_append (hnot rfl),
      Text.plainNewlines]
    · rfl
    · exact nofun
  rw [nextLine?, hinput, if_neg (by simp), Console.splitLine_append (hnot rfl),
    Console.withoutReturn_of_not_mem (hnot rfl),
    Text.trim_of_no_blank fun c hmem => Text.isBlank_of_isDigit (hdigits c hmem)]

/-- A line of too many digits ends a dialogue without an exit. -/
theorem run_dialogue_of_digits (settings : Settings) (file? : Option String) {digits : List Char}
    (hdigits : ∀ c ∈ digits, c.isDigit = true) (hlong : Text.maxDigits < digits.length)
    (rest : List Char) :
    run settings .dialogue file? (String.ofList (digits ++ '\n' :: rest))
      = .error (.digitLimit digits.length) := by
  refine (run_dialogue_iff ..).mpr ⟨_, .refl, .overlong (nextLine?_of_digits hdigits rest) ?_⟩
  rw [String.toList_ofList]
  exact overlong_of_digits .expression hdigits hlong

/-! ## What is contained -/

/-- **Failures are contained**, but for one. Every step of a session runs on or has an outcome, and
a dialogue ends at the end of its input or at `exit`, unless a source has an integer literal with
too many digits. It is the only one as long as the stack of the host holds out, which is idealised
away: neither reading nor displaying nor unwinding exhausts it. -/
theorem failures_contained (session : Session) (goal : Goal) (source : String) (settings : Settings)
    (file? : Option String) (input : String) (result : Except ReadError Exit) :
    session.Contained goal source ∧
      (run settings .dialogue file? input = result ↔
        ∃ last, ReflTransGen Round (opened settings input) last ∧ Ends last result) :=
  ⟨session.contained goal source, run_dialogue_iff settings file? input result⟩

/-- A literal of 4301 digits neither runs on nor is told of in an outcome, and it ends a dialogue
before the line that comes after it. -/
theorem overlong_literal_escapes :
    let nines := List.replicate 4301 '9'
    let source := String.ofList nines
    let session := Session.start {} (.ofInput "")
    Reachable {} session ∧
      (∀ goal, (session.handle goal source).1 = .error (.digitLimit 4301) ∧
        ¬ session.RunsOn goal source ∧
          ∀ outcome, ¬ session.Returns goal source (.ok outcome)) ∧
      run {} .dialogue none (String.ofList (nines ++ ['\n', '1', '\n']))
        = .error (.digitLimit 4301) := by
  intro nines source session
  have hdigits : ∀ c ∈ nines, c.isDigit = true :=
    fun c hmem => List.eq_of_mem_replicate hmem ▸ rfl
  have hlength : nines.length = 4301 := List.length_replicate
  have hlong : Text.maxDigits < nines.length := by
    rw [hlength]
    decide
  refine ⟨.start _, fun goal => ?_, ?_⟩
  · have hoverlong := overlong_of_digits goal hdigits hlong
    rw [hlength, ← @String.toList_ofList nines] at hoverlong
    have hparse := (parse_digitLimit_iff ..).mpr hoverlong
    have hreturns : session.Returns goal source (.error (.digitLimit 4301)) :=
      Session.returns_digitLimit hparse
    refine ⟨congrArg Prod.fst (Session.StepsTo.refused hparse).handle_eq,
      hreturns.not_runsOn, ?_⟩
    exact fun outcome h => absurd (h.unique hreturns) nofun
  · rw [← hlength]
    exact run_dialogue_of_digits {} none hdigits hlong _

end CommandLine

end ExprLang
