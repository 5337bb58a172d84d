import ExprLang.Proofs.CommandLine
import ExprLang.Proofs.Eval.Journal

/-!
# Who takes the lines of the input

On open streams a run appends to the output, and it takes lines off the input from the first one on,
as many as it executes reads. A run on another input of which these lines have the same texts ends
in the same way.

A dialogue asks for its lines on the input that the runs of these lines read from. So its lines have
two kinds of takers, and from the beginning of a dialogue to its end each line is taken by one of
them, in order (`console_used_once`).
-/

namespace ExprLang

open EvalM (final)

/-! ## One run -/

/-- What an evaluation does to its console, as its journal tells it. -/
structure UsesConsole (settings : Settings) (e : Expr) (s : RunState) : Prop where
  /-- To keep the journal changes nothing about the evaluation. -/
  kept : (journaled settings e).act = evaluate settings e
  /-- What is told happens, and leads from the console before to the console after. -/
  happens : Happen (journal settings e s) s.console (final (evaluate settings e s)).console
  /-- What is written is appended to the output. -/
  appends : (final (evaluate settings e s)).console.output
    = s.console.output ++ writtenBy (journal settings e s)
  /-- Each read takes the next line and returns its text, and nothing else takes anything. -/
  takes : Console.TakenOnce GetsLine s.console.input (reads (journal settings e s))
    (final (evaluate settings e s)).console.input
  /-- On an input with the same first lines, if no others are read, the end is the same. -/
  elsewhere : ∀ input k, (reads (journal settings e s)).length ≤ k →
    (∀ i < k, Console.nthLine input i = Console.nthLine s.console.input i) →
    evaluate settings e (s.withConsole { s.console with input := input })
      = resultWithConsole
          { (final (evaluate settings e s)).console with
            input := ((Console.lines input).drop (reads (journal settings e s)).length).flatten }
          (evaluate settings e s)

theorem usesConsole (settings : Settings) (e : Expr) {s : RunState}
    (hin : s.console.inputOpen = true) (hout : s.console.outputOpen = true) :
    UsesConsole settings e s := by
  have hjournals := evaluate_journals settings e
  have hhappen := hjournals.happen s
  refine ⟨hjournals.act, hhappen, hhappen.output hin hout,
    (hhappen.takes hin hout).takenOnce, ?_⟩
  intro input k hk hsame
  have hhappen' := hhappen.on_input hin hout fun i hlt => hsame i (Nat.lt_of_lt_of_le hlt hk)
  exact (hjournals.elsewhere s hhappen').1

/-- A session whose streams are open. -/
def Session.IsOpen (session : Session) : Prop :=
  session.state.console.inputOpen = true ∧ session.state.console.outputOpen = true

/-! ## Takers in a dialogue -/

namespace CommandLine

/-- Who takes a line of the input of a dialogue. -/
inductive Taker where
  /-- The dialogue itself takes it, and this is the line without the blanks around it. -/
  | asked (line : String)
  /-- A read takes it, and this comes of the read. -/
  | read (outcome : Except Failure Expr)

/-- A taker gets a line. -/
def Taker.Gets : Taker → List Char → Prop
  | asked line, text => line = String.ofList (Text.trim text)
  | read outcome, text => GetsLine outcome text

/-- The journal of the run of a line, if it can be read. -/
def lineJournal (session : Session) (line : String) : List Event :=
  match Reader.parse .expression line with
  | .ok tree => journal session.settings tree session.cleared.state
  | .error _ => []

/-- Who takes lines in a round: the dialogue, and then the reads in the run of its line, if there is
a run. -/
def roundTakers (session : Session) : List Taker :=
  match nextLine? session with
  | none => []
  | some line =>
      .asked line :: if line = "" ∨ line = "exit" then []
        else (reads (lineJournal (lineTaken session) line)).map .read

/-- Some rounds of a dialogue, with those who take lines in them. -/
inductive RoundsTake : Session → List Taker → Session → Prop
  | none {session} : RoundsTake session [] session
  | round {session next last takers} : Round session next → RoundsTake next takers last →
      RoundsTake session (roundTakers session ++ takers) last

/-! ## One round -/

section
variable {session next : Session}

/-- The reads in the run of a line take lines in order. -/
theorem answer_takes {line : String} (h : answer session line = .ok next) (hopen : session.IsOpen) :
    Console.TakeInOrder GetsLine session.state.console.input (reads (lineJournal session line))
      next.state.console.input ∧ next.IsOpen := by
  obtain ⟨result, after, hstep⟩ := session.exists_stepsTo .expression line
  cases result with
  | error e => exact absurd (h.symm.trans (answer_of_error hstep.handle_eq)) nofun
  | ok outcome =>
      -- showing the outcome takes nothing off the input, so the run alone has to be looked at
      obtain ⟨output, log, hnext⟩ := answer_of_outcome hstep.handle_eq
      obtain rfl := Except.ok.inj (h.symm.trans hnext)
      have hrun : ∀ {tree}, Reader.parse .expression line = .ok tree →
          lineJournal session line = journal session.settings tree session.cleared.state := by
        intro tree hparse
        rw [lineJournal, hparse]
      cases hstep with
      | unread hparse =>
          rw [lineJournal, hparse]
          exact ⟨.nil, hopen⟩
      | @done tree value s hparse hend =>
          have hhappen := (evaluate_journals session.settings tree).happen session.cleared.state
          rw [hend] at hhappen
          rw [hrun hparse]
          exact ⟨hhappen.takes hopen.1 hopen.2, hhappen.stay_open hopen.1 hopen.2⟩
      | @failed tree failure s hparse hend =>
          have hhappen := (evaluate_journals session.settings tree).happen session.cleared.state
          rw [hend] at hhappen
          rw [hrun hparse]
          exact ⟨hhappen.takes hopen.1 hopen.2, hhappen.stay_open hopen.1 hopen.2⟩

/-- The dialogue takes the next line, and the others are there for those who come after it. -/
theorem asked_takes {line : String} (h : nextLine? session = some line) {takers : List Taker}
    {rest : List Char} (hrest : Console.TakeInOrder Taker.Gets
      (lineTaken session).state.console.input takers rest) :
    Console.TakeInOrder Taker.Gets session.state.console.input (.asked line :: takers) rest := by
  refine .cons ?_ hrest
  rw [nextLine?] at h
  split at h
  next => cases h
  next => exact (Option.some.inj h).symm

theorem roundTakers_of_end (h : nextLine? session = none) : roundTakers session = [] := by
  rw [roundTakers, h]

/-- In a round without a run only the dialogue takes a line. -/
theorem roundTakers_of_idle {line : String} (h : nextLine? session = some line)
    (hidle : line = "" ∨ line = "exit") : roundTakers session = [.asked line] := by
  rw [roundTakers, h]
  exact congrArg _ (if_pos hidle)

theorem roundTakers_of_run {line : String} (h : nextLine? session = some line)
    (hblank : line ≠ "") (hexit : line ≠ "exit") : roundTakers session
      = .asked line :: (reads (lineJournal (lineTaken session) line)).map .read := by
  rw [roundTakers, h]
  exact congrArg _ (if_neg (not_or.mpr ⟨hblank, hexit⟩))

/-- In a round lines are taken in order. -/
theorem Round.takes (h : Round session next) (hopen : session.IsOpen) :
    Console.TakeInOrder Taker.Gets session.state.console.input (roundTakers session)
      next.state.console.input ∧ next.IsOpen := by
  cases h with
  | blank hline =>
      rw [roundTakers_of_idle hline (.inl rfl)]
      exact ⟨asked_takes hline .nil, hopen⟩
  | answered hline hblank hexit hanswer =>
      rw [roundTakers_of_run hline hblank hexit]
      obtain ⟨htakes, hopen'⟩ := answer_takes hanswer hopen
      exact ⟨asked_takes hline (htakes.map fun _ _ hgets => hgets), hopen'⟩

/-- So they are in the round that ends a dialogue. -/
theorem Ends.takes {result : Except Reader.ReadError Exit} (h : Ends session result) :
    Console.TakeInOrder Taker.Gets session.state.console.input (roundTakers session)
      (lineTaken session).state.console.input := by
  cases h with
  | endOfInput hline =>
      have hinput := nextLine?_eq_none_iff.mp hline
      have hrest : (lineTaken session).state.console.input = session.state.console.input := by
        show (Console.splitLine session.state.console.input).2 = session.state.console.input
        rw [hinput]
        rfl
      rw [roundTakers_of_end hline, hrest]
      exact .nil
  | exit hline =>
      rw [roundTakers_of_idle hline (.inr rfl)]
      exact asked_takes hline .nil
  | @overlong line count hline hoverlong =>
      -- a line that cannot be read is not run, so nothing reads in its round
      have hparse := (Reader.parse_digitLimit_iff ..).mpr hoverlong
      have htakers : roundTakers session = [.asked line] := by
        by_cases hidle : line = "" ∨ line = "exit"
        · exact roundTakers_of_idle hline hidle
        · obtain ⟨hblank, hexit⟩ := not_or.mp hidle
          rw [roundTakers_of_run hline hblank hexit, lineJournal, hparse]
          rfl
      rw [htakers]
      exact asked_takes hline .nil

end

/-! ## Whole dialogues -/

open Relation (ReflTransGen)

theorem RoundsTake.takes {session last : Session} {takers : List Taker}
    (h : RoundsTake session takers last) (hopen : session.IsOpen) :
    Console.TakeInOrder Taker.Gets session.state.console.input takers
      last.state.console.input := by
  induction h with
  | none => exact .nil
  | round hround _ ih =>
      obtain ⟨htakes, hopen'⟩ := hround.takes hopen
      exact htakes.append (ih hopen')

theorem exists_roundsTake {session last : Session} (h : ReflTransGen Round session last) :
    ∃ takers, RoundsTake session takers last := by
  induction h using ReflTransGen.head_induction_on with
  | refl => exact ⟨[], .none⟩
  | head hround _ ih =>
      obtain ⟨takers, htakers⟩ := ih
      exact ⟨_, .round hround htakers⟩

/-- How a dialogue and the runs in it share an input. -/
structure SharesInput (settings : Settings) (input : String) : Prop where
  /-- Of all rounds that a dialogue comes to, there is an account of who has taken lines so far. -/
  told : ∀ session, ReflTransGen Round (opened settings input) session →
    ∃ takers, RoundsTake (opened settings input) takers session
  /-- Each line that has been taken has been taken once, in order, by the dialogue or by a read. -/
  takes : ∀ takers session, RoundsTake (opened settings input) takers session →
    Console.TakenOnce Taker.Gets (Text.plainNewlines input.toList) takers
      session.state.console.input
  /-- And so it is with the last line, when the dialogue ends. -/
  ends : ∀ takers session result, RoundsTake (opened settings input) takers session →
    Ends session result → Console.TakenOnce Taker.Gets (Text.plainNewlines input.toList)
      (takers ++ roundTakers session) (lineTaken session).state.console.input

theorem sharesInput (settings : Settings) (input : String) : SharesInput settings input := by
  have hopen : (opened settings input).IsOpen := ⟨rfl, rfl⟩
  refine ⟨fun session h => exists_roundsTake h, fun takers session h => ?_, ?_⟩
  · rw [← opened_input settings input]
    exact (h.takes hopen).takenOnce
  · intro takers session result h hends
    rw [← opened_input settings input]
    exact ((h.takes hopen).append hends.takes).takenOnce

end CommandLine

/-- **The console is used once and in order.** What a run writes is appended; a run takes as many
lines as it executes reads, each read gets the next one, and no other line has any influence; and
every line that is taken in a dialogue is taken by the dialogue or by one read. -/
theorem console_used_once (settings : Settings) (e : Expr) (s : RunState)
    (hin : s.console.inputOpen = true) (hout : s.console.outputOpen = true) (input : String) :
    UsesConsole settings e s ∧ CommandLine.SharesInput settings input :=
  ⟨usesConsole settings e hin hout, CommandLine.sharesInput settings input⟩

/-- Three reads on two lines: the first has a carriage return before its newline, the second one has
no newline. -/
theorem console_used_once_three_reads :
    let read : Expr := .call none (.builtin none "get_input_line" 0 []) none
    let tree : Expr :=
      .list none [read, .call none (.builtin none "print_line" 1 []) (some read), read]
    let settings : Settings := { nesting := 0, patience := 0 }
    let s := RunState.initial (.ofRoot builtinFrame) (.ofInput "a\r\nb\r")
    s.console.inputOpen = true ∧ s.console.outputOpen = true ∧
      reads (journal settings tree s)
        = [.ok (.str none "a"), .ok (.str none "b\r"), .ok (.str none "")] ∧
      writtenBy (journal settings tree s) = "b\r\n" ∧
      UsesConsole settings tree s ∧
        CommandLine.SharesInput settings "print_line (get_input_line ())\na\n" := by
  intro read tree settings s
  refine ⟨rfl, rfl, ?_, ?_, console_used_once settings tree s rfl rfl _⟩
  · simp only [tree, read, settings, s]
    cbv
  · simp only [tree, read, settings, s]
    cbv

end ExprLang
