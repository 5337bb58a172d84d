import ExprLang.Operation
import ExprLang.Proofs.Console.Lines

/-!
# What happens on a console

Two things happen on the console of a run: operations are executed, and lines are logged. An event
tells of one of them, and of an operation it tells the outcome. `Happen` says that some events
happen one after the other, from one console to another.

On open streams a read takes the first line off the input, and nothing else does; what is written
comes behind what has been written before, and nothing else changes the output (`Happen.takes`,
`Happen.output`). The input has no influence on what happens but through the lines that are read
(`Happen.on_input`).
-/

namespace ExprLang

/-! ## Events -/

/-- What a run does to its console. -/
inductive Event where
  /-- The operation of a built-in is executed on some arguments, and this comes of it. -/
  | executed (name : String) (args : List Expr) (outcome : Except Failure Expr)
  /-- A line is logged. -/
  | logged (line : String)

/-- What comes of a step on a console, without the console. -/
def outcomeOf {σ α : Type} : EStateM.Result Failure σ α → Except Failure α
  | .ok value _ => .ok value
  | .error failure _ => .error failure

/-- The end of a step on a console, from what comes of it. -/
def endingWith {σ α : Type} (s : σ) : Except Failure α → EStateM.Result Failure σ α
  | .ok value => .ok value s
  | .error failure => .error failure s

/-- An event happens: it leads from one console to another. -/
inductive Event.Happens : Event → Console → Console → Prop
  | executed {name args outcome console console'} :
      runBuiltin name args console = endingWith console' outcome →
      Happens (.executed name args outcome) console console'
  | logged {line console} : Happens (.logged line) console (console.logLine line)

/-- Some events happen one after the other. -/
inductive Happen : List Event → Console → Console → Prop
  | nil {console} : Happen [] console console
  | cons {event events console₁ console₂ console₃} : event.Happens console₁ console₂ →
      Happen events console₂ console₃ → Happen (event :: events) console₁ console₃

theorem Happen.single {event : Event} {console console' : Console}
    (h : event.Happens console console') : Happen [event] console console' :=
  .cons h .nil

theorem happen_append {events events' : List Event} {console console' : Console} :
    Happen (events ++ events') console console' ↔
      ∃ between, Happen events console between ∧ Happen events' between console' := by
  induction events generalizing console with
  | nil =>
      refine ⟨fun h => ⟨console, .nil, h⟩, ?_⟩
      rintro ⟨between, hnil, h⟩
      cases hnil
      exact h
  | cons event events ih =>
      constructor
      · intro h
        cases h with
        | cons hfirst hrest =>
            obtain ⟨between, hevents, h⟩ := ih.mp hrest
            exact ⟨between, .cons hfirst hevents, h⟩
      · rintro ⟨between, hevents, h⟩
        cases hevents with
        | cons hfirst hrest => exact .cons hfirst (ih.mpr ⟨between, hrest, h⟩)

/-! ## Reads and writes -/

namespace Event

/-- What comes of an event that is a read: the execution of `get_input_line`, which takes no
arguments. -/
def read? : Event → Option (Except Failure Expr)
  | .executed name [] outcome =>
      if Operation.ofName? name = some .getInputLine then some outcome else none
  | _ => none

/-- What an event adds to the output. -/
def written : Event → String
  | .executed name [value] (.ok _) =>
      match (Operation.ofName? name).map Operation.meaning with
      | some (.write ending) => writtenForm value ++ ending
      | _ => ""
  | _ => ""

end Event

/-- What comes of the reads among some events. -/
def reads (events : List Event) : List (Except Failure Expr) :=
  events.filterMap Event.read?

/-- A read gets a line if it returns the text of the line. -/
def GetsLine (outcome : Except Failure Expr) (line : List Char) : Prop :=
  outcome = .ok (.str none (String.ofList line))

/-- What some events add to the output. -/
def writtenBy : List Event → String
  | [] => ""
  | event :: events => event.written ++ writtenBy events

/-- What the operation of a name does with some arguments on a console. -/
inductive Acts (name : String) : List Expr → ConsoleM Expr → Prop
  | reads : Operation.ofName? name = some .getInputLine →
      Acts name [] (do return .str none (← Console.readLine))
  | writes {ending value} : (Operation.ofName? name).map Operation.meaning
      = some (.write ending) →
      Acts name [value] (do
        Console.write (writtenForm value ++ ending)
        return .null)
  | computes {args result} :
      (∀ outcome, (Event.executed name args outcome).read? = none ∧
        (Event.executed name args outcome).written = "") →
      Acts name args (Operation.ofExcept result)

/-- Other executions neither read nor write. -/
theorem Acts.computes_of {name : String} {args : List Expr}
    (hread : ¬ (args = [] ∧ Operation.ofName? name = some .getInputLine))
    (hwrite : ¬ ∃ value ending, args = [value] ∧
      (Operation.ofName? name).map Operation.meaning = some (.write ending))
    (result : Except Failure Expr) : Acts name args (Operation.ofExcept result) := by
  refine .computes fun outcome => ?_
  match args with
  | [] => exact ⟨if_neg fun h => hread ⟨rfl, h⟩, rfl⟩
  | [value] =>
      refine ⟨rfl, ?_⟩
      cases outcome with
      | error => rfl
      | ok =>
          rw [Event.written]
          split
          next hmeaning => exact absurd ⟨value, _, rfl, hmeaning⟩ hwrite
          next => rfl
  | _ :: _ :: _ => exact ⟨rfl, rfl⟩

theorem Operation.run_acts {name : String} {operation : Operation}
    (hname : Operation.ofName? name = some operation) (args : List Expr) :
    Acts name args (operation.run args) := by
  have hread : operation.meaning ≠ .read → operation ≠ .getInputLine := by
    rintro hne rfl
    exact hne rfl
  have hcomputes : operation.meaning ≠ .read →
    (∀ ending, operation.meaning ≠ .write ending) →
      ∀ args result, Acts name args (ofExcept result) :=
    fun hne hnever args => .computes_of (by simp [hname, hread hne]) (by simp [hname, hnever])
  unfold Operation.run
  cases hmeaning : operation.meaning with
  | ofOne f =>
      rw [hmeaning] at hcomputes
      match args with
      | [] => exact hcomputes nofun nofun _ (.error _)
      | [a] => exact hcomputes nofun nofun _ (f a)
      | _ :: _ :: _ => exact hcomputes nofun nofun _ (.error _)
  | ofTwo f =>
      rw [hmeaning] at hcomputes
      match args with
      | [] => exact hcomputes nofun nofun _ (.error _)
      | [_] => exact hcomputes nofun nofun _ (.error _)
      | [a, b] => exact hcomputes nofun nofun _ (f a b)
      | _ :: _ :: _ :: _ => exact hcomputes nofun nofun _ (.error _)
  | read =>
      match args with
      | [] =>
          have hop : operation = .getInputLine := by
            cases operation <;> first | rfl | exact absurd hmeaning nofun
          exact .reads (hop ▸ hname)
      | _ :: _ => exact .computes_of (by simp) (by simp [hname, hmeaning]) (.error _)
  | write ending =>
      rw [hmeaning] at hread
      match args with
      | [] => exact .computes_of (by simp [hname, hread nofun]) (by simp) (.error _)
      | [value] => exact .writes (by simp [hname, hmeaning])
      | _ :: _ :: _ => exact .computes_of (by simp) (by simp) (.error _)

theorem runBuiltin_acts (name : String) (args : List Expr) :
    Acts name args (runBuiltin name args) := by
  unfold runBuiltin
  cases hname : Operation.ofName? name with
  | none => exact .computes_of (by simp [hname]) (by simp [hname]) (.error _)
  | some operation => exact Operation.run_acts hname args

/-! ## Events on open streams -/

/-- What an event does to a console, and that it does the same where only the input differs: a read
has to find the same line there, any other event may find anything. -/
inductive Event.Steps (event : Event) (console : Console) : Console → Prop
  | read :
      event.read? = some (.ok (.str none (String.ofList (Console.splitLine console.input).1))) →
      event.written = "" →
      (∀ input, (Console.splitLine input).1 = (Console.splitLine console.input).1 →
        event.Happens { console with input := input }
          { console with input := (Console.splitLine input).2 }) →
      Steps event console { console with input := (Console.splitLine console.input).2 }
  | other {log} : event.read? = none →
      (∀ input, event.Happens { console with input := input }
        { console with input := input, output := console.output ++ event.written, log := log }) →
      Steps event console { console with output := console.output ++ event.written, log := log }

theorem readLine_of_open {console : Console} (h : console.inputOpen = true) :
    (do return Expr.str none (← Console.readLine) : ConsoleM Expr) console
      = .ok (.str none (String.ofList (Console.splitLine console.input).1))
          { console with input := (Console.splitLine console.input).2 } := by
  show EStateM.bind Console.readLine _ console = _
  rw [EStateM.bind, Console.readLine, if_pos h]
  rfl

theorem write_of_open {console : Console} (h : console.outputOpen = true) (text : String) :
    (do
      Console.write text
      return Expr.null : ConsoleM Expr) console
      = .ok .null { console with output := console.output ++ text } := by
  show EStateM.bind (Console.write text) _ console = _
  rw [EStateM.bind, Console.write, if_pos h]
  rfl

/-- An event that neither reads nor writes leaves a console that has at most another log. -/
theorem Event.Steps.of_quiet {event : Event} {console : Console} {log : String}
    (hread : event.read? = none) (hwritten : event.written = "")
    (h : ∀ input, event.Happens { console with input := input }
      { console with input := input, log := log }) :
    event.Steps console { console with log := log } := by
  have houtput : console.output ++ event.written = console.output := by
    rw [hwritten, String.append_empty]
  have hsteps : event.Steps console
      { console with output := console.output ++ event.written, log := log } := by
    refine .other hread fun input => ?_
    rw [houtput]
    exact h input
  rwa [houtput] at hsteps

theorem Event.Happens.steps {event : Event} {console console' : Console}
    (h : event.Happens console console') (hin : console.inputOpen = true)
    (hout : console.outputOpen = true) : event.Steps console console' := by
  cases h with
  | logged => exact .of_quiet rfl rfl fun input => .logged
  | @executed name args outcome _ _ hrun =>
      have hacts := runBuiltin_acts name args
      generalize hact : runBuiltin name args = act at hacts
      cases hacts with
      | reads hname =>
          have hread : ∀ {console : Console}, console.inputOpen = true →
              runBuiltin name [] console = _ :=
            fun hin => hact ▸ readLine_of_open hin
          -- what has happened is the one thing that could, and it could on any input with this line
          rw [hread hin] at hrun
          cases outcome with
          | error => cases hrun
          | ok value =>
              cases hrun
              refine .read (if_pos hname) rfl fun input hsame => .executed ?_
              rw [← hsame]
              exact hread hin
      | @writes ending value hname =>
          have hwrite : ∀ {console : Console}, console.outputOpen = true →
              runBuiltin name [value] console = _ := fun hout => hact ▸ write_of_open hout _
          have hwritten : (Event.executed name [value] (.ok .null)).written = writtenForm value
              ++ ending := by
            rw [Event.written, hname]
          rw [hwrite hout, ← hwritten] at hrun
          cases outcome with
          | error => cases hrun
          | ok value' =>
              cases hrun
              refine .other rfl fun input => .executed ?_
              rw [hwritten]
              exact hwrite hout
      | @computes _ result hquiet =>
          have hcomputes : ∀ console,
              runBuiltin name args console = endingWith console result := by
            intro console
            rw [hact]
            cases result <;> rfl
          have hsame : outcome = result ∧ console' = console := by
            rw [hcomputes] at hrun
            cases result <;> cases outcome <;> cases hrun <;> exact ⟨rfl, rfl⟩
          obtain ⟨rfl, rfl⟩ := hsame
          exact .of_quiet (hquiet _).1 (hquiet _).2 fun input => .executed (hcomputes _)

/-! ## Runs of events on open streams -/

namespace Happen

variable {events : List Event} {console console' : Console}

/-- Open streams stay open. -/
theorem stay_open (h : Happen events console console') (hin : console.inputOpen = true)
    (hout : console.outputOpen = true) :
    console'.inputOpen = true ∧ console'.outputOpen = true := by
  induction h with
  | nil => exact ⟨hin, hout⟩
  | cons hfirst _ ih =>
      cases hfirst.steps hin hout with
      | read => exact ih hin hout
      | other => exact ih hin hout

/-- What is written comes behind what has been written before, and nothing else changes the
output. -/
theorem output (h : Happen events console console') (hin : console.inputOpen = true)
    (hout : console.outputOpen = true) : console'.output = console.output ++ writtenBy events := by
  induction h with
  | nil => exact String.append_empty.symm
  | cons hfirst _ ih =>
      cases hfirst.steps hin hout with
      | read _ hwritten =>
          rw [ih hin hout, writtenBy, hwritten, String.empty_append]
      | other =>
          rw [ih hin hout, writtenBy, String.append_assoc]

/-- The reads take the lines of the input in order, and nothing else changes the input. -/
theorem takes (h : Happen events console console') (hin : console.inputOpen = true)
    (hout : console.outputOpen = true) :
    Console.TakeInOrder GetsLine console.input (reads events) console'.input := by
  induction h with
  | nil => exact .nil
  | cons hfirst _ ih =>
      rw [reads]
      cases hfirst.steps hin hout with
      | read hread =>
          rw [List.filterMap_cons_some hread]
          exact .cons rfl (ih hin hout)
      | other hread =>
          rw [List.filterMap_cons_none hread]
          exact ih hin hout

/-- The input has no influence but through the lines that are read. -/
theorem on_input (h : Happen events console console') (hin : console.inputOpen = true)
    (hout : console.outputOpen = true) {input : List Char}
    (hsame : ∀ i < (reads events).length,
      Console.nthLine input i = Console.nthLine console.input i) :
    Happen events { console with input := input }
      { console' with input := ((Console.lines input).drop (reads events).length).flatten } := by
  induction h generalizing input with
  | nil =>
      rw [reads, List.filterMap_nil, List.length_nil, List.drop_zero, Console.flatten_lines]
      exact .nil
  | @cons event events console _ _ hfirst _ ih =>
      cases hfirst.steps hin hout with
      | read hread _ hhappens =>
          rw [reads, List.filterMap_cons_some hread, List.length_cons] at hsame ⊢
          have hline := hsame 0 (Nat.succ_pos _)
          rw [Console.nthLine_zero, Console.nthLine_zero] at hline
          have hlater : ∀ i < (reads events).length, Console.nthLine (Console.splitLine input).2 i
              = Console.nthLine (Console.splitLine console.input).2 i := by
            intro i hlt
            rw [← Console.nthLine_succ, ← Console.nthLine_succ]
            exact hsame (i + 1) (Nat.succ_lt_succ hlt)
          -- the other reads come to the lines behind this one, in the one input as in the other
          have hrest := ih hin hout hlater
          rw [(Console.splitLine_eq input).2, List.drop_tail] at hrest
          exact .cons (hhappens input hline) hrest
      | other hread hhappens =>
          rw [reads, List.filterMap_cons_none hread] at hsame ⊢
          exact .cons (hhappens input) (ih hin hout hsame)

end Happen

end ExprLang
