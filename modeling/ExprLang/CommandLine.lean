import ExprLang.Session
import ExprLang.Text.Blank
import ExprLang.Text.Integer

/-!
# The command line

Given the name of a file, the program in it is run; otherwise there is a dialogue, one expression a
line, until the input ends or a line says so. Both are functions from texts to texts: the input is
taken whole, a dialogue and the programs in it read their lines from the same input, and what a
traced run logs goes to the error stream with the error messages.
-/

namespace ExprLang

namespace Settings

/-- The choices that the environment makes: the loop cap by its text, where an empty one is none,
and whether runs are traced. -/
def ofEnvironment (loopCap? : Option String) (tracing : Bool) : Except Text.NumeralError Settings :=
  match loopCap? with
  | none | some "" => .ok { tracing := tracing }
  | some text => (Text.readInt text).map fun cap => { loopCap := some cap, tracing := tracing }

end Settings

namespace CommandLine

/-! ## Requests -/

/-- What a run leaves behind: its exit code and the texts on its two streams. -/
structure Exit where
  code : Nat
  output : String
  errors : String

/-- What a run is asked to do. -/
inductive Request where
  | runFile (path : String)
  | dialogue

/-- The request that the arguments make. Only the first counts, and an option asks for a
dialogue. -/
def Request.ofArgs : List String → Request
  | [] => dialogue
  | arg :: _ => if arg.toList.head? = some '-' then dialogue else runFile arg

/-! ## Program files -/

/-- The end of a session with an exit code. -/
def exitWith (code : Nat) (session : Session) : Exit :=
  ⟨code, session.state.console.output, session.state.console.log⟩

/-- The session with a text written to the console. -/
def say (text : String) (session : Session) : Session :=
  let console := session.state.console
  session.withConsole { console with output := console.output ++ text }

/-- The session with a line written to the error stream. -/
def complain (line : String) (session : Session) : Session :=
  session.withConsole (session.state.console.logLine line)

/-- Runs the program in a file, given the text of the file if there is one. -/
def runFile (session : Session) (path : String) (file? : Option String) :
    Except Reader.ReadError Exit :=
  match file? with
  | none => .ok (exitWith 1 (complain ("Error: file not found: " ++ path) session))
  | some text =>
      match session.handleScript (String.ofList (Text.plainNewlines text.toList)) with
      | (.error e, _) => .error e
      | (.ok (.success _), session) => .ok (exitWith 0 session)
      | (.ok outcome, session) => .ok (exitWith 1 (complain outcome.format session))

/-! ## Dialogues -/

/-- What a dialogue begins with. -/
def banner : String :=
  "Inf REPL v0.1\nType 'exit' or press Ctrl+D to quit.\n"

/-- What asks for a line. -/
def prompt : String := ">> "

/-- The answer of a dialogue to a line. -/
def answer (session : Session) (line : String) : Except Reader.ReadError Session :=
  match session.handleLine line with
  | (.error e, _) => .error e
  | (.ok (.success .null), session) => .ok session
  | (.ok (.success value), session) => .ok (say (value.display ++ "\n") session)
  | (.ok outcome, session) => .ok (complain outcome.format session)

/-- A dialogue of at most so many rounds. A round takes at least one character off the input, so the
rounds do not run out before the input does. -/
def dialogue : (rounds : Nat) → Session → Except Reader.ReadError Exit
  | 0, session => .ok (exitWith 0 session)
  | rounds + 1, session =>
      let session := say prompt session
      let console := session.state.console
      if console.input.isEmpty then .ok (exitWith 0 (say "\nExiting.\n" session))
      else
        let (raw, rest) := Console.splitLine console.input
        let session := session.withConsole { console with input := rest }
        let line := String.ofList (Text.trim raw)
        if line = "" then dialogue rounds session
        else if line = "exit" then .ok (exitWith 0 session)
        else (answer session line).bind (dialogue rounds)

/-- Does what is asked for. `file` gives the text of a file, and `input` is the whole input. -/
def run (settings : Settings) (request : Request) (file? : Option String) (input : String) :
    Except Reader.ReadError Exit :=
  let input := Text.plainNewlines input.toList
  let session := Session.start settings (.ofInput (String.ofList input))
  match request with
  | .runFile path => runFile session path file?
  | .dialogue => dialogue (input.length + 1) (say banner session)

end CommandLine

end ExprLang
