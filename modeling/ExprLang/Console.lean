import ExprLang.Fault

/-!
# The console

What a run can see and change outside its scope: the lines still to be read, the text written so
far, and a log that only a traced run writes to. Output and log only ever grow; reading a line takes
it off the input.
-/

namespace ExprLang

/-- The console of a run. -/
structure Console where
  /-- The text still to be read. -/
  input : List Char
  /-- Whether lines can be read. -/
  inputOpen : Bool := true
  /-- The text written so far. -/
  output : String := ""
  /-- Whether text can be written. -/
  outputOpen : Bool := true
  /-- The trace written so far. -/
  log : String := ""

/-- Steps that use the console and may fail. -/
abbrev ConsoleM := EStateM Failure Console

namespace Console

/-- The console that offers a text to be read. -/
def ofInput (text : String) : Console := { input := text.toList }

/-- A terminated line without its terminator: a newline, with at most one carriage return before. -/
def withoutReturn (line : List Char) : List Char :=
  if line.getLast? = some '\r' then line.dropLast else line

/-- The next line and the text after it. A line that the input ends in is taken as it is; at the end
of the input the line is empty. -/
def splitLine (input : List Char) : List Char × List Char :=
  let line := input.takeWhile (· ≠ '\n')
  match input.dropWhile (· ≠ '\n') with
  | [] => (line, [])
  | _ :: rest => (withoutReturn line, rest)

/-- Reads one line. -/
def readLine : ConsoleM String := fun console =>
  if console.inputOpen then
    let (line, rest) := splitLine console.input
    .ok (String.ofList line) { console with input := rest }
  else .error (.ofFault .inputClosed) console

/-- Writes a text. -/
def write (text : String) : ConsoleM Unit := fun console =>
  if console.outputOpen then .ok () { console with output := console.output ++ text }
  else .error (.ofFault .outputClosed) console

/-- The console with a line added to the log. -/
def logLine (console : Console) (line : String) : Console :=
  { console with log := console.log ++ line ++ "\n" }

/-- The text written so far, and the console with that text taken away. -/
def takeOutput (console : Console) : String × Console :=
  (console.output, { console with output := "" })

/-- The log written so far, and the console with that log taken away. -/
def takeLog (console : Console) : String × Console :=
  (console.log, { console with log := "" })

end Console

end ExprLang
