import ExprLang.CommandLine

/-!
# The program

The outer layer of the command line: it reads the environment, the file and the input, and writes
what the run leaves behind. The input is read to its end before the run begins.
-/

namespace ExprLang.CommandLine

/-- The text of a file, if there is such a file. -/
def readFile? (path : String) : IO (Option String) := do
  try
    return some (← IO.FS.readFile path)
  catch _ => return none

/-- Ends the program with an error that no run contains. -/
def refuse (className message : String) : IO UInt32 := do
  (← IO.getStderr).putStr (className ++ ": " ++ message ++ "\n")
  return 1

/-- Writes what a run leaves behind, and gives its exit code. -/
def leave (exit : Exit) : IO UInt32 := do
  (← IO.getStdout).putStr exit.output
  (← IO.getStderr).putStr exit.errors
  return exit.code.toUInt32

end ExprLang.CommandLine

open ExprLang ExprLang.CommandLine

/-- Runs a program file, or a dialogue on the input. -/
def main (args : List String) : IO UInt32 := do
  let loopCap? ← IO.getEnv "INF_MAX_LOOP_ITERS"
  let debug? ← IO.getEnv "INF_DEBUG"
  match Settings.ofEnvironment loopCap? (debug?.any (· ≠ "")) with
  | .error e => refuse e.className e.message
  | .ok settings =>
      let request := Request.ofArgs args
      let file? ← match request with
        | .runFile path => readFile? path
        | .dialogue => pure none
      let input ← (← IO.getStdin).readToEnd
      match CommandLine.run settings request file? input with
      | .error e => refuse e.className e.message
      | .ok exit => leave exit
