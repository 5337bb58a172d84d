import ExprLang.Eval.State
import ExprLang.Excerpt
import ExprLang.Reader

/-!
# Error reports

The report of an error says what happened, where, shows the source there, and lists the calls that
were being executed, the outermost first. Of a deep stack only the innermost calls are listed.
-/

namespace ExprLang

namespace Report

/-! ## Places and calls -/

/-- How far an excerpt reaches to both sides. -/
def radius : Int := 2

/-- How many calls are listed. -/
def maxCalls : Nat := 20

/-- A place and the source there. -/
def placeText (source : String) (loc : Loc) : String :=
  "(line " ++ toString loc.line ++ ", col " ++ toString loc.col ++ ")\n"
    ++ excerpt source (some loc.line) (some loc.col) radius

/-- An argument in a list of calls; of a list only the length is shown. -/
def argText : Expr → String
  | .list _ items => "#[" ++ toString items.length ++ "]"
  | e => e.display

/-- A call in a list of calls. -/
def callText (call : CallRecord) : String :=
  let name := if call.name = "" then "<call>" else call.name
  let args := " ".intercalate (call.args.map argText)
  if args = "" then "(" ++ name ++ ")" else "(" ++ name ++ " " ++ args ++ ")"

/-- The list of the calls being executed, given the innermost first; nothing if there are none. -/
def callsText (calls : List CallRecord) : String :=
  if calls.isEmpty then ""
  else
    let shown := ((calls.take maxCalls).map callText).reverse
    let shown := if maxCalls < calls.length then "..." :: shown else shown
    "Inf stacktrace: " ++ " ".intercalate shown

/-! ## Reports -/

/-- The first part of the report of a failure: its class and its text. -/
def failureText : Failure → String
  | .fault cause loc => (Failure.fault cause loc).className ++ ": " ++ cause.message
  | .tooDeep => "RecursionError: " ++ Failure.message .tooDeep
  | failure => "InternalError: " ++ failure.message

/-- The place of a failure, if it has one. -/
def failureLoc? : Failure → Option Loc
  | .fault _ loc => loc
  | _ => none

/-- The report of a failure of a run, given the calls that were being executed. -/
def ofFailure (source : String) (calls : List CallRecord) (failure : Failure) : String :=
  let place := match failureLoc? failure with
    | some loc => "\n" ++ placeText source loc
    | none => ""
  let trace := callsText calls
  failureText failure ++ place ++ (if trace = "" then "" else "\n" ++ trace)

/-- The report of a source text that cannot be read. -/
def ofComplaint (source : String) (complaint : Reader.Complaint) (loc : Loc) : String :=
  "ParseError: " ++ complaint.message ++ " " ++ placeText source loc

/-- A report on one line with its place in front, unless it begins with one. A report without a text
is about an unknown error. -/
def headline (message? : Option String) (line? col? : Option Int) : String :=
  let message := match message? with
    | none | some "" => "Unknown error"
    | some message => message
  match line? with
  | none => message
  | some line =>
      if "Error on line ".toList.isPrefixOf message.toList then message
      else
        let col := match col? with
          | some col => ", col " ++ toString col
          | none => ""
        "Error on line " ++ toString line ++ col ++ ": " ++ message

end Report

/-! ## Outcomes -/

/-- How a source text that is run comes out. -/
inductive Outcome where
  | success (value : Expr)
  /-- A report, with the place it is about. -/
  | error (report : String) (loc : Option Loc)

namespace Outcome

/-- The text that is shown for an outcome that is an error. -/
def format : Outcome → String
  | success _ => ""
  | error report loc =>
      Report.headline (some report) (loc.map fun loc => loc.line) (loc.map fun loc => loc.col)

end Outcome

end ExprLang
