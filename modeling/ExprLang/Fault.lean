import ExprLang.Expr.Printer
import ExprLang.Scope
import ExprLang.Text.Decimal

/-!
# Faults and failures

A fault is an error of the program being run, and is told by its cause. A failure is any way in
which a run ends without a value: a fault, with the location of the innermost located node under
evaluation; one of the limits on a run; or a broken promise of the machine to itself.
-/

namespace ExprLang

/-! ## Words of the messages -/

/-- The constructs that test a condition. -/
inductive Construct where
  | choice
  | loop
deriving DecidableEq

/-- The keyword of a construct. -/
def Construct.keyword : Construct → String
  | choice => "if"
  | loop => "while"

/-- The kinds of value that a built-in may ask for. -/
inductive Kind where
  | integer
  | boolean
  | string
  | list
deriving DecidableEq

/-- The name of a kind of value. -/
def Kind.name : Kind → String
  | integer => "integer"
  | boolean => "boolean"
  | string => "string"
  | list => "list"

/-- The classes under which faults are reported. -/
inductive FaultClass where
  | unknownIdentifier
  | typeMismatch
  | arityMismatch
  | notCallable
  | indexOutOfRange
  | ioFailure
  | arithmeticFault
  | evalError
deriving DecidableEq

/-- The name of a class of faults. -/
def FaultClass.name : FaultClass → String
  | unknownIdentifier => "UnknownIdentifier"
  | typeMismatch => "TypeMismatch"
  | arityMismatch => "ArityMismatch"
  | notCallable => "NotCallable"
  | indexOutOfRange => "IndexOutOfRange"
  | ioFailure => "IOFailure"
  | arithmeticFault => "ArithmeticFault"
  | evalError => "EvalError"

/-! ## Faults -/

/-- An error of the program being run. -/
inductive Fault where
  /-- A name stands for nothing. -/
  | unknownIdentifier (name : String)
  /-- A condition is no truth value. -/
  | conditionNotBoolean (construct : Construct) (found : Expr)
  /-- An operand is of the wrong kind. -/
  | wrongOperand (operation : String) (wanted : Kind) (found : Expr)
  /-- A function without a parameter is given an argument. -/
  | unwantedArgument (callee : String)
  /-- A function with a parameter is given no argument. -/
  | missingArgument (callee param : String)
  /-- A built-in that misses an argument is given none. -/
  | missingOperand (operation : String)
  /-- Something other than a function is called. -/
  | notCallable (found : Expr)
  /-- A list has no member at an index. -/
  | indexOutOfRange (index length : Nat)
  /-- A text is no numeral. -/
  | invalidDigit (text : String)
  /-- A numeral has no 64-bit value. -/
  | numeralTooLarge (text : String)
  /-- A line is read from a closed input. -/
  | inputClosed
  /-- A text is written to a closed output. -/
  | outputClosed
  /-- The divisor is zero. -/
  | divisionByZero (operation : String)
  /-- A result has no 64-bit form. -/
  | resultOutOfRange (operation : String) (result : Int)
  /-- A loop is about to run its body more often than allowed. -/
  | loopLimit
  /-- A built-in value names no operation. -/
  | unknownBuiltin (name : String)

namespace Fault

/-- The class under which a fault is reported. -/
def faultClass : Fault → FaultClass
  | unknownIdentifier _ => .unknownIdentifier
  | conditionNotBoolean .. | wrongOperand .. => .typeMismatch
  | unwantedArgument _ | missingArgument .. | missingOperand _ => .arityMismatch
  | notCallable _ => .notCallable
  | indexOutOfRange .. => .indexOutOfRange
  | invalidDigit _ | numeralTooLarge _ | inputClosed | outputClosed => .ioFailure
  | divisionByZero _ | resultOutOfRange .. => .arithmeticFault
  | loopLimit | unknownBuiltin _ => .evalError

/-- The text of a fault. -/
def message : Fault → String
  | unknownIdentifier name => "unknown identifier `" ++ name ++ "`"
  | conditionNotBoolean construct found =>
      construct.keyword ++ ": condition must be a boolean, got " ++ found.display
  | wrongOperand operation wanted found =>
      operation ++ ": expected " ++ wanted.name ++ ", got " ++ found.display
  | unwantedArgument callee => callee ++ " takes no argument, but one was given"
  | missingArgument callee param => callee ++ " expects an argument for `" ++ param ++ "`"
  | missingOperand operation => operation ++ " expects an argument"
  | notCallable found => found.display ++ " is not callable"
  | indexOutOfRange index length =>
      "list index " ++ toString index ++ " out of range for a list of length " ++ toString length
  | invalidDigit text => "str_to_int: invalid digit in " ++ (Expr.str none text).display
  | numeralTooLarge text =>
      "str_to_int: " ++ (Expr.str none text).display
        ++ " is too large for an unsigned 64-bit integer"
  | inputClosed => "get_input_line: I/O operation on closed file"
  | outputClosed => "print: I/O operation on closed file"
  | divisionByZero operation => operation ++ ": division by zero"
  | resultOutOfRange operation result =>
      operation ++ ": result " ++ toString result ++ " is outside the unsigned 64-bit range"
  | loopLimit => "while: iteration limit exceeded"
  | unknownBuiltin name => "unknown built-in `" ++ name ++ "`"

end Fault

/-! ## Signatures -/

/-- The name of an operation and the names of its parameters, as it is told when it is run with
another number of arguments. -/
structure Signature where
  name : String
  params : List String

/-- The text about a number of arguments that is not that of the parameters. The operation's owner
is counted among both. -/
def Signature.complaint (signature : Signature) (given : Nat) : String :=
  let arguments (count : Nat) := "positional argument" ++ if count = 1 then "" else "s"
  "StdLib._" ++ signature.name ++ "() " ++
    match signature.params.drop given with
    | [] =>
        let taken := signature.params.length + 1
        "takes " ++ toString taken ++ " " ++ arguments taken
          ++ " but " ++ toString (given + 1) ++ " were given"
    | missing =>
        "missing " ++ toString missing.length ++ " required " ++ arguments missing.length
          ++ ": " ++ " and ".intercalate (missing.map fun param => "'" ++ param ++ "'")

/-! ## Attributes -/

/-- What the object that owns the operations has under a name that is none of theirs. -/
inductive Attribute where
  /-- Data of one of the host's types, which cannot be called. -/
  | data (kind : String)
  /-- A method that the host gives to every object. -/
  | method
deriving DecidableEq

/-! ## Failures -/

/-- A run that ends without a value. -/
inductive Failure where
  /-- The program is at fault, at a place if one is known. -/
  | fault (cause : Fault) (loc : Option Loc)
  /-- Calls of user functions are nested too deeply. -/
  | tooDeep
  /-- A numeral with this many digits is given to be read. -/
  | digitLimit (digits : Nat)
  /-- A name is bound while no frame is there to hold it. -/
  | scope (e : ScopeError)
  /-- A value is asked for that cannot be built. -/
  | malformed (e : Malformed)
  /-- An operation is run with a number of arguments that is not its own. -/
  | argumentCount (signature : Signature) (given : Nat)
  /-- A built-in value names no operation, but an attribute of their owner. A method of the host may
  do or return anything, so a run that comes to call one is not followed any further. -/
  | foreign (name : String) (found : Attribute)
  /-- A loop without a cap has used up the patience of the run. -/
  | stalled

namespace Failure

/-- The failure of a fault whose place is not known yet. -/
def ofFault (cause : Fault) : Failure := fault cause none

/-- The failure seen from an enclosing node: a fault without a place takes the node's. -/
def locate (place : Option Loc) : Failure → Failure
  | fault cause none => fault cause place
  | failure => failure

/-- The class under which a failure is reported. -/
def className : Failure → String
  | fault cause _ => cause.faultClass.name
  | tooDeep => "RecursionError"
  | digitLimit _ => "ValueError"
  | scope _ => "ScopeError"
  | malformed e => e.className
  | argumentCount .. => "TypeError"
  | foreign _ (.data _) => "TypeError"
  | foreign _ .method => "Foreign"
  | stalled => "Stalled"

/-- The text of a failure. -/
def message : Failure → String
  | fault cause _ => cause.message
  | tooDeep => "maximum recursion depth exceeded"
  | digitLimit digits => Text.digitLimitMessage digits
  | scope e => e.message
  | malformed e => e.message
  | argumentCount signature given => signature.complaint given
  | foreign _ (.data kind) => "'" ++ kind ++ "' object is not callable"
  | foreign name .method => "what `" ++ name ++ "` does is up to the host"
  | stalled => "the loop was given up"

end Failure

end ExprLang
