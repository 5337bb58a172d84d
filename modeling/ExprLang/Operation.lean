import ExprLang.Console
import ExprLang.Expr.Equality

/-!
# Built-in operations

Each operation has a meaning, and the shape of the meaning fixes its arity. Operands are checked
from left to right, and the kinds of all operands before their values. Arithmetic is exact or a
fault: a result outside 64 bits is never wrapped.
-/

namespace ExprLang

/-- The built-in operations. -/
inductive Operation where
  | add | sub | mul | div | mod | inc | sqrt | lt | gt | eq | not
  | joinStr | strToInt
  | getInputLine | print | printLine
  | listLen | listNth | listPush
deriving DecidableEq

/-- What an operation does with its arguments. -/
inductive Meaning where
  /-- A function of one argument. -/
  | ofOne (f : Expr → Except Failure Expr)
  /-- A function of two arguments. -/
  | ofTwo (f : Expr → Expr → Except Failure Expr)
  /-- The next line of input; it takes no argument. -/
  | read
  /-- The text of its one argument is written, with an ending. -/
  | write (ending : String)

namespace Meaning

/-- The number of arguments. -/
def arity : Meaning → Nat
  | ofOne _ | write _ => 1
  | ofTwo _ => 2
  | read => 0

end Meaning

/-! ## Operands -/

/-- The integer that an operand must be. -/
def integerOperand (operation : String) : Expr → Except Failure UInt64
  | .int _ value => .ok value
  | found => .error (.ofFault (.wrongOperand operation .integer found))

/-- The truth value that an operand must be. -/
def booleanOperand (operation : String) : Expr → Except Failure Bool
  | .bool _ value => .ok value
  | found => .error (.ofFault (.wrongOperand operation .boolean found))

/-- The text that an operand must be. -/
def stringOperand (operation : String) : Expr → Except Failure String
  | .str _ text => .ok text
  | found => .error (.ofFault (.wrongOperand operation .string found))

/-- The members of the list that an operand must be. -/
def listOperand (operation : String) : Expr → Except Failure (List Expr)
  | .list _ items => .ok items
  | found => .error (.ofFault (.wrongOperand operation .list found))

/-! ## Arithmetic -/

/-- An exact result, or a fault if it has no 64-bit form. -/
def exactly (operation : String) (result : Int) : Except Failure Expr :=
  match toWord? result with
  | some word => .ok (.int none word)
  | none => .error (.ofFault (.resultOutOfRange operation result))

/-- Two integer operands combined. -/
def onIntegers (operation : String) (f : UInt64 → UInt64 → Except Failure Expr) (a b : Expr) :
    Except Failure Expr := do
  let x ← integerOperand operation a
  let y ← integerOperand operation b
  f x y

/-- Two integer operands combined, where the second must not be zero. -/
def onDivisor (operation : String) (f : UInt64 → UInt64 → UInt64) (a b : Expr) :
    Except Failure Expr :=
  onIntegers operation (fun x y =>
    if y = 0 then .error (.ofFault (.divisionByZero operation)) else .ok (.int none (f x y))) a b

/-- Fixes the bits of the root of `n` one by one, from bit `bits - 1` down, on top of `root`. -/
def sqrtBits (n : Nat) : (bits root : Nat) → Nat
  | 0, root => root
  | bits + 1, root =>
      if (root + 2 ^ bits) * (root + 2 ^ bits) ≤ n then sqrtBits n bits (root + 2 ^ bits)
      else sqrtBits n bits root

/-- The greatest number whose square is at most `n`. -/
def floorSqrt (n : UInt64) : UInt64 :=
  UInt64.ofNat (sqrtBits n.toNat 32 0)

/-! ## Texts and lists -/

/-- The integer that a text spells. -/
def readInteger (text : String) : Except Failure Expr :=
  match Text.numeral? text.toList with
  | none => .error (.ofFault (.invalidDigit text))
  | some digits =>
      if Text.maxDigits < digits.length then .error (.digitLimit digits.length)
      else match toWord? (Text.digitsValue digits) with
        | some word => .ok (.int none word)
        | none => .error (.ofFault (.numeralTooLarge text))

/-- The member of a list at an index. -/
def nth (index : UInt64) (items : List Expr) : Except Failure Expr :=
  match items[index.toNat]? with
  | some item => .ok item
  | none => .error (.ofFault (.indexOutOfRange index.toNat items.length))

/-- The length of a list as a value. -/
def lengthValue (items : List Expr) : Except Failure Expr :=
  (Expr.integer items.length).mapError .malformed

/-- The text that is written for a value: a text as it is, any other value in its display form. -/
def writtenForm : Expr → String
  | .str _ text => text
  | e => e.display

namespace Operation

/-! ## Names and meanings -/

/-- All operations. -/
def all : List Operation :=
  [add, sub, mul, div, mod, inc, sqrt, lt, gt, eq, not, joinStr, strToInt, getInputLine, print,
   printLine, listLen, listNth, listPush]

/-- The name under which an operation is bound and reported. -/
def name : Operation → String
  | add => "+"
  | sub => "-"
  | mul => "*"
  | div => "/"
  | mod => "mod"
  | inc => "inc"
  | sqrt => "sqrt"
  | lt => "<"
  | gt => ">"
  | eq => "eq"
  | not => "not"
  | joinStr => "join_str"
  | strToInt => "str_to_int"
  | getInputLine => "get_input_line"
  | print => "print"
  | printLine => "print_line"
  | listLen => "list_len"
  | listNth => "list_nth"
  | listPush => "list_push"

/-- The word for an operation whose name is a sign. -/
def word? : Operation → Option String
  | add => some "add"
  | sub => some "sub"
  | mul => some "mul"
  | div => some "div"
  | lt => some "lt"
  | gt => some "gt"
  | _ => none

/-- The operation of a name, or of a word for a sign. -/
def ofName? (name : String) : Option Operation :=
  all.find? fun operation => operation.name = name ∨ operation.word? = some name

/-- The names of the parameters of an operation. -/
def params : Operation → List String
  | add | sub | mul | div | mod | lt | gt | eq | joinStr => ["a", "b"]
  | inc | sqrt => ["a"]
  | not => ["x"]
  | strToInt => ["s"]
  | getInputLine => []
  | print | printLine => ["value"]
  | listLen => ["lst"]
  | listNth => ["index", "lst"]
  | listPush => ["lst", "element"]

/-- How an operation is told: by its word if its name is a sign, and with its parameters. -/
def signature (operation : Operation) : Signature :=
  ⟨operation.word?.getD operation.name, operation.params⟩

/-- What an operation does. -/
def meaning : Operation → Meaning
  | add => .ofTwo (onIntegers "+" fun x y => exactly "+" (x.toNat + y.toNat))
  | sub => .ofTwo (onIntegers "-" fun x y => exactly "-" (x.toNat - y.toNat))
  | mul => .ofTwo (onIntegers "*" fun x y => exactly "*" (x.toNat * y.toNat))
  | div => .ofTwo (onDivisor "/" (· / ·))
  | mod => .ofTwo (onDivisor "mod" (· % ·))
  | inc => .ofOne fun a => do exactly "inc" ((← integerOperand "inc" a).toNat + 1)
  | sqrt => .ofOne fun a => do return .int none (floorSqrt (← integerOperand "sqrt" a))
  | lt => .ofTwo (onIntegers "<" fun x y => .ok (.bool none (x < y)))
  | gt => .ofTwo (onIntegers ">" fun x y => .ok (.bool none (y < x)))
  | eq => .ofTwo fun a b => .ok (.bool none (valuesEqual .never a b))
  | not => .ofOne fun a => do return .bool none !(← booleanOperand "not" a)
  | joinStr => .ofTwo fun a b => do
      let s ← stringOperand "join_str" a
      let t ← stringOperand "join_str" b
      return .str none (s ++ t)
  | strToInt => .ofOne fun a => do readInteger (← stringOperand "str_to_int" a)
  | getInputLine => .read
  | print => .write ""
  | printLine => .write "\n"
  | listLen => .ofOne fun a => do lengthValue (← listOperand "list_len" a)
  | listNth => .ofTwo fun a b => do
      let index ← integerOperand "list_nth" a
      let items ← listOperand "list_nth" b
      nth index items
  | listPush => .ofTwo fun a b => do
      let items ← listOperand "list_push" a
      return .list none (items ++ [b])

/-- The number of arguments of an operation. -/
def arity (operation : Operation) : Nat :=
  operation.meaning.arity

/-! ## Running -/

/-- A result that does not depend on the console. -/
def ofExcept (result : Except Failure Expr) : ConsoleM Expr := fun console =>
  match result with
  | .ok value => .ok value console
  | .error failure => .error failure console

/-- Runs an operation on a full list of arguments. -/
def run (operation : Operation) (args : List Expr) : ConsoleM Expr :=
  match operation.meaning, args with
  | .ofOne f, [a] => ofExcept (f a)
  | .ofTwo f, [a, b] => ofExcept (f a b)
  | .read, [] => do return .str none (← Console.readLine)
  | .write ending, [a] => do
      Console.write (writtenForm a ++ ending)
      return .null
  | _, args => throw (.argumentCount operation.signature args.length)

/-- The value that an operation is bound to at first. -/
def value (operation : Operation) : Expr :=
  .builtin none operation.name operation.arity []

end Operation

/-! ## Names of no operation -/

/-- The names under which a built-in value reaches the methods of the host. The owner of the
operations finds an operation by its name with an underscore before it, and these come with two on
either side. -/
def hostMethods : List String :=
  ["_class__", "_delattr__", "_dir__", "_eq__", "_format__", "_ge__", "_getattribute__",
   "_getstate__", "_gt__", "_hash__", "_init__", "_init_subclass__", "_le__", "_lt__", "_ne__",
   "_new__", "_reduce__", "_reduce_ex__", "_repr__", "_setattr__", "_sizeof__", "_str__",
   "_subclasshook__"]

/-- The attributes of the owner of the operations, besides these. -/
def Attribute.all : List (String × Attribute) :=
  [("methods", .data "dict"), ("_dict__", .data "dict"), ("_doc__", .data "str"),
   ("_module__", .data "str")] ++ hostMethods.map fun name => (name, .method)

/-- The attribute of a name. -/
def Attribute.ofName? (name : String) : Option Attribute :=
  all.lookup name

/-- How a built-in value fails that names no operation. -/
def Failure.ofNoOperation (name : String) : Failure :=
  match Attribute.ofName? name with
  | some found => .foreign name found
  | none => .ofFault (.unknownBuiltin name)

/-! ## Built-in values -/

/-- Runs the operation that a built-in value names. -/
def runBuiltin (name : String) (args : List Expr) : ConsoleM Expr :=
  match Operation.ofName? name with
  | some operation => operation.run args
  | none => throw (.ofNoOperation name)

/-- The root frame of a fresh run: every operation under its name. -/
def builtinFrame : Frame :=
  ⟨Operation.all.map fun operation => (operation.name, operation.value)⟩

end ExprLang
