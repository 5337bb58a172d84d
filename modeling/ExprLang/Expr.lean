import ExprLang.Location

/-!
# Expressions

One type holds the syntax tree and the values it evaluates to: an evaluated list is a list again,
and a function literal is a value as it stands. Functions take at most one parameter and calls at
most one argument; longer lists of either are curried (`Expr.curried`, `Expr.applied`). A built-in
is a value that collects its arguments one at a time (`Expr.supply`).

A node may carry the location of its first token. Locations take no part in any comparison.
-/

namespace ExprLang

/-- A syntax tree, or a value. -/
inductive Expr where
  /-- An unsigned 64-bit integer. -/
  | int (loc : Option Loc) (value : UInt64)
  /-- A text. -/
  | str (loc : Option Loc) (text : String)
  /-- A truth value. -/
  | bool (loc : Option Loc) (value : Bool)
  /-- The absence of a value. -/
  | null
  /-- What a whole program evaluates to. -/
  | endOfProgram
  /-- A list literal, or a list value. -/
  | list (loc : Option Loc) (items : List Expr)
  /-- A name that stands for the value bound to it. -/
  | ident (loc : Option Loc) (name : String)
  /-- The binding of a name, `let name = value`. -/
  | binding (loc : Option Loc) (name : String) (value : Expr)
  /-- A choice, `if test yes else no`. -/
  | choice (loc : Option Loc) (test yes no : Expr)
  /-- A loop, `while test body`. -/
  | loop (loc : Option Loc) (test body : Expr)
  /-- A braced sequence, whose value is that of its last member. -/
  | block (loc : Option Loc) (exprs : List Expr)
  /-- A whole program. -/
  | program (loc : Option Loc) (exprs : List Expr)
  /-- A function of one parameter, or of none. -/
  | fn (loc : Option Loc) (param : Option String) (body : Expr)
  /-- A call with one argument, or with none. -/
  | call (loc : Option Loc) (callee : Expr) (arg : Option Expr)
  /-- A built-in operation that still misses some arguments and holds those supplied so far. -/
  | builtin (loc : Option Loc) (name : String) (missing : Nat) (supplied : List Expr)
deriving Inhabited

/-! ## Values that cannot be built -/

/-- Why a value cannot be built. -/
inductive Malformed where
  /-- The integer has no 64-bit form. -/
  | integerRange (value : Int)
  /-- Something of another kind stands where an integer is wanted. -/
  | notInteger (kind : String)
  /-- A built-in cannot miss fewer than no arguments. -/
  | negativeArity
  /-- A built-in that misses nothing is given one more argument. -/
  | saturated (name : String)
deriving DecidableEq

namespace Malformed

/-- The class under which the refusal is reported. -/
def className : Malformed → String
  | notInteger _ => "TypeError"
  | _ => "ValueError"

/-- The text of the refusal. -/
def message : Malformed → String
  | integerRange value => toString value ++ " is outside the unsigned 64-bit range"
  | notInteger kind => "IntegerValue requires an int, not " ++ kind
  | negativeArity => "BuiltInFn arity cannot be negative."
  | saturated name => "built-in `" ++ name ++ "` takes no further arguments"

end Malformed

/-- The greatest integer value. -/
def maxInteger : Nat := 18446744073709551615

/-- The 64-bit form of an integer, if it has one. -/
def toWord? (value : Int) : Option UInt64 :=
  if 0 ≤ value ∧ value ≤ maxInteger then some (UInt64.ofNat value.toNat) else none

namespace Expr

/-! ## Parts of a node -/

/-- The location that a node carries. -/
def loc? : Expr → Option Loc
  | int loc _ | str loc _ | bool loc _ | list loc _ | ident loc _ | binding loc _ _
  | choice loc _ _ _ | loop loc _ _ | block loc _ | program loc _ | fn loc _ _ | call loc _ _
  | builtin loc _ _ _ => loc
  | null | endOfProgram => none

/-- Whether a node is a block. -/
def isBlock : Expr → Bool
  | block .. => true
  | _ => false

/-- Whether a node is a function with a parameter. -/
def takesParam : Expr → Bool
  | fn _ (some _) _ => true
  | _ => false

/-- What a chain of calls calls in the end. -/
def head : Expr → Expr
  | call _ callee _ => callee.head
  | e => e

/-! ## Building nodes -/

/-- A function of a list of parameters: one function around another, or one without a parameter. -/
def curried (params : List String) (body : Expr) : Expr :=
  match params with
  | [] => fn none none body
  | params => params.foldr (fun param body => fn none (some param) body) body

/-- A call with a list of arguments: one call around another, or one without an argument. All of
them carry the location of the callee. -/
def applied (loc : Loc) (callee : Expr) (args : List Expr) : Expr :=
  match args with
  | [] => call (some loc) callee none
  | args => args.foldl (fun callee arg => call (some loc) callee (some arg)) callee

/-- An integer value, if the integer has a 64-bit form. -/
def integer (value : Int) (loc : Option Loc := none) : Except Malformed Expr :=
  match toWord? value with
  | some word => .ok (int loc word)
  | none => .error (.integerRange value)

/-- A built-in that misses the given number of arguments. -/
def primitive (name : String) (missing : Int) (supplied : List Expr) (loc : Option Loc := none) :
    Except Malformed Expr :=
  if missing < 0 then .error .negativeArity else .ok (builtin loc name missing.toNat supplied)

/-- A built-in with one more argument supplied. -/
def supply (name : String) (missing : Nat) (supplied : List Expr) (arg : Expr) :
    Except Malformed Expr :=
  match missing with
  | 0 => .error (.saturated name)
  | missing + 1 => .ok (builtin none name missing (supplied ++ [arg]))

end Expr

end ExprLang
