import ExprLang.Expr
import ExprLang.Text.Quoted

/-!
# Constructor form of expressions

A dump names every node by its constructor, with its parts in brackets. It is meant for looking at a
tree, not for reading back: locations are left out, and a built-in shows only how many arguments it
misses and holds.
-/

namespace ExprLang

open Text

/-- A node in constructor form. -/
def constructorForm (name : String) (parts : List String) : String :=
  name ++ "(" ++ ", ".intercalate parts ++ ")"

/-- The form of a list of parts. -/
def bracketed (parts : List String) : String :=
  "[" ++ ", ".intercalate parts ++ "]"

namespace Expr

/-- The form of a built-in: its name, the number of arguments it misses and the number it holds. -/
def builtinForm (name : String) (missing supplied : Nat) : String :=
  "<BuiltInFn " ++ name ++ " arity=" ++ toString missing ++ " applied=" ++ toString supplied ++ ">"

mutual

/-- The constructor form of a tree. -/
def dump : Expr → String
  | int _ value => constructorForm "IntegerValue" [toString value.toNat]
  | str _ text => constructorForm "StringValue" [quoted text]
  | bool _ value => constructorForm "BooleanValue" [if value then "True" else "False"]
  | null => "NULL"
  | endOfProgram => "END_OF_PROGRAM"
  | list _ items => constructorForm "List" [bracketed (dumps items)]
  | ident _ name => constructorForm "Identifier" [quoted name]
  | binding _ name value => constructorForm "LetBinding" [quoted name, dump value]
  | choice _ test yes no => constructorForm "IfExpression" [dump test, dump yes, dump no]
  | loop _ test body => constructorForm "While" [dump test, dump body]
  | block _ exprs => constructorForm "Block" [bracketed (dumps exprs)]
  | program _ exprs => constructorForm "Program" [bracketed (dumps exprs)]
  | fn _ none body => constructorForm "Fn" ["None", dump body]
  | fn _ (some param) body => constructorForm "Fn" [quoted param, dump body]
  | call _ callee none => constructorForm "FnCall" [dump callee, "None"]
  | call _ callee (some arg) => constructorForm "FnCall" [dump callee, dump arg]
  | builtin _ name missing supplied => builtinForm name missing supplied.length

/-- The constructor forms of the members of a list. -/
def dumps : List Expr → List String
  | [] => []
  | e :: es => dump e :: dumps es

end

end Expr

end ExprLang
