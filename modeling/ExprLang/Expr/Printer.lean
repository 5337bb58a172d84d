import ExprLang.Expr

/-!
# Layout of expressions

Values have a display form, and trees have a source form that reads back as the same tree. Both are
one recursion over the tree with a `Style`; they differ in whether a function is spelled out.

A call whose callee is a call, and a function whose body is a function, share one list of arguments
or of parameters: `f(a)(b)` is written `f(a, b)`. So the recursion gives a `Piece`, a text whose
last argument list or first parameter list can still grow. A call without an argument ends such a
run, and so does a function without a parameter.
-/

namespace ExprLang

/-- The choices in a layout. -/
structure Style where
  /-- Blanks per level of indentation; a negative number counts for none. -/
  indent : Int
  /-- Whether a function is spelled out; else it is shown as an opaque mark. -/
  spellFunctions : Bool

/-! ## Pieces of text -/

/-- A text between braces on one line. -/
def braced (text : String) : String :=
  "\x7b " ++ text ++ " \x7d"

/-- The text of a node, with the list in it that an enclosing node may extend. -/
inductive Piece where
  /-- A finished text. -/
  | plain (text : String)
  /-- A call whose argument list is still open at the end. -/
  | call (callee : String) (args : List String)
  /-- A function whose parameter list is still open at the front. -/
  | fn (params : List String) (body : String)

namespace Piece

/-- A list in the written form, its members set apart by a comma and a blank. -/
def commas (members : List String) : String :=
  ", ".intercalate members

/-- The finished text of a piece. -/
def text : Piece → String
  | plain text => text
  | call callee args => callee ++ "(" ++ commas args ++ ")"
  | fn params body => "fn(" ++ commas params ++ ") " ++ body

/-- The piece called with one more argument. -/
def addArgument (piece : Piece) (arg : String) : Piece :=
  match piece with
  | call callee args => call callee (args ++ [arg])
  | piece => call piece.text [arg]

/-- The function of one more parameter around a piece. -/
def addParam (piece : Piece) (param : String) : Piece :=
  match piece with
  | fn params body => fn (param :: params) body
  | piece => fn [param] (braced piece.text)

end Piece

namespace Style

/-! ## Layout -/

/-- The blanks before a line at a level of indentation; at a negative level there are none. -/
def margin (style : Style) (level : Int) : String :=
  String.ofList (List.replicate (style.indent.toNat * level.toNat) ' ')

/-- A block from the texts of its members, written one level deeper: a single member that needs one
line stays on it, and otherwise each member has lines of its own. -/
def blockText (style : Style) (level : Int) (members : List String) : String :=
  let spread := "\x7b\n" ++ "\n".intercalate (members.map (style.margin (level + 1) ++ · ++ ";"))
    ++ "\n" ++ style.margin level ++ "\x7d"
  match members with
  | [] => "\x7b\x7d"
  | [member] => if '\n' ∈ member.toList then spread else braced member
  | _ => spread

mutual

/-- The piece for a node at a level of indentation. -/
def piece (style : Style) (level : Int) : Expr → Piece
  | .int _ value => .plain (toString value.toNat)
  | .str _ text => .plain ("\"" ++ text ++ "\"")
  | .bool _ value => .plain (if value then "true" else "false")
  | .null => .plain "null"
  | .endOfProgram => .plain "<end of program>"
  | .list _ items => .plain ("[" ++ Piece.commas (texts style level items) ++ "]")
  | .ident _ name => .plain name
  | .binding _ name value => .plain ("let " ++ name ++ " = " ++ (piece style level value).text)
  | .choice _ test yes no =>
      .plain ("if " ++ (piece style level test).text ++ " " ++ (piece style level yes).text
        ++ " else " ++ (piece style level no).text)
  | .loop _ test body =>
      .plain ("while " ++ (piece style level test).text ++ " " ++ (piece style level body).text)
  | .block _ exprs => .plain (style.blockText level (texts style (level + 1) exprs))
  | .program _ exprs => .plain ("\n".intercalate ((texts style level exprs).map (· ++ ";")))
  | .fn _ param body =>
      if style.spellFunctions then
        match param, body.isBlock, body.takesParam with
        | none, true, _ => .plain ("fn() " ++ (piece style level body).text)
        | none, false, _ => .plain ("fn() " ++ braced (piece style (level + 1) body).text)
        | some param, true, _ => .fn [param] (piece style level body).text
        | some param, false, true => (piece style level body).addParam param
        | some param, false, false => .fn [param] (braced (piece style (level + 1) body).text)
      else .plain "<fn>"
  | .call _ callee none => .plain ((piece style level callee).text ++ "()")
  | .call _ callee (some arg) =>
      (piece style level callee).addArgument (piece style level arg).text
  | .builtin .. => .plain "<builtin>"

/-- The texts of the members of a list. -/
def texts (style : Style) (level : Int) : List Expr → List String
  | [] => []
  | e :: es => (piece style level e).text :: texts style level es

end

/-- The text of a node at a level of indentation. -/
def render (style : Style) (level : Int) (e : Expr) : String :=
  (style.piece level e).text

/-! ## The two styles -/

/-- The style of values on the console. -/
def forDisplay : Style := ⟨2, false⟩

/-- The style of source text. -/
def forSource : Style := ⟨2, true⟩

end Style

namespace Expr

/-- The display form of a value, as the console shows it. -/
def display (e : Expr) : String :=
  Style.forDisplay.render 0 e

/-- The source form of a tree, with its functions spelled out. -/
def toSource (e : Expr) : String :=
  Style.forSource.render 0 e

end Expr

end ExprLang
