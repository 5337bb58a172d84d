import ExprLang.Expr.Equality
import ExprLang.Expr.Printer
import ExprLang.Reader.Machine
import ExprLang.Token.Scan

/-!
# Reading source text

A source is scanned into tokens and read by the machine. The first thing wrong in it is what is
reported: a token that has no place, before a character at which no token can be formed, before an
end that comes too early. Integer literals are looked at last, from left to right, once everything
else is in order.
-/

namespace ExprLang.Reader

/-- What is wrong with a source text. -/
inductive Complaint where
  /-- A token has no place where it stands. -/
  | unexpectedToken (token : Token)
  /-- No token can be formed where a character stands. -/
  | unexpectedChar (c : Char)
  /-- The source ends too early. -/
  | unexpectedEnd
  /-- An integer literal has no 64-bit value. -/
  | integerTooLarge (digits : String)
deriving DecidableEq

/-- The text of a complaint. -/
def Complaint.message : Complaint → String
  | unexpectedToken token => "unexpected `" ++ token.text ++ "`"
  | unexpectedChar c => "unexpected character `" ++ c.toString ++ "`"
  | unexpectedEnd => "unexpected end of input"
  | integerTooLarge digits => "integer literal " ++ digits ++ " does not fit in 64 bits"

/-- Why a source text has no tree. -/
inductive ReadError where
  /-- Something is wrong with it at a place. -/
  | rejected (complaint : Complaint) (loc : Loc)
  /-- A literal in it has too many digits to be looked at. -/
  | digitLimit (digits : Nat)
deriving DecidableEq

namespace ReadError

/-- The class under which the refusal is reported. -/
def className : ReadError → String
  | rejected .. => "ParseError"
  | digitLimit _ => "VisitError"

/-- The text of the refusal. -/
def message : ReadError → String
  | rejected complaint _ => complaint.message
  | digitLimit digits =>
      "Error trying to process rule \"integer\":\n\n" ++ Text.digitLimitMessage digits

end ReadError

/-- What is wrong with a token as an integer literal. -/
def literalError? (lexeme : Lexeme) : Option ReadError :=
  match lexeme.token with
  | .int digits =>
      let chars := digits.toList
      if Text.maxDigits < chars.length then some (.digitLimit chars.length)
      else if maxInteger < Text.digitsValue chars then
        some (.rejected (.integerTooLarge digits) lexeme.loc)
      else none
  | _ => none

/-- Where an end that comes too early is reported: at the last token. -/
def endLoc (lexemes : List Lexeme) : Loc :=
  (lexemes.getLast?.map (·.loc)).getD .start

/-- The tree of a finished scan. -/
def ofScan (goal : Goal) (scan : Scan) : Except ReadError Expr :=
  match (State.initial goal).run scan.lexemes, scan.stop? with
  | .error lexeme, _ => .error (.rejected (.unexpectedToken lexeme.token) lexeme.loc)
  | .ok _, some (c, loc) => .error (.rejected (.unexpectedChar c) loc)
  | .ok state, none =>
      match state.finish, scan.lexemes.findSome? literalError? with
      | none, _ => .error (.rejected .unexpectedEnd (endLoc scan.lexemes))
      | some _, some e => .error e
      | some tree, none => .ok tree

/-- The tree of a source text. -/
def parse (goal : Goal) (source : String) : Except ReadError Expr :=
  ofScan goal (scan source.toList)

/-- Whether the source form of a tree reads back as the same tree. -/
def readsBack (goal : Goal) (tree : Expr) : Except ReadError Bool :=
  (parse goal tree.toSource).map (agrees .byShape tree)

end ExprLang.Reader
