import ExprLang.Location

/-!
# Tokens

The words of a source text. A name is any run of name characters that does not start with a digit;
most operators are names. A run is a keyword only as a whole, so `letter` is a name.
-/

namespace ExprLang

/-! ## Reserved words and signs -/

/-- The reserved words. -/
inductive Keyword where
  | kwLet | kwIf | kwElse | kwWhile | kwFn | kwTrue | kwFalse | kwNull
deriving DecidableEq

namespace Keyword

/-- All reserved words. -/
def all : List Keyword :=
  [kwLet, kwIf, kwElse, kwWhile, kwFn, kwTrue, kwFalse, kwNull]

/-- The spelling of a reserved word. -/
def text : Keyword → String
  | kwLet => "let"
  | kwIf => "if"
  | kwElse => "else"
  | kwWhile => "while"
  | kwFn => "fn"
  | kwTrue => "true"
  | kwFalse => "false"
  | kwNull => "null"

/-- The reserved word of a spelling. -/
def ofText? (text : String) : Option Keyword :=
  all.find? (·.text = text)

end Keyword

/-- The punctuation signs. -/
inductive Sign where
  | semicolon | comma | equals
  | openParen | closeParen | openBracket | closeBracket | openBrace | closeBrace
deriving DecidableEq

namespace Sign

/-- All punctuation signs. -/
def all : List Sign :=
  [semicolon, comma, equals, openParen, closeParen, openBracket, closeBracket,
    openBrace, closeBrace]

/-- The character of a sign. -/
def char : Sign → Char
  | semicolon => ';'
  | comma => ','
  | equals => '='
  | openParen => '('
  | closeParen => ')'
  | openBracket => '['
  | closeBracket => ']'
  | openBrace => '{'
  | closeBrace => '}'

/-- The sign of a character. -/
def ofChar? (c : Char) : Option Sign :=
  all.find? (·.char = c)

end Sign

/-! ## Tokens and their places -/

/-- A word of a source text. -/
inductive Token where
  | keyword (word : Keyword)
  | sign (mark : Sign)
  /-- A name, by its text. -/
  | name (text : String)
  /-- An integer literal, by its digits. -/
  | int (digits : String)
  /-- A string literal, by the text between its quotes. -/
  | str (text : String)
deriving DecidableEq

namespace Token

/-- The spelling of a token. -/
def text : Token → String
  | .keyword word => word.text
  | .sign mark => mark.char.toString
  | .name text => text
  | .int digits => digits
  | .str text => "\"" ++ text ++ "\""

/-- The token of a run of name characters. -/
def ofWord (word : String) : Token :=
  match Keyword.ofText? word with
  | some reserved => .keyword reserved
  | none => .name word

end Token

/-- A token at its place in a source text. -/
structure Lexeme where
  token : Token
  loc : Loc
deriving DecidableEq

/-! ## Classes of characters -/

/-- A character that separates tokens. -/
def isBlank (c : Char) : Bool :=
  c = ' ' || c = '\t' || c = '\x0c' || c = '\r' || c = '\n'

/-- A character of a name. -/
def isNameChar (c : Char) : Bool :=
  c.isAlphanum || c ∈ ['_', '+', '-', '*', '/', '<', '>', '!', '?', '%']

/-- A character that may not follow an integer literal. -/
def clingsToDigits (c : Char) : Bool :=
  c.isAlphanum || c = '_'

end ExprLang
