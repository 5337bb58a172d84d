/-!
# Lines of a text

For showing it, a text is split at every character that a screen may break a line at; a carriage
return with a newline after it is one break. For reading it from a file or a terminal, both ways of
writing a carriage return become a newline.
-/

namespace ExprLang.Text

/-- Whether a line ends at a character. -/
def isLineBreak (c : Char) : Bool :=
  c ∈ ['\n', '\x0b', '\x0c', '\r', '\x1c', '\x1d', '\x1e', '\u0085', '\u2028', '\u2029']

/-- The lines of a text, without their ends; a break at the very end begins no further line. -/
def lines : List Char → List (List Char)
  | [] => []
  | '\r' :: '\n' :: rest => [] :: lines rest
  | c :: rest =>
      if isLineBreak c then [] :: lines rest
      else match lines rest with
        | [] => [[c]]
        | line :: others => (c :: line) :: others

/-- A text with each carriage return, and the newline after it if there is one, made a newline. -/
def plainNewlines : List Char → List Char
  | [] => []
  | '\r' :: '\n' :: rest => '\n' :: plainNewlines rest
  | c :: rest => (if c = '\r' then '\n' else c) :: plainNewlines rest

end ExprLang.Text
