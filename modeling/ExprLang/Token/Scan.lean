import ExprLang.Token

/-!
# Scanning

The tokens of a source text are found in one pass over its characters. Between two characters the
scanner is idle, or inside a comment or a token that it has begun (`Mode`); it looks at each
character once and never back. So scanning composes: the scan of a text from some state is the scan
of its second part from where the first part left off (`Scanner.run_append`).

A scan ends at the first character where no token can be formed. Such a character need not be the
one last looked at: a string without its second quote is reported at the first one, and digits that
run into a letter at the first digit.
-/

namespace ExprLang

/-- What the scanner is inside of. Characters of a token are kept latest first. -/
inductive Mode where
  /-- Between tokens. -/
  | idle
  /-- In a comment, which the end of the line ends. -/
  | comment
  /-- In a name or keyword that began at a place. -/
  | word (start : Loc) (chars : List Char)
  /-- In an integer literal with a first digit and some more. -/
  | digits (start : Loc) (first : Char) (more : List Char)
  /-- In a string literal, after its first quote. -/
  | string (start : Loc) (chars : List Char)
  /-- Stopped for good: no token begins with this character at this place. -/
  | stopped (c : Char) (loc : Loc)
deriving DecidableEq

/-- The state of a scan: the place reached, what it is inside of, and the tokens found, latest
first. -/
structure Scanner where
  place : Loc
  mode : Mode
  found : List Lexeme
deriving DecidableEq

/-- The result of a scan: the tokens in order, and the character it stopped at, if it did. -/
structure Scan where
  lexemes : List Lexeme
  stop? : Option (Char × Loc)
deriving DecidableEq

namespace Mode

/-! ## One character -/

/-- The token that a word or a literal without a final delimiter amounts to when it ends here. -/
def pending : Mode → List Lexeme
  | word start chars => [⟨.ofWord (String.ofList chars.reverse), start⟩]
  | digits start first more => [⟨.int (String.ofList (first :: more.reverse)), start⟩]
  | _ => []

/-- The mode after a character that no open token goes on with, and the sign that it is. -/
def start (place : Loc) (c : Char) : Mode × List Lexeme :=
  if isBlank c then (idle, [])
  else if c = '#' then (comment, [])
  else if c = '"' then (string place [], [])
  else if c.isDigit then (digits place c [], [])
  else if isNameChar c then (word place [c], [])
  else match Sign.ofChar? c with
    | some sign => (idle, [⟨.sign sign, place⟩])
    | none => (stopped c place, [])

/-- The mode after one more character, and the tokens that it completes, latest first. -/
def step (place : Loc) (c : Char) (mode : Mode) : Mode × List Lexeme :=
  match mode with
  | idle => start place c
  | comment => (if c = '\n' then idle else comment, [])
  | word begun chars =>
      if isNameChar c then (word begun (c :: chars), [])
      else
        let (next, found) := start place c
        (next, found ++ mode.pending)
  | digits begun first more =>
      if c.isDigit then (digits begun first (c :: more), [])
      else if clingsToDigits c then (stopped first begun, [])
      else
        let (next, found) := start place c
        (next, found ++ mode.pending)
  | string begun chars =>
      if c = '"' then (idle, [⟨.str (String.ofList chars.reverse), begun⟩])
      else (string begun (c :: chars), [])
  | stopped .. => (mode, [])

/-- The character that a scan which ends in this mode stopped at. -/
def stop? : Mode → Option (Char × Loc)
  | string start _ => some ('"', start)
  | stopped c loc => some (c, loc)
  | _ => none

end Mode

namespace Scanner

/-! ## A whole text -/

/-- The scanner before the first character. -/
def initial : Scanner := ⟨.start, .idle, []⟩

/-- The scanner after one more character. -/
def step (scanner : Scanner) (c : Char) : Scanner :=
  let (mode, found) := scanner.mode.step scanner.place c
  ⟨scanner.place.next c, mode, found ++ scanner.found⟩

/-- The scanner after a stretch of text. -/
def run (scanner : Scanner) (text : List Char) : Scanner :=
  text.foldl step scanner

theorem run_append (scanner : Scanner) (first second : List Char) :
    scanner.run (first ++ second) = (scanner.run first).run second :=
  List.foldl_append

/-- The result of a scan that ends here. -/
def finish (scanner : Scanner) : Scan :=
  ⟨(scanner.mode.pending ++ scanner.found).reverse, scanner.mode.stop?⟩

end Scanner

/-- The scan of a source text. -/
def scan (text : List Char) : Scan :=
  (Scanner.initial.run text).finish

end ExprLang
