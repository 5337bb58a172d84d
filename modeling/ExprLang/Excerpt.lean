import ExprLang.Text.Lines

/-!
# Source excerpts

An excerpt shows the lines around a place, each after its number, and a caret under a column of the
line it is about. The numbers are as wide as the last one shown, so that all lines begin at one
offset.
-/

namespace ExprLang

/-- Blanks. -/
def blanks (count : Nat) : String :=
  String.ofList (List.replicate count ' ')

namespace Excerpt

/-- A number at the right of a field. -/
def rightAligned (width number : Nat) : String :=
  let digits := toString number
  blanks (width - digits.length) ++ digits

/-- The row of a line. -/
def row (width number : Nat) (marked : Bool) (line : List Char) : String :=
  (if marked then ">" else " ") ++ " " ++ rightAligned width number ++ " | " ++ String.ofList line

/-- The row with a caret under a column. -/
def caretRow (width : Nat) (col : Int) : String :=
  "  " ++ blanks width ++ " | " ++ blanks (col - 1).toNat ++ "^"

/-- The lines at most `radius` away from a line, with their numbers. -/
def window (lines : List (List Char)) (line radius : Int) : List (Nat × List Char) :=
  ((List.range' 1 lines.length).zip lines).filter fun (number, _) =>
    line - radius ≤ number ∧ number ≤ line + radius

/-- The rows for the lines of a window. -/
def rows (width : Nat) (line : Int) (col? : Option Int) : List (Nat × List Char) → List String
  | [] => []
  | (number, text) :: rest =>
      let carets := match col? with
        | some col => if (number : Int) = line then [caretRow width col] else []
        | none => []
      row width number ((number : Int) = line) text :: (carets ++ rows width line col? rest)

end Excerpt

/-- The excerpt of a source text around a line, with a caret if there is a column; nothing if there
is no such line. -/
def excerpt (source : String) (line? col? : Option Int) (radius : Int) : String :=
  let lines := Text.lines source.toList
  match line? with
  | none => ""
  | some line =>
      if line < 1 ∨ lines.length < line then ""
      else
        let width := (toString (min (lines.length : Int) (line + radius))).length
        "\n".intercalate (Excerpt.rows width line col? (Excerpt.window lines line radius))

end ExprLang
