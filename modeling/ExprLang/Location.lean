/-!
# Locations

A location is the line and the column of a character in a source text, both counted from 1. Only a
newline ends a line here, and a column counts characters; so the location that follows a stretch of
text depends on that text alone (`Loc.after`), and stretches compose (`Loc.after_append`).
-/

namespace ExprLang

/-- A place in a source text. -/
structure Loc where
  line : Nat
  col : Nat
deriving DecidableEq

namespace Loc

/-- The place of the first character. -/
def start : Loc := ⟨1, 1⟩

/-- The place after one character. -/
def next (place : Loc) (c : Char) : Loc :=
  if c = '\n' then ⟨place.line + 1, 1⟩ else ⟨place.line, place.col + 1⟩

/-- The place after a stretch of text. -/
def after (place : Loc) (text : List Char) : Loc :=
  text.foldl next place

@[simp] theorem after_nil (place : Loc) : place.after [] = place := rfl

@[simp] theorem after_cons (place : Loc) (c : Char) (text : List Char) :
    place.after (c :: text) = (place.next c).after text := rfl

theorem after_append (place : Loc) (first second : List Char) :
    place.after (first ++ second) = (place.after first).after second :=
  List.foldl_append

end Loc

end ExprLang
