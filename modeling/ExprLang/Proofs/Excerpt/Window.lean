import Mathlib.Data.List.Forall2
import ExprLang.Proofs.Excerpt

/-!
# The window of an excerpt

An excerpt has a row for every line of a text that is near enough to the line it is about, and for
no other (`excerpt_shows_window`). The numbers stand at the right of a field that is as wide as the
last of them, so that all texts begin at one offset, and the caret stands at the offset of its
column, also where the line has no such column.

What the rows are is said of the characters in them (`IsRowOf`, `IsCaretRow`) and not of how they
are put together.
-/

namespace ExprLang

namespace Excerpt

/-! ## Rows by their characters -/

/-- A row that shows a line of a text: its mark, its number at the right of a field, and then, at an
offset, the line itself. -/
def IsRowOf (lines : List (List Char)) (offset : Nat) (mark : Char) (number : Nat)
    (row : String) : Prop :=
  ∃ text front padding, lines[number - 1]? = some text ∧ row.toList = front ++ text ∧
    front = mark :: ' ' :: (List.replicate padding ' ' ++ (toString number).toList
      ++ [' ', '|', ' ']) ∧
    front.length = offset

/-- A row with a caret under a column of texts that begin at an offset, and otherwise blank but for
a bar. -/
def IsCaretRow (offset : Nat) (col : Int) (row : String) : Prop :=
  ∃ margin, row.toList = margin ++ ['^'] ∧ margin.length = offset + (col - 1).toNat ∧
    margin.head? = some ' ' ∧ ∀ c ∈ margin, c = ' ' ∨ c = '|'

/-- All numbers from one to another. -/
def numbers (first last : Nat) : List Nat := List.range' first (last + 1 - first)

/-- The rows of an excerpt around a line show the lines at most `radius` away from it, in their
order and each once. -/
structure ShowsWindow (lines : List (List Char)) (line radius : Nat) (col? : Option Int)
    (offset : Nat) (above : List String) (marked : String) (carets below : List String) : Prop where
  /-- The numbers are as wide as that of the last line shown. -/
  offset_eq : offset = (toString (min lines.length (line + radius))).length + 5
  rows_above : List.Forall₂ (IsRowOf lines offset ' ')
    (numbers (max 1 (line - radius)) (line - 1)) above
  row_marked : IsRowOf lines offset '>' line marked
  /-- One caret if there is a column, and none if there is not. -/
  row_carets : List.Forall₂ (IsCaretRow offset) col?.toList carets
  rows_below : List.Forall₂ (IsRowOf lines offset ' ')
    (numbers (line + 1) (min lines.length (line + radius))) below
  /-- No row is broken, so the text that they are joined to has these rows and no others. -/
  unbroken : ∀ row ∈ above ++ marked :: (carets ++ below), '\n' ∉ row.toList

/-! ## The rows that are built -/

theorem toList_blanks (count : Nat) : (blanks count).toList = List.replicate count ' ' :=
    String.toList_ofList

theorem isRowOf_row {lines : List (List Char)} {width number : Nat} {text : List Char}
    (marked : Bool) (hwidth : (toString number).length ≤ width)
    (htext : lines[number - 1]? = some text) :
    IsRowOf lines (width + 5)
    (if marked then '>' else ' ') number (row width number marked text) := by
  refine ⟨text, _, width - (toString number).length, htext, ?_, rfl, ?_⟩
  · cases marked <;> simp [row, rightAligned, toList_blanks]
  · simp only [List.length_cons, List.length_append, List.length_replicate, String.length_toList,
      List.length_nil]
    omega

theorem isCaretRow_caretRow (width : Nat) (col : Int) :
    IsCaretRow (width + 5) col (caretRow width col) := by
  refine ⟨' ' :: ' ' :: (List.replicate width ' ' ++ [' ', '|', ' '] ++
    List.replicate (col - 1).toNat ' '), ?_, ?_, rfl, ?_⟩
  · simp [caretRow, toList_blanks]
  · simp only [List.length_cons, List.length_append, List.length_replicate, List.length_nil]
    omega
  · intro c hmem
    simp only [List.mem_cons, List.mem_append, List.mem_replicate, List.not_mem_nil,
      or_false] at hmem
    grind

theorem IsRowOf.unbroken {source : String} {offset number : Nat} {mark : Char} {row : String}
    (h : IsRowOf (Text.lines source.toList) offset mark number row) (hmark : mark ≠ '\n') :
    '\n' ∉ row.toList := by
  obtain ⟨text, front, padding, htext, hrow, rfl, -⟩ := h
  have hline := not_mem_of_mem_lines _ text (List.mem_of_getElem? htext)
  simp [hrow, hline, newline_notMem_toDigits, hmark.symm]

theorem IsRowOf.ne_empty {lines : List (List Char)} {offset number : Nat} {mark : Char}
    {row : String} (h : IsRowOf lines offset mark number row) : row ≠ "" := by
  obtain ⟨text, front, padding, -, hrow, rfl, -⟩ := h
  rintro rfl
  exact absurd hrow (by simp)

theorem IsCaretRow.unbroken {offset : Nat} {col : Int} {row : String}
    (h : IsCaretRow offset col row) : '\n' ∉ row.toList := by
  obtain ⟨margin, hrow, -, -, hmargin⟩ := h
  rw [hrow]
  intro hmem
  obtain hmem | hmem := List.mem_append.mp hmem
  · exact absurd (hmargin _ hmem) (by decide)
  · exact absurd hmem (by decide)

theorem carets_show (width : Nat) (col? : Option Int) :
    List.Forall₂ (IsCaretRow (width + 5)) col?.toList (col?.toList.map (caretRow width)) :=
  List.forall₂_map_right_iff.mpr (List.forall₂_same.mpr fun col _ =>
    isCaretRow_caretRow width col)

/-- What is so of every row that shows something is so of all rows that show some things one by
one. -/
theorem forall_mem_of_forall₂ {α : Type} {shows : α → String → Prop} {P : String → Prop}
    {shown : List α} {rows : List String} (h : List.Forall₂ shows shown rows)
    (himp : ∀ item row, shows item row → P row) : ∀ row ∈ rows, P row :=
  ((List.forall₂_and_left rows shown).mp
    (h.flip.imp fun row item hrow => ⟨himp item row hrow, hrow⟩)).1

/-- The rows of lines that an excerpt is not about, after those in front of them. -/
theorem plainRows_show {lines : List (List Char)} (front shown back : List (List Char))
    {width first : Nat} (hlines : lines = front ++ (shown ++ back))
    (hfirst : first = front.length + 1)
    (hwidth : (toString (front.length + shown.length)).length ≤ width) :
    List.Forall₂ (IsRowOf lines (width + 5) ' ') (List.range' first shown.length)
      (plainRows width (numbered first shown)) := by
  induction shown generalizing front first with
  | nil => exact .nil
  | cons text shown ih =>
      subst hfirst
      refine .cons (isRowOf_row false ?_ ?_) (ih (front ++ [text]) ?_ ?_ ?_)
      · exact Nat.le_trans (length_toString_le (by simp)) hwidth
      · simp [hlines]
      · simp [hlines]
      · simp
      · rwa [List.length_append, List.length_singleton, Nat.add_assoc, Nat.add_comm 1]

section
variable {lines above below : List (List Char)} {text : List Char} {width : Nat}

theorem above_show (radius : Nat) (hlines : lines = above ++ text :: below)
    (hwidth : (toString above.length).length ≤ width) :
    List.Forall₂ (IsRowOf lines (width + 5) ' ')
      (numbers (max 1 (above.length + 1 - radius)) (above.length + 1 - 1))
      (plainRows width
        (numbered (above.length - radius + 1) (above.drop (above.length - radius)))) := by
  have hfront : (above.take (above.length - radius)).length = above.length - radius := by
    rw [List.length_take]
    omega
  have hshown : (above.drop (above.length - radius)).length
      = above.length + 1 - 1 + 1 - max 1 (above.length + 1 - radius) := by
    rw [List.length_drop]
    omega
  have hfirst : max 1 (above.length + 1 - radius) = above.length - radius + 1 := by omega
  rw [numbers, ← hshown, hfirst]
  refine plainRows_show _ _ (text :: below) ?_ (by rw [hfront]) ?_
  · rw [← List.append_assoc, List.take_append_drop, hlines]
  · rwa [← List.length_append, List.take_append_drop]

theorem below_show (radius : Nat) (hlines : lines = above ++ text :: below)
    (hwidth : (toString (min lines.length (above.length + 1 + radius))).length ≤ width) :
    List.Forall₂ (IsRowOf lines (width + 5) ' ')
      (numbers (above.length + 1 + 1) (min lines.length (above.length + 1 + radius)))
      (plainRows width (numbered (above.length + 2) (below.take radius))) := by
  have hlast : min lines.length (above.length + 1 + radius)
      = above.length + 1 + (below.take radius).length := by
    rw [hlines, List.length_append, List.length_cons, List.length_take]
    omega
  have hshown : above.length + 1 + (below.take radius).length + 1 - (above.length + 1 + 1)
      = (below.take radius).length := by omega
  rw [hlast] at hwidth ⊢
  rw [numbers, hshown]
  refine plainRows_show (above ++ [text]) _ (below.drop radius) ?_ (by simp) ?_
  · simp [hlines]
  · simpa using hwidth

/-- In the window around a line no other has its number. -/
theorem window_far (above below : List (List Char)) (radius : Nat) :
    ∀ shown ∈ numbered (above.length - radius + 1) (above.drop (above.length - radius)) ++
      numbered (above.length + 2) (below.take radius),
        (shown.1 : Int) ≠ ↑(above.length + 1) := by
  rintro ⟨number, shown⟩ hmem
  obtain hmem | hmem := List.mem_append.mp hmem
  · have := (mem_numbered hmem).2.1
    rw [List.length_drop] at this
    omega
  · have := (mem_numbered hmem).1
    omega

end

end Excerpt

/-! ## Excerpts -/

/-- There is nothing to show around a line that a text does not have. -/
theorem excerpt_of_outside (source : String) {line? : Option Int} (col? : Option Int) (radius : Int)
    (h : ∀ line ∈ line?, line < 1 ∨ (Text.lines source.toList).length < line) :
    excerpt source line? col? radius = "" := by
  cases line? with
  | none => rfl
  | some line => exact if_pos (h line rfl)

/-- Around a line that a text has, an excerpt shows the lines of its window. -/
theorem excerpt_of_inside (source : String) {line : Nat} (col? : Option Int) (radius : Nat)
    (hpos : 1 ≤ line) (hle : line ≤ (Text.lines source.toList).length) :
    ∃ offset above marked carets below,
      excerpt source (some line) col? radius
        = "\n".intercalate (above ++ marked :: (carets ++ below)) ∧
      Excerpt.ShowsWindow (Text.lines source.toList) line radius col? offset above marked
        carets below := by
  obtain ⟨text, htext⟩ : ∃ text, (Text.lines source.toList)[line - 1]? = some text :=
    ⟨_, List.getElem?_eq_getElem (by omega)⟩
  obtain ⟨above, below, hlines, rfl⟩ := exists_lines_split hpos htext
  have hlast : above.length + 1 ≤ min (Text.lines source.toList).length
      (above.length + 1 + radius) :=
    Nat.le_min.mpr ⟨hle, Nat.le_add_right _ radius⟩
  have hrows := excerpt_eq_rows col? radius hpos hle
  rw [congrArg Excerpt.window hlines, Excerpt.window_eq,
    Excerpt.rows_split col? (Excerpt.window_far above below radius)] at hrows
  have habove := Excerpt.above_show radius hlines
    (length_toString_le (Nat.le_of_succ_le hlast))
  have hmarked := Excerpt.isRowOf_row true (length_toString_le hlast) htext
  have hbelow := Excerpt.below_show radius hlines (Nat.le_refl _)
  have hcarets := Excerpt.carets_show
    (toString (min (Text.lines source.toList).length (above.length + 1 + radius))).length col?
  refine ⟨_, _, _, _, _, hrows, rfl, habove, hmarked, hcarets, hbelow, ?_⟩
  simp only [List.forall_mem_append, List.forall_mem_cons]
  exact ⟨Excerpt.forall_mem_of_forall₂ habove fun _ _ h => h.unbroken (by decide),
    hmarked.unbroken (by decide), Excerpt.forall_mem_of_forall₂ hcarets fun _ _ h => h.unbroken,
    Excerpt.forall_mem_of_forall₂ hbelow fun _ _ h => h.unbroken (by decide)⟩

theorem eq_empty_of_joined {rows : List String} (h : "\n".intercalate rows = "") :
    ∀ row ∈ rows, row = "" := by
  match rows with
  | [] => exact fun _ hmem => absurd hmem List.not_mem_nil
  | [row] => simpa using h
  | row :: next :: rest =>
      rw [String.intercalate_cons_cons] at h
      exact absurd (congrArg String.toList h) (by simp)

/-- An excerpt is empty if a text has no such line, and otherwise it shows each line of the window
around that line once, with a caret under the column if there is one. -/
theorem excerpt_shows_window (source : String) (line? col? : Option Int) (radius : Nat) :
    (excerpt source line? col? radius = "" ↔
      ∀ line ∈ line?, line < 1 ∨ (Text.lines source.toList).length < line) ∧
    ∀ line : Nat, line? = some ↑line → 1 ≤ line →
      line ≤ (Text.lines source.toList).length →
      ∃ offset above marked carets below,
        excerpt source line? col? radius
          = "\n".intercalate (above ++ marked :: (carets ++ below)) ∧
        Excerpt.ShowsWindow (Text.lines source.toList) line radius col? offset above marked carets
          below := by
  refine ⟨⟨fun hempty line hline => ?_, excerpt_of_outside source col? radius⟩, ?_⟩
  · -- the row of the line that it is about is not empty
    by_contra hinside
    obtain ⟨number, rfl⟩ := Int.eq_ofNat_of_zero_le (a := line) (by omega)
    obtain rfl := Option.mem_def.mp hline
    obtain ⟨offset, above, marked, carets, below, hexcerpt, hshows⟩ :=
      excerpt_of_inside source col? radius (show 1 ≤ number by omega) (by omega)
    rw [hempty] at hexcerpt
    exact hshows.row_marked.ne_empty (eq_empty_of_joined hexcerpt.symm marked (by simp))
  · rintro line rfl hpos hle
    exact excerpt_of_inside source col? radius hpos hle

/-- A caret past the end of a line that is the first one with a wider number. -/
theorem excerpt_shows_window_ten :
    let source := "\n\n\n\n\n\n\n\nnine\nten\n"
    (1 ≤ 10 ∧ 10 ≤ (Text.lines source.toList).length) ∧
      ∃ offset above marked carets below,
      excerpt source (some 10) (some 9) 1
        = "\n".intercalate (above ++ marked :: (carets ++ below)) ∧
      Excerpt.ShowsWindow (Text.lines source.toList) 10 1 (some 9) offset above marked
        carets below := by
  intro source
  have hinside : 1 ≤ 10 ∧ 10 ≤ (Text.lines source.toList).length := by decide
  exact ⟨hinside, (excerpt_shows_window source (some 10) (some 9) 1).2 10 rfl hinside.1
    hinside.2⟩

example : excerpt "\n\n\n\n\n\n\n\nnine\nten\n" (some 10) (some 9) 1
    = "   9 | nine\n> 10 | ten\n     |         ^" := by
  decide +kernel

end ExprLang
