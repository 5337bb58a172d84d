import Mathlib.Data.List.Induction
import Mathlib.Data.List.TakeWhile
import ExprLang.Excerpt
import ExprLang.Location

/-!
# What an excerpt shows

A place counts the lines above it by their newlines (`exists_placeIn`), and an excerpt splits a text
at other characters as well. Where no such character comes before the end of the line of a place,
both agree on what that line is (`PlaceIn.lines_getElem?`).

Of the rows of an excerpt one is marked, that of the line it is about, and the row below has a caret
under a column (`excerpt_marks`).
-/

namespace ExprLang

/-! ## Places and lines -/

/-- Where a place is in a text: under these lines, each of which a newline ends, and inside a line
that holds this to the left of it and that to the right. -/
structure PlaceIn (text : List Char) (loc : Loc) (above : List (List Char))
    (left right : List Char) : Prop where
  text_eq : ∃ tail, text = above.flatMap (· ++ ['\n']) ++ (left ++ right ++ tail) ∧
    (tail = [] ∨ ∃ below, tail = '\n' :: below)
  lines : ∀ line ∈ (left ++ right) :: above, '\n' ∉ line
  loc_eq : loc = ⟨above.length + 1, left.length + 1⟩

/-- The place after a stretch of text, by the newlines in it. -/
theorem Loc.after_lines (before : List Char) : ∃ above left,
    before = above.flatMap (· ++ ['\n']) ++ left ∧
      (∀ line ∈ left :: above, '\n' ∉ line) ∧
      Loc.start.after before = ⟨above.length + 1, left.length + 1⟩ := by
  induction before using List.reverseRecOn with
  | nil => exact ⟨[], [], rfl, by simp, rfl⟩
  | append_singleton before c ih =>
      obtain ⟨above, left, rfl, hlines, hafter⟩ := ih
      obtain ⟨hleft, habove⟩ := List.forall_mem_cons.mp hlines
      rw [Loc.after_append, hafter]
      by_cases hc : c = '\n'
      · subst hc
        refine ⟨above ++ [left], [], by simp, ?_, by simp [Loc.next]⟩
        simpa [or_imp, forall_and] using ⟨habove, hleft⟩
      · refine ⟨above, left ++ [c], by simp, ?_, by simp [Loc.next, hc]⟩
        simpa [Ne.symm hc, hleft] using habove

/-- Every place in a text is in a line of it. -/
theorem exists_placeIn {text before rest : List Char} {loc : Loc} (htext : text = before ++ rest)
    (hloc : loc = Loc.start.after before) :
    ∃ above left, before = above.flatMap (· ++ ['\n']) ++ left ∧
      PlaceIn text loc above left (rest.takeWhile (· ≠ '\n')) := by
  obtain ⟨above, left, rfl, hlines, hafter⟩ := Loc.after_lines before
  obtain ⟨hleft, habove⟩ := List.forall_mem_cons.mp hlines
  have hright : '\n' ∉ rest.takeWhile (· ≠ '\n') := fun hmem => by
    simpa using List.mem_takeWhile_imp hmem
  refine ⟨above, left, rfl, ⟨rest.dropWhile (· ≠ '\n'), ?_, ?_⟩, ?_, hloc.trans hafter⟩
  · rw [htext, List.append_assoc, List.append_assoc, List.takeWhile_append_dropWhile]
  · cases hdrop : rest.dropWhile (· ≠ '\n') with
    | nil => exact .inl rfl
    | cons c below =>
        have hc := List.head?_dropWhile_not (· ≠ '\n') rest
        rw [hdrop] at hc
        have hc : c = '\n' := by simpa using hc
        exact .inr ⟨below, by rw [hc]⟩
  · refine List.forall_mem_cons.mpr ⟨fun hmem => ?_, habove⟩
    exact (List.mem_append.mp hmem).elim hleft hright

/-- A line without a character that an excerpt breaks it at. -/
def Unbroken (line : List Char) : Prop := ∀ c ∈ line, Text.isLineBreak c = false

namespace Unbroken

variable {line : List Char}

theorem cons {c : Char} (h : Unbroken (c :: line)) :
    c ≠ '\r' ∧ Text.isLineBreak c = false ∧ Unbroken line := by
  obtain ⟨hc, hline⟩ := List.forall_mem_cons.mp h
  refine ⟨?_, hc, hline⟩
  rintro rfl
  exact absurd hc (by decide)

theorem lines_newline (h : Unbroken line) (rest : List Char) :
    Text.lines (line ++ '\n' :: rest) = line :: Text.lines rest := by
  induction line with
  | nil =>
      rw [List.nil_append, Text.lines]
      · rfl
      · exact nofun
  | cons c line ih =>
      obtain ⟨hreturn, hc, hline⟩ := h.cons
      rw [List.cons_append, Text.lines, hc, ih hline]
      · rfl
      · rintro rest' rfl
        exact absurd rfl hreturn

theorem lines_last (h : Unbroken line) (hne : line ≠ []) : Text.lines line = [line] := by
  induction line with
  | nil => exact absurd rfl hne
  | cons c line ih =>
      obtain ⟨hreturn, hc, hline⟩ := h.cons
      rw [Text.lines, hc]
      · cases line with
        | nil => rfl
        | cons d line => rw [ih hline (List.cons_ne_nil _ _)]; rfl
      · rintro rest' rfl
        exact absurd rfl hreturn

end Unbroken

theorem lines_flatMap {above : List (List Char)} (h : ∀ line ∈ above, Unbroken line)
    (rest : List Char) :
    Text.lines (above.flatMap (· ++ ['\n']) ++ rest) = above ++ Text.lines rest := by
  induction above with
  | nil => rfl
  | cons line above ih =>
      obtain ⟨hline, habove⟩ := List.forall_mem_cons.mp h
      have hsplit : (line :: above).flatMap (· ++ ['\n']) ++ rest
          = line ++ '\n' :: (above.flatMap (· ++ ['\n']) ++ rest) := by simp
      rw [hsplit, hline.lines_newline, ih habove, List.cons_append]

/-- Where nothing but newlines breaks the lines down to that of a place, this is the line of the
same number that an excerpt shows. -/
theorem PlaceIn.lines_getElem? {text left right : List Char} {loc : Loc} {above : List (List Char)}
    (h : PlaceIn text loc above left right) (hright : right ≠ [])
    (hunbroken : ∀ line ∈ (left ++ right) :: above, Unbroken line) :
    (Text.lines text)[loc.line - 1]? = some (left ++ right) := by
  obtain ⟨hline, habove⟩ := List.forall_mem_cons.mp hunbroken
  obtain ⟨tail, rfl, htail⟩ := h.text_eq
  have hlines : ∃ below, Text.lines (left ++ right ++ tail) = (left ++ right) :: below := by
    obtain rfl | ⟨below, rfl⟩ := htail
    · refine ⟨[], ?_⟩
      rw [List.append_nil]
      exact hline.lines_last (List.append_ne_nil_of_right_ne_nil left hright)
    · exact ⟨_, hline.lines_newline below⟩
  obtain ⟨below, hlines⟩ := hlines
  rw [lines_flatMap habove, hlines, h.loc_eq]
  simp

/-! ## Rows -/

namespace Excerpt

/-- The lines from a number on, with their numbers. -/
def numbered (first : Nat) (lines : List (List Char)) : List (Nat × List Char) :=
  (List.range' first lines.length).zip lines

theorem mem_numbered {first number : Nat} {lines : List (List Char)} {line : List Char}
    (h : (number, line) ∈ numbered first lines) :
    first ≤ number ∧ number < first + lines.length ∧ line ∈ lines := by
  obtain ⟨hnumber, hline⟩ := List.of_mem_zip h
  obtain ⟨hfirst, hlast⟩ := List.mem_range'_1.mp hnumber
  exact ⟨hfirst, hlast, hline⟩

theorem numbered_append (first : Nat) (lines more : List (List Char)) :
    numbered first (lines ++ more) = numbered first lines
      ++ numbered (first + lines.length) more := by
  rw [numbered, List.length_append, ← List.range'_append_1, List.zip_append List.length_range']
  rfl

theorem numbered_split (first : Nat) (above below : List (List Char)) (line : List Char) :
    numbered first (above ++ line :: below) = numbered first above ++
      (first + above.length, line) :: numbered (first + above.length + 1) below := by
  rw [numbered_append]
  rfl

/-- A window begins as many lines above a line as the radius says, or where the text does, and ends
as many lines below it, or where the text does. -/
theorem window_eq (above below : List (List Char)) (line : List Char) (radius : Nat) :
    window (above ++ line :: below) ↑(above.length + 1) radius
      = numbered (above.length - radius + 1) (above.drop (above.length - radius)) ++
        (above.length + 1, line) :: numbered (above.length + 2) (below.take radius) := by
  have hwindow : ∀ lines centre, window lines centre radius = (numbered 1 lines).filter
      fun shown => centre - radius ≤ shown.1 ∧ shown.1 ≤ centre + radius := fun _ _ => rfl
  have hcut : above ++ line :: below = above.take (above.length - radius) ++
      ((above.drop (above.length - radius) ++ line :: below.take radius) ++ below.drop radius) := by
    rw [List.append_assoc, List.cons_append, List.take_append_drop, ← List.append_assoc,
      List.take_append_drop]
  have hfront : (above.take (above.length - radius)).length = above.length - radius := by
    rw [List.length_take]
    omega
  have hnear : (above.drop (above.length - radius)).length
      = above.length - (above.length - radius) :=
    List.length_drop
  have hbelow : (below.take radius).length = min radius below.length := List.length_take
  have hsplit := numbered_split (above.length - radius + 1) (above.drop (above.length - radius))
    (below.take radius) line
  have hcentre : above.length - radius + 1 + (above.length - (above.length - radius))
    = above.length + 1 := by omega
  rw [hnear, hcentre] at hsplit
  -- the lines further away have numbers outside of the window, all others have numbers inside
  rw [hwindow, hcut, numbered_append, numbered_append, hfront, List.filter_append,
    List.filter_append,
    List.filter_eq_nil_iff.mpr, List.filter_eq_self.mpr, List.filter_eq_nil_iff.mpr,
      List.append_nil,
    List.nil_append, Nat.add_comm 1, hsplit]
  · rintro ⟨number, shown⟩ hmem
    have := mem_numbered hmem
    simp only [List.length_append, List.length_cons, hnear, hbelow, List.length_drop] at this
    simp only [decide_eq_true_eq]
    omega
  · rintro ⟨number, shown⟩ hmem
    have := mem_numbered hmem
    simp only [List.length_append, List.length_cons, hnear, hbelow] at this
    simp only [decide_eq_true_eq]
    omega
  · rintro ⟨number, shown⟩ hmem
    have := mem_numbered hmem
    rw [hfront] at this
    simp only [decide_eq_true_eq]
    omega

/-- A window around a line of a text has that line, and no other of the same number. -/
theorem window_split (above below : List (List Char)) (line : List Char) {radius : Int}
    (hradius : 0 ≤ radius) : ∃ before after,
      window (above ++ line :: below) ↑(above.length + 1) radius
        = before ++ (above.length + 1, line) :: after ∧
      ∀ shown ∈ before ++ after, (shown.1 : Int) ≠ ↑(above.length + 1) ∧
        shown.2 ∈ above ++ line :: below := by
  obtain ⟨radius, rfl⟩ := Int.eq_ofNat_of_zero_le hradius
  refine ⟨_, _, window_eq above below line radius, ?_⟩
  rintro ⟨number, shown⟩ hmem
  obtain hbefore | hafter := List.mem_append.mp hmem
  · obtain ⟨-, hlt, hline⟩ := mem_numbered hbefore
    rw [List.length_drop] at hlt
    exact ⟨by omega, List.mem_append_left _ (List.mem_of_mem_drop hline)⟩
  · obtain ⟨hle, -, hline⟩ := mem_numbered hafter
    exact ⟨by omega,
      List.mem_append_right _ (List.mem_cons_of_mem _ (List.mem_of_mem_take hline))⟩

theorem rows_append (width : Nat) (line : Int) (col? : Option Int)
    (shown more : List (Nat × List Char)) :
    rows width line col? (shown ++ more) = rows width line col? shown
      ++ rows width line col? more := by
  induction shown with
  | nil => rfl
  | cons numbered shown ih => simp only [List.cons_append, rows, ih, List.append_assoc]

/-- The rows of lines that an excerpt is not about. -/
def plainRows (width : Nat) (shown : List (Nat × List Char)) : List String :=
  shown.map fun (number, line) => row width number false line

theorem rows_of_ne {width : Nat} {line : Int} {col? : Option Int} {shown : List (Nat × List Char)}
    (h : ∀ numbered ∈ shown, (numbered.1 : Int) ≠ line) :
    rows width line col? shown = plainRows width shown := by
  induction shown with
  | nil => rfl
  | cons numbered shown ih =>
      obtain ⟨number, text⟩ := numbered
      obtain ⟨hne, hshown⟩ := List.forall_mem_cons.mp h
      have hmark : (number : Int) ≠ line := hne
      simp only [rows, ih hshown, hmark, decide_false, if_false]
      cases col? <;> rfl

theorem newline_notMem_toDigits (number : Nat) : '\n' ∉ Nat.toDigits 10 number := fun hmem =>
  absurd (Nat.isDigit_of_mem_toDigits (by omega) (by omega) hmem) (by decide)

/-- A row that is not marked, and is one. -/
def IsPlainRow (row : String) : Prop := row.toList.head? = some ' ' ∧ '\n' ∉ row.toList

theorem isPlainRow_row (width number : Nat) {line : List Char} (hline : '\n' ∉ line) :
    IsPlainRow (row width number false line) := by
  have hblanks : ∀ count, '\n' ∉ (blanks count).toList := by simp [blanks]
  refine ⟨by simp [row], ?_⟩
  simp [row, rightAligned, hblanks, newline_notMem_toDigits, hline]

end Excerpt

/-! ## Marked lines -/

/-- Of the rows of an excerpt one is marked, that of the line with this number and this text, and
the row under it has a caret at the offset of a column of that line. -/
def Marks (text : String) (number : Nat) (line : List Char) (col : Nat) : Prop :=
  ∃ above below padding, text = "\n".intercalate
      (above ++ ("> " ++ blanks padding ++ toString number ++ " | " ++ String.ofList line) ::
        ("  " ++ blanks padding ++ blanks (toString number).length ++ " | "
          ++ blanks (col - 1) ++ "^") ::
          below) ∧
    ∀ row ∈ above ++ below, Excerpt.IsPlainRow row

/-- There is no excerpt around a line that a text does not have. -/
theorem excerpt_eq_empty {source : String} {line col : Nat} (radius : Int) (hpos : 1 ≤ line)
    (hnone : (Text.lines source.toList)[line - 1]? = none) :
    excerpt source (some line) (some col) radius = "" := by
  have hlength := List.getElem?_eq_none_iff.mp hnone
  unfold excerpt
  exact if_pos (.inr (by omega))

/-- A line that is shown has no newline in it. -/
theorem not_mem_of_mem_lines (text : List Char) : ∀ line ∈ Text.lines text, '\n' ∉ line := by
  have hnot : ∀ {c : Char}, ¬ Text.isLineBreak c = true → '\n' ∉ [c] := by
    intro c hc hmem
    obtain rfl := List.mem_singleton.mp hmem
    exact hc rfl
  fun_induction Text.lines text with
  | case1 => exact fun _ hmem => absurd hmem List.not_mem_nil
  | case2 rest ih | case3 c rest _ _ ih => exact List.forall_mem_cons.mpr ⟨List.not_mem_nil, ih⟩
  | case4 c rest _ hc _ ih => exact List.forall_mem_singleton.mpr (hnot hc)
  | case5 c rest _ hc line others heq ih =>
      rw [heq] at ih
      obtain ⟨hline, hothers⟩ := List.forall_mem_cons.mp ih
      refine List.forall_mem_cons.mpr ⟨fun hmem => ?_, hothers⟩
      exact (List.mem_append.mp (List.singleton_append ▸ hmem)).elim (hnot hc) hline

theorem blanks_add (count more : Nat) : blanks (count + more) = blanks count ++ blanks more := by
  rw [blanks, blanks, blanks, ← String.ofList_append, List.replicate_append_replicate]

/-- The number of a line is no wider than that of a later one. -/
theorem length_toString_le {number last : Nat} (h : number ≤ last) :
    (toString number).length ≤ (toString last).length := by
  have hlength : ∀ n : Nat, (toString n).length = (Nat.toDigits 10 n).length := fun n => by
    rw [Nat.toString_eq_repr, ← String.length_toList, Nat.toList_repr]
  have hpos : 0 < (Nat.toDigits 10 last).length := List.length_pos_iff.mpr Nat.toDigits_ne_nil
  rw [hlength, hlength, Nat.length_toDigits_le_iff (by omega) hpos]
  exact Nat.lt_of_le_of_lt h ((Nat.length_toDigits_le_iff (by omega) hpos).mp (Nat.le_refl _))

/-- The rows around a line, where the window has no other of its number. -/
theorem Excerpt.rows_split {width number : Nat} {before after : List (Nat × List Char)}
    {line : List Char} (col? : Option Int)
    (hne : ∀ shown ∈ before ++ after, (shown.1 : Int) ≠ number) :
    rows width number col? (before ++ (number, line) :: after)
      = plainRows width before ++
        row width number true line
          :: (col?.toList.map (caretRow width) ++ plainRows width after) := by
  obtain ⟨hbefore, hafter⟩ := List.forall_mem_append.mp hne
  rw [rows_append, rows_of_ne hbefore]
  cases col? <;> simp [rows, rows_of_ne hafter]

/-- The row of the line that an excerpt is about, and the row with the caret. -/
theorem Excerpt.marked_rows (padding number col : Nat) (line : List Char) :
    row (padding + (toString number).length) number true line
        = "> " ++ blanks padding ++ toString number ++ " | " ++ String.ofList line ∧
      caretRow (padding + (toString number).length) col
        = "  " ++ blanks padding ++ blanks (toString number).length ++ " | " ++ blanks (col - 1)
          ++ "^" := by
  have hcol : ((col : Int) - 1).toNat = col - 1 := by omega
  constructor
  · rw [row, rightAligned, Nat.add_sub_cancel, if_pos rfl, ← String.append_assoc]
    rfl
  · rw [caretRow, blanks_add, hcol, ← String.append_assoc]

/-- A line of a text, between those above and those below. -/
theorem exists_lines_split {lines : List (List Char)} {line : Nat} {text : List Char}
    (hpos : 1 ≤ line) (htext : lines[line - 1]? = some text) :
    ∃ above below, lines = above ++ text :: below ∧ line = above.length + 1 := by
  obtain ⟨hlt, hget⟩ := List.getElem?_eq_some_iff.mp htext
  refine ⟨lines.take (line - 1), lines.drop (line - 1 + 1), ?_, ?_⟩
  · rw [← hget, ← List.drop_eq_getElem_cons hlt, List.take_append_drop]
  · rw [List.length_take]
    omega

/-- An excerpt around a line that a text has is its rows; their numbers are as wide as that of the
last line shown. -/
theorem excerpt_eq_rows {source : String} {line : Nat} (col? : Option Int) (radius : Nat)
    (hpos : 1 ≤ line) (hle : line ≤ (Text.lines source.toList).length) :
    excerpt source (some line) col? radius
      = "\n".intercalate (Excerpt.rows
          (toString (min (Text.lines source.toList).length (line + radius))).length line col?
          (Excerpt.window (Text.lines source.toList) line radius)) := by
  have hinside : ¬ ((line : Int) < 1 ∨ ((Text.lines source.toList).length : Int) < line) := by
    omega
  have hlast : min ((Text.lines source.toList).length : Int) (line + radius)
      = ↑(min (Text.lines source.toList).length (line + radius)) := by omega
  unfold excerpt
  simp only [if_neg hinside, hlast]
  rfl

/-- An excerpt marks the line that it is about, if the text has that line. -/
theorem excerpt_marks {source : String} {line col : Nat} {radius : Int} {text : List Char}
    (hradius : 0 ≤ radius) (hpos : 1 ≤ line)
    (htext : (Text.lines source.toList)[line - 1]? = some text) :
    Marks (excerpt source (some line) (some col) radius) line text col := by
  obtain ⟨radius, rfl⟩ := Int.eq_ofNat_of_zero_le hradius
  obtain ⟨above, below, hlines, rfl⟩ := exists_lines_split hpos htext
  have hle : above.length + 1 ≤ (Text.lines source.toList).length := by simp [hlines]
  obtain ⟨before, after, hwindow, hshown⟩ := Excerpt.window_split above below text hradius
  obtain ⟨padding, hwidth⟩ := Nat.exists_eq_add_of_le' (length_toString_le
    (Nat.le_min.mpr ⟨hle, Nat.le_add_right (above.length + 1) radius⟩))
  obtain ⟨hmarked, hcaret⟩ := Excerpt.marked_rows padding (above.length + 1) col text
  rw [excerpt_eq_rows _ radius hpos hle, hwidth, hlines, hwindow,
    Excerpt.rows_split _ fun shown hmem =>
      (hshown shown hmem).1, Option.toList_some, List.map_singleton,
    List.singleton_append, hmarked, hcaret]
  refine ⟨_, _, padding, rfl, fun row hmem => ?_⟩
  rw [Excerpt.plainRows, Excerpt.plainRows, ← List.map_append] at hmem
  obtain ⟨⟨number, line⟩, hplain, rfl⟩ := List.mem_map.mp hmem
  have hline := (hshown _ hplain).2
  rw [← hlines] at hline
  exact Excerpt.isPlainRow_row _ number (not_mem_of_mem_lines _ line hline)

end ExprLang
