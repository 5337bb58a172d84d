import ExprLang.Console

/-!
# The lines of the input

A text falls into lines, each with the newline that ends it; what is left behind the last newline is
a line as well, if it is anything (`Console.lines`). Reading takes the first line off the input and
returns its text (`Console.splitLine_eq`): without the newline and without one carriage return
before it, and as it is if it has no newline.
-/

namespace ExprLang

namespace Console

/-- The lines of a text, each with its newline; only the last one may have none. -/
def lines : List Char → List (List Char)
  | [] => []
  | c :: rest =>
      if c = '\n' then [c] :: lines rest
      else match lines rest with
        | [] => [[c]]
        | line :: others => (c :: line) :: others

/-- The text of a line: a newline at its end does not count, nor does one carriage return before
that. -/
def lineText (line : List Char) : List Char :=
  if line.getLast? = some '\n' then withoutReturn line.dropLast else line

/-- The lines of a text are the text. -/
theorem flatten_lines (text : List Char) : (lines text).flatten = text := by
  induction text with
  | nil => rfl
  | cons c rest ih =>
      rw [lines]
      by_cases hc : c = '\n'
      · rw [if_pos hc, List.flatten_cons, ih]
        rfl
      · rw [if_neg hc]
        cases hlines : lines rest with
        | nil =>
            rw [hlines] at ih
            simp [← ih]
        | cons line others =>
            rw [hlines] at ih
            simp [← ih]

theorem lines_of_terminated {text : List Char} (h : '\n' ∉ text) (rest : List Char) :
    lines (text ++ '\n' :: rest) = (text ++ ['\n']) :: lines rest := by
  induction text with
  | nil => simp [lines]
  | cons c text ih =>
      obtain ⟨hc, htext⟩ := not_or.mp (mt List.mem_cons.mpr h)
      rw [List.cons_append, lines, if_neg (Ne.symm hc), ih htext]
      rfl

/-- A text without a newline is one line, if it is anything. -/
theorem lines_of_unterminated {text : List Char} (h : '\n' ∉ text) (hne : text ≠ []) :
    lines text = [text] := by
  induction text with
  | nil => exact absurd rfl hne
  | cons c text ih =>
      obtain ⟨hc, htext⟩ := not_or.mp (mt List.mem_cons.mpr h)
      rw [lines, if_neg (Ne.symm hc)]
      cases text with
      | nil => rfl
      | cons c' text => rw [ih htext (List.cons_ne_nil _ _)]

theorem splitLine_append {line : List Char} (h : '\n' ∉ line) (rest : List Char) :
    splitLine (line ++ '\n' :: rest) = (withoutReturn line, rest) := by
  have hline : ∀ c ∈ line, decide (c ≠ '\n') = true :=
    fun c hmem => decide_eq_true fun heq => h (heq ▸ hmem)
  rw [splitLine, List.takeWhile_append_of_pos hline, List.dropWhile_append_of_pos hline]
  simp

theorem splitLine_of_unterminated {text : List Char} (h : '\n' ∉ text) :
    splitLine text = (text, []) := by
  have htext : ∀ c ∈ text, decide (c ≠ '\n') = true :=
    fun c hmem => decide_eq_true fun heq => h (heq ▸ hmem)
  rw [splitLine, ← List.append_nil text, List.takeWhile_append_of_pos htext,
    List.dropWhile_append_of_pos htext]
  rfl

theorem lineText_terminated (text : List Char) :
    lineText (text ++ ['\n']) = withoutReturn text := by
  simp [lineText]

theorem lineText_of_unterminated {text : List Char} (h : '\n' ∉ text) : lineText text = text :=
  if_neg fun hlast => h (List.mem_of_getLast? hlast)

theorem withoutReturn_of_not_mem {line : List Char} (h : '\r' ∉ line) :
    withoutReturn line = line :=
  if_neg fun hlast => h (List.mem_of_getLast? hlast)

/-! ## Reading -/

theorem splitLine_suffix (input : List Char) : (splitLine input).2 <:+ input := by
  have hrest : input.dropWhile (· ≠ '\n') <:+ input := List.dropWhile_suffix _
  rw [splitLine]
  cases hdrop : input.dropWhile (· ≠ '\n') with
  | nil => exact List.nil_suffix
  | cons c rest =>
      rw [hdrop] at hrest
      exact (List.suffix_cons c rest).trans hrest

theorem splitLine_shorter {input : List Char} (h : input ≠ []) :
    (splitLine input).2.length < input.length := by
  have hrest : input.dropWhile (· ≠ '\n') <:+ input := List.dropWhile_suffix _
  rw [splitLine]
  cases hdrop : input.dropWhile (· ≠ '\n') with
  | nil => exact List.length_pos_iff.mpr h
  | cons c rest =>
      rw [hdrop] at hrest
      exact hrest.length_le

/-- Reading takes the first line and leaves the others. -/
theorem splitLine_eq (text : List Char) : (splitLine text).1 = lineText ((lines text).headD []) ∧
    lines (splitLine text).2 = (lines text).tail := by
  by_cases hmem : '\n' ∈ text
  · -- the first line ends at the first newline
    obtain ⟨line, rest, rfl, hline⟩ := List.eq_append_cons_of_mem hmem
    rw [splitLine_append hline, lines_of_terminated hline, List.headD_cons, lineText_terminated]
    exact ⟨rfl, rfl⟩
  · rw [splitLine_of_unterminated hmem]
    cases text with
    | nil => exact ⟨rfl, rfl⟩
    | cons c rest =>
        rw [lines_of_unterminated hmem (List.cons_ne_nil _ _), List.headD_cons,
          lineText_of_unterminated hmem]
        exact ⟨rfl, rfl⟩

/-! ## Taking lines -/

/-- The text of the line at an index, which is empty where there is no line. -/
def nthLine (text : List Char) (i : Nat) : List Char :=
  lineText ((lines text)[i]?.getD [])

theorem nthLine_zero (text : List Char) : nthLine text 0 = (splitLine text).1 := by
  rw [(splitLine_eq text).1, nthLine, List.headD_eq_head?_getD, List.head?_eq_getElem?]

theorem nthLine_succ (text : List Char) (i : Nat) :
    nthLine text (i + 1) = nthLine (splitLine text).2 i := by
  rw [nthLine, nthLine, (splitLine_eq text).2, List.getElem?_tail]

/-- Some take the lines of a text, one after the other, and each one gets the text of its line. -/
inductive TakeInOrder {α : Type} (Gets : α → List Char → Prop) :
    List Char → List α → List Char → Prop
  | nil {text} : TakeInOrder Gets text [] text
  | cons {text taker takers rest} : Gets taker (splitLine text).1 →
      TakeInOrder Gets (splitLine text).2 takers rest →
        TakeInOrder Gets text (taker :: takers) rest

/-- What has become of a text of which some have taken lines. -/
structure TakenOnce {α : Type} (Gets : α → List Char → Prop) (text : List Char)
    (takers : List α) (rest : List Char) : Prop where
  /-- As many lines are taken as there are takers, the first ones; all of them if there are not so
  many. -/
  consumed : text = ((lines text).take takers.length).flatten ++ rest
  /-- The others are left. -/
  unread : lines rest = (lines text).drop takers.length
  /-- Each line is taken once, in order: the taker at an index gets the line at this index. -/
  each : ∀ i taker, takers[i]? = some taker → Gets taker (nthLine text i)

namespace TakeInOrder

variable {α β : Type} {Gets : α → List Char → Prop} {text rest : List Char}
  {takers : List α}

theorem append {between : List Char} {takers' : List α} (h : TakeInOrder Gets text takers between)
    (h' : TakeInOrder Gets between takers' rest) :
    TakeInOrder Gets text (takers ++ takers') rest := by
  induction h with
  | nil => exact h'
  | cons hgets _ ih => exact .cons hgets (ih h')

theorem map {Gets' : β → List Char → Prop} {f : α → β}
    (hf : ∀ taker line, Gets taker line → Gets' (f taker) line)
    (h : TakeInOrder Gets text takers rest) : TakeInOrder Gets' text (takers.map f) rest := by
  induction h with
  | nil => exact .nil
  | cons hgets _ ih => exact .cons (hf _ _ hgets) ih

theorem unread (h : TakeInOrder Gets text takers rest) :
    lines rest = (lines text).drop takers.length := by
  induction h with
  | nil => rfl
  | cons _ _ ih => rw [ih, (splitLine_eq _).2, List.length_cons, List.drop_tail]

theorem each (h : TakeInOrder Gets text takers rest) {i : Nat} {taker : α}
    (htaker : takers[i]? = some taker) : Gets taker (nthLine text i) := by
  induction h generalizing i with
  | nil => exact absurd htaker nofun
  | cons hgets _ ih =>
      cases i with
      | zero =>
          obtain rfl := Option.some.inj htaker
          rw [nthLine_zero]
          exact hgets
      | succ i =>
          rw [nthLine_succ]
          exact ih htaker

theorem takenOnce (h : TakeInOrder Gets text takers rest) : TakenOnce Gets text takers rest where
  consumed := by
    rw [← flatten_lines rest, h.unread, ← List.flatten_append, List.take_append_drop,
      flatten_lines]
  unread := h.unread
  each := fun _ _ => h.each

end TakeInOrder

end Console

end ExprLang
