import ExprLang.Proofs.Token.Elsewhere

/-!
# The tokens of the parts of a text

A text whose first part ends where a token may end has the tokens of that part and then those of
what is left (`Splits`). Signs and blanks end whatever is before them, unless that is a comment or a
string; what has no tokens at all is a gap.
-/

namespace ExprLang

/-- The tokens of a text, without their places. -/
def tokensOf (text : List Char) : List Token := (scan text).lexemes.map (·.token)

/-- The text ends where a token may end: not in a comment, and not in a string. -/
def Rested (text : List Char) : Prop := (Scanner.initial.run text).mode.Rests false

/-- The text ends between tokens. -/
def Closed (text : List Char) : Prop := (Scanner.initial.run text).mode = .idle

theorem Closed.rested {text : List Char} (h : Closed text) : Rested text := by
  rw [Rested, h]
  trivial

/-- A text has some tokens and then those of a text that is left. -/
structure Splits (text : List Char) (front : List Token) (rest : List Char) : Prop where
  tokens : tokensOf text = front ++ tokensOf rest
  stop : (scan text).stop? = none ↔ (scan rest).stop? = none

/-- Blanks and comments, each of which has come to its end. -/
inductive Gap : List Char → Prop
  | nil : Gap []
  | blank {c rest} : isBlank c = true → Gap rest → Gap (c :: rest)
  | comment {chars rest} : '\n' ∉ chars → Gap rest → Gap ('#' :: (chars ++ '\n' :: rest))

section
variable {text text' rest : List Char} {front front' : List Token} {c : Char}

theorem Splits.trans (h : Splits text front text') (h' : Splits text' front' rest) :
    Splits text (front ++ front') rest :=
  ⟨by rw [h.tokens, h'.tokens, List.append_assoc], h.stop.trans h'.stop⟩

/-- A text splits where it is cut. -/
theorem splits_of_cut (h : Cut text rest) : Splits (text ++ rest) (tokensOf text) rest := by
  -- the places are of no interest, so any two of them are related
  obtain ⟨lexemes, hlexemes, halike, hstop⟩ :=
    scan_append (R := fun _ _ => True) (fun _ _ _ _ => trivial) trivial h
  refine ⟨?_, hstop⟩
  rw [tokensOf, hlexemes, List.map_append, Lexeme.Alike.map_token halike]
  rfl

theorem splits_of_closed (h : Closed text) (rest : List Char) :
    Splits (text ++ rest) (tokensOf text) rest :=
  splits_of_cut (cut_of_idle h rest)

/-- A character of no name ends what is before it. -/
theorem Rested.cut (h : Rested text) (hc : isNameChar c = false) (rest : List Char) :
    Cut text (c :: rest) := by
  have hplace : (Scanner.initial.run text).place = Loc.start.after text :=
    (Scanner.placed_run text).place
  have hfound : (scan text).lexemes.reverse
      = (Scanner.initial.run text).mode.pending ++ (Scanner.initial.run text).found :=
    List.reverse_reverse _
  have hstep : (Scanner.initial.run text).step c = (Scanner.after text).step c := by
    rw [Scanner.after, hfound, ← hplace]
    exact Scanner.step_of_ends _ (h.step _ hc)
  simp only [Cut, Scanner.run, List.foldl_cons] at hstep ⊢
  rw [hstep]

theorem splits_of_rested (h : Rested text) (hc : isNameChar c = false) (rest : List Char) :
    Splits (text ++ c :: rest) (tokensOf text) (c :: rest) :=
  splits_of_cut (h.cut hc rest)

/-- A sign that follows a text. -/
theorem splits_sign (h : Rested text) (mark : Sign) (rest : List Char) :
    Splits (text ++ mark.char :: rest) (tokensOf text ++ [.sign mark]) rest := by
  have hname : isNameChar mark.char = false := by cases mark <;> decide
  have hclosed : Closed [mark.char] := by cases mark <;> rfl
  have htokens : tokensOf [mark.char] = [.sign mark] := by cases mark <;> rfl
  rw [← htokens]
  exact (splits_of_rested h hname rest).trans (splits_of_closed hclosed rest)

/-! ## Gaps -/

/-- A gap is scanned for nothing, and leaves nothing open. -/
theorem Gap.run {gap : List Char} (h : Gap gap) (place : Loc) (found : List Lexeme) :
    Scanner.run ⟨place, .idle, found⟩ gap = ⟨place.after gap, .idle, found⟩ := by
  induction h generalizing place with
  | nil => rfl
  | @blank c rest hc _ ih =>
      have hstep : Scanner.step ⟨place, .idle, found⟩ c = ⟨place.next c, .idle, found⟩ := by
        simp [Scanner.step, Mode.step_idle, Mode.start, hc]
      rw [Scanner.run, List.foldl_cons, hstep]
      exact ih _
  | @comment chars rest hchars _ ih =>
      rw [← List.cons_append, Scanner.run_append, Spells.run_comment hchars, Loc.after_append]
      exact ih _

theorem Gap.splits {gap : List Char} (h : Gap gap) (rest : List Char) :
    Splits (gap ++ rest) [] rest := by
  have hrun : Scanner.initial.run gap = ⟨Loc.start.after gap, .idle, []⟩ := h.run .start []
  have hclosed : Closed gap := by rw [Closed, hrun]
  have htokens : tokensOf gap = [] := by
    rw [tokensOf, scan, hrun]
    rfl
  exact htokens ▸ splits_of_closed hclosed rest

/-- A gap begins with a character of no name. -/
theorem Gap.head {gap : List Char} (h : Gap gap) : ∀ c ∈ gap.head?, isNameChar c = false := by
  intro c hmem
  cases h with
  | nil => exact nomatch hmem
  | @blank c _ hc _ =>
      obtain rfl := Option.some.inj hmem
      cases hname : isNameChar c with
      | false => rfl
      | true => exact absurd (hc.symm.trans (isBlank_of_isNameChar hname)) nofun
  | comment =>
      obtain rfl := Option.some.inj hmem
      decide

theorem gap_of_blanks {blanks : List Char} (h : ∀ c ∈ blanks, isBlank c = true) :
    Gap blanks := by
  induction blanks with
  | nil => exact .nil
  | cons c blanks ih =>
      obtain ⟨hc, hblanks⟩ := List.forall_mem_cons.mp h
      exact .blank hc (ih hblanks)

/-- A gap ends what is before it. -/
theorem splits_gap {gap : List Char} (h : Rested text) (hgap : Gap gap) (hne : gap ≠ [])
    (rest : List Char) : Splits (text ++ (gap ++ rest)) (tokensOf text) rest := by
  obtain ⟨c, chars, rfl⟩ := List.exists_cons_of_ne_nil hne
  have hsplits := (splits_of_rested h (hgap.head c rfl) (chars ++ rest)).trans (hgap.splits rest)
  rwa [List.append_nil] at hsplits

/-- A sign that follows a text, perhaps after a gap. -/
theorem splits_gap_sign {gap : List Char} (h : Rested text) (hgap : Gap gap) (mark : Sign)
    (rest : List Char) :
    Splits (text ++ (gap ++ mark.char :: rest)) (tokensOf text ++ [.sign mark]) rest := by
  have hsign : Splits (mark.char :: rest) [.sign mark] rest := @splits_sign [] trivial mark rest
  by_cases hne : gap = []
  · rw [hne]
    exact splits_sign h mark rest
  · exact (splits_gap h hgap hne _).trans hsign

end

end ExprLang
