import ExprLang.Proofs.Token.Spelling

/-!
# The places of tokens

Every token that a scan finds is spelled in the text at the place that it carries, and the text
before it scans as the tokens found before it (`scan_follows`, `scan_places`). Where a scan stops
short, the text before that character scans as all the tokens found, and neither a token nor a blank
nor a comment begins with the character (`scan_stops`).

The scanner keeps this for what it has found, and for the token that it is inside of, whose
characters are the last ones that it has looked at.
-/

namespace ExprLang

/-! ## Tokens in a text -/

/-- A token is spelled in a text at the place that it carries. -/
def Lexeme.IsIn (lexeme : Lexeme) (text : List Char) : Prop :=
  ∃ before after, text = before ++ lexeme.token.text.toList ++ after ∧
    lexeme.loc = Loc.start.after before

/-- A token is spelled in a text at the place that it carries, and these are the tokens before
it. -/
def Lexeme.Follows (lexeme : Lexeme) (earlier : List Lexeme) (text : List Char) : Prop :=
  ∃ before after, text = before ++ lexeme.token.text.toList ++ after ∧
    lexeme.loc = Loc.start.after before ∧ scan before = ⟨earlier, none⟩

namespace Lexeme.Follows

variable {lexeme : Lexeme} {earlier : List Lexeme} {text : List Char}

theorem isIn (h : lexeme.Follows earlier text) : lexeme.IsIn text := by
  obtain ⟨before, after, htext, hloc, -⟩ := h
  exact ⟨before, after, htext, hloc⟩

theorem append (h : lexeme.Follows earlier text) (rest : List Char) :
    lexeme.Follows earlier (text ++ rest) := by
  obtain ⟨before, after, rfl, hloc, hscan⟩ := h
  exact ⟨before, after ++ rest, List.append_assoc _ _ _, hloc, hscan⟩

end Lexeme.Follows

/-- Tokens, latest first, each of which is spelled in a text after those before it. -/
def Laid (text : List Char) (found : List Lexeme) : Prop :=
  ∀ lexeme earlier, lexeme :: earlier <:+ found → lexeme.Follows earlier.reverse text

namespace Laid

variable {text : List Char} {found : List Lexeme}

theorem nil : Laid text [] := fun _ _ h => absurd (List.suffix_nil.mp h) (List.cons_ne_nil _ _)

theorem cons {lexeme : Lexeme} (h : lexeme.Follows found.reverse text) (hfound : Laid text found) :
    Laid text (lexeme :: found) := by
  intro other earlier hsuffix
  obtain heq | hsuffix := List.suffix_cons_iff.mp hsuffix
  · obtain ⟨rfl, rfl⟩ := List.cons.inj heq
    exact h
  · exact hfound other earlier hsuffix

theorem append (h : Laid text found) (rest : List Char) : Laid (text ++ rest) found :=
  fun lexeme earlier hsuffix => (h lexeme earlier hsuffix).append rest

end Laid

/-! ## Spellings -/

/-- A run of name characters is the spelling of its token. -/
theorem Token.text_ofWord (word : String) : (Token.ofWord word).text = word := by
  unfold Token.ofWord
  split
  next reserved h =>
      have htext := List.find?_some h
      exact of_decide_eq_true htext
  next => rfl

theorem Sign.char_of_ofChar? {c : Char} {sign : Sign} (h : Sign.ofChar? c = some sign) :
    sign.char = c := by
  have hchar := List.find?_some h
  exact of_decide_eq_true hchar

theorem Sign.ofChar?_char (sign : Sign) : Sign.ofChar? sign.char = some sign := by
  cases sign <;> rfl

/-- A text that begins with something that the scanner knows: a blank, a comment or a token. -/
inductive Lexical : List Char → Prop
  | blank {c rest} : isBlank c = true → Lexical (c :: rest)
  | comment {rest} : Lexical ('#' :: rest)
  | sign {mark : Sign} {rest} : Lexical (mark.char :: rest)
  | word {c rest} : isNameChar c = true → c.isDigit = false → Lexical (c :: rest)
  | int {digits rest} : digits ≠ [] → (∀ c ∈ digits, c.isDigit = true) →
      (∀ c ∈ rest.head?, clingsToDigits c = false) → Lexical (digits ++ rest)
  | str {chars rest} : '"' ∉ chars → Lexical ('"' :: chars ++ '"' :: rest)

/-- What a text begins with, by its first character. -/
theorem Lexical.of_cons {text : List Char} {c : Char} {rest : List Char} (h : Lexical text)
    (htext : text = c :: rest) : isBlank c = true ∨ c = '#' ∨ (Sign.ofChar? c).isSome = true ∨
      (isNameChar c = true ∧ c.isDigit = false) ∨
      (c.isDigit = true ∧ ∃ digits after, digits ≠ [] ∧
        (∀ d ∈ digits, d.isDigit = true) ∧
        (∀ d ∈ after.head?, clingsToDigits d = false) ∧ c :: rest = digits ++ after) ∨
      (c = '"' ∧ '"' ∈ rest) := by
  cases h with
  | blank hblank =>
      obtain ⟨rfl, -⟩ := List.cons.inj htext
      exact .inl hblank
  | comment =>
      obtain ⟨rfl, -⟩ := List.cons.inj htext
      exact .inr (.inl rfl)
  | @sign mark =>
      obtain ⟨rfl, -⟩ := List.cons.inj htext
      exact .inr (.inr (.inl (by rw [mark.ofChar?_char]; rfl)))
  | word hname hdigit =>
      obtain ⟨rfl, -⟩ := List.cons.inj htext
      exact .inr (.inr (.inr (.inl ⟨hname, hdigit⟩)))
  | @int digits after hne hdigits hafter =>
      obtain ⟨first, more, rfl⟩ := List.exists_cons_of_ne_nil hne
      obtain ⟨rfl, -⟩ := List.cons.inj htext
      exact .inr
        (.inr (.inr (.inr (.inl ⟨hdigits _ List.mem_cons_self, _, after, hne, hdigits, hafter,
        htext.symm⟩))))
  | @str chars after _ =>
      obtain ⟨rfl, rfl⟩ := List.cons.inj htext
      exact .inr (.inr (.inr (.inr (.inr ⟨rfl, List.mem_append_right _ List.mem_cons_self⟩))))

/-- Nothing begins with a character that is of no class. -/
theorem not_lexical_of_start {c : Char} (hblank : isBlank c = false) (hcomment : c ≠ '#')
    (hquote : c ≠ '"') (hdigit : c.isDigit = false) (hname : isNameChar c = false)
    (hsign : Sign.ofChar? c = none) (rest : List Char) : ¬ Lexical (c :: rest) := by
  intro h
  obtain h | h | h | ⟨h, -⟩ | ⟨h, -⟩ | ⟨h, -⟩ := h.of_cons rfl
  · exact absurd (hblank.symm.trans h) nofun
  · exact hcomment h
  · rw [hsign] at h
    exact absurd h nofun
  · exact absurd (hname.symm.trans h) nofun
  · exact absurd (hdigit.symm.trans h) nofun
  · exact hquote h

/-- Nothing begins with a quote that is the last one. -/
theorem not_lexical_of_open {chars : List Char} (hopen : '"' ∉ chars) :
    ¬ Lexical ('"' :: chars) := by
  intro h
  obtain h | h | h | ⟨h, -⟩ | ⟨h, -⟩ | ⟨-, h⟩ := h.of_cons rfl
  · exact absurd h (by decide)
  · exact absurd h (by decide)
  · exact absurd h (by decide)
  · exact absurd h (by decide)
  · exact absurd h (by decide)
  · exact hopen h

theorem ofChar?_of_isDigit {c : Char} (h : c.isDigit = true) : Sign.ofChar? c = none := by
  cases hsign : Sign.ofChar? c with
  | none => rfl
  | some mark =>
      obtain rfl := Sign.char_of_ofChar? hsign
      cases mark <;> exact absurd h (by decide)

/-- Nothing begins where digits run into a character that clings to them. -/
theorem not_lexical_of_clinging {digits : List Char} {c : Char}
    (hdigits : ∀ d ∈ digits, d.isDigit = true) (hne : digits ≠ [])
    (hdigit : c.isDigit = false) (hclings : clingsToDigits c = true) (rest : List Char) :
    ¬ Lexical (digits ++ c :: rest) := by
  intro h
  obtain ⟨first, more, rfl⟩ := List.exists_cons_of_ne_nil hne
  have hfirst : first.isDigit = true := hdigits first List.mem_cons_self
  obtain h | rfl | h | ⟨-, h⟩ | ⟨-, run, after, hrunNe, hrun, hafter, hsplit⟩
      | ⟨rfl, -⟩ := h.of_cons rfl
  · exact absurd (isBlank_of_isNameChar (isNameChar_of_isDigit hfirst)) (by simp [h])
  · exact absurd hfirst (by decide)
  · exact absurd (ofChar?_of_isDigit hfirst) (Option.isSome_iff_ne_none.mp h)
  · exact absurd (hfirst.symm.trans h) nofun
  · -- a literal that ends earlier or later is followed by one of these digits, or holds `c`
    obtain ⟨middle, hlonger, hrest⟩ | ⟨middle, hshorter, hrest⟩ :=
      List.append_eq_append_iff.mp (show (first :: more) ++ c :: rest = run ++ after from hsplit)
    · cases middle with
      | nil =>
          obtain rfl : c :: rest = after := hrest
          exact absurd (hclings.symm.trans (hafter c rfl)) nofun
      | cons d middle =>
          obtain ⟨rfl, -⟩ := List.cons.inj hrest
          have hd : c.isDigit = true := hrun c (by simp [hlonger])
          exact absurd (hdigit.symm.trans hd) nofun
    · cases middle with
      | nil =>
          obtain rfl : after = c :: rest := hrest
          exact absurd (hclings.symm.trans (hafter c rfl)) nofun
      | cons d middle =>
          subst hrest
          have hd : d.isDigit = true := hdigits d (by simp [hshorter])
          exact absurd ((clingsToDigits_of_isDigit hd).symm.trans (hafter d rfl)) nofun
  · exact absurd hfirst (by decide)

namespace Mode

/-! ## Inside a token -/

/-- The token that the scanner is inside of ends the text that has been looked at, after the tokens
found so far; and where it has stopped, nothing begins. -/
def EndsText (text : List Char) (found : List Lexeme) : Mode → Prop
  | .word begun chars => ∃ before, text = before ++ chars.reverse ∧
      begun = Loc.start.after before ∧
      scan before = ⟨found.reverse, none⟩
  | .digits begun first more => ∃ before, text = before ++ first :: more.reverse ∧
      begun = Loc.start.after before ∧ scan before = ⟨found.reverse, none⟩ ∧
      ∀ c ∈ first :: more, c.isDigit = true
  | .string begun chars => ∃ before, text = before ++ '"' :: chars.reverse ∧
      begun = Loc.start.after before ∧ scan before = ⟨found.reverse, none⟩ ∧ '"' ∉ chars
  | .stopped c loc => ∃ before rest, text = before ++ c :: rest ∧
      loc = Loc.start.after before ∧
      scan before = ⟨found.reverse, none⟩ ∧ ∀ more, ¬ Lexical (c :: rest ++ more)
  | _ => True

/-- A token that is complete at the end of the text is spelled there. -/
theorem EndsText.pending {text : List Char} {found : List Lexeme} {mode : Mode}
    (h : mode.EndsText text found) (hfound : Laid text found) :
    Laid text (mode.pending ++ found) := by
  cases mode with
  | word begun chars =>
      obtain ⟨before, rfl, rfl, hscan⟩ := h
      refine .cons ⟨before, [], ?_, rfl, hscan⟩ hfound
      rw [Token.text_ofWord, String.toList_ofList, List.append_nil]
  | digits begun first more =>
      obtain ⟨before, rfl, rfl, hscan, -⟩ := h
      refine .cons ⟨before, [], ?_, rfl, hscan⟩ hfound
      rw [Token.text, String.toList_ofList, List.append_nil]
  | _ => exact hfound

/-- A character that begins something, after a text that scans to its end. -/
theorem start_endsText {text : List Char} {found : List Lexeme} (hfound : Laid text found)
    (hscan : scan text = ⟨found.reverse, none⟩) (c : Char) :
    (start (Loc.start.after text) c).1.EndsText (text ++ [c])
        ((start (Loc.start.after text) c).2 ++ found) ∧
      Laid (text ++ [c]) ((start (Loc.start.after text) c).2 ++ found) := by
  have hkept := hfound.append [c]
  unfold start
  split
  · exact ⟨trivial, hkept⟩
  split
  · exact ⟨trivial, hkept⟩
  split
  next hquote => exact ⟨⟨text, by rw [hquote]; rfl, rfl, hscan, List.not_mem_nil⟩, hkept⟩
  split
  next hdigit =>
    exact ⟨⟨text, rfl, rfl, hscan, List.forall_mem_singleton.mpr hdigit⟩, hkept⟩
  split
  · exact ⟨⟨text, rfl, rfl, hscan⟩, hkept⟩
  split
  next sign hsign =>
      refine ⟨trivial, .cons ⟨text, [], ?_, rfl, hscan⟩ hkept⟩
      rw [Token.text, Sign.char_of_ofChar? hsign, List.append_nil, Char.toString,
        String.toList_singleton]
  next hblank hcomment hquote hdigit hname _ hsign =>
      refine ⟨⟨text, [], rfl, rfl, hscan, fun more => ?_⟩, hkept⟩
      exact not_lexical_of_start (Bool.not_eq_true _ ▸ hblank) hcomment hquote
        (Bool.not_eq_true _ ▸ hdigit) (Bool.not_eq_true _ ▸ hname) hsign more

/-- One more character, after a text that is looked at up to here. -/
theorem EndsText.step {text : List Char} {found : List Lexeme} {mode : Mode}
    (h : mode.EndsText text found) (hfound : Laid text found)
    (hscan : mode.stop? = none → scan text = ⟨(mode.pending ++ found).reverse, none⟩)
    (c : Char) : (mode.step (Loc.start.after text) c).1.EndsText (text ++ [c])
        ((mode.step (Loc.start.after text) c).2 ++ found) ∧
      Laid (text ++ [c]) ((mode.step (Loc.start.after text) c).2 ++ found) := by
  have hkept := hfound.append [c]
  have hstart := start_endsText (h.pending hfound)
  -- a character is taken into the token or ends it; it then begins something else
  cases mode with
  | idle => exact hstart (hscan rfl) c
  | comment =>
      rw [Mode.step]
      split
      · exact ⟨trivial, hkept⟩
      · exact ⟨trivial, hkept⟩
  | word begun chars =>
      rw [Mode.step]
      split
      · obtain ⟨before, rfl, hbegun⟩ := h
        refine ⟨⟨before, ?_, hbegun⟩, hkept⟩
        rw [List.reverse_cons, List.append_assoc]
      · rw [List.append_assoc]
        exact hstart (hscan rfl) c
  | digits begun first more =>
      rw [Mode.step]
      split
      next hdigit =>
        obtain ⟨before, rfl, hbegun, hbefore, hdigits⟩ := h
        refine ⟨⟨before, ?_, hbegun, hbefore, ?_⟩, hkept⟩
        · rw [List.reverse_cons, List.append_assoc, List.cons_append]
        · simp only [List.forall_mem_cons] at hdigits ⊢
          exact ⟨hdigits.1, hdigit, hdigits.2⟩
      split
      next hdigit hclings =>
        obtain ⟨before, rfl, hbegun, hbefore, hdigits⟩ := h
        refine ⟨⟨before, more.reverse ++ [c], by simp, hbegun, hbefore, fun rest => ?_⟩,
          hkept⟩
        have hall : ∀ d ∈ first :: more.reverse, d.isDigit = true := by simpa using hdigits
        have := not_lexical_of_clinging hall (List.cons_ne_nil _ _) (Bool.not_eq_true _ ▸ hdigit)
          hclings rest
        simpa using this
      · rw [List.append_assoc]
        exact hstart (hscan rfl) c
  | string begun chars =>
      obtain ⟨before, rfl, hbegun, hbefore, hopen⟩ := h
      rw [Mode.step]
      split
      next hquote =>
          refine ⟨trivial, .cons ⟨before, [], ?_, hbegun, hbefore⟩ hkept⟩
          rw [Token.text, hquote, List.append_nil, List.append_assoc]
          simp only [String.toList_append, String.toList_ofList]
          rfl
      next hquote =>
          refine ⟨⟨before, ?_, hbegun, hbefore, ?_⟩, hkept⟩
          · rw [List.reverse_cons, List.append_assoc, List.cons_append]
          · exact List.not_mem_cons_of_ne_of_not_mem (Ne.symm hquote) hopen
  | stopped d loc =>
      obtain ⟨before, rest, rfl, hloc, hbefore, hnothing⟩ := h
      refine ⟨⟨before, rest ++ [c], by simp, hloc, hbefore, fun more => ?_⟩, hkept⟩
      simpa using hnothing (c :: more)

end Mode

/-! ## Whole scans -/

namespace Scanner

/-- The scanner knows its place, and what it has found and is inside of is in the text that has been
looked at. -/
structure Placed (text : List Char) (scanner : Scanner) : Prop where
  run : scanner = initial.run text
  place : scanner.place = Loc.start.after text
  mode : scanner.mode.EndsText text scanner.found
  found : Laid text scanner.found

theorem placed_initial : Placed [] initial := ⟨rfl, rfl, trivial, .nil⟩

theorem Placed.step {text : List Char} {scanner : Scanner} (h : Placed text scanner) (c : Char) :
    Placed (text ++ [c]) (scanner.step c) := by
  have hrun : scanner.step c = initial.run (text ++ [c]) := by
    rw [run_append, ← h.run]
    rfl
  have hscan : scanner.mode.stop? = none →
      scan text = ⟨(scanner.mode.pending ++ scanner.found).reverse, none⟩ := by
    intro hstop
    rw [scan, ← h.run, finish, hstop]
  obtain ⟨hmode, hfound⟩ := h.mode.step h.found hscan c
  rw [← h.place] at hmode hfound
  refine ⟨hrun, ?_, hmode, hfound⟩
  rw [Loc.after_append, ← h.place]
  rfl

/-- What the scanner keeps for a text, it keeps for every text. -/
theorem placed_run (text : List Char) : Placed text (initial.run text) := by
  suffices h : ∀ rest seen scanner, Placed seen scanner →
    Placed (seen ++ rest) (scanner.run rest)
    from h text [] initial placed_initial
  intro rest
  induction rest with
  | nil =>
      intro seen scanner h
      rwa [List.append_nil]
  | cons c rest ih =>
      intro seen scanner h
      rw [List.append_cons]
      exact ih _ _ (h.step c)

end Scanner

/-- The tokens of a scan are spelled in the text at the places that they carry, each after those
before it. -/
theorem scan_follows {text : List Char} {before after : List Lexeme} {lexeme : Lexeme}
    (h : (scan text).lexemes = before ++ lexeme :: after) : lexeme.Follows before text := by
  have hplaced := Scanner.placed_run text
  have hlaid := hplaced.mode.pending hplaced.found
  have hsuffix : lexeme :: before.reverse <:+
      (Scanner.initial.run text).mode.pending ++ (Scanner.initial.run text).found := by
    rw [← List.reverse_prefix]
    refine ⟨after, ?_⟩
    rw [List.reverse_cons, List.reverse_reverse, List.append_assoc]
    exact h.symm
  have hfollows := hlaid lexeme before.reverse hsuffix
  rwa [List.reverse_reverse] at hfollows

/-- Every token of a scan is spelled in the text at the place that it carries. -/
theorem scan_places (text : List Char) : ∀ lexeme ∈ (scan text).lexemes, lexeme.IsIn text := by
  intro lexeme hmem
  obtain ⟨before, after, hsplit⟩ := List.append_of_mem hmem
  exact (scan_follows hsplit).isIn

/-- Where a scan stops, the text before has been scanned to its end, and nothing begins. -/
theorem scan_stops {text : List Char} {c : Char} {loc : Loc}
    (h : (scan text).stop? = some (c, loc)) :
    ∃ before rest, text = before ++ c :: rest ∧ loc = Loc.start.after before ∧
      scan before = ⟨(scan text).lexemes, none⟩ ∧ ¬ Lexical (c :: rest) := by
  have hplaced := Scanner.placed_run text
  have hmode := hplaced.mode
  have hstop : (Scanner.initial.run text).mode.stop? = some (c, loc) := h
  have hlexemes : (scan text).lexemes = ((Scanner.initial.run text).mode.pending ++
      (Scanner.initial.run text).found).reverse := rfl
  cases hmodeEq : (Scanner.initial.run text).mode with
  | string begun chars =>
      rw [hmodeEq] at hmode hstop hlexemes
      obtain ⟨before, htext, hbegun, hbefore, hopen⟩ := hmode
      obtain ⟨rfl, rfl⟩ := Prod.mk.inj (Option.some.inj hstop)
      refine ⟨before, chars.reverse, htext, hbegun, hbefore.trans (by rw [hlexemes]; rfl), ?_⟩
      exact not_lexical_of_open fun hmem => hopen (List.mem_reverse.mp hmem)
  | stopped d place =>
      rw [hmodeEq] at hmode hstop hlexemes
      obtain ⟨before, rest, htext, hloc, hbefore, hnothing⟩ := hmode
      obtain ⟨rfl, rfl⟩ := Prod.mk.inj (Option.some.inj hstop)
      refine ⟨before, rest, htext, hloc, hbefore.trans (by rw [hlexemes]; rfl), ?_⟩
      simpa using hnothing []
  | _ =>
      rw [hmodeEq] at hstop
      exact absurd hstop nofun

end ExprLang
