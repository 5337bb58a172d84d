import ExprLang.Proofs.Token.Literal
import ExprLang.Token.Scan

/-!
# Texts that spell tokens

`Spells closed text tokens`: between tokens, the scanner reads the text as exactly these tokens, and
at its end it is between tokens again (`closed`) or in a word or literal that the text ends with.
Such texts can be joined wherever no two name characters meet (`Spells.append`, `Spells.before`), so
the spelling of a long text is put together from those of its parts.
-/

namespace ExprLang

/-! ## Classes of characters -/

theorem isNameChar_of_clingsToDigits {c : Char} (h : clingsToDigits c = true) :
    isNameChar c = true := by
  simp only [clingsToDigits, isNameChar, Bool.or_eq_true, decide_eq_true_eq] at h ⊢
  rcases h with h | rfl
  · exact .inl h
  · exact .inr (by decide)

theorem isNameChar_of_isDigit {c : Char} (h : c.isDigit = true) : isNameChar c = true := by
  simp [isNameChar, Char.isAlphanum, h]

theorem clingsToDigits_of_isDigit {c : Char} (h : c.isDigit = true) : clingsToDigits c = true := by
  simp [clingsToDigits, Char.isAlphanum, h]

theorem ne_of_isNameChar {c d : Char} (h : isNameChar c = true) (hd : isNameChar d = false) :
    c ≠ d := by
  rintro rfl
  exact absurd (h.symm.trans hd) nofun

theorem isBlank_of_isNameChar {c : Char} (h : isNameChar c = true) : isBlank c = false := by
  have hne : ∀ d, isNameChar d = false → c ≠ d := fun _ => ne_of_isNameChar h
  simp [isBlank, hne ' ' (by decide), hne '\t' (by decide), hne '\x0c' (by decide),
    hne '\r' (by decide), hne '\n' (by decide)]

/-- A name character begins nothing but a word or a literal. -/
theorem start_of_isNameChar {c : Char} (place : Loc) (h : isNameChar c = true) :
    Mode.start place c
      = if c.isDigit then (.digits place c [], []) else (.word place [c], []) := by
  have hcomment : c ≠ '#' := ne_of_isNameChar h (by decide)
  have hquote : c ≠ '"' := ne_of_isNameChar h (by decide)
  simp [Mode.start, isBlank_of_isNameChar h, hcomment, hquote, h]

/-! ## Where a text may end -/

namespace Mode

theorem step_idle (place : Loc) (c : Char) : Mode.idle.step place c = start place c := rfl

/-- A mode in which a text may end: between tokens, or in a token that needs no delimiter. -/
def Rests (closed : Bool) : Mode → Prop
  | .idle => True
  | .word .. | .digits .. => closed = false
  | _ => False

theorem Rests.eq_idle {mode : Mode} (h : mode.Rests true) : mode = .idle := by
  cases mode <;> simp_all [Rests]

theorem Rests.weaken {closed : Bool} {mode : Mode} (h : mode.Rests closed) : mode.Rests false := by
  cases mode <;> simp_all [Rests]

/-- A character of no name ends the token before it, and is then taken as if between tokens. -/
theorem Rests.step {closed : Bool} {mode : Mode} {c : Char} (h : mode.Rests closed) (place : Loc)
    (hc : isNameChar c = false) :
    mode.step place c = ((start place c).1, (start place c).2 ++ mode.pending) := by
  have hdigit : c.isDigit = false := by
    cases hd : c.isDigit with
    | false => rfl
    | true => simp [isNameChar_of_isDigit hd] at hc
  have hclings : clingsToDigits c = false := by
    cases hd : clingsToDigits c with
    | false => rfl
    | true => simp [isNameChar_of_clingsToDigits hd] at hc
  cases mode with
  | idle => simp [Mode.step, pending]
  | word begun chars => simp [Mode.step, hc]
  | digits begun first more => simp [Mode.step, hdigit, hclings]
  | comment | string | stopped => exact h.elim

end Mode

/-- A character that ends what the scanner is inside of is taken as if between tokens. -/
theorem Scanner.step_of_ends {mode : Mode} {place : Loc} {c : Char} (found : List Lexeme)
    (h : mode.step place c = ((Mode.start place c).1, (Mode.start place c).2 ++ mode.pending)) :
    step ⟨place, mode, found⟩ c = step ⟨place, .idle, mode.pending ++ found⟩ c := by
  simp only [step, h, Mode.step_idle, List.append_assoc]

/-! ## Spelling -/

/-- Read between tokens, the text is these tokens, all of them readable. -/
def Spells (closed : Bool) (text : List Char) (tokens : List Token) : Prop :=
  (∀ token ∈ tokens, token.Readable) ∧
    ∀ place found, ∃ mode lexemes,
      Scanner.run ⟨place, .idle, found⟩ text
        = ⟨place.after text, mode, lexemes ++ found⟩ ∧
        mode.Rests closed ∧ (mode.pending ++ lexemes).reverse.map (·.token) = tokens

namespace Spells

variable {closed closed' : Bool} {text text' : List Char} {tokens tokens' : List Token} {c : Char}

theorem weaken (h : Spells closed text tokens) : Spells false text tokens := by
  refine ⟨h.1, fun place found => ?_⟩
  obtain ⟨mode, lexemes, hrun, hrests, htokens⟩ := h.2 place found
  exact ⟨mode, lexemes, hrun, hrests.weaken, htokens⟩

theorem nil : Spells true [] [] :=
  ⟨fun _ hmem => absurd hmem List.not_mem_nil, fun _ _ => ⟨.idle, [], rfl, trivial, rfl⟩⟩

/-- The parts of two texts, the first of which has been left in a mode where it may end. -/
theorem join (h : Spells closed text tokens) (h' : Spells closed' text' tokens')
    (hleft : ∀ place mode found, mode.Rests closed →
      Scanner.run ⟨place, mode, found⟩ text'
        = Scanner.run ⟨place, .idle, mode.pending ++ found⟩ text') :
    Spells closed' (text ++ text') (tokens ++ tokens') := by
  refine ⟨List.forall_mem_append.mpr ⟨h.1, h'.1⟩, fun place found => ?_⟩
  obtain ⟨mode, lexemes, hrun, hrests, rfl⟩ := h.2 place found
  obtain ⟨mode', lexemes', hrun', hrests', rfl⟩ :=
    h'.2 (place.after text) (mode.pending ++ (lexemes ++ found))
  refine ⟨mode', lexemes' ++ (mode.pending ++ lexemes), ?_, hrests', ?_⟩
  · rw [Scanner.run_append, hrun, hleft _ _ _ hrests, hrun', Loc.after_append]
    simp only [List.append_assoc]
  · simp only [List.reverse_append, List.map_append, List.append_assoc]

/-- After a text that ends between tokens any text may follow. -/
theorem append (h : Spells true text tokens) (h' : Spells closed text' tokens') :
    Spells closed (text ++ text') (tokens ++ tokens') := by
  refine h.join h' fun place mode found hrests => ?_
  rw [hrests.eq_idle]
  rfl

/-- After any text a text may follow that begins with a character of no name. -/
theorem before (h : Spells closed text tokens) (hc : isNameChar c = false)
    (h' : Spells closed' (c :: text') tokens') :
    Spells closed' (text ++ c :: text') (tokens ++ tokens') := by
  refine h.join h' fun place mode found hrests => ?_
  -- the first character ends whatever the first text ends in
  rw [Scanner.run, Scanner.run, List.foldl_cons, List.foldl_cons,
    Scanner.step_of_ends found (hrests.step place hc)]

/-! ### Single tokens -/

theorem blank (hc : isBlank c = true) : Spells true [c] [] := by
  refine ⟨fun _ hmem => absurd hmem List.not_mem_nil, fun place found =>
    ⟨.idle, [], ?_, trivial, rfl⟩⟩
  simp [Scanner.run, Scanner.step, Mode.step_idle, Mode.start, hc]

theorem sign (mark : Sign) : Spells true [mark.char] [.sign mark] := by
  refine ⟨List.forall_mem_singleton.mpr (Token.readable_of_digits rfl), fun place found => ?_⟩
  refine ⟨.idle, [⟨.sign mark, place⟩], ?_, trivial, rfl⟩
  have hstart : Mode.start place mark.char = (.idle, [⟨.sign mark, place⟩]) := by
    cases mark <;> rfl
  simp [Scanner.run, Scanner.step, Mode.step_idle, hstart]

/-- A stretch of characters that all go on with the token that the scanner is inside of. -/
theorem run_stretch (advance : List Char → Mode) (admits : Char → Prop)
    (hstep : ∀ place chars c, admits c →
      (advance chars).step place c = (advance (c :: chars), []))
    {text : List Char} (htext : ∀ c ∈ text, admits c) (place : Loc) (chars : List Char)
    (found : List Lexeme) :
    Scanner.run ⟨place, advance chars, found⟩ text
      = ⟨place.after text, advance (text.reverse ++ chars), found⟩ := by
  induction text generalizing place chars with
  | nil => rfl
  | cons c text ih =>
      have hc := hstep place chars c (htext c List.mem_cons_self)
      have hrest := ih (fun d hmem => htext d (List.mem_cons_of_mem _ hmem)) (place.next c)
        (c :: chars)
      simp only [Scanner.run, List.foldl_cons, Scanner.step, hc, List.nil_append, Loc.after_cons]
        at hrest ⊢
      rw [hrest, List.reverse_cons, List.append_assoc, List.singleton_append]

/-- A run of name characters that does not start with a digit begins a word. -/
theorem run_word (hc : isNameChar c = true) (hdigit : c.isDigit = false)
    (htext : ∀ d ∈ text, isNameChar d = true) (place : Loc) (found : List Lexeme) :
    Scanner.run ⟨place, .idle, found⟩ (c :: text)
      = ⟨place.after (c :: text), .word place (text.reverse ++ [c]), found⟩ := by
  have hrun := run_stretch (.word place) (isNameChar · = true)
    (fun _ _ _ h => by simp [Mode.step, h]) htext (place.next c) [c] found
  simpa [Scanner.run, Scanner.step, Mode.step_idle, start_of_isNameChar place hc, hdigit] using hrun

/-- A run of name characters that does not start with a digit is a word. -/
theorem word (hc : isNameChar c = true) (hdigit : c.isDigit = false)
    (htext : ∀ d ∈ text, isNameChar d = true) :
    Spells false (c :: text) [.ofWord (String.ofList (c :: text))] := by
  have hreadable : (Token.ofWord (String.ofList (c :: text))).Readable := by
    refine Token.readable_of_digits ?_
    unfold Token.ofWord
    split <;> rfl
  refine ⟨List.forall_mem_singleton.mpr hreadable, fun place found => ?_⟩
  refine ⟨.word place (text.reverse ++ [c]), [], run_word hc hdigit htext place found, rfl, ?_⟩
  simp [Mode.pending]

/-- A run of digits begins a literal, however long it is. -/
theorem run_digits (hc : c.isDigit = true) (htext : ∀ d ∈ text, d.isDigit = true) (place : Loc)
    (found : List Lexeme) :
    Scanner.run ⟨place, .idle, found⟩ (c :: text)
      = ⟨place.after (c :: text), .digits place c text.reverse, found⟩ := by
  have hrun := run_stretch (.digits place c) (·.isDigit = true)
    (fun _ _ _ h => by simp [Mode.step, h]) htext (place.next c) [] found
  simpa [Scanner.run, Scanner.step, Mode.step_idle,
    start_of_isNameChar place (isNameChar_of_isDigit hc), hc] using hrun

/-- A run of digits with a readable value is a literal. -/
theorem digits (hc : c.isDigit = true) (htext : ∀ d ∈ text, d.isDigit = true)
    (hreadable : (Token.int (String.ofList (c :: text))).Readable) :
    Spells false (c :: text) [.int (String.ofList (c :: text))] := by
  refine ⟨List.forall_mem_singleton.mpr hreadable, fun place found => ?_⟩
  refine ⟨.digits place c text.reverse, [], run_digits hc htext place found, rfl, ?_⟩
  simp [Mode.pending]

/-- A quote and no other begin a string literal. -/
theorem run_string (htext : '"' ∉ text) (place : Loc) (found : List Lexeme) :
    Scanner.run ⟨place, .idle, found⟩ ('"' :: text)
      = ⟨place.after ('"' :: text), .string place text.reverse, found⟩ := by
  have hrun := run_stretch (.string place) (· ≠ '"')
    (fun _ _ _ h => by simp [Mode.step, h]) (fun d hmem heq => htext (heq ▸ hmem))
    (place.next '"') [] found
  rw [List.append_nil] at hrun
  exact hrun

/-- A text without quotes is a string literal between two quotes. -/
theorem string (htext : '"' ∉ text) :
    Spells true ('"' :: text ++ ['"']) [.str (String.ofList text)] := by
  refine ⟨List.forall_mem_singleton.mpr (Token.readable_of_digits rfl), fun place found => ?_⟩
  refine ⟨.idle, [⟨.str (String.ofList text), place⟩], ?_, trivial, rfl⟩
  rw [Scanner.run_append, run_string htext]
  simp [Scanner.run, Scanner.step, Mode.step, Loc.after_append]

/-- The sign of a comment begins one, which goes on to the end of the line. -/
theorem run_comment (htext : '\n' ∉ text) (place : Loc) (found : List Lexeme) :
    Scanner.run ⟨place, .idle, found⟩ ('#' :: text)
      = ⟨place.after ('#' :: text), .comment, found⟩ :=
  run_stretch (fun _ => .comment) (· ≠ '\n') (fun _ _ _ h => by simp [Mode.step, h])
    (fun _ hmem heq => htext (heq ▸ hmem)) (place.next '#') [] found

/-! ### Texts from the front -/

theorem blank_cons (hc : isBlank c = true) (h : Spells closed text tokens) :
    Spells closed (c :: text) tokens :=
  (blank hc).append h

theorem sign_cons (mark : Sign) (h : Spells closed text tokens) :
    Spells closed (mark.char :: text) (.sign mark :: tokens) :=
  (sign mark).append h

end Spells

/-! ## Whole texts -/

/-- A text that spells tokens scans as them. -/
theorem scan_of_spells {closed : Bool} {text : List Char} {tokens : List Token}
    (h : Spells closed text tokens) :
    (scan text).stop? = none ∧ (scan text).lexemes.map (·.token) = tokens := by
  obtain ⟨mode, lexemes, hrun, hrests, rfl⟩ := h.2 .start []
  have hscan : scan text = ⟨(mode.pending ++ lexemes).reverse, mode.stop?⟩ := by
    rw [scan, Scanner.initial, hrun, List.append_nil, Scanner.finish]
  rw [hscan]
  refine ⟨?_, rfl⟩
  cases mode with
  | idle | word | digits => rfl
  | comment | string | stopped => exact hrests.elim

/-- Digits alone are one literal, however many there are. -/
theorem scan_digits {c : Char} {text : List Char} (hc : c.isDigit = true)
    (htext : ∀ d ∈ text, d.isDigit = true) :
    scan (c :: text) = ⟨[⟨.int (String.ofList (c :: text)), .start⟩], none⟩ := by
  rw [scan, Scanner.initial, Spells.run_digits hc htext]
  simp [Scanner.finish, Mode.pending, Mode.stop?]

end ExprLang
