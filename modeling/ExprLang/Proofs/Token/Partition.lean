import Mathlib.Data.List.TakeWhile
import ExprLang.Proofs.Reader.Viability
import ExprLang.Proofs.Token.Formed
import ExprLang.Proofs.Token.Parts

/-!
# Gaps and tokens in turn

A source text is gaps and tokens in turn, up to its end or up to a character at which nothing begins
(`exists_divided`). How it is divided is said of its characters alone: what a token is, and where it
ends (`Token.Stands`). The scanner finds exactly the tokens of such a division (`Divided.run`), so
that there is no other one, and the place where a scan stops is the one where the division ends
(`scan_partitions`).

Tokens that are written with one blank between any two of them are divided at these blanks, whatever
they are.
-/

namespace ExprLang

/-! ## Tokens where they stand -/

/-- The words that are no names. -/
def reservedWords : List String := ["let", "if", "else", "while", "fn", "true", "false", "null"]

/-- A token in front of the rest of a text: words go on as far as name characters do, and nothing
clings to an integer literal. -/
def Token.Stands (rest : List Char) (token : Token) : Prop :=
  token.Formed ∧
    match token with
    | .keyword word => word.text ∈ reservedWords ∧ ∀ c ∈ rest.head?, isNameChar c = false
    | .name text => text ∉ reservedWords ∧ ∀ c ∈ rest.head?, isNameChar c = false
    | .int _ => ∀ c ∈ rest.head?, clingsToDigits c = false
    | .str _ | .sign _ => True

/-- A text that begins at a place and has `rest` behind it is gaps and tokens in turn. -/
inductive Divided (rest : List Char) : Loc → List Char → List Lexeme → Prop
  | gap {place gap} : Gap gap → Divided rest place gap []
  | token {place gap text token lexemes} : Gap gap → Token.Stands (text ++ rest) token →
      Divided rest (place.after (gap ++ token.text.toList)) text lexemes →
      Divided rest place (gap ++ (token.text.toList ++ text))
        (⟨token, place.after gap⟩ :: lexemes)

/-- What may stand behind the last gap: a comment that no newline ends. -/
inductive LastComment : List Char → Prop
  | absent : LastComment []
  | comment {chars} : '\n' ∉ chars → LastComment ('#' :: chars)

theorem Keyword.ofText?_eq_none_iff {text : String} :
    Keyword.ofText? text = none ↔ text ∉ reservedWords := by
  have hall : reservedWords = Keyword.all.map Keyword.text := rfl
  rw [hall, Keyword.ofText?, List.find?_eq_none]
  simp

theorem Keyword.text_mem (word : Keyword) : word.text ∈ reservedWords := by
  cases word <;> decide

theorem Token.Formed.stands {token : Token} {rest : List Char} (h : token.Formed)
    (hrest : ∀ c ∈ rest.head?, isNameChar c = false) : token.Stands rest := by
  refine ⟨h, ?_⟩
  cases token with
  | keyword word => exact ⟨word.text_mem, hrest⟩
  | name text => exact ⟨Keyword.ofText?_eq_none_iff.mp h.2, hrest⟩
  | int digits =>
      intro c hc
      cases hclings : clingsToDigits c with
      | false => rfl
      | true => exact absurd ((isNameChar_of_clingsToDigits hclings).symm.trans (hrest c hc)) nofun
  | str | sign => trivial

/-- A run of name characters that goes on as far as it can. -/
theorem Token.stands_ofWord {c : Char} {more rest : List Char} (hc : isNameChar c = true)
    (hdigit : c.isDigit = false) (hmore : ∀ d ∈ more, isNameChar d = true)
    (hrest : ∀ d ∈ rest.head?, isNameChar d = false) :
    (Token.ofWord (String.ofList (c :: more))).Stands rest :=
  (Token.formed_ofWord hc hdigit hmore).stands hrest

/-- A text that begins with something, but with no gap, begins with a token. -/
theorem Lexical.exists_token {c : Char} {more : List Char} (h : Lexical (c :: more))
    (hblank : isBlank c = false) (hcomment : c ≠ '#') : ∃ (token : Token) (rest : List Char),
      c :: more = token.text.toList ++ rest ∧ token.Stands rest ∧
        rest.length < (c :: more).length := by
  obtain hstart | hstart | hsign | ⟨hname, hdigit⟩ |
    ⟨-, digits, rest, hne, hdigits, hrest, hsplit⟩ | ⟨rfl, hquote⟩ := h.of_cons rfl
  · exact absurd (hblank.symm.trans hstart) nofun
  · exact absurd hstart hcomment
  · obtain ⟨mark, hmark⟩ := Option.isSome_iff_exists.mp hsign
    refine ⟨.sign mark, more, ?_, ⟨trivial, trivial⟩, Nat.lt_succ_self _⟩
    simp [Token.text, Sign.char_of_ofChar? hmark]
  · refine ⟨.ofWord (String.ofList (c :: more.takeWhile isNameChar)),
      more.dropWhile isNameChar, ?_,
      Token.stands_ofWord hname hdigit (fun d hmem => List.mem_takeWhile_imp hmem) ?_, ?_⟩
    · rw [Token.text_ofWord, String.toList_ofList, List.cons_append,
        List.takeWhile_append_dropWhile]
    · intro d hd
      have := List.head?_dropWhile_not isNameChar more
      rw [Option.mem_def.mp hd] at this
      simpa using this
    · exact Nat.lt_succ_of_le (List.dropWhile_suffix _).length_le
  · refine ⟨.int (String.ofList digits), rest, ?_, ⟨?_, hrest⟩, ?_⟩
    · rw [hsplit, Token.text, String.toList_ofList]
    · rw [Token.Formed, String.toList_ofList]
      exact ⟨hne, hdigits⟩
    · rw [hsplit, List.length_append]
      exact Nat.lt_add_of_pos_left (List.length_pos_iff.mpr hne)
  · obtain ⟨chars, rest, rfl, hchars⟩ := List.eq_append_cons_of_mem hquote
    refine ⟨.str (String.ofList chars), rest, ?_, ⟨?_, trivial⟩, ?_⟩
    · simp [Token.text]
    · rwa [Token.Formed, String.toList_ofList]
    · simp
      omega

/-! ## Texts in gaps and tokens -/

theorem Gap.append {gap more : List Char} (h : Gap gap) (hmore : Gap more) : Gap (gap ++ more) := by
  induction h with
  | nil => exact hmore
  | blank hc _ ih => exact .blank hc ih
  | comment hchars _ ih =>
      rw [List.cons_append, List.append_assoc]
      exact .comment hchars ih

/-- A gap before a text is one with the gap that the text begins with. -/
theorem Divided.behind_gap {rest gap text : List Char} {place : Loc} {lexemes : List Lexeme}
    (hgap : Gap gap) (h : Divided rest (place.after gap) text lexemes) :
    Divided rest place (gap ++ text) lexemes := by
  cases h with
  | gap hfirst => exact .gap (hgap.append hfirst)
  | @token _ first text token lexemes hfirst hstands hdivided =>
      rw [← Loc.after_append, ← List.append_assoc] at hdivided
      have h := Divided.token (hgap.append hfirst) hstands hdivided
      rwa [List.append_assoc, Loc.after_append] at h

/-- What a text begins with: a gap, a token, a comment without an end, or nothing. -/
theorem begins_cases (c : Char) (more : List Char) :
    (∃ gap rest : List Char, c :: more = gap ++ rest ∧ Gap gap ∧
      rest.length < (c :: more).length) ∨
    (∃ (token : Token) (rest : List Char), c :: more = token.text.toList ++ rest ∧
      token.Stands rest ∧
      rest.length < (c :: more).length) ∨
    LastComment (c :: more) ∨ ¬ Lexical (c :: more) := by
  by_cases hlexical : Lexical (c :: more)
  · cases hblank : isBlank c with
    | true => exact .inl ⟨[c], more, rfl, .blank hblank .nil, Nat.lt_succ_self _⟩
    | false =>
        by_cases hcomment : c = '#'
        · subst hcomment
          by_cases hnewline : '\n' ∈ more
          · obtain ⟨chars, rest, rfl, hchars⟩ := List.eq_append_cons_of_mem hnewline
            refine .inl ⟨'#' :: (chars ++ ['\n']), rest, by simp, .comment hchars .nil, ?_⟩
            simp only [List.length_cons, List.length_append]
            omega
          · exact .inr (.inr (.inl (.comment hnewline)))
        · exact .inr (.inl (hlexical.exists_token hblank hcomment))
  · exact .inr (.inr (.inr hlexical))

/-- Every text is gaps and tokens in turn, up to its end or to a character at which nothing
begins. -/
theorem exists_divided (text : List Char) (place : Loc) : ∃ front rest lexemes,
    text = front ++ rest ∧ Divided rest place front lexemes ∧
      (LastComment rest ∨ ∃ c more, rest = c :: more ∧ ¬ Lexical (c :: more)) := by
  induction hlength : text.length using Nat.strong_induction_on generalizing text place with
  | _ length ih =>
    subst hlength
    cases text with
    | nil => exact ⟨[], [], [], rfl, .gap .nil, .inl .absent⟩
    | cons c more =>
      obtain ⟨gap, behind, htext, hgap, hshorter⟩
        | ⟨token, behind, htext, hstands, hshorter⟩ |
        hlast | hnothing := begins_cases c more
      · obtain ⟨front, rest, lexemes, rfl, hdivided, hrest⟩ :=
          ih _ hshorter behind (place.after gap) rfl
        exact ⟨gap ++ front, rest,
          lexemes, by rw [htext, List.append_assoc], hdivided.behind_gap hgap,
          hrest⟩
      · obtain ⟨front, rest, lexemes, rfl, hdivided, hrest⟩ :=
          ih _ hshorter behind (place.after token.text.toList) rfl
        exact ⟨token.text.toList ++ front, rest, ⟨token, place⟩ :: lexemes,
          by rw [htext, List.append_assoc], .token .nil hstands hdivided, hrest⟩
      · exact ⟨[], c :: more, [], rfl, .gap .nil, .inl hlast⟩
      · exact ⟨[], c :: more, [], rfl, .gap .nil, .inr ⟨c, more, rfl, hnothing⟩⟩

/-! ## The scan of a division -/

section
variable {c : Char} {more rest : List Char}

/-- A mode that leaves nothing open is left at the next character, and at the end. -/
theorem Scanner.finish_of_pending {mode : Mode} {place : Loc} (found : List Lexeme)
    (hstop : mode.stop? = none) (hstep : ∀ c ∈ rest.head?,
      mode.step place c = ((Mode.start place c).1, (Mode.start place c).2 ++ mode.pending)) :
    (run ⟨place, mode, found⟩ rest).finish
      = (run ⟨place, .idle, mode.pending ++ found⟩ rest).finish := by
  cases rest with
  | nil =>
      show (⟨_, mode.stop?⟩ : Scan) = ⟨_, none⟩
      rw [hstop]
      rfl
  | cons c rest =>
      rw [run, run, List.foldl_cons, List.foldl_cons, step_of_ends found (hstep c rfl)]

/-- A word in front of a text that does not go on with it. -/
theorem run_ofWord (hc : isNameChar c = true) (hdigit : c.isDigit = false)
    (hmore : ∀ d ∈ more, isNameChar d = true)
    (hrest : ∀ d ∈ rest.head?, isNameChar d = false) (place : Loc) (found : List Lexeme) :
    (Scanner.run ⟨place, .idle, found⟩ (c :: more ++ rest)).finish
      = (Scanner.run ⟨place.after (c :: more), .idle,
          ⟨.ofWord (String.ofList (c :: more)), place⟩ :: found⟩ rest).finish := by
  rw [Scanner.run_append, Spells.run_word hc hdigit hmore, Scanner.finish_of_pending found rfl]
  · simp [Mode.pending]
  · intro d hd
    simp [Mode.step, hrest d hd]

/-- A token is found where it stands, and then what is behind it is scanned as if it came first. -/
theorem Token.Stands.run {token : Token} (h : token.Stands rest) (place : Loc)
    (found : List Lexeme) :
    (Scanner.run ⟨place, .idle, found⟩ (token.text.toList ++ rest)).finish
      = (Scanner.run ⟨place.after token.text.toList, .idle, ⟨token, place⟩ :: found⟩
        rest).finish := by
  obtain ⟨hformed, hends⟩ := h
  cases token with
  | keyword word =>
      obtain ⟨c, chars, htext, hc, hdigit, hchars⟩ := word.exists_chars
      have hrun := run_ofWord hc hdigit hchars hends.2 place found
      rwa [← htext, Token.ofWord_keyword, ← String.toList_ofList (l := c :: chars),
        ← htext] at hrun
  | name text =>
      obtain ⟨⟨c, chars, rfl, hc, hdigit, hchars⟩, hreserved⟩ := hformed
      have hrun := run_ofWord hc hdigit hchars hends.2 place found
      rw [Token.ofWord, hreserved] at hrun
      rwa [Token.text, String.toList_ofList]
  | int digits =>
      obtain ⟨hne, hdigits⟩ := hformed
      obtain ⟨c, chars, htext⟩ := List.exists_cons_of_ne_nil hne
      obtain rfl : digits = String.ofList (c :: chars) := by rw [← htext, String.ofList_toList]
      rw [htext] at hdigits
      obtain ⟨hc, hchars⟩ := List.forall_mem_cons.mp hdigits
      rw [Token.text, htext, Scanner.run_append, Spells.run_digits hc hchars,
        Scanner.finish_of_pending found rfl]
      · simp [Mode.pending]
      · intro d hd
        have hclings : clingsToDigits d = false := hends d hd
        have hdigit : d.isDigit = false := by
          cases hdigit : d.isDigit with
          | false => rfl
          | true => simp [clingsToDigits_of_isDigit hdigit] at hclings
        simp [Mode.step, hclings, hdigit]
  | str text =>
      have htext : (Token.str text).text.toList = ('"' :: text.toList) ++ ['"'] := by
        simp [Token.text]
      rw [htext, Scanner.run_append, Scanner.run_append, Spells.run_string hformed]
      simp [Scanner.run, Scanner.step, Mode.step, Loc.after_append]
  | sign mark =>
      have hstart : Mode.start place mark.char = (.idle, [⟨.sign mark, place⟩]) := by
        cases mark <;> rfl
      simp [Token.text, Scanner.run, Scanner.step, Mode.step_idle, hstart]

/-- The scan of gaps and tokens in turn finds these tokens, and nothing is open behind it. -/
theorem Divided.run {text : List Char} {place : Loc} {lexemes : List Lexeme}
    (h : Divided rest place text lexemes) (found : List Lexeme) :
    (Scanner.run ⟨place, .idle, found⟩ (text ++ rest)).finish
      = (Scanner.run ⟨place.after text, .idle, lexemes.reverse ++ found⟩ rest).finish := by
  induction h generalizing found with
  | gap hgap => rw [Scanner.run_append, hgap.run, List.reverse_nil, List.nil_append]
  | @token place gap text token lexemes hgap hstands _ ih =>
      have hnext := ih (⟨token, place.after gap⟩ :: found)
      rw [Loc.after_append] at hnext
      rw [List.append_assoc, List.append_assoc, Scanner.run_append, hgap.run, hstands.run, hnext,
        Loc.after_append, Loc.after_append, List.reverse_cons, List.append_assoc,
          List.singleton_append]

/-- A scan ends behind the last comment. -/
theorem LastComment.finish (h : LastComment rest) (place : Loc) (found : List Lexeme) :
    (Scanner.run ⟨place, .idle, found⟩ rest).finish = ⟨found.reverse, none⟩ := by
  cases h with
  | absent => rfl
  | comment hchars =>
      rw [Spells.run_comment hchars]
      rfl

theorem Scanner.run_stopped (place loc : Loc) (found : List Lexeme) (text : List Char) :
    (run ⟨place, .stopped c loc, found⟩ text).finish = ⟨found.reverse, some (c, loc)⟩ := by
  induction text generalizing place with
  | nil => rfl
  | cons d text ih => exact ih (place.next d)

/-- Digits at which no literal begins run into a character that clings to them. -/
theorem finish_of_clinging (hc : c.isDigit = true) (h : ¬ Lexical (c :: more)) (place : Loc)
    (found : List Lexeme) :
    (Scanner.run ⟨place, .idle, found⟩ (c :: more)).finish
      = ⟨found.reverse, some (c, place)⟩ := by
  have hdigits : ∀ d ∈ more.takeWhile (·.isDigit), d.isDigit = true := fun d hmem =>
    List.mem_takeWhile_imp hmem
  have hsplit : c :: more = (c :: more.takeWhile (·.isDigit)) ++ more.dropWhile (·.isDigit) := by
    rw [List.cons_append, List.takeWhile_append_dropWhile]
  have hint := mt (Lexical.int (List.cons_ne_nil c _) (List.forall_mem_cons.mpr ⟨hc, hdigits⟩))
    (hsplit ▸ h)
  rw [hsplit, Scanner.run_append, Spells.run_digits hc hdigits]
  have hnext := List.head?_dropWhile_not (·.isDigit) more
  cases hrest : more.dropWhile (·.isDigit) with
  | nil => exact absurd (hrest ▸ fun _ hmem => nomatch hmem) hint
  | cons d rest =>
      rw [hrest] at hint hnext
      have hclings : clingsToDigits d = true := by simpa using hint
      have hdigit : d.isDigit = false := by simpa using hnext
      have hstep : ∀ place' taken, Scanner.step ⟨place', .digits place c taken, found⟩ d
          = ⟨place'.next d, .stopped c place, found⟩ := fun place' taken => by
        simp [Scanner.step, Mode.step, hdigit, hclings]
      rw [Scanner.run, List.foldl_cons, hstep]
      exact Scanner.run_stopped _ _ _ _

/-- A scan stops at a character at which nothing begins. -/
theorem finish_of_not_lexical (h : ¬ Lexical (c :: more)) (place : Loc) (found : List Lexeme) :
    (Scanner.run ⟨place, .idle, found⟩ (c :: more)).finish
      = ⟨found.reverse, some (c, place)⟩ := by
  have hblank : ¬ isBlank c = true := fun hblank => h (.blank hblank)
  have hcomment : c ≠ '#' := by
    rintro rfl
    exact h .comment
  by_cases hquote : c = '"'
  · subst hquote
    have hopen : '"' ∉ more := fun hmem => by
      obtain ⟨chars, rest, rfl, hchars⟩ := List.eq_append_cons_of_mem hmem
      exact h (.str hchars)
    rw [Spells.run_string hopen]
    rfl
  by_cases hdigit : c.isDigit = true
  · exact finish_of_clinging hdigit h place found
  have hname : ¬ isNameChar c = true :=
    fun hname => h (.word hname (Bool.not_eq_true _ ▸ hdigit))
  have hsign : Sign.ofChar? c = none := by
    cases hsign : Sign.ofChar? c with
    | none => rfl
    | some mark =>
        obtain rfl := Sign.char_of_ofChar? hsign
        exact absurd .sign h
  have hstep : Scanner.step ⟨place, .idle, found⟩ c
      = ⟨place.next c, .stopped c place, found⟩ := by
    simp [Scanner.step, Mode.step_idle, Mode.start, hblank, hcomment, hquote, hdigit, hname, hsign]
  rw [Scanner.run, List.foldl_cons, hstep]
  exact Scanner.run_stopped _ _ _ _

end

/-! ## Whole texts -/

theorem scan_of_divided {text rest : List Char} {lexemes : List Lexeme}
    (h : Divided rest .start text lexemes) (hrest : LastComment rest) :
    scan (text ++ rest) = ⟨lexemes, none⟩ := by
  rw [scan, Scanner.initial, h.run, hrest.finish, List.append_nil, List.reverse_reverse]

theorem scan_of_divided_stop {text more : List Char} {c : Char} {lexemes : List Lexeme}
    (h : Divided (c :: more) .start text lexemes) (hnothing : ¬ Lexical (c :: more)) :
    scan (text ++ c :: more) = ⟨lexemes, some (c, Loc.start.after text)⟩ := by
  rw [scan, Scanner.initial, h.run, finish_of_not_lexical hnothing, List.append_nil,
    List.reverse_reverse]

/-- How a source text is divided, and what its scan and the reader make of that. -/
structure Partitioned (source : String) : Prop where
  /-- A text is scanned to its end if it is gaps and tokens in turn, and these are the tokens. -/
  complete : ∀ lexemes, scan source.toList = ⟨lexemes, none⟩ ↔ ∃ text rest,
    source.toList = text ++ rest ∧ Divided rest .start text lexemes ∧ LastComment rest
  /-- A scan stops behind gaps and tokens, where nothing begins. -/
  stopped : ∀ lexemes c loc, scan source.toList = ⟨lexemes, some (c, loc)⟩ ↔ ∃ text more,
    source.toList = text ++ c :: more ∧ Divided (c :: more) .start text lexemes ∧
      ¬ Lexical (c :: more) ∧
      loc = Loc.start.after text
  /-- That character is what is wrong with a text in which no token before it is. -/
  reported : ∀ goal lexemes c loc, scan source.toList = ⟨lexemes, some (c, loc)⟩ →
    Grammar.Viable goal (lexemes.map (·.token)) →
      Reader.parse goal source = .error (.rejected (.unexpectedChar c) loc)

theorem partitioned (source : String) : Partitioned source := by
  obtain ⟨text, rest, found, htext, hdivided, hrest⟩ := exists_divided source.toList .start
  refine ⟨fun lexemes => ⟨fun hscan => ?_, ?_⟩, fun lexemes c loc =>
    ⟨fun hscan => ?_, ?_⟩, ?_⟩
  · obtain hlast | ⟨c, more, rfl, hnothing⟩ := hrest
    · rw [htext, scan_of_divided hdivided hlast] at hscan
      obtain rfl : found = lexemes := congrArg Scan.lexemes hscan
      exact ⟨text, rest, htext, hdivided, hlast⟩
    · rw [htext, scan_of_divided_stop hdivided hnothing] at hscan
      exact absurd (congrArg Scan.stop? hscan) nofun
  · rintro ⟨text, rest, htext, hdivided, hlast⟩
    rw [htext, scan_of_divided hdivided hlast]
  · obtain hlast | ⟨d, more, rfl, hnothing⟩ := hrest
    · rw [htext, scan_of_divided hdivided hlast] at hscan
      exact absurd (congrArg Scan.stop? hscan) nofun
    · rw [htext, scan_of_divided_stop hdivided hnothing] at hscan
      obtain rfl : found = lexemes := congrArg Scan.lexemes hscan
      obtain ⟨rfl, rfl⟩ := Prod.mk.inj (Option.some.inj (congrArg Scan.stop? hscan))
      exact ⟨text, more, htext, hdivided, hnothing, rfl⟩
  · rintro ⟨text, more, htext, hdivided, hnothing, rfl⟩
    rw [htext, scan_of_divided_stop hdivided hnothing]
  · intro goal lexemes c loc hscan hviable
    obtain ⟨state, hrun⟩ := Reader.run_eq_ok_iff_viable.mpr hviable
    rw [Reader.parse, Reader.ofScan, hscan]
    simp only [hrun]

/-- Formed tokens are divided at the blanks between them. -/
theorem exists_divided_spaced {tokens : List Token} (h : ∀ token ∈ tokens, token.Formed)
    (place : Loc) :
    ∃ lexemes, Divided [] place (" ".intercalate (tokens.map Token.text)).toList lexemes ∧
      lexemes.map (·.token) = tokens := by
  induction tokens generalizing place with
  | nil => exact ⟨[], .gap .nil, rfl⟩
  | cons token tokens ih =>
      obtain ⟨htoken, htokens⟩ := List.forall_mem_cons.mp h
      cases tokens with
      | nil =>
          have hdivided : Divided [] place (token.text.toList ++ []) [⟨token, place⟩] :=
            .token .nil (htoken.stands nofun) (.gap .nil)
          rw [List.append_nil] at hdivided
          exact ⟨_, by simpa using hdivided, rfl⟩
      | cons next tokens =>
          obtain ⟨lexemes, hdivided, hlexemes⟩ :=
            ih htokens ((place.after token.text.toList).after [' '])
          have hbehind := hdivided.behind_gap (.blank (by decide) .nil)
          have hblank : ∀ text : List Char, ∀ c ∈ ([' '] ++ text ++ []).head?,
              isNameChar c = false := by
            rintro text c ⟨⟩
            decide
          refine ⟨⟨token, place⟩ :: lexemes, ?_, by rw [List.map_cons, hlexemes]⟩
          have hall := Divided.token .nil (htoken.stands (hblank _)) hbehind
          simpa using hall

/-- Every source text is gaps and tokens in turn as far as it is scanned, and formed tokens with a
blank between any two of them are scanned as these tokens. -/
theorem scan_partitions (source : String) {tokens : List Token}
    (htokens : ∀ token ∈ tokens, token.Formed) : Partitioned source ∧ ∃ lexemes,
      scan (" ".intercalate (tokens.map Token.text)).toList = ⟨lexemes, none⟩ ∧
        lexemes.map (·.token) = tokens := by
  refine ⟨partitioned source, ?_⟩
  obtain ⟨lexemes, hdivided, hlexemes⟩ := exists_divided_spaced htokens .start
  have hscan := scan_of_divided hdivided .absent
  rw [List.append_nil] at hscan
  exact ⟨lexemes, hscan, hlexemes⟩

/-- Digits that a letter clings to are reported at the first of them; a name that begins like a
reserved word, leading zeros and the sign of a comment in a string are kept. -/
theorem scan_partitions_digits :
    let tokens : List Token := [.name "letter", .keyword .kwLet, .int "007", .str "# 1"]
    (∀ token ∈ tokens, token.Formed) ∧
      Reader.parse .program "x 12a" = .error (.rejected (.unexpectedChar '1') ⟨1, 3⟩) ∧
        ∃ lexemes, scan "letter let 007 \"# 1\"".toList = ⟨lexemes, none⟩ ∧
          lexemes.map (·.token) = tokens := by
  intro tokens
  have hname : IsName "letter" :=
    ⟨⟨'l', ['e', 't', 't', 'e', 'r'],
      rfl, by decide, by decide, List.all_eq_true.mp (by decide)⟩, by decide⟩
  have hformed : ∀ token ∈ tokens, token.Formed := by
    simp only [tokens, List.forall_mem_cons, Token.Formed]
    exact ⟨hname, trivial, ⟨by decide, List.all_eq_true.mp (by decide)⟩, by decide, nofun⟩
  obtain ⟨hpartitioned, hspaced⟩ := scan_partitions "x 12a" hformed
  have hreported := hpartitioned.reported .program [⟨.name "x", .start⟩] '1' ⟨1, 3⟩
    (by decide +kernel)
  exact ⟨hformed, hreported (Reader.run_eq_ok_iff_viable.mp ⟨_, rfl⟩), hspaced⟩

end ExprLang
