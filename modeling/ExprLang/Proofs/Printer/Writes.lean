import ExprLang.Expr.Printer
import ExprLang.Proofs.Grammar.Yields
import ExprLang.Proofs.Token.Spelling

/-!
# Texts that write phrases

A text writes a phrase if it spells tokens that derive the phrase (`Writes`). Each construct of the
layout joins such texts to another one. It never joins two texts without a blank or a sign between
them, so no two words or literals run together.
-/

namespace ExprLang

open Grammar

/-- The text spells tokens that derive the phrase, up to locations. -/
def Writes (text : String) (phrase : Phrase) : Prop :=
  ∃ tokens, Spells false text.toList tokens ∧ Yields tokens phrase

/-- A text that can stand for a name: a word that is not reserved. -/
def IsName (text : String) : Prop :=
  (∃ c chars, text = String.ofList (c :: chars) ∧ isNameChar c = true ∧ c.isDigit = false ∧
    ∀ d ∈ chars, isNameChar d = true) ∧ Keyword.ofText? text = none

theorem IsName.spells {name : String} (h : IsName name) :
    Spells false name.toList [.name name] := by
  obtain ⟨⟨c, chars, rfl, hc, hdigit, hchars⟩, hreserved⟩ := h
  have hspells := Spells.word hc hdigit hchars
  rw [Token.ofWord, hreserved] at hspells
  rwa [String.toList_ofList]

/-- A reserved word is a run of name characters that begins with no digit. -/
theorem Keyword.exists_chars (word : Keyword) :
    ∃ c chars, word.text = String.ofList (c :: chars) ∧
    isNameChar c = true ∧ c.isDigit = false ∧ ∀ d ∈ chars, isNameChar d = true := by
  have hfirst : word.text.toList.head?.any (!·.isDigit) = true := by cases word <;> decide
  have hchars : word.text.toList.all isNameChar = true := by cases word <;> decide
  rw [← String.ofList_toList (s := word.text)]
  generalize word.text.toList = chars at hfirst hchars
  cases chars with
  | nil => exact absurd hfirst Bool.false_ne_true
  | cons c chars =>
      simp only [List.all_cons, Bool.and_eq_true, List.all_eq_true] at hchars
      exact ⟨c, chars, rfl, hchars.1, by simpa using hfirst, hchars.2⟩

theorem Token.ofWord_keyword (word : Keyword) : Token.ofWord word.text = .keyword word := by
  cases word <;> decide

theorem spells_keyword (word : Keyword) : Spells false word.text.toList [.keyword word] := by
  obtain ⟨c, chars, htext, hc, hdigit, hchars⟩ := word.exists_chars
  rw [← Token.ofWord_keyword, htext, String.toList_ofList]
  exact Spells.word hc hdigit hchars

/-! ## Joining with one blank -/

section

variable {text text' : List Char} {tokens tokens' : List Token} {closed closed' : Bool}

theorem Spells.blank_before (h : Spells closed text tokens) (h' : Spells closed' text' tokens') :
    Spells closed' (text ++ ' ' :: text') (tokens ++ tokens') :=
  h.before (by decide) (h'.blank_cons (by decide))

theorem Spells.sign_before (mark : Sign) (h : Spells closed text tokens)
    (h' : Spells closed' text' tokens') :
    Spells closed' (text ++ mark.char :: text') (tokens ++ .sign mark :: tokens') :=
  h.before (by cases mark <;> decide) (h'.sign_cons mark)

theorem Spells.newline_before (h : Spells closed text tokens) (h' : Spells closed' text' tokens') :
    Spells closed' (text ++ '\n' :: text') (tokens ++ tokens') :=
  h.before (by decide) (h'.blank_cons (by decide))

end

/-! ## Lists of texts -/

/-- Names with commas between them. -/
theorem spells_names {names : List String} (h : ∀ name ∈ names, IsName name) :
    Spells false (Piece.commas names).toList
      ((names.map Token.name).intersperse (.sign .comma)) := by
  induction names with
  | nil => exact Spells.nil.weaken
  | cons name names ih =>
      have hname := (h name List.mem_cons_self).spells
      cases names with
      | nil => simpa [Piece.commas] using hname
      | cons next names =>
          have hrest := ih fun name hmem => h name (List.mem_cons_of_mem _ hmem)
          have hjoined :=
            hname.sign_before .comma (hrest.blank_cons (by decide : isBlank ' ' = true))
          simpa [Piece.commas, Sign.char] using hjoined

/-- Expressions with commas between them. -/
theorem writes_commas {print : Expr → String} {es : List Expr}
    (h : ∀ e ∈ es, Writes (print e) (.expr e)) :
    Writes (Piece.commas (es.map print)) (.items es) := by
  induction es with
  | nil => exact ⟨[], Spells.nil.weaken, .endItems⟩
  | cons e es ih =>
      obtain ⟨tokens, hspells, hyields⟩ := h e List.mem_cons_self
      cases es with
      | nil => exact ⟨tokens, by simpa [Piece.commas] using hspells, hyields.lastItem⟩
      | cons next es =>
          obtain ⟨tokens', hspells', hyields'⟩ :=
            ih fun e hmem => h e (List.mem_cons_of_mem _ hmem)
          have hblank := hspells'.blank_cons (by decide : isBlank ' ' = true)
          have hjoined := hspells.sign_before .comma hblank
          refine ⟨_, ?_, hyields.item hyields'⟩
          simpa [Piece.commas, Sign.char] using hjoined

/-- Lines that each end an expression with a semicolon. -/
theorem writes_lines {print : Expr → String} {es : List Expr}
    (h : ∀ e ∈ es, ∃ tokens, Spells true (print e).toList (tokens ++ [.sign .semicolon]) ∧
      Yields tokens (.expr e)) :
    ∃ tokens, Spells true ("\n".intercalate (es.map print)).toList tokens ∧
      Yields tokens (.sequence es) := by
  induction es with
  | nil => exact ⟨[], Spells.nil, .endSequence⟩
  | cons e es ih =>
      obtain ⟨tokens, hspells, hyields⟩ := h e List.mem_cons_self
      cases es with
      | nil =>
          refine ⟨_, ?_, hyields.next (.semicolon .endSequence)⟩
          simpa using hspells
      | cons next es =>
          obtain ⟨tokens', hspells', hyields'⟩ :=
            ih fun e hmem => h e (List.mem_cons_of_mem _ hmem)
          refine ⟨_, ?_, hyields.next hyields'.semicolon⟩
          simpa using hspells.newline_before hspells'

/-! ## Blocks -/

theorem spells_margin (style : Style) (level : Int) :
    Spells true (style.margin level).toList [] := by
  rw [Style.margin, String.toList_ofList]
  generalize style.indent.toNat * level.toNat = width
  induction width with
  | zero => exact Spells.nil
  | succ width ih => exact ih.blank_cons (by decide)

/-- A line of a block. -/
theorem writes_line {text : String} {e : Expr} (style : Style) (level : Int)
    (h : Writes text (.expr e)) :
    ∃ tokens, Spells true (style.margin level ++ text ++ ";").toList
      (tokens ++ [.sign .semicolon]) ∧
      Yields tokens (.expr e) := by
  obtain ⟨tokens, hspells, hyields⟩ := h
  have hline := (spells_margin style level).append (hspells.sign_before .semicolon Spells.nil)
  exact ⟨tokens, by simpa [Sign.char] using hline, hyields⟩

theorem writes_braced {text : String} {e : Expr} (h : Writes text (.expr e)) :
    Writes (braced text) (.block [e]) := by
  obtain ⟨tokens, hspells, hyields⟩ := h
  have hclosed := hspells.blank_before (Spells.sign .closeBrace)
  have hbraced := (hclosed.blank_cons (by decide : isBlank ' ' = true)).sign_cons .openBrace
  refine ⟨_, ?_, (hyields.next .endSequence).block⟩
  simpa [braced, Sign.char] using hbraced.weaken

/-- A block on one line or on several. -/
theorem writes_blockText {print : Expr → String} {es : List Expr} (style : Style) (level : Int)
    (h : ∀ e ∈ es, Writes (print e) (.expr e)) :
    Writes (style.blockText level (es.map print)) (.block es) := by
  have hspread : Writes ("\x7b\n" ++ "\n".intercalate ((es.map print).map
      (style.margin (level + 1) ++ · ++ ";")) ++ "\n" ++ style.margin level ++ "\x7d")
        (.block es) := by
    obtain ⟨tokens, hspells, hyields⟩ := writes_lines fun e hmem =>
      writes_line style (level + 1) (h e hmem)
    have hclosed := hspells.newline_before
      ((spells_margin style level).append (Spells.sign .closeBrace))
    have hblock := (hclosed.blank_cons (by decide : isBlank '\n' = true)).sign_cons .openBrace
    refine ⟨_, ?_, hyields.block⟩
    simpa [Sign.char, Function.comp_def] using hblock.weaken
  cases es with
  | nil =>
      have hempty := (Spells.sign .closeBrace).sign_cons .openBrace
      refine ⟨_, ?_, Yields.endSequence.block⟩
      simpa [Style.blockText, Sign.char] using hempty.weaken
  | cons e es =>
      cases es with
      | nil =>
          rw [List.map_singleton, Style.blockText]
          split
          · exact hspread
          · exact writes_braced (h e List.mem_cons_self)
      | cons next es => exact hspread

/-! ## Expressions -/

theorem writes_int (value : UInt64) (loc : Option Loc) :
    Writes (toString value.toNat) (.call (.int loc value)) := by
  have hyields : Yields [.int (toString value.toNat)] (.call (.int loc value)) := by
    have hliteral : Reader.literalValue (toString value.toNat) = value :=
      ofNat_digitsValue_toString value
    have hint : Yields [.int (toString value.toNat)]
        (.call (.int loc (Reader.literalValue (toString value.toNat)))) := .int _
    rwa [hliteral] at hint
  refine ⟨[.int (toString value.toNat)], ?_, hyields⟩
  have hdigits : ∀ c ∈ (toString value.toNat).toList, c.isDigit = true := by
    rw [toString_word]
    exact fun c hmem => Nat.isDigit_of_mem_toDigits (by omega) (by omega) hmem
  have hreadable := readable_toString value
  cases htext : (toString value.toNat).toList with
  | nil => exact absurd ((toString_word value).symm.trans htext) Nat.toDigits_ne_nil
  | cons c text =>
      have hofList : String.ofList (c :: text) = toString value.toNat := by
        rw [← htext, String.ofList_toList]
      rw [htext] at hdigits
      rw [← hofList] at hreadable ⊢
      exact Spells.digits (hdigits c List.mem_cons_self)
        (fun d hmem => hdigits d (List.mem_cons_of_mem _ hmem)) hreadable

theorem writes_str {text : String} {loc : Option Loc} (h : '"' ∉ text.toList) :
    Writes ("\"" ++ text ++ "\"") (.call (.str loc text)) := by
  refine ⟨[.str text], ?_, .str text⟩
  have hspells := (Spells.string h).weaken
  rw [String.ofList_toList] at hspells
  simpa using hspells

theorem writes_keyword {phrase : Phrase} {word : Keyword} (h : Yields [.keyword word] phrase) :
    Writes word.text phrase :=
  ⟨_, spells_keyword word, h⟩

theorem writes_binding {name text : String} {e : Expr} {loc : Option Loc} (hname : IsName name)
    (h : Writes text (.expr e)) :
    Writes ("let " ++ name ++ " = " ++ text) (.expr (.binding loc name e)) := by
  obtain ⟨tokens, hspells, hyields⟩ := h
  have hvalue := (hspells.blank_cons (by decide : isBlank ' ' = true)).sign_cons .equals
  have hbinding := (spells_keyword .kwLet).blank_before (hname.spells.blank_before hvalue)
  refine ⟨_, ?_, hyields.binding⟩
  simpa [Keyword.text, Sign.char] using hbinding

theorem writes_loop {test body : String} {c : Expr} {es : List Expr} {loc loc' : Option Loc}
    (htest : Writes test (.expr c)) (hbody : Writes body (.block es)) :
    Writes ("while " ++ test ++ " " ++ body) (.expr (.loop loc c (.block loc' es))) := by
  obtain ⟨tokens, hspells, hyields⟩ := htest
  obtain ⟨tokens', hspells', hyields'⟩ := hbody
  have hloop := (spells_keyword .kwWhile).blank_before (hspells.blank_before hspells')
  refine ⟨_, ?_, hyields.loop hyields'⟩
  simpa [Keyword.text] using hloop

theorem writes_choice {test yes no : String} {c : Expr} {es es' : List Expr}
    {loc loc' loc'' : Option Loc} (htest : Writes test (.expr c)) (hyes : Writes yes (.block es))
    (hno : Writes no (.block es')) :
    Writes ("if " ++ test ++ " " ++ yes ++ " else " ++ no)
      (.expr (.choice loc c (.block loc' es) (.block loc'' es'))) := by
  obtain ⟨tokens, hspells, hyields⟩ := htest
  obtain ⟨tokens', hspells', hyields'⟩ := hyes
  obtain ⟨tokens'', hspells'', hyields''⟩ := hno
  have helse := hspells'.blank_before ((spells_keyword .kwElse).blank_before hspells'')
  have hchoice := (spells_keyword .kwIf).blank_before (hspells.blank_before helse)
  refine ⟨_, ?_, hyields.choice hyields' hyields''⟩
  simpa [Keyword.text] using hchoice

theorem writes_list {items : String} {es : List Expr} {loc : Option Loc}
    (h : Writes items (.items es)) : Writes ("[" ++ items ++ "]") (.call (.list loc es)) := by
  obtain ⟨tokens, hspells, hyields⟩ := h
  have hlist := (hspells.sign_before .closeBracket Spells.nil).sign_cons .openBracket
  refine ⟨_, ?_, hyields.list⟩
  simpa [Sign.char] using hlist.weaken

theorem writes_call {callee args : String} {f : Expr} {es : List Expr}
    (h : Writes callee (.call f)) (hargs : Writes args (.items es)) :
    Writes (callee ++ "(" ++ args ++ ")") (.call (.applied .start f es)) := by
  obtain ⟨tokens, hspells, hyields⟩ := h
  obtain ⟨tokens', hspells', hyields'⟩ := hargs
  have hcall := hspells.sign_before .openParen (hspells'.sign_before .closeParen Spells.nil)
  refine ⟨_, ?_, hyields.call hyields'⟩
  simpa [Sign.char] using hcall.weaken

theorem writes_fn (loc : Option Loc) {names : List String} {body : String} {es : List Expr}
    (hnames : ∀ name ∈ names, IsName name) (h : Writes body (.block es)) :
    Writes ("fn(" ++ Piece.commas names ++ ") " ++ body)
      (.call (.curried names (.block loc es))) := by
  obtain ⟨tokens, hspells, hyields⟩ := h
  have hparams := (spells_names hnames).sign_before .closeParen
    (hspells.blank_cons (by decide : isBlank ' ' = true))
  have hfn := (spells_keyword .kwFn).sign_before .openParen hparams
  refine ⟨_, ?_, hyields.fn⟩
  simpa [Keyword.text, Sign.char] using hfn

end ExprLang
