import ExprLang.Proofs.Printer.Writes

/-!
# Tokens as they are found

Every token that a scan finds is formed as its kind asks for: a name is no reserved word and begins
with no digit, an integer literal is all digits, and there is no quote inside a string literal
(`scan_formed`). What the scanner is inside of is on the way to such a token (`Mode.Forming`).
-/

namespace ExprLang

/-- A token with the spelling that its kind asks for. -/
def Token.Formed : Token → Prop
  | .name text => IsName text
  | .int digits => digits.toList ≠ [] ∧ ∀ c ∈ digits.toList, c.isDigit = true
  | .str text => '"' ∉ text.toList
  | .keyword _ | .sign _ => True

/-- A run of name characters that begins with no digit is a reserved word or a name. -/
theorem Token.formed_ofWord {c : Char} {rest : List Char} (hc : isNameChar c = true)
    (hdigit : c.isDigit = false) (hrest : ∀ d ∈ rest, isNameChar d = true) :
    (Token.ofWord (String.ofList (c :: rest))).Formed := by
  unfold Token.ofWord
  cases hreserved : Keyword.ofText? (String.ofList (c :: rest)) with
  | some word => trivial
  | none => exact ⟨⟨c, rest, rfl, hc, hdigit, hrest⟩, hreserved⟩

/-! ## Inside a token -/

namespace Mode

/-- What has been taken into a token can be the beginning of one. -/
def Forming : Mode → Prop
  | .word _ chars => ∃ c rest, chars.reverse = c :: rest ∧ isNameChar c = true ∧
      c.isDigit = false ∧
      ∀ d ∈ rest, isNameChar d = true
  | .digits _ first more => first.isDigit = true ∧ ∀ d ∈ more, d.isDigit = true
  | .string _ chars => '"' ∉ chars
  | .idle | .comment | .stopped .. => True

/-- A token that is complete at the end of the text is formed. -/
theorem Forming.pending {mode : Mode} (h : mode.Forming) :
    ∀ lexeme ∈ mode.pending, lexeme.token.Formed := by
  cases mode with
  | word begun chars =>
      obtain ⟨c, rest, hchars, hc, hdigit, hrest⟩ := h
      refine List.forall_mem_singleton.mpr ?_
      rw [hchars]
      exact Token.formed_ofWord hc hdigit hrest
  | digits begun first more =>
      refine List.forall_mem_singleton.mpr ?_
      show (String.ofList (first :: more.reverse)).toList ≠ [] ∧
        ∀ c ∈ (String.ofList (first :: more.reverse)).toList, c.isDigit = true
      rw [String.toList_ofList]
      refine ⟨List.cons_ne_nil _ _, List.forall_mem_cons.mpr ⟨h.1, ?_⟩⟩
      intro c hmem
      exact h.2 c (List.mem_reverse.mp hmem)
  | _ => exact fun _ hmem => absurd hmem List.not_mem_nil

theorem start_forming (place : Loc) (c : Char) :
    (start place c).1.Forming ∧ ∀ lexeme ∈ (start place c).2, lexeme.token.Formed := by
  have hnone : ∀ lexeme ∈ ([] : List Lexeme), lexeme.token.Formed :=
    fun _ hmem => absurd hmem List.not_mem_nil
  unfold start
  split
  · exact ⟨trivial, hnone⟩
  split
  · exact ⟨trivial, hnone⟩
  split
  · exact ⟨List.not_mem_nil, hnone⟩
  split
  next hdigit => exact ⟨⟨hdigit, fun _ hmem => absurd hmem List.not_mem_nil⟩, hnone⟩
  split
  next hdigit hname =>
      refine ⟨⟨c, [], rfl, hname, ?_, fun _ hmem => absurd hmem List.not_mem_nil⟩, hnone⟩
      simpa using hdigit
  split
  · exact ⟨trivial, List.forall_mem_singleton.mpr trivial⟩
  · exact ⟨trivial, hnone⟩

/-- One more character leaves the scanner on the way to a formed token, and completes no other. -/
theorem Forming.step {mode : Mode} (h : mode.Forming) (place : Loc) (c : Char) :
    (mode.step place c).1.Forming ∧ ∀ lexeme ∈ (mode.step place c).2,
      lexeme.token.Formed := by
  have hnone : ∀ lexeme ∈ ([] : List Lexeme), lexeme.token.Formed :=
    fun _ hmem => absurd hmem List.not_mem_nil
  -- a character that ends one token begins another
  obtain ⟨hstart, hfound⟩ := start_forming place c
  have hends := List.forall_mem_append.mpr ⟨hfound, h.pending⟩
  cases mode with
  | idle => exact ⟨hstart, hfound⟩
  | comment =>
      refine ⟨?_, hnone⟩
      show (if c = '\n' then idle else comment).Forming
      split <;> trivial
  | word begun chars =>
      simp only [Mode.step]
      split
      next hname =>
          obtain ⟨first, rest, hchars, hfirst, hdigit, hrest⟩ := h
          refine ⟨⟨first, rest ++ [c], by simp [hchars], hfirst, hdigit, ?_⟩, hnone⟩
          exact List.forall_mem_append.mpr ⟨hrest, List.forall_mem_singleton.mpr hname⟩
      next => exact ⟨hstart, hends⟩
  | digits begun first more =>
      simp only [Mode.step]
      split
      next hdigit => exact ⟨⟨h.1, List.forall_mem_cons.mpr ⟨hdigit, h.2⟩⟩, hnone⟩
      split
      · exact ⟨trivial, hnone⟩
      · exact ⟨hstart, hends⟩
  | string begun chars =>
      simp only [Mode.step]
      split
      next =>
          refine ⟨trivial, List.forall_mem_singleton.mpr ?_⟩
          show '"' ∉ (String.ofList chars.reverse).toList
          rw [String.toList_ofList, List.mem_reverse]
          exact h
      next hquote => exact ⟨List.not_mem_cons_of_ne_of_not_mem (Ne.symm hquote) h, hnone⟩
  | stopped => exact ⟨trivial, hnone⟩

end Mode

/-! ## Whole texts -/

/-- The scanner is on the way to a formed token, and has found no other. -/
structure Scanner.Forming (scanner : Scanner) : Prop where
  mode : scanner.mode.Forming
  found : ∀ lexeme ∈ scanner.found, lexeme.token.Formed

theorem Scanner.Forming.run {scanner : Scanner} (h : scanner.Forming) (text : List Char) :
    (scanner.run text).Forming := by
  induction text generalizing scanner with
  | nil => exact h
  | cons c text ih =>
      obtain ⟨hmode, hfound⟩ := h.mode.step scanner.place c
      exact @ih (scanner.step c) ⟨hmode, List.forall_mem_append.mpr ⟨hfound, h.found⟩⟩

/-- Every token of a scan is formed as its kind asks for. -/
theorem scan_formed (text : List Char) :
    ∀ lexeme ∈ (scan text).lexemes, lexeme.token.Formed := by
  have hstart : Scanner.initial.Forming := ⟨trivial, fun _ hmem => absurd hmem List.not_mem_nil⟩
  have hend := hstart.run text
  intro lexeme hmem
  have hall := List.forall_mem_append.mpr ⟨hend.mode.pending, hend.found⟩
  exact hall lexeme (List.mem_reverse.mp hmem)

end ExprLang
