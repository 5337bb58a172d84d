import ExprLang.Proofs.Grammar.Yields
import ExprLang.Proofs.Reader.Refusal
import ExprLang.Proofs.Token.Spelling

/-!
# Literals with too many digits

Reading looks at integer literals last, and at none that has more digits than the limit. A source
gets no tree and no complaint exactly if it is in order but for its literals, and the first of them
that cannot be read is too long (`parse_digitLimit_iff`).
-/

namespace ExprLang

open Grammar Reader

/-- A source with nothing wrong but literals, where the first that cannot be read has so many digits
that it is not looked at. -/
structure HasOverlongLiteral (goal : Goal) (source : List Char) (count : Nat) : Prop where
  scans : (scan source).stop? = none
  complete : Complete goal ((scan source).lexemes.map (·.token))
  first : ∃ before lexeme after, (scan source).lexemes = before ++ lexeme :: after ∧
    (∀ earlier ∈ before, earlier.token.Readable) ∧ lexeme.token.digits.length = count
  long : Text.maxDigits < count

namespace Reader

/-! ## One literal -/

theorem literalError?_of_long {lexeme : Lexeme}
    (hlong : Text.maxDigits < lexeme.token.digits.length) :
    literalError? lexeme = some (.digitLimit lexeme.token.digits.length) := by
  obtain ⟨token, loc⟩ := lexeme
  cases token with
  | int digits => exact if_pos hlong
  | _ => exact absurd hlong (Nat.not_lt_zero _)

theorem literalError?_eq_none_iff {lexeme : Lexeme} :
    literalError? lexeme = none ↔ lexeme.token.Readable := by
  by_cases hshort : lexeme.token.digits.length ≤ Text.maxDigits
  · obtain ⟨hsmall, hnone⟩ | ⟨digits, -, hlarge, herror⟩ := literalError?_eq hshort
    · exact iff_of_true hnone ⟨hshort, hsmall⟩
    · exact iff_of_false (by rw [herror]; exact nofun) fun h => h.2 hlarge
  · rw [literalError?_of_long (Nat.not_le.mp hshort)]
    exact iff_of_false nofun fun h => hshort h.1

theorem literalError?_eq_digitLimit_iff {lexeme : Lexeme} {count : Nat} :
    literalError? lexeme = some (.digitLimit count) ↔
      lexeme.token.digits.length = count ∧ Text.maxDigits < count := by
  by_cases hshort : lexeme.token.digits.length ≤ Text.maxDigits
  · refine iff_of_false ?_ fun h => Nat.not_lt.mpr hshort (h.1 ▸ h.2)
    obtain ⟨-, hnone⟩ | ⟨digits, -, -, herror⟩ := literalError?_eq hshort
    · rw [hnone]
      exact nofun
    · rw [herror]
      exact nofun
  · have hlong := Nat.not_le.mp hshort
    rw [literalError?_of_long hlong, Option.some.injEq, ReadError.digitLimit.injEq]
    exact ⟨fun hcount => ⟨hcount, hcount ▸ hlong⟩, And.left⟩

/-- The first literal that cannot be read is too long. -/
theorem findSome?_literalError?_eq_digitLimit_iff {lexemes : List Lexeme} {count : Nat} :
    lexemes.findSome? literalError? = some (.digitLimit count) ↔
      (∃ before lexeme after, lexemes = before ++ lexeme :: after ∧
        (∀ earlier ∈ before, earlier.token.Readable) ∧ lexeme.token.digits.length = count) ∧
      Text.maxDigits < count := by
  rw [List.findSome?_eq_some_iff]
  constructor
  · rintro ⟨before, lexeme, after, hsplit, herror, hbefore⟩
    obtain ⟨hcount, hlong⟩ := literalError?_eq_digitLimit_iff.mp herror
    exact ⟨⟨before, lexeme, after, hsplit,
      fun earlier hmem => literalError?_eq_none_iff.mp (hbefore earlier hmem), hcount⟩, hlong⟩
  · rintro ⟨⟨before, lexeme, after, hsplit, hbefore, hcount⟩, hlong⟩
    exact ⟨before, lexeme, after, hsplit, literalError?_eq_digitLimit_iff.mpr ⟨hcount, hlong⟩,
      fun earlier hmem => literalError?_eq_none_iff.mpr (hbefore earlier hmem)⟩

/-! ## Whole sources -/

/-- A source is refused for the number of its digits exactly if it has an overlong literal. -/
theorem parse_digitLimit_iff (goal : Goal) (source : String) (count : Nat) :
    parse goal source = .error (.digitLimit count) ↔
      HasOverlongLiteral goal source.toList count := by
  constructor
  · rw [parse, ofScan]
    intro h
    split at h
    next => cases h
    next => cases h
    next state hrun hstop =>
        split at h
        next => cases h
        next tree error hfinish herror =>
            cases h
            obtain ⟨hfirst, hlong⟩ := findSome?_literalError?_eq_digitLimit_iff.mp herror
            exact ⟨hstop, (finish_iff_complete hrun).mp ⟨tree, hfinish⟩, hfirst, hlong⟩
        next => cases h
  · rintro ⟨hstop, ⟨t, hderives⟩, hfirst, hlong⟩
    obtain ⟨tree, htree, -⟩ := derivesTree_at_places hderives
    exact parse_eq_literal_error hstop htree
      (findSome?_literalError?_eq_digitLimit_iff.mpr ⟨hfirst, hlong⟩)

theorem not_short_of_overlong {goal : Goal} {source : List Char} {count : Nat}
    (h : HasOverlongLiteral goal source count) : ¬ ShortLiterals (scan source).lexemes := by
  intro hshort
  obtain ⟨before, lexeme, after, hsplit, -, rfl⟩ := h.first
  have hmem : lexeme ∈ (scan source).lexemes := by
    rw [hsplit]
    exact List.mem_append_right _ List.mem_cons_self
  exact Nat.not_lt.mpr (hshort lexeme hmem) h.long

/-- A source of digits alone, of which there are too many. -/
theorem overlong_of_digits (goal : Goal) {digits : List Char}
    (hdigits : ∀ c ∈ digits, c.isDigit = true) (hlong : Text.maxDigits < digits.length) :
    HasOverlongLiteral goal digits digits.length := by
  cases digits with
  | nil => exact absurd hlong (Nat.not_lt_zero _)
  | cons c text =>
      obtain ⟨hc, htext⟩ := List.forall_mem_cons.mp hdigits
      have hscan := scan_digits hc htext
      have hliteral : Yields [.int (String.ofList (c :: text))]
          (.expr (.int none (literalValue (String.ofList (c :: text))))) := (Yields.int _).ofCall
      refine ⟨by rw [hscan], ?_, ⟨[], _, [], by rw [hscan]; rfl, nofun, ?_⟩, hlong⟩
      · rw [hscan]
        cases goal with
        | expression => exact ⟨_, hliteral.derivesTree_expression⟩
        | program =>
            exact ⟨_, @Yields.derivesTree_program _ _ none (hliteral.next .endSequence)⟩
      · rw [Token.digits, String.toList_ofList]

end Reader

end ExprLang
