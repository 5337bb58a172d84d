import Mathlib.Data.List.Induction
import Mathlib.Order.Basic
import ExprLang.Proofs.Token.Placement

/-!
# The order of places

The places of a text are ordered as its characters are, by the line first and by the column in one
line. A place depends on the text before it, of which it counts the newlines and the characters
after the last one (`Loc.start_after`), and it only grows with that text. So the tokens of a scan
carry places in their order (`scan_ordered`).
-/

namespace ExprLang

namespace Loc

/-- The order in which a text is read. -/
instance : Preorder Loc where
  le a b := a.line < b.line ∨ a.line = b.line ∧ a.col ≤ b.col
  le_refl a := .inr ⟨rfl, Nat.le_refl _⟩
  le_trans a b c := by
    rintro (hab | ⟨hab, hcol⟩) (hbc | ⟨hbc, hcol'⟩)
    · exact .inl (Nat.lt_trans hab hbc)
    · exact .inl (hbc ▸ hab)
    · exact .inl (hab ▸ hbc)
    · exact .inr ⟨hab.trans hbc, Nat.le_trans hcol hcol'⟩

theorem le_next (place : Loc) (c : Char) : place ≤ place.next c := by
  unfold next
  split
  · exact .inl (Nat.lt_succ_self _)
  · exact .inr ⟨rfl, Nat.le_succ _⟩

theorem le_after (place : Loc) (text : List Char) : place ≤ place.after text := by
  induction text generalizing place with
  | nil => exact le_refl place
  | cons c text ih => exact le_trans (place.le_next c) (ih (place.next c))

/-- The line and the column of what stands behind a text. -/
theorem start_after (text : List Char) : Loc.start.after text
    = ⟨1 + text.count '\n', 1 + (text.reverse.takeWhile (· ≠ '\n')).length⟩ := by
  induction text using List.reverseRecOn with
  | nil => rfl
  | append_singleton text c ih =>
      rw [after_append, ih]
      by_cases hc : c = '\n'
      · simp [next, hc, Nat.add_assoc]
      · simp [next, hc, Nat.add_comm]

end Loc

/-- A token does not stand before one that comes earlier in the scan. -/
theorem Lexeme.Follows.le {lexeme earlier : Lexeme} {before : List Lexeme} {text : List Char}
    (h : lexeme.Follows before text) (hmem : earlier ∈ before) : earlier.loc ≤ lexeme.loc := by
  obtain ⟨front, -, -, hloc, hscan⟩ := h
  have hearlier : earlier ∈ (scan front).lexemes := by rwa [hscan]
  obtain ⟨front', between, hsplit, hloc'⟩ := scan_places front earlier hearlier
  rw [hloc, hloc', hsplit, List.append_assoc, Loc.after_append]
  exact Loc.le_after _ _

/-- The tokens of a scan stand in their order. -/
theorem scan_ordered (text : List Char) : (scan text).lexemes.Pairwise (·.loc ≤ ·.loc) := by
  suffices h : ∀ before after, (scan text).lexemes = before ++ after →
    before.Pairwise (·.loc ≤ ·.loc) from
    h _ [] (List.append_nil _).symm
  intro before
  induction before using List.reverseRecOn with
  | nil => exact fun _ _ => .nil
  | append_singleton before lexeme ih =>
      intro after hsplit
      rw [List.append_assoc] at hsplit
      refine List.pairwise_append.mpr ⟨ih _ hsplit, List.pairwise_singleton _ _, ?_⟩
      intro earlier hearlier last hlast
      rw [List.mem_singleton.mp hlast]
      exact (scan_follows hsplit).le hearlier

end ExprLang
