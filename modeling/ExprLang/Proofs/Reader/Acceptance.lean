import ExprLang.Proofs.Reader.Completeness
import ExprLang.Proofs.Reader.Soundness
import ExprLang.Proofs.Token.Literal
import ExprLang.Proofs.Token.Placement
import ExprLang.Reader

/-!
# Reading accepts exactly the grammar

The machine takes the tokens of a source and finishes with a tree exactly when the grammar derives
the tree from them (`finish_iff_derivesGoal`). The machine has no choice, so the grammar leaves none
either (`derivesTree_unique`).

Besides the grammar, reading asks for two things: that the whole source scans, and that every
integer literal has a 64-bit value. `parse_accepts` puts the three together.
-/

namespace ExprLang.Reader

open Grammar

/-! ## The machine and the grammar -/

/-- Reading the tokens of a source and deriving a tree from them are the same. -/
theorem finish_iff_derivesGoal {goal : Goal} {lexemes : List Lexeme} {tree : Expr} :
    (∃ state, (State.initial goal).run lexemes = .ok state ∧ state.finish = some tree)
      ↔ DerivesGoal lexemes tree goal := by
  constructor
  · rintro ⟨state, hrun, hfinish⟩
    exact derivesGoal_of_finish hrun hfinish
  · exact finish_of_derivesGoal

/-- No source has two readings. -/
theorem derivesGoal_unique {goal : Goal} {lexemes : List Lexeme} {tree tree' : Expr}
    (h : DerivesGoal lexemes tree goal) (h' : DerivesGoal lexemes tree' goal) : tree = tree' := by
  obtain ⟨state, hrun, hfinish⟩ := finish_of_derivesGoal h
  obtain ⟨state', hrun', hfinish'⟩ := finish_of_derivesGoal h'
  obtain rfl : state = state' := Except.ok.inj (hrun.symm.trans hrun')
  exact Option.some.inj (hfinish.symm.trans hfinish')

/-- The tokens at their places derive what they derive without them. -/
theorem derivesTree_at_places {goal : Goal} {lexemes : List Lexeme} {tree : Expr}
    (h : DerivesTree goal (lexemes.map (·.token)) tree) :
    ∃ located, DerivesGoal lexemes located goal ∧ located.unlocated = tree := by
  obtain ⟨lexemes', located, htokens, hderives, rfl⟩ := h
  exact hderives.transport htokens.symm

/-- No sequence of tokens derives two trees. -/
theorem derivesTree_unique {goal : Goal} {tokens : List Token} {tree tree' : Expr}
    (h : DerivesTree goal tokens tree) (h' : DerivesTree goal tokens tree') : tree = tree' := by
  obtain ⟨lexemes, located, rfl, hderives, rfl⟩ := h
  obtain ⟨located', hderives', rfl⟩ := derivesTree_at_places h'
  rw [derivesGoal_unique hderives hderives']

/-! ## Integer literals -/

/-- A literal that is short enough is refused exactly when it is too large. -/
theorem literalError?_eq {lexeme : Lexeme}
    (hshort : lexeme.token.digits.length ≤ Text.maxDigits) :
    (¬ lexeme.token.Oversized ∧ literalError? lexeme = none) ∨
      ∃ digits, lexeme.token = .int digits ∧ lexeme.token.Oversized ∧
        literalError? lexeme = some (.rejected (.integerTooLarge digits) lexeme.loc) := by
  obtain ⟨token, loc⟩ := lexeme
  cases token with
  | int digits =>
      have hlength : ¬ Text.maxDigits < digits.toList.length := Nat.not_lt.mpr hshort
      by_cases hlarge : maxInteger < Text.digitsValue digits.toList
      · exact .inr ⟨digits, rfl, hlarge, (if_neg hlength).trans (if_pos hlarge)⟩
      · exact .inl ⟨hlarge, (if_neg hlength).trans (if_neg hlarge)⟩
  | _ => exact .inl ⟨Nat.not_lt_zero _, rfl⟩

/-- No literal is refused exactly when none is too large. -/
theorem findSome?_literalError?_eq_none_iff {lexemes : List Lexeme}
    (hshort : ShortLiterals lexemes) :
    lexemes.findSome? literalError? = none ↔
      ∀ lexeme ∈ lexemes, ¬ lexeme.token.Oversized := by
  rw [List.findSome?_eq_none_iff]
  constructor
  · intro h lexeme hmem
    obtain ⟨hsmall, -⟩ | ⟨digits, -, -, herror⟩ := literalError?_eq (hshort lexeme hmem)
    · exact hsmall
    · exact absurd (herror.symm.trans (h lexeme hmem)) nofun
  · intro h lexeme hmem
    obtain ⟨-, hnone⟩ | ⟨digits, -, hlarge, -⟩ := literalError?_eq (hshort lexeme hmem)
    · exact hnone
    · exact absurd hlarge (h lexeme hmem)

/-- If some literal is too large, the first such literal is refused. -/
theorem findSome?_literalError?_eq_some {lexemes : List Lexeme} (hshort : ShortLiterals lexemes)
    (hlarge : ∃ lexeme ∈ lexemes, lexeme.token.Oversized) :
    ∃ before digits loc after, lexemes = before ++ ⟨.int digits, loc⟩ :: after ∧
      (∀ lexeme ∈ before, ¬ lexeme.token.Oversized) ∧ (Token.int digits).Oversized ∧
      lexemes.findSome? literalError? = some (.rejected (.integerTooLarge digits) loc) := by
  obtain ⟨error, herror⟩ : ∃ error, lexemes.findSome? literalError? = some error := by
    cases hfind : lexemes.findSome? literalError? with
    | some error => exact ⟨error, rfl⟩
    | none =>
        obtain ⟨lexeme, hmem, hlexeme⟩ := hlarge
        exact absurd hlexeme ((findSome?_literalError?_eq_none_iff hshort).mp hfind lexeme hmem)
  obtain ⟨before, ⟨token, loc⟩, after, rfl, hfirst, hbefore⟩ :=
    List.findSome?_eq_some_iff.mp herror
  -- nothing before it is refused, and it is refused as too large, since no literal is too long
  have hshortBefore : ShortLiterals before :=
    fun lexeme hmem => hshort lexeme (List.mem_append_left _ hmem)
  have hsmall := (findSome?_literalError?_eq_none_iff hshortBefore).mp
    (List.findSome?_eq_none_iff.mpr hbefore)
  obtain ⟨-, hnone⟩ | ⟨digits, htoken, hdigits, hrefused⟩ :=
    literalError?_eq (hshort ⟨token, loc⟩ (List.mem_append_right _ List.mem_cons_self))
  · exact absurd (hfirst.symm.trans hnone) nofun
  · obtain rfl : token = .int digits := htoken
    exact ⟨before, digits, loc, after, rfl, hsmall, hdigits,
      herror.trans (hfirst.symm.trans hrefused)⟩

/-! ## Source texts -/

/-- A source has a tree exactly if it scans, the grammar derives the tree from its tokens, and no
literal is refused. -/
theorem parse_eq_ok_iff {goal : Goal} {source : String} {tree : Expr} :
    parse goal source = .ok tree ↔ (scan source.toList).stop? = none ∧
      DerivesGoal (scan source.toList).lexemes tree goal ∧
      (scan source.toList).lexemes.findSome? literalError? = none := by
  rw [← finish_iff_derivesGoal, parse, ofScan]
  constructor
  · intro h
    split at h
    next => exact absurd h nofun
    next => exact absurd h nofun
    next state hrun hstop =>
        split at h
        next => exact absurd h nofun
        next => exact absurd h nofun
        next hfinish hliteral =>
            cases h
            exact ⟨hstop, ⟨state, hrun, hfinish⟩, hliteral⟩
  · rintro ⟨hstop, ⟨state, hrun, hfinish⟩, hliteral⟩
    rw [hrun, hstop]
    simp only [hfinish, hliteral]

/-- A source that the grammar accepts but for its literals is refused for the first of them. -/
theorem parse_eq_literal_error {goal : Goal} {source : String} {tree : Expr} {error : ReadError}
    (hstop : (scan source.toList).stop? = none)
    (hderives : DerivesGoal (scan source.toList).lexemes tree goal)
    (herror : (scan source.toList).lexemes.findSome? literalError? = some error) :
    parse goal source = .error error := by
  obtain ⟨state, hrun, hfinish⟩ := finish_of_derivesGoal hderives
  rw [parse, ofScan, hrun, hstop]
  simp only [hfinish, herror]

/-- A source that scans, and whose tokens derive a tree and are all readable, has that tree. -/
theorem parse_eq_ok_of_derivesTree {goal : Goal} {source : String} {t : Expr}
    (hstop : (scan source.toList).stop? = none)
    (hderives : DerivesTree goal ((scan source.toList).lexemes.map (·.token)) t)
    (hreadable : ∀ lexeme ∈ (scan source.toList).lexemes, lexeme.token.Readable) :
    ∃ tree, parse goal source = .ok tree ∧ tree.unlocated = t := by
  obtain ⟨tree, htree, rfl⟩ := derivesTree_at_places hderives
  have hshort : ShortLiterals (scan source.toList).lexemes :=
    fun lexeme hmem => (hreadable lexeme hmem).1
  have hsmall := (findSome?_literalError?_eq_none_iff hshort).mpr
    fun lexeme hmem => (hreadable lexeme hmem).2
  exact ⟨tree, parse_eq_ok_iff.mpr ⟨hstop, htree, hsmall⟩, rfl⟩

/-- Reading a source agrees with the grammar. -/
structure AgreesWithGrammar (goal : Goal) (source : String) : Prop where
  /-- A source has a tree exactly if it scans, the grammar derives the tree from its tokens, and all
  its integer literals have 64-bit values. -/
  tree_iff : ∀ t, (∃ tree, parse goal source = .ok tree ∧ tree.unlocated = t) ↔
    (scan source.toList).stop? = none ∧
      DerivesTree goal ((scan source.toList).lexemes.map (·.token)) t ∧
      ∀ lexeme ∈ (scan source.toList).lexemes, ¬ lexeme.token.Oversized
  /-- If only literals stand in the way, the first one that is too large is named, at the place
  where its digits stand in the source. -/
  first_oversized : (scan source.toList).stop? = none →
    (∃ t, DerivesTree goal ((scan source.toList).lexemes.map (·.token)) t) →
    (∃ lexeme ∈ (scan source.toList).lexemes, lexeme.token.Oversized) →
    ∃ before digits loc after,
      (scan source.toList).lexemes = before ++ ⟨.int digits, loc⟩ :: after ∧
      (∀ lexeme ∈ before, ¬ lexeme.token.Oversized) ∧ (Token.int digits).Oversized ∧
      parse goal source = .error (.rejected (.integerTooLarge digits) loc) ∧
      ∃ text rest, source.toList = text ++ digits.toList ++ rest ∧ loc = Loc.start.after text

/-- Reading accepts exactly the grammar: every source whose literals are short enough to be looked
at is read as the grammar says, and the grammar derives at most one tree from any tokens. -/
theorem parse_accepts (goal : Goal) (source : String)
    (hshort : ShortLiterals (scan source.toList).lexemes) :
    AgreesWithGrammar goal source ∧
      ∀ tokens t t', DerivesTree goal tokens t → DerivesTree goal tokens t' → t = t' := by
  have hsmall := findSome?_literalError?_eq_none_iff hshort
  refine ⟨⟨fun t => ⟨?_, ?_⟩, ?_⟩, fun _ _ _ => derivesTree_unique⟩
  · rintro ⟨tree, hparse, rfl⟩
    obtain ⟨hstop, hderives, hliteral⟩ := parse_eq_ok_iff.mp hparse
    exact ⟨hstop, ⟨_, tree, rfl, hderives, rfl⟩, hsmall.mp hliteral⟩
  · rintro ⟨hstop, hderives, hliteral⟩
    exact parse_eq_ok_of_derivesTree hstop hderives
      fun lexeme hmem => ⟨hshort lexeme hmem, hliteral lexeme hmem⟩
  · rintro hstop ⟨t, hderives⟩ hlarge
    obtain ⟨tree, htree, rfl⟩ := derivesTree_at_places hderives
    obtain ⟨before, digits, loc, after, hsplit, hbefore, hdigits, herror⟩ :=
      findSome?_literalError?_eq_some hshort hlarge
    have hplace : (⟨.int digits, loc⟩ : Lexeme).IsIn source.toList := by
      refine scan_places source.toList _ ?_
      rw [hsplit]
      exact List.mem_append_right _ List.mem_cons_self
    exact ⟨before, digits, loc, after, hsplit, hbefore, hdigits,
      parse_eq_literal_error hstop htree herror, hplace⟩

/-- Braces in all the places where they may stand, and a literal that is just too large. -/
theorem parse_accepts_braces :
    let source := "if f(true) {{x}} else if 1 {[2,]} while {0} {f 18446744073709551616}"
    ShortLiterals (scan source.toList).lexemes ∧ AgreesWithGrammar .program source := by
  intro source
  have hshort : ShortLiterals (scan source.toList).lexemes := by decide +kernel
  exact ⟨hshort, (parse_accepts .program source hshort).1⟩

end ExprLang.Reader
