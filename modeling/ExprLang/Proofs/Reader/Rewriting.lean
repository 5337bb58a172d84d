import ExprLang.Proofs.Reader.Overlong
import ExprLang.Proofs.Reader.Sugar
import ExprLang.Proofs.Token.Parts
import Mathlib.Logic.Relation

/-!
# Rewriting sources

The surface syntax has several spellings for one tree: semicolons may be left out, argument lists of
one call may be joined or taken apart, a comma may stand behind the last of some expressions, an
`if` after an `else` may stand in braces, a missing `else` may be spelled out, and there may be any
blanks and comments between two tokens. `Rewrites` says what each of these does to the text of a
source, wherever it stands in it. However many of them are made one after the other, a source that
is accepted stays one, and its tree stays the same but for its locations (`parse_rewritten`).
-/

namespace ExprLang.Reader

open Grammar

/-! ## The rewrites -/

/-- The text of some expressions with commas between them, and none after the last. -/
structure IsListed (text : List Char) : Prop where
  rested : Rested text
  listed : ∃ es, Listed (placed (tokensOf text)) es

/-- A text with a list behind it, or with the arguments of a call, up to the last expression of
them. -/
structure Opens (before : List Char) (opening closing : Sign) (items : List Char) : Prop where
  rested : Rested before
  brackets : Brackets (tokensOf before) opening closing
  items : IsListed items

/-- One spelling of a source and another one of the same. -/
inductive Rewrites : List Char → List Char → Prop
  /-- Blanks instead of a semicolon. -/
  | semicolon {before blanks after} :
      Rested before → blanks ≠ [] → (∀ c ∈ blanks, isBlank c = true) →
      Rewrites (before ++ ';' :: after) (before ++ blanks ++ after)
  /-- A comma instead of the brackets between two lists of arguments. -/
  | join {before args gap args' after} : Opens before .openParen .closeParen args → Gap gap →
      IsListed args' →
      Rewrites (before ++ '(' :: (args ++ ')' :: (gap ++ '(' :: (args' ++ ')' :: after))))
        (before ++ '(' :: (args ++ ',' :: (args' ++ ')' :: after)))
  /-- Brackets instead of a comma between two arguments. -/
  | part {before args args' after} : Opens before .openParen .closeParen args → IsListed args' →
      Rewrites (before ++ '(' :: (args ++ ',' :: (args' ++ ')' :: after)))
        (before ++ '(' :: (args ++ ')' :: '(' :: (args' ++ ')' :: after)))
  /-- A comma behind the last of some expressions. -/
  | addComma {before opening closing items gap after} : Opens before opening closing items →
      Gap gap →
      Rewrites (before ++ opening.char :: (items ++ (gap ++ closing.char :: after)))
        (before ++ opening.char :: (items ++ ',' :: (gap ++ closing.char :: after)))
  /-- No comma behind the last of some expressions. -/
  | dropComma {before opening closing items gap after} : Opens before opening closing items →
      Gap gap →
      Rewrites (before ++ opening.char :: (items ++ ',' :: (gap ++ closing.char :: after)))
        (before ++ opening.char :: (items ++ (gap ++ closing.char :: after)))
  /-- Braces around an `if` that follows an `else`. -/
  | braceElse {before inner after e} : Closed before →
      (tokensOf before).getLast? = some (.keyword .kwElse) → Closed inner →
      Derives (placed (tokensOf inner)) (.choice e) →
      (tokensOf after).head? ≠ some (.keyword .kwElse) →
      Rewrites (before ++ (inner ++ after)) (before ++ '{' :: (inner ++ '}' :: after))
  /-- An `else` for an `if` that has none. -/
  | addElse {before choice test yes c es after} : Closed before → Closed choice →
      tokensOf choice = .keyword .kwIf :: (test ++ yes) → Derives (placed test) (.expr c) →
      Derives (placed yes) (.block es) → (tokensOf after).head? ≠ some (.keyword .kwElse) →
      Rewrites (before ++ (choice ++ after))
        (before ++ (choice ++ (" else { null }".toList ++ after)))
  /-- Blanks and comments between two tokens. -/
  | gap {before gap after} : Rested before → Cut before after → Gap gap →
      Rewrites (before ++ after) (before ++ (gap ++ after))

/-! ## What a rewrite keeps -/

/-- A text is read as a tree, locations left aside. -/
structure Accepts (goal : Goal) (text : List Char) (tree : Expr) : Prop where
  stop : (scan text).stop? = none
  derives : DerivesTree goal (tokensOf text) tree
  readable : ∀ token ∈ tokensOf text, token.Readable

theorem accepts_of_parse {goal : Goal} {source : String} {tree : Expr}
    (h : parse goal source = .ok tree) : Accepts goal source.toList tree.unlocated := by
  obtain ⟨hstop, hderives, hliteral⟩ := parse_eq_ok_iff.mp h
  refine ⟨hstop, ⟨_, tree, rfl, hderives, rfl⟩,
    List.forall_mem_map.mpr fun lexeme hmem => ?_⟩
  exact literalError?_eq_none_iff.mp (List.findSome?_eq_none_iff.mp hliteral lexeme hmem)

section
variable {goal : Goal} {text text' after : List Char} {old new : List Token} {tree : Expr}

/-- A text with other tokens in front is accepted if the grammar derives the same from them, and if
all literals among them are old. -/
theorem Accepts.of_splits (h : Accepts goal text tree) (hold : Splits text old after)
    (hnew : Splits text' new after)
    (hderives : DerivesTree goal (old ++ tokensOf after) tree →
      DerivesTree goal (new ++ tokensOf after) tree)
    (hdigits : ∀ token ∈ new, token ∈ old ∨ token.digits = []) :
    Accepts goal text' tree := by
  obtain ⟨hstop, htree, hreadable⟩ := h
  rw [hold.tokens] at htree hreadable
  refine ⟨hnew.stop.mpr (hold.stop.mp hstop), hnew.tokens ▸ hderives htree, ?_⟩
  rw [hnew.tokens]
  refine List.forall_mem_append.mpr ⟨fun token hmem => ?_, fun token hmem => ?_⟩
  · obtain hmem | hnone := hdigits token hmem
    · exact hreadable token (List.mem_append_left _ hmem)
    · exact Token.readable_of_digits hnone
  · exact hreadable token (List.mem_append_right _ hmem)

namespace Opens

variable {before items args args' gap : List Char} {opening closing : Sign}

/-- A bracket that opens arguments opens no parameters. -/
theorem not_fn (h : Opens before .openParen .closeParen items) :
    (tokensOf before).getLast? ≠ some (.keyword .kwFn) := by
  obtain ⟨-, hbrackets, -⟩ := h
  cases hbrackets with
  | arguments hbefore => exact hbefore

theorem splits_without (h : Opens before opening closing items) (hgap : Gap gap)
    (after : List Char) :
    Splits (before ++ opening.char :: (items ++ (gap ++ closing.char :: after)))
      (tokensOf before ++ .sign opening :: (tokensOf items ++ [.sign closing])) after := by
  have hsplits := (splits_sign h.rested opening _).trans
    (splits_gap_sign h.items.rested hgap closing after)
  rwa [List.append_assoc, List.singleton_append] at hsplits

theorem splits_with (h : Opens before opening closing items) (hgap : Gap gap) (after : List Char) :
    Splits (before ++ opening.char :: (items ++ ',' :: (gap ++ closing.char :: after)))
      (tokensOf before ++ .sign opening :: (tokensOf items ++ [.sign .comma, .sign closing]))
        after := by
  have hclosing : Splits (gap ++ closing.char :: after) [.sign closing] after :=
    @splits_gap_sign [] _ trivial hgap closing after
  have hsplits := (splits_sign h.rested opening _).trans
    ((splits_sign h.items.rested .comma _).trans hclosing)
  rwa [List.append_assoc, List.append_assoc, List.singleton_append] at hsplits

theorem splits_two (h : Opens before .openParen .closeParen args) (hgap : Gap gap)
    (hargs' : IsListed args') (after : List Char) :
    Splits (before ++ '(' :: (args ++ ')' :: (gap ++ '(' :: (args' ++ ')' :: after))))
      (tokensOf before ++ .sign .openParen
        :: (tokensOf args ++ .sign .closeParen :: .sign .openParen ::
        (tokensOf args' ++ [.sign .closeParen]))) after := by
  have hsecond := splits_sign hargs'.rested .closeParen after
  have hopen : Splits (gap ++ '(' :: (args' ++ ')' :: after)) [.sign .openParen]
      (args' ++ ')' :: after) :=
    @splits_gap_sign [] _ trivial hgap .openParen _
  have hsplits := (splits_sign h.rested .openParen _).trans
    ((splits_sign h.items.rested .closeParen _).trans (hopen.trans hsecond))
  rwa [List.append_assoc, List.append_assoc, List.singleton_append] at hsplits

theorem splits_one (h : Opens before .openParen .closeParen args) (hargs' : IsListed args')
    (after : List Char) :
    Splits (before ++ '(' :: (args ++ ',' :: (args' ++ ')' :: after)))
      (tokensOf before ++ .sign .openParen :: (tokensOf args ++ .sign .comma ::
        (tokensOf args' ++ [.sign .closeParen]))) after := by
  have hsplits := (splits_sign h.rested .openParen _).trans
    ((splits_sign h.items.rested .comma _).trans (splits_sign hargs'.rested .closeParen after))
  rwa [List.append_assoc, List.append_assoc, List.singleton_append] at hsplits

end Opens

/-- What is accepted stays so under a rewrite. -/
theorem Rewrites.accepts (h : Rewrites text text') (haccepts : Accepts goal text tree) :
    Accepts goal text' tree := by
  cases h with
  | @semicolon before blanks after hbefore hne hblanks =>
      have hnew := splits_gap hbefore (gap_of_blanks hblanks) hne after
      rw [← List.append_assoc] at hnew
      refine haccepts.of_splits (splits_sign hbefore .semicolon _) hnew (fun hderives => ?_)
        fun token hmem => ?_
      · rw [List.append_assoc] at hderives
        exact hderives.drop_semicolon
      · exact .inl (List.mem_append_left _ hmem)
  | join hopens hgap hargs' =>
      obtain ⟨es, hlisted⟩ := hopens.items.listed
      obtain ⟨es', hlisted'⟩ := hargs'.listed
      refine haccepts.of_splits (hopens.splits_two hgap hargs' _) (hopens.splits_one hargs' _) ?_ ?_
      · simpa only [List.append_assoc, List.cons_append]
          using (DerivesTree.same_call_iff hopens.not_fn hlisted hlisted').mp
      · simp only [List.mem_append, List.mem_cons]
        grind [Token.digits]
  | part hopens hargs' =>
      obtain ⟨es, hlisted⟩ := hopens.items.listed
      obtain ⟨es', hlisted'⟩ := hargs'.listed
      refine haccepts.of_splits (hopens.splits_one hargs' _) (hopens.splits_two .nil hargs' _) ?_ ?_
      · simpa only [List.append_assoc, List.cons_append]
          using (DerivesTree.same_call_iff hopens.not_fn hlisted hlisted').mpr
      · simp only [List.mem_append, List.mem_cons]
        grind [Token.digits]
  | addComma hopens hgap =>
      obtain ⟨es, hlisted⟩ := hopens.items.listed
      refine haccepts.of_splits (hopens.splits_without hgap _) (hopens.splits_with hgap _) ?_ ?_
      · simpa only [List.append_assoc, List.cons_append]
          using (DerivesTree.trailing_iff hopens.brackets hlisted).mp
      · simp only [List.mem_append, List.mem_cons]
        grind [Token.digits]
  | dropComma hopens hgap =>
      obtain ⟨es, hlisted⟩ := hopens.items.listed
      refine haccepts.of_splits (hopens.splits_with hgap _) (hopens.splits_without hgap _) ?_ ?_
      · simpa only [List.append_assoc, List.cons_append]
          using (DerivesTree.trailing_iff hopens.brackets hlisted).mpr
      · simp only [List.mem_append, List.mem_cons]
        grind [Token.digits]
  | @braceElse before inner after e hbefore hlast hinner hchoice helse =>
      obtain ⟨front, hfront⟩ := List.getLast?_eq_some_iff.mp hlast
      have hold := (splits_of_closed hbefore _).trans (splits_of_closed hinner after)
      have hnew := (splits_sign hbefore.rested .openBrace _).trans
        (splits_sign hinner.rested .closeBrace after)
      rw [hfront] at hold hnew
      refine haccepts.of_splits hold hnew ?_ ?_
      · simpa only [List.append_assoc, List.cons_append, List.nil_append]
          using DerivesTree.brace_else hchoice helse
      · simp only [List.mem_append, List.mem_cons]
        grind [Token.digits]
  | @addElse before choice test yes c es after hbefore hchoice htokens htest hyes helse =>
      have hspelled : Closed " else { null }".toList := by rfl
      have hold := (splits_of_closed hbefore _).trans (splits_of_closed hchoice after)
      have hnew := (splits_of_closed hbefore _).trans
        ((splits_of_closed hchoice _).trans (splits_of_closed hspelled after))
      have hnull : tokensOf " else { null }".toList
          = [.keyword .kwElse, .sign .openBrace, .keyword .kwNull, .sign .closeBrace] := by rfl
      rw [htokens] at hold hnew
      rw [hnull] at hnew
      refine haccepts.of_splits hold hnew ?_ ?_
      · simpa only [List.append_assoc, List.cons_append, List.nil_append]
          using DerivesTree.spell_noElse htest hyes helse
      · simp only [List.mem_append, List.mem_cons]
        grind [Token.digits]
  | @gap before gap after hbefore hcut hgap =>
      have hnew : Splits (before ++ (gap ++ after)) (tokensOf before) after := by
        by_cases hne : gap = []
        · rw [hne]
          exact splits_of_cut hcut
        · exact splits_gap hbefore hgap hne after
      exact haccepts.of_splits (splits_of_cut hcut) hnew id fun token hmem => .inl hmem

/-- However many rewrites are made, what is accepted stays so. -/
theorem Accepts.rewritten (h : Accepts goal text tree)
    (hrewrites : Relation.ReflTransGen Rewrites text text') : Accepts goal text' tree := by
  induction hrewrites with
  | refl => exact h
  | tail _ hlast ih => exact hlast.accepts ih

end

/-- A source that is accepted stays one under any number of rewrites, and its tree stays the same
but for its locations. -/
theorem parse_rewritten {goal : Goal} {source source' : String} {tree : Expr}
    (hparse : parse goal source = .ok tree)
    (hrewrites : Relation.ReflTransGen Rewrites source.toList source'.toList) :
    ∃ tree', parse goal source' = .ok tree' ∧ tree'.unlocated = tree.unlocated := by
  obtain ⟨hstop, hderives, hreadable⟩ := (accepts_of_parse hparse).rewritten hrewrites
  exact parse_eq_ok_of_derivesTree hstop hderives (List.forall_mem_map.mp hreadable)

/-- A semicolon that is left out, and two lists of arguments that are joined. -/
theorem parse_rewritten_call :
    Relation.ReflTransGen Rewrites "f(1)(2);x".toList "f(1,2) x".toList ∧
    ∃ tree tree', parse .program "f(1)(2);x" = .ok tree ∧
      parse .program "f(1,2) x" = .ok tree' ∧
      tree'.unlocated = tree.unlocated := by
  have hsemicolon : Rewrites "f(1)(2);x".toList "f(1)(2) x".toList :=
    @Rewrites.semicolon "f(1)(2)".toList [' '] ['x'] trivial nofun
      (List.forall_mem_singleton.mpr rfl)
  have hfirst : IsListed ['1'] := ⟨rfl, _, .last (.ofCall .int)⟩
  have hsecond : IsListed ['2'] := ⟨rfl, _, .last (.ofCall .int)⟩
  have hjoin : Rewrites "f(1)(2) x".toList "f(1,2) x".toList :=
    @Rewrites.join ['f'] ['1'] [] ['2'] [' ', 'x'] ⟨rfl, .arguments (by decide +kernel), hfirst⟩
      .nil hsecond
  have hrewrites := (Relation.ReflTransGen.single hsemicolon).tail hjoin
  have hparse : parse .program "f(1)(2);x" = .ok (.program none
      [.applied ⟨1, 1⟩ (.ident (some ⟨1, 1⟩) "f") [.int none 1, .int none 2],
        .ident (some ⟨1, 9⟩) "x"]) := by rfl
  obtain ⟨tree', hparse', htree⟩ := parse_rewritten hparse hrewrites
  exact ⟨hrewrites, _, tree', hparse, hparse', htree⟩

end ExprLang.Reader
