import ExprLang.Proofs.Expr.Moved
import ExprLang.Proofs.Reader.Overlong
import ExprLang.Proofs.Token.Elsewhere

/-!
# Sources one below the other

Two programs on lines below each other are one program, that of the expressions of both
(`parse_concatenated`). Nothing has to separate them, since no expression begins with a token that
could be taken for a part of the one before it; and the newline between the two texts ends whatever
word, literal or comment the first one ends in.

What is read of the second text is what it is read as alone, at places that are that many lines
further down: neither the scanner nor the grammar looks at a place, so tokens and trees move along
with the text.
-/

namespace ExprLang

/-! ## Further down -/

/-- The place that is a number of lines further down. -/
def Loc.below (lines : Nat) (place : Loc) : Loc := ⟨place.line + lines, place.col⟩

namespace Loc

variable {place : Loc} {lines : Nat}

theorem next_below (c : Char) : (place.below lines).next c = (place.next c).below lines := by
  unfold next
  split
  · rw [below, below, Nat.add_right_comm]
  · rfl

theorem advances_below (lines : Nat) : Advances fun place place' => place' = place.below lines := by
  rintro place _ c rfl
  exact next_below c

theorem line_after (place : Loc) (text : List Char) :
    (place.after text).line = place.line + text.count '\n' := by
  induction text generalizing place with
  | nil => rfl
  | cons c text ih =>
      rw [after_cons, ih, List.count_cons, next]
      split
      next h => simp [h, Nat.add_right_comm, Nat.add_assoc]
      next h => simp [h]

/-- A text that follows a newline begins as many lines further down as there are newlines before
it. -/
theorem start_below (text : List Char) :
    start.after (text ++ ['\n']) = start.below (text.count '\n' + 1) := by
  have hline := line_after start text
  have hnext : start.after (text ++ ['\n']) = ⟨(start.after text).line + 1, 1⟩ :=
    after_append ..
  rw [hnext, hline, Nat.add_assoc]
  rfl

end Loc

/-- A token at the place that its place moves to. -/
def Lexeme.moved (move : Loc → Loc) (lexeme : Lexeme) : Lexeme :=
    ⟨lexeme.token, move lexeme.loc⟩

theorem Lexeme.Alike.eq_map_moved {move : Loc → Loc} {lexemes lexemes' : List Lexeme}
    (h : List.Forall₂ (Lexeme.Alike fun place place' => place' = move place) lexemes lexemes') :
    lexemes' = lexemes.map (Lexeme.moved move) := by
  induction h with
  | nil => rfl
  | @cons lexeme lexeme' _ _ hfirst _ ih =>
      have heq : lexeme' = lexeme.moved move := by
        rw [Lexeme.moved, ← hfirst.token, ← hfirst.loc]
      rw [List.map_cons, heq, ih]

/-- The tokens of a text below another one: those of both, the latter further down. -/
theorem scan_below {first : List Char} (hstop : (scan first).stop? = none) (second : List Char) :
    (scan (first ++ '\n' :: second)).lexemes = (scan first).lexemes
        ++ (scan second).lexemes.map (Lexeme.moved (Loc.below (first.count '\n' + 1))) ∧
      ((scan (first ++ '\n' :: second)).stop? = none ↔ (scan second).stop? = none) := by
  obtain ⟨hidle, hfirst⟩ := newline_idle hstop
  obtain ⟨lexemes, hlexemes, halike, hstops⟩ :=
    scan_append (Loc.advances_below (first.count '\n' + 1)) (Loc.start_below first)
      (cut_of_idle hidle second)
  rw [List.append_cons, hlexemes, hfirst, Lexeme.Alike.eq_map_moved halike]
  exact ⟨rfl, hstops⟩

namespace Grammar

/-! ## Derivations that move -/

/-- The phrase that the tokens of a phrase derive at other places. -/
def Phrase.moved (move : Loc → Loc) : Phrase → Phrase
  | .expr e => .expr (e.moved move)
  | .choice e => .choice (e.moved move)
  | .call e => .call (e.moved move)
  | .block es => .block (es.map (Expr.moved move))
  | .sequence es => .sequence (es.map (Expr.moved move))
  | .items es => .items (es.map (Expr.moved move))

theorem IsParameters.moved {move : Loc → Loc} {lexemes : List Lexeme} {names : List String}
    (h : IsParameters lexemes names) : IsParameters (lexemes.map (Lexeme.moved move)) names := by
  unfold IsParameters at h ⊢
  rw [← h, List.map_map]
  rfl

/-- What tokens derive moves along with them. -/
theorem Derives.moved {move : Loc → Loc} {lexemes : List Lexeme} {phrase : Phrase}
    (h : Derives lexemes phrase) : Derives (lexemes.map (Lexeme.moved move))
    (phrase.moved move) := by
  induction h with
  | int => exact .int
  | str => exact .str
  | litTrue => exact .litTrue
  | litFalse => exact .litFalse
  | litNull => exact .litNull
  | name => exact .name
  | list _ ih =>
      simp only [List.map_append, Phrase.moved, Expr.moved, Expr.movedAll_eq]
      exact .list ih
  | fn hparams _ ih =>
      simp only [List.map_append, Phrase.moved, Expr.moved_curried, Expr.moved, Expr.movedAll_eq]
      exact .fn hparams.moved ih
  | braces _ ih =>
      simp only [Phrase.moved, Expr.moved, Expr.movedAll_eq]
      exact .braces ih
  | call _ _ ihCallee ihArgs =>
      simp only [List.map_append, Phrase.moved, Expr.moved_applied]
      exact .call ihCallee ihArgs
  | binding _ ih => exact .binding ih
  | loop _ _ ihTest ihBody =>
      simp only [List.map_append, Phrase.moved, Expr.moved, Expr.movedAll_eq]
      exact .loop ihTest ihBody
  | ofChoice _ ih => exact .ofChoice ih
  | ofCall _ ih => exact .ofCall ih
  | noElse _ _ ihTest ihYes =>
      simp only [List.map_append, Phrase.moved, Expr.moved, Expr.movedAll_eq]
      exact .noElse ihTest ihYes
  | blockElse _ _ _ ihTest ihYes ihNo =>
      simp only [List.map_append, Phrase.moved, Expr.moved, Expr.movedAll_eq]
      exact .blockElse ihTest ihYes ihNo
  | elseIf _ _ _ ihTest ihYes ihNo =>
      simp only [List.map_append, Phrase.moved, Expr.moved, Expr.movedAll_eq]
      exact .elseIf ihTest ihYes ihNo
  | block _ ih =>
      rw [List.map_append]
      exact .block ih
  | endSequence => exact .endSequence
  | semicolon _ ih => exact .semicolon ih
  | next _ _ ihFirst ihRest =>
      rw [List.map_append]
      exact .next ihFirst ihRest
  | endItems => exact .endItems
  | lastItem _ ih => exact .lastItem ih
  | item _ _ ihFirst ihRest =>
      rw [List.map_append]
      exact .item ihFirst ihRest

/-! ## Sequences in two parts -/

/-- A sequence goes on with another one. -/
theorem Derives.sequence_append {lexemes lexemes' : List Lexeme} {es es' : List Expr}
    (h : Derives lexemes (.sequence es)) (h' : Derives lexemes' (.sequence es')) :
    Derives (lexemes ++ lexemes') (.sequence (es ++ es')) := by
  generalize hphrase : Phrase.sequence es = phrase at h
  induction h generalizing es with
  | endSequence =>
      obtain rfl : es = [] := Phrase.sequence.inj hphrase
      exact h'
  | semicolon _ ih => exact .semicolon (ih hphrase)
  | next hfirst _ _ ih =>
      obtain rfl := Phrase.sequence.inj hphrase
      rw [List.append_assoc]
      exact .next hfirst (ih rfl)
  | _ => cases hphrase

end Grammar

namespace Reader

open Grammar

/-! ## Sources in two parts -/

/-- Whether a literal can be read does not depend on its place. -/
theorem findSome?_literalError?_moved {move : Loc → Loc} {lexemes : List Lexeme}
    (h : lexemes.findSome? literalError? = none) :
    (lexemes.map (Lexeme.moved move)).findSome? literalError? = none := by
  rw [List.findSome?_eq_none_iff] at h ⊢
  refine List.forall_mem_map.mpr fun lexeme hmem => ?_
  have hreadable : lexeme.token.Readable := literalError?_eq_none_iff.mp (h lexeme hmem)
  exact literalError?_eq_none_iff.mpr hreadable

/-- Two programs below each other are one program: its expressions are those of the first one as
they stand, and behind them those of the second one, which are as many lines further down as their
text is. -/
theorem parse_concatenated {first second : String} {es es' : List Expr}
    (hfirst : parse .program first = .ok (.program none es))
    (hsecond : parse .program second = .ok (.program none es')) :
    parse .program (first ++ "\n" ++ second) = .ok (.program none
      (es ++ es'.map (Expr.moved (Loc.below (first.toList.count '\n' + 1))))) := by
  obtain ⟨hstop, ⟨_, hes, heq⟩, hliteral⟩ := parse_eq_ok_iff.mp hfirst
  obtain ⟨hstop', ⟨_, hes', heq'⟩, hliteral'⟩ := parse_eq_ok_iff.mp hsecond
  obtain ⟨-, rfl⟩ := Expr.program.inj heq
  obtain ⟨-, rfl⟩ := Expr.program.inj heq'
  have htext : (first ++ "\n" ++ second).toList = first.toList ++ '\n' :: second.toList := by
    simp [String.toList_append]
  obtain ⟨hlexemes, hstops⟩ := scan_below hstop second.toList
  rw [parse_eq_ok_iff, htext, hlexemes]
  refine ⟨hstops.mpr hstop', ⟨_, hes.sequence_append hes'.moved, rfl⟩, ?_⟩
  rw [List.findSome?_append, hliteral, findSome?_literalError?_moved hliteral']
  rfl

/-- A text over two lines, an `if` without an `else` and a comment at the end of the first
program. -/
theorem parse_concatenated_comment :
    let first := "let x = \"a\nb\"; if x {f} # end"
    let second := "[1] x"
    let es : List Expr := [.binding (some ⟨1, 1⟩) "x" (.str none "a\nb"),
      .choice (some ⟨2, 5⟩) (.ident (some ⟨2, 8⟩) "x")
        (.block none [.ident (some ⟨2, 11⟩) "f"])
        (.block none [.null])]
    parse .program first = .ok (.program none es) ∧
      parse .program second = .ok
        (.program none [.list none [.int none 1], .ident (some ⟨1, 5⟩) "x"]) ∧
      parse .program (first ++ "\n" ++ second)
        = .ok (.program none (es ++ [.list none [.int none 1], .ident (some ⟨3, 5⟩) "x"])) := by
  have hfirst : parse .program "let x = \"a\nb\"; if x {f} # end" = .ok (.program none
      [.binding (some ⟨1, 1⟩) "x" (.str none "a\nb"),
        .choice (some ⟨2, 5⟩) (.ident (some ⟨2, 8⟩) "x")
          (.block none [.ident (some ⟨2, 11⟩) "f"])
          (.block none [.null])]) := by rfl
  have hsecond : parse .program "[1] x"
      = .ok (.program none [.list none [.int none 1], .ident (some ⟨1, 5⟩) "x"]) := by rfl
  exact ⟨hfirst, hsecond, parse_concatenated hfirst hsecond⟩

end Reader

end ExprLang
