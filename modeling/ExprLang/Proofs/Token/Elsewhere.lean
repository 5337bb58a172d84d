import ExprLang.Proofs.Token.Placement
import Mathlib.Data.List.Forall2

/-!
# Scanning behind other text

Where a text stands has no influence on the tokens that are found in it, and their places follow
from the place where it begins: two scans of one text that begin at related places find the same
tokens at related places (`Scanner.Behind.run`), for every relation between places that no character
breaks.

So a text can be scanned in two parts, if it is cut where nothing is open: the tokens of the whole
are those of the first part, and behind them those of the second (`scan_append`).
-/

namespace ExprLang

/-- A relation between places that is kept when the same character follows. -/
def Loc.Advances (R : Loc → Loc → Prop) : Prop :=
  ∀ ⦃place place'⦄ c, R place place' → R (place.next c) (place'.next c)

/-- The same token, at related places. -/
structure Lexeme.Alike (R : Loc → Loc → Prop) (lexeme lexeme' : Lexeme) : Prop where
  token : lexeme'.token = lexeme.token
  loc : R lexeme.loc lexeme'.loc

section
variable {R : Loc → Loc → Prop}

theorem Lexeme.Alike.map_token {lexemes lexemes' : List Lexeme}
    (h : List.Forall₂ (Lexeme.Alike R) lexemes lexemes') :
    lexemes'.map (·.token) = lexemes.map (·.token) := by
  induction h with
  | nil => rfl
  | cons hfirst _ ih => rw [List.map_cons, List.map_cons, hfirst.token, ih]

/-! ## Inside a token -/

/-- The inside of the same token or comment, begun at related places. -/
inductive Mode.Alike (R : Loc → Loc → Prop) : Mode → Mode → Prop
  | idle : Alike R .idle .idle
  | comment : Alike R .comment .comment
  | word {begun begun' chars} : R begun begun' → Alike R (.word begun chars) (.word begun' chars)
  | digits {begun begun' first more} : R begun begun' →
      Alike R (.digits begun first more) (.digits begun' first more)
  | string {begun begun' chars} : R begun begun' →
      Alike R (.string begun chars) (.string begun' chars)
  | stopped {c loc loc'} : R loc loc' → Alike R (.stopped c loc) (.stopped c loc')

namespace Mode

variable {place place' : Loc} {mode mode' : Mode}

theorem start_alike (hplace : R place place') (c : Char) :
    (start place c).1.Alike R (start place' c).1 ∧
      List.Forall₂ (Lexeme.Alike R) (start place c).2 (start place' c).2 := by
  -- what begins depends on the character alone
  unfold start
  split
  · exact ⟨.idle, .nil⟩
  split
  · exact ⟨.comment, .nil⟩
  split
  · exact ⟨.string hplace, .nil⟩
  split
  · exact ⟨.digits hplace, .nil⟩
  split
  · exact ⟨.word hplace, .nil⟩
  split
  · exact ⟨.idle, .cons ⟨rfl, hplace⟩ .nil⟩
  · exact ⟨.stopped hplace, .nil⟩

namespace Alike

theorem pending (h : mode.Alike R mode') :
    List.Forall₂ (Lexeme.Alike R) mode.pending mode'.pending := by
  cases h with
  | word hbegun => exact .cons ⟨rfl, hbegun⟩ .nil
  | digits hbegun => exact .cons ⟨rfl, hbegun⟩ .nil
  | _ => exact .nil

theorem stop?_eq_none_iff (h : mode.Alike R mode') : mode'.stop? = none ↔ mode.stop? = none := by
  cases h <;> simp [stop?]

theorem step (h : mode.Alike R mode') (hplace : R place place') (c : Char) :
    (mode.step place c).1.Alike R (mode'.step place' c).1 ∧
      List.Forall₂ (Lexeme.Alike R) (mode.step place c).2 (mode'.step place' c).2 := by
  -- a character that ends a token begins something else
  obtain ⟨hstart, hsign⟩ := start_alike hplace c
  have hends := List.rel_append hsign h.pending
  cases h with
  | idle => exact ⟨hstart, hsign⟩
  | comment =>
      simp only [Mode.step]
      split
      · exact ⟨.idle, .nil⟩
      · exact ⟨.comment, .nil⟩
  | word hbegun =>
      simp only [Mode.step]
      split
      · exact ⟨.word hbegun, .nil⟩
      · exact ⟨hstart, hends⟩
  | digits hbegun =>
      simp only [Mode.step]
      split
      · exact ⟨.digits hbegun, .nil⟩
      split
      · exact ⟨.stopped hbegun, .nil⟩
      · exact ⟨hstart, hends⟩
  | string hbegun =>
      simp only [Mode.step]
      split
      · exact ⟨.idle, .cons ⟨rfl, hbegun⟩ .nil⟩
      · exact ⟨.string hbegun, .nil⟩
  | stopped hloc => exact ⟨.stopped hloc, .nil⟩

end Alike

end Mode

/-! ## Behind other tokens -/

namespace Scanner

/-- A scanner that has found the same as another one, at related places and behind some older
tokens, and is inside of the same. -/
structure Behind (R : Loc → Loc → Prop) (older : List Lexeme) (scanner scanner' : Scanner) :
    Prop where
  place : R scanner.place scanner'.place
  mode : scanner.mode.Alike R scanner'.mode
  found : ∃ found, scanner'.found = found ++ older ∧
    List.Forall₂ (Lexeme.Alike R) scanner.found found

namespace Behind

variable {older : List Lexeme} {scanner scanner' : Scanner}

theorem step (hR : Loc.Advances R) (h : Behind R older scanner scanner') (c : Char) :
    Behind R older (scanner.step c) (scanner'.step c) := by
  obtain ⟨found, hfound, halike⟩ := h.found
  obtain ⟨hmode, hnew⟩ := h.mode.step h.place c
  refine ⟨hR c h.place, hmode, _, ?_, List.rel_append hnew halike⟩
  rw [Scanner.step, hfound, List.append_assoc]

/-- The same is found in the same text. -/
theorem run (hR : Loc.Advances R) (h : Behind R older scanner scanner') (text : List Char) :
    Behind R older (scanner.run text) (scanner'.run text) := by
  induction text generalizing scanner scanner' with
  | nil => exact h
  | cons c text ih => exact ih (h.step hR c)

theorem finish (h : Behind R older scanner scanner') : ∃ lexemes,
    scanner'.finish.lexemes = older.reverse ++ lexemes ∧
      List.Forall₂ (Lexeme.Alike R) scanner.finish.lexemes lexemes ∧
      (scanner'.finish.stop? = none ↔ scanner.finish.stop? = none) := by
  obtain ⟨found, hfound, halike⟩ := h.found
  have hall := List.rel_append h.mode.pending halike
  refine ⟨(scanner'.mode.pending ++ found).reverse, ?_, List.rel_reverse hall,
    h.mode.stop?_eq_none_iff⟩
  rw [Scanner.finish, hfound, ← List.append_assoc, List.reverse_append]

end Behind

/-- The scanner behind a text, as if it ended there. -/
def after (text : List Char) : Scanner :=
  ⟨Loc.start.after text, .idle, (scan text).lexemes.reverse⟩

theorem behind_after (text : List Char) (hstart : R .start (Loc.start.after text)) :
    Behind R (scan text).lexemes.reverse initial (after text) :=
  ⟨hstart, .idle, [], rfl, .nil⟩

/-- Between tokens nothing is open. -/
theorem run_of_idle {text : List Char} (h : (initial.run text).mode = .idle) :
    initial.run text = after text := by
  have hplace : (initial.run text).place = Loc.start.after text := (placed_run text).place
  have hfound : (scan text).lexemes.reverse = (initial.run text).found := by
    rw [scan, finish, h]
    exact List.reverse_reverse _
  rw [after, hfound, ← hplace, ← h]

end Scanner

/-! ## Texts in two parts -/

/-- A cut between two texts: the second one is scanned as if the first one had ended. -/
def Cut (first second : List Char) : Prop :=
  ((Scanner.initial.run first).run second).finish = ((Scanner.after first).run second).finish

theorem cut_of_idle {first : List Char} (h : (Scanner.initial.run first).mode = .idle)
    (second : List Char) : Cut first second := by
  rw [Cut, Scanner.run_of_idle h]

/-- The tokens of a text that is cut are those of the first part, and those of the second one, which
have moved along with it. -/
theorem scan_append (hR : Loc.Advances R) {first second : List Char}
    (hstart : R .start (Loc.start.after first)) (hcut : Cut first second) : ∃ lexemes,
    (scan (first ++ second)).lexemes = (scan first).lexemes ++ lexemes ∧
      List.Forall₂ (Lexeme.Alike R) (scan second).lexemes lexemes ∧
      ((scan (first ++ second)).stop? = none ↔ (scan second).stop? = none) := by
  obtain ⟨lexemes, hlexemes, halike, hstop⟩ :=
    ((Scanner.behind_after first hstart).run hR second).finish
  rw [List.reverse_reverse] at hlexemes
  rw [scan, Scanner.run_append, hcut]
  exact ⟨lexemes, hlexemes, halike, hstop⟩

/-- Nothing is open behind a newline, unless the scan has stopped: it ends words, literals and
comments. -/
theorem newline_idle {first : List Char} (h : (scan first).stop? = none) :
    (Scanner.initial.run (first ++ ['\n'])).mode = .idle ∧
      (scan (first ++ ['\n'])).lexemes = (scan first).lexemes := by
  have hstop : (Scanner.initial.run first).mode.stop? = none := h
  have hstep : (Scanner.initial.run first).mode.step (Scanner.initial.run first).place '\n'
      = (.idle, (Scanner.initial.run first).mode.pending) := by
    cases hmode : (Scanner.initial.run first).mode with
    | string | stopped =>
        rw [hmode] at hstop
        exact absurd hstop nofun
    | comment | idle | word | digits => rfl
  have hrun : Scanner.initial.run (first ++ ['\n']) = (Scanner.initial.run first).step '\n' :=
    Scanner.run_append _ _ _
  constructor
  · rw [hrun, Scanner.step, hstep]
  · rw [scan, hrun, Scanner.step, hstep]
    rfl

end

end ExprLang
