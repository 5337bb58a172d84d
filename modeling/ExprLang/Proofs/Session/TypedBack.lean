import ExprLang.Proofs.Eval.Calls
import ExprLang.Proofs.Expr.Equality
import ExprLang.Proofs.Printer.RoundTrip
import ExprLang.Proofs.Session.Survival

/-!
# Data that is typed back

The display form of a number, a text without a quote, a truth value, null or a list of such data is
its source form as well. So a line that is what the console shows for it is read as a literal of it,
and evaluating the literal gives it again and does nothing else (`display_typed_back`).

A list literal is no list value: its members are evaluated one after another. It is a plain
expression without names though, so what it stands for does not depend on the scope.
-/

namespace ExprLang

/-! ## Data that can be typed -/

/-- Numbers, texts without a quote, truth values, null, and lists of such data. -/
inductive IsTypable : Expr → Prop
  | int (loc : Option Loc) (value : UInt64) : IsTypable (.int loc value)
  | str (loc : Option Loc) {text : String} : '"' ∉ text.toList → IsTypable (.str loc text)
  | bool (loc : Option Loc) (value : Bool) : IsTypable (.bool loc value)
  | null : IsTypable .null
  | list (loc : Option Loc) {items : List Expr} :
      (∀ e ∈ items, IsTypable e) → IsTypable (.list loc items)

namespace IsTypable

variable {v : Expr}

theorem shaped (h : IsTypable v) : ParserShaped v := by
  induction h with
  | int => exact .int
  | str _ hquote => exact .str hquote
  | bool => exact .bool
  | null => exact .null
  | list _ _ ih => exact .list ih

theorem operand (h : IsTypable v) : IsOperand v := by
  induction h with
  | int loc value => exact .int loc value
  | str loc _ => exact .str loc _
  | bool loc value => exact .bool loc value
  | null => exact .null
  | list loc _ ih => exact .list loc ih

theorem holdsFunction (h : IsTypable v) : v.holdsFunction = false := by
  induction h with
  | list loc _ ih =>
      rw [Expr.holdsFunction, Expr.anyHoldsFunction_eq, List.any_eq_false]
      intro e hmem
      rw [ih e hmem]
      exact Bool.false_ne_true
  | _ => rfl

/-- Data of this kind agrees with whatever is the same without its locations. -/
theorem agrees_of_unlocated (h : IsTypable v) {w : Expr} (heq : v.unlocated = w.unlocated) :
    agrees .never v w = true := by
  rw [← valuesEqual_never, valuesEqual_iff h.operand]
  exact ⟨heq, h.holdsFunction⟩

/-! ## Its text -/

/-- No style makes a difference: there is nothing to be indented and no function to be spelled
out. -/
theorem piece_eq (h : IsTypable v) (style style' : Style) (level : Int) :
    style.piece level v = style'.piece level v := by
  induction h with
  | @list loc items _ ih =>
      have htexts : style.texts level items = style'.texts level items := by
        rw [texts_eq_map, texts_eq_map]
        exact List.map_congr_left fun e hmem => congrArg Piece.text (ih e hmem)
      rw [Style.piece, Style.piece, htexts]
  | _ => simp only [Style.piece]

theorem display_eq_toSource (h : IsTypable v) : v.display = v.toSource :=
  congrArg Piece.text (h.piece_eq .forDisplay .forSource 0)

/-- The display form is read as a literal of the same data. -/
theorem parse_display (h : IsTypable v) :
    ∃ tree, Reader.parse .expression v.display = .ok tree ∧ v.unlocated = tree.unlocated := by
  obtain ⟨tokens, hspells, hyields⟩ := writes_render 2 0 h.shaped
  obtain ⟨tree, hparse, hagrees⟩ := parse_of_spells hspells hyields.derivesTree_expression
  have hsource : v.display = Style.render ⟨2, true⟩ 0 v := h.display_eq_toSource
  rw [hsource]
  exact ⟨tree, hparse, (agrees_byShape_iff v tree).mp hagrees⟩

/-! ## What the text stands for -/

/-- A literal stands for a value that is the same but for its locations, whatever names stand
for. -/
def Denotes (resolve : String → Option Expr) (v : Expr) : Prop :=
  ∀ tree : Expr, v.unlocated = tree.unlocated →
    ∃ value, plainValue resolve tree = some value ∧ v.unlocated = value.unlocated

theorem denotes_members {resolve : String → Option Expr} {items items' : List Expr}
    (h : ∀ e ∈ items, Denotes resolve e)
    (heq : items.map Expr.unlocated = items'.map Expr.unlocated) :
    ∃ values, plainValues resolve items' = some values ∧
      items.map Expr.unlocated = values.map Expr.unlocated := by
  induction items generalizing items' with
  | nil =>
      rw [List.map_eq_nil_iff.mp heq.symm]
      exact ⟨[], by rw [plainValues], rfl⟩
  | cons e es ih =>
      obtain ⟨e', es', rfl, he, hes⟩ := List.map_eq_cons_iff.mp heq.symm
      obtain ⟨first, hfirst, hsame⟩ := h e List.mem_cons_self e' he.symm
      obtain ⟨rest, hrest, hmap⟩ :=
        ih (fun e hmem => h e (List.mem_cons_of_mem _ hmem)) hes.symm
      refine ⟨first :: rest, plainValues_cons_eq_some.mpr ⟨_, _, rfl, hfirst, hrest⟩, ?_⟩
      rw [List.map_cons, List.map_cons, hsame, hmap]

theorem denotes (h : IsTypable v) (resolve : String → Option Expr) : Denotes resolve v := by
  induction h with
  | @list loc items _ ih =>
      intro tree htree
      cases tree with
      | list loc' items' =>
          have hitems : items.map Expr.unlocated = items'.map Expr.unlocated := by
            simpa [Expr.unlocated] using htree
          obtain ⟨values, hvalues, hmap⟩ := denotes_members ih hitems
          refine ⟨.list none values, ?_, ?_⟩
          · rw [plainValue, hvalues]
            rfl
          · simpa [Expr.unlocated] using hmap
      | _ => simp [Expr.unlocated] at htree
  | _ =>
      intro tree htree
      cases tree <;> simp_all [Expr.unlocated, plainValue]

end IsTypable

/-! ## Lines that are what is shown -/

/-- What the console shows for data, and what becomes of a session in which it is typed as a
line. -/
structure TypedBack (session : Session) (v : Expr) : Prop where
  /-- What is shown is the source form. -/
  source : v.display = v.toSource
  /-- The line succeeds with a value that agrees with the data. -/
  value : ∃ value, (session.handleLine v.display).1 = .ok (.success value) ∧
    agrees .never v value = true
  /-- The scope is what it was, with it the root frame. -/
  scope : (session.handleLine v.display).2.state.scope = session.state.scope
  /-- The last top-level value is what it was. -/
  last : (session.handleLine v.display).2.state.last = session.state.last
  /-- Nothing is read or written. -/
  console : (session.handleLine v.display).2.state.console = session.state.console
  /-- The floors are what they were. -/
  floors : (session.handleLine v.display).2.state.floors = session.state.floors
  /-- Only data that agrees is shown in the same way. -/
  injective : ∀ w, IsTypable w → w.display = v.display → agrees .never v w = true

/-- A line that is the display form of data gives the data, and clears the record of calls. -/
theorem handleLine_display (session : Session) {v : Expr} (h : IsTypable v) :
    ∃ value, session.handleLine v.display = (.ok (.success value), session.cleared) ∧
      v.unlocated = value.unlocated := by
  obtain ⟨tree, hparse, htree⟩ := h.parse_display
  obtain ⟨value, hvalue, hsame⟩ := h.denotes session.cleared.state.scope.resolve tree htree
  have hrun : evaluate session.settings tree session.cleared.state
      = .ok value session.cleared.state := by
    rw [evaluate_eq]
    exact evalWith_plain hvalue
  exact ⟨value, (Session.StepsTo.done hparse hrun).handle_eq, hsame⟩

/-- **What is shown for data can be typed back.** -/
theorem display_typed_back {settings : Settings} {session : Session}
    (hsession : Reachable settings session) {v : Expr} (hv : IsTypable v) :
    TypedBack session v := by
  obtain ⟨value, hline, hsame⟩ := handleLine_display session hv
  refine ⟨hv.display_eq_toSource, ⟨value, ?_, hv.agrees_of_unlocated hsame⟩,
    ?_, ?_, ?_, ?_, ?_⟩
  · rw [hline]
  · rw [hline]
    rfl
  · rw [hline]
    rfl
  · rw [hline]
    rfl
  · -- no step leaves a floor over
    rw [hline, hsession.inOrder.resting.floors]
    rfl
  · intro w hw htext
    obtain ⟨tree, hparse, htree⟩ := hv.parse_display
    obtain ⟨tree', hparse', htree'⟩ := hw.parse_display
    rw [htext] at hparse'
    obtain rfl : tree' = tree := Except.ok.inj (hparse'.symm.trans hparse)
    exact hv.agrees_of_unlocated (htree.trans htree'.symm)

/-- A nested list with a text that looks like a comment and runs over two lines, after a step that
has failed. -/
theorem display_typed_back_nested :
    let session := ((Session.start {} (.ofInput "")).handle .expression "nil").2
    let v := Expr.list none [.str none "# let\n], ",
      .list none [.int none 18446744073709551615, .null]]
    Reachable {} session ∧ IsTypable v ∧ TypedBack session v := by
  intro session v
  have hsession : Reachable {} session := (Reachable.start (.ofInput "")).step .expression "nil"
  have hinner : IsTypable (.list none [.int none 18446744073709551615, .null]) :=
    .list none (List.forall_mem_cons.mpr ⟨.int none _, List.forall_mem_singleton.mpr .null⟩)
  have htext : IsTypable (.str none "# let\n], ") := .str none (by decide)
  have hv : IsTypable v :=
    .list none (List.forall_mem_cons.mpr ⟨htext, List.forall_mem_singleton.mpr hinner⟩)
  exact ⟨hsession, hv, display_typed_back hsession hv⟩

end ExprLang
