import ExprLang.Expr.Equality
import ExprLang.Expr.Printer
import ExprLang.Proofs.Eval.OnlyValues

/-!
# Trees under other names

`Expr.renamed` gives all names of a tree other names: those that are looked up, those that are bound
and those of parameters. What a built-in is called is the tag of its operation, and it stays.

A renamed tree has the parts of the tree, renamed, so what is a value stays one. How a value is
displayed and what it equals does not depend on names, since functions are shown as opaque marks and
equal nothing.
-/

namespace ExprLang

namespace Expr

mutual

/-- A tree under other names. -/
def renamed (rename : String → String) : Expr → Expr
  | .int loc value => .int loc value
  | .str loc text => .str loc text
  | .bool loc value => .bool loc value
  | .null => .null
  | .endOfProgram => .endOfProgram
  | .list loc items => .list loc (renamedAll rename items)
  | .ident loc name => .ident loc (rename name)
  | .binding loc name value => .binding loc (rename name) (renamed rename value)
  | .choice loc test yes no =>
      .choice loc (renamed rename test) (renamed rename yes) (renamed rename no)
  | .loop loc test body => .loop loc (renamed rename test) (renamed rename body)
  | .block loc exprs => .block loc (renamedAll rename exprs)
  | .program loc exprs => .program loc (renamedAll rename exprs)
  | .fn loc param body => .fn loc (param.map rename) (renamed rename body)
  | .call loc callee none => .call loc (renamed rename callee) none
  | .call loc callee (some arg) => .call loc (renamed rename callee) (some (renamed rename arg))
  | .builtin loc name missing supplied => .builtin loc name missing (renamedAll rename supplied)

/-- The trees of a list under other names. -/
def renamedAll (rename : String → String) : List Expr → List Expr
  | [] => []
  | e :: es => renamed rename e :: renamedAll rename es

end

variable {rename : String → String}

@[simp] theorem renamedAll_eq (rename : String → String) (es : List Expr) :
    renamedAll rename es = es.map (renamed rename) := by
  induction es with
  | nil => rfl
  | cons e es ih => rw [renamedAll, ih, List.map_cons]

/-! ## Renamed trees -/

theorem parts_renamed (e : Expr) : (e.renamed rename).parts = e.parts.map (renamed rename) := by
  cases e with
  | list | block | program | builtin => simp only [renamed, parts, renamedAll_eq]
  | binding | choice | loop | fn | bareCall | call =>
      simp only [renamed, parts, List.map_cons, List.map_nil]
  | int | str | bool | null | endOfProgram | ident => simp only [renamed, parts, List.map_nil]

end Expr

section
variable {rename : String → String} {e : Expr}

theorem Everywhere.renamed {p q : Expr → Prop} (hpq : ∀ e, p e → q (e.renamed rename))
    (h : Everywhere p e) : Everywhere q (e.renamed rename) := by
  induction h with
  | @of_parts e hnode _ ih =>
      refine .of_parts (hpq e hnode) fun part hpart => ?_
      rw [Expr.parts_renamed] at hpart
      obtain ⟨part, hmem, rfl⟩ := List.mem_map.mp hpart
      exact ih part hmem

theorem IsValue.renamed (h : IsValue e) : IsValue (e.renamed rename) := by
  induction h with
  | int loc value => exact .int loc value
  | str loc text => exact .str loc text
  | bool loc value => exact .bool loc value
  | null => exact .null
  | endOfProgram => exact .endOfProgram
  | fn loc param body => exact .fn loc _ _
  | list loc _ ih =>
      refine .list loc fun e hmem => ?_
      rw [Expr.renamedAll_eq] at hmem
      obtain ⟨item, hitem, rfl⟩ := List.mem_map.mp hmem
      exact ih item hitem
  | builtin loc name missing _ ih =>
      refine .builtin loc name missing fun e hmem => ?_
      rw [Expr.renamedAll_eq] at hmem
      obtain ⟨held, hheld, rfl⟩ := List.mem_map.mp hmem
      exact ih held hheld

/-! ## What does not depend on names -/

theorem Style.texts_renamed {style : Style} {level : Int} {es : List Expr}
    (h : ∀ e ∈ es, style.piece level (e.renamed rename) = style.piece level e) :
    style.texts level (es.map (Expr.renamed rename)) = style.texts level es := by
  induction es with
  | nil => rfl
  | cons e es ih =>
      obtain ⟨he, hes⟩ := List.forall_mem_cons.mp h
      rw [List.map_cons, Style.texts, Style.texts, he, ih hes]

/-- How a value is laid out does not depend on names: functions are shown as marks. -/
theorem IsValue.piece_renamed (h : IsValue e) (level : Int) :
    Style.forDisplay.piece level (e.renamed rename) = Style.forDisplay.piece level e := by
  induction h with
  | int | str | bool | null | endOfProgram | fn | builtin =>
      simp [Expr.renamed, Style.piece, Style.forDisplay]
  | list loc _ ih =>
      simp only [Expr.renamed, Expr.renamedAll_eq, Style.piece, Style.texts_renamed ih]

theorem IsValue.display_renamed (h : IsValue e) : (e.renamed rename).display = e.display := by
  rw [Expr.display, Expr.display, Style.render, Style.render, h.piece_renamed]

theorem IsValue.writtenForm_renamed (h : IsValue e) :
    writtenForm (e.renamed rename) = writtenForm e := by
  have hdisplay : (e.renamed rename).display = e.display := h.display_renamed
  cases h with
  | str => simp only [Expr.renamed]
  | int | bool | null | endOfProgram | fn | builtin | list => exact hdisplay

theorem valuesAllEqual_renamed {items items' : List Expr}
    (h : ∀ item ∈ items, ∀ {b}, IsValue b →
      valuesEqual .never (item.renamed rename) (b.renamed rename) = valuesEqual .never item b)
    (h' : ∀ b ∈ items', IsValue b) :
    valuesAllEqual .never (items.map (Expr.renamed rename)) (items'.map (Expr.renamed rename))
      = valuesAllEqual .never items items' := by
  induction items generalizing items' with
  | nil => cases items' <;> simp only [List.map_nil, List.map_cons, valuesAllEqual]
  | cons item items ih =>
      obtain ⟨hitem, hitems⟩ := List.forall_mem_cons.mp h
      cases items' with
      | nil => simp only [List.map_nil, List.map_cons, valuesAllEqual]
      | cons item' items' =>
          obtain ⟨hitem', hitems'⟩ := List.forall_mem_cons.mp h'
          simp only [List.map_cons, valuesAllEqual, hitem hitem', ih hitems hitems']

/-- Whether two values are equal does not depend on names: no function equals anything. -/
theorem IsValue.valuesEqual_renamed {a b : Expr} (ha : IsValue a) (hb : IsValue b) :
    valuesEqual .never (a.renamed rename) (b.renamed rename) = valuesEqual .never a b := by
  induction ha generalizing b with
  | fn | builtin => simp only [Expr.renamed, valuesEqual]
  | int | str | bool | null | endOfProgram =>
      cases hb <;> simp only [Expr.renamed, valuesEqual, agrees]
  | list loc _ ih =>
      cases hb with
      | list loc' hitems' =>
          simp only [Expr.renamed, Expr.renamedAll_eq, valuesEqual]
          exact valuesAllEqual_renamed ih hitems'
      | int | str | bool | null | endOfProgram | fn | builtin =>
          simp only [Expr.renamed, valuesEqual, agrees]

end

end ExprLang
