import ExprLang.Proofs.Expr.Induction

/-!
# Values and plain expressions

A plain expression is made of values, of names and of lists. What it stands for depends on nothing
but what its names stand for (`plainValue`), and a value stands for the same thing whatever names do
(`IsValue.plainValue_eq_some`).
-/

namespace ExprLang

mutual

/-- What a plain expression stands for, given what names do. -/
def plainValue (resolve : String → Option Expr) : Expr → Option Expr
  | .ident _ name => resolve name
  | .list _ items => (plainValues resolve items).map (.list none)
  | .int loc value => some (.int loc value)
  | .str loc text => some (.str loc text)
  | .bool loc value => some (.bool loc value)
  | .null => some .null
  | .endOfProgram => some .endOfProgram
  | .fn loc param body => some (.fn loc param body)
  | .builtin loc name missing supplied => some (.builtin loc name missing supplied)
  | .binding .. | .choice .. | .loop .. | .block .. | .program .. | .call .. => none

/-- What plain expressions stand for, if all of them are plain. -/
def plainValues (resolve : String → Option Expr) : List Expr → Option (List Expr)
  | [] => some []
  | e :: es =>
      match plainValue resolve e, plainValues resolve es with
      | some value, some values => some (value :: values)
      | _, _ => none

end

theorem plainValues_cons_eq_some {resolve : String → Option Expr} {e : Expr}
    {es values : List Expr} :
    plainValues resolve (e :: es) = some values ↔ ∃ first rest, values = first :: rest ∧
      plainValue resolve e = some first ∧ plainValues resolve es = some rest := by
  rw [plainValues]
  cases plainValue resolve e with
  | none => simp
  | some first =>
      cases plainValues resolve es with
      | none => simp
      | some rest => simp [eq_comm]

/-- Values: the data, functions, built-ins that hold values, and lists of values. -/
inductive IsValue : Expr → Prop
  | int (loc : Option Loc) (value : UInt64) : IsValue (.int loc value)
  | str (loc : Option Loc) (text : String) : IsValue (.str loc text)
  | bool (loc : Option Loc) (value : Bool) : IsValue (.bool loc value)
  | null : IsValue .null
  | endOfProgram : IsValue .endOfProgram
  | fn (loc : Option Loc) (param : Option String) (body : Expr) : IsValue (.fn loc param body)
  | builtin (loc : Option Loc) (name : String) (missing : Nat) {supplied : List Expr} :
      (∀ e ∈ supplied, IsValue e) → IsValue (.builtin loc name missing supplied)
  | list (loc : Option Loc) {items : List Expr} :
      (∀ e ∈ items, IsValue e) → IsValue (.list loc items)

/-- A value is a plain expression without names. -/
theorem IsValue.plainValue_eq_some {e : Expr} (h : IsValue e) (resolve : String → Option Expr) :
    ∃ value, plainValue resolve e = some value := by
  induction h with
  | int | str | bool | null | endOfProgram | fn | builtin => exact ⟨_, by rw [plainValue]⟩
  | list loc hitems ih =>
      rename_i items
      obtain ⟨values, hvalues⟩ : ∃ values, plainValues resolve items = some values := by
        clear hitems
        induction items with
        | nil => exact ⟨[], by rw [plainValues]⟩
        | cons e es ihItems =>
            obtain ⟨first, hfirst⟩ := ih e List.mem_cons_self
            obtain ⟨rest, hrest⟩ := ihItems fun e hmem => ih e (List.mem_cons_of_mem _ hmem)
            exact ⟨first :: rest,
              plainValues_cons_eq_some.mpr ⟨first, rest, rfl, hfirst, hrest⟩⟩
      exact ⟨.list none values, by rw [plainValue, hvalues]; rfl⟩

end ExprLang
