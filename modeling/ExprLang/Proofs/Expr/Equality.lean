import ExprLang.Operation
import ExprLang.Proofs.Expr.Unlocated

/-!
# Equality of values

Values are compared through their lists, and a function that turns up on the way makes them differ,
even from themselves. So two values are equal exactly if they are the same without their locations
and no list in them holds a function, at whatever depth (`valuesEqual_iff`). From this it follows
that `eq` is symmetric and transitive, that it is reflexive on values without functions alone, and
that it agrees with the comparison of trees that were built apart (`eq_compares_data`).
-/

namespace ExprLang

/-! ## Functions in values -/

/-- What a run compares: data, functions, built-ins, and lists of such values. What a function or a
built-in is made of does not matter. -/
inductive IsOperand : Expr → Prop
  | int (loc : Option Loc) (value : UInt64) : IsOperand (.int loc value)
  | str (loc : Option Loc) (text : String) : IsOperand (.str loc text)
  | bool (loc : Option Loc) (value : Bool) : IsOperand (.bool loc value)
  | null : IsOperand .null
  | endOfProgram : IsOperand .endOfProgram
  | fn (loc : Option Loc) (param : Option String) (body : Expr) : IsOperand (.fn loc param body)
  | builtin (loc : Option Loc) (name : String) (missing : Nat) (supplied : List Expr) :
      IsOperand (.builtin loc name missing supplied)
  | list (loc : Option Loc) {items : List Expr} :
      (∀ e ∈ items, IsOperand e) → IsOperand (.list loc items)

namespace Expr

mutual

/-- Whether a value is a function or a built-in, or a list that holds one at some depth. -/
def holdsFunction : Expr → Bool
  | .fn .. | .builtin .. => true
  | .list _ items => anyHoldsFunction items
  | _ => false

/-- Whether some of these values holds a function. -/
def anyHoldsFunction : List Expr → Bool
  | [] => false
  | e :: es => holdsFunction e || anyHoldsFunction es

end

@[simp] theorem anyHoldsFunction_eq (es : List Expr) :
    anyHoldsFunction es = es.any holdsFunction := by
  induction es with
  | nil => rfl
  | cons e es ih => rw [anyHoldsFunction, ih, List.any_cons]

/-- Locations hide no function. -/
theorem holdsFunction_unlocated (e : Expr) : e.unlocated.holdsFunction = e.holdsFunction := by
  induction e with
  | list loc items ih =>
      simp only [unlocated, unlocatedAll_eq, holdsFunction, anyHoldsFunction_eq, List.any_map]
      rw [Bool.eq_iff_iff, List.any_eq_true, List.any_eq_true]
      constructor
      · rintro ⟨e, hmem, he⟩
        exact ⟨e, hmem, (ih e hmem).symm.trans he⟩
      · rintro ⟨e, hmem, he⟩
        exact ⟨e, hmem, (ih e hmem).trans he⟩
  | _ => simp [unlocated, holdsFunction]

end Expr

/-! ## Equality of values -/

section
variable {rule : FnRule}

/-- Lists are equal member by member. -/
theorem valuesAllEqual_iff {as : List Expr}
    (h : ∀ a ∈ as, ∀ b, valuesEqual rule a b = true ↔
      a.unlocated = b.unlocated ∧ a.holdsFunction = false) (bs : List Expr) :
    valuesAllEqual rule as bs = true ↔
      as.map Expr.unlocated = bs.map Expr.unlocated ∧ ∀ a ∈ as, a.holdsFunction = false := by
  induction as generalizing bs with
  | nil => cases bs <;> simp [valuesAllEqual]
  | cons a as ih =>
      cases bs with
      | nil => simp [valuesAllEqual]
      | cons b bs =>
          obtain ⟨ha, has⟩ := List.forall_mem_cons.mp h
          rw [valuesAllEqual, Bool.and_eq_true, ha, ih has, List.map_cons, List.map_cons,
            List.cons.injEq, List.forall_mem_cons]
          constructor
          · rintro ⟨⟨hfirst, hfree⟩, hrest, hfrees⟩
            exact ⟨⟨hfirst, hrest⟩, hfree, hfrees⟩
          · rintro ⟨⟨hfirst, hrest⟩, hfree, hfrees⟩
            exact ⟨⟨hfirst, hfree⟩, hrest, hfrees⟩

/-- Two values are equal exactly if they are the same without their locations and hold no
function. -/
theorem valuesEqual_iff {a : Expr} (ha : IsOperand a) (b : Expr) :
    valuesEqual rule a b = true ↔ a.unlocated = b.unlocated ∧ a.holdsFunction = false := by
  induction ha generalizing b with
  | fn | builtin => simp [valuesEqual, Expr.holdsFunction]
  | list loc hitems ih =>
      cases b with
      | list =>
          simp [valuesEqual, Expr.unlocated, Expr.holdsFunction, valuesAllEqual_iff ih]
      | _ => simp [valuesEqual, agrees, Expr.unlocated]
  | _ => cases b <;> simp [valuesEqual, agrees, Expr.unlocated, Expr.holdsFunction]

end

theorem valuesAllEqual_never {as : List Expr}
    (h : ∀ a ∈ as, ∀ b, valuesEqual .never a b = agrees .never a b) (bs : List Expr) :
    valuesAllEqual .never as bs = agreesAll .never as bs := by
  induction as generalizing bs with
  | nil => cases bs <;> simp [valuesAllEqual, agreesAll]
  | cons a as ih =>
      obtain ⟨ha, has⟩ := List.forall_mem_cons.mp h
      cases bs with
      | nil => simp [valuesAllEqual, agreesAll]
      | cons b bs => rw [valuesAllEqual, agreesAll, ha, ih has]

/-- Where functions that were built apart never agree, values are compared as trees are. -/
theorem valuesEqual_never (a b : Expr) : valuesEqual .never a b = agrees .never a b := by
  induction a generalizing b with
  | list loc items ih =>
      cases b with
      | list => rw [valuesEqual, agrees, valuesAllEqual_never ih]
      | _ => simp [valuesEqual]
  | fn | builtin => cases b <;> simp [valuesEqual, agrees]
  | _ => simp [valuesEqual]

/-! ## Equality as a relation -/

/-- How two values compare. -/
structure ComparesData (rule : FnRule) (a b : Expr) : Prop where
  /-- They are equal exactly if they are the same without their locations, and neither holds a
  function. -/
  equal_iff : valuesEqual rule a b = true ↔
    a.unlocated = b.unlocated ∧ a.holdsFunction = false ∧ b.holdsFunction = false
  /-- The order does not matter. -/
  symmetric : valuesEqual rule a b = valuesEqual rule b a
  /-- What is equal to the second is equal to the first, if they are. -/
  transitive : ∀ c, valuesEqual rule a b = true → valuesEqual rule b c = true →
    valuesEqual rule a c = true
  /-- A value is equal to itself exactly if it holds no function. -/
  reflexive_iff : valuesEqual rule a a = true ↔ a.holdsFunction = false
  /-- They are equal exactly if they agree as trees that were built apart. -/
  structural : agrees .never a b = valuesEqual rule a b
  /-- This is what the built-in `eq` answers. -/
  operation : ∀ console : Console,
    runBuiltin "eq" [a, b] console = .ok (.bool none (valuesEqual rule a b)) console

/-- **Equality is structural on data, and nothing else is equal to anything.** -/
theorem eq_compares_data (rule : FnRule) {a b : Expr} (ha : IsOperand a) (hb : IsOperand b) :
    ComparesData rule a b := by
  have hnever : valuesEqual .never a b = valuesEqual rule a b := by
    rw [Bool.eq_iff_iff, valuesEqual_iff ha, valuesEqual_iff ha]
  have hsame : a.unlocated = b.unlocated → b.holdsFunction = a.holdsFunction := by
    intro h
    rw [← a.holdsFunction_unlocated, h, b.holdsFunction_unlocated]
  refine ⟨?_, ?_, ?_, ?_, ?_, ?_⟩
  · rw [valuesEqual_iff ha]
    constructor
    · rintro ⟨h, hfree⟩
      exact ⟨h, hfree, (hsame h).trans hfree⟩
    · rintro ⟨h, hfree, -⟩
      exact ⟨h, hfree⟩
  · rw [Bool.eq_iff_iff, valuesEqual_iff ha, valuesEqual_iff hb]
    constructor
    · rintro ⟨h, hfree⟩
      exact ⟨h.symm, (hsame h).trans hfree⟩
    · rintro ⟨h, hfree⟩
      exact ⟨h.symm, (hsame h.symm).symm.trans hfree⟩
  · intro c hab hbc
    rw [valuesEqual_iff ha] at hab ⊢
    rw [valuesEqual_iff hb] at hbc
    exact ⟨hab.1.trans hbc.1, hab.2⟩
  · rw [valuesEqual_iff ha]
    exact ⟨fun h => h.2, fun hfree => ⟨rfl, hfree⟩⟩
  · rw [← valuesEqual_never, hnever]
  · intro console
    rw [← hnever]
    rfl

/-- A list is equal to the same list at other places; with a function deep inside it is not equal
even to itself, and neither is `true` to `1`. -/
theorem eq_compares_data_nested :
    let a := Expr.list (some ⟨1, 1⟩)
      [.int (some ⟨1, 2⟩) 1, .list none [.str none "x", .endOfProgram]]
    let b := Expr.list none [.int none 1, .list (some ⟨2, 7⟩) [.str none "x", .endOfProgram]]
    let f := Expr.list none [.list none [.fn none none (.block none [])]]
    (IsOperand a ∧ IsOperand b) ∧ ComparesData .never a b ∧ valuesEqual .never a b = true ∧
      IsOperand f ∧ valuesEqual .always f f = false ∧
      valuesEqual .never (.bool none true) (.int none 1) = false := by
  intro a b f
  have hinner : ∀ loc, IsOperand (.list loc [.str none "x", .endOfProgram]) := fun loc =>
    .list loc (List.forall_mem_cons.mpr
      ⟨.str none "x", List.forall_mem_singleton.mpr .endOfProgram⟩)
  have ha : IsOperand a := .list _ (List.forall_mem_cons.mpr
    ⟨.int _ 1, List.forall_mem_singleton.mpr (hinner none)⟩)
  have hb : IsOperand b := .list _ (List.forall_mem_cons.mpr
    ⟨.int none 1, List.forall_mem_singleton.mpr (hinner _)⟩)
  have hf : IsOperand f := .list _ (List.forall_mem_singleton.mpr
    (.list none (List.forall_mem_singleton.mpr (.fn none none _))))
  have hequal : valuesEqual .never a b = true :=
    (eq_compares_data .never ha hb).equal_iff.mpr ⟨rfl, rfl, rfl⟩
  have hself : ¬ valuesEqual .always f f = true := by
    intro h
    exact absurd ((eq_compares_data .always hf hf).reflexive_iff.mp h) (by decide)
  have hkinds : ¬ valuesEqual .never (.bool none true) (.int none 1) = true := by
    intro h
    exact absurd ((eq_compares_data .never (.bool none true) (.int none 1)).equal_iff.mp h).1 nofun
  exact ⟨⟨ha, hb⟩, eq_compares_data .never ha hb, hequal, hf, Bool.not_eq_true _ ▸ hself,
    Bool.not_eq_true _ ▸ hkinds⟩

end ExprLang
