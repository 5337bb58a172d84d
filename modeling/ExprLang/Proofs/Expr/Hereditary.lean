import ExprLang.Operation
import ExprLang.Proofs.Expr.Induction

/-!
# Hereditary properties

A property of trees is hereditary if the parts of a tree inherit it, and if it holds of the values
that a run builds out of values which have it. Then it holds of whatever a built-in operation
returns (`runBuiltin_keeps`), and in the end of every value of a run that starts with such trees.

The values of a run may have more in common than the trees that they come of. `Valued` has one
property for the trees and another one for the values.
-/

namespace ExprLang

/-- The trees that a node holds. -/
def Expr.parts : Expr → List Expr
  | .list _ items | .block _ items | .program _ items | .builtin _ _ _ items => items
  | .binding _ _ value => [value]
  | .choice _ test yes no => [test, yes, no]
  | .loop _ test body => [test, body]
  | .fn _ _ body => [body]
  | .call _ callee none => [callee]
  | .call _ callee (some arg) => [callee, arg]
  | _ => []

theorem Expr.callee_mem_parts (loc : Option Loc) (callee : Expr) (arg : Option Expr) :
    callee ∈ (Expr.call loc callee arg).parts := by
  cases arg with
  | none => exact List.mem_cons_self
  | some arg => exact List.mem_cons_self

theorem Expr.arg_mem_parts (loc : Option Loc) (callee arg : Expr) :
    arg ∈ (Expr.call loc callee (some arg)).parts :=
  List.mem_cons_of_mem _ List.mem_cons_self

/-- A property holds of every tree that holds of a tree whenever it holds of its parts. -/
theorem Expr.partsInduction {P : Expr → Prop} (h : ∀ e, (∀ part ∈ e.parts, P part) → P e)
    (e : Expr) : P e := by
  induction e with
  | int | str | bool | null | endOfProgram | ident =>
      exact h _ fun _ hpart => absurd hpart List.not_mem_nil
  | list _ _ ih | block _ _ ih | program _ _ ih | builtin _ _ _ _ ih => exact h _ ih
  | binding _ _ _ ih | fn _ _ _ ih | bareCall _ _ ih => exact h _ (List.forall_mem_singleton.mpr ih)
  | loop _ _ _ ih ih' | call _ _ _ ih ih' =>
      exact h _ (List.forall_mem_cons.mpr ⟨ih, List.forall_mem_singleton.mpr ih'⟩)
  | choice _ _ _ _ ihTest ihYes ihNo =>
      have hbranches := List.forall_mem_cons.mpr ⟨ihYes, List.forall_mem_singleton.mpr ihNo⟩
      exact h _ (List.forall_mem_cons.mpr ⟨ihTest, hbranches⟩)

/-- Every node of a tree has the property. -/
inductive Everywhere (p : Expr → Prop) : Expr → Prop
  | of_parts {e : Expr} : p e → (∀ part ∈ e.parts, Everywhere p part) → Everywhere p e

namespace Everywhere

variable {p : Expr → Prop} {e : Expr}

theorem node (h : Everywhere p e) : p e := by
  cases h with
  | of_parts hnode _ => exact hnode

theorem parts (h : Everywhere p e) : ∀ part ∈ e.parts, Everywhere p part := by
  cases h with
  | of_parts _ hparts => exact hparts

theorem leaf (hnode : p e) (hparts : e.parts = []) : Everywhere p e :=
  .of_parts hnode fun _ hpart => absurd (hparts ▸ hpart) List.not_mem_nil

theorem mono {q : Expr → Prop} (hpq : ∀ e, p e → q e) (h : Everywhere p e) :
    Everywhere q e := by
  induction h with
  | of_parts hnode _ ih => exact .of_parts (hpq _ hnode) ih

end Everywhere

/-- A node that stands for itself: it is evaluated to what it is. -/
def Expr.Settled : Expr → Prop
  | .int .. | .str .. | .bool .. | .null | .endOfProgram | .fn .. | .builtin .. => True
  | _ => False

/-- A property of values that the operations keep: what is taken out of values with the property has
it, and so has what is put together of them. A built-in that gets its last argument is no value: its
operation is run at once. -/
structure ValueClosed (V : Expr → Prop) : Prop where
  members : ∀ {loc items}, V (.list loc items) → ∀ e ∈ items, V e
  supplied : ∀ {loc name missing items}, V (.builtin loc name missing items) →
    ∀ e ∈ items, V e
  null : V .null
  int : ∀ value, V (.int none value)
  str : ∀ text, V (.str none text)
  bool : ∀ value, V (.bool none value)
  list : ∀ {items}, (∀ e ∈ items, V e) → V (.list none items)
  supply : ∀ {loc name missing supplied arg},
    V (.builtin loc name (missing + 2) supplied) → V arg →
    V (.builtin none name (missing + 1) (supplied ++ [arg]))

/-- A property of trees that parts inherit, and a property of values that operations keep and that
trees with the former are evaluated to. -/
structure Valued (P V : Expr → Prop) : Prop extends ValueClosed V where
  parts : ∀ {e}, P e → ∀ part ∈ e.parts, P part
  settled : ∀ {e}, e.Settled → P e → V e
  body : ∀ {loc param body}, V (.fn loc param body) → P body
  endOfProgram : ∀ {loc es}, P (.program loc es) → V .endOfProgram

/-- A property of trees that parts inherit and that values keep. -/
structure Hereditary (P : Expr → Prop) : Prop where
  parts : ∀ {e}, P e → ∀ part ∈ e.parts, P part
  null : P .null
  endOfProgram : ∀ {loc es}, P (.program loc es) → P .endOfProgram
  int : ∀ value, P (.int none value)
  str : ∀ text, P (.str none text)
  bool : ∀ value, P (.bool none value)
  list : ∀ {items}, (∀ e ∈ items, P e) → P (.list none items)
  supply : ∀ {loc name missing supplied arg},
    P (.builtin loc name (missing + 1) supplied) → P arg →
    P (.builtin none name missing (supplied ++ [arg]))

/-- A hereditary property is one of trees and of values alike. -/
theorem Hereditary.valued {P : Expr → Prop} (h : Hereditary P) : Valued P P where
  members := h.parts
  supplied := h.parts
  null := h.null
  int := h.int
  str := h.str
  bool := h.bool
  list := h.list
  supply := h.supply
  parts := h.parts
  settled := fun _ he => he
  body := fun hfn => h.parts hfn _ List.mem_cons_self
  endOfProgram := h.endOfProgram

/-- A node that a run can build: all values but functions and the end of a program. -/
def Expr.Built : Expr → Prop
  | .int .. | .str .. | .bool .. | .null | .list .. | .builtin .. => True
  | _ => False

/-- What is true of all nodes of a tree is hereditary, if it is true of the nodes that a run can
build. -/
theorem hereditary_everywhere {p : Expr → Prop} (hbuilt : ∀ {e : Expr}, e.Built → p e)
    (hend : ∀ {loc es}, p (.program loc es) → p .endOfProgram) : Hereditary (Everywhere p) where
  parts := Everywhere.parts
  null := .leaf (hbuilt trivial) rfl
  endOfProgram := fun hprogram => .leaf (hend hprogram.node) rfl
  int := fun _ => .leaf (hbuilt trivial) rfl
  str := fun _ => .leaf (hbuilt trivial) rfl
  bool := fun _ => .leaf (hbuilt trivial) rfl
  list := fun hitems => .of_parts (hbuilt trivial) hitems
  supply := fun hfound harg => .of_parts (hbuilt trivial)
    (List.forall_mem_append.mpr ⟨hfound.parts, List.forall_mem_singleton.mpr harg⟩)

/-- What is true of all nodes of a tree is hereditary, if it is true of all nodes but built-ins, and
of a built-in whatever is supplied to it. -/
theorem hereditary_of_builtin {p : Expr → Prop}
    (hother : ∀ {e : Expr},
      (∀ loc name missing supplied, e ≠ .builtin loc name missing supplied) → p e)
    (hsupply : ∀ {loc name missing supplied} (arg : Expr),
      p (.builtin loc name (missing + 1) supplied) →
      p (.builtin none name missing (supplied ++ [arg]))) : Hereditary (Everywhere p) where
  parts := Everywhere.parts
  null := .leaf (hother nofun) rfl
  endOfProgram := fun _ => .leaf (hother nofun) rfl
  int := fun _ => .leaf (hother nofun) rfl
  str := fun _ => .leaf (hother nofun) rfl
  bool := fun _ => .leaf (hother nofun) rfl
  list := fun hitems => .of_parts (hother nofun) hitems
  supply := fun hfound harg => .of_parts (hsupply _ hfound.node)
    (List.forall_mem_append.mpr ⟨hfound.parts, List.forall_mem_singleton.mpr harg⟩)

/-- A property that is hereditary is so under an assumption. -/
theorem Hereditary.under {P : Expr → Prop} (h : Hereditary P) (assumption : Prop) :
    Hereditary fun e => assumption → P e where
  parts := fun he part hpart ha => h.parts (he ha) part hpart
  null := fun _ => h.null
  endOfProgram := fun hprogram ha => h.endOfProgram (hprogram ha)
  int := fun value _ => h.int value
  str := fun text _ => h.str text
  bool := fun value _ => h.bool value
  list := fun hitems ha => h.list fun e hmem => hitems e hmem ha
  supply := fun hfound harg ha => h.supply (hfound ha) (harg ha)

/-- Two properties that are hereditary are so together. -/
theorem Hereditary.and {P Q : Expr → Prop} (hP : Hereditary P) (hQ : Hereditary Q) :
    Hereditary fun e => P e ∧ Q e where
  parts := fun he part hpart => ⟨hP.parts he.1 part hpart, hQ.parts he.2 part hpart⟩
  null := ⟨hP.null, hQ.null⟩
  endOfProgram := fun hprogram => ⟨hP.endOfProgram hprogram.1, hQ.endOfProgram hprogram.2⟩
  int := fun value => ⟨hP.int value, hQ.int value⟩
  str := fun text => ⟨hP.str text, hQ.str text⟩
  bool := fun value => ⟨hP.bool value, hQ.bool value⟩
  list := fun hitems =>
    ⟨hP.list fun e hmem => (hitems e hmem).1, hQ.list fun e hmem => (hitems e hmem).2⟩
  supply := fun hfound harg => ⟨hP.supply hfound.1 harg.1, hQ.supply hfound.2 harg.2⟩

/-- Every tree has the property that says nothing. -/
theorem hereditary_true : Hereditary fun _ => True := by
  constructor <;> intros <;> trivial

/-! ## Results of operations -/

/-- A result is a value with the property, if it is a value. -/
def Grants {ε : Type} (P : Expr → Prop) : Except ε Expr → Prop
  | .ok value => P value
  | .error _ => True

theorem Grants.bind {ε α : Type} {P : Expr → Prop} {f : α → Except ε Expr}
    (hf : ∀ x, Grants P (f x)) (result : Except ε α) : Grants P (result >>= f) := by
  cases result with
  | ok x => exact hf x
  | error => trivial

section
variable {P : Expr → Prop} (hP : ValueClosed P)
include hP

theorem grants_exactly (operation : String) (result : Int) :
    Grants P (exactly operation result) := by
  unfold exactly
  split
  · exact hP.int _
  · trivial

omit hP in
theorem grants_onIntegers {f : UInt64 → UInt64 → Except Failure Expr}
    (hf : ∀ x y, Grants P (f x y)) (operation : String) (a b : Expr) :
    Grants P (onIntegers operation f a b) := by
  exact Grants.bind (fun x => Grants.bind (fun y => hf x y) _) _

theorem grants_onDivisor (f : UInt64 → UInt64 → UInt64) (operation : String) (a b : Expr) :
    Grants P (onDivisor operation f a b) := by
  refine grants_onIntegers (fun x y => ?_) operation a b
  split
  · trivial
  · exact hP.int _

theorem grants_readInteger (text : String) : Grants P (readInteger text) := by
  unfold readInteger
  split
  · trivial
  · split
    · trivial
    · split
      · exact hP.int _
      · trivial

theorem grants_lengthValue (items : List Expr) : Grants P (lengthValue items) := by
  unfold lengthValue Expr.integer
  cases toWord? items.length with
  | some word => exact hP.int word
  | none => trivial

/-- The members of a list have what the list has. -/
theorem grants_onList {f : List Expr → Except Failure Expr}
    (hf : ∀ items, (∀ e ∈ items, P e) → Grants P (f items)) (operation : String) {a : Expr}
    (ha : P a) : Grants P (listOperand operation a >>= f) := by
  cases a with
  | list loc items => exact hf items (hP.members ha)
  | _ => trivial

/-- What an operation returns, by its meaning. -/
def Meaning.Grants (P : Expr → Prop) : Meaning → Prop
  | .ofOne f => ∀ a, P a → ExprLang.Grants P (f a)
  | .ofTwo f => ∀ a b, P a → P b → ExprLang.Grants P (f a b)
  | .read | .write _ => True

theorem grants_meaning (operation : Operation) : operation.meaning.Grants P := by
  cases operation with
  | add | sub | mul =>
      exact fun a b _ _ => grants_onIntegers (fun _ _ => grants_exactly hP _ _) _ a b
  | div | mod => exact fun a b _ _ => grants_onDivisor hP _ _ a b
  | lt =>
      exact fun a b _ _ => grants_onIntegers (f := fun x y => .ok (.bool none (x < y)))
        (fun _ _ => hP.bool _) "<" a b
  | gt =>
      exact fun a b _ _ => grants_onIntegers (f := fun x y => .ok (.bool none (y < x)))
        (fun _ _ => hP.bool _) ">" a b
  | inc => exact fun a _ => Grants.bind (fun _ => grants_exactly hP _ _) _
  | sqrt =>
      refine fun a _ => Grants.bind (fun x => ?_) _
      exact hP.int (floorSqrt x)
  | eq => exact fun a b _ _ => hP.bool _
  | not =>
      refine fun a _ => Grants.bind (fun x => ?_) _
      exact hP.bool !x
  | joinStr =>
      refine fun a b _ _ => Grants.bind (fun x => Grants.bind (fun y => ?_) _) _
      exact hP.str (x ++ y)
  | strToInt => exact fun a _ => Grants.bind (fun _ => grants_readInteger hP _) _
  | listLen => exact fun a ha => grants_onList hP (fun items _ => grants_lengthValue hP items) _ ha
  | listNth =>
      intro a b _ hb
      refine Grants.bind (fun index => grants_onList hP (fun items hitems => ?_) "list_nth" hb) _
      unfold nth
      split
      next item hitem => exact hitems item (List.mem_of_getElem? hitem)
      next => trivial
  | listPush =>
      intro a b ha hb
      refine grants_onList hP (fun items hitems => ?_) "list_push" ha
      exact hP.list (List.forall_mem_append.mpr ⟨hitems, List.forall_mem_singleton.mpr hb⟩)
  | getInputLine | print | printLine => trivial

omit hP in
theorem ofExcept_keeps {result : Except Failure Expr} (hresult : Grants P result)
    {console console' : Console} {value : Expr}
    (h : Operation.ofExcept result console = .ok value console') : P value := by
  cases result with
  | ok a =>
      cases h
      exact hresult
  | error => exact absurd h nofun

theorem run_keeps (operation : Operation) {args : List Expr} (hargs : ∀ a ∈ args, P a)
    {console console' : Console} {value : Expr}
    (h : operation.run args console = .ok value console') : P value := by
  have hmeaning := grants_meaning hP operation
  unfold Operation.run at h
  -- the meaning fixes the number of arguments; every other number is refused
  generalize operation.meaning = meaning at h hmeaning
  match meaning, args with
  | .ofOne f, [a] => exact ofExcept_keeps (hmeaning a (hargs a List.mem_cons_self)) h
  | .ofTwo f, [a, b] =>
      obtain ⟨ha, hb⟩ := List.forall_mem_cons.mp hargs
      exact ofExcept_keeps (hmeaning a b ha (hb b List.mem_cons_self)) h
  | .read, [] =>
      simp only [bind, EStateM.bind, Console.readLine] at h
      split at h
      next heq =>
          split at heq
          · cases heq
            cases h
            exact hP.str _
          · exact absurd heq nofun
      next => exact absurd h nofun
  | .write ending, [a] =>
      simp only [bind, EStateM.bind, Console.write] at h
      split at h
      next heq =>
          cases h
          exact hP.null
      next => exact absurd h nofun
  | .ofOne _, [] | .ofOne _, _ :: _ :: _ | .ofTwo _, [] | .ofTwo _, [_] | .ofTwo _, _ :: _ :: _ :: _
  | .read, _ :: _ | .write _, [] | .write _, _ :: _ :: _ => exact absurd h nofun

/-- Whatever an operation returns for arguments with the property has it too. -/
theorem runBuiltin_keeps {name : String} {args : List Expr} (hargs : ∀ a ∈ args, P a)
    {console console' : Console} {value : Expr}
    (h : runBuiltin name args console = .ok value console') : P value := by
  unfold runBuiltin at h
  cases hname : Operation.ofName? name with
  | none =>
      rw [hname] at h
      exact absurd h nofun
  | some operation =>
      rw [hname] at h
      exact run_keeps hP operation hargs h

end

end ExprLang
