import ExprLang.Proofs.Expr.Hereditary
import ExprLang.Proofs.Reader.Acceptance

/-!
# Programs stand alone

A program is read only from a whole source. No expression that is read holds one, whether it is read
by itself or as one of the expressions of a program (`ParserBuilt.programFree`), and no value that
comes of such expressions holds one (`hereditary_programFree`). Neither does such an expression hold
the end of a program or a built-in: it is made of what can be written down (`ParserBuilt.written`).
-/

namespace ExprLang

/-! ## Trees that hold no program -/

/-- Whether a node is a program. -/
def Expr.isProgram : Expr → Bool
  | .program .. => true
  | _ => false

/-- A tree in which no node is a program. -/
inductive ProgramFree : Expr → Prop
  | of_parts {e : Expr} : e.isProgram = false → (∀ part ∈ e.parts, ProgramFree part) →
      ProgramFree e

theorem ProgramFree.leaf {e : Expr} (hnode : e.isProgram = false) (hparts : e.parts = []) :
    ProgramFree e :=
  .of_parts hnode (by simp [hparts])

theorem hereditary_programFree : Hereditary ProgramFree where
  parts := fun | .of_parts _ h => h
  null := .leaf rfl rfl
  endOfProgram := fun _ => .leaf rfl rfl
  int := fun _ => .leaf rfl rfl
  str := fun _ => .leaf rfl rfl
  bool := fun _ => .leaf rfl rfl
  list := fun h => .of_parts rfl h
  supply := fun h harg => .of_parts rfl <| by
    cases h with
    | of_parts _ hsupplied =>
        exact List.forall_mem_append.mpr ⟨hsupplied, List.forall_mem_singleton.mpr harg⟩

/-! ## Trees that are written down -/

/-- A node that an expression can be read as. -/
def Expr.Written : Expr → Prop
  | .program .. | .endOfProgram | .builtin .. => False
  | _ => True

/-- A tree that an expression can be read as. -/
abbrev IsWritten : Expr → Prop := Everywhere Expr.Written

namespace IsWritten

theorem block {loc : Option Loc} {es : List Expr} (h : ∀ e ∈ es, IsWritten e) :
    IsWritten (.block loc es) :=
  .of_parts trivial h

theorem choice {loc yesLoc noLoc : Option Loc} {test : Expr} {yes no : List Expr}
    (htest : IsWritten test) (hyes : ∀ e ∈ yes, IsWritten e) (hno : ∀ e ∈ no, IsWritten e) :
    IsWritten (.choice loc test (.block yesLoc yes) (.block noLoc no)) :=
  .of_parts trivial (by simp [Expr.parts, htest, block hyes, block hno])

theorem curried {body : Expr} (h : IsWritten body) (params : List String) :
    IsWritten (.curried params body) :=
  Expr.curriedInduction (fun hbody => .of_parts trivial (List.forall_mem_singleton.mpr hbody))
    h params

theorem applied {callee : Expr} (h : IsWritten callee) (loc : Loc) {args : List Expr}
    (hargs : ∀ arg ∈ args, IsWritten arg) : IsWritten (.applied loc callee args) := by
  refine Expr.appliedInduction h (fun _ => .of_parts trivial (List.forall_mem_singleton.mpr h)) ?_
  intro given arg inner hgiven _ hinner
  have harg := hargs arg (hgiven.subset (List.mem_append_right _ List.mem_cons_self))
  exact .of_parts trivial (by simp [Expr.parts, hinner, harg])

/-- What is written down holds no program. -/
theorem programFree {e : Expr} (h : IsWritten e) : ProgramFree e := by
  induction h with
  | @of_parts e hnode _ ih =>
      refine .of_parts ?_ ih
      cases e with
      | program => exact absurd hnode not_false
      | _ => rfl

end IsWritten

/-! ## What is read -/

/-- The trees that a phrase means. -/
def Grammar.Phrase.trees : Grammar.Phrase → List Expr
  | .expr e | .choice e | .call e => [e]
  | .block es | .sequence es | .items es => es

open Grammar in
theorem Grammar.Derives.written {lexemes : List Lexeme} {phrase : Phrase}
    (h : Derives lexemes phrase) : ∀ e ∈ phrase.trees, IsWritten e := by
  induction h with
  | int | str | litTrue | litFalse | litNull | name =>
      exact List.forall_mem_singleton.mpr (.leaf trivial rfl)
  | endSequence | endItems => exact fun _ hmem => absurd hmem List.not_mem_nil
  | ofChoice _ ih | ofCall _ ih | block _ ih | semicolon _ ih | lastItem _ ih => exact ih
  | next _ _ ihFirst ihRest | item _ _ ihFirst ihRest =>
      exact List.forall_mem_cons.mpr ⟨List.forall_mem_singleton.mp ihFirst, ihRest⟩
  | list _ ih => exact List.forall_mem_singleton.mpr (.of_parts trivial ih)
  | braces _ ih => exact List.forall_mem_singleton.mpr (IsWritten.block ih)
  | fn _ _ ih => exact List.forall_mem_singleton.mpr (IsWritten.curried (IsWritten.block ih) _)
  | call _ _ ihCallee ihArgs =>
      have hcallee := List.forall_mem_singleton.mp ihCallee
      exact List.forall_mem_singleton.mpr (hcallee.applied _ ihArgs)
  | binding _ ih => exact List.forall_mem_singleton.mpr (.of_parts trivial ih)
  | loop _ _ ihTest ihBody =>
      refine List.forall_mem_singleton.mpr (.of_parts trivial ?_)
      exact List.forall_mem_cons.mpr ⟨List.forall_mem_singleton.mp ihTest,
        List.forall_mem_singleton.mpr (IsWritten.block ihBody)⟩
  | noElse _ _ ihTest ihYes =>
      have hnull : ∀ e ∈ [Expr.null], IsWritten e :=
        List.forall_mem_singleton.mpr (.leaf trivial rfl)
      have htest := List.forall_mem_singleton.mp ihTest
      exact List.forall_mem_singleton.mpr (IsWritten.choice htest ihYes hnull)
  | blockElse _ _ _ ihTest ihYes ihNo | elseIf _ _ _ ihTest ihYes ihNo =>
      have htest := List.forall_mem_singleton.mp ihTest
      exact List.forall_mem_singleton.mpr (IsWritten.choice htest ihYes ihNo)

/-- An expression that the parser builds, from a source of its own or as part of a program. -/
def ParserBuilt (e : Expr) : Prop :=
  (∃ source, Reader.parse .expression source = .ok e) ∨
    ∃ source loc es, Reader.parse .program source = .ok (.program loc es) ∧ e ∈ es

/-- Every expression that the parser builds is made of what can be written down. -/
theorem ParserBuilt.written {e : Expr} (h : ParserBuilt e) : IsWritten e := by
  rcases h with ⟨source, hparse⟩ | ⟨source, loc, es, hparse, hmem⟩
  · obtain ⟨-, ⟨before, middle, after, -, -, -, hderives⟩, -⟩ :=
      Reader.parse_eq_ok_iff.mp hparse
    exact List.forall_mem_singleton.mp hderives.written
  · obtain ⟨-, ⟨es', hderives, heq⟩, -⟩ := Reader.parse_eq_ok_iff.mp hparse
    obtain ⟨-, rfl⟩ := Expr.program.inj heq
    exact hderives.written e hmem

/-- No expression that the parser builds holds a program. -/
theorem ParserBuilt.programFree {e : Expr} (h : ParserBuilt e) : ProgramFree e :=
  h.written.programFree

end ExprLang
