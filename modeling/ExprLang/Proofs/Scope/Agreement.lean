import Mathlib.Data.List.Forall2
import Mathlib.Data.Set.Basic
import ExprLang.Proofs.Scope.Values

/-!
# Stacks that share some of their bindings

Two stacks of one depth share the bindings of a set of names if every frame of one binds each of
these names as the frame at its height in the other does. What the frames say of other names is
open. A shared name stands for the same value in both (`Shares.resolve`), and what is bound under it
is bound in the same frame of either (`Shares.bindOuter`, `Shares.rebind`). A stack goes on to share
the names that nothing was bound under with the stack that it was (`agreesOn_of_bindOuter`,
`agreesOn_of_rebind`).
-/

namespace ExprLang

/-! ## Frames -/

/-- Two frames bind each name of the set to the same value, which has the property, or neither binds
it. -/
def Frame.Shares (names : Set String) (P : Expr → Prop) (frame frame' : Frame) : Prop :=
  ∀ name ∈ names, frame'.get? name = frame.get? name ∧
    ∀ value, frame.get? name = some value → P value

namespace Frame.Shares

variable {names : Set String} {P : Expr → Prop} {frame frame' : Frame}

theorem empty : Frame.empty.Shares names P .empty := fun _ _ => ⟨rfl, nofun⟩

theorem has (h : frame.Shares names P frame') {name : String} (hname : name ∈ names) :
    frame'.has name = frame.has name := by
  rw [Frame.has, Frame.has, (h name hname).1]

theorem set (h : frame.Shares names P frame') (name : String) {value : Expr} (hvalue : P value) :
    (frame.set name value).Shares names P (frame'.set name value) := by
  intro other hother
  rw [Frame.get?_set, Frame.get?_set]
  by_cases heq : other = name
  · rw [if_pos heq, if_pos heq]
    exact ⟨rfl, fun found hfound => Option.some.inj hfound ▸ hvalue⟩
  · rw [if_neg heq, if_neg heq]
    exact h other hother

end Frame.Shares

/-- Two frames bind each name of the set to the same value, or neither binds it. -/
def Frame.AgreesOn (names : Set String) : Frame → Frame → Prop :=
  Frame.Shares names fun _ => True

namespace Frame.AgreesOn

variable {names : Set String}

theorem refl (frame : Frame) : frame.AgreesOn names frame :=
    fun _ _ => ⟨rfl, fun _ _ => trivial⟩

theorem trans {frame frame' frame'' : Frame} (h : frame.AgreesOn names frame')
    (h' : frame'.AgreesOn names frame'') : frame.AgreesOn names frame'' :=
  fun name hname => ⟨(h' name hname).1.trans (h name hname).1, fun _ _ => trivial⟩

/-- What is bound under another name is not told by the names of the set. -/
theorem set_of_notMem (frame : Frame) {name : String} (hname : name ∉ names) (value : Expr) :
    frame.AgreesOn names (frame.set name value) := by
  intro other hother
  have hne : other ≠ name := fun heq => hname (heq ▸ hother)
  rw [Frame.get?_set, if_neg hne]
  exact ⟨rfl, fun _ _ => trivial⟩

end Frame.AgreesOn

/-! ## Stacks -/

namespace ScopeStack

/-- Two stacks of one depth whose frames at each height share their bindings of the names. -/
def Shares (names : Set String) (P : Expr → Prop) (scope scope' : ScopeStack) : Prop :=
  List.Forall₂ (Frame.Shares names P) scope.frames scope'.frames

/-- Two stacks of one depth whose frames at each height agree on the names. -/
def AgreesOn (names : Set String) (scope scope' : ScopeStack) : Prop :=
  scope.Shares names (fun _ => True) scope'

namespace Shares

variable {names : Set String} {P : Expr → Prop} {scope scope' : ScopeStack}

theorem below (h : scope.Shares names P scope') :
    List.Forall₂ (Frame.Shares names P) scope.below scope'.below := by
  cases h with
  | cons _ hbelow => exact hbelow

theorem top (h : scope.Shares names P scope') : scope.top.Shares names P scope'.top := by
  cases h with
  | cons htop _ => exact htop

theorem depth (h : scope.Shares names P scope') : scope'.depth = scope.depth :=
  h.length_eq.symm

theorem enter (h : scope.Shares names P scope') : scope.enter.Shares names P scope'.enter :=
  .cons .empty h

theorem exit (h : scope.Shares names P scope') : scope.exit.Shares names P scope'.exit := by
  obtain ⟨top, below⟩ := scope
  obtain ⟨top', below'⟩ := scope'
  cases h with
  | cons htop hbelow =>
      cases hbelow with
      | nil => exact .cons htop .nil
      | cons hframe hrest => exact .cons hframe hrest

/-! ### Looking up and binding -/

theorem bindOuter (h : scope.Shares names P scope') (hbelow : scope.below ≠ []) (name : String)
    {value : Expr} (hvalue : P value) :
    ∃ bound bound', scope.bindOuter name value = .ok bound ∧
      scope'.bindOuter name value = .ok bound' ∧ bound.Shares names P bound' := by
  obtain ⟨top, below⟩ := scope
  obtain ⟨top', below'⟩ := scope'
  cases h with
  | cons htop hrest =>
      cases hrest with
      | nil => exact absurd rfl hbelow
      | cons hframe hrest =>
          exact ⟨_, _, rfl, rfl, .cons htop (.cons (hframe.set name hvalue) hrest)⟩

section
variable {name : String} (hname : name ∈ names)
include hname

/-- A shared name stands for the same value in both, or for none in either. -/
theorem resolve (h : scope.Shares names P scope') : scope'.resolve name = scope.resolve name := by
  unfold ScopeStack.resolve
  unfold ScopeStack.Shares at h
  generalize scope.frames = frames, scope'.frames = frames' at h
  induction h with
  | nil => rfl
  | cons hframe _ ih => rw [List.findSome?_cons, List.findSome?_cons, (hframe name hname).1, ih]

/-- A shared name stands for a value with the property. -/
theorem holds_of_resolve (h : scope.Shares names P scope') {value : Expr}
    (hvalue : scope.resolve name = some value) : P value := by
  unfold ScopeStack.resolve at hvalue
  unfold ScopeStack.Shares at h
  generalize scope.frames = frames, scope'.frames = frames' at h hvalue
  induction h with
  | nil => exact absurd hvalue nofun
  | @cons frame frame' _ _ hframe _ ih =>
      rw [List.findSome?_cons] at hvalue
      cases hfound : frame.get? name with
      | some found =>
          rw [hfound] at hvalue
          exact (hframe name hname).2 value (hfound.trans hvalue)
      | none =>
          rw [hfound] at hvalue
          exact ih hvalue

variable {value : Expr} (hvalue : P value)
include hvalue

/-- A shared name is overwritten in the same frame of both, or in neither. -/
theorem overwrite {frames frames' : List Frame}
    (h : List.Forall₂ (Frame.Shares names P) frames frames') (count : Nat) :
    Option.Rel (List.Forall₂ (Frame.Shares names P))
      (overwrite name value count frames) (ScopeStack.overwrite name value count frames') := by
  induction h generalizing count with
  | nil =>
      cases count with
      | zero => exact .none
      | succ count => exact .none
  | @cons frame frame' rest rest' hframe hrest ih =>
      cases count with
      | zero => exact .none
      | succ count =>
          rw [ScopeStack.overwrite, ScopeStack.overwrite, hframe.has hname]
          cases frame.has name with
          | true => exact .some (.cons (hframe.set name hvalue) hrest)
          | false =>
              have hwritten := ih count
              generalize ScopeStack.overwrite name value count rest = written,
                ScopeStack.overwrite name value count rest' = written' at hwritten ⊢
              cases hwritten with
              | some hwritten => exact .some (.cons hframe hwritten)
              | none => exact .none

theorem rebind (h : scope.Shares names P scope') (hbelow : scope.below ≠ []) (floor : Nat) :
    ∃ bound bound', scope.rebind name value floor = .ok bound ∧
      scope'.rebind name value floor = .ok bound' ∧ bound.Shares names P bound' := by
  unfold ScopeStack.rebind
  rw [← h.below.length_eq]
  -- the windows are as long as one another, so a binding is found in both of them or in neither
  match ScopeStack.overwrite name value (scope.below.length - floor) scope.below,
    ScopeStack.overwrite name value (scope.below.length - floor) scope'.below,
    overwrite hname hvalue h.below (scope.below.length - floor) with
  | _, _, .some hwritten => exact ⟨_, _, rfl, rfl, .cons h.top hwritten⟩
  | _, _, .none => exact h.bindOuter hbelow name hvalue

end

end Shares

/-! ## What is left alone -/

namespace AgreesOn

variable {names : Set String} {scope scope' : ScopeStack}

theorem refl (scope : ScopeStack) : scope.AgreesOn names scope :=
  List.forall₂_same.mpr fun frame _ => Frame.AgreesOn.refl frame

/-- A binding of another name is not told by the names of the set. -/
theorem write {above under : List Frame} {frame : Frame}
    (hbelow : scope.below = above ++ frame :: under) {name : String} (hname : name ∉ names)
    (value : Expr) :
    scope.AgreesOn names ⟨scope.top, above ++ frame.set name value :: under⟩ := by
  have hsame : ∀ frames : List Frame, List.Forall₂ (Frame.AgreesOn names) frames frames :=
    fun frames => List.forall₂_same.mpr fun frame _ => Frame.AgreesOn.refl frame
  have hwritten : List.Forall₂ (Frame.AgreesOn names) (above ++ frame :: under)
      (above ++ frame.set name value :: under) :=
    List.rel_append (hsame above) (.cons (.set_of_notMem frame hname value) (hsame under))
  unfold AgreesOn Shares frames
  rw [hbelow]
  exact .cons (Frame.AgreesOn.refl scope.top) hwritten

end AgreesOn

variable {names : Set String} {scope scope' : ScopeStack} {name : String} {value : Expr}

theorem agreesOn_of_bindOuter (hname : name ∉ names)
    (h : scope.bindOuter name value = .ok scope') : scope.AgreesOn names scope' := by
  obtain ⟨frame, under, hbelow, rfl⟩ := below_of_bindOuter h
  have hbelow' : scope.below = [] ++ frame :: under := hbelow
  exact AgreesOn.write hbelow' hname value

theorem agreesOn_of_rebind (hname : name ∉ names) {floor : Nat}
    (h : scope.rebind name value floor = .ok scope') : scope.AgreesOn names scope' := by
  obtain ⟨above, frame, under, hbelow, rfl⟩ := below_of_rebind h
  exact AgreesOn.write hbelow hname value

/-- Under so many frames of the second stack lies one that agrees with the first on the names. -/
def LiesUnder (names : Set String) (start : ScopeStack) (count : Nat) (scope : ScopeStack) : Prop :=
  List.Forall₂ (Frame.AgreesOn names) start.frames (scope.frames.drop count)

namespace LiesUnder

variable {start : ScopeStack} {count : Nat}

theorem enter (h : LiesUnder names start count scope) :
    LiesUnder names start (count + 1) scope.enter := h

/-- A frame that was pushed has another one below it. -/
theorem below_ne_nil (h : LiesUnder names start (count + 1) scope) : scope.below ≠ [] := by
  intro hnil
  have hlength := h.length_eq
  simp [frames, hnil] at hlength

theorem exit (h : LiesUnder names start (count + 1) scope) :
    LiesUnder names start count scope.exit := by
  obtain ⟨frame, rest, hbelow⟩ := List.exists_cons_of_ne_nil h.below_ne_nil
  rw [exit_of_below hbelow]
  unfold LiesUnder frames at h ⊢
  rwa [List.drop_succ_cons, hbelow] at h

theorem trans (h : LiesUnder names start count scope) (h' : scope.AgreesOn names scope') :
    LiesUnder names start count scope' := by
  have hdrop := List.forall₂_drop count h'
  unfold LiesUnder at h ⊢
  generalize scope.frames.drop count = frames, scope'.frames.drop count = frames' at h hdrop
  generalize start.frames = started at h
  induction h generalizing frames' with
  | nil =>
      cases hdrop with
      | nil => exact .nil
  | cons hframe _ ih =>
      cases hdrop with
      | cons hframe' hrest => exact .cons (Frame.AgreesOn.trans hframe hframe') (ih _ hrest)

end LiesUnder

end ScopeStack

end ExprLang
