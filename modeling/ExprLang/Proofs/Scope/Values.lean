import ExprLang.Eval.State
import ExprLang.Proofs.Scope.Frames

/-!
# The values on the stack

A property of values that holds of all which are bound on the stack holds of what a name stands for,
and goes on to hold when frames are pushed and popped and when a value with the property is bound.
Where a frame lies below the top, a binding is never refused, and it is written in one frame
(`bindName_eq_ok`, `bindParam_eq_ok`).
-/

namespace ExprLang

/-! ## Frames -/

/-- Every value that is bound has the property. -/
def Frame.Each (P : Expr → Prop) (frame : Frame) : Prop :=
  ∀ name value, frame.get? name = some value → P value

namespace Frame.Each

variable {P : Expr → Prop} {frame : Frame}

theorem empty : Frame.empty.Each P := fun _ _ h => nomatch h

theorem set (h : frame.Each P) (name : String) {value : Expr} (hvalue : P value) :
    (frame.set name value).Each P := by
  intro other found hfound
  rw [Frame.get?_set] at hfound
  split at hfound
  · injection hfound with hfound
    exact hfound ▸ hvalue
  · exact h other found hfound

end Frame.Each

/-- What holds of the values of all operations holds of what is bound at first. -/
theorem builtinFrame_each {P : Expr → Prop} (h : ∀ operation : Operation, P operation.value) :
    builtinFrame.Each P := by
  intro name value hfound
  obtain ⟨before, after, hentries, -⟩ := List.lookup_eq_some_iff.mp hfound
  have hmem : (name, value) ∈ builtinFrame.entries := by simp [hentries]
  obtain ⟨operation, -, heq⟩ := List.mem_map.mp hmem
  cases heq
  exact h operation

/-! ## The stack -/

namespace ScopeStack

theorem exit_of_below {scope : ScopeStack} {frame : Frame} {rest : List Frame}
    (h : scope.below = frame :: rest) : scope.exit = ⟨frame, rest⟩ := by
  unfold exit
  rw [h]

/-- A binding below the top writes in one of the frames there. -/
theorem rebind_eq_ok {scope : ScopeStack} (hbelow : scope.below ≠ []) (name : String)
    (value : Expr) (floor : Nat) : ∃ above frame under, scope.below = above ++ frame :: under ∧
      scope.rebind name value floor
        = .ok ⟨scope.top, above ++ frame.set name value :: under⟩ := by
  obtain ⟨above, frame, under, hsplit, hrebind, -, -⟩ := rebind_writes hbelow name value floor
  exact ⟨above, frame, under, hsplit, hrebind⟩

/-- What is bound directly below the top is written in the frame there. -/
theorem below_of_bindOuter {scope scope' : ScopeStack} {name : String} {value : Expr}
    (h : scope.bindOuter name value = .ok scope') :
    ∃ frame under, scope.below = frame :: under ∧
      scope' = ⟨scope.top, frame.set name value :: under⟩ := by
  obtain ⟨top, below⟩ := scope
  cases below with
  | nil => exact absurd h nofun
  | cons frame under =>
      cases h
      exact ⟨frame, under, rfl, rfl⟩

theorem below_of_rebind {scope scope' : ScopeStack} {name : String} {value : Expr} {floor : Nat}
    (h : scope.rebind name value floor = .ok scope') :
    ∃ above frame under, scope.below = above ++ frame :: under ∧
      scope' = ⟨scope.top, above ++ frame.set name value :: under⟩ := by
  by_cases hbelow : scope.below = []
  · cases (rebind_of_root_only hbelow name value floor).symm.trans h
  · obtain ⟨above, frame, under, hsplit, hrebind⟩ := rebind_eq_ok hbelow name value floor
    exact ⟨above, frame, under, hsplit, Except.ok.inj (h.symm.trans hrebind)⟩

/-- Every value that is bound on the stack has the property. -/
def Each (P : Expr → Prop) (scope : ScopeStack) : Prop :=
  ∀ frame ∈ scope.frames, frame.Each P

namespace Each

variable {P : Expr → Prop} {scope : ScopeStack}

theorem resolve (h : scope.Each P) {name : String} {value : Expr}
    (hvalue : scope.resolve name = some value) : P value := by
  obtain ⟨frame, hframe, hget⟩ := List.exists_of_findSome?_eq_some hvalue
  exact h frame hframe name value hget

theorem enter (h : scope.Each P) : scope.enter.Each P :=
  List.forall_mem_cons.mpr ⟨Frame.Each.empty, h⟩

theorem exit (h : scope.Each P) : scope.exit.Each P := by
  obtain ⟨top, below⟩ := scope
  cases below with
  | nil => exact h
  | cons frame rest => exact (List.forall_mem_cons.mp h).2

/-- A value with the property may be bound anywhere below the top. -/
theorem write (h : scope.Each P) {above under : List Frame} {frame : Frame}
    (hbelow : scope.below = above ++ frame :: under) (name : String) {value : Expr}
    (hvalue : P value) : Each P ⟨scope.top, above ++ frame.set name value :: under⟩ := by
  obtain ⟨htop, hrest⟩ := List.forall_mem_cons.mp h
  rw [hbelow] at hrest
  obtain ⟨habove, hunder⟩ := List.forall_mem_append.mp hrest
  obtain ⟨hframe, hunder⟩ := List.forall_mem_cons.mp hunder
  refine List.forall_mem_cons.mpr ⟨htop, List.forall_mem_append.mpr ⟨habove, ?_⟩⟩
  exact List.forall_mem_cons.mpr ⟨hframe.set name hvalue, hunder⟩

theorem bindOuter (h : scope.Each P) {name : String} {value : Expr} {scope' : ScopeStack}
    (hvalue : P value) (hbind : scope.bindOuter name value = .ok scope') : scope'.Each P := by
  obtain ⟨frame, under, hbelow, rfl⟩ := below_of_bindOuter hbind
  have hwrite := @write _ _ h [] under frame hbelow name value hvalue
  exact hwrite

theorem rebind (h : scope.Each P) {name : String} {value : Expr} {floor : Nat} {scope' : ScopeStack}
    (hvalue : P value) (hbind : scope.rebind name value floor = .ok scope') : scope'.Each P := by
  obtain ⟨above, frame, under, hbelow, rfl⟩ := below_of_rebind hbind
  exact h.write hbelow name hvalue

end Each

end ScopeStack

/-! ## Steps that bind -/

namespace EvalM

theorem bindName_eq_ok {s : RunState} (hbelow : s.scope.below ≠ []) (name : String)
    (value : Expr) :
    ∃ above frame under, s.scope.below = above ++ frame :: under ∧ bindName name value s
      = .ok () { s with scope := ⟨s.scope.top, above ++ frame.set name value :: under⟩ } := by
  obtain ⟨above, frame, under, hsplit, hbind⟩ :=
    ScopeStack.rebind_eq_ok hbelow name value (s.floors.headD 0)
  refine ⟨above, frame, under, hsplit, ?_⟩
  unfold bindName onScope
  simp only [hbind]

theorem bindParam_eq_ok {s : RunState} {frame : Frame} {under : List Frame}
    (hbelow : s.scope.below = frame :: under) (name : String) (value : Expr) :
    bindParam name value s
      = .ok () { s with scope := ⟨s.scope.top, frame.set name value :: under⟩ } := by
  unfold bindParam onScope ScopeStack.bindOuter
  simp only [hbelow]

end EvalM

end ExprLang
