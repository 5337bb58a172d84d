import ExprLang.Proofs.Eval.Lockstep
import ExprLang.Proofs.Reader.ProgramFree
import ExprLang.Proofs.Scope.Frames

/-!
# A frame laid over the root

A program pushes a frame and keeps what it binds there, over the root frame; an expression that is
evaluated by itself binds in the root frame. `Overlaid` relates the two: the lowest two frames of
one stack say together what the lowest frame of the other says, the frames above are the same, and
the floors differ by one. No step of an evaluation can tell such states apart (`overlaid_linked`),
for as long as no program is evaluated.
-/

namespace ExprLang

open EvalM

/-! ## Frames -/

/-- All values that a frame binds hold no program. -/
def Frame.ProgramFree (frame : Frame) : Prop :=
  ∀ name value, frame.get? name = some value → ExprLang.ProgramFree value

theorem Frame.ProgramFree.empty : Frame.empty.ProgramFree := nofun

theorem Frame.ProgramFree.set {frame : Frame} (h : frame.ProgramFree) (name : String) {value : Expr}
    (hvalue : ExprLang.ProgramFree value) : (frame.set name value).ProgramFree := by
  intro other found hfound
  rw [Frame.get?_set] at hfound
  split at hfound
  · cases hfound
    exact hvalue
  · exact h other found hfound

/-- The frames of two stacks, the first of which has one frame more at the bottom: `count` frames
are the same, and below them two frames of the first say what one frame of the second says. -/
inductive Overlays : (count : Nat) → List Frame → List Frame → Prop
  | bottom {upper root merged : Frame} :
      (∀ name, merged.get? name = (upper.get? name).or (root.get? name)) →
      upper.ProgramFree → root.ProgramFree → Overlays 0 [upper, root] [merged]
  | push {count : Nat} {frame : Frame} {frames frames' : List Frame} : frame.ProgramFree →
      Overlays count frames frames' → Overlays (count + 1) (frame :: frames) (frame :: frames')

namespace Overlays

variable {count : Nat} {frames frames' : List Frame}

theorem length (h : Overlays count frames frames') :
    frames.length = count + 2 ∧ frames'.length = count + 1 := by
  induction h with
  | bottom => exact ⟨rfl, rfl⟩
  | push _ _ ih => simp [ih]

/-- A name stands for the same value in both. -/
theorem lookup (h : Overlays count frames frames') (name : String) :
    frames.findSome? (·.get? name) = frames'.findSome? (·.get? name) := by
  induction h with
  | @bottom upper root merged hmerged =>
      simp only [List.findSome?_cons, List.findSome?_nil, hmerged name]
      cases upper.get? name with
      | some => rfl
      | none => simp
  | push _ _ ih => simp only [List.findSome?_cons, ih]

theorem programFree (h : Overlays count frames frames') :
    ∀ frame ∈ frames, frame.ProgramFree := by
  induction h with
  | bottom _ hupper hroot => simp [hupper, hroot]
  | push hframe _ ih => exact List.forall_mem_cons.mpr ⟨hframe, ih⟩

/-! ### Writing -/

/-- A value that is bound in the upper frame and in the merged one. -/
theorem set_upper {upper root merged : Frame}
    (hmerged : ∀ name, merged.get? name = (upper.get? name).or (root.get? name)) (name : String)
    (value : Expr) (other : String) : (merged.set name value).get? other
      = ((upper.set name value).get? other).or (root.get? other) := by
  rw [Frame.get?_set, Frame.get?_set]
  by_cases h : other = name
  · simp [h]
  · simp [h, hmerged]

/-- A value that is bound in the root frame and in the merged one, where the upper one does not bind
the name. -/
theorem set_root {upper root merged : Frame}
    (hmerged : ∀ name, merged.get? name = (upper.get? name).or (root.get? name)) {name : String}
    (hupper : upper.get? name = none) (value : Expr) (other : String) :
    (merged.set name value).get? other
      = (upper.get? other).or ((root.set name value).get? other) := by
  rw [Frame.get?_set, Frame.get?_set]
  by_cases h : other = name
  · simp [h, hupper]
  · simp [h, hmerged]

variable {name : String} {value : Expr}

/-- Binding in the nearest frame of either keeps the two alike. -/
theorem bindNearest (h : Overlays count frames frames') (hvalue : ProgramFree value) :
    ∃ first rest first' rest', frames = first :: rest ∧ frames' = first' :: rest' ∧
      Overlays count (first.set name value :: rest) (first'.set name value :: rest') := by
  cases h with
  | bottom hmerged hupper hroot =>
      exact ⟨_, _, _, _, rfl, rfl,
        bottom (set_upper hmerged name value) (hupper.set name hvalue) hroot⟩
  | push hframe h => exact ⟨_, _, _, _, rfl, rfl, push (hframe.set name hvalue) h⟩

/-- The outcomes of overwriting are alike: both find a binding, or neither does. -/
def Written (count : Nat) : Option (List Frame) → Option (List Frame) → Prop
  | some frames, some frames' => Overlays count frames frames'
  | none, none => True
  | _, _ => False

theorem Written.push {frame : Frame} (hframe : frame.ProgramFree) :
    ∀ {written written' : Option (List Frame)}, Written count written written' →
      Written (count + 1) (written.map (frame :: ·)) (written'.map (frame :: ·))
  | some _, some _, h => Overlays.push hframe h
  | none, none, _ => trivial

/-- Windows that lie in the frames that are the same find the same binding. -/
theorem overwrite_inner (h : Overlays count frames frames') (hvalue : ProgramFree value)
    {window : Nat} (hwindow : window ≤ count) :
    Written count (ScopeStack.overwrite name value window frames)
      (ScopeStack.overwrite name value window frames') := by
  induction h generalizing window with
  | bottom =>
      obtain rfl : window = 0 := by omega
      trivial
  | @push count frame frames frames' hframe h ih =>
      cases window with
      | zero => trivial
      | succ window =>
          rw [ScopeStack.overwrite, ScopeStack.overwrite]
          by_cases hhas : frame.has name = true
          · rw [if_pos hhas, if_pos hhas]
            exact push (hframe.set name hvalue) h
          · rw [if_neg hhas, if_neg hhas]
            exact (ih (by omega)).push hframe

/-- Windows over all frames find the binding in the same frame, or in one of the two that are
merged. -/
theorem overwrite_all (h : Overlays count frames frames') (hvalue : ProgramFree value) :
    Written count (ScopeStack.overwrite name value (count + 2) frames)
      (ScopeStack.overwrite name value (count + 1) frames') := by
  induction h with
  | @bottom upper root merged hmerged hupper hroot =>
      have hhas : merged.has name = (upper.has name || root.has name) := by
        simp [Frame.has, hmerged name]
      -- the merged frame has the name if either of the two has it, and the upper one comes first
      by_cases hupperHas : upper.has name = true
      · simp only [ScopeStack.overwrite, hhas, hupperHas, Bool.true_or, if_true]
        exact bottom (set_upper hmerged name value) (hupper.set name hvalue) hroot
      · have hnone : upper.get? name = none := by simpa [Frame.has] using hupperHas
        by_cases hrootHas : root.has name = true
        · simp only [ScopeStack.overwrite, hhas, hupperHas, hrootHas, Bool.or_true, if_true]
          exact bottom (set_root hmerged hnone value) hupper (hroot.set name hvalue)
        · simp [ScopeStack.overwrite, hhas, hupperHas, hrootHas, Written]
  | @push count frame frames frames' hframe h ih =>
      rw [ScopeStack.overwrite, ScopeStack.overwrite]
      by_cases hhas : frame.has name = true
      · rw [if_pos hhas, if_pos hhas]
        exact push (hframe.set name hvalue) h
      · rw [if_neg hhas, if_neg hhas]
        exact ih.push hframe

/-! ### The stack above -/

variable {scope scope' : ScopeStack}

/-- Below a frame that was pushed for an evaluation, the stacks are still alike. -/
theorem above (h : Overlays (count + 1) scope.frames scope'.frames) :
    scope'.top = scope.top ∧ scope.top.ProgramFree ∧
      Overlays count scope.below scope'.below := by
  obtain ⟨top, below⟩ := scope
  obtain ⟨top', below'⟩ := scope'
  cases h with
  | push htop h => exact ⟨rfl, htop, h⟩

theorem frames_exit {scope : ScopeStack} (h : scope.below ≠ []) :
    scope.exit.frames = scope.below := by
  obtain ⟨top, below⟩ := scope
  cases below with
  | nil => exact absurd rfl h
  | cons frame rest => rfl

theorem exit (h : Overlays (count + 1) scope.frames scope'.frames) :
    Overlays count scope.exit.frames scope'.exit.frames := by
  have ⟨_, _, hbelow⟩ := h.above
  have ⟨hlength, hlength'⟩ := hbelow.length
  rw [frames_exit (List.ne_nil_of_length_eq_add_one hlength),
    frames_exit (List.ne_nil_of_length_eq_add_one hlength')]
  exact hbelow

theorem bindOuter (h : Overlays (count + 1) scope.frames scope'.frames) (name : String)
    {value : Expr} (hvalue : ProgramFree value) :
    ∃ bound bound', scope.bindOuter name value = .ok bound ∧
      scope'.bindOuter name value = .ok bound' ∧
        Overlays (count + 1) bound.frames bound'.frames := by
  have ⟨htop, hfree, hbelow⟩ := h.above
  obtain ⟨first, rest, first', rest', hfirst, hfirst', hbound⟩ := hbelow.bindNearest hvalue
  refine ⟨⟨scope.top, first.set name value :: rest⟩,
    ⟨scope'.top, first'.set name value :: rest'⟩,
    ?_, ?_, ?_⟩
  · simp [ScopeStack.bindOuter, hfirst]
  · simp [ScopeStack.bindOuter, hfirst']
  · show Overlays (count + 1) (scope.top :: _) (scope'.top :: _)
    rw [htop]
    exact push hfree hbound

/-- Floors that cut the stacks at the same frame: none on either side, or one frame higher on the
side that has one frame more. -/
def FloorsAlike (floor floor' : Nat) : Prop :=
  floor = 0 ∧ floor' = 0 ∨ floor = floor' + 1 ∧ 0 < floor'

theorem rebind (h : Overlays (count + 1) scope.frames scope'.frames) (name : String) {value : Expr}
    (hvalue : ProgramFree value) {floor floor' : Nat} (hfloor : FloorsAlike floor floor') :
    ∃ bound bound', scope.rebind name value floor = .ok bound ∧
      scope'.rebind name value floor' = .ok bound' ∧
      Overlays (count + 1) bound.frames bound'.frames := by
  have ⟨htop, hfree, hbelow⟩ := h.above
  have ⟨hlength, hlength'⟩ := hbelow.length
  have hwritten : Written count
      (ScopeStack.overwrite name value (scope.below.length - floor) scope.below)
      (ScopeStack.overwrite name value (scope'.below.length - floor') scope'.below) := by
    rw [hlength, hlength']
    rcases hfloor with ⟨rfl, rfl⟩ | ⟨rfl, hpos⟩
    · exact hbelow.overwrite_all hvalue
    · -- both windows end above the frames that are merged: a call has pushed a frame since
      rw [show count + 2 - (floor' + 1) = count + 1 - floor' by omega]
      exact hbelow.overwrite_inner hvalue (by omega)
  unfold ScopeStack.rebind
  revert hwritten
  cases ScopeStack.overwrite name value (scope.below.length - floor) scope.below with
  | some written =>
      cases ScopeStack.overwrite name value (scope'.below.length - floor') scope'.below with
      | some written' =>
          intro hwritten
          refine ⟨_, _, rfl, rfl, ?_⟩
          show Overlays (count + 1) (scope.top :: written) (scope'.top :: written')
          rw [htop]
          exact push hfree hwritten
      | none => exact False.elim
  | none =>
      cases ScopeStack.overwrite name value (scope'.below.length - floor') scope'.below with
      | some written' => exact False.elim
      | none => exact fun _ => h.bindOuter name hvalue

end Overlays

/-! ## States -/

/-- The state of a run inside a program, and that of a run without it: alike but for the lowest
frames, the floors, which are one frame higher inside the program, the log, and the last top-level
values. -/
structure Overlaid (last last' : Option Expr) (count : Nat) (s t : RunState) : Prop where
  scope : Overlays count s.scope.frames t.scope.frames
  floors : s.floors = t.floors.map (· + 1)
  floors_pos : ∀ floor ∈ t.floors, 0 < floor
  calls : t.calls = s.calls
  console : s.console.Alike t.console
  last : s.last = last
  last' : t.last = last'

namespace Overlaid

variable {last last' : Option Expr} {count : Nat} {s t : RunState}

theorem floorsAlike (h : Overlaid last last' count s t) :
    Overlays.FloorsAlike (s.floors.headD 0) (t.floors.headD 0) := by
  rw [h.floors]
  have hpos := h.floors_pos
  revert hpos
  cases t.floors with
  | nil => exact fun _ => .inl ⟨rfl, rfl⟩
  | cons floor floors => exact fun hpos => .inr ⟨rfl, hpos floor List.mem_cons_self⟩

theorem pushFloor (h : Overlaid last last' count s t) : Overlaid last last' count
    { s with floors := s.scope.depth :: s.floors }
    { t with floors := t.scope.depth :: t.floors } := by
  have ⟨hlength, hlength'⟩ := h.scope.length
  have hdepth : s.scope.depth = t.scope.depth + 1 := by
    show s.scope.frames.length = t.scope.frames.length + 1
    omega
  refine { h with floors := ?_, floors_pos := ?_ }
  · rw [List.map_cons, hdepth, h.floors]
  · exact List.forall_mem_cons.mpr ⟨Nat.succ_pos _, h.floors_pos⟩

theorem popFloor (h : Overlaid last last' count s t) : Overlaid last last' count
    { s with floors := s.floors.tail } { t with floors := t.floors.tail } := by
  refine { h with floors := ?_, floors_pos := ?_ }
  · rw [h.floors, List.map_tail]
  · exact fun floor hfloor => h.floors_pos floor (List.mem_of_mem_tail hfloor)

theorem lookup (name : String) :
    InStep (Overlaid last last' count) ProgramFree (lookup name) (lookup name) := by
  intro s t h
  have hname : s.scope.resolve name = t.scope.resolve name := h.scope.lookup name
  unfold EvalM.lookup
  rw [← hname]
  cases hfound : s.scope.resolve name with
  | some value =>
      obtain ⟨frame, hframe, hvalue⟩ := List.exists_of_findSome?_eq_some hfound
      exact .ok (h.scope.programFree frame hframe name value hvalue) h
  | none => exact .error h

theorem bindName (name : String) {value : Expr} (hvalue : ProgramFree value) :
    InStep (Overlaid last last' (count + 1)) (fun _ => True) (bindName name value)
      (bindName name value) := by
  intro s t h
  obtain ⟨bound, bound', hbound, hbound', halike⟩ := h.scope.rebind name hvalue h.floorsAlike
  simp only [EvalM.bindName, onScope, hbound, hbound']
  exact .ok trivial { h with scope := halike }

theorem bindParam (name : String) {value : Expr} (hvalue : ProgramFree value) :
    InStep (Overlaid last last' (count + 1)) (fun _ => True) (bindParam name value)
      (bindParam name value) := by
  intro s t h
  obtain ⟨bound, bound', hbound, hbound', halike⟩ := h.scope.bindOuter name hvalue
  simp only [EvalM.bindParam, onScope, hbound, hbound']
  exact .ok trivial { h with scope := halike }

end Overlaid

/-- No step of an evaluation can tell the two states apart. -/
theorem overlaid_linked (last last' : Option Expr) : Linked ProgramFree (Overlaid last last') where
  hereditary := hereditary_programFree
  enter := fun h => { h with scope := .push .empty h.scope }
  exit := fun h => { h with scope := h.scope.exit }
  pushFloor := Overlaid.pushFloor
  popFloor := Overlaid.popFloor
  pushCall := fun call h => { h with calls := congrArg (call :: ·) h.calls }
  popCall := fun h => { h with calls := congrArg List.tail h.calls }
  logLeft := fun line h => { h with console := h.console }
  logRight := fun line h => { h with console := h.console }
  lookup := fun _ => Overlaid.lookup _
  bindName := fun _ => Overlaid.bindName _
  bindParam := fun _ => Overlaid.bindParam _
  onConsole := fun name args =>
    InStep.onConsole (LogBlind.runBuiltin name args) (fun h => h.console)
    fun h halike => { h with console := halike }
  -- a program is not free of programs
  setLast := fun h _ _ => by
    cases h with
    | of_parts h _ => exact absurd h Bool.true_eq_false.mp

end ExprLang
