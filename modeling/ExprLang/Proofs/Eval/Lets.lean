import ExprLang.Proofs.Eval.Activity
import ExprLang.Proofs.Eval.Failing
import ExprLang.Proofs.Eval.FrameLaw

/-!
# What a `let` binds

A rebinding writes one entry in one frame: that of the nearest binding below the top and not under
the floor, or directly below the top if there is none (`ScopeStack.Target`). Where it searches for a
frame to write in is not where a name is searched for later: that search knows no floor, and it sees
the frame that was on top. They meet nevertheless, since the frames above the one written in, the
top aside, do not bind the name. So once the top frame is gone the name stands for the value, and
every other name for what it stood for (`rebinds_of_below`). A `let` pops its own frame when it
ends, hence what it has bound is read back by the next expression, at whatever depth
(`let_read_back`).
-/

namespace ExprLang

open EvalM

namespace ScopeStack

/-! ## Frames by their index -/

/-- What a name is bound to in the frame at an index, counted from the root. -/
def valueAt? (scope : ScopeStack) (i : Nat) (name : String) : Option Expr :=
  (scope.frame? i).bind (·.get? name)

section
variable {top : Frame} {above under : List Frame} {frame : Frame}

theorem frame?_split : frame? ⟨top, above ++ frame :: under⟩ under.length = some frame := by
  simp [frame?, frames]

theorem frame?_split_of_ne (frame' : Frame) {i : Nat} (h : i ≠ under.length) :
    frame? ⟨top, above ++ frame :: under⟩ i = frame? ⟨top, above ++ frame' :: under⟩ i := by
  unfold frame? frames
  grind

/-- A frame between the top and another one lies above that. -/
theorem frame?_mem_above {i : Nat} (h : under.length < i)
    (htop : i < above.length + under.length + 1) :
    ∃ f ∈ above, frame? ⟨top, above ++ frame :: under⟩ i = some f := by
  have hlength : (above ++ frame :: under).length = above.length + under.length + 1 := by
    simp [Nat.add_assoc]
  rw [frame?_of_lt (by simpa only [hlength] using htop)]
  simp only [hlength]
  have hindex : above.length + under.length + 1 - 1 - i < above.length := by omega
  rw [List.getElem?_append_left hindex, List.getElem?_eq_getElem hindex]
  exact ⟨_, List.getElem_mem hindex, rfl⟩

end

theorem get?_eq_none_of_has {f : Frame} {name : String} (h : f.has name = false) :
    f.get? name = none := by
  simpa [Frame.has] using h

/-! ## Writing in one frame -/

/-- The frame that a rebinding writes in, by its index from the root. -/
inductive Target (scope : ScopeStack) (name : String) (floor : Nat) : Nat → Prop
  /-- The nearest frame below the top that binds the name, if it is not under the floor. -/
  | nearest {i : Nat} : floor ≤ i → i + 1 < scope.depth →
      (scope.valueAt? i name).isSome = true →
      (∀ j, i < j → j + 1 < scope.depth → scope.valueAt? j name = none) →
        Target scope name floor i
  /-- The frame directly below the top, if no frame below the top and not under the floor binds
  it. -/
  | outer {i : Nat} : i + 2 = scope.depth →
      (∀ j, floor ≤ j → j + 1 < scope.depth → scope.valueAt? j name = none) →
        Target scope name floor i

/-- What a rebinding makes of a stack. -/
structure Rebinds (scope : ScopeStack) (name : String) (value : Expr) (floor : Nat)
    (after : ScopeStack) : Prop where
  /-- There are as many frames as before. -/
  depth : after.depth = scope.depth
  /-- The entry of the name in one frame is the value, and no other entry and no other frame has
  changed. -/
  writes : ∃ i, scope.Target name floor i ∧
    (∀ j other, after.valueAt? j other
      = if j = i ∧ other = name then some value else scope.valueAt? j other) ∧
    ∀ j, j ≠ i → after.frame? j = scope.frame? j
  /-- Once the top frame is gone, the name stands for the value, and every other name for what it
  would stand for without the rebinding. -/
  resolve : ∀ other, after.exit.resolve other
    = if other = name then some value else scope.exit.resolve other

section
variable {scope : ScopeStack} {name : String} {value : Expr} {floor : Nat}
  {above under : List Frame} {frame : Frame}

/-- The frame that is written in is the one that is meant. -/
theorem target_of_split (hsplit : scope.below = above ++ frame :: under)
    (habove : ∀ f ∈ above, f.has name = false)
    (hwindow : frame.has name = true ∧ floor ≤ under.length ∨
      above = [] ∧ ∀ f ∈ scope.below.take (scope.below.length - floor), f.has name = false) :
    scope.Target name floor under.length := by
  obtain ⟨top, below⟩ := scope
  obtain rfl : below = above ++ frame :: under := hsplit
  have hdepth : depth ⟨top, above ++ frame :: under⟩ = above.length + under.length + 2 := by
    simp [depth]
    omega
  rcases hwindow with ⟨hframe, hfloor⟩ | ⟨rfl, hnone⟩
  · refine .nearest hfloor (by omega) ?_ ?_
    · rw [valueAt?, frame?_split]
      exact hframe
    · intro j hj htop
      obtain ⟨f, hmem, hf⟩ := @frame?_mem_above top above under frame j hj (by omega)
      rw [valueAt?, hf]
      exact get?_eq_none_of_has (habove f hmem)
  · refine .outer (by simpa using hdepth.symm) ?_
    intro j hj htop
    have hlt : j < under.length + 1 := by
      simp only [List.length_nil] at hdepth
      omega
    have hindex : under.length + 1 - 1 - j < under.length + 1 - floor := by omega
    rw [valueAt?, frame?_of_lt hlt]
    cases hf : ([] ++ frame :: under)[([] ++ frame :: under).length - 1 - j]? with
    | none => rfl
    | some f =>
        refine get?_eq_none_of_has (hnone f ?_)
        exact List.mem_of_getElem? ((List.getElem?_take_of_lt hindex).trans hf)

/-- A search for a name finds the value that is written, if no frame above has the name; a search
for another one finds what it did. -/
theorem findSome?_written (habove : ∀ f ∈ above, f.has name = false) (other : String) :
    (above ++ frame.set name value :: under).findSome? (·.get? other)
      = if other = name then some value
        else (above ++ frame :: under).findSome? (·.get? other) := by
  rw [List.findSome?_append, List.findSome?_append, List.findSome?_cons, List.findSome?_cons,
    Frame.get?_set]
  by_cases h : other = name
  · have hnone : above.findSome? (·.get? other) = none := by
      rw [List.findSome?_eq_none_iff, h]
      exact fun f hmem => get?_eq_none_of_has (habove f hmem)
    rw [hnone, if_pos h, if_pos h]
    rfl
  · rw [if_neg h, if_neg h]

theorem resolve_exit {first : Frame} {rest : List Frame} (hbelow : scope.below = first :: rest)
    (other : String) : scope.exit.resolve other = scope.below.findSome? (·.get? other) := by
  rw [exit_of_below hbelow, hbelow]
  rfl

/-- Below the top a name can always be bound again. -/
theorem rebinds_of_below (hbelow : scope.below ≠ []) (name : String) (value : Expr)
    (floor : Nat) :
    ∃ after, scope.rebind name value floor = .ok after ∧
      scope.Rebinds name value floor after := by
  obtain ⟨above, frame, under, hsplit, hrebind, habove, hwindow⟩ :=
    rebind_writes hbelow name value floor
  have htarget := target_of_split hsplit habove hwindow
  obtain ⟨first, rest, hfirst⟩ := List.exists_cons_of_ne_nil hbelow
  obtain ⟨top, below⟩ := scope
  obtain rfl : below = above ++ frame :: under := hsplit
  refine ⟨_, hrebind, ?_, ⟨under.length, htarget, ?_, ?_⟩, ?_⟩
  · simp [depth]
  · intro j other
    unfold valueAt?
    by_cases hj : j = under.length
    · subst hj
      rw [frame?_split, frame?_split]
      simp [Frame.get?_set]
    · rw [frame?_split_of_ne frame hj, if_neg fun h => hj h.1]
  · intro j hj
    exact frame?_split_of_ne frame hj
  · intro other
    obtain ⟨first', rest', hfirst'⟩ := List.exists_cons_of_ne_nil
      (List.append_ne_nil_of_right_ne_nil above (List.cons_ne_nil (frame.set name value) under))
    rw [resolve_exit hfirst', resolve_exit hfirst, findSome?_written habove]

end

end ScopeStack

/-! ## A `let` in a block -/

/-- The state in which the `let` that a block begins with evaluates its value: in its own frame,
inside that of the block. -/
def RunState.insideLet (s : RunState) : RunState := s.entered.entered

section
variable {settings : Settings} {nesting : Nat}

/-- A `let` whose value evaluates binds it, and then the name stands for it. -/
theorem evalNested_let {e value : Expr} {s s₁ : RunState} (loc : Option Loc) (name : String)
    (h : evalNested settings nesting e s.entered = .ok value s₁) :
    ∃ s₂, evalNested settings nesting (.binding loc name e) s = .ok value s₂ ∧
      s₂.scope.resolve name = some value := by
  have hbelow : s₁.scope.below ≠ [] := (level_of_ok h).below_ne_nil (List.cons_ne_nil _ _)
  obtain ⟨after, hrebind, hrebinds⟩ :=
    ScopeStack.rebinds_of_below hbelow name value (s₁.floors.headD 0)
  have hbind : ∀ console, (bindName name value >>= fun _ => pure value)
      { s₁ with console := console }
      = .ok value { s₁ with scope := after, console := console } := by
    intro console
    rw [bind_apply, bindName, onScope]
    simp only [hrebind]
    rfl
  have hends : ∃ console, (do
      let value ← evalNested settings nesting e
      if settings.tracing then
        log ["let", name, "=", value.display, "depth", toString (← get).scope.depth]
      bindName name value
      return value) s.entered = .ok value { s₁ with scope := after, console := console } := by
    rw [bind_apply, h]
    cases settings.tracing with
    | false => exact ⟨_, hbind s₁.console⟩
    | true => exact ⟨_, hbind (s₁.logged _).console⟩
  obtain ⟨console, hends⟩ := hends
  rw [evalNested_binding]
  exact ⟨_, inFrame_of_ok loc hends, (hrebinds.resolve name).trans (if_pos rfl)⟩

/-- A name that stands for a value evaluates to it. -/
theorem evalNested_ident_of_resolve {value : Expr} {s : RunState} (loc : Option Loc) {name : String}
    (h : s.scope.resolve name = some value) :
    ∃ s', evalNested settings nesting (.ident loc name) s = .ok value s' := by
  have hlookup : lookup name s.entered = .ok value s.entered := by
    have hresolve : s.entered.scope.resolve name = some value := h
    simp only [lookup, hresolve]
  rw [evalNested_ident]
  exact ⟨_, inFrame_of_ok loc hlookup⟩

/-- A `let` whose value does not evaluate fails as well. -/
theorem evalNested_let_of_error {e : Expr} {s s₁ : RunState} {failure : Failure}
    (loc : Option Loc) (name : String)
    (h : evalNested settings nesting e s.entered = .error failure s₁) :
    ∃ failure' s', evalNested settings nesting (.binding loc name e) s = .error failure' s' := by
  rw [evalNested_binding]
  obtain ⟨s', hfails, -⟩ := inFrame_of_error loc (bind_eq_error_iff.mpr (.inl h))
  exact ⟨_, s', hfails⟩

/-- How a `let` binds, and what is read back then. -/
structure LetsReadBack (settings : Settings) (nesting : Nat) (s : RunState) (name : String) :
    Prop where
  /-- A frame below the top can always be written in. -/
  rebinds : ∀ value floor, 2 ≤ s.scope.depth →
    ∃ after, s.scope.rebind name value floor = .ok after ∧
      s.scope.Rebinds name value floor after
  /-- On the root frame alone nothing is bound, and nothing changes. -/
  refused : ∀ value floor, s.scope.depth = 1 →
    s.scope.rebind name value floor = .error ⟨name⟩ ∧
      onScope (·.rebind name value floor) s = .error (.scope ⟨name⟩) s
  /-- A block that binds a name and reads it has a value if and only if what is bound has one, and
  then that same value. -/
  read_back : ∀ loc letLoc nameLoc e value,
    (∃ s', evalNested settings nesting
      (.block loc [.binding letLoc name e, .ident nameLoc name]) s
      = .ok value s') ↔ ∃ s', evalNested settings nesting e s.insideLet = .ok value s'

theorem block_reads_let (loc letLoc nameLoc : Option Loc) (name : String) (e value : Expr)
    (s : RunState) :
    (∃ s', evalNested settings nesting
      (.block loc [.binding letLoc name e, .ident nameLoc name]) s
      = .ok value s') ↔ ∃ s', evalNested settings nesting e s.insideLet = .ok value s' := by
  rw [evalNested_block]
  cases hend : evalNested settings nesting e s.insideLet with
  | ok bound s₁ =>
      obtain ⟨s₂, hlet, hresolve⟩ := evalNested_let letLoc name hend
      obtain ⟨s₃, hident⟩ :=
        @evalNested_ident_of_resolve settings nesting _ _ nameLoc _ hresolve
      have hmembers : evalSequence settings (runBodies settings nesting) .null
          [.binding letLoc name e, .ident nameLoc name] s.entered = .ok bound s₃ := by
        simp only [evalSequence, ← evalNested_eq, bind_apply, hlet, hident]
        rfl
      have hblock := inFrame_of_ok loc hmembers
      simp only [hblock, EStateM.Result.ok.injEq, exists_and_left, exists_eq', and_true]
  | error failure s₁ =>
      obtain ⟨failure', s', hlet⟩ := evalNested_let_of_error letLoc name hend
      have hmembers : evalSequence settings (runBodies settings nesting) .null
          [.binding letLoc name e, .ident nameLoc name] s.entered = .error failure' s' :=
        evalSequence_inTurn.eq_error_iff.mpr ⟨[], _, [_], _, rfl, .nil, hlet⟩
      obtain ⟨s'', hblock, -⟩ := inFrame_of_error loc hmembers
      simp only [hblock, reduceCtorEq, exists_false]

/-- What a `let` binds is read back by the next expression, and no other name stands for anything
new. -/
theorem let_read_back (settings : Settings) (nesting : Nat) (s : RunState) (name : String) :
    LetsReadBack settings nesting s name where
  rebinds := by
    intro value floor hdepth
    have hbelow : s.scope.below ≠ [] := by
      intro hnil
      simp [ScopeStack.depth, hnil] at hdepth
    exact ScopeStack.rebinds_of_below hbelow name value floor
  refused := by
    intro value floor hdepth
    have hbelow : s.scope.below = [] := by simpa [ScopeStack.depth] using hdepth
    have hrebind := ScopeStack.rebind_of_root_only hbelow name value floor
    refine ⟨hrebind, ?_⟩
    simp only [onScope, hrebind]
  read_back := fun loc letLoc nameLoc e value => block_reads_let loc letLoc nameLoc name e value s

/-- The frame that is written in lies between the top and the floor, although frames above and below
it bind the name. -/
theorem let_read_back_shadowed :
    let s : RunState :=
      .initial ⟨⟨[("x", .int none 1)]⟩, [.empty, ⟨[("x", .int none 2)]⟩]⟩ (.ofInput "")
    (∃ after, s.scope.rebind "x" (.int none 3) 1 = .ok after ∧
      after.exit.resolve "x" = some (.int none 3) ∧ after.root.get? "x" = some (.int none 2)) ∧
    ∃ s', evalNested {} 0 (.block none [.binding none "x" (.int none 3), .ident none "x"]) s
      = .ok (.int none 3) s' := by
  intro s
  have hlets := let_read_back {} 0 s "x"
  obtain ⟨after, hrebind, hrebinds⟩ := hlets.rebinds (.int none 3) 1 (by decide)
  refine ⟨⟨after, hrebind, hrebinds.resolve "x", ?_⟩,
    (hlets.read_back _ _ _ _ _).mpr ⟨_, rfl⟩⟩
  cases hrebind.symm.trans rfl
  rfl

end

end ExprLang
