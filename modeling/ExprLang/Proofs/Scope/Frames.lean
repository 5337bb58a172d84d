import ExprLang.Scope

/-!
# What binding does to frames

Binding a name in a frame changes what that name stands for and nothing else, and it adds the name
to those of the frame only if it was not there (`Frame.get?_set`, `Frame.names_set`). On the stack,
a binding that is overwritten is the nearest of its name in the window that may be written in
(`ScopeStack.overwrite_eq_some`), and if nothing is overwritten the window has no such binding
(`ScopeStack.overwrite_eq_none_iff`). So a rebinding below the top writes in one frame, above which
the name is not bound (`ScopeStack.rebind_writes`).
-/

namespace ExprLang

namespace Frame

/-! ## One frame -/

theorem lookup_entry (key : String) (value : Expr) (rest : List (String × Expr)) (name : String) :
    ((key, value) :: rest).lookup name = if name = key then some value else rest.lookup name := by
  by_cases h : name = key
  · simp [h]
  · rw [List.lookup_cons, beq_eq_false_iff_ne.mpr h, if_neg h]

theorem lookup_setIn (name : String) (value : Expr) (entries : List (String × Expr))
    (other : String) :
    (setIn name value entries).lookup other
      = if other = name then some value else entries.lookup other := by
  induction entries with
  | nil => rw [setIn, lookup_entry]
  | cons entry rest ih =>
      obtain ⟨key, old⟩ := entry
      by_cases hkey : key = name
      · subst hkey
        rw [setIn, if_pos rfl, lookup_entry, lookup_entry]
        by_cases h : other = key
        · rw [if_pos h, if_pos h]
        · rw [if_neg h, if_neg h, if_neg h]
      · rw [setIn, if_neg hkey, lookup_entry, lookup_entry, ih]
        by_cases h : other = name
        · rw [if_neg (fun he => hkey (he.symm.trans h)), if_pos h, if_pos h]
        · rw [if_neg h, if_neg h]

/-- A frame in which a name is bound to a value says so of that name, and of all others what it said
before. -/
theorem get?_set (frame : Frame) (name : String) (value : Expr) (other : String) :
    (frame.set name value).get? other = if other = name then some value else frame.get? other :=
  lookup_setIn name value frame.entries other

/-- A name is bound in a frame if it is one of its names. -/
theorem has_eq_true_iff (frame : Frame) (name : String) :
    frame.has name = true ↔ name ∈ frame.names := by
  unfold has get? names
  induction frame.entries with
  | nil => simp
  | cons entry rest ih =>
      obtain ⟨key, value⟩ := entry
      rw [lookup_entry, List.map_cons, List.mem_cons]
      by_cases h : name = key
      · simp [h]
      · rw [if_neg h, ih]
        simp [h]

theorem map_fst_setIn (name : String) (value : Expr) (entries : List (String × Expr)) :
    (setIn name value entries).map (·.1)
      = if name ∈ entries.map (·.1) then entries.map (·.1) else entries.map (·.1)
        ++ [name] := by
  induction entries with
  | nil => rfl
  | cons entry rest ih =>
      obtain ⟨key, old⟩ := entry
      by_cases hkey : key = name
      · simp [setIn, hkey]
      · simp only [setIn, if_neg hkey, List.map_cons, ih, List.mem_cons, Ne.symm hkey, false_or]
        split
        · rfl
        · rfl

/-- Binding a name leaves the names of a frame as they are, or adds that one at the end. -/
theorem names_set (frame : Frame) (name : String) (value : Expr) :
    (frame.set name value).names
      = if name ∈ frame.names then frame.names else frame.names ++ [name] :=
  map_fst_setIn name value frame.entries

end Frame

namespace ScopeStack

/-! ## Writing on the stack -/

/-- A binding that is overwritten is the nearest one of its name within the window. -/
theorem overwrite_eq_some {name : String} {value : Expr} {count : Nat} {frames written : List Frame}
    (h : overwrite name value count frames = some written) :
    ∃ above frame under, frames = above ++ frame :: under ∧ above.length < count ∧
      (∀ f ∈ above, f.has name = false) ∧ frame.has name = true ∧
      written = above ++ frame.set name value :: under := by
  induction frames generalizing count written with
  | nil => cases count <;> simp [overwrite] at h
  | cons first rest ih =>
      cases count with
      | zero => simp [overwrite] at h
      | succ count =>
          by_cases hfirst : first.has name = true
          · rw [overwrite, if_pos hfirst] at h
            injection h with h
            exact ⟨[], first, rest, rfl, Nat.succ_pos _, by simp, hfirst, h.symm⟩
          · rw [overwrite, if_neg hfirst] at h
            obtain ⟨tail, htail, rfl⟩ := Option.map_eq_some_iff.mp h
            obtain ⟨above, frame, under, rfl, hlen, habove, hframe, rfl⟩ := ih htail
            refine ⟨first :: above, frame, under, rfl, by simpa using hlen, ?_, hframe, rfl⟩
            intro f hf
            rcases List.mem_cons.mp hf with rfl | hf
            · exact Bool.not_eq_true _ ▸ hfirst
            · exact habove f hf

/-- Nothing is overwritten exactly when the window has no binding of the name. -/
theorem overwrite_eq_none_iff {name : String} {value : Expr} {count : Nat} {frames : List Frame} :
    overwrite name value count frames = none ↔
      ∀ f ∈ frames.take count, f.has name = false := by
  induction frames generalizing count with
  | nil => cases count <;> simp [overwrite]
  | cons first rest ih =>
      cases count with
      | zero => simp [overwrite]
      | succ count =>
          by_cases hfirst : first.has name = true
          · simp [overwrite, hfirst]
          · rw [overwrite, if_neg hfirst, Option.map_eq_none_iff, ih, List.take_succ_cons,
              List.forall_mem_cons, and_iff_right (by simpa using hfirst)]

theorem rebind_of_root_only {scope : ScopeStack} (h : scope.below = []) (name : String)
    (value : Expr) (floor : Nat) : scope.rebind name value floor = .error ⟨name⟩ := by
  simp [rebind, bindOuter, overwrite, h]

/-- What a rebinding writes in: the nearest binding of the name if the window has one, and the frame
directly below the top if it has none. -/
theorem rebind_writes {scope : ScopeStack} (hbelow : scope.below ≠ []) (name : String)
    (value : Expr) (floor : Nat) : ∃ above frame under, scope.below = above ++ frame :: under ∧
      scope.rebind name value floor
        = .ok ⟨scope.top, above ++ frame.set name value :: under⟩ ∧
      (∀ f ∈ above, f.has name = false) ∧
      (frame.has name = true ∧ floor ≤ under.length ∨
        above = [] ∧ ∀ f ∈ scope.below.take (scope.below.length - floor),
          f.has name = false) := by
  unfold rebind
  cases hwrite : overwrite name value (scope.below.length - floor) scope.below with
  | some written =>
      obtain ⟨above, frame, under, hsplit, hlength, habove, hframe, rfl⟩ :=
        overwrite_eq_some hwrite
      have hlength' := congrArg List.length hsplit
      rw [List.length_append, List.length_cons] at hlength'
      exact ⟨above, frame, under, hsplit, rfl, habove, .inl ⟨hframe, by omega⟩⟩
  | none =>
      obtain ⟨frame, under, hsplit⟩ := List.exists_cons_of_ne_nil hbelow
      refine ⟨[], frame, under, hsplit,
        ?_, by simp, .inr ⟨rfl, overwrite_eq_none_iff.mp hwrite⟩⟩
      simp [bindOuter, hsplit]

end ScopeStack

end ExprLang
