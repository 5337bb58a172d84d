import ExprLang.Proofs.Eval.Reach

/-!
# The frame law of evaluation

An evaluation gives the stack back with as many frames as it found. The frames below the top keep
their names, and those under the floor keep everything; the top frame may gain one name, if the node
is a `let` or a call that binds a parameter (`evaluate_frame_law`). A function's body runs with the
floor at the frame of its call, so whatever call a run comes to, its body leaves the frames below as
they were.

The proof follows the frame that an evaluation pushes for itself. `Inside s added s'` says that `s'`
stands in such a frame on top of `s`, and that taking the frame away leaves the effect `added` on
`s`. Evaluations inside keep this, since all they may add goes into the frame that is taken away,
and a binding turns `added` from nothing into one name.
-/

namespace ExprLang

open EvalM

/-- The lowest frame that a `let` may rebind in, counted from the root. -/
def RunState.floor (s : RunState) : Nat := s.floors.headD 0

/-! ## Effects on the frames -/

/-- `s'` has the frames of `s`, but for values that are bound in them and for names that are added
to the top one; and the frames under the floor, the top one aside, have not changed at all. -/
structure FrameEffect (s : RunState) (added : List String) (s' : RunState) : Prop where
  floors : s'.floors = s.floors
  top : s'.scope.top.names = s.scope.top.names ++ added
  below : s'.scope.below.map Frame.names = s.scope.below.map Frame.names
  under : s'.scope.below.drop (s.scope.below.length - s.floor)
    = s.scope.below.drop (s.scope.below.length - s.floor)

namespace FrameEffect

variable {s s' : RunState} {added : List String}

theorem refl (s : RunState) : FrameEffect s [] s :=
  ⟨rfl, (List.append_nil _).symm, rfl, rfl⟩

theorem length (h : FrameEffect s added s') : s'.scope.below.length = s.scope.below.length := by
  have hlen := congrArg List.length h.below
  simpa using hlen

/-- Where the floor is no lower than the top frame, all frames below stay as they are. -/
theorem below_eq (h : FrameEffect s added s') (hfloor : s.scope.below.length ≤ s.floor) :
    s'.scope.below = s.scope.below := by
  have hunder := h.under
  rw [Nat.sub_eq_zero_of_le hfloor] at hunder
  exact hunder

end FrameEffect

/-- The names that a frame has after a binding, as those it had and what is added. -/
theorem Frame.exists_names_set (frame : Frame) (name : String) (value : Expr) :
    ∃ added, (frame.set name value).names = frame.names ++ added ∧
      (added = [] ∨ added = [name]) := by
  rw [Frame.names_set]
  by_cases h : name ∈ frame.names
  · exact ⟨[], by rw [if_pos h, List.append_nil], .inl rfl⟩
  · exact ⟨[name], by rw [if_neg h], .inr rfl⟩

/-! ## Inside a frame of one's own -/

/-- `s'` stands in a frame on top of `s`, and without that frame `added` has been added to `s`. -/
structure Inside (s : RunState) (added : List String) (s' : RunState) : Prop where
  pushed : s'.scope.below ≠ []
  effect : FrameEffect s added { s' with scope := s'.scope.exit }

namespace Inside

variable {s s₁ s₂ : RunState} {added more : List String}

theorem enter (s : RunState) : Inside s [] { s with scope := s.scope.enter } :=
  ⟨List.cons_ne_nil _ _, FrameEffect.refl s⟩

/-- The frame below the pushed one is the top frame of the outer stack. -/
theorem below_eq (h : Inside s added s₁) : ∃ frame rest, s₁.scope.below = frame :: rest ∧
    frame.names = s.scope.top.names ++ added ∧
    rest.map Frame.names = s.scope.below.map Frame.names ∧
    rest.drop (s.scope.below.length - s.floor)
      = s.scope.below.drop (s.scope.below.length - s.floor) := by
  obtain ⟨frame, rest, hbelow⟩ := List.exists_cons_of_ne_nil h.pushed
  have htop := h.effect.top
  have hnames := h.effect.below
  have hunder := h.effect.under
  simp only [ScopeStack.exit, hbelow] at htop hnames hunder
  exact ⟨frame, rest, hbelow, htop, hnames, hunder⟩

theorem of_below {frame : Frame} {rest : List Frame} (hfloors : s₁.floors = s.floors)
    (hbelow : s₁.scope.below = frame :: rest)
    (htop : frame.names = s.scope.top.names ++ added)
    (hnames : rest.map Frame.names = s.scope.below.map Frame.names)
    (hunder : rest.drop (s.scope.below.length - s.floor)
      = s.scope.below.drop (s.scope.below.length - s.floor)) : Inside s added s₁ := by
  refine ⟨by rw [hbelow]; exact List.cons_ne_nil _ _, hfloors, ?_, ?_, ?_⟩
  · simpa only [ScopeStack.exit, hbelow] using htop
  · simpa only [ScopeStack.exit, hbelow] using hnames
  · simpa only [ScopeStack.exit, hbelow] using hunder

/-- Only the scope and the floors matter. -/
theorem congr (h : Inside s added s₁) (hscope : s₂.scope = s₁.scope)
    (hfloors : s₂.floors = s₁.floors) : Inside s added s₂ := by
  obtain ⟨frame, rest, hbelow, htop, hnames, hunder⟩ := h.below_eq
  exact of_below (hfloors.trans h.effect.floors) (hscope ▸ hbelow) htop hnames hunder

/-- What an evaluation in the pushed frame adds is gone with that frame. -/
theorem step (h : Inside s added s₁) (hstep : FrameEffect s₁ more s₂) :
    Inside s added s₂ := by
  obtain ⟨frame, rest, hbelow, htop, hnames, hunder⟩ := h.below_eq
  have hlen : rest.length = s.scope.below.length := by simpa using congrArg List.length hnames
  have hfloor : s₁.floor = s.floor := by rw [RunState.floor, h.effect.floors]; rfl
  have hnames₂ := hstep.below
  have hunder₂ := hstep.under
  rw [hbelow] at hnames₂ hunder₂
  rw [hfloor, List.length_cons, hlen] at hunder₂
  obtain ⟨frame₂, rest₂, hbelow₂⟩ : ∃ frame₂ rest₂,
      s₂.scope.below = frame₂ :: rest₂ := by
    refine List.exists_cons_of_ne_nil fun hnil => ?_
    rw [hnil] at hnames₂
    exact List.cons_ne_nil _ _ hnames₂.symm
  rw [hbelow₂] at hnames₂ hunder₂
  simp only [List.map_cons, List.cons.injEq] at hnames₂
  refine of_below (hstep.floors.trans h.effect.floors) hbelow₂ (hnames₂.1.trans htop)
    (hnames₂.2.trans hnames) ?_
  rw [← hunder]
  by_cases hle : s.floor ≤ s.scope.below.length
  · -- the floor lies below the pushed frame, and both windows end at it
    rw [Nat.succ_sub hle, List.drop_succ_cons, List.drop_succ_cons] at hunder₂
    exact hunder₂
  · -- the floor lies at the pushed frame or above it, so nothing has changed
    rw [show s.scope.below.length + 1 - s.floor = 0 by omega] at hunder₂
    rw [(List.cons.inj hunder₂).2]

/-- Writing in the frame directly below the pushed one adds the name there, unless it is there. -/
theorem bindOuter {name : String} {value : Expr} {scope : ScopeStack} (h : Inside s [] s₁)
    (hbind : s₁.scope.bindOuter name value = .ok scope) :
    ∃ added, Inside s added { s₁ with scope := scope } ∧ (added = [] ∨ added = [name]) := by
  obtain ⟨frame, rest, hbelow, htop, hnames, hunder⟩ := h.below_eq
  obtain ⟨added, hadded, hcases⟩ := frame.exists_names_set name value
  simp only [ScopeStack.bindOuter, hbelow, Except.ok.injEq] at hbind
  subst hbind
  refine ⟨added, of_below h.effect.floors rfl ?_ hnames hunder, hcases⟩
  rw [hadded, htop, List.append_nil]

/-- A binding that is overwritten adds no name, and lies at the floor or above it. -/
theorem overwrite {name : String} {value : Expr} {written : List Frame} (h : Inside s [] s₁)
    (hwrite : ScopeStack.overwrite name value (s₁.scope.below.length - s.floor) s₁.scope.below
      = some written) :
    Inside s [] { s₁ with scope := ⟨s₁.scope.top, written⟩ } := by
  obtain ⟨first, rest, hbelow, htop, hnames, hunder⟩ := h.below_eq
  have hlen : rest.length = s.scope.below.length := by simpa using congrArg List.length hnames
  rw [hbelow, List.length_cons, hlen] at hwrite
  obtain ⟨above, frame, under, hsplit, hwindow, -, hhas, rfl⟩ :=
    ScopeStack.overwrite_eq_some hwrite
  have hkept : (frame.set name value).names = frame.names := by
    rw [Frame.names_set, if_pos ((Frame.has_eq_true_iff frame name).mp hhas)]
  cases above with
  | nil =>
      obtain ⟨rfl, rfl⟩ := List.cons.inj hsplit
      exact of_below h.effect.floors rfl (hkept.trans htop) hnames hunder
  | cons first' above =>
      rw [List.cons_append] at hsplit
      obtain ⟨rfl, hrest⟩ := List.cons.inj hsplit
      refine of_below h.effect.floors rfl htop ?_ ?_
      · show (above ++ frame.set name value :: under).map Frame.names = _
        rw [← hnames, hrest, List.map_append, List.map_append, List.map_cons,
          List.map_cons, hkept]
      · -- the frame that is written in is one of those that the floor cuts off
        show (above ++ frame.set name value :: under).drop _ = _
        obtain ⟨extra, hcut⟩ :
            ∃ extra, s.scope.below.length - s.floor - above.length = extra + 1 :=
          ⟨s.scope.below.length - s.floor - above.length - 1, by
            rw [List.length_cons] at hwindow
            omega⟩
        rw [← hunder, hrest, List.drop_append, List.drop_append, hcut, List.drop_succ_cons,
          List.drop_succ_cons]

theorem rebind {name : String} {value : Expr} {scope : ScopeStack} (h : Inside s [] s₁)
    (hbind : s₁.scope.rebind name value s.floor = .ok scope) :
    ∃ added, Inside s added { s₁ with scope := scope } ∧ (added = [] ∨ added = [name]) := by
  unfold ScopeStack.rebind at hbind
  split at hbind
  · rename_i written hwrite
    injection hbind with hbind
    subst hbind
    exact ⟨[], h.overwrite hwrite, .inl rfl⟩
  · exact h.bindOuter hbind

end Inside

/-! ## Steps inside a frame -/

/-- A step that leaves the frames as an evaluation does. -/
def FrameSafe {α : Type} (m : EvalM α) : Prop :=
  ∀ s, ∃ added, FrameEffect s added (final (m s))

section
variable {α : Type} {s : RunState} {added : List String}

theorem FrameSafe.keeps {m : EvalM α} (hm : FrameSafe m) : Keeps (Inside s added) m := by
  refine Keeps.of_final fun s₁ h => ?_
  obtain ⟨more, hstep⟩ := hm s₁
  exact h.step hstep

theorem Inside.keeps_lookup (name : String) : Keeps (Inside s added) (lookup name) := by
  intro s₁ h
  unfold lookup
  split
  · exact h
  · exact h

theorem Inside.keeps_log (parts : List String) : Keeps (Inside s added) (log parts) :=
  fun _ h => h.congr rfl rfl

theorem Inside.keeps_setLast (value : Expr) : Keeps (Inside s added) (setLast value) :=
  fun _ h => h.congr rfl rfl

theorem Inside.keeps_onConsole (act : ConsoleM α) : Keeps (Inside s added) (onConsole act) := by
  intro s₁ h
  unfold onConsole
  split
  · exact h.congr rfl rfl
  · exact h.congr rfl rfl

theorem Inside.keeps_recorded {m : EvalM α} (record : CallRecord)
    (hm : Keeps (Inside s added) m) : Keeps (Inside s added) (recorded record m) := by
  intro s₁ h
  have hend := hm { s₁ with calls := record :: s₁.calls } (h.congr rfl rfl)
  unfold recorded
  split
  · rename_i value s₂ hms
    rw [hms] at hend
    exact hend.congr rfl rfl
  · rename_i failure s₂ hms
    rw [hms] at hend
    exact hend

/-- A function body changes nothing below the frame of its call, since the floor is at its own. -/
theorem FrameSafe.aboveFloor_effect {m : EvalM α} (hm : FrameSafe m) (s : RunState) :
    ∃ added, FrameEffect s added (final (aboveFloor m s)) ∧
      (final (aboveFloor m s)).scope.below = s.scope.below := by
  obtain ⟨added, hbody⟩ := hm { s with floors := s.scope.depth :: s.floors }
  -- the floor of the body is as high as the stack it starts on
  have hbelow := hbody.below_eq (Nat.le_succ _)
  rw [final_aboveFloor]
  refine ⟨added, ⟨?_, hbody.top, hbody.below, ?_⟩, hbelow⟩
  · rw [hbody.floors]
    rfl
  · show List.drop _ (final (m _)).scope.below = _
    rw [hbelow]

theorem FrameSafe.aboveFloor {m : EvalM α} (hm : FrameSafe m) : FrameSafe (aboveFloor m) :=
  fun s => ⟨_, (hm.aboveFloor_effect s).choose_spec.1⟩

end

/-! ## Calls -/

section
variable {s : RunState} {settings : Settings} {runBody : Expr → EvalM Expr}

/-- What a step in a pushed frame may add below it: nothing, or one name of those allowed. -/
def InsideOne (s : RunState) (allowed : String → Prop) (s' : RunState) : Prop :=
  ∃ added, Inside s added s' ∧ (added = [] ∨ ∃ name, added = [name] ∧ allowed name)

theorem InsideOne.of_inside {allowed : String → Prop} {s' : RunState} (h : Inside s [] s') :
    InsideOne s allowed s' :=
  ⟨[], h, .inl rfl⟩

theorem InsideOne.mono {allowed allowed' : String → Prop} {s' : RunState}
    (h : InsideOne s allowed s') (himp : ∀ name, allowed name → allowed' name) :
    InsideOne s allowed' s' := by
  obtain ⟨added, hadded, hcases⟩ := h
  exact ⟨added, hadded, hcases.imp_right fun ⟨name, he, hname⟩ =>
    ⟨name, he, himp name hname⟩⟩

/-- A step that only keeps may leave one name behind as well as none. -/
theorem EvalM.Keeps.insideOne {α : Type} {allowed : String → Prop} {m : EvalM α}
    (hm : Keeps (Inside s []) m) :
    Triple (Inside s []) m (fun _ => InsideOne s allowed) (fun _ => InsideOne s allowed) :=
  hm.mono (fun _ h => h) (fun _ _ => InsideOne.of_inside) (fun _ _ => InsideOne.of_inside)

/-- A step that keeps what has been added keeps that it is at most one name. -/
theorem InsideOne.keeps {α : Type} {allowed : String → Prop} {m : EvalM α}
    (hm : ∀ added, Keeps (Inside s added) m) : Keeps (InsideOne s allowed) m := by
  refine Keeps.of_final fun s₁ h => ?_
  obtain ⟨added, hadded, hcases⟩ := h
  exact ⟨added, (hm added).final hadded, hcases⟩

theorem keeps_traced {added : List String} {m : EvalM Expr} (parts : List String)
    (hm : Keeps (Inside s added) m) : Keeps (Inside s added)
      (if settings.tracing then log parts >>= fun _ => m else m) :=
  Keeps.ite _ (Keeps.bind (Inside.keeps_log parts) fun _ => hm) hm

theorem keeps_invoke {added : List String} (callee : Expr) (name : String) (args : List Expr) :
    Keeps (Inside s added) (invoke settings callee name args) := by
  unfold invoke
  exact keeps_traced _ (Inside.keeps_recorded _ (Inside.keeps_onConsole _))

theorem keeps_callBuiltin {added : List String} (callee : Expr) (name : String) (missing : Nat)
    (supplied : List Expr) {arg : Option (EvalM Expr)}
    (harg : ∀ m ∈ arg, Keeps (Inside s added) m) :
    Keeps (Inside s added) (callBuiltin settings callee name missing supplied arg) := by
  unfold callBuiltin
  split
  · exact keeps_invoke _ _ _
  · exact Keeps.raise _
  · refine Keeps.bind (harg _ rfl) fun value => ?_
    split
    · exact keeps_invoke _ _ _
    · exact Keeps.pure _
    · exact Keeps.throw _

theorem keeps_enterBody {added : List String} (hbody : ∀ e, FrameSafe (runBody e)) (name : String)
    (callee body : Expr) (args : List Expr) :
    Keeps (Inside s added) (enterBody settings runBody name callee body args) := by
  have hrun : Keeps (Inside s added)
      (recorded ⟨name, callee, args⟩ (aboveFloor (runBody body))) :=
    Inside.keeps_recorded _ (hbody body).aboveFloor.keeps
  unfold enterBody
  exact keeps_traced _ hrun

/-- A parameter is bound directly below the frame of the call. -/
theorem bindParam_insideOne (param : String) (value : Expr) :
    Triple (Inside s []) (bindParam param value) (fun _ => InsideOne s (· = param))
      (fun _ => InsideOne s (· = param)) := by
  intro s₁ h
  unfold bindParam onScope
  split
  · rename_i scope hbind
    obtain ⟨added, hadded, hcases⟩ := h.bindOuter hbind
    exact ⟨added, hadded, hcases.imp_right fun h => ⟨param, h, rfl⟩⟩
  · exact InsideOne.of_inside h

/-- A `let` binds directly below its own frame, or overwrites a binding at the floor or above. -/
theorem bindName_insideOne (name : String) (value : Expr) :
    Triple (Inside s []) (bindName name value) (fun _ => InsideOne s (· = name))
      (fun _ => InsideOne s (· = name)) := by
  intro s₁ h
  have hfloor : s₁.floors.headD 0 = s.floor := by
    show s₁.floors.headD 0 = s.floors.headD 0
    rw [h.effect.floors]
  unfold bindName onScope
  rw [hfloor]
  split
  · rename_i scope hbind
    obtain ⟨added, hadded, hcases⟩ := h.rebind hbind
    exact ⟨added, hadded, hcases.imp_right fun h => ⟨name, h, rfl⟩⟩
  · exact InsideOne.of_inside h

/-- Calling a function adds nothing below the frame of the call but the parameter. -/
theorem callFunction_insideOne (hbody : ∀ e, FrameSafe (runBody e)) (name : String)
    (callee : Expr) (param : Option String) (body : Expr) {arg : Option (EvalM Expr)}
    (harg : ∀ m ∈ arg, Keeps (Inside s []) m) :
    Triple (Inside s []) (callFunction settings runBody name callee param body arg)
      (fun _ => InsideOne s (fun p => arg.isSome ∧ param = some p))
      (fun _ => InsideOne s (fun p => arg.isSome ∧ param = some p)) := by
  unfold callFunction
  split
  · exact (Keeps.raise _).insideOne
  · exact (Keeps.raise _).insideOne
  · exact (keeps_enterBody hbody name callee body []).insideOne
  · rename_i param act
    have hone : ∀ s', InsideOne s (· = param) s' →
        InsideOne s (fun p => (some act).isSome ∧ some param = some p) s' :=
      fun s' h => h.mono fun p hp => ⟨rfl, hp ▸ rfl⟩
    have hact : Triple (Inside s []) act (fun _ => Inside s [])
        (fun _ => InsideOne s (fun p => (some act).isSome ∧ some param = some p)) :=
      (harg act rfl).mono (fun _ h => h) (fun _ _ h => h) (fun _ _ => InsideOne.of_inside)
    have hbind : ∀ value, Triple (Inside s []) (bindParam param value)
        (fun _ => InsideOne s (· = param))
        (fun _ => InsideOne s (fun p => (some act).isSome ∧ some param = some p)) :=
      fun value => (bindParam_insideOne param value).mono (fun _ h => h) (fun _ _ h => h)
        (fun _ => hone)
    refine hact.bind fun value => (hbind value).bind fun _ => ?_
    exact (InsideOne.keeps fun _ => keeps_enterBody hbody name callee body [value]).mono
      (fun _ h => h) (fun _ => hone) (fun _ => hone)

/-- A `let` adds nothing below its frame but its name. -/
theorem binding_insideOne (name : String) {act : EvalM Expr} (hact : Keeps (Inside s []) act) :
    Triple (Inside s []) (do
        let value ← act
        if settings.tracing then
          log ["let", name, "=", value.display, "depth", toString (← get).scope.depth]
        bindName name value
        return value)
      (fun _ => InsideOne s (· = name)) (fun _ => InsideOne s (· = name)) := by
  have hbind : ∀ value, Triple (Inside s []) (bindName name value >>= fun _ => pure value)
      (fun _ => InsideOne s (· = name)) (fun _ => InsideOne s (· = name)) :=
    fun value => (bindName_insideOne name value).bind fun _ => Triple.pure fun _ h => h
  refine Triple.bind (hact.mono (fun _ h => h) (fun _ _ h => h) fun _ _ => InsideOne.of_inside)
    fun value => ?_
  cases settings.tracing with
  | true => exact fun s₁ h => hbind value _ (h.congr rfl rfl)
  | false => exact hbind value

/-- Whether a call with this argument binds this parameter of what it calls. -/
def BindsParam (arg : Option (EvalM Expr)) (found : Expr) (param : String) : Prop :=
  arg.isSome ∧ ∃ loc body, found = .fn loc (some param) body

/-- Applying a value adds nothing below the frame of the call but the parameter that it binds. -/
theorem apply_insideOne (hbody : ∀ e, FrameSafe (runBody e)) (name : String)
    {arg : Option (EvalM Expr)} (harg : ∀ m ∈ arg, Keeps (Inside s []) m) (found : Expr) :
    Triple (Inside s []) (apply settings runBody name arg found)
      (fun _ => InsideOne s (BindsParam arg found))
      (fun _ => InsideOne s (BindsParam arg found)) := by
  cases found with
  | fn loc param body =>
      have hone : ∀ s', InsideOne s (fun p => arg.isSome ∧ param = some p) s' →
          InsideOne s (BindsParam arg (.fn loc param body)) s' :=
        fun s' h => h.mono fun p ⟨harg, hp⟩ => ⟨harg, loc, body, hp ▸ rfl⟩
      exact (callFunction_insideOne hbody name _ param body harg).mono (fun _ h => h)
        (fun _ => hone) (fun _ => hone)
  | builtin loc operation missing supplied =>
      exact (keeps_callBuiltin _ operation missing supplied harg).insideOne
  | _ => exact (Keeps.raise _).insideOne

end

/-! ## Trees -/

/-- The frames are given back, with at most one name more in the top one. -/
def GivesBack (s : RunState) (allowed : String → Prop) (s' : RunState) : Prop :=
  ∃ added, FrameEffect s added s' ∧ (added = [] ∨ ∃ name, added = [name] ∧ allowed name)

theorem InsideOne.inFrame {α : Type} {s : RunState} {allowed : String → Prop}
    (place : Option Loc) {act : EvalM α}
    (h : InsideOne s allowed (final (act { s with scope := s.scope.enter }))) :
    GivesBack s allowed (final (inFrame place act s)) := by
  obtain ⟨added, hadded, hcases⟩ := h
  rw [final_inFrame]
  exact ⟨added, hadded.effect, hcases⟩

theorem givesBack_of_keeps {α : Type} {s : RunState} {allowed : String → Prop}
    (place : Option Loc) {act : EvalM α} (h : Keeps (Inside s []) act) :
    GivesBack s allowed (final (inFrame place act s)) :=
  InsideOne.inFrame place (InsideOne.of_inside (h.final (Inside.enter s)))

section
variable {settings : Settings} {runBody : Expr → EvalM Expr}

/-- The name that the evaluation of a node may add to the frame it starts in: that of a `let`, or
the parameter of the function that a call with an argument turns out to call. -/
def Introduces (eval : Expr → EvalM Expr) : Expr → RunState → String → Prop
  | .binding _ name _, _, added => added = name
  | .call _ callee (some _), s, added =>
      ∃ loc body s', eval callee { s with scope := s.scope.enter }
        = .ok (.fn loc (some added) body) s'
  | _, _, _ => False

/-- A call adds at most the parameter of what its callee turns out to be. -/
theorem call_insideOne (hbody : ∀ e, FrameSafe (runBody e)) {callee : Expr}
    (hcallee : FrameSafe (evalWith settings runBody callee)) (name : String)
    {arg : Option (EvalM Expr)} (harg : ∀ m ∈ arg, FrameSafe m) (s : RunState) :
    InsideOne s
      (fun p => arg.isSome ∧ ∃ loc body s',
        evalWith settings runBody callee { s with scope := s.scope.enter }
          = .ok (.fn loc (some p) body) s')
      (final ((evalWith settings runBody callee >>= apply settings runBody name arg)
        { s with scope := s.scope.enter })) := by
  have hinside := hcallee.keeps.final (Inside.enter s)
  rw [bind_apply]
  -- the parameter is that of the value which the callee turns out to have
  cases hres : evalWith settings runBody callee { s with scope := s.scope.enter } with
  | error failure s₁ =>
      rw [hres] at hinside
      exact InsideOne.of_inside hinside
  | ok found s₁ =>
      rw [hres] at hinside
      have happly : Triple (Inside s []) (apply settings runBody name arg found) _ _ :=
        apply_insideOne hbody name (fun m hm => (harg m hm).keeps) found
      exact (happly.final hinside).mono fun p ⟨hsome, loc, body, hfound⟩ =>
        ⟨hsome, loc, body, s₁, hfound ▸ rfl⟩

/-- Evaluation gives the frames back if the running of bodies does. -/
theorem evalWith_givesBack (hbody : ∀ e, FrameSafe (runBody e)) (e : Expr) :
    ∀ s, GivesBack s (Introduces (evalWith settings runBody) e s)
      (final (evalWith settings runBody e s)) := by
  have hsafe : ∀ {e : Expr}, (∀ s, GivesBack s (Introduces (evalWith settings runBody) e s)
      (final (evalWith settings runBody e s))) → FrameSafe (evalWith settings runBody e) :=
    fun h s => (h s).imp fun _ h => h.1
  induction e with
  | int | str | bool | null | endOfProgram | fn | builtin =>
      intro s
      rw [evalWith]
      exact givesBack_of_keeps _ (Keeps.pure _)
  | ident loc name =>
      intro s
      rw [evalWith]
      exact givesBack_of_keeps _ (Inside.keeps_lookup name)
  | list loc items ih =>
      intro s
      rw [evalWith]
      exact givesBack_of_keeps _ (Keeps.bind (Keeps.evalItems fun e he => (hsafe (ih e he)).keeps)
        fun values => Keeps.pure _)
  | block loc exprs ih =>
      intro s
      rw [evalWith]
      exact givesBack_of_keeps _ (Keeps.evalSequence (fun e he => (hsafe (ih e he)).keeps) .null)
  | program loc exprs ih =>
      intro s
      rw [evalWith]
      exact givesBack_of_keeps _ (Keeps.evalProgram (fun e he => (hsafe (ih e he)).keeps)
        Inside.keeps_setLast)
  | choice loc test yes no ihTest ihYes ihNo =>
      intro s
      rw [evalWith]
      have htest := (hsafe ihTest).keeps.bind (Keeps.conditionValue (I := Inside s []) .choice)
      exact givesBack_of_keeps _ (htest.bind fun holds =>
        Keeps.ite holds (hsafe ihYes).keeps (hsafe ihNo).keeps)
  | loop loc test body ihTest ihBody =>
      intro s
      rw [evalWith]
      exact givesBack_of_keeps _ (Keeps.repeatWhile
        ((hsafe ihTest).keeps.bind (Keeps.conditionValue .loop)) (hsafe ihBody).keeps _ _ _)
  | binding loc name value ih =>
      intro s
      rw [evalWith]
      exact InsideOne.inFrame _ ((binding_insideOne name (hsafe ih).keeps).final (Inside.enter s))
  | bareCall loc callee ih =>
      intro s
      rw [evalWith]
      refine InsideOne.inFrame _ ?_
      exact (call_insideOne hbody (hsafe ih) _
        (fun m hm => absurd hm (Option.not_mem_none m)) s).mono
        fun p h => absurd h.1 Bool.false_ne_true
  | call loc callee arg ihCallee ihArg =>
      intro s
      rw [evalWith]
      refine InsideOne.inFrame _ ?_
      exact (call_insideOne hbody (hsafe ihCallee) _
        (fun m hm => Option.mem_some_iff.mp hm ▸ hsafe ihArg) s).mono fun p h => h.2

/-- Evaluation leaves the frames in order, however deep calls may nest. -/
theorem runBodies_frameSafe (settings : Settings) (nesting : Nat) (e : Expr) :
    FrameSafe (runBodies settings nesting e) := by
  refine runBodies_induction (C := fun runBody => ∀ e, FrameSafe (runBody e)) ?_ ?_ nesting e
  · exact fun e s => ⟨[], FrameEffect.refl s⟩
  · exact fun runBody hbody e s => (evalWith_givesBack hbody e s).imp fun _ h => h.1

theorem evaluate_givesBack (settings : Settings) (e : Expr) (s : RunState) :
    GivesBack s (Introduces (evaluate settings) e s) (final (evaluate settings e s)) := by
  rw [evaluate_eq]
  exact evalWith_givesBack (runBodies_frameSafe settings settings.nesting) e s

end

/-! ## Bodies -/

section
variable {settings : Settings} {runBody : Expr → EvalM Expr}

/-- A body leaves the frames below its own as they are, however it ends. -/
theorem enterBody_below (hbody : ∀ e, FrameSafe (runBody e)) (name : String) (callee body : Expr)
    (args : List Expr) (s : RunState) :
    (final (enterBody settings runBody name callee body args s)).scope.below = s.scope.below := by
  have hrun : ∀ s : RunState, (final (recorded ⟨name, callee, args⟩
      (aboveFloor (runBody body)) s)).scope.below = s.scope.below := by
    intro s
    have hkept := ((hbody body).aboveFloor_effect
      { s with calls := ⟨name, callee, args⟩ :: s.calls }).choose_spec.2
    unfold recorded
    cases hend : aboveFloor (runBody body)
      { s with calls := ⟨name, callee, args⟩ :: s.calls } with
    | ok value s' =>
        rw [hend] at hkept
        exact hkept
    | error failure s' =>
        rw [hend] at hkept
        exact hkept
  unfold enterBody
  cases settings.tracing with
  | false => exact hrun s
  | true => exact hrun _

end

/-- When a call has executed a body, the stack is that on which the body was entered, without the
frame of the call. -/
theorem Enters.frames_eq {settings : Settings} {ev : Evaluation} {call : CallRecord} {body : Expr}
    {s₁ : RunState} (h : Enters settings ev call body s₁) :
    (final (evalNested settings ev.nesting ev.tree ev.state)).scope.frames = s₁.scope.below := by
  have hlevel : ev.state.entered.Level s₁ :=
    (h.inherits hereditary_true trivial ev.state.scope.each_true).2.1
  obtain ⟨frame, under, hbelow⟩ :=
    List.exists_cons_of_ne_nil (hlevel.below_ne_nil (List.cons_ne_nil _ _))
  have hkept := @enterBody_below settings _ (runBodies_frameSafe settings ev.nesting) call.name
    call.callee body call.args s₁
  rw [h.eval_eq]
  refine (congrArg (fun s => s.scope.frames) (final_inFrame ..)).trans ?_
  rw [hbelow]
  exact congrArg ScopeStack.frames (ScopeStack.exit_of_below (hkept.trans hbelow))

/-! ## The law -/

/-- The frame at an index, counted from the root. -/
def ScopeStack.frame? (scope : ScopeStack) (i : Nat) : Option Frame := scope.frames.reverse[i]?

/-- What an evaluation does to the stack that it starts on, whichever names it may add. -/
structure FrameLaw (mayAdd : String → Prop) (s s' : RunState) : Prop where
  /-- There are as many frames as before. -/
  depth : s'.scope.depth = s.scope.depth
  /-- The floors are what they were. -/
  floors : s'.floors = s.floors
  /-- Under the floor, no frame but the top one has changed. -/
  under_floor : ∀ i < s.floor, i + 1 ≠ s.scope.depth → s'.scope.frame? i = s.scope.frame? i
  /-- Below the top frame, no name is gone and none is new. -/
  names_below : ∀ i, i + 1 < s.scope.depth →
    (s'.scope.frame? i).map Frame.names = (s.scope.frame? i).map Frame.names
  /-- In the top frame, no name is gone and at most one is new. -/
  names_top : s'.scope.top.names = s.scope.top.names ∨
    ∃ name, mayAdd name ∧ s'.scope.top.names = s.scope.top.names ++ [name]

namespace ScopeStack

theorem frame?_of_lt {scope : ScopeStack} {i : Nat} (h : i < scope.below.length) :
    scope.frame? i = scope.below[scope.below.length - 1 - i]? := by
  unfold frame? frames
  rw [List.reverse_cons, List.getElem?_append_left (by rwa [List.length_reverse]),
    List.getElem?_reverse h]

theorem frame?_of_depth_le {scope : ScopeStack} {i : Nat} (h : scope.depth ≤ i) :
    scope.frame? i = none := by
  unfold frame?
  rw [List.getElem?_eq_none_iff, List.length_reverse]
  exact h

end ScopeStack

theorem GivesBack.frameLaw {s s' : RunState} {mayAdd : String → Prop}
    (h : GivesBack s mayAdd s') : FrameLaw mayAdd s s' := by
  obtain ⟨added, heffect, hadded⟩ := h
  have hlen := heffect.length
  have hdepth : s'.scope.depth = s.scope.depth := congrArg (· + 1) hlen
  refine ⟨hdepth, heffect.floors, ?_, ?_, ?_⟩
  · intro i hi htop
    by_cases hlt : i < s.scope.below.length
    · -- both windows under the floor are the same, and the frame lies in them
      rw [ScopeStack.frame?_of_lt hlt, ScopeStack.frame?_of_lt (hlen ▸ hlt), hlen]
      have hat := congrArg (·[s.scope.below.length - 1 - i
        - (s.scope.below.length - s.floor)]?) heffect.under
      simp only [List.getElem?_drop] at hat
      rwa [Nat.add_sub_cancel' (by omega)] at hat
    · have hle : s.scope.depth ≤ i := by
        unfold ScopeStack.depth at htop ⊢
        omega
      rw [ScopeStack.frame?_of_depth_le hle, ScopeStack.frame?_of_depth_le (hdepth ▸ hle)]
  · intro i hi
    have hlt : i < s.scope.below.length := Nat.lt_of_succ_lt_succ hi
    rw [ScopeStack.frame?_of_lt hlt, ScopeStack.frame?_of_lt (hlen ▸ hlt), hlen,
      ← List.getElem?_map, ← List.getElem?_map, heffect.below]
  · rcases hadded with rfl | ⟨name, rfl, hname⟩
    · exact .inl (heffect.top.trans (List.append_nil _))
    · exact .inr ⟨name, hname, heffect.top⟩

/-- **The frame law.** However an evaluation ends, it leaves the frames and the floors in order:
none is gone and none is left over, those under the floor have not changed, and at most one name is
new, in the top frame. And whatever call of a function the evaluation comes to, however that call
ends, its body has changed no frame below the frame of the call. -/
theorem evaluate_frame_law (settings : Settings) (e : Expr) (s : RunState) :
    FrameLaw (Introduces (evaluate settings) e s) s (final (evaluate settings e s)) ∧
      ∀ sub call body s₁, Reaches settings ⟨settings.nesting, e, s⟩ sub →
        Enters settings sub call body s₁ →
          (final (evalNested settings sub.nesting sub.tree sub.state)).scope.frames
            = s₁.scope.below :=
  ⟨(evaluate_givesBack settings e s).frameLaw, fun _ _ _ _ _ henters => henters.frames_eq⟩

/-- The body of a function is a `let` of a name that the caller has bound, and the caller's binding
stays as it is. -/
theorem evaluate_frame_law_let_in_body :
    let s := RunState.initial (.ofRoot (.ofList [("x", .int none 1)])) (.ofInput "")
    let body : Expr := .binding none "x" (.int none 2)
    let fn : Expr := .fn none none body
    let ev : Evaluation := ⟨256, .call none fn none, s⟩
    (Reaches {} ev ev ∧ Enters {} ev ⟨calleeName fn, fn, []⟩ body s.entered) ∧
      (final (evaluate {} ev.tree s)).scope.frames = s.scope.frames := by
  intro s body fn ev
  have hreaches : Reaches {} ev ev := .here ev
  have henters : Enters {} ev ⟨calleeName fn, fn, []⟩ body s.entered := .bare rfl
  have hframes := (evaluate_frame_law {} ev.tree s).2 ev _ _ _ hreaches henters
  exact ⟨⟨hreaches, henters⟩, hframes⟩

end ExprLang
