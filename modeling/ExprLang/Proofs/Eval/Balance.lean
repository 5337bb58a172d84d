import ExprLang.Proofs.Eval.Congruence
import ExprLang.Proofs.Scope.Values

/-!
# Evaluations that end with a value

An evaluation that ends with a value gives back all that it has taken (`evalNested_returns`): there
are as many frames as before, the same floors, and the same calls on record, so nothing shows which
calls were executed on the way. A hereditary property that the tree has and the values on the stack,
the value has as well, and the values on the stack go on to have it.
-/

namespace ExprLang

open EvalM

/-- Two states with as many frames, the same floors and the same calls. -/
structure RunState.Level (s s' : RunState) : Prop where
  depth : s'.scope.depth = s.scope.depth
  floors : s'.floors = s.floors
  calls : s'.calls = s.calls

namespace RunState.Level

variable {s₁ s₂ s₃ : RunState}

theorem refl (s : RunState) : s.Level s := ⟨rfl, rfl, rfl⟩

theorem trans (h : s₁.Level s₂) (h' : s₂.Level s₃) : s₁.Level s₃ :=
  ⟨h'.depth.trans h.depth, h'.floors.trans h.floors, h'.calls.trans h.calls⟩

theorem below_ne_nil (h : s₁.Level s₂) (hbelow : s₁.scope.below ≠ []) :
    s₂.scope.below ≠ [] := by
  have hpos := List.length_pos_iff.mpr hbelow
  have hdepth := h.depth
  unfold ScopeStack.depth at hdepth
  exact List.ne_nil_of_length_pos (by omega)

end RunState.Level

/-- A step that, if it ends with a value, gives back what it has taken. Where the values on the
stack have a property, they have it again, and the value is as told. -/
def Returns (P : Expr → Prop) {α : Type} (V : α → Prop) (m : EvalM α) : Prop :=
  ∀ s value s', s.scope.Each P → m s = .ok value s' → V value ∧ s.Level s' ∧
    s'.scope.Each P

namespace Returns

variable {P : Expr → Prop} {α β : Type} {V : α → Prop} {U : β → Prop}

theorem pure {value : α} (h : V value) : Returns P V (Pure.pure value) := by
  rintro s _ _ heach ⟨⟩
  exact ⟨h, .refl s, heach⟩

theorem throw (failure : Failure) : Returns P V (throw failure : EvalM α) := nofun

theorem bind {m : EvalM β} {f : β → EvalM α} (hm : Returns P U m)
    (hf : ∀ value, U value → Returns P V (f value)) : Returns P V (m >>= f) := by
  intro s value s' heach hend
  rw [bind_apply] at hend
  cases hms : m s with
  | ok middle s₁ =>
      rw [hms] at hend
      obtain ⟨hmiddle, hlevel, heach₁⟩ := hm s middle s₁ heach hms
      obtain ⟨hvalue, hlevel', heach'⟩ := hf middle hmiddle s₁ value s' heach₁ hend
      exact ⟨hvalue, hlevel.trans hlevel', heach'⟩
  | error failure s₁ =>
      rw [hms] at hend
      exact absurd hend nofun

theorem ite {m m' : EvalM α} (test : Bool) (hm : Returns P V m) (hm' : Returns P V m') :
    Returns P V (if test then m else m') := by
  cases test with
  | true => exact hm
  | false => exact hm'

/-- A bracket gives back what its second end gives back of what its first end has taken. -/
theorem bracket {start stop halt : RunState → RunState} {mark : Failure → Failure}
    {m : EvalM α} (hm : Returns P V m) (hstart : ∀ s, s.scope.Each P → (start s).scope.Each P)
    (hstop : ∀ s, s.scope.Each P → (stop s).scope.Each P)
    (hends : ∀ s s', (start s).Level s' → s.Level (stop s')) :
    Returns P V (bracket start stop halt mark m) := by
  intro s value s' heach hend
  unfold EvalM.bracket at hend
  cases hms : m (start s) with
  | ok value s₁ =>
      rw [hms] at hend
      cases hend
      obtain ⟨hvalue, hlevel, heach₁⟩ := hm _ _ _ (hstart s heach) hms
      exact ⟨hvalue, hends s s₁ hlevel, hstop s₁ heach₁⟩
  | error failure s₁ =>
      rw [hms] at hend
      exact absurd hend nofun

theorem inFrame {m : EvalM α} (hm : Returns P V m) (place : Option Loc) :
    Returns P V (inFrame place m) := by
  rw [inFrame_eq_bracket]
  refine hm.bracket (fun _ => ScopeStack.Each.enter) (fun _ => ScopeStack.Each.exit)
    fun s s' hlevel => ⟨?_, hlevel.floors, hlevel.calls⟩
  have hbelow : s'.scope.below ≠ [] := hlevel.below_ne_nil (List.cons_ne_nil _ _)
  obtain ⟨frame, rest, hsplit⟩ := List.exists_cons_of_ne_nil hbelow
  have hdepth := hlevel.depth
  simp only [ScopeStack.depth, ScopeStack.enter, ScopeStack.frames, hsplit, List.length_cons]
    at hdepth
  simp only [ScopeStack.depth, ScopeStack.exit, hsplit]
  omega

theorem aboveFloor {m : EvalM α} (hm : Returns P V m) : Returns P V (aboveFloor m) := by
  rw [aboveFloor_eq_bracket]
  exact hm.bracket (fun _ => id) (fun _ => id)
    fun _ _ hlevel => ⟨hlevel.depth, congrArg List.tail hlevel.floors, hlevel.calls⟩

theorem recorded {m : EvalM α} (hm : Returns P V m) (call : CallRecord) :
    Returns P V (recorded call m) := by
  rw [recorded_eq_bracket]
  exact hm.bracket (fun _ => id) (fun _ => id)
    fun _ _ hlevel => ⟨hlevel.depth, hlevel.floors, congrArg List.tail hlevel.calls⟩

theorem traced {settings : Settings} {trace : EvalM Unit} {m : EvalM α} (htrace : Logs trace)
    (hm : Returns P V m) : Returns P V (if settings.tracing then trace >>= fun _ => m else m) := by
  have hlog : Returns P (fun _ => True) trace := by
    intro s value s' heach hend
    obtain ⟨line, hline⟩ := htrace s
    cases hline.symm.trans hend
    exact ⟨trivial, ⟨rfl, rfl, rfl⟩, heach⟩
  exact ite _ (hlog.bind fun _ _ => hm) hm

theorem repeatWhile {settings : Settings} {test : EvalM Bool} {body : EvalM Expr}
    {Q : Expr → Prop} (htest : Returns P (fun _ => True) test)
    (hbody : Returns P Q body) (tests done : Nat) {last : Expr} (hlast : Q last) :
    Returns P Q (repeatWhile settings test body tests done last) := by
  induction tests generalizing done last with
  | zero => exact throw _
  | succ tests ih =>
      refine htest.bind fun holds _ => ite holds ?_ (pure hlast)
      exact ite _ (throw _) (hbody.bind fun value hvalue => ih (done + 1) hvalue)

theorem lookup (name : String) : Returns P P (lookup name) := by
  intro s value s' heach hend
  unfold EvalM.lookup at hend
  split at hend
  next value' hvalue =>
      cases hend
      exact ⟨heach.resolve hvalue, .refl s, heach⟩
  next => exact absurd hend nofun

/-- A value is bound in one frame below the top. -/
theorem onScope {name : String} {value : Expr} (hvalue : P value)
    {f : ScopeStack → Except ScopeError ScopeStack}
    (hf : ∀ scope scope', f scope = .ok scope' →
      ∃ above frame under, scope.below = above ++ frame :: under ∧
        scope' = ⟨scope.top, above ++ frame.set name value :: under⟩) :
    Returns P (fun _ => True) (onScope f) := by
  intro s _ s' heach hend
  unfold EvalM.onScope at hend
  split at hend
  next scope' hscope =>
      cases hend
      obtain ⟨above, frame, under, hbelow, rfl⟩ := hf _ _ hscope
      exact ⟨trivial, ⟨by simp [ScopeStack.depth, hbelow], rfl, rfl⟩,
        heach.write hbelow name hvalue⟩
  next => exact absurd hend nofun

theorem onConsole {act : ConsoleM α} (h : ∀ {console value console'},
    act console = .ok value console' → V value) : Returns P V (onConsole act) := by
  intro s value s' heach hend
  unfold EvalM.onConsole at hend
  split at hend
  next value' console' hact =>
      cases hend
      exact ⟨h hact, ⟨rfl, rfl, rfl⟩, heach⟩
  next => exact absurd hend nofun

end Returns

namespace Returns

variable {P : Expr → Prop} (name : String) {value : Expr} (hvalue : P value)
include hvalue

theorem bindName : Returns P (fun _ => True) (bindName name value) := fun _ _ _ heach hend =>
  onScope hvalue (fun _ _ => ScopeStack.below_of_rebind) _ _ _ heach hend

theorem bindParam : Returns P (fun _ => True) (bindParam name value) := by
  have hwrites : ∀ scope scope' : ScopeStack, scope.bindOuter name value = .ok scope' →
      ∃ above frame under, scope.below = above ++ frame :: under ∧
        scope' = ⟨scope.top, above ++ frame.set name value :: under⟩ := by
    intro scope scope' hbind
    obtain ⟨frame, under, hbelow, hscope⟩ := ScopeStack.below_of_bindOuter hbind
    exact ⟨[], frame, under, hbelow, hscope⟩
  exact onScope hvalue hwrites

end Returns

/-- Steps that give back what they have taken go together to evaluations that do. -/
theorem returns_congruence (settings : Settings) {P : Expr → Prop} (hP : Hereditary P) :
    Congruence settings settings P P fun _ V m _ => Returns P V m where
  valued := hP.valued
  pure := Returns.pure
  bind := Returns.bind
  raise := fun _ => Returns.throw _
  inFrame := fun place _ _ hm => hm.inFrame place
  aboveFloor := Returns.aboveFloor
  recorded := fun {_ call _ _} _ hm => hm.recorded call
  traced := Returns.traced
  repeatWhile := fun htest hbody => htest.repeatWhile hbody _ _ hP.null
  lookup := fun _ => Returns.lookup _
  bindName := fun _ => Returns.bindName _
  bindParam := fun _ => Returns.bindParam _
  runBuiltin := fun hfilled => Returns.onConsole
    (runBuiltin_keeps hP.valued.toValueClosed (hfilled.args hP.valued.toValueClosed))
  setLast := by
    rintro _ _ _ _ _ _ s _ _ heach ⟨⟩
    exact ⟨trivial, ⟨rfl, rfl, rfl⟩, heach⟩

section
variable (settings : Settings) {P : Expr → Prop} (hP : Hereditary P) (nesting : Nat)
include hP

theorem runBodies_returns {e : Expr} (he : P e) : Returns P P (runBodies settings nesting e) := by
  induction nesting generalizing e with
  | zero => exact Returns.throw _
  | succ nesting ih =>
      show Returns P P (evalNested settings nesting e)
      rw [evalNested_eq]
      exact @Congruence.evalWith _ _ _ _ _ _ (ExprLang.runBodies settings nesting)
        (returns_congruence settings hP) (fun _ _ => ih) _ he 0

/-- An evaluation that ends with a value gives back all that it has taken. -/
theorem evalNested_returns {e : Expr} (he : P e) : Returns P P (evalNested settings nesting e) :=
  runBodies_returns settings hP (nesting + 1) he

end

end ExprLang
