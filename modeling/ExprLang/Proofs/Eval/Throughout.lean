import ExprLang.Proofs.Eval.Invariant
import ExprLang.Proofs.Eval.Reach

/-!
# What holds throughout a run

An invariant that no primitive step breaks holds not only in the end of an evaluation but wherever
the evaluation comes to: in the state in which any other one begins on the way (`Stable.reaches`),
when the operands of a loop are evaluated again and again, and in the state in which an operation is
run or the body of a function is executed. The trees that are evaluated have what the tree has, and
the values have what values have.
-/

namespace ExprLang

open EvalM

namespace Stable

variable {settings : Settings} {P V : Expr → Prop} {I : Nat → RunState → Prop}
  {F : Failure → Prop}
  (h : Stable settings P V I F) {nesting k : Nat}
include h

theorem evalNested {e : Expr} (he : P e) : Safely I F k V (evalNested settings nesting e) :=
  h.runBodies (nesting + 1) he k

theorem evalNested_ok {e value : Expr} {s s' : RunState} (he : P e) (hs : I k s)
    (hend : ExprLang.evalNested settings nesting e s = .ok value s') : V value ∧ I k s' := by
  have hsafe : Safely I F k V (ExprLang.evalNested settings nesting e) := h.evalNested he
  have hafter := hsafe s hs
  rwa [hend] at hafter

theorem evalNested_error {e : Expr} {failure : Failure} {s s' : RunState} (he : P e) (hs : I k s)
    (hend : ExprLang.evalNested settings nesting e s = .error failure s') :
    F failure ∧ I k s' := by
  have hsafe : Safely I F k V (ExprLang.evalNested settings nesting e) := h.evalNested he
  have hafter := hsafe s hs
  rwa [hend] at hafter

theorem entered {s : RunState} (hs : I k s) : I (k + 1) s.entered :=
  h.enter hs

theorem noted {s : RunState} (parts : List String) (hs : I k s) : I k (s.noted settings parts) := by
  unfold RunState.noted
  split
  · exact h.logged _ hs
  · exact hs

theorem executing {s : RunState} {call : CallRecord} (hcall : OnRecord V call) (hs : I k s) :
    I k (s.executing call) :=
  h.pushFloor (s := { s with calls := call :: s.calls }) (h.pushCall hcall hs)

/-! ## On the way -/

/-- Trees that have passed have kept the invariant, if it is kept by what has been done about their
values. -/
theorem passes {keep : Expr → RunState → RunState}
    (hkeep : ∀ {value s}, V value → I k s → I k (keep value s)) {es : List Expr}
    {s s₁ : RunState} (hpasses : Passes settings nesting keep es s s₁) (hes : ∀ e ∈ es, P e)
    (hs : I k s) : I k s₁ := by
  induction hpasses with
  | nil => exact hs
  | cons hvalue _ ih =>
      obtain ⟨he, hes⟩ := List.forall_mem_cons.mp hes
      have hend := h.evalNested_ok he hs hvalue
      exact ih hes (hkeep hend.1 hend.2)

theorem loopReaches {test body : Expr} {s s₁ : RunState} {tests done : Nat}
    (hreaches : LoopReaches settings nesting test body s tests done s₁) (htest : P test)
    (hbody : P body) (hs : I k s) : I k s₁ := by
  induction hreaches with
  | begin => exact hs
  | again _ hholds _ hround ih =>
      exact (h.evalNested_ok hbody (h.evalNested_ok htest ih hholds).2 hround).2

/-- A call that comes to execute a body comes on record, and the body is a tree with the
property. -/
theorem enters {ev : Evaluation} {call : CallRecord} {body : Expr} {s₁ : RunState}
    (henters : Enters settings ev call body s₁) (htree : P ev.tree) (hs : I k ev.state) :
    OnRecord V call ∧ P body ∧ I (k + 1) s₁ := by
  cases henters with
  | bare hcallee =>
      have hpart := h.valued.parts htree _ (Expr.callee_mem_parts _ _ _)
      obtain ⟨hfn, hs₁⟩ := h.evalNested_ok hpart (h.entered hs) hcallee
      exact ⟨.function hfn (by simp), h.valued.body hfn, hs₁⟩
  | @given _ _ _ _ _ _ param _ _ _ _ _ hcallee harg hparam =>
      have hpart := h.valued.parts htree _ (Expr.callee_mem_parts _ _ _)
      have hpart' := h.valued.parts htree _ (Expr.arg_mem_parts _ _ _)
      obtain ⟨hfn, hs₁⟩ := h.evalNested_ok hpart (h.entered hs) hcallee
      obtain ⟨hvalue, hs₂⟩ := h.evalNested_ok hpart' hs₁ harg
      have hbound := h.bindParam param hvalue _ hs₂
      rw [hparam] at hbound
      exact ⟨.function hfn (List.forall_mem_singleton.mpr hvalue), h.valued.body hfn, hbound.2⟩

/-- A call that comes to run an operation has found a built-in, and perhaps supplied its last
argument. -/
theorem operates {ev : Evaluation} {call : CallRecord} {s₁ : RunState}
    (hoperates : Operates settings ev call s₁) (htree : P ev.tree) (hs : I k ev.state) :
    Filled V call ∧ I (k + 1) s₁ := by
  cases hoperates with
  | full hcallee =>
      have hpart := h.valued.parts htree _ (Expr.callee_mem_parts _ _ _)
      obtain ⟨hfound, hs₁⟩ := h.evalNested_ok hpart (h.entered hs) hcallee
      exact ⟨.found hfound, hs₁⟩
  | last hcallee harg =>
      have hpart := h.valued.parts htree _ (Expr.callee_mem_parts _ _ _)
      have hpart' := h.valued.parts htree _ (Expr.arg_mem_parts _ _ _)
      obtain ⟨hfound, hs₁⟩ := h.evalNested_ok hpart (h.entered hs) hcallee
      obtain ⟨hvalue, hs₂⟩ := h.evalNested_ok hpart' hs₁ harg
      exact ⟨.last hfound hvalue, hs₂⟩

/-- Whatever an evaluation begins, it begins under the invariant, inside one more frame. -/
theorem starts {ev sub : Evaluation} {call : Option CallRecord}
    (hstarts : Starts settings ev call sub) (htree : P ev.tree) (hs : I k ev.state) :
    P sub.tree ∧ I (k + 1) sub.state := by
  have hparts : ∀ part ∈ ev.tree.parts, P part := h.valued.parts htree
  cases hstarts with
  | item hbefore | member hbefore =>
      obtain ⟨hpassed, haft⟩ := List.forall_mem_append.mp hparts
      exact ⟨haft _ List.mem_cons_self,
        h.passes (fun _ hs => hs) hbefore hpassed (h.entered hs)⟩
  | topLevel hbefore =>
      -- between two expressions of a program the value of the first is kept
      obtain ⟨hpassed, haft⟩ := List.forall_mem_append.mp hparts
      exact ⟨haft _ List.mem_cons_self,
        h.passes (h.setLast htree) hbefore hpassed (h.entered hs)⟩
  | bound | choiceTest => exact ⟨hparts _ List.mem_cons_self, h.entered hs⟩
  | callee => exact ⟨hparts _ (Expr.callee_mem_parts _ _ _), h.entered hs⟩
  | @branch _ _ _ yes no _ _ holds _ htest =>
      obtain ⟨hP₁, hP₂⟩ := List.forall_mem_cons.mp hparts
      refine ⟨hP₂ _ ?_, (h.evalNested_ok hP₁ (h.entered hs) htest).2⟩
      cases holds <;> simp
  | loopTest hreaches =>
      have hbody := hparts _ (List.mem_cons_of_mem _ List.mem_cons_self)
      exact ⟨hparts _ List.mem_cons_self,
        h.loopReaches hreaches (hparts _ List.mem_cons_self) hbody (h.entered hs)⟩
  | loopBody hreaches htest =>
      have hbody := hparts _ (List.mem_cons_of_mem _ List.mem_cons_self)
      have hs₁ := h.loopReaches hreaches (hparts _ List.mem_cons_self) hbody (h.entered hs)
      exact ⟨hbody, (h.evalNested_ok (hparts _ List.mem_cons_self) hs₁ htest).2⟩
  | argument hcallee =>
      have hpart := hparts _ (Expr.callee_mem_parts _ _ _)
      exact ⟨hparts _ (Expr.arg_mem_parts _ _ _),
        (h.evalNested_ok hpart (h.entered hs) hcallee).2⟩
  | body henters =>
      obtain ⟨hcall, hbody, hs₁⟩ := h.enters henters htree hs
      exact ⟨hbody, h.executing hcall (h.noted _ hs₁)⟩

/-- **An invariant holds wherever a run comes to.** -/
theorem reaches {ev sub : Evaluation} (hreaches : Reaches settings ev sub) (htree : P ev.tree)
    (hs : I k ev.state) : P sub.tree ∧ ∃ k', I k' sub.state := by
  induction hreaches generalizing k with
  | here => exact ⟨htree, k, hs⟩
  | within hstarts _ ih =>
      obtain ⟨htree', hs'⟩ := h.starts hstarts htree hs
      exact ih htree' hs'

end Stable

end ExprLang
