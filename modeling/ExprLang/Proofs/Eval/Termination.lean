import ExprLang.Proofs.Eval.Limits
import ExprLang.Proofs.Operation.Failures
import ExprLang.Proofs.Scope.Values

/-!
# Runs under a cap end

Under a loop cap every run ends, and it is known how: with a value or with one of few failures
(`evaluate_ends`). No loop is given up, since it may test its condition once more than it may run
its body; calls are cut off by the limit on their nesting; and between calls evaluation descends the
tree.

What a built-in misses and what it holds should add up to what its operation takes, and its name
should not be that of an attribute of the host. Where this is so, in the tree and in the values that
names stand for, it remains so all along the run: no operation is run on a number of arguments that
it does not take, and no attribute is come across.
-/

namespace ExprLang

open EvalM

/-! ## Books of arguments -/

/-- What a built-in misses and what it holds add up to what the operation that it names takes. -/
def Expr.CountsArguments : Expr → Prop
  | .builtin _ name missing supplied =>
      ∀ operation, Operation.ofName? name = some operation →
        missing + supplied.length = operation.arity
  | _ => True

/-- A tree in which all built-ins keep their books. -/
abbrev Booked : Expr → Prop := Everywhere Expr.CountsArguments

theorem hereditary_booked : Hereditary Booked := by
  refine hereditary_of_builtin (fun {e} hother => ?_)
    fun {loc name missing supplied} arg hcounts => ?_
  · cases e with
    | builtin loc name missing supplied => exact absurd rfl (hother loc name missing supplied)
    | _ => trivial
  · -- an argument that is supplied is no longer missing
    intro operation hname
    have hcount : missing + 1 + supplied.length = operation.arity := hcounts operation hname
    rw [List.length_append, List.length_singleton]
    omega

/-! ## Names of attributes -/

/-- A built-in does not go by the name of an attribute. -/
def Expr.NamesNoAttribute : Expr → Prop
  | .builtin _ name _ _ => Attribute.ofName? name = none
  | _ => True

/-- A tree in which no built-in goes by the name of an attribute. -/
abbrev HostFree : Expr → Prop := Everywhere Expr.NamesNoAttribute

theorem hereditary_hostFree : Hereditary HostFree := by
  refine hereditary_of_builtin (fun {e} hother => ?_) fun _ hname => hname
  cases e with
  | builtin loc name missing supplied => exact absurd rfl (hother loc name missing supplied)
  | _ => trivial

/-! ## How steps fail -/

section
variable (booked hostFree : Prop)

/-- A failure that can be told beforehand, if it is known whether the books are kept, and whether
there are no attributes. -/
def Failure.Known (failure : Failure) : Prop :=
  failure.OfOperation ∨ ¬ booked ∧ failure.Miscounted ∨ ¬ hostFree ∧ failure.OfHost

/-- What is so of trees and values, if it is known whether the books are kept, and whether there are
no attributes. -/
def Expr.InOrderIf (e : Expr) : Prop :=
  (booked → Booked e) ∧ (hostFree → HostFree e)

/-- The frames that have been pushed are there, and the values on the stack are in order. -/
def StackInOrder (k : Nat) (s : RunState) : Prop :=
  k ≤ s.scope.below.length ∧ s.scope.Each (Expr.InOrderIf booked hostFree)

variable {booked hostFree}

theorem hereditary_inOrderIf : Hereditary (Expr.InOrderIf booked hostFree) :=
  (hereditary_booked.under booked).and (hereditary_hostFree.under hostFree)

namespace StackInOrder

/-- Inside a frame a name can be bound. -/
theorem write {k : Nat} {s : RunState} (h : StackInOrder booked hostFree k s)
    {above under : List Frame} {frame : Frame} (hbelow : s.scope.below = above ++ frame :: under)
    (name : String) {value : Expr} (hvalue : value.InOrderIf booked hostFree) :
    StackInOrder booked hostFree k
      { s with scope := ⟨s.scope.top, above ++ frame.set name value :: under⟩ } := by
  refine ⟨?_, h.2.write hbelow name hvalue⟩
  have hlen := h.1
  rw [hbelow] at hlen
  simpa using hlen

theorem bindName {k : Nat} (name : String) {value : Expr}
    (hvalue : value.InOrderIf booked hostFree) :
    Safely (StackInOrder booked hostFree) (Failure.Known booked hostFree) (k + 1) (fun _ => True)
      (bindName name value) := by
  intro s hs
  have hbelow : s.scope.below ≠ [] :=
    List.ne_nil_of_length_pos (Nat.lt_of_lt_of_le k.succ_pos hs.1)
  obtain ⟨above, frame, under, hsplit, hbind⟩ := bindName_eq_ok hbelow name value
  rw [hbind]
  exact ⟨trivial, hs.write hsplit name hvalue⟩

theorem bindParam {k : Nat} (name : String) {value : Expr}
    (hvalue : value.InOrderIf booked hostFree) :
    Safely (StackInOrder booked hostFree) (Failure.Known booked hostFree) (k + 1) (fun _ => True)
      (bindParam name value) := by
  intro s hs
  have hbelow : s.scope.below ≠ [] :=
    List.ne_nil_of_length_pos (Nat.lt_of_lt_of_le k.succ_pos hs.1)
  obtain ⟨frame, under, hsplit⟩ := List.exists_cons_of_ne_nil hbelow
  rw [bindParam_eq_ok hsplit]
  have hwrite := @write _ _ _ _ hs [] under frame hsplit name value hvalue
  exact ⟨trivial, hwrite⟩

end StackInOrder

/-- A built-in that is in order fails in a known way. -/
theorem BuiltinFails.known {loc : Option Loc} {name : String} {args : List Expr} {failure : Failure}
    (hbuiltin : (Expr.builtin loc name 0 args).InOrderIf booked hostFree)
    (h : BuiltinFails name args failure) : failure.Known booked hostFree := by
  cases h with
  | unknown => exact .inl (.inl (.fault _ _))
  | @foreign found hfound =>
      refine .inr (.inr ⟨fun hhost => ?_, .foreign name found⟩)
      have hnone : Attribute.ofName? name = none := (hbuiltin.2 hhost).node
      exact absurd (hfound.symm.trans hnone) nofun
  | fails _ hfails => exact .inl hfails.ofOperation
  | @argumentCount operation hname hcount =>
      refine .inr (.inl ⟨fun hbooked => hcount ?_, .argumentCount hcount⟩)
      have hbooks : 0 + args.length = operation.arity := (hbuiltin.1 hbooked).node operation hname
      rwa [Nat.zero_add] at hbooks

theorem StackInOrder.runBuiltin {k : Nat} {call : CallRecord}
    (hfilled : Filled (Expr.InOrderIf booked hostFree) call) :
    Safely (StackInOrder booked hostFree) (Failure.Known booked hostFree) k
      (Expr.InOrderIf booked hostFree) (onConsole (runBuiltin call.name call.args)) := by
  have hvalued : Valued (Expr.InOrderIf booked hostFree) _ := hereditary_inOrderIf.valued
  obtain ⟨loc, hcallee⟩ : ∃ loc,
      (Expr.builtin loc call.name 0 call.args).InOrderIf booked hostFree := by
    cases hfilled with
    | found hfound => exact ⟨_, hfound⟩
    | last hfound harg => exact ⟨none, hereditary_inOrderIf.supply hfound harg⟩
  intro s hs
  unfold EvalM.onConsole
  cases hend : ExprLang.runBuiltin call.name call.args s.console with
  | ok value console =>
      exact ⟨runBuiltin_keeps hvalued.toValueClosed (hvalued.supplied hcallee) hend, hs⟩
  | error failure console => exact ⟨(runBuiltin_fails hend).known hcallee, hs⟩

/-- Under a cap no primitive step fails in an unknown way, and all remains in order. -/
theorem stackInOrder_stable {settings : Settings} {cap : Int} (hcap : settings.loopCap = some cap) :
    Stable settings (Expr.InOrderIf booked hostFree) (Expr.InOrderIf booked hostFree)
      (StackInOrder booked hostFree) (Failure.Known booked hostFree) where
  valued := hereditary_inOrderIf.valued
  enter := fun hs => ⟨Nat.succ_le_succ hs.1, hs.2.enter⟩
  exit := fun {k s} hs => by
    refine ⟨?_, hs.2.exit⟩
    have hlen := hs.1
    obtain ⟨frame, rest, hbelow⟩ :=
      List.exists_cons_of_ne_nil (List.ne_nil_of_length_pos (Nat.lt_of_lt_of_le k.succ_pos hlen))
    rw [ScopeStack.exit_of_below hbelow]
    rw [hbelow] at hlen
    exact Nat.le_of_succ_le_succ hlen
  pushFloor := fun hs => hs
  popFloor := fun hs => hs
  pushCall := fun _ hs => hs
  popCall := fun hs => hs
  logged := fun _ hs => hs
  setLast := fun _ _ hs => hs
  resolve := fun hs hvalue => hs.2.resolve hvalue
  bindName := StackInOrder.bindName
  bindParam := StackInOrder.bindParam
  runBuiltin := StackInOrder.runBuiltin
  fault := fun cause place => .inl (.inl (.fault cause place))
  tooDeep := .inl (.inl .tooDeep)
  stalled := fun hnone => absurd (hcap.symm.trans hnone) nofun

end

/-! ## Runs that end -/

/-- Under a cap a run ends with a value or fails in a known way. -/
theorem evaluate_known {settings : Settings} {cap : Int} (hcap : settings.loopCap = some cap)
    (e : Expr) (s : RunState) : Ends (fun _ _ => True)
      (fun failure _ => failure.Known (Booked e ∧ s.scope.Each Booked)
        (HostFree e ∧ s.scope.Each HostFree)) (evaluate settings e s) := by
  have hstable : Stable settings (Expr.InOrderIf (Booked e ∧ s.scope.Each Booked)
    (HostFree e ∧ s.scope.Each HostFree)) _ _ _ := stackInOrder_stable hcap
  have hstack : s.scope.Each (Expr.InOrderIf (Booked e ∧ s.scope.Each Booked)
      (HostFree e ∧ s.scope.Each HostFree)) := fun frame hframe name value hvalue =>
    ⟨fun hbooked => hbooked.2 frame hframe name value hvalue,
      fun hfree => hfree.2 frame hframe name value hvalue⟩
  have hsafe := hstable.evaluate ⟨And.left, And.left⟩ 0 s ⟨Nat.zero_le _, hstack⟩
  cases hend : evaluate settings e s with
  | ok value s' => trivial
  | error failure s' =>
      rw [hend] at hsafe
      exact hsafe.1

/-- Under a cap no loop is given up. -/
theorem evaluate_ne_stalled {settings : Settings} {cap : Int} (hcap : settings.loopCap = some cap)
    (e : Expr) (s s' : RunState) : evaluate settings e s ≠ .error .stalled s' := by
  intro hend
  have hknown := evaluate_known hcap e s
  rw [hend] at hknown
  rcases hknown with (hforeseen | hlength) | ⟨-, hcount⟩ | ⟨-, hhost⟩
  · cases hforeseen
  · cases hlength
  · cases hcount
  · cases hhost

/-- Under a cap it makes no difference how long a loop without a cap might go on. -/
theorem evaluate_patience {settings : Settings} {cap : Int} (hcap : settings.loopCap = some cap)
    (patience : Nat) (e : Expr) (s : RunState) :
    evaluate { settings with patience := patience } e s = evaluate settings e s := by
  have hmore : ∀ {less more : Nat}, less ≤ more →
      evaluate { settings with patience := less } e s
        = evaluate { settings with patience := more } e s := by
    intro less more hle
    have houtlasts := (Loosens.of_patience settings hle).evaluate (Nat.le_refl _) (.inl rfl) e
    rcases houtlasts.alike s with hsame | ⟨failure, stopped, hstop, rfl, -⟩
    · exact hsame
    · have hnot := @evaluate_ne_stalled { settings with patience := less } cap hcap e s stopped
      exact absurd hstop hnot
  rcases Nat.le_total patience settings.patience with hle | hle
  · exact hmore hle
  · exact (hmore hle).symm

/-- How a run under a cap ends. -/
structure EndsUnderCap (settings : Settings) (cap : Int) (e : Expr) (s : RunState) : Prop where
  /-- It ends with a value or with a failure that can be told beforehand. A number of arguments is
  wrong only if the books are not kept, in the tree or on the stack, and an attribute of the host is
  come across only if a built-in there goes by its name. -/
  outcome : Ends (fun _ _ => True) (fun failure _ => failure.Foreseen ∨ failure.OfLength ∨
    failure.Miscounted ∧ ¬ (Booked e ∧ s.scope.Each Booked) ∨
      failure.OfHost ∧ ¬ (HostFree e ∧ s.scope.Each HostFree)) (evaluate settings e s)
  /-- It does not end because a loop is given up. -/
  patience : ∀ patience, evaluate { settings with patience := patience } e s
    = evaluate settings e s
  /-- Wherever a loop is come across, it runs its course. -/
  loops : ∀ nesting loc test body s, ∃ runs result, runs ≤ cap.toNat ∧
    LoopCourse settings nesting test body s runs result ∧
      evalNested settings nesting (.loop loc test body) s = inFrame loc (fun _ => result) s

/-- **Under a loop cap every run ends.** -/
theorem evaluate_ends {settings : Settings} {cap : Int}
    (hcap : settings.loopCap = some cap) (e : Expr) (s : RunState) :
    EndsUnderCap settings cap e s := by
  refine ⟨?_, fun patience => evaluate_patience hcap patience e s, ?_⟩
  · have hknown := evaluate_known hcap e s
    cases hend : evaluate settings e s with
    | ok value s' => trivial
    | error failure s' =>
        rw [hend] at hknown
        rcases hknown with (hforeseen | hlength) | ⟨hbooked, hcount⟩ | ⟨hfree, hhost⟩
        · exact .inl hforeseen
        · exact .inr (.inl hlength)
        · exact .inr (.inr (.inl ⟨hcount, hbooked⟩))
        · exact .inr (.inr (.inr ⟨hhost, hfree⟩))
  · intro nesting loc test body s
    obtain ⟨⟨runs, result, hcourse⟩, hcourses⟩ := loop_course hcap nesting loc test body s
    obtain ⟨heval, hle⟩ := hcourses runs result hcourse
    exact ⟨runs, result, hle, hcourse, heval⟩

/-- A loop whose condition always holds ends under a cap, even one of none. -/
theorem evaluate_ends_endless_loop :
    ({ loopCap := some 0 } : Settings).loopCap = some 0 ∧
      EndsUnderCap { loopCap := some 0 } 0 (.loop none (.bool none true) .null)
        (.initial (.ofRoot builtinFrame) (.ofInput "")) :=
  ⟨rfl, evaluate_ends rfl _ _⟩

/-- A call of an operation that finds its books wrong ends in none of the foreseen ways: an addition
that pretends to miss one argument is run on one. -/
theorem miscounted_sum_not_foreseen : ¬ ∀ (settings : Settings) (cap : Int),
    settings.loopCap = some cap → ∀ e s,
      Ends (fun _ _ => True) (fun failure _ => failure.Foreseen) (evaluate settings e s) := by
  intro h
  let start := RunState.initial (.ofRoot builtinFrame) (.ofInput "")
  let sum : Expr := .call none (.builtin none "+" 1 []) (some (.int none 1))
  have hend : evaluate { loopCap := some 5, nesting := 1 } sum start
      = .error (.argumentCount ⟨"add", ["a", "b"]⟩ 1) { start with
          calls := [⟨"+", .builtin none "+" 0 [.int none 1], [.int none 1]⟩] } := by
    simp only [sum, start]
    cbv
  have hforeseen := h { loopCap := some 5, nesting := 1 } 5 rfl sum start
  rw [hend] at hforeseen
  cases hforeseen

end ExprLang
