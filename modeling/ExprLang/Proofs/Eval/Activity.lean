import ExprLang.Proofs.Eval.Balance

/-!
# What is being executed when a run fails

A run fails at one point: something that a tree asks for cannot be had, or an operation cannot be
run. Around that point there are evaluations that have been begun and not ended, each begun by the
one around it, and calls that are being executed. The relations here tell them from the tree and the
state, without a look at the record that the run keeps of its calls.

`Starts` says which evaluations an evaluation begins, once all that comes before has ended with a
value; `Enters` and `Operates` say what a call executes, once what it calls and its argument have
been evaluated; `Breaks` says how an evaluation fails by itself, with nothing inside it in progress.
`FailsIn` follows an evaluation down to the point where the run fails.
-/

namespace ExprLang

open EvalM

/-! ## States on the way -/

namespace RunState

/-- The state in which the inside of a node is evaluated. -/
def entered (s : RunState) : RunState := { s with scope := s.scope.enter }

/-- The state after something has been noted, if the run is traced. -/
def noted (settings : Settings) (parts : List String) (s : RunState) : RunState :=
  if settings.tracing then s.logged ("[DBG] " ++ " ".intercalate parts) else s

/-- The state in which the body of a function is evaluated for a call. -/
def executing (call : CallRecord) (s : RunState) : RunState :=
  { s with calls := call :: s.calls, floors := s.scope.depth :: s.floors }

/-- The state after an expression of a program has ended with a value. -/
def withLast (value : Expr) (s : RunState) : RunState := { s with last := some value }

@[simp] theorem noted_scope (settings : Settings) (parts : List String) (s : RunState) :
    (s.noted settings parts).scope = s.scope := by
  unfold noted
  split <;> rfl

@[simp] theorem noted_calls (settings : Settings) (parts : List String) (s : RunState) :
    (s.noted settings parts).calls = s.calls := by
  unfold noted
  split <;> rfl

end RunState

namespace CallRecord

/-- What is noted of the call of a function. -/
def functionNote (call : CallRecord) : List String :=
  ["call", call.name, match call.args with
    | [] => "()"
    | args => " ".intercalate (args.map Expr.display)]

/-- What is noted of the run of an operation. -/
def operationNote (call : CallRecord) : List String :=
  "builtin" :: call.name :: call.args.map Expr.display

/-- A call of a user function. -/
def IsFunction (call : CallRecord) : Prop :=
  ∃ loc param body, call.callee = .fn loc param body

/-- A call of a built-in. -/
def IsBuiltin (call : CallRecord) : Prop :=
  ∃ loc name missing supplied, call.callee = .builtin loc name missing supplied

end CallRecord

/-- The fault with which the call of a value is refused, given the name that the call goes by and
whether there is an argument. -/
def refusal? (name : String) (given : Bool) : Expr → Option Fault
  | .fn _ none _ => if given then some (.unwantedArgument name) else none
  | .fn _ (some param) _ => if given then none else some (.missingArgument name param)
  | .builtin _ _ 0 _ => none
  | .builtin _ operation (_ + 1) _ => if given then none else some (.missingOperand operation)
  | found => some (.notCallable found)

/-- A value that takes an argument. -/
def TakesArgument : Expr → Prop
  | .fn _ (some _) _ => True
  | .builtin _ _ (_ + 1) _ => True
  | _ => False

/-- A value that is no truth value. -/
def NotBoolean (e : Expr) : Prop :=
  ∀ loc value, e ≠ .bool loc value

/-! ## Evaluations and what they begin -/

/-- An evaluation that begins: of a tree, in a state, where calls may nest to a depth. -/
structure Evaluation where
  nesting : Nat
  tree : Expr
  state : RunState

section
variable (settings : Settings)

/-- Some trees have been evaluated one after the other, all with values, and `keep` says what has
been done about each value. -/
inductive Passes (nesting : Nat) (keep : Expr → RunState → RunState) :
    List Expr → RunState → RunState → Prop
  | nil {s} : Passes nesting keep [] s s
  | cons {e es s value s₁ s₂} : evalNested settings nesting e s = .ok value s₁ →
      Passes nesting keep es (keep value s₁) s₂ → Passes nesting keep (e :: es) s s₂

/-- Where a loop has come to: it may test its condition `tests` times more, and has run its body
`done` times. -/
inductive LoopReaches (nesting : Nat) (test body : Expr) (s : RunState) :
    (tests done : Nat) → RunState → Prop
  | begin : LoopReaches nesting test body s settings.tests 0 s
  | again {tests done loc value s₁ s₂ s₃} :
      LoopReaches nesting test body s (tests + 1) done s₁ →
      evalNested settings nesting test s₁ = .ok (.bool loc true) s₂ →
      settings.capReached done = false →
        evalNested settings nesting body s₂ = .ok value s₃ →
      LoopReaches nesting test body s tests (done + 1) s₃

/-- A call comes to execute the body of a function. -/
inductive Enters : Evaluation → CallRecord → (body : Expr) → RunState → Prop
  | bare {nesting loc callee s fnLoc body s₁} :
      evalNested settings nesting callee s.entered = .ok (.fn fnLoc none body) s₁ →
      Enters ⟨nesting, .call loc callee none, s⟩
        ⟨calleeName callee, .fn fnLoc none body, []⟩ body s₁
  | given {nesting loc callee arg s fnLoc param body value s₁ s₂ s₃} :
      evalNested settings nesting callee s.entered = .ok (.fn fnLoc (some param) body) s₁ →
      evalNested settings nesting arg s₁ = .ok value s₂ →
        bindParam param value s₂ = .ok () s₃ →
      Enters ⟨nesting, .call loc callee (some arg), s⟩
        ⟨calleeName callee, .fn fnLoc (some param) body, [value]⟩ body s₃

/-- A call comes to run an operation. -/
inductive Operates : Evaluation → CallRecord → RunState → Prop
  | full {nesting loc callee arg s opLoc name supplied s₁} :
      evalNested settings nesting callee s.entered = .ok (.builtin opLoc name 0 supplied) s₁ →
      Operates ⟨nesting, .call loc callee arg, s⟩
        ⟨name, .builtin opLoc name 0 supplied, supplied⟩ s₁
  | last {nesting loc callee arg s opLoc name supplied value s₁ s₂} :
      evalNested settings nesting callee s.entered = .ok (.builtin opLoc name 1 supplied) s₁ →
      evalNested settings nesting arg s₁ = .ok value s₂ →
      Operates ⟨nesting, .call loc callee (some arg), s⟩
        ⟨name, .builtin none name 0 (supplied ++ [value]), supplied ++ [value]⟩ s₂

/-- An evaluation begins another one. It does so on the way to the value of a part of its tree, or,
with a call that is executed from then on, to run the body of a function. -/
inductive Starts : Evaluation → Option CallRecord → Evaluation → Prop
  | item {nesting loc before e after s s₁} :
      Passes settings nesting (fun _ => id) before s.entered s₁ →
      Starts ⟨nesting, .list loc (before ++ e :: after), s⟩ none ⟨nesting, e, s₁⟩
  | member {nesting loc before e after s s₁} :
      Passes settings nesting (fun _ => id) before s.entered s₁ →
      Starts ⟨nesting, .block loc (before ++ e :: after), s⟩ none ⟨nesting, e, s₁⟩
  | topLevel {nesting loc before e after s s₁} :
      Passes settings nesting RunState.withLast before s.entered s₁ →
      Starts ⟨nesting, .program loc (before ++ e :: after), s⟩ none ⟨nesting, e, s₁⟩
  | bound {nesting loc name value s} :
      Starts ⟨nesting, .binding loc name value, s⟩ none ⟨nesting, value, s.entered⟩
  | choiceTest {nesting loc test yes no s} :
      Starts ⟨nesting, .choice loc test yes no, s⟩ none ⟨nesting, test, s.entered⟩
  | branch {nesting loc test yes no s boolLoc holds s₁} :
      evalNested settings nesting test s.entered = .ok (.bool boolLoc holds) s₁ →
      Starts ⟨nesting, .choice loc test yes no, s⟩ none
        ⟨nesting, if holds then yes else no, s₁⟩
  | loopTest {nesting loc test body s tests done s₁} :
      LoopReaches settings nesting test body s.entered (tests + 1) done s₁ →
      Starts ⟨nesting, .loop loc test body, s⟩ none ⟨nesting, test, s₁⟩
  | loopBody {nesting loc test body s tests done s₁ boolLoc s₂} :
      LoopReaches settings nesting test body s.entered (tests + 1) done s₁ →
      evalNested settings nesting test s₁ = .ok (.bool boolLoc true) s₂ →
      settings.capReached done = false →
      Starts ⟨nesting, .loop loc test body, s⟩ none ⟨nesting, body, s₂⟩
  | callee {nesting loc callee arg s} :
      Starts ⟨nesting, .call loc callee arg, s⟩ none ⟨nesting, callee, s.entered⟩
  | argument {nesting loc callee arg s found s₁} :
      evalNested settings nesting callee s.entered = .ok found s₁ → TakesArgument found →
      Starts ⟨nesting, .call loc callee (some arg), s⟩ none ⟨nesting, arg, s₁⟩
  | body {nesting tree s call body s₁} :
      Enters settings ⟨nesting + 1, tree, s⟩ call body s₁ →
      Starts ⟨nesting + 1, tree, s⟩ (some call)
        ⟨nesting, body, (s₁.noted settings call.functionNote).executing call⟩

/-- An evaluation fails by itself, while no evaluation that it has begun and no call is in
progress. -/
inductive Breaks : Evaluation → Failure → Prop
  | unknown {nesting loc name s} : s.entered.scope.resolve name = none →
      Breaks ⟨nesting, .ident loc name, s⟩ (.ofFault (.unknownIdentifier name))
  | choiceTest {nesting loc test yes no s found s₁} :
      evalNested settings nesting test s.entered = .ok found s₁ → NotBoolean found →
      Breaks ⟨nesting, .choice loc test yes no, s⟩
        (.ofFault (.conditionNotBoolean .choice found))
  | loopTest {nesting loc test body s tests done s₁ found s₂} :
      LoopReaches settings nesting test body s.entered (tests + 1) done s₁ →
      evalNested settings nesting test s₁ = .ok found s₂ → NotBoolean found →
      Breaks ⟨nesting, .loop loc test body, s⟩ (.ofFault (.conditionNotBoolean .loop found))
  | loopLimit {nesting loc test body s tests done s₁ boolLoc s₂} :
      LoopReaches settings nesting test body s.entered (tests + 1) done s₁ →
      evalNested settings nesting test s₁ = .ok (.bool boolLoc true) s₂ →
      settings.capReached done = true →
      Breaks ⟨nesting, .loop loc test body, s⟩ (.ofFault .loopLimit)
  | stalled {nesting loc test body s done s₁} :
      LoopReaches settings nesting test body s.entered 0 done s₁ →
      Breaks ⟨nesting, .loop loc test body, s⟩ .stalled
  | refused {nesting loc callee arg s found s₁ fault} :
      evalNested settings nesting callee s.entered = .ok found s₁ →
      refusal? (calleeName callee) arg.isSome found = some fault →
      Breaks ⟨nesting, .call loc callee arg, s⟩ (.ofFault fault)

/-! ## The point where a run fails -/

/-- What is in progress at a point of a run. -/
structure Activity where
  /-- The trees that are under evaluation, the outermost first. -/
  trees : List Expr
  /-- The calls of functions whose bodies are being executed, the outermost first. -/
  functions : List CallRecord
  /-- The operation that is being run. -/
  operation : Option CallRecord

namespace Activity

/-- The calls that are being executed, the outermost first. -/
def calls (activity : Activity) : List CallRecord :=
  activity.functions ++ activity.operation.toList

/-- The place of the innermost tree under evaluation that has one. -/
def place (activity : Activity) : Option Loc :=
  activity.trees.reverse.findSome? Expr.loc?

/-- What is in progress, with an evaluation around it that has begun it, perhaps for a call. -/
def within (tree : Expr) (call : Option CallRecord) (activity : Activity) : Activity :=
  ⟨tree :: activity.trees, call.toList ++ activity.functions, activity.operation⟩

end Activity

/-- An evaluation comes to a point where the run fails, and there this is in progress. -/
inductive FailsIn : Evaluation → Activity → Failure → Prop
  | breaks {ev raw} : Breaks settings ev raw → FailsIn ev ⟨[ev.tree], [], none⟩ raw
  | operates {ev call s₁ raw console} : Operates settings ev call s₁ →
      runBuiltin call.name call.args (s₁.noted settings call.operationNote).console
        = .error raw console →
      FailsIn ev ⟨[ev.tree], [], some call⟩ raw
  | tooDeep {tree s call body s₁} : Enters settings ⟨0, tree, s⟩ call body s₁ →
      FailsIn ⟨0, tree, s⟩ ⟨[tree], [call], none⟩ .tooDeep
  | within {ev call sub activity raw} : Starts settings ev call sub → FailsIn sub activity raw →
      FailsIn ev (activity.within ev.tree call) raw

end

/-! ## What is begun inherits -/

section
variable {settings : Settings} {P : Expr → Prop} (hP : Hereditary P)
include hP

theorem evalNested_inherits {nesting : Nat} {e value : Expr} {s s' : RunState} (he : P e)
    (heach : s.scope.Each P) (h : evalNested settings nesting e s = .ok value s') :
    P value ∧ s.Level s' ∧ s'.scope.Each P :=
  evalNested_returns settings hP nesting he s value s' heach h

/-- Trees that have passed have given back what they have taken. -/
theorem Passes.inherits {nesting : Nat} {keep : Expr → RunState → RunState}
    (hkeep : ∀ value s, s.Level (keep value s) ∧ (keep value s).scope = s.scope)
    {es : List Expr} {s s₁ : RunState} (hes : ∀ e ∈ es, P e) (heach : s.scope.Each P)
    (h : Passes settings nesting keep es s s₁) : s.Level s₁ ∧ s₁.scope.Each P := by
  induction h with
  | nil => exact ⟨.refl _, heach⟩
  | @cons e es s value s₁ s₂ hvalue _ ih =>
      obtain ⟨he, hes⟩ := List.forall_mem_cons.mp hes
      obtain ⟨-, hlevel, heach₁⟩ := evalNested_inherits hP he heach hvalue
      obtain ⟨hkept, hscope⟩ := hkeep value s₁
      obtain ⟨hlevel', heach₂⟩ := ih hes (hscope ▸ heach₁)
      exact ⟨hlevel.trans (hkept.trans hlevel'), heach₂⟩

/-- Wherever a loop has come to, it has given back what it has taken. -/
theorem LoopReaches.inherits {nesting : Nat} {test body : Expr} {s s₁ : RunState}
    {tests done : Nat} (htest : P test) (hbody : P body) (heach : s.scope.Each P)
    (h : LoopReaches settings nesting test body s tests done s₁) :
    s.Level s₁ ∧ s₁.scope.Each P := by
  induction h with
  | begin => exact ⟨.refl s, heach⟩
  | again _ hholds _ hround ih =>
      obtain ⟨hlevel, heach₁⟩ := ih
      obtain ⟨-, hlevel₁, heach₂⟩ := evalNested_inherits hP htest heach₁ hholds
      obtain ⟨-, hlevel₂, heach₃⟩ := evalNested_inherits hP hbody heach₂ hround
      exact ⟨hlevel.trans (hlevel₁.trans hlevel₂), heach₃⟩

theorem Enters.inherits {ev : Evaluation} {call : CallRecord} {body : Expr} {s₁ : RunState}
    (htree : P ev.tree) (heach : ev.state.scope.Each P) (h : Enters settings ev call body s₁) :
    P body ∧ ev.state.entered.Level s₁ ∧ s₁.scope.Each P := by
  cases h with
  | bare hcallee =>
      have hpart := hP.parts htree _ (Expr.callee_mem_parts _ _ _)
      obtain ⟨hfn, hlevel, heach₁⟩ := evalNested_inherits hP hpart heach.enter hcallee
      exact ⟨hP.parts hfn _ List.mem_cons_self, hlevel, heach₁⟩
  | given hcallee harg hparam =>
      have hpart := hP.parts htree _ (Expr.callee_mem_parts _ _ _)
      have hpart' := hP.parts htree _ (Expr.arg_mem_parts _ _ _)
      obtain ⟨hfn, hlevel₁, heach₁⟩ := evalNested_inherits hP hpart heach.enter hcallee
      obtain ⟨hvalue, hlevel₂, heach₂⟩ := evalNested_inherits hP hpart' heach₁ harg
      obtain ⟨-, hlevel₃, heach₃⟩ := Returns.bindParam _ hvalue _ _ _ heach₂ hparam
      exact ⟨hP.parts hfn _ List.mem_cons_self, hlevel₁.trans (hlevel₂.trans hlevel₃),
        heach₃⟩

theorem Operates.level {ev : Evaluation} {call : CallRecord} {s₁ : RunState} (htree : P ev.tree)
    (heach : ev.state.scope.Each P) (h : Operates settings ev call s₁) :
    ev.state.entered.Level s₁ := by
  cases h with
  | full hcallee =>
      have hpart := hP.parts htree _ (Expr.callee_mem_parts _ _ _)
      exact (evalNested_inherits hP hpart heach.enter hcallee).2.1
  | last hcallee harg =>
      have hpart := hP.parts htree _ (Expr.callee_mem_parts _ _ _)
      have hpart' := hP.parts htree _ (Expr.arg_mem_parts _ _ _)
      obtain ⟨-, hlevel, heach₁⟩ := evalNested_inherits hP hpart heach.enter hcallee
      exact hlevel.trans (evalNested_inherits hP hpart' heach₁ harg).2.1

/-- What is begun inherits what the tree has and the values on the stack have; and a call that is
executed from then on comes on record on top of those before. -/
theorem Starts.inherits {ev sub : Evaluation} {call : Option CallRecord}
    (htree : P ev.tree) (heach : ev.state.scope.Each P) (h : Starts settings ev call sub) :
    P sub.tree ∧ sub.state.scope.Each P ∧ sub.state.calls = call.toList ++ ev.state.calls := by
  have hparts : ∀ part ∈ ev.tree.parts, P part := hP.parts htree
  cases h with
  | item hbefore | member hbefore =>
      obtain ⟨hpassed, haft⟩ := List.forall_mem_append.mp hparts
      obtain ⟨hlevel, heach₁⟩ :=
        hbefore.inherits hP (fun _ s => ⟨.refl s, rfl⟩) hpassed heach.enter
      exact ⟨haft _ List.mem_cons_self, heach₁, hlevel.calls⟩
  | topLevel hbefore =>
      obtain ⟨hpassed, haft⟩ := List.forall_mem_append.mp hparts
      have hkeep : ∀ value s, s.Level (RunState.withLast value s) ∧
          (RunState.withLast value s).scope = s.scope := fun _ _ => ⟨⟨rfl, rfl, rfl⟩, rfl⟩
      obtain ⟨hlevel, heach₁⟩ := hbefore.inherits hP hkeep hpassed heach.enter
      exact ⟨haft _ List.mem_cons_self, heach₁, hlevel.calls⟩
  | bound | choiceTest => exact ⟨hparts _ List.mem_cons_self, heach.enter, rfl⟩
  | callee => exact ⟨hparts _ (Expr.callee_mem_parts _ _ _), heach.enter, rfl⟩
  | @branch _ _ _ yes no _ _ holds _ htest =>
      obtain ⟨hP₁, hP₂⟩ := List.forall_mem_cons.mp hparts
      obtain ⟨-, hlevel, heach₁⟩ := evalNested_inherits hP hP₁ heach.enter htest
      refine ⟨hP₂ _ ?_, heach₁, hlevel.calls⟩
      cases holds <;> simp
  | loopTest hreaches =>
      have hbody := hparts _ (List.mem_cons_of_mem _ List.mem_cons_self)
      obtain ⟨hlevel, heach₁⟩ :=
        hreaches.inherits hP (hparts _ List.mem_cons_self) hbody heach.enter
      exact ⟨hparts _ List.mem_cons_self, heach₁, hlevel.calls⟩
  | loopBody hreaches htest =>
      have hbody := hparts _ (List.mem_cons_of_mem _ List.mem_cons_self)
      obtain ⟨hlevel, heach₁⟩ :=
        hreaches.inherits hP (hparts _ List.mem_cons_self) hbody heach.enter
      obtain ⟨-, hlevel₁, heach₂⟩ :=
        evalNested_inherits hP (hparts _ List.mem_cons_self) heach₁ htest
      exact ⟨hbody, heach₂, (hlevel.trans hlevel₁).calls⟩
  | argument hcallee =>
      have hpart := hparts _ (Expr.callee_mem_parts _ _ _)
      obtain ⟨-, hlevel, heach₁⟩ := evalNested_inherits hP hpart heach.enter hcallee
      exact ⟨hparts _ (Expr.arg_mem_parts _ _ _), heach₁, hlevel.calls⟩
  | body henters =>
      obtain ⟨hbody, hlevel, heach₁⟩ := henters.inherits hP htree heach
      refine ⟨hbody, ?_, ?_⟩
      · simpa [RunState.executing] using heach₁
      · simp only [RunState.executing, RunState.noted_calls, hlevel.calls]
        rfl

end

section
variable {settings : Settings}

theorem ScopeStack.each_true (scope : ScopeStack) : scope.Each fun _ => True :=
  fun _ _ _ _ _ => trivial

theorem level_of_ok {nesting : Nat} {e value : Expr} {s s' : RunState}
    (h : evalNested settings nesting e s = .ok value s') : s.Level s' :=
  (evalNested_inherits hereditary_true trivial s.scope.each_true h).2.1

theorem LoopReaches.level {nesting : Nat} {test body : Expr} {s s₁ : RunState} {tests done : Nat}
    (h : LoopReaches settings nesting test body s tests done s₁) : s.Level s₁ :=
  (h.inherits hereditary_true trivial trivial s.scope.each_true).1

end

end ExprLang
