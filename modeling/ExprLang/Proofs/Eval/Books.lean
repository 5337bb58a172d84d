import ExprLang.Proofs.Eval.Throughout
import ExprLang.Proofs.Operation.Failures

/-!
# The books of built-ins

A built-in tells which operation it stands for, how many arguments it still misses and which ones it
has. The books are exact if these add up to what the operation takes, and if nothing but an
operation without arguments misses none: one that gets its last argument is no value, its operation
is run (`Expr.Accounted`). Every step of an evaluation keeps them, wherever a built-in goes
(`accounted_stable`).

So an operation is run by the call that brings its arguments together, by no other one, and on these
arguments; a call that leaves some missing comes to a new built-in, and nothing else is changed by
it (`Brings.comes`).
-/

namespace ExprLang

open EvalM

/-! ## Exact books -/

/-- The books of a built-in are exact. -/
def Expr.Accounted : Expr → Prop
  | .builtin _ name missing supplied => ∃ operation : Operation, name = operation.name ∧
      missing + supplied.length = operation.arity ∧ (missing = 0 → supplied = [])
  | _ => True

/-- A tree, or a value, in which the books of all built-ins are exact. -/
abbrev ExactBooks : Expr → Prop := Everywhere Expr.Accounted

/-- The call of an operation with all of its arguments: what is called is the operation with
these. -/
structure CallRecord.IsFull (call : CallRecord) (operation : Operation) : Prop where
  name : call.name = operation.name
  callee : ∃ loc, call.callee = .builtin loc operation.name 0 call.args
  count : call.args.length = operation.arity

/-- The books of a call on record are exact. What is called may miss nothing only if the call is
that of its operation. -/
structure CallRecord.Accounted (call : CallRecord) : Prop where
  callee : ExactBooks call.callee ∨ ∃ operation, call.IsFull operation
  args : ∀ a ∈ call.args, ExactBooks a

/-- The books of all built-ins in a state are exact. -/
structure RunState.Accounted (s : RunState) : Prop where
  scope : s.scope.Each ExactBooks
  last : ∀ value, s.last = some value → ExactBooks value
  calls : ∀ call ∈ s.calls, call.Accounted

namespace ExactBooks

theorem exactly {loc : Option Loc} {name : String} {missing : Nat} {supplied : List Expr}
    (h : ExactBooks (.builtin loc name missing supplied)) : ∃ operation : Operation,
      name = operation.name ∧ missing + supplied.length = operation.arity ∧
        (missing = 0 → supplied = []) :=
  h.node

/-- One argument more is one less that is missing. -/
theorem supply {loc : Option Loc} {name : String} {missing : Nat} {supplied : List Expr}
    {arg : Expr} (h : ExactBooks (.builtin loc name (missing + 2) supplied))
    (harg : ExactBooks arg) :
    ExactBooks (.builtin none name (missing + 1) (supplied ++ [arg])) := by
  obtain ⟨operation, hname, hcount, -⟩ := h.exactly
  refine .of_parts ⟨operation, hname, ?_, nofun⟩ ?_
  · rw [List.length_append, List.length_singleton]
    omega
  · exact List.forall_mem_append.mpr ⟨h.parts, List.forall_mem_singleton.mpr harg⟩

theorem valued : Valued ExactBooks ExactBooks where
  members := Everywhere.parts
  supplied := Everywhere.parts
  null := .leaf trivial rfl
  int := fun _ => .leaf trivial rfl
  str := fun _ => .leaf trivial rfl
  bool := fun _ => .leaf trivial rfl
  list := fun hitems => .of_parts trivial hitems
  supply := supply
  parts := Everywhere.parts
  settled := fun _ he => he
  body := fun hfn => hfn.parts _ List.mem_cons_self
  endOfProgram := fun _ => .leaf trivial rfl

/-- What is bound at first misses all of its arguments. -/
theorem value (operation : Operation) : ExactBooks operation.value :=
  .of_parts ⟨operation, rfl, rfl, fun _ => rfl⟩ fun _ hpart => absurd hpart List.not_mem_nil

end ExactBooks

/-! ## Calls of operations -/

theorem Filled.isFull {call : CallRecord} (h : Filled ExactBooks call) :
    ∃ operation, call.IsFull operation := by
  cases h with
  | found hfound =>
      obtain ⟨operation, rfl, hcount, -⟩ := hfound.exactly
      exact ⟨operation, rfl, ⟨_, rfl⟩, by simpa using hcount⟩
  | last hfound harg =>
      obtain ⟨operation, rfl, hcount, -⟩ := hfound.exactly
      refine ⟨operation, rfl, ⟨_, rfl⟩, ?_⟩
      simp only [List.length_append, List.length_singleton]
      omega

theorem OnRecord.accounted {call : CallRecord} (h : OnRecord ExactBooks call) : call.Accounted := by
  refine ⟨?_, h.args ExactBooks.valued.toValueClosed⟩
  cases h with
  | operation hfilled => exact .inr hfilled.isFull
  | function hfound => exact .inl hfound

namespace RunState.Accounted

theorem withScope {s : RunState} (h : s.Accounted) {scope : ScopeStack}
    (hscope : scope.Each ExactBooks) : Accounted { s with scope := scope } :=
  ⟨hscope, h.last, h.calls⟩

end RunState.Accounted

/-- No step of an evaluation brings the books into disorder. -/
theorem accounted_stable (settings : Settings) :
    Stable settings ExactBooks ExactBooks (fun _ => RunState.Accounted) fun _ => True where
  valued := ExactBooks.valued
  enter := fun hs => hs.withScope hs.scope.enter
  exit := fun hs => hs.withScope hs.scope.exit
  pushFloor := fun hs => ⟨hs.scope, hs.last, hs.calls⟩
  popFloor := fun hs => ⟨hs.scope, hs.last, hs.calls⟩
  pushCall := fun hcall hs =>
    ⟨hs.scope, hs.last, List.forall_mem_cons.mpr ⟨hcall.accounted, hs.calls⟩⟩
  popCall := fun hs =>
    ⟨hs.scope, hs.last, fun call hmem => hs.calls call (List.mem_of_mem_tail hmem)⟩
  logged := fun _ hs => ⟨hs.scope, hs.last, hs.calls⟩
  setLast := fun _ hvalue hs =>
    ⟨hs.scope, fun _ hlast => Option.some.inj hlast ▸ hvalue, hs.calls⟩
  resolve := fun hs hvalue => hs.scope.resolve hvalue
  bindName := fun _ _ hvalue => Safely.bindName _ _ (fun _ => trivial)
    fun hs hbind => hs.withScope (hs.scope.rebind hvalue hbind)
  bindParam := fun _ _ hvalue => Safely.onScope (fun _ => trivial)
    fun hs hbind => hs.withScope (hs.scope.bindOuter hvalue hbind)
  runBuiltin := fun hfilled => Safely.onConsole (fun _ hs => ⟨hs.scope, hs.last, hs.calls⟩)
    (runBuiltin_keeps ExactBooks.valued.toValueClosed
      (hfilled.args ExactBooks.valued.toValueClosed))
    fun _ => trivial
  fault := fun _ _ => trivial
  tooDeep := trivial
  stalled := fun _ => trivial

/-! ## Bringing arguments together -/

section
variable (settings : Settings)

/-- A call brings arguments for an operation together: those that what it calls has already, and its
own, unless the operation takes none. -/
inductive Brings : Evaluation → Operation → List Expr → RunState → Prop
  | idle {nesting loc callee arg s opLoc operation missing supplied s₁} : operation.arity = 0 →
      evalNested settings nesting callee s.entered
        = .ok (.builtin opLoc operation.name missing supplied) s₁ →
      Brings ⟨nesting, .call loc callee arg, s⟩ operation supplied s₁
  | another {nesting loc callee arg s opLoc operation missing supplied value s₁ s₂} :
      operation.arity ≠ 0 → evalNested settings nesting callee s.entered
        = .ok (.builtin opLoc operation.name missing supplied) s₁ →
      evalNested settings nesting arg s₁ = .ok value s₂ →
      Brings ⟨nesting, .call loc callee (some arg), s⟩ operation (supplied ++ [value]) s₂

/-- What comes of a call that brings these arguments together. -/
structure ComesOfArguments (ev : Evaluation) (operation : Operation) (args : List Expr)
    (s₁ : RunState) : Prop where
  /-- They are no more than the operation takes. -/
  fit : args.length ≤ operation.arity
  /-- The operation is run if they are as many as it takes, and only then. -/
  runs : (∃ call s₂, Operates settings ev call s₂) ↔ args.length = operation.arity
  /-- It is run on these. -/
  on : ∀ {call s₂}, Operates settings ev call s₂ → call.IsFull operation ∧
    call.args = args ∧ s₂ = s₁
  /-- Then the call comes to what the operation returns for them. -/
  returns : ∀ {call s₂ value}, Operates settings ev call s₂ →
    ((∃ s', evalNested settings ev.nesting ev.tree ev.state = .ok value s') ↔
      ∃ console, operation.run args (s₁.noted settings call.operationNote).console
        = .ok value console)
  /-- Otherwise the call comes to a built-in that has these and misses the others, and does
  nothing. -/
  waits : args.length < operation.arity → evalNested settings ev.nesting ev.tree ev.state
    = .ok (.builtin none operation.name (operation.arity - args.length) args)
        { s₁ with scope := s₁.scope.exit }

end

variable {settings : Settings} {ev : Evaluation} {operation : Operation}

theorem inFrame_returns_iff {α : Type} {place : Option Loc} {act : EvalM α} {s : RunState}
    {value : α} :
    (∃ s', inFrame place act s = .ok value s') ↔ ∃ s', act s.entered = .ok value s' := by
  cases hact : act s.entered with
  | ok value' s' => simp [inFrame_of_ok place hact]
  | error failure s' =>
      obtain ⟨s₁, hfails, -⟩ := inFrame_of_error place hact
      simp [hfails]

/-- What a call comes to that runs an operation is what the operation returns. -/
theorem Operates.returns {call : CallRecord} {s₁ : RunState} (h : Operates settings ev call s₁)
    {value : Expr} : (∃ s', evalNested settings ev.nesting ev.tree ev.state = .ok value s') ↔
      ∃ console, runBuiltin call.name call.args (s₁.noted settings call.operationNote).console
        = .ok value console := by
  have hinvoke : invoke settings call.callee call.name call.args s₁ = recorded call
      (onConsole (runBuiltin call.name call.args)) (s₁.noted settings call.operationNote) :=
    traced_apply call.operationNote _ s₁
  rw [h.eval_eq]
  refine inFrame_returns_iff.trans ?_
  rw [hinvoke]
  cases hrun : runBuiltin call.name call.args (s₁.noted settings call.operationNote).console with
  | ok value' console => simp [recorded, onConsole, hrun]
  | error failure console => simp [recorded, onConsole, hrun]

theorem Operates.unique {call call' : CallRecord} {s₁ s₂ : RunState}
    (h : Operates settings ev call s₁) (h' : Operates settings ev call' s₂) :
    call' = call ∧ s₂ = s₁ := by
  cases h with
  | full hcallee =>
      cases h' with
      | full hcallee' =>
          cases hcallee.symm.trans hcallee'
          exact ⟨rfl, rfl⟩
      | last hcallee' _ => cases hcallee.symm.trans hcallee'
  | last hcallee harg =>
      cases h' with
      | full hcallee' => cases hcallee.symm.trans hcallee'
      | last hcallee' harg' =>
          cases hcallee.symm.trans hcallee'
          cases harg.symm.trans harg'
          exact ⟨rfl, rfl⟩

/-- The books of a built-in are those of the operation that it names. -/
theorem ExactBooks.count {loc : Option Loc} {missing : Nat} {supplied : List Expr}
    (h : ExactBooks (.builtin loc operation.name missing supplied)) :
    missing + supplied.length = operation.arity ∧ (missing = 0 → supplied = []) := by
  obtain ⟨other, hname, hbooks⟩ := h.exactly
  have hother := (Operation.ofName?_name other).symm.trans
    (hname ▸ Operation.ofName?_name operation)
  exact Option.some.inj hother ▸ hbooks

section
variable {nesting missing : Nat} {loc opLoc : Option Loc} {callee : Expr} {name : String}
  {supplied : List Expr} {s s₁ : RunState} (hcallee : evalNested settings nesting callee s.entered
    = .ok (.builtin opLoc name (missing + 2) supplied) s₁)
include hcallee

/-- A built-in that misses two arguments or more is not run by one call. -/
theorem not_operates {arg : Option Expr} {call : CallRecord} {s₂ : RunState} :
    ¬ Operates settings ⟨nesting, .call loc callee arg, s⟩ call s₂ := by
  intro h
  cases h with
  | full hcallee' | last hcallee' _ => cases hcallee.symm.trans hcallee'

/-- It is kept, with the argument that it is given, and nothing is written anywhere. -/
theorem evalNested_call_waits {arg value : Expr} {s₂ : RunState}
    (harg : evalNested settings nesting arg s₁ = .ok value s₂) :
    evalNested settings nesting (.call loc callee (some arg)) s
      = .ok (.builtin none name (missing + 1) (supplied ++ [value]))
          { s₂ with scope := s₂.scope.exit } := by
  have hcalled : apply settings (runBodies settings nesting) (calleeName callee)
      (some (evalNested settings nesting arg)) (.builtin opLoc name (missing + 2) supplied) s₁
        = .ok (.builtin none name (missing + 1) (supplied ++ [value])) s₂ := by
    show (evalNested settings nesting arg >>= _) s₁ = _
    rw [bind_apply, harg]
    rfl
  have hact : (evalNested settings nesting callee >>= apply settings (runBodies settings nesting)
      (calleeName callee) (some (evalNested settings nesting arg))) s.entered
        = .ok (.builtin none name (missing + 1) (supplied ++ [value])) s₂ := by
    rw [bind_apply, hcallee]
    exact hcalled
  rw [evalNested_call]
  exact inFrame_of_ok loc hact

end

/-- A call that runs an operation does so on the arguments that it has brought together. -/
theorem ComesOfArguments.of_operates {call : CallRecord} {s₁ : RunState}
    (h : Operates settings ev call s₁) (hfull : call.IsFull operation) :
    ComesOfArguments settings ev operation call.args s₁ := by
  refine ⟨Nat.le_of_eq hfull.count, ⟨fun _ => hfull.count, fun _ => ⟨call, s₁, h⟩⟩,
    ?_, ?_, ?_⟩
  · intro call' s₂ h'
    obtain ⟨rfl, rfl⟩ := h.unique h'
    exact ⟨hfull, rfl, rfl⟩
  · intro call' s₂ value h'
    obtain ⟨rfl, rfl⟩ := h.unique h'
    have hrun : runBuiltin call'.name call'.args = operation.run call'.args := by
      rw [hfull.name, runBuiltin, Operation.ofName?_name]
    rw [h.returns, hrun]
  · intro hless
    exact absurd hfull.count (Nat.ne_of_lt hless)

section
variable (htree : ExactBooks ev.tree) (hs : ev.state.Accounted)
include htree hs

/-- An operation is run by a call that brings all of its arguments together. -/
theorem Operates.brings {call : CallRecord} {s₁ : RunState} (h : Operates settings ev call s₁) :
    ∃ operation, call.IsFull operation ∧ Brings settings ev operation call.args s₁ := by
  have hstable := accounted_stable settings
  obtain ⟨operation, hfull⟩ := (hstable.operates (k := 0) h htree hs).1.isFull
  refine ⟨operation, hfull, ?_⟩
  cases h with
  | full hcallee =>
      have hpart := htree.parts _ (Expr.callee_mem_parts _ _ _)
      have hfound := (hstable.evalNested_ok (k := 1) hpart (hstable.entered (k := 0) hs) hcallee).1
      obtain rfl : _ = operation.name := hfull.name
      -- a value that misses nothing has been supplied with nothing, so its operation takes nothing
      obtain ⟨hcount, hnone⟩ := hfound.count
      rw [hnone rfl] at hcount
      exact .idle hcount.symm hcallee
  | last hcallee harg =>
      obtain rfl : _ = operation.name := hfull.name
      refine .another ?_ hcallee harg
      have hcount := hfull.count
      simp only [List.length_append, List.length_singleton] at hcount
      omega

/-- Arguments that a call brings together have their operation run as soon as they are all. -/
theorem Brings.comes {args : List Expr} {s₁ : RunState}
    (h : Brings settings ev operation args s₁) :
    ComesOfArguments settings ev operation args s₁ := by
  have hstable := accounted_stable settings
  have hfound : ∀ {e value s₁}, e ∈ ev.tree.parts →
      evalNested settings ev.nesting e ev.state.entered = .ok value s₁ → ExactBooks value :=
    fun hmem hend =>
      (hstable.evalNested_ok (k := 1) (htree.parts _ hmem) (hstable.entered (k := 0) hs) hend).1
  cases h with
  | @idle _ _ _ _ _ opLoc _ missing _ _ harity hcallee =>
      obtain ⟨hcount, -⟩ := (hfound (Expr.callee_mem_parts _ _ _) hcallee).count
      obtain rfl : missing = 0 := by omega
      obtain rfl : args = [] := List.eq_nil_of_length_eq_zero (by omega)
      exact .of_operates (.full hcallee) ⟨rfl, ⟨_, rfl⟩, harity.symm⟩
  | @another _ _ _ _ _ opLoc _ missing supplied value _ _ harity hcallee harg =>
      obtain ⟨hcount, hnone⟩ := (hfound (Expr.callee_mem_parts _ _ _) hcallee).count
      match missing, hnone with
      -- exact books: what misses nothing and has nothing belongs to an operation without arguments
      | 0, hnone =>
          rw [hnone rfl] at hcount
          exact absurd hcount.symm harity
      | 1, _ => exact .of_operates (.last hcallee harg) ⟨rfl, ⟨_, rfl⟩, by simp; omega⟩
      | missing + 2, _ =>
          have hless : (supplied ++ [value]).length < operation.arity := by simp; omega
          have hleft : operation.arity - (supplied ++ [value]).length = missing + 1 := by
            simp; omega
          refine ⟨Nat.le_of_lt hless, ⟨?_, ?_⟩, fun h => absurd h (not_operates hcallee),
            fun h => absurd h (not_operates hcallee), fun _ => ?_⟩
          · rintro ⟨call, s₂, h⟩
            exact absurd h (not_operates hcallee)
          · exact fun h => absurd h (Nat.ne_of_lt hless)
          · rw [hleft]
            exact evalNested_call_waits hcallee harg

end

end ExprLang
