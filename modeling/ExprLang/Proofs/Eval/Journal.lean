import ExprLang.Proofs.Console.Events
import ExprLang.Proofs.Eval.Triple
import ExprLang.Proofs.Expr.Induction

/-!
# The journal of a run

A run does two things to its console: it executes operations there, and it logs lines. The journal
of a run is the list of these events in the order in which they happen, each operation with its
outcome. It is kept beside the run: `Journaled` is a step together with its journal, and `journaled`
is the evaluation of a tree, step for step, where every operation that is executed is put down. What
is evaluated is the same as without a journal.

The journal is all that there is between a run and its console (`evaluate_journals`). What it tells
leads from the console before to the console after; and on any other console on which all of it can
happen, the run ends in the same way.
-/

namespace ExprLang

open EvalM

/-! ## Other consoles -/

/-- The state with another console. -/
def RunState.withConsole (console : Console) (s : RunState) : RunState :=
  { s with console := console }

/-- The end of a step with another console. -/
def resultWithConsole {α : Type} (console : Console) :
    EStateM.Result Failure RunState α → EStateM.Result Failure RunState α
  | .ok value s => .ok value (s.withConsole console)
  | .error failure s => .error failure (s.withConsole console)

/-! ## Steps with a journal -/

/-- A step, and what it does to the console. -/
structure Journaled (α : Type) where
  act : EvalM α
  journal : RunState → List Event

namespace Journaled

variable {α β : Type}

/-- A step that does nothing to the console. -/
def silent (act : EvalM α) : Journaled α := ⟨act, fun _ => []⟩

/-- A step and what comes after it, if it ends with a value. -/
def andThen (m : Journaled β) (f : β → Journaled α) : Journaled α where
  act := m.act >>= fun value => (f value).act
  journal := fun s => m.journal s ++ match m.act s with
    | .ok value s' => (f value).journal s'
    | .error _ _ => []

instance : Monad Journaled where
  pure := fun value => silent (pure value)
  bind := andThen

/-- A line is logged. -/
def log (parts : RunState → List String) : Journaled Unit where
  act := do EvalM.log (parts (← get))
  journal := fun s => [.logged ("[DBG] " ++ " ".intercalate (parts s))]

/-- An operation is executed. -/
def operation (name : String) (args : List Expr) : Journaled Expr where
  act := onConsole (runBuiltin name args)
  journal := fun s => [.executed name args (outcomeOf (runBuiltin name args s.console))]

/-- A step in a frame of its own. -/
def inFrame (place : Option Loc) (m : Journaled α) : Journaled α where
  act := EvalM.inFrame place m.act
  journal := fun s => m.journal { s with scope := s.scope.enter }

/-- A step above a floor of its own. -/
def aboveFloor (m : Journaled α) : Journaled α where
  act := EvalM.aboveFloor m.act
  journal := fun s => m.journal { s with floors := s.scope.depth :: s.floors }

/-- A step that is on the record of calls while it is executed. -/
def recorded (call : CallRecord) (m : Journaled α) : Journaled α where
  act := EvalM.recorded call m.act
  journal := fun s => m.journal { s with calls := call :: s.calls }

end Journaled

/-! ## Evaluation with a journal -/

section
variable (settings : Settings)

/-- A loop that has run its body `done` times and may test its condition `tests` times more. -/
def journaledLoop (test : Journaled Bool) (body : Journaled Expr) :
    (tests done : Nat) → (last : Expr) → Journaled Expr
  | 0, _, _ => .silent (throw .stalled)
  | tests + 1, done, last => do
      if ← test then
        if settings.capReached done then .silent (raise .loopLimit)
        else journaledLoop test body tests (done + 1) (← body)
      else return last

/-- The run of the operation that a built-in value names: it alone executes an operation. -/
def journaledInvoke (callee : Expr) (name : String) (args : List Expr) : Journaled Expr :=
  let run := Journaled.recorded ⟨name, callee, args⟩ (.operation name args)
  if settings.tracing then Journaled.log (fun _ => "builtin" :: name :: args.map Expr.display)
    >>= fun _ => run
  else run

/-- The call of a built-in. -/
def journaledBuiltin (callee : Expr) (name : String) (missing : Nat) (supplied : List Expr)
    (arg : Option (Journaled Expr)) : Journaled Expr :=
  match missing, arg with
  | 0, _ => journaledInvoke settings callee name supplied
  | _ + 1, none => .silent (raise (.missingOperand name))
  | missing + 1, some arg => do
      match Expr.supply name (missing + 1) supplied (← arg) with
      | .ok (.builtin loc name 0 supplied) =>
          journaledInvoke settings (.builtin loc name 0 supplied) name supplied
      | .ok partly => return partly
      | .error e => .silent (throw (.malformed e))

variable (runBody : Expr → Journaled Expr)

/-- The execution of the body of a function. -/
def journaledBody (name : String) (callee body : Expr) (args : List Expr) : Journaled Expr :=
  let run := Journaled.recorded ⟨name, callee, args⟩ (.aboveFloor (runBody body))
  if settings.tracing then
    Journaled.log (fun _ => ["call", name, match args with
      | [] => "()"
      | args => " ".intercalate (args.map Expr.display)]) >>= fun _ => run
  else run

/-- The call of a user function. -/
def journaledFunction (name : String) (callee : Expr) (param : Option String) (body : Expr)
    (arg : Option (Journaled Expr)) : Journaled Expr :=
  match param, arg with
  | none, some _ => .silent (raise (.unwantedArgument name))
  | some param, none => .silent (raise (.missingArgument name param))
  | none, none => journaledBody settings runBody name callee body []
  | some param, some arg => do
      let value ← arg
      Journaled.silent (bindParam param value)
      journaledBody settings runBody name callee body [value]

/-- The application of a value to at most one argument. -/
def journaledApply (name : String) (arg : Option (Journaled Expr)) : Expr → Journaled Expr
  | .fn loc param body => journaledFunction settings runBody name (.fn loc param body)
      param body arg
  | .builtin loc operation missing supplied =>
      journaledBuiltin settings (.builtin loc operation missing supplied) operation missing
        supplied arg
  | found => .silent (raise (.notCallable found))

mutual

/-- The evaluation of a tree in a frame of its own. -/
def journaledWith : Expr → Journaled Expr
  | .ident loc name => .inFrame loc (.silent (lookup name))
  | .block loc exprs => .inFrame loc (journaledSequence .null exprs)
  | .list loc items => .inFrame loc do return .list none (← journaledItems items)
  | .binding loc name value => .inFrame loc do
      let value ← journaledWith value
      let bound : Journaled Expr := do
        Journaled.silent (bindName name value)
        return value
      if settings.tracing then
        Journaled.log (fun s => ["let", name, "=", value.display, "depth", toString s.scope.depth])
          >>= fun _ => bound
      else bound
  | .choice loc test yes no => .inFrame loc do
      if ← journaledWith test >>= fun value => .silent (conditionValue .choice value) then
        journaledWith yes
      else journaledWith no
  | .loop loc test body => .inFrame loc
      (journaledLoop settings
        (journaledWith test >>= fun value => .silent (conditionValue .loop value))
        (journaledWith body) settings.tests 0 .null)
  | .call loc callee none => .inFrame loc
      (journaledWith callee >>= journaledApply settings runBody (calleeName callee) none)
  | .call loc callee (some arg) => .inFrame loc
      (journaledWith callee >>=
        journaledApply settings runBody (calleeName callee) (some (journaledWith arg)))
  | .program loc exprs => .inFrame loc (journaledProgram exprs)
  | .int loc value => .inFrame loc (pure (.int loc value))
  | .str loc text => .inFrame loc (pure (.str loc text))
  | .bool loc value => .inFrame loc (pure (.bool loc value))
  | .null => .inFrame none (pure .null)
  | .endOfProgram => .inFrame none (pure .endOfProgram)
  | .fn loc param body => .inFrame loc (pure (.fn loc param body))
  | .builtin loc name missing supplied => .inFrame loc (pure (.builtin loc name missing supplied))

/-- The evaluation of a sequence. -/
def journaledSequence (last : Expr) : List Expr → Journaled Expr
  | [] => pure last
  | e :: es => do
      let value ← journaledWith e
      journaledSequence value es

/-- The evaluation of the members of a list literal. -/
def journaledItems : List Expr → Journaled (List Expr)
  | [] => pure []
  | e :: es => do
      let value ← journaledWith e
      let values ← journaledItems es
      return value :: values

/-- The evaluation of the expressions of a program. -/
def journaledProgram : List Expr → Journaled Expr
  | [] => pure .endOfProgram
  | e :: es => do
      let value ← journaledWith e
      Journaled.silent (setLast value)
      journaledProgram es

end

end

/-- The evaluation of a tree where calls of user functions may nest to a depth. -/
def journaledNested (settings : Settings) : (nesting : Nat) → Expr → Journaled Expr
  | 0 => journaledWith settings fun _ => .silent (throw .tooDeep)
  | nesting + 1 => journaledWith settings (journaledNested settings nesting)

/-- The evaluation of a tree, with its journal. -/
def journaled (settings : Settings) (e : Expr) : Journaled Expr :=
  journaledNested settings settings.nesting e

/-- What an evaluation that begins in a state does to the console. -/
def journal (settings : Settings) (e : Expr) (s : RunState) : List Event :=
  (journaled settings e).journal s

/-! ## What a journal tells -/

/-- A journaled step is this step, and the journal is all that there is between it and its
console. -/
structure Journals {α : Type} (o : Journaled α) (m : EvalM α) : Prop where
  /-- It is the step. -/
  act : o.act = m
  /-- What is told leads from the console before to the console after. -/
  happen : ∀ s, Happen (o.journal s) s.console (final (m s)).console
  /-- On a console on which that can happen, the same is done, and the same is told. -/
  elsewhere : ∀ s {console console'}, Happen (o.journal s) console console' →
    m (s.withConsole console) = resultWithConsole console' (m s) ∧
      o.journal (s.withConsole console) = o.journal s

/-- A step that does nothing to the console, and does the same on any other one. -/
def Offline {α : Type} (m : EvalM α) : Prop :=
  ∀ s console, m (s.withConsole console) = resultWithConsole console (m s) ∧
    (final (m s)).console = s.console

namespace Journals

variable {α β : Type}

theorem silent {m : EvalM α} (h : Offline m) : Journals (.silent m) m where
  act := rfl
  happen := fun s => by
    rw [(h s s.console).2]
    exact .nil
  elsewhere := fun s _ _ hnil => by
    cases hnil
    exact ⟨(h s _).1, rfl⟩

theorem pure (value : α) : Journals (Pure.pure value) (Pure.pure value) :=
  silent fun _ _ => ⟨rfl, rfl⟩

theorem throw (failure : Failure) : Journals (.silent (throw failure) : Journaled α)
    (throw failure) :=
  silent fun _ _ => ⟨rfl, rfl⟩

theorem raise (fault : Fault) : Journals (.silent (raise fault) : Journaled α) (raise fault) :=
  throw _

theorem bind {o : Journaled β} {m : EvalM β} {g : β → Journaled α} {f : β → EvalM α}
    (ho : Journals o m) (hg : ∀ value, Journals (g value) (f value)) :
    Journals (o >>= g) (m >>= f) := by
  have hjournal : ∀ s, (o >>= g).journal s = o.journal s ++ match m s with
      | .ok value s' => (g value).journal s'
      | .error _ _ => [] := by
    intro s
    rw [← ho.act]
    rfl
  refine ⟨?_, fun s => ?_, fun s console console' h => ?_⟩
  · rw [← ho.act]
    exact congrArg (o.act >>= ·) (funext fun value => (hg value).act)
  · rw [hjournal, bind_apply]
    have hfirst := ho.happen s
    cases hend : m s with
    | ok value s' =>
        rw [hend] at hfirst
        exact happen_append.mpr ⟨s'.console, hfirst, (hg value).happen s'⟩
    | error failure s' =>
        rw [hend] at hfirst
        rw [List.append_nil]
        exact hfirst
  · -- the other console after the first step is the one between the two journals
    rw [hjournal] at h
    obtain ⟨between, hfirst, hrest⟩ := happen_append.mp h
    obtain ⟨hact, htold⟩ := ho.elsewhere s hfirst
    rw [hjournal, hjournal, bind_apply, bind_apply, hact, htold]
    cases hend : m s with
    | ok value s' =>
        rw [hend] at hrest
        obtain ⟨hact', htold'⟩ := (hg value).elsewhere s' hrest
        exact ⟨hact', congrArg (o.journal s ++ ·) htold'⟩
    | error failure s' =>
        rw [hend] at hrest
        cases hrest
        exact ⟨rfl, rfl⟩

theorem ite (test : Bool) {o o' : Journaled α} {m m' : EvalM α} (h : Journals o m)
    (h' : Journals o' m') : Journals (if test then o else o') (if test then m else m') := by
  cases test with
  | true => exact h
  | false => exact h'

/-- A step inside a bracket has its journal there. -/
theorem bracket {start stop halt : RunState → RunState} {mark : Failure → Failure}
    (hstart : ∀ s console, start (s.withConsole console) = (start s).withConsole console)
    (hstop : ∀ s console, stop (s.withConsole console) = (stop s).withConsole console)
    (hhalt : ∀ s console, halt (s.withConsole console) = (halt s).withConsole console)
    {o : Journaled α} {m : EvalM α} (h : Journals o m) :
    Journals ⟨bracket start stop halt mark o.act, fun s => o.journal (start s)⟩
      (bracket start stop halt mark m) := by
  -- what commutes with the exchange of the console leaves the console alone
  have hkeeps : ∀ {f : RunState → RunState},
      (∀ s console, f (s.withConsole console) = (f s).withConsole console) →
      ∀ s, (f s).console = s.console := by
    intro f hf s
    show (f (s.withConsole s.console)).console = s.console
    rw [hf]
    rfl
  refine ⟨by rw [h.act], fun s => ?_, fun s console console' htold => ?_⟩
  · have hinside := h.happen (start s)
    rw [hkeeps hstart] at hinside
    unfold EvalM.bracket
    cases hend : m (start s) with
    | ok value s' =>
        rw [hend] at hinside
        show Happen _ _ (stop s').console
        rw [hkeeps hstop]
        exact hinside
    | error failure s' =>
        rw [hend] at hinside
        show Happen _ _ (halt s').console
        rw [hkeeps hhalt]
        exact hinside
  · obtain ⟨hact, hjournal⟩ := h.elsewhere (start s) htold
    constructor
    · unfold EvalM.bracket
      rw [hstart, hact]
      cases hend : m (start s) with
      | ok value s' => exact congrArg (EStateM.Result.ok value) (hstop s' console')
      | error failure s' => exact congrArg (EStateM.Result.error (mark failure)) (hhalt s' console')
    · show o.journal (start (s.withConsole console)) = o.journal (start s)
      rw [hstart]
      exact hjournal

theorem inFrame (place : Option Loc) {o : Journaled α} {m : EvalM α} (h : Journals o m) :
    Journals (.inFrame place o) (inFrame place m) := by
  rw [inFrame_eq_bracket, Journaled.inFrame, inFrame_eq_bracket]
  exact bracket (fun _ _ => rfl) (fun _ _ => rfl) (fun _ _ => rfl) h

theorem aboveFloor {o : Journaled α} {m : EvalM α} (h : Journals o m) :
    Journals (.aboveFloor o) (aboveFloor m) := by
  rw [aboveFloor_eq_bracket, Journaled.aboveFloor, aboveFloor_eq_bracket]
  exact bracket (fun _ _ => rfl) (fun _ _ => rfl) (fun _ _ => rfl) h

theorem recorded (call : CallRecord) {o : Journaled α} {m : EvalM α} (h : Journals o m) :
    Journals (.recorded call o) (recorded call m) := by
  rw [recorded_eq_bracket, Journaled.recorded, recorded_eq_bracket]
  exact bracket (fun _ _ => rfl) (fun _ _ => rfl) (fun _ _ => rfl) h

/-- A line is logged, if what it says does not depend on the console. -/
theorem log {parts : RunState → List String}
    (hparts : ∀ s console, parts (s.withConsole console) = parts s) :
    Journals (.log parts) (do EvalM.log (parts (← get))) where
  act := rfl
  happen := fun s => .single .logged
  elsewhere := fun s console console' h => by
    cases h with
    | cons hfirst hrest =>
        cases hfirst
        cases hrest
        refine ⟨?_, by rw [Journaled.log]; simp only [hparts]⟩
        show EvalM.log (parts (s.withConsole console)) (s.withConsole console) = _
        rw [hparts]
        rfl

/-- The one step that executes an operation. -/
theorem operation (name : String) (args : List Expr) :
    Journals (.operation name args) (onConsole (runBuiltin name args)) where
  act := rfl
  happen := fun s => by
    refine .single (.executed ?_)
    unfold onConsole
    cases runBuiltin name args s.console with
    | ok => rfl
    | error => rfl
  elsewhere := fun s console console' h => by
    cases h with
    | cons hfirst hrest =>
        cases hfirst with
        | executed hrun =>
            cases hrest
            unfold onConsole Journaled.operation RunState.withConsole at *
            simp only [hrun]
            cases runBuiltin name args s.console with
            | ok => exact ⟨rfl, rfl⟩
            | error => exact ⟨rfl, rfl⟩

theorem traced (tracing : Bool) {parts : RunState → List String}
    (hparts : ∀ s console, parts (s.withConsole console) = parts s) {trace : EvalM Unit}
    (htrace : trace = do EvalM.log (parts (← get))) {o : Journaled α} {m : EvalM α}
    (h : Journals o m) : Journals (if tracing then Journaled.log parts >>= fun _ => o else o)
      (if tracing then trace >>= fun _ => m else m) := by
  subst htrace
  exact ite tracing (bind (log hparts) fun _ => h) h

end Journals

/-! ### Steps that leave the console alone -/

theorem Offline.lookup (name : String) : Offline (lookup name) := by
  intro s console
  have hscope : (s.withConsole console).scope = s.scope := rfl
  rw [EvalM.lookup, EvalM.lookup, hscope]
  cases s.scope.resolve name with
  | some => exact ⟨rfl, rfl⟩
  | none => exact ⟨rfl, rfl⟩

theorem Offline.onScope (f : ScopeStack → Except ScopeError ScopeStack) :
    Offline (onScope f) := by
  intro s console
  have hscope : (s.withConsole console).scope = s.scope := rfl
  rw [EvalM.onScope, EvalM.onScope, hscope]
  cases f s.scope with
  | ok => exact ⟨rfl, rfl⟩
  | error => exact ⟨rfl, rfl⟩

theorem Offline.bindName (name : String) (value : Expr) : Offline (bindName name value) :=
  fun s console => onScope (·.rebind name value (s.floors.headD 0)) s console

theorem Offline.setLast (value : Expr) : Offline (setLast value) := fun _ _ => ⟨rfl, rfl⟩

theorem Offline.conditionValue (construct : Construct) (value : Expr) :
    Offline (conditionValue construct value) := by
  cases value <;> exact fun _ _ => ⟨rfl, rfl⟩

/-! ## The journal of an evaluation -/

namespace Journals

section
variable {settings : Settings}

theorem loop {test : EvalM Bool} {body : EvalM Expr} {test' : Journaled Bool}
    {body' : Journaled Expr} (htest : Journals test' test) (hbody : Journals body' body)
    (tests done : Nat) (last : Expr) : Journals (journaledLoop settings test' body' tests done last)
      (repeatWhile settings test body tests done last) := by
  induction tests generalizing done last with
  | zero => exact throw .stalled
  | succ tests ih =>
      refine bind htest fun holds => ite holds ?_ (pure last)
      exact ite _ (raise .loopLimit) (bind hbody fun value => ih (done + 1) value)

/-! ### Calls -/

theorem invoke (callee : Expr) (name : String) (args : List Expr) :
    Journals (journaledInvoke settings callee name args) (invoke settings callee name args) :=
  traced settings.tracing (fun _ _ => rfl) rfl (recorded _ (operation name args))

/-- Two arguments of a call, one with a journal: two steps, or none on either side. -/
inductive Args : Option (Journaled Expr) → Option (EvalM Expr) → Prop
  | none : Args none none
  | some {o m} : Journals o m → Args (some o) (some m)

theorem callBuiltin (callee : Expr) (name : String) (missing : Nat) (supplied : List Expr)
    {arg : Option (Journaled Expr)} {arg' : Option (EvalM Expr)} (harg : Args arg arg') :
    Journals (journaledBuiltin settings callee name missing supplied arg)
      (callBuiltin settings callee name missing supplied arg') := by
  cases missing with
  | zero =>
      cases harg with
      | none => exact invoke callee name supplied
      | some => exact invoke callee name supplied
  | succ missing =>
      cases harg with
      | none => exact raise _
      | some hm =>
          refine bind hm fun value => ?_
          -- the argument is the last one, or the built-in goes on waiting and executes nothing
          cases missing with
          | zero => exact invoke _ name _
          | succ missing => exact pure _

variable {runBody : Expr → EvalM Expr} {runBody' : Expr → Journaled Expr}
  (hbody : ∀ body, Journals (runBody' body) (runBody body))
include hbody

theorem enterBody (name : String) (callee body : Expr) (args : List Expr) :
    Journals (journaledBody settings runBody' name callee body args)
      (enterBody settings runBody name callee body args) :=
  traced settings.tracing (fun _ _ => rfl) rfl (recorded _ (aboveFloor (hbody body)))

theorem callFunction (name : String) (callee : Expr) (param : Option String) (body : Expr)
    {arg : Option (Journaled Expr)} {arg' : Option (EvalM Expr)} (harg : Args arg arg') :
    Journals (journaledFunction settings runBody' name callee param body arg)
      (callFunction settings runBody name callee param body arg') := by
  cases param with
  | none =>
      cases harg with
      | none => exact enterBody hbody name callee body []
      | some => exact raise _
  | some param =>
      cases harg with
      | none => exact raise _
      | some hm =>
          refine bind hm fun value => bind (silent (Offline.onScope _)) fun _ => ?_
          exact enterBody hbody name callee body [value]

theorem apply (name : String) {arg : Option (Journaled Expr)} {arg' : Option (EvalM Expr)}
    (harg : Args arg arg') (found : Expr) :
    Journals (journaledApply settings runBody' name arg found)
      (apply settings runBody name arg' found) := by
  cases found with
  | fn loc param body => exact callFunction hbody name _ param body harg
  | builtin loc operation missing supplied => exact callBuiltin _ operation missing supplied harg
  | _ => exact raise _

/-! ### Sequences -/

omit hbody in
theorem sequence {es : List Expr}
    (hes : ∀ e ∈ es, Journals (journaledWith settings runBody' e) (evalWith settings runBody e))
    (last : Expr) : Journals (journaledSequence settings runBody' last es)
      (evalSequence settings runBody last es) := by
  induction es generalizing last with
  | nil => exact pure last
  | cons e es ih =>
      rw [journaledSequence, evalSequence]
      obtain ⟨he, hes⟩ := List.forall_mem_cons.mp hes
      exact bind he fun value => ih hes value

omit hbody in
theorem items {es : List Expr}
    (hes : ∀ e ∈ es, Journals (journaledWith settings runBody' e)
      (evalWith settings runBody e)) :
    Journals (journaledItems settings runBody' es) (evalItems settings runBody es) := by
  induction es with
  | nil => exact pure []
  | cons e es ih =>
      rw [journaledItems, evalItems]
      obtain ⟨he, hes⟩ := List.forall_mem_cons.mp hes
      exact bind he fun value => bind (ih hes) fun values => pure _

omit hbody in
theorem program {es : List Expr}
    (hes : ∀ e ∈ es, Journals (journaledWith settings runBody' e)
      (evalWith settings runBody e)) :
    Journals (journaledProgram settings runBody' es) (evalProgram settings runBody es) := by
  induction es with
  | nil => exact pure _
  | cons e es ih =>
      rw [journaledProgram, evalProgram]
      obtain ⟨he, hes⟩ := List.forall_mem_cons.mp hes
      exact bind he fun value => bind (silent (Offline.setLast value)) fun _ => ih hes

/-! ### Trees -/

/-- A tree is evaluated as with a journal if bodies are. -/
theorem tree (e : Expr) : Journals (journaledWith settings runBody' e)
    (evalWith settings runBody e) := by
  induction e with
  | int | str | bool | null | endOfProgram | fn | builtin =>
      rw [journaledWith, evalWith]
      exact inFrame _ (pure _)
  | ident loc name =>
      rw [journaledWith, evalWith]
      exact inFrame _ (silent (Offline.lookup name))
  | list loc es ih =>
      rw [journaledWith, evalWith]
      exact inFrame _ (bind (items ih) fun values => pure _)
  | block loc es ih =>
      rw [journaledWith, evalWith]
      exact inFrame _ (sequence ih .null)
  | program loc es ih =>
      rw [journaledWith, evalWith]
      exact inFrame _ (program ih)
  | binding loc name value ih =>
      rw [journaledWith, evalWith]
      refine inFrame _ (bind ih fun value => ?_)
      -- what is traced of a binding tells the depth of the stack, which no console knows of
      have hbound := bind (silent (Offline.bindName name value)) fun _ => pure value
      exact traced settings.tracing (fun _ _ => rfl) rfl hbound
  | choice loc test yes no ihTest ihYes ihNo =>
      rw [journaledWith, evalWith]
      have htest := bind ihTest fun value => silent (Offline.conditionValue .choice value)
      exact inFrame _ (bind htest fun holds => ite holds ihYes ihNo)
  | loop loc test body ihTest ihBody =>
      rw [journaledWith, evalWith]
      have htest := bind ihTest fun value => silent (Offline.conditionValue .loop value)
      exact inFrame _ (loop htest ihBody _ _ _)
  | bareCall loc callee ih =>
      rw [journaledWith, evalWith]
      exact inFrame _ (bind ih fun found => apply hbody _ .none found)
  | call loc callee arg ihCallee ihArg =>
      rw [journaledWith, evalWith]
      exact inFrame _ (bind ihCallee fun found => apply hbody _ (.some ihArg) found)

end

theorem nested (settings : Settings) (nesting : Nat) (e : Expr) :
    Journals (journaledNested settings nesting e) (evalNested settings nesting e) := by
  induction nesting generalizing e with
  | zero => exact tree (fun _ => throw .tooDeep) e
  | succ nesting ih => exact tree ih e

end Journals

/-- The journal of an evaluation is all that there is between it and its console. -/
theorem evaluate_journals (settings : Settings) (e : Expr) :
    Journals (journaled settings e) (evaluate settings e) :=
  Journals.nested settings settings.nesting e

end ExprLang
