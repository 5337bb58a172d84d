import ExprLang.Proofs.Eval.Activity
import ExprLang.Proofs.Eval.Journal

/-!
# What a traced run tells

The deeds of a run are that it executes the bodies of functions, that it executes operations, and
that it comes to the values of `let`s. They are put down here without a look at the log or at
whether the run is traced: `Told` is a step together with its deeds, where each deed goes with the
step that it is (`Told.body`, `Told.operation`, `Told.letValue`), and `toldWith` is the evaluation
of a tree in such steps.

A run that is traced does what it does when it is not, but for the log, to which it adds one line
for each deed, in the order of the deeds (`evaluate_tells`). So does a run that fails: its deeds are
those that it came to.
-/

namespace ExprLang

open EvalM

/-! ## Deeds -/

/-- Something that a run does and that is told when the run is traced. -/
inductive Deed where
  /-- It executes the body of a function for a call. -/
  | body (call : CallRecord)
  /-- It executes an operation. -/
  | operation (call : CallRecord)
  /-- It comes to the value of a `let`, with so many frames on the stack. -/
  | letValue (name : String) (value : Expr) (depth : Nat)

namespace Deed

/-- What is told of a deed. -/
def parts : Deed → List String
  | .body call => call.functionNote
  | .operation call => call.operationNote
  | .letValue name value depth => ["let", name, "=", value.display, "depth", toString depth]

/-- The line that tells of a deed. -/
def line (deed : Deed) : String :=
  "[DBG] " ++ " ".intercalate deed.parts

/-- A log after some deeds: if the run is traced, it has one line more for each of them. -/
def addTo (log : String) (tracing : Bool) (deeds : List Deed) : String :=
  if tracing then deeds.foldl (fun log deed => log ++ deed.line ++ "\n") log else log

@[simp] theorem addTo_nil (log : String) (tracing : Bool) : addTo log tracing [] = log := by
  cases tracing <;> rfl

theorem addTo_append (log : String) (tracing : Bool) (deeds deeds' : List Deed) :
    addTo log tracing (deeds ++ deeds') = addTo (addTo log tracing deeds) tracing deeds' := by
  cases tracing with
  | false => rfl
  | true => exact List.foldl_append

end Deed

/-! ## Other logs -/

/-- The state with another log. -/
def RunState.withLog (log : String) (s : RunState) : RunState :=
  s.withConsole { s.console with log := log }

/-- The end of a step with another log. -/
def resultWithLog {α : Type} (log : String) :
    EStateM.Result Failure RunState α → EStateM.Result Failure RunState α
  | .ok value s => .ok value (s.withLog log)
  | .error failure s => .error failure (s.withLog log)

/-- A step that leaves the console alone does the same whatever is on the log. -/
theorem Offline.withLog {α : Type} {m : EvalM α} (h : Offline m) (s : RunState) (log : String) :
    m (s.withLog log) = resultWithLog log (m s) := by
  obtain ⟨hact, hconsole⟩ := h s { s.console with log := log }
  rw [RunState.withLog, hact]
  cases hend : m s with
  | ok value s' | error failure s' =>
      rw [hend] at hconsole
      have hsame : s'.console = s.console := hconsole
      simp only [resultWithConsole, resultWithLog, RunState.withLog, hsame]

/-- An operation does the same whatever is on the log. -/
theorem operation_withLog (name : String) (args : List Expr) (s : RunState) (log : String) :
    onConsole (runBuiltin name args) (s.withLog log)
      = resultWithLog log (onConsole (runBuiltin name args) s) := by
  have hacts := runBuiltin_acts name args
  obtain ⟨scope, floors, calls, last, ⟨input, inputOpen, output, outputOpen, _⟩⟩ := s
  generalize runBuiltin name args = act at hacts
  cases hacts with
  | reads => cases inputOpen <;> rfl
  | writes => cases outputOpen <;> rfl
  | @computes _ result _ => cases result <;> rfl

/-! ## Steps with their deeds -/

/-- A step, and the deeds that it does from a state. -/
structure Told (α : Type) where
  act : EvalM α
  deeds : RunState → List Deed

namespace Told

variable {α β : Type}

/-- A step that does no deeds. -/
def silent (act : EvalM α) : Told α := ⟨act, fun _ => []⟩

/-- A step and what comes after it, if it ends with a value. -/
def andThen (m : Told β) (f : β → Told α) : Told α where
  act := m.act >>= fun value => (f value).act
  deeds := fun s => m.deeds s ++ match m.act s with
    | .ok value s' => (f value).deeds s'
    | .error _ _ => []

instance : Monad Told where
  pure := fun value => silent (pure value)
  bind := andThen

/-- A step in a frame of its own. -/
def inFrame (place : Option Loc) (m : Told α) : Told α where
  act := EvalM.inFrame place m.act
  deeds := fun s => m.deeds s.entered

/-- A step above a floor of its own. -/
def aboveFloor (m : Told α) : Told α where
  act := EvalM.aboveFloor m.act
  deeds := fun s => m.deeds { s with floors := s.scope.depth :: s.floors }

/-- A step that is on the record of calls while it is executed. -/
def recorded (call : CallRecord) (m : Told α) : Told α where
  act := EvalM.recorded call m.act
  deeds := fun s => m.deeds { s with calls := call :: s.calls }

/-- A step that is a deed itself, before all deeds that are done in it. -/
def doing (deed : Deed) (m : Told α) : Told α where
  act := m.act
  deeds := fun s => deed :: m.deeds s

/-- The execution of the body of a function. -/
def body (call : CallRecord) (m : Told α) : Told α :=
  doing (.body call) (recorded call (aboveFloor m))

/-- The execution of an operation. -/
def operation (call : CallRecord) : Told Expr :=
  doing (.operation call) (recorded call (silent (onConsole (runBuiltin call.name call.args))))

/-- The evaluation of the value of a `let`. There is a value to tell of only if it succeeds. -/
def letValue (name : String) (m : Told Expr) : Told Expr where
  act := m.act
  deeds := fun s => m.deeds s ++ match m.act s with
    | .ok value s' => [.letValue name value s'.scope.depth]
    | .error _ _ => []

end Told

/-! ## Evaluation with its deeds -/

section
variable (settings : Settings)

/-- A loop that has run its body `done` times and may test its condition `tests` times more. -/
def toldLoop (test : Told Bool) (body : Told Expr) :
    (tests done : Nat) → (last : Expr) → Told Expr
  | 0, _, _ => .silent (throw .stalled)
  | tests + 1, done, last => do
      if ← test then
        if settings.capReached done then .silent (raise .loopLimit)
        else toldLoop test body tests (done + 1) (← body)
      else return last

/-- The call of a built-in. -/
def toldBuiltin (callee : Expr) (name : String) (missing : Nat) (supplied : List Expr)
    (arg : Option (Told Expr)) : Told Expr :=
  match missing, arg with
  | 0, _ => .operation ⟨name, callee, supplied⟩
  | _ + 1, none => .silent (raise (.missingOperand name))
  | missing + 1, some arg => do
      match Expr.supply name (missing + 1) supplied (← arg) with
      | .ok (.builtin loc name 0 supplied) =>
          .operation ⟨name, .builtin loc name 0 supplied, supplied⟩
      | .ok partly => return partly
      | .error e => .silent (throw (.malformed e))

variable (runBody : Expr → Told Expr)

/-- The call of a user function. -/
def toldFunction (name : String) (callee : Expr) (param : Option String) (body : Expr)
    (arg : Option (Told Expr)) : Told Expr :=
  match param, arg with
  | none, some _ => .silent (raise (.unwantedArgument name))
  | some param, none => .silent (raise (.missingArgument name param))
  | none, none => .body ⟨name, callee, []⟩ (runBody body)
  | some param, some arg => do
      let value ← arg
      Told.silent (bindParam param value)
      .body ⟨name, callee, [value]⟩ (runBody body)

/-- The application of a value to at most one argument. -/
def toldApply (name : String) (arg : Option (Told Expr)) : Expr → Told Expr
  | .fn loc param body => toldFunction runBody name (.fn loc param body) param body arg
  | .builtin loc operation missing supplied =>
      toldBuiltin (.builtin loc operation missing supplied) operation missing supplied arg
  | found => .silent (raise (.notCallable found))

mutual

/-- The evaluation of a tree in a frame of its own. -/
def toldWith : Expr → Told Expr
  | .ident loc name => .inFrame loc (.silent (lookup name))
  | .block loc exprs => .inFrame loc (toldSequence .null exprs)
  | .list loc items => .inFrame loc do return .list none (← toldItems items)
  | .binding loc name value => .inFrame loc do
      let value ← Told.letValue name (toldWith value)
      Told.silent (bindName name value)
      return value
  | .choice loc test yes no => .inFrame loc do
      if ← toldWith test >>= fun value => .silent (conditionValue .choice value) then toldWith yes
      else toldWith no
  | .loop loc test body => .inFrame loc
      (toldLoop settings (toldWith test >>= fun value => .silent (conditionValue .loop value))
        (toldWith body) settings.tests 0 .null)
  | .call loc callee none => .inFrame loc
      (toldWith callee >>= toldApply runBody (calleeName callee) none)
  | .call loc callee (some arg) => .inFrame loc
      (toldWith callee >>= toldApply runBody (calleeName callee) (some (toldWith arg)))
  | .program loc exprs => .inFrame loc (toldProgram exprs)
  | .int loc value => .inFrame loc (pure (.int loc value))
  | .str loc text => .inFrame loc (pure (.str loc text))
  | .bool loc value => .inFrame loc (pure (.bool loc value))
  | .null => .inFrame none (pure .null)
  | .endOfProgram => .inFrame none (pure .endOfProgram)
  | .fn loc param body => .inFrame loc (pure (.fn loc param body))
  | .builtin loc name missing supplied => .inFrame loc (pure (.builtin loc name missing supplied))

/-- The evaluation of a sequence. -/
def toldSequence (last : Expr) : List Expr → Told Expr
  | [] => pure last
  | e :: es => do
      let value ← toldWith e
      toldSequence value es

/-- The evaluation of the members of a list literal. -/
def toldItems : List Expr → Told (List Expr)
  | [] => pure []
  | e :: es => do
      let value ← toldWith e
      let values ← toldItems es
      return value :: values

/-- The evaluation of the expressions of a program. -/
def toldProgram : List Expr → Told Expr
  | [] => pure .endOfProgram
  | e :: es => do
      let value ← toldWith e
      Told.silent (setLast value)
      toldProgram es

end

end

/-- The evaluation of a tree where calls of user functions may nest to a depth. -/
def toldNested (settings : Settings) : (nesting : Nat) → Expr → Told Expr
  | 0 => toldWith settings fun _ => .silent (throw .tooDeep)
  | nesting + 1 => toldWith settings (toldNested settings nesting)

/-- The evaluation of a tree, with its deeds. -/
def told (settings : Settings) (e : Expr) : Told Expr :=
  toldNested settings settings.nesting e

/-- The deeds of an evaluation that begins in a state, in their order. -/
def deeds (settings : Settings) (e : Expr) (s : RunState) : List Deed :=
  (told settings e).deeds s

/-! ## What is traced -/

/-- The same choices, but for whether the run is traced. -/
def Settings.withTracing (tracing : Bool) (settings : Settings) : Settings :=
  { settings with tracing := tracing }

/-- A step with its deeds is the step `plain`. The step `m` does the same on any log, and adds a
line to the log for each deed if it is traced. -/
structure Tells (tracing : Bool) {α : Type} (o : Told α) (plain m : EvalM α) : Prop where
  act : o.act = plain
  told : ∀ s log, m (s.withLog log)
    = resultWithLog (Deed.addTo log tracing (o.deeds s)) (plain s)

namespace Tells

variable {α β : Type} {tracing : Bool}

theorem silent {m : EvalM α} (h : Offline m) : Tells tracing (.silent m) m m where
  act := rfl
  told := fun s log => (h.withLog s log).trans (by simp [Told.silent])

theorem pure (value : α) : Tells tracing (Pure.pure value) (Pure.pure value) (Pure.pure value) :=
  silent fun _ _ => ⟨rfl, rfl⟩

theorem throw (failure : Failure) : Tells tracing (.silent (throw failure) : Told α)
    (throw failure) (throw failure) :=
  silent fun _ _ => ⟨rfl, rfl⟩

theorem raise (fault : Fault) : Tells tracing (.silent (raise fault) : Told α) (raise fault)
    (raise fault) :=
  throw _

theorem bind {o : Told β} {plain m : EvalM β} {g : β → Told α} {f f' : β → EvalM α}
    (ho : Tells tracing o plain m) (hg : ∀ value, Tells tracing (g value) (f value) (f' value)) :
    Tells tracing (o >>= g) (plain >>= f) (m >>= f') := by
  have hdeeds : ∀ s, (o >>= g).deeds s = o.deeds s ++ match plain s with
      | .ok value s' => (g value).deeds s'
      | .error _ _ => [] := by
    intro s
    rw [← ho.act]
    rfl
  refine ⟨?_, fun s log => ?_⟩
  · rw [← ho.act]
    exact congrArg (o.act >>= ·) (funext fun value => (hg value).act)
  · rw [hdeeds, bind_apply, bind_apply, ho.told, Deed.addTo_append]
    cases plain s with
    | ok value s' => exact (hg value).told s' _
    | error failure s' =>
        rw [Deed.addTo_nil]
        rfl

theorem ite (test : Bool) {o o' : Told α} {plain m plain' m' : EvalM α}
    (h : Tells tracing o plain m) (h' : Tells tracing o' plain' m') :
    Tells tracing (if test then o else o') (if test then plain else plain')
      (if test then m else m') := by
  cases test with
  | true => exact h
  | false => exact h'

/-- A step inside a bracket does its deeds there. -/
theorem bracket {start stop halt : RunState → RunState} {mark : Failure → Failure}
    (hstart : ∀ s log, start (s.withLog log) = (start s).withLog log)
    (hstop : ∀ s log, stop (s.withLog log) = (stop s).withLog log)
    (hhalt : ∀ s log, halt (s.withLog log) = (halt s).withLog log)
    {o : Told α} {plain m : EvalM α} (h : Tells tracing o plain m) :
    Tells tracing ⟨bracket start stop halt mark o.act, fun s => o.deeds (start s)⟩
      (bracket start stop halt mark plain) (bracket start stop halt mark m) := by
  refine ⟨by rw [h.act], fun s log => ?_⟩
  unfold EvalM.bracket
  rw [hstart, h.told]
  cases plain (start s) with
  | ok value s' => exact congrArg (EStateM.Result.ok value) (hstop s' _)
  | error failure s' => exact congrArg (EStateM.Result.error (mark failure)) (hhalt s' _)

theorem inFrame (place : Option Loc) {o : Told α} {plain m : EvalM α}
    (h : Tells tracing o plain m) :
    Tells tracing (.inFrame place o) (inFrame place plain) (inFrame place m) := by
  rw [inFrame_eq_bracket, inFrame_eq_bracket, Told.inFrame, inFrame_eq_bracket]
  exact bracket (fun _ _ => rfl) (fun _ _ => rfl) (fun _ _ => rfl) h

theorem aboveFloor {o : Told α} {plain m : EvalM α} (h : Tells tracing o plain m) :
    Tells tracing (.aboveFloor o) (aboveFloor plain) (aboveFloor m) := by
  rw [aboveFloor_eq_bracket, aboveFloor_eq_bracket, Told.aboveFloor, aboveFloor_eq_bracket]
  exact bracket (fun _ _ => rfl) (fun _ _ => rfl) (fun _ _ => rfl) h

theorem recorded (call : CallRecord) {o : Told α} {plain m : EvalM α}
    (h : Tells tracing o plain m) :
    Tells tracing (.recorded call o) (recorded call plain) (recorded call m) := by
  rw [recorded_eq_bracket, recorded_eq_bracket, Told.recorded, recorded_eq_bracket]
  exact bracket (fun _ _ => rfl) (fun _ _ => rfl) (fun _ _ => rfl) h

theorem operation (name : String) (args : List Expr) :
    Tells tracing (.silent (onConsole (runBuiltin name args))) (onConsole (runBuiltin name args))
      (onConsole (runBuiltin name args)) where
  act := rfl
  told := fun s log => (operation_withLog name args s log).trans (by simp [Told.silent])

/-- A step that is a deed is told before it begins, if it is traced. -/
theorem doing {deed : Deed} {trace : EvalM Unit}
    (htrace : ∀ s, trace s = .ok () (s.logged deed.line)) {o : Told α} {plain m : EvalM α}
    (h : Tells tracing o plain m) :
    Tells tracing (.doing deed o) plain (if tracing then trace >>= fun _ => m else m) := by
  refine ⟨h.act, fun s log => ?_⟩
  cases tracing with
  | false => exact h.told s log
  | true =>
      rw [if_pos rfl, bind_apply, htrace]
      exact h.told s _

/-- The value of a `let` is told as soon as it is there, and before anything is done with it. -/
theorem letValue {name : String} {trace : Expr → EvalM Unit}
    (htrace : ∀ value s, trace value s
      = .ok () (s.logged (Deed.letValue name value s.scope.depth).line))
    {o : Told Expr} {plain m : EvalM Expr} {g : Expr → Told α} {f f' : Expr → EvalM α}
    (ho : Tells tracing o plain m) (hg : ∀ value, Tells tracing (g value) (f value) (f' value)) :
    Tells tracing (Told.letValue name o >>= g) (plain >>= f)
      (m >>= fun value => if tracing then trace value >>= fun _ => f' value else f' value) := by
  have hvalue : Tells tracing (Told.letValue name o) plain
      (m >>= fun value => if tracing then trace value >>= fun _ =>
        Pure.pure value else Pure.pure value) := by
    refine ⟨ho.act, fun s log => ?_⟩
    rw [bind_apply, ho.told, Told.letValue, ho.act, Deed.addTo_append]
    cases plain s with
    | ok value s' =>
        cases tracing with
        | false => rfl
        | true =>
            show (trace value >>= fun _ => Pure.pure value) (s'.withLog _) = _
            rw [bind_apply, htrace]
            rfl
    | error failure s' => rw [Deed.addTo_nil]; rfl
  have hsplit : (m >>= fun value => if tracing then trace value >>= fun _ => f' value else f' value)
      = (m >>= fun value => if tracing then trace value >>= fun _ =>
        Pure.pure value else Pure.pure value)
        >>= f' := by
    rw [bind_assoc]
    cases tracing with
    | false => simp
    | true => simp
  rw [hsplit]
  exact hvalue.bind hg

end Tells

/-! ## The deeds of an evaluation -/

namespace Tells

section
variable {settings : Settings} {tracing : Bool}

theorem loop {test : Told Bool} {body : Told Expr} {plainTest test' : EvalM Bool}
    {plainBody body' : EvalM Expr} (htest : Tells tracing test plainTest test')
    (hbody : Tells tracing body plainBody body') (tests done : Nat) (last : Expr) :
    Tells tracing (toldLoop settings test body tests done last)
      (repeatWhile (settings.withTracing false) plainTest plainBody tests done last)
      (repeatWhile (settings.withTracing tracing) test' body' tests done last) := by
  induction tests generalizing done last with
  | zero => exact throw .stalled
  | succ tests ih =>
      refine bind htest fun holds => ite holds ?_ (pure last)
      -- neither the cap nor the tests that are left depend on tracing
      exact ite (settings.capReached done) (raise .loopLimit)
        (bind hbody fun value => ih (done + 1) value)

/-! ### Calls -/

theorem invoke (callee : Expr) (name : String) (args : List Expr) :
    Tells tracing (.operation ⟨name, callee, args⟩)
      (invoke (settings.withTracing false) callee name args)
      (invoke (settings.withTracing tracing) callee name args) :=
  doing (fun _ => rfl) (recorded _ (operation name args))

/-- The argument of a call in three forms: a step in each of them, or none in any. -/
inductive Args (tracing : Bool) : Option (Told Expr) → Option (EvalM Expr) →
    Option (EvalM Expr) → Prop
  | none : Args tracing none none none
  | some {o plain m} : Tells tracing o plain m → Args tracing (some o) (some plain) (some m)

variable {arg : Option (Told Expr)} {plainArg arg' : Option (EvalM Expr)}

theorem callBuiltin (callee : Expr) (name : String) (missing : Nat) (supplied : List Expr)
    (harg : Args tracing arg plainArg arg') :
    Tells tracing (toldBuiltin callee name missing supplied arg)
      (callBuiltin (settings.withTracing false) callee name missing supplied plainArg)
      (callBuiltin (settings.withTracing tracing) callee name missing supplied arg') := by
  cases missing with
  | zero =>
      cases harg with
      | none => exact invoke callee name supplied
      | some => exact invoke callee name supplied
  | succ missing =>
      cases harg with
      | none => exact raise _
      | some hm =>
          refine bind hm fun value => ?_
          -- the argument is the last one, or the built-in goes on waiting and executes nothing
          cases missing with
          | zero => exact invoke _ name _
          | succ missing => exact pure _

variable {runBody : Expr → Told Expr} {plainBody runBody' : Expr → EvalM Expr}
  (hbody : ∀ body, Tells tracing (runBody body) (plainBody body) (runBody' body))
include hbody

theorem enterBody (name : String) (callee body : Expr) (args : List Expr) :
    Tells tracing (.body ⟨name, callee, args⟩ (runBody body))
      (enterBody (settings.withTracing false) plainBody name callee body args)
      (enterBody (settings.withTracing tracing) runBody' name callee body args) :=
  doing (fun _ => rfl) (recorded _ (aboveFloor (hbody body)))

theorem callFunction (name : String) (callee : Expr) (param : Option String) (body : Expr)
    (harg : Args tracing arg plainArg arg') :
    Tells tracing (toldFunction runBody name callee param body arg)
      (callFunction (settings.withTracing false) plainBody name callee param body plainArg)
      (callFunction (settings.withTracing tracing) runBody' name callee param body arg') := by
  cases param with
  | none =>
      cases harg with
      | none => exact enterBody hbody name callee body []
      | some => exact raise _
  | some param =>
      cases harg with
      | none => exact raise _
      | some hm =>
          refine bind hm fun value => bind (silent (Offline.onScope _)) fun _ => ?_
          exact enterBody hbody name callee body [value]

theorem apply (name : String) (harg : Args tracing arg plainArg arg') (found : Expr) :
    Tells tracing (toldApply runBody name arg found)
      (apply (settings.withTracing false) plainBody name plainArg found)
      (apply (settings.withTracing tracing) runBody' name arg' found) := by
  cases found with
  | fn loc param body => exact callFunction hbody name _ param body harg
  | builtin loc operation missing supplied => exact callBuiltin _ operation missing supplied harg
  | _ => exact raise _

end

/-! ### Sequences -/

section
variable {settings : Settings} {tracing : Bool} {runBody : Expr → Told Expr}
  {plainBody runBody' : Expr → EvalM Expr} {es : List Expr}
  (hes : ∀ e ∈ es, Tells tracing (toldWith settings runBody e)
    (evalWith (settings.withTracing false) plainBody e)
    (evalWith (settings.withTracing tracing) runBody' e))
include hes

theorem sequence (last : Expr) : Tells tracing (toldSequence settings runBody last es)
    (evalSequence (settings.withTracing false) plainBody last es)
    (evalSequence (settings.withTracing tracing) runBody' last es) := by
  induction es generalizing last with
  | nil => exact pure last
  | cons e es ih =>
      rw [toldSequence, evalSequence, evalSequence]
      obtain ⟨he, hes⟩ := List.forall_mem_cons.mp hes
      exact bind he fun value => ih hes value

theorem items : Tells tracing (toldItems settings runBody es)
    (evalItems (settings.withTracing false) plainBody es)
    (evalItems (settings.withTracing tracing) runBody' es) := by
  induction es with
  | nil => exact pure []
  | cons e es ih =>
      rw [toldItems, evalItems, evalItems]
      obtain ⟨he, hes⟩ := List.forall_mem_cons.mp hes
      exact bind he fun value => bind (ih hes) fun values => pure _

theorem program : Tells tracing (toldProgram settings runBody es)
    (evalProgram (settings.withTracing false) plainBody es)
    (evalProgram (settings.withTracing tracing) runBody' es) := by
  induction es with
  | nil => exact pure _
  | cons e es ih =>
      rw [toldProgram, evalProgram, evalProgram]
      obtain ⟨he, hes⟩ := List.forall_mem_cons.mp hes
      exact bind he fun value => bind (silent (Offline.setLast value)) fun _ => ih hes

end

/-! ### Trees -/

/-- A tree is evaluated with its deeds if bodies are. -/
theorem tree {settings : Settings} {tracing : Bool} {runBody : Expr → Told Expr}
    {plainBody runBody' : Expr → EvalM Expr}
    (hbody : ∀ body, Tells tracing (runBody body) (plainBody body) (runBody' body)) (e : Expr) :
    Tells tracing (toldWith settings runBody e) (evalWith (settings.withTracing false) plainBody e)
      (evalWith (settings.withTracing tracing) runBody' e) := by
  induction e with
  | int | str | bool | null | endOfProgram | fn | builtin =>
      rw [toldWith, evalWith, evalWith]
      exact inFrame _ (pure _)
  | ident loc name =>
      rw [toldWith, evalWith, evalWith]
      exact inFrame _ (silent (Offline.lookup name))
  | list loc es ih =>
      rw [toldWith, evalWith, evalWith]
      exact inFrame _ (bind (items ih) fun values => pure _)
  | block loc es ih =>
      rw [toldWith, evalWith, evalWith]
      exact inFrame _ (sequence ih .null)
  | program loc es ih =>
      rw [toldWith, evalWith, evalWith]
      exact inFrame _ (program ih)
  | binding loc name value ih =>
      rw [toldWith, evalWith, evalWith]
      -- the value is told before it is bound, so it is told also if it could not be
      exact inFrame _ (letValue (fun _ _ => rfl) ih fun value =>
        bind (silent (Offline.bindName name value)) fun _ => pure value)
  | choice loc test yes no ihTest ihYes ihNo =>
      rw [toldWith, evalWith, evalWith]
      have htest := bind ihTest fun value => silent (Offline.conditionValue .choice value)
      exact inFrame _ (bind htest fun holds => ite holds ihYes ihNo)
  | loop loc test body ihTest ihBody =>
      rw [toldWith, evalWith, evalWith]
      have htest := bind ihTest fun value => silent (Offline.conditionValue .loop value)
      exact inFrame _ (loop htest ihBody _ _ _)
  | bareCall loc callee ih =>
      rw [toldWith, evalWith, evalWith]
      exact inFrame _ (bind ih fun found => apply hbody _ .none found)
  | call loc callee arg ihCallee ihArg =>
      rw [toldWith, evalWith, evalWith]
      exact inFrame _ (bind ihCallee fun found => apply hbody _ (.some ihArg) found)

theorem nested (settings : Settings) (tracing : Bool) (nesting : Nat) (e : Expr) :
    Tells tracing (toldNested settings nesting e)
    (evalNested (settings.withTracing false) nesting e)
      (evalNested (settings.withTracing tracing) nesting e) := by
  induction nesting generalizing e with
  | zero => exact tree (fun _ => throw .tooDeep) e
  | succ nesting ih => exact tree ih e

end Tells

/-- A run does the same whether it is traced or not, but for the log: a line for each deed is added
to it if the run is traced, and none if it is not. -/
theorem evaluate_tells (settings : Settings) (tracing : Bool) (e : Expr) :
    Tells tracing (told settings e) (evaluate (settings.withTracing false) e)
      (evaluate (settings.withTracing tracing) e) :=
  Tells.nested settings tracing settings.nesting e

end ExprLang
