import ExprLang.Proofs.Eval.Triple
import ExprLang.Proofs.Expr.Hereditary

/-!
# Relations that evaluation respects

Evaluation is built from few combinators and few primitive steps. If a family of relations between
steps holds of the primitive ones and goes through the combinators (`Congruence`), then it holds of
the evaluation of every tree (`Congruence.evalWith`). This is the one induction over trees and
sequences that a property of evaluation needs which speaks of steps alone.

The two sides may be evaluations under different settings. A relation may depend on how many frames
have been pushed, and on what is known of the value that a step ends with. The trees that a run
comes across may be those with a property that parts inherit, and the values those with a property
of their own (`Valued`).
-/

namespace ExprLang

open EvalM

/-! ## Calls on record -/

/-- The call of an operation that has all its arguments: of a built-in that misses none, or of one
that has just got the last. -/
inductive Filled (V : Expr → Prop) : CallRecord → Prop
  | found {loc name supplied} : V (.builtin loc name 0 supplied) →
      Filled V ⟨name, .builtin loc name 0 supplied, supplied⟩
  | last {loc name supplied arg} : V (.builtin loc name 1 supplied) → V arg →
      Filled V ⟨name, .builtin none name 0 (supplied ++ [arg]), supplied ++ [arg]⟩

/-- A call that comes on record: of an operation, or of a function. -/
inductive OnRecord (V : Expr → Prop) : CallRecord → Prop
  | operation {call} : Filled V call → OnRecord V call
  | function {name loc param body args} : V (.fn loc param body) → (∀ a ∈ args, V a) →
      OnRecord V ⟨name, .fn loc param body, args⟩

theorem Filled.args {V : Expr → Prop} (hV : ValueClosed V) {call : CallRecord}
    (h : Filled V call) : ∀ a ∈ call.args, V a := by
  cases h with
  | found hfound => exact hV.supplied hfound
  | last hfound harg =>
      exact List.forall_mem_append.mpr ⟨hV.supplied hfound, List.forall_mem_singleton.mpr harg⟩

theorem OnRecord.args {V : Expr → Prop} (hV : ValueClosed V) {call : CallRecord}
    (h : OnRecord V call) : ∀ a ∈ call.args, V a := by
  cases h with
  | operation hfilled => exact hfilled.args hV
  | function _ hargs => exact hargs

/-- What is called has the property too, if a built-in keeps it with its last argument. -/
theorem OnRecord.callee {V : Expr → Prop} (hlast : ∀ {loc name supplied arg},
      V (.builtin loc name 1 supplied) → V arg → V (.builtin none name 0 (supplied ++ [arg])))
    {call : CallRecord} (h : OnRecord V call) : V call.callee := by
  cases h with
  | operation hfilled =>
      cases hfilled with
      | found hfound => exact hfound
      | last hfound harg => exact hlast hfound harg
  | function hfound => exact hfound

/-! ## Congruences -/

/-- Relations between steps, by the number of frames pushed and by what is known of the value. -/
abbrev StepRelation := ∀ {α : Type}, Nat → (α → Prop) → EvalM α → EvalM α → Prop

/-- The state with one more line on the log. -/
def RunState.logged (s : RunState) (line : String) : RunState :=
  { s with console := s.console.logLine line }

/-- A step that adds a line to the log and does nothing else. -/
def Logs (trace : EvalM Unit) : Prop :=
  ∀ s, ∃ line, trace s = .ok () (s.logged line)

/-- Relations that hold of the primitive steps and go through the combinators of evaluation. -/
structure Congruence (settings settings' : Settings) (P V : Expr → Prop) (Rel : StepRelation) :
    Prop where
  valued : Valued P V
  pure : ∀ {α : Type} {k} {U : α → Prop} {value}, U value →
    Rel k U (pure value) (pure value)
  bind : ∀ {α β : Type} {k} {U : β → Prop} {U' : α → Prop}
    {m m' : EvalM β} {f f' : β → EvalM α},
    Rel k U m m' → (∀ value, U value → Rel k U' (f value) (f' value)) →
    Rel k U' (m >>= f) (m' >>= f')
  raise : ∀ {α : Type} {k} {U : α → Prop} fault, Rel k U (raise fault) (raise fault)
  inFrame : ∀ {k} place {m m' : EvalM Expr}, Rel (k + 1) V m m' →
    Rel k V (inFrame place m) (inFrame place m')
  aboveFloor : ∀ {k} {m m' : EvalM Expr}, Rel k V m m' → Rel k V (aboveFloor m) (aboveFloor m')
  recorded : ∀ {k call} {m m' : EvalM Expr}, OnRecord V call → Rel k V m m' →
    Rel k V (recorded call m) (recorded call m')
  traced : ∀ {k trace} {m m' : EvalM Expr}, Logs trace → Rel k V m m' →
    Rel k V (if settings.tracing then trace >>= fun _ => m else m)
      (if settings'.tracing then trace >>= fun _ => m' else m')
  repeatWhile : ∀ {k} {test test' : EvalM Bool} {body body' : EvalM Expr},
    Rel k (fun _ => True) test test' → Rel k V body body' →
    Rel k V (repeatWhile settings test body settings.tests 0 .null)
      (repeatWhile settings' test' body' settings'.tests 0 .null)
  lookup : ∀ {k loc name}, P (.ident loc name) → Rel k V (lookup name) (lookup name)
  bindName : ∀ {k loc name bound value}, P (.binding loc name bound) → V value →
    Rel (k + 1) (fun _ => True) (bindName name value) (bindName name value)
  bindParam : ∀ {k loc name body value}, V (.fn loc (some name) body) → V value →
    Rel (k + 1) (fun _ => True) (bindParam name value) (bindParam name value)
  runBuiltin : ∀ {k call}, Filled V call →
    Rel k V (onConsole (runBuiltin call.name call.args))
      (onConsole (runBuiltin call.name call.args))
  setLast : ∀ {k loc es value}, P (.program loc es) → V value →
    Rel k (fun _ => True) (setLast value) (setLast value)

namespace Congruence

variable {settings settings' : Settings} {P V : Expr → Prop} {Rel : StepRelation}
  {runBody runBody' : Expr → EvalM Expr} {k : Nat}

/-- Arguments of calls that are related: two steps, or none on either side. -/
def ArgsRelated (Rel : StepRelation) (k : Nat) (V : Expr → Prop) :
    Option (EvalM Expr) → Option (EvalM Expr) → Prop
  | some m, some m' => Rel k V m m'
  | none, none => True
  | _, _ => False

section
variable (h : Congruence settings settings' P V Rel)
include h

theorem conditionValue (construct : Construct) (value : Expr) : Rel k (fun _ => True)
    (conditionValue construct value) (ExprLang.conditionValue construct value) := by
  cases value with
  | bool loc value => exact h.pure trivial
  | _ => exact h.raise _

omit h in
theorem ite {α : Type} {U : α → Prop} {m m' n n' : EvalM α} (test : Bool) (hm : Rel k U m m')
    (hn : Rel k U n n') : Rel k U (if test then m else n) (if test then m' else n') := by
  cases test with
  | true => exact hm
  | false => exact hn

/-! ### Calls -/

theorem invoke {callee : Expr} {name : String} {args : List Expr}
    (hfilled : Filled V ⟨name, callee, args⟩) :
    Rel k V (invoke settings callee name args) (ExprLang.invoke settings' callee name args) := by
  have hrun := h.recorded (.operation hfilled) (h.runBuiltin (k := k) hfilled)
  exact h.traced (fun s => ⟨_, rfl⟩) hrun

theorem callBuiltin {loc : Option Loc} {name : String} {missing : Nat} {supplied : List Expr}
    (hfound : V (.builtin loc name missing supplied)) {arg arg' : Option (EvalM Expr)}
    (harg : ArgsRelated Rel k V arg arg') :
    Rel k V (callBuiltin settings (.builtin loc name missing supplied) name missing supplied arg)
      (ExprLang.callBuiltin settings' (.builtin loc name missing supplied) name missing supplied
        arg') := by
  match missing, arg, arg', harg with
  -- an operation that misses nothing leaves its argument alone
  | 0, _, _, _ => exact h.invoke (.found hfound)
  | missing + 1, none, none, _ => exact h.raise _
  | missing + 1, some m, some m', harg =>
      refine h.bind harg fun value hvalue => ?_
      cases missing with
      | zero => exact h.invoke (.last hfound hvalue)
      | succ missing => exact h.pure (h.valued.supply hfound hvalue)

theorem enterBody (hbody : ∀ k e, P e → Rel k V (runBody e) (runBody' e)) (name : String)
    {callee body : Expr} (hP : P body) {args : List Expr}
    (hcall : OnRecord V ⟨name, callee, args⟩) :
    Rel k V (enterBody settings runBody name callee body args)
      (ExprLang.enterBody settings' runBody' name callee body args) := by
  have hrun := h.recorded hcall (h.aboveFloor (hbody k body hP))
  exact h.traced (fun s => ⟨_, rfl⟩) hrun

theorem callFunction (hbody : ∀ k e, P e → Rel k V (runBody e) (runBody' e)) (name : String)
    {loc : Option Loc} {param : Option String} {body : Expr} (hfound : V (.fn loc param body))
    {arg arg' : Option (EvalM Expr)} (harg : ArgsRelated Rel (k + 1) V arg arg') :
    Rel (k + 1) V (callFunction settings runBody name (.fn loc param body) param body arg)
      (ExprLang.callFunction settings' runBody' name (.fn loc param body) param body arg') := by
  have hP : P body := h.valued.body hfound
  match param, arg, arg', harg with
  | none, some _, some _, _ => exact h.raise _
  | some _, none, none, _ => exact h.raise _
  | none, none, none, _ => exact h.enterBody hbody name hP (.function hfound (by simp))
  | some param, some m, some m', harg =>
      refine h.bind harg fun value hvalue => h.bind (h.bindParam hfound hvalue) fun _ _ => ?_
      exact h.enterBody hbody name hP (.function hfound (List.forall_mem_singleton.mpr hvalue))

theorem apply (hbody : ∀ k e, P e → Rel k V (runBody e) (runBody' e)) (name : String)
    {arg arg' : Option (EvalM Expr)} (harg : ArgsRelated Rel (k + 1) V arg arg') {found : Expr}
    (hfound : V found) : Rel (k + 1) V (apply settings runBody name arg found)
      (ExprLang.apply settings' runBody' name arg' found) := by
  cases found with
  | fn loc param body => exact h.callFunction hbody name hfound harg
  | builtin loc operation missing supplied => exact h.callBuiltin hfound harg
  | _ => exact h.raise _

/-! ### Sequences -/

theorem evalSequence {es : List Expr} (hes : ∀ e ∈ es, Rel k V (evalWith settings runBody e)
      (evalWith settings' runBody' e)) {last : Expr} (hlast : V last) :
    Rel k V (evalSequence settings runBody last es)
      (ExprLang.evalSequence settings' runBody' last es) := by
  induction es generalizing last with
  | nil => exact h.pure hlast
  | cons e es ih =>
      rw [ExprLang.evalSequence, ExprLang.evalSequence]
      obtain ⟨he, hes⟩ := List.forall_mem_cons.mp hes
      exact h.bind he fun value hvalue => ih hes hvalue

theorem evalItems {es : List Expr} (hes : ∀ e ∈ es, Rel k V (evalWith settings runBody e)
      (evalWith settings' runBody' e)) :
    Rel k (∀ value ∈ ·, V value) (evalItems settings runBody es)
      (ExprLang.evalItems settings' runBody' es) := by
  induction es with
  | nil => exact h.pure (by simp)
  | cons e es ih =>
      rw [ExprLang.evalItems, ExprLang.evalItems]
      obtain ⟨he, hes⟩ := List.forall_mem_cons.mp hes
      refine h.bind he fun value hvalue => h.bind (ih hes) fun values hvalues => ?_
      exact h.pure (List.forall_mem_cons.mpr ⟨hvalue, hvalues⟩)

theorem evalProgram {loc : Option Loc} {all es : List Expr} (hall : P (.program loc all))
    (hes : ∀ e ∈ es, Rel k V (evalWith settings runBody e) (evalWith settings' runBody' e)) :
    Rel k V (evalProgram settings runBody es) (ExprLang.evalProgram settings' runBody' es) := by
  induction es with
  | nil => exact h.pure (h.valued.endOfProgram hall)
  | cons e es ih =>
      rw [ExprLang.evalProgram, ExprLang.evalProgram]
      obtain ⟨he, hes⟩ := List.forall_mem_cons.mp hes
      exact h.bind he fun value hvalue => h.bind (h.setLast hall hvalue) fun _ _ => ih hes

theorem binding {loc : Option Loc} {name : String} {bound : Expr} (he : P (.binding loc name bound))
    {m m' : EvalM Expr} (hm : Rel (k + 1) V m m') :
    Rel (k + 1) V
      (do
        let value ← m
        if settings.tracing then
          log ["let", name, "=", value.display, "depth", toString (← get).scope.depth]
        EvalM.bindName name value
        return value)
      (do
        let value ← m'
        if settings'.tracing then
          log ["let", name, "=", value.display, "depth", toString (← get).scope.depth]
        EvalM.bindName name value
        return value) := by
  refine h.bind hm fun value hvalue => ?_
  have htrace : Logs (do
      log ["let", name, "=", value.display, "depth", toString (← get).scope.depth]) :=
    fun s => ⟨_, rfl⟩
  exact h.traced htrace (h.bind (h.bindName he hvalue) fun _ _ => h.pure hvalue)

/-! ### Trees -/

/-- Evaluations of one tree are related if the runnings of bodies are. -/
theorem evalWith (hbody : ∀ k e, P e → Rel k V (runBody e) (runBody' e)) {e : Expr} (he : P e)
    (k : Nat) :
    Rel k V (evalWith settings runBody e) (ExprLang.evalWith settings' runBody' e) := by
  have hparts : ∀ {e : Expr}, P e → ∀ part ∈ e.parts, P part := h.valued.parts
  induction e generalizing k with
  | int | str | bool | null | endOfProgram | fn | builtin =>
      rw [ExprLang.evalWith, ExprLang.evalWith]
      exact h.inFrame _ (h.pure (h.valued.settled trivial he))
  | ident loc name =>
      rw [ExprLang.evalWith, ExprLang.evalWith]
      exact h.inFrame _ (h.lookup he)
  | list loc items ih =>
      rw [ExprLang.evalWith, ExprLang.evalWith]
      have hitems := h.evalItems fun e hmem => ih e hmem (hparts he e hmem) (k + 1)
      exact h.inFrame _ (h.bind hitems fun values hvalues => h.pure (h.valued.list hvalues))
  | block loc exprs ih =>
      rw [ExprLang.evalWith, ExprLang.evalWith]
      exact h.inFrame _ (h.evalSequence (fun e hmem => ih e hmem (hparts he e hmem) (k + 1))
        h.valued.null)
  | program loc exprs ih =>
      rw [ExprLang.evalWith, ExprLang.evalWith]
      have hexprs := h.evalProgram he fun e hmem => ih e hmem (hparts he e hmem) (k + 1)
      exact h.inFrame _ hexprs
  | binding loc name value ih =>
      rw [ExprLang.evalWith, ExprLang.evalWith]
      have hvalue : P value := hparts he value (by simp [Expr.parts])
      exact h.inFrame _ (h.binding he (ih hvalue (k + 1)))
  | choice loc test yes no ihTest ihYes ihNo =>
      rw [ExprLang.evalWith, ExprLang.evalWith]
      have htest : P test := hparts he test (by simp [Expr.parts])
      have hyes : P yes := hparts he yes (by simp [Expr.parts])
      have hno : P no := hparts he no (by simp [Expr.parts])
      have hcond := h.bind (ihTest htest (k + 1)) fun value _ => h.conditionValue .choice value
      exact h.inFrame _ (h.bind hcond fun holds _ =>
        Congruence.ite holds (ihYes hyes (k + 1)) (ihNo hno (k + 1)))
  | loop loc test body ihTest ihBody =>
      rw [ExprLang.evalWith, ExprLang.evalWith]
      have htest : P test := hparts he test (by simp [Expr.parts])
      have hbody : P body := hparts he body (by simp [Expr.parts])
      have hcond := h.bind (ihTest htest (k + 1)) fun value _ => h.conditionValue .loop value
      exact h.inFrame _ (h.repeatWhile hcond (ihBody hbody (k + 1)))
  | bareCall loc callee ih =>
      rw [ExprLang.evalWith, ExprLang.evalWith]
      have hcallee : P callee := hparts he callee (by simp [Expr.parts])
      have hargs : ArgsRelated Rel (k + 1) V none none := trivial
      exact h.inFrame _ (h.bind (ih hcallee (k + 1)) fun found hfound =>
        h.apply hbody _ hargs hfound)
  | call loc callee arg ihCallee ihArg =>
      rw [ExprLang.evalWith, ExprLang.evalWith]
      have hcallee : P callee := hparts he callee (by simp [Expr.parts])
      have harg : P arg := hparts he arg (by simp [Expr.parts])
      have hargs : ArgsRelated Rel (k + 1) V (some (ExprLang.evalWith settings runBody arg))
          (some (ExprLang.evalWith settings' runBody' arg)) := ihArg harg (k + 1)
      exact h.inFrame _ (h.bind (ihCallee hcallee (k + 1)) fun found hfound =>
        h.apply hbody _ hargs hfound)

end

end Congruence

end ExprLang
