import Mathlib
import ExprLang.Proofs.Operation.Renamed
import ExprLang.Proofs.Scope.Renamed

/-!
# Names do not matter

If all names of a tree and of the values on the stack are replaced by others, and no two become one,
nothing changes but the names (`evaluate_renamed`): the tree comes to the renamed value, or it fails
in the same way and at the same place, the same is read and written, and the stack is left as it
would be left, under the new names.

What is bound at first is bound under its new name too; what a built-in is called stays, for it is
no name of the program but the tag of an operation.
-/

namespace ExprLang

open EvalM

/-! ## States under other names -/

/-- What is called, and with which arguments. -/
def CallRecord.content (call : CallRecord) : Expr × List Expr :=
  (call.callee, call.args)

/-- A call under other names. -/
def CallRecord.renamed (rename : String → String) (call : CallRecord) : CallRecord :=
  ⟨rename call.name, call.callee.renamed rename, call.args.map (Expr.renamed rename)⟩

/-- A state is another one under other names. -/
structure RunState.Renamed (rename : String → String) (s t : RunState) : Prop where
  /-- The frames bind the renamed names to the renamed values. -/
  scope : t.scope = s.scope.renamed rename
  floors : t.floors = s.floors
  /-- The calls on record are of the renamed values. What they go by is not told. -/
  calls : t.calls.map CallRecord.content = s.calls.map fun call => (call.renamed rename).content
  last : t.last = s.last.map (Expr.renamed rename)
  /-- The same has been read and written. -/
  console : s.console.SameText t.console

/-- The state with other names. -/
def RunState.renamed (rename : String → String) (s : RunState) : RunState where
  scope := s.scope.renamed rename
  floors := s.floors
  calls := s.calls.map (CallRecord.renamed rename)
  last := s.last.map (Expr.renamed rename)
  console := s.console

theorem RunState.renamed_renamed (rename : String → String) (s : RunState) :
    s.Renamed rename (s.renamed rename) := by
  exact ⟨rfl, rfl, List.map_map, rfl, rfl⟩

/-- Two states of one run under different names. The values on the stack are values all the way
down. -/
structure Mirrored (rename : String → String) (s t : RunState) : Prop where
  renamed : s.Renamed rename t
  values : s.scope.Each IsSoundValue

/-- Two values that are one under different names. -/
structure Twins (rename : String → String) (value value' : Expr) : Prop where
  sound : IsSoundValue value
  renamed : value' = value.renamed rename

/-- Two steps that do the same under different names. -/
def Mirrors (rename : String → String) {α : Type} (U : α → α → Prop)
    (m m' : EvalM α) : Prop :=
  ∀ s t, Mirrored rename s t → SameEnd rename U (Mirrored rename) (m s) (m' t)

namespace Mirrored

variable {rename : String → String} {s t : RunState} (h : Mirrored rename s t)
include h

theorem withScope {scope scope' : ScopeStack} (hscope : scope' = scope.renamed rename)
    (hvalues : scope.Each IsSoundValue) :
    Mirrored rename { s with scope := scope } { t with scope := scope' } :=
  ⟨⟨hscope, h.renamed.floors, h.renamed.calls, h.renamed.last, h.renamed.console⟩, hvalues⟩

theorem withFloors (floors : List Nat) :
    Mirrored rename { s with floors := floors } { t with floors := floors } :=
  ⟨⟨h.renamed.scope, rfl, h.renamed.calls, h.renamed.last, h.renamed.console⟩, h.values⟩

theorem withCalls {calls calls' : List CallRecord}
    (hcalls : calls'.map CallRecord.content = calls.map fun call => (call.renamed rename).content) :
    Mirrored rename { s with calls := calls } { t with calls := calls' } :=
  ⟨⟨h.renamed.scope, h.renamed.floors, hcalls, h.renamed.last, h.renamed.console⟩, h.values⟩

theorem withConsole {console console' : Console} (hconsole : console.SameText console') :
    Mirrored rename { s with console := console } { t with console := console' } :=
  ⟨⟨h.renamed.scope, h.renamed.floors, h.renamed.calls, h.renamed.last, hconsole⟩, h.values⟩

theorem depth : t.scope.depth = s.scope.depth := by
  rw [h.renamed.scope, ScopeStack.depth_renamed]

/-- What is traced is no matter. -/
theorem logged (line line' : String) : Mirrored rename (s.logged line) (t.logged line') :=
  h.withConsole (congrArg (Console.logLine · line) h.renamed.console)

end Mirrored

/-! ## Steps under other names -/

namespace Mirrors

variable {rename : String → String} {α β : Type} {U : α → α → Prop}
  {U' : β → β → Prop}

theorem pure {a b : α} (h : U a b) : Mirrors rename U (Pure.pure a) (Pure.pure b) :=
  fun _ _ hs => .ok h hs

theorem throw {failure failure' : Failure} (h : failure.Renamed rename failure') :
    Mirrors rename U (throw failure : EvalM α) (throw failure') :=
  fun _ _ hs => .error h hs

theorem raise {cause cause' : Fault} (h : cause.Renamed rename cause') :
    Mirrors rename U (raise cause : EvalM α) (raise cause') :=
  throw (.ofFault h)

theorem bind {m m' : EvalM α} {f f' : α → EvalM β} (hm : Mirrors rename U m m')
    (hf : ∀ a b, U a b → Mirrors rename U' (f a) (f' b)) :
    Mirrors rename U' (m >>= f) (m' >>= f') := by
  intro s t hs
  rw [bind_apply, bind_apply]
  -- both steps end in the same way, so the next ones begin together or not at all
  match m s, m' t, hm s t hs with
  | _, _, .ok hvalue hs' => exact hf _ _ hvalue _ _ hs'
  | _, _, .error hfailure hs' => exact .error hfailure hs'

theorem ite {m m' n n' : EvalM α} (test : Bool) (hm : Mirrors rename U m m')
    (hn : Mirrors rename U n n') :
    Mirrors rename U (if test then m else n) (if test then m' else n') := by
  cases test with
  | true => exact hm
  | false => exact hn

theorem bracket {start stop halt start' stop' halt' : RunState → RunState}
    {mark : Failure → Failure} {m m' : EvalM α}
    (hstart : ∀ {s t}, Mirrored rename s t → Mirrored rename (start s) (start' t))
    (hstop : ∀ {s t}, Mirrored rename s t → Mirrored rename (stop s) (stop' t))
    (hhalt : ∀ {s t}, Mirrored rename s t → Mirrored rename (halt s) (halt' t))
    (hmark : ∀ {failure failure'}, failure.Renamed rename failure' →
      (mark failure).Renamed rename (mark failure'))
    (hm : Mirrors rename U m m') :
    Mirrors rename U (bracket start stop halt mark m) (bracket start' stop' halt' mark m') := by
  intro s t hs
  unfold EvalM.bracket
  match m (start s), m' (start' t), hm _ _ (hstart hs) with
  | _, _, .ok hvalue hs' => exact .ok hvalue (hstop hs')
  | _, _, .error hfailure hs' => exact .error (hmark hfailure) (hhalt hs')

theorem inFrame (place : Option Loc) {m m' : EvalM α} (hm : Mirrors rename U m m') :
    Mirrors rename U (inFrame place m) (inFrame place m') := by
  rw [inFrame_eq_bracket, inFrame_eq_bracket]
  have hexit : ∀ {s t}, Mirrored rename s t →
      Mirrored rename { s with scope := s.scope.exit } { t with scope := t.scope.exit } := by
    intro s t hs
    refine hs.withScope ?_ hs.values.exit
    rw [hs.renamed.scope, ScopeStack.renamed_exit]
  have henter : ∀ {s t}, Mirrored rename s t →
      Mirrored rename { s with scope := s.scope.enter } { t with scope := t.scope.enter } := by
    intro s t hs
    refine hs.withScope ?_ hs.values.enter
    rw [hs.renamed.scope, ScopeStack.renamed_enter]
  exact bracket henter hexit hexit (fun h => h.locate place) hm

theorem aboveFloor {m m' : EvalM α} (hm : Mirrors rename U m m') :
    Mirrors rename U (aboveFloor m) (aboveFloor m') := by
  rw [aboveFloor_eq_bracket, aboveFloor_eq_bracket]
  have hpop : ∀ {s t}, Mirrored rename s t →
      Mirrored rename { s with floors := s.floors.tail } { t with floors := t.floors.tail } := by
    intro s t hs
    rw [hs.renamed.floors]
    exact hs.withFloors _
  refine bracket (fun {s t} hs => ?_) hpop hpop (fun h => h) hm
  rw [hs.depth, hs.renamed.floors]
  exact hs.withFloors _

/-- A failure leaves the call on either record. -/
theorem recorded {call call' : CallRecord} (hcall : call'.content = (call.renamed rename).content)
    {m m' : EvalM α} (hm : Mirrors rename U m m') :
    Mirrors rename U (recorded call m) (recorded call' m') := by
  rw [recorded_eq_bracket, recorded_eq_bracket]
  have hpop : ∀ {s t}, Mirrored rename s t →
      Mirrored rename { s with calls := s.calls.tail } { t with calls := t.calls.tail } := by
    intro s t hs
    refine hs.withCalls ?_
    rw [List.map_tail, List.map_tail, hs.renamed.calls]
  -- the record is compared by what is called and with what, never by the names that calls go by
  refine bracket (fun {s t} hs => hs.withCalls ?_) hpop id (fun h => h) hm
  rw [List.map_cons, List.map_cons, hcall, hs.renamed.calls]

/-- What is traced is told under either names, and makes no difference. -/
theorem traced (tracing : Bool) {trace trace' : EvalM Unit} (htrace : Logs trace)
    (htrace' : Logs trace') {m m' : EvalM α} (hm : Mirrors rename U m m') :
    Mirrors rename U (if tracing then trace >>= fun _ => m else m)
      (if tracing then trace' >>= fun _ => m' else m') := by
  refine ite tracing (bind (U := fun _ _ => True) ?_ fun _ _ _ => hm) hm
  intro s t hs
  obtain ⟨line, hline⟩ := htrace s
  obtain ⟨line', hline'⟩ := htrace' t
  rw [hline, hline']
  exact .ok trivial (hs.logged line line')

/-- Loops go the same way if their tests and their bodies do. -/
theorem repeatWhile {U : Expr → Expr → Prop} {settings : Settings} {test test' : EvalM Bool}
    {body body' : EvalM Expr} (htest : Mirrors rename Eq test test')
    (hbody : Mirrors rename U body body') (tests done : Nat) {last last' : Expr}
    (hlast : U last last') : Mirrors rename U (repeatWhile settings test body tests done last)
      (ExprLang.repeatWhile settings test' body' tests done last') := by
  induction tests generalizing done last last' with
  | zero => exact throw .stalled
  | succ tests ih =>
      refine bind htest ?_
      rintro holds _ rfl
      refine ite holds ?_ (pure hlast)
      refine ite (settings.capReached done) (raise (.nameless trivial)) ?_
      exact bind hbody fun value value' hvalue => ih (done + 1) hvalue

/-! ### Steps on the stack and the console -/

section
variable (hrename : Function.Injective rename)
include hrename

theorem lookup (name : String) :
    Mirrors rename (Twins rename) (lookup name) (lookup (rename name)) := by
  intro s t hs
  unfold EvalM.lookup
  rw [hs.renamed.scope, ScopeStack.resolve_renamed hrename]
  cases hvalue : s.scope.resolve name with
  | some value => exact .ok ⟨hs.values.resolve hvalue, rfl⟩ hs
  | none => exact .error (.ofFault (.unknownIdentifier name)) hs

omit hrename in
theorem onScope {f f' : ScopeStack → Except ScopeError ScopeStack}
    (hf : ∀ scope, f' (scope.renamed rename) = match f scope with
      | .ok scope => .ok (scope.renamed rename)
      | .error e => .error ⟨rename e.name⟩)
    (hvalues : ∀ {scope scope'}, scope.Each IsSoundValue → f scope = .ok scope' →
      scope'.Each IsSoundValue) :
    Mirrors rename (fun _ _ => True) (onScope f) (onScope f') := by
  intro s t hs
  unfold EvalM.onScope
  rw [hs.renamed.scope, hf]
  cases hbind : f s.scope with
  | ok scope => exact .ok trivial (hs.withScope rfl (hvalues hs.values hbind))
  | error e => exact .error (.scope e) hs

theorem bindParam (param : String) {value value' : Expr} (hvalue : Twins rename value value') :
    Mirrors rename (fun _ _ => True) (bindParam param value) (bindParam (rename param) value') := by
  obtain ⟨hsound, rfl⟩ := hvalue
  exact onScope (fun scope => scope.bindOuter_renamed hrename param value)
    fun heach hbind => heach.bindOuter hsound hbind

theorem bindName (name : String) {value value' : Expr} (hvalue : Twins rename value value') :
    Mirrors rename (fun _ _ => True) (bindName name value) (bindName (rename name) value') := by
  obtain ⟨hsound, rfl⟩ := hvalue
  intro s t hs
  unfold EvalM.bindName
  rw [hs.renamed.floors]
  exact onScope (fun scope => scope.rebind_renamed hrename name value _)
    (fun heach hbind => heach.rebind hsound hbind) s t hs

end

theorem setLast {value value' : Expr} (hvalue : Twins rename value value') :
    Mirrors rename (fun _ _ => True) (setLast value) (setLast value') := by
  intro s t hs
  obtain ⟨hsound, rfl⟩ := hvalue
  exact .ok trivial
    ⟨⟨hs.renamed.scope, hs.renamed.floors, hs.renamed.calls, rfl, hs.renamed.console⟩,
    hs.values⟩

theorem operation (name : String) {args : List Expr} (hargs : ∀ a ∈ args, IsSoundValue a) :
    Mirrors rename (Twins rename) (onConsole (runBuiltin name args))
      (onConsole (runBuiltin name (args.map (Expr.renamed rename)))) := by
  intro s t hs
  have hrun : SameEnd rename _ _ _ _ :=
    runBuiltin_renamed name (fun a hmem => (hargs a hmem).value) hs.renamed.console
  unfold onConsole
  match hend : runBuiltin name args s.console,
      runBuiltin name (args.map (Expr.renamed rename)) t.console, hrun with
  | _, _, .ok hvalue hconsole =>
      exact .ok ⟨runBuiltin_keeps valued_sound.toValueClosed hargs hend, hvalue⟩
        (hs.withConsole hconsole)
  | _, _, .error hfailure hconsole => exact .error hfailure (hs.withConsole hconsole)

end Mirrors

/-! ## Evaluation under other names -/

section
variable {rename : String → String} (hrename : Function.Injective rename) {settings : Settings}
  {runBody : Expr → EvalM Expr}

/-- Arguments of calls that mirror each other: two steps, or none on either side. -/
def MirroredArgs (rename : String → String) : Option (EvalM Expr) → Option (EvalM Expr) → Prop
  | some m, some m' => Mirrors rename (Twins rename) m m'
  | none, none => True
  | _, _ => False

/-- Bodies of functions mirror their renamed selves. -/
def MirrorsBodies (rename : String → String) (runBody : Expr → EvalM Expr) : Prop :=
  ∀ body, WellSupplied body →
    Mirrors rename (Twins rename) (runBody body) (runBody (body.renamed rename))

namespace Mirrors

theorem conditionValue (construct : Construct) {value value' : Expr}
    (hvalue : Twins rename value value') :
    Mirrors rename Eq (conditionValue construct value)
    (ExprLang.conditionValue construct value') := by
  obtain ⟨⟨hisValue, -⟩, rfl⟩ := hvalue
  have hnot : (Fault.conditionNotBoolean construct value).Renamed rename
      (.conditionNotBoolean construct (value.renamed rename)) :=
        .conditionNotBoolean construct hisValue
  cases hisValue with
  | bool loc value => exact pure rfl
  | int | str | null | endOfProgram | fn | builtin | list => exact raise hnot

/-! ### Calls -/

theorem invoke (loc : Option Loc) (name : String) {args : List Expr}
    (hargs : ∀ a ∈ args, IsSoundValue a) :
    Mirrors rename (Twins rename) (invoke settings (.builtin loc name 0 args) name args)
      (ExprLang.invoke settings (.builtin loc name 0 (args.map (Expr.renamed rename))) name
        (args.map (Expr.renamed rename))) := by
  have hcontent : CallRecord.content ⟨name, .builtin loc name 0 (args.map (Expr.renamed rename)),
      args.map (Expr.renamed rename)⟩
        = (CallRecord.renamed rename ⟨name, .builtin loc name 0 args, args⟩).content := by
    simp only [CallRecord.content, CallRecord.renamed, Expr.renamed, Expr.renamedAll_eq]
  have hrun := recorded hcontent (operation name hargs)
  exact traced settings.tracing (fun s => ⟨_, rfl⟩) (fun s => ⟨_, rfl⟩) hrun

theorem callBuiltin {loc : Option Loc} {name : String} {missing : Nat} {supplied : List Expr}
    (hsupplied : ∀ e ∈ supplied, IsSoundValue e) {arg arg' : Option (EvalM Expr)}
    (harg : MirroredArgs rename arg arg') : Mirrors rename (Twins rename)
      (callBuiltin settings (.builtin loc name missing supplied) name missing supplied arg)
      (ExprLang.callBuiltin settings
        (.builtin loc name missing (supplied.map (Expr.renamed rename))) name
        missing (supplied.map (Expr.renamed rename)) arg') := by
  match missing, arg, arg', harg with
  | 0, _, _, _ => exact invoke loc name hsupplied
  | missing + 1, none, none, _ => exact raise (.nameless trivial)
  | missing + 1, some m, some m', harg =>
      refine bind harg ?_
      rintro value _ ⟨hsound, rfl⟩
      have hsupplied' : ∀ e ∈ supplied ++ [value], IsSoundValue e :=
        List.forall_mem_append.mpr ⟨hsupplied, List.forall_mem_singleton.mpr hsound⟩
      have hmap : supplied.map (Expr.renamed rename) ++ [value.renamed rename]
          = (supplied ++ [value]).map (Expr.renamed rename) := by simp
      rw [Expr.supply, Expr.supply, hmap]
      cases missing with
      | zero => exact invoke none name hsupplied'
      | succ missing =>
          refine pure ⟨.builtin none name (missing + 1) hsupplied', ?_⟩
          simp only [Expr.renamed, Expr.renamedAll_eq]

theorem enterBody (hbody : MirrorsBodies rename runBody) (name name' : String) {loc : Option Loc}
    {param : Option String} {body : Expr} (hP : WellSupplied body) (args : List Expr) :
    Mirrors rename (Twins rename) (enterBody settings runBody name (.fn loc param body) body args)
      (ExprLang.enterBody settings runBody name' ((Expr.fn loc param body).renamed rename)
        (body.renamed rename) (args.map (Expr.renamed rename))) := by
  have hcontent : CallRecord.content ⟨name', (Expr.fn loc param body).renamed rename,
      args.map (Expr.renamed rename)⟩
        = (CallRecord.renamed rename ⟨name, .fn loc param body, args⟩).content := rfl
  exact traced settings.tracing (fun s => ⟨_, rfl⟩) (fun s => ⟨_, rfl⟩)
    (recorded hcontent (aboveFloor (hbody body hP)))

section
variable (hrename : Function.Injective rename)
include hrename

theorem callFunction (hbody : MirrorsBodies rename runBody) (callee : Expr) {loc : Option Loc}
    {param : Option String} {body : Expr} (hP : WellSupplied body) {arg arg' : Option (EvalM Expr)}
    (harg : MirroredArgs rename arg arg') : Mirrors rename (Twins rename)
      (callFunction settings runBody (calleeName callee) (.fn loc param body) param body arg)
      (ExprLang.callFunction settings runBody (calleeName (callee.renamed rename))
        ((Expr.fn loc param body).renamed rename) (param.map rename)
        (body.renamed rename) arg') := by
  match param, arg, arg', harg with
  | none, some _, some _, _ => exact raise (.unwantedArgument callee)
  | some param, none, none, _ => exact raise (.missingArgument callee param)
  | none, none, none, _ => exact enterBody hbody _ _ hP []
  | some param, some m, some m', harg =>
      refine bind harg fun value value' hvalue =>
        bind (bindParam hrename param hvalue) fun _ _ _ => ?_
      obtain ⟨-, rfl⟩ := hvalue
      exact enterBody hbody _ _ hP [value]

theorem apply (hbody : MirrorsBodies rename runBody) (callee : Expr)
    {arg arg' : Option (EvalM Expr)} (harg : MirroredArgs rename arg arg') {found found' : Expr}
    (hfound : Twins rename found found') :
    Mirrors rename (Twins rename) (apply settings runBody (calleeName callee) arg found)
      (ExprLang.apply settings runBody (calleeName (callee.renamed rename)) arg' found') := by
  obtain ⟨⟨hvalue, hsupplied⟩, rfl⟩ := hfound
  -- a refused call shows the value, and functions are shown as marks
  have hrefused : (Fault.notCallable found).Renamed rename (.notCallable (found.renamed rename)) :=
    .notCallable hvalue
  cases hvalue with
  | fn loc param body =>
      exact callFunction hrename hbody callee (hsupplied.parts _ List.mem_cons_self) harg
  | builtin loc name missing _ =>
      rw [Expr.renamed, Expr.renamedAll_eq]
      exact callBuiltin (IsSoundValue.held hsupplied) harg
  | int | str | bool | null | endOfProgram | list => exact raise hrefused

end

/-! ### Sequences -/

/-- Trees mirror their renamed selves. -/
def Tree (settings : Settings) (rename : String → String) (runBody : Expr → EvalM Expr)
    (e : Expr) : Prop :=
  Mirrors rename (Twins rename) (evalWith settings runBody e)
    (evalWith settings runBody (e.renamed rename))

theorem evalSequence {es : List Expr} (hes : ∀ e ∈ es, Tree settings rename runBody e)
    {last last' : Expr} (hlast : Twins rename last last') : Mirrors rename (Twins rename)
      (evalSequence settings runBody last es)
      (ExprLang.evalSequence settings runBody last' (es.map (Expr.renamed rename))) := by
  induction es generalizing last last' with
  | nil => exact pure hlast
  | cons e es ih =>
      rw [List.map_cons, ExprLang.evalSequence, ExprLang.evalSequence]
      obtain ⟨he, hes⟩ := List.forall_mem_cons.mp hes
      exact bind he fun value value' hvalue => ih hes hvalue

theorem evalItems {es : List Expr} (hes : ∀ e ∈ es, Tree settings rename runBody e) :
    Mirrors rename (fun values values' => (∀ value ∈ values, IsSoundValue value) ∧
        values' = values.map (Expr.renamed rename)) (evalItems settings runBody es)
      (ExprLang.evalItems settings runBody (es.map (Expr.renamed rename))) := by
  induction es with
  | nil => exact pure ⟨by simp, rfl⟩
  | cons e es ih =>
      rw [List.map_cons, ExprLang.evalItems, ExprLang.evalItems]
      obtain ⟨he, hes⟩ := List.forall_mem_cons.mp hes
      refine bind he ?_
      rintro value _ ⟨hsound, rfl⟩
      refine bind (ih hes) ?_
      rintro values _ ⟨hvalues, rfl⟩
      exact pure ⟨List.forall_mem_cons.mpr ⟨hsound, hvalues⟩, rfl⟩

theorem evalProgram {es : List Expr} (hes : ∀ e ∈ es, Tree settings rename runBody e) :
    Mirrors rename (Twins rename) (evalProgram settings runBody es)
      (ExprLang.evalProgram settings runBody (es.map (Expr.renamed rename))) := by
  induction es with
  | nil => exact pure ⟨.leaf .endOfProgram rfl, rfl⟩
  | cons e es ih =>
      rw [List.map_cons, ExprLang.evalProgram, ExprLang.evalProgram]
      obtain ⟨he, hes⟩ := List.forall_mem_cons.mp hes
      exact bind he fun value value' hvalue => bind (setLast hvalue) fun _ _ _ => ih hes

/-! ### Trees -/

/-- A tree mirrors its renamed self if the bodies of functions do. -/
theorem tree (hrename : Function.Injective rename) (hbody : MirrorsBodies rename runBody) {e : Expr}
    (he : WellSupplied e) : Tree settings rename runBody e := by
  unfold Tree
  induction e with
  | int | str | bool | null | endOfProgram =>
      rw [Expr.renamed, evalWith]
      exact inFrame _ (pure ⟨he.sound trivial, rfl⟩)
  | fn loc param body =>
      rw [Expr.renamed, evalWith, evalWith]
      exact inFrame _ (pure ⟨he.sound trivial, rfl⟩)
  | builtin loc name missing supplied =>
      rw [Expr.renamed, evalWith, evalWith]
      exact inFrame _ (pure ⟨he.sound trivial, rfl⟩)
  -- here it matters that no two names become one: the name has to be found where it was found
  | ident loc name =>
      rw [Expr.renamed, evalWith, evalWith]
      exact inFrame _ (lookup hrename name)
  | list loc items ih =>
      rw [Expr.renamed, Expr.renamedAll_eq, evalWith, evalWith]
      refine inFrame _ (bind (evalItems fun e hmem => ih e hmem (he.parts e hmem)) ?_)
      rintro values _ ⟨hvalues, rfl⟩
      refine pure ⟨.list hvalues, ?_⟩
      rw [Expr.renamed, Expr.renamedAll_eq]
  | block loc exprs ih =>
      rw [Expr.renamed, Expr.renamedAll_eq, evalWith, evalWith]
      exact inFrame _ (evalSequence (fun e hmem => ih e hmem (he.parts e hmem))
        ⟨.leaf .null rfl, rfl⟩)
  | program loc exprs ih =>
      rw [Expr.renamed, Expr.renamedAll_eq, evalWith, evalWith]
      exact inFrame _ (evalProgram fun e hmem => ih e hmem (he.parts e hmem))
  | binding loc name value ih =>
      rw [Expr.renamed, evalWith, evalWith]
      have hvalue : WellSupplied value := he.parts value (by simp [Expr.parts])
      refine inFrame _ (bind (ih hvalue) fun value value' hvalue => ?_)
      exact traced settings.tracing (fun s => ⟨_, rfl⟩) (fun s => ⟨_, rfl⟩)
        (bind (bindName hrename name hvalue) fun _ _ _ => pure hvalue)
  | choice loc test yes no ihTest ihYes ihNo =>
      rw [Expr.renamed, evalWith, evalWith]
      have htest : WellSupplied test := he.parts test (by simp [Expr.parts])
      have hyes : WellSupplied yes := he.parts yes (by simp [Expr.parts])
      have hno : WellSupplied no := he.parts no (by simp [Expr.parts])
      refine inFrame _ (bind (bind (ihTest htest) fun _ _ => conditionValue .choice) ?_)
      rintro holds _ rfl
      exact ite holds (ihYes hyes) (ihNo hno)
  | loop loc test body ihTest ihBody =>
      rw [Expr.renamed, evalWith, evalWith]
      have htest : WellSupplied test := he.parts test (by simp [Expr.parts])
      have hbody : WellSupplied body := he.parts body (by simp [Expr.parts])
      have hcond := bind (ihTest htest) fun _ _ => conditionValue .loop
      exact inFrame _ (repeatWhile hcond (ihBody hbody) settings.tests 0 ⟨.leaf .null rfl, rfl⟩)
  | bareCall loc callee ih =>
      rw [Expr.renamed, evalWith, evalWith]
      have hcallee : WellSupplied callee := he.parts callee (by simp [Expr.parts])
      have hargs : MirroredArgs rename none none := trivial
      exact inFrame _ (bind (ih hcallee) fun _ _ => apply hrename hbody callee hargs)
  | call loc callee arg ihCallee ihArg =>
      rw [Expr.renamed, evalWith, evalWith]
      have hcallee : WellSupplied callee := he.parts callee (by simp [Expr.parts])
      have harg : WellSupplied arg := he.parts arg (by simp [Expr.parts])
      have hargs : MirroredArgs rename (some (evalWith settings runBody arg))
          (some (evalWith settings runBody (arg.renamed rename))) := ihArg harg
      exact inFrame _ (bind (ihCallee hcallee) fun _ _ => apply hrename hbody callee hargs)

theorem runBodies (hrename : Function.Injective rename) (settings : Settings) (nesting : Nat) :
    MirrorsBodies rename (runBodies settings nesting) := by
  induction nesting with
  | zero => exact fun _ _ => throw .tooDeep
  | succ nesting ih =>
      intro body hbody
      show Mirrors rename _ (evalNested settings nesting body) (evalNested settings nesting _)
      rw [evalNested_eq]
      exact tree hrename ih hbody

theorem evaluate (hrename : Function.Injective rename) (settings : Settings) {e : Expr}
    (he : WellSupplied e) :
    Mirrors rename (Twins rename) (evaluate settings e)
    (ExprLang.evaluate settings (e.renamed rename)) := by
  rw [evaluate_eq]
  exact tree hrename (runBodies hrename settings _) he

end Mirrors

end

/-- Two ends of an evaluation that are one under different names. -/
structure EndsTheSame (rename : String → String)
    (result result' : EStateM.Result Failure RunState Expr) : Prop where
  /-- A value is renamed, and so is the state that is left. -/
  value : ∀ {value s'}, result = .ok value s' →
    ∃ t', result' = .ok (value.renamed rename) t' ∧ s'.Renamed rename t'
  /-- A failure is of the same class and at the same place, and its text is another one only if it
  tells a name. -/
  failure : ∀ {failure s'}, result = .error failure s' →
    ∃ failure' t', result' = .error failure' t' ∧ failure.Renamed rename failure' ∧
      failure'.className = failure.className ∧
      Report.failureLoc? failure' = Report.failureLoc? failure ∧
      (failure.TellsNames ∨ failure'.message = failure.message) ∧ s'.Renamed rename t'

/-- **Names do not matter**: a tree under other names does, in a state under these names, what the
tree does in the state. -/
theorem evaluate_renamed {rename : String → String} (hrename : Function.Injective rename)
    (settings : Settings) {e : Expr} (he : WellSupplied e) {s : RunState}
    (hs : s.scope.Each IsSoundValue) : EndsTheSame rename (evaluate settings e s)
      (evaluate settings (e.renamed rename) (s.renamed rename)) := by
  have hend := Mirrors.evaluate hrename settings he s _ ⟨s.renamed_renamed rename, hs⟩
  constructor
  · intro value s' hresult
    rw [hresult] at hend
    match hend' : evaluate settings (e.renamed rename) (s.renamed rename), hend with
    | _, .ok hvalue hstate =>
        obtain ⟨-, rfl⟩ := hvalue
        exact ⟨_, rfl, hstate.renamed⟩
  · intro failure s' hresult
    rw [hresult] at hend
    match hend' : evaluate settings (e.renamed rename) (s.renamed rename), hend with
    | _, .error hfailure hstate =>
        exact ⟨_, _, rfl, hfailure, hfailure.className, hfailure.place, hfailure.message,
          hstate.renamed⟩

/-- A sum is printed that a name was bound to, and the operations are bound to other names as
well. -/
theorem evaluate_renamed_print :
    let rename := fun name => name ++ "x"
    let printed := Expr.call none (.ident none "print") (some (.ident none "y"))
    let tree := Expr.block none [.binding none "y" (.int none 3), printed]
    let state := RunState.initial (.ofRoot builtinFrame) (.ofInput "")
    let settings : Settings := { nesting := 0, patience := 0 }
    tree.renamed rename = .block none [.binding none "yx" (.int none 3),
        .call none (.ident none "printx") (some (.ident none "yx"))] ∧
      ∃ t, evaluate settings (tree.renamed rename) (state.renamed rename) = .ok .null t ∧
        t.console.output = "3" := by
  intro rename printed tree state settings
  have hrename : Function.Injective rename := fun _ _ h => String.append_left_inj _ |>.mp h
  have hleaf : ∀ name, WellSupplied (.ident none name) := fun _ => .leaf trivial rfl
  have hprinted : WellSupplied printed :=
    .of_parts trivial (List.forall_mem_cons.mpr
      ⟨hleaf _, List.forall_mem_singleton.mpr (hleaf _)⟩)
  have hbinding : WellSupplied (.binding none "y" (.int none 3)) :=
    .of_parts trivial (List.forall_mem_singleton.mpr (.leaf trivial rfl))
  have htree : WellSupplied tree :=
    .of_parts trivial (List.forall_mem_cons.mpr
      ⟨hbinding, List.forall_mem_singleton.mpr hprinted⟩)
  have hstate : state.scope.Each IsSoundValue :=
    List.forall_mem_singleton.mpr (builtinFrame_each fun operation =>
      .builtin _ _ _ fun _ hmem => absurd hmem List.not_mem_nil)
  obtain ⟨s', hrun, houtput⟩ :
      ∃ s', evaluate settings tree state = .ok .null s' ∧ s'.console.output = "3" := by
    simp only [tree, printed, state, settings]
    exact ⟨_, by cbv, by cbv⟩
  obtain ⟨t, hrenamed, hstate'⟩ := (evaluate_renamed hrename settings htree hstate).value hrun
  refine ⟨by simp [tree, printed, rename, Expr.renamed], t, hrenamed, ?_⟩
  have hsame : { t.console with log := s'.console.log } = s'.console := hstate'.console
  rw [← houtput, ← hsame]

end ExprLang
