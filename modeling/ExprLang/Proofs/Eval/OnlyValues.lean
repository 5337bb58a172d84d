import ExprLang.Proofs.Eval.Invariant
import ExprLang.Proofs.Expr.Plain
import ExprLang.Proofs.Scope.Values

/-!
# Only values come of evaluation

One type holds syntax and values, and lists, functions and built-ins are both. Evaluation keeps them
apart: whatever it returns is a value, and so is whatever it leaves in the state, whichever way it
ends (`evaluate_keepsValues`). The bodies of functions stay the syntax that they are. Of trees this
asks only that their built-ins hold values.
-/

namespace ExprLang

open EvalM

/-! ## Values all the way down -/

/-- A built-in that holds values. -/
def Expr.HoldsValues : Expr → Prop
  | .builtin _ _ _ supplied => ∀ e ∈ supplied, IsValue e
  | _ => True

/-- A tree in which all built-ins hold values, those in the bodies of functions as well. -/
abbrev WellSupplied : Expr → Prop := Everywhere Expr.HoldsValues

/-- A value in which all built-ins hold values, those in the bodies of its functions as well. -/
structure IsSoundValue (e : Expr) : Prop where
  value : IsValue e
  supplied : WellSupplied e

theorem IsValue.members {loc : Option Loc} {items : List Expr} (h : IsValue (.list loc items)) :
    ∀ e ∈ items, IsValue e := by
  cases h with
  | list _ hitems => exact hitems

theorem IsValue.holdsValues {e : Expr} (h : IsValue e) : e.HoldsValues := by
  cases h with
  | builtin _ _ _ hsupplied => exact hsupplied
  | _ => trivial

namespace IsSoundValue

theorem leaf {e : Expr} (hvalue : IsValue e) (hparts : e.parts = []) : IsSoundValue e :=
  ⟨hvalue, .leaf hvalue.holdsValues hparts⟩

theorem list {items : List Expr} (h : ∀ e ∈ items, IsSoundValue e) :
    IsSoundValue (.list none items) :=
  ⟨.list none fun e hmem => (h e hmem).value, .of_parts trivial fun e hmem =>
    (h e hmem).supplied⟩

/-- What a built-in holds are sound values. -/
theorem held {loc : Option Loc} {name : String} {missing : Nat} {supplied : List Expr}
    (h : WellSupplied (.builtin loc name missing supplied)) : ∀ e ∈ supplied, IsSoundValue e :=
  fun e hmem => ⟨h.node e hmem, h.parts e hmem⟩

/-- A built-in that holds sound values is one. -/
theorem builtin (loc : Option Loc) (name : String) (missing : Nat) {supplied : List Expr}
    (h : ∀ e ∈ supplied, IsSoundValue e) :
    IsSoundValue (.builtin loc name missing supplied) := by
  have hvalues : ∀ e ∈ supplied, IsValue e := fun e hmem => (h e hmem).value
  exact ⟨.builtin loc name missing hvalues, .of_parts hvalues fun e hmem => (h e hmem).supplied⟩

end IsSoundValue

/-- A tree whose built-ins hold values and that stands for itself is a value. -/
theorem WellSupplied.sound {e : Expr} (h : WellSupplied e) (hsettled : e.Settled) :
    IsSoundValue e := by
  refine ⟨?_, h⟩
  cases e with
  | int loc value => exact .int loc value
  | str loc text => exact .str loc text
  | bool loc value => exact .bool loc value
  | null => exact .null
  | endOfProgram => exact .endOfProgram
  | fn loc param body => exact .fn loc param body
  | builtin loc name missing supplied => exact .builtin loc name missing h.node
  | _ => exact absurd hsettled not_false

/-- A built-in that gets one more sound value is a sound value. -/
theorem IsSoundValue.supply {loc : Option Loc} {name : String} {missing : Nat}
    {supplied : List Expr} {arg : Expr} (hfound : IsSoundValue (.builtin loc name missing supplied))
    (harg : IsSoundValue arg) (missing' : Nat) :
    IsSoundValue (.builtin none name missing' (supplied ++ [arg])) := by
  refine .builtin _ _ _ (List.forall_mem_append.mpr ⟨held hfound.supplied, ?_⟩)
  exact List.forall_mem_singleton.mpr harg

/-- Trees whose built-ins hold values are evaluated to sound values. -/
theorem valued_sound : Valued WellSupplied IsSoundValue where
  members := fun h e hmem => ⟨h.value.members e hmem, h.supplied.parts e hmem⟩
  supplied := fun h => IsSoundValue.held h.supplied
  null := .leaf .null rfl
  int := fun value => .leaf (.int none value) rfl
  str := fun text => .leaf (.str none text) rfl
  bool := fun value => .leaf (.bool none value) rfl
  list := IsSoundValue.list
  supply := fun hfound harg => hfound.supply harg _
  parts := Everywhere.parts
  settled := fun hsettled h => h.sound hsettled
  body := fun h => h.supplied.parts _ List.mem_cons_self
  endOfProgram := fun _ => .leaf .endOfProgram rfl

/-! ## States that hold only values -/

/-- A call on record of a sound value with such arguments. -/
structure CallRecord.Sound (call : CallRecord) : Prop where
  callee : IsSoundValue call.callee
  args : ∀ a ∈ call.args, IsSoundValue a

theorem CallRecord.Sound.of_onRecord {call : CallRecord} (h : OnRecord IsSoundValue call) :
    call.Sound :=
  ⟨h.callee fun hfound harg => hfound.supply harg 0, h.args valued_sound.toValueClosed⟩

/-- A state with only values in it: bound to names, on record of calls, and as the last top-level
value. -/
structure RunState.OnlyValues (s : RunState) : Prop where
  scope : s.scope.Each IsSoundValue
  calls : ∀ call ∈ s.calls, call.Sound
  last : ∀ value, s.last = some value → IsSoundValue value

namespace RunState.OnlyValues

theorem withScope {s : RunState} (h : s.OnlyValues) {scope : ScopeStack}
    (hscope : scope.Each IsSoundValue) : OnlyValues { s with scope := scope } :=
  ⟨hscope, h.calls, h.last⟩

end RunState.OnlyValues

/-- No step of an evaluation lets anything but values into the state. -/
theorem onlyValues_stable (settings : Settings) :
    Stable settings WellSupplied IsSoundValue (fun _ => RunState.OnlyValues) fun _ => True where
  valued := valued_sound
  enter := fun hs => hs.withScope hs.scope.enter
  exit := fun hs => hs.withScope hs.scope.exit
  pushFloor := fun hs => ⟨hs.scope, hs.calls, hs.last⟩
  popFloor := fun hs => ⟨hs.scope, hs.calls, hs.last⟩
  pushCall := fun hcall hs =>
    ⟨hs.scope, List.forall_mem_cons.mpr ⟨.of_onRecord hcall, hs.calls⟩, hs.last⟩
  popCall := fun hs =>
    ⟨hs.scope, fun call hmem => hs.calls call (List.mem_of_mem_tail hmem), hs.last⟩
  logged := fun _ hs => ⟨hs.scope, hs.calls, hs.last⟩
  setLast := fun _ hvalue hs =>
    ⟨hs.scope, hs.calls, fun _ hlast => Option.some.inj hlast ▸ hvalue⟩
  resolve := fun hs hvalue => hs.scope.resolve hvalue
  bindName := fun _ _ hvalue => Safely.bindName _ _ (fun _ => trivial)
    fun hs hbind => hs.withScope (hs.scope.rebind hvalue hbind)
  bindParam := fun _ _ hvalue => Safely.onScope (fun _ => trivial)
    fun hs hbind => hs.withScope (hs.scope.bindOuter hvalue hbind)
  runBuiltin := fun hfilled => Safely.onConsole (fun _ hs => ⟨hs.scope, hs.calls, hs.last⟩)
    (runBuiltin_keeps valued_sound.toValueClosed (hfilled.args valued_sound.toValueClosed))
    fun _ => trivial
  fault := fun _ _ => trivial
  tooDeep := trivial
  stalled := fun _ => trivial

/-- What an evaluation makes of values. -/
structure KeepsValues (settings : Settings) (e : Expr) (s : RunState) : Prop where
  /-- What it returns is a value. -/
  value : ∀ {value s'}, evaluate settings e s = .ok value s' → IsSoundValue value
  /-- What it leaves in the state are values, also where it fails. -/
  state : (final (evaluate settings e s)).OnlyValues

theorem evaluate_keepsValues (settings : Settings) {e : Expr} (he : WellSupplied e) {s : RunState}
    (hs : s.OnlyValues) : KeepsValues settings e s := by
  have hsafe := (onlyValues_stable settings).evaluate he 0
  refine ⟨fun hend => ?_, hsafe.final hs⟩
  have hvalue := hsafe s hs
  rw [hend] at hvalue
  exact hvalue.1

end ExprLang
