import Mathlib
import ExprLang.Proofs.Eval.FrameLaw
import ExprLang.Proofs.Expr.Plain
import ExprLang.Proofs.Scope.Values

/-!
# What a call binds

A call binds the parameter in the frame that it is evaluated in, directly below its own. It leaves
nothing else behind: every other name stands for what it stood for before (`call_adds_param`).

A call with several arguments is a call of a call. Each of these binds one parameter, in the frame
of the call around it, and takes that frame away when it ends. So when the body is entered only the
last two parameters are bound, and an argument sees the parameter before its own
(`call_enters_body`).
-/

namespace ExprLang

open EvalM

/-! ## Names on the stack -/

namespace ScopeStack

/-- A fresh frame hides nothing. -/
theorem resolve_enter (scope : ScopeStack) : scope.enter.resolve = scope.resolve := rfl

theorem resolve_set_top (scope : ScopeStack) (name : String) (value : Expr) (other : String) :
    resolve ⟨scope.top.set name value, scope.below⟩ other
      = if other = name then some value else scope.resolve other := by
  unfold resolve frames
  rw [List.findSome?_cons, List.findSome?_cons, Frame.get?_set]
  by_cases h : other = name
  · rw [if_pos h, if_pos h]
  · rw [if_neg h, if_neg h]

end ScopeStack

/-! ## Plain expressions -/

/-- A step that leaves the frame it is given as it was. -/
theorem inFrame_eq_ok {α : Type} {m : EvalM α} {s : RunState} {value : α}
    (h : m { s with scope := s.scope.enter } = .ok value { s with scope := s.scope.enter })
    (place : Option Loc) : inFrame place m s = .ok value s := by
  unfold inFrame
  rw [h]
  rfl

section
variable {settings : Settings} {runBody : Expr → EvalM Expr}

/-- A plain expression evaluates to what it stands for, and nothing happens. -/
theorem evalWith_plain {e value : Expr} {s : RunState}
    (h : plainValue s.scope.resolve e = some value) :
    evalWith settings runBody e s = .ok value s := by
  induction e generalizing s value with
  | int | str | bool | null | endOfProgram | fn | builtin =>
      rw [plainValue] at h
      cases h
      rw [evalWith]
      exact inFrame_eq_ok rfl _
  | ident loc name =>
      rw [plainValue] at h
      rw [evalWith]
      refine inFrame_eq_ok ?_ loc
      unfold lookup
      rw [ScopeStack.resolve_enter, h]
  | list loc items ih =>
      rw [plainValue] at h
      obtain ⟨values, hvalues, rfl⟩ := Option.map_eq_some_iff.mp h
      have hitems : evalItems settings runBody items { s with scope := s.scope.enter }
          = .ok values { s with scope := s.scope.enter } := by
        clear h
        induction items generalizing values with
        | nil =>
            rw [plainValues] at hvalues
            cases hvalues
            rfl
        | cons e es ihItems =>
            obtain ⟨first, rest, rfl, hfirst, hrest⟩ := plainValues_cons_eq_some.mp hvalues
            have he := @ih e List.mem_cons_self first { s with scope := s.scope.enter } hfirst
            have hes := ihItems (fun e hmem => ih e (List.mem_cons_of_mem _ hmem)) rest hrest
            rw [evalItems, bind_apply, he]
            show (evalItems settings runBody es >>= fun values => pure (first :: values)) _ = _
            rw [bind_apply, hes]
            rfl
      rw [evalWith]
      refine inFrame_eq_ok ?_ loc
      rw [bind_apply, hitems]
      rfl
  | _ => simp [plainValue] at h

/-! ## One call -/

/-- A function with a parameter is applied by binding the value of its argument. -/
theorem apply_fn_eq (name : String) {floc : Option Loc} {param : String} {arg body value : Expr}
    {s : RunState} {frame : Frame} {under : List Frame}
    (harg : evalWith settings runBody arg s = .ok value s)
    (hbelow : s.scope.below = frame :: under) :
    apply settings runBody name (some (evalWith settings runBody arg))
    (.fn floc (some param) body) s
      = enterBody settings runBody name (.fn floc (some param) body) body [value]
          { s with scope := ⟨s.scope.top, frame.set param value :: under⟩ } := by
  show (evalWith settings runBody arg >>= fun value => bindParam param value >>= fun _ =>
    enterBody settings runBody name (.fn floc (some param) body) body [value]) s = _
  rw [bind_apply, harg]
  show (bindParam param value >>= fun _ =>
    enterBody settings runBody name (.fn floc (some param) body) body [value]) s = _
  rw [bind_apply, bindParam_eq_ok hbelow]

/-- A call of a function enters its body, with the parameter bound in the frame that the call is
evaluated in. -/
theorem evalWith_call_eq {callee arg body value : Expr} {loc floc : Option Loc} {param : String}
    {s s₁ : RunState} {frame : Frame} {under : List Frame}
    (hcallee : evalWith settings runBody callee { s with scope := s.scope.enter }
      = .ok (.fn floc (some param) body) s₁)
    (harg : evalWith settings runBody arg s₁ = .ok value s₁)
    (hbelow : s₁.scope.below = frame :: under) :
    evalWith settings runBody (.call loc callee (some arg)) s
      = inFrame loc (fun _ => enterBody settings runBody (calleeName callee)
          (.fn floc (some param) body) body [value]
          { s₁ with scope := ⟨s₁.scope.top, frame.set param value :: under⟩ }) s := by
  rw [evalWith]
  unfold inFrame
  rw [bind_apply, hcallee]
  simp only [apply_fn_eq (calleeName callee) harg hbelow]

end

/-- A stack on which a call has been evaluated, against that before it: the parameter is bound in
the top frame, and nothing else has changed. -/
structure AddsParam (param : String) (value : Expr) (before after : ScopeStack) : Prop where
  scope : after = ⟨before.top.set param value, before.below⟩
  bound : after.resolve param = some value
  others : ∀ name, name ≠ param → after.resolve name = before.resolve name

theorem AddsParam.of_eq {param : String} {value : Expr} {before after : ScopeStack}
    (h : after = ⟨before.top.set param value, before.below⟩) :
    AddsParam param value before after := by
  refine ⟨h, ?_, fun name hname => ?_⟩
  · rw [h, ScopeStack.resolve_set_top, if_pos rfl]
  · rw [h, ScopeStack.resolve_set_top, if_neg hname]

/-- **A call disturbs no name but the parameter.** However it ends, in the frame that it was
evaluated in the parameter stands for the argument, and all other names stand for what they did. -/
theorem call_adds_param (settings : Settings) {s : RunState} {callee arg body : Expr}
    (loc : Option Loc) {floc : Option Loc} {param : String}
    (hcallee : plainValue s.scope.resolve callee = some (.fn floc (some param) body))
    (harg : IsValue arg) : ∃ value, plainValue s.scope.resolve arg = some value ∧
      AddsParam param value s.scope
        (final (evaluate settings (.call loc callee (some arg)) s)).scope := by
  obtain ⟨value, hvalue⟩ := harg.plainValue_eq_some s.scope.resolve
  refine ⟨value, hvalue, AddsParam.of_eq ?_⟩
  have hframes : ({ s with scope := s.scope.enter } : RunState).scope.below
      = s.scope.top :: s.scope.below := rfl
  rw [evaluate_eq, evalWith_call_eq (evalWith_plain hcallee) (evalWith_plain hvalue) hframes]
  -- the frame of the call is on top of that of the caller, and the body has left the latter alone
  have hbelow := @enterBody_below settings _ (runBodies_frameSafe settings settings.nesting)
    (calleeName callee) (.fn floc (some param) body) body [value] { s with
      scope := ⟨.empty, s.scope.top.set param value :: s.scope.below⟩ }
  refine (congrArg RunState.scope (final_inFrame loc _ s)).trans ?_
  exact ScopeStack.exit_of_below hbelow

/-- The call of a function from a literal, where the parameter is the name of a variable of the
caller. -/
theorem call_adds_param_literal :
    let s := RunState.initial (.ofRoot (.ofList [("x", .int none 1), ("y", .int none 3)]))
      (.ofInput "")
    let fn : Expr := .fn none (some "x") (.block none [.ident none "x"])
    (plainValue s.scope.resolve fn = some fn ∧ IsValue (.int none 2)) ∧
      ∃ value, plainValue s.scope.resolve (.int none 2) = some value ∧
        AddsParam "x" value s.scope
        (final (evaluate {} (.call none fn (some (.int none 2))) s)).scope := by
  intro s fn
  have hcallee : plainValue s.scope.resolve fn = some fn := rfl
  exact ⟨⟨hcallee, .int none 2⟩, call_adds_param {} none hcallee (.int none 2)⟩

/-- A variable of the caller that goes by the name of the parameter is overwritten, if it is bound
in the frame that the call is evaluated in. -/
theorem call_overwrites_namesake :
    ¬ ∀ (settings : Settings) (s : RunState) (loc floc : Option Loc)
    (param : String) (body arg : Expr), IsValue arg →
      ∀ name value, s.scope.resolve name = some value →
        (final (evaluate settings (.call loc (.fn floc (some param) body) (some arg))
          s)).scope.resolve
          name = some value := by
  intro h
  let s := RunState.initial (.ofRoot (.ofList [("x", .int none 1)])) (.ofInput "")
  let body : Expr := .block none [.ident none "x"]
  have hafter : (final (evaluate { nesting := 1 } (.call none (.fn none (some "x") body)
      (some (.int none 2))) s)).scope.resolve "x" = some (.int none 2) := by
    simp only [s, body]
    cbv
  have hbefore := h { nesting := 1 } s none none "x" body (.int none 2) (.int none 2) "x"
    (.int none 1) rfl
  rw [hafter] at hbefore
  simp at hbefore

/-! ## Calls with several arguments -/

/-- An argument of a call: the parameter that it is bound to, its expression, and its value. -/
structure Argument where
  param : String
  expr : Expr
  value : Expr

/-- What names stand for where an argument, if there is one, has been bound last. -/
def withArgument (resolve : String → Option Expr) : Option Argument → String → Option Expr
  | none, name => resolve name
  | some a, name => if name = a.param then some a.value else resolve name

/-- The stack with an argument, if there is one, bound in the top frame. -/
def ScopeStack.withArgument (scope : ScopeStack) : Option Argument → ScopeStack
  | none => scope
  | some a => ⟨scope.top.set a.param a.value, scope.below⟩

theorem ScopeStack.resolve_withArgument (scope : ScopeStack) (last : Option Argument) :
    (scope.withArgument last).resolve = ExprLang.withArgument scope.resolve last := by
  funext name
  cases last with
  | none => rfl
  | some a => exact scope.resolve_set_top a.param a.value name

theorem ScopeStack.below_withArgument (scope : ScopeStack) (last : Option Argument) :
    (scope.withArgument last).below = scope.below := by
  cases last with
  | none => rfl
  | some a => rfl

/-- Arguments have their values one after the other. Each sees what the caller sees and, on top of
that, the parameter before its own. -/
def ValuedInTurn (resolve : String → Option Expr) : Option Argument → List Argument → Prop
  | _, [] => True
  | last, a :: rest =>
      plainValue (withArgument resolve last) a.expr = some a.value ∧
        ValuedInTurn resolve (some a) rest

theorem ValuedInTurn.append {resolve : String → Option Expr} {last : Option Argument}
    {args more : List Argument} (h : ValuedInTurn resolve last (args ++ more)) :
    ValuedInTurn resolve last args ∧ ValuedInTurn resolve (args.getLast?.or last) more := by
  induction args generalizing last with
  | nil => exact ⟨trivial, h⟩
  | cons a rest ih =>
      obtain ⟨hvalue, hrest⟩ := h
      obtain ⟨hargs, hmore⟩ := ih hrest
      rw [List.getLast?_cons, Option.some_or, ← Option.or_some]
      exact ⟨⟨hvalue, hargs⟩, hmore⟩

/-- A function of some parameters and one more. -/
theorem Expr.curried_concat (params : List String) (param : String) (body : Expr) :
    curried (params ++ [param]) body
      = (params ++ [param]).foldr (fun param body => .fn none (some param) body) body := by
  cases params with
  | nil => rfl
  | cons first rest => rfl

/-- A call with some arguments and one more. -/
theorem Expr.applied_concat (loc : Loc) (callee : Expr) (args : List Expr) (arg : Expr) :
    applied loc callee (args ++ [arg]) = call (some loc)
      (args.foldl (fun callee arg => call (some loc) callee (some arg)) callee) (some arg) := by
  cases args with
  | nil => rfl
  | cons first rest => simp [applied, List.foldl_append]

/-- Running a body that is a function gives that function. -/
def RunsFunctions (runBody : Expr → EvalM Expr) : Prop :=
  ∀ loc param body s, runBody (.fn loc param body) s = .ok (.fn loc param body) s

/-- Where names stand for what `resolve` says, a callee evaluates to a function. An argument may be
left bound in the frame of the evaluation; else only the log may change. -/
def Leads (settings : Settings) (resolve : String → Option Expr) (callee found : Expr)
    (last : Option Argument) : Prop :=
  ∃ trace : Console → Console, ∀ runBody, RunsFunctions runBody → ∀ s : RunState,
    s.scope.resolve = resolve → evalWith settings runBody callee s
      = .ok found { s with scope := s.scope.withArgument last, console := trace s.console }

section
variable {settings : Settings} {resolve : String → Option Expr}

theorem Leads.of_plain {callee found : Expr} (h : plainValue resolve callee = some found) :
    Leads settings resolve callee found none := by
  refine ⟨id, fun runBody _ s hs => evalWith_plain ?_⟩
  rw [hs]
  exact h

/-- Entering a body that is a function gives that function. -/
theorem enterBody_function (settings : Settings) (name : String) (callee : Expr) (loc : Option Loc)
    (param : Option String) (body : Expr) (args : List Expr) : ∃ trace : Console → Console,
    ∀ runBody, RunsFunctions runBody → ∀ s : RunState,
      enterBody settings runBody name callee (.fn loc param body) args s
        = .ok (.fn loc param body) { s with console := trace s.console } := by
  have hrun : ∀ runBody, RunsFunctions runBody → ∀ s : RunState,
      recorded ⟨name, callee, args⟩ (aboveFloor (runBody (.fn loc param body))) s
        = .ok (.fn loc param body) s := by
    intro runBody hruns s
    unfold recorded aboveFloor
    rw [hruns]
    rfl
  unfold enterBody
  cases settings.tracing with
  | false => exact ⟨id, fun runBody hruns s => hrun runBody hruns s⟩
  | true =>
      exact ⟨fun console => console.logLine _, fun runBody hruns s => hrun runBody hruns _⟩

/-- A call enters the body of the function that its callee leads to. The argument is bound in the
frame that the call is evaluated in, and the argument before it in that of the call. -/
theorem Leads.enters {callee body : Expr} {floc : Option Loc} {last : Option Argument}
    {a : Argument} (h : Leads settings resolve callee (.fn floc (some a.param) body) last)
    (harg : plainValue (withArgument resolve last) a.expr = some a.value) (loc : Option Loc) :
    ∃ trace : Console → Console, ∀ runBody, RunsFunctions runBody → ∀ s : RunState,
      s.scope.resolve = resolve → evalWith settings runBody (.call loc callee (some a.expr)) s
        = inFrame loc (fun _ => enterBody settings runBody (calleeName callee)
            (.fn floc (some a.param) body) body [a.value] { s with
              scope := (s.scope.withArgument (some a)).enter.withArgument last
              console := trace s.console }) s := by
  obtain ⟨trace, hcallee⟩ := h
  refine ⟨trace, fun runBody hruns s hs => ?_⟩
  have hfound := hcallee runBody hruns { s with scope := s.scope.enter } hs
  have hvalue : ∀ s₁ : RunState, s₁.scope = s.scope.enter.withArgument last →
      evalWith settings runBody a.expr s₁ = .ok a.value s₁ := by
    intro s₁ hscope
    refine evalWith_plain ?_
    rw [hscope, ScopeStack.resolve_withArgument, ScopeStack.resolve_enter, hs]
    exact harg
  rw [evalWith_call_eq hfound (hvalue _ rfl) (ScopeStack.below_withArgument _ last)]
  cases last with
  | none => rfl
  | some b => rfl

/-- A call that leads to a function leaves its argument bound, and none before it. -/
theorem Leads.call {callee body : Expr} {floc floc' : Option Loc} {param' : Option String}
    {last : Option Argument} {a : Argument}
    (h : Leads settings resolve callee (.fn floc (some a.param) (.fn floc' param' body)) last)
    (harg : plainValue (withArgument resolve last) a.expr = some a.value) (loc : Option Loc) :
    Leads settings resolve (.call loc callee (some a.expr)) (.fn floc' param' body) (some a) := by
  obtain ⟨trace, hcall⟩ := h.enters harg loc
  obtain ⟨trace', henter⟩ := enterBody_function settings (calleeName callee)
    (.fn floc (some a.param) (.fn floc' param' body)) floc' param' body [a.value]
  refine ⟨fun console => trace' (trace console), fun runBody hruns s hs => ?_⟩
  rw [hcall runBody hruns s hs]
  unfold inFrame
  rw [henter runBody hruns]
  -- the frame of the call goes, and with it the argument that was bound there
  have hexit : ((s.scope.withArgument (some a)).enter.withArgument last).exit
      = s.scope.withArgument (some a) := by
    cases last with
    | none => rfl
    | some b => rfl
  simp only [hexit]

/-- Calls that lead to a function of one more parameter leave the last of their arguments bound. -/
theorem Leads.calls {callee body : Expr} {param : String} (loc : Option Loc) {args : List Argument}
    {last : Option Argument}
    (h : Leads settings resolve callee ((args.map Argument.param ++ [param]).foldr
      (fun param body => .fn none (some param) body) body) last)
    (hargs : ValuedInTurn resolve last args) :
    Leads settings resolve (args.foldl (fun callee a => .call loc callee (some a.expr)) callee)
      (.fn none (some param) body) (args.getLast?.or last) := by
  induction args generalizing callee last with
  | nil => exact h
  | cons a rest ih =>
      obtain ⟨hvalue, hrest⟩ := hargs
      obtain ⟨param', body', hinner⟩ : ∃ param' body',
        (rest.map Argument.param ++ [param]).foldr
          (fun param body => Expr.fn none (some param) body) body
            = .fn none (some param') body' := by
        cases rest with
        | nil => exact ⟨param, body, rfl⟩
        | cons b rest => exact ⟨b.param, _, rfl⟩
      have hcall : Leads settings resolve (.call loc callee (some a.expr))
          ((rest.map Argument.param ++ [param]).foldr
            (fun param body => .fn none (some param) body) body) (some a) := by
        rw [hinner]
        rw [List.map_cons, List.cons_append, List.foldr_cons, hinner] at h
        exact h.call hvalue loc
      rw [List.getLast?_cons, Option.some_or, ← Option.or_some]
      exact ih hcall hrest

end

/-- The evaluation of a call enters a body in a state: however bodies are run that are no functions,
what is left of the evaluation is the running of this body there. -/
def EntersBody (settings : Settings) (call : Expr) (s : RunState) (body : Expr) (start : RunState) :
    Prop :=
  ∃ loc name callee args, ∀ runBody, RunsFunctions runBody → evalWith settings runBody call s
    = inFrame loc (fun _ => enterBody settings runBody name callee body args start) s

theorem runBodies_runsFunctions (settings : Settings) (nesting : Nat) :
    RunsFunctions (runBodies settings (nesting + 1)) := by
  intro loc param body s
  show evalNested settings nesting (.fn loc param body) s = _
  rw [evalNested_eq]
  exact evalWith_plain rfl

/-- Where calls may nest at all, this is the evaluation of the call itself. -/
theorem EntersBody.evaluate {settings : Settings} {call body : Expr} {s start : RunState}
    (h : EntersBody settings call s body start) (hnesting : 0 < settings.nesting) :
    ∃ loc name callee args, evaluate settings call s = inFrame loc (fun _ =>
      enterBody settings (runBodies settings settings.nesting) name callee body args start) s := by
  obtain ⟨loc, name, callee, args, henters⟩ := h
  obtain ⟨nesting, hsucc⟩ := Nat.exists_eq_add_one_of_ne_zero (Nat.ne_of_gt hnesting)
  have hruns : RunsFunctions (runBodies settings settings.nesting) := by
    rw [hsucc]
    exact runBodies_runsFunctions settings nesting
  refine ⟨loc, name, callee, args, ?_⟩
  rw [evaluate_eq]
  exact henters _ hruns

/-- **A call with several arguments binds the last two.** The body is entered where the last two
parameters stand for the values of their arguments, and any other name, that of a parameter before
them too, for what it stands for in the scope of the caller. -/
theorem call_enters_body (settings : Settings) {s : RunState} (loc : Loc) {callee body : Expr}
    {earlier : List Argument} {x y : Argument}
    (hcallee : plainValue s.scope.resolve callee
      = some (.curried ((earlier ++ [x, y]).map Argument.param) body))
    (hargs : ValuedInTurn s.scope.resolve none (earlier ++ [x, y])) :
    ∃ start,
      EntersBody settings (.applied loc callee ((earlier ++ [x, y]).map Argument.expr)) s body
        start ∧
        start.scope.resolve x.param = some x.value ∧
        (y.param ≠ x.param → start.scope.resolve y.param = some y.value) ∧
        ∀ name, name ≠ x.param → name ≠ y.param →
          start.scope.resolve name = s.scope.resolve name := by
  have hsplit : earlier ++ [x, y] = (earlier ++ [x]) ++ [y] := by simp
  rw [hsplit] at hcallee hargs
  rw [hsplit]
  rw [List.map_append, List.map_singleton, Expr.curried_concat] at hcallee
  obtain ⟨hbefore, hlast, -⟩ := hargs.append
  have hplain : Leads settings s.scope.resolve callee _ none := Leads.of_plain hcallee
  have hleads := hplain.calls (some loc) hbefore
  rw [List.getLast?_concat, Option.some_or] at hleads hlast
  obtain ⟨trace, henters⟩ := hleads.enters hlast (some loc)
  refine ⟨{ s with
    scope := (s.scope.withArgument (some y)).enter.withArgument (some x)
    console := trace s.console }, ?_, ?_⟩
  · rw [List.map_append, List.map_singleton, Expr.applied_concat, List.foldl_map]
    exact ⟨some loc, _, _, _, fun runBody hruns => henters runBody hruns s rfl⟩
  · -- the parameters lie in the two frames at the top, that of `x` in the upper one
    simp only [ScopeStack.resolve_withArgument, ScopeStack.resolve_enter]
    refine ⟨if_pos rfl, fun hne => ?_, fun name hx hy => ?_⟩
    · exact (if_neg hne).trans (if_pos rfl)
    · exact (if_neg hx).trans (if_neg hy)

/-- A function of three parameters that is called with literals. -/
theorem call_enters_body_of_three :
    let s := RunState.initial (.ofRoot .empty) (.ofInput "")
    let body : Expr := .block none [.ident none "c"]
    let callee : Expr := .curried ["a", "b", "c"] body
    let args : List Argument :=
      [⟨"a", .int none 1, .int none 1⟩, ⟨"b", .int none 2, .int none 2⟩,
        ⟨"c", .int none 3, .int none 3⟩]
    (plainValue s.scope.resolve callee = some callee ∧ ValuedInTurn s.scope.resolve none args) ∧
      ∃ start,
        EntersBody {} (.applied ⟨1, 1⟩ callee (args.map Argument.expr)) s body start ∧
        start.scope.resolve "b" = some (.int none 2) ∧
          start.scope.resolve "c" = some (.int none 3) ∧
        start.scope.resolve "a" = none := by
  intro s body callee args
  have hcallee : plainValue s.scope.resolve callee = some callee := rfl
  have hargs : ValuedInTurn s.scope.resolve none args := ⟨rfl, rfl, rfl, trivial⟩
  obtain ⟨start, henters, hx, hy, hothers⟩ := @call_enters_body {} s ⟨1, 1⟩ callee body
    [⟨"a", .int none 1, .int none 1⟩] ⟨"b", .int none 2, .int none 2⟩
      ⟨"c", .int none 3, .int none 3⟩
    hcallee hargs
  exact ⟨⟨hcallee, hargs⟩, start, henters, hx, hy (by decide),
    hothers "a" (by decide) (by decide)⟩

/-- A running of bodies that looks a name up, whatever the body is, unless it is a function. -/
def lookingFor (name : String) : Expr → EvalM Expr
  | .fn loc param body => pure (.fn loc param body)
  | _ => lookup name

/-- What a body between braces finds when it is entered. -/
theorem enterBody_lookingFor {name : String} {value : Expr} {start : RunState}
    (h : start.scope.resolve name = some value) (callName : String) (callee : Expr)
    (loc : Option Loc) (exprs args : List Expr) :
    enterBody {} (lookingFor name) callName callee (.block loc exprs) args start
      = .ok value start := by
  have hlookup : ∀ s : RunState, s.scope = start.scope → lookup name s = .ok value s := by
    intro s hs
    unfold lookup
    rw [hs, h]
  show recorded ⟨callName, callee, args⟩ (aboveFloor (lookup name)) start = _
  unfold recorded aboveFloor
  simp only [hlookup]
  rfl

/-- Whether a step ends with a value. -/
def succeeds {α : Type} : EStateM.Result Failure RunState α → Bool
  | .ok _ _ => true
  | .error _ _ => false

/-- Of three parameters the first is not there when the body is entered. -/
theorem call_of_three_loses_first : ¬ ∀ (settings : Settings) (s : RunState) (loc : Loc)
    (callee : Expr) (place : Option Loc) (exprs : List Expr) (args : List Argument),
      2 ≤ args.length → (args.map Argument.param).Nodup →
      plainValue s.scope.resolve callee
        = some (.curried (args.map Argument.param) (.block place exprs)) →
      (∀ a ∈ args, plainValue s.scope.resolve a.expr = some a.value) →
      ∃ start, EntersBody settings (.applied loc callee (args.map Argument.expr)) s
          (.block place exprs) start ∧
        ∀ a ∈ args, start.scope.resolve a.param = some a.value := by
  intro h
  obtain ⟨start, ⟨loc, name, fn, values, henters⟩, hparams⟩ := h {}
    (.initial (.ofRoot .empty) (.ofInput "")) ⟨1, 1⟩
    (.curried ["a", "b", "c"] (.block none [.ident none "a"])) none [.ident none "a"]
    [⟨"a", .int none 1, .int none 1⟩, ⟨"b", .int none 2, .int none 2⟩,
      ⟨"c", .int none 3, .int none 3⟩]
    (by decide) (by decide) rfl (by simp [plainValue])
  have hfirst : start.scope.resolve "a" = some (.int none 1) :=
    hparams ⟨"a", .int none 1, .int none 1⟩ List.mem_cons_self
  -- were the first parameter there, a body that looks it up would succeed
  have hlost : succeeds (evalWith {} (lookingFor "a")
      (.applied ⟨1, 1⟩ (.curried ["a", "b", "c"] (.block none [.ident none "a"]))
        [.int none 1, .int none 2, .int none 3])
      (.initial (.ofRoot .empty) (.ofInput ""))) = false := by
    cbv
  have hsame := henters (lookingFor "a") fun _ _ _ _ => rfl
  simp only [List.map_cons, List.map_nil, inFrame, enterBody_lookingFor hfirst] at hsame
  rw [hsame] at hlost
  cases hlost

end ExprLang
