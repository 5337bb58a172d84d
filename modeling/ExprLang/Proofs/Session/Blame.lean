import ExprLang.Proofs.Eval.Unwinding
import ExprLang.Proofs.Operation.Failures
import ExprLang.Proofs.Reader.Anchors
import ExprLang.Proofs.Session.Step

/-!
# What a fault points at

The place of a fault is that of the innermost tree with a place among those that are under
evaluation when it is raised. In a script on a fresh session the innermost of all has one, and it is
the place of a token of the source: of the name that is unknown, of the keyword whose condition or
whose loop is at fault, and otherwise of the first token of the call that is being executed
(`fault_points_at_source`).
-/

namespace ExprLang

/-! ## The node that is at fault -/

/-- The kind of node that a fault is raised by. -/
def Fault.RaisedBy (node : Expr) : Fault → Prop
  | .unknownIdentifier name => ∃ loc, node = .ident loc name
  | .conditionNotBoolean .choice _ => ∃ loc test yes no, node = .choice loc test yes no
  | .conditionNotBoolean .loop _ | .loopLimit => ∃ loc test body, node = .loop loc test body
  | _ => ∃ loc callee arg, node = .call loc callee arg

/-- The faults of operations are raised by calls, and so are those with which calls are refused. -/
theorem Fault.Operational.raisedBy {cause : Fault} (h : cause.Operational) (loc : Option Loc)
    (callee : Expr) (arg : Option Expr) : cause.RaisedBy (.call loc callee arg) := by
  cases cause with
  | unknownIdentifier | conditionNotBoolean | loopLimit => exact absurd h not_false
  | _ => exact ⟨_, _, _, rfl⟩

theorem refusal?_raisedBy {name : String} {given : Bool} {found : Expr} {cause : Fault}
    (h : refusal? name given found = some cause) (loc : Option Loc) (callee : Expr)
    (arg : Option Expr) : cause.RaisedBy (.call loc callee arg) := by
  unfold refusal? at h
  split at h
  all_goals try split at h
  all_goals cases h
  all_goals exact ⟨_, _, _, rfl⟩

section
variable {settings : Settings}

theorem Breaks.raisedBy {ev : Evaluation} {cause : Fault} {loc : Option Loc}
    (h : Breaks settings ev (.fault cause loc)) : loc = none ∧ cause.RaisedBy ev.tree := by
  cases h with
  | unknown => exact ⟨rfl, _, rfl⟩
  | choiceTest => exact ⟨rfl, _, _, _, _, rfl⟩
  | loopTest | loopLimit => exact ⟨rfl, _, _, _, rfl⟩
  | refused _ hfault => exact ⟨rfl, refusal?_raisedBy hfault _ _ _⟩

theorem Operates.raisedBy {ev : Evaluation} {call : CallRecord} {s : RunState} {cause : Fault}
    {loc : Option Loc} {console console' : Console} (h : Operates settings ev call s)
    (hrun : runBuiltin call.name call.args console = .error (.fault cause loc) console') :
    loc = none ∧ cause.RaisedBy ev.tree := by
  obtain ⟨hcause, rfl⟩ := (runBuiltin_fails hrun).operational
  cases h with
  | full | last => exact ⟨rfl, hcause.raisedBy _ _ _⟩

/-- A fault that is raised has no place yet, and the innermost tree is of the kind that raises
it. -/
theorem FailsIn.raisedBy {ev : Evaluation} {activity : Activity} {cause : Fault} {loc : Option Loc}
    (h : FailsIn settings ev activity (.fault cause loc)) :
    loc = none ∧ ∃ node, activity.trees.getLast? = some node ∧ cause.RaisedBy node := by
  obtain ⟨inner, hlast, hraised⟩ := h.raisedAt
  cases hoperation : activity.operation with
  | some call =>
      rw [hoperation] at hraised
      obtain ⟨s, console, hoperates, hrun⟩ := hraised
      obtain ⟨hloc, hnode⟩ := hoperates.raisedBy hrun
      exact ⟨hloc, inner.tree, hlast, hnode⟩
  | none =>
      rw [hoperation] at hraised
      obtain hbreaks | ⟨hdeep, -⟩ := hraised
      · obtain ⟨hloc, hnode⟩ := hbreaks.raisedBy
        exact ⟨hloc, inner.tree, hlast, hnode⟩
      · exact absurd hdeep nofun

theorem Activity.place_of_last {activity : Activity} {node : Expr} {loc : Loc}
    (hlast : activity.trees.getLast? = some node) (hloc : node.loc? = some loc) :
    activity.place = some loc := by
  obtain ⟨around, htrees⟩ := List.getLast?_eq_some_iff.mp hlast
  unfold Activity.place
  rw [htrees, List.reverse_concat, List.findSome?_cons, hloc]

/-- A run that ends with a fault ends with it at the place of the innermost tree that has one. -/
theorem fault_place {nesting : Nat} {e : Expr} {s s' : RunState} {cause : Fault}
    {place : Option Loc} (h : evalNested settings nesting e s = .error (.fault cause place) s') :
    ∃ activity, FailsIn settings ⟨nesting, e, s⟩ activity (.ofFault cause) ∧
      place = activity.place := by
  obtain ⟨activity, raw, hin, hplace, -⟩ := unwinds_of_error nesting e h
  cases raw with
  | fault cause' loc =>
      obtain ⟨rfl, -⟩ := hin.raisedBy
      cases hplace
      exact ⟨activity, hin, rfl⟩
  | _ => exact absurd hplace nofun

end

/-! ## Places in a source -/

/-- A token of a source, at the place where the source spells it. -/
def IsTokenAt (source : String) (token : Token) (loc : Loc) : Prop :=
  ⟨token, loc⟩ ∈ (scan source.toList).lexemes ∧ Lexeme.IsIn ⟨token, loc⟩ source.toList

theorem isTokenAt_of_mem {source : String} {token : Token} {loc : Loc}
    (h : ⟨token, loc⟩ ∈ (scan source.toList).lexemes) : IsTokenAt source token loc :=
  ⟨h, scan_places source.toList _ h⟩

/-- What stands in a source at the place of a fault that a node raises. -/
def Fault.PointsAt (source : String) (node : Expr) (loc : Loc) : Fault → Prop
  | .unknownIdentifier name => node = .ident (some loc) name ∧ IsTokenAt source (.name name) loc
  | .conditionNotBoolean .choice _ =>
      (∃ test yes no, node = .choice (some loc) test yes no) ∧
        IsTokenAt source (.keyword .kwIf) loc
  | .conditionNotBoolean .loop _ | .loopLimit =>
      (∃ test body, node = .loop (some loc) test body) ∧
        IsTokenAt source (.keyword .kwWhile) loc
  | _ => (∃ callee arg, node = .call (some loc) callee arg) ∧
      ∃ token, IsTokenAt source token loc ∧
      IsCallFrom (scan source.toList).lexemes node ⟨token, loc⟩

/-- A node that stands among the tokens of a source has the place that its faults point at. -/
theorem Expr.Stands.pointsAt {source : String} {node : Expr} {cause : Fault}
    (hstands : node.Stands (scan source.toList).lexemes) (hraised : cause.RaisedBy node) :
    ∃ loc, node.loc? = some loc ∧ cause.PointsAt source node loc := by
  match cause with
  | .unknownIdentifier name =>
      obtain ⟨_, rfl⟩ := hraised
      obtain ⟨loc, rfl, hmem⟩ := hstands
      exact ⟨loc, rfl, rfl, isTokenAt_of_mem hmem⟩
  | .conditionNotBoolean .choice _ =>
      obtain ⟨_, test, yes, no, rfl⟩ := hraised
      obtain ⟨loc, rfl, hmem⟩ := hstands
      exact ⟨loc, rfl, ⟨test, yes, no, rfl⟩, isTokenAt_of_mem hmem⟩
  | .conditionNotBoolean .loop _ | .loopLimit =>
      obtain ⟨_, test, body, rfl⟩ := hraised
      obtain ⟨loc, rfl, hmem⟩ := hstands
      exact ⟨loc, rfl, ⟨test, body, rfl⟩, isTokenAt_of_mem hmem⟩
  | .wrongOperand .. | .unwantedArgument _ | .missingArgument .. | .missingOperand _
      | .notCallable _
  | .indexOutOfRange .. | .invalidDigit _ | .numeralTooLarge _ | .inputClosed | .outputClosed
  | .divisionByZero _ | .resultOutOfRange .. | .unknownBuiltin _ =>
      obtain ⟨_, callee, arg, rfl⟩ := hraised
      obtain ⟨⟨token, loc⟩, rfl, hcall⟩ := hstands
      have hmem : ⟨token, loc⟩ ∈ (scan source.toList).lexemes := by
        obtain ⟨rest, _, _, _, hheld, -⟩ := hcall
        exact hheld.subset List.mem_cons_self
      exact ⟨loc, rfl, ⟨callee, arg, rfl⟩, token, isTokenAt_of_mem hmem, hcall⟩

/-- The trees that are under evaluation when a script fails, the operations being bound to nothing
else. -/
theorem anchored_of_fails {settings : Settings} {goal : Reader.Goal} {source : String} {tree : Expr}
    {console : Console} {activity : Activity} {raw : Failure}
    (hparse : Reader.parse goal source = .ok tree)
    (hin : FailsIn settings ⟨settings.nesting, tree, (Session.start settings console).state⟩
      activity raw) :
    ∀ e ∈ activity.trees, Anchored (scan source.toList).lexemes e := by
  refine hin.inherits (hereditary_anchored _) (parse_anchored hparse) ?_
  exact List.forall_mem_singleton.mpr (builtinFrame_each fun _ => .leaf trivial rfl)

/-! ## Faults of scripts -/

/-- A fault is reported at the place of the innermost tree that has one, whatever the tree and the
state. That of a script on a fresh session is reported where the source has what the fault is
about. -/
theorem fault_points_at_source :
    (∀ settings e s cause place s', evaluate settings e s = .error (.fault cause place) s' →
      ∃ activity, FailsIn settings ⟨settings.nesting, e, s⟩ activity (.ofFault cause) ∧
        place = activity.place ∧
          (place = none ↔ ∀ tree ∈ activity.trees, tree.loc? = none)) ∧
    ∀ settings console source tree cause place s', Reader.parse .program source = .ok tree →
      evaluate settings tree (Session.start settings console).state
        = .error (.fault cause place) s' →
      ∃ loc activity node, place = some loc ∧
        ((Session.start settings console).handleScript source).1
          = .ok (.error (Report.ofFailure source s'.calls (.fault cause (some loc))) (some loc)) ∧
        FailsIn settings ⟨settings.nesting, tree, (Session.start settings console).state⟩
          activity (.ofFault cause) ∧
        activity.trees.getLast? = some node ∧ cause.PointsAt source node loc := by
  constructor
  · intro settings e s cause place s' hrun
    obtain ⟨activity, hin, hplace⟩ := fault_place hrun
    refine ⟨activity, hin, hplace, ?_⟩
    rw [hplace, Activity.place, List.findSome?_eq_none_iff]
    simp
  · intro settings console source tree cause place s' hparse hrun
    obtain ⟨activity, hin, rfl⟩ := fault_place hrun
    obtain ⟨-, node, hlast, hraised⟩ := hin.raisedBy
    have hanchored := anchored_of_fails hparse hin node (List.mem_of_getLast? hlast)
    obtain ⟨loc, hloc, hpoints⟩ := hanchored.stands.pointsAt hraised
    have hplace := Activity.place_of_last hlast hloc
    rw [hplace] at hrun
    have hfails : evaluate (Session.start settings console).settings tree
        (Session.start settings console).cleared.state = _ := hrun
    have hstep := (Session.StepsTo.failed hparse hfails).handle_eq
    exact ⟨loc, activity, node, hplace, congrArg Prod.fst hstep, hin, hlast, hpoints⟩

/-- An operation gets an operand of the wrong kind. -/
theorem fault_points_at_source_operand :
    let cause := Fault.wrongOperand "not" .boolean (.int none 7)
    let state := (Session.start {} (.ofInput "")).state
    ∃ tree s', Reader.parse .program "not(7)" = .ok tree ∧
      evaluate {} tree state = .error (.fault cause (some ⟨1, 1⟩)) s' ∧
      (∃ activity, FailsIn {} ⟨256, tree, state⟩ activity (.ofFault cause) ∧
        some ⟨1, 1⟩ = activity.place) ∧
      ∃ node, cause.PointsAt "not(7)" node ⟨1, 1⟩ := by
  intro cause state
  obtain ⟨hplace, hpoints⟩ := fault_points_at_source
  have hparse : Reader.parse .program "not(7)" = .ok (.program none
      [.call (some ⟨1, 1⟩) (.ident (some ⟨1, 1⟩) "not") (some (.int none 7))]) := by rfl
  obtain ⟨s', hrun⟩ : ∃ s', evaluate {} (.program none
      [.call (some ⟨1, 1⟩) (.ident (some ⟨1, 1⟩) "not") (some (.int none 7))]) state
        = .error (.fault cause (some ⟨1, 1⟩)) s' := ⟨_, rfl⟩
  obtain ⟨activity, hin, hactive, -⟩ := hplace {} _ state cause _ s' hrun
  obtain ⟨loc, -, node, hloc, -, -, -, hnode⟩ :=
    hpoints {} (.ofInput "") "not(7)" _ cause _ s' hparse hrun
  obtain rfl := Option.some.inj hloc
  exact ⟨_, s', hparse, hrun, ⟨activity, hin, hactive⟩, node, hnode⟩

end ExprLang
