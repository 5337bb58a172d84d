import ExprLang.Operation

/-!
# The state of a run

A run changes five things: the scope, the floors that keep `let` out of the callers' frames, the
record of active calls, the last top-level value, and the console. Three brackets say how an
evaluation gives back what it took: its frame and its floor always, but its call record only when it
succeeds, so that after a failure the record shows the calls that were active. The stack of the host
that runs all this is taken to be as deep as it has to be; what a run may exhaust is
`Settings.nesting`.
-/

namespace ExprLang

/-- The choices that a run is made with. -/
structure Settings where
  /-- How often one loop may run its body, if there is a cap. -/
  loopCap : Option Int := none
  /-- Whether the run is traced on the log. -/
  tracing : Bool := false
  /-- How deeply calls of user functions may nest. -/
  nesting : Nat := 256
  /-- How often one loop without a cap may test its condition. -/
  patience : Nat := 4611686018427387904

namespace Settings

/-- Whether a loop that has run its body so often may not run it again. -/
def capReached (settings : Settings) (done : Nat) : Bool :=
  match settings.loopCap with
  | some cap => cap ≤ done
  | none => false

/-- How often one loop may test its condition: under a cap, once more than it may run its body. -/
def tests (settings : Settings) : Nat :=
  match settings.loopCap with
  | some cap => cap.toNat + 1
  | none => settings.patience

end Settings

/-- A call that is being executed: the name it goes by, what is called and with which arguments. -/
structure CallRecord where
  name : String
  callee : Expr
  args : List Expr

/-- The state of a run. -/
structure RunState where
  scope : ScopeStack
  /-- For each active user call, the lowest frame that its `let`s may rebind in; innermost first. -/
  floors : List Nat
  /-- The calls being executed, the innermost first. -/
  calls : List CallRecord
  /-- The value of the latest top-level expression of a program. -/
  last : Option Expr
  console : Console

/-- The state before a run. -/
def RunState.initial (scope : ScopeStack) (console : Console) : RunState :=
  ⟨scope, [], [], none, console⟩

/-- Steps of a run. -/
abbrev EvalM := EStateM Failure RunState

namespace EvalM

/-! ## Brackets -/

/-- Ends the run with a fault. -/
def raise {α : Type} (fault : Fault) : EvalM α :=
  throw (.ofFault fault)

/-- A step inside a frame of its own. The frame is taken away again however the step ends, which
supposes that the host has the room to do so, and a fault without a place takes the one given. -/
def inFrame {α : Type} (place : Option Loc) (act : EvalM α) : EvalM α := fun s =>
  match act { s with scope := s.scope.enter } with
  | .ok value s => .ok value { s with scope := s.scope.exit }
  | .error failure s => .error (failure.locate place) { s with scope := s.scope.exit }

/-- A step whose `let`s stay in the frames above those that are there now. -/
def aboveFloor {α : Type} (act : EvalM α) : EvalM α := fun s =>
  match act { s with floors := s.scope.depth :: s.floors } with
  | .ok value s => .ok value { s with floors := s.floors.tail }
  | .error failure s => .error failure { s with floors := s.floors.tail }

/-- A step that is on the record while it is executed. A failure leaves it there. -/
def recorded {α : Type} (call : CallRecord) (act : EvalM α) : EvalM α := fun s =>
  match act { s with calls := call :: s.calls } with
  | .ok value s => .ok value { s with calls := s.calls.tail }
  | .error failure s => .error failure s

/-! ## Steps on one part of the state -/

/-- A step on the console alone. -/
def onConsole {α : Type} (act : ConsoleM α) : EvalM α := fun s =>
  match act s.console with
  | .ok value console => .ok value { s with console := console }
  | .error failure console => .error failure { s with console := console }

/-- A step on the scope alone, which may be refused. -/
def onScope (f : ScopeStack → Except ScopeError ScopeStack) : EvalM Unit := fun s =>
  match f s.scope with
  | .ok scope => .ok () { s with scope := scope }
  | .error e => .error (.scope e) s

/-- Binds a parameter directly below the frame of the call. -/
def bindParam (name : String) (value : Expr) : EvalM Unit :=
  onScope (·.bindOuter name value)

/-- Binds a name as `let` does, not under the floor of the innermost user call. -/
def bindName (name : String) (value : Expr) : EvalM Unit := fun s =>
  onScope (·.rebind name value (s.floors.headD 0)) s

/-- The value that a name stands for. -/
def lookup (name : String) : EvalM Expr := fun s =>
  match s.scope.resolve name with
  | some value => .ok value s
  | none => .error (.ofFault (.unknownIdentifier name)) s

/-- Keeps the value of a top-level expression. -/
def setLast (value : Expr) : EvalM Unit :=
  modify fun s => { s with last := some value }

/-- Adds a line to the log, its parts set apart by blanks. -/
def log (parts : List String) : EvalM Unit :=
  modify fun s => { s with console := s.console.logLine ("[DBG] " ++ " ".intercalate parts) }

end EvalM

end ExprLang
