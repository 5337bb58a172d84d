import ExprLang.Eval.State

/-!
# Evaluation

Scoping is dynamic: a function body runs in the frames of whoever calls it, and sees all of them.
Every evaluation pushes a frame, so a name is bound one frame below the evaluation that binds it: a
`let` outlives itself but not the braces around it, and an argument is there as long as its call.

Evaluation recurses on the tree, and loops count down the tests that they may still make. A
function's body is no part of the tree that calls it; it is handed to `runBody`, and `evalNested`
closes the knot once for each level that calls may nest, so a run ends whatever the program does.
-/

namespace ExprLang

open EvalM

/-! ## Conditions and loops -/

/-- The truth value of a condition. -/
def conditionValue (construct : Construct) : Expr → EvalM Bool
  | .bool _ value => pure value
  | found => raise (.conditionNotBoolean construct found)

/-- Runs a loop that has run its body `done` times and may test its condition `tests` times more.
Its value is that of the last run of its body. -/
def repeatWhile (settings : Settings) (test : EvalM Bool) (body : EvalM Expr) :
    (tests done : Nat) → (last : Expr) → EvalM Expr
  | 0, _, _ => throw .stalled
  | tests + 1, done, last => do
      if ← test then
        if settings.capReached done then raise .loopLimit
        else repeatWhile settings test body tests (done + 1) (← body)
      else return last

/-! ## Calls -/

/-- The name that a call goes by: the identifier it calls in the end, or the source text of what it
calls. -/
def calleeName (callee : Expr) : String :=
  match callee.head with
  | .ident _ name => name
  | head => head.toSource

/-- Runs the operation that a built-in value names on the arguments it holds. -/
def invoke (settings : Settings) (callee : Expr) (name : String) (args : List Expr) :
    EvalM Expr := do
  if settings.tracing then log ("builtin" :: name :: args.map Expr.display)
  recorded ⟨name, callee, args⟩ (onConsole (runBuiltin name args))

/-- Calls a built-in. One that misses nothing runs at once, and an argument is not even evaluated;
otherwise the argument is supplied, and the operation runs when none is missing any more. -/
def callBuiltin (settings : Settings) (callee : Expr) (name : String) (missing : Nat)
    (supplied : List Expr) (arg : Option (EvalM Expr)) : EvalM Expr :=
  match missing, arg with
  | 0, _ => invoke settings callee name supplied
  | _ + 1, none => raise (.missingOperand name)
  | missing + 1, some arg => do
      match Expr.supply name (missing + 1) supplied (← arg) with
      | .ok (.builtin loc name 0 supplied) =>
          invoke settings (.builtin loc name 0 supplied) name supplied
      | .ok partly => return partly
      | .error e => throw (.malformed e)

/-- Runs the body of a function whose argument, if it takes one, is bound. -/
def enterBody (settings : Settings) (runBody : Expr → EvalM Expr) (name : String)
    (callee body : Expr) (args : List Expr) : EvalM Expr := do
  if settings.tracing then
    log ["call", name, match args with
      | [] => "()"
      | args => " ".intercalate (args.map Expr.display)]
  recorded ⟨name, callee, args⟩ (aboveFloor (runBody body))

/-- Calls a user function. -/
def callFunction (settings : Settings) (runBody : Expr → EvalM Expr) (name : String)
    (callee : Expr) (param : Option String) (body : Expr) (arg : Option (EvalM Expr)) :
    EvalM Expr :=
  match param, arg with
  | none, some _ => raise (.unwantedArgument name)
  | some param, none => raise (.missingArgument name param)
  | none, none => enterBody settings runBody name callee body []
  | some param, some arg => do
      let value ← arg
      bindParam param value
      enterBody settings runBody name callee body [value]

/-- Applies a value to at most one argument, not yet evaluated. -/
def apply (settings : Settings) (runBody : Expr → EvalM Expr) (name : String)
    (arg : Option (EvalM Expr)) : Expr → EvalM Expr
  | .fn loc param body =>
      callFunction settings runBody name (.fn loc param body) param body arg
  | .builtin loc operation missing supplied =>
      callBuiltin settings (.builtin loc operation missing supplied) operation missing supplied arg
  | found => raise (.notCallable found)

/-! ## Trees -/

mutual

/-- Evaluates a tree in a frame of its own; `runBody` evaluates the bodies of user functions. -/
def evalWith (settings : Settings) (runBody : Expr → EvalM Expr) : Expr → EvalM Expr
  | .ident loc name => inFrame loc (lookup name)
  | .block loc exprs => inFrame loc (evalSequence settings runBody .null exprs)
  | .list loc items => inFrame loc do return .list none (← evalItems settings runBody items)
  | .binding loc name value => inFrame loc do
      let value ← evalWith settings runBody value
      if settings.tracing then
        log ["let", name, "=", value.display, "depth", toString (← get).scope.depth]
      bindName name value
      return value
  | .choice loc test yes no => inFrame loc do
      if ← evalWith settings runBody test >>= conditionValue .choice then
        evalWith settings runBody yes
      else evalWith settings runBody no
  | .loop loc test body => inFrame loc
      (repeatWhile settings (evalWith settings runBody test >>= conditionValue .loop)
        (evalWith settings runBody body) settings.tests 0 .null)
  | .call loc callee none => inFrame loc
      (evalWith settings runBody callee >>= apply settings runBody (calleeName callee) none)
  | .call loc callee (some arg) => inFrame loc
      (evalWith settings runBody callee >>=
        apply settings runBody (calleeName callee) (some (evalWith settings runBody arg)))
  | .program loc exprs => inFrame loc (evalProgram settings runBody exprs)
  | .int loc value => inFrame loc (pure (.int loc value))
  | .str loc text => inFrame loc (pure (.str loc text))
  | .bool loc value => inFrame loc (pure (.bool loc value))
  | .null => inFrame none (pure .null)
  | .endOfProgram => inFrame none (pure .endOfProgram)
  | .fn loc param body => inFrame loc (pure (.fn loc param body))
  | .builtin loc name missing supplied => inFrame loc (pure (.builtin loc name missing supplied))

/-- Evaluates a sequence; its value is that of the last member, or `last` if there is none. -/
def evalSequence (settings : Settings) (runBody : Expr → EvalM Expr) (last : Expr) :
    List Expr → EvalM Expr
  | [] => pure last
  | e :: es => do
      let value ← evalWith settings runBody e
      evalSequence settings runBody value es

/-- Evaluates the members of a list literal. -/
def evalItems (settings : Settings) (runBody : Expr → EvalM Expr) :
    List Expr → EvalM (List Expr)
  | [] => pure []
  | e :: es => do
      let value ← evalWith settings runBody e
      let values ← evalItems settings runBody es
      return value :: values

/-- Evaluates the expressions of a program, keeping the value of each as the last one. -/
def evalProgram (settings : Settings) (runBody : Expr → EvalM Expr) : List Expr → EvalM Expr
  | [] => pure .endOfProgram
  | e :: es => do
      let value ← evalWith settings runBody e
      setLast value
      evalProgram settings runBody es

end

/-- Evaluates a tree where calls of user functions may nest to a depth. -/
def evalNested (settings : Settings) : (nesting : Nat) → Expr → EvalM Expr
  | 0 => evalWith settings fun _ => throw .tooDeep
  | nesting + 1 => evalWith settings (evalNested settings nesting)

/-- Evaluates a tree. -/
def evaluate (settings : Settings) (e : Expr) : EvalM Expr :=
  evalNested settings settings.nesting e

end ExprLang
