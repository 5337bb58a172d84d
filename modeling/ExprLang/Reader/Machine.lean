import ExprLang.Expr
import ExprLang.Text.Decimal
import ExprLang.Token

/-!
# The reading machine

A tree is read by a machine that takes one token at a time. Its state is what it stands at (`Focus`)
inside a stack of constructs that are still open (`Context`), on top of the list of expressions read
so far at the outermost level. A token that has no place in the current state is refused, and
nothing is ever taken back: every state that the machine reaches can still be completed, so the
refused token is the first one with which the source cannot be continued.

Nothing has to separate two expressions in a sequence. An expression is complete at the first token
that cannot go on with it, and then it settles into the constructs that were waiting for nothing
else (`settle`): a binding takes it as its value, and an `else` takes the `if` after it.
-/

namespace ExprLang.Reader

/-! ## States -/

/-- What a pair of braces belongs to. -/
inductive BlockRole where
  /-- A block that stands for itself. -/
  | plain (loc : Loc)
  /-- The first branch of an `if`. -/
  | yes (loc : Loc) (test : Expr)
  /-- The second branch of an `if`. -/
  | no (loc : Loc) (test yes : Expr)
  /-- The body of a loop. -/
  | loop (loc : Loc) (test : Expr)
  /-- The body of a function. -/
  | fn (loc : Loc) (params : List String)

/-- What a list of expressions with commas belongs to. -/
inductive ItemsRole where
  /-- A list literal. -/
  | list (loc : Loc)
  /-- The arguments of a call. -/
  | arguments (loc : Loc) (callee : Expr)

/-- The sign that closes a list of expressions. -/
def ItemsRole.closing : ItemsRole → Sign
  | list _ => .closeBracket
  | arguments .. => .closeParen

/-- A construct that is open around the focus. Expressions already read in it are kept latest
first. -/
inductive Context where
  /-- A binding that waits for its value. -/
  | binding (loc : Loc) (name : String)
  /-- An `if` that waits for its condition. -/
  | choiceTest (loc : Loc)
  /-- A loop that waits for its condition. -/
  | loopTest (loc : Loc)
  /-- An `if` whose second branch is the `if` that is being read. -/
  | elseIf (loc : Loc) (test yes : Expr)
  /-- Braces, with the expressions read so far. -/
  | block (role : BlockRole) (done : List Expr)
  /-- A list of expressions, with those read so far. -/
  | items (role : ItemsRole) (done : List Expr)

/-- What the machine stands at. -/
inductive Focus where
  /-- An expression may begin. -/
  | operand
  /-- An expression has been read that can be called. -/
  | callable (e : Expr) (loc : Loc)
  /-- An expression has been read that cannot be called. -/
  | whole (e : Expr)
  /-- The first branch of an `if` has been read. -/
  | afterYes (loc : Loc) (test yes : Expr)
  /-- The `else` of an `if` has been read. -/
  | afterElse (loc : Loc) (test yes : Expr)
  /-- A `let` has been read. -/
  | bindingName (loc : Loc)
  /-- The name of a binding has been read. -/
  | bindingEquals (loc : Loc) (name : String)
  /-- An `fn` has been read. -/
  | fnOpen (loc : Loc)
  /-- The bracket before the parameters of a function has been read. -/
  | fnFirst (loc : Loc)
  /-- A parameter has been read. -/
  | fnNext (loc : Loc) (params : List String)
  /-- The comma after a parameter has been read. -/
  | fnParam (loc : Loc) (params : List String)
  /-- The parameters of a function have been read. -/
  | fnBody (loc : Loc) (params : List String)

/-- What a source is read as. -/
inductive Goal where
  /-- A program: any number of expressions. -/
  | program
  /-- A single expression. -/
  | expression
deriving DecidableEq

/-- The state of the machine. -/
structure State where
  goal : Goal
  /-- The expressions read so far at the outermost level, latest first. -/
  done : List Expr
  /-- The open constructs, the innermost first. -/
  stack : List Context
  focus : Focus

/-! ## Completing constructs -/

/-- The second branch of an `if` without an `else`. -/
def noElse : Expr := .block none [.null]

/-- The second branch of an `if` that another `if` follows. -/
def elseIfBranch (inner : Expr) : Expr := .block none [inner]

/-- A complete expression, taken up by the innermost constructs that wait for nothing else. -/
def settle : List Context → Expr → List Context × Expr
  | .binding loc name :: stack, e => settle stack (.binding (some loc) name e)
  | .elseIf loc test yes :: stack, e => settle stack (.choice (some loc) test yes (elseIfBranch e))
  | stack, e => (stack, e)

/-- What stands at a closing brace. -/
def closeBlock (exprs : List Expr) : BlockRole → Focus
  | .plain loc => .callable (.block none exprs) loc
  | .yes loc test => .afterYes loc test (.block none exprs)
  | .no loc test yes => .whole (.choice (some loc) test yes (.block none exprs))
  | .loop loc test => .whole (.loop (some loc) test (.block none exprs))
  | .fn loc params => .callable (.curried params (.block none exprs)) loc

/-- What stands at the end of a list of expressions. -/
def closeItems (exprs : List Expr) : ItemsRole → Focus
  | .list loc => .callable (.list none exprs) loc
  | .arguments loc callee => .callable (.applied loc callee exprs) loc

/-- The value of an integer literal; the reader refuses those that it is not true of. -/
def literalValue (digits : String) : UInt64 :=
  UInt64.ofNat (Text.digitsValue digits.toList)

/-- The stack and the focus after the first token of an expression. -/
def begin (stack : List Context) (loc : Loc) : Token → Option (List Context × Focus)
  | .int digits => some (stack, .callable (.int none (literalValue digits)) loc)
  | .str text => some (stack, .callable (.str none text) loc)
  | .name name => some (stack, .callable (.ident (some loc) name) loc)
  | .keyword .kwTrue => some (stack, .callable (.bool none true) loc)
  | .keyword .kwFalse => some (stack, .callable (.bool none false) loc)
  | .keyword .kwNull => some (stack, .callable .null loc)
  | .keyword .kwFn => some (stack, .fnOpen loc)
  | .keyword .kwLet => some (stack, .bindingName loc)
  | .keyword .kwIf => some (.choiceTest loc :: stack, .operand)
  | .keyword .kwWhile => some (.loopTest loc :: stack, .operand)
  | .sign .openBracket => some (.items (.list loc) [] :: stack, .operand)
  | .sign .openBrace => some (.block (.plain loc) [] :: stack, .operand)
  | _ => none

namespace State

/-! ## Steps -/

/-- The machine before the first token. -/
def initial (goal : Goal) : State := ⟨goal, [], [], .operand⟩

/-- Whether one more expression may follow at the outermost level. -/
def acceptsMore (state : State) : Bool :=
  state.goal = .program || state.done.isEmpty

/-- The state with another stack and another focus. -/
def move (state : State) (stack : List Context) (focus : Focus) : State :=
  { state with stack := stack, focus := focus }

/-- The state after the first token of an expression, on a stack. -/
def beginOn (state : State) (stack : List Context) (lexeme : Lexeme) : Option State :=
  (begin stack lexeme.loc lexeme.token).map fun (stack, focus) => state.move stack focus

/-- A token where an expression may begin. -/
def operandStep (state : State) (lexeme : Lexeme) : Option State :=
  match state.stack, lexeme.token with
  | .block role done :: stack, .sign .closeBrace =>
      some (state.move stack (closeBlock done.reverse role))
  | .block .. :: _, .sign .semicolon => some state
  | .items role done :: stack, .sign sign =>
      if sign = role.closing then some (state.move stack (closeItems done.reverse role))
      else state.beginOn state.stack lexeme
  | [], .sign .semicolon => some state
  | [], _ => if state.acceptsMore then state.beginOn [] lexeme else none
  | stack, _ => state.beginOn stack lexeme

/-- A token after a complete expression that has settled on a stack. -/
def follow (state : State) (lexeme : Lexeme) : List Context × Expr → Option State
  | (.choiceTest loc :: stack, e) =>
      if lexeme.token = .sign .openBrace then
        some (state.move (.block (.yes loc e) [] :: stack) .operand)
      else none
  | (.loopTest loc :: stack, e) =>
      if lexeme.token = .sign .openBrace then
        some (state.move (.block (.loop loc e) [] :: stack) .operand)
      else none
  | (.items role done :: stack, e) =>
      if lexeme.token = .sign .comma then
        some (state.move (.items role (e :: done) :: stack) .operand)
      else if lexeme.token = .sign role.closing then
        some (state.move stack (closeItems (e :: done).reverse role))
      else none
  | (.block role done :: stack, e) =>
      (state.move (.block role (e :: done) :: stack) .operand).operandStep lexeme
  | ([], e) =>
      ({ state with done := e :: state.done }.move [] .operand).operandStep lexeme
  | _ => none

/-- The state after one more token, or none if the token has no place. -/
def step (state : State) (lexeme : Lexeme) : Option State :=
  match state.focus, lexeme.token with
  | .operand, _ => state.operandStep lexeme
  | .callable e loc, .sign .openParen =>
      some (state.move (.items (.arguments loc e) [] :: state.stack) .operand)
  | .callable e _, _ => state.follow lexeme (settle state.stack e)
  | .whole e, _ => state.follow lexeme (settle state.stack e)
  | .afterYes loc test yes, .keyword .kwElse =>
      some (state.move state.stack (.afterElse loc test yes))
  | .afterYes loc test yes, _ =>
      state.follow lexeme (settle state.stack (.choice (some loc) test yes noElse))
  | .afterElse loc test yes, .sign .openBrace =>
      some (state.move (.block (.no loc test yes) [] :: state.stack) .operand)
  | .afterElse loc test yes, .keyword .kwIf =>
      some (state.move (.choiceTest lexeme.loc :: .elseIf loc test yes :: state.stack) .operand)
  | .bindingName loc, .name name => some (state.move state.stack (.bindingEquals loc name))
  | .bindingEquals loc name, .sign .equals =>
      some (state.move (.binding loc name :: state.stack) .operand)
  | .fnOpen loc, .sign .openParen => some (state.move state.stack (.fnFirst loc))
  | .fnFirst loc, .sign .closeParen => some (state.move state.stack (.fnBody loc []))
  | .fnFirst loc, .name name => some (state.move state.stack (.fnNext loc [name]))
  | .fnNext loc params, .sign .closeParen => some (state.move state.stack (.fnBody loc params))
  | .fnNext loc params, .sign .comma => some (state.move state.stack (.fnParam loc params))
  | .fnParam loc params, .name name =>
      some (state.move state.stack (.fnNext loc (params ++ [name])))
  | .fnBody loc params, .sign .openBrace =>
      some (state.move (.block (.fn loc params) [] :: state.stack) .operand)
  | _, _ => none

/-- The state after a list of tokens, or the first token that has no place. -/
def run (state : State) : List Lexeme → Except Lexeme State
  | [] => .ok state
  | lexeme :: rest =>
      match state.step lexeme with
      | some state => state.run rest
      | none => .error lexeme

/-! ## The end of the source -/

/-- The expressions at the outermost level if the source ends here, unless something is open. -/
def exprs? (state : State) : Option (List Expr) :=
  match state.focus with
  | .operand => if state.stack.isEmpty then some state.done.reverse else none
  | .callable e _ => ending e
  | .whole e => ending e
  | .afterYes loc test yes => ending (.choice (some loc) test yes noElse)
  | _ => none
where
  /-- The expressions with a last one that settles at the outermost level. -/
  ending (e : Expr) : Option (List Expr) :=
    match settle state.stack e with
    | ([], e) => some (e :: state.done).reverse
    | _ => none

/-- The tree, if the source may end here. -/
def finish (state : State) : Option Expr :=
  match state.goal, state.exprs? with
  | .program, some exprs => some (.program none exprs)
  | .expression, some [e] => some e
  | _, _ => none

end State

end ExprLang.Reader
