import ExprLang.Eval
import ExprLang.Report

/-!
# Sessions

A session runs one source text after another in one scope. Whatever happens in a step, the next one
finds the scope at its root frame, and neither floors nor calls of an earlier step. What the steps
have bound stays, and so does the last top-level value.
-/

namespace ExprLang

/-- A session: the choices it is run with, and the state between two steps. -/
structure Session where
  settings : Settings
  state : RunState

namespace Session

/-- A session before its first step. -/
def start (settings : Settings) (console : Console) : Session :=
  ⟨settings, .initial (.ofRoot builtinFrame) console⟩

/-- The session with another console. -/
def withConsole (session : Session) (console : Console) : Session :=
  { session with state := { session.state with console := console } }

/-- The session with no call and no floor left over. -/
def cleared (session : Session) : Session :=
  { session with state := { session.state with floors := [], calls := [] } }

/-- Evaluates a tree that has been read from a source text. -/
def runTree (session : Session) (source : String) (tree : Expr) : Outcome × Session :=
  match evaluate session.settings tree session.state with
  | .ok value state => (.success value, { session with state := state })
  | .error failure state =>
      let state := { state with scope := state.scope.toRoot }
      (.error (Report.ofFailure source state.calls failure) (Report.failureLoc? failure),
        { session with state := state })

/-- Reads and runs a source text. Only a literal with too many digits has no outcome. -/
def handle (session : Session) (goal : Reader.Goal) (source : String) :
    Except Reader.ReadError Outcome × Session :=
  let session := session.cleared
  match Reader.parse goal source with
  | .ok tree =>
      let (outcome, session) := session.runTree source tree
      (.ok outcome, session)
  | .error (.rejected complaint loc) =>
      (.ok (.error (Report.ofComplaint source complaint loc) (some loc)), session)
  | .error e => (.error e, session)

/-- Runs a whole program. -/
def handleScript (session : Session) (source : String) :
    Except Reader.ReadError Outcome × Session :=
  session.handle .program source

/-- Runs a single expression. -/
def handleLine (session : Session) (source : String) :
    Except Reader.ReadError Outcome × Session :=
  session.handle .expression source

end Session

end ExprLang
