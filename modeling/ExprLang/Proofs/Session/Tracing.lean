import ExprLang.Proofs.Eval.Deeds
import ExprLang.Proofs.Session.Step

/-!
# Tracing is invisible

A run that is traced and one that is not come to the same, with the same read and written and in
states that differ in the log alone. Without tracing nothing is logged; with it the log tells the
deeds of the run, a line for each in the order in which they were done (`tracing_only_tells`). What
holds of an evaluation goes on to hold of a session, step after step.
-/

namespace ExprLang

open EvalM (final)

namespace Session

/-- The session with the same choices but for tracing. -/
def withTracing (tracing : Bool) (session : Session) : Session :=
  { session with settings := session.settings.withTracing tracing }

/-- The session with another log. -/
def withLog (log : String) (session : Session) : Session :=
  { session with state := session.state.withLog log }

/-- Runs source texts one after the other. -/
def handleAll (session : Session) : List (Reader.Goal × String) →
    List (Except Reader.ReadError Outcome) × Session
  | [] => ([], session)
  | (goal, source) :: steps =>
      let (result, session) := session.handle goal source
      let (results, session) := session.handleAll steps
      (result :: results, session)

/-- The deeds of a step: those of the evaluation, if the source text can be read. -/
def deeds (session : Session) (goal : Reader.Goal) (source : String) : List Deed :=
  match Reader.parse goal source with
  | .ok tree => ExprLang.deeds session.settings tree session.cleared.state
  | .error _ => []

/-- The deeds of some steps, one after the other. -/
def allDeeds (session : Session) : List (Reader.Goal × String) → List Deed
  | [] => []
  | (goal, source) :: steps =>
      session.deeds goal source ++ (session.handle goal source).2.allDeeds steps

/-! ## One step -/

section
variable (session : Session) (goal : Reader.Goal) (source : String)

/-- No step changes the choices that the session is run with. -/
theorem handle_settings : (session.handle goal source).2.settings = session.settings := by
  obtain ⟨result, after, hstep⟩ := session.exists_stepsTo goal source
  rw [hstep.handle_eq]
  cases hstep <;> rfl

omit goal source in
/-- The evaluation of a step, with any log before it. -/
theorem evaluate_traced (tree : Expr) (tracing : Bool) (log : String) :
    evaluate (session.settings.withTracing tracing) tree (session.cleared.state.withLog log)
      = resultWithLog (Deed.addTo log tracing
          (ExprLang.deeds (session.settings.withTracing false) tree session.cleared.state))
          (evaluate (session.settings.withTracing false) tree session.cleared.state) :=
  (evaluate_tells (session.settings.withTracing false) tracing tree).told session.cleared.state log

/-- A step does the same whether it is traced or not, but for the log, which tells its deeds if it
is. -/
theorem handle_traced (tracing : Bool) (log : String) :
    ((session.withTracing tracing).withLog log).handle goal source
      = (((session.withTracing false).handle goal source).1,
          ((((session.withTracing false).handle goal source).2).withTracing tracing).withLog
            (Deed.addTo log tracing ((session.withTracing false).deeds goal source))) := by
  obtain ⟨result, after, hstep⟩ := (session.withTracing false).exists_stepsTo goal source
  rw [hstep.handle_eq]
  apply StepsTo.handle_eq
  cases hstep with
  | unread hparse =>
      rw [show (session.withTracing false).deeds goal source
        = [] by rw [deeds, hparse], Deed.addTo_nil]
      exact .unread hparse
  | refused hparse =>
      rw [show (session.withTracing false).deeds goal source
        = [] by rw [deeds, hparse], Deed.addTo_nil]
      exact .refused hparse
  | done hparse hrun =>
      rw [show (session.withTracing false).deeds goal source = _ by rw [deeds, hparse]]
      have htold := (session.evaluate_traced _ tracing log).trans (congrArg _ hrun)
      exact .done hparse htold
  | @failed tree failure s hparse hrun =>
      rw [show (session.withTracing false).deeds goal source = _ by rw [deeds, hparse]]
      have htold := (session.evaluate_traced _ tracing log).trans (congrArg _ hrun)
      exact @StepsTo.failed ((session.withTracing tracing).withLog log) goal source tree failure
        (s.withLog _) hparse htold

end

/-! ## Many steps -/

/-- What is left by steps that are not traced is not traced. -/
theorem handle_withTracing (session : Session) (goal : Reader.Goal) (source : String) :
    ((session.withTracing false).handle goal source).2.withTracing false
      = ((session.withTracing false).handle goal source).2 := by
  have hsettings := handle_settings (session.withTracing false) goal source
  generalize ((session.withTracing false).handle goal source).2 = after at hsettings ⊢
  obtain ⟨settings, state⟩ := after
  obtain rfl : settings = _ := hsettings
  rfl

theorem handleAll_traced (session : Session) (steps : List (Reader.Goal × String)) (tracing : Bool)
    (log : String) :
    ((session.withTracing tracing).withLog log).handleAll steps
      = (((session.withTracing false).handleAll steps).1,
          ((((session.withTracing false).handleAll steps).2).withTracing tracing).withLog
            (Deed.addTo log tracing ((session.withTracing false).allDeeds steps))) := by
  induction steps generalizing session log with
  | nil =>
      rw [allDeeds, Deed.addTo_nil]
      rfl
  | cons step steps ih =>
      obtain ⟨goal, source⟩ := step
      rw [handleAll, handle_traced, handleAll, allDeeds, Deed.addTo_append]
      simp only [ih, handle_withTracing]

end Session

/-! ## The account of the log -/

/-- What tracing does to an evaluation. -/
structure TracesEvaluation (settings : Settings) (e : Expr) (s : RunState) : Prop where
  /-- The deeds are those of the evaluation that is not traced. -/
  act : (told settings e).act = evaluate (settings.withTracing false) e
  /-- Without tracing nothing is logged. -/
  untraced : (final (evaluate (settings.withTracing false) e s)).console.log = s.console.log
  /-- With tracing the end is the same, whether it is a value or a failure, but for the log: it has
  one line more for each deed, in their order. -/
  traced : evaluate (settings.withTracing true) e s
    = resultWithLog (Deed.addTo s.console.log true (deeds settings e s))
        (evaluate (settings.withTracing false) e s)

/-- What tracing does to a session. -/
structure TracesSession (session : Session) (steps : List (Reader.Goal × String)) : Prop where
  /-- Without tracing nothing is logged. -/
  untraced : ((session.withTracing false).handleAll steps).2.state.console.log
    = session.state.console.log
  /-- With tracing all steps come to the same and leave the same, but for the log: it has one line
  more for each deed, in their order. -/
  traced : (session.withTracing true).handleAll steps
    = (((session.withTracing false).handleAll steps).1,
        (((session.withTracing false).handleAll steps).2.withTracing true).withLog
          (Deed.addTo session.state.console.log true ((session.withTracing false).allDeeds steps)))

theorem tracesEvaluation (settings : Settings) (e : Expr) (s : RunState) :
    TracesEvaluation settings e s := by
  have htold := fun tracing => (evaluate_tells settings tracing e).told s s.console.log
  refine ⟨(evaluate_tells settings false e).act, ?_, htold true⟩
  have huntraced : evaluate (settings.withTracing false) e s = resultWithLog s.console.log _ :=
    htold false
  rw [huntraced]
  cases evaluate (settings.withTracing false) e s with
  | ok => rfl
  | error => rfl

theorem tracesSession (session : Session) (steps : List (Reader.Goal × String)) :
    TracesSession session steps := by
  have htraced := fun tracing => session.handleAll_traced steps tracing session.state.console.log
  refine ⟨?_, htraced true⟩
  have huntraced : ((session.withTracing false).handleAll steps).2
      = Session.withLog session.state.console.log _ := congrArg Prod.snd (htraced false)
  rw [huntraced]
  rfl

/-- **Tracing is invisible**: whether a run is traced or not, it comes to the same values and
failures, reads and writes the same, and leaves the same scope, floors, calls and last value. Only
the log differs. Without tracing it stays as it was; with tracing it is told of each execution of a
function's body and of an operation and of each value that a `let` came to, with one line each and
in the order in which they were done. -/
theorem tracing_only_tells (settings : Settings) (s : RunState) :
    (∀ e, TracesEvaluation settings e s) ∧ ∀ steps, TracesSession ⟨settings, s⟩ steps :=
  ⟨fun e => tracesEvaluation settings e s, fun steps => tracesSession ⟨settings, s⟩ steps⟩

/-- A run that fails has told what it did until then. -/
example :
    let settings : Settings := { tracing := true, nesting := 0, patience := 0 }
    let refused := Expr.call none (.ident none "not") (some (.ident none "y"))
    let tree := Expr.block none [.binding none "y" (.int none 3), refused]
    (final (evaluate settings tree (.initial (.ofRoot builtinFrame) (.ofInput "")))).console.log
      = "[DBG] let y = 3 depth 3\n[DBG] builtin not 3\n" := by
  cbv

end ExprLang
