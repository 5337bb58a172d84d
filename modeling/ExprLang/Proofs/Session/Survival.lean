import ExprLang.Proofs.Eval.FrameLaw
import ExprLang.Proofs.Eval.Invariant
import ExprLang.Proofs.Session.Script
import ExprLang.Proofs.Session.Step

/-!
# What survives a step of a session

However a step of a session ends, the next one finds the scope at its root frame, no floor, every
operation under its name and every name that was bound before (`session_survives`). A source that
cannot be read changes nothing, a script binds no new name, and it alone changes the last top-level
value: to that of the last of its expressions that has ended with one.

An expression holds no program, and neither does any value that it comes across, so it leaves the
last top-level value alone (`evaluate_expression`); a program changes it once for each expression
that ends with a value (`runProgram_last`).
-/

namespace ExprLang

open EvalM

/-! ## Expressions and the last top-level value -/

/-- No value on the stack holds a program, and the last top-level value is this one. -/
def Standing (last : Option Expr) (s : RunState) : Prop :=
  s.scope.Each ProgramFree ∧ s.last = last

/-- What is hereditary is kept by the values that are bound, together with a property of the last
top-level value that it has after every expression of a program. -/
theorem each_stable {P : Expr → Prop} (hP : Hereditary P) (settings : Settings)
    {L : Option Expr → Prop}
    (hlast : ∀ {loc es value}, P (.program loc es) → P value → L (some value)) :
    Stable settings P P (fun _ s => s.scope.Each P ∧ L s.last) fun _ => True where
  valued := hP.valued
  enter := fun hs => ⟨hs.1.enter, hs.2⟩
  exit := fun hs => ⟨hs.1.exit, hs.2⟩
  pushFloor := id
  popFloor := id
  pushCall := fun _ => id
  popCall := id
  logged := fun _ => id
  setLast := fun hprogram hvalue hs => ⟨hs.1, hlast hprogram hvalue⟩
  resolve := fun hs hvalue => hs.1.resolve hvalue
  bindName := fun _ _ hvalue => Safely.bindName _ _ (fun _ => trivial)
    fun hs hbind => ⟨hs.1.rebind hvalue hbind, hs.2⟩
  bindParam := fun _ _ hvalue => Safely.onScope (fun _ => trivial)
    fun hs hbind => ⟨hs.1.bindOuter hvalue hbind, hs.2⟩
  runBuiltin := fun hfilled => Safely.onConsole (fun _ hs => hs)
    (runBuiltin_keeps hP.valued.toValueClosed (hfilled.args hP.valued.toValueClosed))
    fun _ => trivial
  fault := fun _ _ => trivial
  tooDeep := trivial
  stalled := fun _ => trivial

theorem standing_stable (settings : Settings) (last : Option Expr) :
    Stable settings ProgramFree ProgramFree (fun _ => Standing last) fun _ => True := by
  refine @each_stable _ hereditary_programFree settings (· = last) ?_
  rintro _ _ _ ⟨hnode, -⟩
  exact absurd hnode nofun

/-- An expression leaves the last top-level value alone, whichever way it ends. -/
theorem evaluate_expression (settings : Settings) {e : Expr} (he : ProgramFree e) {s : RunState}
    (heach : s.scope.Each ProgramFree) : Standing s.last (final (evaluate settings e s)) :=
  ((standing_stable settings s.last).evaluate he 0).final ⟨heach, rfl⟩

/-! ## Programs -/

/-- The values of the expressions of a program that have ended with one, up to the first failure. -/
def finishedValues (settings : Settings) : List Expr → RunState → List Expr
  | [], _ => []
  | e :: es, s =>
      match evaluate settings e s with
      | .ok value s => value :: finishedValues settings es { s with last := some value }
      | .error _ _ => []

/-- The last top-level value is that of the last expression that has ended with one. -/
theorem runProgram_last (settings : Settings) {es : List Expr} (hes : ∀ e ∈ es, ProgramFree e)
    {s : RunState} (heach : s.scope.Each ProgramFree) :
    Standing ((finishedValues settings es s).getLast?.or s.last)
    (final (runProgram settings es s)) := by
  induction es generalizing s with
  | nil => exact ⟨heach, rfl⟩
  | cons e es ih =>
      obtain ⟨he, hes⟩ := List.forall_mem_cons.mp hes
      have hstanding := evaluate_expression settings he heach
      rw [finishedValues]
      cases hrun : evaluate settings e s with
      | ok value s' =>
          rw [hrun] at hstanding
          rw [runProgram_cons_ok hrun]
          simp only [getLast?_cons_or]
          exact ih hes hstanding.1
      | error failure s' =>
          rw [hrun] at hstanding
          rw [runProgram_cons_error hrun]
          exact hstanding

theorem evaluate_program_last (settings : Settings) (loc : Option Loc) {es : List Expr}
    (hes : ∀ e ∈ es, ProgramFree e) {s : RunState} (heach : s.scope.Each ProgramFree) :
    Standing ((finishedValues settings es { s with scope := s.scope.enter }).getLast?.or s.last)
      (final (evaluate settings (.program loc es) s)) := by
  rw [evaluate_program, final_inFrame]
  obtain ⟨hvalues, hlast⟩ :=
    @runProgram_last settings es hes { s with scope := s.scope.enter } heach.enter
  exact ⟨hvalues.exit, hlast⟩

/-! ## One run -/

/-- A stack of its root frame alone has nothing above it to be taken away. -/
theorem ScopeStack.toRoot_of_below {scope : ScopeStack} (h : scope.below = []) :
    scope.toRoot = scope := by
  obtain ⟨top, below⟩ := scope
  obtain rfl : below = [] := h
  rfl

theorem ScopeStack.root_of_below {scope : ScopeStack} (h : scope.below = []) :
    scope.root = scope.top := by
  rw [root, h]
  rfl

/-- A state between two steps: the scope is at its root frame, there is no floor, and no value that
is bound holds a program. -/
structure RunState.Resting (s : RunState) : Prop where
  below : s.scope.below = []
  floors : s.floors = []
  values : s.scope.Each ProgramFree

/-- What running a source text makes of such a state. -/
structure RunEffect (settings : Settings) (goal : Reader.Goal) (tree : Expr) (s s' : RunState) :
    Prop where
  resting : s'.Resting
  names : ∃ added, s'.scope.root.names = s.scope.root.names ++ added ∧
    (goal = .program → added = [])
  line : goal = .expression → s'.last = s.last
  script : ∀ loc es, tree = .program loc es → s'.last
    = (finishedValues settings es { s with scope := s.scope.enter }).getLast?.or s.last

theorem run_effect {settings : Settings} {goal : Reader.Goal} {source : String} {tree : Expr}
    (hparse : Reader.parse goal source = .ok tree) {s : RunState} (hs : s.Resting) :
    RunEffect settings goal tree s (final (evaluate settings tree s)) := by
  obtain ⟨added, heffect, hadded⟩ := evaluate_givesBack settings tree s
  have hbelow : (final (evaluate settings tree s)).scope.below = [] := by
    have hlength := heffect.length
    rw [hs.below] at hlength
    exact List.eq_nil_of_length_eq_zero hlength
  have hfloors := heffect.floors.trans hs.floors
  have hnames := heffect.top
  rw [← ScopeStack.root_of_below hbelow, ← ScopeStack.root_of_below hs.below] at hnames
  cases goal with
  | expression =>
      have hfree := ParserBuilt.programFree (.inl ⟨source, hparse⟩)
      obtain ⟨hvalues, hlast⟩ := evaluate_expression settings hfree hs.values
      refine ⟨⟨hbelow, hfloors, hvalues⟩, ⟨added, hnames, nofun⟩, fun _ => hlast, ?_⟩
      rintro loc es rfl
      cases hfree with
      | of_parts hnode => exact absurd hnode nofun
  | program =>
      obtain ⟨-, ⟨es, -, rfl⟩, -⟩ := Reader.parse_eq_ok_iff.mp hparse
      have hfree : ∀ e ∈ es, ProgramFree e :=
        fun e hmem => ParserBuilt.programFree (.inr ⟨source, none, es, hparse, hmem⟩)
      obtain ⟨hvalues, hlast⟩ := evaluate_program_last settings none hfree hs.values
      refine ⟨⟨hbelow, hfloors, hvalues⟩, ⟨added, hnames, fun _ => ?_⟩, nofun, ?_⟩
      · obtain rfl | ⟨_, -, hnone⟩ := hadded
        · rfl
        · exact absurd hnone not_false
      · rintro _ _ ⟨⟩
        exact hlast

/-! ## Sessions -/

/-- The sessions that come of steps one after another. What is there to be read and written may
change between the steps. -/
inductive Reachable (settings : Settings) : Session → Prop
  | start (console : Console) : Reachable settings (.start settings console)
  | step {session : Session} (goal : Reader.Goal) (source : String) : Reachable settings session →
      Reachable settings (session.handle goal source).2
  | console {session : Session} (console : Console) : Reachable settings session →
      Reachable settings (session.withConsole console)

/-- A session between two steps. -/
structure Session.InOrder (session : Session) : Prop where
  resting : session.state.Resting
  builtins : builtinFrame.names ⊆ session.state.scope.root.names

/-- What a step leaves of a session. -/
structure Survives (session : Session) (goal : Reader.Goal) (source : String) (after : Session) :
    Prop where
  /-- The scope is at its root frame. -/
  depth : after.state.scope.depth = 1
  /-- No floor is left over. -/
  floors : after.state.floors = []
  /-- The root frame binds every operation. -/
  builtins : builtinFrame.names ⊆ after.state.scope.root.names
  /-- It binds every name that it has bound before. -/
  names : session.state.scope.root.names ⊆ after.state.scope.root.names
  /-- A source that cannot be read leaves the root frame, the last value and the console alone. -/
  unread : ∀ e, Reader.parse goal source = .error e →
    after.state.scope.root = session.state.scope.root ∧ after.state.last = session.state.last ∧
      after.state.console = session.state.console
  /-- A script adds no name to those of the root frame. -/
  script_names : goal = .program → after.state.scope.root.names = session.state.scope.root.names
  /-- A line leaves the last value alone. -/
  line_last : goal = .expression → after.state.last = session.state.last
  /-- A script changes it to the value of the last expression that has ended with one. -/
  script_last : ∀ loc es, Reader.parse goal source = .ok (.program loc es) → after.state.last
    = (finishedValues session.settings es { session.cleared.state with
        scope := session.state.scope.enter }).getLast?.or session.state.last

section
variable {session after : Session} {goal : Reader.Goal} {source : String}

theorem RunState.Resting.depth {s : RunState} (h : s.Resting) : s.scope.depth = 1 := by
  rw [ScopeStack.depth, h.below]
  rfl

theorem Session.InOrder.cleared (h : session.InOrder) : session.cleared.InOrder :=
  ⟨⟨h.resting.below, rfl, h.resting.values⟩, h.builtins⟩

/-- A source that cannot be read leaves the session as it is, but for floors and calls. -/
theorem Session.InOrder.unread (h : session.InOrder) {e : Reader.ReadError}
    (hparse : Reader.parse goal source = .error e) :
    session.cleared.InOrder ∧ Survives session goal source session.cleared :=
  ⟨h.cleared, h.cleared.resting.depth, rfl, h.builtins, fun _ => id, fun _ _ =>
    ⟨rfl, rfl, rfl⟩,
    fun _ => rfl, fun _ => rfl, fun _ _ htree => absurd (hparse.symm.trans htree) nofun⟩

/-- A source that is run leaves the session in order. -/
theorem Session.InOrder.run (h : session.InOrder) {tree : Expr} {s : RunState}
    (hparse : Reader.parse goal source = .ok tree)
    (heffect : RunEffect session.settings goal tree session.cleared.state s) :
    Session.InOrder { session with state := s } ∧
      Survives session goal source { session with state := s } := by
  obtain ⟨added, hnames, hadded⟩ := heffect.names
  have hkeeps : session.state.scope.root.names ⊆ s.scope.root.names := by
    rw [hnames]
    exact List.subset_append_left _ _
  have hbuiltins := List.Subset.trans h.builtins hkeeps
  refine ⟨⟨heffect.resting, hbuiltins⟩, heffect.resting.depth, heffect.resting.floors,
    hbuiltins, hkeeps,
    ?_, fun hgoal => ?_, heffect.line, fun loc es htree => ?_⟩
  · exact fun e herror => absurd (hparse.symm.trans herror) nofun
  · rw [hnames, hadded hgoal, List.append_nil]
    rfl
  · exact heffect.script loc es (Except.ok.inj (hparse.symm.trans htree))

theorem Session.InOrder.step {result : Except Reader.ReadError Outcome} (h : session.InOrder)
    (hstep : session.StepsTo goal source result after) :
    after.InOrder ∧ Survives session goal source after := by
  cases hstep with
  | unread hparse | refused hparse => exact h.unread hparse
  | done hparse hend =>
      have heffect := @run_effect session.settings _ _ _ hparse _ h.cleared.resting
      rw [hend] at heffect
      exact h.run hparse heffect
  | @failed tree failure s hparse hend =>
      have heffect := @run_effect session.settings _ _ _ hparse _ h.cleared.resting
      rw [hend] at heffect
      -- the run has left nothing above the root frame that could be taken away
      have hroot : s.scope.toRoot = s.scope := ScopeStack.toRoot_of_below heffect.resting.below
      rw [hroot]
      exact h.run hparse heffect

end

theorem Reachable.inOrder {settings : Settings} {session : Session}
    (h : Reachable settings session) : session.InOrder := by
  induction h with
  | start console =>
      refine ⟨⟨rfl, rfl, ?_⟩, fun _ => id⟩
      exact List.forall_mem_singleton.mpr builtinFrame_programFree
  | step goal source _ ih =>
      obtain ⟨result, after, hstep⟩ := Session.exists_stepsTo _ goal source
      rw [hstep.handle_eq]
      exact (ih.step hstep).1
  | console console _ ih =>
      exact ⟨⟨ih.resting.below, ih.resting.floors, ih.resting.values⟩, ih.builtins⟩

/-- **A session survives every step.** -/
theorem session_survives {settings : Settings} {session : Session} (h : Reachable settings session)
    (goal : Reader.Goal) (source : String) :
    Survives session goal source (session.handle goal source).2 := by
  obtain ⟨result, after, hstep⟩ := session.exists_stepsTo goal source
  rw [hstep.handle_eq]
  exact (h.inOrder.step hstep).2

/-- A script fails after its first expression, and a line that cannot be read comes after it. -/
theorem session_survives_unknown_name :
    let session := Session.start {} (.ofInput "")
    let after := (session.handle .program "2 y").2
    Reachable {} session ∧ Survives session .program "2 y" after ∧
      after.state.last = some (.int none 2) ∧ Reachable {} after ∧
      (after.handle .expression ")").2.state.last = some (.int none 2) := by
  intro session after
  have hstart : Reachable {} session := .start (.ofInput "")
  have hafter : Reachable {} after := hstart.step .program "2 y"
  have hscript := session_survives hstart .program "2 y"
  have hparse : Reader.parse .program "2 y"
      = .ok (.program none [.int none 2, .ident (some ⟨1, 3⟩) "y"]) := by rfl
  have hlast : after.state.last = some (.int none 2) := hscript.script_last none _ hparse
  have hunread : Reader.parse .expression ")"
      = .error (.rejected (.unexpectedToken (.sign .closeParen)) ⟨1, 1⟩) := by rfl
  have hkept := (session_survives hafter .expression ")").unread _ hunread
  exact ⟨hstart, hscript, hlast, hafter, hkept.2.1.trans hlast⟩

end ExprLang
