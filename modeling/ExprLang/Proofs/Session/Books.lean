import ExprLang.Proofs.Eval.Books
import ExprLang.Proofs.Session.Values

/-!
# The books of a session

What is bound at first misses all of its arguments, and no source text holds a built-in. So the
books of all built-ins are exact throughout a session: between its steps, at every point of a run,
and in what a run ends with, be it a value or a failure. Hence an operation is run exactly when a
call brings the last of its arguments, and on as many as it takes, in whatever way they have been
collected (`books_exact`).
-/

namespace ExprLang

open EvalM

/-! ## Runs -/

/-- The books are exact throughout a run. -/
structure ExactThroughout (settings : Settings) (ev : Evaluation) : Prop where
  /-- Wherever an evaluation begins. -/
  begins : ∀ {sub}, Reaches settings ev sub → sub.state.Accounted ∧ ExactBooks sub.tree
  /-- Wherever one ends with a value. -/
  ends : ∀ {sub value s'}, Reaches settings ev sub →
    evalNested settings sub.nesting sub.tree sub.state = .ok value s' →
      ExactBooks value ∧ s'.Accounted
  /-- Wherever one fails. -/
  fails : ∀ {sub failure s'}, Reaches settings ev sub →
    evalNested settings sub.nesting sub.tree sub.state = .error failure s' → s'.Accounted
  /-- Whatever operation is run, it is the call that has brought its arguments together that runs
  it. -/
  operates : ∀ {sub call s₁}, Reaches settings ev sub → Operates settings sub call s₁ →
    ∃ operation, call.IsFull operation ∧ Brings settings sub operation call.args s₁
  /-- Whatever call brings arguments together, the operation is run on them as soon as none is
  missing. -/
  brings : ∀ {sub operation args s₁}, Reaches settings ev sub →
    Brings settings sub operation args s₁ →
    ComesOfArguments settings sub operation args s₁

theorem exactThroughout {settings : Settings} {ev : Evaluation} (htree : ExactBooks ev.tree)
    (hs : ev.state.Accounted) : ExactThroughout settings ev := by
  have hstable := accounted_stable settings
  have hreached : ∀ {sub}, Reaches settings ev sub → ExactBooks sub.tree ∧
      sub.state.Accounted := by
    intro sub hreaches
    obtain ⟨htree', -, hs'⟩ := hstable.reaches (k := 0) hreaches htree hs
    exact ⟨htree', hs'⟩
  refine ⟨fun hreaches => (hreached hreaches).symm, fun hreaches hend =>
    ?_, fun hreaches hend => ?_,
    fun hreaches h => h.brings (hreached hreaches).1 (hreached hreaches).2,
    fun hreaches h => h.comes (hreached hreaches).1 (hreached hreaches).2⟩
  · obtain ⟨htree', hs'⟩ := hreached hreaches
    exact hstable.evalNested_ok (k := 0) htree' hs' hend
  · obtain ⟨htree', hs'⟩ := hreached hreaches
    exact (hstable.evalNested_error (k := 0) htree' hs' hend).2

/-! ## Sessions -/

theorem IsWritten.exactBooks {e : Expr} (h : IsWritten e) : ExactBooks e := by
  refine h.mono fun e hwritten => ?_
  cases e with
  | builtin => exact absurd hwritten not_false
  | _ => trivial

/-- What is read holds no built-in. -/
theorem exactBooks_of_parse {goal : Reader.Goal} {source : String} {tree : Expr}
    (h : Reader.parse goal source = .ok tree) : ExactBooks tree := by
  obtain ⟨-, htree⟩ | ⟨-, loc, es, rfl, hes⟩ := parse_cases h
  · exact htree.parserBuilt.written.exactBooks
  · exact .of_parts trivial fun e hmem => (hes e hmem).parserBuilt.written.exactBooks

namespace Session

variable {session after : Session} {goal : Reader.Goal} {source : String}

theorem cleared_accounted (hs : session.state.Accounted) : session.cleared.state.Accounted :=
  ⟨hs.scope, hs.last, fun _ hmem => absurd hmem List.not_mem_nil⟩

theorem exactThroughout_of_parse (hs : session.state.Accounted) {tree : Expr}
    (hparse : Reader.parse goal source = .ok tree) :
    ExactThroughout session.settings ⟨session.settings.nesting, tree, session.cleared.state⟩ :=
  exactThroughout (exactBooks_of_parse hparse) (cleared_accounted hs)

theorem StepsTo.accounted {result : Except Reader.ReadError Outcome}
    (h : session.StepsTo goal source result after) (hs : session.state.Accounted) :
    after.state.Accounted := by
  cases h with
  | unread | refused => exact cleared_accounted hs
  | done hparse hend => exact ((exactThroughout_of_parse hs hparse).ends (.here _) hend).2
  | @failed tree failure s hparse hend =>
      have hfailed := (exactThroughout_of_parse hs hparse).fails (.here _) hend
      exact hfailed.withScope
        (List.forall_mem_singleton.mpr (hfailed.scope _ s.scope.root_mem_frames))

end Session

theorem Reachable.accounted {settings : Settings} {session : Session}
    (h : Reachable settings session) : session.state.Accounted := by
  induction h with
  | start console =>
      refine ⟨List.forall_mem_singleton.mpr (builtinFrame_each ExactBooks.value), nofun, ?_⟩
      exact fun _ hmem => absurd hmem List.not_mem_nil
  | step goal source _ ih =>
      obtain ⟨result, after, hstep⟩ := Session.exists_stepsTo _ goal source
      rw [hstep.handle_eq]
      exact hstep.accounted ih
  | console console _ ih => exact ⟨ih.scope, ih.last, ih.calls⟩

/-- What a step of a session does to the books. -/
structure ExactStep (session : Session) (goal : Reader.Goal) (source : String) : Prop where
  /-- They are exact before it. -/
  before : session.state.Accounted
  /-- They are exact after it. -/
  after : (session.handle goal source).2.state.Accounted
  /-- They are in what it comes to. -/
  value : ∀ {value}, (session.handle goal source).1 = .ok (.success value) → ExactBooks value
  /-- And they are throughout its run. -/
  run : ∀ {tree}, Reader.parse goal source = .ok tree →
    ExactThroughout session.settings ⟨session.settings.nesting, tree, session.cleared.state⟩

/-- **Partial applications keep exact books** in all sessions. -/
theorem books_exact {settings : Settings} {session : Session} (h : Reachable settings session)
    (goal : Reader.Goal) (source : String) : ExactStep session goal source := by
  refine ⟨h.accounted, (h.step goal source).accounted, fun hend => ?_,
    Session.exactThroughout_of_parse h.accounted⟩
  obtain ⟨tree, s, hparse, hrun⟩ := Session.success_iff.mp hend
  exact ((Session.exactThroughout_of_parse h.accounted hparse).ends (.here _) hrun).1

/-- A sum that has one of its arguments is used twice. -/
theorem books_exact_two_uses :
    let session := Session.start { nesting := 0, patience := 0 } (.ofInput "")
    Reachable session.settings session ∧
      ExactStep session .expression "{let f = +(1); [f(2), f(3)]}" ∧
      (session.handle .expression "{let f = +(1); [f(2), f(3)]}").1
        = .ok (.success (.list none [.int none 3, .int none 4])) := by
  intro session
  have hstart : Reachable session.settings session := .start (.ofInput "")
  refine ⟨hstart, books_exact hstart .expression _, ?_⟩
  obtain ⟨tree, hparse, s', hrun⟩ : ∃ tree,
      Reader.parse .expression "{let f = +(1); [f(2), f(3)]}" = .ok tree ∧
        ∃ s', evaluate session.settings tree session.cleared.state
          = .ok (.list none [.int none 3, .int none 4]) s' := by
    refine ⟨.block none [
      .binding (some ⟨1, 2⟩) "f"
        (.call (some ⟨1, 10⟩) (.ident (some ⟨1, 10⟩) "+") (some (.int none 1))),
      .list none [
        .call (some ⟨1, 17⟩) (.ident (some ⟨1, 17⟩) "f") (some (.int none 2)),
        .call (some ⟨1, 23⟩) (.ident (some ⟨1, 23⟩) "f") (some (.int none 3))]],
          by rfl, ?_⟩
    simp only [session]
    exact ⟨_, by cbv⟩
  exact Session.success_iff.mpr ⟨tree, s', hparse, hrun⟩

end ExprLang
