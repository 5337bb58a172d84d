import ExprLang.Proofs.Eval.Unwinding

/-!
# What a run comes to

From an evaluation that begins, `Reaches` follows those that it begins, and those that these begin,
as far as one likes; so it comes to every evaluation of a run, of one that fails as of one that ends
with a value. `Applies` and `Executes` say which operations and which functions are run on the way,
and on what.

What is hereditary holds of everything that a run comes to, if it holds of what the run starts with.
And a run that applies an operation which fails, fails (`Applies.fails`).
-/

namespace ExprLang

open EvalM

section
variable (settings : Settings)

/-- An evaluation comes to begin another one, or is it. -/
inductive Reaches : Evaluation → Evaluation → Prop
  | here (ev : Evaluation) : Reaches ev ev
  | within {ev mid sub : Evaluation} {call : Option CallRecord} : Starts settings ev call mid →
      Reaches mid sub → Reaches ev sub

/-- In the course of an evaluation an operation comes to be run. -/
def Applies (ev : Evaluation) (call : CallRecord) : Prop :=
  ∃ inner s₁, Reaches settings ev inner ∧ Operates settings inner call s₁

/-- In the course of an evaluation the body of a function comes to be executed. -/
def Executes (ev : Evaluation) (call : CallRecord) : Prop :=
  ∃ inner body s₁, Reaches settings ev inner ∧ Enters settings inner call body s₁

/-- An evaluation fails within another one, which it comes to. -/
inductive FailsAt (ev : Evaluation) : Failure → Prop
  | breaks {inner raw} : Reaches settings ev inner → Breaks settings inner raw → FailsAt ev raw
  | operates {inner call s₁ raw console} : Reaches settings ev inner →
      Operates settings inner call s₁ →
      runBuiltin call.name call.args (s₁.noted settings call.operationNote).console
        = .error raw console → FailsAt ev raw
  | tooDeep {inner call body s₁} : Reaches settings ev inner → inner.nesting = 0 →
      Enters settings inner call body s₁ → FailsAt ev .tooDeep

end

variable {settings : Settings}

/-! ## What is reached inherits -/

section
variable {P : Expr → Prop} (hP : Hereditary P) {ev : Evaluation} (htree : P ev.tree)
  (heach : ev.state.scope.Each P)
include hP htree heach

theorem Operates.inherits {call : CallRecord} {s₁ : RunState}
    (h : Operates settings ev call s₁) : P call.callee := by
  cases h with
  | full hcallee =>
      have hpart := hP.parts htree _ (Expr.callee_mem_parts _ _ _)
      exact (evalNested_inherits hP hpart heach.enter hcallee).1
  | last hcallee harg =>
      have hpart := hP.parts htree _ (Expr.callee_mem_parts _ _ _)
      have hpart' := hP.parts htree _ (Expr.arg_mem_parts _ _ _)
      obtain ⟨hfound, -, heach₁⟩ := evalNested_inherits hP hpart heach.enter hcallee
      exact hP.supply hfound (evalNested_inherits hP hpart' heach₁ harg).1

/-- The arguments of an operation are what its built-in holds. -/
theorem Operates.inherits_args {call : CallRecord} {s₁ : RunState}
    (h : Operates settings ev call s₁) : ∀ a ∈ call.args, P a := by
  have hcallee := h.inherits hP htree heach
  cases h with
  | full | last => exact hP.parts hcallee

theorem Enters.inherits_args {call : CallRecord} {body : Expr} {s₁ : RunState}
    (h : Enters settings ev call body s₁) : ∀ a ∈ call.args, P a := by
  cases h with
  | bare => exact fun _ hmem => absurd hmem List.not_mem_nil
  | given hcallee harg =>
      have hpart := hP.parts htree _ (Expr.callee_mem_parts _ _ _)
      have hpart' := hP.parts htree _ (Expr.arg_mem_parts _ _ _)
      obtain ⟨-, -, heach₁⟩ := evalNested_inherits hP hpart heach.enter hcallee
      exact List.forall_mem_singleton.mpr (evalNested_inherits hP hpart' heach₁ harg).1

theorem Reaches.inherits {sub : Evaluation} (h : Reaches settings ev sub) :
    P sub.tree ∧ sub.state.scope.Each P := by
  induction h with
  | here => exact ⟨htree, heach⟩
  | within hstarts _ ih =>
      obtain ⟨htree', heach', -⟩ := hstarts.inherits hP htree heach
      exact ih htree' heach'

theorem Applies.inherits {call : CallRecord} (h : Applies settings ev call) :
    P call.callee ∧ ∀ a ∈ call.args, P a := by
  obtain ⟨inner, s₁, hreaches, hoperates⟩ := h
  obtain ⟨htree', heach'⟩ := hreaches.inherits hP htree heach
  exact ⟨hoperates.inherits hP htree' heach', hoperates.inherits_args hP htree' heach'⟩

theorem Executes.inherits {call : CallRecord} (h : Executes settings ev call) :
    ∀ a ∈ call.args, P a := by
  obtain ⟨inner, body, s₁, hreaches, henters⟩ := h
  obtain ⟨htree', heach'⟩ := hreaches.inherits hP htree heach
  exact henters.inherits_args hP htree' heach'

end

/-! ## The expressions of a program -/

/-- A program begins the evaluations of its expressions, and no other. -/
theorem Starts.of_program {nesting : Nat} {loc : Option Loc} {es : List Expr} {s : RunState}
    {call : Option CallRecord} {sub : Evaluation}
    (h : Starts settings ⟨nesting, .program loc es, s⟩ call sub) :
    ∃ before e after s₁, es = before ++ e :: after ∧ sub = ⟨nesting, e, s₁⟩ ∧
      Passes settings nesting RunState.withLast before s.entered s₁ := by
  cases h with
  | topLevel hbefore => exact ⟨_, _, _, _, rfl, rfl, hbefore⟩
  | body henters => cases henters

/-- What a program comes to, apart from itself, one of its expressions comes to, in a state in which
the values on the stack have the properties that they had, and that the expressions have. -/
theorem Reaches.of_program {nesting : Nat} {loc : Option Loc} {es : List Expr} {s : RunState}
    {sub : Evaluation} (h : Reaches settings ⟨nesting, .program loc es, s⟩ sub) :
    sub = ⟨nesting, .program loc es, s⟩ ∨
      ∃ e ∈ es, ∃ s₁, Reaches settings ⟨nesting, e, s₁⟩ sub ∧
      ∀ {P : Expr → Prop}, Hereditary P → (∀ e ∈ es, P e) → s.scope.Each P →
        s₁.scope.Each P := by
  cases h with
  | here => exact .inl rfl
  | within hstarts hreaches =>
      obtain ⟨before, e, after, s₁, rfl, rfl, hbefore⟩ := hstarts.of_program
      refine .inr ⟨e, List.mem_append_right _ List.mem_cons_self, s₁, hreaches, ?_⟩
      intro P hP hes heach
      have hkeep : ∀ value s, s.Level (RunState.withLast value s) ∧
          (RunState.withLast value s).scope = s.scope := fun _ _ => ⟨⟨rfl, rfl, rfl⟩, rfl⟩
      exact (hbefore.inherits hP hkeep (List.forall_mem_append.mp hes).1 heach.enter).2

/-! ## Failures -/

theorem FailsAt.within {ev sub : Evaluation} {call : Option CallRecord} {raw : Failure}
    (hstarts : Starts settings ev call sub) (h : FailsAt settings sub raw) :
    FailsAt settings ev raw := by
  cases h with
  | breaks hreaches hbreaks => exact .breaks (.within hstarts hreaches) hbreaks
  | operates hreaches hoperates hrun => exact .operates (.within hstarts hreaches) hoperates hrun
  | tooDeep hreaches hnesting henters => exact .tooDeep (.within hstarts hreaches) hnesting henters

/-- An evaluation that comes to a point where it fails reaches the evaluation that fails there. -/
theorem FailsIn.failsAt {ev : Evaluation} {activity : Activity} {raw : Failure}
    (h : FailsIn settings ev activity raw) : FailsAt settings ev raw := by
  induction h with
  | breaks hbreaks => exact .breaks (.here _) hbreaks
  | operates hoperates hrun => exact .operates (.here _) hoperates hrun
  | tooDeep henters => exact .tooDeep (.here _) rfl henters
  | within hstarts _ ih => exact ih.within hstarts

/-- What fails in an evaluation that is reached, fails in the one that reaches it. -/
theorem Reaches.failsIn {ev sub : Evaluation} {activity : Activity} {raw : Failure}
    (h : Reaches settings ev sub) (hin : FailsIn settings sub activity raw) :
    ∃ activity, FailsIn settings ev activity raw := by
  induction h with
  | here => exact ⟨activity, hin⟩
  | within hstarts _ ih =>
      obtain ⟨activity', hin'⟩ := ih hin
      exact ⟨_, .within hstarts hin'⟩

/-- An operation that fails, whatever there is on the console, fails every run that applies it. -/
theorem Applies.fails {nesting : Nat} {e : Expr} {s : RunState} {call : CallRecord} {raw : Failure}
    (h : Applies settings ⟨nesting, e, s⟩ call)
    (hrun : ∀ console, ∃ console',
      runBuiltin call.name call.args console = .error raw console') :
    ∃ activity s', FailsIn settings ⟨nesting, e, s⟩ activity raw ∧
      evalNested settings nesting e s = .error (raw.locate activity.place) s' := by
  obtain ⟨inner, s₁, hreaches, hoperates⟩ := h
  obtain ⟨console', hend⟩ := hrun (s₁.noted settings call.operationNote).console
  obtain ⟨activity, hin⟩ := hreaches.failsIn (.operates hoperates hend)
  obtain ⟨s', hfails, -⟩ := hin.fails
  exact ⟨activity, s', hin, hfails⟩

end ExprLang
