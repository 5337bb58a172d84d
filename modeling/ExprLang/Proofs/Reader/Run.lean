import ExprLang.Reader.Machine

/-!
# Runs of the reading machine

How runs compose, and what a single token does, said by the focus and the stack that it meets:
`step_operand_of_begin` where an expression may begin, `step_of_complete` after a complete one.
-/

namespace ExprLang.Reader

/-! ## Complete expressions -/

/-- The expression that is complete at a focus. -/
def Focus.complete? : Focus → Option Expr
  | .callable e _ => some e
  | .whole e => some e
  | .afterYes loc test yes => some (.choice (some loc) test yes noElse)
  | _ => none

/-- The machine has read, on a stack and a focus, what settles on another stack as an expression
does. -/
def Ended (stack : List Context) (focus : Focus) (under : List Context) (e : Expr) : Prop :=
  ∃ last, focus.complete? = some last ∧ settle stack last = settle under e

/-- Whether an expression may begin on a stack. -/
def State.Admits (state : State) (stack : List Context) : Prop :=
  stack ≠ [] ∨ state.acceptsMore = true

theorem State.admits_cons (state : State) (context : Context) (stack : List Context) :
    state.Admits (context :: stack) := .inl (List.cons_ne_nil _ _)

namespace State

@[simp] theorem move_stack (state : State) (stack : List Context) (focus : Focus) :
    (state.move stack focus).stack = stack := rfl

/-! ## Composing runs -/

theorem run_cons_of_step {state state' : State} {lexeme : Lexeme} (rest : List Lexeme)
    (h : state.step lexeme = some state') : state.run (lexeme :: rest) = state'.run rest := by
  rw [run, h]

theorem run_append_of_run {state state' : State} {lexemes : List Lexeme} (rest : List Lexeme)
    (h : state.run lexemes = .ok state') : state.run (lexemes ++ rest) = state'.run rest := by
  induction lexemes generalizing state with
  | nil =>
      obtain rfl : state = state' := Except.ok.inj h
      rfl
  | cons lexeme lexemes ih =>
      rw [run] at h
      cases hstep : state.step lexeme with
      | none =>
          rw [hstep] at h
          exact absurd h nofun
      | some next =>
          rw [hstep] at h
          rw [List.cons_append, run_cons_of_step _ hstep]
          exact ih h

/-! ## The goal -/

theorem goal_of_beginOn {state state' : State} {stack : List Context} {lexeme : Lexeme}
    (h : state.beginOn stack lexeme = some state') : state'.goal = state.goal := by
  obtain ⟨⟨stack', focus⟩, -, rfl⟩ := Option.map_eq_some_iff.mp h
  rfl

theorem goal_of_operandStep {state state' : State} {lexeme : Lexeme}
    (h : state.operandStep lexeme = some state') : state'.goal = state.goal := by
  unfold operandStep at h
  split at h
  next => cases h; rfl
  next => cases h; rfl
  next =>
      split at h
      next => cases h; rfl
      next => exact goal_of_beginOn h
  next => cases h; rfl
  next =>
      split at h
      next => exact goal_of_beginOn h
      next => exact absurd h nofun
  next => exact goal_of_beginOn h

theorem goal_of_follow {state state' : State} {lexeme : Lexeme} {settled : List Context × Expr}
    (h : state.follow lexeme settled = some state') : state'.goal = state.goal := by
  unfold follow at h
  split at h
  next =>
      split at h
      next => cases h; rfl
      next => exact absurd h nofun
  next =>
      split at h
      next => cases h; rfl
      next => exact absurd h nofun
  next =>
      split at h
      next => cases h; rfl
      next =>
          split at h
          next => cases h; rfl
          next => exact absurd h nofun
  next => exact (goal_of_operandStep h).trans rfl
  next => exact (goal_of_operandStep h).trans rfl
  next => exact absurd h nofun

/-- A step reads for the same goal. -/
theorem goal_of_step {state state' : State} {lexeme : Lexeme}
    (h : state.step lexeme = some state') : state'.goal = state.goal := by
  unfold step at h
  split at h
  all_goals first
    | exact goal_of_operandStep h
    | exact goal_of_follow h
    | (cases h; done)
    | (cases h; rfl)

/-- A run reads for the same goal. -/
theorem goal_of_run {state state' : State} {lexemes : List Lexeme}
    (h : state.run lexemes = .ok state') : state'.goal = state.goal := by
  induction lexemes generalizing state with
  | nil =>
      obtain rfl : state = state' := Except.ok.inj h
      rfl
  | cons lexeme lexemes ih =>
      rw [run] at h
      cases hstep : state.step lexeme with
      | none =>
          rw [hstep] at h
          exact absurd h nofun
      | some next =>
          rw [hstep] at h
          exact (ih h).trans (goal_of_step hstep)

/-! ## Where an expression may begin -/

@[simp] theorem step_operand (state : State) (stack : List Context) (lexeme : Lexeme) :
    (state.move stack .operand).step lexeme = (state.move stack .operand).operandStep lexeme := rfl

/-- The only signs that an expression can begin with are those that open a list or a block. -/
theorem begin_sign {stack : List Context} {loc : Loc} {mark : Sign} (hlist : mark ≠ .openBracket)
    (hblock : mark ≠ .openBrace) : begin stack loc (.sign mark) = none := by
  cases mark with
  | openBracket => exact absurd rfl hlist
  | openBrace => exact absurd rfl hblock
  | _ => rfl

/-- A token that an expression can begin with begins one. -/
theorem step_operand_of_begin {state : State} {stack stack' : List Context} {focus : Focus}
    {lexeme : Lexeme} (hadmits : state.Admits stack)
    (hbegin : begin stack lexeme.loc lexeme.token = some (stack', focus)) :
    (state.move stack .operand).step lexeme = some (state.move stack' focus) := by
  have hbeginOn : (state.move stack .operand).beginOn stack lexeme
      = some (state.move stack' focus) := by
    rw [beginOn, hbegin]
    rfl
  have hsign : ∀ {mark : Sign}, lexeme.token = .sign mark → mark ≠ .openBracket →
      mark ≠ .openBrace → False := by
    intro mark htoken hlist hblock
    rw [htoken, begin_sign hlist hblock] at hbegin
    exact nomatch hbegin
  rw [step_operand, operandStep, move_stack]
  -- the signs that have a meaning of their own here are none that an expression begins with
  split
  next htoken => exact (hsign htoken nofun nofun).elim
  next htoken => exact (hsign htoken nofun nofun).elim
  next role done rest mark htoken =>
      rw [if_neg]
      · exact hbeginOn
      · rintro rfl
        cases role with
        | list loc => exact hsign htoken nofun nofun
        | arguments loc callee => exact hsign htoken nofun nofun
  next htoken => exact (hsign htoken nofun nofun).elim
  next =>
      have hmore : (state.move [] .operand).acceptsMore = true := hadmits.resolve_left (· rfl)
      exact (if_pos hmore).trans hbeginOn
  next => exact hbeginOn

/-! ## After a complete expression -/

theorem follow_move (state : State) (stack : List Context) (focus : Focus) (lexeme : Lexeme)
    (settled : List Context × Expr) :
    (state.move stack focus).follow lexeme settled = state.follow lexeme settled := by
  unfold follow
  rfl

/-- A token that neither opens arguments nor a second branch follows the expression that has
settled. -/
theorem step_of_complete {state : State} {stack : List Context} {focus : Focus} {e : Expr}
    {lexeme : Lexeme} (hcomplete : focus.complete? = some e)
    (hopen : lexeme.token ≠ .sign .openParen) (helse : lexeme.token ≠ .keyword .kwElse) :
    (state.move stack focus).step lexeme = state.follow lexeme (settle stack e) := by
  rw [← follow_move state stack focus]
  cases focus with
  | callable e' loc =>
      obtain rfl : e' = e := Option.some.inj hcomplete
      unfold step
      split <;> simp_all [move]
  | whole e' =>
      obtain rfl : e' = e := Option.some.inj hcomplete
      rfl
  | afterYes loc test yes =>
      obtain rfl : Expr.choice (some loc) test yes noElse = e := Option.some.inj hcomplete
      unfold step
      split <;> simp_all [move]
  | _ => exact absurd hcomplete nofun

/-- The end of the source after a complete expression. -/
theorem exprs?_of_complete {state : State} {stack : List Context} {focus : Focus} {e : Expr}
    (hcomplete : focus.complete? = some e) :
    (state.move stack focus).exprs? = exprs?.ending (state.move stack focus) e := by
  cases focus with
  | callable e' loc =>
      obtain rfl : e' = e := Option.some.inj hcomplete
      rfl
  | whole e' =>
      obtain rfl : e' = e := Option.some.inj hcomplete
      rfl
  | afterYes loc test yes =>
      obtain rfl : Expr.choice (some loc) test yes noElse = e := Option.some.inj hcomplete
      rfl
  | _ => exact absurd hcomplete nofun

end State

end ExprLang.Reader
