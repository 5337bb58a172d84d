import ExprLang.Proofs.Reader.Acceptance

/-!
# No token is taken in vain

The machine takes a token only if the source can still be completed: from every state that a run
reaches, some more tokens lead to a tree (`State.HasRoom.completable`). The tokens that it adds are
those that close what is open, from the innermost construct outwards (`completable_of_ended`).

So the machine takes exactly the beginnings of sources that have a tree (`run_eq_ok_iff_viable`),
and the token that it refuses is the first one with which the source cannot be continued.
-/

namespace ExprLang

open Reader (Goal)

/-- Tokens that a sequence of tokens with a tree begins with. -/
def Grammar.Viable (goal : Goal) (tokens : List Token) : Prop :=
  ∃ rest tree, DerivesTree goal (tokens ++ rest) tree

namespace Reader

open Grammar

namespace State

/-! ## Room for one expression -/

/-- One more expression may be read, or the single one that is wanted has been read and is
complete. -/
def HasRoom (state : State) : Prop :=
  state.goal = .program ∨ state.done = [] ∨
    ∃ e, state.done = [e] ∧ state.stack = [] ∧ state.focus = .operand

theorem done_of_operandStep {state state' : State} {lexeme : Lexeme}
    (h : state.operandStep lexeme = some state') : state'.done = state.done := by
  have hbegin : ∀ {stack}, state.beginOn stack lexeme = some state' →
      state'.done = state.done := by
    intro stack h
    obtain ⟨⟨stack', focus⟩, -, rfl⟩ := Option.map_eq_some_iff.mp h
    rfl
  unfold operandStep at h
  split at h
  next => cases h; rfl
  next => cases h; rfl
  next =>
      split at h
      next => cases h; rfl
      next => exact hbegin h
  next => cases h; rfl
  next =>
      split at h
      next => exact hbegin h
      next => exact absurd h nofun
  next => exact hbegin h

/-- After the single expression that is wanted only semicolons may come. -/
theorem operandStep_of_full {state state' : State} {lexeme : Lexeme} (hstack : state.stack = [])
    (hfull : state.acceptsMore = false) (h : state.operandStep lexeme = some state') :
    state' = state := by
  unfold operandStep at h
  rw [hstack] at h
  split at h
  next hcons _ => exact absurd hcons nofun
  next hcons _ => exact absurd hcons nofun
  next hcons _ => exact absurd hcons nofun
  next => exact (Option.some.inj h).symm
  next => simp [hfull] at h
  next hnil _ _ _ _ => exact (hnil rfl).elim

/-- What follows an expression keeps those read before it, and adds the expression to them if it has
settled at the outermost level. -/
theorem done_of_follow {state state' : State} {lexeme : Lexeme} {settled : List Context × Expr}
    (h : state.follow lexeme settled = some state') : state'.done = state.done ∨
      ∃ e, ({ state with done := e :: state.done }.move [] .operand).operandStep lexeme
        = some state' := by
  unfold follow at h
  split at h
  next =>
      split at h
      next => cases h; exact .inl rfl
      next => exact absurd h nofun
  next =>
      split at h
      next => cases h; exact .inl rfl
      next => exact absurd h nofun
  next =>
      split at h
      next => cases h; exact .inl rfl
      next =>
          split at h
          next => cases h; exact .inl rfl
          next => exact absurd h nofun
  next => exact .inl ((done_of_operandStep h).trans rfl)
  next e => exact .inr ⟨e, h⟩
  next => exact absurd h nofun

theorem done_of_step {state state' : State} {lexeme : Lexeme}
    (h : state.step lexeme = some state') : state'.done = state.done ∨
      ∃ e, ({ state with done := e :: state.done }.move [] .operand).operandStep lexeme
        = some state' := by
  unfold step at h
  split at h
  all_goals first
    | exact .inl (done_of_operandStep h)
    | exact done_of_follow h
    | (cases h; done)
    | (cases h; exact .inl rfl)

theorem hasRoom_initial (goal : Goal) : (initial goal).HasRoom := .inr (.inl rfl)

theorem HasRoom.step {state state' : State} {lexeme : Lexeme} (h : state.HasRoom)
    (hstep : state.step lexeme = some state') : state'.HasRoom := by
  have hgoal := goal_of_step hstep
  cases hg : state.goal with
  | program => exact .inl (hgoal.trans hg)
  | expression =>
      obtain hprogram | hnone | ⟨e, hone, hstack, hfocus⟩ := h
      · exact absurd (hg.symm.trans hprogram) nofun
      · obtain hdone | ⟨e, houtermost⟩ := done_of_step hstep
        · exact .inr (.inl (hdone.trans hnone))
        · have hfull : ({ state with done := e :: state.done }.move [] .operand).acceptsMore
              = false := by
            simp [acceptsMore, move, hg]
          obtain rfl := operandStep_of_full rfl hfull houtermost
          exact .inr (.inr ⟨e, by simp [move, hnone], rfl, rfl⟩)
      · have hfull : state.acceptsMore = false := by simp [acceptsMore, hg, hone]
        unfold State.step at hstep
        rw [hfocus] at hstep
        obtain rfl := operandStep_of_full hstack hfull hstep
        exact .inr (.inr ⟨e, hone, hstack, hfocus⟩)

theorem HasRoom.run {state state' : State} {lexemes : List Lexeme} (h : state.HasRoom)
    (hrun : state.run lexemes = .ok state') : state'.HasRoom := by
  induction lexemes generalizing state with
  | nil =>
      obtain rfl : state = state' := Except.ok.inj hrun
      exact h
  | cons lexeme lexemes ih =>
      rw [State.run] at hrun
      cases hstep : state.step lexeme with
      | none =>
          rw [hstep] at hrun
          cases hrun
      | some next =>
          rw [hstep] at hrun
          exact ih (h.step hstep) hrun

/-! ## Completing a source -/

/-- Some more tokens lead to a tree. -/
def Completable (state : State) : Prop :=
  ∃ rest last tree, state.run rest = .ok last ∧ last.finish = some tree

theorem Completable.of_step {state next : State} (lexeme : Lexeme)
    (hstep : state.step lexeme = some next) (h : next.Completable) : state.Completable := by
  obtain ⟨rest, last, tree, hrun, hfinish⟩ := h
  exact ⟨lexeme :: rest, last, tree, (run_cons_of_step rest hstep).trans hrun, hfinish⟩

/-- Whatever braces belong to, they end an expression. -/
theorem ended_closeBlock (es : List Expr) (role : BlockRole) (stack : List Context) :
    ∃ e, Ended stack (closeBlock es role) stack e := by
  cases role with
  | plain | yes | no | loop | fn => exact ⟨_, _, rfl, rfl⟩

theorem ended_closeItems (es : List Expr) (role : ItemsRole) (stack : List Context) :
    ∃ e, Ended stack (closeItems es role) stack e := by
  cases role with
  | list | arguments => exact ⟨_, _, rfl, rfl⟩

section
variable {state : State} (hroom : state.goal = .program ∨ state.done = [])
include hroom

/-- After an expression that nothing is open around, the source is complete. -/
theorem finish_of_ended {stack : List Context} {focus : Focus} {e : Expr}
    (hended : Ended stack focus [] e) : ∃ tree, (state.move stack focus).finish = some tree := by
  have hexprs : (state.move stack focus).exprs? = some (state.done.reverse ++ [e]) :=
    exprs?_of_ended hended
  cases hg : state.goal with
  | program =>
      have hgoal : (state.move stack focus).goal = .program := hg
      rw [finish, hgoal, hexprs]
      exact ⟨_, rfl⟩
  | expression =>
      have hgoal : (state.move stack focus).goal = .expression := hg
      have hnone : state.done = [] := hroom.resolve_left (by simp [hg])
      rw [finish, hgoal, hexprs, hnone]
      exact ⟨e, rfl⟩

/-- After an expression the source can be completed: what is open around it is closed, from the
inside out. -/
theorem completable_of_ended {under stack : List Context} {focus : Focus} {e : Expr}
    (hended : Ended stack focus under e) : (state.move stack focus).Completable := by
  -- each construct either settles together with the expression or needs a token or two to be closed
  induction under generalizing stack focus e with
  | nil =>
      obtain ⟨tree, htree⟩ := finish_of_ended hroom hended
      exact ⟨[], _, tree, rfl, htree⟩
  | cons context under ih =>
      cases context with
      | binding loc name => exact ih hended
      | elseIf loc test yes => exact ih hended
      | choiceTest loc =>
          have hopen := (step_sign_of_ended hended (by nofun)).trans
            (follow_choiceTest state under loc .start e)
          refine .of_step _ hopen (.of_step ⟨.sign .closeBrace, .start⟩ rfl ?_)
          exact ih ⟨_, rfl, rfl⟩
      | loopTest loc =>
          have hopen := (step_sign_of_ended hended (by nofun)).trans
            (follow_loopTest state under loc .start e)
          refine .of_step _ hopen (.of_step ⟨.sign .closeBrace, .start⟩ rfl ?_)
          exact ih ⟨_, rfl, rfl⟩
      | block role done =>
          have hclose : (state.move stack focus).step ⟨.sign .closeBrace, .start⟩
              = some (state.move under (closeBlock (e :: done).reverse role)) :=
            step_sign_of_ended hended (by nofun)
          obtain ⟨e', hended'⟩ := ended_closeBlock (e :: done).reverse role under
          exact .of_step _ hclose (ih hended')
      | items role done =>
          have hclose : (state.move stack focus).step ⟨.sign role.closing, .start⟩
              = some (state.move under (closeItems (e :: done).reverse role)) :=
            step_closing_of_ended hended
          obtain ⟨e', hended'⟩ := ended_closeItems (e :: done).reverse role under
          exact .of_step _ hclose (ih hended')

/-- Where an expression may begin, one can be put. -/
theorem completable_operand {stack : List Context} (hadmits : state.Admits stack) :
    (state.move stack .operand).Completable := by
  have hnull : (state.move stack .operand).step ⟨.keyword .kwNull, .start⟩
      = some (state.move stack (.callable .null .start)) := step_operand_of_begin hadmits rfl
  exact .of_step _ hnull (completable_of_ended hroom ⟨_, rfl, rfl⟩)

/-- Braces that have been opened can be closed. -/
theorem completable_braces (stack : List Context) (role : BlockRole) :
    (state.move (.block role [] :: stack) .operand).Completable := by
  obtain ⟨e, hended⟩ := ended_closeBlock [] role stack
  exact .of_step ⟨.sign .closeBrace, .start⟩ rfl (completable_of_ended hroom hended)

/-- A function whose parameters are complete can be completed. -/
theorem completable_fnBody (stack : List Context) (loc : Loc) (params : List String) :
    (state.move stack (.fnBody loc params)).Completable :=
  .of_step ⟨.sign .openBrace, .start⟩ rfl (completable_braces hroom stack _)

/-- A function with a parameter can be completed. -/
theorem completable_fnNext (stack : List Context) (loc : Loc) (params : List String) :
    (state.move stack (.fnNext loc params)).Completable :=
  .of_step ⟨.sign .closeParen, .start⟩ rfl (completable_fnBody hroom stack loc params)

theorem completable_bindingEquals (stack : List Context) (loc : Loc) (name : String) :
    (state.move stack (.bindingEquals loc name)).Completable :=
  .of_step ⟨.sign .equals, .start⟩ rfl
    (completable_operand hroom (state.admits_cons _ _))

theorem completable_fnFirst (stack : List Context) (loc : Loc) :
    (state.move stack (.fnFirst loc)).Completable :=
  .of_step ⟨.sign .closeParen, .start⟩ rfl (completable_fnBody hroom stack loc [])

/-- Every focus can be completed, given room for an expression where one has to begin. -/
theorem completable_move (stack : List Context) (focus : Focus)
    (hoperand : focus = .operand → state.Admits stack) :
    (state.move stack focus).Completable := by
  cases focus with
  | operand => exact completable_operand hroom (hoperand rfl)
  | callable e loc => exact completable_of_ended hroom ⟨_, rfl, rfl⟩
  | whole e => exact completable_of_ended hroom ⟨_, rfl, rfl⟩
  | afterYes loc test yes => exact completable_of_ended hroom ⟨_, rfl, rfl⟩
  | afterElse loc test yes =>
      exact .of_step ⟨.sign .openBrace, .start⟩ rfl (completable_braces hroom stack _)
  | bindingName loc =>
      exact .of_step ⟨.name "x", .start⟩ rfl
        (completable_bindingEquals hroom stack loc "x")
  | bindingEquals loc name => exact completable_bindingEquals hroom stack loc name
  | fnOpen loc =>
      exact .of_step ⟨.sign .openParen, .start⟩ rfl (completable_fnFirst hroom stack loc)
  | fnFirst loc => exact completable_fnFirst hroom stack loc
  | fnNext loc params => exact completable_fnNext hroom stack loc params
  | fnParam loc params =>
      exact .of_step ⟨.name "x", .start⟩ rfl (completable_fnNext hroom stack loc _)
  | fnBody loc params => exact completable_fnBody hroom stack loc params

end

/-- A state with room can be completed. -/
theorem HasRoom.completable {state : State} (h : state.HasRoom) : state.Completable := by
  obtain ⟨goal, done, stack, focus⟩ := state
  have hmove : ∀ hroom : goal = .program ∨ done = [],
      (⟨goal, done, stack, focus⟩ : State).Completable := by
    intro hroom
    refine @completable_move ⟨goal, done, stack, focus⟩ hroom stack focus fun _ => ?_
    obtain rfl | rfl := hroom
    · exact .inr rfl
    · exact .inr (by simp [acceptsMore])
  obtain hprogram | hnone | ⟨e, hone, hstack, hfocus⟩ := h
  · exact hmove (.inl hprogram)
  · exact hmove (.inr hnone)
  · -- the single expression has been read, and the source may end
    obtain rfl : done = [e] := hone
    obtain rfl : stack = [] := hstack
    obtain rfl : focus = .operand := hfocus
    cases goal with
    | program => exact hmove (.inl rfl)
    | expression => exact ⟨[], _, e, rfl, rfl⟩

/-! ## Beginnings of sources -/

theorem run_append_eq_ok {state state' : State} {lexemes rest : List Lexeme}
    (h : state.run (lexemes ++ rest) = .ok state') :
    ∃ middle, state.run lexemes = .ok middle := by
  induction lexemes generalizing state with
  | nil => exact ⟨state, rfl⟩
  | cons lexeme lexemes ih =>
      rw [List.cons_append, run] at h
      rw [run]
      cases hstep : state.step lexeme with
      | none =>
          rw [hstep] at h
          cases h
      | some next =>
          rw [hstep] at h
          exact ih h

/-- A run that is refused a token has taken all tokens before it. -/
theorem run_eq_error {state : State} {lexemes : List Lexeme} {lexeme : Lexeme}
    (h : state.run lexemes = .error lexeme) :
    ∃ before after state', lexemes = before ++ lexeme :: after ∧
      state.run before = .ok state' ∧ state'.step lexeme = none := by
  induction lexemes generalizing state with
  | nil => exact absurd h nofun
  | cons first rest ih =>
      rw [run] at h
      cases hstep : state.step first with
      | none =>
          rw [hstep] at h
          obtain rfl : first = lexeme := Except.error.inj h
          exact ⟨[], rest, state, rfl, rfl, hstep⟩
      | some next =>
          rw [hstep] at h
          obtain ⟨before, after, state', rfl, hrun, hrefused⟩ := ih h
          exact ⟨first :: before, after, state', rfl, (run_cons_of_step before hstep).trans hrun,
            hrefused⟩

end State

/-- The machine takes exactly the beginnings of sources that have a tree. -/
theorem run_eq_ok_iff_viable {goal : Goal} {lexemes : List Lexeme} :
    (∃ state, (State.initial goal).run lexemes = .ok state)
      ↔ Viable goal (lexemes.map (·.token)) := by
  constructor
  · rintro ⟨state, hrun⟩
    obtain ⟨rest, last, tree, hrest, hfinish⟩ :=
      ((State.hasRoom_initial goal).run hrun).completable
    have hall : (State.initial goal).run (lexemes ++ rest) = .ok last :=
      (State.run_append_of_run rest hrun).trans hrest
    refine ⟨rest.map (·.token), tree.unlocated, lexemes ++ rest, tree,
      List.map_append, ?_, rfl⟩
    exact derivesGoal_of_finish hall hfinish
  · rintro ⟨rest, tree, hderives⟩
    -- the tokens that are added may stand anywhere
    have htokens : lexemes.map (·.token) ++ rest
        = (lexemes ++ rest.map fun token => (⟨token, .start⟩ : Lexeme)).map (·.token) := by
      simp [Function.comp_def]
    rw [htokens] at hderives
    obtain ⟨located, hlocated, -⟩ := derivesTree_at_places hderives
    obtain ⟨last, hrun, -⟩ := finish_of_derivesGoal hlocated
    exact State.run_append_eq_ok hrun

end Reader

end ExprLang
