import ExprLang.Proofs.Grammar
import ExprLang.Proofs.Reader.Run

/-!
# Every derivation is read

A derivation drives the machine: where the tokens of a phrase stand, the machine takes them all and
arrives at what the phrase means (`Drives`, `drives_of_derives`).

An expression is special in that the machine need not have noticed its end: it stands at an
expression that is complete and settles as the phrase does (`Ended`). The next token decides, and no
phrase begins with one that would go on with the expression.
-/

namespace ExprLang.Reader

open Grammar

/-! ## What a phrase does to the machine -/

/-- What the machine does with the tokens of a phrase, in all states in which they may come. -/
def Drives (lexemes : List Lexeme) : Phrase → Prop
  | .expr e => ∀ (state : State) (stack : List Context), state.Admits stack →
      ∃ stack' focus, (state.move stack .operand).run lexemes = .ok (state.move stack' focus) ∧
        Ended stack' focus stack e
  | .choice e => ∃ loc rest, lexemes = ⟨.keyword .kwIf, loc⟩ :: rest ∧
      ∀ (state : State) (stack : List Context), ∃ stack' focus,
        (state.move (.choiceTest loc :: stack) .operand).run rest
          = .ok (state.move stack' focus) ∧
          Ended stack' focus stack e
  | .call e => ∃ first rest, lexemes = first :: rest ∧
      ∀ (state : State) (stack : List Context), state.Admits stack →
        (state.move stack .operand).run lexemes = .ok (state.move stack (.callable e first.loc))
  | .block es => ∃ loc rest, lexemes = ⟨.sign .openBrace, loc⟩ :: rest ∧
      ∀ (state : State) (stack : List Context) (role : BlockRole),
        (state.move (.block role [] :: stack) .operand).run rest
          = .ok (state.move stack (closeBlock es role))
  | .sequence es =>
      (∀ (state : State) (stack : List Context) (role : BlockRole) (done : List Expr) (loc : Loc),
        (state.move (.block role done :: stack) .operand).run
          (lexemes ++ [⟨.sign .closeBrace, loc⟩])
          = .ok (state.move stack (closeBlock (done.reverse ++ es) role))) ∧
      ∀ state : State, state.goal = .program → ∃ state',
        (state.move [] .operand).run lexemes = .ok state' ∧ state'.goal = .program ∧
          state'.exprs? = some (state.done.reverse ++ es)
  | .items es =>
      ∀ (state : State) (stack : List Context) (role : ItemsRole) (done : List Expr) (loc : Loc),
        (state.move (.items role done :: stack) .operand).run
            (lexemes ++ [⟨.sign role.closing, loc⟩])
          = .ok (state.move stack (closeItems (done.reverse ++ es) role))

/-! ## Pieces of runs -/

/-- What a detached token does after an expression that the machine has read. -/
theorem step_of_ended {state : State} {stack stack' : List Context} {focus : Focus} {e : Expr}
    {lexeme : Lexeme} (hended : Ended stack' focus stack e) (hdetached : Detached lexeme.token) :
    (state.move stack' focus).step lexeme = state.follow lexeme (settle stack e) := by
  obtain ⟨last, hcomplete, hsettle⟩ := hended
  rw [State.step_of_complete hcomplete hdetached.1 hdetached.2, hsettle]

theorem step_sign_of_ended {state : State} {stack stack' : List Context} {focus : Focus} {e : Expr}
    {mark : Sign} {loc : Loc} (hended : Ended stack' focus stack e) (hmark : mark ≠ .openParen) :
    (state.move stack' focus).step ⟨.sign mark, loc⟩
      = state.follow ⟨.sign mark, loc⟩ (settle stack e) :=
  step_of_ended hended (detached_sign hmark)

theorem follow_choiceTest (state : State) (stack : List Context) (loc brace : Loc) (c : Expr) :
    state.follow ⟨.sign .openBrace, brace⟩ (settle (.choiceTest loc :: stack) c)
      = some (state.move (.block (.yes loc c) [] :: stack) .operand) := by
  unfold State.follow
  exact if_pos rfl

theorem follow_loopTest (state : State) (stack : List Context) (loc brace : Loc) (c : Expr) :
    state.follow ⟨.sign .openBrace, brace⟩ (settle (.loopTest loc :: stack) c)
      = some (state.move (.block (.loop loc c) [] :: stack) .operand) := by
  unfold State.follow
  exact if_pos rfl

/-- A condition and the braces after it, where the condition of an `if` or of a loop stands. -/
theorem run_tested {state : State} {stack : List Context} {context : Context} {role : BlockRole}
    {test body : List Lexeme} {c : Expr} {es : List Expr} (htest : Drives test (.expr c))
    (hbody : Drives body (.block es))
    (hfollow : ∀ loc, state.follow ⟨.sign .openBrace, loc⟩ (settle (context :: stack) c)
      = some (state.move (.block role [] :: stack) .operand)) (rest : List Lexeme) :
    (state.move (context :: stack) .operand).run (test ++ body ++ rest)
      = (state.move stack (closeBlock es role)).run rest := by
  obtain ⟨stack', focus, hrun, hended⟩ := htest state (context :: stack) (state.admits_cons _ _)
  obtain ⟨loc, inner, rfl, hinner⟩ := hbody
  have hstep : (state.move stack' focus).step ⟨.sign .openBrace, loc⟩
      = some (state.move (.block role [] :: stack) .operand) :=
    (step_sign_of_ended hended (by nofun)).trans (hfollow loc)
  rw [List.append_assoc, State.run_append_of_run _ hrun, List.cons_append,
    State.run_cons_of_step _ hstep, State.run_append_of_run _ (hinner state stack role)]

/-- The parameters of a function, where the first one of them may stand. -/
theorem run_parameters {state : State} {stack : List Context} {loc : Loc} {focus : Focus}
    {name : String} {names : List String} {params : List Lexeme} (done : List String)
    (hparams : IsParameters params (name :: names))
    (hfirst : ∀ l, (state.move stack focus).step ⟨.name name, l⟩
      = some (state.move stack (.fnNext loc (done ++ [name])))) (rest : List Lexeme) :
    (state.move stack focus).run (params ++ rest)
      = (state.move stack (.fnNext loc (done ++ name :: names))).run rest := by
  induction names generalizing name done focus params with
  | nil =>
      obtain ⟨⟨token, l⟩, params', rfl, htoken, hparams'⟩ := List.map_eq_cons_iff.mp hparams
      obtain rfl : token = .name name := htoken
      obtain rfl : params' = [] := List.map_eq_nil_iff.mp hparams'
      exact State.run_cons_of_step rest (hfirst l)
  | cons next names ih =>
      obtain ⟨⟨token, l⟩, params', rfl, htoken, hparams'⟩ := List.map_eq_cons_iff.mp hparams
      obtain rfl : token = .name name := htoken
      obtain ⟨⟨comma, l'⟩, params'', rfl, hcomma, hparams''⟩ :=
        List.map_eq_cons_iff.mp hparams'
      obtain rfl : comma = .sign .comma := hcomma
      rw [List.cons_append, State.run_cons_of_step _ (hfirst l), List.cons_append,
        State.run_cons_of_step _ (show (state.move stack (.fnNext loc (done ++ [name]))).step
          ⟨.sign .comma, l'⟩ = some (state.move stack (.fnParam loc (done ++ [name])))
            from rfl)]
      rw [ih (done ++ [name]) hparams'' (fun _ => rfl), List.append_assoc, List.singleton_append]

/-- In braces, what comes after an expression meets it among those read. -/
theorem run_block_of_ended {state : State} {stack stack' : List Context} {focus : Focus} {e : Expr}
    {role : BlockRole} {done : List Expr} {first : Lexeme}
    (hended : Ended stack' focus (.block role done :: stack) e) (hfirst : Detached first.token)
    (rest : List Lexeme) :
    (state.move stack' focus).run (first :: rest)
      = (state.move (.block role (e :: done) :: stack) .operand).run (first :: rest) := by
  rw [State.run, State.run, step_of_ended hended hfirst]
  rfl

/-- A comma after an expression of a list. -/
theorem step_comma_of_ended {state : State} {stack stack' : List Context} {focus : Focus} {e : Expr}
    {role : ItemsRole} {done : List Expr} {loc : Loc}
    (hended : Ended stack' focus (.items role done :: stack) e) :
    (state.move stack' focus).step ⟨.sign .comma, loc⟩
      = some (state.move (.items role (e :: done) :: stack) .operand) := by
  rw [step_sign_of_ended hended (by nofun)]
  unfold State.follow
  exact if_pos rfl

/-- The end of a list after an expression. -/
theorem step_closing_of_ended {state : State} {stack stack' : List Context}
    {focus : Focus} {e : Expr} {role : ItemsRole} {done : List Expr} {loc : Loc}
    (hended : Ended stack' focus (.items role done :: stack) e) :
    (state.move stack' focus).step ⟨.sign role.closing, loc⟩
      = some (state.move stack (closeItems (e :: done).reverse role)) := by
  rw [step_sign_of_ended hended (by cases role <;> nofun)]
  cases role <;> rfl

/-- The end of a list where another expression might begin. -/
theorem step_closing (state : State) (stack : List Context) (role : ItemsRole) (done : List Expr)
    (loc : Loc) :
    (state.move (.items role done :: stack) .operand).step ⟨.sign role.closing, loc⟩
      = some (state.move stack (closeItems done.reverse role)) := by
  cases role <;> rfl

/-- At the outermost level, what comes after an expression meets it among those read. -/
theorem run_outermost_of_ended {state : State} {stack' : List Context} {focus : Focus} {e : Expr}
    {first : Lexeme} (hended : Ended stack' focus [] e) (hfirst : Detached first.token)
    (rest : List Lexeme) :
    (state.move stack' focus).run (first :: rest)
      = ({ state with done := e :: state.done }.move [] .operand).run (first :: rest) := by
  rw [State.run, State.run, step_of_ended hended hfirst]
  rfl

/-- What is read at the outermost level if the source ends after an expression. -/
theorem exprs?_of_ended {state : State} {stack' : List Context} {focus : Focus} {e : Expr}
    (hended : Ended stack' focus [] e) :
    (state.move stack' focus).exprs? = some (state.done.reverse ++ [e]) := by
  obtain ⟨last, hcomplete, hsettle⟩ := hended
  rw [State.exprs?_of_complete hcomplete, State.exprs?.ending, State.move_stack, hsettle]
  exact congrArg some List.reverse_cons

/-! ## Derivations drive the machine -/

/-- The machine takes the tokens of every derivation. -/
theorem drives_of_derives {lexemes : List Lexeme} {phrase : Phrase} (h : Derives lexemes phrase) :
    Drives lexemes phrase := by
  induction h with
  | int | str | litTrue | litFalse | litNull | name =>
      refine ⟨_, _, rfl, fun state stack hadmits => ?_⟩
      exact State.run_cons_of_step [] (State.step_operand_of_begin hadmits rfl)
  | list _ ih =>
      refine ⟨_, _, rfl, fun state stack hadmits => ?_⟩
      rw [List.cons_append, State.run_cons_of_step _ (State.step_operand_of_begin hadmits rfl)]
      exact ih state stack (.list _) [] _
  | @fn params names body es l₁ l₂ l₃ hparams _ ih =>
      obtain ⟨loc, inner, rfl, hinner⟩ := ih
      refine ⟨_, _, rfl, fun state stack hadmits => ?_⟩
      have hbody : (state.move stack (.fnBody l₁ names)).run
        (⟨.sign .openBrace, loc⟩ :: inner)
          = .ok (state.move stack (.callable (.curried names (.block none es)) l₁)) :=
        (State.run_cons_of_step inner rfl).trans (hinner state stack (.fn l₁ names))
      rw [List.cons_append, List.cons_append,
        State.run_cons_of_step _ (State.step_operand_of_begin hadmits rfl),
        State.run_cons_of_step _
          (show (state.move stack (.fnOpen l₁)).step ⟨.sign .openParen, l₂⟩
          = some (state.move stack (.fnFirst l₁)) from rfl)]
      cases names with
      | nil =>
          obtain rfl : params = [] := List.map_eq_nil_iff.mp hparams
          exact (State.run_cons_of_step _ rfl).trans hbody
      | cons name names =>
          rw [run_parameters [] hparams (fun _ => rfl)]
          exact (State.run_cons_of_step _ rfl).trans hbody
  | braces _ ih =>
      obtain ⟨loc, inner, rfl, hinner⟩ := ih
      refine ⟨_, _, rfl, fun state stack hadmits => ?_⟩
      rw [State.run_cons_of_step _ (State.step_operand_of_begin hadmits rfl)]
      exact hinner state stack (.plain loc)
  | call _ _ ihCallee ihArgs =>
      obtain ⟨first, rest, heq, hcallee⟩ := ihCallee
      obtain ⟨rfl, rfl⟩ := List.cons.inj heq
      refine ⟨_, _, rfl, fun state stack hadmits => ?_⟩
      rw [List.append_assoc, State.run_append_of_run _ (hcallee state stack hadmits),
        List.cons_append,
        State.run_cons_of_step _ rfl]
      exact ihArgs state stack (.arguments _ _) [] _
  | binding _ ih =>
      intro state stack hadmits
      rw [State.run_cons_of_step _ (State.step_operand_of_begin hadmits rfl),
        State.run_cons_of_step _ rfl, State.run_cons_of_step _ rfl]
      exact ih state (.binding _ _ :: stack) (state.admits_cons _ _)
  | @loop test c body es loc _ _ ihTest ihBody =>
      intro state stack hadmits
      rw [List.cons_append, State.run_cons_of_step _ (State.step_operand_of_begin hadmits rfl)]
      have hrun := run_tested ihTest ihBody (follow_loopTest state stack loc · c) []
      rw [List.append_nil] at hrun
      exact ⟨stack, _, hrun, _, rfl, rfl⟩
  | ofChoice _ ih =>
      intro state stack hadmits
      obtain ⟨loc, rest, rfl, hrest⟩ := ih
      rw [State.run_cons_of_step _ (State.step_operand_of_begin hadmits rfl)]
      exact hrest state stack
  | ofCall _ ih =>
      intro state stack hadmits
      obtain ⟨first, rest, -, hrun⟩ := ih
      exact ⟨stack, _, hrun state stack hadmits, _, rfl, rfl⟩
  | @noElse test c yes es loc _ _ ihTest ihYes =>
      refine ⟨_, _, rfl, fun state stack => ?_⟩
      have hrun := run_tested ihTest ihYes (follow_choiceTest state stack loc · c) []
      rw [List.append_nil] at hrun
      exact ⟨stack, _, hrun, _, rfl, rfl⟩
  | @blockElse test c yes es no es' loc l₁ _ _ _ ihTest ihYes ihNo =>
      obtain ⟨brace, inner, rfl, hinner⟩ := ihNo
      refine ⟨loc, test ++ yes ++ ⟨.keyword .kwElse, l₁⟩ :: ⟨.sign .openBrace, brace⟩
        :: inner, rfl, fun state stack => ?_⟩
      rw [run_tested ihTest ihYes (follow_choiceTest state stack loc · c),
        State.run_cons_of_step _ rfl,
        State.run_cons_of_step _ rfl]
      exact ⟨stack, _, hinner state stack (.no _ _ _), _, rfl, rfl⟩
  | @elseIf test c yes es no e loc l₁ _ _ _ ihTest ihYes ihNo =>
      -- the outer `if` waits on the stack, and settles together with the inner one
      obtain ⟨inner, rest, rfl, hrest⟩ := ihNo
      refine ⟨loc, test ++ yes ++ ⟨.keyword .kwElse, l₁⟩ :: ⟨.keyword .kwIf, inner⟩
        :: rest, rfl, fun state stack => ?_⟩
      rw [run_tested ihTest ihYes (follow_choiceTest state stack loc · c),
        State.run_cons_of_step _ rfl,
        State.run_cons_of_step _ rfl]
      exact hrest state (.elseIf _ _ _ :: stack)
  | block _ ih =>
      exact ⟨_, _, rfl, fun state stack role => ih.1 state stack role [] _⟩
  | endSequence =>
      refine ⟨fun state stack role done loc => ?_, fun state hgoal => ⟨_, rfl, hgoal, ?_⟩⟩
      · rw [List.append_nil]
        rfl
      · rw [List.append_nil]
        rfl
  | semicolon _ ih =>
      refine ⟨fun state stack role done loc => ?_, fun state hgoal => ?_⟩
      · rw [List.cons_append, State.run_cons_of_step _ (show
          (state.move (.block role done :: stack) .operand).step _
            = some (state.move _ _) from rfl)]
        exact ih.1 state stack role done loc
      · rw [State.run_cons_of_step _ (show
          (state.move [] .operand).step _ = some (state.move _ _) from rfl)]
        exact ih.2 state hgoal
  | @next first e rest es _ hrest ihFirst ihRest =>
      have hbegins := hrest.begins
      -- the first expression settles once the token after it has come, so that token is looked at
      refine ⟨fun state stack role done loc => ?_, fun state hgoal => ?_⟩
      · obtain ⟨stack', focus, hrun, hended⟩ :=
          ihFirst state (.block role done :: stack) (state.admits_cons _ _)
        have htail : (state.move stack' focus).run (rest ++ [⟨.sign .closeBrace, loc⟩])
            = (state.move (.block role (e :: done) :: stack) .operand).run
                (rest ++ [⟨.sign .closeBrace, loc⟩]) := by
          cases rest with
          | nil => exact run_block_of_ended hended (detached_sign (by nofun)) []
          | cons next rest => exact run_block_of_ended hended (hbegins next rest rfl) _
        rw [List.append_assoc, State.run_append_of_run _ hrun, htail,
          ihRest.1 state stack role (e :: done) loc, List.reverse_cons, List.append_assoc,
          List.singleton_append]
      · have hadmits : state.Admits [] := .inr (by simp [State.acceptsMore, hgoal])
        obtain ⟨stack', focus, hrun, hended⟩ := ihFirst state [] hadmits
        rw [State.run_append_of_run _ hrun]
        cases rest with
        | nil =>
            rw [hrest.eq_nil_of_sequence rfl]
            exact ⟨_, rfl, hgoal, exprs?_of_ended hended⟩
        | cons next rest =>
            rw [run_outermost_of_ended hended (hbegins next rest rfl)]
            obtain ⟨state', hrest, hgoal', hexprs⟩ :=
              ihRest.2 { state with done := e :: state.done } hgoal
            refine ⟨state', hrest, hgoal', ?_⟩
            rw [hexprs, List.reverse_cons, List.append_assoc, List.singleton_append]
  | endItems =>
      intro state stack role done loc
      rw [List.append_nil]
      exact State.run_cons_of_step [] (step_closing state stack role done loc)
  | @lastItem last e _ ih =>
      intro state stack role done loc
      obtain ⟨stack', focus, hrun, hended⟩ :=
        ih state (.items role done :: stack) (state.admits_cons _ _)
      rw [State.run_append_of_run _ hrun, State.run_cons_of_step _ (step_closing_of_ended hended),
        List.reverse_cons]
      rfl
  | @item first e rest es loc _ _ ihFirst ihRest =>
      intro state stack role done close
      obtain ⟨stack', focus, hrun, hended⟩ :=
        ihFirst state (.items role done :: stack) (state.admits_cons _ _)
      rw [List.append_assoc, State.run_append_of_run _ hrun, List.cons_append,
        State.run_cons_of_step _ (step_comma_of_ended hended), ihRest, List.reverse_cons,
        List.append_assoc, List.singleton_append]

/-! ## Whole sources -/

theorem run_semicolons (state : State) {lexemes : List Lexeme}
    (h : ∀ lexeme ∈ lexemes, lexeme.token = .sign .semicolon) :
    (state.move [] .operand).run lexemes = .ok (state.move [] .operand) := by
  induction lexemes with
  | nil => rfl
  | cons lexeme lexemes ih =>
      obtain ⟨token, loc⟩ := lexeme
      obtain rfl : token = .sign .semicolon := h _ List.mem_cons_self
      exact (State.run_cons_of_step _ rfl).trans
        (ih fun _ hmem => h _ (List.mem_cons_of_mem _ hmem))

/-- Whatever the grammar derives from the tokens of a whole source is read from them. -/
theorem finish_of_derivesGoal {goal : Goal} {lexemes : List Lexeme} {tree : Expr}
    (h : DerivesGoal lexemes tree goal) :
    ∃ state, (State.initial goal).run lexemes = .ok state ∧ state.finish = some tree := by
  cases goal with
  | program =>
      obtain ⟨es, hes, rfl⟩ := h
      obtain ⟨state, hrun, hgoal, hexprs⟩ :=
        (drives_of_derives hes).2 (State.initial .program) rfl
      refine ⟨state, hrun, ?_⟩
      rw [State.finish, hgoal, hexprs]
      rfl
  | expression =>
      obtain ⟨before, middle, after, rfl, hbefore, hafter, hmiddle⟩ := h
      obtain ⟨stack, focus, hrun, hended⟩ :=
        drives_of_derives hmiddle (State.initial .expression) [] (.inr rfl)
      have hsemicolons : (State.initial .expression).run before
          = .ok ((State.initial .expression).move [] .operand) :=
        run_semicolons (State.initial .expression) hbefore
      rw [List.append_assoc, State.run_append_of_run _ hsemicolons, State.run_append_of_run _ hrun]
      cases after with
      | nil =>
          refine ⟨_, rfl, ?_⟩
          rw [State.finish, exprs?_of_ended hended]
          rfl
      | cons first after =>
          have hfirst : first.token = .sign .semicolon := hafter first List.mem_cons_self
          have hdetached : Detached first.token := by
            rw [hfirst]
            exact detached_sign nofun
          rw [run_outermost_of_ended hended hdetached, run_semicolons _ hafter]
          exact ⟨_, rfl, rfl⟩

end ExprLang.Reader
