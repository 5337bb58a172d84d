import ExprLang.Proofs.Reader.Taken
import ExprLang.Proofs.Reader.Viability

/-!
# Equivalent stretches of tokens

Some stretches of tokens can take each other's place in every source without a change of its tree:
semicolons and nothing, `)` with `(` behind it and a comma, a comma before a closing bracket and
nothing, an `if` after an `else` and the same in braces, and nothing after a first branch and `else
{ null }`.

The machine takes one token at a time, so it is enough that what is left of the source is read alike
after either stretch (`DerivesTree.replace`), whatever the source begins with. Mostly the machine
then stands in the same state. After expressions it may not: it need not have noticed the end of the
one, but the next token settles both in the same way (`Finishes.of_ended`).
-/

namespace ExprLang

/-- A chain of calls with two lists of arguments is one with all of them. -/
theorem Expr.applied_append {es es' : List Expr} (hes : es ≠ []) (hes' : es' ≠ []) (loc : Loc)
    (callee : Expr) : applied loc (applied loc callee es) es' = applied loc callee (es ++ es') := by
  obtain ⟨e, es, rfl⟩ := List.exists_cons_of_ne_nil hes
  obtain ⟨e', es', rfl⟩ := List.exists_cons_of_ne_nil hes'
  exact List.foldl_append.symm

namespace Reader

open Grammar

/-! ## What is left of a source -/

namespace State

/-- The tokens lead the machine to a tree. -/
def Finishes (state : State) (lexemes : List Lexeme) (tree : Expr) : Prop :=
  ∃ last, state.run lexemes = .ok last ∧ last.finish = some tree

variable {state next : State} {lexeme : Lexeme} {front front' rest : List Lexeme} {tree : Expr}

theorem finishes_of_run (hrun : state.run front = .ok next) :
    state.Finishes (front ++ rest) tree ↔ next.Finishes rest tree := by
  rw [Finishes, Finishes, run_append_of_run rest hrun]

theorem Finishes.of_append (h : state.Finishes (front ++ rest) tree) :
    ∃ next, state.run front = .ok next ∧ next.Finishes rest tree := by
  obtain ⟨last, hrun, -⟩ := id h
  obtain ⟨next, hnext⟩ := run_append_eq_ok hrun
  exact ⟨next, hnext, (finishes_of_run hnext).mp h⟩

@[simp] theorem finishes_nil : state.Finishes [] tree ↔ state.finish = some tree := by
  constructor
  · rintro ⟨_, hrun, hfinish⟩
    rwa [Except.ok.inj hrun]
  · exact fun hfinish => ⟨state, rfl, hfinish⟩

/-- The end of a source depends on the goal and on the expressions that have been read. -/
theorem finish_of_exprs? (hgoal : next.goal = state.goal)
    (hexprs : ∀ es, next.exprs? = some es → state.exprs? = some es)
    (h : next.finish = some tree) : state.finish = some tree := by
  unfold finish at h ⊢
  rw [hgoal] at h
  cases hes : next.exprs? with
  | none =>
      rw [hes] at h
      cases hg : state.goal <;> simp [hg] at h
  | some es => rwa [hexprs es hes, ← hes]

theorem finishes_cons :
    state.Finishes (lexeme :: rest) tree ↔
      ∃ next, state.step lexeme = some next ∧ next.Finishes rest tree := by
  unfold Finishes
  rw [run]
  cases state.step lexeme with
  | none => simp
  | some next => simp

theorem finishes_of_step (hstep : state.step lexeme = some next) :
    state.Finishes (lexeme :: rest) tree ↔ next.Finishes rest tree := by
  rw [Finishes, Finishes, run_cons_of_step rest hstep]

/-- Stretches that lead to the same state can take each other's place. -/
theorem finishes_congr (hrun : state.run front = .ok next) (hrun' : state.run front' = .ok next) :
    state.Finishes (front ++ rest) tree ↔ state.Finishes (front' ++ rest) tree := by
  rw [finishes_of_run hrun, finishes_of_run hrun']

/-! ## After an expression -/

section
variable {stack stack' under : List Context} {focus focus' : Focus} {e : Expr}

theorem exprs?_of_ended (h : Ended stack focus under e) :
    (state.move stack focus).exprs? = exprs?.ending (state.move under focus) e := by
  obtain ⟨last, hcomplete, hsettle⟩ := h
  rw [exprs?_of_complete hcomplete, exprs?.ending, exprs?.ending, move_stack, move_stack, hsettle]
  rfl

/-- Where the same expression ends, the rest of a source is read alike if its first token is
detached. -/
theorem Finishes.of_ended (hended : Ended stack focus under e)
    (hended' : Ended stack' focus' under e)
    (hrest : ∀ lexeme ∈ rest.head?, Detached lexeme.token)
    (h : (state.move stack focus).Finishes rest tree) :
    (state.move stack' focus').Finishes rest tree := by
  cases rest with
  | nil =>
      have hgoal : (state.move stack focus).goal = (state.move stack' focus').goal := rfl
      refine finishes_nil.mpr (finish_of_exprs? hgoal (fun es hes => ?_) (finishes_nil.mp h))
      exact ((exprs?_of_ended hended').trans (exprs?_of_ended hended).symm).trans hes
  | cons lexeme rest =>
      have hdetached := hrest lexeme rfl
      rw [finishes_cons] at h ⊢
      rw [step_of_ended hended hdetached] at h
      rw [step_of_ended hended' hdetached]
      exact h

end

/-! ## Semicolons -/

/-- A semicolon can be left out. -/
theorem Finishes.drop_semicolon {loc : Loc}
    (h : state.Finishes (⟨.sign .semicolon, loc⟩ :: rest) tree) : state.Finishes rest tree := by
  obtain ⟨next, hstep, hnext⟩ := finishes_cons.mp h
  have hgoal := goal_of_step hstep
  -- after an expression, the token behind the semicolon finds what it would have found without it
  have hcomplete : ∀ e, state.focus.complete? = some e →
      state.follow ⟨.sign .semicolon, loc⟩ (settle state.stack e) = some next →
      state.Finishes rest tree := by
    intro e hcomplete hfollow
    obtain ⟨hfocus, hsame, hexprs⟩ := of_follow_semicolon hfollow
    cases rest with
    | nil =>
        refine finishes_nil.mpr (finish_of_exprs? hgoal (fun es hes => ?_) (finishes_nil.mp hnext))
        obtain ⟨hnil, rfl⟩ := hexprs es hes
        have hstate : state.exprs? = exprs?.ending state e := exprs?_of_complete hcomplete
        rw [hstate, exprs?.ending, ← Prod.eta (settle state.stack e), hnil]
    | cons lexeme rest =>
        obtain ⟨next', hnext', hrest⟩ := finishes_cons.mp hnext
        simp only [step, hfocus] at hnext'
        have hdetached := detached_of_operandStep hnext'
        refine finishes_cons.mpr ⟨next', ?_, hrest⟩
        exact (step_of_complete hcomplete hdetached.1 hdetached.2).trans
          ((hsame lexeme).trans hnext')
  cases hfocus : state.focus with
  | operand =>
      simp only [step, hfocus] at hstep
      rw [eq_of_operandStep_semicolon hstep] at hnext
      exact hnext
  | callable e | whole e =>
      simp only [step, hfocus] at hstep
      exact hcomplete e (by rw [hfocus]; rfl) hstep
  | afterYes loc test yes =>
      simp only [step, hfocus] at hstep
      exact hcomplete _ (by rw [hfocus]; rfl) hstep
  | _ => simp [step, hfocus] at hstep

end State

/-! ## Lists of expressions -/

/-- Expressions with commas between them and none after the last, and at least one of them. -/
inductive Listed : List Lexeme → List Expr → Prop
  | last {lexemes e} : Derives lexemes (.expr e) → Listed lexemes [e]
  | more {first e rest es loc} : Derives first (.expr e) → Listed rest es →
      Listed (first ++ ⟨.sign .comma, loc⟩ :: rest) (e :: es)

namespace Listed

variable {lexemes args args' : List Lexeme} {es es' : List Expr} {state : State}
  {stack : List Context}
  {role : ItemsRole} {done : List Expr}

theorem ne_nil (h : Listed lexemes es) : es ≠ [] := by
  cases h with
  | last | more => exact List.cons_ne_nil _ _

theorem derives (h : Listed lexemes es) : Derives lexemes (.items es) := by
  induction h with
  | last hlast => exact .lastItem hlast
  | more hfirst _ ih => exact .item hfirst ih

theorem run_closing (h : Listed lexemes es) (loc : Loc) :
    (state.move (.items role done :: stack) .operand).run
      (lexemes ++ [⟨.sign role.closing, loc⟩])
      = .ok (state.move stack (closeItems (done.reverse ++ es) role)) :=
  drives_of_derives h.derives state stack role done loc

theorem run_comma (h : Listed lexemes es) (loc : Loc) :
    (state.move (.items role done :: stack) .operand).run (lexemes ++ [⟨.sign .comma, loc⟩])
      = .ok (state.move (.items role (es.reverse ++ done) :: stack) .operand) := by
  induction h generalizing done with
  | @last lexemes e hlast =>
      obtain ⟨stack', focus, hrun, hended⟩ :=
        drives_of_derives hlast state (.items role done :: stack) (state.admits_cons _ _)
      rw [State.run_append_of_run _ hrun, State.run_cons_of_step _ (step_comma_of_ended hended)]
      rfl
  | @more first e rest es comma hfirst _ ih =>
      obtain ⟨stack', focus, hrun, hended⟩ :=
        drives_of_derives hfirst state (.items role done :: stack) (state.admits_cons _ _)
      rw [List.append_assoc, State.run_append_of_run _ hrun, List.cons_append,
        State.run_cons_of_step _ (step_comma_of_ended hended), ih, List.reverse_cons,
          List.append_assoc]
      rfl

/-- A comma after the last expression makes no difference. -/
theorem run_trailing (h : Listed lexemes es) (comma loc : Loc) :
    (state.move (.items role [] :: stack) .operand).run
        (lexemes ++ [⟨.sign .comma, comma⟩, ⟨.sign role.closing, loc⟩])
      = .ok (state.move stack (closeItems es role)) := by
  rw [List.append_cons, State.run_append_of_run _ (h.run_comma comma),
    State.run_cons_of_step _ (step_closing _ _ _ _ _), List.append_nil, List.reverse_reverse]
  rfl

/-- Two lists of arguments that follow each other. -/
theorem run_two (h : Listed args es) (h' : Listed args' es') (start : Loc) (callee : Expr)
    (l₁ l₂ l₃ : Loc) :
    (state.move (.items (.arguments start callee) [] :: stack) .operand).run
        (args ++ ⟨.sign .closeParen, l₁⟩ :: ⟨.sign .openParen, l₂⟩ :: (args'
          ++ [⟨.sign .closeParen, l₃⟩]))
      = .ok (state.move stack (.callable (.applied start callee (es ++ es')) start)) := by
  have hfirst : (state.move (.items (.arguments start callee) [] :: stack) .operand).run
      (args ++ [⟨.sign .closeParen, l₁⟩])
        = .ok (state.move stack (.callable (.applied start callee es) start)) :=
    h.run_closing l₁
  have hopen : (state.move stack (.callable (.applied start callee es) start)).step
    ⟨.sign .openParen, l₂⟩
      = some (state.move (.items (.arguments start (.applied start callee es)) [] :: stack)
        .operand) := rfl
  rw [List.append_cons, State.run_append_of_run _ hfirst, State.run_cons_of_step _ hopen,
    ← Expr.applied_append h.ne_nil h'.ne_nil]
  exact h'.run_closing l₃

/-- The same arguments in one list. -/
theorem run_one (h : Listed args es) (h' : Listed args' es') (start : Loc) (callee : Expr)
    (l₁ l₂ : Loc) : (state.move (.items (.arguments start callee) [] :: stack) .operand).run
        (args ++ ⟨.sign .comma, l₁⟩ :: (args' ++ [⟨.sign .closeParen, l₂⟩]))
      = .ok (state.move stack (.callable (.applied start callee (es ++ es')) start)) := by
  rw [List.append_cons, State.run_append_of_run _ (h.run_comma l₁), List.append_nil]
  refine (h'.run_closing l₂).trans ?_
  rw [List.reverse_reverse]
  rfl

end Listed

/-! ## Branches -/

/-- An `if` is read from its condition on, and what has then been read cannot be called. -/
theorem ends_choice {lexemes : List Lexeme} {phrase : Phrase} {e : Expr}
    (h : Derives lexemes phrase) (hphrase : phrase = .choice e) :
    ∃ loc rest, lexemes = ⟨.keyword .kwIf, loc⟩ :: rest ∧
      ∀ (state : State) (stack : List Context), ∃ stack' focus,
        (state.move (.choiceTest loc :: stack) .operand).run rest
          = .ok (state.move stack' focus) ∧
          Ended stack' focus stack e ∧ ∀ callee start, focus ≠ .callable callee start := by
  induction h generalizing e with
  | @noElse test c yes es loc htest hyes =>
      obtain rfl := Phrase.choice.inj hphrase
      refine ⟨_, _, rfl, fun state stack =>
        ⟨stack, .afterYes loc c (.block none es), ?_, ⟨_, rfl, rfl⟩, nofun⟩⟩
      have hrun := run_tested (drives_of_derives htest) (drives_of_derives hyes)
        (follow_choiceTest state stack loc · c) []
      rw [List.append_nil] at hrun
      exact hrun
  | @blockElse test c yes es no es' loc l₁ htest hyes hno =>
      obtain rfl := Phrase.choice.inj hphrase
      obtain ⟨brace, inner, rfl, hinner⟩ := drives_of_derives hno
      refine ⟨loc, test ++ yes ++ ⟨.keyword .kwElse, l₁⟩ :: ⟨.sign .openBrace, brace⟩
        :: inner, rfl,
        fun state stack =>
          ⟨stack, .whole (.choice (some loc) c (.block none es) (.block none es')), ?_,
          ⟨_, rfl, rfl⟩, nofun⟩⟩
      rw [run_tested (drives_of_derives htest) (drives_of_derives hyes)
        (follow_choiceTest state stack loc · c), State.run_cons_of_step _ rfl,
          State.run_cons_of_step _ rfl]
      exact hinner state stack (.no _ _ _)
  | @elseIf test c yes es no e' loc l₁ htest hyes _ _ _ ih =>
      obtain rfl := Phrase.choice.inj hphrase
      obtain ⟨inner, rest, rfl, hrest⟩ := ih rfl
      refine ⟨loc, test ++ yes ++ ⟨.keyword .kwElse, l₁⟩ :: ⟨.keyword .kwIf, inner⟩
        :: rest, rfl, fun state stack => ?_⟩
      rw [run_tested (drives_of_derives htest) (drives_of_derives hyes)
        (follow_choiceTest state stack loc · c), State.run_cons_of_step _ rfl,
          State.run_cons_of_step _ rfl]
      exact hrest state (.elseIf _ _ _ :: stack)
  | _ => cases hphrase

namespace State

variable {state : State} {rest : List Lexeme} {tree : Expr}

/-- After an `if` there is no bracket that opens arguments. -/
theorem detached_of_uncallable {stack under : List Context} {focus : Focus} {e : Expr}
    (hended : Ended stack focus under e)
    (hfocus : ∀ callee start, focus ≠ .callable callee start)
    (helse : ∀ lexeme ∈ rest.head?, lexeme.token ≠ .keyword .kwElse)
    (h : (state.move stack focus).Finishes rest tree) :
    ∀ lexeme ∈ rest.head?, Detached lexeme.token := by
  intro lexeme hmem
  refine ⟨fun htoken => ?_, helse lexeme hmem⟩
  obtain ⟨rest, rfl⟩ := List.head?_eq_some_iff.mp hmem
  obtain ⟨next, hstep, -⟩ := finishes_cons.mp h
  obtain ⟨token, loc⟩ := lexeme
  obtain rfl : token = .sign .openParen := htoken
  obtain ⟨callee, start, hcallable⟩ | ⟨start, hopen⟩ := callable_of_openParen hstep
  · exact hfocus callee start hcallable
  · obtain ⟨last, hcomplete, -⟩ := hended
    obtain rfl : focus = .fnOpen start := hopen
    exact nomatch hcomplete

/-- An `if` after an `else` can be put in braces. -/
theorem Finishes.brace_else {inner : List Lexeme} {e : Expr} {loc l₁ l₂ : Loc}
    (hinner : Derives inner (.choice e))
    (helse : ∀ lexeme ∈ rest.head?, lexeme.token ≠ .keyword .kwElse)
    (h : state.Finishes (⟨.keyword .kwElse, loc⟩ :: (inner ++ rest)) tree) :
    state.Finishes (⟨.keyword .kwElse, loc⟩ :: ⟨.sign .openBrace, l₁⟩ ::
      (inner ++ ⟨.sign .closeBrace, l₂⟩ :: rest)) tree := by
  obtain ⟨next, hstep, hnext⟩ := finishes_cons.mp h
  obtain ⟨start, test, yes, rfl⟩ := afterYes_of_else hstep
  obtain ⟨l, condition, rfl, hcondition⟩ := ends_choice hinner rfl
  -- without braces, the outer `if` settles together with the inner one
  obtain ⟨stack', focus, hrun, hended, hfocus⟩ :=
    hcondition state (.elseIf start test yes :: state.stack)
  have hended' : Ended stack' focus state.stack (.choice (some start) test yes (elseIfBranch e)) :=
    hended
  have hif : (state.move state.stack (.afterElse start test yes)).step ⟨.keyword .kwIf, l⟩
      = some (state.move (.choiceTest l :: .elseIf start test yes :: state.stack) .operand) := rfl
  rw [List.cons_append, finishes_of_step hif, finishes_of_run hrun] at hnext
  -- in braces, it is whole once they are closed
  obtain ⟨stack'', focus', hrun', hbraced⟩ := drives_of_derives (.ofChoice hinner) state
    (.block (.no start test yes) [] :: state.stack) (state.admits_cons _ _)
  have hopen : (state.move state.stack (.afterElse start test yes)).step
    ⟨.sign .openBrace, l₁⟩
      = some (state.move (.block (.no start test yes) [] :: state.stack) .operand) := rfl
  have hclose : (state.move stack'' focus').step ⟨.sign .closeBrace, l₂⟩
      = some (state.move state.stack (.whole (.choice (some start) test yes (elseIfBranch e)))) :=
    step_sign_of_ended hbraced (by nofun)
  rw [finishes_of_step hstep, finishes_of_step hopen, finishes_of_run hrun',
    finishes_of_step hclose]
  exact .of_ended hended' ⟨_, rfl, rfl⟩
    (detached_of_uncallable hended' hfocus helse hnext) hnext

/-- A second branch that is not there can be spelled out. -/
theorem Finishes.spell_noElse {test yes : List Lexeme} {c : Expr} {es : List Expr}
    {loc l₁ l₂ l₃ l₄ : Loc} (htest : Derives test (.expr c))
    (hyes : Derives yes (.block es))
    (helse : ∀ lexeme ∈ rest.head?, lexeme.token ≠ .keyword .kwElse)
    (h : state.Finishes (⟨.keyword .kwIf, loc⟩ :: (test ++ yes ++ rest)) tree) :
    state.Finishes (⟨.keyword .kwIf, loc⟩ :: (test ++ yes ++ ⟨.keyword .kwElse, l₁⟩ ::
      ⟨.sign .openBrace, l₂⟩ :: ⟨.keyword .kwNull, l₃⟩ :: ⟨.sign .closeBrace, l₄⟩
        :: rest)) tree := by
  obtain ⟨next, hstep, hnext⟩ := finishes_cons.mp h
  obtain ⟨state', stack, rfl⟩ := choiceTest_of_if hstep
  have hrun := fun rest => run_tested (drives_of_derives htest) (drives_of_derives hyes)
    (follow_choiceTest state' stack loc · c) rest
  have hended : Ended stack (.afterYes loc c (.block none es)) stack
      (.choice (some loc) c (.block none es) noElse) := ⟨_, rfl, rfl⟩
  rw [Finishes, hrun] at hnext
  rw [finishes_of_step hstep, Finishes, hrun]
  have hspelled : (state'.move stack
    (.whole (.choice (some loc) c (.block none es) noElse))).Finishes
      rest tree := .of_ended hended ⟨_, rfl, rfl⟩
        (detached_of_uncallable hended nofun helse hnext) hnext
  exact hspelled

end State

/-! ## Bare tokens -/

/-- Bare tokens, all at one place: it does not matter at which. -/
def placed (tokens : List Token) : List Lexeme := tokens.map (⟨·, .start⟩)

@[simp] theorem placed_cons (token : Token) (tokens : List Token) :
    placed (token :: tokens) = ⟨token, .start⟩ :: placed tokens := rfl

@[simp] theorem placed_append (tokens tokens' : List Token) :
    placed (tokens ++ tokens') = placed tokens ++ placed tokens' := List.map_append

@[simp] theorem map_token_placed (tokens : List Token) :
    (placed tokens).map (·.token) = tokens := by
  simp [placed, Function.comp_def]

variable {goal : Goal} {before after : List Token} {tree : Expr}

theorem derivesTree_iff_finishes {tokens : List Token} :
    DerivesTree goal tokens tree ↔
      ∃ located, (State.initial goal).Finishes (placed tokens) located ∧
        located.unlocated = tree := by
  constructor
  · intro h
    rw [← map_token_placed tokens] at h
    obtain ⟨located, hlocated, htree⟩ := derivesTree_at_places h
    exact ⟨located, finish_of_derivesGoal hlocated, htree⟩
  · rintro ⟨located, ⟨last, hrun, hfinish⟩, htree⟩
    exact ⟨_, located, map_token_placed tokens, derivesGoal_of_finish hrun hfinish, htree⟩

/-! ### Brackets -/

/-- The brackets of a list, or those of arguments. A bracket after `fn` opens parameters. -/
inductive Brackets (before : List Token) : Sign → Sign → Prop
  | list : Brackets before .openBracket .closeBracket
  | arguments : before.getLast? ≠ some (.keyword .kwFn) → Brackets before .openParen .closeParen

section
variable {state next : State} {loc : Loc}
  (hrun : (State.initial goal).run (placed before) = .ok state)
include hrun

/-- A bracket that opens arguments leads into those of what is called. -/
theorem arguments_of_step (hbefore : before.getLast? ≠ some (.keyword .kwFn))
    (hstep : state.step ⟨.sign .openParen, loc⟩ = some next) :
    ∃ start callee,
      next = state.move (.items (.arguments start callee) [] :: state.stack) .operand := by
  obtain ⟨callee, start, hfocus⟩ | ⟨start, hfocus⟩ := State.callable_of_openParen hstep
  · rw [State.step, hfocus] at hstep
    exact ⟨start, callee, (Option.some.inj hstep).symm⟩
  · -- the machine stands behind an `fn`, so that was the last token
    have hinitial : Reads [] (State.initial goal) :=
      ⟨.expr, [], [], rfl, .outermost .nil, rfl, rfl⟩
    obtain ⟨slot, earlier, own, heq, -, hreads⟩ := hinitial.run hrun
    rw [hfocus] at hreads
    obtain ⟨-, rfl⟩ := hreads
    have htokens := congrArg (List.map (·.token)) heq
    rw [List.nil_append, map_token_placed, List.map_append] at htokens
    exact absurd (by rw [htokens]; exact List.getLast?_concat) hbefore

theorem Brackets.items_of_step {opening closing : Sign} (h : Brackets before opening closing)
    (hstep : state.step ⟨.sign opening, loc⟩ = some next) :
    ∃ (role : ItemsRole) (state' : State) (stack : List Context), role.closing = closing ∧
      next = state'.move (.items role [] :: stack) .operand := by
  cases h with
  | list =>
      obtain ⟨state', stack, rfl⟩ := State.items_of_openBracket hstep
      exact ⟨_, state', stack, rfl, rfl⟩
  | arguments hbefore =>
      obtain ⟨start, callee, rfl⟩ := arguments_of_step hrun hbefore hstep
      exact ⟨_, state, state.stack, rfl, rfl⟩

end

end Reader

namespace Grammar.DerivesTree

open Reader

variable {goal : Goal} {before after old new : List Token} {tree : Expr}

/-- A stretch of tokens can be replaced if what is left of the source is read alike after it,
whatever the machine has read before. -/
theorem replace (h : DerivesTree goal (before ++ old) tree)
    (hreplace : ∀ state located, (State.initial goal).run (placed before) = .ok state →
      state.Finishes (placed old) located → state.Finishes (placed new) located) :
    DerivesTree goal (before ++ new) tree := by
  obtain ⟨located, hfinishes, htree⟩ := derivesTree_iff_finishes.mp h
  rw [placed_append] at hfinishes
  obtain ⟨state, hrun, hold⟩ := hfinishes.of_append
  refine derivesTree_iff_finishes.mpr ⟨located, ?_, htree⟩
  rw [placed_append, State.finishes_of_run hrun]
  exact hreplace state located hrun hold

theorem exchange {token : Token} (h : DerivesTree goal (before ++ token :: (old ++ after)) tree)
    (hsame : ∀ state next, (State.initial goal).run (placed before) = .ok state →
      state.step ⟨token, .start⟩ = some next →
      ∃ last, next.run (placed old) = .ok last ∧ next.run (placed new) = .ok last) :
    DerivesTree goal (before ++ token :: (new ++ after)) tree := by
  refine h.replace fun state located hrun hfinishes => ?_
  rw [placed_cons, placed_append] at hfinishes ⊢
  obtain ⟨next, hstep, hnext⟩ := State.finishes_cons.mp hfinishes
  obtain ⟨last, hold, hnew⟩ := hsame state next hrun hstep
  rw [State.finishes_of_step hstep]
  exact (State.finishes_congr hold hnew).mp hnext

/-- Stretches that lead to the same state from behind a token can take each other's place there. -/
theorem exchange_iff {token : Token}
    (hsame : ∀ state next, (State.initial goal).run (placed before) = .ok state →
      state.step ⟨token, .start⟩ = some next →
      ∃ last, next.run (placed old) = .ok last ∧ next.run (placed new) = .ok last) :
    DerivesTree goal (before ++ token :: (old ++ after)) tree ↔
      DerivesTree goal (before ++ token :: (new ++ after)) tree := by
  refine ⟨fun h => h.exchange hsame, fun h => h.exchange fun state next hrun hstep => ?_⟩
  obtain ⟨last, hold, hnew⟩ := hsame state next hrun hstep
  exact ⟨last, hnew, hold⟩

/-- Semicolons change nothing. -/
theorem drop_semicolon (h : DerivesTree goal (before ++ .sign .semicolon :: after) tree) :
    DerivesTree goal (before ++ after) tree :=
  h.replace fun _ _ _ hfinishes => hfinishes.drop_semicolon

/-- A comma behind the last of some expressions changes nothing. -/
theorem trailing_iff {opening closing : Sign} {items : List Token} {es : List Expr}
    (hbrackets : Brackets before opening closing) (hitems : Listed (placed items) es) :
    DerivesTree goal (before ++ .sign opening :: (items ++ [.sign closing] ++ after)) tree ↔
      DerivesTree goal (before ++ .sign opening
        :: (items ++ [.sign .comma, .sign closing] ++ after)) tree := by
  refine exchange_iff fun state next hrun hstep => ?_
  obtain ⟨role, state', stack, rfl, rfl⟩ := hbrackets.items_of_step hrun hstep
  rw [placed_append, placed_append]
  exact ⟨_, hitems.run_closing _, hitems.run_trailing _ _⟩

/-- Two lists of arguments are as good as one with all of them. -/
theorem same_call_iff {args args' : List Token} {es es' : List Expr}
    (hbefore : before.getLast? ≠ some (.keyword .kwFn)) (hargs : Listed (placed args) es)
    (hargs' : Listed (placed args') es') :
    DerivesTree goal (before ++ .sign .openParen
      :: (args ++ .sign .closeParen :: .sign .openParen ::
        (args' ++ [.sign .closeParen]) ++ after)) tree ↔
      DerivesTree goal (before ++ .sign .openParen :: (args ++ .sign .comma ::
        (args' ++ [.sign .closeParen]) ++ after)) tree := by
  refine exchange_iff fun state next hrun hstep => ?_
  obtain ⟨start, callee, rfl⟩ := arguments_of_step hrun hbefore hstep
  simp only [placed_append, placed_cons]
  exact ⟨_, hargs.run_two hargs' _ _ _ _ _, hargs.run_one hargs' _ _ _ _⟩

/-- Whether the first of some tokens is an `else` shows in the tokens alone. -/
theorem head_placed (helse : after.head? ≠ some (.keyword .kwElse)) :
    ∀ lexeme ∈ (placed after).head?, lexeme.token ≠ .keyword .kwElse := by
  cases after with
  | nil => exact nofun
  | cons token after =>
      intro lexeme hmem htoken
      obtain rfl := Option.some.inj hmem
      exact helse (congrArg some htoken)

/-- An `if` after an `else` can be put in braces. -/
theorem brace_else {inner : List Token} {e : Expr} (hinner : Derives (placed inner) (.choice e))
    (helse : after.head? ≠ some (.keyword .kwElse))
    (h : DerivesTree goal (before ++ .keyword .kwElse :: (inner ++ after)) tree) :
    DerivesTree goal (before ++ .keyword .kwElse :: .sign .openBrace ::
      (inner ++ .sign .closeBrace :: after)) tree := by
  refine h.replace fun state located _ hfinishes => ?_
  simp only [placed_append, placed_cons] at hfinishes ⊢
  exact hfinishes.brace_else hinner (head_placed helse)

/-- A second branch that is not there can be spelled out. -/
theorem spell_noElse {test yes : List Token} {c : Expr} {es : List Expr}
    (htest : Derives (placed test) (.expr c)) (hyes : Derives (placed yes) (.block es))
    (helse : after.head? ≠ some (.keyword .kwElse))
    (h : DerivesTree goal (before ++ .keyword .kwIf :: (test ++ yes ++ after)) tree) :
    DerivesTree goal (before ++ .keyword .kwIf
      :: (test ++ yes ++ .keyword .kwElse :: .sign .openBrace ::
      .keyword .kwNull :: .sign .closeBrace :: after)) tree := by
  refine h.replace fun state located _ hfinishes => ?_
  simp only [placed_append, placed_cons] at hfinishes ⊢
  exact hfinishes.spell_noElse htest hyes (head_placed helse)

end Grammar.DerivesTree

end ExprLang
