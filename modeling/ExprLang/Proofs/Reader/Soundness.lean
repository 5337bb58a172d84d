import ExprLang.Proofs.Grammar
import ExprLang.Proofs.Reader.Run

/-!
# Whatever is read has a derivation

The tokens that the machine has taken are accounted for by its state (`Reads`). The open constructs
account for a first part of them (`Opened`), and the focus for the rest (`FocusReads`). One step
keeps this (`Reads.step`), so a run does, and at the end of the source the account is a derivation.

Where an `else` waits for the `if` after it, nothing but an `if` may come; everywhere else any
expression may. This is all that the stack has to say about what comes on top of it (`Slot`).
-/

namespace ExprLang.Reader

open Grammar

/-! ## Expressions already read -/

/-- Tokens that are the beginning of a sequence, with the expressions in them, latest first. -/
def HoldsSequence (inner : List Lexeme) (read : List Expr) : Prop :=
  ∀ rest es, Derives rest (.sequence es) →
    Derives (inner ++ rest) (.sequence (read.reverse ++ es))

/-- Tokens that are the beginning of a list with commas, with the expressions in them, latest
first. -/
def HoldsItems (inner : List Lexeme) (read : List Expr) : Prop :=
  ∀ rest es, Derives rest (.items es) → Derives (inner ++ rest) (.items (read.reverse ++ es))

theorem HoldsSequence.nil : HoldsSequence [] [] := fun _ _ h => h

theorem HoldsItems.nil : HoldsItems [] [] := fun _ _ h => h

theorem HoldsSequence.semicolon {inner : List Lexeme} {read : List Expr} {loc : Loc}
    (h : HoldsSequence inner read) :
    HoldsSequence (inner ++ [⟨.sign .semicolon, loc⟩]) read := by
  intro rest es hrest
  rw [List.append_assoc]
  exact h _ es (.semicolon hrest)

theorem HoldsSequence.push {inner own : List Lexeme} {read : List Expr} {e : Expr}
    (h : HoldsSequence inner read) (hown : Derives own (.expr e)) :
    HoldsSequence (inner ++ own) (e :: read) := by
  intro rest es hrest
  rw [List.append_assoc, List.reverse_cons, List.append_assoc]
  exact h _ (e :: es) (.next hown hrest)

theorem HoldsItems.push {inner own : List Lexeme} {read : List Expr} {e : Expr} {loc : Loc}
    (h : HoldsItems inner read) (hown : Derives own (.expr e)) :
    HoldsItems (inner ++ own ++ [⟨.sign .comma, loc⟩]) (e :: read) := by
  intro rest es hrest
  rw [List.append_assoc, List.append_assoc, List.reverse_cons, List.append_assoc]
  exact h _ (e :: es) (.item hown hrest)

theorem HoldsSequence.derives {inner : List Lexeme} {read : List Expr}
    (h : HoldsSequence inner read) : Derives inner (.sequence read.reverse) := by
  have hall := h [] [] .endSequence
  rwa [List.append_nil, List.append_nil] at hall

theorem HoldsItems.derives {inner : List Lexeme} {read : List Expr}
    (h : HoldsItems inner read) : Derives inner (.items read.reverse) := by
  have hall := h [] [] .endItems
  rwa [List.append_nil, List.append_nil] at hall

theorem HoldsItems.derives_last {inner own : List Lexeme} {read : List Expr} {e : Expr}
    (h : HoldsItems inner read) (hown : Derives own (.expr e)) :
    Derives (inner ++ own) (.items (e :: read).reverse) := by
  rw [List.reverse_cons]
  exact h own [e] (.lastItem hown)

/-! ## Accounts of the focus and of the stack -/

/-- What may be read on top of a stack. -/
inductive Slot where
  /-- Any expression. -/
  | expr
  /-- The `if` after an `else`. -/
  | choice

/-- An expression as what may be read in a slot. -/
def Slot.phrase : Slot → Expr → Phrase
  | expr, e => .expr e
  | choice, e => .choice e

/-- Tokens that are an `if` up to the end of its first branch. -/
def ReadsYes (lexemes : List Lexeme) (loc : Loc) (test yes : Expr) : Prop :=
  ∃ condition body es, lexemes = ⟨.keyword .kwIf, loc⟩ :: condition ++ body ∧
    Derives condition (.expr test) ∧ Derives body (.block es) ∧ yes = .block none es

/-- How a focus on top of a slot accounts for tokens. -/
def FocusReads (slot : Slot) (own : List Lexeme) : Focus → Prop
  | .operand => slot = .expr ∧ own = []
  | .callable e loc =>
      slot = .expr ∧ Derives own (.call e) ∧ ∃ first rest, own = first :: rest ∧
        first.loc = loc
  | .whole e => Derives own (slot.phrase e)
  | .afterYes loc test yes => ReadsYes own loc test yes
  | .afterElse loc test yes =>
      ∃ before l, own = before ++ [⟨.keyword .kwElse, l⟩] ∧ ReadsYes before loc test yes
  | .bindingName loc => slot = .expr ∧ own = [⟨.keyword .kwLet, loc⟩]
  | .bindingEquals loc name =>
      slot = .expr ∧ ∃ l, own = [⟨.keyword .kwLet, loc⟩, ⟨.name name, l⟩]
  | .fnOpen loc => slot = .expr ∧ own = [⟨.keyword .kwFn, loc⟩]
  | .fnFirst loc =>
      slot = .expr ∧ ∃ l, own = [⟨.keyword .kwFn, loc⟩, ⟨.sign .openParen, l⟩]
  | .fnNext loc names => slot = .expr ∧ names ≠ [] ∧
      ∃ l params, IsParameters params names ∧
      own = ⟨.keyword .kwFn, loc⟩ :: ⟨.sign .openParen, l⟩ :: params
  | .fnParam loc names => slot = .expr ∧ names ≠ [] ∧
      ∃ l params l', IsParameters params names ∧
      own = ⟨.keyword .kwFn, loc⟩ :: ⟨.sign .openParen, l⟩ :: params
        ++ [⟨.sign .comma, l'⟩]
  | .fnBody loc names => slot = .expr ∧ ∃ l params l', IsParameters params names ∧
      own = ⟨.keyword .kwFn, loc⟩ :: ⟨.sign .openParen, l⟩ :: params
        ++ [⟨.sign .closeParen, l'⟩]

/-- How a stack accounts for tokens, and what may be read on top of it. Of braces and brackets it is
said what stands there once they are closed. -/
inductive Opened (done : List Expr) : List Context → Slot → List Lexeme → Prop
  | outermost {lexemes} : HoldsSequence lexemes done → Opened done [] .expr lexemes
  | binding {stack lexemes loc name l₁ l₂} : Opened done stack .expr lexemes →
      Opened done (.binding loc name :: stack) .expr
        (lexemes ++ [⟨.keyword .kwLet, loc⟩, ⟨.name name, l₁⟩, ⟨.sign .equals, l₂⟩])
  | choiceTest {stack slot lexemes loc} : Opened done stack slot lexemes →
      Opened done (.choiceTest loc :: stack) .expr (lexemes ++ [⟨.keyword .kwIf, loc⟩])
  | loopTest {stack lexemes loc} : Opened done stack .expr lexemes →
      Opened done (.loopTest loc :: stack) .expr (lexemes ++ [⟨.keyword .kwWhile, loc⟩])
  | elseIf {stack slot lexemes before loc test yes l} : Opened done stack slot lexemes →
      ReadsYes before loc test yes →
      Opened done (.elseIf loc test yes :: stack) .choice
        (lexemes ++ (before ++ [⟨.keyword .kwElse, l⟩]))
  | block {stack slot lexemes role read opener inner l} : Opened done stack slot lexemes →
      (∀ body es, Derives (⟨.sign .openBrace, l⟩ :: body) (.block es) →
        FocusReads slot (opener ++ ⟨.sign .openBrace, l⟩ :: body) (closeBlock es role)) →
      HoldsSequence inner read →
      Opened done (.block role read :: stack) .expr
        (lexemes ++ (opener ++ ⟨.sign .openBrace, l⟩ :: inner))
  | items {stack lexemes role read opener inner} : Opened done stack .expr lexemes →
      (∀ body es l, Derives body (.items es) →
        FocusReads .expr (opener ++ body ++ [⟨.sign role.closing, l⟩]) (closeItems es role)) →
      HoldsItems inner read →
      Opened done (.items role read :: stack) .expr (lexemes ++ (opener ++ inner))

/-- How a state accounts for all the tokens that have been taken. -/
def Reads (lexemes : List Lexeme) (state : State) : Prop :=
  ∃ slot before own, lexemes = before ++ own ∧ Opened state.done state.stack slot before ∧
    FocusReads slot own state.focus

/-! ## Complete expressions -/

theorem Slot.derives_choice {own : List Lexeme} {e : Expr} (slot : Slot)
    (h : Derives own (.choice e)) : Derives own (slot.phrase e) := by
  cases slot with
  | expr => exact .ofChoice h
  | choice => exact h

/-- What is complete at a focus is derived from its tokens. -/
theorem FocusReads.derives {slot : Slot} {own : List Lexeme} {focus : Focus} {e : Expr}
    (h : FocusReads slot own focus) (hcomplete : focus.complete? = some e) :
    Derives own (slot.phrase e) := by
  cases focus with
  | callable e' loc =>
      obtain rfl : e' = e := Option.some.inj hcomplete
      obtain ⟨rfl, hown, -⟩ := h
      exact .ofCall hown
  | whole e' =>
      obtain rfl : e' = e := Option.some.inj hcomplete
      exact h
  | afterYes loc test yes =>
      obtain rfl : Expr.choice (some loc) test yes noElse = e := Option.some.inj hcomplete
      obtain ⟨condition, body, es, rfl, hcondition, hbody, rfl⟩ := h
      exact slot.derives_choice (.noElse hcondition hbody)
  | _ => exact absurd hcomplete nofun

/-- What an expression that has settled on a stack accounts for. -/
def Settled (done : List Expr) (lexemes : List Lexeme) (settled : List Context × Expr) : Prop :=
  ∃ before own, lexemes = before ++ own ∧ Opened done settled.1 .expr before ∧
    Derives own (.expr settled.2)

/-- Settling keeps the account: the constructs that were waiting are derived now. -/
theorem Opened.settle {done : List Expr} {stack : List Context} {slot : Slot}
    {before own : List Lexeme} {e : Expr} (h : Opened done stack slot before)
    (hown : Derives own (slot.phrase e)) : Settled done (before ++ own) (settle stack e) := by
  -- only what waits for its last part is taken off the stack, and then waits no longer
  induction h generalizing own e with
  | outermost hdone => exact ⟨_, own, rfl, .outermost hdone, hown⟩
  | binding _ ih =>
      rw [List.append_assoc]
      exact ih (.binding hown)
  | choiceTest hstack => exact ⟨_, own, rfl, .choiceTest hstack, hown⟩
  | loopTest hstack => exact ⟨_, own, rfl, .loopTest hstack, hown⟩
  | @elseIf stack slot lexemes before loc test yes l _ hyes ih =>
      obtain ⟨condition, body, es, rfl, hcondition, hbody, rfl⟩ := hyes
      have hchoice : Derives (⟨.keyword .kwIf, loc⟩ :: condition ++ body
        ++ ⟨.keyword .kwElse, l⟩ :: own)
          (.choice (.choice (some loc) test (.block none es) (elseIfBranch e))) :=
        .elseIf hcondition hbody hown
      have hsettled := ih (slot.derives_choice hchoice)
      rw [List.append_cons, ← List.append_assoc, ← List.append_assoc] at hsettled
      rw [← List.append_assoc]
      exact hsettled
  | block hstack hclose hread => exact ⟨_, own, rfl, .block hstack hclose hread, hown⟩
  | items hstack hclose hread => exact ⟨_, own, rfl, .items hstack hclose hread, hown⟩

/-! ## One step -/

/-- Closing the braces on top of a stack. -/
theorem Opened.close_block {state : State} {stack : List Context} {role : BlockRole}
    {read : List Expr} {lexemes : List Lexeme} {loc : Loc}
    (h : Opened state.done (.block role read :: stack) .expr lexemes) :
    Reads (lexemes ++ [⟨.sign .closeBrace, loc⟩])
      (state.move stack (closeBlock read.reverse role)) := by
  cases h with
  | @block _ slot before _ _ opener inner l hstack hclose hread =>
      have hbody : Derives (⟨.sign .openBrace, l⟩ :: (inner ++ [⟨.sign .closeBrace, loc⟩]))
          (.block read.reverse) := .block hread.derives
      refine ⟨slot, before, _, ?_, hstack, hclose _ _ hbody⟩
      rw [List.append_assoc, List.append_assoc, List.cons_append]

/-- A semicolon in the braces on top of a stack. -/
theorem Opened.semicolon {done : List Expr} {stack : List Context} {role : BlockRole}
    {read : List Expr} {lexemes : List Lexeme} {loc : Loc}
    (h : Opened done (.block role read :: stack) .expr lexemes) :
    Opened done (.block role read :: stack) .expr (lexemes ++ [⟨.sign .semicolon, loc⟩]) := by
  cases h with
  | block hstack hclose hread =>
      rw [List.append_assoc, List.append_assoc, List.cons_append]
      exact .block hstack hclose hread.semicolon

/-- Closing the brackets on top of a stack. -/
theorem Opened.close_items {state : State} {stack : List Context} {role : ItemsRole}
    {read : List Expr} {lexemes : List Lexeme} {loc : Loc}
    (h : Opened state.done (.items role read :: stack) .expr lexemes) :
    Reads (lexemes ++ [⟨.sign role.closing, loc⟩])
      (state.move stack (closeItems read.reverse role)) := by
  cases h with
  | @items _ before _ _ opener inner hstack hclose hread =>
      refine ⟨.expr, before, _, ?_, hstack, hclose inner _ loc hread.derives⟩
      rw [List.append_assoc, List.append_assoc]

/-- Closing the brackets on top of a stack after an expression. -/
theorem Opened.close_items_last {state : State} {stack : List Context} {role : ItemsRole}
    {read : List Expr} {lexemes own : List Lexeme} {loc : Loc} {e : Expr}
    (h : Opened state.done (.items role read :: stack) .expr lexemes)
    (hown : Derives own (.expr e)) :
    Reads (lexemes ++ own ++ [⟨.sign role.closing, loc⟩])
      (state.move stack (closeItems (e :: read).reverse role)) := by
  cases h with
  | @items _ before _ _ opener inner hstack hclose hread =>
      refine ⟨.expr, before, _, ?_, hstack,
        hclose (inner ++ own) _ loc (hread.derives_last hown)⟩
      simp only [List.append_assoc]

/-- The first token of an expression. -/
theorem Opened.begin {state state' : State} {stack : List Context} {lexemes : List Lexeme}
    {lexeme : Lexeme} (h : Opened state.done stack .expr lexemes)
    (hbegin : state.beginOn stack lexeme = some state') : Reads (lexemes ++ [lexeme]) state' := by
  obtain ⟨⟨stack', focus⟩, hfocus, rfl⟩ := Option.map_eq_some_iff.mp hbegin
  obtain ⟨token, loc⟩ := lexeme
  have hopens : ∀ {stack' focus opener}, Opened state.done stack' .expr (lexemes ++ opener) →
      some (stack', .operand) = some (stack', focus) → opener = [⟨token, loc⟩] →
      Reads (lexemes ++ [⟨token, loc⟩]) (state.move stack' focus) := by
    rintro stack' focus _ hstack' heq rfl
    cases heq
    exact ⟨.expr, _, [], (List.append_nil _).symm, hstack', rfl, rfl⟩
  have hcallable : ∀ {e}, Derives [⟨token, loc⟩] (.call e) →
      Reads (lexemes ++ [⟨token, loc⟩]) (state.move stack (.callable e loc)) :=
    fun hown => ⟨.expr, lexemes, _, rfl, h, rfl, hown, _, _, rfl, rfl⟩
  cases token with
  | int digits =>
      cases hfocus
      exact hcallable .int
  | str text =>
      cases hfocus
      exact hcallable .str
  | name name =>
      cases hfocus
      exact hcallable .name
  | keyword word =>
      cases word with
      | kwTrue =>
          cases hfocus
          exact hcallable .litTrue
      | kwFalse =>
          cases hfocus
          exact hcallable .litFalse
      | kwNull =>
          cases hfocus
          exact hcallable .litNull
      | kwFn | kwLet =>
          cases hfocus
          exact ⟨.expr, lexemes, _, rfl, h, rfl, rfl⟩
      | kwIf =>
          cases hfocus
          exact hopens (.choiceTest h) rfl rfl
      | kwWhile =>
          cases hfocus
          exact hopens (.loopTest h) rfl rfl
      | kwElse => cases hfocus
  | sign mark =>
      cases mark with
      | openBracket =>
          cases hfocus
          have hlist : ∀ body es l, Derives body (.items es) → FocusReads .expr
              ([⟨.sign .openBracket, loc⟩] ++ body ++ [⟨.sign .closeBracket, l⟩])
              (.callable (.list none es) loc) :=
            fun body es l hbody => ⟨rfl, .list hbody, _, _, rfl, rfl⟩
          exact hopens (.items h hlist .nil) rfl rfl
      | openBrace =>
          cases hfocus
          have hplain : ∀ body es, Derives (⟨.sign .openBrace, loc⟩ :: body) (.block es) →
              FocusReads .expr ([] ++ ⟨.sign .openBrace, loc⟩ :: body)
                (.callable (.block none es) loc) :=
            fun body es hbody => ⟨rfl, .braces hbody, _, _, rfl, rfl⟩
          exact hopens (.block h hplain .nil) rfl rfl
      | _ => cases hfocus

/-- A token where an expression may begin. -/
theorem Opened.operandStep {state state' : State} {stack : List Context} {lexemes : List Lexeme}
    {token : Token} {loc : Loc} (h : Opened state.done stack .expr lexemes)
    (hstep : (state.move stack .operand).operandStep ⟨token, loc⟩ = some state') :
    Reads (lexemes ++ [⟨token, loc⟩]) state' := by
  rw [State.operandStep, State.move_stack] at hstep
  have hbegin : (state.move stack .operand).beginOn stack ⟨token, loc⟩ = some state' →
      Reads (lexemes ++ [⟨token, loc⟩]) state' := h.begin
  split at hstep
  next _ role read rest htoken =>
      cases hstep
      cases htoken
      exact h.close_block
  next _ role read rest htoken =>
      cases hstep
      cases htoken
      exact ⟨.expr, _, [], (List.append_nil _).symm, h.semicolon, rfl, rfl⟩
  next _ role done rest mark htoken =>
      split at hstep
      next hmark =>
        cases hstep
        cases htoken
        cases hmark
        exact h.close_items
      next => exact hbegin hstep
  next htoken =>
      cases hstep
      cases htoken
      cases h with
      | outermost hdone =>
          exact ⟨.expr, _, [], (List.append_nil _).symm, .outermost hdone.semicolon, rfl, rfl⟩
  next =>
      split at hstep
      next => exact hbegin hstep
      next => cases hstep
  next => exact hbegin hstep

/-- An expression that has settled in braces is one more of those read in them. -/
theorem Opened.push_block {done : List Expr} {stack : List Context} {role : BlockRole}
    {read : List Expr} {lexemes own : List Lexeme} {e : Expr}
    (h : Opened done (.block role read :: stack) .expr lexemes) (hown : Derives own (.expr e)) :
    Opened done (.block role (e :: read) :: stack) .expr (lexemes ++ own) := by
  cases h with
  | block hstack hclose hread =>
      rw [List.append_assoc, List.append_assoc, List.cons_append]
      exact .block hstack hclose (hread.push hown)

/-- An expression that has settled in brackets is one more of those read in them at a comma. -/
theorem Opened.push_items {done : List Expr} {stack : List Context} {role : ItemsRole}
    {read : List Expr} {lexemes own : List Lexeme} {e : Expr} {loc : Loc}
    (h : Opened done (.items role read :: stack) .expr lexemes) (hown : Derives own (.expr e)) :
    Opened done (.items role (e :: read) :: stack) .expr
      (lexemes ++ own ++ [⟨.sign .comma, loc⟩]) := by
  cases h with
  | @items _ before _ _ opener inner hstack hclose hread =>
      have hread' : HoldsItems (inner ++ own ++ [⟨.sign .comma, loc⟩]) (e :: read) :=
        hread.push hown
      have hitems := Opened.items hstack hclose hread'
      simpa only [List.append_assoc] using hitems

/-- The brace after a condition opens the first branch of an `if`. -/
theorem Opened.test_choice {done : List Expr} {stack : List Context} {lexemes own : List Lexeme}
    {e : Expr} {loc l : Loc} (h : Opened done (.choiceTest loc :: stack) .expr lexemes)
    (hown : Derives own (.expr e)) :
    Opened done (.block (.yes loc e) [] :: stack) .expr
      (lexemes ++ own ++ [⟨.sign .openBrace, l⟩]) := by
  cases h with
  | @choiceTest _ slot before _ hstack =>
      have hclose : ∀ body es, Derives (⟨.sign .openBrace, l⟩ :: body) (.block es) →
          FocusReads slot ((⟨.keyword .kwIf, loc⟩ :: own) ++ ⟨.sign .openBrace, l⟩ :: body)
            (.afterYes loc e (.block none es)) :=
        fun body es hbody => ⟨own, _, es, rfl, hown, hbody, rfl⟩
      have hblock : Opened done (.block (.yes loc e) [] :: stack) .expr
          (before ++ ((⟨.keyword .kwIf, loc⟩ :: own) ++ [⟨.sign .openBrace, l⟩])) :=
        .block hstack hclose .nil
      simpa only [List.append_assoc, List.cons_append, List.nil_append] using hblock

/-- The brace after a condition opens the body of a loop. -/
theorem Opened.test_loop {done : List Expr} {stack : List Context} {lexemes own : List Lexeme}
    {e : Expr} {loc l : Loc} (h : Opened done (.loopTest loc :: stack) .expr lexemes)
    (hown : Derives own (.expr e)) :
    Opened done (.block (.loop loc e) [] :: stack) .expr
      (lexemes ++ own ++ [⟨.sign .openBrace, l⟩]) := by
  cases h with
  | @loopTest _ before _ hstack =>
      have hclose : ∀ body es, Derives (⟨.sign .openBrace, l⟩ :: body) (.block es) →
          FocusReads .expr ((⟨.keyword .kwWhile, loc⟩ :: own)
            ++ ⟨.sign .openBrace, l⟩ :: body)
            (.whole (.loop (some loc) e (.block none es))) :=
        fun body es hbody => Derives.loop hown hbody
      have hblock : Opened done (.block (.loop loc e) [] :: stack) .expr
          (before ++ ((⟨.keyword .kwWhile, loc⟩ :: own) ++ [⟨.sign .openBrace, l⟩])) :=
        .block hstack hclose .nil
      simpa only [List.append_assoc, List.cons_append, List.nil_append] using hblock

/-- A token after an expression that has settled. -/
theorem Settled.follow {state state' : State} {lexemes : List Lexeme} {token : Token} {loc : Loc}
    {settled : List Context × Expr} (h : Settled state.done lexemes settled)
    (hstep : state.follow ⟨token, loc⟩ settled = some state') :
    Reads (lexemes ++ [⟨token, loc⟩]) state' := by
  obtain ⟨before, own, rfl, hstack, hown⟩ := h
  have hoperand : ∀ {stack},
    Opened state.done stack .expr (before ++ own ++ [⟨token, loc⟩]) →
      Reads (before ++ own ++ [⟨token, loc⟩]) (state.move stack .operand) :=
    fun hstack => ⟨.expr, _, [], (List.append_nil _).symm, hstack, rfl, rfl⟩
  unfold State.follow at hstep
  -- a condition needs its brace, a list goes on or ends, and a sequence takes any token
  split at hstep
  next =>
      split at hstep
      next htoken =>
          cases hstep
          cases htoken
          exact hoperand (hstack.test_choice hown)
      next => exact absurd hstep nofun
  next =>
      split at hstep
      next htoken =>
          cases hstep
          cases htoken
          exact hoperand (hstack.test_loop hown)
      next => exact absurd hstep nofun
  next =>
      split at hstep
      next htoken =>
          cases hstep
          cases htoken
          exact hoperand (hstack.push_items hown)
      next =>
          split at hstep
          next htoken =>
              cases hstep
              cases htoken
              exact hstack.close_items_last hown
          next => exact absurd hstep nofun
  next => exact (hstack.push_block hown).operandStep hstep
  next stack e =>
      have houtermost : Opened (e :: state.done) [] .expr (before ++ own) := by
        cases hstack with
        | outermost hdone => exact .outermost (hdone.push hown)
      let pushed : State := { state with done := e :: state.done }
      exact (show Opened pushed.done [] .expr (before ++ own) from houtermost).operandStep hstep
  next => exact absurd hstep nofun

/-- The parenthesis after something that can be called opens its arguments. -/
theorem Opened.open_arguments {done : List Expr} {stack : List Context} {before own : List Lexeme}
    {e : Expr} {loc l : Loc} (h : Opened done stack .expr before)
    (hown : FocusReads .expr own (.callable e loc)) :
    Opened done (.items (.arguments loc e) [] :: stack) .expr
      (before ++ (own ++ [⟨.sign .openParen, l⟩])) := by
  obtain ⟨-, hcallee, first, rest, rfl, rfl⟩ := hown
  have hclose : ∀ body es l', Derives body (.items es) → FocusReads .expr
      ((first :: rest ++ [⟨.sign .openParen, l⟩]) ++ body ++ [⟨.sign .closeParen, l'⟩])
      (.callable (.applied first.loc e es) first.loc) := by
    intro body es l' hbody
    rw [← List.append_cons]
    exact ⟨rfl, .call hcallee hbody, _, _, rfl, rfl⟩
  have hitems : Opened done (.items (.arguments first.loc e) [] :: stack) .expr
      (before ++ ((first :: rest ++ [⟨.sign .openParen, l⟩]) ++ [])) := .items h hclose .nil
  rwa [List.append_nil] at hitems

/-- The brace after an `else` opens the second branch. -/
theorem Opened.open_else {done : List Expr} {stack : List Context} {slot : Slot}
    {before own : List Lexeme} {test yes : Expr} {loc l : Loc} (h : Opened done stack slot before)
    (hown : FocusReads slot own (.afterElse loc test yes)) :
    Opened done (.block (.no loc test yes) [] :: stack) .expr
      (before ++ (own ++ [⟨.sign .openBrace, l⟩])) := by
  obtain ⟨_, lElse, rfl, condition, body, es, rfl, hcondition, hbody, rfl⟩ := hown
  have hclose : ∀ no es', Derives (⟨.sign .openBrace, l⟩ :: no) (.block es') →
    FocusReads slot
      ((⟨.keyword .kwIf, loc⟩ :: condition ++ body ++ [⟨.keyword .kwElse, lElse⟩])
        ++ ⟨.sign .openBrace, l⟩ :: no)
      (.whole (.choice (some loc) test (.block none es) (.block none es'))) := by
    intro no es' hno
    rw [← List.append_cons]
    exact slot.derives_choice (.blockElse hcondition hbody hno)
  exact .block h hclose .nil

/-- The brace after the parameters of a function opens its body. -/
theorem Opened.open_body {done : List Expr} {stack : List Context} {before own : List Lexeme}
    {names : List String} {loc l : Loc} (h : Opened done stack .expr before)
    (hown : FocusReads .expr own (.fnBody loc names)) :
    Opened done (.block (.fn loc names) [] :: stack) .expr
      (before ++ (own ++ [⟨.sign .openBrace, l⟩])) := by
  obtain ⟨-, lOpen, params, lClose, hparams, rfl⟩ := hown
  have hclose : ∀ body es, Derives (⟨.sign .openBrace, l⟩ :: body) (.block es) →
    FocusReads .expr
      ((⟨.keyword .kwFn, loc⟩ :: ⟨.sign .openParen, lOpen⟩ :: params
        ++ [⟨.sign .closeParen, lClose⟩]) ++ ⟨.sign .openBrace, l⟩ :: body)
      (.callable (.curried names (.block none es)) loc) := by
    intro body es hbody
    rw [← List.append_cons]
    exact ⟨rfl, .fn hparams hbody, _, _, rfl, rfl⟩
  exact .block h hclose .nil

/-- One more token is accounted for. -/
theorem Reads.step {state state' : State} {lexemes : List Lexeme} {lexeme : Lexeme}
    (h : Reads lexemes state) (hstep : state.step lexeme = some state') :
    Reads (lexemes ++ [lexeme]) state' := by
  obtain ⟨goal, done, stack, focus⟩ := state
  obtain ⟨token, loc⟩ := lexeme
  obtain ⟨slot, before, own, rfl, hstack, hown⟩ := h
  -- a token goes on from a complete expression, or within the focus, or it opens something
  have hfollow : ∀ {e}, focus.complete? = some e →
      State.follow ⟨goal, done, stack, focus⟩ ⟨token, loc⟩ (settle stack e)
        = some state' →
      Reads (before ++ own ++ [⟨token, loc⟩]) state' := by
    intro e hcomplete hstep
    let state : State := ⟨goal, done, stack, focus⟩
    have hsettled : Settled state.done (before ++ own) (settle stack e) :=
      hstack.settle (hown.derives hcomplete)
    exact hsettled.follow hstep
  have hfocus : ∀ {focus'}, FocusReads slot (own ++ [⟨token, loc⟩]) focus' →
      Reads (before ++ own ++ [⟨token, loc⟩]) ⟨goal, done, stack, focus'⟩ :=
    fun hown' => ⟨slot, before, _, List.append_assoc _ _ _, hstack, hown'⟩
  have hopens : ∀ {stack' slot' opener}, Opened done stack' slot' (before ++ opener) →
      slot' = .expr → opener = own ++ [⟨token, loc⟩] →
      Reads (before ++ own ++ [⟨token, loc⟩]) ⟨goal, done, stack', .operand⟩ := by
    rintro stack' _ _ hstack' rfl rfl
    rw [List.append_assoc]
    exact ⟨.expr, _, [], (List.append_nil _).symm, hstack', rfl, rfl⟩
  unfold State.step at hstep
  dsimp only at hstep
  -- the cases are those of the step: by the focus, and by the token that it waits for
  split at hstep
  next =>
      obtain ⟨rfl, rfl⟩ := hown
      rw [List.append_nil]
      exact hstack.operandStep hstep
  next e l =>
      cases hstep
      obtain rfl : slot = .expr := hown.1
      exact hopens (hstack.open_arguments hown) rfl rfl
  next => exact hfollow rfl hstep
  next => exact hfollow rfl hstep
  next =>
      cases hstep
      exact hfocus ⟨own, loc, rfl, hown⟩
  next => exact hfollow rfl hstep
  next =>
      cases hstep
      exact hopens (hstack.open_else hown) rfl rfl
  next loc' test yes =>
      cases hstep
      obtain ⟨_, l, rfl, hyes⟩ := hown
      have htest : Opened done (.choiceTest loc :: .elseIf loc' test yes :: stack) .expr
          (before ++ (_ ++ [⟨.keyword .kwElse, l⟩]) ++ [⟨.keyword .kwIf, loc⟩]) :=
        .choiceTest (.elseIf hstack hyes)
      rw [List.append_assoc] at htest
      exact hopens htest rfl rfl
  next =>
      cases hstep
      obtain ⟨rfl, rfl⟩ := hown
      exact hfocus ⟨rfl, loc, rfl⟩
  next =>
      cases hstep
      obtain ⟨rfl, l, rfl⟩ := hown
      exact hopens (.binding hstack) rfl rfl
  next =>
      cases hstep
      obtain ⟨rfl, rfl⟩ := hown
      exact hfocus ⟨rfl, loc, rfl⟩
  next =>
      cases hstep
      obtain ⟨rfl, l, rfl⟩ := hown
      exact hfocus ⟨rfl, l, [], loc, rfl, rfl⟩
  next name =>
      cases hstep
      obtain ⟨rfl, l, rfl⟩ := hown
      exact hfocus ⟨rfl, List.cons_ne_nil _ _, l, [⟨.name name, loc⟩], rfl, rfl⟩
  next =>
      cases hstep
      obtain ⟨rfl, -, l, params, hparams, rfl⟩ := hown
      exact hfocus ⟨rfl, l, params, loc, hparams, rfl⟩
  next =>
      cases hstep
      obtain ⟨rfl, hne, l, params, hparams, rfl⟩ := hown
      exact hfocus ⟨rfl, hne, l, params, loc, hparams, rfl⟩
  next =>
      cases hstep
      obtain ⟨rfl, hne, l, params, l', hparams, rfl⟩ := hown
      exact hfocus ⟨rfl, List.append_ne_nil_of_left_ne_nil hne _, l, _, hparams.push hne, rfl⟩
  next =>
      cases hstep
      obtain rfl : slot = .expr := hown.1
      exact hopens (hstack.open_body hown) rfl rfl
  next => exact absurd hstep nofun

/-! ## Whole runs -/

/-- All tokens of a run are accounted for. -/
theorem Reads.run {state state' : State} {lexemes rest : List Lexeme} (h : Reads lexemes state)
    (hrun : state.run rest = .ok state') : Reads (lexemes ++ rest) state' := by
  induction rest generalizing state lexemes with
  | nil =>
      obtain rfl : state = state' := Except.ok.inj hrun
      rwa [List.append_nil]
  | cons lexeme rest ih =>
      rw [State.run] at hrun
      cases hstep : state.step lexeme with
      | none =>
          rw [hstep] at hrun
          cases hrun
      | some next =>
          rw [hstep] at hrun
          rw [List.append_cons]
          exact ih (h.step hstep) hrun

/-- What has been read at the outermost level is a derived sequence. -/
theorem Reads.derives_sequence {state : State} {lexemes : List Lexeme} {es : List Expr}
    (h : Reads lexemes state) (hexprs : state.exprs? = some es) :
    Derives lexemes (.sequence es) := by
  obtain ⟨goal, done, stack, focus⟩ := state
  obtain ⟨slot, before, own, rfl, hstack, hown⟩ := h
  have hending : ∀ {e}, focus.complete? = some e →
      State.exprs?.ending ⟨goal, done, stack, focus⟩ e = some es →
      Derives (before ++ own) (.sequence es) := by
    intro e hcomplete hending
    have hsettled : Settled done (before ++ own) (settle stack e) :=
      hstack.settle (hown.derives hcomplete)
    unfold State.exprs?.ending at hending
    dsimp only at hending
    split at hending
    next e' heq =>
        rw [heq] at hsettled
        obtain ⟨before', own', hall, houtermost, hown'⟩ := hsettled
        cases hending
        rw [hall]
        cases houtermost with
        | outermost hdone => exact (hdone.push hown').derives
    next => exact absurd hending nofun
  cases focus with
  | operand =>
      obtain ⟨rfl, rfl⟩ := hown
      -- no construct may still be open at the end
      cases hstack with
      | outermost hdone =>
          cases hexprs
          rw [List.append_nil]
          exact hdone.derives
      | _ => exact absurd hexprs nofun
  | callable | whole | afterYes => exact hending rfl hexprs
  | _ => exact absurd hexprs nofun

/-- Whatever is read from the tokens of a whole source the grammar derives from them. -/
theorem derivesGoal_of_finish {goal : Goal} {lexemes : List Lexeme} {state : State} {tree : Expr}
    (hrun : (State.initial goal).run lexemes = .ok state) (hfinish : state.finish = some tree) :
    DerivesGoal lexemes tree goal := by
  have hinitial : Reads [] (State.initial goal) :=
    ⟨.expr, [], [], rfl, .outermost .nil, rfl, rfl⟩
  have hgoal : state.goal = goal := State.goal_of_run hrun
  have hreads : Reads lexemes state := hinitial.run hrun
  rw [State.finish, hgoal] at hfinish
  split at hfinish
  next es hexprs =>
      cases hfinish
      exact ⟨es, hreads.derives_sequence hexprs, rfl⟩
  next e hexprs =>
      cases hfinish
      exact (hreads.derives_sequence hexprs).single_of_sequence rfl
  next => exact absurd hfinish nofun

end ExprLang.Reader
