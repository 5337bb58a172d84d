import ExprLang.Proofs.Expr.Unlocated
import ExprLang.Reader.Machine

/-!
# The grammar

The grammar of the language as a relation between stretches of tokens and what they mean, one
constructor a rule, written apart from the machine that reads. A phrase is a stretch of tokens under
a heading: an expression, an `if`, something that can be called, the inside of braces or of
brackets. The tokens carry their places, and a derived tree carries those of its first tokens.

Places play no part in whether tokens derive anything, nor in what they derive but for the
locations: a derivation can be carried over to any other places (`Derives.transport`). `DerivesTree`
is the relation between bare tokens and trees without locations.
-/

namespace ExprLang.Grammar

open Reader (Goal literalValue)

/-! ## Phrases -/

/-- What a stretch of tokens is read as. -/
inductive Phrase where
  /-- Any expression. -/
  | expr (e : Expr)
  /-- An `if`, with the branches that belong to it. -/
  | choice (e : Expr)
  /-- An atom, with the argument lists that it is called with. -/
  | call (e : Expr)
  /-- Braces and the expressions between them. -/
  | block (es : List Expr)
  /-- Expressions with any number of semicolons before, between and after them. -/
  | sequence (es : List Expr)
  /-- Expressions with commas between them, and perhaps one after the last. -/
  | items (es : List Expr)

/-- The places and the tokens of a list of parameters. -/
def IsParameters (lexemes : List Lexeme) (names : List String) : Prop :=
  lexemes.map (·.token) = (names.map Token.name).intersperse (.sign .comma)

theorem intersperse_push {α : Type} (separator x : α) :
    ∀ xs : List α, xs ≠ [] → (xs ++ [x]).intersperse separator
      = xs.intersperse separator ++ [separator, x]
  | [_], _ => rfl
  | a :: b :: xs, _ => by
      rw [List.cons_append, List.cons_append, List.intersperse_cons_cons, ← List.cons_append,
        intersperse_push separator x (b :: xs) (List.cons_ne_nil _ _)]
      rfl

/-- One more parameter. -/
theorem IsParameters.push {lexemes : List Lexeme} {names : List String} {name : String}
    {l₁ l₂ : Loc} (h : IsParameters lexemes names) (hne : names ≠ []) :
    IsParameters (lexemes ++ [⟨.sign .comma, l₁⟩] ++ [⟨.name name, l₂⟩])
    (names ++ [name]) := by
  unfold IsParameters at h ⊢
  rw [List.map_append, List.map_append, List.map_append, h, List.append_assoc]
  exact (intersperse_push _ _ _ (mt List.map_eq_nil_iff.mp hne)).symm

/-- The rules of the grammar. -/
inductive Derives : List Lexeme → Phrase → Prop
  -- atoms
  | int {digits loc} : Derives [⟨.int digits, loc⟩] (.call (.int none (literalValue digits)))
  | str {text loc} : Derives [⟨.str text, loc⟩] (.call (.str none text))
  | litTrue {loc} : Derives [⟨.keyword .kwTrue, loc⟩] (.call (.bool none true))
  | litFalse {loc} : Derives [⟨.keyword .kwFalse, loc⟩] (.call (.bool none false))
  | litNull {loc} : Derives [⟨.keyword .kwNull, loc⟩] (.call .null)
  | name {name loc} : Derives [⟨.name name, loc⟩] (.call (.ident (some loc) name))
  | list {items es l₁ l₂} : Derives items (.items es) →
      Derives (⟨.sign .openBracket, l₁⟩ :: items ++ [⟨.sign .closeBracket, l₂⟩])
        (.call (.list none es))
  | fn {params names body es l₁ l₂ l₃} : IsParameters params names →
      Derives body (.block es) →
      Derives (⟨.keyword .kwFn, l₁⟩ :: ⟨.sign .openParen, l₂⟩ :: params
        ++ ⟨.sign .closeParen, l₃⟩ :: body) (.call (.curried names (.block none es)))
  | braces {body es} : Derives body (.block es) → Derives body (.call (.block none es))
  -- calls
  | call {first rest callee args es l₁ l₂} : Derives (first :: rest) (.call callee) →
      Derives args (.items es) →
      Derives (first :: rest ++ ⟨.sign .openParen, l₁⟩ :: args
        ++ [⟨.sign .closeParen, l₂⟩])
        (.call (.applied first.loc callee es))
  -- expressions
  | binding {name value e loc l₁ l₂} : Derives value (.expr e) →
      Derives (⟨.keyword .kwLet, loc⟩ :: ⟨.name name, l₁⟩
        :: ⟨.sign .equals, l₂⟩ :: value)
        (.expr (.binding (some loc) name e))
  | loop {test c body es loc} : Derives test (.expr c) → Derives body (.block es) →
      Derives (⟨.keyword .kwWhile, loc⟩ :: test ++ body)
        (.expr (.loop (some loc) c (.block none es)))
  | ofChoice {lexemes e} : Derives lexemes (.choice e) → Derives lexemes (.expr e)
  | ofCall {lexemes e} : Derives lexemes (.call e) → Derives lexemes (.expr e)
  -- an `if`
  | noElse {test c yes es loc} : Derives test (.expr c) → Derives yes (.block es) →
      Derives (⟨.keyword .kwIf, loc⟩ :: test ++ yes)
        (.choice (.choice (some loc) c (.block none es) (.block none [.null])))
  | blockElse {test c yes es no es' loc l₁} : Derives test (.expr c) →
      Derives yes (.block es) →
      Derives no (.block es') →
      Derives (⟨.keyword .kwIf, loc⟩ :: test ++ yes ++ ⟨.keyword .kwElse, l₁⟩ :: no)
        (.choice (.choice (some loc) c (.block none es) (.block none es')))
  | elseIf {test c yes es no e loc l₁} : Derives test (.expr c) → Derives yes (.block es) →
      Derives no (.choice e) →
      Derives (⟨.keyword .kwIf, loc⟩ :: test ++ yes ++ ⟨.keyword .kwElse, l₁⟩ :: no)
        (.choice (.choice (some loc) c (.block none es) (.block none [e])))
  -- the inside of braces
  | block {inner es l₁ l₂} : Derives inner (.sequence es) →
      Derives (⟨.sign .openBrace, l₁⟩ :: inner ++ [⟨.sign .closeBrace, l₂⟩]) (.block es)
  | endSequence : Derives [] (.sequence [])
  | semicolon {rest es loc} : Derives rest (.sequence es) →
      Derives (⟨.sign .semicolon, loc⟩ :: rest) (.sequence es)
  | next {first e rest es} : Derives first (.expr e) → Derives rest (.sequence es) →
      Derives (first ++ rest) (.sequence (e :: es))
  -- the inside of brackets
  | endItems : Derives [] (.items [])
  | lastItem {last e} : Derives last (.expr e) → Derives last (.items [e])
  | item {first e rest es loc} : Derives first (.expr e) → Derives rest (.items es) →
      Derives (first ++ ⟨.sign .comma, loc⟩ :: rest) (.items (e :: es))

/-- The two readings of a whole source: any number of expressions, or exactly one, with any number
of semicolons around. -/
def DerivesGoal (lexemes : List Lexeme) (tree : Expr) : Goal → Prop
  | .program => ∃ es, Derives lexemes (.sequence es) ∧ tree = .program none es
  | .expression => ∃ before middle after, lexemes = before ++ middle ++ after ∧
      (∀ lexeme ∈ before, lexeme.token = .sign .semicolon) ∧
      (∀ lexeme ∈ after, lexeme.token = .sign .semicolon) ∧ Derives middle (.expr tree)

/-- The trees, without their locations, that a sequence of tokens derives. -/
def DerivesTree (goal : Goal) (tokens : List Token) (tree : Expr) : Prop :=
  ∃ lexemes located, lexemes.map (·.token) = tokens ∧ DerivesGoal lexemes located goal ∧
    located.unlocated = tree

/-! ## First tokens -/

/-- A token that does not go on with what is before it: it opens no arguments and no second
branch. -/
def Detached (token : Token) : Prop :=
  token ≠ .sign .openParen ∧ token ≠ .keyword .kwElse

theorem detached_sign {mark : Sign} (h : mark ≠ .openParen) : Detached (.sign mark) :=
  ⟨fun heq => h (Token.sign.inj heq), nofun⟩

/-- How a phrase begins: with a detached token, if it has any token, and it has one unless it is a
list of expressions. -/
def Begins (lexemes : List Lexeme) : Phrase → Prop
  | .sequence _ | .items _ => ∀ first rest, lexemes = first :: rest → Detached first.token
  | .expr _ | .choice _ | .call _ | .block _ =>
      ∃ first rest, lexemes = first :: rest ∧ Detached first.token

/-- No phrase begins with a token that could be taken for a part of what is before it. -/
theorem Derives.begins {lexemes : List Lexeme} {phrase : Phrase} (h : Derives lexemes phrase) :
    Begins lexemes phrase := by
  have hdetached : ∀ {token : Token} {loc : Loc} {rest : List Lexeme},
      token ≠ .sign .openParen → token ≠ .keyword .kwElse →
      ∃ first rest', (⟨token, loc⟩ : Lexeme) :: rest = first :: rest' ∧
        Detached first.token :=
    fun hopen helse => ⟨_, _, rfl, hopen, helse⟩
  induction h with
  | int | str | litTrue | litFalse | litNull | name | list | fn | binding | loop
      | noElse | blockElse
  | elseIf | block => exact hdetached (by nofun) (by nofun)
  | braces _ ih => exact ih
  | ofChoice _ ih => exact ih
  | ofCall _ ih => exact ih
  | call _ _ ihCallee =>
      obtain ⟨first, rest, heq, hfirst⟩ := ihCallee
      obtain ⟨rfl, -⟩ := List.cons.inj heq
      exact ⟨_, _, rfl, hfirst⟩
  | endSequence => exact nofun
  | endItems => exact nofun
  | semicolon =>
      intro first rest heq
      obtain ⟨rfl, -⟩ := List.cons.inj heq
      exact detached_sign nofun
  | next _ _ ihFirst =>
      intro first rest heq
      obtain ⟨first', rest', rfl, hfirst⟩ := ihFirst
      obtain ⟨rfl, -⟩ := List.cons.inj heq
      exact hfirst
  | lastItem _ ih =>
      intro first rest heq
      obtain ⟨first', rest', rfl, hfirst⟩ := ih
      obtain ⟨rfl, -⟩ := List.cons.inj heq
      exact hfirst
  | item _ _ ihFirst =>
      intro first rest heq
      obtain ⟨first', rest', rfl, hfirst⟩ := ihFirst
      obtain ⟨rfl, -⟩ := List.cons.inj heq
      exact hfirst

/-! ## Sequences -/

/-- No tokens hold no expressions. -/
theorem Derives.eq_nil_of_sequence {lexemes : List Lexeme} {es : List Expr}
    (h : Derives lexemes (.sequence es)) (hnil : lexemes = []) : es = [] := by
  cases h with
  | endSequence => rfl
  | semicolon => exact absurd hnil (List.cons_ne_nil _ _)
  | next hfirst =>
      obtain ⟨first, rest, rfl, -⟩ := hfirst.begins
      exact absurd hnil (List.cons_ne_nil _ _)

/-- A sequence of no expressions consists of semicolons. -/
theorem Derives.semicolons_of_sequence {lexemes : List Lexeme} {phrase : Phrase}
    (h : Derives lexemes phrase) (hphrase : phrase = .sequence []) :
    ∀ lexeme ∈ lexemes, lexeme.token = .sign .semicolon := by
  induction h with
  | endSequence => exact fun _ hmem => absurd hmem List.not_mem_nil
  | semicolon _ ih =>
      intro lexeme hmem
      cases hmem with
      | head => rfl
      | tail _ hmem => exact ih hphrase lexeme hmem
  | _ => cases hphrase

/-- A sequence of one expression is that expression with semicolons around. -/
theorem Derives.single_of_sequence {lexemes : List Lexeme} {phrase : Phrase} {e : Expr}
    (h : Derives lexemes phrase) (hphrase : phrase = .sequence [e]) :
    DerivesGoal lexemes e .expression := by
  induction h with
  | @semicolon rest es loc _ ih =>
      obtain ⟨before, middle, after, rfl, hbefore, hafter, hmiddle⟩ := ih hphrase
      refine ⟨⟨.sign .semicolon, loc⟩ :: before, middle, after, rfl, ?_, hafter, hmiddle⟩
      intro lexeme hmem
      cases hmem with
      | head => rfl
      | tail _ hmem => exact hbefore lexeme hmem
  | @next first e' rest es hfirst hrest =>
      obtain ⟨rfl, rfl⟩ : e' = e ∧ es = [] := by
        have hlist := Phrase.sequence.inj hphrase
        exact List.cons.inj hlist
      exact ⟨[], first, rest, rfl, fun _ hmem => absurd hmem List.not_mem_nil,
        hrest.semicolons_of_sequence rfl, hfirst⟩
  | _ => cases hphrase

/-! ## Other places -/

/-- Two lists of lexemes with the same tokens, at whichever places. -/
def SameTokens (lexemes lexemes' : List Lexeme) : Prop :=
  lexemes.map (·.token) = lexemes'.map (·.token)

theorem SameTokens.cons_inv {lexemes rest : List Lexeme} {token : Token} {loc : Loc}
    (h : SameTokens lexemes (⟨token, loc⟩ :: rest)) :
    ∃ loc' rest', lexemes = ⟨token, loc'⟩ :: rest' ∧ SameTokens rest' rest := by
  obtain ⟨⟨token', loc'⟩, rest', rfl, htoken, hrest⟩ := List.map_eq_cons_iff.mp h
  obtain rfl : token' = token := htoken
  exact ⟨loc', rest', rfl, hrest⟩

theorem SameTokens.append_inv {lexemes first second : List Lexeme}
    (h : SameTokens lexemes (first ++ second)) :
    ∃ first' second', lexemes = first' ++ second' ∧ SameTokens first' first ∧
      SameTokens second' second := by
  unfold SameTokens at h
  rw [List.map_append] at h
  obtain ⟨first', second', rfl, hfirst, hsecond⟩ := List.map_eq_append_iff.mp h
  exact ⟨first', second', rfl, hfirst, hsecond⟩

theorem SameTokens.nil_inv {lexemes : List Lexeme} (h : SameTokens lexemes []) : lexemes = [] :=
  List.map_eq_nil_iff.mp h

theorem SameTokens.singleton_inv {lexemes : List Lexeme} {token : Token} {loc : Loc}
    (h : SameTokens lexemes [⟨token, loc⟩]) : ∃ loc', lexemes = [⟨token, loc'⟩] := by
  obtain ⟨loc', rest', rfl, hrest⟩ := h.cons_inv
  rw [hrest.nil_inv]
  exact ⟨loc', rfl⟩

/-- Whether there are only semicolons depends on the tokens alone. -/
theorem SameTokens.forall_semicolon {lexemes lexemes' : List Lexeme}
    (h : SameTokens lexemes' lexemes)
    (hall : ∀ lexeme ∈ lexemes, lexeme.token = .sign .semicolon) :
    ∀ lexeme ∈ lexemes', lexeme.token = .sign .semicolon := by
  have htokens : ∀ token ∈ lexemes'.map (·.token), token = .sign .semicolon := by
    rw [h]
    exact List.forall_mem_map.mpr hall
  exact List.forall_mem_map.mp htokens

/-- The phrase up to locations: what tokens at other places derive instead of it. -/
def DerivesLike (lexemes : List Lexeme) : Phrase → Prop
  | .expr e => ∃ e', Derives lexemes (.expr e') ∧ e'.unlocated = e.unlocated
  | .choice e => ∃ e', Derives lexemes (.choice e') ∧ e'.unlocated = e.unlocated
  | .call e => ∃ e', Derives lexemes (.call e') ∧ e'.unlocated = e.unlocated
  | .block es =>
      ∃ es', Derives lexemes (.block es') ∧ es'.map Expr.unlocated = es.map Expr.unlocated
  | .sequence es =>
      ∃ es', Derives lexemes (.sequence es') ∧ es'.map Expr.unlocated = es.map Expr.unlocated
  | .items es =>
      ∃ es', Derives lexemes (.items es') ∧ es'.map Expr.unlocated = es.map Expr.unlocated

/-- Tokens derive the same at all places, but for the locations. -/
theorem Derives.transport {lexemes : List Lexeme} {phrase : Phrase} (h : Derives lexemes phrase) :
    ∀ {lexemes' : List Lexeme}, SameTokens lexemes' lexemes → DerivesLike lexemes' phrase := by
  -- in each case the other tokens are split as the rule splits these
  induction h with
  | int | str | litTrue | litFalse | litNull =>
      intro lexemes' hsame
      obtain ⟨loc', rfl⟩ := hsame.singleton_inv
      exact ⟨_, by constructor, rfl⟩
  | name =>
      intro lexemes' hsame
      obtain ⟨loc', rfl⟩ := hsame.singleton_inv
      exact ⟨_, .name, by simp only [Expr.unlocated]⟩
  | list _ ih =>
      intro lexemes' hsame
      obtain ⟨init, last, rfl, hinit, hlast⟩ := hsame.append_inv
      obtain ⟨l₁, items', rfl, hitems⟩ := hinit.cons_inv
      obtain ⟨l₂, rfl⟩ := hlast.singleton_inv
      obtain ⟨es', hes', he⟩ := ih hitems
      exact ⟨_, .list hes', by simp only [Expr.unlocated, Expr.unlocatedAll_eq, he]⟩
  | fn hparams _ ih =>
      intro lexemes' hsame
      obtain ⟨init, last, rfl, hinit, hlast⟩ := hsame.append_inv
      obtain ⟨l₁, opened, rfl, hopened⟩ := hinit.cons_inv
      obtain ⟨l₂, params', rfl, hparams'⟩ := hopened.cons_inv
      obtain ⟨l₃, body', rfl, hbody⟩ := hlast.cons_inv
      obtain ⟨es', hes', he⟩ := ih hbody
      refine ⟨_, .fn (hparams'.trans hparams) hes', ?_⟩
      simp only [Expr.unlocated_curried, Expr.unlocated, Expr.unlocatedAll_eq, he]
  | braces _ ih =>
      intro lexemes' hsame
      obtain ⟨es', hes', he⟩ := ih hsame
      exact ⟨_, .braces hes', by simp only [Expr.unlocated, Expr.unlocatedAll_eq, he]⟩
  | call _ _ ihCallee ihArgs =>
      intro lexemes' hsame
      obtain ⟨init, last, rfl, hinit, hlast⟩ := hsame.append_inv
      obtain ⟨callee', opened, rfl, hcallee, hopened⟩ := hinit.append_inv
      obtain ⟨l₁, args', rfl, hargs⟩ := hopened.cons_inv
      obtain ⟨l₂, rfl⟩ := hlast.singleton_inv
      obtain ⟨loc', rest', rfl, -⟩ := hcallee.cons_inv
      obtain ⟨e', he', he⟩ := ihCallee hcallee
      obtain ⟨es', hes', hes⟩ := ihArgs hargs
      exact ⟨_, .call he' hes', Expr.unlocated_applied _ _ he hes⟩
  | binding _ ih =>
      intro lexemes' hsame
      obtain ⟨loc', named, rfl, hnamed⟩ := hsame.cons_inv
      obtain ⟨l₁, bound, rfl, hbound⟩ := hnamed.cons_inv
      obtain ⟨l₂, value', rfl, hvalue⟩ := hbound.cons_inv
      obtain ⟨e', he', he⟩ := ih hvalue
      exact ⟨_, .binding he', by simp only [Expr.unlocated, he]⟩
  | loop _ _ ihTest ihBody =>
      intro lexemes' hsame
      obtain ⟨init, body', rfl, hinit, hbody⟩ := hsame.append_inv
      obtain ⟨loc', test', rfl, htest⟩ := hinit.cons_inv
      obtain ⟨c', hc', hc⟩ := ihTest htest
      obtain ⟨es', hes', he⟩ := ihBody hbody
      exact ⟨_, .loop hc' hes', by simp only [Expr.unlocated, Expr.unlocatedAll_eq, hc, he]⟩
  | ofChoice _ ih =>
      intro lexemes' hsame
      obtain ⟨e', he', he⟩ := ih hsame
      exact ⟨e', .ofChoice he', he⟩
  | ofCall _ ih =>
      intro lexemes' hsame
      obtain ⟨e', he', he⟩ := ih hsame
      exact ⟨e', .ofCall he', he⟩
  | noElse _ _ ihTest ihYes =>
      intro lexemes' hsame
      obtain ⟨init, yes', rfl, hinit, hyes⟩ := hsame.append_inv
      obtain ⟨loc', test', rfl, htest⟩ := hinit.cons_inv
      obtain ⟨c', hc', hc⟩ := ihTest htest
      obtain ⟨es', hes', he⟩ := ihYes hyes
      exact ⟨_, .noElse hc' hes', by simp only [Expr.unlocated, Expr.unlocatedAll_eq, hc, he]⟩
  | blockElse _ _ _ ihTest ihYes ihNo =>
      intro lexemes' hsame
      obtain ⟨init, last, rfl, hinit, hlast⟩ := hsame.append_inv
      obtain ⟨tested, yes', rfl, htested, hyes⟩ := hinit.append_inv
      obtain ⟨loc', test', rfl, htest⟩ := htested.cons_inv
      obtain ⟨l₁, no', rfl, hno⟩ := hlast.cons_inv
      obtain ⟨c', hc', hc⟩ := ihTest htest
      obtain ⟨es', hes', he⟩ := ihYes hyes
      obtain ⟨es'', hes'', he'⟩ := ihNo hno
      exact ⟨_, .blockElse hc' hes' hes'', by
        simp only [Expr.unlocated, Expr.unlocatedAll_eq, hc, he, he']⟩
  | elseIf _ _ _ ihTest ihYes ihNo =>
      intro lexemes' hsame
      obtain ⟨init, last, rfl, hinit, hlast⟩ := hsame.append_inv
      obtain ⟨tested, yes', rfl, htested, hyes⟩ := hinit.append_inv
      obtain ⟨loc', test', rfl, htest⟩ := htested.cons_inv
      obtain ⟨l₁, no', rfl, hno⟩ := hlast.cons_inv
      obtain ⟨c', hc', hc⟩ := ihTest htest
      obtain ⟨es', hes', he⟩ := ihYes hyes
      obtain ⟨e', he', hinner⟩ := ihNo hno
      exact ⟨_, .elseIf hc' hes' he', by
        simp only [Expr.unlocated, Expr.unlocatedAll, Expr.unlocatedAll_eq, hc, he, hinner]⟩
  | block _ ih =>
      intro lexemes' hsame
      obtain ⟨init, last, rfl, hinit, hlast⟩ := hsame.append_inv
      obtain ⟨l₁, inner', rfl, hinner⟩ := hinit.cons_inv
      obtain ⟨l₂, rfl⟩ := hlast.singleton_inv
      obtain ⟨es', hes', he⟩ := ih hinner
      exact ⟨es', .block hes', he⟩
  | endSequence =>
      intro lexemes' hsame
      rw [hsame.nil_inv]
      exact ⟨[], .endSequence, rfl⟩
  | semicolon _ ih =>
      intro lexemes' hsame
      obtain ⟨l, rest', rfl, hrest⟩ := hsame.cons_inv
      obtain ⟨es', hes', he⟩ := ih hrest
      exact ⟨es', .semicolon hes', he⟩
  | next _ _ ihFirst ihRest =>
      intro lexemes' hsame
      obtain ⟨first', rest', rfl, hfirst, hrest⟩ := hsame.append_inv
      obtain ⟨e', he', he⟩ := ihFirst hfirst
      obtain ⟨es', hes', hes⟩ := ihRest hrest
      exact ⟨e' :: es', .next he' hes', by rw [List.map_cons, List.map_cons, he, hes]⟩
  | endItems =>
      intro lexemes' hsame
      rw [hsame.nil_inv]
      exact ⟨[], .endItems, rfl⟩
  | lastItem _ ih =>
      intro lexemes' hsame
      obtain ⟨e', he', he⟩ := ih hsame
      exact ⟨[e'], .lastItem he', by rw [List.map_cons, List.map_cons, he]⟩
  | item _ _ ihFirst ihRest =>
      intro lexemes' hsame
      obtain ⟨first', last, rfl, hfirst, hlast⟩ := hsame.append_inv
      obtain ⟨l, rest', rfl, hrest⟩ := hlast.cons_inv
      obtain ⟨e', he', he⟩ := ihFirst hfirst
      obtain ⟨es', hes', hes⟩ := ihRest hrest
      exact ⟨e' :: es', .item he' hes', by rw [List.map_cons, List.map_cons, he, hes]⟩

/-- A whole source is read the same at all places, but for the locations. -/
theorem DerivesGoal.transport {goal : Goal} {lexemes lexemes' : List Lexeme} {tree : Expr}
    (h : DerivesGoal lexemes tree goal) (hsame : SameTokens lexemes' lexemes) :
    ∃ tree', DerivesGoal lexemes' tree' goal ∧ tree'.unlocated = tree.unlocated := by
  cases goal with
  | program =>
      obtain ⟨es, hes, rfl⟩ := h
      obtain ⟨es', hes', he⟩ := hes.transport hsame
      exact ⟨.program none es', ⟨es', hes', rfl⟩,
        by simp only [Expr.unlocated, Expr.unlocatedAll_eq, he]⟩
  | expression =>
      obtain ⟨before, middle, after, rfl, hbefore, hafter, hmiddle⟩ := h
      obtain ⟨init, after', rfl, hinit, hafter'⟩ := hsame.append_inv
      obtain ⟨before', middle', rfl, hbefore', hmiddle'⟩ := hinit.append_inv
      obtain ⟨tree', htree', he⟩ := hmiddle.transport hmiddle'
      exact ⟨tree', ⟨before', middle', after', rfl, hbefore'.forall_semicolon hbefore,
        hafter'.forall_semicolon hafter, htree'⟩, he⟩

end ExprLang.Grammar
