import ExprLang.Proofs.Grammar
import ExprLang.Proofs.Reader.Run

/-!
# Taken tokens

What the machine stood at when it took a token, and where the token has led it. A bracket that opens
arguments is taken only after something that can be called, or after `fn`; an `else` only after a
first branch; and neither where an expression may begin, so whatever follows an expression that has
settled is detached from it.
-/

namespace ExprLang.Reader

open Grammar

namespace State

variable {state next : State} {lexeme : Lexeme}

/-! ## Tokens that begin an expression -/

/-- A token that no rule of braces or brackets takes but the one for the first token of an
expression. -/
def Initial (token : Token) : Prop :=
  ∀ mark, token = .sign mark → mark = .openParen ∨ mark = .openBracket

theorem not_initial_closing (role : ItemsRole) : ¬ Initial (.sign role.closing) := by
  intro h
  cases role <;> exact absurd (h _ rfl) (by simp [ItemsRole.closing])

theorem begin_of_operandStep (hinitial : Initial lexeme.token)
    (h : state.operandStep lexeme = some next) :
    ∃ stack, begin stack lexeme.loc lexeme.token = some (next.stack, next.focus) := by
  have hbegin : ∀ {stack}, state.beginOn stack lexeme = some next →
      ∃ stack, begin stack lexeme.loc lexeme.token = some (next.stack, next.focus) := by
    intro stack h
    obtain ⟨⟨stack', focus⟩, hbegin, rfl⟩ := Option.map_eq_some_iff.mp h
    exact ⟨stack, hbegin⟩
  unfold operandStep at h
  split at h
  next htoken => exact absurd (hinitial _ htoken) (by decide)
  next htoken => exact absurd (hinitial _ htoken) (by decide)
  next htoken =>
      split at h
      next hclosing =>
          rw [htoken, hclosing] at hinitial
          exact absurd hinitial (not_initial_closing _)
      next => exact hbegin h
  next htoken => exact absurd (hinitial _ htoken) (by decide)
  next =>
      split at h
      next => exact hbegin h
      next => exact absurd h nofun
  next => exact hbegin h

theorem begin_of_follow {settled : List Context × Expr} (hinitial : Initial lexeme.token)
    (h : state.follow lexeme settled = some next) :
    ∃ stack, begin stack lexeme.loc lexeme.token = some (next.stack, next.focus) := by
  have hother : ∀ {mark}, lexeme.token = .sign mark → mark ≠ .openParen →
      mark ≠ .openBracket → False :=
    fun htoken hopen hlist => (hinitial _ htoken).elim hopen hlist
  unfold follow at h
  split at h
  next =>
      split at h
      next htoken => exact (hother htoken nofun nofun).elim
      next => exact absurd h nofun
  next =>
      split at h
      next htoken => exact (hother htoken nofun nofun).elim
      next => exact absurd h nofun
  next =>
      split at h
      next htoken => exact (hother htoken nofun nofun).elim
      next =>
          split at h
          next htoken =>
              rw [htoken] at hinitial
              exact absurd hinitial (not_initial_closing _)
          next => exact absurd h nofun
  next => exact begin_of_operandStep hinitial h
  next => exact begin_of_operandStep hinitial h
  next => exact absurd h nofun

/-- A token that no expression can begin with, and that no rule of braces or brackets takes. -/
theorem detached_of_begin (h : Initial lexeme.token →
      ∃ stack, begin stack lexeme.loc lexeme.token = some (next.stack, next.focus)) :
    Detached lexeme.token := by
  constructor
  · intro htoken
    rw [htoken] at h
    obtain ⟨stack, hbegin⟩ := h fun mark heq => .inl (Token.sign.inj heq).symm
    exact absurd hbegin nofun
  · intro htoken
    rw [htoken] at h
    obtain ⟨stack, hbegin⟩ := h fun _ heq => nomatch heq
    exact absurd hbegin nofun

theorem detached_of_operandStep (h : state.operandStep lexeme = some next) :
    Detached lexeme.token :=
  detached_of_begin fun hinitial => begin_of_operandStep hinitial h

theorem detached_of_follow {settled : List Context × Expr}
    (h : state.follow lexeme settled = some next) : Detached lexeme.token :=
  detached_of_begin fun hinitial => begin_of_follow hinitial h

/-! ## Single tokens -/

/-- A bracket that opens arguments comes after something that can be called, or after `fn`. -/
theorem callable_of_openParen {loc : Loc} (h : state.step ⟨.sign .openParen, loc⟩ = some next) :
    (∃ e start, state.focus = .callable e start) ∨ ∃ start, state.focus = .fnOpen start := by
  cases hfocus : state.focus with
  | callable e start => exact .inl ⟨e, start, rfl⟩
  | fnOpen start => exact .inr ⟨start, rfl⟩
  | operand =>
      simp only [step, hfocus] at h
      exact absurd rfl (detached_of_operandStep h).1
  | whole | afterYes =>
      simp only [step, hfocus] at h
      exact absurd rfl (detached_of_follow h).1
  | _ => simp [step, hfocus] at h

/-- An `else` comes after the first branch of an `if`. -/
theorem afterYes_of_else {loc : Loc} (h : state.step ⟨.keyword .kwElse, loc⟩ = some next) :
    ∃ start test yes, next = state.move state.stack (.afterElse start test yes) := by
  cases hfocus : state.focus with
  | afterYes start test yes =>
      simp only [step, hfocus, Option.some.injEq] at h
      exact ⟨start, test, yes, h.symm⟩
  | operand =>
      simp only [step, hfocus] at h
      exact absurd rfl (detached_of_operandStep h).2
  | callable | whole =>
      simp only [step, hfocus] at h
      exact absurd rfl (detached_of_follow h).2
  | _ => simp [step, hfocus] at h

/-- A semicolon changes nothing where an expression may begin. -/
theorem eq_of_operandStep_semicolon {loc : Loc}
    (h : state.operandStep ⟨.sign .semicolon, loc⟩ = some next) : next = state := by
  have hbeginOn : ∀ stack, state.beginOn stack ⟨.sign .semicolon, loc⟩ = none := fun _ => rfl
  unfold operandStep at h
  split at h
  next htoken => exact absurd htoken nofun
  next => exact (Option.some.inj h).symm
  next =>
      split at h
      next role _ _ _ _ htoken hclosing =>
          rw [hclosing] at htoken
          cases role <;> exact absurd htoken (by simp [ItemsRole.closing])
      next => exact absurd ((hbeginOn _).symm.trans h) nofun
  next => exact (Option.some.inj h).symm
  next htoken => exact absurd rfl htoken
  next => exact absurd ((hbeginOn _).symm.trans h) nofun

/-- A semicolon after an expression puts it among those read, and so would any other token. -/
theorem of_follow_semicolon {loc : Loc} {settled : List Context × Expr}
    (h : state.follow ⟨.sign .semicolon, loc⟩ settled = some next) :
    next.focus = .operand ∧
      (∀ lexeme, state.follow lexeme settled = next.operandStep lexeme) ∧
      ∀ es, next.exprs? = some es → settled.1 = [] ∧
        es = (settled.2 :: state.done).reverse := by
  unfold follow at h
  split at h
  next => exact absurd h nofun
  next => exact absurd h nofun
  next role _ _ _ =>
      split at h
      next hcomma => exact absurd hcomma nofun
      next =>
          split at h
          next hclosing => exact absurd hclosing (by cases role <;> nofun)
          next => exact absurd h nofun
  next =>
      obtain rfl := eq_of_operandStep_semicolon h
      exact ⟨rfl, fun _ => rfl, nofun⟩
  next =>
      obtain rfl := eq_of_operandStep_semicolon h
      exact ⟨rfl, fun _ => rfl, fun es hes => ⟨rfl, (Option.some.inj hes).symm⟩⟩
  next => exact absurd h nofun

/-- A token that opens a construct leads inside of it. -/
theorem move_of_begin {context : Context} (loc : Loc) (token : Token)
    (hopens : ∀ stack, begin stack loc token = some (context :: stack, .operand))
    (h : ∃ stack, begin stack loc token = some (next.stack, next.focus)) :
    ∃ state stack, next = move state (context :: stack) .operand := by
  obtain ⟨stack, hbegin⟩ := h
  rw [hopens] at hbegin
  obtain ⟨hstack, hfocus⟩ := Prod.mk.inj (Option.some.inj hbegin)
  exact ⟨next, stack, by rw [hstack, hfocus]; rfl⟩

/-- A bracket that opens a list leads inside of it. -/
theorem items_of_openBracket {loc : Loc}
    (h : state.step ⟨.sign .openBracket, loc⟩ = some next) :
    ∃ state stack, next = move state (.items (.list loc) [] :: stack) .operand := by
  have hinitial : Initial (.sign .openBracket) := fun mark heq => .inr (Token.sign.inj heq).symm
  refine move_of_begin loc (.sign .openBracket) (fun _ => rfl) ?_
  cases hfocus : state.focus with
  | operand =>
      simp only [step, hfocus] at h
      exact begin_of_operandStep hinitial h
  | callable | whole | afterYes =>
      simp only [step, hfocus] at h
      exact begin_of_follow hinitial h
  | _ => simp [step, hfocus] at h

/-- An `if` leads to its condition. -/
theorem choiceTest_of_if {loc : Loc} (h : state.step ⟨.keyword .kwIf, loc⟩ = some next) :
    ∃ state stack, next = move state (.choiceTest loc :: stack) .operand := by
  have hinitial : Initial (.keyword .kwIf) := fun _ heq => nomatch heq
  have hbegun := @move_of_begin next _ loc (.keyword .kwIf) (fun _ => rfl)
  cases hfocus : state.focus with
  | operand =>
      simp only [step, hfocus] at h
      exact hbegun (begin_of_operandStep hinitial h)
  | callable | whole | afterYes =>
      simp only [step, hfocus] at h
      exact hbegun (begin_of_follow hinitial h)
  | afterElse start test yes =>
      simp only [step, hfocus, Option.some.injEq] at h
      exact ⟨state, _, h.symm⟩
  | _ => simp [step, hfocus] at h

end State

end ExprLang.Reader
