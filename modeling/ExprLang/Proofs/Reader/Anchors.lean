import ExprLang.Proofs.Reader.ProgramFree

/-!
# Where nodes are read from

Every node that can fail by itself carries the place of a token that it is read from: a name that of
its own token, an `if` and a `while` that of the keyword, and a call that of the first token of the
call expression (`parse_anchored`). A call expression with several arguments is read as one call in
another, and all of these stand at its first token.
-/

namespace ExprLang

open Grammar

/-! ## Nodes and tokens -/

/-- These tokens hold a call expression which begins with this one and is read as the node, or as
calls with more arguments around the node. -/
def IsCallFrom (lexemes : List Lexeme) (node : Expr) (first : Lexeme) : Prop :=
  ∃ rest callee given more, first :: rest <:+: lexemes ∧
    Derives (first :: rest) (.call (.applied first.loc callee (given ++ more))) ∧
    node = .applied first.loc callee given ∧ (given = [] → more = [])

/-- What tokens a node is read from that can fail by itself. -/
def Expr.Stands (lexemes : List Lexeme) : Expr → Prop
  | .ident loc name => ∃ place, loc = some place ∧ ⟨.name name, place⟩ ∈ lexemes
  | .choice loc _ _ _ => ∃ place, loc = some place ∧ ⟨.keyword .kwIf, place⟩ ∈ lexemes
  | .loop loc _ _ => ∃ place, loc = some place ∧ ⟨.keyword .kwWhile, place⟩ ∈ lexemes
  | .call loc callee arg =>
      ∃ first, loc = some first.loc ∧ IsCallFrom lexemes (.call loc callee arg) first
  | _ => True

/-- A tree in which every node stands among these tokens. -/
inductive Anchored (lexemes : List Lexeme) : Expr → Prop
  | of_parts {e : Expr} : e.Stands lexemes → (∀ part ∈ e.parts, Anchored lexemes part) →
      Anchored lexemes e

namespace Anchored

variable {lexemes : List Lexeme}

theorem stands {e : Expr} (h : Anchored lexemes e) : e.Stands lexemes := by
  cases h with
  | of_parts hstands _ => exact hstands

theorem leaf {e : Expr} (hstands : e.Stands lexemes) (hparts : e.parts = []) : Anchored lexemes e :=
  of_parts hstands (by simp [hparts])

theorem block {loc : Option Loc} {es : List Expr} (h : ∀ e ∈ es, Anchored lexemes e) :
    Anchored lexemes (.block loc es) :=
  of_parts trivial h

theorem choice {loc : Loc} {test yes no : Expr} (hmem : ⟨.keyword .kwIf, loc⟩ ∈ lexemes)
    (htest : Anchored lexemes test) (hyes : Anchored lexemes yes) (hno : Anchored lexemes no) :
    Anchored lexemes (.choice (some loc) test yes no) :=
  of_parts ⟨loc, rfl, hmem⟩ (by simp [Expr.parts, htest, hyes, hno])

theorem curried {body : Expr} (h : Anchored lexemes body) (params : List String) :
    Anchored lexemes (.curried params body) :=
  Expr.curriedInduction (fun hbody => of_parts trivial (List.forall_mem_singleton.mpr hbody))
    h params

/-- If each of the calls of a call expression stands where that begins, it is anchored. -/
theorem applied {callee : Expr} {first : Lexeme} {args : List Expr}
    (hcallee : Anchored lexemes callee) (hargs : ∀ arg ∈ args, Anchored lexemes arg)
    (hcalls : ∀ given more, given ++ more = args → (given = [] → more = []) →
      IsCallFrom lexemes (.applied first.loc callee given) first) :
    Anchored lexemes (.applied first.loc callee args) := by
  refine Expr.appliedInduction hcallee ?_ ?_
  · rintro rfl
    have hbare := hcalls [] [] rfl fun _ => rfl
    exact of_parts ⟨first, rfl, hbare⟩ (List.forall_mem_singleton.mpr hcallee)
  · intro given arg inner hgiven hnode hinner
    have harg := hargs arg (hgiven.subset (List.mem_append_right _ List.mem_cons_self))
    obtain ⟨more, hsplit⟩ := hgiven
    have hcall := hcalls _ more hsplit fun hnil => absurd hnil (List.concat_ne_nil arg given)
    rw [hnode] at hcall
    exact of_parts ⟨first, rfl, hcall⟩ (by simp [Expr.parts, hinner, harg])

end Anchored

theorem hereditary_anchored (lexemes : List Lexeme) : Hereditary (Anchored lexemes) where
  parts := fun | .of_parts _ h => h
  null := .leaf trivial rfl
  endOfProgram := fun _ => .leaf trivial rfl
  int := fun _ => .leaf trivial rfl
  str := fun _ => .leaf trivial rfl
  bool := fun _ => .leaf trivial rfl
  list := fun h => .of_parts trivial h
  supply := fun h harg => .of_parts trivial <| by
    cases h with
    | of_parts _ hsupplied =>
        exact List.forall_mem_append.mpr ⟨hsupplied, List.forall_mem_singleton.mpr harg⟩

/-! ## What is read -/

/-- Tokens among tokens that are held are held themselves. -/
theorem held {inner lexemes whole : List Lexeme} (hwhole : lexemes <:+: whole)
    (before after : List Lexeme) (h : before ++ inner ++ after = lexemes) : inner <:+: whole :=
  List.IsInfix.trans ⟨before, after, h⟩ hwhole

theorem held_last {inner lexemes whole : List Lexeme} (hwhole : lexemes <:+: whole)
    (before : List Lexeme) (h : before ++ inner = lexemes) : inner <:+: whole :=
  held hwhole before [] (by rw [List.append_nil, h])

/-- The trees that a phrase means are anchored in any tokens that hold the phrase. -/
theorem Grammar.Derives.anchored {lexemes whole : List Lexeme} {phrase : Phrase}
    (h : Derives lexemes phrase) (hwhole : lexemes <:+: whole) :
    ∀ e ∈ phrase.trees, Anchored whole e := by
  induction h with
  | int | str | litTrue | litFalse | litNull =>
      exact List.forall_mem_singleton.mpr (.leaf trivial rfl)
  | name =>
      exact List.forall_mem_singleton.mpr (.leaf ⟨_, rfl, hwhole.subset List.mem_cons_self⟩ rfl)
  | endSequence | endItems => exact fun _ hmem => absurd hmem List.not_mem_nil
  | ofChoice _ ih | ofCall _ ih | lastItem _ ih => exact ih hwhole
  | braces _ ih => exact List.forall_mem_singleton.mpr (.block (ih hwhole))
  | block _ ih => exact ih (held hwhole [_] [_] rfl)
  | semicolon _ ih => exact ih (held_last hwhole [_] rfl)
  | next _ _ ihFirst ihRest =>
      have hfirst := ihFirst (held hwhole [] _ rfl)
      have hrest := ihRest (held_last hwhole _ rfl)
      exact List.forall_mem_cons.mpr ⟨List.forall_mem_singleton.mp hfirst, hrest⟩
  | item _ _ ihFirst ihRest =>
      have hfirst := ihFirst (held hwhole [] _ rfl)
      have hrest := ihRest (held_last (held_last hwhole _ rfl) [_] rfl)
      exact List.forall_mem_cons.mpr ⟨List.forall_mem_singleton.mp hfirst, hrest⟩
  | list _ ih =>
      exact List.forall_mem_singleton.mpr (.of_parts trivial (ih (held hwhole [_] [_] rfl)))
  | fn _ _ ih =>
      have hbody := ih (held_last (held_last hwhole _ rfl) [_] rfl)
      exact List.forall_mem_singleton.mpr (.curried (.block hbody) _)
  | @call first rest callee args _ l₁ _ hcallee hargs ihCallee ihArgs =>
      have hopen : first :: rest ++ ⟨.sign .openParen, l₁⟩ :: args <:+: whole :=
        held hwhole [] [_] rfl
      have hcallee' := List.forall_mem_singleton.mp (ihCallee (held hopen [] _ rfl))
      have hargs' := ihArgs (held_last (held_last hopen _ rfl) [_] rfl)
      refine List.forall_mem_singleton.mpr
        (hcallee'.applied hargs' fun given more hsplit hnil => ?_)
      subst hsplit
      exact ⟨_, callee, given, more, hwhole, .call hcallee hargs, rfl, hnil⟩
  | binding _ ih =>
      exact List.forall_mem_singleton.mpr (.of_parts trivial (ih (held_last hwhole [_, _, _] rfl)))
  | loop _ _ ihTest ihBody =>
      have htest := List.forall_mem_singleton.mp (ihTest (held hwhole [_] _ rfl))
      have hbody := ihBody (held_last hwhole _ rfl)
      refine List.forall_mem_singleton.mpr
        (.of_parts ⟨_, rfl, hwhole.subset List.mem_cons_self⟩ ?_)
      exact List.forall_mem_cons.mpr ⟨htest, List.forall_mem_singleton.mpr (.block hbody)⟩
  | noElse _ _ ihTest ihYes =>
      have hif := hwhole.subset List.mem_cons_self
      have htest := List.forall_mem_singleton.mp (ihTest (held hwhole [_] _ rfl))
      have hyes := ihYes (held_last hwhole _ rfl)
      have hnull : ∀ e ∈ [Expr.null], Anchored whole e :=
        List.forall_mem_singleton.mpr (.leaf trivial rfl)
      exact List.forall_mem_singleton.mpr (.choice hif htest (.block hyes) (.block hnull))
  | @blockElse test _ yes _ _ _ loc _ _ _ _ ihTest ihYes ihNo
  | @elseIf test _ yes _ _ _ loc _ _ _ _ ihTest ihYes ihNo =>
      have hif := hwhole.subset List.mem_cons_self
      have hthen : ⟨.keyword .kwIf, loc⟩ :: test ++ yes <:+: whole := held hwhole [] _ rfl
      have htest := List.forall_mem_singleton.mp (ihTest (held hthen [_] _ rfl))
      have hyes := ihYes (held_last hthen _ rfl)
      have hno := ihNo (held_last (held_last hwhole _ rfl) [_] rfl)
      exact List.forall_mem_singleton.mpr (.choice hif htest (.block hyes) (.block hno))

/-- The tree of a source is anchored in the tokens of the source. -/
theorem parse_anchored {goal : Reader.Goal} {source : String} {tree : Expr}
    (h : Reader.parse goal source = .ok tree) : Anchored (scan source.toList).lexemes tree := by
  obtain ⟨-, hderives, -⟩ := Reader.parse_eq_ok_iff.mp h
  cases goal with
  | program =>
      obtain ⟨es, hsequence, rfl⟩ := hderives
      exact .of_parts trivial (hsequence.anchored List.infix_rfl)
  | expression =>
      obtain ⟨before, middle, after, hsplit, -, -, hexpr⟩ := hderives
      exact List.forall_mem_singleton.mp (hexpr.anchored ⟨before, after, hsplit.symm⟩)

end ExprLang
