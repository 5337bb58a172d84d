import ExprLang.Proofs.Grammar

/-!
# Derivations without places

The rules of the grammar for bare tokens and for trees up to their locations (`Yields`). Nothing is
lost: what the tokens yield is a tree that they derive (`Yields.derivesTree_expression`).
-/

namespace ExprLang.Grammar

open Reader (Goal literalValue)

/-- The bare tokens derive the phrase, up to locations. -/
def Yields (tokens : List Token) (phrase : Phrase) : Prop :=
  DerivesLike (tokens.map (⟨·, .start⟩)) phrase

namespace Yields

variable {tokens tokens' tokens'' : List Token} {e f c yes no : Expr} {es es' : List Expr}
  {loc loc' loc'' : Option Loc}

/-! ## Expressions -/

theorem ofCall (h : Yields tokens (.call e)) : Yields tokens (.expr e) := by
  obtain ⟨e', he', heq⟩ := h
  exact ⟨e', .ofCall he', heq⟩

theorem braces (h : Yields tokens (.block es)) : Yields tokens (.call (.block loc es)) := by
  obtain ⟨es', hes', heq⟩ := h
  exact ⟨_, .braces hes', by simp only [Expr.unlocated, Expr.unlocatedAll_eq, heq]⟩

theorem int (digits : String) : Yields [.int digits] (.call (.int loc (literalValue digits))) :=
  ⟨_, .int, rfl⟩

theorem str (text : String) : Yields [.str text] (.call (.str loc text)) := ⟨_, .str, rfl⟩

theorem litTrue : Yields [.keyword .kwTrue] (.call (.bool loc true)) := ⟨_, .litTrue, rfl⟩

theorem litFalse : Yields [.keyword .kwFalse] (.call (.bool loc false)) := ⟨_, .litFalse, rfl⟩

theorem litNull : Yields [.keyword .kwNull] (.call .null) := ⟨_, .litNull, rfl⟩

theorem name (name : String) : Yields [.name name] (.call (.ident loc name)) :=
  ⟨_, .name, by simp only [Expr.unlocated]⟩

theorem list (h : Yields tokens (.items es)) :
    Yields (.sign .openBracket :: tokens ++ [.sign .closeBracket]) (.call (.list loc es)) := by
  obtain ⟨es', hes', heq⟩ := h
  refine ⟨.list none es', ?_, by simp only [Expr.unlocated, Expr.unlocatedAll_eq, heq]⟩
  rw [List.map_append]
  exact .list hes'

theorem fn {names : List String} (h : Yields tokens (.block es)) :
    Yields (.keyword .kwFn :: .sign .openParen :: (names.map Token.name).intersperse (.sign .comma)
      ++ .sign .closeParen :: tokens) (.call (.curried names (.block loc es))) := by
  obtain ⟨es', hes', heq⟩ := h
  refine ⟨.curried names (.block none es'), ?_, ?_⟩
  · rw [List.map_append]
    refine .fn ?_ hes'
    simp [IsParameters, Function.comp_def]
  · simp only [Expr.unlocated_curried, Expr.unlocated, Expr.unlocatedAll_eq, heq]

theorem call (h : Yields tokens (.call f)) (hargs : Yields tokens' (.items es)) :
    Yields (tokens ++ .sign .openParen :: tokens' ++ [.sign .closeParen])
      (.call (.applied .start f es)) := by
  obtain ⟨f', hf', hf⟩ := h
  obtain ⟨es', hes', heq⟩ := hargs
  obtain ⟨first, rest, hfirst, -⟩ := hf'.begins
  rw [hfirst] at hf'
  refine ⟨.applied first.loc f' es', ?_, Expr.unlocated_applied _ _ hf heq⟩
  rw [List.map_append, List.map_append, hfirst]
  exact .call hf' hes'

theorem binding {name : String} (h : Yields tokens (.expr e)) :
    Yields (.keyword .kwLet :: .name name :: .sign .equals :: tokens)
      (.expr (.binding loc name e)) := by
  obtain ⟨e', he', heq⟩ := h
  exact ⟨_, .binding he', by simp only [Expr.unlocated, heq]⟩

theorem loop (h : Yields tokens (.expr c)) (hbody : Yields tokens' (.block es)) :
    Yields (.keyword .kwWhile :: tokens ++ tokens') (.expr (.loop loc c (.block loc' es))) := by
  obtain ⟨c', hc', hc⟩ := h
  obtain ⟨es', hes', heq⟩ := hbody
  refine ⟨.loop (some .start) c' (.block none es'), ?_,
    by simp only [Expr.unlocated, Expr.unlocatedAll_eq, hc, heq]⟩
  rw [List.map_append]
  exact .loop hc' hes'

theorem choice (h : Yields tokens (.expr c)) (hyes : Yields tokens' (.block es))
    (hno : Yields tokens'' (.block es')) :
    Yields (.keyword .kwIf :: tokens ++ tokens' ++ .keyword .kwElse :: tokens'')
      (.expr (.choice loc c (.block loc' es) (.block loc'' es'))) := by
  obtain ⟨c', hc', hc⟩ := h
  obtain ⟨yes', hyes', hyes⟩ := hyes
  obtain ⟨no', hno', hno⟩ := hno
  refine ⟨.choice (some .start) c' (.block none yes') (.block none no'), ?_,
    by simp only [Expr.unlocated, Expr.unlocatedAll_eq, hc, hyes, hno]⟩
  rw [List.map_append, List.map_append]
  exact .ofChoice (.blockElse hc' hyes' hno')

/-! ## The inside of braces and brackets -/

theorem block (h : Yields tokens (.sequence es)) :
    Yields (.sign .openBrace :: tokens ++ [.sign .closeBrace]) (.block es) := by
  obtain ⟨es', hes', heq⟩ := h
  refine ⟨es', ?_, heq⟩
  rw [List.map_append]
  exact .block hes'

theorem endSequence : Yields [] (.sequence []) := ⟨[], .endSequence, rfl⟩

theorem next (h : Yields tokens (.expr e)) (hrest : Yields tokens' (.sequence es)) :
    Yields (tokens ++ tokens') (.sequence (e :: es)) := by
  obtain ⟨e', he', he⟩ := h
  obtain ⟨es', hes', heq⟩ := hrest
  refine ⟨e' :: es', ?_, by rw [List.map_cons, List.map_cons, he, heq]⟩
  rw [List.map_append]
  exact .next he' hes'

theorem semicolon (h : Yields tokens (.sequence es)) :
    Yields (.sign .semicolon :: tokens) (.sequence es) := by
  obtain ⟨es', hes', heq⟩ := h
  exact ⟨es', .semicolon hes', heq⟩

theorem endItems : Yields [] (.items []) := ⟨[], .endItems, rfl⟩

theorem lastItem (h : Yields tokens (.expr e)) : Yields tokens (.items [e]) := by
  obtain ⟨e', he', he⟩ := h
  exact ⟨[e'], .lastItem he', by rw [List.map_singleton, List.map_singleton, he]⟩

theorem item (h : Yields tokens (.expr e)) (hrest : Yields tokens' (.items es)) :
    Yields (tokens ++ .sign .comma :: tokens') (.items (e :: es)) := by
  obtain ⟨e', he', he⟩ := h
  obtain ⟨es', hes', heq⟩ := hrest
  refine ⟨e' :: es', ?_, by rw [List.map_cons, List.map_cons, he, heq]⟩
  rw [List.map_append]
  exact .item he' hes'

/-! ## Whole sources -/

theorem derivesTree_program (h : Yields tokens (.sequence es)) :
    DerivesTree .program tokens (Expr.program loc es).unlocated := by
  obtain ⟨es', hes', heq⟩ := h
  refine ⟨_, .program none es', ?_, ⟨es', hes', rfl⟩, ?_⟩
  · simp [Function.comp_def]
  · simp only [Expr.unlocated, Expr.unlocatedAll_eq, heq]

theorem derivesTree_expression (h : Yields tokens (.expr e)) :
    DerivesTree .expression tokens e.unlocated := by
  obtain ⟨e', he', heq⟩ := h
  refine ⟨_, e', ?_, ⟨[], _, [], (List.append_nil _).symm, ?_, ?_, he'⟩, heq⟩
  · simp [Function.comp_def]
  · exact fun _ hmem => absurd hmem List.not_mem_nil
  · exact fun _ hmem => absurd hmem List.not_mem_nil

end Yields

end ExprLang.Grammar
