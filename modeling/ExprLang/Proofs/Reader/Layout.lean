import ExprLang.Proofs.Grammar
import ExprLang.Proofs.Expr.Hereditary

/-!
# How trees lie over tokens

The tokens that a tree is read from are divided among its nodes, in the order of the tree: a node
has the tokens that it begins with, then come those of its parts, one part after another, and then
the brackets and separators that it ends with (`LaidOut`). A node with a location carries that of
the first of its tokens. For a call that is a token of what is called, since a call begins with it.

Not every node begins with a token of its own. A function of several parameters is read as functions
in each other, and its tokens are those of the outermost; an `if` behind an `else` is read as in a
block that nobody has written, and so is the `null` of a branch that is missing.
-/

namespace ExprLang

open Grammar
open Reader (literalValue)

/-! ## The tokens of a node -/

/-- The tokens that a node begins with, before its parts. -/
inductive Expr.Opens : Expr → List Token → Prop
  | int {loc digits} : Opens (.int loc (literalValue digits)) [.int digits]
  | str {loc text} : Opens (.str loc text) [.str text]
  | litTrue {loc} : Opens (.bool loc true) [.keyword .kwTrue]
  | litFalse {loc} : Opens (.bool loc false) [.keyword .kwFalse]
  | litNull : Opens .null [.keyword .kwNull]
  | ident {loc name} : Opens (.ident loc name) [.name name]
  | list {loc items} : Opens (.list loc items) [.sign .openBracket]
  | binding {loc name value} :
      Opens (.binding loc name value) [.keyword .kwLet, .name name, .sign .equals]
  | choice {loc test yes no} : Opens (.choice loc test yes no) [.keyword .kwIf]
  | loop {loc test body} : Opens (.loop loc test body) [.keyword .kwWhile]
  | fn {loc body} {names : List String} : Opens (.fn loc names.head? body)
      (.keyword .kwFn :: .sign .openParen :: (names.map Token.name).intersperse (.sign .comma)
        ++ [.sign .closeParen])
  | braces {loc exprs semicolons} : (∀ token ∈ semicolons, token = .sign .semicolon) →
      Opens (.block loc exprs) (.sign .openBrace :: semicolons)
  -- nodes without a token of their own
  | call {loc callee arg} : Opens (.call loc callee arg) []
  | program {loc exprs} : Opens (.program loc exprs) []
  | innerFn {loc param body} : Opens (.fn loc (some param) body) []
  | branch {loc e} : Opens (.block loc [e]) []
  | missing : Opens .null []

/-- A token that a node may begin with. -/
def Expr.OpensWith (e : Expr) (token : Token) : Prop := ∃ more, e.Opens (token :: more)

/-- A token that may stand behind a part of a node: no part and no other node begins with it. -/
def Token.trails : Token → Bool
  | .sign .equals | .sign .openBracket | .sign .openBrace => false
  | .sign _ | .keyword .kwElse => true
  | _ => false

/-- The node carries the location of the first of these tokens, with which the node itself or what
it calls in the end begins. Other nodes than names, bindings, choices, loops and calls carry no
location. -/
def Expr.StandsAtFirst (lexemes : List Lexeme) (e : Expr) : Prop :=
  match e with
  | .ident .. | .binding .. | .choice .. | .loop .. | .call .. =>
      ∃ first rest, lexemes = first :: rest ∧ e.loc? = some first.loc ∧
        e.head.OpensWith first.token
  | _ => e.loc? = none

theorem Expr.StandsAtFirst.of_loc {lexemes : List Lexeme} {e : Expr} {loc : Loc}
    (h : e.StandsAtFirst lexemes) (hloc : e.loc? = some loc) :
    ∃ first rest, lexemes = first :: rest ∧ loc = first.loc ∧
      e.head.OpensWith first.token := by
  cases e with
  | ident | binding | choice | loop | bareCall | call =>
      obtain ⟨first, rest, hsplit, hfirst, hopens⟩ := h
      exact ⟨first, rest, hsplit, Option.some.inj (hloc.symm.trans hfirst), hopens⟩
  | _ => cases h.symm.trans hloc

/-- The tokens are those of the trees, one tree after the other. -/
inductive LaidOut : List Lexeme → List Expr → Prop
  | nil : LaidOut [] []
  | node {opening inner trailing rest e es} : e.Opens (opening.map (·.token)) →
      LaidOut inner e.parts →
      e.StandsAtFirst (opening ++ inner) →
        (∀ lexeme ∈ trailing, lexeme.token.trails = true) →
      LaidOut rest es → LaidOut (opening ++ inner ++ trailing ++ rest) (e :: es)

namespace LaidOut

variable {lexemes lexemes' opening inner trailing : List Lexeme} {e : Expr} {es es' : List Expr}

/-! ## Trees one after the other -/

/-- The tokens of one tree. -/
theorem tree (hopens : e.Opens (opening.map (·.token))) (hinner : LaidOut inner e.parts)
    (hfirst : e.StandsAtFirst (opening ++ inner))
    (htrailing : ∀ lexeme ∈ trailing, lexeme.token.trails = true) :
    LaidOut (opening ++ inner ++ trailing) [e] := by
  simpa using LaidOut.node hopens hinner hfirst htrailing .nil

theorem append (h : LaidOut lexemes es) (h' : LaidOut lexemes' es') :
    LaidOut (lexemes ++ lexemes') (es ++ es') := by
  induction h with
  | nil => exact h'
  | node hopens hinner hfirst htrailing _ _ ih =>
      rw [List.append_assoc]
      exact .node hopens hinner hfirst htrailing ih

theorem cons_inv (h : LaidOut lexemes (e :: es)) :
    ∃ front rest, lexemes = front ++ rest ∧ LaidOut front [e] ∧ LaidOut rest es := by
  cases h with
  | node hopens hinner hfirst htrailing hrest =>
      exact ⟨_, _, rfl, tree hopens hinner hfirst htrailing, hrest⟩

/-- What trails a tree belongs to it. -/
theorem trail (h : LaidOut lexemes [e])
    (htrailing : ∀ lexeme ∈ trailing, lexeme.token.trails = true) :
    LaidOut (lexemes ++ trailing) [e] := by
  cases h with
  | @node opening inner trailing' rest _ _ hopens hinner hfirst htrailing' hrest =>
      cases hrest
      have hall : ∀ lexeme ∈ trailing' ++ trailing, lexeme.token.trails = true :=
        List.forall_mem_append.mpr ⟨htrailing', htrailing⟩
      simpa using tree hopens hinner hfirst hall

theorem trail_semicolons (h : LaidOut lexemes [e])
    (htrailing : ∀ lexeme ∈ trailing, lexeme.token = .sign .semicolon) :
    LaidOut (lexemes ++ trailing) [e] :=
  h.trail fun lexeme hmem => htrailing lexeme hmem ▸ rfl

theorem trail_else (h : LaidOut lexemes [e]) (loc : Loc) :
    LaidOut (lexemes ++ [⟨.keyword .kwElse, loc⟩]) [e] :=
  h.trail (List.forall_mem_singleton.mpr rfl)

theorem trail_sign (h : LaidOut lexemes [e]) (mark : Sign) (loc : Loc)
    (hmark : (Token.sign mark).trails = true) : LaidOut (lexemes ++ [⟨.sign mark, loc⟩]) [e] :=
  h.trail (List.forall_mem_singleton.mpr hmark)

/-! ## One node -/

/-- A node and its parts, with nothing behind them. -/
theorem single (hopens : e.Opens (opening.map (·.token))) (hinner : LaidOut inner e.parts)
    (hfirst : e.StandsAtFirst (opening ++ inner)) : LaidOut (opening ++ inner) [e] := by
  simpa using tree hopens hinner hfirst (List.forall_mem_nil _)

/-- A node that has only the tokens of its parts. -/
theorem bare (hopens : e.Opens []) (hparts : LaidOut lexemes e.parts)
    (hfirst : e.StandsAtFirst lexemes) : LaidOut lexemes [e] :=
  @single [] _ _ hopens hparts hfirst

/-- A node without parts, of one token. -/
theorem leaf {lexeme : Lexeme} (hopens : e.Opens [lexeme.token]) (hparts : e.parts = [])
    (hfirst : e.StandsAtFirst [lexeme]) : LaidOut [lexeme] [e] := by
  have hinner : LaidOut [] e.parts := hparts ▸ .nil
  exact @single [lexeme] _ _ hopens hinner hfirst

theorem braces {semicolons : List Lexeme} (h : LaidOut lexemes es)
    (hsemicolons : ∀ lexeme ∈ semicolons, lexeme.token = .sign .semicolon) (loc : Loc) :
    LaidOut (⟨.sign .openBrace, loc⟩ :: (semicolons ++ lexemes)) [.block none es] := by
  have hopens : (Expr.block none es).Opens (.sign .openBrace :: semicolons.map (·.token)) :=
    .braces (List.forall_mem_map.mpr hsemicolons)
  exact @single (⟨.sign .openBrace, loc⟩ :: semicolons) _ _ hopens h rfl

/-- A branch without braces. -/
theorem branch (h : LaidOut lexemes [e]) : LaidOut lexemes [.block none [e]] := bare .branch h rfl

/-- The branch of an `if` without an `else`. -/
theorem absent : LaidOut [] [.block none [.null]] := branch (bare .missing .nil rfl)

theorem choice {test yes no : Expr} {loc : Loc} {testing yesTokens noTokens : List Lexeme}
    (htest : LaidOut testing [test]) (hyes : LaidOut yesTokens [yes])
    (hno : LaidOut noTokens [no]) :
    LaidOut (⟨.keyword .kwIf, loc⟩ :: (testing ++ (yesTokens ++ noTokens)))
      [.choice (some loc) test yes no] :=
  @single [⟨.keyword .kwIf, loc⟩] _ _ .choice (htest.append (hyes.append hno))
    ⟨_, _, rfl, rfl, [], .choice⟩

/-- A function with the tokens of its parameters, of which it has the first itself. -/
theorem function {body : Expr} (h : LaidOut lexemes [body]) {params : List Lexeme}
    {names : List String} (hparams : IsParameters params names) (l₁ l₂ l₃ : Loc) :
    LaidOut (⟨.keyword .kwFn, l₁⟩ :: ⟨.sign .openParen, l₂⟩ :: params
      ++ ⟨.sign .closeParen, l₃⟩ :: lexemes) [.fn none names.head? body] := by
  let opening : List Lexeme :=
    ⟨.keyword .kwFn, l₁⟩ :: ⟨.sign .openParen, l₂⟩ :: params
      ++ [⟨.sign .closeParen, l₃⟩]
  have hopens : (Expr.fn none names.head? body).Opens (opening.map (·.token)) := by
    rw [List.map_append, List.map_cons, List.map_cons, hparams]
    exact .fn
  have hlaid : LaidOut (opening ++ lexemes) [.fn none names.head? body] := single hopens h rfl
  simpa [opening] using hlaid

/-- Functions in each other have their tokens at the outermost. -/
theorem curried {body : Expr} (h : LaidOut lexemes [body]) {params : List Lexeme}
    {names : List String} (hparams : IsParameters params names) (l₁ l₂ l₃ : Loc) :
    LaidOut (⟨.keyword .kwFn, l₁⟩ :: ⟨.sign .openParen, l₂⟩ :: params
      ++ ⟨.sign .closeParen, l₃⟩ :: lexemes) [.curried names body] := by
  have hinner : ∀ names : List String,
      LaidOut lexemes [names.foldr (fun name body => .fn none (some name) body) body] := by
    intro names
    induction names with
    | nil => exact h
    | cons name names ih => exact bare .innerFn ih rfl
  cases names with
  | nil => exact h.function hparams l₁ l₂ l₃
  | cons name names => exact (hinner names).function hparams l₁ l₂ l₃

/-- A call with several arguments is a call of a call: all of them begin with what is called. -/
theorem applied {callee : Expr} {first : Lexeme} {front args : List Lexeme}
    (hcallee : LaidOut (first :: front) [callee]) (hopens : callee.head.OpensWith first.token)
    (hargs : LaidOut args es) : LaidOut (first :: front ++ args)
    [.applied first.loc callee es] := by
  have hgrow : ∀ {es args front} {callee : Expr}, LaidOut (first :: front) [callee] →
      callee.head.OpensWith first.token → LaidOut args es → LaidOut (first :: front ++ args)
        [es.foldl (fun callee arg => .call (some first.loc) callee (some arg)) callee] := by
    intro es
    induction es with
    | nil =>
        intro args front callee hcallee _ hargs
        cases hargs
        simpa using hcallee
    | cons e es ih =>
        intro args front callee hcallee hopens hargs
        obtain ⟨arg, rest, rfl, harg, hrest⟩ := hargs.cons_inv
        have hparts : LaidOut (first :: (front ++ arg)) [callee, e] := hcallee.append harg
        have hcall : LaidOut (first :: (front ++ arg)) [.call (some first.loc) callee (some e)] :=
          bare .call hparts ⟨first, _, rfl, rfl, hopens⟩
        simpa using ih hcall hopens hrest
  cases es with
  | nil =>
      cases hargs
      rw [List.append_nil]
      exact bare .call hcallee ⟨first, _, rfl, rfl, hopens⟩
  | cons e es => exact hgrow hcallee hopens hargs

end LaidOut

/-! ## What is read -/

theorem Expr.head_applied (loc : Loc) (callee : Expr) (args : List Expr) :
    (applied loc callee args).head = callee.head :=
  Expr.appliedInduction (P := fun e => e.head = callee.head) rfl (fun _ => by rw [head])
    fun _ _ _ _ _ ih => by rw [head, ih]

/-- A call expression begins with a token of what is called in the end. -/
theorem Grammar.Derives.opensWith {lexemes : List Lexeme} {phrase : Phrase}
    (h : Derives lexemes phrase) : ∀ {e : Expr}, phrase = .call e →
      ∃ first rest, lexemes = first :: rest ∧ e.head.OpensWith first.token := by
  induction h with
  | int | str | litTrue | litFalse | litNull | name | list =>
      rintro e ⟨⟩
      exact ⟨_, _, rfl, [], by constructor⟩
  | @fn _ names =>
      rintro e ⟨⟩
      refine ⟨_, _, rfl, ?_⟩
      cases names with
      | nil => exact ⟨_, @Expr.Opens.fn _ _ []⟩
      | cons name names => exact ⟨_, @Expr.Opens.fn _ _ (name :: names)⟩
  | braces hbody =>
      rintro e ⟨⟩
      cases hbody
      exact ⟨_, _, rfl, [], .braces (List.forall_mem_nil _)⟩
  | call _ _ ih =>
      rintro e ⟨⟩
      obtain ⟨first, rest, heq, hopens⟩ := ih rfl
      obtain ⟨rfl, -⟩ := List.cons.inj heq
      exact ⟨_, _, rfl, by rwa [Expr.head_applied]⟩
  | _ => rintro e ⟨⟩

/-- How the trees of a phrase lie over its tokens. Braces are those of a block, and semicolons
before the first expression of a sequence are part of no tree. -/
def Grammar.Phrase.LaidOut (lexemes : List Lexeme) : Phrase → Prop
  | .expr e | .choice e | .call e => ExprLang.LaidOut lexemes [e]
  | .block es => ExprLang.LaidOut lexemes [.block none es]
  | .items es => ExprLang.LaidOut lexemes es
  | .sequence es => ∃ semicolons rest, lexemes = semicolons ++ rest ∧
      (∀ lexeme ∈ semicolons, lexeme.token = .sign .semicolon) ∧ ExprLang.LaidOut rest es

/-- The trees that a phrase means lie over its tokens. -/
theorem Grammar.Derives.laidOut {lexemes : List Lexeme} {phrase : Phrase}
    (h : Derives lexemes phrase) : phrase.LaidOut lexemes := by
  induction h with
  | int => exact .leaf .int rfl rfl
  | str => exact .leaf .str rfl rfl
  | litTrue => exact .leaf .litTrue rfl rfl
  | litFalse => exact .leaf .litFalse rfl rfl
  | litNull => exact .leaf .litNull rfl rfl
  | name => exact .leaf .ident rfl ⟨_, _, rfl, rfl, [], .ident⟩
  | ofChoice _ ih | ofCall _ ih | braces _ ih | lastItem _ ih => exact ih
  | endSequence => exact ⟨[], [], rfl, List.forall_mem_nil _, .nil⟩
  | endItems => exact .nil
  | @list items es l₁ l₂ _ ih =>
      have hlist : LaidOut (⟨.sign .openBracket, l₁⟩ :: items) [.list none es] :=
        @LaidOut.single [_] _ _ .list ih rfl
      exact hlist.trail_sign _ l₂ rfl
  | fn hparams _ ih => exact ih.curried hparams _ _ _
  | @call first rest callee args es l₁ l₂ hcallee _ ihCallee ihArgs =>
      obtain ⟨first', rest', heq, hopens⟩ := hcallee.opensWith rfl
      obtain ⟨rfl, rfl⟩ := List.cons.inj heq
      have hopened : LaidOut (first :: (rest ++ [⟨.sign .openParen, l₁⟩])) [callee] :=
        LaidOut.trail_sign ihCallee _ l₁ rfl
      simpa [Phrase.LaidOut] using (hopened.applied hopens ihArgs).trail_sign .closeParen l₂ rfl
  | binding _ ih =>
      exact @LaidOut.single [_, _, _] _ _ .binding ih ⟨_, _, rfl, rfl, _, .binding⟩
  | loop _ _ ihTest ihBody =>
      exact @LaidOut.single [_] _ _ .loop (ihTest.append ihBody) ⟨_, _, rfl, rfl, [], .loop⟩
  | noElse _ _ ihTest ihYes => simpa [Phrase.LaidOut] using LaidOut.choice ihTest ihYes .absent
  | blockElse _ _ _ ihTest ihYes ihNo =>
      simpa [Phrase.LaidOut] using LaidOut.choice ihTest (ihYes.trail_else _) ihNo
  | elseIf _ _ _ ihTest ihYes ihNo =>
      simpa [Phrase.LaidOut] using LaidOut.choice ihTest (ihYes.trail_else _) (.branch ihNo)
  | @block inner es l₁ l₂ _ ih =>
      obtain ⟨semicolons, rest, rfl, hsemicolons, hrest⟩ := ih
      exact (hrest.braces hsemicolons l₁).trail_sign _ l₂ rfl
  | semicolon _ ih =>
      obtain ⟨semicolons, rest, rfl, hsemicolons, hrest⟩ := ih
      exact ⟨_ :: semicolons, rest, rfl, List.forall_mem_cons.mpr ⟨rfl, hsemicolons⟩, hrest⟩
  | next _ _ ihFirst ihRest =>
      obtain ⟨semicolons, rest, rfl, hsemicolons, hrest⟩ := ihRest
      have hfirst := LaidOut.trail_semicolons ihFirst hsemicolons
      exact ⟨[], _, rfl, List.forall_mem_nil _, by simpa using hfirst.append hrest⟩
  | item _ _ ihFirst ihRest =>
      simpa [Phrase.LaidOut] using (LaidOut.trail_sign ihFirst .comma _ rfl).append ihRest

end ExprLang
