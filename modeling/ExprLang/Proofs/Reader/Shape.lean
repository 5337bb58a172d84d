import ExprLang.Proofs.Printer.RoundTrip
import ExprLang.Proofs.Reader.Overlong
import ExprLang.Proofs.Reader.ProgramFree
import ExprLang.Proofs.Token.Formed

/-!
# The shape of what is read

A tree that is read has one of few shapes: branches and loop bodies are blocks, functions are
curried, and nothing is called that would take the call into itself (`ParserShaped`). A node carries
a location exactly if it can fail by itself, and an integer is the number that some literal of the
source spells, and no other with the same last 64 bits. Each rule of the grammar builds such trees
of such trees (`Derives.shapes`), so every tree of a source is one (`parse_shaped`).
-/

namespace ExprLang

open Grammar
open Reader (Goal parse)

/-! ## Nodes -/

/-- Names, bindings, choices, loops and calls carry a location, and no other node does. -/
def Expr.LocatedByKind : Expr → Prop
  | .ident loc _ | .binding loc _ _ | .choice loc _ _ _ | .loop loc _ _ | .call loc _ _ =>
      loc.isSome = true
  | e => e.loc? = none

/-- An integer is the number that a literal among these tokens spells, which has a 64-bit form. -/
def Expr.SpelledBy (lexemes : List Lexeme) : Expr → Prop
  | .int _ value => value.toNat ≤ maxInteger ∧
      ∃ digits loc, ⟨.int digits, loc⟩ ∈ lexemes ∧
      value.toNat = Text.digitsValue digits.toList
  | _ => True

/-- A tree that is read from tokens among these. -/
structure ReadShape (lexemes : List Lexeme) (e : Expr) : Prop where
  shaped : ParserShaped e
  located : Everywhere Expr.LocatedByKind e
  spelled : Everywhere (Expr.SpelledBy lexemes) e

/-- The tree that is read from a source, as a whole program or as a single expression. -/
structure SourceShape (goal : Goal) (source : String) (tree : Expr) : Prop where
  /-- A program is the root and holds expressions, or the tree is an expression. -/
  shaped : SourceShaped goal tree
  /-- Names, bindings, choices, loops and calls carry a location, and no other node does. -/
  located : Everywhere Expr.LocatedByKind tree
  /-- Integers are the numbers that the source spells. -/
  spelled : Everywhere (Expr.SpelledBy (scan source.toList).lexemes) tree

/-! ## What the rules build -/

namespace ReadShape

variable {lexemes : List Lexeme}

theorem leaf {e : Expr} (hshaped : ParserShaped e) (hlocated : e.LocatedByKind)
    (hspelled : e.SpelledBy lexemes) (hparts : e.parts = []) : ReadShape lexemes e :=
  ⟨hshaped, .leaf hlocated hparts, .leaf hspelled hparts⟩

/-- A node is read if its parts are, provided that it has the shape of one. -/
theorem node {e : Expr} (hshaped : ParserShaped e) (hlocated : e.LocatedByKind)
    (hspelled : e.SpelledBy lexemes) (hparts : ∀ part ∈ e.parts, ReadShape lexemes part) :
    ReadShape lexemes e :=
  ⟨hshaped, .of_parts hlocated fun part hmem => (hparts part hmem).located,
    .of_parts hspelled fun part hmem => (hparts part hmem).spelled⟩

theorem block {es : List Expr} (h : ∀ e ∈ es, ReadShape lexemes e) :
    ReadShape lexemes (.block none es) :=
  node (.block fun e hmem => (h e hmem).shaped) rfl trivial h

theorem choice {loc : Loc} {test : Expr} {yes no : List Expr} (htest : ReadShape lexemes test)
    (hyes : ∀ e ∈ yes, ReadShape lexemes e) (hno : ∀ e ∈ no, ReadShape lexemes e) :
    ReadShape lexemes (.choice (some loc) test (.block none yes) (.block none no)) := by
  have hbranches : ∀ part ∈ [Expr.block none yes, .block none no], ReadShape lexemes part :=
    List.forall_mem_cons.mpr ⟨block hyes, List.forall_mem_singleton.mpr (block hno)⟩
  exact node (.choice htest.shaped (block hyes).shaped (block hno).shaped) rfl trivial
    (List.forall_mem_cons.mpr ⟨htest, hbranches⟩)

theorem loop {loc : Loc} {test : Expr} {body : List Expr} (htest : ReadShape lexemes test)
    (hbody : ∀ e ∈ body, ReadShape lexemes e) :
    ReadShape lexemes (.loop (some loc) test (.block none body)) :=
  node (.loop htest.shaped (block hbody).shaped) rfl trivial
    (List.forall_mem_cons.mpr ⟨htest, List.forall_mem_singleton.mpr (block hbody)⟩)

/-- Functions of several parameters are functions of one whose body is a block or such a
function. -/
theorem shaped_curried {es : List Expr} (hbody : ParserShaped (.block none es))
    {params : List String} (hparams : ∀ param ∈ params, IsName param) :
    ParserShaped (.curried params (.block none es)) := by
  cases params with
  | nil => exact .thunk hbody
  | cons first rest =>
      show ParserShaped (.fn none (some first) (rest.foldr _ (.block none es)))
      obtain ⟨hfirst, hrest⟩ := List.forall_mem_cons.mp hparams
      clear hparams
      induction rest generalizing first with
      | nil => exact .fnBlock hfirst hbody
      | cons next rest ih =>
          obtain ⟨hnext, hrest⟩ := List.forall_mem_cons.mp hrest
          exact .fnFn hfirst (ih next hnext hrest)

theorem curried {es : List Expr} (hbody : ∀ e ∈ es, ReadShape lexemes e) {params : List String}
    (hparams : ∀ param ∈ params, IsName param) :
    ReadShape lexemes (.curried params (.block none es)) := by
  have hblock : ReadShape lexemes (.block none es) := block hbody
  refine ⟨shaped_curried hblock.shaped hparams, ?_, ?_⟩
  · exact Expr.curriedInduction
      (fun hbody => .of_parts rfl (List.forall_mem_singleton.mpr hbody)) hblock.located params
  · exact Expr.curriedInduction
      (fun hbody => .of_parts trivial (List.forall_mem_singleton.mpr hbody)) hblock.spelled params

/-- A call with several arguments is a call of a call, and what is called can be called. -/
theorem applied {loc : Loc} {callee : Expr} (hcallee : ReadShape lexemes callee)
    (hcallable : callee.isCallable = true) {args : List Expr}
    (hargs : ∀ arg ∈ args, ReadShape lexemes arg) :
    ReadShape lexemes (.applied loc callee args) ∧
      (Expr.applied loc callee args).isCallable = true := by
  refine Expr.appliedInduction
    (P := fun e => ReadShape lexemes e ∧ e.isCallable = true) ⟨hcallee, hcallable⟩ ?_ ?_
  · intro _
    have hcall : ParserShaped (.call (some loc) callee none) := .callNone hcallee.shaped hcallable
    exact ⟨node hcall rfl trivial (List.forall_mem_singleton.mpr hcallee), rfl⟩
  · intro given arg inner hgiven _ hinner
    have harg := hargs arg (hgiven.subset (List.mem_append_right _ List.mem_cons_self))
    have hcall : ParserShaped (.call (some loc) inner (some arg)) :=
      .callSome hinner.1.shaped hinner.2 harg.shaped
    exact ⟨node hcall rfl trivial
      (List.forall_mem_cons.mpr ⟨hinner.1, List.forall_mem_singleton.mpr harg⟩), rfl⟩

end ReadShape

/-! ## What phrases mean -/

/-- The parameters of a list of parameters are names that are found. -/
theorem Grammar.IsParameters.mem {lexemes : List Lexeme} {names : List String}
    (h : IsParameters lexemes names) {name : String} (hname : name ∈ names) :
    ∃ loc, ⟨.name name, loc⟩ ∈ lexemes := by
  -- commas between the names take none of them away
  have htoken : Token.name name ∈ lexemes.map (·.token) := by
    rw [h]
    have hmem : Token.name name ∈ names.map Token.name := List.mem_map_of_mem hname
    generalize names.map Token.name = tokens at hmem
    induction tokens with
    | nil => exact absurd hmem List.not_mem_nil
    | cons first rest ih =>
        cases rest with
        | nil => simpa using hmem
        | cons second rest =>
            rw [List.intersperse_cons_cons]
            rcases List.mem_cons.mp hmem with heq | hmem
            · exact heq ▸ List.mem_cons_self
            · exact List.mem_cons_of_mem _ (List.mem_cons_of_mem _ (ih hmem))
  obtain ⟨⟨token, loc⟩, hmem, rfl⟩ := List.mem_map.mp htoken
  exact ⟨loc, hmem⟩

/-- What a phrase means is read from these tokens, and what stands under the heading of a call can
be called. -/
def Grammar.Phrase.Shaped (lexemes : List Lexeme) : Phrase → Prop
  | .call e => ReadShape lexemes e ∧ e.isCallable = true
  | phrase => ∀ e ∈ phrase.trees, ReadShape lexemes e

/-- The tokens that a tree is read from are formed, and each literal among them has a value. -/
structure Readables (lexemes : List Lexeme) : Prop where
  formed : ∀ lexeme ∈ lexemes, lexeme.token.Formed
  readable : ∀ lexeme ∈ lexemes, lexeme.token.Readable

theorem Readables.int {lexemes : List Lexeme} (h : Readables lexemes) {digits : String} {loc : Loc}
    (hmem : ⟨.int digits, loc⟩ ∈ lexemes) :
    ReadShape lexemes (.int none (Reader.literalValue digits)) := by
  have hsmall : Text.digitsValue digits.toList ≤ maxInteger := Nat.not_lt.mp (h.readable _ hmem).2
  have hvalue : (Reader.literalValue digits).toNat = Text.digitsValue digits.toList := by
    refine UInt64.toNat_ofNat_of_lt' ?_
    unfold maxInteger at hsmall
    show Text.digitsValue digits.toList < 18446744073709551616
    omega
  refine .leaf .int rfl ⟨?_, digits, loc, hmem, hvalue⟩ rfl
  rw [hvalue]
  exact hsmall

/-- Each rule of the grammar builds a tree with the shape of one that is read. -/
theorem Grammar.Derives.shapes {whole lexemes : List Lexeme} {phrase : Phrase}
    (hwhole : Readables whole) (h : Derives lexemes phrase) (hsub : lexemes ⊆ whole) :
    phrase.Shaped whole := by
  -- the tokens of a phrase are among those of the source, of which `hwhole` speaks
  induction h with
  | int => exact ⟨hwhole.int (hsub List.mem_cons_self), rfl⟩
  | str => exact ⟨.leaf (.str (hwhole.formed _ (hsub List.mem_cons_self))) rfl trivial rfl, rfl⟩
  | litTrue | litFalse => exact ⟨.leaf .bool rfl trivial rfl, rfl⟩
  | litNull => exact ⟨.leaf .null rfl trivial rfl, rfl⟩
  | name =>
      exact ⟨.leaf (.ident (hwhole.formed _ (hsub List.mem_cons_self))) rfl trivial rfl, rfl⟩
  | list _ ih =>
      have hitems := ih fun _ hmem => hsub (by simp [hmem])
      exact ⟨.node (.list fun e hmem => (hitems e hmem).shaped) rfl trivial hitems, rfl⟩
  | @fn params names body es l₁ l₂ l₃ hparams _ ih =>
      have hbody := ih fun _ hmem => hsub (by simp [hmem])
      have hnames : ∀ param ∈ names, IsName param := by
        intro param hparam
        obtain ⟨loc, hmem⟩ := hparams.mem hparam
        have hparam : ⟨.name param, loc⟩ ∈ whole := hsub (by simp [hmem])
        exact hwhole.formed _ hparam
      refine ⟨.curried hbody hnames, ?_⟩
      cases names <;> rfl
  | braces _ ih => exact ⟨.block (ih hsub), rfl⟩
  | call _ _ ihCallee ihArgs =>
      obtain ⟨hcallee, hcallable⟩ :=
        ihCallee fun _ hmem => hsub (by simp only [List.mem_append, hmem, true_or])
      have hargs := ihArgs fun _ hmem => hsub (by simp [hmem])
      exact hcallee.applied hcallable hargs
  | binding _ ih =>
      have hvalue := List.forall_mem_singleton.mp (ih fun _ hmem => hsub (by simp [hmem]))
      have hname := hwhole.formed _ (hsub (List.mem_cons_of_mem _ List.mem_cons_self))
      exact List.forall_mem_singleton.mpr
        (.node (.binding hname hvalue.shaped) rfl trivial (List.forall_mem_singleton.mpr hvalue))
  | loop _ _ ihTest ihBody =>
      have htest := List.forall_mem_singleton.mp (ihTest fun _ hmem => hsub (by simp [hmem]))
      have hbody := ihBody fun _ hmem => hsub (by simp [hmem])
      exact List.forall_mem_singleton.mpr (.loop htest hbody)
  | ofChoice _ ih => exact ih hsub
  | ofCall _ ih => exact List.forall_mem_singleton.mpr (ih hsub).1
  | noElse _ _ ihTest ihYes =>
      have htest := List.forall_mem_singleton.mp (ihTest fun _ hmem => hsub (by simp [hmem]))
      have hyes := ihYes fun _ hmem => hsub (by simp [hmem])
      have hnull : ReadShape whole .null := .leaf .null rfl trivial rfl
      exact List.forall_mem_singleton.mpr (.choice htest hyes (List.forall_mem_singleton.mpr hnull))
  | blockElse _ _ _ ihTest ihYes ihNo | elseIf _ _ _ ihTest ihYes ihNo =>
      have htest := List.forall_mem_singleton.mp (ihTest fun _ hmem => hsub (by simp [hmem]))
      have hyes := ihYes fun _ hmem => hsub (by simp [hmem])
      have hno := ihNo fun _ hmem => hsub (by simp [hmem])
      exact List.forall_mem_singleton.mpr (.choice htest hyes hno)
  | block _ ih => exact ih fun _ hmem => hsub (by simp [hmem])
  | endSequence | endItems => exact fun _ hmem => absurd hmem List.not_mem_nil
  | semicolon _ ih => exact ih fun _ hmem => hsub (List.mem_cons_of_mem _ hmem)
  | lastItem _ ih => exact ih hsub
  | next _ _ ihFirst ihRest | item _ _ ihFirst ihRest =>
      have hfirst := List.forall_mem_singleton.mp (ihFirst fun _ hmem => hsub (by simp [hmem]))
      exact List.forall_mem_cons.mpr ⟨hfirst, ihRest fun _ hmem => hsub (by simp [hmem])⟩

/-! ## Sources -/

/-- **What is read has the shape of what is read**: whatever the source, its tree is one of those
that the printer, the evaluator and the reports rely on. -/
theorem parse_shaped {goal : Goal} {source : String} {tree : Expr}
    (h : parse goal source = .ok tree) : SourceShape goal source tree := by
  obtain ⟨-, hderives, hliterals⟩ := Reader.parse_eq_ok_iff.mp h
  have hwhole : Readables (scan source.toList).lexemes := by
    refine ⟨scan_formed source.toList, fun lexeme hmem => ?_⟩
    exact Reader.literalError?_eq_none_iff.mp (List.findSome?_eq_none_iff.mp hliterals lexeme hmem)
  cases goal with
  | program =>
      obtain ⟨es, hsequence, rfl⟩ := hderives
      have hes := hsequence.shapes hwhole (List.Subset.refl _)
      exact ⟨.program fun e hmem => (hes e hmem).shaped,
        .of_parts rfl fun e hmem => (hes e hmem).located,
        .of_parts trivial fun e hmem => (hes e hmem).spelled⟩
  | expression =>
      obtain ⟨before, middle, after, hsplit, -, -, hexpr⟩ := hderives
      have hsub : middle ⊆ (scan source.toList).lexemes := by
        rw [hsplit]
        intro lexeme hmem
        simp [hmem]
      have he := List.forall_mem_singleton.mp (hexpr.shapes hwhole hsub)
      exact ⟨.expression he.shaped, he.located, he.spelled⟩

/-- A call of a call of a curried function, and a conditional whose second branch is missing. -/
theorem parse_shaped_curried : ∃ tree,
    parse .expression "fn(a, b) { if a { 7 } }(x)()" = .ok tree ∧
      SourceShape .expression "fn(a, b) { if a { 7 } }(x)()" tree := by
  have hparse : parse .expression "fn(a, b) { if a { 7 } }(x)()"
      = .ok (.call (some ⟨1, 1⟩) (.call (some ⟨1, 1⟩)
        (.fn none (some "a") (.fn none (some "b") (.block none [.choice (some ⟨1, 12⟩)
          (.ident (some ⟨1, 15⟩) "a") (.block none [.int none 7]) (.block none [.null])])))
        (some (.ident (some ⟨1, 25⟩) "x"))) none) := by rfl
  exact ⟨_, hparse, parse_shaped hparse⟩

end ExprLang
