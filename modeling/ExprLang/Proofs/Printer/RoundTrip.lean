import ExprLang.Proofs.Printer.Writes
import ExprLang.Proofs.Reader.Acceptance

/-!
# Reading undoes the layout

Every tree that the reader could have built is read back from its source form, whatever the width of
the indentation and the level that it is laid out at (`parse_render`).

The proof follows the layout: of each piece it is known what it stands for (`Piece.Means`), also of
the call or function in it that an enclosing node may still extend. A chain of calls is one call
with several arguments in the text, and one call around another in the tree; likewise for functions.
-/

namespace ExprLang

open Grammar
open Reader (Goal)

/-! ## Shapes -/

namespace Expr

/-- Whether a call of the expression reads as such: what follows a binding, an `if` or a loop
belongs to its last part. -/
def isCallable : Expr → Bool
  | .binding .. | .choice .. | .loop .. => false
  | _ => true

/-- What an expression is read as. -/
def heading (e : Expr) : Phrase :=
  match e with
  | .binding .. | .choice .. | .loop .. => .expr e
  | .block _ es => .block es
  | e => .call e

end Expr

/-- The trees that the reader builds from an expression. -/
inductive ParserShaped : Expr → Prop
  | int {loc value} : ParserShaped (.int loc value)
  | str {loc text} : '"' ∉ text.toList → ParserShaped (.str loc text)
  | bool {loc value} : ParserShaped (.bool loc value)
  | null : ParserShaped .null
  | list {loc items} : (∀ e ∈ items, ParserShaped e) → ParserShaped (.list loc items)
  | ident {loc name} : IsName name → ParserShaped (.ident loc name)
  | binding {loc name value} : IsName name → ParserShaped value →
      ParserShaped (.binding loc name value)
  | choice {loc test l yes l' no} : ParserShaped test → ParserShaped (.block l yes) →
      ParserShaped (.block l' no) → ParserShaped (.choice loc test (.block l yes) (.block l' no))
  | loop {loc test l body} : ParserShaped test → ParserShaped (.block l body) →
      ParserShaped (.loop loc test (.block l body))
  | block {loc exprs} : (∀ e ∈ exprs, ParserShaped e) → ParserShaped (.block loc exprs)
  | thunk {loc l body} : ParserShaped (.block l body) →
      ParserShaped (.fn loc none (.block l body))
  | fnBlock {loc param l body} : IsName param → ParserShaped (.block l body) →
      ParserShaped (.fn loc (some param) (.block l body))
  | fnFn {loc param l next body} : IsName param → ParserShaped (.fn l (some next) body) →
      ParserShaped (.fn loc (some param) (.fn l (some next) body))
  | callNone {loc callee} : ParserShaped callee → callee.isCallable = true →
      ParserShaped (.call loc callee none)
  | callSome {loc callee arg} : ParserShaped callee → callee.isCallable = true →
      ParserShaped arg → ParserShaped (.call loc callee (some arg))

/-- The trees that the reader builds from a source. -/
inductive SourceShaped : Goal → Expr → Prop
  | program {loc exprs} : (∀ e ∈ exprs, ParserShaped e) →
      SourceShaped .program (.program loc exprs)
  | expression {e} : ParserShaped e → SourceShaped .expression e

/-! ## What pieces mean -/

theorem Writes.of_unlocated {text : String} {e e' : Expr} (h : Writes text (.call e))
    (heq : e.unlocated = e'.unlocated) : Writes text (.call e') := by
  obtain ⟨tokens, hspells, tree, htree, htreeEq⟩ := h
  exact ⟨tokens, hspells, tree, htree, htreeEq.trans heq⟩

theorem Writes.braces {text : String} {es : List Expr} {loc : Option Loc}
    (h : Writes text (.block es)) : Writes text (.call (.block loc es)) := by
  obtain ⟨tokens, hspells, hyields⟩ := h
  exact ⟨tokens, hspells, hyields.braces⟩

theorem Writes.ofCall {text : String} {e : Expr} (h : Writes text (.call e)) :
    Writes text (.expr e) := by
  obtain ⟨tokens, hspells, hyields⟩ := h
  exact ⟨tokens, hspells, hyields.ofCall⟩

/-- What is read as something that can be called. -/
theorem Writes.callable {text : String} {e : Expr} (h : Writes text e.heading)
    (hcallable : e.isCallable = true) : Writes text (.call e) := by
  cases e with
  | block loc es => exact h.braces
  | binding | choice | loop => exact absurd hcallable nofun
  | _ => exact h

theorem Writes.expr {text : String} {e : Expr} (h : Writes text e.heading) :
    Writes text (.expr e) := by
  cases e with
  | binding | choice | loop => exact h
  | block loc es => exact h.braces.ofCall
  | _ => exact Writes.ofCall h

/-- What a piece stands for: a text that is read as the tree, or the parts of such a text. -/
def Piece.Means (print : Expr → String) (e : Expr) : Piece → Prop
  | .plain text => e.takesParam = false ∧ Writes text e.heading
  | .call callee args => e.takesParam = false ∧ e.heading = .call e ∧ ∃ f arg rest,
      Writes callee (.call f) ∧ args = (arg :: rest).map print ∧
        (∀ a ∈ arg :: rest, Writes (print a) (.expr a)) ∧
        (Expr.applied .start f (arg :: rest)).unlocated = e.unlocated
  | .fn params body => e.heading = .call e ∧ ∃ name names loc es, params = name :: names ∧
      (∀ name ∈ params, IsName name) ∧ Writes body (.block es) ∧
        (Expr.curried params (.block loc es)).unlocated = e.unlocated

theorem Piece.Means.writes {print : Expr → String} {e : Expr} {piece : Piece}
    (h : piece.Means print e) : Writes piece.text e.heading := by
  cases piece with
  | plain text => exact h.2
  | call callee args =>
      obtain ⟨-, hheading, f, arg, rest, hcallee, rfl, hargs, heq⟩ := h
      rw [hheading]
      exact (writes_call hcallee (writes_commas hargs)).of_unlocated heq
  | fn params body =>
      obtain ⟨hheading, name, names, loc, es, rfl, hnames, hbody, heq⟩ := h
      rw [hheading]
      exact (writes_fn _ hnames hbody).of_unlocated heq

/-- One more argument. -/
theorem Piece.Means.addArgument {print : Expr → String} {loc : Option Loc} {callee arg : Expr}
    {piece : Piece} (h : piece.Means print callee) (hcallable : callee.isCallable = true)
    (harg : Writes (print arg) (.expr arg)) :
    (piece.addArgument (print arg)).Means print (.call loc callee (some arg)) := by
  have hfirst : ∀ {text}, Writes text (.call callee) →
      (Piece.call text [print arg]).Means print (.call loc callee (some arg)) :=
    fun htext => ⟨rfl, rfl, callee, arg, [], htext, rfl, by simpa using harg,
      by simp [Expr.applied, Expr.unlocated]⟩
  cases piece with
  -- only a call takes the argument into its own list
  | plain text => exact hfirst (h.writes.callable hcallable)
  | fn params body => exact hfirst (h.writes.callable hcallable)
  | call text args =>
      obtain ⟨-, -, f, first, rest, htext, rfl, hargs, heq⟩ := h
      refine ⟨rfl, rfl, f, first, rest ++ [arg], htext, by simp, ?_, ?_⟩
      · intro a hmem
        rw [← List.cons_append] at hmem
        rcases List.mem_append.mp hmem with hmem | hmem
        · exact hargs a hmem
        · obtain rfl := List.mem_singleton.mp hmem
          exact harg
      · simp only [Expr.applied, List.foldl_cons, List.foldl_append, List.foldl_nil,
          Expr.unlocated] at heq ⊢
        rw [heq]

/-- One more parameter. -/
theorem Piece.Means.addParam {print : Expr → String} {loc : Option Loc} {param : String}
    {body : Expr} {piece : Piece} (h : piece.Means print body) (hbody : body.takesParam = true)
    (hparam : IsName param) :
    (piece.addParam param).Means print (.fn loc (some param) body) := by
  cases piece with
  -- the body is a function of a parameter, and no other piece stands for one
  | plain text => exact absurd (h.1.symm.trans hbody) nofun
  | call callee args => exact absurd (h.1.symm.trans hbody) nofun
  | fn params text =>
      obtain ⟨-, name, names, l, es, rfl, hnames, htext, heq⟩ := h
      refine ⟨rfl, param, name :: names, l, es, rfl,
        List.forall_mem_cons.mpr ⟨hparam, hnames⟩,
        htext, ?_⟩
      simp only [Expr.curried, List.foldr_cons, Expr.unlocated] at heq ⊢
      rw [heq]

/-! ## The layout -/

theorem texts_eq_map (style : Style) (level : Int) (es : List Expr) :
    style.texts level es = es.map (style.render level) := by
  induction es with
  | nil => rfl
  | cons e es ih => rw [Style.texts, ih, List.map_cons, Style.render]

/-- Every piece of a layout that spells functions out stands for its tree. -/
theorem piece_means (indent : Int) {e : Expr} (h : ParserShaped e) : ∀ level : Int,
    (Style.piece ⟨indent, true⟩ level e).Means (Style.render ⟨indent, true⟩ level) e := by
  induction h with
  | @int loc value =>
      intro level
      exact ⟨rfl, writes_int value loc⟩
  | str hquote =>
      intro level
      exact ⟨rfl, writes_str hquote⟩
  | @bool loc value =>
      intro level
      cases value with
      | true => exact ⟨rfl, writes_keyword .litTrue⟩
      | false => exact ⟨rfl, writes_keyword .litFalse⟩
  | null =>
      intro level
      exact ⟨rfl, writes_keyword .litNull⟩
  | list _ ih =>
      intro level
      rw [Style.piece, texts_eq_map]
      exact ⟨rfl, writes_list (writes_commas fun e hmem => (ih e hmem level).writes.expr)⟩
  | ident hname =>
      intro level
      exact ⟨rfl, _, hname.spells, .name _⟩
  | binding hname _ ih =>
      intro level
      rw [Style.piece]
      exact ⟨rfl, writes_binding hname (ih level).writes.expr⟩
  | choice _ _ _ ihTest ihYes ihNo =>
      intro level
      rw [Style.piece]
      exact ⟨rfl, writes_choice (ihTest level).writes.expr (ihYes level).writes
        (ihNo level).writes⟩
  | loop _ _ ihTest ihBody =>
      intro level
      rw [Style.piece]
      exact ⟨rfl, writes_loop (ihTest level).writes.expr (ihBody level).writes⟩
  | block _ ih =>
      intro level
      rw [Style.piece, texts_eq_map]
      exact ⟨rfl, writes_blockText _ level fun e hmem => (ih e hmem (level + 1)).writes.expr⟩
  | @thunk loc l es _ ih =>
      intro level
      have hpiece : Style.piece ⟨indent, true⟩ level (.fn loc none (.block l es))
          = .plain ("fn() " ++ Style.render ⟨indent, true⟩ level (.block l es)) := by
        rw [Style.piece.eq_def]
        rfl
      have hnames : ∀ name ∈ ([] : List String), IsName name :=
        fun _ hmem => absurd hmem List.not_mem_nil
      have hfn := writes_fn l hnames (ih level).writes
      rw [hpiece]
      exact ⟨rfl, hfn⟩
  | @fnBlock loc param l es hparam _ ih =>
      intro level
      have hpiece : Style.piece ⟨indent, true⟩ level (.fn loc (some param) (.block l es))
          = .fn [param] (Style.render ⟨indent, true⟩ level (.block l es)) := by
        rw [Style.piece.eq_def]
        rfl
      rw [hpiece]
      exact ⟨rfl, param, [], l, es, rfl, List.forall_mem_singleton.mpr hparam, (ih level).writes,
        by simp [Expr.curried, Expr.unlocated]⟩
  | @fnFn loc param l next body hparam _ ih =>
      intro level
      have hpiece : Style.piece ⟨indent, true⟩ level
        (.fn loc (some param) (.fn l (some next) body))
          = (Style.piece ⟨indent, true⟩ level (.fn l (some next) body)).addParam param := by
        rw [Style.piece.eq_def]
        rfl
      rw [hpiece]
      exact (ih level).addParam rfl hparam
  | @callNone loc callee _ hcallable ih =>
      -- never joined to other arguments: `f()(x)` is not `f(x)`
      intro level
      have hargs : Writes (Piece.commas []) (.items []) := ⟨[], Spells.nil.weaken, .endItems⟩
      have hcall := writes_call ((ih level).writes.callable hcallable) hargs
      have hempty : "(" ++ (Piece.commas [] ++ ")") = "()" := by decide
      rw [String.append_assoc, String.append_assoc, hempty] at hcall
      rw [Style.piece]
      exact ⟨rfl, hcall.of_unlocated (by simp [Expr.applied, Expr.unlocated])⟩
  | callSome _ hcallable _ ihCallee ihArg =>
      intro level
      rw [Style.piece]
      exact (ihCallee level).addArgument hcallable (ihArg level).writes.expr

theorem writes_render (indent level : Int) {e : Expr} (h : ParserShaped e) :
    Writes (Style.render ⟨indent, true⟩ level e) (.expr e) :=
  (piece_means indent h level).writes.expr

/-! ## Reading back -/

/-- A text that writes a whole source is read as its tree. -/
theorem parse_of_spells {goal : Goal} {source : String} {closed : Bool} {tokens : List Token}
    {t : Expr} (hspells : Spells closed source.toList tokens)
    (hderives : DerivesTree goal tokens t.unlocated) :
    ∃ tree, Reader.parse goal source = .ok tree ∧ agrees .byShape t tree = true := by
  obtain ⟨hstop, htokens⟩ := scan_of_spells hspells
  have hreadable : ∀ lexeme ∈ (scan source.toList).lexemes, lexeme.token.Readable := by
    have hall := hspells.1
    rw [← htokens] at hall
    exact List.forall_mem_map.mp hall
  rw [← htokens] at hderives
  obtain ⟨tree, hparse, htree⟩ := Reader.parse_eq_ok_of_derivesTree hstop hderives hreadable
  exact ⟨tree, hparse, (agrees_byShape_iff t tree).mpr htree.symm⟩

/-- Reading the source form of a tree gives the tree again, locations aside: for every tree that the
reader builds, every width of the indentation and every level. -/
theorem parse_render (indent level : Int) {goal : Goal} {t : Expr} (h : SourceShaped goal t) :
    ∃ tree, Reader.parse goal (Style.render ⟨indent, true⟩ level t) = .ok tree ∧
      agrees .byShape t tree = true := by
  cases h with
  | @program loc exprs hexprs =>
      -- each line ends in a semicolon, so the next line begins between tokens
      have hline : ∀ e ∈ exprs, ∃ tokens,
          Spells true (Style.render ⟨indent, true⟩ level e ++ ";").toList
            (tokens ++ [.sign .semicolon]) ∧ Yields tokens (.expr e) := by
        intro e hmem
        obtain ⟨tokens, hspells, hyields⟩ := writes_render indent level (hexprs e hmem)
        exact ⟨tokens,
          by simpa [Sign.char] using hspells.sign_before .semicolon Spells.nil, hyields⟩
      obtain ⟨tokens, hspells, hyields⟩ := writes_lines hline
      have hrender : Style.render ⟨indent, true⟩ level (.program loc exprs)
          = "\n".intercalate (exprs.map (Style.render ⟨indent, true⟩ level · ++ ";")) := by
        rw [Style.render, Style.piece, texts_eq_map, List.map_map]
        rfl
      rw [hrender]
      exact parse_of_spells hspells hyields.derivesTree_program
  | expression h =>
      obtain ⟨tokens, hspells, hyields⟩ := writes_render indent level h
      exact parse_of_spells hspells hyields.derivesTree_expression

/-- A block that holds a line break is called without an argument and then with a function of two
parameters; the layout spreads the block and joins the parameters. -/
theorem parse_render_block_call :
    let body := Expr.block none [.ident none "x", .choice none (.binding none "z" .null)
      (.block none [.int none 7]) (.block none [])]
    let t := Expr.program none [.call none (.call none (.block none [.str none "\n"]) none)
      (some (.fn none (some "x") (.fn none (some "y") body)))]
    SourceShaped .program t ∧ ∃ tree,
      Reader.parse .program (Style.render ⟨3, true⟩ (-1) t) = .ok tree ∧
      agrees .byShape t tree = true := by
  intro body t
  have hname : ∀ c : Char, isNameChar c = true → c.isDigit = false →
      Keyword.ofText? (String.ofList [c]) = none → IsName (String.ofList [c]) :=
    fun c hc hdigit hreserved =>
      ⟨⟨c, [], rfl, hc, hdigit, fun _ hmem => absurd hmem List.not_mem_nil⟩, hreserved⟩
  have hbody : ParserShaped body := by
    refine .block (List.forall_mem_cons.mpr ⟨.ident (hname 'x' rfl rfl (by decide)), ?_⟩)
    refine List.forall_mem_singleton.mpr
      (.choice (.binding (hname 'z' rfl rfl (by decide)) .null) ?_ ?_)
    · exact .block (List.forall_mem_singleton.mpr .int)
    · exact .block fun _ hmem => absurd hmem List.not_mem_nil
  have hcallee : ParserShaped (.call none (.block none [.str none "\n"]) none) :=
    .callNone (.block (List.forall_mem_singleton.mpr (.str (by decide)))) rfl
  have hfn : ParserShaped (.fn none (some "x") (.fn none (some "y") body)) :=
    .fnFn (hname 'x' rfl rfl (by decide)) (.fnBlock (hname 'y' rfl rfl (by decide)) hbody)
  have ht : SourceShaped .program t :=
    .program (List.forall_mem_singleton.mpr (.callSome hcallee rfl hfn))
  exact ⟨ht, parse_render 3 (-1) ht⟩

end ExprLang
