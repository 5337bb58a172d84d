import ExprLang.Proofs.Reader.Acceptance
import ExprLang.Proofs.Reader.Layout
import ExprLang.Proofs.Token.Order

/-!
# The locations of what is read

A location in a tree that has been read is the line and the column of the first token of the node,
or of what the node calls in the end: the tree lies over the tokens of the source (`LaidOut`), and
these stand in the source where their places say. A traversal that takes a node before its parts
meets the tokens in their order, and so the locations never decrease (`parse_places`).
-/

namespace ExprLang

/-! ## Traversals -/

mutual

/-- The nodes of a tree, each before its parts. -/
def Expr.preorder : Expr → List Expr
  | .list loc items => .list loc items :: preorderAll items
  | .block loc exprs => .block loc exprs :: preorderAll exprs
  | .program loc exprs => .program loc exprs :: preorderAll exprs
  | .builtin loc name missing supplied => .builtin loc name missing supplied :: preorderAll supplied
  | .binding loc name value => .binding loc name value :: value.preorder
  | .choice loc test yes no =>
      .choice loc test yes no :: (test.preorder ++ yes.preorder ++ no.preorder)
  | .loop loc test body => .loop loc test body :: (test.preorder ++ body.preorder)
  | .fn loc param body => .fn loc param body :: body.preorder
  | .call loc callee none => .call loc callee none :: callee.preorder
  | .call loc callee (some arg) => .call loc callee (some arg) :: (callee.preorder ++ arg.preorder)
  | e => [e]

/-- The nodes of trees, one tree after the other. -/
def Expr.preorderAll : List Expr → List Expr
  | [] => []
  | e :: es => e.preorder ++ preorderAll es

end

theorem Expr.preorderAll_eq (es : List Expr) : preorderAll es = es.flatMap preorder := by
  induction es with
  | nil => rw [preorderAll, List.flatMap_nil]
  | cons e es ih => rw [preorderAll, List.flatMap_cons, ih]

theorem Expr.preorder_eq (e : Expr) : e.preorder = e :: e.parts.flatMap preorder := by
  cases e <;> simp [preorder, parts, preorderAll_eq]

/-- The locations in a tree, in the order of the nodes. -/
def Expr.places (e : Expr) : List Loc := e.preorder.filterMap Expr.loc?

theorem Expr.places_eq (e : Expr) : e.places = e.loc?.toList ++ e.parts.flatMap places := by
  unfold places
  rw [preorder_eq, List.filterMap_cons, List.filterMap_flatMap]
  cases e.loc? with
  | none => rfl
  | some loc => rfl

/-! ## Locations in order -/

namespace LaidOut

variable {lexemes : List Lexeme} {es : List Expr}

/-- Every location of trees that lie over tokens is that of one of these. -/
theorem mem_of_places (h : LaidOut lexemes es) :
    ∀ loc ∈ es.flatMap Expr.places, ∃ lexeme ∈ lexemes, lexeme.loc = loc := by
  induction h with
  | nil => exact fun _ hmem => absurd hmem List.not_mem_nil
  | @node opening inner trailing rest e es _ _ hfirst _ _ ihParts ihRest =>
      intro loc hmem
      rw [List.flatMap_cons, Expr.places_eq] at hmem
      simp only [List.mem_append] at hmem
      rcases hmem with (hloc | hparts) | hrest
      · obtain ⟨first, more, hsplit, rfl, -⟩ := hfirst.of_loc (Option.mem_toList.mp hloc)
        exact ⟨first, by simp [hsplit], rfl⟩
      · obtain ⟨lexeme, hlexeme, hloc⟩ := ihParts loc hparts
        exact ⟨lexeme, by simp [hlexeme], hloc⟩
      · obtain ⟨lexeme, hlexeme, hloc⟩ := ihRest loc hrest
        exact ⟨lexeme, by simp [hlexeme], hloc⟩

/-- If the tokens stand in their order, then the locations do not decrease. -/
theorem places_ordered (h : LaidOut lexemes es) (hordered : lexemes.Pairwise (·.loc ≤ ·.loc)) :
    (es.flatMap Expr.places).Pairwise (· ≤ ·) := by
  induction h with
  | nil => exact .nil
  | @node opening inner trailing rest e es hopens hinner hfirst htrailing hlast ihParts ihRest =>
      obtain ⟨hnode, hrest, hacross⟩ := List.pairwise_append.mp hordered
      obtain ⟨hfront, -, -⟩ := List.pairwise_append.mp hnode
      obtain ⟨-, hparts, -⟩ := List.pairwise_append.mp hfront
      -- the location of the node is that of its first token, and the parts have theirs behind that
      have htop : ∀ loc ∈ e.loc?.toList, ∀ loc' ∈ e.parts.flatMap Expr.places,
          loc ≤ loc' := by
        intro loc hloc loc' hloc'
        obtain ⟨first, more, hsplit, rfl, -⟩ := hfirst.of_loc (Option.mem_toList.mp hloc)
        obtain ⟨lexeme, hlexeme, rfl⟩ := hinner.mem_of_places loc' hloc'
        have hmem : lexeme ∈ first :: more := hsplit ▸ List.mem_append_right _ hlexeme
        rcases List.mem_cons.mp hmem with rfl | hmem
        · exact le_rfl
        · rw [hsplit] at hfront
          exact List.rel_of_pairwise_cons hfront hmem
      have htree : e.places.Pairwise (· ≤ ·) := by
        rw [Expr.places_eq]
        refine List.pairwise_append.mpr ⟨?_, ihParts hparts, htop⟩
        cases e.loc? with
        | none => exact .nil
        | some loc => exact List.pairwise_singleton _ _
      rw [List.flatMap_cons]
      refine List.pairwise_append.mpr ⟨htree, ihRest hrest, ?_⟩
      intro loc hloc loc' hloc'
      have hlaid := LaidOut.tree hopens hinner hfirst htrailing
      obtain ⟨lexeme, hlexeme, rfl⟩ := hlaid.mem_of_places loc (by simpa using hloc)
      obtain ⟨lexeme', hlexeme', rfl⟩ := hlast.mem_of_places loc' hloc'
      exact hacross lexeme hlexeme lexeme' hlexeme'

end LaidOut

/-! ## Nodes in a text -/

/-- A text reads a token at a place: so many newlines come before, and so many characters after the
last of them. -/
def ReadsAt (text : List Char) (token : Token) (loc : Loc) : Prop :=
  ∃ before after, text = before ++ token.text.toList ++ after ∧
    loc = ⟨1 + before.count '\n', 1 + (before.reverse.takeWhile (· ≠ '\n')).length⟩

/-- Where a node stands in a text. -/
def Expr.StandsIn (text : List Char) : Expr → Prop
  | .ident loc name => ∃ place, loc = some place ∧ ReadsAt text (.name name) place
  | .binding loc _ _ => ∃ place, loc = some place ∧ ReadsAt text (.keyword .kwLet) place
  | .choice loc _ _ _ => ∃ place, loc = some place ∧ ReadsAt text (.keyword .kwIf) place
  | .loop loc _ _ => ∃ place, loc = some place ∧ ReadsAt text (.keyword .kwWhile) place
  | .call loc callee _ => ∃ place token, loc = some place ∧ callee.head.OpensWith token ∧
      ReadsAt text token place ∧ ∀ loc' inner arg, callee = .call loc' inner arg → loc' = loc
  | e => e.loc? = none

/-- A call begins with what it calls, so a call that it calls stands where it stands. -/
theorem LaidOut.loc_of_call {lexemes : List Lexeme} {loc loc' : Option Loc} {inner : Expr}
    {arg : Option Expr} {es : List Expr} {first : Lexeme} {rest : List Lexeme}
    (h : LaidOut lexemes (.call loc' inner arg :: es)) (hfirst : lexemes = first :: rest)
    (hloc : loc = some first.loc) : loc' = loc := by
  cases h with
  | node _ _ hstands =>
      obtain ⟨first', rest', hsplit, rfl, -⟩ := hstands
      rw [hsplit] at hfirst
      obtain ⟨rfl, -⟩ := List.cons.inj hfirst
      exact hloc.symm

/-- A node that lies over tokens stands in the text that reads these tokens. -/
theorem Expr.StandsAtFirst.standsIn {text : List Char} {e : Expr} {inner : List Lexeme}
    {opening : List Lexeme} (h : e.StandsAtFirst (opening ++ inner))
    (hopens : e.Opens (opening.map (·.token))) (hinner : LaidOut inner e.parts)
    (hreads : ∀ lexeme ∈ opening ++ inner, ReadsAt text lexeme.token lexeme.loc) :
    e.StandsIn text := by
  cases e with
  | ident | binding | choice | loop =>
      obtain ⟨⟨token, place⟩, rest, hsplit, hloc, more, hbegins⟩ := h
      have hread := hreads ⟨token, place⟩ (by simp [hsplit])
      cases hbegins
      exact ⟨place, hloc, hread⟩
  | bareCall | call =>
      obtain ⟨first, rest, hsplit, hloc, hbegins⟩ := h
      have hread := hreads first (by simp [hsplit])
      rw [Expr.head] at hbegins
      refine ⟨first.loc, first.token, hloc, hbegins, hread, ?_⟩
      -- the call has no token of its own, so its first token is that of its first part
      have hopening : opening = [] := by
        generalize htokens : opening.map (·.token) = tokens at hopens
        cases hopens
        exact List.map_eq_nil_iff.mp htokens
      subst hopening
      rintro loc' callee arg rfl
      exact hinner.loc_of_call hsplit hloc
  | _ => exact h

/-- If the text reads the tokens at their places, then the nodes of a tree that lies over them stand
in it. -/
theorem LaidOut.standsIn {text : List Char} {lexemes : List Lexeme} {es : List Expr}
    (h : LaidOut lexemes es)
    (hreads : ∀ lexeme ∈ lexemes, ReadsAt text lexeme.token lexeme.loc) :
    ∀ node ∈ es.flatMap Expr.preorder, node.StandsIn text := by
  induction h with
  | nil => exact fun _ hmem => absurd hmem List.not_mem_nil
  | node hopens hinner hfirst _ _ ihParts ihRest =>
      simp only [List.forall_mem_append] at hreads
      obtain ⟨⟨⟨hopening, hparts⟩, -⟩, hrest⟩ := hreads
      intro node hmem
      rw [List.flatMap_cons, Expr.preorder_eq] at hmem
      simp only [List.cons_append, List.mem_cons, List.mem_append] at hmem
      rcases hmem with rfl | hmem | hmem
      · exact hfirst.standsIn hopens hinner (List.forall_mem_append.mpr ⟨hopening, hparts⟩)
      · exact ihParts hparts node hmem
      · exact ihRest hrest node hmem

/-- The locations of a tree are those of the tokens that it is read from. -/
structure PlacesRight (source : String) (tree : Expr) : Prop where
  /-- The tokens of the source are those of the tree, but for semicolons in front of it. -/
  laid : ∃ semicolons lexemes, (scan source.toList).lexemes = semicolons ++ lexemes ∧
    (∀ lexeme ∈ semicolons, lexeme.token = .sign .semicolon) ∧ LaidOut lexemes [tree]
  /-- Each of these tokens is read in the source at its place. -/
  tokens : ∀ lexeme ∈ (scan source.toList).lexemes,
    ReadsAt source.toList lexeme.token lexeme.loc
  /-- The source reads a name where it stands, the keyword of a `let`, an `if` and a `while`, and at
  a call the first token of what is called in the end; so the calls in a chain of calls all stand
  there. -/
  nodes : ∀ node ∈ tree.preorder, node.StandsIn source.toList
  /-- The locations do not decrease from a node to its parts, nor from one part to the next. -/
  ordered : tree.places.Pairwise (· ≤ ·)

theorem scan_readsAt (text : List Char) :
    ∀ lexeme ∈ (scan text).lexemes, ReadsAt text lexeme.token lexeme.loc := by
  intro lexeme hmem
  obtain ⟨before, after, hsplit, hloc⟩ := scan_places text lexeme hmem
  exact ⟨before, after, hsplit, hloc.trans (Loc.start_after before)⟩

/-- The tree of a source lies over its tokens. -/
theorem parse_laidOut {goal : Reader.Goal} {source : String} {tree : Expr}
    (h : Reader.parse goal source = .ok tree) : ∃ semicolons lexemes,
      (scan source.toList).lexemes = semicolons ++ lexemes ∧
        (∀ lexeme ∈ semicolons, lexeme.token = .sign .semicolon) ∧
          LaidOut lexemes [tree] := by
  obtain ⟨-, hderives, -⟩ := Reader.parse_eq_ok_iff.mp h
  cases goal with
  | program =>
      obtain ⟨es, hsequence, rfl⟩ := hderives
      obtain ⟨semicolons, rest, hsplit, hsemicolons, hlaid⟩ := hsequence.laidOut
      exact ⟨semicolons, rest, hsplit, hsemicolons, .bare .program hlaid rfl⟩
  | expression =>
      obtain ⟨before, middle, after, hsplit, hbefore, hafter, hexpr⟩ := hderives
      refine ⟨before, middle ++ after, by rw [hsplit, List.append_assoc], hbefore, ?_⟩
      exact LaidOut.trail_semicolons hexpr.laidOut hafter

/-- **Locations are right**: what is read carries the places of the tokens that it is read from. -/
theorem parse_places {goal : Reader.Goal} {source : String} {tree : Expr}
    (h : Reader.parse goal source = .ok tree) : PlacesRight source tree := by
  obtain ⟨semicolons, lexemes, hsplit, hsemicolons, hlaid⟩ := parse_laidOut h
  have hreads := scan_readsAt source.toList
  have hordered := scan_ordered source.toList
  rw [hsplit] at hreads hordered
  refine ⟨⟨semicolons, lexemes, hsplit, hsemicolons, hlaid⟩, scan_readsAt _, ?_, ?_⟩
  · simpa using hlaid.standsIn (List.forall_mem_append.mp hreads).2
  · simpa using hlaid.places_ordered (List.pairwise_append.mp hordered).2.1

/-- A string goes on in the second line, and a comment hides the rest of that. In the third line a
call with two arguments is read as a call of a call, and both stand where their function does. -/
theorem parse_places_lines : ∃ tree,
    Reader.parse .program ";let s = \"a\nb\" # let\n  while f(x, y) {g}" = .ok tree ∧
      PlacesRight ";let s = \"a\nb\" # let\n  while f(x, y) {g}" tree ∧
      tree.places = [⟨1, 2⟩, ⟨3, 3⟩, ⟨3, 9⟩, ⟨3, 9⟩, ⟨3, 9⟩, ⟨3, 11⟩,
        ⟨3, 14⟩, ⟨3, 18⟩] := by
  have hparse : Reader.parse .program ";let s = \"a\nb\" # let\n  while f(x, y) {g}"
      = .ok (.program none [.binding (some ⟨1, 2⟩) "s" (.str none "a\nb"),
        .loop (some ⟨3, 3⟩) (.call (some ⟨3, 9⟩)
          (.call (some ⟨3, 9⟩) (.ident (some ⟨3, 9⟩) "f")
            (some (.ident (some ⟨3, 11⟩) "x")))
          (some (.ident (some ⟨3, 14⟩) "y"))) (.block none [.ident (some ⟨3, 18⟩) "g"])]) :=
            by rfl
  exact ⟨_, hparse, parse_places hparse, by rfl⟩

end ExprLang
