import ExprLang.Expr

/-!
# Equality of expressions

Two trees agree when they have the same constructors and the same contents, locations aside. What
this means for functions is the caller's to choose (`FnRule`): two functions that were built apart
never agree, a function agrees with itself, and a reader that checks its own output compares them by
shape. The language's own `eq` is stricter: no function equals anything (`valuesEqual`).
-/

namespace ExprLang

/-- When two functions, or two built-ins, agree. -/
inductive FnRule where
  /-- Two functions that were built apart never agree. -/
  | never
  /-- Every function is compared with itself, so they always agree. -/
  | always
  /-- Functions agree when their parts do. -/
  | byShape
deriving DecidableEq

mutual

/-- Whether two trees agree, locations aside. -/
def agrees (rule : FnRule) : Expr → Expr → Bool
  | .int _ a, .int _ b => a == b
  | .str _ a, .str _ b => a == b
  | .bool _ a, .bool _ b => a == b
  | .null, .null => true
  | .endOfProgram, .endOfProgram => true
  | .list _ as, .list _ bs => agreesAll rule as bs
  | .ident _ a, .ident _ b => a == b
  | .binding _ a v, .binding _ b w => a == b && agrees rule v w
  | .choice _ c t e, .choice _ c' t' e' => agrees rule c c' && agrees rule t t' && agrees rule e e'
  | .loop _ c b, .loop _ c' b' => agrees rule c c' && agrees rule b b'
  | .block _ as, .block _ bs => agreesAll rule as bs
  | .program _ as, .program _ bs => agreesAll rule as bs
  | .fn _ p b, .fn _ p' b' =>
      match rule with
      | .never => false
      | .always => true
      | .byShape => p == p' && agrees rule b b'
  | .call _ f none, .call _ g none => agrees rule f g
  | .call _ f (some a), .call _ g (some b) => agrees rule f g && agrees rule a b
  | .builtin _ n m as, .builtin _ n' m' bs =>
      match rule with
      | .never => false
      | .always => true
      | .byShape => n == n' && m == m' && agreesAll rule as bs
  | _, _ => false

/-- Whether two lists agree member by member. -/
def agreesAll (rule : FnRule) : List Expr → List Expr → Bool
  | [], [] => true
  | a :: as, b :: bs => agrees rule a b && agreesAll rule as bs
  | _, _ => false

end

mutual

/-- Equality of values as the language sees it: structural on data, and false for any function. -/
def valuesEqual (rule : FnRule) : Expr → Expr → Bool
  | .fn .., _ | .builtin .., _ => false
  | .list _ as, .list _ bs => valuesAllEqual rule as bs
  | a, b => agrees rule a b

/-- Equality of two lists of values, member by member. -/
def valuesAllEqual (rule : FnRule) : List Expr → List Expr → Bool
  | [], [] => true
  | a :: as, b :: bs => valuesEqual rule a b && valuesAllEqual rule as bs
  | _, _ => false

end

end ExprLang
