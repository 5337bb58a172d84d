import Mathlib.Data.List.Basic
import Mathlib.Order.Defs.Unbundled
import Mathlib.Tactic.Ring
import ExprLang.Proofs.Operation.Outcome

/-!
# Arithmetic is exact or a fault

The operations on integers give the result of exact arithmetic wherever it has a 64-bit form, and
are an arithmetic fault where it has none or where the divisor is zero; nothing ever wraps
(`integer_arithmetic_exact`). Division, remainder, root and comparison cannot leave the range, so
nothing is checked after them. An operand that is no integer is told before any value is looked at,
the leftmost first.

The root is found bit by bit. What is kept from bit to bit is that the root found so far is not too
large and would be too large with one more of the bit last decided (`sqrtBits_spec`).
-/

namespace ExprLang

/-- The integer that an operand is, if it is one. -/
def Expr.integer? : Expr → Option Nat
  | .int _ word => some word.toNat
  | _ => none

namespace Operation

/-- The operations on integers. -/
def arithmetic : List Operation := [add, sub, mul, div, mod, inc, sqrt, lt, gt]

/-- An operation gives the exact result wherever it has a 64-bit form, and it is an arithmetic fault
exactly where there is a result that has none. -/
structure IsExact (operation : Operation) (args : List Expr) (result? : Option Int) : Prop where
  gives : ∀ value, operation.Gives args value ↔
    ∃ word : UInt64, value = .int none word ∧ result? = some ↑word.toNat
  faults : operation.Faults args .arithmeticFault ↔
    ∃ result, result? = some result ∧ (result < 0 ∨ maxInteger < result)

end Operation

/-- The laws of the operations on integers, for operands of every kind. -/
structure ExactArithmetic : Prop where
  sum : ∀ a b : Expr, Operation.add.IsExact [a, b] do
    let x ← a.integer?
    let y ← b.integer?
    return (x + y : Int)
  difference : ∀ a b : Expr, Operation.sub.IsExact [a, b] do
    let x ← a.integer?
    let y ← b.integer?
    return (x - y : Int)
  product : ∀ a b : Expr, Operation.mul.IsExact [a, b] do
    let x ← a.integer?
    let y ← b.integer?
    return (x * y : Int)
  successor : ∀ a : Expr, Operation.inc.IsExact [a] do
    let x ← a.integer?
    return (x + 1 : Int)
  /-- A quotient and its remainder are given together, and determine the dividend. -/
  quotient : ∀ {a b : Expr} {x y : Nat}, a.integer? = some x → b.integer? = some y → 0 < y →
    ∃ q r : UInt64, Operation.div.Gives [a, b] (.int none q) ∧
      Operation.mod.Gives [a, b] (.int none r) ∧
      x = q.toNat * y + r.toNat ∧ r.toNat < y
  /-- The only fault of a division of integers is a zero divisor. -/
  zeroDivisor : ∀ a b : Expr, ∀ operation ∈ [Operation.div, .mod],
    operation.Faults [a, b] .arithmeticFault ↔ a.integer?.isSome ∧ b.integer? = some 0
  /-- A root is the one whole number whose square is the last not above the operand; it can be
  squared. -/
  root : ∀ {a : Expr} {n : Nat}, a.integer? = some n → ∃ s square : UInt64,
    Operation.sqrt.Gives [a] (.int none s) ∧
      s.toNat * s.toNat ≤ n ∧ n < (s.toNat + 1) * (s.toNat + 1) ∧
      (∀ t : Nat, t * t ≤ n → n < (t + 1) * (t + 1) → t = s.toNat) ∧
      Operation.mul.Gives [.int none s, .int none s] (.int none square)
  /-- Integers are compared as the numbers that they are. -/
  less : ∀ {a b : Expr} {x y : Nat}, a.integer? = some x → b.integer? = some y →
    Operation.lt.Gives [a, b] (.bool none (x < y))
  order : IsStrictTotalOrder UInt64 fun x y =>
    Operation.lt.Gives [.int none x, .int none y] (.bool none true)
  converse : ∀ (a b value : Expr), Operation.gt.Gives [a, b] value ↔
    Operation.lt.Gives [b, a] value
  /-- The leftmost operand that is no integer is told as a type mismatch, whatever the others
  are. -/
  mistyped : ∀ operation ∈ Operation.arithmetic, ∀ args : List Expr,
    args.length = operation.arity →
    ∀ found, args.find? (·.integer?.isNone) = some found →
      operation.EndsIn args (.wrongOperand operation.name .integer found) ∧
        operation.Faults args .typeMismatch
  /-- Every integer that is given is in the range. -/
  inRange : ∀ operation ∈ Operation.arithmetic, ∀ (args : List Expr) (value : Expr) (n : Nat),
    operation.Gives args value → value.integer? = some n → n ≤ maxInteger

/-! ## Operands -/

/-- An operand is an integer and is taken as that, or it is told that it is none. -/
theorem integerOperand_cases (operation : String) (e : Expr) :
    (∃ word, e.integer? = some word.toNat ∧ integerOperand operation e = .ok word) ∨
      (e.integer? = none ∧
        integerOperand operation e = .error (.ofFault (.wrongOperand operation .integer e))) := by
  cases e with
  | int loc word => exact .inl ⟨word, rfl, rfl⟩
  | _ => exact .inr ⟨rfl, rfl⟩

/-- One operand is an integer, or it is told. -/
theorem onInteger_cases (operation : String) (g : UInt64 → Except Failure Expr) (a : Expr) :
    (∃ x, a.integer? = some x.toNat ∧ (integerOperand operation a >>= g) = g x) ∨
      (a.integer? = none ∧
        (integerOperand operation a >>= g)
          = .error (.ofFault (.wrongOperand operation .integer a))) := by
  obtain ⟨x, hx, hoperand⟩ | ⟨hnone, hoperand⟩ := integerOperand_cases operation a
  · exact .inl ⟨x, hx, by rw [hoperand]; rfl⟩
  · exact .inr ⟨hnone, by rw [hoperand]; rfl⟩

/-- Two operands are both integers, or the leftmost that is none is told. -/
theorem onIntegers_cases (operation : String) (f : UInt64 → UInt64 → Except Failure Expr)
    (a b : Expr) : (∃ x y : UInt64, a.integer? = some x.toNat ∧ b.integer? = some y.toNat ∧
      onIntegers operation f a b = f x y) ∨
    (∃ found, [a, b].find? (·.integer?.isNone) = some found ∧
      (a.integer? = none ∨ b.integer? = none) ∧
      onIntegers operation f a b = .error (.ofFault (.wrongOperand operation .integer found))) := by
  obtain ⟨x, hx, hleft⟩ | ⟨hnone, hleft⟩ := integerOperand_cases operation a
  · obtain ⟨y, hy, hright⟩ | ⟨hnone, hright⟩ := integerOperand_cases operation b
    · exact .inl ⟨x, y, hx, hy, by rw [onIntegers, hleft, hright]; rfl⟩
    · exact .inr ⟨b, by simp [hx, hnone], .inr hnone, by rw [onIntegers, hleft, hright]; rfl⟩
  · exact .inr ⟨a, by simp [hnone], .inl hnone, by rw [onIntegers, hleft]; rfl⟩

theorem Expr.exists_word {e : Expr} {n : Nat} (h : e.integer? = some n) :
    ∃ word : UInt64, word.toNat = n := by
  unfold integer? at h
  split at h
  next word => exact ⟨word, Option.some.inj h⟩
  next => cases h

/-! ## Exact results -/

namespace Operation

variable {operation : Operation} {args : List Expr}

/-- An exact result, or a fault if it has no 64-bit form. -/
theorem isExact_of_exactly {result : Int}
    (h : operation.ComesTo args (exactly operation.name result)) :
    operation.IsExact args (some result) := by
  have hgives := h.gives_iff
  have hfaults := h.faults_iff .arithmeticFault
  cases hword : toWord? result with
  | some word =>
      have hresult := toWord?_eq_some_iff.mp hword
      have hlt := word.toNat_lt
      simp only [exactly, hword] at hgives hfaults
      refine ⟨fun value => (hgives value).trans ⟨?_, ?_⟩, hfaults.trans ⟨?_, ?_⟩⟩
      · rintro ⟨⟩
        exact ⟨word, rfl, congrArg some hresult⟩
      · rintro ⟨other, rfl, hother⟩
        have hsame := toWord?_eq_some_iff.mpr (Option.some.inj hother)
        rw [Option.some.inj (hword.symm.trans hsame)]
      · exact nofun
      · rintro ⟨_, ⟨⟩, hout⟩
        have hinside := toWord?_eq_none_iff.mpr hout
        exact absurd (hword.symm.trans hinside) nofun
  | none =>
      have hout := toWord?_eq_none_iff.mp hword
      simp only [exactly, hword] at hgives hfaults
      refine ⟨fun value => (hgives value).trans ⟨nofun, ?_⟩, hfaults.trans ⟨?_, ?_⟩⟩
      · rintro ⟨other, -, hother⟩
        have hsame := toWord?_eq_some_iff.mpr (Option.some.inj hother)
        exact absurd (hword.symm.trans hsame) nofun
      · intro
        exact ⟨result, rfl, hout⟩
      · intro
        exact ⟨_, rfl, rfl⟩

/-- Where an operand is no integer, there is neither a result nor an arithmetic fault. -/
theorem isExact_of_mistyped {found : Expr}
    (h : operation.EndsIn args (.wrongOperand operation.name .integer found)) :
    operation.IsExact args none := by
  refine ⟨fun value => (h.gives_iff value).trans ⟨nofun, ?_⟩,
    (h.faults_iff _).trans ⟨?_, ?_⟩⟩
  · rintro ⟨_, _, ⟨⟩⟩
  · rintro ⟨_, ⟨⟩, hclass⟩
    exact absurd hclass nofun
  · rintro ⟨_, ⟨⟩, _⟩

/-- An operation that is exact on two integers. -/
theorem isExact_onIntegers {f : Nat → Nat → Int}
    (h : operation.meaning = .ofTwo (onIntegers operation.name fun x y =>
      exactly operation.name (f x.toNat y.toNat))) (a b : Expr) :
    operation.IsExact [a, b] do
      let x ← a.integer?
      let y ← b.integer?
      return f x y := by
  have hcomes := comesTo_ofTwo h (a := a) (b := b)
  obtain ⟨x, y, hx, hy, hresult⟩ | ⟨found, -, hnone, hresult⟩ :=
    onIntegers_cases operation.name _ a b
  · rw [hresult] at hcomes
    rw [hx, hy]
    exact isExact_of_exactly hcomes
  · rw [hresult] at hcomes
    have hnothing : (do let x ← a.integer?; let y ← b.integer?; return f x y) = none := by
      rcases hnone with hnone | hnone
      · rw [hnone]
        rfl
      · rw [hnone]
        cases a.integer? <;> rfl
    rw [hnothing]
    exact isExact_of_mistyped hcomes

end Operation

/-! ## Roots -/

theorem sqrtBits_succ (n bits root : Nat) : sqrtBits n (bits + 1) root
    = if (root + 2 ^ bits) * (root + 2 ^ bits) ≤ n then sqrtBits n bits (root + 2 ^ bits)
      else sqrtBits n bits root := rfl

/-- The bits that are still open decide between the numbers from the root found so far on. -/
theorem sqrtBits_spec {n : Nat} (bits root : Nat) (hsmall : root * root ≤ n)
    (hlarge : n < (root + 2 ^ bits) * (root + 2 ^ bits)) :
    sqrtBits n bits root * sqrtBits n bits root ≤ n ∧
      n < (sqrtBits n bits root + 1) * (sqrtBits n bits root + 1) := by
  induction bits generalizing root with
  | zero => exact ⟨hsmall, hlarge⟩
  | succ bits ih =>
      have hdouble : root + 2 ^ (bits + 1) = root + 2 ^ bits + 2 ^ bits := by ring
      rw [hdouble] at hlarge
      rw [sqrtBits_succ]
      split
      next hbit => exact ih _ hbit hlarge
      next hbit => exact ih _ hsmall (Nat.not_le.mp hbit)

/-- A whole number is the root if its square is the last not above the operand. -/
theorem root_unique {n s t : Nat} (hs : s * s ≤ n) (hs' : n < (s + 1) * (s + 1))
    (ht : t * t ≤ n) (ht' : n < (t + 1) * (t + 1)) : t = s := by
  have hts : t < s + 1 := Nat.mul_self_lt_mul_self_iff.mp (Nat.lt_of_le_of_lt ht hs')
  have hst : s < t + 1 := Nat.mul_self_lt_mul_self_iff.mp (Nat.lt_of_le_of_lt hs ht')
  omega

theorem floorSqrt_spec (n : UInt64) : (floorSqrt n).toNat * (floorSqrt n).toNat ≤ n.toNat ∧
    n.toNat < ((floorSqrt n).toNat + 1) * ((floorSqrt n).toNat + 1) := by
  have hn : n.toNat < 2 ^ 64 := n.toNat_lt
  obtain ⟨hsmall, hlarge⟩ := sqrtBits_spec 32 0 (Nat.zero_le n.toNat) (by omega)
  have hfits : sqrtBits n.toNat 32 0 < 2 ^ 32 := Nat.mul_self_lt_mul_self_iff.mp (by omega)
  have hword : (floorSqrt n).toNat = sqrtBits n.toNat 32 0 :=
    UInt64.toNat_ofNat_of_lt' (by simp [UInt64.size]; omega)
  rw [hword]
  exact ⟨hsmall, hlarge⟩

/-! ## The laws -/

namespace Operation

variable {operation : Operation} {f : UInt64 → UInt64 → Except Failure Expr}

/-- A value is given for two integers only. -/
theorem gives_onIntegers_iff (h : operation.meaning = .ofTwo (onIntegers operation.name f))
    (a b value : Expr) : operation.Gives [a, b] value ↔
      ∃ x y : UInt64, a.integer? = some x.toNat ∧ b.integer? = some y.toNat ∧
        f x y = .ok value := by
  rw [(comesTo_ofTwo h).gives_iff]
  obtain ⟨x, y, hx, hy, hresult⟩ | ⟨found, -, hnone, hresult⟩ :=
    onIntegers_cases operation.name f a b
  · rw [hresult, hx, hy]
    constructor
    · intro hvalue
      exact ⟨x, y, rfl, rfl, hvalue⟩
    · rintro ⟨x', y', hx', hy', hvalue⟩
      rwa [UInt64.toNat_inj.mp (Option.some.inj hx'), UInt64.toNat_inj.mp (Option.some.inj hy')]
  · rw [hresult]
    refine iff_of_false nofun ?_
    rintro ⟨x, y, hx, hy, -⟩
    simp [hx, hy] at hnone

/-- The only arithmetic fault of a quotient or a remainder is a zero divisor. -/
theorem faults_onDivisor_iff {f : UInt64 → UInt64 → UInt64}
    (h : operation.meaning = .ofTwo (onDivisor operation.name f)) (a b : Expr) :
    operation.Faults [a, b] .arithmeticFault ↔ a.integer?.isSome ∧ b.integer? = some 0 := by
  rw [(comesTo_ofTwo h).faults_iff, onDivisor]
  obtain ⟨x, y, hx, hy, hresult⟩ | ⟨found, -, hnone, hresult⟩ :=
    onIntegers_cases operation.name _ a b
  · rw [hresult, hx, hy]
    by_cases hzero : y = 0
    · subst hzero
      exact iff_of_true ⟨_, rfl, rfl⟩ ⟨rfl, rfl⟩
    · have hne : y.toNat ≠ 0 := fun heq => hzero (UInt64.toNat_inj.mp heq)
      rw [if_neg hzero]
      exact iff_of_false (fun ⟨_, heq, _⟩ => absurd heq nofun) fun hboth =>
        hne (Option.some.inj hboth.2)
  · rw [hresult]
    refine iff_of_false ?_ ?_
    · rintro ⟨_, ⟨⟩, hclass⟩
      exact absurd hclass nofun
    · rintro ⟨hsome, hright⟩
      rcases hnone with hnone | hnone <;> simp [hnone] at hsome hright

theorem gives_lt_iff (x y : UInt64) :
    lt.Gives [.int none x, .int none y] (.bool none true) ↔ x.toNat < y.toNat := by
  rw [(comesTo_ofTwo rfl).gives_iff]
  simp [onIntegers, integerOperand, bind, Except.bind, UInt64.lt_iff_toNat_lt]

/-- Integers in the order of their numbers. -/
theorem isStrictTotalOrder_lt :
    IsStrictTotalOrder UInt64 fun x y => lt.Gives [.int none x, .int none y] (.bool none true) where
  irrefl x := by
    rw [gives_lt_iff]
    exact Nat.lt_irrefl _
  trans x y z := by
    simp only [gives_lt_iff]
    exact Nat.lt_trans
  trichotomous x y := by
    simp only [gives_lt_iff]
    intro hxy hyx
    exact UInt64.toNat_inj.mp (by omega)

/-- The operations on integers ask for their operands before they do anything else. -/
theorem meaning_of_arithmetic (h : operation ∈ arithmetic) :
    (∃ g : UInt64 → Except Failure Expr,
      operation.meaning = .ofOne fun a => integerOperand operation.name a >>= g) ∨
    ∃ f : UInt64 → UInt64 → Except Failure Expr,
      operation.meaning = .ofTwo (onIntegers operation.name f) := by
  simp only [arithmetic, List.mem_cons, List.not_mem_nil, or_false] at h
  rcases h with rfl | rfl | rfl | rfl | rfl | rfl | rfl | rfl | rfl
  case inr.inr.inr.inr.inr.inl | inr.inr.inr.inr.inr.inr.inl => exact .inl ⟨_, rfl⟩
  all_goals exact .inr ⟨_, rfl⟩

/-- The operand that is told is the leftmost that is no integer. -/
theorem endsIn_wrongOperand (h : operation ∈ arithmetic) {args : List Expr}
    (hcount : args.length = operation.arity) {found : Expr}
    (hfound : args.find? (·.integer?.isNone) = some found) :
    operation.EndsIn args (.wrongOperand operation.name .integer found) := by
  obtain ⟨g, hmeaning⟩ | ⟨f, hmeaning⟩ := meaning_of_arithmetic h
  · rw [arity, hmeaning] at hcount
    obtain ⟨a, rfl⟩ := List.length_eq_one_iff.mp hcount
    have hcomes := comesTo_ofOne hmeaning (a := a)
    obtain ⟨x, hx, -⟩ | ⟨hnone, hresult⟩ := onInteger_cases operation.name g a
    · simp [hx] at hfound
    · obtain rfl : a = found := by simpa [hnone] using hfound
      rwa [hresult] at hcomes
  · rw [arity, hmeaning] at hcount
    obtain ⟨a, b, rfl⟩ := List.length_eq_two.mp hcount
    have hcomes := comesTo_ofTwo hmeaning (a := a) (b := b)
    obtain ⟨x, y, hx, hy, -⟩ | ⟨other, hother, -, hresult⟩ :=
      onIntegers_cases operation.name f a b
    · simp [hx, hy] at hfound
    · obtain rfl := Option.some.inj (hfound.symm.trans hother)
      rwa [hresult] at hcomes

end Operation

/-- **Arithmetic on 64-bit integers is exact or a fault.** -/
theorem integer_arithmetic_exact : ExactArithmetic where
  sum := Operation.isExact_onIntegers (f := fun x y => x + y) rfl
  difference := Operation.isExact_onIntegers (f := fun x y => x - y) rfl
  product := Operation.isExact_onIntegers (f := fun x y => x * y) rfl
  successor a := by
    have hcomes := @Operation.comesTo_ofOne .inc a _ rfl
    obtain ⟨x, hx, hresult⟩ | ⟨hnone, hresult⟩ :=
      onInteger_cases "inc" (fun x => exactly "inc" (x.toNat + 1)) a
    · rw [hresult] at hcomes
      rw [hx]
      exact Operation.isExact_of_exactly hcomes
    · rw [hresult] at hcomes
      rw [hnone]
      exact Operation.isExact_of_mistyped hcomes
  quotient := by
    intro a b x y ha hb hpos
    obtain ⟨v, rfl⟩ := Expr.exists_word ha
    obtain ⟨w, rfl⟩ := Expr.exists_word hb
    have hne : w ≠ 0 := by
      rintro rfl
      exact absurd hpos (Nat.lt_irrefl 0)
    refine ⟨v / w, v % w, ?_, ?_, ?_, ?_⟩
    · exact (Operation.gives_onIntegers_iff rfl a b _).mpr ⟨v, w, ha, hb, if_neg hne⟩
    · exact (Operation.gives_onIntegers_iff rfl a b _).mpr ⟨v, w, ha, hb, if_neg hne⟩
    · rw [UInt64.toNat_div, UInt64.toNat_mod, Nat.div_add_mod']
    · rw [UInt64.toNat_mod]
      exact Nat.mod_lt _ hpos
  zeroDivisor a b := by
    intro operation hmem
    simp only [List.mem_cons, List.not_mem_nil, or_false] at hmem
    rcases hmem with rfl | rfl
    · exact Operation.faults_onDivisor_iff rfl a b
    · exact Operation.faults_onDivisor_iff rfl a b
  root := by
    intro a n ha
    obtain ⟨v, rfl⟩ := Expr.exists_word ha
    obtain ⟨hsmall, hlarge⟩ := floorSqrt_spec v
    have hsquare : (floorSqrt v).toNat * (floorSqrt v).toNat < 2 ^ 64 :=
      Nat.lt_of_le_of_lt hsmall v.toNat_lt
    refine ⟨floorSqrt v, floorSqrt v * floorSqrt v, ?_, hsmall, hlarge, ?_, ?_⟩
    · have hcomes := @Operation.comesTo_ofOne .sqrt a _ rfl
      obtain ⟨x, hx, hresult⟩ | ⟨hnone, -⟩ :=
        onInteger_cases "sqrt" (fun x => return .int none (floorSqrt x)) a
      · obtain rfl := UInt64.toNat_inj.mp (Option.some.inj (hx.symm.trans ha))
        rwa [hresult] at hcomes
      · exact absurd (hnone.symm.trans ha) nofun
    · intro t ht ht'
      exact root_unique hsmall hlarge ht ht'
    · refine ((Operation.isExact_onIntegers (f := fun x y => x * y) rfl _ _).gives _).mpr
        ⟨_, rfl, ?_⟩
      rw [UInt64.toNat_mul, Nat.mod_eq_of_lt hsquare]
      rfl
  less := by
    intro a b x y ha hb
    obtain ⟨v, rfl⟩ := Expr.exists_word ha
    obtain ⟨w, rfl⟩ := Expr.exists_word hb
    exact (Operation.gives_onIntegers_iff rfl a b _).mpr
      ⟨v, w, ha, hb, by simp only [UInt64.lt_iff_toNat_lt]⟩
  order := Operation.isStrictTotalOrder_lt
  converse a b value := by
    rw [Operation.gives_onIntegers_iff rfl, Operation.gives_onIntegers_iff rfl]
    constructor
    · rintro ⟨x, y, hx, hy, hvalue⟩
      exact ⟨y, x, hy, hx, hvalue⟩
    · rintro ⟨y, x, hy, hx, hvalue⟩
      exact ⟨x, y, hx, hy, hvalue⟩
  mistyped := by
    intro operation harith args hcount found hfound
    have hends := Operation.endsIn_wrongOperand harith hcount hfound
    exact ⟨hends, _, hends, rfl⟩
  inRange := by
    intro operation harith args value n hgives hn
    obtain ⟨word, rfl⟩ := Expr.exists_word hn
    exact Nat.le_of_lt_succ word.toNat_lt

end ExprLang
