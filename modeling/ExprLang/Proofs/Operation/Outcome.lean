import ExprLang.Proofs.Operation.Failures

/-!
# What an operation comes to

An operation that only computes comes to the same result on every console and leaves the console as
it is, so what it gives and how it fails can be read off its meaning (`ComesTo.gives_iff`,
`ComesTo.faults_iff`).
-/

namespace ExprLang

/-! ## Words -/

theorem toWord?_eq_some_iff {value : Int} {word : UInt64} :
    toWord? value = some word ↔ value = word.toNat := by
  have hword : word.toNat < 2 ^ 64 := word.toNat_lt
  rw [toWord?]
  split
  next hrange =>
      have hvalue : (UInt64.ofNat value.toNat).toNat = value.toNat :=
        UInt64.toNat_ofNat_of_lt' (by simp only [maxInteger, UInt64.size] at *; omega)
      constructor
      · rintro ⟨⟩
        omega
      · rintro rfl
        exact congrArg some (UInt64.toNat_inj.mp (by simp))
  next hrange =>
      refine iff_of_false (Option.some_ne_none word).symm ?_
      rintro rfl
      simp only [maxInteger] at hrange
      omega

theorem toWord?_eq_none_iff {value : Int} :
    toWord? value = none ↔ value < 0 ∨ maxInteger < value := by
  simp only [toWord?, ite_eq_right_iff, reduceCtorEq, imp_false]
  omega

namespace Operation

/-! ## Results -/

/-- Run on these arguments, an operation comes to this result and leaves the console as it is. -/
def ComesTo (operation : Operation) (args : List Expr) (result : Except Failure Expr) : Prop :=
  ∀ console, runBuiltin operation.name args console = ofExcept result console

/-- An operation gives a value. -/
def Gives (operation : Operation) (args : List Expr) (value : Expr) : Prop :=
  operation.ComesTo args (.ok value)

/-- An operation ends in a fault. -/
def EndsIn (operation : Operation) (args : List Expr) (cause : Fault) : Prop :=
  operation.ComesTo args (.error (.ofFault cause))

/-- An operation ends in a fault of a class. -/
def Faults (operation : Operation) (args : List Expr) (kind : FaultClass) : Prop :=
  ∃ cause : Fault, operation.EndsIn args cause ∧ cause.faultClass = kind

variable {operation : Operation} {a b : Expr} {args : List Expr}
  {result result' : Except Failure Expr}

theorem comesTo_ofOne {f : Expr → Except Failure Expr} (h : operation.meaning = .ofOne f) :
    operation.ComesTo [a] (f a) := by
  intro console
  rw [runBuiltin, ofName?_name]
  simp only [run, h]

theorem comesTo_ofTwo {f : Expr → Expr → Except Failure Expr}
    (h : operation.meaning = .ofTwo f) : operation.ComesTo [a, b] (f a b) := by
  intro console
  rw [runBuiltin, ofName?_name]
  simp only [run, h]

/-- There is no more than one result. -/
theorem ComesTo.unique (h : operation.ComesTo args result) (h' : operation.ComesTo args result') :
    result = result' := by
  have heq := (h (.ofInput "")).symm.trans (h' (.ofInput ""))
  cases result <;> cases result' <;> simp_all [ofExcept]

theorem ComesTo.gives_iff (h : operation.ComesTo args result) (value : Expr) :
    operation.Gives args value ↔ result = .ok value := by
  constructor
  · intro hgives
    exact h.unique hgives
  · rintro rfl
    exact h

theorem ComesTo.faults_iff (h : operation.ComesTo args result) (kind : FaultClass) :
    operation.Faults args kind ↔
      ∃ cause : Fault, result = .error (.ofFault cause) ∧ cause.faultClass = kind := by
  constructor
  · rintro ⟨cause, hends, hkind⟩
    exact ⟨cause, h.unique hends, hkind⟩
  · rintro ⟨cause, rfl, hkind⟩
    exact ⟨cause, h, hkind⟩

end Operation

end ExprLang
