import ExprLang.Operation

/-!
# How operations fail

An operation that is run on as many arguments as it takes fails only with a fault of its own, with a
numeral that has too many digits to be read, or with a list that is too long for its length to be an
integer. On any other number of arguments it does nothing but tell its signature, and a name of no
operation may be that of an attribute (`runBuiltin_fails`). Only one operation reads numerals, and
only one asks for the length of a list (`Operation.Fails`).
-/

namespace ExprLang

/-! ## Kinds of failure -/

/-- The failures that a run may end with by design: a fault of the program, calls that are nested
too deeply, and a numeral with too many digits to be read. -/
inductive Failure.Foreseen : Failure → Prop
  | fault (cause : Fault) (loc : Option Loc) : Foreseen (.fault cause loc)
  | tooDeep : Foreseen .tooDeep
  | digitLimit {digits : Nat} : Text.maxDigits < digits → Foreseen (.digitLimit digits)

/-- The failure to give the length of a list as an integer. -/
inductive Failure.OfLength : Failure → Prop
  | tooLong {length : Nat} : maxInteger < length → OfLength (.malformed (.integerRange length))

/-- The failure of an operation to be run on a number of arguments that it does not take. -/
inductive Failure.Miscounted : Failure → Prop
  | argumentCount {operation : Operation} {given : Nat} : given ≠ operation.arity →
      Miscounted (.argumentCount operation.signature given)

/-- The failure of a name that is one of an attribute, not of an operation. -/
inductive Failure.OfHost : Failure → Prop
  | foreign (name : String) (found : Attribute) : OfHost (.foreign name found)

/-- A failure that can be told beforehand of an operation that gets the arguments that it takes. -/
def Failure.OfOperation (failure : Failure) : Prop :=
  failure.Foreseen ∨ failure.OfLength

/-- The faults that operations find. The others are found by the evaluation of a tree. -/
def Fault.Operational : Fault → Prop
  | .unknownIdentifier _ | .conditionNotBoolean .. | .loopLimit => False
  | .unwantedArgument _ | .missingArgument .. | .missingOperand _ | .notCallable _ => False
  | _ => True

/-- A fault that an operation finds. It has no place yet. -/
inductive Failure.Found : Failure → Prop
  | fault {cause : Fault} : cause.Operational → Found (.ofFault cause)

/-- A numeral, perhaps with a plus sign before it, of more digits than can be read. -/
def IsOverlongNumeral (text : List Char) : Prop :=
  ∃ digits, (text = digits ∨ text = '+' :: digits) ∧ digits ≠ [] ∧
    (∀ c ∈ digits, c.isDigit = true) ∧
    Text.maxDigits < digits.length

/-- How an operation fails on some arguments that it takes. -/
inductive Operation.Fails : Operation → List Expr → Failure → Prop
  | found {operation args failure} : failure.Found → Fails operation args failure
  | digitLimit {loc text digits} : IsOverlongNumeral text.toList → Text.maxDigits < digits →
      Fails .strToInt [.str loc text] (.digitLimit digits)
  | tooLong {loc items} : maxInteger < items.length →
      Fails .listLen [.list loc items] (.malformed (.integerRange items.length))

theorem Operation.Fails.ofOperation {operation : Operation} {args : List Expr} {failure : Failure}
    (h : operation.Fails args failure) : failure.OfOperation := by
  cases h with
  | found hfound =>
      cases hfound with
      | fault => exact .inl (.fault _ _)
  | digitLimit _ hmany => exact .inl (.digitLimit hmany)
  | tooLong hlong => exact .inr (.tooLong hlong)

/-! ## Results -/

/-- A result is a failure as told, if it is a failure. -/
def Raises {α : Type} (F : Failure → Prop) (result : Except Failure α) : Prop :=
  ∀ failure, result = .error failure → F failure

section
variable {α β : Type}

theorem Raises.ok {F : Failure → Prop} (x : α) : Raises F (.ok x) := nofun

theorem Raises.error {F : Failure → Prop} {failure : Failure} (h : F failure) :
    Raises F (.error failure : Except Failure α) := by
  rintro _ ⟨⟩
  exact h

theorem Raises.bind {F : Failure → Prop} {result : Except Failure α}
    {f : α → Except Failure β} (h : Raises F result) (hf : ∀ x, Raises F (f x)) :
    Raises F (result >>= f) := by
  cases result with
  | ok x => exact hf x
  | error failure => exact Raises.error (h failure rfl)

/-- A fault that is found is one of the ways in which any operation may fail. -/
theorem Raises.fails {operation : Operation} {args : List Expr} {result : Except Failure α}
    (h : Raises Failure.Found result) : Raises (operation.Fails args) result :=
  fun failure hresult => .found (h failure hresult)

theorem raises_fault {cause : Fault} (h : cause.Operational) :
    Raises Failure.Found (.error (.ofFault cause) : Except Failure α) :=
  Raises.error (.fault h)

theorem raises_integerOperand (operation : String) (e : Expr) :
    Raises Failure.Found (integerOperand operation e) := by
  cases e with
  | int loc value => exact Raises.ok _
  | _ => exact raises_fault trivial

theorem raises_booleanOperand (operation : String) (e : Expr) :
    Raises Failure.Found (booleanOperand operation e) := by
  cases e with
  | bool loc value => exact Raises.ok _
  | _ => exact raises_fault trivial

theorem raises_stringOperand (operation : String) (e : Expr) :
    Raises Failure.Found (stringOperand operation e) := by
  cases e with
  | str loc text => exact Raises.ok _
  | _ => exact raises_fault trivial

theorem raises_listOperand (operation : String) (e : Expr) :
    Raises Failure.Found (listOperand operation e) := by
  cases e with
  | list loc items => exact Raises.ok _
  | _ => exact raises_fault trivial

theorem raises_exactly (operation : String) (result : Int) :
    Raises Failure.Found (exactly operation result) := by
  unfold exactly
  cases toWord? result with
  | some word => exact Raises.ok _
  | none => exact raises_fault trivial

theorem raises_onIntegers {f : UInt64 → UInt64 → Except Failure Expr}
    (hf : ∀ x y, Raises Failure.Found (f x y)) (operation : String) (a b : Expr) :
    Raises Failure.Found (onIntegers operation f a b) :=
  (raises_integerOperand operation a).bind fun x =>
    (raises_integerOperand operation b).bind fun y => hf x y

theorem raises_onDivisor (f : UInt64 → UInt64 → UInt64) (operation : String) (a b : Expr) :
    Raises Failure.Found (onDivisor operation f a b) := by
  refine raises_onIntegers (fun x y => ?_) operation a b
  split
  · exact raises_fault trivial
  · exact Raises.ok _

theorem numeral?_eq_some {text digits : List Char} (h : Text.numeral? text = some digits) :
    (text = digits ∨ text = '+' :: digits) ∧ digits ≠ [] ∧
      ∀ c ∈ digits, c.isDigit = true := by
  simp only [Text.numeral?, Option.ite_none_right_eq_some] at h
  obtain ⟨⟨hsome, hdigits⟩, hstripped⟩ := h
  rw [Option.some.inj hstripped] at hsome hdigits
  refine ⟨?_, hsome, List.all_eq_true.mp hdigits⟩
  rw [← Option.some.inj hstripped]
  split
  · exact .inr rfl
  · exact .inl rfl

/-- Digits are those of a numeral, alone or after a plus sign. -/
theorem numeral?_of_digits {text digits : List Char}
    (htext : text = digits ∨ text = '+' :: digits) (hsome : digits ≠ [])
    (hdigits : ∀ c ∈ digits, c.isDigit = true) : Text.numeral? text = some digits := by
  have hall : digits ≠ [] ∧ digits.all Char.isDigit = true :=
    ⟨hsome, List.all_eq_true.mpr hdigits⟩
  rcases htext with rfl | rfl
  · obtain ⟨first, rest, rfl⟩ := List.exists_cons_of_ne_nil hsome
    have hplus : first ≠ '+' := by
      rintro rfl
      exact absurd (hdigits _ List.mem_cons_self) (by decide)
    unfold Text.numeral?
    dsimp only
    split
    next heq => exact absurd (List.cons.inj heq).1 hplus
    next => exact if_pos hall
  · exact if_pos hall

theorem raises_readInteger (loc : Option Loc) (text : String) :
    Raises (Operation.Fails .strToInt [.str loc text]) (readInteger text) := by
  unfold readInteger
  cases hnumeral : Text.numeral? text.toList with
  | none => exact Raises.fails (raises_fault trivial)
  | some digits =>
      obtain ⟨htext, hsome, hdigits⟩ := numeral?_eq_some hnumeral
      by_cases hmany : Text.maxDigits < digits.length
      · simp only [hmany, if_true]
        exact Raises.error (.digitLimit ⟨digits, htext, hsome, hdigits, hmany⟩ hmany)
      · simp only [hmany, if_false]
        cases toWord? (Text.digitsValue digits) with
        | some word => exact Raises.ok _
        | none => exact Raises.fails (raises_fault trivial)

theorem raises_nth (index : UInt64) (items : List Expr) :
    Raises Failure.Found (nth index items) := by
  unfold nth
  cases items[index.toNat]? with
  | some item => exact Raises.ok _
  | none => exact raises_fault trivial

theorem raises_lengthValue (loc : Option Loc) (items : List Expr) :
    Raises (Operation.Fails .listLen [.list loc items]) (lengthValue items) := by
  unfold lengthValue Expr.integer toWord?
  by_cases hlong : maxInteger < items.length
  · have hnot : ¬ (0 ≤ (items.length : Int) ∧ (items.length : Int) ≤ maxInteger) := by omega
    rw [if_neg hnot]
    exact Raises.error (.tooLong hlong)
  · have hfits : 0 ≤ (items.length : Int) ∧ (items.length : Int) ≤ maxInteger := by omega
    rw [if_pos hfits]
    exact Raises.ok _

end

/-! ## Operations -/

/-- How an operation fails, by its meaning. -/
def Meaning.Raises (F : List Expr → Failure → Prop) : Meaning → Prop
  | .ofOne f => ∀ a, ExprLang.Raises (F [a]) (f a)
  | .ofTwo f => ∀ a b, ExprLang.Raises (F [a, b]) (f a b)
  | .read | .write _ => True

theorem raises_meaning (operation : Operation) : operation.meaning.Raises operation.Fails := by
  cases operation with
  | add | sub | mul =>
      exact fun a b => (raises_onIntegers (fun _ _ => raises_exactly _ _) _ a b).fails
  | div | mod => exact fun a b => (raises_onDivisor _ _ a b).fails
  | lt | gt => exact fun a b => (raises_onIntegers (fun _ _ => Raises.ok _) _ a b).fails
  | inc => exact fun a => ((raises_integerOperand _ a).bind fun _ => raises_exactly _ _).fails
  | sqrt => exact fun a => ((raises_integerOperand _ a).bind fun _ => Raises.ok _).fails
  | eq => exact fun _ _ => Raises.ok _
  | not => exact fun a => ((raises_booleanOperand _ a).bind fun _ => Raises.ok _).fails
  | joinStr =>
      exact fun a b => ((raises_stringOperand _ a).bind fun _ =>
        (raises_stringOperand _ b).bind fun _ => Raises.ok _).fails
  | strToInt =>
      intro a
      cases a with
      | str loc text => exact raises_readInteger loc text
      | _ => exact Raises.fails (raises_fault trivial)
  | listLen =>
      intro a
      cases a with
      | list loc items => exact raises_lengthValue loc items
      | _ => exact Raises.fails (raises_fault trivial)
  | listNth =>
      exact fun a b => ((raises_integerOperand _ a).bind fun index =>
        (raises_listOperand _ b).bind fun items => raises_nth index items).fails
  | listPush => exact fun a b => ((raises_listOperand _ a).bind fun _ => Raises.ok _).fails
  | getInputLine | print | printLine => trivial

theorem ofExcept_fails {F : Failure → Prop} {result : Except Failure Expr}
    (hresult : Raises F result) {console console' : Console} {failure : Failure}
    (h : Operation.ofExcept result console = .error failure console') : F failure := by
  cases result with
  | ok => exact absurd h nofun
  | error =>
      cases h
      exact hresult _ rfl

/-- An operation fails on the arguments that it takes as its meaning does, or its console is closed;
any other number of arguments is told with its signature. -/
theorem run_fails (operation : Operation) {args : List Expr} {console console' : Console}
    {failure : Failure} (h : operation.run args console = .error failure console') :
    operation.Fails args failure ∨
      args.length ≠ operation.arity ∧
        failure = .argumentCount operation.signature args.length := by
  have hmeaning := raises_meaning operation
  unfold Operation.run at h
  unfold Operation.arity
  generalize operation.meaning = meaning at h hmeaning ⊢
  match meaning, args with
  | .ofOne f, [a] => exact .inl (ofExcept_fails (hmeaning a) h)
  | .ofTwo f, [a, b] => exact .inl (ofExcept_fails (hmeaning a b) h)
  | .read, [] =>
      simp only [bind, EStateM.bind, Console.readLine] at h
      split at h
      next => exact absurd h nofun
      next heq =>
          split at heq
          · exact absurd heq nofun
          · cases heq
            cases h
            exact .inl (.found (.fault trivial))
  | .write ending, [a] =>
      simp only [bind, EStateM.bind, Console.write] at h
      split at h
      next => exact absurd h nofun
      next heq =>
          split at heq
          · exact absurd heq nofun
          · cases heq
            cases h
            exact .inl (.found (.fault trivial))
  | .ofOne _, [] | .ofOne _, _ :: _ :: _ | .ofTwo _, [] | .ofTwo _, [_] | .ofTwo _, _ :: _ :: _ :: _
  | .read, _ :: _ | .write _, [] | .write _, _ :: _ :: _ =>
      cases h
      exact .inr ⟨by simp [Meaning.arity], rfl⟩

/-- How a built-in value fails. -/
inductive BuiltinFails (name : String) (args : List Expr) : Failure → Prop
  /-- It names nothing. -/
  | unknown : BuiltinFails name args (.ofFault (.unknownBuiltin name))
  /-- It names an attribute. -/
  | foreign {found : Attribute} : Attribute.ofName? name = some found →
      BuiltinFails name args (.foreign name found)
  /-- Its operation fails on the arguments. -/
  | fails {operation : Operation} {failure : Failure} : Operation.ofName? name = some operation →
      operation.Fails args failure → BuiltinFails name args failure
  /-- Its operation takes another number of arguments. -/
  | argumentCount {operation : Operation} : Operation.ofName? name = some operation →
      args.length ≠ operation.arity →
        BuiltinFails name args (.argumentCount operation.signature args.length)

/-- The operation of a built-in value fails as operations do, and a name of no operation fails. -/
theorem runBuiltin_fails {name : String} {args : List Expr} {console console' : Console}
    {failure : Failure} (h : runBuiltin name args console = .error failure console') :
    BuiltinFails name args failure := by
  unfold runBuiltin at h
  cases hname : Operation.ofName? name with
  | none =>
      rw [hname] at h
      obtain ⟨rfl, -⟩ := EStateM.Result.error.inj h
      unfold Failure.ofNoOperation
      cases hfound : Attribute.ofName? name with
      | some found => exact .foreign hfound
      | none => exact .unknown
  | some operation =>
      rw [hname] at h
      rcases run_fails operation h with hfails | ⟨hcount, rfl⟩
      · exact .fails hname hfails
      · exact .argumentCount hname hcount

/-- A fault of a built-in value is one that operations find, and has no place yet. -/
theorem BuiltinFails.operational {name : String} {args : List Expr} {cause : Fault}
    {loc : Option Loc} (h : BuiltinFails name args (.fault cause loc)) :
    cause.Operational ∧ loc = none := by
  cases h with
  | unknown => exact ⟨trivial, rfl⟩
  | fails _ hfails =>
      cases hfails with
      | found hfound =>
          cases hfound with
          | fault hcause => exact ⟨hcause, rfl⟩

/-! ## Arguments on which operations fail -/

theorem IsOverlongNumeral.runBuiltin_eq {text : String} (h : IsOverlongNumeral text.toList)
    (loc : Option Loc) : ∃ digits, ∀ console,
      runBuiltin "str_to_int" [.str loc text] console = .error (.digitLimit digits) console := by
  obtain ⟨digits, htext, hsome, hdigits, hmany⟩ := h
  have hread : readInteger text = .error (.digitLimit digits.length) := by
    rw [readInteger, numeral?_of_digits htext hsome hdigits]
    exact if_pos hmany
  refine ⟨digits.length, fun console => ?_⟩
  show Operation.ofExcept (readInteger text) console = _
  rw [hread]
  rfl

theorem runBuiltin_list_len_eq {items : List Expr} (h : maxInteger < items.length)
    (loc : Option Loc) (console : Console) : runBuiltin "list_len" [.list loc items] console
      = .error (.malformed (.integerRange items.length)) console := by
  have hnot : ¬ (0 ≤ (items.length : Int) ∧ (items.length : Int) ≤ maxInteger) := by omega
  have hlength : lengthValue items = .error (.malformed (.integerRange items.length)) := by
    rw [lengthValue, Expr.integer, toWord?, if_neg hnot]
    rfl
  show Operation.ofExcept (lengthValue items) console = _
  rw [hlength]
  rfl

theorem Operation.ofName?_name (operation : Operation) :
    Operation.ofName? operation.name = some operation := by
  cases operation <;> rfl

/-- A name that is no word for a sign is that of the operation. -/
theorem Operation.name_of_ofName? {name : String} {operation : Operation}
    (h : Operation.ofName? name = some operation) (hword : operation.word? = none) :
    name = operation.name := by
  have hfound := List.find?_some h
  simp only [hword, decide_eq_true_eq] at hfound
  rcases hfound with hname | hnone
  · exact hname.symm
  · exact absurd hnone nofun

end ExprLang
