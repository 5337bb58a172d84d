import ExprLang.Report
import ExprLang.Proofs.Expr.Renamed

/-!
# Operations under other names

Operations see the names in values as little as the console does: for renamed values an operation
returns the renamed result, or it fails in the same way, and it does the same to the console
(`runBuiltin_renamed`). A failure under other names is of the same class and at the same place, and
its text differs in nothing but names (`Failure.Renamed`).
-/

namespace ExprLang

/-! ## Failures under other names -/

/-- A fault that neither tells a name nor shows a value. -/
def Fault.Nameless : Fault → Prop
  | .unknownIdentifier _ | .unwantedArgument _ | .missingArgument .. => False
  | .conditionNotBoolean .. | .wrongOperand .. | .notCallable _ => False
  | _ => True

/-- A fault that tells the name of something in the program. -/
def Fault.TellsNames : Fault → Prop
  | .unknownIdentifier _ | .unwantedArgument _ | .missingArgument .. => True
  | _ => False

/-- A failure that tells the name of something in the program. -/
def Failure.TellsNames : Failure → Prop
  | .fault cause _ => cause.TellsNames
  | .scope _ => True
  | _ => False

/-- One fault is another one under other names. What is called is told by its name or by its source
text. -/
inductive Fault.Renamed (rename : String → String) : Fault → Fault → Prop
  | unknownIdentifier (name : String) :
      Renamed rename (.unknownIdentifier name) (.unknownIdentifier (rename name))
  | unwantedArgument (callee : Expr) : Renamed rename (.unwantedArgument (calleeName callee))
      (.unwantedArgument (calleeName (callee.renamed rename)))
  | missingArgument (callee : Expr) (param : String) :
      Renamed rename (.missingArgument (calleeName callee) param)
        (.missingArgument (calleeName (callee.renamed rename)) (rename param))
  | conditionNotBoolean (construct : Construct) {found : Expr} : IsValue found →
      Renamed rename (.conditionNotBoolean construct found)
        (.conditionNotBoolean construct (found.renamed rename))
  | wrongOperand (operation : String) (wanted : Kind) {found : Expr} : IsValue found →
      Renamed rename (.wrongOperand operation wanted found)
        (.wrongOperand operation wanted (found.renamed rename))
  | notCallable {found : Expr} : IsValue found →
      Renamed rename (.notCallable found) (.notCallable (found.renamed rename))
  | nameless {cause : Fault} : cause.Nameless → Renamed rename cause cause

/-- One failure is another one under other names. -/
inductive Failure.Renamed (rename : String → String) : Failure → Failure → Prop
  | fault {cause cause' : Fault} (loc : Option Loc) : cause.Renamed rename cause' →
      Renamed rename (.fault cause loc) (.fault cause' loc)
  | tooDeep : Renamed rename .tooDeep .tooDeep
  | digitLimit (digits : Nat) : Renamed rename (.digitLimit digits) (.digitLimit digits)
  | scope (e : ScopeError) : Renamed rename (.scope e) (.scope ⟨rename e.name⟩)
  | malformed (e : Malformed) : Renamed rename (.malformed e) (.malformed e)
  | argumentCount (signature : Signature) (given : Nat) :
      Renamed rename (.argumentCount signature given) (.argumentCount signature given)
  | foreign (name : String) (found : Attribute) :
      Renamed rename (.foreign name found) (.foreign name found)
  | stalled : Renamed rename .stalled .stalled

section
variable {rename : String → String}

theorem Fault.Renamed.faultClass {cause cause' : Fault} (h : cause.Renamed rename cause') :
    cause'.faultClass = cause.faultClass := by
  cases h <;> rfl

/-- The text of a fault does not depend on names but where it tells one. -/
theorem Fault.Renamed.message {cause cause' : Fault} (h : cause.Renamed rename cause') :
    cause.TellsNames ∨ cause'.message = cause.message := by
  cases h with
  | unknownIdentifier | unwantedArgument | missingArgument => exact .inl trivial
  | nameless => exact .inr rfl
  | conditionNotBoolean construct hfound | wrongOperand operation wanted hfound
      | notCallable hfound =>
      refine .inr ?_
      show _ ++ _ = _ ++ _
      rw [IsValue.display_renamed hfound]

namespace Failure.Renamed

theorem className {failure failure' : Failure} (h : failure.Renamed rename failure') :
    failure'.className = failure.className := by
  cases h with
  | fault loc hcause => simp only [Failure.className, hcause.faultClass]
  | tooDeep | digitLimit | scope | malformed | argumentCount | foreign | stalled => rfl

/-- The text of a failure does not depend on names but where it tells one. -/
theorem message {failure failure' : Failure} (h : failure.Renamed rename failure') :
    failure.TellsNames ∨ failure'.message = failure.message := by
  cases h with
  | fault loc hcause => exact hcause.message
  | scope => exact .inl trivial
  | tooDeep | digitLimit | malformed | argumentCount | foreign | stalled => exact .inr rfl

theorem place {failure failure' : Failure} (h : failure.Renamed rename failure') :
    Report.failureLoc? failure' = Report.failureLoc? failure := by
  cases h <;> rfl

/-- A failure that passes a node takes the same place under other names. -/
theorem locate {failure failure' : Failure} (h : failure.Renamed rename failure')
    (place : Option Loc) : (failure.locate place).Renamed rename (failure'.locate place) := by
  cases h with
  | fault loc hcause =>
      cases loc with
      | none => exact .fault place hcause
      | some loc => exact .fault (some loc) hcause
  | tooDeep => exact .tooDeep
  | digitLimit digits => exact .digitLimit digits
  | scope e => exact .scope e
  | malformed e => exact .malformed e
  | argumentCount signature given => exact .argumentCount signature given
  | foreign name found => exact .foreign name found
  | stalled => exact .stalled

theorem ofFault {cause cause' : Fault} (h : cause.Renamed rename cause') :
    (Failure.ofFault cause).Renamed rename (.ofFault cause') :=
  .fault none h

theorem nameless {cause : Fault} (h : cause.Nameless) :
    (Failure.ofFault cause).Renamed rename (.ofFault cause) :=
  ofFault (.nameless h)

/-- The name of an operation, or of none, is no name of the program. -/
theorem ofNoOperation (name : String) :
    (Failure.ofNoOperation name).Renamed rename (.ofNoOperation name) := by
  unfold Failure.ofNoOperation
  cases Attribute.ofName? name with
  | some found => exact .foreign name found
  | none => exact nameless trivial

theorem wrongOperand {found : Expr} (h : IsValue found) (operation : String) (wanted : Kind) :
    (Failure.ofFault (.wrongOperand operation wanted found)).Renamed rename
      (.ofFault (.wrongOperand operation wanted (found.renamed rename))) :=
  ofFault (.wrongOperand operation wanted h)

end Failure.Renamed

end

/-! ## Results under other names -/

/-- Two results that are one under different names: related values, or one failure. -/
inductive SameResult (rename : String → String) {α : Type} (U : α → α → Prop) :
    Except Failure α → Except Failure α → Prop
  | ok {a b : α} : U a b → SameResult rename U (.ok a) (.ok b)
  | error {failure failure' : Failure} : failure.Renamed rename failure' →
      SameResult rename U (.error failure) (.error failure')

/-- One value is another one under other names. -/
def RenamedTo (rename : String → String) (value value' : Expr) : Prop :=
  value' = value.renamed rename

section
variable {rename : String → String}

namespace SameResult

variable {α β : Type} {U : α → α → Prop} {U' : β → β → Prop}

theorem bind {result result' : Except Failure α} {f f' : α → Except Failure β}
    (h : SameResult rename U result result')
    (hf : ∀ a b, U a b → SameResult rename U' (f a) (f' b)) :
    SameResult rename U' (result >>= f) (result' >>= f') := by
  cases h with
  | ok hvalue => exact hf _ _ hvalue
  | error hfailure => exact .error hfailure

/-- A result that holds no name. -/
theorem nameless {result : Except Failure Expr} (hvalue : ∀ value, result = .ok value →
      value.renamed rename = value) (hfailure : ∀ failure, result = .error failure →
      failure.Renamed rename failure) : SameResult rename (RenamedTo rename) result result := by
  cases result with
  | ok value => exact .ok (hvalue value rfl).symm
  | error failure => exact .error (hfailure failure rfl)

end SameResult

/-! ## Operands -/

section
variable {a : Expr} (ha : IsValue a) (operation : String)
include ha

theorem integerOperand_renamed : SameResult rename Eq (integerOperand operation a)
    (integerOperand operation (a.renamed rename)) := by
  have hwrong : Failure.Renamed rename _ _ := .wrongOperand ha operation .integer
  cases ha with
  | int => exact .ok rfl
  | str | bool | null | endOfProgram | fn | builtin | list => exact .error hwrong

theorem booleanOperand_renamed : SameResult rename Eq (booleanOperand operation a)
    (booleanOperand operation (a.renamed rename)) := by
  have hwrong : Failure.Renamed rename _ _ := .wrongOperand ha operation .boolean
  cases ha with
  | bool => exact .ok rfl
  | int | str | null | endOfProgram | fn | builtin | list => exact .error hwrong

theorem stringOperand_renamed : SameResult rename Eq (stringOperand operation a)
    (stringOperand operation (a.renamed rename)) := by
  have hwrong : Failure.Renamed rename _ _ := .wrongOperand ha operation .string
  cases ha with
  | str => exact .ok rfl
  | int | bool | null | endOfProgram | fn | builtin | list => exact .error hwrong

theorem listOperand_renamed :
    SameResult rename (fun items items' => items' = items.map (Expr.renamed rename))
      (listOperand operation a) (listOperand operation (a.renamed rename)) := by
  have hwrong : Failure.Renamed rename _ _ := .wrongOperand ha operation .list
  cases ha with
  | list => exact .ok (Expr.renamedAll_eq _ _)
  | int | str | bool | null | endOfProgram | fn | builtin => exact .error hwrong

end

/-! ## Operations -/

theorem exactly_renamed (operation : String) (result : Int) :
    SameResult rename (RenamedTo rename) (exactly operation result) (exactly operation result) := by
  unfold exactly
  cases toWord? result with
  | some word => exact .ok rfl
  | none => exact .error (.nameless trivial)

theorem onIntegers_renamed {f : UInt64 → UInt64 → Except Failure Expr}
    (hf : ∀ x y, SameResult rename (RenamedTo rename) (f x y) (f x y)) (operation : String)
    {a b : Expr} (ha : IsValue a) (hb : IsValue b) :
    SameResult rename (RenamedTo rename) (onIntegers operation f a b)
      (onIntegers operation f (a.renamed rename) (b.renamed rename)) := by
  refine (integerOperand_renamed ha operation).bind ?_
  rintro x _ rfl
  refine (integerOperand_renamed hb operation).bind ?_
  rintro y _ rfl
  exact hf x y

theorem onDivisor_renamed (f : UInt64 → UInt64 → UInt64) (operation : String) {a b : Expr}
    (ha : IsValue a) (hb : IsValue b) :
    SameResult rename (RenamedTo rename) (onDivisor operation f a b)
      (onDivisor operation f (a.renamed rename) (b.renamed rename)) := by
  refine onIntegers_renamed (fun x y => ?_) operation ha hb
  by_cases hzero : y = 0
  · simp only [hzero, if_true]
    exact .error (.nameless trivial)
  · simp only [hzero, if_false]
    exact .ok rfl

theorem readInteger_renamed (text : String) :
    SameResult rename (RenamedTo rename) (readInteger text) (readInteger text) := by
  unfold readInteger
  split
  · exact .error (.nameless trivial)
  · split
    · exact .error (.digitLimit _)
    · split
      · exact .ok rfl
      · exact .error (.nameless trivial)

theorem nth_renamed (index : UInt64) (items : List Expr) : SameResult rename (RenamedTo rename)
    (nth index items) (nth index (items.map (Expr.renamed rename))) := by
  rw [nth, nth, List.getElem?_map, List.length_map]
  cases items[index.toNat]? with
  | some item => exact .ok rfl
  | none => exact .error (.nameless trivial)

theorem lengthValue_renamed (items : List Expr) : SameResult rename (RenamedTo rename)
    (lengthValue items) (lengthValue (items.map (Expr.renamed rename))) := by
  rw [lengthValue, lengthValue, List.length_map, Expr.integer]
  cases toWord? items.length with
  | some word => exact .ok rfl
  | none => exact .error (.malformed _)

/-- An operation does to renamed values what it does to the values. -/
def Meaning.Respects (rename : String → String) : Meaning → Prop
  | .ofOne f => ∀ a, IsValue a → SameResult rename (RenamedTo rename) (f a)
      (f (a.renamed rename))
  | .ofTwo f => ∀ a b, IsValue a → IsValue b →
      SameResult rename (RenamedTo rename) (f a b) (f (a.renamed rename) (b.renamed rename))
  | .read | .write _ => True

theorem meaning_respects (operation : Operation) : operation.meaning.Respects rename := by
  cases operation with
  | add | sub | mul =>
      exact fun a b ha hb => onIntegers_renamed (fun x y => exactly_renamed _ _) _ ha hb
  | div | mod => exact fun a b ha hb => onDivisor_renamed _ _ ha hb
  | lt | gt =>
      refine fun a b ha hb => onIntegers_renamed (fun x y => ?_) _ ha hb
      exact .ok rfl
  | inc =>
      refine fun a ha => (integerOperand_renamed ha "inc").bind ?_
      rintro x _ rfl
      exact exactly_renamed _ _
  | sqrt =>
      refine fun a ha => (integerOperand_renamed ha "sqrt").bind ?_
      rintro x _ rfl
      exact .ok rfl
  | eq =>
      intro a b ha hb
      refine .ok ?_
      rw [ha.valuesEqual_renamed hb]
      rfl
  | not =>
      refine fun a ha => (booleanOperand_renamed ha "not").bind ?_
      rintro x _ rfl
      exact .ok rfl
  | joinStr =>
      refine fun a b ha hb => (stringOperand_renamed ha "join_str").bind ?_
      rintro x _ rfl
      refine (stringOperand_renamed hb "join_str").bind ?_
      rintro y _ rfl
      exact .ok rfl
  | strToInt =>
      refine fun a ha => (stringOperand_renamed ha "str_to_int").bind ?_
      rintro text _ rfl
      exact readInteger_renamed text
  | listLen =>
      refine fun a ha => (listOperand_renamed ha "list_len").bind ?_
      rintro items _ rfl
      exact lengthValue_renamed items
  | listNth =>
      refine fun a b ha hb => (integerOperand_renamed ha "list_nth").bind ?_
      rintro index _ rfl
      refine (listOperand_renamed hb "list_nth").bind ?_
      rintro items _ rfl
      exact nth_renamed index items
  | listPush =>
      refine fun a b ha _ => (listOperand_renamed ha "list_push").bind ?_
      rintro items _ rfl
      refine .ok ?_
      simp only [RenamedTo, Expr.renamed, Expr.renamedAll_eq, List.map_append, List.map_cons,
        List.map_nil]
  | getInputLine | print | printLine => trivial

/-! ## Runs of operations -/

/-- Two consoles that differ in nothing but their logs. -/
def Console.SameText (console console' : Console) : Prop :=
  { console' with log := console.log } = console

/-- Two ends of a step that are one under different names, in related states. -/
inductive SameEnd (rename : String → String) {σ α : Type} (U : α → α → Prop)
    (R : σ → σ → Prop) :
    EStateM.Result Failure σ α → EStateM.Result Failure σ α → Prop
  | ok {a b : α} {s t : σ} : U a b → R s t → SameEnd rename U R (.ok a s) (.ok b t)
  | error {failure failure' : Failure} {s t : σ} : failure.Renamed rename failure' → R s t →
      SameEnd rename U R (.error failure s) (.error failure' t)

theorem ofExcept_renamed {result result' : Except Failure Expr}
    (h : SameResult rename (RenamedTo rename) result result') {console console' : Console}
    (hconsole : console.SameText console') : SameEnd rename (RenamedTo rename) Console.SameText
      (Operation.ofExcept result console) (Operation.ofExcept result' console') := by
  cases h with
  | ok hvalue => exact .ok hvalue hconsole
  | error hfailure => exact .error hfailure hconsole

theorem run_renamed (operation : Operation) {args : List Expr} (hargs : ∀ a ∈ args, IsValue a)
    {console console' : Console} (hconsole : console.SameText console') :
    SameEnd rename (RenamedTo rename) Console.SameText (operation.run args console)
      (operation.run (args.map (Expr.renamed rename)) console') := by
  have hmeaning : operation.meaning.Respects rename := meaning_respects operation
  -- from here on an operation is nothing but its meaning
  unfold Operation.run
  generalize operation.meaning = meaning at hmeaning
  obtain ⟨input, inputOpen, output, outputOpen, log⟩ := console
  obtain ⟨input', inputOpen', output', outputOpen', log'⟩ := console'
  obtain ⟨rfl, rfl, rfl, rfl, -⟩ := Console.mk.inj hconsole
  match meaning, args with
  | .ofOne f, [a] => exact ofExcept_renamed (hmeaning a (hargs a List.mem_cons_self)) hconsole
  | .ofTwo f, [a, b] =>
      obtain ⟨ha, hb⟩ := List.forall_mem_cons.mp hargs
      exact ofExcept_renamed (hmeaning a b ha (hb b List.mem_cons_self)) hconsole
  | .read, [] =>
      simp only [List.map_nil, bind, EStateM.bind, Console.readLine]
      cases inputOpen' with
      | true => exact .ok rfl rfl
      | false => exact .error (.nameless trivial) rfl
  | .write ending, [a] =>
      have hwritten : writtenForm (a.renamed rename) = writtenForm a :=
        (hargs a List.mem_cons_self).writtenForm_renamed
      simp only [List.map_cons, List.map_nil, bind, EStateM.bind, Console.write, hwritten]
      cases outputOpen' with
      | true => exact .ok rfl rfl
      | false => exact .error (.nameless trivial) rfl
  | .ofOne _, [] | .ofTwo _, [] | .ofTwo _, [_] | .write _, [] =>
      exact .error (.argumentCount _ _) rfl
  | .ofOne _, _ :: _ :: _ | .ofTwo _, _ :: _ :: _ :: _ | .read, _ :: _ | .write _, _ :: _ :: _ =>
      simp only [List.map_cons, List.length_cons, List.length_map]
      exact .error (.argumentCount _ _) rfl

/-- An operation is run on renamed values as it is run on the values. -/
theorem runBuiltin_renamed (name : String) {args : List Expr} (hargs : ∀ a ∈ args, IsValue a)
    {console console' : Console} (hconsole : console.SameText console') :
    SameEnd rename (RenamedTo rename) Console.SameText (runBuiltin name args console)
      (runBuiltin name (args.map (Expr.renamed rename)) console') := by
  unfold runBuiltin
  cases Operation.ofName? name with
  | some operation => exact run_renamed operation hargs hconsole
  | none => exact .error (.ofNoOperation name) hconsole

end

end ExprLang
