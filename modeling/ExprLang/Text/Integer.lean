import ExprLang.Text.Blank
import ExprLang.Text.Decimal
import ExprLang.Text.Digit
import ExprLang.Text.Quoted

/-!
# Integers in the wide sense

An integer that a user supplies outside any program may have blanks around it, a sign, digits of any
script, and single underscores between two digits. The limit on the number of digits holds here too.
-/

namespace ExprLang.Text

/-- Why a text spells no integer. -/
inductive NumeralError where
  /-- It has another form. -/
  | invalid (text : String)
  /-- It has too many digits. -/
  | tooLong (digits : Nat)
deriving DecidableEq

namespace NumeralError

/-- The class under which the refusal is reported. -/
def className (_ : NumeralError) : String := "ValueError"

/-- The text of the refusal; of a long text that has another form only the beginning is shown. -/
def message : NumeralError → String
  | invalid text =>
      "invalid literal for int() with base 10: " ++ String.ofList ((quoted text).toList.take 200)
  | tooLong digits => digitLimitMessage digits

end NumeralError

/-- A blank that may stand beside a numeral: any but the separators of fields and records. -/
def isNumeralBlank (c : Char) : Bool :=
  isBlank c && !(0x1c ≤ c.toNat && c.toNat ≤ 0x1f)

/-- Whether a character can stand in the middle of a numeral. -/
def isNumeralChar (c : Char) : Bool :=
  (digitValue? c).isSome || c = '_'

/-- The values of the digits of a numeral in which single underscores may stand between two
digits. -/
def groupedDigits? : List Char → Option (List Nat)
  | [] => none
  | [c] => (digitValue? c).map ([·])
  | c :: '_' :: rest => do return (← digitValue? c) :: (← groupedDigits? rest)
  | c :: rest => do return (← digitValue? c) :: (← groupedDigits? rest)

/-- Whether a numeral has a minus sign, and what stands after its sign. -/
def signed : List Char → Bool × List Char
  | '-' :: rest => (true, rest)
  | '+' :: rest => (false, rest)
  | rest => (false, rest)

/-- The integer that a text spells. The digits are looked at as far as they go, and are too many or
not before what follows them is looked at. -/
def readInt (text : String) : Except NumeralError Int :=
  let (negative, rest) := signed (text.toList.dropWhile isNumeralBlank)
  match groupedDigits? (rest.takeWhile isNumeralChar) with
  | none => .error (.invalid text)
  | some digits =>
      if maxDigits < digits.length then .error (.tooLong digits.length)
      else if (rest.dropWhile isNumeralChar).all isNumeralBlank then
        let value : Int := positional digits
        .ok (if negative then -value else value)
      else .error (.invalid text)

end ExprLang.Text
