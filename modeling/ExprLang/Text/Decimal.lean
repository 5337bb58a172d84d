/-!
# Decimal numerals

A numeral is a run of ASCII digits. Its value counts leading zeros for nothing, but the limit on its
length does count them: a numeral longer than `maxDigits` is refused before its value is looked at.
-/

namespace ExprLang.Text

/-- The most digits that a numeral may have. -/
def maxDigits : Nat := 4300

/-- The number that a list of digits writes, the most significant first. -/
def positional (digits : List Nat) : Nat :=
  digits.foldl (fun value digit => 10 * value + digit) 0

/-- The value of a run of ASCII digits. -/
def digitsValue (digits : List Char) : Nat :=
  positional (digits.map fun c => c.toNat - '0'.toNat)

/-- The text of the refusal of a numeral with too many digits. -/
def digitLimitMessage (digits : Nat) : String :=
  "Exceeds the limit (" ++ toString maxDigits
    ++ " digits) for integer string conversion: value has "
    ++ toString digits ++ " digits; use sys.set_int_max_str_digits() to increase the limit"

/-- The digits of a numeral with at most one plus sign before them. -/
def numeral? (text : List Char) : Option (List Char) :=
  let digits := match text with
    | '+' :: rest => rest
    | text => text
  if digits ≠ [] ∧ digits.all Char.isDigit then some digits else none

end ExprLang.Text
