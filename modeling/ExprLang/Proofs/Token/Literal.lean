import ExprLang.Expr
import ExprLang.Text.Decimal
import ExprLang.Token

/-!
# Integer literals

What makes an integer literal unreadable: too many digits to be looked at, or a value without a
64-bit form. The decimal form of a 64-bit integer is always a readable literal with that value.
-/

namespace ExprLang

namespace Token

/-- The digits of an integer literal, and none of any other token. -/
def digits : Token → List Char
  | .int digits => digits.toList
  | _ => []

/-- An integer literal that has no 64-bit value. -/
def Oversized (token : Token) : Prop := maxInteger < Text.digitsValue token.digits

/-- A token that is no integer literal, or one with a value. -/
def Readable (token : Token) : Prop :=
  token.digits.length ≤ Text.maxDigits ∧ ¬ token.Oversized

theorem readable_of_digits {token : Token} (h : token.digits = []) : token.Readable := by
  rw [Readable, Oversized, h]
  exact ⟨Nat.zero_le _, Nat.not_lt_zero _⟩

end Token

/-- No integer literal has more digits than are looked at. -/
def ShortLiterals (lexemes : List Lexeme) : Prop :=
  ∀ lexeme ∈ lexemes, lexeme.token.digits.length ≤ Text.maxDigits

instance (lexemes : List Lexeme) : Decidable (ShortLiterals lexemes) :=
  inferInstanceAs (Decidable (∀ lexeme ∈ lexemes, _))

/-! ## Decimal forms -/

namespace Text

theorem digitsValue_eq (chars : List Char) : digitsValue chars = Nat.ofDigitChars 10 chars 0 := by
  rw [digitsValue, positional, List.foldl_map, Nat.ofDigitChars_eq_foldl]

theorem digitsValue_toDigits (n : Nat) : digitsValue (Nat.toDigits 10 n) = n := by
  rw [digitsValue_eq, Nat.ofDigitChars_ten_toDigits]

end Text

theorem toString_word (value : UInt64) :
    (toString value.toNat).toList = Nat.toDigits 10 value.toNat := by
  rw [Nat.toString_eq_repr, Nat.toList_repr]

/-- The decimal form of a 64-bit integer is a readable literal. -/
theorem readable_toString (value : UInt64) : (Token.int (toString value.toNat)).Readable := by
  have hlt : value.toNat < 2 ^ 64 := value.toNat_lt
  have hlength : (Nat.toDigits 10 value.toNat).length ≤ 20 := by
    rw [Nat.length_toDigits_le_iff (by omega) (by omega)]
    omega
  unfold Token.Readable Token.Oversized
  simp only [Token.digits, toString_word, Text.digitsValue_toDigits, maxInteger, Text.maxDigits]
  omega

theorem ofNat_digitsValue_toString (value : UInt64) :
    UInt64.ofNat (Text.digitsValue (toString value.toNat).toList) = value := by
  rw [toString_word, Text.digitsValue_toDigits]
  exact UInt64.ofNat_toNat

end ExprLang
