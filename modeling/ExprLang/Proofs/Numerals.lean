import Mathlib.Data.List.Induction
import Mathlib.Data.Nat.Digits.Defs
import ExprLang.Proofs.Operation.Outcome
import ExprLang.Proofs.Reader.Acceptance

/-!
# Decimal text is read the same way everywhere

A number is written by digits, the most significant first, perhaps with one plus sign before them;
leading zeros count for nothing. What `str_to_int` makes of a text is the number that it writes, if
that has a 64-bit form, and a literal of the same digits is read as the same number, or refused
where the text is refused (`decimal_read_alike`). The display form of a 64-bit integer is such a
text.

Both look at a text only as far as the limit on digits; all that is said here is about texts within
it.
-/

namespace ExprLang

open Grammar Reader

/-! ## Texts that write a number -/

namespace Text

/-- The number that digits write. -/
def decimalValue (digits : List Char) : Nat :=
  Nat.ofDigits 10 (digits.reverse.map fun c => c.toNat - '0'.toNat)

/-- A text writes a number: it is digits of that value, perhaps with one plus sign before them. -/
def WritesNumber (text : List Char) (n : Nat) : Prop :=
  ∃ digits, (text = digits ∨ text = '+' :: digits) ∧ digits ≠ [] ∧
    (∀ c ∈ digits, c.isDigit = true) ∧
    decimalValue digits = n

theorem digitsValue_eq_decimalValue (digits : List Char) :
    digitsValue digits = decimalValue digits := by
  induction digits using List.reverseRecOn with
  | nil => rfl
  | append_singleton digits c ih =>
      have hpush : digitsValue (digits ++ [c]) = 10 * digitsValue digits
          + (c.toNat - '0'.toNat) := by
        simp [digitsValue, positional]
      rw [hpush, ih, decimalValue, decimalValue, List.reverse_append, List.map_append]
      simp [Nat.ofDigits_cons, Nat.add_comm]

/-- The digits of a text are those that its number is written with. -/
theorem writesNumber_iff {text : List Char} {n : Nat} :
    WritesNumber text n ↔ ∃ digits, numeral? text = some digits ∧ digitsValue digits = n := by
  constructor
  · rintro ⟨digits, htext, hsome, hdigits, rfl⟩
    exact ⟨digits, numeral?_of_digits htext hsome hdigits, digitsValue_eq_decimalValue digits⟩
  · rintro ⟨digits, hnumeral, rfl⟩
    obtain ⟨htext, hsome, hdigits⟩ := numeral?_eq_some hnumeral
    exact ⟨digits, htext, hsome, hdigits, (digitsValue_eq_decimalValue digits).symm⟩

/-- A text of digits alone writes their value. -/
theorem writesNumber_digits_iff {digits : List Char} (hsome : digits ≠ [])
    (hdigits : ∀ c ∈ digits, c.isDigit = true) {n : Nat} :
    WritesNumber digits n ↔ digitsValue digits = n := by
  rw [writesNumber_iff, numeral?_of_digits (.inl rfl) hsome hdigits]
  simp

/-- A numeral has no more digits than the text that it is in. -/
theorem length_le_of_numeral? {text digits : List Char} (h : numeral? text = some digits) :
    digits.length ≤ text.countP Char.isDigit := by
  obtain ⟨htext, -, hdigits⟩ := numeral?_eq_some h
  have hcount := List.countP_eq_length.mpr hdigits
  rcases htext with rfl | rfl
  · exact hcount.ge
  · rw [List.countP_cons_of_neg (by decide)]
    exact hcount.ge

end Text

/-! ## Reading a text -/

/-- `str_to_int` gives a number for a text. -/
def ReadsNumber (text : String) (n : Nat) : Prop :=
  ∃ word : UInt64, word.toNat = n ∧
    ∀ loc, Operation.strToInt.Gives [.str loc text] (.int none word)

/-- `str_to_int` refuses a text. -/
def RefusesText (text : String) : Prop :=
  ∀ loc, Operation.strToInt.Faults [.str loc text] .ioFailure

/-- A text is a literal of a number. -/
def IsLiteralOf (text : String) (n : Nat) : Prop :=
  ∃ word : UInt64, word.toNat = n ∧ parse .expression text = .ok (.int none word)

/-- A text is refused as an expression. -/
def IsRejected (text : String) : Prop :=
  ∃ complaint loc, parse .expression text = .error (.rejected complaint loc)

/-- A text is read as the number that it writes, and refused if it writes none with a 64-bit
form. -/
structure ReadAsWritten (text : String) : Prop where
  reads : ∀ n, ReadsNumber text n ↔ Text.WritesNumber text.toList n ∧ n ≤ maxInteger
  refuses : RefusesText text ↔ ¬ ∃ n, Text.WritesNumber text.toList n ∧ n ≤ maxInteger

/-- As a literal, a text is read as the number that is read from it as a text. -/
structure ReadAlike (text : String) : Prop where
  reads : ∀ n, IsLiteralOf text n ↔ ReadsNumber text n
  refuses : IsRejected text ↔ RefusesText text

theorem strToInt_comesTo (loc : Option Loc) (text : String) :
    Operation.strToInt.ComesTo [.str loc text] (readInteger text) :=
  Operation.comesTo_ofOne (f := fun a => do readInteger (← stringOperand "str_to_int" a)) rfl

/-- What is read is the number that is written, if its digits are not too many. -/
theorem readInteger_cases {text : String}
    (hshort : text.toList.countP Char.isDigit ≤ Text.maxDigits) :
    (∃ word : UInt64, Text.WritesNumber text.toList word.toNat ∧
      readInteger text = .ok (.int none word)) ∨
      ((¬ ∃ n, Text.WritesNumber text.toList n ∧ n ≤ maxInteger) ∧
        ∃ cause : Fault, readInteger text = .error (.ofFault cause) ∧
          cause.faultClass = .ioFailure) := by
  simp only [Text.writesNumber_iff]
  unfold readInteger
  cases hnumeral : Text.numeral? text.toList with
  | none =>
      refine .inr ⟨?_, _, rfl, rfl⟩
      rintro ⟨n, ⟨_, ⟨⟩, _⟩, _⟩
  | some digits =>
      have hlength : ¬ Text.maxDigits < digits.length :=
        Nat.not_lt.mpr (Nat.le_trans (Text.length_le_of_numeral? hnumeral) hshort)
      simp only [if_neg hlength]
      cases hword : toWord? (Text.digitsValue digits) with
      | some word =>
          have hvalue := toWord?_eq_some_iff.mp hword
          exact .inl ⟨word, ⟨digits, rfl, by omega⟩, rfl⟩
      | none =>
          have hlarge := toWord?_eq_none_iff.mp hword
          refine .inr ⟨?_, _, rfl, rfl⟩
          rintro ⟨n, ⟨_, ⟨⟩, rfl⟩, hn⟩
          omega

theorem Text.WritesNumber.unique {text : List Char} {n n' : Nat} (h : Text.WritesNumber text n)
    (h' : Text.WritesNumber text n') : n = n' := by
  obtain ⟨digits, hnumeral, rfl⟩ := Text.writesNumber_iff.mp h
  obtain ⟨digits', hnumeral', rfl⟩ := Text.writesNumber_iff.mp h'
  rw [Option.some.inj (hnumeral.symm.trans hnumeral')]

theorem readAsWritten {text : String}
    (hshort : text.toList.countP Char.isDigit ≤ Text.maxDigits) : ReadAsWritten text := by
  have hgives := fun loc => (strToInt_comesTo loc text).gives_iff
  have hfaults := fun loc => (strToInt_comesTo loc text).faults_iff .ioFailure
  obtain ⟨word, hwrites, hread⟩ | ⟨hnothing, cause, hread, hclass⟩ :=
    readInteger_cases hshort
  · have hword : word.toNat ≤ maxInteger := Nat.le_of_lt_succ word.toNat_lt
    refine ⟨fun n => ⟨?_, ?_⟩, ?_⟩
    · rintro ⟨other, rfl, hother⟩
      have hsame := (hgives none _).mp (hother none)
      rw [hread] at hsame
      cases hsame
      exact ⟨hwrites, hword⟩
    · rintro ⟨hn, -⟩
      exact ⟨word, hwrites.unique hn, fun loc => (hgives loc _).mpr hread⟩
    · refine iff_of_false (fun hrefuses => ?_) (not_not_intro ⟨_, hwrites, hword⟩)
      obtain ⟨_, herror, _⟩ := (hfaults none).mp (hrefuses none)
      exact absurd (hread.symm.trans herror) nofun
  · refine ⟨fun n => iff_of_false ?_ fun hn => hnothing ⟨n, hn⟩,
      iff_of_true (fun loc => ?_) hnothing⟩
    · rintro ⟨other, -, hother⟩
      have hvalue := (hgives none _).mp (hother none)
      exact absurd (hread.symm.trans hvalue) nofun
    · exact (hfaults loc).mpr ⟨cause, hread, hclass⟩

/-! ## Reading a literal -/

/-- Digits alone are a literal. -/
theorem scan_of_digits {text : String} (hsome : text.toList ≠ [])
    (hdigits : ∀ c ∈ text.toList, c.isDigit = true) :
    scan text.toList = ⟨[⟨.int text, .start⟩], none⟩ := by
  obtain ⟨c, rest, hsplit⟩ := List.exists_cons_of_ne_nil hsome
  have htext : String.ofList (c :: rest) = text := by rw [← hsplit, String.ofList_toList]
  rw [hsplit] at hdigits ⊢
  obtain ⟨hc, hrest⟩ := List.forall_mem_cons.mp hdigits
  rw [scan_digits hc hrest, htext]

/-- Digits as an expression: a literal of their value, or refused where they stand. -/
theorem parse_digits {text : String} (hsome : text.toList ≠ [])
    (hdigits : ∀ c ∈ text.toList, c.isDigit = true)
    (hshort : text.toList.length ≤ Text.maxDigits) : parse .expression text =
      if Text.digitsValue text.toList ≤ maxInteger
      then .ok (.int none (literalValue text))
      else .error (.rejected (.integerTooLarge text) .start) := by
  have hscan := scan_of_digits hsome hdigits
  have hderives : DerivesGoal (scan text.toList).lexemes (.int none (literalValue text))
      .expression := by
    rw [hscan]
    exact ⟨[], _, [], rfl, nofun, nofun, .ofCall .int⟩
  have hliteral : (scan text.toList).lexemes.findSome? literalError?
      = literalError? ⟨.int text, .start⟩ := by
    rw [hscan]
    simp
  simp only [literalError?, if_neg (Nat.not_lt.mpr hshort)] at hliteral
  split
  next hsmall =>
      rw [if_neg (Nat.not_lt.mpr hsmall)] at hliteral
      exact parse_eq_ok_iff.mpr ⟨by rw [hscan], hderives, hliteral⟩
  next hlarge =>
      rw [if_pos (Nat.not_le.mp hlarge)] at hliteral
      exact parse_eq_literal_error (by rw [hscan]) hderives hliteral

/-- A literal is read as the number that `str_to_int` gives for it. -/
theorem readAlike {text : String} (hsome : text.toList ≠ [])
    (hdigits : ∀ c ∈ text.toList, c.isDigit = true)
    (hshort : text.toList.length ≤ Text.maxDigits) : ReadAlike text := by
  have hwritten := readAsWritten (Nat.le_trans List.countP_le_length hshort)
  have hwrites := fun n => Text.writesNumber_digits_iff hsome hdigits (n := n)
  have hparse := parse_digits hsome hdigits hshort
  by_cases hsmall : Text.digitsValue text.toList ≤ maxInteger
  · rw [if_pos hsmall] at hparse
    have hvalue : (literalValue text).toNat = Text.digitsValue text.toList :=
      UInt64.toNat_ofNat_of_lt' (by simp only [maxInteger, UInt64.size] at *; omega)
    refine ⟨fun n => ?_, ?_⟩
    · rw [hwritten.reads, hwrites]
      constructor
      · rintro ⟨word, rfl, hword⟩
        cases hparse.symm.trans hword
        exact ⟨hvalue.symm, hvalue ▸ hsmall⟩
      · rintro ⟨rfl, -⟩
        exact ⟨literalValue text, hvalue, hparse⟩
    · rw [hwritten.refuses]
      refine iff_of_false ?_ (not_not_intro ⟨_, (hwrites _).mpr rfl, hsmall⟩)
      rintro ⟨complaint, loc, herror⟩
      cases hparse.symm.trans herror
  · rw [if_neg hsmall] at hparse
    refine ⟨fun n => ?_, ?_⟩
    · rw [hwritten.reads, hwrites]
      refine iff_of_false ?_ ?_
      · rintro ⟨word, -, hword⟩
        cases hparse.symm.trans hword
      · rintro ⟨rfl, hn⟩
        exact hsmall hn
    · rw [hwritten.refuses]
      refine iff_of_true ⟨_, _, hparse⟩ ?_
      rintro ⟨n, hn, hmax⟩
      exact hsmall ((hwrites n).mp hn ▸ hmax)

/-! ## Display forms -/

/-- The display form of an integer is as many digits as its number has. -/
theorem display_int (loc : Option Loc) (word : UInt64) :
    (Expr.int loc word).display.toList = Nat.toDigits 10 word.toNat := by
  rw [← toString_word, Expr.display, Style.render, Style.piece, Piece.text]

/-- **Decimal text is read the same way everywhere**: from a text, as a literal, and from what is
shown for a number. -/
theorem decimal_read_alike :
    (∀ text : String, text.toList.countP Char.isDigit ≤ Text.maxDigits →
      ReadAsWritten text) ∧
    (∀ text : String, text.toList ≠ [] → (∀ c ∈ text.toList, c.isDigit = true) →
      text.toList.length ≤ Text.maxDigits → ReadAlike text) ∧
    ∀ (loc : Option Loc) (word : UInt64), ReadsNumber (Expr.int loc word).display word.toNat ∧
      IsLiteralOf (Expr.int loc word).display word.toNat := by
  refine ⟨fun text => readAsWritten, fun text => readAlike, fun loc word => ?_⟩
  have hshown := display_int loc word
  have hsome : (Expr.int loc word).display.toList ≠ [] := by
    rw [hshown]
    exact Nat.toDigits_ne_nil
  have hdigits : ∀ c ∈ (Expr.int loc word).display.toList, c.isDigit = true := by
    rw [hshown]
    exact fun c hmem => Nat.isDigit_of_mem_toDigits (by omega) (by omega) hmem
  have hshort : (Expr.int loc word).display.toList.length ≤ Text.maxDigits := by
    rw [hshown, ← toString_word]
    exact (readable_toString word).1
  have hwrites : Text.WritesNumber (Expr.int loc word).display.toList word.toNat := by
    rw [Text.writesNumber_digits_iff hsome hdigits, hshown]
    exact Text.digitsValue_toDigits word.toNat
  have hreads : ReadsNumber (Expr.int loc word).display word.toNat :=
    ((readAsWritten (Nat.le_trans List.countP_le_length hshort)).reads _).mpr
      ⟨hwrites, Nat.le_of_lt_succ word.toNat_lt⟩
  exact ⟨hreads, ((readAlike hsome hdigits hshort).reads _).mpr hreads⟩

/-- The last number that has a 64-bit form, with a sign and zeros before it, and the digits of the
number after it. -/
theorem decimal_read_alike_last :
    let text := "+0018446744073709551615"
    let digits := "18446744073709551616"
    (text.toList.countP Char.isDigit ≤ Text.maxDigits ∧
      ReadsNumber text 18446744073709551615) ∧
      (digits.toList ≠ [] ∧ (∀ c ∈ digits.toList, c.isDigit = true) ∧
        digits.toList.length ≤ Text.maxDigits) ∧ ReadAlike digits := by
  intro text digits
  have hcount : text.toList.countP Char.isDigit ≤ Text.maxDigits := by decide +kernel
  have hwrites : Text.WritesNumber text.toList 18446744073709551615 :=
    ⟨"0018446744073709551615".toList, by decide +kernel, by decide +kernel,
      List.all_eq_true.mp (by decide +kernel), by decide +kernel⟩
  have hdigits : digits.toList ≠ [] ∧ (∀ c ∈ digits.toList, c.isDigit = true) ∧
      digits.toList.length ≤ Text.maxDigits :=
    ⟨by decide +kernel, List.all_eq_true.mp (by decide +kernel), by decide +kernel⟩
  exact ⟨⟨hcount, ((decimal_read_alike.1 text hcount).reads _).mpr
    ⟨hwrites, by decide +kernel⟩⟩, hdigits,
    decimal_read_alike.2.1 digits hdigits.1 hdigits.2.1 hdigits.2.2⟩

end ExprLang
