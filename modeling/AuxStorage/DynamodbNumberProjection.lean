import AuxStorage.DynamodbNumberWrite

/-!
# Numbers of a Stream

A number that is read from a stream of bytes keeps its spelling if it is short enough to be
stored. Of a longer one only the number is kept, in the shorter of two spellings.
-/

namespace AuxStorage

open List
open ParsedDynamodbNumber (magnitude parse significantDigits value)

/-- What is retained of the bytes that the parser takes: the first ones, and how many they are,
or one more than there is room for. -/
def inspectByte (retained : List UInt8 × ℕ) (byte : UInt8) : List UInt8 × ℕ :=
  if retained.2 < dynamodbWriteNumberBytes then (retained.1 ++ [byte], retained.2 + 1)
  else (retained.1, dynamodbWriteNumberBytes + 1)

/-- The significant digits as an integer, with the exponent that this takes. -/
def ParsedDynamodbNumber.scientific (number : ParsedDynamodbNumber) :
    Except DynamodbNumberError Text := do
  let exponent := number.adjustedExponent - (number.digits.length - 1)
  let sign := if number.negative then ['-'] else []
  let digits ← number.significantDigits
  pure (sign ++ (digits ++ 'e' :: (toString exponent).toList))

/-- `project_dynamodb_number_from_bytes`. When the parser accepts a stream, it has taken all of
its bytes. -/
def projectDynamodbNumberFromBytes (input : List UInt8) : Except DynamodbNumberError Text := do
  let number ← parseBytes input
  let (spelling, length) := input.foldl inspectByte ([], 0)
  if length ≤ dynamodbWriteNumberBytes then pure (asciiText spelling)
  else
    let decimal ← number.canonicalString
    if number.isZero then pure decimal
    else
      let scientific ← number.scientific
      pure (if scientific.bytes.length < decimal.bytes.length then scientific else decimal)

variable {input : List UInt8} {n : ParsedDynamodbNumber}

/-- The spelling is retained as long as there is room. -/
theorem foldl_inspectByte (input : List UInt8) :
    input.foldl inspectByte ([], 0)
      = if input.length ≤ dynamodbWriteNumberBytes then (input, input.length)
        else (input.take dynamodbWriteNumberBytes, dynamodbWriteNumberBytes + 1) := by
  induction input using reverseRecOn with
  | nil => rfl
  | append_singleton input byte ih =>
    rw [foldl_append, ih, foldl_cons, foldl_nil, length_append, length_singleton, inspectByte]
    rcases Nat.lt_trichotomy input.length dynamodbWriteNumberBytes with hlt | heq | hgt
    · rw [if_pos hlt.le, if_pos hlt, if_pos (Nat.succ_le_of_lt hlt)]
    · rw [if_pos heq.le, if_neg (by simp [heq]), if_neg (by omega), take_left' heq]
    · rw [if_neg hgt.not_ge, if_neg (by simp), if_neg (by omega), take_append_of_le_length hgt.le]

/-! ### Written exponents -/

theorem bytes_toDigits (k : ℕ) : ∃ digits, Text.bytes (Nat.toDigits 10 k) = digits ∧
    digits ≠ [] ∧ (∀ byte ∈ digits, isAsciiDigit byte) ∧ digitsValue digits = k := by
  induction k using Nat.strong_induction_on with
  | _ k ih =>
    have hdigit : ∀ d < 10, ∃ byte, Text.bytes [d.digitChar] = [byte] ∧ isAsciiDigit byte ∧
        digitsValue [byte] = d := by
      intro d hd
      interval_cases d <;> exact ⟨_, rfl, by decide, by decide⟩
    rcases Nat.lt_or_ge k 10 with hk | hk
    · obtain ⟨byte, hbyte, hascii, hvalue⟩ := hdigit k hk
      rw [Nat.toDigits_of_lt_base hk]
      exact ⟨_, hbyte, by simp, by simpa using hascii, hvalue⟩
    · obtain ⟨byte, hbyte, hascii, hvalue⟩ := hdigit (k % 10) (Nat.mod_lt _ (by norm_num))
      obtain ⟨digits, hbytes, -, hdigits, hdiv⟩ := ih (k / 10) (by omega)
      rw [Nat.toDigits_of_base_le (by norm_num) hk, Text.bytes_append, hbytes, hbyte]
      refine ⟨_, rfl, by simp, forall_mem_append.mpr ⟨hdigits, by simpa using hascii⟩, ?_⟩
      rw [digitsValue] at hvalue hdiv ⊢
      rw [map_append, Positional.value_append, hdiv, hvalue]
      simp
      omega

/-- **A written exponent is read back.** -/
theorem exponentText_toString {e : ℤ} (he : e.natAbs < 2 ^ 63) :
    ExponentText (101 :: Text.bytes (toString e).toList) ∧
      exponentValue (101 :: Text.bytes (toString e).toList) = e := by
  obtain ⟨digits, hbytes, hne, hdigits, hvalue⟩ := bytes_toDigits e.natAbs
  have htext : Text.bytes (toString e).toList
      = (if e < 0 then [45] else []) ++ digits := by
    rw [← hbytes]
    cases e with
    | ofNat m =>
      change Text.bytes (toString m).toList = _
      simp
    | negSucc m =>
      change Text.bytes ("-" ++ toString (m + 1)).toList = _
      simp
      rfl
  have hhead : digits.head? ≠ some 43 ∧ digits.head? ≠ some 45 := by
    constructor <;> intro h <;> exact absurd (hdigits _ (mem_of_mem_head? h)) (by decide)
  have hskip : skipSign ((if e < 0 then [45] else []) ++ digits) = digits := by
    split_ifs
    · rfl
    · simp [skipSign, signAhead, hhead]
  rw [htext]
  refine ⟨.inr ⟨.inl rfl, ?_⟩, ?_⟩
  · rw [tail_cons, hskip]
    exact ⟨hne, hdigits, hvalue ▸ he⟩
  · rw [exponentValue, if_pos (.inl rfl), tail_cons, hskip, takeWhile_eq_self_iff.mpr hdigits,
      hvalue]
    rcases lt_or_ge e 0 with hneg | hpos
    · rw [if_pos (by simp [hneg])]
      omega
    · rw [if_neg (by simpa [hpos.not_gt] using hhead.2)]
      omega

/-! ### Spellings -/

theorem toNat_lt_of_isAsciiDigit {byte : UInt8} (h : isAsciiDigit byte) : byte.toNat < 128 :=
  (plain_of_spelled (.inl h)).1

/-- A number text has ASCII bytes only. -/
theorem toNat_lt_of_numberText (h : NumberText input) : ∀ byte ∈ input, byte.toNat < 128 := by
  have hsign {l : List UInt8} (h : ∀ byte ∈ skipSign l, byte.toNat < 128) :
      ∀ byte ∈ l, byte.toNat < 128 := by
    obtain ⟨sign, hl, hcases, -⟩ := exists_sign l
    rw [hl]
    refine forall_mem_append.mpr ⟨?_, h⟩
    rcases hcases with rfl | rfl | rfl <;> simp
  have hdigits {l : List UInt8} (h : ∀ byte ∈ l.dropWhile isAsciiDigit, byte.toNat < 128) :
      ∀ byte ∈ l, byte.toNat < 128 := by
    rw [← takeWhile_append_dropWhile (p := isAsciiDigit) (l := l)]
    exact forall_mem_append.mpr
      ⟨fun byte hbyte => toNat_lt_of_isAsciiDigit (mem_takeWhile_imp hbyte), h⟩
  obtain ⟨integer, fractional, rest, hparts, -, hrest⟩ := h
  have hexponent : ∀ byte ∈ rest, byte.toNat < 128 := by
    rcases hrest with rfl | ⟨hmark, -, htail, -⟩
    · simp
    cases rest with
    | nil => simp
    | cons mark tail =>
      refine forall_mem_cons.mpr ⟨?_, hsign fun byte hb => toNat_lt_of_isAsciiDigit (htail byte hb)⟩
      rcases hmark with h | h <;> cases h <;> decide
  refine hsign (hdigits ?_)
  rw [mantissaParts] at hparts
  split_ifs at hparts with hpoint <;> cases hparts
  · cases hdrop : (skipSign input).dropWhile isAsciiDigit with
    | nil => simp
    | cons point behind =>
      rw [hdrop] at hpoint hexponent
      cases hpoint
      exact forall_mem_cons.mpr ⟨by decide, hdigits hexponent⟩
  · exact hexponent

/-- **The scientific spelling is read back.** -/
theorem parse_scientific (hn : n.WellFormed) (hz : n.isZero = false) :
    ∃ text, n.scientific = .ok text ∧ (text.bytes.length ≤ 171 → parse text = .ok n) := by
  have hwf := hn
  obtain rfl | ⟨-, hdigits, hlow, hhigh⟩ := hn
  · cases hz
  have hlength := hdigits.length_le
  simp only [numberKeyDigits] at hlength
  obtain ⟨htext, hvalue⟩ := @exponentText_toString
    (n.adjustedExponent - (n.digits.length - 1)) (by omega)
  rw [ParsedDynamodbNumber.scientific, significantDigits, fromUtf8_digits hdigits.digit]
  refine ⟨_, rfl, fun hshort => ?_⟩
  have hsign : Text.bytes (if n.negative then ['-'] else [])
      = if n.negative then [45] else [] := by cases n.negative <;> rfl
  rw [parse]
  rw [Text.bytes_append, Text.bytes_append, Text.bytes_cons, hsign, bytes_asciiText
    fun byte hbyte => toNat_lt_of_isAsciiDigit (hdigits.digit byte hbyte)] at hshort ⊢
  generalize Text.bytes (toString (_ : ℤ)).toList = exponent at *
  have hmantissa : n.digits ++ (String.utf8EncodeChar 'e' ++ exponent)
      = mantissaText n.digits [] false ++ 101 :: exponent := by simp [mantissaText]; rfl
  have hends : EndsMantissa (101 :: exponent) := by
    rintro _ ⟨⟩
    decide
  have hne : n.digits ++ [] ≠ [] := by simpa using hdigits.ne_nil
  rw [hmantissa] at hshort ⊢
  refine parseBytes_spelled (by omega) ⟨n.digits, [], _, ?_, hne, htext⟩ hwf ?_
  · rw [(skipSign_spelled (by cases n.negative <;> simp) hdigits.digit (by simp) hne).1,
      mantissaParts_mantissaText hdigits.digit (by simp) (by simp) hends]
  · rw [decimalValue_spelled (by cases n.negative <;> simp) hdigits.digit (by simp) (by simp) hne
      hends, hvalue, value, hz, magnitude]
    cases n.negative <;> simp

/-- **The projection of a stream.** -/
theorem projectDynamodbNumberFromBytes_spec (h : parseBytes input = .ok n) :
    ∃ spelling, projectDynamodbNumberFromBytes input = .ok spelling ∧
      spelling.bytes.length ≤ 171 ∧ parse spelling = .ok n ∧
      (input.length ≤ 171 → spelling.bytes = input) := by
  have hn := parseBytes_wellFormed h
  obtain ⟨decimal, hdecimal, hparse, -, hlength⟩ := parse_canonicalString hn
  have hcase : dynamodbWriteNumberBytes = 171 := rfl
  rw [projectDynamodbNumberFromBytes, h, foldl_inspectByte, hcase]
  by_cases hshort : input.length ≤ 171
  · have htext := ((parseBytes_grammar (by omega)).1.mp ⟨n, h⟩).1
    have hbytes := bytes_asciiText (toNat_lt_of_numberText htext)
    refine ⟨asciiText input, ?_, by rwa [hbytes], ?_, fun _ => hbytes⟩
    · simp [hshort, bind, Except.bind, pure, Except.pure]
    · rw [parse, hbytes, h]
  · rw [if_neg hshort]
    cases hz : n.isZero with
    | true =>
      exact ⟨decimal, by simp [hdecimal, hz, bind, Except.bind, pure, Except.pure], by omega,
        hparse, fun h => absurd h hshort⟩
    | false =>
      obtain ⟨text, htext, hscientific⟩ := parse_scientific hn hz
      refine ⟨if text.bytes.length < decimal.bytes.length then text else decimal,
        by simp [hdecimal, hz, htext, bind, Except.bind, pure, Except.pure], ?_, ?_,
        fun h => absurd h hshort⟩
      · split_ifs <;> omega
      · split_ifs
        · exact hscientific (by omega)
        · exact hparse

/-- A number with more zeros than are stored. -/
def longSpelling : List UInt8 :=
  (text "1.5").bytes ++ replicate 200 48

/-- A short spelling is kept, and a long one is replaced by another one of its number. -/
theorem projectDynamodbNumberFromBytes_shortened :
    (∃ spelling, projectDynamodbNumberFromBytes (text "1.50").bytes = .ok spelling ∧
      spelling.bytes = (text "1.50").bytes) ∧
      171 < longSpelling.length ∧
      ∃ spelling, projectDynamodbNumberFromBytes longSpelling = .ok spelling ∧
        spelling.bytes.length ≤ 171 ∧ parse spelling = parse (text "1.5") := by
  refine ⟨?_, by decide +kernel, ?_⟩
  · obtain ⟨spelling, hproject, -, -, hshort⟩ :=
      projectDynamodbNumberFromBytes_spec (show parseBytes (text "1.50").bytes = .ok _ from rfl)
    exact ⟨spelling, hproject, hshort (by decide)⟩
  · obtain ⟨n, hn⟩ : ∃ n, parse (text "1.5") = .ok n := ⟨_, rfl⟩
    have hlong : parseBytes longSpelling = .ok n := by
      rw [← hn]
      decide +kernel
    obtain ⟨spelling, hproject, hlength, hparse, -⟩ := projectDynamodbNumberFromBytes_spec hlong
    exact ⟨spelling, hproject, hlength, hparse.trans hn.symm⟩

end AuxStorage
