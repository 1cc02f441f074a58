import AuxStorage.DynamodbNumberGrammar

/-!
# DynamoDB Numbers: Decoding a Key into Canonical Text

A number key is decoded into the parsed number it was made from (`decodeNumberBytes`), and
a parsed number is spelled in canonical decimal form (`canonicalString`): no exponent, no
superfluous zeroes, one leading zero before a fraction.
-/

namespace AuxStorage

open List
open ParsedDynamodbNumber (magnitude parse payload signTag)

/-! ### Decoding a key -/

/-- The number zero, as the parser and the decoder return it. -/
def ParsedDynamodbNumber.zero : ParsedDynamodbNumber :=
  { negative := false, adjustedExponent := 0, digits := [], isZero := true }

open ParsedDynamodbNumber

/-- The sign of a nonzero key, from its tag. -/
def signOfTag (tag : UInt8) : Except String Bool :=
  if tag = 0 then pure true
  else if tag = 2 then pure false
  else .error "number key has an invalid sign tag"

def decodeNumberBytes (bytes : List UInt8) : Except String ParsedDynamodbNumber :=
  if bytes.length ≠ numberKeyBytes then
    .error "number key has an invalid byte length"
  else if bytes.headD 0 = 1 then
    if bytes.tail.any (· ≠ 0) then
      .error "zero number key has a non-zero payload"
    else
      pure .zero
  else do
    let negative ← signOfTag (bytes.headD 0)
    let payload := bytes.tail.map (complementIf negative)
    let adjustedExponent : ℤ :=
      ((payload.getD 0 0).toNat * 256 + (payload.getD 1 0).toNat : ℕ) - numberKeyExponentBias
    let digits := payload.drop 2
    if digits.any (!isAsciiDigit ·) then
      .error "number key has invalid digits"
    else
      let significant := digits.rdropWhile (· = 48)
      if significant = [] then
        .error "non-zero number key has no significant digits"
      else if numberKeyDigits < significant.length
          ∨ ¬(-130 ≤ adjustedExponent ∧ adjustedExponent ≤ 125) then
        .error "number key exponent or precision is out of range"
      else
        pure { negative, adjustedExponent, digits := significant, isZero := false }

/-! ### Canonical text -/

def ParsedDynamodbNumber.significantDigits (n : ParsedDynamodbNumber) :
    Except DynamodbNumberError Text :=
  okOr .invalid (Text.fromUtf8 n.digits)

/-- The unsigned canonical text of a nonzero number with the given digits. -/
def canonicalMagnitude (decimalPosition : ℤ) (digits : Text) : Text :=
  if decimalPosition ≤ 0 then
    "0.".toList ++ List.replicate decimalPosition.natAbs '0' ++ digits
  else if digits.length ≤ decimalPosition.toNat then
    digits ++ List.replicate (decimalPosition.toNat - digits.length) '0'
  else
    digits.take decimalPosition.toNat ++ '.' :: digits.drop decimalPosition.toNat

def ParsedDynamodbNumber.canonicalString (n : ParsedDynamodbNumber) :
    Except DynamodbNumberError Text :=
  if n.isZero then
    pure ['0']
  else do
    let digits ← n.significantDigits
    let value := canonicalMagnitude (n.adjustedExponent + 1) digits
    pure (if n.negative then '-' :: value else value)

def canonicalDynamodbNumber (value : Text) : Except DynamodbNumberError Text := do
  let number ← parse value
  number.canonicalString

def decodeDynamodbNumberKeyBytes (bytes : List UInt8) : Except String Text := do
  let number ← decodeNumberBytes bytes
  number.canonicalString.mapError DynamodbNumberError.message

/-! ### The key is decoded into its number -/

variable {core : List UInt8}

/-- Trailing zeroes are dropped from digits that do not end in one. -/
theorem rdropWhile_append_zeroes (h : core.getLast? ≠ some 48) (k : ℕ) :
    (core ++ List.replicate k 48).rdropWhile (· = 48) = core := by
  induction k with
  | zero =>
    rw [replicate_zero, append_nil]
    rcases core.eq_nil_or_concat with rfl | ⟨l, a, rfl⟩
    · rfl
    · have ha : a ≠ 48 := by simpa using h
      rw [concat_eq_append, rdropWhile_concat_neg _ _ _ (by simpa using ha)]
  | succ k ih =>
    rw [replicate_succ', ← append_assoc, rdropWhile_concat_pos _ _ _ (by simp), ih]

theorem complementIf_complementIf (negative : Bool) (byte : UInt8) :
    complementIf negative (complementIf negative byte) = byte := by
  cases negative <;> simp [complementIf]

variable {n : ParsedDynamodbNumber} {bytes : List UInt8}

/-- **The key is decoded into its number.** -/
theorem decodeNumberBytes_encodeNumberBytesInto (h : n.WellFormed)
    (hbytes : encodeNumberBytesInto n = .ok bytes) : decodeNumberBytes bytes = .ok n := by
  have hlen := length_encodeNumberBytesInto h hbytes
  rw [encodeNumberBytesInto_eq h, Except.ok.injEq] at hbytes
  subst hbytes
  rcases h with rfl | ⟨hz, hdigits, hlow, hhigh⟩
  · rfl
  rw [decodeNumberBytes, if_neg (not_not.mpr hlen)]
  have hpayload : (n.payload.map (complementIf n.negative)).map (complementIf n.negative)
      = n.payload := by
    simp [Function.comp_def, complementIf_complementIf]
  have hexponent : (((n.payload.getD 0 0).toNat * 256 + (n.payload.getD 1 0).toNat : ℕ) : ℤ)
      - numberKeyExponentBias = n.adjustedExponent := by
    simp only [payload, cons_append, getD_cons_zero,
      getD_cons_succ, UInt8.toNat_ofNat', numberKeyExponentBias]
    omega
  have hdrop : n.payload.drop 2 = paddedDigits n.digits := rfl
  have hall : (paddedDigits n.digits).any (!isAsciiDigit ·) = false := by
    rw [any_eq_false]
    intro byte hbyte
    simp [paddedDigits_digit hdigits byte hbyte]
  have hsignificant : (paddedDigits n.digits).rdropWhile (· = 48) = n.digits := by
    rw [paddedDigits_eq hdigits.length_le, rdropWhile_append_zeroes hdigits.last_ne]
  have htag : signOfTag n.signTag = .ok n.negative ∧ n.signTag ≠ 1 := by
    rcases hs : n.negative <;> simp [signTag, hz, hs, signOfTag] <;> rfl
  simp only [headD_cons, tail_cons, htag.1, htag.2, hz, if_false, Bool.false_eq_true,
    bind, Except.bind, hpayload, hexponent, hdrop, hall, hsignificant, hdigits.ne_nil]
  rw [if_neg (by have := hdigits.length_le; omega), ← hz]
  rfl

variable {l r : ParsedDynamodbNumber}

theorem ParsedDynamodbNumber.eq_of_value (hl : l.WellFormed) (hr : r.WellFormed)
    (h : l.value = r.value) : l = r := by
  have hlBytes := encodeNumberBytesInto_eq hl
  have hrBytes := encodeNumberBytesInto_eq hr
  generalize (l.signTag :: _) = lBytes at hlBytes
  generalize (r.signTag :: _) = rBytes at hrBytes
  have hcompare := compareLex_encodeNumberBytesInto hl hr hlBytes hrBytes
  rw [compare_eq_iff_eq.mpr h, Std.LawfulEqCmp.compare_eq_iff_eq] at hcompare
  have hldec := decodeNumberBytes_encodeNumberBytesInto hl hlBytes
  rw [hcompare, decodeNumberBytes_encodeNumberBytesInto hr hrBytes] at hldec
  exact (Except.ok.inj hldec).symm

/-- A text that spells a number in range is read as that number. -/
theorem parseBytes_spelled {input : List UInt8} (hlen : input.length < 2 ^ 31)
    (htext : NumberText input) (hn : n.WellFormed) (hvalue : decimalValue input = n.value) :
    parseBytes input = .ok n := by
  obtain ⟨n', hn'⟩ := exists_parseBytes hlen htext (hvalue ▸ hn.representable)
  rw [hn', eq_of_value (parseBytes_wellFormed hn') hn
    ((parseBytes_value hn').trans hvalue)]

/-! ### The canonical text is read back -/

/-- The digits, or any other ASCII bytes, as a text. -/
def asciiText (bytes : List UInt8) : Text :=
  bytes.map fun byte => Char.ofNat byte.toNat

theorem bytes_asciiText (h : ∀ byte ∈ bytes, byte.toNat < 128) :
    (asciiText bytes).bytes = bytes := by
  induction bytes with
  | nil => rfl
  | cons byte bytes ih =>
    have hbyte := h byte mem_cons_self
    have hvalid : byte.toNat.isValidChar := Or.inl (by omega)
    have hval : (Char.ofNat byte.toNat).val = byte.toUInt32 := by
      rw [Char.ofNat, dif_pos hvalid]
      exact UInt32.toNat_inj.mp (by simp [Char.ofNatAux])
    have hsize : (Char.ofNat byte.toNat).utf8Size = 1 := by
      rw [Char.utf8Size_eq_one_iff, hval, UInt32.le_iff_toNat_le]
      simp
      omega
    have htail := ih fun b hb => h b (mem_cons_of_mem _ hb)
    simp only [asciiText, Text.bytes, map_cons, flatMap_cons] at htail ⊢
    rw [htail, String.utf8EncodeChar_eq_singleton hsize, hval]
    simp

variable {digits : List UInt8}

theorem fromUtf8_digits (h : ∀ byte ∈ digits, isAsciiDigit byte) :
    Text.fromUtf8 digits = some (asciiText digits) := by
  rw [Text.fromUtf8_eq_some, bytes_asciiText]
  intro byte hbyte
  have := (isAsciiDigit_iff byte).mp (h byte hbyte)
  omega

theorem bytes_replicate_zero (k : ℕ) : Text.bytes (List.replicate k '0') = List.replicate k 48 := by
  induction k with
  | zero => rfl
  | succ k ih =>
    rw [replicate_succ, replicate_succ, Text.bytes_cons, ih]
    rfl

/-! ### Pointed digits -/

/-- `append_decimal_digits`: the digits from an index on, with the point before the digit at
`point`. -/
def appendDecimalDigits (point : ℤ) : ℕ → List UInt8 → List UInt8
  | _, [] => []
  | index, byte :: rest =>
    (if 0 < index ∧ (index : ℤ) = point then [46] else [])
      ++ byte :: appendDecimalDigits point (index + 1) rest

/-- The zeroes and the point before the digits. -/
def leadingZeroes (point : ℤ) : List UInt8 :=
  if point ≤ 0 then [48, 46] ++ List.replicate (min point 0).natAbs 48 else []

/-- Digits with the point at a position, which may lie before or behind them. -/
def pointedDigits (point : ℤ) (digits : List UInt8) : List UInt8 :=
  leadingZeroes point ++ appendDecimalDigits point 0 digits
    ++ List.replicate (point - digits.length).toNat 48

section Pointed

variable {point : ℤ}

/-- A point that is before or behind the digits is not written. -/
theorem appendDecimalDigits_of_outside (index : ℕ)
    (h : point < index ∨ index = 0 ∧ point ≤ 0 ∨ index + digits.length ≤ point) :
    appendDecimalDigits point index digits = digits := by
  induction digits generalizing index with
  | nil => rfl
  | cons byte rest ih =>
    rw [length_cons] at h
    push_cast at h
    have hno : ¬(0 < index ∧ (index : ℤ) = point) := by omega
    rw [appendDecimalDigits, if_neg hno, nil_append, ih (index + 1) (by push_cast; omega)]

/-- The point goes before the digit at its place. -/
theorem appendDecimalDigits_eq {place : ℕ} (index : ℕ) (hplace : 0 < place)
    (hlt : place < digits.length) (hpoint : point = index + place) :
    appendDecimalDigits point index digits = digits.take place ++ 46 :: digits.drop place := by
  induction digits generalizing index place with
  | nil => simp at hlt
  | cons byte rest ih =>
    have hno : ¬(0 < index ∧ (index : ℤ) = point) := by omega
    rw [appendDecimalDigits, if_neg hno, nil_append]
    rw [length_cons] at hlt
    obtain ⟨place, rfl⟩ : ∃ k, place = k + 1 := ⟨place - 1, by omega⟩
    rw [take_succ_cons, drop_succ_cons, cons_append, cons.injEq]
    refine ⟨rfl, ?_⟩
    cases place with
    | zero =>
      cases rest with
      | nil => simp at hlt
      | cons next rest =>
        rw [appendDecimalDigits, if_pos (by push_cast at hpoint ⊢; omega)]
        rw [appendDecimalDigits_of_outside (index + 2) (by push_cast at hpoint ⊢; omega)]
        rfl
    | succ place =>
      exact ih (index + 1) (by omega) (by omega) (by push_cast at hpoint ⊢; omega)

/-- Pointed digits are a mantissa with these digits, padded with zeroes. -/
theorem exists_mantissaText_pointedDigits (point : ℤ)
    (hdigits : ∀ byte ∈ digits, isAsciiDigit byte) (hne : digits ≠ []) :
    ∃ integer fractional hasPoint,
      pointedDigits point digits = mantissaText integer fractional hasPoint ∧
      (∀ byte ∈ integer, isAsciiDigit byte) ∧ (∀ byte ∈ fractional, isAsciiDigit byte) ∧
      (hasPoint = false → fractional = []) ∧ integer ++ fractional ≠ [] ∧
      (digitsValue (integer ++ fractional) : ℚ) * 10 ^ (-(fractional.length : ℤ))
        = digitsValue digits * 10 ^ (point - digits.length) := by
  have hpos := length_pos_iff.mpr hne
  unfold pointedDigits
  have hzeroes (k : ℕ) : ∀ byte ∈ replicate k (48 : UInt8), isAsciiDigit byte := by
    intro byte hbyte
    rw [eq_of_mem_replicate hbyte]
    decide
  rcases le_or_gt point 0 with hsmall | hlarge
  · -- `0.` and zeroes before the digits.
    refine ⟨[48], replicate (min point 0).natAbs 48 ++ digits, true, ?_,
      by simpa using hzeroes 1, ?_, by simp, by simp, ?_⟩
    · rw [leadingZeroes, if_pos hsmall, appendDecimalDigits_of_outside 0 (by omega),
        Int.toNat_of_nonpos (by omega)]
      simp [mantissaText]
    · exact forall_mem_append.mpr ⟨hzeroes _, hdigits⟩
    · have hvalue := digitsValue_pad ((min point 0).natAbs + 1) 0 digits
      have hlist : [48] ++ (replicate (min point 0).natAbs 48 ++ digits)
          = replicate ((min point 0).natAbs + 1) 48 ++ digits ++ replicate 0 48 := by
        simp [replicate_succ]
      rw [hlist, hvalue]
      have hexponent : -((replicate (min point 0).natAbs (48 : UInt8) ++ digits).length : ℤ)
          = point - digits.length := by
        rw [length_append, length_replicate]
        push_cast
        rw [min_eq_left hsmall, abs_of_nonpos hsmall]
        ring
      rw [hexponent, pow_zero, mul_one]
  · obtain ⟨place, rfl⟩ := Int.eq_ofNat_of_zero_le hlarge.le
    have hlead : leadingZeroes (place : ℤ) = [] := if_neg (by omega)
    rcases lt_or_ge place digits.length with hinside | houtside
    · -- The point is inside the digits.
      refine ⟨digits.take place, digits.drop place, true, ?_,
        fun byte hbyte => hdigits byte (mem_of_mem_take hbyte),
        fun byte hbyte => hdigits byte (mem_of_mem_drop hbyte), by simp, by simpa using hne, ?_⟩
      · rw [hlead, appendDecimalDigits_eq 0 (by omega) hinside (by simp),
          Int.toNat_of_nonpos (by omega)]
        simp [mantissaText]
      · rw [take_append_drop, length_drop]
        congr 2
        omega
    · -- Zeroes behind the digits.
      refine ⟨digits ++ replicate (place - digits.length) 48, [], false, ?_,
        forall_mem_append.mpr ⟨hdigits, hzeroes _⟩, by simp, by simp, by simp [hne], ?_⟩
      · rw [hlead, appendDecimalDigits_of_outside 0 (by omega)]
        have : ((place : ℤ) - digits.length).toNat = place - digits.length := by omega
        simp [mantissaText, this]
      · have hvalue := digitsValue_pad 0 (place - digits.length) digits
        rw [replicate_zero, nil_append] at hvalue
        rw [append_nil, hvalue]
        have hexponent : (place : ℤ) - digits.length = ((place - digits.length : ℕ) : ℤ) := by
          omega
        rw [hexponent, zpow_natCast]
        simp

theorem length_appendDecimalDigits (point : ℤ) (digits : List UInt8) :
    (appendDecimalDigits point 0 digits).length
      = digits.length + if 0 < point ∧ point < digits.length then 1 else 0 := by
  split_ifs with h
  · have hpoint : point = ((0 : ℕ) : ℤ) + (point.toNat : ℕ) := by omega
    rw [appendDecimalDigits_eq 0 (by omega) (by omega) hpoint, length_append, length_cons,
      length_take, length_drop]
    omega
  · rw [appendDecimalDigits_of_outside 0 (by omega), add_zero]

theorem length_pointedDigits (point : ℤ) (hne : digits ≠ []) :
    (pointedDigits point digits).length
      = digits.length + (min point 0).natAbs + (point - digits.length).toNat
        + ((if point < digits.length then 1 else 0) + (if point ≤ 0 then 1 else 0)) := by
  have hpos := length_pos_iff.mpr hne
  have hlead : (leadingZeroes point).length = if point ≤ 0 then 2 + point.natAbs else 0 := by
    rw [leadingZeroes]
    split_ifs with h
    · simp only [min_eq_left h, length_append, length_cons, length_nil, length_replicate]
    · rfl
  simp only [pointedDigits, length_append, length_replicate, length_appendDecimalDigits, hlead]
  split_ifs <;> omega

/-- **Signed pointed digits** are a text without exponent, of the number that they spell. -/
theorem spelled_pointedDigits (negative : Bool) (point : ℤ)
    (hdigits : ∀ byte ∈ digits, isAsciiDigit byte) (hne : digits ≠ []) :
    NumberText ((if negative then [45] else []) ++ pointedDigits point digits) ∧
      decimalValue ((if negative then [45] else []) ++ pointedDigits point digits)
        = (if negative then -1 else 1) * (digitsValue digits * 10 ^ (point - digits.length)) ∧
      ∀ byte ∈ (if negative then [45] else []) ++ pointedDigits point digits,
        isAsciiDigit byte ∨ byte = 45 ∨ byte = 46 := by
  obtain ⟨i, f, p, htext, hi, hf, hp, hif, hvalue⟩ :=
    exists_mantissaText_pointedDigits point hdigits hne
  rw [htext, ← append_nil (mantissaText i f p)]
  refine ⟨numberText_spelled (by cases negative <;> simp) hi hf hp hif, ?_, ?_⟩
  · rw [decimalValue_spelled (by cases negative <;> simp) hi hf hp hif (by rintro _ ⟨⟩),
      show exponentValue [] - (f.length : ℤ) = -(f.length : ℤ) by simp [exponentValue], hvalue]
    cases negative <;> simp
  · simp only [mantissaText, append_nil, mem_append]
    rintro byte (hbyte | hbyte | hbyte)
    · cases negative <;> simp_all
    · exact .inl (hi byte hbyte)
    · cases p with
      | false => cases hbyte
      | true =>
        rcases mem_cons.mp hbyte with rfl | hbyte
        · simp
        · exact .inl (hf byte hbyte)

end Pointed

/-- The bytes of the canonical text of digits. -/
theorem bytes_canonicalMagnitude (h : ∀ byte ∈ digits, isAsciiDigit byte) (position : ℤ) :
    (canonicalMagnitude position (asciiText digits)).bytes = pointedDigits position digits := by
  have hascii : ∀ l : List UInt8, (∀ byte ∈ l, byte ∈ digits) → (asciiText l).bytes = l := by
    intro l hl
    refine bytes_asciiText fun byte hbyte => ?_
    have := (isAsciiDigit_iff byte).mp (h byte (hl byte hbyte))
    omega
  have hlen : (asciiText digits).length = digits.length := by simp [asciiText]
  rw [canonicalMagnitude, hlen, pointedDigits, leadingZeroes]
  split_ifs with hsmall hlong
  · rw [Text.bytes_append, Text.bytes_append, bytes_replicate_zero, hascii digits fun _ hb => hb,
      appendDecimalDigits_of_outside 0 (by omega), Int.toNat_of_nonpos (by omega),
      min_eq_left hsmall]
    simp
    rfl
  · rw [Text.bytes_append, bytes_replicate_zero, hascii digits fun _ hb => hb,
      appendDecimalDigits_of_outside 0 (by omega), nil_append,
      show (position - digits.length).toNat = position.toNat - digits.length by omega]
  · have htake : (asciiText digits).take position.toNat
        = asciiText (digits.take position.toNat) := by simp [asciiText]
    have hdrop : (asciiText digits).drop position.toNat
        = asciiText (digits.drop position.toNat) := by simp [asciiText]
    have hpoint : position = ((0 : ℕ) : ℤ) + (position.toNat : ℕ) := by omega
    rw [Text.bytes_append, Text.bytes_cons, htake, hdrop, hascii _ fun _ hb => mem_of_mem_take hb,
      hascii _ fun _ hb => mem_of_mem_drop hb,
      appendDecimalDigits_eq 0 (by omega) (by omega) hpoint,
      show (position - digits.length).toNat = 0 by omega]
    simp
    rfl

theorem exists_canonicalString (hz : n.isZero = false) (hdigits : NormalDigits n.digits) :
    ∃ text, n.canonicalString = .ok text ∧ text.bytes
      = (if n.negative then [45] else []) ++ pointedDigits (n.adjustedExponent + 1) n.digits := by
  refine ⟨(if n.negative then ['-'] else [])
    ++ canonicalMagnitude (n.adjustedExponent + 1) (asciiText n.digits), ?_, ?_⟩
  · rw [canonicalString, hz, significantDigits, fromUtf8_digits hdigits.digit]
    cases n.negative <;> rfl
  · rw [Text.bytes_append, bytes_canonicalMagnitude hdigits.digit]
    cases n.negative <;> rfl

/-- **The canonical text is read back** as the number it spells. -/
theorem parse_canonicalString (h : n.WellFormed) :
    ∃ text, n.canonicalString = .ok text ∧ parse text = .ok n
      ∧ text ≠ [] ∧ text.bytes.length ≤ 170 := by
  have hwf := h
  rcases h with rfl | ⟨hz, hdigits, hlow, hhigh⟩
  · exact ⟨['0'], rfl, by decide, by decide, by decide⟩
  have hlen := hdigits.length_le
  have hpos := length_pos_iff.mpr hdigits.ne_nil
  obtain ⟨text, hcanonical, hbytes⟩ := exists_canonicalString hz hdigits
  obtain ⟨hspelled, hvalue, -⟩ := spelled_pointedDigits n.negative (n.adjustedExponent + 1)
    hdigits.digit hdigits.ne_nil
  rw [← hbytes] at hspelled hvalue
  have hlength : text.bytes.length ≤ 170 := by
    have hsign : (if n.negative then [(45 : UInt8)] else []).length ≤ 1 := by
      cases n.negative <;> simp
    rw [hbytes, length_append, length_pointedDigits _ hdigits.ne_nil]
    simp only [numberKeyDigits] at hlen
    split_ifs at hsign ⊢ <;> omega
  refine ⟨text, hcanonical, parseBytes_spelled (by omega) hspelled hwf ?_, ?_, hlength⟩
  · -- The text denotes the number, and there is one normal form of it.
    have hshift : n.adjustedExponent + 1 - n.digits.length
        = n.adjustedExponent - (n.digits.length - 1) := by ring
    rw [hvalue, hshift, value, hz, magnitude]
    cases n.negative <;> simp
  · rintro rfl
    have := congrArg length hbytes
    rw [length_append, length_pointedDigits _ hdigits.ne_nil] at this
    simp only [Text.bytes, flatMap_nil, length_nil] at this
    omega

theorem canonicalDynamodbNumber_of_parse {value : Text} (h : parse value = .ok n) :
    ∃ text, canonicalDynamodbNumber value = .ok text ∧ parse text = .ok n := by
  obtain ⟨text, htext, hparse, -⟩ := parse_canonicalString (parseBytes_wellFormed h)
  refine ⟨text, ?_, hparse⟩
  rw [canonicalDynamodbNumber, h]
  exact htext

/-- **Canonical texts are equal exactly when the numbers are.** -/
theorem canonicalDynamodbNumber_eq_iff {a b : Text} (ha : parse a = .ok l) (hb : parse b = .ok r) :
    canonicalDynamodbNumber a = canonicalDynamodbNumber b
      ↔ decimalValue a.bytes = decimalValue b.bytes := by
  have hlw := parseBytes_wellFormed ha
  have hrw := parseBytes_wellFormed hb
  rw [← parseBytes_value ha, ← parseBytes_value hb]
  obtain ⟨s, hs, hparses⟩ := canonicalDynamodbNumber_of_parse ha
  obtain ⟨t, ht, hparset⟩ := canonicalDynamodbNumber_of_parse hb
  constructor
  · intro heq
    rw [hs, ht, Except.ok.injEq] at heq
    rw [heq, hparset, Except.ok.injEq] at hparses
    rw [hparses]
  · intro hvalue
    obtain rfl := eq_of_value hlw hrw hvalue
    rw [canonicalDynamodbNumber, ha, canonicalDynamodbNumber, hb]

end AuxStorage
