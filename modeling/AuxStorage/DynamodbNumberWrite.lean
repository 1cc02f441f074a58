import AuxStorage.DynamodbNumberCanonical

/-!
# Numbers as They Are Written

Before an item is stored, numbers in scientific notation are expanded: the digits stay as they are,
and the point is moved by the exponent. Only texts that are too long, before or after, get the
canonical spelling. Texts without an exponent are kept, with all their zeroes.
-/

namespace AuxStorage

open List

/-! ### The expansion -/

def dynamodbWriteNumberBytes : ℕ := 130 + numberKeyDigits + 3

/-- A byte that is no exponent mark. -/
def notExponentMark (byte : UInt8) : Bool :=
  byte != 101 && byte != 69

/-- `str::parse::<i32>`, on the bytes of a text. -/
def parseI32Bytes (bytes : List UInt8) : Option ℤ :=
  let digits := skipSign bytes
  if digits = [] ∨ digits.all isAsciiDigit = false then none
  else
    let value : ℤ := if bytes.head? = some 45 then -digitsValue digits else digitsValue digits
    if -2 ^ 31 ≤ value ∧ value < 2 ^ 31 then some value else none

def expandScientificNumber (value : List UInt8) : Option (List UInt8) :=
  let mantissa := value.takeWhile notExponentMark
  match value.dropWhile notExponentMark with
  | [] => none
  | _ :: exponent => do
      let exponent ← parseI32Bytes exponent
      let negative : Bool := mantissa.head? = some 45
      let mantissa := mantissa.dropWhile fun byte => byte = 43 ∨ byte = 45
      let integer := mantissa.takeWhile (· != 46)
      let fractional := (mantissa.dropWhile (· != 46)).tail
      let digits := integer ++ fractional
      if digits = [] ∨ digits.all isAsciiDigit = false then none
      else
        let point : ℤ := integer.length + exponent
        let suffixZeroes := (point - digits.length).toNat
        let sign : Bool := negative && !(digits.length = 1 ∧ point = 1 ∧ 48 ∈ mantissa)
        let outputBytes := digits.length + (min point 0).natAbs + suffixZeroes
          + ((if point < digits.length then 1 else 0) + (if point ≤ 0 then 1 else 0))
          + (if sign then 1 else 0)
        if dynamodbWriteNumberBytes < outputBytes then none
        else some ((if sign then [45] else []) ++ leadingZeroes point
          ++ appendDecimalDigits point 0 digits ++ List.replicate suffixZeroes 48)

def numberNeedsWriteNormalization (value : Text) : Bool :=
  dynamodbWriteNumberBytes < value.bytes.length || value.bytes.any fun byte => !notExponentMark byte

def normalizeDynamodbNumberForWrite (value : Text) : Text :=
  if numberNeedsWriteNormalization value = false then value
  else
    let expanded := if value.bytes.length ≤ dynamodbWriteNumberBytes then
      expandScientificNumber value.bytes else none
    match expanded with
    | some bytes => asciiText bytes
    | none => (canonicalDynamodbNumber value).toOption.getD value

/-! ### The number of an expansion -/

variable {bytes : List UInt8}

/-- A signed number is its own exponent. -/
theorem exponentValue_of_parseI32Bytes {mark : UInt8} (hmark : notExponentMark mark = false)
    {exponent : ℤ} (h : parseI32Bytes bytes = some exponent) :
    exponentValue (mark :: bytes) = exponent := by
  have hhead : (mark :: bytes).head? = some 101 ∨ (mark :: bytes).head? = some 69 := by
    simpa [notExponentMark, or_iff_not_imp_left] using hmark
  rw [exponentValue, if_pos hhead, tail_cons]
  rw [parseI32Bytes] at h
  simp only at h
  by_cases hbad : skipSign bytes = [] ∨ (skipSign bytes).all isAsciiDigit = false
  · rw [if_pos hbad] at h
    cases h
  rw [if_neg hbad] at h
  have hall : (skipSign bytes).takeWhile isAsciiDigit = skipSign bytes := by
    rw [takeWhile_eq_self_iff]
    intro byte hbyte
    simp only [not_or, Bool.not_eq_false, all_eq_true] at hbad
    exact hbad.2 byte hbyte
  rw [hall]
  split_ifs at h with hneg hrange hrange
  · exact (if_pos hneg).trans (Option.some.inj h)
  · exact (if_neg hneg).trans (Option.some.inj h)

variable {n : ParsedDynamodbNumber}

/-- An accepted number has one sign at most. -/
theorem not_signAhead_of_parse {input : List UInt8} (h : parseBytes input = .ok n) :
    signAhead (skipSign input) = false := by
  obtain ⟨number, hnumber, -⟩ := Except.bind_eq_ok.mp h
  obtain ⟨integer, fractional, rest, hparts, hne, -⟩ := parseDecimalBytes_parts hnumber
  -- A second sign is neither a digit nor the point.
  rw [Bool.eq_false_iff]
  intro hsign
  cases hskip : skipSign input with
  | nil => simp [hskip, signAhead] at hsign
  | cons byte bytes =>
    have hbyte : byte = 43 ∨ byte = 45 := by simpa [hskip, signAhead] using hsign
    have hdigit : isAsciiDigit byte = false := by rcases hbyte with rfl | rfl <;> decide
    have hpoint : byte ≠ 46 := by rcases hbyte with rfl | rfl <;> decide
    rw [hskip, mantissaParts] at hparts
    simp only [hdigit, takeWhile_cons, dropWhile_cons, Bool.false_eq_true, if_false, head?_cons,
      Option.some.injEq, hpoint, Prod.mk.injEq] at hparts
    exact hne (by simp [← hparts.1, ← hparts.2.1])

/-- The two parts of a mantissa. -/
theorem eq_mantissaText (mantissa : List UInt8) :
    mantissa = mantissaText (mantissa.takeWhile (· != 46)) (mantissa.dropWhile (· != 46)).tail
        (decide (46 ∈ mantissa)) ∧
      (decide (46 ∈ mantissa) = false → (mantissa.dropWhile (· != 46)).tail = []) := by
  induction mantissa with
  | nil => simp [mantissaText]
  | cons byte rest ih =>
    by_cases hbyte : byte = 46
    · subst hbyte
      simp [mantissaText]
    · have hmem : (46 ∈ byte :: rest) = (46 ∈ rest) := by simp [Ne.symm hbyte]
      have htest : (byte != 46) = true := by simpa using hbyte
      simp only [takeWhile_cons, dropWhile_cons, htest, if_true, hmem]
      refine ⟨?_, ih.2⟩
      rw [mantissaText, cons_append, ← mantissaText]
      exact congrArg (byte :: ·) ih.1

/-- Signs that are skipped one by one are skipped at once, where there is one at most. -/
theorem dropWhile_sign {mantissa : List UInt8} (h : signAhead (skipSign mantissa) = false) :
    (mantissa.dropWhile fun byte => byte = 43 ∨ byte = 45) = skipSign mantissa := by
  have hstop {rest : List UInt8} (hrest : signAhead rest = false) :
      (rest.dropWhile fun byte => byte = 43 ∨ byte = 45) = rest := by
    cases rest with
    | nil => rfl
    | cons byte rest =>
      have : ¬(byte = 43 ∨ byte = 45) := by simpa [signAhead] using hrest
      exact dropWhile_cons_of_neg (by simpa using this)
  cases hsign : signAhead mantissa with
  | false => rw [skipSign, if_neg (by simp [hsign]), hstop hsign]
  | true =>
    rw [skipSign, if_pos hsign] at h ⊢
    cases mantissa with
    | nil => cases hsign
    | cons byte rest =>
      have : byte = 43 ∨ byte = 45 := by simpa [signAhead] using hsign
      rw [dropWhile_cons_of_pos (by simpa using this)]
      exact hstop h

theorem exists_sign (bytes : List UInt8) :
    ∃ sign, bytes = sign ++ skipSign bytes ∧ (sign = [] ∨ sign = [43] ∨ sign = [45]) ∧
      (bytes.head? = some 45 ↔ sign = [45]) := by
  cases bytes with
  | nil => exact ⟨[], rfl, .inl rfl, by simp⟩
  | cons byte rest =>
    by_cases hplus : byte = 43
    · subst hplus
      exact ⟨[43], rfl, .inr (.inl rfl), by simp⟩
    · by_cases hminus : byte = 45
      · subst hminus
        exact ⟨[45], rfl, .inr (.inr rfl), by simp⟩
      · refine ⟨[], ?_, .inl rfl, by simpa using hminus⟩
        simp [skipSign, signAhead, hplus, hminus]

theorem skipSign_append (hne : bytes ≠ []) (rest : List UInt8) :
    skipSign (bytes ++ rest) = skipSign bytes ++ rest := by
  cases bytes with
  | nil => exact absurd rfl hne
  | cons byte bytes =>
    have hahead : signAhead (byte :: bytes ++ rest) = signAhead (byte :: bytes) := rfl
    rw [skipSign, skipSign, hahead]
    split <;> rfl

theorem signAhead_of_append {rest : List UInt8} (h : signAhead (bytes ++ rest) = false) :
    signAhead bytes = false := by
  cases bytes with
  | nil => rfl
  | cons byte bytes => exact h

variable {value expanded : List UInt8}

/-- An expansion has the size it was given room for. -/
theorem length_expandScientificNumber (h : expandScientificNumber value = some expanded) :
    expanded.length ≤ dynamodbWriteNumberBytes := by
  rw [expandScientificNumber] at h
  simp only at h
  split at h
  · cases h
  · obtain ⟨exponent, -, h⟩ := Option.bind_eq_some_iff.mp h
    obtain ⟨hbad, h⟩ := Option.ite_none_left_eq_some.mp h
    obtain ⟨hroom, h⟩ := Option.ite_none_left_eq_some.mp h
    have hparts : ∀ sign point (digits : List UInt8), sign ++ leadingZeroes point
        ++ appendDecimalDigits point 0 digits ++ replicate (point - digits.length).toNat 48
        = sign ++ pointedDigits point digits := by simp [pointedDigits]
    rw [← Option.some.inj h, hparts, length_append, length_pointedDigits _ (not_or.mp hbad).1]
    split_ifs at hroom ⊢ <;> simp at hroom ⊢ <;> omega

theorem plain_of_spelled {byte : UInt8} (h : isAsciiDigit byte ∨ byte = 45 ∨ byte = 46) :
    byte.toNat < 128 ∧ notExponentMark byte = true := by
  rcases h with h | rfl | rfl
  · have := (isAsciiDigit_iff byte).mp h
    refine ⟨by omega, ?_⟩
    simp only [notExponentMark, Bool.and_eq_true, bne_iff_ne]
    constructor <;> rintro rfl <;> exact absurd h (by decide)
  · decide
  · decide

section Expansion

variable (hparse : parseBytes value = .ok n)
  (h : expandScientificNumber value = some expanded)

include hparse h

/-- An expansion in terms of the parts of the text: the sign, the digits around the point and the
exponent. -/
theorem exists_parts_of_expand :
    ∃ sign integer fractional hasPoint mark exponentBytes exponent,
      value = sign ++ (mantissaText integer fractional hasPoint ++ mark :: exponentBytes) ∧
      (sign = [] ∨ sign = [43] ∨ sign = [45]) ∧ notExponentMark mark = false ∧
      (hasPoint = false → fractional = []) ∧ parseI32Bytes exponentBytes = some exponent ∧
      integer ++ fractional ≠ [] ∧ (∀ byte ∈ integer ++ fractional, isAsciiDigit byte) ∧
      ∃ negative : Bool, (negative = true ↔ sign = [45] ∧ ¬((integer ++ fractional).length = 1 ∧
          (integer.length + exponent : ℤ) = 1 ∧ 48 ∈ mantissaText integer fractional hasPoint)) ∧
        expanded = (if negative then [45] else [])
          ++ pointedDigits (integer.length + exponent) (integer ++ fractional) := by
  rw [expandScientificNumber] at h
  simp only at h
  have hsplit := takeWhile_append_dropWhile (p := notExponentMark) (l := value)
  cases hrest : value.dropWhile notExponentMark with
  | nil =>
    rw [hrest] at h
    cases h
  | cons mark exponentBytes =>
    rw [hrest] at h hsplit
    have hmark : notExponentMark mark = false := by
      have := head?_dropWhile_not notExponentMark value
      simpa [hrest] using this
    obtain ⟨exponent, hexponent, h⟩ := Option.bind_eq_some_iff.mp h
    generalize value.takeWhile notExponentMark = mantissa at h hsplit
    have hsign : signAhead (skipSign mantissa) = false := by
      cases mantissa with
      | nil => rfl
      | cons byte mantissa =>
        have := not_signAhead_of_parse hparse
        rw [← hsplit, skipSign_append (cons_ne_nil _ _)] at this
        exact signAhead_of_append this
    rw [dropWhile_sign hsign] at h
    obtain ⟨htext, hnoPoint⟩ := eq_mantissaText (skipSign mantissa)
    obtain ⟨sign, hmantissa, hsigns, hnegative⟩ := exists_sign mantissa
    obtain ⟨hbad, h⟩ := Option.ite_none_left_eq_some.mp h
    obtain ⟨-, h⟩ := Option.ite_none_left_eq_some.mp h
    obtain ⟨hne, hdigits⟩ := not_or.mp hbad
    simp only [Bool.not_eq_false, all_eq_true] at hdigits
    refine ⟨sign, _, _, _, mark, exponentBytes, exponent, ?_, hsigns, hmark, hnoPoint, hexponent,
      hne, hdigits,
      decide (mantissa.head? = some 45) && !decide (((skipSign mantissa).takeWhile (· != 46)
          ++ ((skipSign mantissa).dropWhile (· != 46)).tail).length = 1
        ∧ (((skipSign mantissa).takeWhile (· != 46)).length + exponent : ℤ) = 1
        ∧ 48 ∈ skipSign mantissa), ?_, ?_⟩
    · rw [← htext, ← append_assoc, ← hmantissa, hsplit]
    · rw [← htext, ← hnegative, Bool.and_eq_true, decide_eq_true_eq, Bool.not_eq_true',
        decide_eq_false_iff_not]
    · rw [← Option.some.inj h]
      simp only [pointedDigits, append_assoc]

theorem expandScientificNumber_spelled :
    NumberText expanded ∧ ∀ byte ∈ expanded, byte.toNat < 128 ∧ notExponentMark byte = true := by
  obtain ⟨sign, integer, fractional, hasPoint, mark, exponentBytes, exponent, rfl, -, -, -, -,
    hne, hdigits, negative, -, rfl⟩ := exists_parts_of_expand hparse h
  obtain ⟨htext, -, hbytes⟩ :=
    spelled_pointedDigits negative (integer.length + exponent) hdigits hne
  exact ⟨htext, fun byte hbyte => plain_of_spelled (hbytes byte hbyte)⟩

/-- **The expansion denotes the number of the text.** -/
theorem expandScientificNumber_value :
    decimalValue expanded = decimalValue value ∧ ∀ byte ∈ expanded, byte.toNat < 128 := by
  refine ⟨?_, fun byte hbyte => ((expandScientificNumber_spelled hparse h).2 byte hbyte).1⟩
  obtain ⟨sign, integer, fractional, hasPoint, mark, exponentBytes, exponent, rfl, hsigns, hmark,
    hpoint, hexponent, hne, hdigits, negative, hnegative, rfl⟩ := exists_parts_of_expand hparse h
  have hends : EndsMantissa (mark :: exponentBytes) := by
    rintro _ ⟨⟩
    have : mark = 101 ∨ mark = 69 := by
      simpa [notExponentMark, or_iff_not_imp_left] using hmark
    rcases this with rfl | rfl <;> decide
  obtain ⟨hinteger, hfractional⟩ := forall_mem_append.mp hdigits
  have hshift : (integer.length + exponent : ℤ) - (integer ++ fractional).length
      = exponent - fractional.length := by
    rw [length_append]
    push_cast
    ring
  rw [(spelled_pointedDigits negative (integer.length + exponent) hdigits hne).2.1, hshift,
    decimalValue_spelled hsigns hinteger hfractional hpoint hne hends,
    exponentValue_of_parseI32Bytes hmark hexponent]
  -- The sign is left out for a zero only.
  by_cases hminus : sign = [45]
  · cases negative with
    | true => simp [hminus]
    | false =>
      obtain ⟨hone, -, hmem⟩ : (integer ++ fractional).length = 1 ∧
          (integer.length + exponent : ℤ) = 1 ∧
            48 ∈ mantissaText integer fractional hasPoint := by
        by_contra hno
        exact absurd (hnegative.mpr ⟨hminus, hno⟩) (by simp)
      have hmem : (48 : UInt8) ∈ integer ++ fractional := by
        cases hasPoint with
        | false => exact mem_append_left _ (by simpa [mantissaText] using hmem)
        | true => simpa [mantissaText] using hmem
      obtain ⟨digit, hdigit⟩ := length_eq_one_iff.mp hone
      rw [hdigit] at hmem ⊢
      rw [← mem_singleton.mp hmem]
      simp [show digitsValue [48] = 0 from rfl]
  · have : negative = false := by
      rw [Bool.eq_false_iff]
      exact fun htrue => hminus (hnegative.mp htrue).1
    simp [this, hminus]

end Expansion

theorem notExponentMark_canonicalString (hn : n.WellFormed) {text : Text}
    (h : n.canonicalString = .ok text) : ∀ byte ∈ text.bytes, notExponentMark byte = true := by
  rcases hn with rfl | ⟨hz, hdigits, -⟩
  · cases h
    exact forall_mem_singleton.mpr (by decide)
  · obtain ⟨_, hcanonical, hbytes⟩ := exists_canonicalString hz hdigits
    cases hcanonical.symm.trans h
    rw [hbytes]
    exact fun byte hbyte => (plain_of_spelled ((spelled_pointedDigits _ _ hdigits.digit
      hdigits.ne_nil).2.2 byte hbyte)).2

theorem normalizeDynamodbNumberForWrite_of_plain {value : Text}
    (hlength : value.bytes.length ≤ dynamodbWriteNumberBytes)
    (hplain : ∀ byte ∈ value.bytes, notExponentMark byte = true) :
    normalizeDynamodbNumberForWrite value = value := by
  rw [normalizeDynamodbNumberForWrite, if_pos]
  simpa [numberNeedsWriteNormalization, hlength] using hplain

/-- The written text fits, has no exponent and is read as the same number. -/
theorem normalizeDynamodbNumberForWrite_plain {value : Text}
    (h : ParsedDynamodbNumber.parse value = .ok n) :
    (normalizeDynamodbNumberForWrite value).bytes.length ≤ dynamodbWriteNumberBytes ∧
      (∀ byte ∈ (normalizeDynamodbNumberForWrite value).bytes, notExponentMark byte = true) ∧
      ParsedDynamodbNumber.parse (normalizeDynamodbNumberForWrite value) = .ok n := by
  rw [normalizeDynamodbNumberForWrite]
  split
  · next hkeep =>
    obtain ⟨hlength, hplain⟩ : value.bytes.length ≤ dynamodbWriteNumberBytes ∧
        ∀ byte ∈ value.bytes, notExponentMark byte = true := by
      simpa [numberNeedsWriteNormalization] using hkeep
    exact ⟨hlength, hplain, h⟩
  · simp only
    split
    · next bytes hbytes =>
      split_ifs at hbytes
      have hlength := length_expandScientificNumber hbytes
      obtain ⟨htext, hplain⟩ := expandScientificNumber_spelled h hbytes
      have hascii := bytes_asciiText fun byte hbyte => (hplain byte hbyte).1
      rw [ParsedDynamodbNumber.parse, hascii]
      refine ⟨hlength, fun byte hbyte => (hplain byte hbyte).2,
        parseBytes_spelled (hlength.trans_lt (by decide)) htext (parseBytes_wellFormed h) ?_⟩
      rw [(expandScientificNumber_value h hbytes).1, parseBytes_value h]
    · obtain ⟨text, htext, hparse, -, hlength⟩ := parse_canonicalString (parseBytes_wellFormed h)
      have hcanonical : canonicalDynamodbNumber value = .ok text := by
        rw [canonicalDynamodbNumber, h]
        exact htext
      rw [hcanonical]
      exact ⟨hlength.trans (by decide),
        notExponentMark_canonicalString (parseBytes_wellFormed h) htext, hparse⟩

/-- **The written number is the number.** -/
theorem decimalValue_normalizeDynamodbNumberForWrite {value : Text}
    (h : ParsedDynamodbNumber.parse value = .ok n) :
    decimalValue (normalizeDynamodbNumberForWrite value).bytes = decimalValue value.bytes := by
  obtain ⟨-, -, hparse⟩ := normalizeDynamodbNumberForWrite_plain h
  rw [← parseBytes_value hparse, parseBytes_value h]

/-- **Writing a number.** The text has no exponent and at most 171 bytes, it is read as the same
number, and it is not written differently again. An expansion denotes the number of the canonical
text. -/
theorem normalizeDynamodbNumberForWrite_spec {value : Text}
    (h : ParsedDynamodbNumber.parse value = .ok n) :
    (normalizeDynamodbNumberForWrite value).bytes.all notExponentMark = true ∧
      (normalizeDynamodbNumberForWrite value).bytes.length ≤ 171 ∧
      ParsedDynamodbNumber.parse (normalizeDynamodbNumberForWrite value) = .ok n ∧
      decimalValue (normalizeDynamodbNumberForWrite value).bytes = decimalValue value.bytes ∧
      normalizeDynamodbNumberForWrite (normalizeDynamodbNumberForWrite value)
        = normalizeDynamodbNumberForWrite value ∧
      ∀ expanded, expandScientificNumber value.bytes = some expanded →
        ∃ canonical, canonicalDynamodbNumber value = .ok canonical ∧
          decimalValue expanded = decimalValue canonical.bytes := by
  obtain ⟨hlength, hplain, hparse⟩ := normalizeDynamodbNumberForWrite_plain h
  refine ⟨all_eq_true.mpr hplain, hlength, hparse, decimalValue_normalizeDynamodbNumberForWrite h,
    normalizeDynamodbNumberForWrite_of_plain hlength hplain, ?_⟩
  intro expanded hexpanded
  obtain ⟨canonical, hcanonical, hsame⟩ := canonicalDynamodbNumber_of_parse h
  refine ⟨canonical, hcanonical, ?_⟩
  rw [(expandScientificNumber_value h hexpanded).1, ← parseBytes_value h, ← parseBytes_value hsame]

/-- A number whose point moves behind its digits. -/
theorem normalizeDynamodbNumberForWrite_moved :
    normalizeDynamodbNumberForWrite (text "-1.50e4") = text "-15000" ∧
      decimalValue (normalizeDynamodbNumberForWrite (text "-1.50e4")).bytes
        = decimalValue (text "-1.50e4").bytes :=
  ⟨by decide +kernel, (normalizeDynamodbNumberForWrite_spec (by rfl)).2.2.2.1⟩

end AuxStorage
