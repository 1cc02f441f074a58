import AuxStorage.DynamodbNumber
import AuxStorage.Lib.Positional

/-!
# What an Accepted Number Text Denotes

The exact rational of a decimal text is defined on the text itself (`decimalValue`), and
the streaming parser is shown to compute it: an accepted text yields a normal form whose
value is that rational.
-/

namespace AuxStorage

open List

/-! ### The rational denoted by a text -/

/-- The value of an ASCII digit. -/
def digitValue (byte : UInt8) : ℕ := byte.toNat - 48

/-- The natural number spelled by a string of ASCII digits. -/
def digitsValue (digits : List UInt8) : ℕ :=
  Positional.value 10 (digits.map digitValue)

/-- The mantissa digits of a text: those before and those after the point. -/
def mantissaParts (unsigned : List UInt8) : List UInt8 × List UInt8 × List UInt8 :=
  let integer := unsigned.takeWhile isAsciiDigit
  let rest := unsigned.dropWhile isAsciiDigit
  if rest.head? = some 46 then
    (integer, rest.tail.takeWhile isAsciiDigit, rest.tail.dropWhile isAsciiDigit)
  else
    (integer, [], rest)

/-- The exponent spelled after the mantissa, zero when there is none. -/
def exponentValue (rest : List UInt8) : ℤ :=
  if rest.head? = some 101 ∨ rest.head? = some 69 then
    let magnitude : ℤ := digitsValue ((skipSign rest.tail).takeWhile isAsciiDigit)
    if rest.tail.head? = some 45 then -magnitude else magnitude
  else
    0

/-- The exact rational a decimal text denotes: `± integer.fraction × 10 ^ exponent`. -/
def decimalValue (text : List UInt8) : ℚ :=
  let (integer, fractional, rest) := mantissaParts (skipSign text)
  let magnitude : ℚ := digitsValue (integer ++ fractional)
    * (10 : ℚ) ^ (exponentValue rest - fractional.length)
  if text.head? = some 45 then -magnitude else magnitude

/-! ### The mantissa reader -/

/-- `Reads m ds`: the reader `m` has consumed the digits `ds`. They are leading zeroes, a
core of significant digits that neither starts nor ends with a zero, and the deferred
zeroes. The core is stored as long as it fits the precision. -/
def MantissaDigits.Reads (m : MantissaDigits) (ds : List UInt8) : Prop :=
  ∃ (lead : ℕ) (core : List UInt8) (zeroes : ℕ),
    ds = List.replicate lead 48 ++ core ++ List.replicate zeroes 48 ∧
    m.significant = core.length ∧
    m.trailingZeroes = zeroes ∧
    (core = [] → zeroes = 0) ∧
    core.head? ≠ some 48 ∧
    core.getLast? ≠ some 48 ∧
    (core.length ≤ numberKeyDigits → m.digits = core)

/-- A fresh reader has consumed nothing. -/
theorem MantissaDigits.empty_reads : MantissaDigits.empty.Reads [] :=
  ⟨0, [], 0, rfl, rfl, rfl, fun _ => rfl, by simp, by simp, fun _ => rfl⟩

variable {m m' : MantissaDigits} {ds : List UInt8}

/-- One step of the reader extends the digits it has consumed. -/
theorem MantissaDigits.includeDigit_reads {byte : UInt8} (hm : m.Reads ds)
    (h : m.includeDigit byte = .ok m') : m'.Reads (ds ++ [byte]) := by
  obtain ⟨lead, core, zeroes, rfl, hsig, htz, hnil, hhead, hlast, hdigits⟩ := hm
  unfold MantissaDigits.includeDigit at h
  by_cases hbyte : byte = 48
  · rw [if_pos hbyte] at h
    subst hbyte
    by_cases hcore : core = []
    · -- Still among the leading zeroes.
      subst hcore
      obtain rfl : zeroes = 0 := hnil rfl
      rw [if_neg (by simp [hsig])] at h
      obtain rfl : m = m' := Except.ok.inj h
      refine ⟨lead + 1, [], 0, ?_, hsig, htz, fun _ => rfl, hhead, hlast, hdigits⟩
      simp [replicate_succ']
    · -- A zero after a significant digit is deferred.
      rw [if_pos (by simpa [hsig] using hcore), Except.bind_eq_ok] at h
      obtain ⟨tz, htz', h⟩ := h
      rw [okOr_eq_ok] at htz'
      have htz'' := checkedI64_eq_some htz'
      cases h
      refine ⟨lead, core, zeroes + 1, ?_, hsig, ?_, fun hc => absurd hc hcore, hhead, hlast,
        hdigits⟩
      · simp [replicate_succ']
      · simp only [← htz'', htz]
        push_cast
        ring
  · rw [if_neg hbyte, Except.bind_eq_ok] at h
    obtain ⟨z, hz, h⟩ := h
    rw [Except.bind_eq_ok] at h
    obtain ⟨padded, hpadded, h⟩ := h
    rw [Except.bind_eq_ok] at h
    obtain ⟨sig, hsig', h⟩ := h
    rw [okOr_eq_ok] at hz hpadded hsig'
    have hz' : z = zeroes := by
      unfold usizeTryFrom at hz
      rw [htz, if_pos (by omega)] at hz
      simpa using (Option.some.inj hz).symm
    have hlen : sig = core.length + zeroes + 1 := by
      rw [← checkedUsize_eq_some hsig', ← checkedUsize_eq_some hpadded, hsig, hz']
    cases h
    -- The deferred zeroes and the digit join the core.
    refine ⟨lead, core ++ replicate zeroes 48 ++ [byte], 0, ?_, ?_, rfl, ?_, ?_, ?_, ?_⟩
    · simp
    · simp only [hlen, length_append, length_replicate, length_singleton]
    · simp
    · by_cases hcore : core = []
      · obtain rfl : zeroes = 0 := hnil hcore
        simp [hcore, hbyte]
      · rw [append_assoc, head?_append_of_ne_nil _ hcore]
        exact hhead
    · simpa using hbyte
    · intro hle
      have hfit : sig ≤ numberKeyDigits := by
        simpa [hlen, add_assoc] using hle
      have hcore : m.digits = core := hdigits (by omega)
      simp only [if_pos hfit, hcore, hz']

variable {input rest : List UInt8}

/-- **Run of the reader.** A successful `consume` reads exactly the leading digits of its
input, counts them, and stops at the first byte that is not a digit. -/
theorem MantissaDigits.consume_reads {count count' : ℤ} (hm : m.Reads ds)
    (h : m.consume count input = .ok (m', count', rest)) :
    rest = input.dropWhile isAsciiDigit ∧
      count' = count + (input.takeWhile isAsciiDigit).length ∧
      m'.Reads (ds ++ input.takeWhile isAsciiDigit) := by
  induction input generalizing m count ds with
  | nil =>
    simp only [MantissaDigits.consume, pure, Except.pure, Except.ok.injEq, Prod.mk.injEq] at h
    obtain ⟨rfl, rfl, rfl⟩ := h
    simpa using hm
  | cons byte input ih =>
    rw [MantissaDigits.consume] at h
    by_cases hdigit : isAsciiDigit byte
    · rw [if_pos hdigit, Except.bind_eq_ok] at h
      obtain ⟨c, hc, h⟩ := h
      rw [Except.bind_eq_ok] at h
      obtain ⟨m₁, hm₁, h⟩ := h
      rw [okOr_eq_ok] at hc
      obtain ⟨hrest, hcount, hreads⟩ := ih (includeDigit_reads hm hm₁) h
      have hc' := checkedI64_eq_some hc
      refine ⟨?_, ?_, ?_⟩
      · rw [hrest, dropWhile_cons_of_pos hdigit]
      · rw [takeWhile_cons_of_pos hdigit, length_cons, hcount, ← hc']
        push_cast
        ring
      · rw [takeWhile_cons_of_pos hdigit]
        simpa using hreads
    · rw [if_neg hdigit] at h
      simp only [pure, Except.pure, Except.ok.injEq, Prod.mk.injEq] at h
      obtain ⟨rfl, rfl, rfl⟩ := h
      rw [dropWhile_cons_of_neg hdigit, takeWhile_cons_of_neg hdigit]
      simpa using hm

/-! ### The exponent -/

/-- An optional exponent: a mark, an optional sign and digits for a number below `2^63`. -/
def ExponentText (rest : List UInt8) : Prop :=
  rest = [] ∨ (rest.head? = some 101 ∨ rest.head? = some 69) ∧ skipSign rest.tail ≠ [] ∧
    (∀ byte ∈ skipSign rest.tail, isAsciiDigit byte) ∧ digitsValue (skipSign rest.tail) < 2 ^ 63

/-- Of two naturals the sum is the larger one, so that one check is enough. -/
theorem checkedI64_add (a b : ℕ) :
    (checkedI64 a).bind (fun w => checkedI64 (w + b)) = checkedI64 ((a + b : ℕ) : ℤ) := by
  by_cases ha : (a : ℤ) < 2 ^ 63
  · rw [checkedI64, if_pos (by omega), Option.bind_some, Nat.cast_add]
  · rw [checkedI64, if_neg (by omega), checkedI64, if_neg (by omega), Option.bind_none]

theorem checkedI64_natCast {n : ℕ} : checkedI64 n = some (n : ℤ) ↔ n < 2 ^ 63 := by
  by_cases h : n < 2 ^ 63
  · rw [checkedI64, if_pos (by omega)]
    exact iff_of_true rfl h
  · rw [checkedI64, if_neg (by omega)]
    exact iff_of_false nofun h

/-- The digit loop of the exponent in closed form: the value is lost when it leaves the range
of `i64`. -/
theorem exponentDigits_closed (input : List UInt8) (value : ℕ) (hasDigits : Bool) :
    exponentDigits (checkedI64 value) hasDigits input =
      (checkedI64 ((value * 10 ^ (input.takeWhile isAsciiDigit).length
          + digitsValue (input.takeWhile isAsciiDigit) : ℕ) : ℤ),
        hasDigits || (input.takeWhile isAsciiDigit) ≠ [], input.dropWhile isAsciiDigit) := by
  induction input generalizing value hasDigits with
  | nil => simp [exponentDigits, digitsValue]
  | cons byte input ih =>
    by_cases hb : isAsciiDigit byte
    · have hstep : (do
          let value ← checkedI64 value
          let value ← checkedI64 (value * 10)
          checkedI64 (value + (byte.toNat - 48 : ℕ)))
          = checkedI64 ((value * 10 + digitValue byte : ℕ) : ℤ) := by
        have htens : (checkedI64 value).bind (fun w => checkedI64 (w * 10))
            = checkedI64 ((value * 10 : ℕ) : ℤ) := by
          by_cases hv : (value : ℤ) < 2 ^ 63
          · rw [checkedI64, if_pos (by omega), Option.bind_some, Nat.cast_mul, Nat.cast_ofNat]
          · rw [checkedI64, if_neg (by omega), checkedI64, if_neg (by omega), Option.bind_none]
        rw [← checkedI64_add, ← htens, Option.bind_assoc]
        rfl
      have htotal : (value * 10 + digitValue byte) * 10 ^ (input.takeWhile isAsciiDigit).length
          + digitsValue (input.takeWhile isAsciiDigit)
          = value * 10 ^ (byte :: input.takeWhile isAsciiDigit).length
            + digitsValue (byte :: input.takeWhile isAsciiDigit) := by
        simp only [digitsValue, map_cons, Positional.value_cons, length_cons, length_map, pow_succ]
        ring
      rw [exponentDigits, if_pos hb, hstep, ih, htotal, takeWhile_cons_of_pos hb,
        dropWhile_cons_of_pos hb]
      simp
    · simp [exponentDigits, hb, digitsValue]

/-- The exponents the parser reads to their end. -/
theorem parseExponent_eq_ok_iff {rest : List UInt8} {exponent : ℤ} :
    parseExponent rest = .ok (exponent, []) ↔
      ExponentText rest ∧ exponent = exponentValue rest := by
  rw [parseExponent, ExponentText, exponentValue]
  by_cases hmark : rest.head? = some 101 ∨ rest.head? = some 69
  · have hne : rest ≠ [] := by
      rintro rfl
      simp at hmark
    rw [if_pos hmark, if_pos hmark]
    dsimp only
    generalize skipSign rest.tail = digits
    have hscan := exponentDigits_closed digits 0 false
    simp only [Nat.cast_zero, zero_mul, zero_add, Bool.false_or] at hscan
    rw [checkedI64, if_pos (by omega)] at hscan
    -- The exponent is read to its end when it has nothing but digits.
    have hall : (digits ≠ [] ∧ (∀ byte ∈ digits, isAsciiDigit byte) ∧ digitsValue digits < 2 ^ 63) ↔
        digits.takeWhile isAsciiDigit ≠ [] ∧ digits.dropWhile isAsciiDigit = [] ∧
          checkedI64 (digitsValue (digits.takeWhile isAsciiDigit))
            = some (digitsValue (digits.takeWhile isAsciiDigit) : ℤ) := by
      rw [dropWhile_eq_nil_iff, checkedI64_natCast]
      constructor
      · rintro ⟨hdigits, hall, hfits⟩
        rw [takeWhile_eq_self_iff.mpr hall]
        exact ⟨hdigits, hall, hfits⟩
      · rintro ⟨hdigits, hall, hfits⟩
        rw [takeWhile_eq_self_iff.mpr hall] at hdigits hfits
        exact ⟨hdigits, hall, hfits⟩
    simp only [hscan, hne, false_or, hmark, true_and, hall]
    generalize digitsValue (digits.takeWhile isAsciiDigit) = value
    by_cases hsome : digits.takeWhile isAsciiDigit = []
    · simp [hsome]
    cases hvalue : checkedI64 value with
    | none => simp [hsome, okOr, bind, Except.bind]
    | some w =>
      obtain rfl := checkedI64_eq_some hvalue
      have hneg : checkedI64 (-(value : ℤ)) = some (-(value : ℤ)) := by
        have := checkedI64_natCast.mp hvalue
        rw [checkedI64, if_pos (by omega)]
      by_cases hminus : rest.tail.head? = some 45
      · simp only [hsome, hminus, hneg, okOr, bind, Except.bind, pure, Except.pure, ne_eq,
          not_false_eq_true, decide_true, if_true, Except.ok.injEq, Prod.mk.injEq, true_and,
          and_true]
        rw [and_comm, eq_comm (a := exponent)]
      · simp only [hsome, hminus, okOr, bind, Except.bind, pure, Except.pure, ne_eq,
          not_false_eq_true, decide_true, if_true, decide_false, Bool.false_eq_true, if_false,
          Except.ok.injEq, Prod.mk.injEq, true_and, and_true]
        rw [and_comm, eq_comm (a := exponent)]
  · rw [if_neg hmark, if_neg hmark]
    simp only [hmark, false_and, or_false, pure, Except.pure, Except.ok.injEq, Prod.mk.injEq]
    exact ⟨fun h => ⟨h.2, h.1.symm⟩, fun h => ⟨h.2.symm, h.1⟩⟩

/-! ### Normal forms -/

/-- The digit strings the parser stores: nonempty, within the precision, and neither
starting nor ending with a zero. -/
structure NormalDigits (digits : List UInt8) : Prop where
  ne_nil : digits ≠ []
  digit : ∀ byte ∈ digits, isAsciiDigit byte
  head_ne : digits.head? ≠ some 48
  last_ne : digits.getLast? ≠ some 48
  length_le : digits.length ≤ numberKeyDigits

/-- The numbers the parser returns: the one zero, or a sign with normal digits and an
exponent in range. -/
def ParsedDynamodbNumber.WellFormed (n : ParsedDynamodbNumber) : Prop :=
  n = { negative := false, adjustedExponent := 0, digits := [], isZero := true } ∨
    n.isZero = false ∧ NormalDigits n.digits ∧ -130 ≤ n.adjustedExponent ∧
      n.adjustedExponent ≤ 125

/-- The magnitude of a nonzero parsed number. -/
def ParsedDynamodbNumber.magnitude (n : ParsedDynamodbNumber) : ℚ :=
  digitsValue n.digits * (10 : ℚ) ^ (n.adjustedExponent - (n.digits.length - 1))

/-- The rational a parsed number denotes. -/
def ParsedDynamodbNumber.value (n : ParsedDynamodbNumber) : ℚ :=
  if n.isZero then 0 else if n.negative then -n.magnitude else n.magnitude

/-- Padding a digit string with zeroes scales the number it spells. -/
theorem digitsValue_pad (lead zeroes : ℕ) (core : List UInt8) :
    digitsValue (List.replicate lead 48 ++ core ++ List.replicate zeroes 48)
      = digitsValue core * 10 ^ zeroes := by
  have hzero : digitValue 48 = 0 := rfl
  simp [digitsValue, Positional.value_append, hzero]

variable {n : ParsedDynamodbNumber}

/-- A successful `finish` denotes the mantissa digits scaled by the exponent. -/
theorem MantissaDigits.finish_spec {negative : Bool} {fractional exponent : ℤ} (hm : m.Reads ds)
    (hds : ∀ byte ∈ ds, isAsciiDigit byte) (h : m.finish negative fractional exponent = .ok n) :
    n.value = (if negative then -1 else 1)
        * (digitsValue ds * (10 : ℚ) ^ (exponent - fractional)) ∧
      (n = { negative := false, adjustedExponent := 0, digits := [], isZero := true } ∨
        n.isZero = false ∧ NormalDigits n.digits) := by
  obtain ⟨lead, core, zeroes, rfl, hsig, htz, hnil, hhead, hlast, hdigits⟩ := hm
  rw [MantissaDigits.finish] at h
  by_cases hcore : core = []
  · -- No significant digit: the number is zero.
    subst hcore
    have hd : m.digits = [] := hdigits (by simp [numberKeyDigits])
    rw [if_pos (by simpa using hsig)] at h
    cases h
    refine ⟨?_, Or.inl (by rw [hd])⟩
    rw [digitsValue_pad]
    simp [ParsedDynamodbNumber.value, digitsValue]
  · rw [if_neg (by simpa [hsig] using hcore)] at h
    by_cases hprec : numberKeyDigits < m.significant
    · rw [if_pos hprec] at h
      cases h
    · rw [if_neg hprec, Except.bind_eq_ok] at h
      obtain ⟨adjusted, hadj, h⟩ := h
      simp only [okOr_eq_ok, bind, Option.bind_eq_some_iff] at hadj
      obtain ⟨c, hc, v₁, h₁, v₂, h₂, v₃, h₃, v₄, h₄, h₅⟩ := hadj
      have hd : m.digits = core := hdigits (by omega)
      have hadj' : adjusted = core.length + exponent - fractional + zeroes - 1 := by
        rw [← checkedI32_eq_some h₅, ← checkedI64_eq_some h₄, ← checkedI64_eq_some h₃,
          ← checkedI64_eq_some h₂, ← checkedI64_eq_some h₁, ← checkedI64_eq_some hc, hsig, htz]
      cases h
      refine ⟨?_, Or.inr ⟨rfl, ?_⟩⟩
      · have hexp : exponent - fractional + zeroes
            = adjusted - ((core.length : ℤ) - 1) := by
          rw [hadj']
          ring
        have hmag : (digitsValue core * 10 ^ zeroes : ℚ) * (10 : ℚ) ^ (exponent - fractional)
            = digitsValue core * (10 : ℚ) ^ (adjusted - ((core.length : ℤ) - 1)) := by
          rw [← hexp, zpow_add₀ (by norm_num), zpow_natCast]
          ring
        rw [digitsValue_pad]
        push_cast
        simp only [ParsedDynamodbNumber.value, ParsedDynamodbNumber.magnitude, hd, hmag,
          Bool.false_eq_true, if_false]
        cases negative <;> simp
      · exact
          { ne_nil := by simpa [hd] using hcore
            digit := fun byte hb => hds byte (by
              rw [hd] at hb
              simp [hb])
            head_ne := by simpa only [hd] using hhead
            last_ne := by simpa only [hd] using hlast
            length_le := by simp only [hd]; omega }

/-- An accepted text is read in its parts: digits, the exponent and nothing behind it. -/
theorem parseDecimalBytes_parts (h : parseDecimalBytes input = .ok n) :
    ∃ integer fractional rest, mantissaParts (skipSign input) = (integer, fractional, rest) ∧
      integer ++ fractional ≠ [] ∧ (∀ byte ∈ integer ++ fractional, isAsciiDigit byte) ∧
      ExponentText rest ∧ ∃ m : MantissaDigits, m.Reads (integer ++ fractional) ∧
        m.finish (input.head? = some 45) fractional.length (exponentValue rest) = .ok n := by
  rw [parseDecimalBytes] at h
  by_cases hinput : input = []
  · rw [if_pos hinput] at h
    cases h
  rw [if_neg hinput, Except.bind_eq_ok] at h
  obtain ⟨⟨m₁, integer, rest₁⟩, h₁, h⟩ := h
  rw [Except.bind_eq_ok] at h
  obtain ⟨⟨m₂, fractional, rest₂⟩, h₂, h⟩ := h
  obtain ⟨hrest₁, hcount₁, hm₁⟩ := MantissaDigits.consume_reads MantissaDigits.empty_reads h₁
  rw [nil_append] at hm₁
  -- The fraction, present or not, completes the parts of the mantissa.
  obtain ⟨fracDigits, hparts, hfrac, hdigits, hm₂⟩ : ∃ fracDigits : List UInt8,
      mantissaParts (skipSign input)
        = ((skipSign input).takeWhile isAsciiDigit, fracDigits, rest₂) ∧
      fractional = fracDigits.length ∧ (∀ byte ∈ fracDigits, isAsciiDigit byte) ∧
      m₂.Reads ((skipSign input).takeWhile isAsciiDigit ++ fracDigits) := by
    rw [consumeFraction] at h₂
    by_cases hpoint : rest₁.head? = some 46
    · rw [if_pos hpoint] at h₂
      obtain ⟨hrest₂, hcount, hm₂⟩ := MantissaDigits.consume_reads hm₁ h₂
      refine ⟨_, ?_, by rw [hcount, zero_add], fun byte => mem_takeWhile_imp, hm₂⟩
      rw [mantissaParts, ← hrest₁, if_pos hpoint, hrest₂]
    · rw [if_neg hpoint] at h₂
      simp only [pure, Except.pure, Except.ok.injEq, Prod.mk.injEq] at h₂
      obtain ⟨rfl, rfl, rfl⟩ := h₂
      refine ⟨[], ?_, rfl, by simp, by simpa using hm₁⟩
      rw [mantissaParts, ← hrest₁, if_neg hpoint]
  by_cases hmissing : integer = 0 ∧ fractional = 0
  · simp [hmissing] at h
  simp only [hmissing, if_false] at h
  rw [Except.bind_eq_ok] at h
  obtain ⟨⟨exponent, rest₃⟩, h₃, h⟩ := h
  by_cases hrest₃ : rest₃ ≠ []
  · simp [hrest₃] at h
  obtain rfl : rest₃ = [] := not_not.mp hrest₃
  obtain ⟨hexponent, rfl⟩ := parseExponent_eq_ok_iff.mp h₃
  refine ⟨_, _, _, hparts, ?_, ?_, hexponent, m₂, hm₂, by simpa [hfrac] using h⟩
  · intro hnil
    rw [append_eq_nil_iff] at hnil
    exact hmissing ⟨by simp [hcount₁, hnil.1], by simp [hfrac, hnil.2]⟩
  · intro byte hbyte
    exact (mem_append.mp hbyte).elim mem_takeWhile_imp (hdigits byte)

/-- **The decimal grammar is exact**: an accepted text gives a normal form denoting the
same rational. -/
theorem parseDecimalBytes_spec (h : parseDecimalBytes input = .ok n) :
    n.value = decimalValue input ∧
      (n = { negative := false, adjustedExponent := 0, digits := [], isZero := true } ∨
        n.isZero = false ∧ NormalDigits n.digits) := by
  obtain ⟨integer, fractional, rest, hparts, -, hdigits, -, m, hm, h⟩ := parseDecimalBytes_parts h
  obtain ⟨hvalue, hform⟩ := MantissaDigits.finish_spec hm hdigits h
  refine ⟨?_, hform⟩
  rw [hvalue, decimalValue, hparts]
  by_cases hneg : input.head? = some 45 <;> simp [hneg]

/-- An accepted number text gives a normal form within DynamoDB's magnitude range. -/
theorem parseBytes_wellFormed (h : parseBytes input = .ok n) : n.WellFormed := by
  rw [parseBytes, Except.bind_eq_ok] at h
  obtain ⟨number, hparse, h⟩ := h
  obtain ⟨-, hform⟩ := parseDecimalBytes_spec hparse
  by_cases hlow : number.adjustedExponent < -130
  · simp [hlow] at h
  by_cases hhigh : 125 < number.adjustedExponent
  · simp [hlow, hhigh] at h
  simp only [hlow, hhigh, if_false, pure, Except.pure, Except.ok.injEq] at h
  subst h
  rcases hform with hzero | ⟨hnz, hdigits⟩
  · exact Or.inl hzero
  · exact Or.inr ⟨hnz, hdigits, by omega, by omega⟩

/-- **The parser is exact**: an accepted number denotes the rational of its text. -/
theorem parseBytes_value (h : parseBytes input = .ok n) : n.value = decimalValue input := by
  rw [parseBytes, Except.bind_eq_ok] at h
  obtain ⟨number, hparse, h⟩ := h
  split at h
  · cases h
  · split at h
    · cases h
    · cases h
      exact (parseDecimalBytes_spec hparse).1

end AuxStorage
