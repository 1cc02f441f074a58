import AuxStorage.DynamodbNumberValue
import AuxStorage.Lib.Framing

/-!
# The Ordered Number Key is an Order Embedding

The sortable key of a number is a sign tag, a biased exponent and 38 padded digits, with
the payload of a negative number complemented bytewise. This module shows that the
lexicographic order of these keys, of their hexadecimal text, the comparison function of
the program and the order of the exact rationals are one and the same.

Every number is brought to the form `± scaled × 10 ^ (exponent - 37)` with a 38-digit
`scaled` mantissa, on which the order is decided by the exponent first.
-/

namespace AuxStorage

open List
open ParsedDynamodbNumber (magnitude parse)

/-! ### Byte comparisons -/

/-- Complementing bytes reverses their comparison. -/
theorem compare_uint8_not (a b : UInt8) : compare (~~~a) (~~~b) = (compare a b).swap := by
  have ha := a.toNat_lt
  have hb := b.toNat_lt
  rw [← Std.OrientedOrd.eq_swap, Framing.compare_uint8, Framing.compare_uint8, UInt8.toNat_not,
    UInt8.toNat_not, UInt8.size]
  exact Positional.compare_eq_compare (by omega) (by omega)

theorem compareLex_hexByte (a b : UInt8) :
    List.compareLex compare (hexByte a) (hexByte b) = compare a b := by
  have hdigit : ∀ i j : Fin 16, compare (hexDigit i) (hexDigit j) = compare i.val j.val := by
    decide
  have ha := a.toNat_lt
  have hb := b.toNat_lt
  have hhigh := hdigit ⟨a.toNat / 16, by omega⟩ ⟨b.toNat / 16, by omega⟩
  have hlow := hdigit ⟨a.toNat % 16, by omega⟩ ⟨b.toNat % 16, by omega⟩
  have hsplit := Positional.compare_div_mod (by norm_num : 0 < 16) a.toNat b.toNat
  simp only at hhigh hlow
  rw [Framing.compare_uint8, hsplit, hexByte, hexByte, List.compareLex_cons_cons,
    List.compareLex_cons_cons, hhigh, hlow]
  cases compare (a.toNat / 16) (b.toNat / 16) <;>
    cases compare (a.toNat % 16) (b.toNat % 16) <;> rfl

/-! ### The scaled mantissa -/

theorem isAsciiDigit_iff (byte : UInt8) :
    isAsciiDigit byte = true ↔ 48 ≤ byte.toNat ∧ byte.toNat ≤ 57 := by
  simp [isAsciiDigit]

variable {digits : List UInt8}

theorem paddedDigits_eq (h : digits.length ≤ numberKeyDigits) :
    paddedDigits digits = digits ++ List.replicate (numberKeyDigits - digits.length) 48 := by
  apply ext_getElem
  · simp only [paddedDigits, length_map, length_range, length_append, length_replicate]
    omega
  · intro i h₁ h₂
    simp only [paddedDigits, getElem_map, getElem_range]
    rw [getElem_append]
    split
    · rw [getD_eq_getElem]
    · rw [getD_eq_default _ _ (by omega), getElem_replicate]

/-- The mantissa of a number as a 38-digit integer. -/
def ParsedDynamodbNumber.scaled (n : ParsedDynamodbNumber) : ℕ :=
  digitsValue (paddedDigits n.digits)

open ParsedDynamodbNumber

theorem paddedDigits_digit (h : NormalDigits digits) :
    ∀ byte ∈ paddedDigits digits, isAsciiDigit byte := by
  intro byte hbyte
  rw [paddedDigits_eq h.length_le] at hbyte
  rcases mem_append.mp hbyte with hb | hb
  · exact h.digit byte hb
  · rw [eq_of_mem_replicate hb]
    rfl

@[simp] theorem length_paddedDigits (digits : List UInt8) :
    (paddedDigits digits).length = numberKeyDigits := by
  simp [paddedDigits]

theorem digitValue_lt {byte : UInt8} (h : isAsciiDigit byte) : digitValue byte < 10 := by
  have := (isAsciiDigit_iff byte).mp h
  rw [digitValue]
  omega

variable {n : ParsedDynamodbNumber}

/-- A scaled mantissa has exactly 38 digits. -/
theorem ParsedDynamodbNumber.scaled_bounds (h : NormalDigits n.digits) :
    10 ^ 37 ≤ n.scaled ∧ n.scaled < 10 ^ 38 := by
  constructor
  · -- The first digit is not zero.
    rcases hd : n.digits with _ | ⟨first, rest⟩
    · exact absurd hd h.ne_nil
    · have hfirst : isAsciiDigit first := h.digit first (by simp [hd])
      have hne : first ≠ 48 := by
        intro heq
        exact h.head_ne (by simp [hd, heq])
      have hpos : 1 ≤ digitValue first := by
        have hrange := (isAsciiDigit_iff first).mp hfirst
        have hne' : first.toNat ≠ 48 := fun heq => hne (UInt8.toNat_inj.mp heq)
        rw [digitValue]
        omega
      have hlen := length_paddedDigits n.digits
      have hle := h.length_le
      rw [scaled, digitsValue, paddedDigits_eq h.length_le, hd,
        cons_append, map_cons, Positional.value_cons]
      have hwidth : (map digitValue (rest ++ replicate
          (numberKeyDigits - (first :: rest).length) 48)).length = 37 := by
        rw [hd] at hle
        simp only [length_map, length_append, length_replicate,
          length_cons, numberKeyDigits] at hle ⊢
        omega
      rw [hwidth]
      calc 10 ^ 37 = 1 * 10 ^ 37 := (one_mul _).symm
        _ ≤ digitValue first * 10 ^ 37 := Nat.mul_le_mul_right _ hpos
        _ ≤ _ := Nat.le_add_right _ _
  · have hlt := Positional.value_lt_pow (b := 10) (by norm_num)
      (l := (paddedDigits n.digits).map digitValue) (by
        intro d hd
        obtain ⟨byte, hbyte, rfl⟩ := mem_map.mp hd
        exact digitValue_lt (paddedDigits_digit h byte hbyte))
    rwa [length_map, length_paddedDigits] at hlt

theorem ParsedDynamodbNumber.magnitude_eq (h : NormalDigits n.digits) :
    n.magnitude = n.scaled * (10 : ℚ) ^ (n.adjustedExponent - 37) := by
  have hpad := digitsValue_pad 0 (numberKeyDigits - n.digits.length) n.digits
  rw [replicate_zero, nil_append, ← paddedDigits_eq h.length_le] at hpad
  have hexp : n.adjustedExponent - ((n.digits.length : ℤ) - 1)
      = ((numberKeyDigits - n.digits.length : ℕ) : ℤ) + (n.adjustedExponent - 37) := by
    have := h.length_le
    simp only [numberKeyDigits] at this ⊢
    omega
  rw [magnitude, scaled, hpad, hexp,
    zpow_add₀ (by norm_num), zpow_natCast]
  push_cast
  ring

theorem ParsedDynamodbNumber.magnitude_pos (h : NormalDigits n.digits) : 0 < n.magnitude := by
  have hscaled := (scaled_bounds h).1
  rw [magnitude_eq h]
  have hpos : (0 : ℚ) < n.scaled := by
    have : 0 < n.scaled := by omega
    exact_mod_cast this
  positivity

variable {l r : ParsedDynamodbNumber}

/-- A smaller exponent is a smaller magnitude, whatever the digits. -/
theorem ParsedDynamodbNumber.magnitude_lt_of_exponent_lt (hl : NormalDigits l.digits)
    (hr : NormalDigits r.digits) (h : l.adjustedExponent < r.adjustedExponent) :
    l.magnitude < r.magnitude := by
  rw [magnitude_eq hl, magnitude_eq hr]
  have hlt : (l.scaled : ℚ) < 10 ^ 38 := by exact_mod_cast (scaled_bounds hl).2
  have hge : (10 : ℚ) ^ 37 ≤ r.scaled := by exact_mod_cast (scaled_bounds hr).1
  have hp : (0 : ℚ) < (10 : ℚ) ^ (l.adjustedExponent - 37) := by positivity
  have hq : (0 : ℚ) < (10 : ℚ) ^ (r.adjustedExponent - 37) := by positivity
  calc (l.scaled : ℚ) * 10 ^ (l.adjustedExponent - 37)
      < 10 ^ 38 * 10 ^ (l.adjustedExponent - 37) := mul_lt_mul_of_pos_right hlt hp
    _ = 10 ^ (37 : ℤ) * 10 ^ (l.adjustedExponent + 1 - 37) := by
        rw [show l.adjustedExponent + 1 - 37 = l.adjustedExponent - 37 + 1 by ring,
          zpow_add_one₀ (by norm_num)]
        ring
    _ ≤ 10 ^ (37 : ℤ) * 10 ^ (r.adjustedExponent - 37) := by
        refine mul_le_mul_of_nonneg_left ?_ (by positivity)
        exact zpow_le_zpow_right₀ (by norm_num) (by omega)
    _ ≤ r.scaled * 10 ^ (r.adjustedExponent - 37) := by
        refine mul_le_mul_of_nonneg_right ?_ hq.le
        exact_mod_cast hge

/-- **Magnitudes compare by exponent, then by scaled mantissa.** -/
theorem ParsedDynamodbNumber.compare_magnitude (hl : NormalDigits l.digits)
    (hr : NormalDigits r.digits) :
    compare l.magnitude r.magnitude
      = (compare l.adjustedExponent r.adjustedExponent).then (compare l.scaled r.scaled) := by
  rcases lt_trichotomy l.adjustedExponent r.adjustedExponent with h | h | h
  · rw [compare_lt_iff_lt.mpr (magnitude_lt_of_exponent_lt hl hr h), compare_lt_iff_lt.mpr h]
    rfl
  · rw [magnitude_eq hl, magnitude_eq hr, h, compare_eq_iff_eq.mpr rfl]
    have hp : (0 : ℚ) < (10 : ℚ) ^ (r.adjustedExponent - 37) := by positivity
    refine Positional.compare_eq_compare ?_ ?_ <;>
      exact (mul_lt_mul_iff_left₀ hp).trans Nat.cast_lt
  · rw [compare_gt_iff_gt.mpr (magnitude_lt_of_exponent_lt hr hl h), compare_gt_iff_gt.mpr h]
    rfl

/-! ### Digit strings and their padding -/

/-- Zeroes are lexicographically below any digits with a nonzero last digit, padded to
the same length. -/
theorem compareLex_zeroes_lt (hne : digits ≠ []) (hdigit : ∀ byte ∈ digits, isAsciiDigit byte)
    (hlast : digits.getLast? ≠ some 48) {n m : ℕ} (hlen : n = digits.length + m) :
    List.compareLex compare (List.replicate n 48) (digits ++ List.replicate m 48) = .lt := by
  induction digits generalizing n with
  | nil => exact absurd rfl hne
  | cons byte rest ih =>
    obtain ⟨n, rfl⟩ : ∃ k, n = k + 1 := ⟨rest.length + m, by rw [hlen]; simp; omega⟩
    rw [replicate_succ, cons_append, List.compareLex_cons_cons]
    have hbyte := (isAsciiDigit_iff byte).mp (hdigit byte (by simp))
    by_cases hzero : byte = 48
    · -- A leading zero ties, and the nonzero last digit is still ahead.
      subst hzero
      have hrest : rest ≠ [] := by
        rintro rfl
        exact hlast rfl
      have hlast' : rest.getLast? ≠ some 48 := by
        rwa [getLast?_cons_of_ne_nil hrest] at hlast
      rw [ih hrest (fun b hb => hdigit b (mem_cons_of_mem _ hb)) hlast'
        (by simpa [Nat.add_right_comm] using hlen)]
      rfl
    · have hlt : compare (48 : UInt8) byte = .lt := by
        have hne' : byte.toNat ≠ 48 := fun heq => hzero (UInt8.toNat_inj.mp heq)
        rw [Framing.compare_uint8, Nat.compare_eq_lt]
        change 48 < byte.toNat
        omega
      rw [hlt]
      rfl

/-- **Padding keeps the order**: digit strings without trailing zeroes compare as their
zero-padded forms. -/
theorem compareLex_append_zeroes {l r : List UInt8}
    (hl : ∀ byte ∈ l, isAsciiDigit byte) (hr : ∀ byte ∈ r, isAsciiDigit byte)
    (hllast : l.getLast? ≠ some 48) (hrlast : r.getLast? ≠ some 48) {n m : ℕ}
    (hlen : l.length + n = r.length + m) :
    List.compareLex compare (l ++ List.replicate n 48) (r ++ List.replicate m 48)
      = List.compareLex compare l r := by
  induction l generalizing r with
  | nil =>
    cases r with
    | nil =>
      obtain rfl : n = m := by simpa using hlen
      exact Std.LawfulEqCmp.compare_eq_iff_eq.mpr rfl
    | cons b r =>
      rw [nil_append, List.compareLex_nil_cons]
      exact compareLex_zeroes_lt (by simp) hr hrlast (by simpa using hlen)
  | cons a l ih =>
    cases r with
    | nil =>
      have hlt := compareLex_zeroes_lt (by simp) hl hllast
        (m := n) (n := m) (by simpa using hlen.symm)
      rw [nil_append, List.compareLex_cons_nil]
      exact Std.OrientedCmp.gt_iff_lt.mpr hlt
    | cons b r =>
      rw [cons_append, cons_append, List.compareLex_cons_cons, List.compareLex_cons_cons]
      rw [ih (fun x hx => hl x (mem_cons_of_mem _ hx))
        (fun x hx => hr x (mem_cons_of_mem _ hx)) ?_ ?_ ?_]
      · cases l with
        | nil => simp
        | cons c l => rwa [getLast?_cons_cons] at hllast
      · cases r with
        | nil => simp
        | cons c r => rwa [getLast?_cons_cons] at hrlast
      · simp only [length_cons] at hlen
        omega

theorem compareLex_paddedDigits {l r : List UInt8} (hl : NormalDigits l) (hr : NormalDigits r) :
    List.compareLex compare (paddedDigits l) (paddedDigits r) = List.compareLex compare l r := by
  rw [paddedDigits_eq hl.length_le, paddedDigits_eq hr.length_le]
  have hll := hl.length_le
  have hrl := hr.length_le
  exact compareLex_append_zeroes hl.digit hr.digit hl.last_ne hr.last_ne (by omega)

/-- Padded digits compare as the scaled mantissas. -/
theorem compareLex_scaled (hl : NormalDigits l.digits) (hr : NormalDigits r.digits) :
    List.compareLex compare (paddedDigits l.digits) (paddedDigits r.digits)
      = compare l.scaled r.scaled := by
  have hdigits : ∀ {digits : List UInt8}, NormalDigits digits →
      ∀ d ∈ (paddedDigits digits).map digitValue, d < 10 := by
    intro digits h d hd
    obtain ⟨byte, hbyte, rfl⟩ := mem_map.mp hd
    exact digitValue_lt (paddedDigits_digit h byte hbyte)
  rw [scaled, scaled, digitsValue, digitsValue,
    ← Positional.compareLex_eq_compare_value (by norm_num) (by simp) (hdigits hl)
      (hdigits hr)]
  refine (Positional.compareLex_map fun a ha b hb => ?_).symm
  have hra := (isAsciiDigit_iff a).mp (paddedDigits_digit hl a ha)
  have hrb := (isAsciiDigit_iff b).mp (paddedDigits_digit hr b hb)
  rw [Framing.compare_uint8, digitValue, digitValue]
  exact Positional.compare_eq_compare (by omega) (by omega)

/-! ### The payload of the key -/

/-- The key bytes after the sign tag, before any complement. -/
def ParsedDynamodbNumber.payload (n : ParsedDynamodbNumber) : List UInt8 :=
  [UInt8.ofNat ((n.adjustedExponent + numberKeyExponentBias).toNat / 256),
    UInt8.ofNat ((n.adjustedExponent + numberKeyExponentBias).toNat % 256)]
    ++ paddedDigits n.digits

theorem biasedExponentBytes_eq {e : ℤ} (hlow : -130 ≤ e) (hhigh : e ≤ 125) :
    biasedExponentBytes e = .ok [UInt8.ofNat ((e + numberKeyExponentBias).toNat / 256),
      UInt8.ofNat ((e + numberKeyExponentBias).toNat % 256)] := by
  have hchecked : checkedI32 (e + numberKeyExponentBias)
      = some (e + numberKeyExponentBias) := by
    rw [checkedI32, if_pos]
    simp only [numberKeyExponentBias]
    omega
  have hrange : 0 ≤ e + numberKeyExponentBias ∧ e + numberKeyExponentBias < 2 ^ 16 := by
    simp only [numberKeyExponentBias]
    omega
  rw [biasedExponentBytes, hchecked]
  simp only [okOr, bind, Except.bind]
  rw [if_pos hrange]
  rfl

/-- **Payloads compare as magnitudes.** -/
theorem compareLex_payload (hl : NormalDigits l.digits) (hr : NormalDigits r.digits)
    (hle : -130 ≤ l.adjustedExponent ∧ l.adjustedExponent ≤ 125)
    (hre : -130 ≤ r.adjustedExponent ∧ r.adjustedExponent ≤ 125) :
    List.compareLex compare l.payload r.payload = compare l.magnitude r.magnitude := by
  rw [payload, payload,
    Positional.compareLex_append (by simp), compareLex_scaled hl hr,
    compare_magnitude hl hr]
  congr 1
  -- The two exponent bytes are the base-256 digits of the biased exponent.
  have hbias : ∀ e : ℤ, -130 ≤ e ∧ e ≤ 125 →
      ((e + numberKeyExponentBias).toNat : ℤ) = e + 1000 := by
    intro e he
    simp only [numberKeyExponentBias]
    omega
  have hlb := hbias _ hle
  have hrb := hbias _ hre
  generalize (l.adjustedExponent + numberKeyExponentBias).toNat = x at hlb ⊢
  generalize (r.adjustedExponent + numberKeyExponentBias).toNat = y at hrb ⊢
  have hx : x < 65536 := by omega
  have hy : y < 65536 := by omega
  rw [← Framing.be16, ← Framing.be16, Framing.compareLex_be16 hx hy]
  exact Positional.compare_eq_compare (by omega) (by omega)

/-! ### Signs -/

/-- The sign tag of the key: negative numbers, then zero, then positive numbers. -/
def ParsedDynamodbNumber.signTag (n : ParsedDynamodbNumber) : UInt8 :=
  if n.isZero then 1 else if n.negative then 0 else 2

/-- The order of two numbers with the same sign tag. -/
def ParsedDynamodbNumber.sameSignOrder (l r : ParsedDynamodbNumber) : Ordering :=
  if l.isZero then .eq
  else if l.negative then (compare l.magnitude r.magnitude).swap
  else compare l.magnitude r.magnitude

theorem compare_signTags :
    compare (0 : UInt8) 1 = .lt ∧ compare (0 : UInt8) 2 = .lt ∧
      compare (1 : UInt8) 0 = .gt ∧ compare (1 : UInt8) 2 = .lt ∧
      compare (2 : UInt8) 0 = .gt ∧ compare (2 : UInt8) 1 = .gt := by
  decide

/-- Rationals compare by sign, then by magnitude: the three signs of one number against
the three signs of the other. -/
theorem ParsedDynamodbNumber.compare_value (hl : l.WellFormed) (hr : r.WellFormed) :
    compare l.value r.value = (compare l.signTag r.signTag).then (l.sameSignOrder r) := by
  have hneg : ∀ x y : ℚ, compare (-x) (-y) = (compare x y).swap := by
    intro x y
    rw [← Std.OrientedOrd.eq_swap]
    exact Positional.compare_eq_compare neg_lt_neg_iff neg_lt_neg_iff
  obtain ⟨h01, h02, h10, h12, h20, h21⟩ := compare_signTags
  rcases hl with rfl | ⟨hlz, hld, -, -⟩ <;> rcases hr with rfl | ⟨hrz, hrd, -, -⟩
  · simp [value, signTag, sameSignOrder]
  · have hpos := magnitude_pos hrd
    rcases hs : r.negative
    · simp [value, signTag, hrz, hs, h12, compare_lt_iff_lt, hpos]
    · simp [value, signTag, hrz, hs, h10, compare_gt_iff_gt, hpos]
  · have hpos := magnitude_pos hld
    rcases hs : l.negative
    · simp [value, signTag, hlz, hs, h21, compare_gt_iff_gt, hpos]
    · simp [value, signTag, hlz, hs, h01, compare_lt_iff_lt, hpos]
  · have hlpos := magnitude_pos hld
    have hrpos := magnitude_pos hrd
    have hlr : -l.magnitude < r.magnitude := by linarith
    have hrl : -r.magnitude < l.magnitude := by linarith
    rcases hls : l.negative <;> rcases hrs : r.negative
    · simp [value, signTag, sameSignOrder, hlz, hrz, hls, hrs]
    · simp [value, signTag, hlz, hrz, hls, hrs, h20, compare_gt_iff_gt, hrl]
    · simp [value, signTag, hlz, hrz, hls, hrs, h02, compare_lt_iff_lt, hlr]
    · simp [value, signTag, sameSignOrder, hlz, hrz, hls, hrs, hneg]

/-- **The comparison is exact**: parsed numbers compare as the rationals they denote. -/
theorem ParsedDynamodbNumber.compareWith_eq_compare_value (hl : l.WellFormed) (hr : r.WellFormed) :
    l.compareWith r = compare l.value r.value := by
  have htf : compare true false = .gt := by decide
  have hft : compare false true = .lt := by decide
  obtain ⟨h01, h02, h10, h12, h20, h21⟩ := compare_signTags
  rw [compare_value hl hr]
  rcases hl with rfl | ⟨hlz, hld, -, -⟩ <;> rcases hr with rfl | ⟨hrz, hrd, -, -⟩
  · simp [compareWith, signTag, sameSignOrder]
  · rcases hs : r.negative
    · simp [compareWith, signTag, hrz, hs, h12, hft]
    · simp [compareWith, signTag, hrz, hs, h10, htf]
  · rcases hs : l.negative
    · simp [compareWith, signTag, hlz, hs, h21, htf]
    · simp [compareWith, signTag, hlz, hs, h01, hft]
  · have hmagnitude := compare_magnitude hld hrd
    rw [← compareLex_scaled hld hrd, compareLex_paddedDigits hld hrd] at hmagnitude
    rcases hls : l.negative <;> rcases hrs : r.negative
    · simp [compareWith, signTag, sameSignOrder, hlz, hrz, hls, hrs, hmagnitude]
    · simp [compareWith, signTag, hlz, hrz, hls, hrs, h20, htf]
    · simp [compareWith, signTag, hlz, hrz, hls, hrs, h02, hft]
    · simp [compareWith, signTag, sameSignOrder, hlz, hrz, hls, hrs, hmagnitude]

theorem compareDynamodbNumbers_eq_ok {a b : Text} {o : Ordering} :
    compareDynamodbNumbers a b = .ok o
      ↔ ∃ l r, parse a = .ok l ∧ parse b = .ok r ∧
        o = compare (decimalValue a.bytes) (decimalValue b.bytes) := by
  have hcompare : ∀ {l r}, parse a = .ok l →
      parse b = .ok r →
      l.compareWith r = compare (decimalValue a.bytes) (decimalValue b.bytes) := by
    intro l r ha hb
    rw [compareWith_eq_compare_value (parseBytes_wellFormed ha)
      (parseBytes_wellFormed hb), parseBytes_value ha, parseBytes_value hb]
  simp only [compareDynamodbNumbers, Except.bind_eq_ok]
  constructor
  · rintro ⟨l, ha, r, hb, h⟩
    exact ⟨l, r, ha, hb, (Except.ok.inj h).symm.trans (hcompare ha hb)⟩
  · rintro ⟨l, r, ha, hb, rfl⟩
    exact ⟨l, ha, r, hb, congrArg Except.ok (hcompare ha hb)⟩

/-! ### The key as an order embedding -/

theorem encodeNumberBytesInto_eq (h : n.WellFormed) :
    encodeNumberBytesInto n = .ok (n.signTag :: if n.isZero then
      List.replicate (numberKeyBytes - 1) 0 else n.payload.map (complementIf n.negative)) := by
  rcases h with rfl | ⟨hz, -, hlow, hhigh⟩
  · rfl
  · simp only [encodeNumberBytesInto, hz, Bool.false_eq_true, if_false,
      biasedExponentBytes_eq hlow hhigh, signTag, payload, bind, Except.bind, pure, Except.pure]

theorem length_encodeNumberBytesInto (h : n.WellFormed) {bytes : List UInt8}
    (hbytes : encodeNumberBytesInto n = .ok bytes) : bytes.length = numberKeyBytes := by
  rw [encodeNumberBytesInto_eq h, Except.ok.injEq] at hbytes
  subst hbytes
  rcases hz : n.isZero
  · simp [payload, numberKeyDigits, numberKeyBytes]
  · simp [numberKeyBytes, Nat.add_comm]

/-- **Keys order as rationals**: the bytes of two keys compare as the numbers denoted. -/
theorem compareLex_encodeNumberBytesInto (hl : l.WellFormed) (hr : r.WellFormed)
    {lBytes rBytes : List UInt8} (hlBytes : encodeNumberBytesInto l = .ok lBytes)
    (hrBytes : encodeNumberBytesInto r = .ok rBytes) :
    List.compareLex compare lBytes rBytes = compare l.value r.value := by
  rw [encodeNumberBytesInto_eq hl, Except.ok.injEq] at hlBytes
  rw [encodeNumberBytesInto_eq hr, Except.ok.injEq] at hrBytes
  subst hlBytes hrBytes
  rw [List.compareLex_cons_cons, compare_value hl hr]
  -- Only equal sign tags reach the payloads.
  rcases htag : compare l.signTag r.signTag
  · rfl
  · change List.compareLex compare _ _ = l.sameSignOrder r
    have htag' : l.signTag = r.signTag := Std.LawfulEqCmp.compare_eq_iff_eq.mp htag
    rcases hl with rfl | ⟨hlz, hld, hle⟩ <;> rcases hr with rfl | ⟨hrz, hrd, hre⟩
    · exact Std.LawfulEqCmp.compare_eq_iff_eq.mpr rfl
    · rcases hs : r.negative <;> simp [signTag, hrz, hs] at htag'
    · rcases hs : l.negative <;> simp [signTag, hlz, hs] at htag'
    · have hpayload := compareLex_payload hld hrd hle hre
      rcases hls : l.negative <;> rcases hrs : r.negative <;>
        simp only [signTag, hlz, hrz, hls, hrs, Bool.false_eq_true, if_false, if_true] at htag' <;>
        first | exact absurd htag' (by decide) | skip
      · have hid : (complementIf false) = id := rfl
        simp only [sameSignOrder, hlz, hrz, hls, hid, map_id,
          Bool.false_eq_true, if_false, hpayload]
      · have hlen : l.payload.length = r.payload.length := by
          simp [payload]
        have hnot := Positional.compareLex_map_swap (f := complementIf true)
          compare_uint8_not hlen
        simp only [sameSignOrder, hlz, hrz, hls, Bool.false_eq_true,
          if_false, if_true, hnot, hpayload]
  · rfl

/-- **The ordered number key is an order embedding.** Any two accepted number texts have
keys; the comparison of the numbers, the bytewise order of the keys and the order of the
hexadecimal key texts all equal the order of the exact rationals the texts denote, and the
keys are equal exactly when those rationals are. -/
theorem encodeDynamodbNumberKey_orderEmbedding {a b : Text} {l r : ParsedDynamodbNumber}
    (ha : parse a = .ok l) (hb : parse b = .ok r) :
    ∃ lBytes rBytes lKey rKey,
      encodeNumberBytesInto l = .ok lBytes ∧ encodeNumberBytesInto r = .ok rBytes ∧
      encodeDynamodbNumberKey a = .ok lKey ∧ encodeDynamodbNumberKey b = .ok rKey ∧
      compareDynamodbNumbers a b
        = .ok (compare (decimalValue a.bytes) (decimalValue b.bytes)) ∧
      List.compareLex compare lBytes rBytes
        = compare (decimalValue a.bytes) (decimalValue b.bytes) ∧
      List.compareLex compare lKey rKey
        = compare (decimalValue a.bytes) (decimalValue b.bytes) ∧
      (lBytes = rBytes ↔ decimalValue a.bytes = decimalValue b.bytes) ∧
      (lKey = rKey ↔ decimalValue a.bytes = decimalValue b.bytes) := by
  have hlw := parseBytes_wellFormed ha
  have hrw := parseBytes_wellFormed hb
  have hlBytes := encodeNumberBytesInto_eq hlw
  have hrBytes := encodeNumberBytesInto_eq hrw
  generalize (l.signTag :: _) = lBytes at hlBytes
  generalize (r.signTag :: _) = rBytes at hrBytes
  have hbytes := compareLex_encodeNumberBytesInto hlw hrw hlBytes hrBytes
  rw [parseBytes_value ha, parseBytes_value hb] at hbytes
  have hkey : List.compareLex compare (numberKeyMarker :: lBytes.flatMap hexByte)
      (numberKeyMarker :: rBytes.flatMap hexByte)
      = compare (decimalValue a.bytes) (decimalValue b.bytes) := by
    rw [List.compareLex_cons_cons,
      Positional.compareLex_flatMap (f := hexByte) (fun _ => cons_ne_nil _ _) fun _ _ _ _ => by
        rw [Positional.compareLex_append (by rfl), compareLex_hexByte], hbytes]
    rfl
  have hcompare : compareDynamodbNumbers a b
      = .ok (compare (decimalValue a.bytes) (decimalValue b.bytes)) :=
    compareDynamodbNumbers_eq_ok.mpr ⟨l, r, ha, hb, rfl⟩
  refine ⟨lBytes, rBytes, _, _, hlBytes, hrBytes, ?_, ?_, hcompare, hbytes, hkey, ?_, ?_⟩
  · rw [encodeDynamodbNumberKey, ha]
    simp only [Except.mapError, bind, Except.bind, hlBytes]
    rfl
  · rw [encodeDynamodbNumberKey, hb]
    simp only [Except.mapError, bind, Except.bind, hrBytes]
    rfl
  · exact Std.LawfulEqCmp.compare_eq_iff_eq.symm.trans (hbytes ▸ compare_eq_iff_eq)
  · exact Std.LawfulEqCmp.compare_eq_iff_eq.symm.trans (hkey ▸ compare_eq_iff_eq)

/-- The texts `-2.5e3` and `-2500.0` are two spellings of one number. -/
theorem encodeDynamodbNumberKey_orderEmbedding_spellings :
    ∃ lKey rKey, encodeDynamodbNumberKey "-2.5e3".toList = .ok lKey ∧
      encodeDynamodbNumberKey "-2500.0".toList = .ok rKey ∧
      (lKey = rKey ↔ decimalValue (Text.bytes "-2.5e3".toList)
        = decimalValue (Text.bytes "-2500.0".toList)) := by
  obtain ⟨-, -, lKey, rKey, -, -, hl, hr, -, -, -, -, hiff⟩ :=
    encodeDynamodbNumberKey_orderEmbedding (a := "-2.5e3".toList) (b := "-2500.0".toList)
      (l := ⟨true, 3, [50, 53], false⟩) (r := ⟨true, 3, [50, 53], false⟩)
      (by decide) (by decide)
  exact ⟨lKey, rKey, hl, hr, hiff⟩

end AuxStorage
