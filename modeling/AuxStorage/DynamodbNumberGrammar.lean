import AuxStorage.DynamodbNumberOrder

/-!
# The Grammar of Number Texts

Which texts the number parser accepts: those of the decimal grammar whose number fits the
precision and the range, however the text pads and shifts its digits. The exponent is read
before its sign is applied, so its digits have to denote an `i64` themselves.
-/

namespace AuxStorage

open List
open MantissaDigits (consume empty_reads finish includeDigit)

/-- An optional sign, digits with at most one point and at least one digit, and an optional
exponent. -/
def NumberText (input : List UInt8) : Prop :=
  ∃ integer fractional rest, mantissaParts (skipSign input) = (integer, fractional, rest) ∧
    integer ++ fractional ≠ [] ∧ ExponentText rest

/-- The numbers with at most 38 significant digits that are zero or have an adjusted exponent
in range. -/
def Representable (q : ℚ) : Prop :=
  q = 0 ∨ ∃ digits, ∃ e : ℤ, NormalDigits digits ∧ -130 ≤ e ∧ e ≤ 125 ∧
    |q| = digitsValue digits * (10 : ℚ) ^ (e - (digits.length - 1))

/-! ### Spelled numbers -/

/-- The mantissa with these digits before and behind the point. -/
def mantissaText (integer fractional : List UInt8) (point : Bool) : List UInt8 :=
  integer ++ if point then 46 :: fractional else []

section Spelled

variable {integer fractional rest : List UInt8} {point : Bool}

/-- What follows a mantissa does not continue it. -/
def EndsMantissa (rest : List UInt8) : Prop :=
  ∀ byte ∈ rest.head?, isAsciiDigit byte = false ∧ byte ≠ 46

theorem takeWhile_digits_append (hinteger : ∀ byte ∈ integer, isAsciiDigit byte)
    (hrest : ∀ byte ∈ rest.head?, isAsciiDigit byte = false) :
    (integer ++ rest).takeWhile isAsciiDigit = integer ∧
      (integer ++ rest).dropWhile isAsciiDigit = rest := by
  rw [takeWhile_append_of_pos hinteger, dropWhile_append_of_pos hinteger]
  cases rest with
  | nil => simp
  | cons byte rest => simp [hrest byte rfl]

theorem mantissaParts_mantissaText (hinteger : ∀ byte ∈ integer, isAsciiDigit byte)
    (hfractional : ∀ byte ∈ fractional, isAsciiDigit byte)
    (hpoint : point = false → fractional = []) (hrest : EndsMantissa rest) :
    mantissaParts (mantissaText integer fractional point ++ rest)
      = (integer, fractional, rest) := by
  cases point with
  | false =>
    obtain rfl := hpoint rfl
    obtain ⟨htake, hdrop⟩ :=
      takeWhile_digits_append hinteger fun byte hbyte => (hrest byte hbyte).1
    have hhead : rest.head? ≠ some 46 := fun h => (hrest 46 h).2 rfl
    simp [mantissaText, mantissaParts, htake, hdrop, hhead]
  | true =>
    have hbehind : ∀ byte ∈ (46 :: (fractional ++ rest)).head?, isAsciiDigit byte = false := by
      rintro _ ⟨⟩
      decide
    obtain ⟨htake, hdrop⟩ := takeWhile_digits_append hinteger hbehind
    obtain ⟨hftake, hfdrop⟩ :=
      takeWhile_digits_append hfractional fun byte hbyte => (hrest byte hbyte).1
    have htext : mantissaText integer fractional true ++ rest
        = integer ++ 46 :: (fractional ++ rest) := by simp [mantissaText]
    rw [htext, mantissaParts, htake, hdrop]
    simp [hftake, hfdrop]

section Signed

variable {sign : List UInt8} (hsign : sign = [] ∨ sign = [43] ∨ sign = [45])
  (hinteger : ∀ byte ∈ integer, isAsciiDigit byte)
  (hfractional : ∀ byte ∈ fractional, isAsciiDigit byte)
  (hpoint : point = false → fractional = []) (hne : integer ++ fractional ≠ [])
include hsign hinteger hpoint hne

/-- The sign of a text is told from its mantissa, which starts with a digit or the point. -/
theorem skipSign_spelled :
    skipSign (sign ++ (mantissaText integer fractional point ++ rest))
        = mantissaText integer fractional point ++ rest ∧
      ((sign ++ (mantissaText integer fractional point ++ rest)).head? = some 45
        ↔ sign = [45]) := by
  have hhead : ∀ byte ∈ (mantissaText integer fractional point ++ rest).head?,
      byte ≠ 43 ∧ byte ≠ 45 := by
    have hdigit : ∀ byte, isAsciiDigit byte → byte ≠ 43 ∧ byte ≠ 45 := by
      rintro byte hbyte
      constructor <;> rintro rfl <;> exact absurd hbyte (by decide)
    intro byte hbyte
    cases integer with
    | cons first integer =>
      obtain rfl : first = byte := by simpa [mantissaText] using hbyte
      exact hdigit _ (hinteger _ mem_cons_self)
    | nil =>
      cases point with
      | false => exact absurd (hpoint rfl) (by simpa using hne)
      | true =>
        obtain rfl : 46 = byte := by simpa [mantissaText] using hbyte
        decide
  rcases hsign with rfl | rfl | rfl
  · rw [nil_append, skipSign, if_neg]
    · exact ⟨rfl, fun h => absurd rfl (hhead 45 h).2, fun h => by cases h⟩
    · simp only [signAhead, Bool.or_eq_true, decide_eq_true_eq]
      rintro (h | h)
      · exact (hhead 43 h).1 rfl
      · exact (hhead 45 h).2 rfl
  · exact ⟨rfl, by simp⟩
  · exact ⟨rfl, by simp⟩

include hfractional

/-- **The number that a text denotes**, from its sign, its digits and its exponent. -/
theorem decimalValue_spelled (hrest : EndsMantissa rest) :
    decimalValue (sign ++ (mantissaText integer fractional point ++ rest))
      = (if sign = [45] then -1 else 1) * (digitsValue (integer ++ fractional)
          * (10 : ℚ) ^ (exponentValue rest - fractional.length)) := by
  obtain ⟨hskip, hnegative⟩ := @skipSign_spelled _ _ rest _ _ hsign hinteger hpoint hne
  rw [decimalValue, hskip, mantissaParts_mantissaText hinteger hfractional hpoint hrest]
  simp only [hnegative]
  split_ifs with h
  · rw [neg_one_mul]
  · rw [one_mul]

/-- Texts without exponent belong to the grammar. -/
theorem numberText_spelled :
    NumberText (sign ++ (mantissaText integer fractional point ++ [])) := by
  refine ⟨integer, fractional, [], ?_, hne, .inl rfl⟩
  rw [(skipSign_spelled hsign hinteger hpoint hne).1,
    mantissaParts_mantissaText hinteger hfractional hpoint (by simp [EndsMantissa])]

end Signed

end Spelled

/-! ### The reader on digits -/

variable {m : MantissaDigits} {ds digits : List UInt8}

/-- A reader takes a further digit as long as the counters have room. -/
theorem MantissaDigits.exists_includeDigit (hm : m.Reads ds)
    (hlen : ds.length + 1 < 2 ^ 63) (byte : UInt8) : ∃ m', m.includeDigit byte = .ok m' := by
  obtain ⟨lead, core, zeroes, rfl, hsig, htz, -⟩ := hm
  simp only [length_append, length_replicate] at hlen
  rw [includeDigit, htz, hsig]
  split
  · split
    · rw [checkedI64, if_pos (by omega)]
      exact ⟨_, rfl⟩
    · exact ⟨_, rfl⟩
  · have hpadded : checkedUsize (core.length + zeroes) = some (core.length + zeroes) := by
      rw [checkedUsize, if_pos (by omega)]
    have hnext : checkedUsize (core.length + zeroes + 1) = some (core.length + zeroes + 1) := by
      rw [checkedUsize, if_pos (by omega)]
    simp [usizeTryFrom, okOr, bind, Except.bind, hpadded, hnext, pure, Except.pure]

open MantissaDigits

/-- A reader takes a whole run of digits and stops behind it. -/
theorem MantissaDigits.exists_consume {l : List UInt8} (rest : List UInt8) (count : ℤ)
    (hm : m.Reads ds) (hl : ∀ byte ∈ l, isAsciiDigit byte)
    (hrest : ∀ byte ∈ rest.head?, isAsciiDigit byte = false) (hcount : 0 ≤ count)
    (hroom : count + l.length < 2 ^ 63) (hlen : ds.length + l.length < 2 ^ 63) :
    ∃ m', m.consume count (l ++ rest) = .ok (m', count + l.length, rest) ∧ m'.Reads (ds ++ l) := by
  induction l generalizing m ds count with
  | nil =>
    refine ⟨m, ?_, by simpa using hm⟩
    cases rest with
    | nil => simp [consume, pure, Except.pure]
    | cons byte rest =>
      have hbyte := hrest byte (by simp)
      simp [consume, pure, Except.pure, hbyte]
  | cons byte l ih =>
    simp only [length_cons, Nat.cast_add, Nat.cast_one] at hroom hlen
    have hbyte := hl byte mem_cons_self
    obtain ⟨m₁, hm₁⟩ := exists_includeDigit hm (by omega) byte
    obtain ⟨m', hconsume, hreads⟩ := ih (count + 1) (includeDigit_reads hm hm₁)
      (fun b hb => hl b (mem_cons_of_mem _ hb)) (by omega) (by omega)
      (by simp only [length_append, length_singleton]; omega)
    refine ⟨m', ?_, by simpa using hreads⟩
    rw [cons_append, consume, if_pos hbyte, checkedI64,
      if_pos (by omega)]
    simp only [okOr, bind, Except.bind, hm₁, hconsume, length_cons, Nat.cast_add, Nat.cast_one]
    rw [add_assoc, add_comm (1 : ℤ)]

theorem MantissaDigits.exists_consume_ahead (hm : m.Reads ds) (l : List UInt8)
    (hlen : ds.length + l.length < 2 ^ 63) :
    ∃ m', m.consume 0 l = .ok (m', ((l.takeWhile isAsciiDigit).length : ℤ),
      l.dropWhile isAsciiDigit) ∧ m'.Reads (ds ++ l.takeWhile isAsciiDigit) := by
  have hsplit := @takeWhile_append_dropWhile _ isAsciiDigit l
  have hlength := congrArg length hsplit
  rw [length_append] at hlength
  have hstop : ∀ byte ∈ (l.dropWhile isAsciiDigit).head?, isAsciiDigit byte = false := by
    intro byte hbyte
    have := head?_dropWhile_not isAsciiDigit l
    rw [Option.mem_def.mp hbyte] at this
    simpa using this
  obtain ⟨m', hconsume, hreads⟩ := exists_consume
    (l := l.takeWhile isAsciiDigit) _ 0 hm (fun byte hbyte => mem_takeWhile_imp hbyte) hstop
    le_rfl (by omega) (by omega)
  rw [hsplit, zero_add] at hconsume
  exact ⟨m', hconsume, hreads⟩

/-! ### Digits without padding -/

section Core

variable {core core' : List UInt8} (hcore : ∀ byte ∈ core, isAsciiDigit byte)
  (hcore' : ∀ byte ∈ core', isAsciiDigit byte) (hhead : core.head? ≠ some 48)
  (hhead' : core'.head? ≠ some 48)

include hcore hcore' hhead hhead'

/-- A digit string that does not start with a zero is determined by its number. -/
theorem eq_of_digitsValue_eq (h : digitsValue core = digitsValue core') : core = core' := by
  have hdigits : ∀ {l : List UInt8}, (∀ byte ∈ l, isAsciiDigit byte) → l.head? ≠ some 48 →
      Nat.digits 10 (digitsValue l) = (l.map digitValue).reverse := by
    intro l hl hhead
    refine Nat.digits_ofDigits 10 (by norm_num) _ ?_ ?_
    · intro d hd
      obtain ⟨byte, hbyte, rfl⟩ := mem_map.mp (mem_reverse.mp hd)
      exact digitValue_lt (hl byte hbyte)
    · intro hne
      cases l with
      | nil => simp at hne
      | cons byte l =>
        have hrange := (isAsciiDigit_iff byte).mp (hl byte mem_cons_self)
        have hbyte : byte.toNat ≠ 48 := fun heq =>
          hhead (congrArg some (UInt8.toNat_inj.mp heq))
        simp only [map_cons, reverse_cons, getLast_append_singleton, digitValue]
        omega
  have hmap : core.map digitValue = core'.map digitValue :=
    reverse_injective ((hdigits hcore hhead).symm.trans (h ▸ hdigits hcore' hhead'))
  have hback : ∀ {l : List UInt8}, (∀ byte ∈ l, isAsciiDigit byte) →
      (l.map digitValue).map (fun d => UInt8.ofNat (d + 48)) = l := by
    intro l hl
    rw [map_map]
    refine (map_congr_left fun byte hbyte => ?_).trans l.map_id
    have hrange := (isAsciiDigit_iff byte).mp (hl byte hbyte)
    have hsum : byte.toNat - 48 + 48 = byte.toNat := by omega
    change UInt8.ofNat (byte.toNat - 48 + 48) = byte
    rw [hsum, UInt8.ofNat_toNat]
  rw [← hback hcore, hmap, hback hcore']

/-- Digits behind which padding moves the exponent are determined by their number. -/
theorem eq_of_digitsValue_shift {k : ℕ} (hlast' : core'.getLast? ≠ some 48) (hne : core ≠ [])
    (h : digitsValue core * 10 ^ k = digitsValue core') : core = core' ∧ k = 0 := by
  have hpad := digitsValue_pad 0 k core
  rw [replicate_zero, nil_append, h] at hpad
  have heq := eq_of_digitsValue_eq (fun byte hbyte => (mem_append.mp hbyte).elim
    (hcore byte) fun hb => by rw [eq_of_mem_replicate hb]; rfl) hcore'
    (by rwa [head?_append_of_ne_nil _ hne]) hhead' hpad
  cases k with
  | zero => exact ⟨by simpa using heq, rfl⟩
  | succ k =>
    rw [← heq, replicate_succ', ← append_assoc, getLast?_concat] at hlast'
    exact absurd rfl hlast'

end Core

/-- Two scaled naturals are equal when they differ by padding. -/
theorem exists_shift {x y : ℕ} {a b : ℤ} (hle : b ≤ a) (h : (x : ℚ) * 10 ^ a = y * 10 ^ b) :
    ∃ k : ℕ, a = b + k ∧ x * 10 ^ k = y := by
  obtain ⟨k, hk⟩ := Int.eq_ofNat_of_zero_le (sub_nonneg.mpr hle)
  obtain rfl : a = k + b := by omega
  rw [zpow_add₀ (by norm_num), zpow_natCast, ← mul_assoc] at h
  refine ⟨k, add_comm _ _, ?_⟩
  exact_mod_cast mul_right_cancel₀ (zpow_ne_zero b (by norm_num)) h

/-! ### Accepted texts -/

/-- A reader whose digits spell a representable number finishes with that number. -/
theorem MantissaDigits.finish_of_value (hm : m.Reads ds) (hds : ∀ byte ∈ ds, isAsciiDigit byte)
    {fractional : ℕ} {exponent e : ℤ} (hlen : ds.length < 2 ^ 31)
    (hfractional : fractional ≤ ds.length) (hdigits : NormalDigits digits) (hlow : -130 ≤ e)
    (hhigh : e ≤ 125)
    (h : (digitsValue ds : ℚ) * 10 ^ (exponent - fractional)
      = digitsValue digits * 10 ^ (e - (digits.length - 1))) (negative : Bool) :
    m.finish negative fractional exponent
      = .ok { negative, adjustedExponent := e, digits, isZero := false } := by
  obtain ⟨lead, core, zeroes, rfl, hsig, htz, hnil, hhead, hlast, hstored⟩ := hm
  have hcore : ∀ byte ∈ core, isAsciiDigit byte := fun byte hbyte => hds byte (by simp [hbyte])
  have hten : (10 : ℚ) ≠ 0 := by norm_num
  rw [digitsValue_pad, Nat.cast_mul, Nat.cast_pow, Nat.cast_ofNat, mul_assoc, ← zpow_natCast,
    ← zpow_add₀ hten] at h
  have hpos : core ≠ [] := by
    rintro rfl
    have hzero : digitsValue digits = 0 := by
      simpa [digitsValue, hten, zpow_ne_zero] using h.symm
    exact hdigits.ne_nil (eq_of_digitsValue_eq hdigits.digit (by simp) hdigits.head_ne
      (by simp) hzero)
  obtain ⟨rfl, hexponent⟩ : core = digits ∧
      (zeroes : ℤ) + (exponent - fractional) = e - (digits.length - 1) := by
    rcases le_total (e - (digits.length - 1)) (zeroes + (exponent - fractional)) with hle | hle
    · obtain ⟨k, hk, hshift⟩ := exists_shift hle h
      obtain ⟨rfl, rfl⟩ := eq_of_digitsValue_shift hcore hdigits.digit hhead hdigits.head_ne
        hdigits.last_ne hpos hshift
      exact ⟨rfl, by simpa using hk⟩
    · obtain ⟨k, hk, hshift⟩ := exists_shift hle h.symm
      obtain ⟨rfl, rfl⟩ := eq_of_digitsValue_shift hdigits.digit hcore hdigits.head_ne hhead hlast
        hdigits.ne_nil hshift
      exact ⟨rfl, by simpa using hk.symm⟩
  simp only [length_append, length_replicate] at hlen hfractional
  have hle := hdigits.length_le
  have hpos := length_pos_iff.mpr hpos
  simp only [numberKeyDigits] at hle
  have hadjusted : (do
      let count ← checkedI64 (m.significant : ℤ)
      let value ← checkedI64 (count + exponent)
      let value ← checkedI64 (value - fractional)
      let value ← checkedI64 (value + m.trailingZeroes)
      let value ← checkedI64 (value - 1)
      checkedI32 value) = some e := by
    simp only [hsig, htz, Option.bind_eq_bind, checkedI64, checkedI32]
    rw [if_pos (by omega), Option.bind_some, if_pos (by omega), Option.bind_some,
      if_pos (by omega), Option.bind_some, if_pos (by omega), Option.bind_some,
      if_pos (by omega), Option.bind_some, if_pos (by omega), Option.some_inj]
    omega
  rw [finish, if_neg (by omega), if_neg (by simp only [numberKeyDigits]; omega),
    hadjusted, hstored hdigits.length_le]
  rfl

theorem MantissaDigits.finish_of_zero (hm : m.Reads ds) (hds : ∀ byte ∈ ds, isAsciiDigit byte)
    (h : digitsValue ds = 0) (negative : Bool) (fractional exponent : ℤ) :
    ∃ n, m.finish negative fractional exponent = .ok n ∧ n.adjustedExponent = 0 := by
  obtain ⟨lead, core, zeroes, rfl, hsig, -, -, hhead, -⟩ := hm
  rw [digitsValue_pad] at h
  have hcore : core = [] := eq_of_digitsValue_eq (fun byte hbyte => hds byte (by simp [hbyte]))
    (by simp) hhead (by simp) ((Nat.mul_eq_zero.mp h).resolve_right (by positivity))
  rw [finish, if_pos (by simp [hsig, hcore])]
  exact ⟨_, rfl, rfl⟩

variable {input integer fractional rest : List UInt8}

/-- A text of the grammar that is not too long is read in its parts. -/
theorem parseDecimalBytes_of_parts (hlen : input.length < 2 ^ 31)
    (hparts : mantissaParts (skipSign input) = (integer, fractional, rest))
    (hne : integer ++ fractional ≠ []) (hrest : ExponentText rest) :
    ∃ m : MantissaDigits, m.Reads (integer ++ fractional) ∧
      (∀ byte ∈ integer ++ fractional, isAsciiDigit byte) ∧
      (integer ++ fractional).length < 2 ^ 31 ∧ parseDecimalBytes input
        = m.finish (input.head? = some 45) fractional.length (exponentValue rest) := by
  have hskip : (skipSign input).length ≤ input.length := by
    rw [skipSign]
    split <;> simp
  have hsplit := congrArg length
    (@takeWhile_append_dropWhile _ isAsciiDigit (skipSign input))
  rw [length_append] at hsplit
  obtain ⟨m₁, hm₁, hreads₁⟩ := exists_consume_ahead empty_reads
    (skipSign input) (by simp only [length_nil]; omega)
  obtain ⟨rfl, m₂, hm₂, hreads₂, hdigits, htotal⟩ :
      (skipSign input).takeWhile isAsciiDigit = integer ∧
      ∃ m₂, consumeFraction m₁ ((skipSign input).dropWhile isAsciiDigit)
        = .ok (m₂, (fractional.length : ℤ), rest) ∧ m₂.Reads (integer ++ fractional) ∧
        (∀ byte ∈ fractional, isAsciiDigit byte) ∧ (integer ++ fractional).length < 2 ^ 31 := by
    rw [mantissaParts] at hparts
    rw [consumeFraction]
    split at hparts
    · next hpoint =>
      obtain ⟨rfl, rfl, rfl⟩ : _ ∧ _ ∧ _ := by simpa using hparts
      rw [if_pos hpoint]
      generalize (skipSign input).dropWhile isAsciiDigit = behind at *
      have hfraction := congrArg length
        (@takeWhile_append_dropWhile _ isAsciiDigit behind.tail)
      rw [length_append, length_tail] at hfraction
      obtain ⟨m₂, hm₂, hreads₂⟩ := exists_consume_ahead hreads₁ behind.tail
        (by simp only [nil_append, length_tail]; omega)
      refine ⟨rfl, m₂, hm₂, by simpa using hreads₂, fun byte => mem_takeWhile_imp, ?_⟩
      rw [length_append]
      omega
    · next hpoint =>
      obtain ⟨rfl, rfl, rfl⟩ : _ ∧ _ ∧ _ := by simpa using hparts
      rw [if_neg hpoint]
      exact ⟨rfl, m₁, rfl, by simpa using hreads₁, by simp, by simp; omega⟩
  refine ⟨m₂, hreads₂, ?_, htotal, ?_⟩
  · intro byte hbyte
    exact (mem_append.mp hbyte).elim mem_takeWhile_imp (hdigits byte)
  · have hinput : input ≠ [] := by
      rintro rfl
      obtain ⟨rfl, -⟩ : fractional = [] ∧ rest = [] := by
        simpa [skipSign, signAhead, mantissaParts] using hparts
      exact hne (by simp [skipSign, signAhead])
    rw [parseDecimalBytes, if_neg hinput, hm₁]
    simp only [bind, Except.bind, hm₂, parseExponent_eq_ok_iff.mpr ⟨hrest, rfl⟩]
    rw [if_neg (by simpa [append_eq_nil_iff] using hne), if_neg (by simp)]

theorem ParsedDynamodbNumber.WellFormed.representable {n : ParsedDynamodbNumber}
    (h : n.WellFormed) : Representable n.value := by
  rcases h with rfl | ⟨hnonzero, hdigits, hlow, hhigh⟩
  · exact .inl rfl
  · refine .inr ⟨n.digits, n.adjustedExponent, hdigits, hlow, hhigh, ?_⟩
    rw [ParsedDynamodbNumber.value, if_neg (by simp [hnonzero])]
    split <;> simp [ParsedDynamodbNumber.magnitude]

/-- The parser accepts the texts of the grammar with a representable number. -/
theorem exists_parseBytes (hlen : input.length < 2 ^ 31) (htext : NumberText input)
    (hrepresentable : Representable (decimalValue input)) : ∃ n, parseBytes input = .ok n := by
  obtain ⟨integer, fractional, rest, hparts, hne, hrest⟩ := htext
  obtain ⟨m, hm, hdigits, htotal, hparse⟩ := parseDecimalBytes_of_parts hlen hparts hne hrest
  have hvalue : |decimalValue input| = digitsValue (integer ++ fractional)
      * (10 : ℚ) ^ (exponentValue rest - fractional.length) := by
    rw [decimalValue, hparts]
    dsimp only
    split <;> simp
  obtain ⟨n, hn, hlow, hhigh⟩ : ∃ n, m.finish (input.head? = some 45) fractional.length
      (exponentValue rest) = .ok n ∧ -130 ≤ n.adjustedExponent ∧ n.adjustedExponent ≤ 125 := by
    rcases hrepresentable with hzero | ⟨digits, e, hnormal, hlow, hhigh, heq⟩
    · rw [hzero, abs_zero, zero_eq_mul, Nat.cast_eq_zero] at hvalue
      obtain ⟨n, hn, hadjusted⟩ := finish_of_zero hm hdigits
        (hvalue.resolve_right (zpow_ne_zero _ (by norm_num))) (input.head? = some 45)
        fractional.length (exponentValue rest)
      exact ⟨n, hn, by omega, by omega⟩
    · exact ⟨_, finish_of_value hm hdigits htotal (by simp) hnormal hlow hhigh
        (hvalue.symm.trans heq) _, hlow, hhigh⟩
  refine ⟨n, Except.bind_eq_ok.mpr ⟨n, hparse.trans hn, ?_⟩⟩
  rw [if_neg (by omega), if_neg (by omega)]
  rfl

/-- **The parser accepts exactly the grammar**, within the precision and the range, and what
it returns is a normal form of the number that the text denotes. -/
theorem parseBytes_grammar (hlen : input.length < 2 ^ 31) :
    ((∃ n, parseBytes input = .ok n) ↔ NumberText input ∧ Representable (decimalValue input)) ∧
      ∀ n, parseBytes input = .ok n → n.WellFormed ∧ n.value = decimalValue input := by
  refine ⟨⟨?_, fun h => exists_parseBytes hlen h.1 h.2⟩,
    fun n hn => ⟨parseBytes_wellFormed hn, parseBytes_value hn⟩⟩
  rintro ⟨n, hn⟩
  obtain ⟨number, hnumber, -⟩ := Except.bind_eq_ok.mp hn
  obtain ⟨integer, fractional, rest, hparts, hne, -, hrest, -⟩ := parseDecimalBytes_parts hnumber
  refine ⟨⟨integer, fractional, rest, hparts, hne, hrest⟩, ?_⟩
  rw [← parseBytes_value hn]
  exact (parseBytes_wellFormed hn).representable

/-- Leading zeroes, trailing zeroes and a shift of the point. -/
theorem parseBytes_grammar_padded : NumberText (text "-01.50e3").bytes ∧
    Representable (decimalValue (text "-01.50e3").bytes) :=
  (parseBytes_grammar (by decide)).1.mp ⟨_, rfl⟩

/-- The exponent `-2^63` is an `i64`, but its digits are not. -/
theorem parseBytes_exponent_min :
    parseBytes (text "0e-9223372036854775808").bytes = .error .exponentOutOfRange ∧
      exponentValue (text "e-9223372036854775808").bytes = -2 ^ 63 := by
  decide +kernel

end AuxStorage
