import AuxStorage.DynamodbNumberCanonical

/-!
# Number Keys as Text

A number key is also written as text: a marker and the hexadecimal digits of its bytes. The decoder
takes upper-case digits as well, and a mantissa that starts with zeroes. The encoder writes neither,
so a key text is what the encoder makes of the decoded number when it has none of the two.
-/

namespace AuxStorage

open List
open ParsedDynamodbNumber (parse payload signTag)

/-! ### Decoding the text -/

def decodeHexDigit (byte : UInt8) : Except String UInt8 :=
  if 48 ≤ byte ∧ byte ≤ 57 then pure (byte - 48)
  else if 97 ≤ byte ∧ byte ≤ 102 then pure (byte - 97 + 10)
  else if 65 ≤ byte ∧ byte ≤ 70 then pure (byte - 65 + 10)
  else .error "number key contains invalid hex"

/-- The bytes that pairs of hexadecimal digits spell. -/
def decodeHexPairs : List UInt8 → Except String (List UInt8)
  | high :: low :: rest => do
    let high ← decodeHexDigit high
    let low ← decodeHexDigit low
    let bytes ← decodeHexPairs rest
    pure ((high <<< 4 ||| low) :: bytes)
  | _ => pure []

def decodeDynamodbNumberKey (value : Text) : Except String Text :=
  if value.head? ≠ some numberKeyMarker then
    .error "number key is missing its codec marker"
  else if (Text.bytes value.tail).length ≠ numberKeyBytes * 2 then
    .error "number key has an invalid encoded length"
  else do
    let bytes ← decodeHexPairs (Text.bytes value.tail)
    decodeDynamodbNumberKeyBytes bytes

/-! ### Hexadecimal digits -/

/-- The digits of a byte are read back. -/
theorem hexByte_read (byte : UInt8) :
    ∃ high low h l, Text.bytes (hexByte byte) = [high, low] ∧
      decodeHexDigit high = .ok h ∧ decodeHexDigit low = .ok l ∧ h <<< 4 ||| l = byte := by
  have htable : ∀ i : Fin 16, Text.bytes [hexDigit i] = [UInt8.ofNat (hexDigit i).toNat] ∧
      decodeHexDigit (UInt8.ofNat (hexDigit i).toNat) = .ok (UInt8.ofNat i) := by decide
  have hjoin : ∀ i : Fin 256,
      UInt8.ofNat (i / 16) <<< 4 ||| UInt8.ofNat (i % 16) = UInt8.ofNat i := by decide +kernel
  have hbyte : byte.toNat < 256 := byte.toNat_lt
  obtain ⟨hhigh, hread⟩ := htable ⟨byte.toNat / 16, by omega⟩
  obtain ⟨hlow, hread'⟩ := htable ⟨byte.toNat % 16, by omega⟩
  refine ⟨_, _, _, _, ?_, hread, hread', ?_⟩
  · exact (Text.bytes_append [_] [_]).trans (congrArg₂ (· ++ ·) hhigh hlow)
  · simpa using hjoin ⟨byte.toNat, hbyte⟩

theorem decodeHexPairs_hexByte (bytes : List UInt8) :
    decodeHexPairs (Text.bytes (bytes.flatMap hexByte)) = .ok bytes ∧
      (Text.bytes (bytes.flatMap hexByte)).length = bytes.length * 2 := by
  induction bytes with
  | nil => exact ⟨rfl, rfl⟩
  | cons byte bytes ih =>
    obtain ⟨high, low, h, l, hbytes, hhigh, hlow, hjoin⟩ := hexByte_read byte
    rw [flatMap_cons, Text.bytes_append, hbytes]
    constructor
    · simp only [cons_append, nil_append, decodeHexPairs, hhigh, hlow, ih.1, bind, Except.bind,
        hjoin]
      rfl
    · simp only [cons_append, nil_append, length_cons, ih.2]
      omega

/-! ### Bytes and numbers -/

variable {bytes : List UInt8} {n : ParsedDynamodbNumber}

/-- The key is that of zero, or its first mantissa digit is not zero. -/
def NoLeadingZero (bytes : List UInt8) : Prop :=
  bytes.headD 0 = 1 ∨ complementIf (bytes.headD 0 = 0) (bytes.getD 3 0) ≠ 48

/-- The parts of accepted key bytes. -/
theorem decodeNumberBytes_parts (h : decodeNumberBytes bytes = .ok n) :
    bytes = 1 :: List.replicate (numberKeyBytes - 1) 0 ∧ n = .zero ∨
      n.isZero = false ∧ ∃ high low digits, digits.length = numberKeyDigits ∧
        bytes = (if n.negative then 0 else 2)
          :: (high :: low :: digits).map (complementIf n.negative) ∧
        (∀ byte ∈ digits, isAsciiDigit byte) ∧ n.digits = digits.rdropWhile (· = 48) ∧
        n.digits ≠ [] ∧ -130 ≤ n.adjustedExponent ∧ n.adjustedExponent ≤ 125 ∧
        n.adjustedExponent = (high.toNat * 256 + low.toNat : ℕ) - numberKeyExponentBias := by
  rw [decodeNumberBytes] at h
  split_ifs at h with hlen htag hzero
  · cases h
    obtain ⟨tag, rest, rfl⟩ := exists_cons_of_length_eq_add_one (not_not.mp hlen)
    obtain rfl : tag = 1 := htag
    refine .inl ⟨congrArg (1 :: ·) (eq_replicate_iff.mpr ⟨?_, by simpa using hzero⟩), rfl⟩
    exact Nat.succ.inj (not_not.mp hlen)
  · obtain ⟨tag, rest, rfl⟩ := exists_cons_of_length_eq_add_one (not_not.mp hlen)
    obtain ⟨negative, hsign, h⟩ := Except.bind_eq_ok.mp h
    have htags : tag = if negative then 0 else 2 := by
      rw [signOfTag, headD_cons] at hsign
      split_ifs at hsign with h₀ h₂ <;> cases hsign <;> assumption
    obtain ⟨high, low, digits, hpayload⟩ : ∃ high low digits,
        rest.map (complementIf negative) = high :: low :: digits := by
      have hrest : (rest.map (complementIf negative)).length = 40 := by
        rw [length_map]
        exact Nat.succ.inj (not_not.mp hlen)
      rcases hmap : rest.map (complementIf negative) with _ | ⟨high, _ | ⟨low, digits⟩⟩
      · simp [hmap] at hrest
      · simp [hmap] at hrest
      · exact ⟨high, low, digits, rfl⟩
    simp only [tail_cons, hpayload, getD_cons_zero, getD_cons_succ, drop_succ_cons, drop_zero] at h
    split_ifs at h with hdigits hsignificant hrange
    cases h
    obtain ⟨-, hlow, hhigh⟩ := not_or.mp hrange |>.imp id not_not.mp
    refine .inr ⟨rfl, high, low, digits, ?_, ?_, by simpa using hdigits, rfl, hsignificant, hlow,
      hhigh, rfl⟩
    · have := congrArg length hpayload
      simp [numberKeyBytes, numberKeyDigits] at this hlen ⊢
      omega
    · rw [← hpayload, map_map, ← htags]
      simp [Function.comp_def, complementIf_complementIf]

/-- **A decoded number in normal form has the bytes it was read from**, and it is in normal form
when the mantissa does not start with a zero. -/
theorem encodeNumberBytesInto_of_decode (h : decodeNumberBytes bytes = .ok n) :
    (n.WellFormed ↔ NoLeadingZero bytes) ∧
      (n.WellFormed → encodeNumberBytesInto n = .ok bytes) := by
  obtain ⟨rfl, rfl⟩ | ⟨hz, high, low, digits, hlen, hbytes, hdigit, hn, hne, hlow, hhigh, he⟩ :=
    decodeNumberBytes_parts h
  · exact ⟨iff_of_true (.inl rfl) (.inl rfl), fun _ => rfl⟩
  obtain ⟨zeroes, hsplit⟩ : ∃ zeroes, n.digits ++ replicate zeroes 48 = digits := by
    have hzeroes : digits.rtakeWhile (· = 48)
        = replicate (digits.rtakeWhile (· = 48)).length 48 :=
      eq_replicate_iff.mpr ⟨rfl, fun byte hbyte => by simpa using mem_rtakeWhile_imp hbyte⟩
    exact ⟨_, by rw [hn, ← hzeroes, rdropWhile_append_rtakeWhile]⟩
  obtain ⟨first, rest, hfirst⟩ := exists_cons_of_ne_nil hne
  have hleading : NoLeadingZero bytes ↔ n.digits.head? ≠ some 48 := by
    rw [NoLeadingZero, hbytes, ← hsplit, hfirst]
    rcases n.negative <;> simp [complementIf]
  have hlength : n.digits.length ≤ numberKeyDigits := by
    rw [← hlen, ← hsplit, length_append]
    omega
  refine ⟨?_, fun hwf => ?_⟩
  · rw [hleading]
    constructor
    · rintro (rfl | ⟨-, hnormal, -⟩)
      · cases hz
      · exact hnormal.head_ne
    · intro hhead
      refine .inr ⟨hz, ⟨hne, fun byte hbyte => ?_, hhead, fun hlast => ?_, hlength⟩, hlow, hhigh⟩
      · exact hdigit byte (hsplit ▸ mem_append_left _ hbyte)
      · rw [hn] at hne hlast
        have := rdropWhile_last_not _ _ hne
        rw [getLast?_eq_some_getLast hne, Option.some.injEq] at hlast
        simp [hlast] at this
  · have hpayload : n.payload = high :: low :: digits := by
      have hpad : numberKeyDigits - n.digits.length = zeroes := by
        rw [← hlen, ← hsplit, length_append, length_replicate]
        omega
      have hexponent : (n.adjustedExponent + numberKeyExponentBias).toNat
          = high.toNat * 256 + low.toNat := by omega
      have := low.toNat_lt
      have hbytes : (high.toNat * 256 + low.toNat) / 256 = high.toNat ∧
          (high.toNat * 256 + low.toNat) % 256 = low.toNat := by omega
      rw [payload, hexponent, hbytes.1, hbytes.2, paddedDigits_eq hlength, hpad, hsplit]
      simp
    rw [encodeNumberBytesInto_eq hwf, hz, hpayload, hbytes, signTag, hz]
    rfl

/-! ### The codec -/

theorem decodeDynamodbNumberKey_eq_ok {key value : Text} :
    decodeDynamodbNumberKey key = .ok value ↔ key.head? = some numberKeyMarker ∧
      (Text.bytes key.tail).length = numberKeyBytes * 2 ∧
      ∃ bytes n, decodeHexPairs (Text.bytes key.tail) = .ok bytes ∧
        decodeNumberBytes bytes = .ok n ∧ n.canonicalString = .ok value := by
  rw [decodeDynamodbNumberKey]
  split_ifs with hmarker hlength
  · simp [hmarker]
  · simp [hlength]
  · simp only [not_not.mp hmarker, not_not.mp hlength, true_and, Except.bind_eq_ok,
      decodeDynamodbNumberKeyBytes, Except.mapError_eq_ok, exists_and_left]

theorem encodeDynamodbNumberKey_eq_ok {key value : Text} :
    encodeDynamodbNumberKey value = .ok key ↔ ∃ n bytes, parse value = .ok n ∧
      encodeNumberBytesInto n = .ok bytes ∧ key = numberKeyMarker :: bytes.flatMap hexByte := by
  simp only [encodeDynamodbNumberKey, Except.bind_eq_ok, Except.mapError_eq_ok, exists_and_left,
    pure, Except.pure, Except.ok.injEq, @eq_comm _ key]

/-- **The codec of number keys.** A number text has a key, which decodes to its canonical text, and
that text is read as the same number. A key text is the encoding of what it decodes to exactly when
it is spelled as the encoder spells bytes, in lower case, and its mantissa starts with no zero. -/
theorem decodeDynamodbNumberKey_codec (key value : Text) :
    (∀ n, parse value = .ok n → ∃ key canonical, encodeDynamodbNumberKey value = .ok key ∧
      canonicalDynamodbNumber value = .ok canonical ∧
      decodeDynamodbNumberKey key = .ok canonical ∧ parse canonical = .ok n ∧
      canonicalDynamodbNumber canonical = .ok canonical) ∧
    (decodeDynamodbNumberKey key = .ok value →
      (encodeDynamodbNumberKey value = .ok key ↔
        ∃ bytes, key = numberKeyMarker :: bytes.flatMap hexByte ∧ NoLeadingZero bytes)) := by
  constructor
  · intro n hparse
    have hwf := parseBytes_wellFormed hparse
    obtain ⟨canonical, hcanonical, hsame, -⟩ := parse_canonicalString hwf
    have hbytes := encodeNumberBytesInto_eq hwf
    generalize (n.signTag :: _) = bytes at hbytes
    obtain ⟨hread, hlength⟩ := decodeHexPairs_hexByte bytes
    refine ⟨_, canonical, encodeDynamodbNumberKey_eq_ok.mpr ⟨n, bytes, hparse, hbytes, rfl⟩, ?_,
      decodeDynamodbNumberKey_eq_ok.mpr ⟨rfl, ?_, bytes, n, hread,
        decodeNumberBytes_encodeNumberBytesInto hwf hbytes, hcanonical⟩, hsame, ?_⟩
    · rw [canonicalDynamodbNumber, hparse]
      exact hcanonical
    · rw [tail_cons, hlength, length_encodeNumberBytesInto hwf hbytes]
    · rw [canonicalDynamodbNumber, hsame]
      exact hcanonical
  · intro hdecode
    obtain ⟨-, -, read, n, hread, hnumber, hcanonical⟩ := decodeDynamodbNumberKey_eq_ok.mp hdecode
    constructor
    · intro hkey
      obtain ⟨n', bytes, hparse, hbytes, rfl⟩ := encodeDynamodbNumberKey_eq_ok.mp hkey
      have hwf := parseBytes_wellFormed hparse
      have hsame := decodeNumberBytes_encodeNumberBytesInto hwf hbytes
      exact ⟨bytes, rfl, (encodeNumberBytesInto_of_decode hsame).1.mp hwf⟩
    · rintro ⟨bytes, rfl, hleading⟩
      obtain rfl := Except.ok.inj (hread.symm.trans (decodeHexPairs_hexByte bytes).1)
      obtain ⟨hwf, hencode⟩ := encodeNumberBytesInto_of_decode hnumber
      obtain ⟨canonical, htext, hparse, -⟩ := parse_canonicalString (hwf.mpr hleading)
      cases hcanonical.symm.trans htext
      exact encodeDynamodbNumberKey_eq_ok.mpr ⟨n, read, hparse, hencode (hwf.mpr hleading), rfl⟩

/-- Keys that decode to numbers of other keys: one with an upper-case digit, and one whose mantissa
is `05`. -/
theorem decodeDynamodbNumberKey_other :
    decodeDynamodbNumberKey (text "~0203E831" ++ (List.replicate 37 (text "30")).flatten)
        = .ok (text "1") ∧
      encodeDynamodbNumberKey (text "1")
        ≠ .ok (text "~0203E831" ++ (List.replicate 37 (text "30")).flatten) ∧
      decodeDynamodbNumberKey (text "~0203e83035" ++ (List.replicate 36 (text "30")).flatten)
        = .ok (text "0.5") ∧
      encodeDynamodbNumberKey (text "0.5")
        ≠ .ok (text "~0203e83035" ++ (List.replicate 36 (text "30")).flatten) := by
  decide +kernel

end AuxStorage
