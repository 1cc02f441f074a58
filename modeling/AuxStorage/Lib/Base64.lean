import Mathlib

/-!
# Base64

The base64 code over an arbitrary alphabet, with and without padding. A reader with
padding accepts exactly what the writer with padding produces, and a reader without
padding exactly what the writer without padding produces: symbols outside the alphabet,
misplaced padding, a dangling symbol, and unused bits that are not zero are all refused.

## Main results

* `Codec`: a writer and its exact reader, and what follows from this law alone.
* `Base64.decode_eq_some`: a text is read as some bytes exactly when it is what these
  bytes are written as; `Base64.codec` is the code.
-/

namespace AuxStorage

open List
open UInt8 (ofNat ofNat_toNat toNat_ofNat')

/-- A **code**: a writer, and a reader that accepts exactly what the writer produces. -/
structure Codec (α τ : Type*) where
  encode : α → τ
  decode : τ → Option α
  decode_eq_some : ∀ {t a}, decode t = some a ↔ t = encode a

namespace Codec

variable {α τ : Type*} (codec : Codec α τ)

/-- What is written is read back. -/
theorem decode_encode (a : α) : codec.decode (codec.encode a) = some a :=
  codec.decode_eq_some.mpr rfl

/-- **Two values are written differently.** -/
theorem encode_injective : Function.Injective codec.encode := by
  intro a b h
  exact Option.some.inj ((codec.decode_encode a).symm.trans (h ▸ codec.decode_encode b))

end Codec

/-- A **base64 alphabet**: 64 different symbols, none of them the padding. -/
structure Base64Alphabet where
  symbols : List Char
  length_eq : symbols.length = 64
  nodup : symbols.Nodup
  pad_notMem : '=' ∉ symbols

namespace Base64Alphabet

variable (alphabet : Base64Alphabet)

/-- The symbol of a sextet. -/
def symbol (sextet : ℕ) : Char :=
  alphabet.symbols.getD sextet '='

/-- The sextet of a symbol. -/
def value (c : Char) : Option ℕ :=
  alphabet.symbols.idxOf? c

variable {i : ℕ}

theorem getElem?_symbols (h : i < 64) : alphabet.symbols[i]? = some (alphabet.symbol i) := by
  rw [symbol, getD_eq_getElem?_getD,
    getElem?_eq_getElem (by rw [alphabet.length_eq]; exact h), Option.getD_some]

theorem value_eq_some {c : Char} : alphabet.value c = some i ↔ i < 64 ∧ alphabet.symbol i = c := by
  rw [value, idxOf?_eq_some_iff]
  constructor
  · rintro ⟨hlt, hget, -⟩
    have hlt' : i < 64 := alphabet.length_eq ▸ hlt
    have hsymbol := alphabet.getElem?_symbols hlt'
    rw [getElem?_eq_getElem hlt, Option.some.injEq] at hsymbol
    exact ⟨hlt', hsymbol ▸ (by simpa using hget)⟩
  · rintro ⟨hlt, rfl⟩
    have hlt' : i < alphabet.symbols.length := by rw [alphabet.length_eq]; exact hlt
    have hsymbol := alphabet.getElem?_symbols hlt
    rw [getElem?_eq_getElem hlt', Option.some.injEq] at hsymbol
    refine ⟨hlt', by simpa using hsymbol, fun j hj => ?_⟩
    have hne : alphabet.symbols[j] ≠ alphabet.symbols[i] := fun heq =>
      hj.ne ((List.Nodup.getElem_inj_iff alphabet.nodup).mp heq)
    simpa [← hsymbol] using hne

theorem symbol_ne_pad (h : i < 64) : alphabet.symbol i ≠ '=' := by
  have hmem : alphabet.symbol i ∈ alphabet.symbols :=
    mem_of_getElem? (alphabet.getElem?_symbols h)
  exact fun heq => alphabet.pad_notMem (heq ▸ hmem)

end Base64Alphabet

/-- The alphabet of RFC 4648, section 4. -/
def standardAlphabet : Base64Alphabet where
  symbols := "ABCDEFGHIJKLMNOPQRSTUVWXYZabcdefghijklmnopqrstuvwxyz0123456789+/".toList
  length_eq := by decide
  nodup := by decide
  pad_notMem := by decide

/-- The URL-safe alphabet of RFC 4648, section 5. -/
def urlSafeAlphabet : Base64Alphabet where
  symbols := "ABCDEFGHIJKLMNOPQRSTUVWXYZabcdefghijklmnopqrstuvwxyz0123456789-_".toList
  length_eq := by decide
  nodup := by decide
  pad_notMem := by decide

namespace Base64

variable (alphabet : Base64Alphabet) (pad : Bool)

/-! ### Writing -/

/-- The two symbols of a last single byte. -/
def writeOne (a : UInt8) : List Char :=
  [alphabet.symbol (a.toNat / 4), alphabet.symbol (a.toNat % 4 * 16)]

/-- The three symbols of a last pair of bytes. -/
def writeTwo (a b : UInt8) : List Char :=
  [alphabet.symbol (a.toNat / 4), alphabet.symbol (a.toNat % 4 * 16 + b.toNat / 16),
    alphabet.symbol (b.toNat % 16 * 4)]

/-- The four symbols of three bytes. -/
def writeThree (a b c : UInt8) : List Char :=
  [alphabet.symbol (a.toNat / 4), alphabet.symbol (a.toNat % 4 * 16 + b.toNat / 16),
    alphabet.symbol (b.toNat % 16 * 4 + c.toNat / 64), alphabet.symbol (c.toNat % 64)]

/-- The text of a byte string. -/
def encode : List UInt8 → List Char
  | [] => []
  | [a] => writeOne alphabet a ++ if pad then ['=', '='] else []
  | [a, b] => writeTwo alphabet a b ++ if pad then ['='] else []
  | a :: b :: c :: rest => writeThree alphabet a b c ++ encode rest

/-! ### Reading -/

/-- The byte of two last symbols; the four unused bits are zero. -/
def readOne (x y : Char) : Option (List UInt8) := do
  let i ← alphabet.value x
  let j ← alphabet.value y
  if j % 16 = 0 then some [ofNat (i * 4 + j / 16)] else none

/-- The bytes of three last symbols; the two unused bits are zero. -/
def readTwo (x y z : Char) : Option (List UInt8) := do
  let i ← alphabet.value x
  let j ← alphabet.value y
  let k ← alphabet.value z
  if k % 4 = 0 then
    some [ofNat (i * 4 + j / 16), ofNat (j % 16 * 16 + k / 4)]
  else none

/-- The bytes of four symbols. -/
def readThree (x y z w : Char) : Option (List UInt8) := do
  let i ← alphabet.value x
  let j ← alphabet.value y
  let k ← alphabet.value z
  let l ← alphabet.value w
  some [ofNat (i * 4 + j / 16), ofNat (j % 16 * 16 + k / 4), ofNat (k % 4 * 64 + l)]

/-- The bytes of a text. -/
def decode : List Char → Option (List UInt8)
  | [] => some []
  | [_] => none
  | [x, y] => if pad then none else readOne alphabet x y
  | [x, y, z] => if pad then none else readTwo alphabet x y z
  | [x, y, z, w] =>
    if pad && z = '=' && w = '=' then readOne alphabet x y
    else if pad && w = '=' then readTwo alphabet x y z
    else readThree alphabet x y z w
  | x :: y :: z :: w :: rest => do
      let bytes ← readThree alphabet x y z w
      let more ← decode rest
      some (bytes ++ more)

/-! ### Reading is the inverse of writing -/

section

variable {alphabet} {pad} {x y : Char} {bytes : List UInt8}

theorem readOne_eq_some :
    readOne alphabet x y = some bytes ↔ ∃ a, bytes = [a] ∧ [x, y] = writeOne alphabet a := by
  simp only [readOne, Option.bind_eq_bind, Option.bind_eq_some_iff, Base64Alphabet.value_eq_some,
    Option.ite_none_right_eq_some, Option.some.injEq]
  constructor
  · rintro ⟨i, ⟨hi, rfl⟩, j, ⟨hj, rfl⟩, hzero, rfl⟩
    refine ⟨_, rfl, ?_⟩
    simp only [writeOne, toNat_ofNat']
    rw [show (i * 4 + j / 16) % 2 ^ 8 / 4 = i by omega,
      show (i * 4 + j / 16) % 2 ^ 8 % 4 * 16 = j by omega]
  · rintro ⟨a, rfl, h⟩
    have ha := a.toNat_lt
    simp only [writeOne, cons.injEq, and_true] at h
    refine ⟨a.toNat / 4, ⟨by omega, h.1.symm⟩, a.toNat % 4 * 16, ⟨by omega, h.2.symm⟩, by omega, ?_⟩
    rw [show a.toNat / 4 * 4 + a.toNat % 4 * 16 / 16 = a.toNat by omega, ofNat_toNat]

theorem readTwo_eq_some {z : Char} :
    readTwo alphabet x y z = some bytes
      ↔ ∃ a b, bytes = [a, b] ∧ [x, y, z] = writeTwo alphabet a b := by
  simp only [readTwo, Option.bind_eq_bind, Option.bind_eq_some_iff, Base64Alphabet.value_eq_some,
    Option.ite_none_right_eq_some, Option.some.injEq]
  constructor
  · rintro ⟨i, ⟨hi, rfl⟩, j, ⟨hj, rfl⟩, k, ⟨hk, rfl⟩, hzero, rfl⟩
    refine ⟨_, _, rfl, ?_⟩
    simp only [writeTwo, toNat_ofNat']
    rw [show (i * 4 + j / 16) % 2 ^ 8 / 4 = i by omega,
      show (i * 4 + j / 16) % 2 ^ 8 % 4 * 16 + (j % 16 * 16 + k / 4) % 2 ^ 8 / 16 = j by omega,
      show (j % 16 * 16 + k / 4) % 2 ^ 8 % 16 * 4 = k by omega]
  · rintro ⟨a, b, rfl, h⟩
    have ha := a.toNat_lt
    have hb := b.toNat_lt
    simp only [writeTwo, cons.injEq, and_true] at h
    refine ⟨a.toNat / 4, ⟨by omega, h.1.symm⟩, a.toNat % 4 * 16 + b.toNat / 16,
      ⟨by omega, h.2.1.symm⟩, b.toNat % 16 * 4, ⟨by omega, h.2.2.symm⟩, by omega, ?_⟩
    rw [show a.toNat / 4 * 4 + (a.toNat % 4 * 16 + b.toNat / 16) / 16 = a.toNat by omega,
      show (a.toNat % 4 * 16 + b.toNat / 16) % 16 * 16 + b.toNat % 16 * 4 / 4 = b.toNat by omega,
      ofNat_toNat, ofNat_toNat]

theorem readThree_eq_some {z w : Char} :
    readThree alphabet x y z w = some bytes
      ↔ ∃ a b c, bytes = [a, b, c] ∧ [x, y, z, w] = writeThree alphabet a b c := by
  simp only [readThree, Option.bind_eq_bind, Option.bind_eq_some_iff,
    Base64Alphabet.value_eq_some, Option.some.injEq]
  constructor
  · rintro ⟨i, ⟨hi, rfl⟩, j, ⟨hj, rfl⟩, k, ⟨hk, rfl⟩, l, ⟨hl, rfl⟩, rfl⟩
    refine ⟨_, _, _, rfl, ?_⟩
    simp only [writeThree, toNat_ofNat']
    rw [show (i * 4 + j / 16) % 2 ^ 8 / 4 = i by omega,
      show (i * 4 + j / 16) % 2 ^ 8 % 4 * 16 + (j % 16 * 16 + k / 4) % 2 ^ 8 / 16 = j by omega,
      show (j % 16 * 16 + k / 4) % 2 ^ 8 % 16 * 4 + (k % 4 * 64 + l) % 2 ^ 8 / 64 = k by omega,
      show (k % 4 * 64 + l) % 2 ^ 8 % 64 = l by omega]
  · rintro ⟨a, b, c, rfl, h⟩
    have ha := a.toNat_lt
    have hb := b.toNat_lt
    have hc := c.toNat_lt
    simp only [writeThree, cons.injEq, and_true] at h
    refine ⟨a.toNat / 4, ⟨by omega, h.1.symm⟩, a.toNat % 4 * 16 + b.toNat / 16,
      ⟨by omega, h.2.1.symm⟩, b.toNat % 16 * 4 + c.toNat / 64, ⟨by omega, h.2.2.1.symm⟩,
      c.toNat % 64, ⟨by omega, h.2.2.2.symm⟩, ?_⟩
    rw [show a.toNat / 4 * 4 + (a.toNat % 4 * 16 + b.toNat / 16) / 16 = a.toNat by omega,
      show (a.toNat % 4 * 16 + b.toNat / 16) % 16 * 16
        + (b.toNat % 16 * 4 + c.toNat / 64) / 4 = b.toNat by omega,
      show (b.toNat % 16 * 4 + c.toNat / 64) % 4 * 64 + c.toNat % 64 = c.toNat by omega,
      ofNat_toNat, ofNat_toNat, ofNat_toNat]

theorem encode_eq_nil : encode alphabet pad bytes = [] ↔ bytes = [] := by
  rcases bytes with _ | ⟨a, _ | ⟨b, _ | ⟨c, rest⟩⟩⟩ <;>
    simp [encode, writeOne, writeTwo, writeThree]

/-- What is written is read back: one block of four symbols for three bytes. -/
theorem decode_encode (bytes : List UInt8) :
    decode alphabet pad (encode alphabet pad bytes) = some bytes := by
  induction bytes using encode.induct with
  | case1 => rfl
  | case2 a =>
    have hread : readOne alphabet _ _ = some [a] := readOne_eq_some.mpr ⟨a, rfl, rfl⟩
    cases pad <;> simpa [encode, writeOne, decode] using hread
  | case3 a b =>
    have hread : readTwo alphabet _ _ _ = some [a, b] := readTwo_eq_some.mpr ⟨a, b, rfl, rfl⟩
    have hlast : alphabet.symbol (b.toNat % 16 * 4) ≠ '=' :=
      alphabet.symbol_ne_pad (by omega)
    cases pad <;> simpa [encode, writeTwo, decode, hlast] using hread
  | case4 a b c rest ih =>
    have hread : readThree alphabet _ _ _ _ = some [a, b, c] :=
      readThree_eq_some.mpr ⟨a, b, c, rfl, rfl⟩
    have hlast : alphabet.symbol (c.toNat % 64) ≠ '=' := alphabet.symbol_ne_pad (by omega)
    cases htail : encode alphabet pad rest with
    | nil =>
      rw [encode_eq_nil] at htail
      subst htail
      simpa [encode, writeThree, decode, hlast] using hread
    | cons x tail =>
      rw [htail] at ih
      simp only [encode, writeThree, htail, cons_append, nil_append, decode, ih,
        hread, Option.bind_eq_bind, Option.bind_some]

/-- What is read is what would be written. The recursion is that of `decode`, on blocks
of four symbols. -/
theorem eq_encode_of_decode : ∀ {text : List Char} {bytes : List UInt8},
    decode alphabet pad text = some bytes → text = encode alphabet pad bytes
  | [], bytes, h => by
    obtain rfl : [] = bytes := by simpa [decode] using h
    rfl
  | [x], bytes, h => by simp [decode] at h
  | [x, y], bytes, h => by
    simp only [decode, Option.ite_none_left_eq_some] at h
    obtain ⟨a, rfl, heq⟩ := readOne_eq_some.mp h.2
    simp [encode, h.1, heq]
  | [x, y, z], bytes, h => by
    simp only [decode, Option.ite_none_left_eq_some] at h
    obtain ⟨a, b, rfl, heq⟩ := readTwo_eq_some.mp h.2
    simp [encode, h.1, heq]
  | [x, y, z, w], bytes, h => by
    simp only [decode, Bool.and_eq_true, decide_eq_true_eq] at h
    split_ifs at h with hone htwo
    · obtain ⟨a, rfl, heq⟩ := readOne_eq_some.mp h
      obtain ⟨⟨hpad, rfl⟩, rfl⟩ := hone
      simp [encode, hpad, ← heq]
    · obtain ⟨a, b, rfl, heq⟩ := readTwo_eq_some.mp h
      obtain ⟨hpad, rfl⟩ := htwo
      simp [encode, hpad, ← heq]
    · obtain ⟨a, b, c, rfl, heq⟩ := readThree_eq_some.mp h
      simp [encode, ← heq]
  | x :: y :: z :: w :: v :: rest, bytes, h => by
    simp only [decode, Option.bind_eq_bind, Option.bind_eq_some_iff, Option.some.injEq] at h
    obtain ⟨head, hhead, more, hmore, rfl⟩ := h
    obtain ⟨a, b, c, rfl, heq⟩ := readThree_eq_some.mp hhead
    simp only [cons_append, nil_append, encode, ← heq, ← eq_encode_of_decode hmore]

/-- **A text is read as some bytes exactly when it is what these bytes are written as.** -/
theorem decode_eq_some {text : List Char} :
    decode alphabet pad text = some bytes ↔ text = encode alphabet pad bytes :=
  ⟨eq_encode_of_decode, fun h => h ▸ decode_encode bytes⟩

/-- Base64 is a code. -/
def codec (alphabet : Base64Alphabet) (pad : Bool) : Codec (List UInt8) (List Char) where
  encode := encode alphabet pad
  decode := decode alphabet pad
  decode_eq_some := decode_eq_some

/-- Two byte strings are written differently. -/
theorem encode_injective : Function.Injective (encode alphabet pad) :=
  (codec alphabet pad).encode_injective

end

end Base64

end AuxStorage
