import AuxStorage.Lib.Framing
import AuxStorage.Text

/-!
# SQL Bounds of a Prefix

A key that begins with a prefix is found by two comparisons, with the prefix and with the least
key behind all keys that begin with it. Strings are compared by their UTF-8 bytes, which order
them as their characters do; the characters have a gap at the surrogates.
-/

namespace AuxStorage

open List

/-- The bytes of a character come before those of a later one. -/
theorem compareLex_utf8EncodeChar {c d : Char} (h : c < d) (x y : List UInt8) :
    List.compareLex compare (String.utf8EncodeChar c ++ x) (String.utf8EncodeChar d ++ y)
      = .lt := by
  have hlt : c.val.toNat < d.val.toNat := h
  have hmax : d.val.toNat < 0x110000 := by
    rcases d.valid with h | h <;> omega
  have hdiv (v : ℕ) : v / 64 / 64 = v / 4096 ∧ v / 4096 / 64 = v / 262144 := by
    simp [Nat.div_div_eq_div_mul]
  have hc := hdiv c.val.toNat
  have hd := hdiv d.val.toNat
  have hcompare {a b : ℕ} (ha : a < 256) (hb : b < 256) :
      compare (UInt8.ofNat a) (UInt8.ofNat b) = compare a b := by
    rw [Framing.compare_uint8, UInt8.toNat_ofNat_of_lt' ha, UInt8.toNat_ofNat_of_lt' hb]
  simp only [String.utf8EncodeChar]
  split_ifs <;>
    simp (disch := omega) only [cons_append, nil_append, List.compareLex_cons_cons, hcompare,
      Ordering.then_eq_lt, Nat.compare_eq_lt, Nat.compare_eq_eq, Nat.mod_eq_of_lt] <;>
    omega

/-- **The order of the bytes is that of the characters.** -/
theorem compareUtf8_eq (s t : Text) : compareUtf8 s t = List.compareLex compare s t := by
  refine Positional.compareLex_flatMap (fun _ => String.utf8EncodeChar_ne_nil) ?_ s t
  intro c d x y
  cases hcompare : compare c d with
  | lt => exact compareLex_utf8EncodeChar (compare_lt_iff_lt.mp hcompare) x y
  | eq =>
    obtain rfl := compare_eq_iff_eq.mp hcompare
    rw [Positional.compareLex_append rfl]
    exact congrArg (Ordering.then · _) (Std.LawfulEqCmp.compare_eq_iff_eq.mpr rfl)
  | gt =>
    have hlt := compareLex_utf8EncodeChar (compare_gt_iff_gt.mp hcompare) y x
    exact Std.OrientedCmp.eq_swap.trans (congrArg Ordering.swap hlt)

/-! ### The bounds -/

/-- The character after one, beyond the gap of the surrogates. -/
def nextChar (character : Char) : Option Char :=
  let next := character.toNat + 1
  let next := if next = 0xd800 then 0xe000 else next
  if h : next.isValidChar then some (Char.ofNatAux next h) else none

theorem nextChar_spec (a b : Char) :
    compare b a ≠ .gt ↔ ∀ c ∈ nextChar a, compare b c = .lt := by
  have hlt (c d : Char) : c < d ↔ c.toNat < d.toNat := Iff.rfl
  have ha : a.toNat.isValidChar := a.valid
  have hb : b.toNat.isValidChar := b.valid
  have hnext {n : ℕ} (h : n.isValidChar) : (Char.ofNatAux n h).toNat = n := rfl
  rw [ne_eq, compare_gt_iff_gt, hlt]
  simp only [compare_lt_iff_lt, nextChar, hlt]
  split_ifs with hgap hvalid hvalid <;>
    simp only [Option.mem_def, Option.some.injEq, forall_eq', reduceCtorEq, false_imp_iff,
      implies_true, iff_true, hnext, Nat.isValidChar] at * <;>
    omega

def stringPrefixUpperBound (start : Text) : Option Text :=
  Positional.prefixBound nextChar start.reverse

/-- The upper bound of a binary prefix: bytes `0xff` at its end are dropped. -/
def binaryPrefixUpperBound (bytes : List UInt8) : Option (List UInt8) :=
  let upper := bytes.rdropWhile (· == 0xff)
  upper.getLast?.map fun last => upper.dropLast ++ [last + 1]

/-- The byte after one. -/
def nextByte (byte : UInt8) : Option UInt8 :=
  if byte = 0xff then none else some (byte + 1)

theorem nextByte_spec (a b : UInt8) :
    compare b a ≠ .gt ↔ ∀ c ∈ nextByte a, compare b c = .lt := by
  have ha := a.toNat_lt
  have hb := b.toNat_lt
  rw [nextByte, Framing.compare_uint8, ne_eq, Nat.compare_eq_gt]
  split_ifs with hlast <;> rw [← UInt8.toNat_inj] at hlast
  · simp at hlast ⊢
    omega
  · simp [Framing.compare_uint8, Nat.compare_eq_lt, UInt8.toNat_add] at hlast ⊢
    omega

theorem binaryPrefixUpperBound_eq (bytes : List UInt8) :
    binaryPrefixUpperBound bytes = Positional.prefixBound nextByte bytes.reverse := by
  induction bytes using reverseRecOn with
  | nil => rfl
  | append_singleton bytes byte ih =>
    rw [reverse_concat, Positional.prefixBound, nextByte, binaryPrefixUpperBound]
    by_cases hlast : byte = 0xff
    · rw [if_pos hlast, ← ih, rdropWhile_concat_pos _ _ _ (by simpa using hlast)]
      rfl
    · rw [if_neg hlast, rdropWhile_concat_neg _ _ _ (by simpa using hlast)]
      simp

/-- **The bounds of a prefix are exact**: the keys between them are those that begin with it. -/
theorem beginsWith_bounds :
    (∀ start s : Text, (compareUtf8 start s).isLE = true ∧
      (∀ upper ∈ stringPrefixUpperBound start, compareUtf8 s upper = .lt) ↔ start <+: s) ∧
    ∀ start s : List UInt8, (List.compareLex compare start s).isLE = true ∧
      (∀ upper ∈ binaryPrefixUpperBound start, List.compareLex compare s upper = .lt)
        ↔ start <+: s := by
  constructor
  · intro start s
    simp only [compareUtf8_eq]
    exact Positional.prefix_iff_bounds nextChar_spec start s
  · intro start s
    rw [binaryPrefixUpperBound_eq]
    exact Positional.prefix_iff_bounds nextByte_spec start s

end AuxStorage
