import AuxStorage.Lib.Positional

/-!
# Numerals as Text

Unsigned numbers written down with a fixed number of digits and read back. Writing pads
with zeros; reading accepts a plus sign, leading zeros and hexadecimal digits of both cases,
so a number has many spellings but only one that is written.

## Main results

* `parseUnsigned_format`: what is written is read back.
* `compareLex_format`: **the order of the texts is the order of the numbers.**
-/

namespace Numeral

open Positional

/-- The lower-case digit of a number below sixteen. -/
def digitChar (d : ℕ) : Char :=
  if d < 10 then Char.ofNat ('0'.toNat + d) else Char.ofNat ('a'.toNat + (d - 10))

/-- The number of a digit or letter. -/
def charDigit (c : Char) : Option ℕ :=
  if '0' ≤ c ∧ c ≤ '9' then some (c.toNat - '0'.toNat)
  else if 'a' ≤ c ∧ c ≤ 'z' then some (c.toNat - 'a'.toNat + 10)
  else if 'A' ≤ c ∧ c ≤ 'Z' then some (c.toNat - 'A'.toNat + 10)
  else none

/-- The value of a digit in a radix. -/
def toDigit (radix : ℕ) (c : Char) : Option ℕ :=
  (charDigit c).filter (· < radix)

/-- Reads an unsigned number below a bound: digits behind an optional plus sign. -/
def parseUnsigned (radix bound : ℕ) (t : List Char) : Option ℕ :=
  let digits := if t.head? = some '+' then t.tail else t
  if digits = [] then none
  else ((digits.mapM (toDigit radix)).map (value radix)).filter (· < bound)

/-- The digits of a number, of which there are `width`. -/
def fixedDigits (radix : ℕ) : ℕ → ℕ → List ℕ
  | 0, _ => []
  | width + 1, n => fixedDigits radix width (n / radix) ++ [n % radix]

/-- Writes a number with `width` digits. -/
def format (radix width n : ℕ) : List Char :=
  (fixedDigits radix width n).map digitChar

theorem charDigit_digitChar : ∀ d < 16, charDigit (digitChar d) = some d := by
  decide

theorem compare_digitChar :
    ∀ a < 16, ∀ b < 16, compare (digitChar a) (digitChar b) = compare a b := by
  decide

@[simp] theorem length_fixedDigits (radix width n : ℕ) :
    (fixedDigits radix width n).length = width := by
  induction width generalizing n with
  | zero => rfl
  | succ width ih => simp [fixedDigits, ih]

section Digits

variable {radix : ℕ} (hradix : 1 < radix)

include hradix

theorem fixedDigits_lt {width n d : ℕ} (hd : d ∈ fixedDigits radix width n) : d < radix := by
  induction width generalizing n with
  | zero => cases hd
  | succ width ih =>
    rcases List.mem_append.mp hd with hd | hd
    · exact ih hd
    · rw [List.mem_singleton.mp hd]
      exact Nat.mod_lt _ (by omega)

theorem value_fixedDigits {width n : ℕ} (hn : n < radix ^ width) :
    value radix (fixedDigits radix width n) = n := by
  induction width generalizing n with
  | zero =>
    rw [pow_zero, Nat.lt_one_iff] at hn
    rw [hn]
    rfl
  | succ width ih =>
    have hdiv : n / radix < radix ^ width := by
      rw [Nat.div_lt_iff_lt_mul (by omega)]
      rwa [pow_succ] at hn
    rw [fixedDigits, value_append, ih hdiv]
    simpa using Nat.div_add_mod' n radix

end Digits

section Format

variable {radix width : ℕ} (hradix : 1 < radix) (hsmall : radix ≤ 16)

@[simp] theorem length_format (n : ℕ) : (format radix width n).length = width := by
  simp [format]

include hradix hsmall

theorem mapM_toDigit_format (n : ℕ) :
    (format radix width n).mapM (toDigit radix) = some (fixedDigits radix width n) := by
  have hdigits : ∀ digits : List ℕ, (∀ d ∈ digits, d < radix) →
      (digits.map digitChar).mapM (toDigit radix) = some digits := by
    intro digits hlt
    induction digits with
    | nil => rfl
    | cons d digits ih =>
      rw [List.forall_mem_cons] at hlt
      have hd : toDigit radix (digitChar d) = some d := by
        rw [toDigit, charDigit_digitChar d (by omega)]
        simpa using hlt.1
      rw [List.map_cons, List.mapM_cons, hd, ih hlt.2]
      rfl
  exact hdigits _ fun d hd => fixedDigits_lt hradix hd

/-- A digit is neither a sign nor a space nor a control character. -/
theorem toNat_of_mem_format {n : ℕ} {c : Char} (hc : c ∈ format radix width n) :
    48 ≤ c.toNat ∧ c.toNat < 103 := by
  obtain ⟨d, hd, rfl⟩ := List.mem_map.mp hc
  have hrange : ∀ d < 16, 48 ≤ (digitChar d).toNat ∧ (digitChar d).toNat < 103 := by decide
  exact hrange d ((fixedDigits_lt hradix hd).trans_le hsmall)

/-- **What is written is read back.** -/
theorem parseUnsigned_format {n bound : ℕ} (hwidth : 0 < width) (hn : n < radix ^ width)
    (hbound : n < bound) : parseUnsigned radix bound (format radix width n) = some n := by
  have hne : format radix width n ≠ [] := List.ne_nil_of_length_pos (by simpa using hwidth)
  have hplus : (format radix width n).head? ≠ some '+' := by
    intro hhead
    have hrange := toNat_of_mem_format hradix hsmall (List.mem_of_mem_head? hhead)
    exact absurd hrange.1 (by decide)
  rw [parseUnsigned, if_neg hplus]
  simp only [hne, if_false, mapM_toDigit_format hradix hsmall, Option.map_some,
    value_fixedDigits hradix hn]
  simpa using hbound

/-- **The order of the texts is the order of the numbers.** -/
theorem compareLex_format {m n : ℕ} (hm : m < radix ^ width) (hn : n < radix ^ width) :
    List.compareLex compare (format radix width m) (format radix width n) = compare m n := by
  have hchars : ∀ a ∈ fixedDigits radix width m, ∀ b ∈ fixedDigits radix width n,
      compare (digitChar a) (digitChar b) = compare a b := by
    intro a ha b hb
    have hlta := fixedDigits_lt hradix ha
    have hltb := fixedDigits_lt hradix hb
    exact compare_digitChar a (by omega) b (by omega)
  rw [format, format, compareLex_map hchars, compareLex_eq_compare_value hradix (by simp)
    (fun d hd => fixedDigits_lt hradix hd) (fun d hd => fixedDigits_lt hradix hd),
    value_fixedDigits hradix hm, value_fixedDigits hradix hn]

end Format

end Numeral
