import AuxStorage.Lib.Positional

/-!
# Self-Delimiting Byte Strings

Two ways to put a byte string in front of other bytes so that its end can be found again.
A **frame** writes the length first, as two big-endian bytes. A **terminated** string
announces each byte with a one and ends with a zero. Both are read back from the front of
their continuation. They differ in the order they induce: terminated strings compare as the
strings themselves, frames compare by length first.

## Main results

* `unframe_frame_append`, `unterminate_terminated_append`: **what is written is read back**,
  with the continuation.
* `compareLex_frame_append`: frames are ordered by length, then by content.
* `compareLex_terminated_append`: **terminated strings keep their order**.
* `frame_prefix_iff`, `announced_prefix_iff`: what it means that a written string begins
  another one.
-/

namespace Framing

open List
open UInt8 (ofNat size)

/-- Bytes compare as the numbers they hold. -/
theorem compare_uint8 (a b : UInt8) : compare a b = compare a.toNat b.toNat := by
  simp only [compare, compareOfLessAndEq, UInt8.lt_iff_toNat_lt, ← UInt8.toNat_inj]

/-! ### Two-byte lengths -/

/-- The two big-endian bytes of a number. -/
def be16 (n : ℕ) : List UInt8 :=
  [ofNat (n / 256), ofNat (n % 256)]

@[simp] theorem length_be16 (n : ℕ) : (be16 n).length = 2 := rfl

theorem toNat_be16 {n : ℕ} (h : n < 65536) :
    (ofNat (n / 256)).toNat = n / 256 ∧ (ofNat (n % 256)).toNat = n % 256 := by
  constructor
  · exact UInt8.toNat_ofNat_of_lt' (by simp only [size]; omega)
  · exact UInt8.toNat_ofNat_of_lt' (by simp only [size]; omega)

/-- Two-byte numbers compare as numbers. -/
theorem compareLex_be16 {m n : ℕ} (hm : m < 65536) (hn : n < 65536) :
    List.compareLex compare (be16 m) (be16 n) = compare m n := by
  obtain ⟨hm₁, hm₂⟩ := toNat_be16 hm
  obtain ⟨hn₁, hn₂⟩ := toNat_be16 hn
  rw [be16, be16, List.compareLex_cons_cons, List.compareLex_cons_cons, compare_uint8,
    compare_uint8, hm₁, hm₂, hn₁, hn₂, Positional.compare_div_mod (by norm_num : 0 < 256) m n]
  cases compare (m / 256) (n / 256) <;> cases compare (m % 256) (n % 256) <;> rfl

/-! ### Frames -/

/-- A byte string behind its length. -/
def frame (data : List UInt8) : List UInt8 :=
  be16 data.length ++ data

/-- Reads a frame off the front. -/
def unframe : List UInt8 → Option (List UInt8 × List UInt8)
  | high :: low :: rest =>
    let length := high.toNat * 256 + low.toNat
    if length ≤ rest.length then some (rest.take length, rest.drop length) else none
  | _ => none

@[simp] theorem length_frame (data : List UInt8) : (frame data).length = 2 + data.length := by
  simp [frame]

theorem frame_ne_nil (data : List UInt8) : frame data ≠ [] := by
  simp [frame, be16]

/-- **A frame is read back** from the front of its continuation. -/
theorem unframe_frame_append {data : List UInt8} (h : data.length < 65536)
    (rest : List UInt8) : unframe (frame data ++ rest) = some (data, rest) := by
  obtain ⟨h₁, h₂⟩ := toNat_be16 h
  have hlength : data.length / 256 * 256 + data.length % 256 = data.length := by omega
  simp only [frame, be16, cons_append, nil_append, unframe, h₁, h₂, hlength, length_append]
  rw [if_pos (by omega), take_left, drop_left]

/-- Frames at the front of equal strings are equal. -/
theorem frame_append_inj {l r : List UInt8} (hl : l.length < 65536) (hr : r.length < 65536)
    {x y : List UInt8} : frame l ++ x = frame r ++ y ↔ l = r ∧ x = y := by
  refine ⟨fun h => ?_, fun ⟨hlr, hxy⟩ => by rw [hlr, hxy]⟩
  have hread := unframe_frame_append hl x
  rw [h, unframe_frame_append hr y, Option.some.injEq, Prod.mk.injEq] at hread
  exact ⟨hread.1.symm, hread.2.symm⟩

/-- **Frames are ordered by length**, then by content, then by what follows. -/
theorem compareLex_frame_append {l r : List UInt8} (hl : l.length < 65536)
    (hr : r.length < 65536) (x y : List UInt8) :
    List.compareLex compare (frame l ++ x) (frame r ++ y)
      = (compare l.length r.length).then
          ((List.compareLex compare l r).then (List.compareLex compare x y)) := by
  rw [frame, frame, append_assoc, append_assoc,
    Positional.compareLex_append (by simp), compareLex_be16 hl hr]
  by_cases h : l.length = r.length
  · rw [Positional.compareLex_append h]
  · rcases Nat.lt_or_gt_of_ne h with hlt | hgt
    · rw [Nat.compare_eq_lt.mpr hlt]
      rfl
    · rw [Nat.compare_eq_gt.mpr hgt]
      rfl

/-- A frame and what follows begin another frame and what follows exactly when the contents
are equal and the continuation begins the continuation. -/
theorem frame_prefix_iff {l r : List UInt8} (hl : l.length < 65536) (hr : r.length < 65536)
    {x y : List UInt8} : frame l ++ x <+: frame r ++ y ↔ l = r ∧ x <+: y := by
  constructor
  · rintro ⟨z, h⟩
    rw [append_assoc] at h
    obtain ⟨hlr, hxy⟩ := (frame_append_inj hl hr).mp h
    exact ⟨hlr, z, hxy⟩
  · rintro ⟨rfl, h⟩
    exact (prefix_append_right_inj _).mpr h

/-! ### Terminated strings -/

/-- Each byte, announced by a one. -/
def announced (data : List UInt8) : List UInt8 :=
  data.flatMap fun byte => [1, byte]

/-- Each byte, announced by a one, and a final zero. -/
def terminated (data : List UInt8) : List UInt8 :=
  announced data ++ [0]

/-- Reads a terminated string off the front. -/
def unterminate : List UInt8 → Option (List UInt8 × List UInt8)
  | [] => none
  | [mark] => if mark = 0 then some ([], []) else none
  | mark :: byte :: rest =>
    if mark = 0 then some ([], byte :: rest)
    else if mark = 1 then
      (unterminate rest).map fun (data, rest) => (byte :: data, rest)
    else none

@[simp] theorem announced_nil : announced [] = [] := rfl

@[simp] theorem announced_cons (byte : UInt8) (data : List UInt8) :
    announced (byte :: data) = 1 :: byte :: announced data := rfl

/-- **A terminated string is read back** from the front of its continuation. -/
theorem unterminate_terminated_append (data rest : List UInt8) :
    unterminate (terminated data ++ rest) = some (data, rest) := by
  rw [terminated, append_assoc]
  induction data with
  | nil => cases rest <;> rfl
  | cons byte data ih =>
    rw [announced_cons, cons_append, cons_append, unterminate, if_neg (by decide),
      if_pos rfl, ih]
    rfl

/-- **Terminated strings keep their order**: a string that ends early comes first, since the
terminator is smaller than every announcement. -/
theorem compareLex_terminated_append (l r x y : List UInt8) :
    List.compareLex compare (terminated l ++ x) (terminated r ++ y)
      = (List.compareLex compare l r).then (List.compareLex compare x y) := by
  have hmark : compare (1 : UInt8) 1 = .eq := by decide
  have hstop : compare (0 : UInt8) 0 = .eq := by decide
  have hless : compare (0 : UInt8) 1 = .lt := by decide
  have hmore : compare (1 : UInt8) 0 = .gt := by decide
  simp only [terminated, append_assoc, singleton_append]
  induction l generalizing r with
  | nil =>
    cases r with
    | nil =>
      rw [announced_nil, nil_append, nil_append, List.compareLex_cons_cons, hstop]
      rfl
    | cons b r =>
      rw [announced_nil, announced_cons, nil_append, cons_append, List.compareLex_cons_cons, hless]
      rfl
  | cons a l ih =>
    cases r with
    | nil =>
      rw [announced_nil, announced_cons, nil_append, cons_append, List.compareLex_cons_cons, hmore]
      rfl
    | cons b r =>
      simp only [announced_cons, cons_append, List.compareLex_cons_cons, hmark, ih]
      cases compare a b <;> rfl

/-- Announced bytes begin a terminated string exactly when the bytes begin its content. -/
theorem announced_prefix_iff {l r y : List UInt8} :
    announced l <+: terminated r ++ y ↔ l <+: r := by
  rw [terminated, append_assoc, singleton_append]
  induction l generalizing r with
  | nil => simp
  | cons a l ih =>
    cases r with
    | nil => simp [cons_prefix_cons]
    | cons b r => simp [cons_prefix_cons, ih]

end Framing
