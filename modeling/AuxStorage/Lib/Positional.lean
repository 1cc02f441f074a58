import Mathlib

/-!
# Positional Numerals and Lexicographic Order

A digit string written most significant digit first is read as a number by `value b`.
On strings of one length the lexicographic comparison of the digits is the comparison
of the numbers, so every order question about fixed-width keys becomes arithmetic.

## Main results

* `value_append`, `value_cons`, `value_replicate_zero`: how `value` computes.
* `value_lt_pow`: a string of `n` digits denotes a number below `b ^ n`.
* `compareLex_eq_compare_value`: **lexicographic order is numeric order** on strings of
  equal length.
* `compareLex_map`, `compareLex_map_swap`, `compareLex_flatMap`: how the lexicographic
  comparison follows a digit-wise recoding.
* `compareLex_append`: a fixed-width prefix decides first.
* `prefix_iff_bounds`: the lists that begin with a list are a range.
-/

namespace Positional

open List
open List (compareLex compareLex_cons_cons)

/-- The number denoted by a digit string in base `b`, most significant digit first. -/
def value (b : ℕ) (digits : List ℕ) : ℕ :=
  Nat.ofDigits b digits.reverse

@[simp] theorem value_nil (b : ℕ) : value b [] = 0 := rfl

/-- Appending a string shifts the digits before it. -/
theorem value_append (b : ℕ) (l₁ l₂ : List ℕ) :
    value b (l₁ ++ l₂) = value b l₁ * b ^ l₂.length + value b l₂ := by
  rw [value, reverse_append, Nat.ofDigits_append, length_reverse]
  simp only [value]
  ring

@[simp] theorem value_singleton (b d : ℕ) : value b [d] = d := by
  simp [value]

/-- The leading digit carries the weight of every digit after it. -/
theorem value_cons (b d : ℕ) (l : List ℕ) : value b (d :: l) = d * b ^ l.length + value b l := by
  rw [← singleton_append, value_append, value_singleton]

@[simp] theorem value_replicate_zero (b n : ℕ) : value b (List.replicate n 0) = 0 := by
  induction n with
  | zero => rfl
  | succ n ih => rw [replicate_succ, value_cons, ih]; simp

/-- A string of `n` digits denotes a number below `b ^ n`. -/
theorem value_lt_pow {b : ℕ} (hb : 1 < b) {l : List ℕ} (hl : ∀ d ∈ l, d < b) :
    value b l < b ^ l.length := by
  have h := Nat.ofDigits_lt_base_pow_length (l := l.reverse) hb
    (fun d hd => hl d (mem_reverse.mp hd))
  rwa [length_reverse] at h

/-- Pairs that are in the same order compare alike. -/
theorem compare_eq_compare {α β : Type*} [LinearOrder α] [LinearOrder β] {a b : α} {c d : β}
    (h : a < b ↔ c < d) (h' : b < a ↔ d < c) : compare a b = compare c d := by
  cases hcompare : compare c d with
  | lt => exact compare_lt_iff_lt.mpr (h.mpr (compare_lt_iff_lt.mp hcompare))
  | gt => exact compare_gt_iff_gt.mpr (h'.mpr (compare_gt_iff_gt.mp hcompare))
  | eq =>
    obtain rfl := compare_eq_iff_eq.mp hcompare
    simp only [lt_irrefl, iff_false, not_lt] at h h'
    exact compare_eq_iff_eq.mpr (le_antisymm h' h)

/-- The comparison of `a * m + r` numbers with remainders below `m` is lexicographic. -/
theorem compare_mul_add {m a₁ a₂ r₁ r₂ : ℕ} (h₁ : r₁ < m) (h₂ : r₂ < m) :
    compare (a₁ * m + r₁) (a₂ * m + r₂) = (compare a₁ a₂).then (compare r₁ r₂) := by
  rcases lt_trichotomy a₁ a₂ with h | rfl | h
  · have hm : (a₁ + 1) * m ≤ a₂ * m := Nat.mul_le_mul_right m h
    have hlt : a₁ * m + r₁ < a₂ * m + r₂ := by
      rw [Nat.add_mul] at hm
      omega
    rw [Nat.compare_eq_lt.mpr h, Nat.compare_eq_lt.mpr hlt]
    rfl
  · rw [Nat.compare_eq_eq.mpr rfl]
    exact compare_eq_compare (Nat.add_lt_add_iff_left ..) (Nat.add_lt_add_iff_left ..)
  · have hm : (a₂ + 1) * m ≤ a₁ * m := Nat.mul_le_mul_right m h
    have hlt : a₂ * m + r₂ < a₁ * m + r₁ := by
      rw [Nat.add_mul] at hm
      omega
    rw [Nat.compare_eq_gt.mpr h, Nat.compare_eq_gt.mpr hlt]
    rfl

/-- Numbers compare by quotient, then by remainder. -/
theorem compare_div_mod {m : ℕ} (hm : 0 < m) (x y : ℕ) :
    compare x y = (compare (x / m) (y / m)).then (compare (x % m) (y % m)) := by
  rw [← compare_mul_add (Nat.mod_lt x hm) (Nat.mod_lt y hm), Nat.div_add_mod', Nat.div_add_mod']

/-- Induction over two lists of one length. -/
@[elab_as_elim]
theorem length_eq_induction {α β : Type*} {motive : List α → List β → Prop} (nil : motive [] [])
    (cons : ∀ a b l r, l.length = r.length → motive l r → motive (a :: l) (b :: r)) :
    ∀ {l : List α} {r : List β}, l.length = r.length → motive l r
  | [], [], _ => nil
  | a :: l, b :: r, h =>
    cons a b l r (Nat.succ.inj h) (length_eq_induction nil cons (Nat.succ.inj h))

/-- **Lexicographic order is numeric order** on digit strings of equal length. -/
theorem compareLex_eq_compare_value {b : ℕ} (hb : 1 < b) {l₁ l₂ : List ℕ}
    (hlen : l₁.length = l₂.length) (h₁ : ∀ d ∈ l₁, d < b) (h₂ : ∀ d ∈ l₂, d < b) :
    compareLex compare l₁ l₂ = compare (value b l₁) (value b l₂) := by
  revert h₁ h₂
  refine length_eq_induction (fun _ _ => rfl) (fun d₁ d₂ l₁ l₂ hlen ih h₁ h₂ => ?_) hlen
  obtain ⟨-, h₁⟩ := forall_mem_cons.mp h₁
  obtain ⟨-, h₂⟩ := forall_mem_cons.mp h₂
  have hv₁ := value_lt_pow hb h₁
  have hv₂ := value_lt_pow hb h₂
  rw [← hlen] at hv₂
  rw [compareLex_cons_cons, ih h₁ h₂, value_cons, value_cons, ← hlen, compare_mul_add hv₁ hv₂]

/-! ### Lexicographic comparison under digit-wise operations -/

variable {α β : Type*} {cmp : α → α → Ordering} {cmp' : β → β → Ordering} {l₁ l₂ : List α}

/-- A change of alphabet that preserves the comparison of the digits at hand preserves
the lexicographic comparison. -/
theorem compareLex_map {f : α → β} (hf : ∀ a ∈ l₁, ∀ a' ∈ l₂, cmp' (f a) (f a') = cmp a a') :
    compareLex cmp' (l₁.map f) (l₂.map f) = compareLex cmp l₁ l₂ := by
  induction l₁ generalizing l₂ with
  | nil => cases l₂ <;> rfl
  | cons a l₁ ih =>
    cases l₂ with
    | nil => rfl
    | cons a' l₂ =>
      have htail := ih fun x hx x' hx' =>
        hf x (mem_cons_of_mem _ hx) x' (mem_cons_of_mem _ hx')
      have hhead := hf a mem_cons_self a' mem_cons_self
      simp only [map_cons, compareLex_cons_cons, htail, hhead]

theorem compareLex_append {p₁ p₂ : List α} (hlen : p₁.length = p₂.length) (l₁ l₂ : List α) :
    compareLex cmp (p₁ ++ l₁) (p₂ ++ l₂)
      = (compareLex cmp p₁ p₂).then (compareLex cmp l₁ l₂) := by
  refine length_eq_induction rfl (fun a a' p₁ p₂ _ ih => ?_) hlen
  simp only [cons_append, compareLex_cons_cons, ih]
  cases cmp a a' <;> rfl

theorem compareLex_map_swap {f : α → β} (hf : ∀ a a', cmp' (f a) (f a') = (cmp a a').swap)
    (hlen : l₁.length = l₂.length) :
    compareLex cmp' (l₁.map f) (l₂.map f) = (compareLex cmp l₁ l₂).swap := by
  refine length_eq_induction rfl (fun a a' l₁ l₂ _ ih => ?_) hlen
  simp only [map_cons, compareLex_cons_cons, ih, hf]
  cases cmp a a' <;> rfl

/-- Replacing every digit by a block preserves the comparison when the blocks decide it as the
digits do. -/
theorem compareLex_flatMap {f : α → List β} (hne : ∀ a, f a ≠ [])
    (hf : ∀ a a' x y, compareLex cmp' (f a ++ x) (f a' ++ y)
      = (cmp a a').then (compareLex cmp' x y)) (l₁ l₂ : List α) :
    compareLex cmp' (l₁.flatMap f) (l₂.flatMap f) = compareLex cmp l₁ l₂ := by
  induction l₁ generalizing l₂ with
  | nil =>
    cases l₂ with
    | nil => rfl
    | cons a' l₂ =>
      obtain ⟨b, block, hblock⟩ := exists_cons_of_ne_nil (hne a')
      rw [flatMap_cons, hblock]
      rfl
  | cons a l₁ ih =>
    cases l₂ with
    | nil =>
      obtain ⟨b, block, hblock⟩ := exists_cons_of_ne_nil (hne a)
      rw [flatMap_cons, hblock]
      rfl
    | cons a' l₂ => rw [flatMap_cons, flatMap_cons, hf, ih, compareLex_cons_cons]

/-! ### Ranges of prefixes -/

/-- The least list behind all lists that begin with one, which is given from its last element on:
the last element with a next one is replaced by it, and what follows is dropped. -/
def prefixBound (next : α → Option α) : List α → Option (List α)
  | [] => none
  | a :: before =>
    match next a with
    | some b => some (before.reverse ++ [b])
    | none => prefixBound next before

variable {next : α → Option α}

theorem prefixBound_concat (a : α) (l : List α) :
    prefixBound next (l ++ [a])
      = ((prefixBound next l).map (a :: ·)).or ((next a).map ([·])) := by
  induction l with
  | nil => cases h : next a <;> simp [prefixBound, h]
  | cons c l ih => cases h : next c <;> simp [prefixBound, h, ih]

/-- **The lists that begin with a list are a range.** -/
theorem prefix_iff_bounds [Ord α] [Std.OrientedOrd α] [Std.LawfulEqOrd α]
    (hnext : ∀ a b, compare b a ≠ .gt ↔ ∀ c ∈ next a, compare b c = .lt) (p s : List α) :
    (compareLex compare p s).isLE = true ∧
        (∀ u ∈ prefixBound next p.reverse, compareLex compare s u = .lt) ↔ p <+: s := by
  induction p generalizing s with
  | nil => cases s <;> simp [prefixBound, List.compareLex]
  | cons a p ih =>
    cases s with
    | nil => simp [List.compareLex]
    | cons b s =>
      rw [reverse_cons, prefixBound_concat, compareLex_cons_cons, cons_prefix_cons, ← ih]
      have hend (c : α) : compareLex compare (b :: s) [c] = .lt ↔ compare b c = .lt := by
        rw [compareLex_cons_cons, Ordering.then_eq_lt]
        cases s <;> simp [List.compareLex]
      have hlast := hnext a b
      have hswap := Std.OrientedOrd.eq_swap (a := b) (b := a)
      cases hcompare : compare a b with
      | eq =>
        cases Std.LawfulEqOrd.eq_of_compare hcompare
        cases prefixBound next p.reverse <;> cases hstep : next a <;>
          simp_all [compareLex_cons_cons]
      | lt =>
        -- The first element is behind the one of the prefix, and so behind the bound.
        have hne : a ≠ b := fun heq => by simp [heq] at hcompare
        cases prefixBound next p.reverse <;> cases hstep : next a <;>
          simp_all [compareLex_cons_cons]
      | gt =>
        have hne : a ≠ b := fun heq => by simp [heq] at hcompare
        simp [hne]

end Positional
