import Mathlib

/-!
# String Slices

A string slice is a list of characters. This module defines the slice operations of a
standard string library: trimming Unicode white space, splitting at the first occurrence
of a character, stripping a known beginning or end, cutting at a byte offset, and the
comparison that ignores ASCII case, with one lemma for each of them on a slice in the
shape it is used for.

## Main results

* `trim_pad`: trimming a padded solid slice gives the slice back.
* `splitOnce_append`: a slice is cut at the first occurrence of the separator.
* `splitAtBytes_append`: a byte offset after an ASCII slice cuts right behind it.
-/

namespace Str

open List

/-! ### White space and trimming -/

/-- The Unicode property `White_Space`. -/
def isWhitespace (c : Char) : Bool :=
  let v := c.val.toNat
  (9 ≤ v && v ≤ 13) || v == 0x20 || v == 0x85 || v == 0xA0 || v == 0x1680 ||
    (0x2000 ≤ v && v ≤ 0x200A) || v == 0x2028 || v == 0x2029 || v == 0x202F ||
    v == 0x205F || v == 0x3000

/-- The slice without its leading and trailing white space. -/
def trim (t : List Char) : List Char :=
  (t.dropWhile isWhitespace).rdropWhile isWhitespace

/-- A slice made of white space. -/
def Blank (t : List Char) : Prop :=
  ∀ c ∈ t, isWhitespace c = true

/-- A nonempty slice that neither begins nor ends with white space. -/
structure Solid (t : List Char) : Prop where
  ne_nil : t ≠ []
  head : ∀ c ∈ t.head?, isWhitespace c = false
  last : ∀ c ∈ t.getLast?, isWhitespace c = false

theorem Blank.nil : Blank [] := by
  simp [Blank]

variable {s : List Char}

/-- Dropping leading white space drops a whole blank slice. -/
theorem dropWhile_blank (hs : Blank s) (t : List Char) :
    (s ++ t).dropWhile isWhitespace = t.dropWhile isWhitespace := by
  induction s with
  | nil => rfl
  | cons c s ih =>
    rw [cons_append, dropWhile_cons_of_pos (hs c (by simp))]
    exact ih fun x hx => hs x (mem_cons_of_mem c hx)

variable {t : List Char}

/-- Dropping leading white space stops at a slice that begins with none. -/
theorem dropWhile_of_head (h : ∀ c ∈ t.head?, isWhitespace c = false) :
    t.dropWhile isWhitespace = t := by
  cases t with
  | nil => rfl
  | cons c t => rw [dropWhile_cons_of_neg (by simp [h c rfl])]

/-- Dropping trailing white space drops a whole blank slice. -/
theorem rdropWhile_blank (hs : Blank s) (t : List Char) :
    (t ++ s).rdropWhile isWhitespace = t.rdropWhile isWhitespace := by
  rw [rdropWhile, reverse_append, dropWhile_blank, rdropWhile]
  exact fun c hc => hs c (mem_reverse.mp hc)

/-- Dropping trailing white space keeps a slice that ends with none. -/
theorem rdropWhile_of_last (h : ∀ c ∈ t.getLast?, isWhitespace c = false) :
    t.rdropWhile isWhitespace = t := by
  rw [rdropWhile, dropWhile_of_head, reverse_reverse]
  simpa [head?_reverse] using h

/-- **Trimming removes exactly the padding** of a solid slice. -/
theorem trim_pad {l r : List Char} (hl : Blank l) (ht : Solid t) (hr : Blank r) :
    trim (l ++ t ++ r) = t := by
  have hhead : ∀ c ∈ (t ++ r).head?, isWhitespace c = false := by
    intro c hc
    rw [head?_append_of_ne_nil _ ht.ne_nil] at hc
    exact ht.head c hc
  rw [trim, append_assoc, dropWhile_blank hl, dropWhile_of_head hhead,
    rdropWhile_blank hr, rdropWhile_of_last ht.last]

/-- A solid slice is its own trimmed form. -/
theorem trim_solid (ht : Solid t) : trim t = t := by
  simpa using trim_pad Blank.nil ht Blank.nil

/-- A slice without white space is solid. -/
theorem Solid.of_forall (hne : t ≠ []) (h : ∀ c ∈ t, isWhitespace c = false) : Solid t where
  ne_nil := hne
  head c hc := h c (mem_of_mem_head? hc)
  last c hc := h c (mem_of_mem_getLast? hc)

/-- Solid slices around anything make a solid slice. -/
theorem Solid.between (hs : Solid s) (m : List Char) (ht : Solid t) :
    Solid (s ++ m ++ t) where
  ne_nil := by simp [hs.ne_nil]
  head c hc := by
    rw [append_assoc, head?_append_of_ne_nil _ hs.ne_nil] at hc
    exact hs.head c hc
  last c hc := by
    rw [getLast?_append_of_ne_nil _ ht.ne_nil] at hc
    exact ht.last c hc

/-! ### Splitting and stripping -/

/-- The parts before and after the first occurrence of a separator. -/
def splitOnce (separator : Char) : List Char → Option (List Char × List Char)
  | [] => none
  | c :: t =>
    if c = separator then some ([], t)
    else (splitOnce separator t).map fun parts => (c :: parts.1, parts.2)

variable {separator : Char}

/-- A slice is cut at the first occurrence of the separator. -/
theorem splitOnce_append (h : separator ∉ s) (t : List Char) :
    splitOnce separator (s ++ separator :: t) = some (s, t) := by
  induction s with
  | nil => simp [splitOnce]
  | cons c s ih =>
    have hc : ¬c = separator := fun hc => h (by simp [hc])
    rw [cons_append, splitOnce, if_neg hc, ih fun hs => h (mem_cons_of_mem c hs)]
    rfl

/-- A slice without the separator is not cut. -/
theorem splitOnce_eq_none (h : separator ∉ t) : splitOnce separator t = none := by
  induction t with
  | nil => rfl
  | cons c t ih =>
    have hc : ¬c = separator := fun hc => h (by simp [hc])
    rw [splitOnce, if_neg hc, ih fun ht => h (mem_cons_of_mem c ht)]
    rfl

/-- A slice is its parts, with the separator between them. -/
theorem splitOnce_eq_some {before after : List Char}
    (h : splitOnce separator t = some (before, after)) : t = before ++ separator :: after := by
  induction t generalizing before with
  | nil => cases h
  | cons c t ih =>
    rw [splitOnce] at h
    split_ifs at h with hc
    · cases h
      rw [hc, nil_append]
    · obtain ⟨parts, hparts, heq⟩ := Option.map_eq_some_iff.mp h
      cases heq
      rw [ih hparts, cons_append]

/-- What follows a separator is shorter than the slice. -/
theorem length_splitOnce_lt {before after : List Char}
    (h : splitOnce separator t = some (before, after)) : after.length < t.length := by
  rw [splitOnce_eq_some h, length_append, length_cons]
  omega

/-- The rest of a slice behind a known beginning. -/
def stripPrefix (p t : List Char) : Option (List Char) :=
  if p.isPrefixOf t then some (t.drop p.length) else none

@[simp] theorem stripPrefix_append (p t : List Char) : stripPrefix p (p ++ t) = some t := by
  simp [stripPrefix]

/-- A slice whose beginning differs is not stripped. -/
theorem stripPrefix_eq_none {p : List Char} (h : ¬p <+: t) : stripPrefix p t = none := by
  rw [stripPrefix, if_neg]
  exact fun hprefix => h <| isPrefixOf_iff_prefix.mp hprefix

/-- The rest of a slice before a known end. -/
def stripSuffix (p t : List Char) : Option (List Char) :=
  if p.isSuffixOf t then some (t.take (t.length - p.length)) else none

@[simp] theorem stripSuffix_append (t p : List Char) : stripSuffix p (t ++ p) = some t := by
  simp [stripSuffix]

/-! ### ASCII case and byte offsets -/

def eqIgnoreAsciiCase (s t : List Char) : Bool :=
  s.map Char.toLower == t.map Char.toLower

/-- The slice cut at a byte offset, when the offset is a character boundary of it. -/
def splitAtBytes : ℕ → List Char → Option (List Char × List Char)
  | 0, t => some ([], t)
  | _ + 1, [] => none
  | n + 1, c :: t =>
    if c.utf8Size ≤ n + 1 then
      (splitAtBytes (n + 1 - c.utf8Size) t).map fun parts => (c :: parts.1, parts.2)
    else none

/-- A cut slice is put together again from its two parts. -/
theorem splitAtBytes_eq_append {n : ℕ} {a b : List Char} (h : splitAtBytes n t = some (a, b)) :
    t = a ++ b := by
  induction t generalizing n a b with
  | nil =>
    cases n with
    | zero =>
      cases h
      rfl
    | succ n => cases h
  | cons c t ih =>
    cases n with
    | zero =>
      cases h
      rfl
    | succ n =>
      rw [splitAtBytes] at h
      split at h
      · obtain ⟨⟨a', b'⟩, hcut, heq⟩ := Option.map_eq_some_iff.mp h
        cases heq
        rw [ih hcut]
        rfl
      · cases h

/-- A byte offset behind an ASCII slice cuts right behind it. -/
theorem splitAtBytes_append (hs : ∀ c ∈ s, c.utf8Size = 1) (t : List Char) :
    splitAtBytes s.length (s ++ t) = some (s, t) := by
  induction s with
  | nil => cases t <;> rfl
  | cons c s ih =>
    have hc : c.utf8Size = 1 := hs c (by simp)
    rw [length_cons, cons_append, splitAtBytes, if_pos (by omega), hc,
      Nat.add_sub_cancel, ih fun x hx => hs x (mem_cons_of_mem c hx)]
    rfl

end Str
