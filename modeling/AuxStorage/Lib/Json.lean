import Mathlib

/-!
# JSON Values and Their Texts

JSON values as trees, and what a streaming JSON library does with the text of an object: it
hands out the fields one after the other and then reports how the text ended. A reader may
look at the fields and never ask for the end, so a text that breaks off in the middle and one
with other text behind it are told apart.

The text itself stays abstract. A `JsonFormat` is any way to write objects as bytes that its
own reader reads back, with the empty object written as two braces and readable between
spaces, tabs and line breaks.

## Main results

* `Json.toNat_injective`: values are told apart by a number.
* `JsonFormat.deserializeMap_eq_ok`, `JsonFormat.fromSlice_eq_ok`: when a visitor succeeds on a
  text, with and without regard to what follows the object.
* `JsonFormat.counting`: **formats exist**.
-/

/-- A JSON value, with the fields of an object in the order of its text. -/
inductive Json where
  | null
  | bool (value : Bool)
  /-- An integer that fits an unsigned 64-bit word. -/
  | unsigned (value : ℕ)
  /-- Any other number. -/
  | number
  | string (value : List Char)
  /-- A string with an escape that names no character. A reader can pass over it, and cannot
  decode it. -/
  | malformed
  | array (values : List Json)
  | object (fields : List (List Char × Json))
  deriving Repr, Inhabited

namespace Json

open Nat (pair pair_eq_pair)

/-- How the text of an object ends. -/
inductive Ending where
  /-- With the object. -/
  | complete
  /-- With other text behind the object. -/
  | trailing
  /-- Before the object does, or it is no object at all. -/
  | broken
  deriving DecidableEq, Repr

/-- What a streaming reader finds in a text. -/
structure Scan where
  /-- The fields up to the end of the object, or up to the break. -/
  fields : List (List Char × Json)
  ending : Ending

/-- The whitespace of ASCII. It is the whitespace of JSON and the form feed. -/
def isAsciiWhitespace (byte : UInt8) : Bool :=
  byte == 0x20 || byte == 0x09 || byte == 0x0a || byte == 0x0c || byte == 0x0d

/-- The end of the reading of two braces between ASCII whitespace: a form feed is not read. -/
def bracesEnding (before after : List UInt8) : Ending :=
  if 0x0c ∈ before then .broken else if 0x0c ∈ after then .trailing else .complete

/-! ### Numbering the values -/

/-- A number for a string. -/
def stringToNat (s : List Char) : ℕ :=
  Encodable.encode (s.map Char.toNat)

mutual

/-- A number for a value: the constructor paired with the numbers of its parts. -/
def toNat : Json → ℕ
  | null => pair 0 0
  | bool value => pair 1 value.toNat
  | unsigned value => pair 2 value
  | number => pair 3 0
  | string value => pair 4 (stringToNat value)
  | malformed => pair 5 0
  | array values => pair 6 (listToNat values)
  | object fields => pair 7 (fieldsToNat fields)

/-- A number for a list of values. -/
def listToNat : List Json → ℕ
  | [] => 0
  | value :: rest => pair value.toNat (listToNat rest) + 1

/-- A number for a list of fields. -/
def fieldsToNat : List (List Char × Json) → ℕ
  | [] => 0
  | (name, value) :: rest =>
    pair (pair (stringToNat name) value.toNat) (fieldsToNat rest) + 1

end

/-- A text is determined by its number. -/
theorem stringToNat_injective : Function.Injective stringToNat := by
  intro s t h
  have hmap : s.map Char.toNat = t.map Char.toNat := Encodable.encode_injective h
  exact List.map_injective_iff.mpr (fun _ _ => Char.toNat_inj.mp) hmap

mutual

/-- A value is determined by its number. -/
theorem eq_of_toNat_eq : ∀ {a b : Json}, a.toNat = b.toNat → a = b
  | a, b, h => by
    cases a with
    | array values =>
      cases b <;> simp only [toNat, pair_eq_pair] at h <;> try omega
      rw [eq_of_listToNat_eq h.2]
    | object fields =>
      cases b <;> simp only [toNat, pair_eq_pair] at h <;> try omega
      rw [eq_of_fieldsToNat_eq h.2]
    | string s =>
      cases b <;> simp only [toNat, pair_eq_pair] at h <;> try omega
      rw [stringToNat_injective h.2]
    | bool x =>
      cases b <;> simp only [toNat, pair_eq_pair] at h <;> try omega
      rename_i y
      cases x <;> cases y <;> simp_all
    | null | unsigned | number | malformed =>
      cases b <;> simp_all [toNat]

/-- The elements of an array are determined by their number. -/
theorem eq_of_listToNat_eq : ∀ {a b : List Json}, listToNat a = listToNat b → a = b
  | [], [], _ => rfl
  | [], _ :: _, h | _ :: _, [], h => by simp [listToNat] at h
  | v :: vs, w :: ws, h => by
    simp only [listToNat, Nat.add_right_cancel_iff, pair_eq_pair] at h
    rw [eq_of_toNat_eq h.1, eq_of_listToNat_eq h.2]

/-- The fields of an object are determined by their number. -/
theorem eq_of_fieldsToNat_eq :
    ∀ {a b : List (List Char × Json)}, fieldsToNat a = fieldsToNat b → a = b
  | [], [], _ => rfl
  | [], _ :: _, h | _ :: _, [], h => by simp [fieldsToNat] at h
  | (k, v) :: vs, (l, w) :: ws, h => by
    simp only [fieldsToNat, Nat.add_right_cancel_iff, pair_eq_pair] at h
    rw [stringToNat_injective h.1.1, eq_of_toNat_eq h.1.2, eq_of_fieldsToNat_eq h.2]

end

end Json

/-- A **JSON format**: how objects are written as bytes, and a reader that reads back what was
written. -/
structure JsonFormat where
  scan : List UInt8 → Json.Scan
  write : List (List Char × Json) → List UInt8
  /-- What is written is read back, to its end. -/
  scan_write : ∀ fields, scan (write fields) = ⟨fields, .complete⟩
  /-- The empty object is written as two braces. -/
  write_nil : write [] = [0x7b, 0x7d]
  /-- Two braces between ASCII whitespace have no fields. -/
  scan_braces : ∀ before after : List UInt8, (∀ byte ∈ before ++ after,
    Json.isAsciiWhitespace byte) → scan (before ++ 0x7b :: 0x7d :: after)
      = ⟨[], Json.bracesEnding before after⟩

namespace JsonFormat

/-! ### Running a visitor over an object -/

section Visit

variable {ε α : Type} (json : JsonFormat) (visit : List (List Char × Json) → Except ε α)
  (broken : ε)

/-- A visitor run over the fields of an object, which must be whole. What follows the object
is not looked at. -/
def deserializeMap (bytes : List UInt8) : Except ε α := do
  let result ← visit (json.scan bytes).fields
  if (json.scan bytes).ending = .broken then .error broken else pure result

/-- A visitor run over the fields of an object, which must be all there is. -/
def fromSlice (bytes : List UInt8) : Except ε α := do
  let result ← json.deserializeMap visit broken bytes
  if (json.scan bytes).ending = .trailing then .error broken else pure result

variable {json visit broken} {bytes : List UInt8} {result : α}

/-- A reader of a map has to see no broken end. -/
theorem deserializeMap_eq_ok :
    json.deserializeMap visit broken bytes = .ok result ↔
      visit (json.scan bytes).fields = .ok result ∧ (json.scan bytes).ending ≠ .broken := by
  unfold deserializeMap
  cases visit (json.scan bytes).fields with
  | error e => simp [bind, Except.bind]
  | ok a => by_cases h : (json.scan bytes).ending = .broken <;> simp [bind, Except.bind, pure, h,
      Except.pure]

/-- A reader of a slice has to see its complete end. -/
theorem fromSlice_eq_ok :
    json.fromSlice visit broken bytes = .ok result ↔
      visit (json.scan bytes).fields = .ok result ∧ (json.scan bytes).ending = .complete := by
  unfold fromSlice
  have hmap := @deserializeMap_eq_ok _ _ json visit broken bytes
  cases hrun : json.deserializeMap visit broken bytes with
  | error e =>
    rw [hrun] at hmap
    simp only [bind, Except.bind, reduceCtorEq, false_iff, not_and]
    intro hvisit hcomplete
    have h := hmap.mpr ⟨hvisit, by rw [hcomplete]; decide⟩
    exact absurd h (by simp)
  | ok a =>
    obtain ⟨hvisit, hwhole⟩ := hmap.mp hrun
    rw [hvisit]
    cases hend : (json.scan bytes).ending <;>
      simp_all [bind, Except.bind, pure, Except.pure]

/-- What is written is read as its fields. -/
theorem fromSlice_write (fields : List (List Char × Json)) :
    json.fromSlice visit broken (json.write fields) = .ok result ↔ visit fields = .ok result := by
  rw [fromSlice_eq_ok, json.scan_write]
  simp

end Visit

/-! ### A format -/

/-- The bytes of an object in the counting format: two braces for the empty object, and
otherwise three zeros and as many more as the number of the object. -/
def countingWrite : List (List Char × Json) → List UInt8
  | [] => [0x7b, 0x7d]
  | field :: rest => List.replicate (Json.fieldsToNat (field :: rest) + 3) 0

/-- Fields are determined by how they are counted. -/
theorem countingWrite_injective : Function.Injective countingWrite := by
  intro a b h
  have hlen := congrArg List.length h
  cases a with
  | nil => cases b with
      | nil => rfl
      | cons field rest => simp [countingWrite] at hlen
  | cons field rest => cases b with
      | nil => simp [countingWrite] at hlen
      | cons field' rest' =>
        simp only [countingWrite, List.length_replicate, Nat.add_right_cancel_iff] at hlen
        exact Json.eq_of_fieldsToNat_eq hlen

/-- Fields that are there are written with a zero. -/
theorem zero_mem_countingWrite {fields : List (List Char × Json)} (h : fields ≠ []) :
    0 ∈ countingWrite fields := by
  cases fields with
  | nil => exact absurd rfl h
  | cons field rest => simp [countingWrite]

/-- What is written with two braces is the empty object. -/
theorem countingWrite_eq_braces {fields : List (List Char × Json)} {before after : List UInt8}
    (hspace : ∀ byte ∈ before ++ after, Json.isAsciiWhitespace byte)
    (h : countingWrite fields = before ++ 0x7b :: 0x7d :: after) : before = [] ∧ after = [] := by
  by_cases hnil : fields = []
  · subst hnil
    have hlen := congrArg List.length h
    simp only [countingWrite, List.length_append, List.length_cons, List.length_nil] at hlen
    exact ⟨List.eq_nil_of_length_eq_zero (by omega), List.eq_nil_of_length_eq_zero (by omega)⟩
  · have hzero := zero_mem_countingWrite hnil
    rw [h, List.mem_append, List.mem_cons, List.mem_cons] at hzero
    have hnot : ¬Json.isAsciiWhitespace 0 := by decide
    rcases hzero with hmem | hmem | hmem | hmem
    · exact absurd (hspace 0 (List.mem_append_left _ hmem)) hnot
    · exact absurd hmem (by decide)
    · exact absurd hmem (by decide)
    · exact absurd (hspace 0 (List.mem_append_right _ hmem)) hnot

open Classical in
/-- The reader of the counting format. -/
noncomputable def countingScan (bytes : List UInt8) : Json.Scan :=
  if h : ∃ fields, countingWrite fields = bytes then ⟨h.choose, .complete⟩
  else ⟨[], Json.bracesEnding (bytes.takeWhile Json.isAsciiWhitespace) bytes⟩

/-- What is counted is read back. -/
theorem countingScan_countingWrite (fields : List (List Char × Json)) :
    countingScan (countingWrite fields) = ⟨fields, .complete⟩ := by
  have h : ∃ fields', countingWrite fields' = countingWrite fields := ⟨fields, rfl⟩
  rw [countingScan, dif_pos h, countingWrite_injective h.choose_spec]

/-- Braces with blanks around them are the object without fields. -/
theorem countingScan_braces {before after : List UInt8}
    (hspace : ∀ byte ∈ before ++ after, Json.isAsciiWhitespace byte) :
    countingScan (before ++ 0x7b :: 0x7d :: after) = ⟨[], Json.bracesEnding before after⟩ := by
  by_cases h : ∃ fields, countingWrite fields = before ++ 0x7b :: 0x7d :: after
  · obtain ⟨fields, hwrite⟩ := h
    obtain ⟨rfl, rfl⟩ := countingWrite_eq_braces hspace hwrite
    exact countingScan_countingWrite []
  · have htake : (before ++ 0x7b :: 0x7d :: after).takeWhile Json.isAsciiWhitespace = before := by
      rw [List.takeWhile_append_of_pos fun byte hmem => hspace byte (List.mem_append_left _ hmem),
        List.takeWhile_cons_of_neg (by decide), List.append_nil]
    rw [countingScan, dif_neg h, htake, Json.bracesEnding, Json.bracesEnding]
    by_cases hbefore : (0x0c : UInt8) ∈ before
    · simp [hbefore]
    · simp [hbefore]

/-- A format that writes an object in unary. -/
noncomputable def counting : JsonFormat where
  scan := countingScan
  write := countingWrite
  scan_write := countingScan_countingWrite
  write_nil := rfl
  scan_braces _ _ := countingScan_braces

end JsonFormat
