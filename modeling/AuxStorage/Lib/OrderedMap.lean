import Mathlib

/-!
# Insertion-Ordered Maps

A finite map kept as the list of its entries in insertion order, with distinct keys. The
structure carries the distinctness of its keys, so that every operation is determined by
its effect on lookups.

## Main results

* `get_insert`, `get_remove`: the effect of an update on every lookup.
* `get_eq_some_iff`: a lookup finds exactly the entries.
-/

/-- A finite map kept as its entries in insertion order. -/
structure OrderedMap (K V : Type) where
  /-- The entries, oldest first. -/
  entries : List (K × V)
  /-- No key occurs twice. -/
  nodup : (entries.map Prod.fst).Nodup

namespace OrderedMap

open List

variable {K V : Type} [DecidableEq K]

omit [DecidableEq K] in
theorem ext_entries {m n : OrderedMap K V} (h : m.entries = n.entries) : m = n := by
  cases m
  cases n
  cases h
  rfl

/-- The map without entries. -/
def empty : OrderedMap K V where
  entries := []
  nodup := nodup_nil

/-- The value under a key. -/
def get (m : OrderedMap K V) (key : K) : Option V :=
  (m.entries.find? fun entry => entry.1 = key).map Prod.snd

/-- The number of entries. -/
def len (m : OrderedMap K V) : ℕ :=
  m.entries.length

/-- Replaces the value of a present key in place; a new key goes to the end. -/
def insertEntries (key : K) (value : V) : List (K × V) → List (K × V)
  | [] => [(key, value)]
  | entry :: rest =>
    if entry.1 = key then (key, value) :: rest else entry :: insertEntries key value rest

variable (key : K)

/-- The keys after an insertion: the old ones, and the new one at the end if absent. -/
theorem map_fst_insertEntries (value : V) (entries : List (K × V)) :
    (insertEntries key value entries).map Prod.fst
      = if key ∈ entries.map Prod.fst then entries.map Prod.fst
        else entries.map Prod.fst ++ [key] := by
  induction entries with
  | nil => rfl
  | cons entry rest ih =>
    rw [insertEntries]
    by_cases h : entry.1 = key
    · simp [h]
    · have h' : ¬key = entry.1 := fun heq => h heq.symm
      rw [if_neg h, map_cons, ih]
      by_cases hmem : key ∈ rest.map Prod.fst
      · rw [if_pos hmem, if_pos (by simp [hmem])]
        rfl
      · rw [if_neg hmem, if_neg (by
          rw [map_cons, mem_cons, not_or]
          exact ⟨h', hmem⟩)]
        rfl

/-- The map with a value under a key. -/
def insert (m : OrderedMap K V) (key : K) (value : V) : OrderedMap K V where
  entries := insertEntries key value m.entries
  nodup := by
    rw [map_fst_insertEntries]
    split
    · exact m.nodup
    · rename_i h
      exact nodup_append.mpr ⟨m.nodup, by simp, by
        intro a ha b hb
        obtain rfl := mem_singleton.mp hb
        exact fun heq => h (heq ▸ ha)⟩

variable {entries : List (K × V)} {key : K}

/-- A new key goes to the end. -/
theorem insertEntries_of_notMem (value : V)
    (h : key ∉ entries.map Prod.fst) : insertEntries key value entries = entries ++ [(key, value)] := by
  induction entries with
  | nil => rfl
  | cons entry rest ih =>
    simp only [map_cons, mem_cons, not_or] at h
    rw [insertEntries, if_neg fun heq => h.1 heq.symm, ih h.2, cons_append]

/-- The map without a key. -/
def remove (m : OrderedMap K V) (key : K) : OrderedMap K V where
  entries := m.entries.eraseP fun entry => entry.1 = key
  nodup := (eraseP_sublist.map Prod.fst).nodup m.nodup

@[simp] theorem get_empty : (empty : OrderedMap K V).get key = none := rfl

variable (m : OrderedMap K V)

/-- A lookup finds exactly the entries of the map. -/
theorem get_eq_some_iff {value : V} : m.get key = some value ↔ (key, value) ∈ m.entries := by
  obtain ⟨entries, hnodup⟩ := m
  induction entries with
  | nil => simp [get]
  | cons entry rest ih =>
    rw [map_cons, nodup_cons] at hnodup
    have hrest := ih hnodup.2
    simp only [get] at hrest ⊢
    by_cases h : entry.1 = key
    · have hnot : (key, value) ∉ rest := fun hmem =>
        hnodup.1 (h ▸ mem_map_of_mem hmem)
      rw [find?_cons_of_pos (by simpa using h), Option.map_some, Option.some.injEq,
        mem_cons]
      constructor
      · rintro rfl
        exact Or.inl (by rw [← h])
      · rintro (heq | hmem)
        · rw [← heq]
        · exact absurd hmem hnot
    · rw [find?_cons_of_neg (by simpa using h), hrest, mem_cons]
      constructor
      · exact Or.inr
      · rintro (heq | hmem)
        · exact absurd (by rw [← heq]) h
        · exact hmem

/-- A lookup fails exactly for the keys without entry. -/
theorem get_eq_none_iff : m.get key = none ↔ key ∉ m.entries.map Prod.fst := by
  rw [get, Option.map_eq_none_iff, find?_eq_none]
  simp only [decide_eq_true_eq, mem_map, not_exists, not_and]

/-- The value under a key in a list of entries: the first one counts. -/
def lookup (entries : List (K × V)) (key : K) : Option V :=
  (entries.find? fun entry => entry.1 = key).map Prod.snd

theorem get_eq_lookup (key : K) : m.get key = lookup m.entries key := rfl

@[simp] theorem lookup_nil : lookup ([] : List (K × V)) key = none := rfl

theorem lookup_cons (entry : K × V) (rest : List (K × V)) (key : K) :
    lookup (entry :: rest) key = if entry.1 = key then some entry.2 else lookup rest key := by
  rw [lookup]
  split
  · rename_i h
    rw [find?_cons_of_pos (by simpa using h)]
    rfl
  · rename_i h
    rw [find?_cons_of_neg (by simpa using h)]
    rfl

variable (entries)

/-- Replacing or adding an entry changes the lookup of its own key only. -/
theorem lookup_insertEntries (key key' : K) (value : V) :
    lookup (insertEntries key value entries) key'
      = if key' = key then some value else lookup entries key' := by
  induction entries with
  | nil => simp [insertEntries, lookup_cons, eq_comm]
  | cons entry rest ih =>
    rw [insertEntries]
    by_cases h : entry.1 = key
    · rw [if_pos h, lookup_cons, lookup_cons, h]
      by_cases h' : key' = key
      · rw [if_pos h'.symm, if_pos h']
      · have hne : ¬key = key' := fun heq => h' heq.symm
        rw [if_neg hne, if_neg h', if_neg hne]
    · rw [if_neg h, lookup_cons, lookup_cons, ih]
      by_cases h' : entry.1 = key'
      · have hne : ¬key' = key := fun heq => h (h'.trans heq)
        rw [if_pos h', if_neg hne, if_pos h']
      · rw [if_neg h', if_neg h']

/-- The entries without those of a key. -/
def removeEntries (key : K) (entries : List (K × V)) : List (K × V) :=
  entries.filter fun entry => entry.1 ≠ key

theorem lookup_removeEntries (key key' : K) :
    lookup (removeEntries key entries) key' = if key' = key then none else lookup entries key' := by
  induction entries with
  | nil => simp [removeEntries]
  | cons entry rest ih =>
    rw [removeEntries] at ih ⊢
    by_cases h : entry.1 = key
    · rw [filter_cons_of_neg (by simpa using h), ih, lookup_cons, h]
      by_cases h' : key' = key
      · rw [if_pos h', if_pos h']
      · have hne : ¬key = key' := fun heq => h' heq.symm
        rw [if_neg h', if_neg h', if_neg hne]
    · rw [filter_cons_of_pos (by simpa using h), lookup_cons, lookup_cons, ih]
      by_cases h' : entry.1 = key'
      · have hne : ¬key' = key := fun heq => h (h'.trans heq)
        rw [if_pos h', if_neg hne, if_pos h']
      · rw [if_neg h', if_neg h']

/-- **Insertion** changes the lookup of its own key only. -/
theorem get_insert (key key' : K) (value : V) :
    (m.insert key value).get key' = if key' = key then some value else m.get key' :=
  lookup_insertEntries m.entries key key' value

/-- **Removal** changes the lookup of its own key only. -/
theorem get_remove (key key' : K) :
    (m.remove key).get key' = if key' = key then none else m.get key' := by
  obtain ⟨entries, hnodup⟩ := m
  simp only [get, remove]
  induction entries with
  | nil => simp
  | cons entry rest ih =>
    rw [map_cons, nodup_cons] at hnodup
    by_cases h : entry.1 = key
    · rw [eraseP_cons_of_pos (by simpa using h)]
      by_cases h' : key' = key
      · rw [if_pos h', Option.map_eq_none_iff, find?_eq_none]
        rintro entry' hmem heq
        have hkey : entry'.1 = entry.1 := by
          rw [of_decide_eq_true heq, h', h]
        exact hnodup.1 (hkey ▸ mem_map_of_mem hmem)
      · rw [if_neg h', find?_cons_of_neg]
        simpa [h] using fun heq : key = key' => h' heq.symm
    · rw [eraseP_cons_of_neg (by simpa using h)]
      by_cases h' : entry.1 = key'
      · have hne : ¬key' = key := fun heq => h (h'.trans heq)
        rw [find?_cons_of_pos (by simpa using h'), if_neg hne,
          find?_cons_of_pos (by simpa using h')]
      · rw [find?_cons_of_neg (by simpa using h'), ih hnodup.2,
          find?_cons_of_neg (by simpa using h')]

/-! ### Several entries -/

theorem lookup_append (entries entries' : List (K × V)) (key : K) :
    lookup (entries ++ entries') key = (lookup entries key).or (lookup entries' key) := by
  induction entries with
  | nil => simp
  | cons entry rest ih =>
    rw [cons_append, lookup_cons, lookup_cons, ih]
    split <;> rfl

variable {entries}

theorem lookup_eq_none_iff : lookup entries key = none ↔ key ∉ entries.map Prod.fst := by
  rw [lookup, Option.map_eq_none_iff, find?_eq_none]
  simp only [decide_eq_true_eq, mem_map, not_exists, not_and]

/-- A lookup finds an entry of the list. -/
theorem mem_of_lookup_eq_some {value : V} (h : lookup entries key = some value) :
    (key, value) ∈ entries := by
  rw [lookup, Option.map_eq_some_iff] at h
  obtain ⟨entry, hfind, rfl⟩ := h
  have hkey : entry.1 = key := by simpa using find?_some hfind
  rw [← hkey]
  exact mem_of_find?_eq_some hfind

/-- The last entry of a key exists when the first one does. -/
theorem lookup_reverse_eq_none_iff :
    lookup entries.reverse key = none ↔ lookup entries key = none := by
  rw [lookup_eq_none_iff, lookup_eq_none_iff, map_reverse, mem_reverse]

/-- The entries of a list, inserted one after the other. -/
def insertAll (m : OrderedMap K V) (entries : List (K × V)) : OrderedMap K V :=
  entries.foldl (fun m entry => m.insert entry.1 entry.2) m

/-- **The last entry of a key counts.** -/
theorem get_insertAll (entries : List (K × V)) (key : K) :
    (m.insertAll entries).get key = (lookup entries.reverse key).or (m.get key) := by
  induction entries generalizing m with
  | nil => rfl
  | cons entry rest ih =>
    have hrest : m.insertAll (entry :: rest) = (m.insert entry.1 entry.2).insertAll rest := rfl
    rw [hrest, ih, get_insert, reverse_cons, lookup_append, Option.or_assoc]
    congr 1
    rw [lookup_cons, lookup_nil]
    by_cases h : entry.1 = key
    · rw [if_pos h, if_pos h.symm]
      rfl
    · rw [if_neg h, if_neg fun heq => h heq.symm]
      rfl

theorem insertAll_append (entries entries' : List (K × V)) :
    m.insertAll (entries ++ entries') = (m.insertAll entries).insertAll entries' :=
  foldl_append

/-- Entries under new and different keys go to the end. -/
theorem entries_insertAll_of_nodup (h : ((m.entries ++ entries).map Prod.fst).Nodup) :
    (m.insertAll entries).entries = m.entries ++ entries := by
  induction entries generalizing m with
  | nil => simp [insertAll]
  | cons entry rest ih =>
    have hnot : entry.1 ∉ m.entries.map Prod.fst := by
      intro hmem
      rw [map_append, nodup_append] at h
      exact h.2.2 entry.1 hmem entry.1 (by simp) rfl
    have hinsert : (m.insert entry.1 entry.2).entries = m.entries ++ [entry] :=
      insertEntries_of_notMem entry.2 hnot
    have hrest : m.insertAll (entry :: rest) = (m.insert entry.1 entry.2).insertAll rest := rfl
    rw [hrest, ih _ (by rw [hinsert, append_assoc]; exact h), hinsert, append_assoc]
    rfl

theorem perm_of_get_eq {m n : OrderedMap K V} (h : ∀ key, m.get key = n.get key) :
    m.entries.Perm n.entries := by
  refine (perm_ext_iff_of_nodup m.nodup.of_map n.nodup.of_map).mpr ?_
  rintro ⟨key, value⟩
  rw [← m.get_eq_some_iff, ← n.get_eq_some_iff, h]

theorem lookup_filter_notMem (entries : List (K × V)) (keys : List K) (key : K) :
    lookup (entries.filter fun entry => entry.1 ∉ keys) key
      = if key ∈ keys then none else lookup entries key := by
  induction entries with
  | nil => simp
  | cons entry rest ih =>
    by_cases hmem : entry.1 ∈ keys
    · rw [filter_cons_of_neg (by simpa using hmem), ih, lookup_cons]
      by_cases hkey : entry.1 = key
      · rw [if_pos (hkey ▸ hmem), if_pos (hkey ▸ hmem)]
      · rw [if_neg hkey]
    · rw [filter_cons_of_pos (by simpa using hmem), lookup_cons, lookup_cons, ih]
      by_cases hkey : entry.1 = key
      · rw [if_pos hkey, if_pos hkey, if_neg (hkey ▸ hmem)]
      · rw [if_neg hkey, if_neg hkey]

/-- The entries of a map, and behind them those of another map under other keys. -/
def overlay (m n : OrderedMap K V) : OrderedMap K V where
  entries := m.entries ++ n.entries.filter fun entry => entry.1 ∉ m.entries.map Prod.fst
  nodup := by
    rw [map_append, nodup_append]
    refine ⟨m.nodup, (filter_sublist.map Prod.fst).nodup n.nodup, ?_⟩
    rintro a ha _ hb rfl
    obtain ⟨entry, hentry, rfl⟩ := mem_map.mp hb
    simpa [ha] using of_mem_filter hentry

theorem get_overlay (m n : OrderedMap K V) (key : K) :
    (m.overlay n).get key = (m.get key).or (n.get key) := by
  rw [get_eq_lookup, overlay, lookup_append, lookup_filter_notMem, ← get_eq_lookup, ← get_eq_lookup]
  by_cases hmem : key ∈ m.entries.map Prod.fst
  · obtain ⟨value, hvalue⟩ := Option.ne_none_iff_exists'.mp fun h => m.get_eq_none_iff.mp h hmem
    rw [hvalue]
    rfl
  · rw [if_neg hmem, m.get_eq_none_iff.mpr hmem]

end OrderedMap
