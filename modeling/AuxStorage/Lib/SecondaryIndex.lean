import AuxStorage.Lib.OrderedMap

/-!
# Secondary Indexes

A map of records and a map that is kept beside it: every record has at most one **entry** in the
index, under a key that is computed from the record. Writing a record deletes the entry of the
record it replaces and puts its own.

## Main results

* `Indexes.replace`: an index stays exact when a record is written.
* `Indexes.erase`: an index stays exact when a record is deleted.
-/

namespace SecondaryIndex

open OrderedMap (get_insert get_remove)

variable {P K V R : Type} [DecidableEq P] [DecidableEq K]

/-- **The index is exact**: it holds the entries of the records, and no others. -/
def Indexes (entry : R → Option (K × V)) (primary : OrderedMap P R) (index : OrderedMap K V) :
    Prop :=
  ∀ key value, index.get key = some value ↔
    ∃ p r, primary.get p = some r ∧ entry r = some (key, value)

/-- The entry of a record is deleted, if it has one. -/
def unindex (entry : R → Option (K × V)) (r : R) (index : OrderedMap K V) : OrderedMap K V :=
  match entry r with
  | some (key, _) => index.remove key
  | none => index

/-- The entry of a record is put, if it has one. -/
def reindex (entry : R → Option (K × V)) (r : R) (index : OrderedMap K V) : OrderedMap K V :=
  match entry r with
  | some (key, value) => index.insert key value
  | none => index

section

variable {entry : R → Option (K × V)} {primary : OrderedMap P R} {index : OrderedMap K V}
  {locate : K → V → P} {p : P} {r : R}

theorem get_unindex (key : K) :
    (unindex entry r index).get key
      = if (entry r).map Prod.fst = some key then none else index.get key := by
  unfold unindex
  cases h : entry r with
  | none => simp
  | some pair =>
    rw [get_remove, Option.map_some]
    by_cases hkey : key = pair.1
    · rw [if_pos hkey, if_pos (congrArg some hkey.symm)]
    · rw [if_neg hkey, if_neg fun heq => hkey (Option.some.inj heq).symm]

theorem get_reindex (key : K) :
    (reindex entry r index).get key
      = if (entry r).map Prod.fst = some key then (entry r).map Prod.snd else index.get key := by
  unfold reindex
  cases h : entry r with
  | none => simp
  | some pair =>
    rw [get_insert, Option.map_some, Option.map_some]
    by_cases hkey : key = pair.1
    · rw [if_pos hkey, if_pos (congrArg some hkey.symm)]
    · rw [if_neg hkey, if_neg fun heq => hkey (Option.some.inj heq).symm]

/-- **An index stays exact when a record is deleted.** The place of a record can be told from its
entry. -/
theorem Indexes.erase (h : Indexes entry primary index)
    (hlocate : ∀ q s key value, primary.get q = some s → entry s = some (key, value) →
      q = locate key value) (hp : primary.get p = some r) :
    Indexes entry (primary.remove p) (unindex entry r index) := by
  intro key value
  rw [get_unindex]
  constructor
  · intro hget
    split_ifs at hget with hkey
    obtain ⟨q, s, hq, hs⟩ := (h key value).mp hget
    refine ⟨q, s, ?_, hs⟩
    rw [get_remove, if_neg]
    · exact hq
    · rintro rfl
      cases hp.symm.trans hq
      exact hkey (by rw [hs]; rfl)
  · rintro ⟨q, s, hq, hs⟩
    rw [get_remove] at hq
    split_ifs at hq with hqp
    rw [if_neg]
    · exact (h key value).mpr ⟨q, s, hq, hs⟩
    · -- Two records with entries under one key are at one place.
      intro hkey
      obtain ⟨pair, hr, rfl⟩ := Option.map_eq_some_iff.mp hkey
      have hr' := (h pair.1 pair.2).mpr ⟨p, r, hp, hr⟩
      have hs' := (h pair.1 value).mpr ⟨q, s, hq, hs⟩
      obtain rfl : value = pair.2 := Option.some.inj (hs'.symm.trans hr')
      exact hqp ((hlocate q s _ _ hq hs).trans (hlocate p r _ _ hp hr).symm)

/-- **An index stays exact when a new record is put**, under a key that no other record has. -/
theorem Indexes.put (h : Indexes entry primary index) (hp : primary.get p = none)
    (hfree : ∀ key value, entry r = some (key, value) → index.get key = none) :
    Indexes entry (primary.insert p r) (reindex entry r index) := by
  intro key value
  rw [get_reindex]
  constructor
  · intro hget
    split_ifs at hget with hkey
    · refine ⟨p, r, by rw [get_insert, if_pos rfl], ?_⟩
      obtain ⟨pair, hr, rfl⟩ := Option.map_eq_some_iff.mp hkey
      rw [hr, Option.map_some, Option.some.injEq] at hget
      rw [hr, ← hget]
    · obtain ⟨q, s, hq, hs⟩ := (h key value).mp hget
      refine ⟨q, s, ?_, hs⟩
      rw [get_insert, if_neg]
      · exact hq
      · rintro rfl
        rw [hp] at hq
        cases hq
  · rintro ⟨q, s, hq, hs⟩
    rw [get_insert] at hq
    split_ifs at hq with hqp
    · cases hq
      rw [hs, Option.map_some, Option.map_some, if_pos rfl]
    · have hget := (h key value).mpr ⟨q, s, hq, hs⟩
      rw [if_neg]
      · exact hget
      · intro hkey
        obtain ⟨pair, hr, rfl⟩ := Option.map_eq_some_iff.mp hkey
        rw [hfree pair.1 pair.2 hr] at hget
        cases hget

/-- **An index stays exact when a record is replaced.** -/
theorem Indexes.replace {old : R} (h : Indexes entry primary index)
    (hlocate : ∀ q s key value, primary.get q = some s → entry s = some (key, value) →
      q = locate key value) (hp : primary.get p = some old)
    (hfree : ∀ key value, entry r = some (key, value) →
      (entry old).map Prod.fst = some key ∨ index.get key = none) :
    Indexes entry (primary.insert p r) (reindex entry r (unindex entry old index)) := by
  have hput := (h.erase hlocate hp).put (p := p) (r := r)
    (by rw [get_remove, if_pos rfl]) (by
      intro key value hr
      rw [get_unindex]
      rcases hfree key value hr with hkey | hnone
      · rw [if_pos hkey]
      · rw [hnone, ite_self])
  intro key value
  rw [hput key value]
  -- Inserting over a record is inserting where it was removed.
  have hget (q : P) : ((primary.remove p).insert p r).get q = (primary.insert p r).get q := by
    rw [get_insert, get_insert, get_remove]
    split_ifs <;> rfl
  simp only [hget]

end

end SecondaryIndex
