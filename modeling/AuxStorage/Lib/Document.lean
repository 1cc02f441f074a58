import Mathlib

/-!
# Documents, and Edits that Commute

A document is a tree of maps, lists and leaves; a path leads through it by names and list
positions. An edit patches what a path leads to: it may fail, replace, add or delete. A
list grows when an element it does not have is set, and its elements move up when one is
deleted, so edits at different positions of one list may disturb each other.

`Apart` says when an edit leaves a path alone. Edits whose paths are apart commute, and a
list of pairwise compatible edits has the same result in every order.

## Main results

* `get_patch`: an edit does not change what is read at a path apart from it.
* `patch_comm`: edits at paths apart from each other commute.
* `runAll_perm`: compatible edits may be permuted.
-/

namespace Document

open List
open Option (bind_assoc bind_some map_eq_some_iff map_some mem_some)
open Function (update update_self update_of_ne)

/-- A step of a path. -/
inductive Segment (K : Type) where
  | name (key : K)
  | index (position : ℕ)
  deriving DecidableEq, Repr

/-- A path through a document. -/
abbrev Path (K : Type) : Type := List (Segment K)

/-- A document: a tree of maps and lists. -/
inductive Doc (K α : Type) where
  | leaf (value : α)
  | list (items : List (Doc K α))
  | map (fields : K → Option (Doc K α))

/-- What may happen to an optional document: failure (`none`), deletion (`some none`) or a
new content. -/
abbrev Patch (K α : Type) : Type := Option (Doc K α) → Option (Option (Doc K α))

variable {K α : Type}

/-- The child of a document. -/
def child : Segment K → Doc K α → Option (Doc K α)
  | .name key, .map fields => fields key
  | .index i, .list items => items[i]?
  | _, _ => none

/-- What a path leads to. -/
def get : Path K → Option (Doc K α) → Option (Doc K α)
  | [], o => o
  | s :: p, o => get p (o.bind (child s))

@[simp] theorem get_none (p : Path K) : get p (none : Option (Doc K α)) = none := by
  induction p with
  | nil => rfl
  | cons s p ih => exact ih

/-- A list with a new content at a position: beyond its end, an element is appended and a
deletion does nothing. -/
def replaceAt (i : ℕ) (content : Option (Doc K α)) (items : List (Doc K α)) :
    List (Doc K α) :=
  match content with
  | some x => if i < items.length then items.set i x else items ++ [x]
  | none => items.eraseIdx i

variable [DecidableEq K]

/-- Patches the child of a document. A document without such children may only be asked to
delete it. -/
def patchChild (s : Segment K) (h : Patch K α) (d : Doc K α) : Option (Doc K α) :=
  match s, d with
  | .name key, .map fields =>
    (h (fields key)).map fun content => .map (update fields key content)
  | .index i, .list items => (h items[i]?).map fun content => .list (replaceAt i content items)
  | _, d => if (h none).any Option.isNone then some d else none

/-- Patches what a path leads to; everything before the last step has to exist. -/
def patch : Path K → Patch K α → Patch K α
  | [], h => h
  | s :: p, h => fun o => o.bind fun d => (patchChild s (patch p h) d).map some

/-! ### Children -/

/-- The patch neither adds nor deletes. -/
def Keeps (h : Patch K α) (o : Option (Doc K α)) : Prop :=
  ∀ content, h o = some content → content.isSome = o.isSome

/-- The patch never deletes. -/
def Grows (h : Patch K α) : Prop :=
  ∀ o, h o ≠ some none

/-- A patch of the child `s` leaves the child `t` where it is: in a list, it keeps the
number of elements, it appends or deletes behind the element, or there is no such element and the
patch adds none. -/
def Settled (h : Patch K α) : Segment K → Segment K → Doc K α → Prop
  | .index i, .index j, .list items => Keeps h items[i]? ∨
      (Grows h ∨ j < i) ∧ j < items.length ∨ i < items.length ∧ items.length ≤ j
  | _, _, _ => True

section Lists

variable {items : List (Doc K α)} {i j : ℕ} {content content' : Option (Doc K α)}

/-- The new content at `i` leaves the element `j` of a list where it is. -/
def Stays (i j : ℕ) (content : Option (Doc K α)) (items : List (Doc K α)) : Prop :=
  (content.isSome ↔ i < items.length) ∨
    (content.isSome ∨ j < i) ∧ j < items.length ∨ i < items.length ∧ items.length ≤ j

omit [DecidableEq K] in
/-- A settled patch moves no other element. -/
theorem stays_of_settled {h : Patch K α} (hsettled : Settled h (.index i) (.index j) (.list items))
    (hc : h items[i]? = some content) : Stays i j content items := by
  rcases hsettled with hkeeps | ⟨hgrows | hlt, hj⟩ | hpresent
  · left
    rw [hkeeps content hc]
    simp
  · refine .inr (.inl ⟨.inl ?_, hj⟩)
    cases content with
    | none => exact absurd hc (hgrows _)
    | some x => rfl
  · exact .inr (.inl ⟨.inr hlt, hj⟩)
  · exact .inr (.inr hpresent)

omit [DecidableEq K] in
/-- A deletion that leaves `j` where it is: there is nothing to delete, or it is behind `j`, or
there is no `j`. -/
theorem stays_none : Stays i j none items ↔
    items.length ≤ i ∨ j < i ∧ j < items.length ∨ i < items.length ∧ items.length ≤ j := by
  simp [Stays]

omit [DecidableEq K] in
theorem getElem?_replaceAt_ne (hij : i ≠ j) (h : Stays i j content items) :
    (replaceAt i content items)[j]? = items[j]? := by
  cases content with
  | none =>
    rw [replaceAt]
    rcases stays_none.mp h with hi | ⟨hlt, -⟩ | ⟨hi, hj⟩
    · rw [eraseIdx_of_length_le hi]
    · exact getElem?_eraseIdx_of_lt hlt
    · rw [getElem?_eq_none hj, getElem?_eq_none]
      exact (length_eraseIdx_le items i).trans hj
  | some x =>
    rw [replaceAt]
    split
    · exact getElem?_set_ne hij
    · rename_i hi
      have hj : j < items.length := by
        simpa [Stays, hi] using h
      exact getElem?_append_left hj

omit [DecidableEq K] in
/-- A deletion and a new element may be done in either order. -/
theorem replaceAt_none_comm {x : Doc K α} (h : Stays i j none items)
    (h' : Stays j i (some x) items) :
    replaceAt j (some x) (replaceAt i none items)
      = replaceAt i none (replaceAt j (some x) items) := by
  rw [stays_none] at h
  simp only [Stays, Option.isSome_some, true_iff, true_or, true_and] at h'
  by_cases hi : i < items.length
  · by_cases hj : j < items.length
    · have hlt : j < i := by omega
      have hshort : j < (items.eraseIdx i).length := by
        rw [length_eraseIdx_of_lt hi]
        omega
      simp only [replaceAt, hj, hshort, if_true]
      exact (eraseIdx_set_gt hlt).symm
    · have hshort : ¬j < (items.eraseIdx i).length := by
        rw [length_eraseIdx_of_lt hi]
        omega
      simp only [replaceAt, hj, hshort, if_false]
      exact (eraseIdx_append_of_lt_length hi _).symm
  · have hj : j < items.length := by omega
    have hi : items.length ≤ i := not_lt.mp hi
    simp only [replaceAt, eraseIdx_of_length_le hi, hj, if_true]
    rw [eraseIdx_of_length_le (by simpa using hi)]

omit [DecidableEq K] in
/-- Contents at different positions may be replaced in either order. -/
theorem replaceAt_comm (hij : i ≠ j) (h : Stays i j content items) (h' : Stays j i content' items) :
    replaceAt j content' (replaceAt i content items)
      = replaceAt i content (replaceAt j content' items) := by
  cases content with
  | none =>
    cases content' with
    | none =>
      -- Two deletions of elements that are there would move each other.
      rw [stays_none] at h h'
      have hshort := fun k => length_eraseIdx_le items k
      rcases lt_or_ge i items.length with hi | hi
      · have hj : items.length ≤ j := by omega
        simp only [replaceAt, eraseIdx_of_length_le hj]
        rw [eraseIdx_of_length_le ((hshort i).trans hj)]
      · simp only [replaceAt, eraseIdx_of_length_le hi]
        rw [eraseIdx_of_length_le ((hshort j).trans hi)]
    | some y => exact replaceAt_none_comm h h'
  | some x =>
    cases content' with
    | none => exact (replaceAt_none_comm h' h).symm
    | some y =>
      simp only [Stays, Option.isSome_some, true_iff, true_or, true_and] at h h'
      simp only [replaceAt]
      by_cases hi : i < items.length
      · by_cases hj : j < items.length
        · simp only [hi, hj, if_true, length_set]
          exact set_comm x y hij
        · simp only [hi, hj, if_true, if_false, length_set, length_append, length_singleton]
          rw [if_pos (by omega), set_append_left _ _ hi]
      · have hj : j < items.length := by omega
        simp only [hi, hj, if_true, if_false, length_set, length_append, length_singleton]
        rw [if_pos (by omega), set_append_left _ _ hj]

end Lists

variable {h : Patch K α} {s t : Segment K} {d d' : Doc K α}

/-- **A settled patch leaves the other children alone.** -/
theorem child_patchChild_ne (hne : s ≠ t) (hsettled : Settled h s t d)
    (hp : patchChild s h d = some d') : child t d' = child t d := by
  have hsame : ∀ (b : Prop) [Decidable b], (if b then some d else none) = some d' → d' = d := by
    intro b _ hb
    split at hb
    · exact (Option.some.inj hb).symm
    · cases hb
  cases s with
  | name key =>
    cases d with
    | leaf value => rw [hsame _ hp]
    | list items => rw [hsame _ hp]
    | map fields =>
      obtain ⟨content, -, rfl⟩ := map_eq_some_iff.mp hp
      cases t with
      | name key' =>
        have hkey : key' ≠ key := fun heq => hne (by rw [heq])
        exact update_of_ne hkey _ _
      | index j => rfl
  | index i =>
    cases d with
    | leaf value => rw [hsame _ hp]
    | map fields => rw [hsame _ hp]
    | list items =>
      obtain ⟨content, hc, rfl⟩ := map_eq_some_iff.mp hp
      cases t with
      | name key => rfl
      | index j =>
        have hij : i ≠ j := fun heq => hne (by rw [heq])
        exact getElem?_replaceAt_ne hij (stays_of_settled hsettled hc)

omit [DecidableEq K] in
theorem Keeps.isSome {o content : Option (Doc K α)} (hk : Keeps h o) (ho : o.isSome)
    (hc : h o = some content) : content.isSome := by
  rw [hk content hc]
  exact ho

theorem child_patchChild_self (hsome : (child s d).isSome) (hkeeps : Keeps h (child s d))
    (hp : patchChild s h d = some d') : h (child s d) = some (child s d') := by
  cases s with
  | name key =>
    cases d with
    | leaf value => cases hsome
    | list items => cases hsome
    | map fields =>
      obtain ⟨content, hc, rfl⟩ := map_eq_some_iff.mp hp
      simp only [child] at hc ⊢
      rw [hc, update_self]
  | index i =>
    cases d with
    | leaf value => cases hsome
    | map fields => cases hsome
    | list items =>
      obtain ⟨content, hc, rfl⟩ := map_eq_some_iff.mp hp
      simp only [child] at hc hsome hkeeps ⊢
      obtain ⟨x, rfl⟩ := Option.isSome_iff_exists.mp (hkeeps.isSome hsome hc)
      have hi : i < items.length := by simpa using hsome
      rw [hc, replaceAt, if_pos hi, getElem?_set_self hi]

variable {h' : Patch K α}

/-- Only the present content of the child matters. -/
theorem patchChild_congr (heq : h (child s d) = h' (child s d)) :
    patchChild s h d = patchChild s h' d := by
  cases s <;> cases d <;> simp only [child] at heq <;> simp only [patchChild, heq]

/-- A patch that needs its document, and keeps it. -/
structure Inner (h : Patch K α) : Prop where
  none : h none = none
  some : ∀ d content, h (some d) = some content → content.isSome

omit [DecidableEq K] in
theorem Inner.keeps (hi : Inner h) (o : Option (Doc K α)) : Keeps h o := by
  intro content hc
  cases o with
  | none =>
    rw [hi.none] at hc
    cases hc
  | some d => exact hi.some d content hc

theorem child_patchChild_inner (hi : Inner h) (hp : patchChild s h d = some d') :
    (child s d).isSome ∧ h (child s d) = some (child s d') := by
  have hsome : (child s d).isSome := by
    by_contra hnone
    rw [Bool.not_eq_true, Option.isSome_eq_false_iff, Option.isNone_iff_eq_none] at hnone
    have hcongr : patchChild s h d = patchChild s (fun _ => none) d :=
      patchChild_congr (by rw [hnone, hi.none])
    rw [hcongr] at hp
    cases s <;> cases d <;> cases hp
  exact ⟨hsome, child_patchChild_self hsome (hi.keeps _) hp⟩

@[simp] theorem patchChild_name_map (key : K) (h : Patch K α) (fields : K → Option (Doc K α)) :
    patchChild (.name key) h (.map fields)
      = (h (fields key)).map fun content => .map (update fields key content) :=
  rfl

@[simp] theorem patchChild_index_list (i : ℕ) (h : Patch K α) (items : List (Doc K α)) :
    patchChild (.index i) h (.list items)
      = (h items[i]?).map fun content => .list (replaceAt i content items) :=
  rfl

/-- Two patches of one child, the first of them inner, are one patch. -/
theorem patchChild_bind (hi : Inner h) (s : Segment K) (d : Doc K α) :
    (patchChild s h d).bind (patchChild s h') = patchChild s (fun o => (h o).bind h') d := by
  cases s with
  | name key =>
    cases d with
    | leaf value => simp [patchChild, hi.none]
    | list items => simp [patchChild, hi.none]
    | map fields =>
      rw [patchChild_name_map, patchChild_name_map]
      cases hc : h (fields key) with
      | none => rfl
      | some content =>
        simp only [map_some, bind_some, patchChild_name_map, update_self, Function.update_idem]
  | index i =>
    cases d with
    | leaf value => simp [patchChild, hi.none]
    | map fields => simp [patchChild, hi.none]
    | list items =>
      rw [patchChild_index_list, patchChild_index_list]
      cases hc : h items[i]? with
      | none => rfl
      | some content =>
        have hlt : i < items.length := by
          by_contra hlt
          rw [getElem?_eq_none (Nat.not_lt.mp hlt), hi.none] at hc
          cases hc
        rw [getElem?_eq_getElem hlt] at hc
        obtain ⟨x, rfl⟩ := Option.isSome_iff_exists.mp (hi.some _ _ hc)
        have hset : (replaceAt i (some x) items)[i]? = some x := by
          rw [replaceAt, if_pos hlt, getElem?_set_self hlt]
        have hreplace : ∀ content, replaceAt i content (replaceAt i (some x) items)
            = replaceAt i content items := by
          intro content
          cases content with
          | none => simp [replaceAt, hlt, eraseIdx_set_eq]
          | some y => simp [replaceAt, hlt]
        simp only [map_some, bind_some, patchChild_index_list, hset, hreplace]

/-- A document without named children. -/
theorem patchChild_name_list (key : K) (h : Patch K α) (items : List (Doc K α)) :
    patchChild (.name key) h (.list items)
      = if (h none).any Option.isNone then some (.list items) else none :=
  rfl

/-- A document without numbered children. -/
theorem patchChild_index_map (i : ℕ) (h : Patch K α) (fields : K → Option (Doc K α)) :
    patchChild (.index i) h (.map fields)
      = if (h none).any Option.isNone then some (.map fields) else none :=
  rfl

theorem patchChild_leaf (s : Segment K) (h : Patch K α) (value : α) :
    patchChild s h (.leaf value)
      = if (h none).any Option.isNone then some (.leaf value) else none := by
  cases s <;> rfl

omit [DecidableEq K] in
/-- A step that at most fails commutes with every step that keeps it so. -/
theorem bind_guard {f g : Doc K α → Option (Doc K α)} {b : Bool}
    (hd : g d = if b then some d else none) (hf : ∀ d' ∈ f d, g d' = if b then some d' else none) :
    (g d).bind f = (f d).bind g := by
  rw [hd]
  cases hfd : f d with
  | none => cases b <;> simp [hfd]
  | some d' =>
    have hd' := hf d' hfd
    cases b <;> simp_all

theorem patchChild_names_comm {key key' : K} (hne : key ≠ key') (h h' : Patch K α)
    (fields : K → Option (Doc K α)) :
    (patchChild (.name key) h (.map fields)).bind (patchChild (.name key') h')
      = (patchChild (.name key') h' (.map fields)).bind (patchChild (.name key) h) := by
  rw [patchChild_name_map, patchChild_name_map]
  cases hc : h (fields key) with
  | none =>
    cases hc' : h' (fields key') with
    | none => rfl
    | some content' => simp [update_of_ne hne, hc]
  | some content =>
    cases hc' : h' (fields key') with
    | none => simp [update_of_ne hne.symm, hc']
    | some content' =>
      simp [update_of_ne hne, update_of_ne hne.symm, hc, hc', Function.update_comm hne.symm]

theorem patchChild_indexes_comm {i j : ℕ} (hij : i ≠ j) {items : List (Doc K α)}
    (hs : Settled h (.index i) (.index j) (.list items))
    (ht : Settled h' (.index j) (.index i) (.list items)) :
    (patchChild (.index i) h (.list items)).bind (patchChild (.index j) h')
      = (patchChild (.index j) h' (.list items)).bind (patchChild (.index i) h) := by
  rw [patchChild_index_list, patchChild_index_list]
  cases hc : h items[i]? with
  | none =>
    cases hc' : h' items[j]? with
    | none => rfl
    | some content' =>
      simp [getElem?_replaceAt_ne hij.symm (stays_of_settled ht hc'), hc]
  | some content =>
    have hleft := stays_of_settled hs hc
    cases hc' : h' items[j]? with
    | none => simp [getElem?_replaceAt_ne hij hleft, hc']
    | some content' =>
      have hright := stays_of_settled ht hc'
      simp [getElem?_replaceAt_ne hij hleft, getElem?_replaceAt_ne hij.symm hright, hc, hc',
        replaceAt_comm hij hleft hright]

/-- **Settled patches of different children commute.** -/
theorem patchChild_comm (hne : s ≠ t) (hs : Settled h s t d) (ht : Settled h' t s d) :
    (patchChild s h d).bind (patchChild t h') = (patchChild t h' d).bind (patchChild s h) := by
  cases d with
  | leaf value =>
    refine bind_guard (patchChild_leaf s h value) ?_
    intro d' hd'
    rw [patchChild_leaf] at hd'
    split at hd'
    · obtain rfl := mem_some.mp hd'
      exact patchChild_leaf s h value
    · cases hd'
  | list items =>
    cases s with
    | name key =>
      refine bind_guard (patchChild_name_list key h items) ?_
      intro d' hd'
      cases t with
      | name key' =>
        rw [patchChild_name_list] at hd'
        split at hd'
        · obtain rfl := mem_some.mp hd'
          rfl
        · cases hd'
      | index j =>
        obtain ⟨content, -, rfl⟩ := map_eq_some_iff.mp hd'
        rfl
    | index i =>
      cases t with
      | name key' =>
        refine (bind_guard (patchChild_name_list key' h' items) ?_).symm
        intro d' hd'
        obtain ⟨content, -, rfl⟩ := map_eq_some_iff.mp hd'
        rfl
      | index j => exact patchChild_indexes_comm (fun heq => hne (by rw [heq])) hs ht
  | map fields =>
    cases s with
    | index i =>
      refine bind_guard (patchChild_index_map i h fields) ?_
      intro d' hd'
      cases t with
      | index j =>
        rw [patchChild_index_map] at hd'
        split at hd'
        · obtain rfl := mem_some.mp hd'
          rfl
        · cases hd'
      | name key =>
        obtain ⟨content, -, rfl⟩ := map_eq_some_iff.mp hd'
        rfl
    | name key =>
      cases t with
      | index j =>
        refine (bind_guard (patchChild_index_map j h' fields) ?_).symm
        intro d' hd'
        obtain ⟨content, -, rfl⟩ := map_eq_some_iff.mp hd'
        rfl
      | name key' => exact patchChild_names_comm (fun heq => hne (by rw [heq])) h h' fields

/-! ### Paths -/

/-- The patch `h` at the path `p` leaves the path `r` alone: the paths part, and where they
part the patch does not move the other child. -/
def Apart (h : Patch K α) : Path K → Path K → Option (Doc K α) → Prop
  | s :: p, t :: r, o =>
    if s = t then Apart h p r (o.bind (child s))
    else p = [] → ∀ d, o = some d → Settled h s t d
  | _, _, _ => False

theorem patch_none (s : Segment K) (p : Path K) (h : Patch K α) : patch (s :: p) h none = none :=
  rfl

theorem patch_some (s : Segment K) (p : Path K) (h : Patch K α) (d : Doc K α) :
    patch (s :: p) h (some d) = (patchChild s (patch p h) d).map some :=
  rfl

theorem inner_patch (s : Segment K) (p : Path K) (h : Patch K α) : Inner (patch (s :: p) h) where
  none := rfl
  some d content hc := by
    obtain ⟨d', -, rfl⟩ := map_eq_some_iff.mp hc
    rfl

variable {p : Path K} {o : Option (Doc K α)}

/-- Only the present content of the path matters. -/
theorem patch_congr (heq : h (get p o) = h' (get p o)) : patch p h o = patch p h' o := by
  induction p generalizing o with
  | nil => exact heq
  | cons s p ih =>
    cases o with
    | none => rfl
    | some d => rw [patch_some, patch_some, patchChild_congr (ih heq)]

theorem patch_fails (hfail : ∀ o, h o = none) (o : Option (Doc K α)) : patch p h o = none := by
  induction p generalizing o with
  | nil => exact hfail o
  | cons s p ih =>
    cases o with
    | none => rfl
    | some d =>
      have hchild : patchChild s (patch p h) d = patchChild s (fun _ => none) d :=
        patchChild_congr (ih _)
      rw [patch_some, hchild]
      cases s <;> cases d <;> rfl

variable {r : Path K}

theorem Apart.ne_nil (ha : Apart h p r o) : p ≠ [] ∧ r ≠ [] := by
  cases p with
  | nil => exact ha.elim
  | cons s p =>
    cases r with
    | nil => exact ha.elim
    | cons t r => simp

theorem Apart.inner (ha : Apart h p r o) : Inner (patch p h) := by
  obtain ⟨s, p, rfl⟩ := exists_cons_of_ne_nil ha.ne_nil.1
  exact inner_patch s p h

omit [DecidableEq K] in
/-- Only the elements of a list can move. -/
theorem settled_of_lists (hlists : ∀ i j items, s = .index i → t = .index j → d = .list items →
    Keeps h items[i]? ∨ (Grows h ∨ j < i) ∧ j < items.length
      ∨ i < items.length ∧ items.length ≤ j) : Settled h s t d := by
  cases s <;> cases t <;> cases d <;> first | trivial | exact hlists _ _ _ rfl rfl rfl

/-- A patch further down does not move the children of a list. -/
theorem settled_patch_cons (u : Segment K) (p : Path K) (h : Patch K α) (s t : Segment K)
    (d : Doc K α) : Settled (patch (u :: p) h) s t d := by
  cases s <;> cases t <;> cases d <;>
    first
    | trivial
    | exact Or.inl ((inner_patch u p h).keeps _)

theorem Apart.settled (hne : s ≠ t) (ha : Apart h (s :: p) (t :: r) (some d)) :
    Settled (patch p h) s t d := by
  rw [Apart, if_neg hne] at ha
  cases p with
  | nil => exact ha rfl d rfl
  | cons u p => exact settled_patch_cons u p h s t d

theorem patch_cons_some {content : Option (Doc K α)} (hp : patch (s :: p) h (some d) = some content) :
    ∃ d', patchChild s (patch p h) d = some d' ∧ content = some d' := by
  obtain ⟨d', hd', rfl⟩ := map_eq_some_iff.mp hp
  exact ⟨d', hd', rfl⟩

variable {o' : Option (Doc K α)}

/-- **An edit does not change what is read apart from it.** -/
theorem get_patch (ha : Apart h p r o) (hp : patch p h o = some o') : get r o' = get r o := by
  induction p generalizing r o o' with
  | nil => exact ha.elim
  | cons s p ih =>
    cases r with
    | nil => exact ha.elim
    | cons t r =>
      cases o with
      | none => cases hp
      | some d =>
        obtain ⟨d', hd', rfl⟩ := patch_cons_some hp
        simp only [get, bind_some]
        by_cases hst : s = t
        · subst hst
          rw [Apart, if_pos rfl] at ha
          exact ih ha (child_patchChild_inner ha.inner hd').2
        · rw [child_patchChild_ne hst (ha.settled hst) hd']

/-- What is present may be replaced, and is then read. -/
theorem exists_patch_set (d : Doc K α) (hsome : (get p o).isSome) :
    ∃ o', patch p (fun _ => some (some d)) o = some o' ∧ get p o' = some d := by
  induction p generalizing o with
  | nil => exact ⟨some d, rfl, rfl⟩
  | cons s p ih =>
    cases o with
    | none =>
      rw [get_none] at hsome
      cases hsome
    | some current =>
      obtain ⟨o', hpatch, hget⟩ := @ih (child s current) hsome
      have hchild : (child s current).isSome := by
        by_contra hnone
        rw [get, bind_some, Option.not_isSome_iff_eq_none.mp hnone, get_none] at hsome
        cases hsome
      obtain ⟨x, rfl⟩ : ∃ x, o' = some x := by
        cases o' with
        | none =>
          rw [get_none] at hget
          cases hget
        | some x => exact ⟨x, rfl⟩
      obtain ⟨changed, hchanged⟩ : ∃ changed, patchChild s (patch p fun _ => some (some d)) current
          = some changed := by
        cases s <;> cases current <;>
          simp only [child, Option.isSome_none, Bool.false_eq_true] at hchild hpatch
        all_goals exact ⟨_, by rw [patchChild, hpatch]; rfl⟩
      have hkeeps : Keeps (patch p fun _ => some (some d)) (child s current) := by
        intro content hcontent
        obtain rfl := Option.some.inj (hpatch.symm.trans hcontent)
        exact hchild.symm
      have hself := child_patchChild_self hchild hkeeps hchanged
      refine ⟨some changed, by rw [patch_some, hchanged]; rfl, ?_⟩
      rw [get, bind_some, ← Option.some.inj (hpatch.symm.trans hself)]
      exact hget

/-- Paths of which neither leads through the other are apart, unless they meet in a list and
the patch changes its length there. -/
theorem Apart.of_not_prefix (hpr : ¬p <+: r) (hrp : ¬r <+: p)
    (hmeet : ∀ c i j q, p = c ++ [.index i] → r = c ++ .index j :: q →
      Keeps h (get (c ++ [.index i]) o) ∨ (Grows h ∨ j < i) ∧ (get (c ++ [.index j]) o).isSome
        ∨ (get (c ++ [.index i]) o).isSome ∧ get (c ++ [.index j]) o = none) :
    Apart h p r o := by
  induction p generalizing r o with
  | nil => exact absurd nil_prefix hpr
  | cons s p ih =>
    cases r with
    | nil => exact absurd nil_prefix hrp
    | cons t r =>
      rw [Apart]
      split
      · rename_i hst
        subst hst
        rw [cons_prefix_cons] at hpr hrp
        refine ih (fun hp => hpr ⟨rfl, hp⟩) (fun hr => hrp ⟨rfl, hr⟩) ?_
        rintro c i j q rfl rfl
        exact hmeet (s :: c) i j q rfl rfl
      · rintro rfl d rfl
        refine settled_of_lists ?_
        rintro i j items rfl rfl rfl
        have hsettled := hmeet [] i j r rfl rfl
        simpa [get, child] using hsettled

/-- **What is present stays present** under an edit that does not lead to it, unless the
edit deletes an earlier element of a list on the way. -/
theorem isSome_get_patch (hpr : ¬p <+: r)
    (hmeet : Grows h ∨ ∀ c i j q, p = c ++ [.index i] → r = c ++ .index j :: q → j < i)
    (hp : patch p h o = some o') (hr : (get r o).isSome) : (get r o').isSome := by
  induction p generalizing r o o' with
  | nil => exact absurd nil_prefix hpr
  | cons s p ih =>
    cases o with
    | none => cases hp
    | some d =>
      obtain ⟨d', hd', rfl⟩ := patch_cons_some hp
      cases r with
      | nil => rfl
      | cons t r =>
        simp only [get, bind_some] at hr ⊢
        by_cases hst : s = t
        · subst hst
          have hpr' : ¬p <+: r := fun hp => hpr (cons_prefix_cons.mpr ⟨rfl, hp⟩)
          obtain ⟨u, p, rfl⟩ : ∃ u q, p = u :: q := by
            cases p with
            | nil => exact absurd nil_prefix hpr'
            | cons u p => exact ⟨u, p, rfl⟩
          refine ih hpr' ?_ (child_patchChild_inner (inner_patch u p h) hd').2 hr
          refine hmeet.imp id fun hmeet c i j q hc hq => ?_
          exact hmeet (s :: c) i j q (by rw [hc]; rfl) (by rw [hq]; rfl)
        · have hchild : (child t d).isSome := by
            cases hc : child t d with
            | some x => rfl
            | none => simp [hc] at hr
          have hsettled : Settled (patch p h) s t d := by
            cases p with
            | cons u p => exact settled_patch_cons u p h s t d
            | nil =>
              refine settled_of_lists ?_
              rintro i j items rfl rfl rfl
              refine .inr (.inl ⟨?_, by simpa [child] using hchild⟩)
              exact hmeet.imp id fun hmeet => hmeet [] i j r rfl rfl
          rw [child_patchChild_ne hst hsettled hd']
          exact hr

/-- An edit finds everything on the way to its path. -/
theorem isSome_get_of_patch (hp : patch p h o = some o') (hrp : r <+: p) (hne : r ≠ p) :
    (get r o).isSome := by
  induction p generalizing r o o' with
  | nil => exact absurd (prefix_nil.mp hrp) hne
  | cons s p ih =>
    cases o with
    | none => cases hp
    | some d =>
      cases r with
      | nil => rfl
      | cons t r =>
        obtain ⟨rfl, hway⟩ := cons_prefix_cons.mp hrp
        have hshort : r ≠ p := fun heq => hne (by rw [heq])
        obtain ⟨u, p, rfl⟩ : ∃ u q, p = u :: q := by
          cases p with
          | nil => exact absurd (prefix_nil.mp hway) hshort
          | cons u p => exact ⟨u, p, rfl⟩
        obtain ⟨d', hd', rfl⟩ := patch_cons_some hp
        have hchild := (child_patchChild_inner (inner_patch u p h) hd').2
        simpa [get] using ih hchild hway hshort

theorem patchChild_eq_list {items' : List (Doc K α)} (hp : patchChild s h d = some (.list items')) :
    ∃ items, d = .list items := by
  cases d with
  | list items => exact ⟨items, rfl⟩
  | leaf value =>
    rw [patchChild_leaf] at hp
    split at hp <;> cases hp
  | map fields =>
    cases s with
    | name key =>
      obtain ⟨content, -, hp⟩ := map_eq_some_iff.mp hp
      cases hp
    | index i =>
      rw [patchChild_index_map] at hp
      split at hp <;> cases hp

variable {k : Patch K α}

/-- Whether a patch is settled depends on the two children of a list. -/
theorem Settled.of_child {u : Segment K} (hsettled : Settled h s t d)
    (hp : patchChild u k d = some d') (hs : child s d' = child s d)
    (ht : (child t d').isSome = (child t d).isSome) : Settled h s t d' := by
  refine settled_of_lists ?_
  rintro i j items' rfl rfl rfl
  obtain ⟨items, rfl⟩ := patchChild_eq_list hp
  simp only [child] at hs ht
  have hi : i < items'.length ↔ i < items.length := by
    simpa using Bool.eq_iff_iff.mp (congrArg Option.isSome hs)
  have hj : j < items'.length ↔ j < items.length := by
    simpa using Bool.eq_iff_iff.mp ht
  rcases hsettled with hk | hg | hp
  · exact .inl (hs ▸ hk)
  · exact .inr (.inl ⟨hg.1, hj.mpr hg.2⟩)
  · refine .inr (.inr ⟨hi.mpr hp.1, ?_⟩)
    rw [← not_lt, hj, not_lt]
    exact hp.2

/-- **Edits apart from two paths keep them apart.** -/
theorem Apart.of_patch {q : Path K} (ha : Apart h p r o)
    (hp : Apart k q p o) (hr : Apart k q r o) (hq : patch q k o = some o') : Apart h p r o' := by
  induction p generalizing r q o o' with
  | nil => exact ha.elim
  | cons s p ih =>
    cases r with
    | nil => exact ha.elim
    | cons t r =>
      cases q with
      | nil => exact hp.elim
      | cons u q =>
        cases o with
        | none => cases hq
        | some d =>
          obtain ⟨d', hd', rfl⟩ := patch_cons_some hq
          by_cases hst : s = t
          · subst hst
            rw [Apart, if_pos rfl] at ha ⊢
            by_cases hus : u = s
            · subst hus
              rw [Apart, if_pos rfl] at hp hr
              exact ih ha hp hr (child_patchChild_inner hp.inner hd').2
            · rwa [bind_some, child_patchChild_ne hus (hp.settled hus) hd']
          · rw [Apart, if_neg hst] at ha ⊢
            rintro rfl e he
            cases he
            have hus : u ≠ s := by
              rintro rfl
              rw [Apart, if_pos rfl] at hp
              exact hp.ne_nil.2 rfl
            refine (ha rfl d rfl).of_child hd'
              (child_patchChild_ne hus (hp.settled hus) hd') ?_
            by_cases hut : u = t
            · subst hut
              rw [Apart, if_pos rfl] at hr
              obtain ⟨hsome, hstored⟩ := child_patchChild_inner hr.inner hd'
              rw [hsome]
              exact (hr.inner.keeps _).isSome hsome hstored
            · rw [child_patchChild_ne hut (hr.settled hut) hd']

/-- **Edits apart from each other commute.** -/
theorem patch_comm {q : Path K} (hp : Apart h p q o) (hq : Apart k q p o) :
    (patch p h o).bind (patch q k) = (patch q k o).bind (patch p h) := by
  induction p generalizing q o with
  | nil => exact hp.elim
  | cons s p ih =>
    cases q with
    | nil => exact hp.elim
    | cons t q =>
      cases o with
      | none => rfl
      | some d =>
        have hleft : (patch (s :: p) h (some d)).bind (patch (t :: q) k)
            = ((patchChild s (patch p h) d).bind (patchChild t (patch q k))).map some := by
          simp only [patch, bind_some]
          cases patchChild s (patch p h) d <;> simp
        have hright : (patch (t :: q) k (some d)).bind (patch (s :: p) h)
            = ((patchChild t (patch q k) d).bind (patchChild s (patch p h))).map some := by
          simp only [patch, bind_some]
          cases patchChild t (patch q k) d <;> simp
        rw [hleft, hright]
        congr 1
        by_cases hst : s = t
        · subst hst
          rw [Apart, if_pos rfl] at hp hq
          rw [patchChild_bind hp.inner, patchChild_bind hq.inner]
          exact patchChild_congr (ih hp hq)
        · exact patchChild_comm hst (hp.settled hst) (hq.settled (Ne.symm hst))

/-! ### Edits -/

/-- An edit at a path, whose effect depends on what is read at some paths. -/
structure Edit (K α : Type) where
  path : Path K
  reads : List (Path K)
  effect : (Path K → Option (Doc K α)) → Patch K α
  effect_congr : ∀ f g, (∀ r ∈ reads, f r = g r) → effect f = effect g

namespace Edit

variable {e e' e'' : Edit K α}

/-- Carries out an edit. -/
def run (e : Edit K α) (o : Option (Doc K α)) : Option (Option (Doc K α)) :=
  patch e.path (e.effect fun r => get r o) o

/-- Whatever it reads, the edit leaves a path alone. -/
def Leaves (e : Edit K α) (o : Option (Doc K α)) (r : Path K) : Prop :=
  ∀ f, Apart (e.effect f) e.path r o

variable {r : Path K}

/-- An edit that never deletes leaves a path alone that it does not lead through, if the
list where they meet has one of the two elements. -/
theorem Leaves.of_grows (hgrows : ∀ f, Grows (e.effect f)) (hpr : ¬e.path <+: r)
    (hrp : ¬r <+: e.path) (hmeet : ∀ c i j q, e.path = c ++ [.index i] → r = c ++ .index j :: q →
      (get (c ++ [.index i]) o).isSome ∨ (get (c ++ [.index j]) o).isSome) : e.Leaves o r := by
  intro f
  refine Apart.of_not_prefix hpr hrp fun c i j q hp hr => ?_
  refine (hmeet c i j q hp hr).imp (fun hpresent content hc => ?_) fun hpresent =>
    .inl ⟨.inl (hgrows f), hpresent⟩
  cases content with
  | none => exact absurd hc (hgrows f _)
  | some d => exact hpresent.symm

theorem Leaves.of_not_meet (hpr : ¬e.path <+: r) (hrp : ¬r <+: e.path)
    (hmeet : ∀ c i j q, e.path = c ++ [.index i] → r ≠ c ++ .index j :: q) : e.Leaves o r :=
  fun _ => Apart.of_not_prefix hpr hrp fun c i j q hp hr => absurd hr (hmeet c i j q hp)

/-- An edit that adds nothing leaves a path alone that it does not lead through, if it deletes
nothing or something behind the element of the path, or if there is no such element. -/
theorem Leaves.of_keeps_none (hnone : ∀ f, Keeps (e.effect f) none) (hpr : ¬e.path <+: r)
    (hrp : ¬r <+: e.path) (hmeet : ∀ c i j q, e.path = c ++ [.index i] → r = c ++ .index j :: q →
      (get (c ++ [.index i]) o).isSome → (get (c ++ [.index j]) o).isSome → j < i) :
    e.Leaves o r := by
  intro f
  refine Apart.of_not_prefix hpr hrp fun c i j q hp hr => ?_
  cases hi : get (c ++ [.index i]) o with
  | none => exact .inl (hnone f)
  | some d =>
    cases hj : get (c ++ [.index j]) o with
    | none => exact .inr (.inr ⟨rfl, rfl⟩)
    | some d' => exact .inr (.inl ⟨.inr (hmeet c i j q hp hr (by simp [hi]) (by simp [hj])), rfl⟩)

/-- Neither edit disturbs what the other one reads or changes. -/
def Compatible (o : Option (Doc K α)) (e e' : Edit K α) : Prop :=
  (∀ r ∈ e.path :: e.reads, e'.Leaves o r) ∧ ∀ r ∈ e'.path :: e'.reads, e.Leaves o r

theorem Compatible.symm (h : Compatible o e e') : Compatible o e' e :=
  And.symm h

theorem Compatible.effect_eq (h : Compatible o e e') (hrun : e.run o = some o') :
    (e'.effect fun r => get r o') = e'.effect fun r => get r o :=
  e'.effect_congr _ _ fun r hr => get_patch (h.2 r (mem_cons_of_mem _ hr) _) hrun

/-- **Compatible edits commute.** -/
theorem Compatible.run_comm (h : Compatible o e e') :
    (e.run o).bind e'.run = (e'.run o).bind e.run := by
  have hleft : (e.run o).bind e'.run
      = (e.run o).bind (patch e'.path (e'.effect fun r => get r o)) := by
    cases hrun : e.run o with
    | none => rfl
    | some o' =>
      rw [bind_some, bind_some, run, h.effect_eq hrun]
  have hright : (e'.run o).bind e.run
      = (e'.run o).bind (patch e.path (e.effect fun r => get r o)) := by
    cases hrun : e'.run o with
    | none => rfl
    | some o' =>
      rw [bind_some, bind_some, run, h.symm.effect_eq hrun]
  rw [hleft, hright]
  exact patch_comm (h.2 e'.path mem_cons_self _) (h.1 e.path mem_cons_self _)

/-- Edits stay compatible behind an edit that is compatible with both. -/
theorem Compatible.of_run (h : Compatible o e e') (he : Compatible o e'' e)
    (he' : Compatible o e'' e') (hrun : e''.run o = some o') : Compatible o' e e' := by
  refine ⟨fun r hr f => ?_, fun r hr f => ?_⟩
  · exact (h.1 r hr f).of_patch (he'.2 e'.path mem_cons_self _) (he.2 r hr _) hrun
  · exact (h.2 r hr f).of_patch (he.2 e.path mem_cons_self _) (he'.2 r hr _) hrun

/-- Carries out edits one after another. -/
def runAll (edits : List (Edit K α)) (o : Option (Doc K α)) : Option (Option (Doc K α)) :=
  edits.foldlM (fun o e => e.run o) o

@[simp] theorem runAll_nil (o : Option (Doc K α)) : runAll [] o = some o := rfl

@[simp] theorem runAll_cons (e : Edit K α) (edits : List (Edit K α)) (o : Option (Doc K α)) :
    runAll (e :: edits) o = (e.run o).bind (runAll edits) :=
  foldlM_cons

variable {edits : List (Edit K α)}

/-- **Compatible edits may be permuted.** -/
theorem runAll_perm {edits' : List (Edit K α)} (hperm : edits.Perm edits')
    (hcompat : edits.Pairwise (Compatible o)) : runAll edits o = runAll edits' o := by
  induction hperm generalizing o with
  | nil => rfl
  | @cons e edits edits' _ ih =>
    rw [runAll_cons, runAll_cons]
    cases hrun : e.run o with
    | none => rfl
    | some o' =>
      obtain ⟨hhead, htail⟩ := pairwise_cons.mp hcompat
      refine ih (htail.imp_of_mem ?_)
      intro a b ha hb hab
      exact hab.of_run (hhead a ha) (hhead b hb) hrun
  | swap e e' edits =>
    have hcomm := ((pairwise_cons.mp hcompat).1 e mem_cons_self).run_comm
    simp only [runAll_cons]
    rw [← bind_assoc, ← bind_assoc, hcomm]
  | trans hperm _ ih ih' =>
    rw [ih hcompat]
    exact ih' ((hperm.pairwise_iff fun h => h.symm).mp hcompat)

/-- What no edit disturbs is read as before. -/
theorem get_runAll (hcompat : edits.Pairwise (Compatible o)) (hleaves : ∀ e ∈ edits, e.Leaves o r)
    (hrun : runAll edits o = some o') : get r o' = get r o := by
  induction edits generalizing o with
  | nil =>
    cases hrun
    rfl
  | cons e edits ih =>
    rw [runAll_cons] at hrun
    obtain ⟨o₁, he, hrun⟩ := Option.bind_eq_some_iff.mp hrun
    obtain ⟨hhead, htail⟩ := pairwise_cons.mp hcompat
    have hr := hleaves e mem_cons_self
    rw [← get_patch (hr _) he]
    refine ih (htail.imp_of_mem ?_) (fun e' he' f => ?_) hrun
    · intro a b ha hb hab
      exact hab.of_run (hhead a ha) (hhead b hb) he
    · exact (hleaves e' (mem_cons_of_mem _ he') f).of_patch
        ((hhead e' he').2 e'.path mem_cons_self _) (hr _) he

/-- What is present stays present when every edit keeps it so. -/
theorem isSome_get_runAll
    (hstays : ∀ e ∈ edits, ∀ o o', e.run o = some o' → (get r o).isSome → (get r o').isSome)
    (hrun : runAll edits o = some o') (hr : (get r o).isSome) : (get r o').isSome := by
  induction edits generalizing o with
  | nil =>
    cases hrun
    exact hr
  | cons e edits ih =>
    rw [runAll_cons] at hrun
    obtain ⟨o₁, he, hrun⟩ := Option.bind_eq_some_iff.mp hrun
    exact ih (fun e' he' => hstays e' (mem_cons_of_mem _ he')) hrun
      (hstays e mem_cons_self o o₁ he hr)

end Edit

end Document
