import Mathlib

/-!
# Forests Given by Parent Pointers

A forest is a parent function without cycles: climbing from any node ends at a root
(`Rooted`). Climbing with a list of visited nodes decides ancestry and finds cycles
(`reaches`, `climbEnds`).

## Main results

* `reaches_iff`, `climbEnds_iff`: what climbing decides.
* `Rooted.not_ancestor_parent`: climbing leads away from a node.
* `children_induction`: induction from the leaves to the roots.
-/

namespace Forest

variable {ι : Type}

/-- `a` is `d` or one of the nodes above it. -/
inductive Ancestor (parent : ι → Option ι) (a : ι) : ι → Prop
  | refl : Ancestor parent a a
  | step {d p : ι} (hparent : parent d = some p) (hp : Ancestor parent a p) : Ancestor parent a d

/-- Climbing from a node ends at a root. -/
inductive Rooted (parent : ι → Option ι) : ι → Prop
  | root {d : ι} (hparent : parent d = none) : Rooted parent d
  | step {d p : ι} (hparent : parent d = some p) (hp : Rooted parent p) : Rooted parent d

variable {parent : ι → Option ι} {a b c d f l p : ι}

/-! ### Ancestors -/

theorem Ancestor.of_parent (h : parent d = some p) : Ancestor parent p d :=
  .step h .refl

theorem Ancestor.trans (hab : Ancestor parent a b) (hbd : Ancestor parent b d) :
    Ancestor parent a d := by
  induction hbd with
  | refl => exact hab
  | step hparent _ ih => exact .step hparent ih

theorem Ancestor.eq_or_parent (h : Ancestor parent a d) :
    a = d ∨ ∃ p, parent d = some p ∧ Ancestor parent a p := by
  cases h with
  | refl => exact Or.inl rfl
  | step hparent hp => exact Or.inr ⟨_, hparent, hp⟩

theorem Rooted.of_ancestor (h : Rooted parent d) (ha : Ancestor parent a d) : Rooted parent a := by
  induction ha with
  | refl => exact h
  | step hparent _ ih =>
    cases h with
    | root hroot =>
      rw [hroot] at hparent
      cases hparent
    | step hparent' hp =>
      rw [hparent] at hparent'
      cases hparent'
      exact ih hp

/-- **A node is no ancestor of its parent.** -/
theorem Rooted.not_ancestor_parent (h : Rooted parent d) (hparent : parent d = some p) :
    ¬Ancestor parent d p := by
  induction h generalizing p with
  | root hroot =>
    rw [hroot] at hparent
    cases hparent
  | @step d p' hparent' _ ih =>
    rw [hparent] at hparent'
    cases hparent'
    intro hdp
    rcases hdp.eq_or_parent with rfl | ⟨q, hq, hdq⟩
    · exact ih hparent .refl
    · exact ih hq ((Ancestor.of_parent hparent).trans hdq)

/-! ### Climbing -/

section Climbing

variable [DecidableEq ι] (parent) (ids : List ι)

theorem countP_visited_lt {ids : List ι} {visited : List ι} {d : ι} (hvisited : d ∉ visited)
    (hids : d ∈ ids) :
    ids.countP (fun i => decide (i ∉ d :: visited)) < ids.countP fun i => decide (i ∉ visited) := by
  induction ids with
  | nil => cases hids
  | cons i ids ih =>
    have hle : ids.countP (fun i => decide (i ∉ d :: visited))
        ≤ ids.countP fun i => decide (i ∉ visited) :=
      List.countP_mono_left fun x _ hx => by simp_all
    by_cases hid : i = d
    · subst hid
      rw [List.countP_cons_of_neg (by simp), List.countP_cons_of_pos (by simpa using hvisited)]
      omega
    · have hlt := ih ((List.mem_cons.mp hids).resolve_left fun h => hid h.symm)
      by_cases hi : i ∈ visited
      · rw [List.countP_cons_of_neg (by simp [hi]), List.countP_cons_of_neg (by simp [hi])]
        exact hlt
      · rw [List.countP_cons_of_pos (by simp [hi, hid]), List.countP_cons_of_pos (by simp [hi])]
        omega

/-- Climbs until `a` is found. Nodes that have a parent are listed in `ids`. -/
def reaches (a : ι) (visited : List ι) (current : Option ι) : Bool :=
  match current with
  | none => false
  | some d =>
    if d = a then true
    else if _h : d ∉ visited ∧ d ∈ ids then reaches a (d :: visited) (parent d)
    else false
termination_by ids.countP fun i => decide (i ∉ visited)
decreasing_by exact countP_visited_lt _h.1 _h.2

/-- Climbs until there is no parent left; a second visit is a cycle. -/
def climbEnds (visited : List ι) (current : Option ι) : Bool :=
  match current with
  | none => true
  | some d =>
    if _hvisited : d ∈ visited then false
    else if _h : d ∈ ids then climbEnds (d :: visited) (parent d)
    else true
termination_by ids.countP fun i => decide (i ∉ visited)
decreasing_by exact countP_visited_lt _hvisited _h

variable {parent ids} (hids : ∀ d p, parent d = some p → d ∈ ids) {visited : List ι}

omit [DecidableEq ι] in
/-- Whatever has been visited lies below the current node. -/
theorem not_mem_visited (hroot : Rooted parent d)
    (hbelow : ∀ v ∈ visited, ∃ p, parent v = some p ∧ Ancestor parent d p) : d ∉ visited := by
  intro hmem
  obtain ⟨p, hparent, hdp⟩ := hbelow d hmem
  exact hroot.not_ancestor_parent hparent hdp

omit [DecidableEq ι] in
theorem below_cons (hparent : parent d = some p)
    (hbelow : ∀ v ∈ visited, ∃ q, parent v = some q ∧ Ancestor parent d q) :
    ∀ v ∈ d :: visited, ∃ q, parent v = some q ∧ Ancestor parent p q := by
  intro v hv
  rcases List.mem_cons.mp hv with rfl | hv
  · exact ⟨p, hparent, .refl⟩
  · obtain ⟨q, hq, hdq⟩ := hbelow v hv
    exact ⟨q, hq, (Ancestor.of_parent hparent).trans hdq⟩

include hids

theorem reaches_of_ancestor (hroot : Rooted parent d)
    (hbelow : ∀ v ∈ visited, ∃ p, parent v = some p ∧ Ancestor parent d p)
    (h : Ancestor parent a d) : reaches parent ids a visited (some d) = true := by
  induction h generalizing visited with
  | refl => simp [reaches]
  | @step d p hparent hp ih =>
    have hvisited := not_mem_visited hroot hbelow
    have hmem := hids d p hparent
    rw [reaches]
    split
    · rfl
    · rw [dif_pos ⟨hvisited, hmem⟩, hparent]
      exact ih (hroot.of_ancestor (.of_parent hparent)) (below_cons hparent hbelow)

omit hids in
theorem ancestor_of_reaches {current : Option ι}
    (h : reaches parent ids a visited current = true) : ∃ d, current = some d
      ∧ Ancestor parent a d := by
  fun_induction reaches parent ids a visited current with
  | case1 => cases h
  | case2 visited => exact ⟨a, rfl, .refl⟩
  | case3 visited d hne hmem ih =>
    obtain ⟨p, hparent, hp⟩ := ih h
    exact ⟨d, rfl, .step hparent hp⟩
  | case4 => cases h

/-- **Climbing finds the ancestors.** -/
theorem reaches_iff (hroot : Rooted parent d) :
    reaches parent ids a [] (some d) = true ↔ Ancestor parent a d := by
  refine ⟨fun h => ?_, fun h => reaches_of_ancestor hids hroot (by simp) h⟩
  obtain ⟨d', hd', ha⟩ := ancestor_of_reaches h
  cases hd'
  exact ha

theorem rooted_of_climbEnds {current : Option ι}
    (h : climbEnds parent ids visited current = true) : ∀ d, current = some d →
      Rooted parent d := by
  fun_induction climbEnds parent ids visited current with
  | case1 => simp
  | case2 => cases h
  | case3 visited d hvisited hmem ih =>
    intro e he
    cases he
    cases hparent : parent d with
    | none => exact .root hparent
    | some p => exact .step hparent (ih h p hparent)
  | case4 visited d hvisited hmem =>
    intro e he
    cases he
    cases hparent : parent d with
    | none => exact .root hparent
    | some p => exact absurd (hids d p hparent) hmem

omit hids in
theorem climbEnds_of_rooted (hroot : Rooted parent d)
    (hbelow : ∀ v ∈ visited, ∃ p, parent v = some p ∧ Ancestor parent d p) :
    climbEnds parent ids visited (some d) = true := by
  induction hroot generalizing visited with
  | @root d hparent =>
    have hvisited := not_mem_visited (.root hparent) hbelow
    rw [climbEnds, dif_neg hvisited, hparent]
    split
    · rw [climbEnds]
    · rfl
  | @step d p hparent hp ih =>
    have hvisited := not_mem_visited (.step hparent hp) hbelow
    rw [climbEnds, dif_neg hvisited, hparent]
    split
    · exact ih (below_cons hparent hbelow)
    · rfl

/-- **Climbing ends exactly below a root.** -/
theorem climbEnds_iff : climbEnds parent ids [] (some d) = true ↔ Rooted parent d :=
  ⟨fun h => rooted_of_climbEnds hids h d rfl, fun h => climbEnds_of_rooted h (by simp)⟩

end Climbing

/-! ### From the leaves to the roots -/

/-- **Induction over children**: what holds for a node whenever it holds for its children
holds everywhere. -/
theorem children_induction {P : ι → Prop} (ids : List ι) (hroot : ∀ d ∈ ids, Rooted parent d)
    (h : ∀ a ∈ ids, (∀ c ∈ ids, parent c = some a → P c) → P a) : ∀ a ∈ ids, P a := by
  classical
  -- The nodes below a child are fewer than those below its parent.
  have hmeasure : ∀ n, ∀ a ∈ ids,
      (ids.toFinset.filter fun d => Ancestor parent a d).card = n → P a := by
    intro n
    induction n using Nat.strong_induction_on with
    | _ n ih =>
      intro a ha hcard
      refine h a ha fun c hc hparent => ih _ ?_ c hc rfl
      rw [← hcard]
      refine Finset.card_lt_card ⟨fun d hd => ?_, fun hsub => ?_⟩
      · rw [Finset.mem_filter] at hd ⊢
        exact ⟨hd.1, (Ancestor.of_parent hparent).trans hd.2⟩
      · have hmem : a ∈ ids.toFinset.filter fun d => Ancestor parent a d :=
          Finset.mem_filter.mpr ⟨List.mem_toFinset.mpr ha, .refl⟩
        exact (hroot c hc).not_ancestor_parent hparent (Finset.mem_filter.mp (hsub hmem)).2
  exact fun a ha => hmeasure _ a ha rfl

end Forest
