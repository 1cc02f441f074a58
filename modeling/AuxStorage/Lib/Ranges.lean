import Mathlib

/-!
# Contiguous Ranges

Parts that own half-open ranges of a linear order **tile** it when the first range begins at the
start, every range is nonempty and begins where the one before it ends, and the last one has no
end. Every point from the start on then has exactly one owner.

## Main results

* `Contiguous.exists_owner`: every point has an owner.
* `Contiguous.owner_unique`: no point has two.
-/

namespace AuxStorage.Ranges

variable {α β : Type} [LinearOrder α] (lo : β → α) (hi : β → Option α)

/-- The range of a part contains a point. -/
def Owns (part : β) (x : α) : Prop :=
  lo part ≤ x ∧ ∀ stop ∈ hi part, x < stop

/-- The ranges of the parts follow one another from a point on, and the last has no end. -/
def Contiguous : Option α → List β → Prop
  | previous, [] => previous = none
  | previous, part :: rest =>
    previous = some (lo part) ∧ (∀ stop ∈ hi part, lo part < stop) ∧
      Contiguous (hi part) rest

variable {lo hi} {start : α} {parts : List β}

/-- No range begins before the start. -/
theorem Contiguous.start_le (h : Contiguous lo hi (some start) parts) :
    ∀ part ∈ parts, start ≤ lo part := by
  induction parts generalizing start with
  | nil => exact fun _ hmem => by cases hmem
  | cons first rest ih =>
    obtain ⟨hstart, hnonempty, hrest⟩ := h
    cases hstart
    intro part hmem
    rcases List.mem_cons.1 hmem with rfl | hmem
    · exact le_rfl
    · cases hstop : hi first with
      | none =>
        rw [hstop] at hrest
        cases rest with
        | nil => cases hmem
        | cons => cases hrest.1
      | some stop =>
        rw [hstop] at hrest
        exact (hnonempty stop hstop).le.trans (ih hrest part hmem)

theorem Contiguous.exists_owner (h : Contiguous lo hi (some start) parts) {x : α}
    (hx : start ≤ x) : ∃ part ∈ parts, Owns lo hi part x := by
  induction parts generalizing start with
  | nil => cases h
  | cons first rest ih =>
    obtain ⟨hstart, -, hrest⟩ := h
    cases hstart
    by_cases hin : ∀ stop ∈ hi first, x < stop
    · exact ⟨first, List.mem_cons_self, hx, hin⟩
    · push Not at hin
      obtain ⟨stop, hstop, hle⟩ := hin
      rw [Option.mem_def.1 hstop] at hrest
      obtain ⟨part, hmem, howns⟩ := ih hrest hle
      exact ⟨part, List.mem_cons_of_mem _ hmem, howns⟩

theorem Contiguous.not_owns_rest {first : β} (hrest : Contiguous lo hi (hi first) parts) {x : α}
    (howns : Owns lo hi first x) {part : β} (hmem : part ∈ parts) : ¬ Owns lo hi part x := by
  intro hpart
  cases hstop : hi first with
  | none =>
    rw [hstop] at hrest
    cases parts with
    | nil => cases hmem
    | cons => cases hrest.1
  | some stop =>
    rw [hstop] at hrest
    have hle := (hrest.start_le part hmem).trans hpart.1
    exact absurd (howns.2 stop hstop) hle.not_gt

theorem Contiguous.owner_unique {previous : Option α} (h : Contiguous lo hi previous parts)
    {x : α} {a b : β} (ha : a ∈ parts) (hb : b ∈ parts) (hax : Owns lo hi a x)
    (hbx : Owns lo hi b x) : a = b := by
  induction parts generalizing previous with
  | nil => cases ha
  | cons first rest ih =>
    obtain ⟨-, -, hrest⟩ := h
    rcases List.mem_cons.1 ha with rfl | ha' <;> rcases List.mem_cons.1 hb with rfl | hb'
    · rfl
    · exact absurd hbx (hrest.not_owns_rest hax hb')
    · exact absurd hax (hrest.not_owns_rest hbx ha')
    · exact ih hrest ha' hb'

end AuxStorage.Ranges
