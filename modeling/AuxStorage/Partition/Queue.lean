import AuxStorage.Partition.Reconcile

/-!
# Partitions: Queues Scale Safely

A queue opens partitions when the pressure is high and drains them when it is low. One invariant
carries everything: no partition is write-closed, at most one is draining, the number of open ones
is within its limits, and the epoch counts the changes that the partitions have gone through. So
the checks before and after a reconciliation pass, and a call fails only where a number runs out.
-/

namespace AuxStorage.Partition

open ResolvedPartitionFamily List
open PartitionInfo (isDraining isReadable isWritable transitionTo)

/-! ### The changes of a queue -/

/-- What a reconciliation can do to a queue. -/
inductive QueueStep {F : Type} (family : ResolvedPartitionFamily F) (nowMs : ℤ) :
    ResolvedPartitionFamily F → Option PartitionTopologyChange → Prop
  | keep : QueueStep family nowMs family none
  | retire {before after : List PartitionInfo} {partition : PartitionInfo}
      (hpartitions : family.partitions = before ++ partition :: after)
      (hstate : partition.state = .draining) :
      QueueStep family nowMs
        (({ family with
          partitions := before ++ { partition with state := .retired } :: after }).noteTopologyChange
            nowMs) (some (.retireQueuePartition partition.partitionId))
  | add {partitionId placementSlot : ℕ} {partitions : List PartitionInfo}
      (hid : family.nextPartitionId = .ok partitionId)
      (hslot : family.nextPlacementSlot = .ok placementSlot)
      (hopen : family.openPartitionCount < family.config.maxOpenPartitions)
      (hperm : partitions.Perm
        (family.partitions ++ [.newOpen partitionId placementSlot 0 none])) :
      QueueStep family nowMs (({ family with partitions }).noteTopologyChange nowMs)
        (some (.addQueuePartition partitionId))
  | drain {before after : List PartitionInfo} {partition : PartitionInfo}
      (hpartitions : family.partitions = before ++ partition :: after)
      (hstate : partition.state = .open)
      (hnone : family.partitions.countP isDraining = 0)
      (hopen : family.config.minOpenPartitions < family.openPartitionCount) :
      QueueStep family nowMs
        (({ family with
          partitions := before ++ { partition with state := .draining } :: after }).noteTopologyChange
            nowMs) (some (.beginQueueDrain partition.partitionId))

variable {partitions : List PartitionInfo} {partition : PartitionInfo}

/-- The change of a partition that is in the list, when the identities are distinct. -/
theorem updatePartition_eq_ok (missing : String)
    {change : PartitionInfo → Except StorageError PartitionInfo}
    (hnodup : (partitions.map (·.partitionId)).Nodup) {changed : PartitionInfo}
    (hmem : partition ∈ partitions) (hchange : change partition = .ok changed) :
    ∃ before after, partitions = before ++ partition :: after ∧
      updatePartition partition.partitionId missing change partitions
        = .ok (before ++ changed :: after) := by
  induction partitions with
  | nil => cases hmem
  | cons first rest ih =>
    obtain ⟨hfirst, hrest⟩ := nodup_cons.1 hnodup
    rcases mem_cons.1 hmem with rfl | hmem
    · exact ⟨[], rest, rfl, by simp [updatePartition, hchange, bind, Except.bind]⟩
    · have hne : first.partitionId ≠ partition.partitionId := fun heq =>
        hfirst (mem_map.2 ⟨partition, hmem, heq.symm⟩)
      obtain ⟨before, after, rfl, hupdate⟩ := ih hrest hmem
      exact ⟨first :: before, after, rfl,
        by simp [updatePartition, hne, hupdate, bind, Except.bind]⟩

theorem PartitionInfo.transitionTo_of {next : PartitionState}
    (h : partition.state.transitionTo next = .ok next) :
    partition.transitionTo next = .ok { partition with state := next } := by
  simp [transitionTo, h, bind, Except.bind]

section Cases

variable {F : Type} [FloatOps F] {family : ResolvedPartitionFamily F} {observations : Observations}
  {pressure : F} {nowMs : ℤ}

/-- Folding a choice of one of two keeps within the list. -/
theorem foldl_colder_mem (first : PartitionInfo) (rest : List PartitionInfo) :
    rest.foldl (colderPartition family observations) first ∈ first :: rest := by
  induction rest generalizing first with
  | nil => exact mem_singleton_self _
  | cons next rest ih =>
    rw [foldl_cons]
    have hpick : colderPartition family observations first next = first ∨
        colderPartition family observations first next = next := by
      unfold colderPartition
      split
      · exact .inr rfl
      · exact .inl rfl
    rcases mem_cons.1 (ih (colderPartition family observations first next)) with heq | hmem
    · rw [heq]
      rcases hpick with h | h <;> rw [h] <;> simp
    · exact mem_cons_of_mem _ (mem_cons_of_mem _ hmem)

omit [FloatOps F] in
/-- Retiring finds a partition that is draining. -/
theorem retireEmptyQueuePartition_cases (observations : Observations) (nowMs : ℤ)
    (hids : (family.partitions.map (·.partitionId)).Nodup) :
    ∃ next change, retireEmptyQueuePartition family observations nowMs = .ok (next, change) ∧
      QueueStep family nowMs next change := by
  unfold retireEmptyQueuePartition
  cases hfound : family.partitions.find? (isEmptyDraining observations) with
  | none => exact ⟨family, none, rfl, .keep⟩
  | some partition =>
    have hmem := mem_of_find?_eq_some hfound
    have hdraining : partition.state = .draining := by
      have hempty := find?_some hfound
      rw [isEmptyDraining, Bool.and_eq_true] at hempty
      simpa [isDraining, PartitionState.isDraining] using hempty.1
    have hchange : PartitionInfo.retire partition = .ok { partition with state := .retired } :=
      PartitionInfo.transitionTo_of (by rw [hdraining]; rfl)
    obtain ⟨before, after, hpartitions, hupdate⟩ :=
      updatePartition_eq_ok "selected draining partition disappeared" hids hmem hchange
    refine ⟨_, _, ?_, .retire hpartitions hdraining⟩
    simp [changeState, hupdate, bind, Except.bind]

theorem beginColdestQueueDrain_cases (hids : (family.partitions.map (·.partitionId)).Nodup)
    (hscale : queueScaleInRequired family family.openPartitionCount = true) :
    ∃ next change, beginColdestQueueDrain family observations nowMs = .ok (next, change) ∧
      QueueStep family nowMs next change := by
  unfold beginColdestQueueDrain
  cases hwritable : family.partitions.filter isWritable with
  | nil => exact ⟨family, none, rfl, .keep⟩
  | cons first rest =>
    simp only [queueScaleInRequired, Bool.and_eq_true, Bool.not_eq_true', decide_eq_true_eq]
      at hscale
    obtain ⟨⟨⟨hnone, -⟩, -⟩, hopen⟩ := hscale
    have hcold : rest.foldl (colderPartition family observations) first ∈ first :: rest :=
      foldl_colder_mem first rest
    dsimp only
    generalize rest.foldl (colderPartition family observations) first = coldest at hcold ⊢
    rw [← hwritable, mem_filter] at hcold
    have hstate : coldest.state = .open := by
      simpa [isWritable, PartitionState.acceptsWrites] using hcold.2
    have hchange : coldest.beginDraining = .ok { coldest with state := .draining } :=
      PartitionInfo.transitionTo_of (by rw [hstate]; rfl)
    obtain ⟨before, after, hpartitions, hupdate⟩ :=
      updatePartition_eq_ok "selected queue partition disappeared" hids hcold.1 hchange
    have hcount : family.partitions.countP isDraining = 0 := by
      rw [countP_eq_zero]
      exact any_eq_false.1 hnone
    refine ⟨_, _, ?_, .drain hpartitions hstate hcount hopen⟩
    simp [changeState, hupdate, bind, Except.bind]

/-- Why a queue cannot grow: its identities or its slots are used up. -/
def Exhausted {F : Type} (family : ResolvedPartitionFamily F) (error : StorageError) : Prop :=
  ((∃ partition ∈ family.partitions, partition.partitionId = maxU16) ∧
      error = .internal (text "partition id space is exhausted")) ∨
    ((∃ partition ∈ family.partitions, partition.placementSlot = maxU16) ∧
      error = .internal (text "partition placement slot space is exhausted"))

/-- The next number is above all others, unless the greatest possible one is used. -/
theorem nextNumber_cases {numbers : List ℕ} (hne : numbers ≠ []) (hlt : ∀ n ∈ numbers, n ≤ maxU16)
    (empty exhausted : String) :
    (∃ next, nextNumber numbers empty exhausted = .ok next ∧ next ≤ maxU16 ∧
        ∀ n ∈ numbers, n < next) ∨
      nextNumber numbers empty exhausted = .error (.internal (text exhausted)) ∧
        maxU16 ∈ numbers := by
  unfold nextNumber
  cases hmax : numbers.max? with
  | none => exact absurd (max?_eq_none_iff.1 hmax) hne
  | some current =>
    obtain ⟨hmem, hle⟩ := max?_eq_some_iff.1 hmax
    by_cases hfull : current < maxU16
    · exact .inl ⟨current + 1, by simp [hfull], hfull, fun n hn => Nat.lt_succ_of_le (hle n hn)⟩
    · have heq : current = maxU16 := le_antisymm (hlt current hmem) (not_lt.1 hfull)
      exact .inr ⟨by simp [hfull], heq ▸ hmem⟩

/-- What makes the cases of a queue complete: the numbers are distinct and fit in 16 bits. -/
structure Numbered {F : Type} (family : ResolvedPartitionFamily F) : Prop where
  nonempty : family.partitions ≠ []
  ids : (family.partitions.map (·.partitionId)).Nodup
  slots : (family.partitions.map (·.placementSlot)).Nodup
  id_le : ∀ partition ∈ family.partitions, partition.partitionId ≤ maxU16
  slot_le : ∀ partition ∈ family.partitions, partition.placementSlot ≤ maxU16

omit [FloatOps F] in
theorem addQueuePartition_cases (hnum : Numbered family)
    (hopen : family.openPartitionCount < family.config.maxOpenPartitions) :
    (∃ next change, addQueuePartition family nowMs = .ok (next, change) ∧
        QueueStep family nowMs next change) ∨
      ∃ error, addQueuePartition family nowMs = .error error ∧ Exhausted family error := by
  have hne {f : PartitionInfo → ℕ} : family.partitions.map f ≠ [] := by
    simpa using hnum.nonempty
  have hle {f : PartitionInfo → ℕ} (h : ∀ partition ∈ family.partitions, f partition ≤ maxU16) :
      ∀ n ∈ family.partitions.map f, n ≤ maxU16 := by
    intro n hn
    obtain ⟨partition, hmem, rfl⟩ := mem_map.1 hn
    exact h partition hmem
  rcases nextNumber_cases hne (hle hnum.id_le) "partition family has no partitions"
    "partition id space is exhausted" with ⟨id, hid, -⟩ | ⟨hid, hmem⟩
  · rcases nextNumber_cases hne (hle hnum.slot_le) "partition family has no placement slots"
      "partition placement slot space is exhausted" with ⟨slot, hslot, -⟩ | ⟨hslot, hmem⟩
    · refine .inl ⟨_, _, ?_, .add hid hslot hopen (perm_insertionSort
        (fun a b => a.partitionId ≤ b.partitionId) _)⟩
      simp [addQueuePartition, nextPartitionId, nextPlacementSlot, hid, hslot, bind, Except.bind]
    · refine .inr ⟨_, ?_, .inr ⟨mem_map.1 hmem, rfl⟩⟩
      simp [addQueuePartition, nextPartitionId, nextPlacementSlot, hid, hslot, bind, Except.bind]
  · refine .inr ⟨_, ?_, .inl ⟨mem_map.1 hmem, rfl⟩⟩
    simp [addQueuePartition, nextPartitionId, hid, bind, Except.bind]

theorem scaleQueue_cases (hnum : Numbered family) :
    (∃ next change, scaleQueue family observations pressure nowMs = .ok (next, change) ∧
        QueueStep family nowMs next change) ∨
      ∃ error, scaleQueue family observations pressure nowMs = .error error ∧
        Exhausted family error := by
  unfold scaleQueue
  split_ifs with hout hin
  · simp only [queueScaleOutRequired, Bool.and_eq_true, decide_eq_true_eq] at hout
    exact addQueuePartition_cases hnum hout.2
  · exact .inl (beginColdestQueueDrain_cases hnum.ids hin)
  · exact .inl ⟨family, none, rfl, .keep⟩

/-- **The changes of a queue**: it takes one step, or its numbers are used up. -/
theorem reconcileQueue_cases (observations : Observations) (pressure : F) (nowMs : ℤ)
    (hnum : Numbered family) :
    (∃ next change, reconcileQueue family observations pressure nowMs = .ok (next, change) ∧
        QueueStep family nowMs next change) ∨
      ∃ error, reconcileQueue family observations pressure nowMs = .error error ∧
        Exhausted family error := by
  unfold reconcileQueue
  split_ifs
  · exact .inl ⟨family, none, rfl, .keep⟩
  · obtain ⟨next, change, hretire, hstep⟩ :=
      retireEmptyQueuePartition_cases observations nowMs hnum.ids
    rw [hretire]
    cases change with
    | none => exact scaleQueue_cases hnum
    | some change => exact .inl ⟨next, some change, rfl, hstep⟩

end Cases

/-! ### The invariant -/

/-- How many changes a partition has gone through, with its opening. -/
def PartitionState.changes : PartitionState → ℕ
  | .open | .writeClosed => 1
  | .draining => 2
  | .retired => 3

/-- The changes that the partitions have gone through. -/
def totalChanges (partitions : List PartitionInfo) : ℕ :=
  (partitions.map fun partition => partition.state.changes).sum

/-- What holds of a queue that began with a number of partitions. -/
structure QueueInvariant {F : Type} (count : ℕ) (family : ResolvedPartitionFamily F) : Prop where
  kind : family.config.familyKind = .standardQueue
  routing : family.config.routingStrategy = .standardQueue
  memberships : family.memberships = []
  min_eq : family.config.minOpenPartitions = count
  max_eq : family.config.maxOpenPartitions = max 256 count
  numbered : Numbered family
  notClosed : ∀ partition ∈ family.partitions, partition.state ≠ .writeClosed
  min_le : count ≤ family.openCount
  le_max : family.openCount ≤ max 256 count
  draining_le : family.partitions.countP isDraining ≤ 1
  draining_zero : 256 ≤ count → family.partitions.countP isDraining = 0
  partitionCount : family.config.partitionCount = family.readableCount
  epoch : family.config.familyEpoch + count = totalChanges family.partitions

/-- The readable partitions are the open ones and those that are draining. -/
theorem readable_eq (h : ∀ partition ∈ partitions, partition.state ≠ .writeClosed) :
    partitions.countP isReadable = partitions.countP isWritable
      + partitions.countP isDraining := by
  induction partitions with
  | nil => rfl
  | cons first rest ih =>
    have ih := ih fun partition hmem => h partition (mem_cons_of_mem _ hmem)
    have hfirst := h first mem_cons_self
    obtain ⟨_, _, state, _, _, _, _⟩ := first
    simp only [countP_cons, ih, isReadable, isWritable, isDraining]
    cases state with
    | writeClosed => exact absurd rfl hfirst
    | «open» | draining => simp [PartitionState.isReadable, PartitionState.acceptsWrites,
        PartitionState.isDraining]; omega
    | retired => simp [PartitionState.isReadable, PartitionState.acceptsWrites,
        PartitionState.isDraining]

theorem totalChanges_le (partitions : List PartitionInfo) :
    totalChanges partitions ≤ 3 * partitions.length := by
  induction partitions with
  | nil => exact Nat.le_refl _
  | cons first rest ih =>
    have hfirst : first.state.changes ≤ 3 := by cases first.state <;> decide
    simp only [totalChanges, map_cons, sum_cons, length_cons] at ih ⊢
    omega

section Invariant

variable {F : Type} {count : ℕ} {family : ResolvedPartitionFamily F}

/-- There are at most as many partitions as identities. -/
theorem Numbered.length_le (h : Numbered family) : family.partitions.length ≤ 2 ^ 16 := by
  have hsub : family.partitions.map (·.partitionId) ⊆ range (2 ^ 16) := by
    intro id hid
    obtain ⟨partition, hmem, rfl⟩ := mem_map.1 hid
    have hle := h.id_le partition hmem
    rw [mem_range]
    unfold maxU16 at hle
    omega
  have hlength := (h.ids.subperm hsub).length_le
  rwa [length_map, length_range] at hlength

/-! ### One step -/

variable {before after : List PartitionInfo} {partition : PartitionInfo}

/-- Numbers stay as they are when a partition changes only its state. -/
theorem Numbered.replace (h : Numbered family)
    (hpartitions : family.partitions = before ++ partition :: after) (state : PartitionState)
    (next : ResolvedPartitionFamily F)
    (hnext : next.partitions = before ++ { partition with state } :: after) : Numbered next := by
  have hmap {f : PartitionInfo → ℕ} (hf : f { partition with state } = f partition) :
      next.partitions.map f = family.partitions.map f := by
    simp only [hnext, hpartitions, map_append, map_cons, hf]
  have hle {f : PartitionInfo → ℕ} (hf : f { partition with state } = f partition)
      (hle : ∀ partition ∈ family.partitions, f partition ≤ maxU16) :
      ∀ partition ∈ next.partitions, f partition ≤ maxU16 := by
    intro other hother
    have hmem : f other ∈ family.partitions.map f := by
      rw [← hmap hf]
      exact mem_map_of_mem hother
    obtain ⟨same, hsame, heq⟩ := mem_map.1 hmem
    exact heq ▸ hle same hsame
  refine ⟨by simp [hnext], ?_, ?_, hle rfl h.id_le, hle rfl h.slot_le⟩
  · rw [hmap rfl]
    exact h.ids
  · rw [hmap rfl]
    exact h.slots

theorem nextNumber_eq_ok {numbers : List ℕ} {empty exhausted : String} {next : ℕ}
    (h : nextNumber numbers empty exhausted = .ok next) :
    next ≤ maxU16 ∧ ∀ n ∈ numbers, n < next := by
  unfold nextNumber at h
  cases hmax : numbers.max? with
  | none => rw [hmax] at h; cases h
  | some current =>
    rw [hmax] at h
    dsimp only at h
    split_ifs at h with hfull
    cases h
    exact ⟨hfull, fun n hn => Nat.lt_succ_of_le ((max?_eq_some_iff.1 hmax).2 n hn)⟩

/-- Numbers stay distinct when a partition with the next ones is added. -/
theorem Numbered.add (h : Numbered family) {partitionId placementSlot : ℕ}
    (hid : family.nextPartitionId = .ok partitionId)
    (hslot : family.nextPlacementSlot = .ok placementSlot) (next : ResolvedPartitionFamily F)
    (hperm : next.partitions.Perm
      (family.partitions ++ [.newOpen partitionId placementSlot 0 none])) : Numbered next := by
  obtain ⟨hidLe, hidGt⟩ := nextNumber_eq_ok hid
  obtain ⟨hslotLe, hslotGt⟩ := nextNumber_eq_ok hslot
  have hnodup {f : PartitionInfo → ℕ} (hold : (family.partitions.map f).Nodup)
      (hgt : ∀ n ∈ family.partitions.map f, n < f (.newOpen partitionId placementSlot 0 none)) :
      (next.partitions.map f).Nodup := by
    rw [(hperm.map f).nodup_iff, map_append, nodup_append]
    refine ⟨hold, nodup_singleton _, ?_⟩
    intro a ha b hb
    obtain rfl := mem_singleton.1 hb
    exact (hgt a ha).ne
  have hle {f : PartitionInfo → ℕ} (hold : ∀ partition ∈ family.partitions, f partition ≤ maxU16)
      (hnew : f (.newOpen partitionId placementSlot 0 none) ≤ maxU16) :
      ∀ partition ∈ next.partitions, f partition ≤ maxU16 := by
    intro other hother
    rcases mem_append.1 (hperm.mem_iff.1 hother) with hother | hother
    · exact hold other hother
    · obtain rfl := mem_singleton.1 hother
      exact hnew
  refine ⟨?_, hnodup h.ids hidGt, hnodup h.slots hslotGt, hle h.id_le hidLe, hle h.slot_le hslotLe⟩
  intro hnil
  rw [hnil] at hperm
  simpa using hperm.length_eq

theorem countP_replace (p : PartitionInfo → Bool) (before after : List PartitionInfo)
    (old new : PartitionInfo) :
    (before ++ new :: after).countP p + (p old).toNat
      = (before ++ old :: after).countP p + (p new).toNat := by
  simp only [countP_append, countP_cons]
  cases p old <;> cases p new <;> simp <;> omega

theorem counts_replace (hpartitions : family.partitions = before ++ partition :: after)
    (state : PartitionState) :
    (before ++ { partition with state } :: after).countP isWritable
        + partition.state.acceptsWrites.toNat
      = family.partitions.countP isWritable + state.acceptsWrites.toNat ∧
    (before ++ { partition with state } :: after).countP isDraining
        + partition.state.isDraining.toNat
      = family.partitions.countP isDraining + state.isDraining.toNat ∧
    totalChanges (before ++ { partition with state } :: after) + partition.state.changes
      = totalChanges family.partitions + state.changes := by
  rw [hpartitions]
  refine ⟨countP_replace _ before after partition _, countP_replace _ before after partition _, ?_⟩
  simp only [totalChanges, map_append, map_cons, sum_append, sum_cons]
  omega

section Step

variable (h : QueueInvariant count family) (hpos : 0 < count) (hcount : count < 2 ^ 16)

include h

theorem QueueInvariant.epoch_lt : family.config.familyEpoch + 1 < 2 ^ 64 := by
  have hepoch := h.epoch
  have hle := totalChanges_le family.partitions
  have hlength := h.numbered.length_le
  omega

include hcount

theorem QueueInvariant.readable_lt : family.readableCount < 2 ^ 16 := by
  have hreadable : family.readableCount = family.openCount
      + family.partitions.countP isDraining := readable_eq h.notClosed
  have hmax := h.le_max
  have hdraining := h.draining_le
  by_cases hlarge : 256 ≤ count
  · have hzero := h.draining_zero hlarge
    omega
  · omega

/-- The invariant after a change of the partitions that was noted. -/
theorem QueueInvariant.note (nowMs : ℤ) {partitions : List PartitionInfo}
    (hnumbered : Numbered ({ family with partitions } : ResolvedPartitionFamily F))
    (hclosed : ∀ partition ∈ partitions, partition.state ≠ .writeClosed)
    (hmin : count ≤ partitions.countP isWritable)
    (hmax : partitions.countP isWritable ≤ max 256 count)
    (hdraining : partitions.countP isDraining ≤ 1)
    (hzero : 256 ≤ count → partitions.countP isDraining = 0)
    (htotal : totalChanges partitions = totalChanges family.partitions + 1) :
    QueueInvariant count
      (({ family with partitions } : ResolvedPartitionFamily F).noteTopologyChange nowMs) where
  kind := h.kind
  routing := h.routing
  memberships := h.memberships
  min_eq := h.min_eq
  max_eq := h.max_eq
  numbered := ⟨hnumbered.nonempty, hnumbered.ids, hnumbered.slots, hnumbered.id_le,
    hnumbered.slot_le⟩
  notClosed := hclosed
  min_le := hmin
  le_max := hmax
  draining_le := hdraining
  draining_zero := hzero
  partitionCount := by
    have hreadable := readable_eq hclosed
    have hlt : partitions.countP isReadable ≤ maxU16 := by
      unfold maxU16
      by_cases hlarge : 256 ≤ count
      · have := hzero hlarge
        omega
      · omega
    exact min_eq_left hlt
  epoch := by
    change min (family.config.familyEpoch + 1) (2 ^ 64 - 1) + count = totalChanges partitions
    have hlt := h.epoch_lt
    have hepoch := h.epoch
    rw [min_eq_left (by omega)]
    omega

/-- **One change keeps the invariant.** -/
theorem QueueInvariant.step {nowMs : ℤ} {next : ResolvedPartitionFamily F}
    {change : Option PartitionTopologyChange}
    (hstep : QueueStep family nowMs next change) : QueueInvariant count next := by
  have hopenMin := h.min_le
  have hopenMax := h.le_max
  have hdraining := h.draining_le
  unfold openCount at hopenMin hopenMax
  have hnotClosed {before after : List PartitionInfo} {partition : PartitionInfo}
      (hpartitions : family.partitions = before ++ partition :: after) {state : PartitionState}
      (hstate : state ≠ .writeClosed) :
      ∀ other ∈ before ++ { partition with state } :: after, other.state ≠ .writeClosed := by
    intro other hother
    have hold := h.notClosed other
    rw [hpartitions] at hold
    simp only [mem_append, mem_cons] at hother hold
    rcases hother with hother | rfl | hother
    · exact hold (.inl hother)
    · exact hstate
    · exact hold (.inr (.inr hother))
  cases hstep with
  | keep => exact h
  | @retire before after partition hpartitions hstate =>
    obtain ⟨hopen, hdrain, htotal⟩ := counts_replace hpartitions .retired
    rw [hstate] at hopen hdrain htotal
    change _ + 0 = _ + 0 at hopen
    change _ + 1 = _ + 0 at hdrain
    change _ + 2 = _ + 3 at htotal
    have hzero := h.draining_zero
    exact h.note hcount nowMs (h.numbered.replace hpartitions .retired _ rfl)
      (hnotClosed hpartitions (by decide)) (by omega) (by omega) (by omega) (by omega) (by omega)
  | @add partitionId placementSlot partitions hid hslot hopen hperm =>
    rw [h.max_eq, openPartitionCount, saturateU16] at hopen
    unfold openCount maxU16 at hopen
    have hsmall : count < 256 := by omega
    have hcountP (p : PartitionInfo → Bool) := hperm.countP_eq p
    simp only [countP_append, countP_singleton] at hcountP
    have hw := hcountP isWritable
    have hd := hcountP isDraining
    rw [if_pos (show isWritable
      (.newOpen partitionId placementSlot 0 none) = true from rfl)] at hw
    rw [if_neg (show ¬ isDraining
      (.newOpen partitionId placementSlot 0 none) = true from nofun)] at hd
    have htotal : totalChanges partitions = totalChanges family.partitions + 1 := by
      unfold totalChanges
      rw [(hperm.map _).sum_eq, map_append, sum_append]
      rfl
    refine h.note hcount nowMs (h.numbered.add hid hslot _ hperm) ?_ (by omega) (by omega)
      (by omega) (by omega) htotal
    intro other hother
    rcases mem_append.1 (hperm.mem_iff.1 hother) with hother | hother
    · exact h.notClosed other hother
    · obtain rfl := mem_singleton.1 hother
      exact nofun
  | @drain before after partition hpartitions hstate hnone hmin =>
    rw [h.min_eq, openPartitionCount, saturateU16] at hmin
    unfold openCount at hmin
    obtain ⟨hopen, hdrain, htotal⟩ := counts_replace hpartitions .draining
    rw [hstate] at hopen hdrain htotal
    change _ + 1 = _ + 0 at hopen
    change _ + 0 = _ + 1 at hdrain
    change _ + 1 = _ + 2 at htotal
    exact h.note hcount nowMs (h.numbered.replace hpartitions .draining _ rfl)
      (hnotClosed hpartitions (by decide)) (by omega) (by omega) (by omega) (by omega) (by omega)

include hpos

/-- **The invariant makes a queue valid.** -/
theorem QueueInvariant.validate : family.validate = .ok () := by
  refine validate_eq_ok.2 ⟨⟨?_, h.numbered.nonempty, h.numbered.ids, h.numbered.slots,
    hpos.trans_le h.min_le, ?_, ?_, h.readable_lt hcount, h.partitionCount⟩, ?_, ?_⟩
  · rw [h.routing, h.kind]
    rfl
  · rw [h.min_eq]
    exact h.min_le
  · rw [h.max_eq]
    exact h.le_max
  · have hclosed : family.partitions.any
        (fun partition => decide (partition.state = .writeClosed)) = false := by
      rw [any_eq_false]
      intro partition hmem
      simpa using h.notClosed partition hmem
    rw [validateKind, h.kind]
    change validateQueue family = _
    rw [validateQueue, h.memberships, hclosed]
    rfl
  · rw [h.memberships]
    exact fun _ hmem => by cases hmem

end Step

variable [FloatOps F]

theorem QueueInvariant.new (hpos : 0 < count) (hcount : count < 2 ^ 16) :
    QueueInvariant count (ResolvedPartitionFamily.new .standardQueue count :
      ResolvedPartitionFamily F) := by
  have hsound := new_sound (F := F) .standardQueue hpos hcount
  have hopen : ∀ partition ∈ (ResolvedPartitionFamily.new .standardQueue count :
      ResolvedPartitionFamily F).partitions, partition.state = .open :=
    new_isWritable .standardQueue
  have hmem (partition : PartitionInfo) (hmem : partition ∈
      (ResolvedPartitionFamily.new .standardQueue count : ResolvedPartitionFamily F).partitions) :
      ∃ k < count, partition = initialPartition count k := by
    obtain ⟨k, hk, rfl⟩ := mem_map.1 hmem
    exact ⟨k, mem_range.1 hk, rfl⟩
  have hdraining : (ResolvedPartitionFamily.new .standardQueue count :
      ResolvedPartitionFamily F).partitions.countP isDraining = 0 := by
    rw [countP_eq_zero]
    intro partition hpartition
    rw [isDraining, hopen partition hpartition]
    decide
  refine ⟨rfl, rfl, rfl, rfl, rfl, ⟨hsound.nonempty, hsound.ids, hsound.slots, ?_, ?_⟩, ?_,
    hsound.min_le, hsound.le_max, hdraining.le.trans (by decide), fun _ => hdraining, hsound.count,
    ?_⟩
  · intro partition hpartition
    obtain ⟨k, hk, rfl⟩ := hmem partition hpartition
    exact Nat.le_sub_one_of_lt (hk.trans hcount)
  · intro partition hpartition
    obtain ⟨k, hk, rfl⟩ := hmem partition hpartition
    exact Nat.le_sub_one_of_lt (hk.trans hcount)
  · intro partition hpartition
    rw [hopen partition hpartition]
    decide
  · change 0 + count = totalChanges ((range count).map (initialPartition count))
    rw [totalChanges, map_map]
    have hone : (fun partition : PartitionInfo => partition.state.changes) ∘ initialPartition count
        = fun _ => 1 := rfl
    rw [hone]
    simp

/-! ### Reconciliation -/

omit [FloatOps F] in
theorem QueueInvariant.withController (h : QueueInvariant count family)
    (controller : PiControllerState F) : QueueInvariant count (family.withController controller) :=
  ⟨h.kind, h.routing, h.memberships, h.min_eq, h.max_eq, ⟨h.numbered.nonempty, h.numbered.ids,
    h.numbered.slots, h.numbered.id_le, h.numbered.slot_le⟩, h.notClosed, h.min_le, h.le_max,
    h.draining_le, h.draining_zero, h.partitionCount, h.epoch⟩

variable {next : ResolvedPartitionFamily F} {change : Option PartitionTopologyChange}

/-- A reconciliation succeeds when its change does and the checks pass. -/
theorem reconcile_of_topology {observations : Observations} {nowMs : ℤ}
    (hvalid : family.validate = .ok ())
    (htopology : family.reconcileTopology observations nowMs = .ok (next, change))
    (hnext : next.validate = .ok ()) :
    ∃ r, family.reconcile observations nowMs = .ok r ∧ r.family = next ∧
      r.topologyChange = change := by
  unfold reconcile
  rw [hvalid, htopology]
  refine ⟨_, Except.bind_eq_ok.2 ⟨(), rfl, Except.bind_eq_ok.2 ⟨_, rfl,
    Except.bind_eq_ok.2 ⟨(), hnext, rfl⟩⟩⟩, rfl, rfl⟩

/-- **A reconciliation of a queue** takes one step, or the numbers are used up. -/
theorem QueueInvariant.reconcile_cases (h : QueueInvariant count family) (hpos : 0 < count)
    (hcount : count < 2 ^ 16) (observations : Observations) (nowMs : ℤ) :
    (∃ r controller, family.reconcile observations nowMs = .ok r ∧
        QueueStep (family.withController controller) nowMs r.family r.topologyChange ∧
        QueueInvariant count r.family) ∨
      ∃ error, family.reconcile observations nowMs = .error error ∧ Exhausted family error := by
  have hcontrolled := h.withController
    (family.config.controller.update (family.hottestPressure observations))
  have htopology : family.reconcileTopology observations nowMs = reconcileQueue
      (family.withController
        (family.config.controller.update (family.hottestPressure observations)))
      observations (family.hottestPressure observations) nowMs := by
    unfold reconcileTopology
    dsimp only
    rw [hcontrolled.kind]
  rcases reconcileQueue_cases observations (family.hottestPressure observations) nowMs
    hcontrolled.numbered with ⟨next, change, hnext, hstep⟩ | ⟨error, herror, hexhausted⟩
  · have hinvariant := hcontrolled.step hcount hstep
    obtain ⟨r, hr, rfl, rfl⟩ := reconcile_of_topology (h.validate hpos hcount)
      (htopology.trans hnext) (hinvariant.validate hpos hcount)
    exact .inl ⟨r, _, hr, hstep, hinvariant⟩
  · refine .inr ⟨error, ?_, hexhausted⟩
    simp [reconcile, h.validate hpos hcount, htopology, herror, bind, Except.bind]

/-! ### Runs -/

/-- A later family still has all partitions, none of which has become open again, and the
partitions that were added have numbers above all the old ones. -/
structure Extends (family next : ResolvedPartitionFamily F) : Prop where
  kept : ∀ partition ∈ family.partitions, ∃ same ∈ next.partitions,
    same.partitionId = partition.partitionId ∧ same.placementSlot = partition.placementSlot ∧
      (partition.state ≠ .open → same.state ≠ .open)
  added : ∀ partition ∈ next.partitions,
    (∃ same ∈ family.partitions, same.partitionId = partition.partitionId ∧
      same.placementSlot = partition.placementSlot) ∨
    ∀ old ∈ family.partitions, old.partitionId < partition.partitionId ∧
      old.placementSlot < partition.placementSlot

omit [FloatOps F] in
theorem Extends.refl (family : ResolvedPartitionFamily F) : Extends family family where
  kept := fun partition hmem => ⟨partition, hmem, rfl, rfl, id⟩
  added := fun partition hmem => .inl ⟨partition, hmem, rfl, rfl⟩

omit [FloatOps F] in
theorem Extends.trans {middle : ResolvedPartitionFamily F} (h : Extends family middle)
    (h' : Extends middle next) : Extends family next where
  kept := by
    intro partition hmem
    obtain ⟨same, hsame, hid, hslot, hopen⟩ := h.kept partition hmem
    obtain ⟨last, hlast, hid', hslot', hopen'⟩ := h'.kept same hsame
    exact ⟨last, hlast, hid'.trans hid, hslot'.trans hslot, fun hne => hopen' (hopen hne)⟩
  added := by
    intro partition hmem
    rcases h'.added partition hmem with ⟨same, hsame, hid, hslot⟩ | habove
    · rw [← hid, ← hslot]
      exact h.added same hsame
    · refine .inr fun old hold => ?_
      obtain ⟨same, hsame, hid, hslot, -⟩ := h.kept old hold
      rw [← hid, ← hslot]
      exact habove same hsame

omit [FloatOps F] in
/-- A partition that changes its state, but is not opened. -/
theorem Extends.replace (hpartitions : family.partitions = before ++ partition :: after)
    (state : PartitionState) (hstate : state ≠ .open) (next : ResolvedPartitionFamily F)
    (hnext : next.partitions = before ++ { partition with state } :: after) :
    Extends family next where
  kept := by
    intro other hother
    rw [hpartitions] at hother
    rw [hnext]
    simp only [mem_append, mem_cons] at hother
    rcases hother with hother | rfl | hother
    · exact ⟨other, by simp [hother], rfl, rfl, id⟩
    · exact ⟨{ other with state }, by simp, rfl, rfl, fun _ => hstate⟩
    · exact ⟨other, by simp [hother], rfl, rfl, id⟩
  added := by
    intro other hother
    rw [hnext] at hother
    rw [hpartitions]
    simp only [mem_append, mem_cons] at hother
    rcases hother with hother | rfl | hother
    · exact .inl ⟨other, by simp [hother], rfl, rfl⟩
    · exact .inl ⟨partition, by simp, rfl, rfl⟩
    · exact .inl ⟨other, by simp [hother], rfl, rfl⟩

omit [FloatOps F] in
theorem QueueStep.extends {nowMs : ℤ} (h : QueueStep family nowMs next change) :
    Extends family next := by
  cases h with
  | keep => exact .refl family
  | retire hpartitions hstate => exact .replace hpartitions .retired nofun _ rfl
  | drain hpartitions hstate hnone hopen =>
    exact .replace hpartitions .draining nofun _ rfl
  | @add partitionId placementSlot partitions hid hslot hopen hperm =>
    obtain ⟨-, hidGt⟩ := nextNumber_eq_ok hid
    obtain ⟨-, hslotGt⟩ := nextNumber_eq_ok hslot
    refine ⟨fun partition hmem => ⟨partition, hperm.mem_iff.2 (mem_append_left _ hmem), rfl,
      rfl, id⟩, fun partition hmem => ?_⟩
    rcases mem_append.1 (hperm.mem_iff.1 hmem) with hmem | hmem
    · exact .inl ⟨partition, hmem, rfl, rfl⟩
    · obtain rfl := mem_singleton.1 hmem
      exact .inr fun old hold => ⟨hidGt _ (mem_map_of_mem hold), hslotGt _ (mem_map_of_mem hold)⟩

omit [FloatOps F] in
/-- The epoch moves exactly with the topology. -/
theorem QueueStep.epoch {nowMs : ℤ} (h : QueueStep family nowMs next change)
    (hlt : family.config.familyEpoch + 1 < 2 ^ 64) :
    (change = none ∧ next.config.familyEpoch = family.config.familyEpoch ∧
        next.partitions = family.partitions) ∨
      change ≠ none ∧ next.config.familyEpoch = family.config.familyEpoch + 1 ∧
        next.partitions ≠ family.partitions := by
  have hepoch : min (family.config.familyEpoch + 1) (2 ^ 64 - 1)
      = family.config.familyEpoch + 1 := min_eq_left (by omega)
  have hne {before after : List PartitionInfo} {partition : PartitionInfo}
      (hpartitions : family.partitions = before ++ partition :: after) {state : PartitionState}
      (hstate : state ≠ partition.state) :
      before ++ { partition with state } :: after ≠ family.partitions := by
    intro heq
    rw [hpartitions] at heq
    have hcons := append_cancel_left heq
    exact hstate (congrArg PartitionInfo.state (cons.inj hcons).1)
  cases h with
  | keep => exact .inl ⟨rfl, rfl, rfl⟩
  | retire hpartitions hstate | drain hpartitions hstate =>
    exact .inr ⟨nofun, hepoch, hne hpartitions (by rw [hstate]; decide)⟩
  | @add partitionId placementSlot partitions hid hslot hopen hperm =>
    refine .inr ⟨nofun, hepoch, fun heq => ?_⟩
    change partitions = family.partitions at heq
    have hlength := hperm.length_eq
    rw [heq, length_append, length_singleton] at hlength
    omega

namespace ResolvedPartitionFamily

/-- One call: a family that cannot be reconciled stays as it is stored. -/
def reconcileOrKeep (family : ResolvedPartitionFamily F) (call : Observations × ℤ) :
    ResolvedPartitionFamily F :=
  match family.reconcile call.1 call.2 with
  | .ok r => r.family
  | .error _ => family

/-- Calls one after the other. -/
def runQueue (family : ResolvedPartitionFamily F) (calls : List (Observations × ℤ)) :
    ResolvedPartitionFamily F :=
  calls.foldl reconcileOrKeep family

/-- A run keeps the invariant, and only extends the family. -/
theorem runQueue_invariant (h : QueueInvariant count family) (hpos : 0 < count)
    (hcount : count < 2 ^ 16) (calls : List (Observations × ℤ)) :
    QueueInvariant count (family.runQueue calls) ∧ Extends family (family.runQueue calls) := by
  induction calls generalizing family with
  | nil => exact ⟨h, .refl family⟩
  | cons call rest ih =>
    rw [runQueue, foldl_cons, ← runQueue]
    have hone : QueueInvariant count (family.reconcileOrKeep call) ∧
        Extends family (family.reconcileOrKeep call) := by
      unfold reconcileOrKeep
      rcases h.reconcile_cases hpos hcount call.1 call.2 with
        ⟨r, controller, hr, hstep, hinvariant⟩ | ⟨error, herror, -⟩
      · rw [hr]
        exact ⟨hinvariant, ⟨hstep.extends.kept, hstep.extends.added⟩⟩
      · rw [herror]
        exact ⟨h, .refl family⟩
    obtain ⟨hinvariant, hextends⟩ := ih hone.1
    exact ⟨hinvariant, hone.2.trans hextends⟩

/-- **Queues scale safely**: after any calls the number of open partitions is positive and within
the configured limits, the identities and slots are distinct, all later families only extend this
one, and the next call either fails because the numbers are used up, or succeeds and moves the
epoch exactly when it changes the topology. -/
theorem runQueue_safe (hpos : 0 < count) (hcount : count < 2 ^ 16)
    (calls later : List (Observations × ℤ))
    (hfamily : (new .standardQueue count : ResolvedPartitionFamily F).runQueue calls = family) :
    0 < family.openCount ∧ family.config.minOpenPartitions ≤ family.openCount ∧
    family.openCount ≤ family.config.maxOpenPartitions ∧
    (family.partitions.map (·.partitionId)).Nodup ∧
    (family.partitions.map (·.placementSlot)).Nodup ∧
    Extends family (family.runQueue later) ∧
    ∀ observations nowMs,
      (∃ r, family.reconcile observations nowMs = .ok r ∧
        (family.config.familyEpoch < r.family.config.familyEpoch ↔
          r.family.partitions ≠ family.partitions) ∧
        (r.topologyChange.isSome ↔ r.family.partitions ≠ family.partitions) ∧
        family.config.familyEpoch ≤ r.family.config.familyEpoch) ∨
      ∃ error, family.reconcile observations nowMs = .error error ∧ Exhausted family error := by
  obtain ⟨h, -⟩ := runQueue_invariant (QueueInvariant.new (F := F) hpos hcount) hpos hcount calls
  rw [hfamily] at h
  refine ⟨hpos.trans_le h.min_le, ?_, ?_, h.numbered.ids, h.numbered.slots,
    (runQueue_invariant h hpos hcount later).2, fun observations nowMs => ?_⟩
  · rw [h.min_eq]
    exact h.min_le
  · rw [h.max_eq]
    exact h.le_max
  · rcases h.reconcile_cases hpos hcount observations nowMs with
      ⟨r, controller, hr, hstep, -⟩ | ⟨error, herror, hexhausted⟩
    · refine .inl ⟨r, hr, ?_⟩
      rcases hstep.epoch h.epoch_lt with ⟨hnone, hepoch, hsame⟩ | ⟨hsome, hepoch, hne⟩
      · change r.family.config.familyEpoch = family.config.familyEpoch at hepoch
        change r.family.partitions = family.partitions at hsame
        rw [hnone, hepoch, hsame]
        simp
      · change r.family.config.familyEpoch = family.config.familyEpoch + 1 at hepoch
        change r.family.partitions ≠ family.partitions at hne
        rw [hepoch]
        simp [Option.isSome_iff_ne_none, hsome, hne]
    · exact .inr ⟨error, herror, hexhausted⟩

end ResolvedPartitionFamily

end Invariant

/-- A thousand writes to the first partition at three times. -/
def busyCalls : List (Observations × ℤ) :=
  let busy : Observations := fun partitionId =>
    if partitionId = 0 then some ⟨0, ⟨1000, 0, 0, 0, 0, 0⟩, false⟩ else none
  [(busy, 0), (busy, 1000), (busy, 2000)]

/-- The third of the calls opens a second partition. -/
theorem busyCalls_runQueue :
    ((new .standardQueue 1 : ResolvedPartitionFamily ℚ).runQueue busyCalls).openCount = 2 ∧
      (((new .standardQueue 1 : ResolvedPartitionFamily ℚ).runQueue busyCalls).partitions.map
        (·.placementSlot)).Nodup :=
  ⟨by decide +kernel, (runQueue_safe (by decide) (by decide) busyCalls [] rfl).2.2.2.2.1⟩

end AuxStorage.Partition
