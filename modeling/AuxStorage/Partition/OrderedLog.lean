import AuxStorage.Partition.Reconcile

/-!
# Partitions: Ordered Logs Stay Well Formed

The family of an ordered log is validated after every reconciliation, so what has to be shown is
what validation means: the writable ranges tile the hash space, and the write-closed partitions
are those that were split. A split then moves exactly the hashes of its parent, since every other
owner is still there and no hash has two.
-/

namespace AuxStorage.Partition

open List

namespace ResolvedPartitionFamily

variable {F : Type} {family : ResolvedPartitionFamily F}

variable {partition : PartitionInfo}

theorem mem_writable : partition ∈ family.writable ↔
    partition ∈ family.partitions ∧ partition.isWritable = true := by
  rw [writable, (perm_insertionSort _ _).mem_iff, mem_filter]

variable {owner : PartitionInfo}

/-! ### Memberships -/

theorem partitionById_eq_ok {partitionId : ℕ} (h : family.partitionById partitionId = .ok partition) :
    partition ∈ family.partitions ∧ partition.partitionId = partitionId := by
  unfold partitionById at h
  split at h
  · rename_i found hfound
    cases h
    exact ⟨mem_of_find?_eq_some hfound, by simpa using find?_some hfound⟩
  · cases h

theorem validateMembership_parent {membership : PartitionParentChildren}
    (h : family.validateMembership membership = .ok ()) :
    ∃ parent ∈ family.partitions, parent.partitionId = membership.parentPartitionId ∧
      parent.state = .writeClosed := by
  unfold validateMembership at h
  obtain ⟨⟨⟩, -, h⟩ := Except.bind_eq_ok.1 h
  obtain ⟨parent, hparent, h⟩ := Except.bind_eq_ok.1 h
  obtain ⟨left, -, h⟩ := Except.bind_eq_ok.1 h
  obtain ⟨right, -, h⟩ := Except.bind_eq_ok.1 h
  obtain ⟨hmem, hid⟩ := partitionById_eq_ok hparent
  simp only [refuse_eq_ok, Bool.or_eq_false_iff, decide_eq_false_iff_not, not_not] at h
  exact ⟨parent, hmem, hid, h.1.1.1.1.1⟩

section Valid

variable (h : family.validate = .ok ()) (hkind : family.config.familyKind = .orderedLog)

include h hkind

theorem validate_orderedLog :
    family.validateOrderedLogMemberships = .ok () ∧ family.validateOrderedLogRanges = .ok () := by
  obtain ⟨-, hvalid, -⟩ := validate_eq_ok.1 h
  rw [validateKind, hkind] at hvalid
  obtain ⟨⟨⟩, hmemberships, hranges⟩ := Except.bind_eq_ok.1 hvalid
  exact ⟨hmemberships, hranges⟩

/-- **Every hash lies in exactly one writable range.** -/
theorem existsUnique_owner (hash : ℕ) :
    ∃! partition, partition ∈ family.partitions ∧ partition.isWritable = true ∧
      partition.containsHash hash = true := by
  have hranges := validateOrderedLogRanges_eq_ok.1 (validate_orderedLog h hkind).2
  obtain ⟨owner, hmem, howns⟩ := hranges.exists_owner (Nat.zero_le hash)
  obtain ⟨hpartitions, hwritable⟩ := mem_writable.1 hmem
  refine ⟨owner, ⟨hpartitions, hwritable, PartitionInfo.containsHash_eq_true.2 howns⟩, ?_⟩
  rintro other ⟨hother, hotherWritable, hcontains⟩
  exact hranges.owner_unique (mem_writable.2 ⟨hother, hotherWritable⟩) hmem
    (PartitionInfo.containsHash_eq_true.1 hcontains) howns

theorem routeOrderedLog_eq_some {hash : ℕ} :
    family.routeOrderedLog hash = some owner ↔
      owner ∈ family.partitions ∧ owner.isWritable = true ∧ owner.containsHash hash = true := by
  constructor
  · intro hroute
    have hfound := find?_some hroute
    rw [Bool.and_eq_true] at hfound
    exact ⟨mem_of_find?_eq_some hroute, hfound⟩
  · rintro ⟨hmem, hwritable, hcontains⟩
    cases hroute : family.routeOrderedLog hash with
    | none =>
      have hnone := find?_eq_none.1 hroute owner hmem
      simp [hwritable, hcontains] at hnone
    | some other =>
      have hfound := find?_some hroute
      rw [Bool.and_eq_true] at hfound
      rw [(existsUnique_owner h hkind hash).unique
        ⟨mem_of_find?_eq_some hroute, hfound⟩ ⟨hmem, hwritable, hcontains⟩]

/-- **A write-closed partition is the parent of exactly one membership.** The parents are
write-closed and distinct, and there are as many memberships as write-closed partitions. -/
theorem existsUnique_membership (hmem : partition ∈ family.partitions)
    (hclosed : partition.state = .writeClosed) :
    ∃! membership, membership ∈ family.memberships ∧
      membership.parentPartitionId = partition.partitionId := by
  have hmemberships := (validate_orderedLog h hkind).1
  unfold validateOrderedLogMemberships at hmemberships
  obtain ⟨⟨⟩, -, hmemberships⟩ := Except.bind_eq_ok.1 hmemberships
  obtain ⟨⟨⟩, hparents, hmemberships⟩ := Except.bind_eq_ok.1 hmemberships
  obtain ⟨⟨⟩, hvalid, hmemberships⟩ := Except.bind_eq_ok.1 hmemberships
  obtain ⟨⟨⟩, -, hcount⟩ := Except.bind_eq_ok.1 hmemberships
  rw [refuse_eq_ok, hasDuplicates_eq_false] at hparents
  rw [refuse_eq_ok, decide_eq_false_iff_not, not_not] at hcount
  have hvalid := Except.forM_eq_ok.1 hvalid
  let closed := (family.partitions.filter fun partition => partition.state = .writeClosed).map
    (·.partitionId)
  have hsub : family.memberships.map (·.parentPartitionId) ⊆ closed := by
    intro parentId hparent
    obtain ⟨membership, hmembership, rfl⟩ := mem_map.1 hparent
    obtain ⟨parent, hparentMem, hid, hstate⟩ :=
      validateMembership_parent (hvalid membership hmembership)
    exact mem_map.2 ⟨parent, mem_filter.2 ⟨hparentMem, by simpa using hstate⟩, hid⟩
  have hlength : closed.length ≤ (family.memberships.map (·.parentPartitionId)).length := by
    rw [length_map, length_map, ← countP_eq_length_filter, hcount]
  have hperm := (hparents.subperm hsub).perm_of_length_le hlength
  have hparent : partition.partitionId ∈ family.memberships.map (·.parentPartitionId) :=
    hperm.mem_iff.2 (mem_map.2
      ⟨partition, mem_filter.2 ⟨hmem, by simpa using hclosed⟩, rfl⟩)
  obtain ⟨membership, hmembership, hid⟩ := mem_map.1 hparent
  refine ⟨membership, ⟨hmembership, hid⟩, ?_⟩
  rintro other ⟨hother, hotherId⟩
  exact inj_on_of_nodup_map hparents hother hmembership (hotherId.trans hid.symm)

end Valid

/-! ### Splits -/

/-- **A split moves only the hashes of its parent**, to one of the two children. -/
theorem owner_of_split {next : ResolvedPartitionFamily F} {change : PartitionTopologyChange}
    {parent left right : PartitionInfo} (hsplit : IsSplit family next change parent left right)
    (hnext : next.validate = .ok ()) (hkind : next.config.familyKind = .orderedLog) {hash : ℕ}
    {owner' : PartitionInfo} (hmem : owner ∈ family.partitions)
    (hwritable : owner.isWritable = true) (hcontains : owner.containsHash hash = true)
    (hroute : next.routeOrderedLog hash = some owner') :
    owner' = owner ∨ owner = parent ∧ (owner' = left ∨ owner' = right) := by
  obtain ⟨before, after, hpartitions, hperm⟩ := hsplit.perm
  have howner (candidate : PartitionInfo) (hcandidate : candidate ∈ next.partitions)
      (hopen : candidate.isWritable = true) (hin : candidate.containsHash hash = true) :
      owner' = candidate :=
    (existsUnique_owner hnext hkind hash).unique
      ((routeOrderedLog_eq_some hnext hkind).1 hroute) ⟨hcandidate, hopen, hin⟩
  by_cases hparent : owner = parent
  · right
    subst hparent
    refine ⟨rfl, ?_⟩
    have hleft : left ∈ next.partitions := hperm.mem_iff.2 (by simp)
    have hright : right ∈ next.partitions := hperm.mem_iff.2 (by simp)
    have hlopen : left.isWritable = true := by
      rw [PartitionInfo.isWritable, hsplit.left_open]
      rfl
    have hropen : right.isWritable = true := by
      rw [PartitionInfo.isWritable, hsplit.right_open]
      rfl
    obtain ⟨hstart, hstop⟩ := PartitionInfo.containsHash_eq_true.1 hcontains
    by_cases hlt : hash < right.hashStartInclusive
    · refine .inl (howner left hleft hlopen (PartitionInfo.containsHash_eq_true.2 ⟨?_, ?_⟩))
      · rw [hsplit.left_start]
        exact hstart
      · rw [hsplit.left_end]
        rintro stop hstop
        cases hstop
        exact hlt
    · refine .inr (howner right hright hropen (PartitionInfo.containsHash_eq_true.2 ⟨?_, ?_⟩))
      · exact not_lt.1 hlt
      · rw [hsplit.right_end]
        exact hstop
  · left
    have hother : owner ∈ before ++ after := by
      rw [hpartitions] at hmem
      simp only [mem_append, mem_cons] at hmem ⊢
      tauto
    refine howner owner (hperm.mem_iff.2 ?_) hwritable hcontains
    simp only [mem_append, mem_cons] at hother ⊢
    tauto

section Reachable

variable [FloatOps F]

/-- A reconciliation of an ordered log. -/
theorem reconcile_orderedLog {observations : Observations} {nowMs : ℤ}
    {r : PartitionFamilyReconciliation F} (h : family.reconcile observations nowMs = .ok r)
    (hkind : family.config.familyKind = .orderedLog) :
    r.family.config.familyKind = .orderedLog ∧
      ((r.family.partitions = family.partitions ∧ r.topologyChange = none) ∨
        ∃ change parent left right, r.topologyChange = some change ∧ IsSplit (family.withController
            (family.config.controller.update (family.hottestPressure observations))) r.family
            change parent left right) := by
  obtain ⟨-, htopology, -, -⟩ := reconcile_eq_ok h
  unfold reconcileTopology at htopology
  dsimp only at htopology
  rw [show (family.withController (family.config.controller.update
    (family.hottestPressure observations))).config.familyKind = .orderedLog from hkind] at htopology
  rcases reconcileOrderedLog_cases htopology with ⟨hnext, hchange⟩ | ⟨change, parent, left, right,
    hchange, hsplit⟩
  · rw [hnext]
    exact ⟨hkind, .inl ⟨rfl, hchange⟩⟩
  · exact ⟨hsplit.kind.trans hkind, .inr ⟨change, parent, left, right, hchange, hsplit⟩⟩

/-- Reconciliations one after the other, each with its observations and its time. -/
def reconcileAll (family : ResolvedPartitionFamily F) :
    List (Observations × ℤ) → Except StorageError (ResolvedPartitionFamily F)
  | [] => .ok family
  | call :: rest => do
      let r ← family.reconcile call.1 call.2
      r.family.reconcileAll rest

theorem reconcileAll_valid {last : ResolvedPartitionFamily F} {calls : List (Observations × ℤ)}
    (hvalid : family.validate = .ok ()) (hkind : family.config.familyKind = .orderedLog)
    (h : family.reconcileAll calls = .ok last) :
    last.validate = .ok () ∧ last.config.familyKind = .orderedLog := by
  induction calls generalizing family with
  | nil =>
    cases h
    exact ⟨hvalid, hkind⟩
  | cons call rest ih =>
    obtain ⟨r, hr, hrest⟩ := Except.bind_eq_ok.1 h
    exact ih (reconcile_eq_ok hr).2.2.1 (reconcile_orderedLog hr hkind).1 hrest

/-- **Every reachable family of an ordered log is well formed**: it is valid, every hash has
exactly one writable owner, a reconciliation changes the owner only of hashes of the partition
that it splits, and every write-closed partition is the parent of exactly one membership. -/
theorem reconcileAll_orderedLog {count : ℕ} (hpos : 0 < count) (hcount : count < 2 ^ 16)
    (calls : List (Observations × ℤ))
    (h : (new .orderedLog count : ResolvedPartitionFamily F).reconcileAll calls = .ok family) :
    family.validate = .ok () ∧
    (∀ hash, ∃! partition, partition ∈ family.partitions ∧ partition.isWritable = true ∧
      partition.containsHash hash = true) ∧
    (∀ observations nowMs r, family.reconcile observations nowMs = .ok r →
      ∀ hash owner owner', family.routeOrderedLog hash = some owner →
        r.family.routeOrderedLog hash = some owner' → owner' ≠ owner →
          ∃ left right, r.topologyChange = some (.splitOrderedLog owner.partitionId left right) ∧
            (owner'.partitionId = left ∨ owner'.partitionId = right)) ∧
    ∀ partition ∈ family.partitions, partition.state = .writeClosed →
      ∃! membership, membership ∈ family.memberships ∧
        membership.parentPartitionId = partition.partitionId := by
  obtain ⟨hvalid, hkind⟩ := reconcileAll_valid (new_validate .orderedLog hpos hcount) rfl h
  refine ⟨hvalid, existsUnique_owner hvalid hkind, ?_, fun partition hmem hclosed =>
    existsUnique_membership hvalid hkind hmem hclosed⟩
  intro observations nowMs r hr hash owner owner' howner howner' hne
  obtain ⟨hmem, hwritable, hcontains⟩ := (routeOrderedLog_eq_some hvalid hkind).1 howner
  obtain ⟨hkind', ⟨hsame, -⟩ | ⟨change, parent, left, right, hchange, hsplit⟩⟩ :=
    reconcile_orderedLog hr hkind
  · rw [routeOrderedLog, hsame] at howner'
    exact absurd (Option.some.inj (howner'.symm.trans howner)) hne
  · have hnext := (reconcile_eq_ok hr).2.2.1
    rcases owner_of_split hsplit hnext hkind' hmem hwritable hcontains howner' with
      heq | ⟨rfl, hchild⟩
    · exact absurd heq hne
    · refine ⟨left.partitionId, right.partitionId, by rw [hchange, hsplit.change_eq], ?_⟩
      rcases hchild with rfl | rfl
      · exact .inl rfl
      · exact .inr rfl

end Reachable

/-- A thousand writes to the first partition, from two buckets of keys, at three times. -/
def hotCalls : List (Observations × ℤ) :=
  let hot : Observations := fun partitionId =>
    if partitionId = 0 then some ⟨0, ⟨1000, 0, 0, 3, 0, 0⟩, false⟩ else none
  [(hot, 0), (hot, 1000), (hot, 2000)]

/-- The third of the calls splits the only partition. -/
theorem hotCalls_orderedLog : ∃ family : ResolvedPartitionFamily ℚ,
    (new .orderedLog 1).reconcileAll hotCalls = .ok family ∧ family.partitions.length = 3 ∧
      ∀ hash, ∃! partition, partition ∈ family.partitions ∧ partition.isWritable = true ∧
        partition.containsHash hash = true := by
  have hrun : ((new .orderedLog 1 : ResolvedPartitionFamily ℚ).reconcileAll hotCalls).map
      (fun family => family.partitions.length) = .ok 3 := by decide +kernel
  cases h : (new .orderedLog 1 : ResolvedPartitionFamily ℚ).reconcileAll hotCalls with
  | error =>
    rw [h] at hrun
    cases hrun
  | ok family =>
    rw [h] at hrun
    exact ⟨family, rfl, Except.ok.inj hrun,
      (reconcileAll_orderedLog (by decide) (by decide) hotCalls h).2.1⟩

end ResolvedPartitionFamily

end AuxStorage.Partition
