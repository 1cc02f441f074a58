import AuxStorage.Text
import AuxStorage.Lib.FloatOps
import AuxStorage.Lib.Ranges

/-!
# Partitions: Families and Their Validation

A stream is written to a family of partitions. The writable partitions of an **ordered log** own
the ranges of the routing hash; when one is split it is closed for writes, two children take over
its range, and a membership row keeps the parent with its children. The partitions of a **queue**
own no ranges; they are opened, drained and retired. The whole family is validated before and
after every change of its topology.
-/

namespace AuxStorage.Partition

open List

/-- What a family of partitions is for. -/
inductive PartitionFamilyKind
  | orderedLog
  | standardQueue
  deriving DecidableEq, Repr

/-- How a key finds its partition. -/
inductive PartitionRoutingStrategy
  | hashKeyOrdered
  | standardQueue
  deriving DecidableEq, Repr

/-- The life of a partition. -/
inductive PartitionState
  | open
  | writeClosed
  | draining
  | retired
  deriving DecidableEq, Repr

/-- The error of a family that is not as it should be. -/
inductive StorageError
  | internal (message : Text)
  deriving DecidableEq, Repr

/-- The state of the controller that decides about the number of partitions. -/
structure PiControllerState (F : Type) where
  ewmaPressure : F
  integral : F
  highStreak : ℕ
  lowStreak : ℕ
  deriving DecidableEq, Repr

/-- The settings of a family. -/
structure PartitionFamilyConfig (F : Type) where
  familyKind : PartitionFamilyKind
  routingStrategy : PartitionRoutingStrategy
  partitionCount : ℕ
  autoscaleEnabled : Bool
  minOpenPartitions : ℕ
  maxOpenPartitions : ℕ
  familyEpoch : ℕ
  freeze : Bool
  targetWritesPerSecond : ℕ
  targetBytesPerSecond : ℕ
  targetConflictsPerWindow : ℕ
  targetOldestVisibleAgeMs : ℕ
  cooldownUntilMs : Option ℤ
  controller : PiControllerState F
  deriving DecidableEq, Repr

/-- A partition: where it is placed, which hashes it owns and in which state it is. -/
structure PartitionInfo where
  partitionId : ℕ
  placementSlot : ℕ
  state : PartitionState
  openedAfterId : Option ℕ
  sealedAfterId : Option ℕ
  hashStartInclusive : ℕ
  hashEndExclusive : Option ℕ
  deriving DecidableEq, Repr

/-- A partition that was split, with its children. -/
structure PartitionParentChildren where
  parentPartitionId : ℕ
  leftChildPartitionId : ℕ
  rightChildPartitionId : ℕ
  boundary : Option ℕ
  deriving DecidableEq, Repr

/-- A family with its partitions and the splits that led to them. -/
structure ResolvedPartitionFamily (F : Type) where
  config : PartitionFamilyConfig F
  partitions : List PartitionInfo
  memberships : List PartitionParentChildren
  deriving DecidableEq, Repr

/-! ### The life of a partition -/

namespace PartitionState

/-- Only an open partition is written to. -/
def acceptsWrites (state : PartitionState) : Bool := state = .open

/-- A partition is read until it is retired. -/
def isReadable (state : PartitionState) : Bool := state ≠ .retired

/-- A partition that only empties. -/
def isDraining (state : PartitionState) : Bool := state = .draining

/-- The name of a state in messages. -/
def display : PartitionState → Text
  | .open => text "open"
  | .writeClosed => text "write-closed"
  | .draining => text "draining"
  | .retired => text "retired"

/-- A partition is closed or drained once, and retired after it was drained. -/
def transitionTo (current next : PartitionState) : Except StorageError PartitionState :=
  match current, next with
  | .open, .writeClosed | .open, .draining | .draining, .retired => .ok next
  | _, _ =>
    if current = next then .ok next
    else .error (.internal (text "partition state cannot transition from " ++ current.display
      ++ text " to " ++ next.display))

end PartitionState

namespace PartitionInfo

/-- A new partition is open. -/
def newOpen (partitionId placementSlot hashStart : ℕ) (hashEnd : Option ℕ) : PartitionInfo where
  partitionId := partitionId
  placementSlot := placementSlot
  state := .open
  openedAfterId := none
  sealedAfterId := none
  hashStartInclusive := hashStart
  hashEndExclusive := hashEnd

/-- Whether the partition is written to. -/
def isWritable (partition : PartitionInfo) : Bool := partition.state.acceptsWrites

def isReadable (partition : PartitionInfo) : Bool := partition.state.isReadable

def isDraining (partition : PartitionInfo) : Bool := partition.state.isDraining

/-- A step to another state, which has to be allowed. -/
def transitionTo (partition : PartitionInfo) (next : PartitionState) :
    Except StorageError PartitionInfo := do
  let state ← partition.state.transitionTo next
  .ok { partition with state }

/-- Writes go elsewhere from now on. -/
def markWriteClosed (partition : PartitionInfo) : Except StorageError PartitionInfo :=
  partition.transitionTo .writeClosed

/-- What is left in the partition is read out. -/
def beginDraining (partition : PartitionInfo) : Except StorageError PartitionInfo :=
  partition.transitionTo .draining

/-- An empty partition is given up. -/
def retire (partition : PartitionInfo) : Except StorageError PartitionInfo :=
  partition.transitionTo .retired

/-- The range of a partition contains a hash. -/
def containsHash (partition : PartitionInfo) (hash : ℕ) : Bool :=
  decide (partition.hashStartInclusive ≤ hash)
    && partition.hashEndExclusive.all (fun stop => decide (hash < stop))

/-- The range of a partition contains nothing. -/
def hasEmptyRange (partition : PartitionInfo) : Bool :=
  partition.hashEndExclusive.any (fun stop => decide (stop ≤ partition.hashStartInclusive))

/-- A range that is not empty ends after its start. -/
theorem hasEmptyRange_eq_false {partition : PartitionInfo} : partition.hasEmptyRange = false ↔
    ∀ stop ∈ partition.hashEndExclusive, partition.hashStartInclusive < stop := by
  unfold hasEmptyRange
  cases partition.hashEndExclusive <;> simp

/-- A partition contains the hashes of its range. -/
theorem containsHash_eq_true {partition : PartitionInfo} {hash : ℕ} :
    partition.containsHash hash = true ↔
      Ranges.Owns hashStartInclusive hashEndExclusive partition hash := by
  unfold containsHash Ranges.Owns
  cases partition.hashEndExclusive <;> simp

end PartitionInfo

/-! ### The initial family -/

/-- The number of routing hashes. -/
def hashSpaceSize : ℕ := 2 ^ 64

/-- The share of a partition in the hashes, when all shares are alike. -/
def initialHashRange (partitionId partitionCount : ℕ) : ℕ × Option ℕ :=
  let start := partitionId * hashSpaceSize / partitionCount
  let stop := min (partitionId + 1) 65535 * hashSpaceSize / partitionCount
  (if start < hashSpaceSize then start else 0, if hashSpaceSize ≤ stop then none else some stop)

section

variable {F : Type} [FloatOps F]

/-- The settings of a new family. -/
def PartitionFamilyConfig.new (familyKind : PartitionFamilyKind) (partitionCount : ℕ) :
    PartitionFamilyConfig F where
  familyKind := familyKind
  routingStrategy :=
    match familyKind with
    | .orderedLog => .hashKeyOrdered
    | .standardQueue => .standardQueue
  partitionCount := partitionCount
  autoscaleEnabled := true
  minOpenPartitions := partitionCount
  maxOpenPartitions := max 256 partitionCount
  familyEpoch := 0
  freeze := false
  targetWritesPerSecond := 500
  targetBytesPerSecond := 256 * 1024
  targetConflictsPerWindow := 8
  targetOldestVisibleAgeMs :=
    match familyKind with
    | .orderedLog => 0
    | .standardQueue => 1000
  cooldownUntilMs := none
  controller := ⟨FloatOps.ofNat 0, FloatOps.ofNat 0, 0, 0⟩

/-- The partition of the initial family with an identity. -/
def initialPartition (partitionCount partitionId : ℕ) : PartitionInfo :=
  .newOpen partitionId partitionId (initialHashRange partitionId partitionCount).1
    (initialHashRange partitionId partitionCount).2

/-- A new family, with equal shares. -/
def ResolvedPartitionFamily.new (familyKind : PartitionFamilyKind) (partitionCount : ℕ) :
    ResolvedPartitionFamily F where
  config := .new familyKind partitionCount
  partitions := (List.range partitionCount).map (initialPartition partitionCount)
  memberships := []

end

/-! ### Validation -/

/-- Two neighbours of a sorted list are equal. -/
def hasEqualNeighbours : List ℕ → Bool
  | a :: b :: rest => decide (a = b) || hasEqualNeighbours (b :: rest)
  | _ => false

/-- Whether a list contains a number twice: neighbours are compared after sorting. -/
def hasDuplicates (ids : List ℕ) : Bool :=
  hasEqualNeighbours (ids.insertionSort (· ≤ ·))

/-- The error for a stored family that cannot be. -/
def corruption (message : String) : StorageError := .internal (text message)

/-- Fail when the condition holds. -/
def refuse (condition : Bool) (message : String) : Except StorageError Unit :=
  if condition then .error (corruption message) else .ok ()

/-- The remaining writable ranges, which have to begin where the previous one ended. -/
def requireFollowing : Option ℕ → List PartitionInfo → Except StorageError Unit
  | none, [] => .ok ()
  | some _, [] => .error (corruption "ordered-log writable ranges do not cover the hash tail")
  | previous, partition :: rest => do
      refuse (decide (previous ≠ some partition.hashStartInclusive)
        || partition.hasEmptyRange)
        "ordered-log writable ranges contain a gap or overlap"
      requireFollowing partition.hashEndExclusive rest

namespace ResolvedPartitionFamily

variable {F : Type} (family : ResolvedPartitionFamily F)

/-- The number of partitions that are written to. -/
def openCount : ℕ := family.partitions.countP PartitionInfo.isWritable

/-- The number of partitions that are read. -/
def readableCount : ℕ := family.partitions.countP PartitionInfo.isReadable

/-- The partition of an identifier. -/
def partitionById (partitionId : ℕ) : Except StorageError PartitionInfo :=
  match family.partitions.find? (fun partition => partition.partitionId = partitionId) with
  | some partition => .ok partition
  | none => .error (corruption "partition membership references a missing member")

/-- The partitions that are written to, by their ranges. -/
def writable : List PartitionInfo :=
  (family.partitions.filter PartitionInfo.isWritable).insertionSort
    (fun a b => a.hashStartInclusive ≤ b.hashStartInclusive)

/-- The open ranges follow each other without a gap. -/
def validateOrderedLogRanges : Except StorageError Unit :=
  match family.writable with
  | [] => .error (corruption "ordered-log partition family has no writable members")
  | first :: rest => do
      refuse (decide (first.hashStartInclusive ≠ 0) || first.hasEmptyRange)
        "ordered-log writable ranges do not start at the hash origin"
      requireFollowing first.hashEndExclusive rest

/-- A split is closed for writes, and its children share its range. -/
def validateMembership (membership : PartitionParentChildren) : Except StorageError Unit := do
  refuse (decide (membership.leftChildPartitionId ≤ membership.parentPartitionId)
    || decide (membership.rightChildPartitionId ≤ membership.parentPartitionId)
    || decide (membership.leftChildPartitionId = membership.rightChildPartitionId))
    "ordered-log partition membership has invalid identities"
  let parent ← family.partitionById membership.parentPartitionId
  let left ← family.partitionById membership.leftChildPartitionId
  let right ← family.partitionById membership.rightChildPartitionId
  refuse (decide (parent.state ≠ .writeClosed) || !left.isReadable || !right.isReadable
    || decide (left.hashStartInclusive ≠ parent.hashStartInclusive)
    || decide (left.hashEndExclusive ≠ some right.hashStartInclusive)
    || decide (right.hashEndExclusive ≠ parent.hashEndExclusive))
    "ordered-log parent and child membership is inconsistent"

/-- Every split is in order. -/
def validateOrderedLogMemberships : Except StorageError Unit := do
  refuse (family.partitions.any fun partition =>
      decide (partition.state = .draining) || decide (partition.state = .retired))
    "ordered-log partition family contains a queue-only member state"
  refuse (hasDuplicates (family.memberships.map (·.parentPartitionId)))
    "ordered-log partition family contains duplicate parent memberships"
  family.memberships.forM family.validateMembership
  refuse (hasDuplicates (family.memberships.flatMap fun membership =>
      [membership.leftChildPartitionId, membership.rightChildPartitionId]))
    "ordered-log child belongs to more than one parent"
  refuse (decide (family.partitions.countP (fun partition => partition.state = .writeClosed)
      ≠ family.memberships.length))
    "ordered-log closed members do not match split memberships"

/-- A queue has no splits, and no partition that is only closed for writes. -/
def validateQueue : Except StorageError Unit := do
  refuse (!family.memberships.isEmpty)
    "queue partition family contains ordered-log membership rows"
  refuse (family.partitions.any fun partition => decide (partition.state = .writeClosed))
    "queue partition family contains a write-closed member"

/-- The routing that belongs to a kind. -/
def expectedRouting : PartitionFamilyKind → PartitionRoutingStrategy
  | .orderedLog => .hashKeyOrdered
  | .standardQueue => .standardQueue

/-- The checks of the kind. -/
def validateKind : Except StorageError Unit :=
  match family.config.familyKind with
  | .orderedLog => do
      family.validateOrderedLogMemberships
      family.validateOrderedLogRanges
  | .standardQueue => family.validateQueue

/-- The checks of the partitions. -/
def validateTopology : Except StorageError Unit := do
  refuse (decide (family.config.routingStrategy ≠ expectedRouting family.config.familyKind))
    "partition family routing strategy is inconsistent"
  refuse family.partitions.isEmpty "partition family has no member rows"
  refuse (hasDuplicates (family.partitions.map (·.partitionId)))
    "partition family contains duplicate member ids"
  refuse (hasDuplicates (family.partitions.map (·.placementSlot)))
    "partition family contains duplicate placement slots"
  refuse (decide (family.openCount = 0)
    || decide (family.openCount < family.config.minOpenPartitions)
    || decide (family.config.maxOpenPartitions < family.openCount))
    "partition family open member count is invalid"
  family.validateKind

/-- The number of readable members, which is a 16 bit number. -/
def readablePartitionCount : Except StorageError ℕ :=
  if family.readableCount < 2 ^ 16 then .ok family.readableCount
  else .error (corruption "partition family has too many readable members")

/-- The parent and the children of a split agree on its boundary. -/
def validateBoundary (membership : PartitionParentChildren) : Except StorageError Unit := do
  let parent ← family.partitionById membership.parentPartitionId
  let left ← family.partitionById membership.leftChildPartitionId
  let right ← family.partitionById membership.rightChildPartitionId
  refuse (decide (parent.sealedAfterId ≠ membership.boundary)
    || decide (left.openedAfterId ≠ membership.boundary)
    || decide (right.openedAfterId ≠ membership.boundary))
    "partition split boundaries are inconsistent"

/-- All checks of a stored family. -/
def validate : Except StorageError Unit := do
  family.validateTopology
  let count ← family.readablePartitionCount
  refuse (decide (family.config.partitionCount ≠ count))
    "partition family member count is inconsistent"
  family.memberships.forM family.validateBoundary

/-- The writable partition whose range contains a hash. -/
def routeOrderedLog (hash : ℕ) : Option PartitionInfo :=
  family.partitions.find? (fun partition => partition.isWritable && partition.containsHash hash)

end ResolvedPartitionFamily

/-! ### What validation says -/

/-- A check passes where its condition fails. -/
theorem refuse_eq_ok {condition : Bool} {message : String} {u : Unit} :
    refuse condition message = .ok u ↔ condition = false := by
  unfold refuse
  cases condition <;> simp

/-- Sorted identifiers without equal neighbours are different. -/
theorem hasEqualNeighbours_eq_false {ids : List ℕ} (hsorted : ids.Pairwise (· ≤ ·)) :
    hasEqualNeighbours ids = false ↔ ids.Nodup := by
  induction ids with
  | nil => simp [hasEqualNeighbours]
  | cons a rest ih =>
    cases rest with
    | nil => simp [hasEqualNeighbours]
    | cons b rest =>
      obtain ⟨hle, hrest⟩ := pairwise_cons.1 hsorted
      rw [hasEqualNeighbours, Bool.or_eq_false_iff, decide_eq_false_iff_not, ih hrest,
        nodup_cons (a := a)]
      refine and_congr_left fun hnodup => ⟨fun hne hmem => ?_, fun hmem heq => ?_⟩
      -- `a` is at most `b`, and `b` is at most everything behind it
      · rcases mem_cons.1 hmem with heq | hmem
        · exact hne heq
        · have hba := (pairwise_cons.1 hrest).1 a hmem
          exact hne (le_antisymm (hle b mem_cons_self) hba)
      · exact hmem (heq ▸ mem_cons_self)

/-- Sorting and comparing neighbours finds every duplicate. -/
theorem hasDuplicates_eq_false {ids : List ℕ} : hasDuplicates ids = false ↔ ids.Nodup := by
  unfold hasDuplicates
  rw [hasEqualNeighbours_eq_false (pairwise_insertionSort _ ids)]
  exact (perm_insertionSort _ ids).nodup_iff

/-- The loop accepts exactly the ranges that follow each other. -/
theorem requireFollowing_eq_ok {previous : Option ℕ} {partitions : List PartitionInfo} :
    requireFollowing previous partitions = .ok () ↔
      Ranges.Contiguous PartitionInfo.hashStartInclusive PartitionInfo.hashEndExclusive previous
        partitions := by
  induction partitions generalizing previous with
  | nil => cases previous <;> simp [requireFollowing, Ranges.Contiguous]
  | cons partition rest ih =>
    rw [requireFollowing, Except.bind_eq_ok, Ranges.Contiguous, ← ih]
    simp only [refuse_eq_ok, Bool.or_eq_false_iff, decide_eq_false_iff_not, not_not,
      PartitionInfo.hasEmptyRange_eq_false, and_assoc]
    exact exists_const _

namespace ResolvedPartitionFamily

variable {F : Type} {family : ResolvedPartitionFamily F}

/-- The check accepts exactly the ranges from zero without a gap. -/
theorem validateOrderedLogRanges_eq_ok : family.validateOrderedLogRanges = .ok () ↔
    Ranges.Contiguous PartitionInfo.hashStartInclusive PartitionInfo.hashEndExclusive (some 0)
      family.writable := by
  unfold validateOrderedLogRanges
  cases family.writable with
  | nil => simp [Ranges.Contiguous]
  | cons first rest =>
    rw [Except.bind_eq_ok, Ranges.Contiguous, ← requireFollowing_eq_ok]
    simp only [refuse_eq_ok, Bool.or_eq_false_iff, decide_eq_false_iff_not, not_not,
      PartitionInfo.hasEmptyRange_eq_false, Option.some.injEq, eq_comm (b := 0), and_assoc]
    exact exists_const _

/-- What holds of a valid family of either kind. -/
structure Sound (family : ResolvedPartitionFamily F) : Prop where
  routing : family.config.routingStrategy = expectedRouting family.config.familyKind
  nonempty : family.partitions ≠ []
  ids : (family.partitions.map (·.partitionId)).Nodup
  slots : (family.partitions.map (·.placementSlot)).Nodup
  open_pos : 0 < family.openCount
  min_le : family.config.minOpenPartitions ≤ family.openCount
  le_max : family.openCount ≤ family.config.maxOpenPartitions
  readable_lt : family.readableCount < 2 ^ 16
  count : family.config.partitionCount = family.readableCount

/-- **What validation says**: the family is sound, its kind is right, and so are the boundaries of
its splits. -/
theorem validate_eq_ok : family.validate = .ok () ↔
    family.Sound ∧ family.validateKind = .ok () ∧
      ∀ membership ∈ family.memberships, family.validateBoundary membership = .ok () := by
  have hcount {n : ℕ} : family.readablePartitionCount = .ok n ↔
      family.readableCount < 2 ^ 16 ∧ n = family.readableCount := by
    unfold readablePartitionCount
    split_ifs with h
    · simp only [Except.ok.injEq, h, true_and, eq_comm]
    · simp only [h, false_and]
  unfold validate validateTopology
  simp only [Except.bind_eq_ok, refuse_eq_ok, Except.forM_eq_ok, Bool.or_eq_false_iff,
    decide_eq_false_iff_not, not_not, hasDuplicates_eq_false, hcount, not_lt, isEmpty_eq_false_iff]
  constructor
  · rintro ⟨⟨⟩, ⟨⟨⟩, hrouting, ⟨⟩, hnonempty, ⟨⟩, hids, ⟨⟩, hslots, ⟨⟩, ⟨⟨hpos, hmin⟩, hmax⟩, hkind⟩,
      n, ⟨hlt, rfl⟩, ⟨⟩, hcount, hboundary⟩
    exact ⟨⟨hrouting, hnonempty, hids, hslots, Nat.pos_of_ne_zero hpos, hmin, hmax, hlt, hcount⟩,
      hkind, hboundary⟩
  · rintro ⟨h, hkind, hboundary⟩
    exact ⟨(), ⟨(), h.routing, (), h.nonempty, (), h.ids, (), h.slots, (),
      ⟨⟨h.open_pos.ne', h.min_le⟩, h.le_max⟩, hkind⟩, _, ⟨h.readable_lt, rfl⟩, (), h.count,
      hboundary⟩

/-! ### The initial family is valid -/

/-- Where the range of a partition of the initial family begins, and where the one before it
ends. -/
def initialBound (count k : ℕ) : Option ℕ :=
  if hashSpaceSize ≤ k * hashSpaceSize / count then none else some (k * hashSpaceSize / count)

/-- A bound of a share lies in the hash space. -/
theorem bound_lt {count k : ℕ} (hk : k < count) : k * hashSpaceSize / count < hashSpaceSize := by
  rw [Nat.div_lt_iff_lt_mul (by omega), Nat.mul_comm hashSpaceSize]
  exact Nat.mul_lt_mul_of_pos_right hk (by decide)

/-- Shares are not empty. -/
theorem bound_lt_succ {count k : ℕ} (hpos : 0 < count) (hcount : count < 2 ^ 16) :
    k * hashSpaceSize / count < (k + 1) * hashSpaceSize / count := by
  have hle : count ≤ hashSpaceSize := hcount.le.trans (by decide)
  calc k * hashSpaceSize / count < k * hashSpaceSize / count + 1 := Nat.lt_succ_self _
    _ = (k * hashSpaceSize + count) / count := (Nat.add_div_right _ hpos).symm
    _ ≤ (k + 1) * hashSpaceSize / count := by
        rw [Nat.succ_mul]
        exact Nat.div_le_div_right (Nat.add_le_add_left hle _)

/-- A share ends where the next one starts. -/
theorem initialHashRange_eq {count k : ℕ} (hk : k < count) (hcount : count < 2 ^ 16) :
    initialHashRange k count = (k * hashSpaceSize / count, initialBound count (k + 1)) := by
  have hmin : min (k + 1) 65535 = k + 1 := by omega
  simp only [initialHashRange, hmin, if_pos (bound_lt hk), initialBound]

/-- The ranges of the initial family follow one another. -/
theorem contiguous_initial {count : ℕ} (hcount : count < 2 ^ 16) (m k : ℕ) (hk : k + m = count)
    (hpos : 0 < count) :
    Ranges.Contiguous PartitionInfo.hashStartInclusive PartitionInfo.hashEndExclusive
      (initialBound count k) ((List.range' k m).map (initialPartition count)) := by
  induction m generalizing k with
  | zero =>
    obtain rfl : k = count := hk
    change initialBound k k = none
    rw [initialBound, Nat.mul_div_cancel_left _ hpos, if_pos le_rfl]
  | succ m ih =>
    have hlt : k < count := by omega
    rw [range'_succ, map_cons, Ranges.Contiguous, initialPartition, initialHashRange_eq hlt hcount]
    refine ⟨?_, ?_, ih (k + 1) (by omega)⟩
    · rw [initialBound, if_neg (bound_lt hlt).not_ge]
      rfl
    · intro stop hstop
      change initialBound count (k + 1) = some stop at hstop
      rw [initialBound] at hstop
      split_ifs at hstop
      cases hstop
      exact bound_lt_succ hpos hcount

section

variable [FloatOps F] {count : ℕ} (kind : PartitionFamilyKind)

/-- The partitions of a new family are open. -/
theorem new_isWritable :
    ∀ partition ∈ (new kind count : ResolvedPartitionFamily F).partitions,
      partition.state = .open := by
  intro partition hmem
  obtain ⟨k, -, rfl⟩ := mem_map.1 hmem
  rfl

/-- A new family is written to in all its partitions. -/
theorem new_writable (hcount : count < 2 ^ 16) :
    (new kind count : ResolvedPartitionFamily F).writable
      = (List.range' 0 count).map (initialPartition count) := by
  have hfilter : (new kind count : ResolvedPartitionFamily F).partitions.filter
      PartitionInfo.isWritable = (range' 0 count).map (initialPartition count) := by
    rw [filter_eq_self.2, new, range_eq_range']
    intro partition hmem
    rw [PartitionInfo.isWritable, new_isWritable kind partition hmem]
    rfl
  rw [writable, hfilter]
  refine List.Pairwise.insertionSort_eq ?_
  rw [pairwise_map]
  refine (pairwise_lt_range' ..).imp_of_mem fun ha hb hlt => ?_
  rw [mem_range'_1, Nat.zero_add] at ha hb
  simp only [initialPartition, PartitionInfo.newOpen, initialHashRange_eq ha.2 hcount,
    initialHashRange_eq hb.2 hcount]
  exact Nat.div_le_div_right (Nat.mul_le_mul_right _ hlt.le)

/-- What holds of open partitions is counted once for each of them. -/
theorem new_countP {p : PartitionInfo → Bool}
    (hp : ∀ partition, partition.state = .open → p partition = true) :
    (new kind count : ResolvedPartitionFamily F).partitions.countP p = count := by
  rw [countP_eq_length.2 fun partition hmem => hp partition (new_isWritable kind partition hmem),
    new, length_map, length_range]

/-- **A new family is sound.** -/
theorem new_sound (hpos : 0 < count) (hcount : count < 2 ^ 16) :
    (new kind count : ResolvedPartitionFamily F).Sound := by
  have hopen : (new kind count : ResolvedPartitionFamily F).openCount = count :=
    new_countP kind fun partition h => by rw [PartitionInfo.isWritable, h]; rfl
  have hreadable : (new kind count : ResolvedPartitionFamily F).readableCount = count :=
    new_countP kind fun partition h => by rw [PartitionInfo.isReadable, h]; rfl
  refine ⟨by cases kind <;> rfl, ?_, ?_, ?_, ?_, ?_, ?_, ?_, ?_⟩
  · simp [new, hpos.ne']
  · simp only [new, map_map]
    exact nodup_range.map fun _ _ h => h
  · simp only [new, map_map]
    exact nodup_range.map fun _ _ h => h
  · rw [hopen]; exact hpos
  · rw [hopen]; exact le_rfl
  · rw [hopen]; exact le_max_right _ _
  · rw [hreadable]; exact hcount
  · rw [hreadable]; rfl

/-- **The initial family is valid.** -/
theorem new_validate (hpos : 0 < count) (hcount : count < 2 ^ 16) :
    (new kind count : ResolvedPartitionFamily F).validate = .ok () := by
  refine validate_eq_ok.2 ⟨new_sound kind hpos hcount, ?_, fun _ hmem => by cases hmem⟩
  have hnone (state : PartitionState) (hstate : state ≠ .open) :
      ∀ partition ∈ (new kind count : ResolvedPartitionFamily F).partitions,
        partition.state ≠ state := by
    intro partition hmem
    rw [new_isWritable kind partition hmem]
    exact hstate.symm
  cases kind with
  | orderedLog =>
    refine Except.bind_eq_ok.2 ⟨(), ?_, ?_⟩
    · have hqueue : (new .orderedLog count : ResolvedPartitionFamily F).partitions.any
          (fun partition => decide (partition.state = .draining)
            || decide (partition.state = .retired)) = false := by
        rw [any_eq_false]
        intro partition hmem
        rw [new_isWritable .orderedLog partition hmem]
        decide
      have hclosed : (new .orderedLog count : ResolvedPartitionFamily F).partitions.countP
          (fun partition => partition.state = .writeClosed) = 0 := by
        rw [countP_eq_zero]
        intro partition hmem
        simpa using hnone .writeClosed (by decide) partition hmem
      unfold validateOrderedLogMemberships
      rw [hqueue, hclosed]
      rfl
    · rw [validateOrderedLogRanges_eq_ok, new_writable _ hcount]
      have hzero : initialBound count 0 = some 0 := by simp [initialBound, hashSpaceSize]
      rw [← hzero]
      exact contiguous_initial hcount count 0 (Nat.zero_add _) hpos
  | standardQueue =>
    have hclosed : (new .standardQueue count : ResolvedPartitionFamily F).partitions.any
        (fun partition => decide (partition.state = .writeClosed)) = false := by
      rw [any_eq_false]
      intro partition hmem
      simpa using hnone .writeClosed (by decide) partition hmem
    change validateQueue _ = _
    unfold validateQueue
    rw [hclosed]
    rfl

end

end ResolvedPartitionFamily

end AuxStorage.Partition
