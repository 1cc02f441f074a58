import AuxStorage.Partition.Family

/-!
# Partitions: Reconciliation

The load of a family is observed from time to time, and each time the family is reconciled with
it: a controller smooths the hottest pressure, and when the pressure has been high or low for long
enough the topology changes by **one step**. An ordered log splits its hottest partition in two; a
queue retires a drained partition, opens one more, or begins to drain the coldest.

Pressures are floating point numbers, and no result depends on what their comparisons say. The
observations enter through the one that the lookup finds for each partition: which it is when
several are about one partition depends on the sort, so the lookup is a parameter.

## Main results

* `ResolvedPartitionFamily.reconcile_eq_ok`: a reconciliation succeeds when its change does and
  the family is valid before and after it.
* `reconcileOrderedLog_cases`: what a reconciliation does to an ordered log.
-/

namespace AuxStorage.Partition

open FloatOps (add beq clamp div le max mul neg ofDecimal ofNat sub totalCmp)
open PartitionInfo (isDraining isWritable newOpen retire)

/-- The load of a partition. -/
structure PartitionLoadSample where
  writes : ℕ
  bytes : ℕ
  conflicts : ℕ
  routingKeyBucketBitmap : ℕ
  queueClaimConflicts : ℕ
  oldestVisibleAgeMs : ℕ
  deriving DecidableEq, Repr

/-- A sample with its partition. -/
structure PartitionLoadObservation where
  partitionId : ℕ
  sample : PartitionLoadSample
  queueEmpty : Bool
  deriving DecidableEq, Repr

/-- The number of buckets of routing keys that were seen. -/
def PartitionLoadSample.routingKeyBucketCount (sample : PartitionLoadSample) : ℕ :=
  ((List.range 64).filter sample.routingKeyBucketBitmap.testBit).length

/-- The change that a reconciliation makes. -/
inductive PartitionTopologyChange
  | splitOrderedLog (parent left right : ℕ)
  | addQueuePartition (partitionId : ℕ)
  | beginQueueDrain (partitionId : ℕ)
  | retireQueuePartition (partitionId : ℕ)
  deriving DecidableEq, Repr

/-- The family after a reconciliation, with the change. -/
structure PartitionFamilyReconciliation (F : Type) where
  expectedEpoch : ℕ
  writeRequired : Bool
  family : ResolvedPartitionFamily F
  topologyChange : Option PartitionTopologyChange

/-- The observation that the lookup finds for a partition. -/
abbrev Observations := ℕ → Option PartitionLoadObservation

/-- The sample of a partition. -/
def sampleFor (observations : Observations) (partitionId : ℕ) : Option PartitionLoadSample :=
  (observations partitionId).map (·.sample)

section Controller

variable {F : Type} [FloatOps F]

/-- The share of a value in its target. -/
def ratio (value target : ℕ) : F :=
  if target = 0 then ofNat 0
  else div (ofNat value) (ofNat target)

/-- The pressure on a partition of a log: the greatest of its ratios. -/
def orderedLogPartitionPressure (sample : PartitionLoadSample) (config : PartitionFamilyConfig F) :
    F :=
  max (max (ratio sample.writes config.targetWritesPerSecond)
    (ratio sample.bytes config.targetBytesPerSecond))
    (ratio sample.conflicts config.targetConflictsPerWindow)

/-- The pressure on a partition of a queue. -/
def queuePartitionPressure (sample : Option PartitionLoadSample)
    (config : PartitionFamilyConfig F) : F :=
  match sample with
  | none => ofNat 0
  | some sample =>
    max (max (max
      (ratio sample.writes config.targetWritesPerSecond)
      (ratio sample.bytes config.targetBytesPerSecond))
      (ratio sample.queueClaimConflicts config.targetConflictsPerWindow))
      (ratio sample.oldestVisibleAgeMs (max config.targetOldestVisibleAgeMs 1))

namespace ResolvedPartitionFamily

variable (family : ResolvedPartitionFamily F)

/-- The greatest pressure on a partition that is written to. -/
def hottestPressure (observations : Observations) : F :=
  ((family.partitions.filter isWritable).map fun partition =>
    let sample := sampleFor observations partition.partitionId
    match family.config.familyKind with
    | .orderedLog => sample.elim (ofNat 0) fun sample =>
      orderedLogPartitionPressure sample family.config
    | .standardQueue => queuePartitionPressure sample family.config).foldl max
      (ofNat 0)

/-- The smoothed pressure, with the accumulated one. -/
def controllerPressure : F :=
  add family.config.controller.ewmaPressure
    (mul (ofDecimal 2 1) family.config.controller.integral)

/-- Whether the last change is too recent for another one. -/
def cooldownActive (nowMs : ℤ) : Bool :=
  family.config.cooldownUntilMs.any (fun cooldownUntilMs => decide (nowMs < cooldownUntilMs))

end ResolvedPartitionFamily

/-- The limit of a counter of 32 bits. -/
def maxStreak : ℕ := 2 ^ 32 - 1

/-- One step of the controller. -/
def PiControllerState.update (previous : PiControllerState F) (pressure : F) :
    PiControllerState F :=
  let ewmaPressure :=
    if le previous.ewmaPressure (ofNat 0) then pressure
    else add
      (mul previous.ewmaPressure
        (sub (ofNat 1) (ofDecimal 4 1)))
      (mul pressure (ofDecimal 4 1))
  let error := sub ewmaPressure (ofNat 1)
  let integral := clamp (add previous.integral error)
    (neg (ofNat 2)) (ofNat 4)
  let (highStreak, lowStreak) :=
    if le (ofNat 1) pressure then (min (previous.highStreak + 1) maxStreak, 0)
    else if le pressure (ofDecimal 35 2) then
      (0, min (previous.lowStreak + 1) maxStreak)
    else (0, 0)
  { ewmaPressure, integral, highStreak, lowStreak }

/-- The controller differs from what it was. -/
def PiControllerState.changed (previous next : PiControllerState F) : Bool :=
  !beq previous.ewmaPressure next.ewmaPressure
    || !beq previous.integral next.integral
    || decide (previous.highStreak ≠ next.highStreak)
    || decide (previous.lowStreak ≠ next.lowStreak)

end Controller

/-! ### Changes of the topology -/

section Change

variable {F : Type}

/-- The greatest value of a 16 bit number. -/
def maxU16 : ℕ := 2 ^ 16 - 1

/-- A count as a 16 bit number, saturating. -/
def saturateU16 (count : ℕ) : ℕ := min count maxU16

/-- The time of the change is noted. -/
def PartitionFamilyConfig.noteTopologyChange (config : PartitionFamilyConfig F) (nowMs : ℤ) :
    PartitionFamilyConfig F :=
  { config with
    familyEpoch := min (config.familyEpoch + 1) (2 ^ 64 - 1)
    cooldownUntilMs := some (min (nowMs + 5 * 60 * 1000) (2 ^ 63 - 1))
    controller := { config.controller with highStreak := 0, lowStreak := 0 } }

namespace ResolvedPartitionFamily

variable (family : ResolvedPartitionFamily F)

/-- The open partitions, as a machine number. -/
def openPartitionCount : ℕ := saturateU16 family.openCount

/-- The readable partitions, as a machine number. -/
def managedPartitionCount : ℕ := saturateU16 family.readableCount

/-- The stored count is that of the readable partitions. -/
def refreshPartitionCount : ResolvedPartitionFamily F :=
  { family with config := { family.config with partitionCount := family.managedPartitionCount } }

def noteTopologyChange (nowMs : ℤ) : ResolvedPartitionFamily F :=
  ({ family with config := family.config.noteTopologyChange nowMs }).refreshPartitionCount

/-- One more than the greatest of some 16 bit numbers. -/
def nextNumber (numbers : List ℕ) (empty exhausted : String) : Except StorageError ℕ :=
  match numbers.max? with
  | none => .error (.internal (text empty))
  | some current =>
    if current < maxU16 then .ok (current + 1) else .error (.internal (text exhausted))

/-- The identifier of the next partition. -/
def nextPartitionId : Except StorageError ℕ :=
  nextNumber (family.partitions.map (·.partitionId)) "partition family has no partitions"
    "partition id space is exhausted"

/-- The slot of the next partition. -/
def nextPlacementSlot : Except StorageError ℕ :=
  nextNumber (family.partitions.map (·.placementSlot)) "partition family has no placement slots"
    "partition placement slot space is exhausted"

end ResolvedPartitionFamily

/-- One more than a 16 bit number. -/
def checkedSucc (n : ℕ) (exhausted : String) : Except StorageError ℕ :=
  if n < maxU16 then .ok (n + 1) else .error (.internal (text exhausted))

/-- Change the first partition with an identity. -/
def updatePartition (partitionId : ℕ) (missing : String)
    (change : PartitionInfo → Except StorageError PartitionInfo) :
    List PartitionInfo → Except StorageError (List PartitionInfo)
  | [] => .error (.internal (text missing))
  | partition :: rest =>
    if partition.partitionId = partitionId then do
      let changed ← change partition
      .ok (changed :: rest)
    else do
      let rest ← updatePartition partitionId missing change rest
      .ok (partition :: rest)

end Change

/-! ### Splitting an ordered log -/

section Topology

variable {F : Type} [FloatOps F] (family : ResolvedPartitionFamily F)

/-- Whether a log may be split. -/
def orderedLogSplitAllowed (pressure : F) (nowMs : ℤ) : Bool :=
  !family.config.freeze && family.config.autoscaleEnabled && !family.cooldownActive nowMs
    && decide (family.openPartitionCount < family.config.maxOpenPartitions)
    && decide (3 ≤ family.config.controller.highStreak)
    && le (ofDecimal 13 1) family.controllerPressure
    && le (ofDecimal 13 1) pressure

/-- The later of the two, unless the first has the greater pressure or, of equal pressures, the
greater identity. -/
def hotterCandidate (left right : ℕ × ℕ × F) : ℕ × ℕ × F :=
  match (totalCmp left.2.2 right.2.2).then (compare left.2.1 right.2.1) with
  | .gt => left
  | _ => right

/-- The candidates for a split: writable partitions with more than one bucket of routing keys. -/
def splitCandidate (observations : Observations) (entry : PartitionInfo × ℕ) :
    Option (ℕ × ℕ × F) :=
  if entry.1.isWritable then do
    let sample ← sampleFor observations entry.1.partitionId
    if 2 ≤ sample.routingKeyBucketCount then
      some (entry.2, entry.1.partitionId, orderedLogPartitionPressure sample family.config)
    else none
  else none

/-- The place of the hottest candidate. -/
def selectOrderedLogParent (observations : Observations) : Option ℕ :=
  match (family.partitions.zipIdx).filterMap (splitCandidate family observations) with
  | [] => none
  | first :: rest => some (rest.foldl hotterCandidate first).1

/-- The two halves of the range of a partition, when it can be halved. -/
def partitionChildren (parent : PartitionInfo) (leftId rightId leftSlot rightSlot : ℕ) :
    Option (PartitionInfo × PartitionInfo) :=
  let start := parent.hashStartInclusive
  let stop := parent.hashEndExclusive.getD hashSpaceSize
  if stop ≤ start + 1 then none
  else
    let midpoint := start + (stop - start) / 2
    if midpoint ≤ start ∨ stop ≤ midpoint then none
    else if hashSpaceSize ≤ midpoint then none
    else some
      ({ newOpen leftId leftSlot start (some midpoint) with
          openedAfterId := parent.sealedAfterId },
        { newOpen rightId rightSlot midpoint parent.hashEndExclusive with
          openedAfterId := parent.sealedAfterId })

omit [FloatOps F] in
/-- The children of a split, with new identifiers and slots. -/
def createOrderedLogChildren (parent : PartitionInfo) :
    Except StorageError (Option (PartitionInfo × PartitionInfo)) := do
  let leftId ← family.nextPartitionId
  let rightId ← checkedSucc leftId "ordered-log partition id space is exhausted"
  let leftSlot ← family.nextPlacementSlot
  let rightSlot ← checkedSucc leftSlot "ordered-log placement slot space is exhausted"
  .ok (partitionChildren parent leftId rightId leftSlot rightSlot)

/-- By the start of the range, and then by the identity. -/
def hashRangeLe (a b : PartitionInfo) : Prop :=
  a.hashStartInclusive < b.hashStartInclusive
    ∨ a.hashStartInclusive = b.hashStartInclusive ∧ a.partitionId ≤ b.partitionId

instance : DecidableRel hashRangeLe := fun _ _ => inferInstanceAs (Decidable (_ ∨ _ ∧ _))

/-- The family after the split of a parent that was closed. -/
def splitFamily (parentIndex : ℕ) (closed : PartitionInfo)
    (children : PartitionInfo × PartitionInfo) (nowMs : ℤ) : ResolvedPartitionFamily F :=
  let left := { children.1 with openedAfterId := none }
  let right := { children.2 with openedAfterId := none }
  let split := (({ family with
    memberships := family.memberships ++
      [⟨closed.partitionId, left.partitionId, right.partitionId, none⟩]
    partitions := (family.partitions.set parentIndex { closed with sealedAfterId := none }
      ++ [left, right]).insertionSort hashRangeLe } :
    ResolvedPartitionFamily F)).noteTopologyChange nowMs
  { split with config := { split.config with
      minOpenPartitions := max split.config.minOpenPartitions split.openPartitionCount } }

/-- The parent is closed for writes and its children are added. -/
def applyOrderedLogSplit (parentIndex : ℕ) (parent : PartitionInfo)
    (children : PartitionInfo × PartitionInfo) (nowMs : ℤ) :
    Except StorageError (ResolvedPartitionFamily F × Option PartitionTopologyChange) := do
  let closed ← parent.markWriteClosed
  .ok (splitFamily family parentIndex closed children nowMs,
    some (.splitOrderedLog parent.partitionId children.1.partitionId children.2.partitionId))

/-- The split of the partition at an index. -/
def splitAt (parentIndex : ℕ) (nowMs : ℤ) :
    Except StorageError (ResolvedPartitionFamily F × Option PartitionTopologyChange) :=
  match family.partitions[parentIndex]? with
  -- the index was found among the partitions
  | none => .ok (family, none)
  | some parent => do
      let children ← createOrderedLogChildren family parent
      match children with
      | none => .ok (family, none)
      | some children => applyOrderedLogSplit family parentIndex parent children nowMs

/-- A log splits a partition where that is allowed. -/
def reconcileOrderedLog (observations : Observations) (pressure : F) (nowMs : ℤ) :
    Except StorageError (ResolvedPartitionFamily F × Option PartitionTopologyChange) :=
  if orderedLogSplitAllowed family pressure nowMs then
    match selectOrderedLogParent family observations with
    | none => .ok (family, none)
    | some parentIndex => splitAt family parentIndex nowMs
  else .ok (family, none)

/-! ### Scaling a queue -/

/-- The partition changes its state, and the change of the topology is noted. -/
def changeState (partitionId : ℕ) (missing : String)
    (change : PartitionInfo → Except StorageError PartitionInfo)
    (topologyChange : PartitionTopologyChange) (nowMs : ℤ) :
    Except StorageError (ResolvedPartitionFamily F × Option PartitionTopologyChange) := do
  let partitions ← updatePartition partitionId missing change family.partitions
  .ok (({ family with partitions }).noteTopologyChange nowMs, some topologyChange)

/-- A partition that is drained and empty. -/
def isEmptyDraining (observations : Observations) (partition : PartitionInfo) : Bool :=
  partition.isDraining && (observations partition.partitionId).any (·.queueEmpty)

/-- The first drained partition is retired. -/
def retireEmptyQueuePartition (observations : Observations) (nowMs : ℤ) :
    Except StorageError (ResolvedPartitionFamily F × Option PartitionTopologyChange) :=
  match family.partitions.find? (isEmptyDraining observations) with
  | none => .ok (family, none)
  | some partition => changeState family partition.partitionId
      "selected draining partition disappeared" retire
      (.retireQueuePartition partition.partitionId) nowMs

/-- Whether a queue needs another partition. -/
def queueScaleOutRequired (pressure : F) (openCount : ℕ) : Bool :=
  decide (3 ≤ family.config.controller.highStreak)
    && le (ofDecimal 12 1) family.controllerPressure
    && le (ofDecimal 12 1) pressure
    && decide (openCount < family.config.maxOpenPartitions)

/-- A queue gets another partition. -/
def addQueuePartition (nowMs : ℤ) :
    Except StorageError (ResolvedPartitionFamily F × Option PartitionTopologyChange) := do
  let partitionId ← family.nextPartitionId
  let placementSlot ← family.nextPlacementSlot
  let added := newOpen partitionId placementSlot 0 none
  let partitions := (family.partitions ++ [added]).insertionSort
    (fun a b => a.partitionId ≤ b.partitionId)
  .ok (({ family with partitions }).noteTopologyChange nowMs, some (.addQueuePartition partitionId))

/-- Whether a queue can do with one partition less. -/
def queueScaleInRequired (openCount : ℕ) : Bool :=
  !family.partitions.any isDraining
    && decide (12 ≤ family.config.controller.lowStreak)
    && le family.controllerPressure (ofDecimal 35 2)
    && decide (family.config.minOpenPartitions < openCount)

/-- The first of the two, unless the second has the smaller pressure or, of equal pressures, the
smaller identity. -/
def colderPartition (observations : Observations) (left right : PartitionInfo) : PartitionInfo :=
  match (totalCmp
      (queuePartitionPressure (sampleFor observations left.partitionId) family.config)
      (queuePartitionPressure (sampleFor observations right.partitionId) family.config)).then
      (compare left.partitionId right.partitionId) with
  | .gt => right
  | _ => left

/-- The coldest partition begins to drain. -/
def beginColdestQueueDrain (observations : Observations) (nowMs : ℤ) :
    Except StorageError (ResolvedPartitionFamily F × Option PartitionTopologyChange) :=
  match family.partitions.filter isWritable with
  | [] => .ok (family, none)
  | first :: rest =>
    let coldest := rest.foldl (colderPartition family observations) first
    changeState family coldest.partitionId "selected queue partition disappeared"
      PartitionInfo.beginDraining (.beginQueueDrain coldest.partitionId) nowMs

/-- Scale out, in, or not at all. -/
def scaleQueue (observations : Observations) (pressure : F) (nowMs : ℤ) :
    Except StorageError (ResolvedPartitionFamily F × Option PartitionTopologyChange) :=
  if queueScaleOutRequired family pressure family.openPartitionCount then
    addQueuePartition family nowMs
  else if queueScaleInRequired family family.openPartitionCount then
    beginColdestQueueDrain family observations nowMs
  else .ok (family, none)

/-- A queue retires, adds or drains a partition. -/
def reconcileQueue (observations : Observations) (pressure : F) (nowMs : ℤ) :
    Except StorageError (ResolvedPartitionFamily F × Option PartitionTopologyChange) :=
  if family.config.freeze || !family.config.autoscaleEnabled || family.cooldownActive nowMs then
    .ok (family, none)
  else do
    let (next, change) ← retireEmptyQueuePartition family observations nowMs
    if change.isSome then .ok (next, change) else scaleQueue family observations pressure nowMs

end Topology

/-! ### Reconciliation -/

namespace ResolvedPartitionFamily

variable {F : Type} [FloatOps F]

/-- The family with another state of the controller. -/
def withController (family : ResolvedPartitionFamily F) (controller : PiControllerState F) :
    ResolvedPartitionFamily F :=
  { family with config := { family.config with controller } }

/-- The change of the topology, after the controller was updated. -/
def reconcileTopology (family : ResolvedPartitionFamily F) (observations : Observations)
    (nowMs : ℤ) :
    Except StorageError (ResolvedPartitionFamily F × Option PartitionTopologyChange) :=
  let pressure := family.hottestPressure observations
  let controlled := family.withController (family.config.controller.update pressure)
  match controlled.config.familyKind with
  | .orderedLog => reconcileOrderedLog controlled observations pressure nowMs
  | .standardQueue => reconcileQueue controlled observations pressure nowMs

/-- One reconciliation. -/
def reconcile (family : ResolvedPartitionFamily F) (observations : Observations) (nowMs : ℤ) :
    Except StorageError (PartitionFamilyReconciliation F) := do
  family.validate
  let (next, topologyChange) ← family.reconcileTopology observations nowMs
  next.validate
  .ok { expectedEpoch := family.config.familyEpoch
        writeRequired := family.config.controller.changed
          (family.config.controller.update (family.hottestPressure observations))
          || topologyChange.isSome
        family := next
        topologyChange }

/-- What a reconciliation that succeeds has done. -/
theorem reconcile_eq_ok {family : ResolvedPartitionFamily F} {observations : Observations}
    {nowMs : ℤ} {r : PartitionFamilyReconciliation F}
    (h : family.reconcile observations nowMs = .ok r) :
    family.validate = .ok () ∧
      family.reconcileTopology observations nowMs = .ok (r.family, r.topologyChange) ∧
      r.family.validate = .ok () ∧ r.expectedEpoch = family.config.familyEpoch := by
  unfold reconcile at h
  obtain ⟨⟨⟩, hvalid, h⟩ := Except.bind_eq_ok.1 h
  obtain ⟨⟨next, change⟩, htopology, h⟩ := Except.bind_eq_ok.1 h
  obtain ⟨⟨⟩, hnext, h⟩ := Except.bind_eq_ok.1 h
  cases h
  exact ⟨hvalid, htopology, hnext, rfl⟩

end ResolvedPartitionFamily

/-! ### What a reconciliation does to an ordered log -/

/-- A step changes the state alone. -/
theorem PartitionInfo.transitionTo_eq_ok {partition changed : PartitionInfo}
    {next : PartitionState} (h : partition.transitionTo next = .ok changed) :
    changed = { partition with state := next } := by
  obtain ⟨state, hstate, h⟩ := Except.bind_eq_ok.1 h
  cases h
  have hnext : state = next := by
    unfold PartitionState.transitionTo at hstate
    split at hstate <;> try split_ifs at hstate
    all_goals exact (Except.ok.inj hstate).symm
  rw [hnext]

/-- The halves of a range meet in the middle. -/
theorem partitionChildren_eq_some {parent left right : PartitionInfo}
    {leftId rightId leftSlot rightSlot : ℕ}
    (h : partitionChildren parent leftId rightId leftSlot rightSlot = some (left, right)) :
    left.state = .open ∧ right.state = .open ∧
      left.hashStartInclusive = parent.hashStartInclusive ∧
      left.hashEndExclusive = some right.hashStartInclusive ∧
      right.hashEndExclusive = parent.hashEndExclusive := by
  unfold partitionChildren at h
  dsimp only at h
  split_ifs at h
  cases h
  exact ⟨rfl, rfl, rfl, rfl, rfl⟩

/-- The split of a partition: it is closed, and two open children share its range. -/
structure IsSplit {F : Type} (family next : ResolvedPartitionFamily F)
    (change : PartitionTopologyChange) (parent left right : PartitionInfo) : Prop where
  kind : next.config.familyKind = family.config.familyKind
  change_eq : change =
    .splitOrderedLog parent.partitionId left.partitionId right.partitionId
  perm : ∃ before after, family.partitions = before ++ parent :: after ∧
    next.partitions.Perm (before ++
      { parent with state := .writeClosed, sealedAfterId := none } :: after ++ [left, right])
  left_open : left.state = .open
  right_open : right.state = .open
  left_start : left.hashStartInclusive = parent.hashStartInclusive
  left_end : left.hashEndExclusive = some right.hashStartInclusive
  right_end : right.hashEndExclusive = parent.hashEndExclusive

section

variable {F : Type} [FloatOps F] {family next : ResolvedPartitionFamily F}
  {observations : Observations} {pressure : F} {nowMs : ℤ} {change : Option PartitionTopologyChange}

omit [FloatOps F] in
/-- Splitting the partition at an index does nothing, or splits it. -/
theorem splitAt_cases {index : ℕ} (h : splitAt family index nowMs = .ok (next, change)) :
    (next = family ∧ change = none) ∨
      ∃ topologyChange parent left right, change = some topologyChange ∧
        IsSplit family next topologyChange parent left right := by
  unfold splitAt at h
  cases hparent : family.partitions[index]? with
  | none =>
    rw [hparent] at h
    cases h
    exact .inl ⟨rfl, rfl⟩
  | some parent =>
    rw [hparent] at h
    obtain ⟨children, hchildren, h⟩ := Except.bind_eq_ok.1 h
    cases children with
    | none =>
      cases h
      exact .inl ⟨rfl, rfl⟩
    | some children =>
      obtain ⟨left, right⟩ := children
      obtain ⟨closed, hclosed, h⟩ := Except.bind_eq_ok.1 h
      cases h
      obtain rfl := PartitionInfo.transitionTo_eq_ok hclosed
      unfold createOrderedLogChildren at hchildren
      obtain ⟨leftId, -, hchildren⟩ := Except.bind_eq_ok.1 hchildren
      obtain ⟨rightId, -, hchildren⟩ := Except.bind_eq_ok.1 hchildren
      obtain ⟨leftSlot, -, hchildren⟩ := Except.bind_eq_ok.1 hchildren
      obtain ⟨rightSlot, -, hchildren⟩ := Except.bind_eq_ok.1 hchildren
      obtain ⟨hlopen, hropen, hlstart, hlend, hrend⟩ :=
        partitionChildren_eq_some (Except.ok.inj hchildren)
      refine .inr ⟨_, parent, { left with openedAfterId := none },
        { right with openedAfterId := none }, rfl, rfl, rfl, ?_, hlopen, hropen, hlstart,
        hlend, hrend⟩
      obtain ⟨hlt, hget⟩ := List.getElem?_eq_some_iff.1 hparent
      refine ⟨family.partitions.take index, family.partitions.drop (index + 1), ?_, ?_⟩
      · rw [← hget, List.getElem_cons_drop, List.take_append_drop]
      · refine (List.perm_insertionSort _ _).trans ?_
        rw [List.set_eq_take_append_cons_drop, if_pos hlt]

/-- **The changes of an ordered log**: nothing, or the split of one partition. -/
theorem reconcileOrderedLog_cases
    (h : reconcileOrderedLog family observations pressure nowMs = .ok (next, change)) :
    (next = family ∧ change = none) ∨
      ∃ topologyChange parent left right, change = some topologyChange ∧
        IsSplit family next topologyChange parent left right := by
  unfold reconcileOrderedLog at h
  split_ifs at h
  · cases hindex : selectOrderedLogParent family observations with
    | none =>
      rw [hindex] at h
      cases h
      exact .inl ⟨rfl, rfl⟩
    | some index =>
      rw [hindex] at h
      exact splitAt_cases h
  · cases h
    exact .inl ⟨rfl, rfl⟩

end

end AuxStorage.Partition
