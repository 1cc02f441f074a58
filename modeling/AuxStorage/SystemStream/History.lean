import AuxStorage.AttributeValue
import AuxStorage.SystemStream.Catalog

/-!
# The History of the System Stream

The catalog says which lineages there are, and the **bounds** say where each of them begins and
ends: its first sequence number, its next one and, once it is sealed, the number it was sealed at.
A write takes the next number of an active lineage.
-/

namespace AuxStorage

open List

abbrev NonZeroU64 : Type := {n : ℕ // 0 < n ∧ n < 2 ^ 64}

/-- `checked_add(1)`. -/
def NonZeroU64.checkedAdd (n : NonZeroU64) : Option NonZeroU64 :=
  if h : n.val + 1 < 2 ^ 64 then some ⟨_, n.val.succ_pos, h⟩ else none

structure SystemStreamHistoryBounds where
  lineageId : SystemStreamLineageId
  initialSequence : NonZeroU64
  nextSequence : NonZeroU64
  sealedAfter : Option NonZeroU64
  deriving DecidableEq

/-- The bounds of one lineage. -/
def boundsOf (bounds : List SystemStreamHistoryBounds) (lineageId : SystemStreamLineageId) :
    List SystemStreamHistoryBounds :=
  bounds.filter fun entry => entry.lineageId = lineageId

/-- One round of the loop of `SystemStreamHistory::try_new`. -/
def checkBounds (bounds : List SystemStreamHistoryBounds) (lineage : SystemStreamLineage) :
    Except SystemStreamContractError Unit :=
  match boundsOf bounds lineage.lineageId with
  | [] => .error .unknownLineage
  | entry :: more =>
    if more ≠ [] ∨ entry.nextSequence < entry.initialSequence ∨
        lineage.isSealed ≠ entry.sealedAfter.isSome ∨
        entry.sealedAfter.any (· ≠ entry.nextSequence) then .error .backendContract
    else pure ()

/-- The checks of `SystemStreamHistory::try_new`. -/
def validateBounds (entries : List SystemStreamLineage) (bounds : List SystemStreamHistoryBounds) :
    Except SystemStreamContractError Unit :=
  if bounds.length ≠ entries.length then .error .backendContract
  else forM entries (checkBounds bounds)

/-- The bounds of a lineage are in order, and a sealed lineage ends where it was sealed. -/
def BoundsAgree (lineage : SystemStreamLineage) (entry : SystemStreamHistoryBounds) : Prop :=
  entry.initialSequence ≤ entry.nextSequence ∧
    entry.sealedAfter = if lineage.isSealed then some entry.nextSequence else none

/-- What accepted bounds are: those of every lineage, once. -/
structure ValidBounds (entries : List SystemStreamLineage)
    (bounds : List SystemStreamHistoryBounds) : Prop where
  ids : (bounds.map (·.lineageId)).Perm (lineageIds entries)
  agree : ∀ lineage ∈ entries, ∀ entry ∈ bounds, entry.lineageId = lineage.lineageId →
    BoundsAgree lineage entry

variable {entries : List SystemStreamLineage} {bounds : List SystemStreamHistoryBounds}

theorem mem_boundsOf {lineageId : SystemStreamLineageId} {entry : SystemStreamHistoryBounds} :
    entry ∈ boundsOf bounds lineageId ↔ entry ∈ bounds ∧ entry.lineageId = lineageId := by
  simp [boundsOf]

theorem checkBounds_eq_ok {lineage : SystemStreamLineage} :
    checkBounds bounds lineage = .ok () ↔
      ∃ entry, BoundsAgree lineage entry ∧ boundsOf bounds lineage.lineageId = [entry] := by
  rw [checkBounds.eq_def]
  split
  · next h => simp [h]
  · next entry more h =>
    have hsealed :
        entry.sealedAfter = (if lineage.isSealed then some entry.nextSequence else none) ↔
          ¬(lineage.isSealed ≠ entry.sealedAfter.isSome ∨
          entry.sealedAfter.any (· ≠ entry.nextSequence)) := by
      cases entry.sealedAfter <;> cases lineage.isSealed <;> simp
    simp only [h, cons.injEq, ← and_assoc, exists_and_right, exists_eq_right']
    rw [BoundsAgree, hsealed, ← not_lt]
    split_ifs with hbad
    · refine iff_of_false (by simp) ?_
      tauto
    · refine iff_of_true rfl ?_
      tauto

theorem validateBounds_eq_ok (hnodup : (lineageIds entries).Nodup) :
    validateBounds entries bounds = .ok () ↔ ValidBounds entries bounds := by
  rw [validateBounds]
  constructor
  · intro h
    split_ifs at h with hlength
    have hcheck := fun lineage hmem => checkBounds_eq_ok.mp (Except.forM_eq_ok.mp h lineage hmem)
    refine ⟨?_, fun lineage hmem entry hentry hid => ?_⟩
    · have hsubset : lineageIds entries ⊆ bounds.map (·.lineageId) := by
        intro id hid
        obtain ⟨lineage, hmem, rfl⟩ := mem_map.mp hid
        obtain ⟨entry, -, hsingle⟩ := hcheck lineage hmem
        exact mem_map.mpr ⟨entry, mem_boundsOf.mp (hsingle ▸ mem_singleton_self entry)⟩
      exact ((subperm_of_subset hnodup hsubset).perm_of_length_le
        (by simp [lineageIds, not_not.mp hlength])).symm
    · obtain ⟨found, hagree, hsingle⟩ := hcheck lineage hmem
      have hfound := hsingle ▸ mem_boundsOf.mpr ⟨hentry, hid⟩
      exact mem_singleton.mp hfound ▸ hagree
  · intro h
    have hids := h.ids.nodup_iff.mpr hnodup
    rw [if_neg (by simpa [lineageIds] using h.ids.length_eq)]
    refine Except.forM_eq_ok.mpr fun lineage hmem => checkBounds_eq_ok.mpr ?_
    obtain ⟨entry, hentry, hid⟩ := mem_map.mp (h.ids.mem_iff.mpr (mem_map_of_mem hmem))
    refine ⟨entry, h.agree lineage hmem entry hentry hid, perm_singleton.mp
      ((perm_ext_iff_of_nodup ((Nodup.of_map _ hids).filter _) (nodup_singleton _)).mpr
        fun other => mem_boundsOf.trans ?_)⟩
    rw [mem_singleton]
    refine ⟨fun hother => inj_on_of_nodup_map hids hother.1 hentry (hother.2.trans hid.symm), ?_⟩
    rintro rfl
    exact ⟨hentry, hid⟩

structure SystemStreamHistory where
  catalog : SystemStreamLineageCatalog
  bounds : List SystemStreamHistoryBounds
  accepted : validateBounds catalog.entries bounds = .ok ()

namespace SystemStreamHistory

def tryNew (catalog : SystemStreamLineageCatalog) (bounds : List SystemStreamHistoryBounds) :
    Except SystemStreamContractError SystemStreamHistory :=
  match h : validateBounds catalog.entries bounds with
  | .ok () => .ok ⟨catalog, bounds, h⟩
  | .error e => .error e

def findBounds (history : SystemStreamHistory) (lineageId : SystemStreamLineageId) :
    Except SystemStreamContractError SystemStreamHistoryBounds :=
  okOr .unknownLineage (boundsOf history.bounds lineageId).head?

variable {history : SystemStreamHistory}

theorem valid (history : SystemStreamHistory) :
    ValidBounds history.catalog.entries history.bounds :=
  (validateBounds_eq_ok history.catalog.valid.nodup).mp history.accepted

/-- A lineage and its bounds are determined by their identifier. -/
theorem eq_of_id {l m : SystemStreamLineage} {a b : SystemStreamHistoryBounds}
    (hl : l ∈ history.catalog.entries) (ha : a ∈ history.bounds) (hal : a.lineageId = l.lineageId)
    (hm : m ∈ history.catalog.entries) (hb : b ∈ history.bounds) (hbm : b.lineageId = m.lineageId)
    (hid : l.lineageId = m.lineageId) : l = m ∧ a = b := by
  have hnodup := history.catalog.valid.nodup
  exact ⟨inj_on_of_nodup_map hnodup hl hm hid, inj_on_of_nodup_map
    (history.valid.ids.nodup_iff.mpr hnodup) ha hb (hal.trans (hid.trans hbm.symm))⟩

theorem mem_of_findBounds {lineageId : SystemStreamLineageId} {entry : SystemStreamHistoryBounds}
    (h : history.findBounds lineageId = .ok entry) :
    entry ∈ history.bounds ∧ entry.lineageId = lineageId :=
  mem_boundsOf.mp (mem_of_mem_head? (okOr_eq_ok.mp h))

end SystemStreamHistory

/-! ### Writes -/

/-- The order of the active lineages in `writer_lineage`. -/
def SystemStreamLineage.le (left right : SystemStreamLineage) : Bool :=
  ((compare left.shardId.asStr right.shardId.asStr).then
    (compare left.lineageId.asStr right.lineageId.asStr)).isLE

/-- `writer_lineage`. The digest of a key is the number in the first eight bytes of its SHA-256. -/
def SystemStreamLineageCatalog.writerLineage (digest : List UInt8 → ℕ)
    (catalog : SystemStreamLineageCatalog) (routingKey : List UInt8) :
    Except StorageError SystemStreamLineage :=
  let active := (activeLineages catalog.entries).mergeSort SystemStreamLineage.le
  okOr (.internal (text "SystemStream has no active writer lineage"))
    active[digest routingKey % active.length]?

structure SystemStreamWriteAllocation where
  position : SystemStreamPosition
  expectedOffset : NonZeroU64
  nextOffset : NonZeroU64

/-- The bounds of a lineage with another next number. -/
def SystemStreamHistoryBounds.advance (lineageId : SystemStreamLineageId) (next : NonZeroU64)
    (entry : SystemStreamHistoryBounds) : SystemStreamHistoryBounds :=
  { entry with nextSequence := if entry.lineageId = lineageId then next else entry.nextSequence }

namespace SystemStreamHistory

variable (digest : List UInt8 → ℕ) (history : SystemStreamHistory) (routingKey : List UInt8)

def planWrite : Except StorageError SystemStreamWriteAllocation := do
  let lineage ← history.catalog.writerLineage digest routingKey
  let entry ← (history.findBounds lineage.lineageId).mapError
    fun _ => .internal (text "SystemStream writer has no sequence")
  let nextOffset ← okOr (.internal (text "SystemStream sequence overflow"))
    entry.nextSequence.checkedAdd
  let position ← (lineage.position (numericText entry.nextSequence.val)).mapError
    fun _ => .internal (text "SystemStream write position is invalid")
  pure ⟨position, entry.nextSequence, nextOffset⟩

variable {digest history routingKey} {allocation : SystemStreamWriteAllocation}

/-- A write goes to an active lineage and takes its next number. -/
theorem planWrite_eq_ok (h : history.planWrite digest routingKey = .ok allocation) :
    ∃ lineage ∈ history.catalog.entries, lineage.isSealed = false ∧ ∃ entry ∈ history.bounds,
      entry.lineageId = lineage.lineageId ∧
      allocation.position = ⟨lineage.shardId, lineage.lineageId, .numeric entry.nextSequence.val⟩ ∧
      allocation.nextOffset.val = entry.nextSequence.val + 1 := by
  obtain ⟨lineage, hlineage, h⟩ := Except.bind_eq_ok.mp h
  obtain ⟨entry, hentry, h⟩ := Except.bind_eq_ok.mp h
  obtain ⟨next, hnext, h⟩ := Except.bind_eq_ok.mp h
  rw [SystemStreamLineage.position, SystemStreamOffset.tryNew_numericText] at h
  cases h
  obtain ⟨hmem, hid⟩ := mem_of_findBounds (Except.mapError_eq_ok.mp hentry)
  have hactive := mem_of_getElem? (okOr_eq_ok.mp hlineage)
  rw [mem_mergeSort, activeLineages, mem_filter] at hactive
  rw [okOr_eq_ok, NonZeroU64.checkedAdd] at hnext
  split_ifs at hnext
  cases hnext
  exact ⟨lineage, hactive.1, by simpa using hactive.2, entry, hmem, hid, rfl, rfl⟩

theorem validBounds_advance (h : history.planWrite digest routingKey = .ok allocation) :
    ValidBounds history.catalog.entries (history.bounds.map
      (.advance allocation.position.lineageId allocation.nextOffset)) := by
  obtain ⟨writer, hwriter, hactive, found, hfound, hid, hposition, hnext⟩ := planWrite_eq_ok h
  refine ⟨by rw [map_map]; exact history.valid.ids, fun lineage hmem _ hadvance heq => ?_⟩
  obtain ⟨entry, hentry, rfl⟩ := mem_map.mp hadvance
  obtain ⟨hle, hsealed⟩ := history.valid.agree lineage hmem entry hentry heq
  rw [hposition, SystemStreamHistoryBounds.advance]
  split_ifs with hwritten
  · obtain ⟨rfl, rfl⟩ := eq_of_id hmem hentry heq hwriter hfound hid (heq.symm.trans hwritten)
    refine ⟨hle.trans (Subtype.coe_le_coe.mp (hnext ▸ Nat.le_succ _)), ?_⟩
    simpa [hactive] using hsealed
  · exact ⟨hle, hsealed⟩

variable (digest history routingKey)

/-- `reserve_write`: the allocation, and the history in which the next number is taken. -/
def reserveWrite : Except StorageError (SystemStreamWriteAllocation × SystemStreamHistory) :=
  match h : history.planWrite digest routingKey with
  | .ok allocation =>
    let bounds := history.bounds.map
      (.advance allocation.position.lineageId allocation.nextOffset)
    have hvalid := (validateBounds_eq_ok history.catalog.valid.nodup).mpr (validBounds_advance h)
    .ok (allocation, ⟨history.catalog, bounds, hvalid⟩)
  | .error e => .error e

end SystemStreamHistory

end AuxStorage
