import AuxStorage.SystemStream.History

/-!
# Splits of the System Stream

A split seals an active lineage and adds two empty ones below it. It keeps the catalog valid if
there is room for them. Over any run of writes and splits, the rows stand at the positions within
the bounds, one at each.
-/

namespace AuxStorage

open Forest
open List

/-! ### Split requests -/

structure SystemStreamSplitChild where
  lineage : SystemStreamLineage
  initialSequence : NonZeroU64
  accepted : lineage.isSealed = false ∧ lineage.parentLineageId ≠ none ∧
    initialSequence.val ≠ 2 ^ 64 - 1
  deriving DecidableEq

abbrev SystemStreamSplitOperationId : Type := BoundedText 128

def validateSplitShape (parent : SystemStreamLineage) (left right : SystemStreamSplitChild) :
    Except SystemStreamContractError Unit :=
  if parent.isSealed then .error .backendContract
  else if left.lineage.lineageId = right.lineage.lineageId ∨
      left.lineage.shardId = right.lineage.shardId ∨
      ∃ child ∈ [left, right], child.lineage.lineageId = parent.lineageId then
    .error .backendContract
  else if ∃ child ∈ [left, right], child.lineage.parentLineageId ≠ some parent.lineageId ∨
      child.lineage.shardId = parent.shardId then .error .backendContract
  else pure ()

/-- `SystemStreamSplitRequest`; nothing else is accepted by its `try_new`. -/
structure SystemStreamSplitRequest where
  sourceScope : SystemStreamScope
  parent : SystemStreamLineage
  left : SystemStreamSplitChild
  right : SystemStreamSplitChild
  operationId : SystemStreamSplitOperationId
  accepted : validateSplitShape parent left right = .ok ()

namespace SystemStreamSplitRequest

def children (request : SystemStreamSplitRequest) : List SystemStreamSplitChild :=
  [request.left, request.right]

def validateAgainst (request : SystemStreamSplitRequest) (catalog : SystemStreamLineageCatalog) :
    Except SystemStreamContractError Unit := do
  validateScope request.sourceScope catalog.sourceScope
  let currentParent ← okOr .unknownLineage (catalog.lineage request.parent.lineageId)
  if currentParent ≠ request.parent ∨ currentParent.isSealed then .error .backendContract
  else if ∃ child ∈ request.children, (catalog.lineage child.lineage.lineageId).isSome ∨
      ∃ entry ∈ catalog.entries, entry.shardId = child.lineage.shardId then .error .backendContract
  else pure ()

end SystemStreamSplitRequest

/-! ### Receipts -/

inductive SystemStreamSplitDisposition where
  | applied
  | replayed
  deriving DecidableEq

structure SystemStreamSplitResult where
  sourceScope : SystemStreamScope
  operationId : SystemStreamSplitOperationId
  sealedParent : SystemStreamLineage
  left : SystemStreamSplitChild
  right : SystemStreamSplitChild
  disposition : SystemStreamSplitDisposition

def SystemStreamSplitResult.tryNew (request : SystemStreamSplitRequest)
    (sealedParent : SystemStreamLineage) (disposition : SystemStreamSplitDisposition) :
    Except SystemStreamContractError SystemStreamSplitResult :=
  if !sealedParent.isSealed then .error .backendContract
  else if sealedParent.shardId ≠ request.parent.shardId ∨
      sealedParent.lineageId ≠ request.parent.lineageId ∨
      sealedParent.parentLineageId ≠ request.parent.parentLineageId then .error .backendContract
  else pure ⟨request.sourceScope, request.operationId, sealedParent, request.left, request.right,
    disposition⟩

structure SystemStreamSplitReceipt where
  split : SystemStreamSplitResult
  sealedAfterOffset : NonZeroU64

def SystemStreamSplitReceipt.tryNew (request : SystemStreamSplitRequest)
    (sealedAfterOffset : NonZeroU64) :
    Except SystemStreamContractError SystemStreamSplitReceipt := do
  let sealedParent ← SystemStreamLineage.tryNew request.parent.shardId request.parent.lineageId
    request.parent.parentLineageId true
  let split ← SystemStreamSplitResult.tryNew request sealedParent .applied
  pure ⟨split, sealedAfterOffset⟩

def SystemStreamHistory.planSplit (history : SystemStreamHistory)
    (request : SystemStreamSplitRequest) :
    Except SystemStreamContractError SystemStreamSplitReceipt := do
  request.validateAgainst history.catalog
  let parent ← history.findBounds request.parent.lineageId
  SystemStreamSplitReceipt.tryNew request parent.nextSequence

/-- A lineage after the split of a parent. -/
def SystemStreamLineage.sealAt (parentId : SystemStreamLineageId) (entry : SystemStreamLineage) :
    SystemStreamLineage :=
  { entry with isSealed := entry.isSealed || entry.lineageId = parentId }

/-- The lineages after `write_split`. -/
def splitEntries (split : SystemStreamSplitResult) (entries : List SystemStreamLineage) :
    List SystemStreamLineage :=
  entries.map (.sealAt split.sealedParent.lineageId) ++
    [split.left, split.right].map (·.lineage)

/-- The bounds of a lineage after the split of a parent. -/
def SystemStreamHistoryBounds.sealAt (parentId : SystemStreamLineageId) (offset : NonZeroU64)
    (entry : SystemStreamHistoryBounds) : SystemStreamHistoryBounds :=
  { entry with
    sealedAfter := if entry.lineageId = parentId then some offset else entry.sealedAfter }

/-- The bounds of a new child. -/
def SystemStreamSplitChild.freshBounds (child : SystemStreamSplitChild) :
    SystemStreamHistoryBounds :=
  ⟨child.lineage.lineageId, child.initialSequence, child.initialSequence, none⟩

/-- The bounds after `write_split`. -/
def splitBounds (receipt : SystemStreamSplitReceipt) (bounds : List SystemStreamHistoryBounds) :
    List SystemStreamHistoryBounds :=
  bounds.map (.sealAt receipt.split.sealedParent.lineageId receipt.sealedAfterOffset) ++
    [receipt.split.left, receipt.split.right].map SystemStreamSplitChild.freshBounds

/-- The history that is read after `write_split`. -/
def SystemStreamHistory.afterSplit (history : SystemStreamHistory)
    (receipt : SystemStreamSplitReceipt) :
    Except SystemStreamContractError SystemStreamHistory := do
  let catalog ← SystemStreamLineageCatalog.tryNew history.catalog.sourceScope
    (splitEntries receipt.split history.catalog.entries)
  SystemStreamHistory.tryNew catalog (splitBounds receipt history.bounds)

/-! ### A planned split -/

open SystemStreamLineage (sealAt)
open SystemStreamHistoryBounds (advance)

variable {entries : List SystemStreamLineage} {bounds : List SystemStreamHistoryBounds}
  {history next : SystemStreamHistory} {request : SystemStreamSplitRequest}
  {receipt : SystemStreamSplitReceipt} {lineage : SystemStreamLineage}
  {entry : SystemStreamHistoryBounds}

theorem SystemStreamHistory.tryNew_eq_ok {catalog : SystemStreamLineageCatalog} :
    tryNew catalog bounds = .ok history ↔ history.catalog = catalog ∧ history.bounds = bounds := by
  rw [tryNew.eq_def]
  split
  · cases history
    simp [eq_comm]
  · next h =>
    refine iff_of_false (by simp) ?_
    rintro ⟨rfl, rfl⟩
    cases history.accepted.symm.trans h

def SystemStreamSplitRequest.applied (request : SystemStreamSplitRequest) :
    SystemStreamSplitResult :=
  ⟨request.sourceScope, request.operationId, { request.parent with isSealed := true },
    request.left, request.right, .applied⟩

/-- What a planned split knows of its catalog. -/
structure Splittable (entries : List SystemStreamLineage) (request : SystemStreamSplitRequest) :
    Prop where
  parent : request.parent ∈ entries
  active : request.parent.isSealed = false
  fresh : ∀ child ∈ request.children, child.lineage.lineageId ∉ lineageIds entries ∧
    ∀ entry ∈ entries, entry.shardId ≠ child.lineage.shardId

theorem SystemStreamSplitRequest.shape (request : SystemStreamSplitRequest) :
    request.left.lineage.lineageId ≠ request.right.lineage.lineageId ∧
    request.left.lineage.shardId ≠ request.right.lineage.shardId ∧
    ∀ child ∈ request.children, child.lineage.parentLineageId = some request.parent.lineageId ∧
      child.lineage.shardId ≠ request.parent.shardId := by
  have h := request.accepted
  rw [validateSplitShape] at h
  split_ifs at h with hsealed hids hparents
  simp only [not_or, not_exists, not_and, not_not] at hids hparents
  exact ⟨hids.1, hids.2.1, hparents⟩

theorem SystemStreamHistory.planSplit_eq_ok (h : history.planSplit request = .ok receipt) :
    Splittable history.catalog.entries request ∧ ∃ entry ∈ history.bounds,
      entry.lineageId = request.parent.lineageId ∧
      receipt = ⟨request.applied, entry.nextSequence⟩ := by
  obtain ⟨⟨⟩, hvalid, h⟩ := Except.bind_eq_ok.mp h
  obtain ⟨entry, hentry, h⟩ := Except.bind_eq_ok.mp h
  obtain ⟨hmem, hid⟩ := mem_of_findBounds hentry
  obtain ⟨⟨⟩, -, hvalid⟩ := Except.bind_eq_ok.mp hvalid
  obtain ⟨parent, hparent, hvalid⟩ := Except.bind_eq_ok.mp hvalid
  split_ifs at hvalid with hother hused
  simp only [not_or, not_not, Bool.not_eq_true] at hother
  obtain ⟨rfl, hactive⟩ := hother
  simp only [not_exists, not_and, not_or, Option.not_isSome_iff_eq_none] at hused
  refine ⟨⟨(findLineage_eq_some (okOr_eq_ok.mp hparent)).1, hactive, fun child hchild =>
    ⟨fun hid => ?_, (hused child hchild).2⟩⟩, entry, hmem, hid, ?_⟩
  · obtain ⟨lineage, hmem, heq⟩ := mem_map.mp hid
    simpa [heq] using find?_eq_none.mp (hused child hchild).1 lineage hmem
  · rw [SystemStreamSplitReceipt.tryNew, SystemStreamLineage.tryNew,
      dif_neg request.parent.parent_ne] at h
    simp [SystemStreamSplitResult.tryNew, bind, Except.bind, pure, Except.pure] at h
    exact h.symm

theorem lineageIds_splitEntries :
    lineageIds (splitEntries request.applied entries) =
      lineageIds entries ++ request.children.map (·.lineage.lineageId) := by
  rw [lineageIds, splitEntries, map_append, map_map]
  rfl

theorem mem_splitEntries :
    lineage ∈ splitEntries request.applied entries ↔
      (∃ old ∈ entries, old.sealAt request.parent.lineageId = lineage) ∨
      ∃ child ∈ request.children, child.lineage = lineage := by
  rw [splitEntries, mem_append, mem_map, mem_map]
  rfl

theorem childrenOf_splitEntries (parentId : SystemStreamLineageId) :
    childrenOf (splitEntries request.applied entries) parentId =
      (childrenOf entries parentId).map (.sealAt request.parent.lineageId) ++
        if request.parent.lineageId = parentId then [request.left.lineage, request.right.lineage]
        else [] := by
  obtain ⟨-, -, hshape⟩ := request.shape
  have hleft := (hshape request.left mem_cons_self).1
  have hright := (hshape request.right (mem_cons_of_mem _ mem_cons_self)).1
  rw [childrenOf, splitEntries, filter_append, filter_map]
  congr 1
  simp only [SystemStreamSplitRequest.applied, map_cons, map_nil, filter_cons, hleft, hright,
    Option.some.injEq, filter_nil]
  split_ifs <;> simp_all

/-- **A planned split keeps the catalog valid**, if there is room for two lineages. -/
theorem ValidCatalog.split (h : ValidCatalog entries) (hsplit : Splittable entries request)
    (hroom : entries.length + 2 ≤ systemStreamCheckpointMaxEntries) :
    ValidCatalog (splitEntries request.applied entries) := by
  obtain ⟨hids, hshards, hshape⟩ := request.shape
  have hold : ∀ old ∈ entries, old.sealAt request.parent.lineageId ∈
      splitEntries request.applied entries := fun old hmem =>
    mem_splitEntries.mpr (.inl ⟨old, hmem, rfl⟩)
  have hnodup : (lineageIds (splitEntries request.applied entries)).Nodup := by
    rw [lineageIds_splitEntries, nodup_append']
    refine ⟨h.nodup, by simpa [SystemStreamSplitRequest.children] using hids, ?_⟩
    rw [disjoint_right]
    simpa using fun child hchild => (hsplit.fresh child hchild).1
  have hparents : ∀ entry ∈ splitEntries request.applied entries, ∀ parentId,
      entry.parentLineageId = some parentId → ∃ parent ∈ entries, parent.lineageId = parentId ∧
        (parent.sealAt request.parent.lineageId).isSealed = true ∧
        parent.shardId ≠ entry.shardId := by
    intro entry hentry parentId hparent
    rcases mem_splitEntries.mp hentry with ⟨old, hmem, rfl⟩ | ⟨child, hchild, rfl⟩
    · obtain ⟨parent, hmem, hid, hsealed, hshard⟩ := h.parents old hmem parentId hparent
      exact ⟨parent, hmem, hid, by simp [sealAt, hsealed], hshard⟩
    · obtain ⟨hid, hshard⟩ := hshape child hchild
      rw [hid, Option.some.injEq] at hparent
      exact ⟨_, hsplit.parent, hparent, by simp [sealAt], hshard.symm⟩
  refine ⟨by simpa [splitEntries] using hroom, hnodup, ?_, ?_, ?_, ?_, ?_⟩
  · rw [splitEntries, activeLineages, filter_append, map_append, nodup_append', filter_map, map_map]
    refine ⟨h.shards.sublist ((monotone_filter_right _ fun entry => ?_).map _), ?_, ?_⟩
    · simp +contextual [sealAt]
    · refine Nodup.sublist (filter_sublist.map _) ?_
      simpa [SystemStreamSplitRequest.applied] using hshards
    · refine disjoint_left.mpr fun shardId hshard hchild => ?_
      obtain ⟨old, hmem, rfl⟩ := mem_map.mp hshard
      obtain ⟨entry, hentry, hshard⟩ := mem_map.mp hchild
      obtain ⟨child, hchild, rfl⟩ := mem_map.mp (mem_filter.mp hentry).1
      exact (hsplit.fresh child hchild).2 old (mem_filter.mp hmem).1 hshard.symm
  · exact ne_nil_of_mem (a := request.left.lineage) (mem_filter.mpr
      ⟨mem_splitEntries.mpr (.inr ⟨_, mem_cons_self, rfl⟩), by simp [request.left.accepted.1]⟩)
  · intro entry hentry parentId hparent
    obtain ⟨parent, hmem, hrest⟩ := hparents entry hentry parentId hparent
    exact ⟨_, hold parent hmem, hrest⟩
  · -- Old lineages keep their parents, and the children hang below an old one.
    have hagree : ∀ id ∈ lineageIds entries,
        parentOf (splitEntries request.applied entries) id = parentOf entries id := by
      intro id hid
      obtain ⟨old, hmem, rfl⟩ := mem_map.mp hid
      exact (parentOf_of_mem hnodup (hold old hmem)).trans (parentOf_of_mem h.nodup hmem).symm
    have hknown : ∀ {id parentId}, parentOf (splitEntries request.applied entries) id =
        some parentId → parentId ∈ lineageIds entries := by
      intro id parentId hparent
      obtain ⟨entry, hmem, -, hentry⟩ := parentOf_eq_some hparent
      obtain ⟨parent, hold, rfl, -⟩ := hparents entry hmem parentId hentry
      exact mem_map_of_mem hold
    have hrooted : ∀ id, Rooted (parentOf entries) id → id ∈ lineageIds entries →
        Rooted (parentOf (splitEntries request.applied entries)) id := by
      intro id hroot hid
      induction hroot with
      | root hnone => exact .root ((hagree _ hid).trans hnone)
      | step hparent _ ih =>
        have hparent := (hagree _ hid).trans hparent
        exact .step hparent (ih (hknown hparent))
    intro lineageId
    cases hparent : parentOf (splitEntries request.applied entries) lineageId with
    | none => exact .root hparent
    | some parentId => exact .step hparent (hrooted _ (h.rooted _) (hknown hparent))
  · intro parent hparent hsealed
    rw [childrenOf_splitEntries]
    rcases mem_splitEntries.mp hparent with ⟨old, hmem, rfl⟩ | ⟨child, hchild, rfl⟩
    · by_cases hid : request.parent.lineageId = old.lineageId
      · obtain rfl := inj_on_of_nodup_map h.nodup hsplit.parent hmem hid
        have hnone : childrenOf entries request.parent.lineageId = [] := by
          refine filter_eq_nil_iff.mpr fun entry hentry hparent => ?_
          obtain ⟨parent, hparentMem, hid, hsealed, -⟩ :=
            h.parents entry hentry _ (of_decide_eq_true hparent)
          rw [inj_on_of_nodup_map h.nodup hparentMem hmem hid, hsplit.active] at hsealed
          cases hsealed
        refine ⟨_, _, ?_, hshards⟩
        simp [sealAt, hnone]
      · have hold : old.isSealed = true := by
          simpa [sealAt, Ne.symm hid] using hsealed
        obtain ⟨left, right, hchildren, hshard⟩ := h.children old hmem hold
        refine ⟨left.sealAt request.parent.lineageId, right.sealAt request.parent.lineageId,
          ?_, hshard⟩
        simp [sealAt, hid, hchildren]
    · rw [child.accepted.1] at hsealed
      cases hsealed

theorem mem_splitBounds {offset : NonZeroU64} :
    entry ∈ splitBounds ⟨request.applied, offset⟩ bounds ↔
      (∃ old ∈ bounds, old.sealAt request.parent.lineageId offset = entry) ∨
      ∃ child ∈ request.children, child.freshBounds = entry := by
  rw [splitBounds, mem_append, mem_map, mem_map]
  rfl

/-- After a split, a lineage and its bounds were there before, or are of a child. -/
theorem mem_splitPair (hsplit : Splittable entries request)
    (hids : (bounds.map (·.lineageId)).Perm (lineageIds entries)) {offset : NonZeroU64}
    (hlineage : lineage ∈ splitEntries request.applied entries)
    (hentry : entry ∈ splitBounds ⟨request.applied, offset⟩ bounds)
    (heq : entry.lineageId = lineage.lineageId) :
    (∃ old ∈ entries, ∃ found ∈ bounds, found.lineageId = old.lineageId ∧
      old.sealAt request.parent.lineageId = lineage ∧
      found.sealAt request.parent.lineageId offset = entry) ∨
    ∃ child other : SystemStreamSplitChild,
      child.lineage = lineage ∧ other.freshBounds = entry := by
  rcases mem_splitEntries.mp hlineage with ⟨old, hold, rfl⟩ | ⟨child, hchild, rfl⟩ <;>
    rcases mem_splitBounds.mp hentry with ⟨found, hfound, rfl⟩ | ⟨other, hother, rfl⟩
  · exact .inl ⟨old, hold, found, hfound, heq, rfl, rfl⟩
  · exact absurd (mem_map.mpr ⟨old, hold, heq.symm⟩) (hsplit.fresh other hother).1
  · have hmem : found.lineageId ∈ _ := hids.mem_iff.mp (mem_map_of_mem hfound)
    exact absurd (heq ▸ hmem) (hsplit.fresh child hchild).1
  · exact .inr ⟨child, other, rfl, rfl⟩

/-- **A planned split keeps the bounds valid.** -/
theorem ValidBounds.split (h : ValidBounds entries bounds) (hsplit : Splittable entries request)
    (hnodup : (lineageIds entries).Nodup) (hentry : entry ∈ bounds)
    (hid : entry.lineageId = request.parent.lineageId) :
    ValidBounds (splitEntries request.applied entries)
      (splitBounds ⟨request.applied, entry.nextSequence⟩ bounds) := by
  refine ⟨?_, fun lineage hlineage other hother heq => ?_⟩
  · rw [lineageIds_splitEntries, splitBounds, map_append, map_map]
    exact h.ids.append (Perm.refl _)
  · rcases mem_splitPair hsplit h.ids hlineage hother heq with
      ⟨old, hold, found, hfound, hsame, rfl, rfl⟩ | ⟨child, other, rfl, rfl⟩
    · obtain ⟨hle, hsealed⟩ := h.agree old hold found hfound hsame
      refine ⟨hle, ?_⟩
      by_cases hparent : old.lineageId = request.parent.lineageId
      · obtain rfl := inj_on_of_nodup_map (h.ids.nodup_iff.mpr hnodup) hfound hentry
          ((hsame.trans hparent).trans hid.symm)
        simp [SystemStreamHistoryBounds.sealAt, sealAt, hid, hparent]
      · simp_all [SystemStreamHistoryBounds.sealAt, sealAt]
    · exact ⟨le_rfl, by simp [child.accepted.1, SystemStreamSplitChild.freshBounds]⟩

namespace SystemStreamHistory

theorem exists_afterSplit (h : history.planSplit request = .ok receipt)
    (hroom : history.catalog.entries.length + 2 ≤ systemStreamCheckpointMaxEntries) :
    ∃ next, history.afterSplit receipt = .ok next := by
  obtain ⟨hsplit, parent, hparent, hid, rfl⟩ := planSplit_eq_ok h
  have hcatalog := validateLineageCatalog_eq_ok.mpr (history.catalog.valid.split hsplit hroom)
  have hbounds := history.valid.split hsplit history.catalog.valid.nodup hparent hid
  let catalog : SystemStreamLineageCatalog := ⟨history.catalog.sourceScope, _, hcatalog⟩
  exact ⟨⟨catalog, _, (validateBounds_eq_ok catalog.valid.nodup).mpr hbounds⟩,
    Except.bind_eq_ok.mpr ⟨catalog, SystemStreamLineageCatalog.tryNew_eq_ok.mpr ⟨rfl, rfl⟩,
      tryNew_eq_ok.mpr ⟨rfl, rfl⟩⟩⟩

/-- **What can be read after a planned split**: everything, if there was room for two lineages, and
nothing otherwise. The plan does not look at that. -/
theorem isOk_afterSplit :
    (history.planSplit request >>= history.afterSplit).isOk =
      ((history.planSplit request).isOk &&
        decide (history.catalog.entries.length + 2 ≤ systemStreamCheckpointMaxEntries)) := by
  cases hplan : history.planSplit request with
  | error e => rfl
  | ok receipt =>
    change (history.afterSplit receipt).isOk = (true && _)
    cases hafter : history.afterSplit receipt with
    | error e =>
      symm
      refine (Bool.true_and _).trans (decide_eq_false fun hroom => ?_)
      obtain ⟨next, hnext⟩ := exists_afterSplit hplan hroom
      cases hafter.symm.trans hnext
    | ok next =>
      obtain ⟨catalog, hcatalog, -⟩ := Except.bind_eq_ok.mp hafter
      have hsmall := catalog.valid.small
      rw [(SystemStreamLineageCatalog.tryNew_eq_ok.mp hcatalog).2] at hsmall
      exact (decide_eq_true (by simpa [splitEntries] using hsmall)).symm

end SystemStreamHistory

/-! ### Runs -/

variable (digest : List UInt8 → ℕ)

/-- A stream and the positions of its rows, the newest first. -/
structure StreamState where
  history : SystemStreamHistory
  rows : List SystemStreamPosition

inductive StreamEvent where
  | write (routingKey : List UInt8)
  | split (request : SystemStreamSplitRequest)

/-- A refused request changes nothing. There is no state when the stored history cannot be read. -/
def StreamState.step (state : StreamState) : StreamEvent → Option StreamState
  | .write routingKey =>
    match state.history.reserveWrite digest routingKey with
    | .ok (allocation, next) => some ⟨next, allocation.position :: state.rows⟩
    | .error _ => some state
  | .split request =>
    match state.history.planSplit request with
    | .ok receipt =>
      match state.history.afterSplit receipt with
      | .ok next => some ⟨next, state.rows⟩
      | .error _ => none
    | .error _ => some state

def StreamState.run (state : StreamState) (events : List StreamEvent) : Option StreamState :=
  events.foldlM (StreamState.step digest) state

variable {digest}

/-- A position within the bounds of a lineage. -/
def SystemStreamHistory.Holds (history : SystemStreamHistory) (position : SystemStreamPosition) :
    Prop :=
  ∃ lineage ∈ history.catalog.entries, ∃ entry ∈ history.bounds,
    entry.lineageId = lineage.lineageId ∧ ∃ n, entry.initialSequence.val ≤ n ∧
      n < entry.nextSequence.val ∧ position = ⟨lineage.shardId, lineage.lineageId, .numeric n⟩

/-- The rows are at the positions within the bounds, one at each. -/
def StreamState.Committed (state : StreamState) : Prop :=
  state.rows.Nodup ∧ ∀ position, position ∈ state.rows ↔ state.history.Holds position

theorem SystemStreamOffset.numeric_inj {m n : ℕ} (hm : m < 2 ^ 64) (hn : n < 2 ^ 64)
    (h : numeric m = numeric n) : m = n :=
  Except.ok.inj ((order_numeric hm).symm.trans (h ▸ order_numeric hn))

/-- A write adds the position after the last one of its lineage. -/
theorem SystemStreamHistory.holds_reserveWrite {routingKey : List UInt8}
    {allocation : SystemStreamWriteAllocation}
    (h : history.reserveWrite digest routingKey = .ok (allocation, next)) :
    ¬history.Holds allocation.position ∧ ∀ position,
      next.Holds position ↔ position = allocation.position ∨ history.Holds position := by
  rw [reserveWrite.eq_def] at h
  split at h <;> cases h
  next hplan =>
  obtain ⟨writer, hwriter, -, found, hfound, hid, hposition, hnext⟩ := planWrite_eq_ok hplan
  unfold Holds
  simp only [hposition]
  refine ⟨?_, fun position => ⟨?_, ?_⟩⟩
  · rintro ⟨lineage, hmem, entry, hentry, heq, n, -, hlt, hwritten⟩
    rw [SystemStreamPosition.mk.injEq] at hwritten
    obtain ⟨-, rfl⟩ := eq_of_id hmem hentry heq hwriter hfound hid hwritten.2.1.symm
    have hn := SystemStreamOffset.numeric_inj entry.nextSequence.2.2
      (hlt.trans entry.nextSequence.2.2) hwritten.2.2
    omega
  · rintro ⟨lineage, hmem, _, hadvance, heq, n, hle, hlt, rfl⟩
    obtain ⟨entry, hentry, rfl⟩ := mem_map.mp hadvance
    rw [advance] at hlt
    split_ifs at hlt with hwritten
    · obtain ⟨rfl, rfl⟩ := eq_of_id hmem hentry heq hwriter hfound hid (heq.symm.trans hwritten)
      rcases Nat.lt_succ_iff_lt_or_eq.mp (hnext ▸ hlt) with hlt | rfl
      · exact .inr ⟨_, hmem, _, hentry, heq, n, hle, hlt, rfl⟩
      · exact .inl rfl
    · exact .inr ⟨_, hmem, _, hentry, heq, n, hle, hlt, rfl⟩
  · rintro (rfl | ⟨lineage, hmem, entry, hentry, heq, n, hle, hlt, rfl⟩)
    · have hle := (history.valid.agree writer hwriter found hfound hid).1
      refine ⟨writer, hwriter, _, mem_map_of_mem hfound, hid, _, hle, ?_, rfl⟩
      simp [advance, hid, hnext]
    · refine ⟨lineage, hmem, _, mem_map_of_mem hentry, heq, n, hle, ?_, rfl⟩
      rw [advance]
      split_ifs with hwritten
      · obtain ⟨-, rfl⟩ := eq_of_id hmem hentry heq hwriter hfound hid (heq.symm.trans hwritten)
        exact hnext ▸ Nat.lt_succ_of_lt hlt
      · exact hlt

/-- A split holds no other positions than before. -/
theorem SystemStreamHistory.holds_afterSplit (h : history.planSplit request = .ok receipt)
    (hnext : history.afterSplit receipt = .ok next) (position : SystemStreamPosition) :
    next.Holds position ↔ history.Holds position := by
  obtain ⟨hsplit, parent, hparent, hid, rfl⟩ := planSplit_eq_ok h
  obtain ⟨catalog, hcatalog, hnext⟩ := Except.bind_eq_ok.mp hnext
  obtain ⟨rfl, hbounds⟩ := tryNew_eq_ok.mp hnext
  rw [Holds, Holds, (SystemStreamLineageCatalog.tryNew_eq_ok.mp hcatalog).2, hbounds]
  constructor
  · rintro ⟨lineage, hlineage, entry, hentry, heq, n, hle, hlt, rfl⟩
    rcases mem_splitPair hsplit history.valid.ids hlineage hentry heq with
      ⟨old, hold, found, hfound, hsame, rfl, rfl⟩ | ⟨_, child, -, rfl⟩
    · exact ⟨old, hold, found, hfound, hsame, n, hle, hlt, rfl⟩
    · exact absurd hlt hle.not_gt
  · rintro ⟨lineage, hlineage, entry, hentry, heq, n, hle, hlt, rfl⟩
    exact ⟨_, mem_splitEntries.mpr (.inl ⟨lineage, hlineage, rfl⟩), _,
      mem_splitBounds.mpr (.inl ⟨entry, hentry, rfl⟩), heq, n, hle, hlt, rfl⟩

namespace StreamState

open SystemStreamHistory

variable {state after : StreamState} {event : StreamEvent} {events : List StreamEvent}

theorem Committed.step (h : state.Committed) (hstep : state.step digest event = some after) :
    after.Committed := by
  rw [StreamState.step.eq_def] at hstep
  split at hstep
  · split at hstep <;> cases hstep
    · next hwrite =>
      obtain ⟨hfresh, hholds⟩ := holds_reserveWrite hwrite
      refine ⟨nodup_cons.mpr ⟨fun hmem => hfresh ((h.2 _).mp hmem), h.1⟩, fun position => ?_⟩
      rw [mem_cons, h.2, hholds]
    · exact h
  · split at hstep
    · next hplan =>
      split at hstep <;> cases hstep
      next hafter =>
      exact ⟨h.1, fun position => (h.2 _).trans (holds_afterSplit hplan hafter position).symm⟩
    · cases hstep
      exact h

/-- **No position is given twice, and none is left out**, in any run of a new stream. -/
theorem committed_run
    (hnew : ∀ entry ∈ history.bounds, entry.nextSequence = entry.initialSequence)
    (hrun : run digest ⟨history, []⟩ events = some state) : state.Committed := by
  have hinit : Committed ⟨history, []⟩ := by
    refine ⟨nodup_nil, fun position => iff_of_false not_mem_nil ?_⟩
    rintro ⟨-, -, entry, hentry, -, n, hle, hlt, -⟩
    rw [hnew entry hentry] at hlt
    exact hlt.not_ge hle
  generalize StreamState.mk history [] = start at hrun hinit
  induction events generalizing start with
  | nil =>
    cases hrun
    exact hinit
  | cons event events ih =>
    rw [run, foldlM_cons] at hrun
    obtain ⟨next, hstep, hrun⟩ := Option.bind_eq_some_iff.mp hrun
    exact ih next hrun (hinit.step hstep)

theorem step_eq_none (h : state.step digest event = none) :
    ∃ request, event = .split request ∧ (state.history.planSplit request).isOk ∧
      systemStreamCheckpointMaxEntries < state.history.catalog.entries.length + 2 := by
  rw [StreamState.step.eq_def] at h
  split at h
  · split at h <;> cases h
  · next request =>
    split at h
    · next hplan =>
      refine ⟨request, rfl, by rw [hplan]; rfl, lt_of_not_ge fun hroom => ?_⟩
      obtain ⟨next, hnext⟩ := exists_afterSplit hplan hroom
      rw [hnext] at h
      cases h
    · cases h

/-- **A run goes through**, or it breaks off at a split that is planned in a full catalog. -/
theorem isSome_run_or_full : (state.run digest events).isSome ∨
    ∃ before request full, before ++ [.split request] <+: events ∧
      state.run digest before = some full ∧ (full.history.planSplit request).isOk ∧
      systemStreamCheckpointMaxEntries < full.history.catalog.entries.length + 2 := by
  induction events generalizing state with
  | nil => exact .inl rfl
  | cons event events ih =>
    simp only [run, foldlM_cons] at ih ⊢
    cases hstep : state.step digest event with
    | none =>
      obtain ⟨request, rfl, hplan, hfull⟩ := step_eq_none hstep
      exact .inr ⟨[], request, state, by simp, rfl, hplan, hfull⟩
    | some next =>
      refine (@ih next).imp_right ?_
      rintro ⟨before, request, full, hbefore, hrun, hfull⟩
      refine ⟨event :: before, request, full, by simpa using hbefore, ?_, hfull⟩
      rw [foldlM_cons, hstep]
      exact hrun

end StreamState

/-! ### A run with a split -/

section Samples

variable {lineage : SystemStreamLineage} {entry : SystemStreamHistoryBounds} {number : NonZeroU64}

/-- A write when the active lineages stand in order. -/
theorem SystemStreamHistory.planWrite_of_sorted
    (hsorted : (activeLineages history.catalog.entries).Pairwise fun l m => l.le m = true)
    (hactive : (activeLineages history.catalog.entries)[digest routingKey %
      (activeLineages history.catalog.entries).length]? = some lineage)
    (hentry : history.findBounds lineage.lineageId = .ok entry)
    (hnumber : entry.nextSequence.checkedAdd = some number)
    (hallocation : allocation = ⟨⟨lineage.shardId, lineage.lineageId,
      .numeric entry.nextSequence.val⟩, entry.nextSequence, number⟩) :
    history.planWrite digest routingKey = .ok allocation := by
  subst hallocation
  have hwriter : history.catalog.writerLineage digest routingKey = .ok lineage := by
    simp only [SystemStreamLineageCatalog.writerLineage, mergeSort_of_pairwise hsorted, hactive]
    rfl
  rw [planWrite, hwriter]
  refine Except.bind_eq_ok.mpr ⟨lineage, rfl, ?_⟩
  refine Except.bind_eq_ok.mpr ⟨entry, Except.mapError_eq_ok.mpr hentry, ?_⟩
  refine Except.bind_eq_ok.mpr ⟨number, okOr_eq_ok.mpr hnumber, ?_⟩
  rw [SystemStreamLineage.position, SystemStreamOffset.tryNew_numericText]
  rfl

/-- A planned write is carried out. -/
theorem StreamState.step_write {rows : List SystemStreamPosition}
    (hplan : history.planWrite digest routingKey = .ok allocation)
    (hcatalog : next.catalog = history.catalog)
    (hbounds : next.bounds = history.bounds.map
      (.advance allocation.position.lineageId allocation.nextOffset)) :
    StreamState.step digest ⟨history, rows⟩ (.write routingKey) =
      some ⟨next, allocation.position :: rows⟩ := by
  have hwrite : history.reserveWrite digest routingKey = .ok (allocation, next) := by
    rw [SystemStreamHistory.reserveWrite.eq_def]
    split
    · next h =>
      obtain rfl := Except.ok.inj (hplan.symm.trans h)
      cases next
      simp_all
    · next h => cases hplan.symm.trans h
  rw [StreamState.step, hwrite]

theorem StreamState.run_cons {state after : StreamState} {event : StreamEvent}
    {events : List StreamEvent} (h : state.step digest event = some after) :
    state.run digest (event :: events) = after.run digest events := by
  rw [run, foldlM_cons, h]
  rfl

end Samples

theorem one_nonZero : 0 < 1 ∧ 1 < 2 ^ 64 := by decide

theorem two_nonZero : 0 < 2 ∧ 2 < 2 ^ 64 := by decide

/-- A new stream with one lineage. -/
def sampleHistory : SystemStreamHistory :=
  ⟨sampleCatalog, [⟨⟨['a'], boundedText_a⟩, ⟨1, one_nonZero⟩, ⟨1, one_nonZero⟩, none⟩], by decide⟩

/-- The child of the one lineage with a name of its own. -/
def sampleChild (id : BoundedText 128) (h : some ⟨['a'], boundedText_a⟩ ≠ some id) :
    SystemStreamSplitChild :=
  ⟨sampleLineage id (some ⟨['a'], boundedText_a⟩) false h, ⟨1, one_nonZero⟩,
    rfl, Option.some_ne_none _, by decide⟩

/-- The split of the one lineage. -/
def sampleRequest : SystemStreamSplitRequest where
  sourceScope := sampleScope
  parent := sampleLineage ⟨['a'], boundedText_a⟩ none false none_ne_a
  left := sampleChild ⟨['b'], boundedText_b⟩ a_ne_b
  right := sampleChild ⟨['c'], boundedText_c⟩ a_ne_c
  operationId := ⟨['a'], boundedText_a⟩
  accepted := by decide

/-- The catalog after the split. -/
def splitCatalog : SystemStreamLineageCatalog :=
  ⟨sampleScope, splitEntries sampleRequest.applied sampleCatalog.entries, by decide +kernel⟩

/-- The bounds after one write and the split, with the next numbers of the two children. -/
def sampleBounds (left right : NonZeroU64) : List SystemStreamHistoryBounds :=
  [⟨⟨['a'], boundedText_a⟩, ⟨1, one_nonZero⟩, ⟨2, two_nonZero⟩, some ⟨2, two_nonZero⟩⟩,
    ⟨⟨['b'], boundedText_b⟩, ⟨1, one_nonZero⟩, left, none⟩,
    ⟨⟨['c'], boundedText_c⟩, ⟨1, one_nonZero⟩, right, none⟩]

/-- The stream after one write. -/
def writtenHistory : SystemStreamHistory :=
  ⟨sampleCatalog, [⟨⟨['a'], boundedText_a⟩, ⟨1, one_nonZero⟩, ⟨2, two_nonZero⟩, none⟩], by decide⟩

/-- The stream after the split. -/
def splitHistory : SystemStreamHistory :=
  ⟨splitCatalog, sampleBounds ⟨1, one_nonZero⟩ ⟨1, one_nonZero⟩, by decide +kernel⟩

/-- The stream after a write to the left child. -/
def leftHistory : SystemStreamHistory :=
  ⟨splitCatalog, sampleBounds ⟨2, two_nonZero⟩ ⟨1, one_nonZero⟩, by decide +kernel⟩

/-- The stream after a write to each child. -/
def bothHistory : SystemStreamHistory :=
  ⟨splitCatalog, sampleBounds ⟨2, two_nonZero⟩ ⟨2, two_nonZero⟩, by decide +kernel⟩

/-- A key is routed by its length. -/
def byLength (routingKey : List UInt8) : ℕ := routingKey.length

/-- The position of the first row of a lineage. -/
def firstPosition (id : BoundedText 128) : SystemStreamPosition := ⟨id, id, .numeric 1⟩

/-- A write, a split, a write to each of the children, and the split once more, which is refused. -/
theorem committed_write :
    StreamState.run byLength ⟨sampleHistory, []⟩ [.write [], .split sampleRequest, .write [],
        .write [0], .split sampleRequest] = some ⟨bothHistory, [firstPosition ⟨['c'], boundedText_c⟩,
        firstPosition ⟨['b'], boundedText_b⟩, firstPosition ⟨['a'], boundedText_a⟩]⟩ ∧
    (∃ e, bothHistory.planSplit sampleRequest = .error e) ∧
    StreamState.Committed ⟨bothHistory, [firstPosition ⟨['c'], boundedText_c⟩,
      firstPosition ⟨['b'], boundedText_b⟩, firstPosition ⟨['a'], boundedText_a⟩]⟩ := by
  have hplanA : sampleHistory.planWrite byLength [] = .ok
      ⟨firstPosition ⟨['a'], boundedText_a⟩, ⟨1, one_nonZero⟩, ⟨2, two_nonZero⟩⟩ := by
    apply SystemStreamHistory.planWrite_of_sorted
    · decide
    all_goals rfl
  have hfirst : StreamState.step byLength ⟨sampleHistory, []⟩ (.write []) =
      some ⟨writtenHistory, [firstPosition ⟨['a'], boundedText_a⟩]⟩ :=
    StreamState.step_write hplanA rfl rfl
  have hplan : writtenHistory.planSplit sampleRequest
      = .ok ⟨sampleRequest.applied, ⟨2, two_nonZero⟩⟩ := rfl
  have hafter : writtenHistory.afterSplit ⟨sampleRequest.applied, ⟨2, two_nonZero⟩⟩
      = .ok splitHistory :=
    Except.bind_eq_ok.mpr ⟨splitCatalog, SystemStreamLineageCatalog.tryNew_eq_ok.mpr ⟨rfl, rfl⟩,
      SystemStreamHistory.tryNew_eq_ok.mpr ⟨rfl, rfl⟩⟩
  have hsplit : StreamState.step byLength
      ⟨writtenHistory, [firstPosition ⟨['a'], boundedText_a⟩]⟩ (.split sampleRequest) =
      some ⟨splitHistory, [firstPosition ⟨['a'], boundedText_a⟩]⟩ := by
    simp only [StreamState.step, hplan, hafter]
  have hplanB : splitHistory.planWrite byLength [] = .ok
      ⟨firstPosition ⟨['b'], boundedText_b⟩, ⟨1, one_nonZero⟩, ⟨2, two_nonZero⟩⟩ := by
    apply SystemStreamHistory.planWrite_of_sorted
    · decide
    all_goals rfl
  have hleft : StreamState.step byLength ⟨splitHistory, [firstPosition ⟨['a'], boundedText_a⟩]⟩
      (.write []) = some ⟨leftHistory, [firstPosition ⟨['b'], boundedText_b⟩,
        firstPosition ⟨['a'], boundedText_a⟩]⟩ :=
    StreamState.step_write hplanB rfl rfl
  have hplanC : leftHistory.planWrite byLength [0] = .ok
      ⟨firstPosition ⟨['c'], boundedText_c⟩, ⟨1, one_nonZero⟩, ⟨2, two_nonZero⟩⟩ := by
    apply SystemStreamHistory.planWrite_of_sorted
    · decide
    all_goals rfl
  have hright : StreamState.step byLength ⟨leftHistory, [firstPosition ⟨['b'], boundedText_b⟩,
      firstPosition ⟨['a'], boundedText_a⟩]⟩ (.write [0]) = some ⟨bothHistory,
        [firstPosition ⟨['c'], boundedText_c⟩, firstPosition ⟨['b'], boundedText_b⟩,
          firstPosition ⟨['a'], boundedText_a⟩]⟩ :=
    StreamState.step_write hplanC rfl rfl
  have hrefused : bothHistory.planSplit sampleRequest = .error .backendContract := rfl
  have hagain : StreamState.step byLength ⟨bothHistory, [firstPosition ⟨['c'], boundedText_c⟩,
      firstPosition ⟨['b'], boundedText_b⟩, firstPosition ⟨['a'], boundedText_a⟩]⟩
      (.split sampleRequest) = some ⟨bothHistory, [firstPosition ⟨['c'], boundedText_c⟩,
        firstPosition ⟨['b'], boundedText_b⟩, firstPosition ⟨['a'], boundedText_a⟩]⟩ := by
    simp only [StreamState.step, hrefused]
  have hrun : StreamState.run byLength ⟨sampleHistory, []⟩ [.write [], .split sampleRequest,
      .write [], .write [0], .split sampleRequest] = some ⟨bothHistory,
        [firstPosition ⟨['c'], boundedText_c⟩, firstPosition ⟨['b'], boundedText_b⟩,
          firstPosition ⟨['a'], boundedText_a⟩]⟩ := by
    rw [StreamState.run_cons hfirst, StreamState.run_cons hsplit, StreamState.run_cons hleft,
      StreamState.run_cons hright, StreamState.run_cons hagain]
    rfl
  exact ⟨hrun, ⟨_, hrefused⟩, StreamState.committed_run (by decide) hrun⟩

end AuxStorage
