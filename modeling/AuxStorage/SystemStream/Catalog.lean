import AuxStorage.SystemStream.Offset
import AuxStorage.Lib.Forest

/-!
# The Lineage Catalog of the System Stream

A lineage belongs to a shard and may have a parent. A lineage that has been split is sealed
and has two children. A catalog is a list of lineages that `validate_lineage_catalog`
accepts; nothing else is a catalog.
-/

namespace AuxStorage

open Forest
open List

structure SystemStreamLineage where
  shardId : SystemStreamShardId
  lineageId : SystemStreamLineageId
  parentLineageId : Option SystemStreamLineageId
  isSealed : Bool
  parent_ne : parentLineageId ≠ some lineageId
  deriving DecidableEq

namespace SystemStreamLineage

/-- `SystemStreamLineage::try_new`, for identifiers that are valid. -/
def tryNew (shardId : SystemStreamShardId) (lineageId : SystemStreamLineageId)
    (parentLineageId : Option SystemStreamLineageId) (isSealed : Bool) :
    Except SystemStreamContractError SystemStreamLineage :=
  if h : parentLineageId = some lineageId then .error .backendContract
  else .ok ⟨shardId, lineageId, parentLineageId, isSealed, h⟩

def position (lineage : SystemStreamLineage) (offset : Text) :
    Except SystemStreamContractError SystemStreamPosition := do
  let offset ← SystemStreamOffset.tryNew offset
  pure ⟨lineage.shardId, lineage.lineageId, offset⟩

end SystemStreamLineage

/-! ### Validation -/

/-- The first loop of `validate_lineage_catalog`: the active shards. -/
def checkIdentities (lineageIds : List SystemStreamLineageId)
    (activeShards : List SystemStreamShardId) :
    List SystemStreamLineage → Except SystemStreamContractError (List SystemStreamShardId)
  | [] => pure activeShards
  | entry :: rest =>
    if entry.lineageId ∈ lineageIds then .error .backendContract
    else if entry.isSealed then checkIdentities (entry.lineageId :: lineageIds) activeShards rest
    else if entry.shardId ∈ activeShards then .error .duplicateShard
    else checkIdentities (entry.lineageId :: lineageIds) (entry.shardId :: activeShards) rest

/-- The lineage with an identifier. -/
def findLineage (entries : List SystemStreamLineage) (lineageId : SystemStreamLineageId) :
    Option SystemStreamLineage :=
  entries.find? fun entry => entry.lineageId = lineageId

/-- The parent of the lineage with an identifier. -/
def parentOf (entries : List SystemStreamLineage) (lineageId : SystemStreamLineageId) :
    Option SystemStreamLineageId :=
  (findLineage entries lineageId).bind SystemStreamLineage.parentLineageId

/-- The identifiers of lineages. -/
def lineageIds (entries : List SystemStreamLineage) : List SystemStreamLineageId :=
  entries.map SystemStreamLineage.lineageId

/-- One round of the second loop: the parent is known, sealed and of another shard, and
there is no cycle. -/
def checkParent (entries : List SystemStreamLineage) (entry : SystemStreamLineage) :
    Except SystemStreamContractError Unit :=
  match entry.parentLineageId with
  | none => pure ()
  | some parentId =>
    match findLineage entries parentId with
    | none => .error .unknownLineage
    | some parent =>
      if !parent.isSealed || parent.shardId = entry.shardId then .error .backendContract
      else if climbEnds (parentOf entries) (lineageIds entries) [] (some parentId) then pure ()
      else .error .backendContract

/-- The children of a lineage, in the order of the catalog. -/
def childrenOf (entries : List SystemStreamLineage) (parentId : SystemStreamLineageId) :
    List SystemStreamLineage :=
  entries.filter fun entry => entry.parentLineageId = some parentId

/-- One round of the third loop: a sealed lineage has two children of different shards. -/
def checkChildren (entries : List SystemStreamLineage) (parent : SystemStreamLineage) :
    Except SystemStreamContractError Unit :=
  match childrenOf entries parent.lineageId with
  | [left, right] =>
    if left.shardId = right.shardId then .error .backendContract else pure ()
  | _ => .error .backendContract

def validateLineageCatalog (entries : List SystemStreamLineage) :
    Except SystemStreamContractError Unit :=
  if entries = [] ∨ systemStreamCheckpointMaxEntries < entries.length then
    .error .backendContract
  else do
    let activeShards ← checkIdentities [] [] entries
    if activeShards = [] then .error .backendContract
    else do
      forM entries (checkParent entries)
      forM (entries.filter SystemStreamLineage.isSealed) (checkChildren entries)

/-- The lineages that are not sealed. -/
def activeLineages (entries : List SystemStreamLineage) : List SystemStreamLineage :=
  entries.filter fun entry => !entry.isSealed

/-- What an accepted catalog is. -/
structure ValidCatalog (entries : List SystemStreamLineage) : Prop where
  small : entries.length ≤ systemStreamCheckpointMaxEntries
  nodup : (lineageIds entries).Nodup
  shards : ((activeLineages entries).map SystemStreamLineage.shardId).Nodup
  active : activeLineages entries ≠ []
  parents : ∀ entry ∈ entries, ∀ parentId, entry.parentLineageId = some parentId →
    ∃ parent ∈ entries, parent.lineageId = parentId ∧ parent.isSealed = true
      ∧ parent.shardId ≠ entry.shardId
  rooted : ∀ lineageId, Rooted (parentOf entries) lineageId
  children : ∀ parent ∈ entries, parent.isSealed = true →
    ∃ left right, childrenOf entries parent.lineageId = [left, right]
      ∧ left.shardId ≠ right.shardId

/-! ### What is accepted -/

variable {entries : List SystemStreamLineage}

theorem checkIdentities_eq_ok {ids : List SystemStreamLineageId}
    {shards result : List SystemStreamShardId} (hids : ids.Nodup) (hshards : shards.Nodup) :
    checkIdentities ids shards entries = .ok result ↔
      ((lineageIds entries).reverse ++ ids).Nodup ∧
      (((activeLineages entries).map SystemStreamLineage.shardId).reverse ++ shards).Nodup ∧
      result = ((activeLineages entries).map SystemStreamLineage.shardId).reverse ++ shards := by
  induction entries generalizing ids shards with
  | nil =>
    simp only [checkIdentities, lineageIds, activeLineages]
    simp [hids, hshards, pure, Except.pure, eq_comm]
  | cons entry entries ih =>
    have hlineages : (lineageIds (entry :: entries)).reverse ++ ids
        = (lineageIds entries).reverse ++ entry.lineageId :: ids := by simp [lineageIds]
    rw [checkIdentities, hlineages]
    by_cases hid : entry.lineageId ∈ ids
    · rw [if_pos hid]
      refine iff_of_false (by simp) fun h => ?_
      exact (nodup_cons.mp (nodup_append.mp h.1).2.1).1 hid
    · have hids := nodup_cons.mpr ⟨hid, hids⟩
      rw [if_neg hid]
      by_cases hsealed : entry.isSealed = true
      · rw [if_pos hsealed, ih hids hshards]
        simp [activeLineages, hsealed]
      · have hactive : ((activeLineages (entry :: entries)).map SystemStreamLineage.shardId).reverse
            ++ shards = ((activeLineages entries).map SystemStreamLineage.shardId).reverse
              ++ entry.shardId :: shards := by simp [activeLineages, hsealed]
        rw [if_neg hsealed, hactive]
        by_cases hshard : entry.shardId ∈ shards
        · rw [if_pos hshard]
          refine iff_of_false (by simp) fun h => ?_
          exact (nodup_cons.mp (nodup_append.mp h.2.1).2.1).1 hshard
        · rw [if_neg hshard, ih hids (nodup_cons.mpr ⟨hshard, hshards⟩)]

variable {lineageId : SystemStreamLineageId}

theorem findLineage_eq_some {lineage : SystemStreamLineage}
    (h : findLineage entries lineageId = some lineage) :
    lineage ∈ entries ∧ lineage.lineageId = lineageId := by
  refine ⟨mem_of_find?_eq_some h, ?_⟩
  simpa using find?_some h

/-- Identifiers are unique, so a lineage is found by its own. -/
theorem findLineage_of_mem (hnodup : (lineageIds entries).Nodup) {lineage : SystemStreamLineage}
    (hmem : lineage ∈ entries) : findLineage entries lineage.lineageId = some lineage := by
  cases hfind : findLineage entries lineage.lineageId with
  | none =>
    have hnone := find?_eq_none.mp hfind lineage hmem
    simp at hnone
  | some found =>
    obtain ⟨hfound, hid⟩ := findLineage_eq_some hfind
    rw [inj_on_of_nodup_map hnodup hfound hmem hid]

theorem parentOf_eq_some {parentId : SystemStreamLineageId}
    (h : parentOf entries lineageId = some parentId) :
    ∃ lineage ∈ entries, lineage.lineageId = lineageId
      ∧ lineage.parentLineageId = some parentId := by
  obtain ⟨lineage, hfind, hparent⟩ := Option.bind_eq_some_iff.mp h
  obtain ⟨hmem, hid⟩ := findLineage_eq_some hfind
  exact ⟨lineage, hmem, hid, hparent⟩

theorem parentOf_of_mem (hnodup : (lineageIds entries).Nodup) {lineage : SystemStreamLineage}
    (hmem : lineage ∈ entries) : parentOf entries lineage.lineageId = lineage.parentLineageId := by
  rw [parentOf, findLineage_of_mem hnodup hmem]
  rfl

theorem mem_ids_of_parentOf (lineageId parentId : SystemStreamLineageId)
    (h : parentOf entries lineageId = some parentId) : lineageId ∈ lineageIds entries := by
  obtain ⟨lineage, hmem, rfl, -⟩ := parentOf_eq_some h
  exact mem_map_of_mem hmem

theorem checkParent_eq_ok {entry : SystemStreamLineage} :
    checkParent entries entry = .ok () ↔ ∀ parentId, entry.parentLineageId = some parentId →
      (∃ parent, findLineage entries parentId = some parent ∧ parent.isSealed = true
        ∧ parent.shardId ≠ entry.shardId) ∧ Rooted (parentOf entries) parentId := by
  rw [checkParent.eq_def]
  cases hparent : entry.parentLineageId with
  | none => simp [pure, Except.pure]
  | some parentId =>
    simp only [Option.some.injEq, forall_eq']
    cases hfind : findLineage entries parentId with
    | none => simp
    | some parent =>
      simp only [Option.some.injEq, exists_eq_left', Bool.or_eq_true, Bool.not_eq_true',
        decide_eq_true_eq]
      rw [← climbEnds_iff mem_ids_of_parentOf]
      split_ifs with hbad hends
      · refine iff_of_false (by simp) fun h => ?_
        rcases hbad with hbad | hbad
        · simp [hbad] at h
        · exact h.1.2 hbad
      · simp only [not_or, Bool.not_eq_false] at hbad
        exact iff_of_true rfl ⟨hbad, hends⟩
      · exact iff_of_false (by simp) fun h => hends h.2

theorem checkChildren_eq_ok {parent : SystemStreamLineage} :
    checkChildren entries parent = .ok () ↔
      ∃ left right, childrenOf entries parent.lineageId = [left, right]
        ∧ left.shardId ≠ right.shardId := by
  rw [checkChildren.eq_def]
  split
  · rename_i left right hchildren
    rw [hchildren]
    by_cases hshard : left.shardId = right.shardId
    · simp [hshard]
    · simp [hshard, pure, Except.pure]
  · rename_i hne
    simp only [reduceCtorEq, false_iff]
    rintro ⟨left, right, hchildren, -⟩
    exact hne left right hchildren

/-- **What an accepted catalog is.** -/
theorem validateLineageCatalog_eq_ok :
    validateLineageCatalog entries = .ok () ↔ ValidCatalog entries := by
  rw [validateLineageCatalog]
  constructor
  · intro h
    split at h
    · cases h
    · rename_i hsize
      rw [not_or, not_lt] at hsize
      obtain ⟨shards, hids, h⟩ := Except.bind_eq_ok.mp h
      obtain ⟨hnodup, hshards, hresult⟩ := (checkIdentities_eq_ok .nil .nil).mp hids
      rw [append_nil, nodup_reverse] at hnodup hshards
      split at h
      · cases h
      · rename_i hactive
        obtain ⟨u, hparents, hchildren⟩ := Except.bind_eq_ok.mp h
        have hparents := Except.forM_eq_ok.mp hparents
        have hchildren := Except.forM_eq_ok.mp hchildren
        have hparent := fun entry hmem => checkParent_eq_ok.mp (hparents entry hmem)
        refine ⟨hsize.2, hnodup, hshards, ?_, ?_, ?_, ?_⟩
        · rintro hnil
          rw [hresult, hnil] at hactive
          exact hactive rfl
        · intro entry hmem parentId hentry
          obtain ⟨parent, hfind, hsealed, hshard⟩ := (hparent entry hmem parentId hentry).1
          obtain ⟨hmem, hid⟩ := findLineage_eq_some hfind
          exact ⟨parent, hmem, hid, hsealed, hshard⟩
        · intro lineageId
          cases hlineage : parentOf entries lineageId with
          | none => exact .root hlineage
          | some parentId =>
            obtain ⟨entry, hmem, -, hentry⟩ := parentOf_eq_some hlineage
            exact .step hlineage (hparent entry hmem parentId hentry).2
        · intro parent hmem hsealed
          exact checkChildren_eq_ok.mp (hchildren parent (mem_filter.mpr ⟨hmem, hsealed⟩))
  · intro h
    have hne : entries ≠ [] := by
      rintro rfl
      exact h.active rfl
    have hids : checkIdentities [] [] entries
        = .ok (((activeLineages entries).map SystemStreamLineage.shardId).reverse ++ []) :=
      (checkIdentities_eq_ok .nil .nil).mpr ⟨by simpa using h.nodup, by simpa using h.shards, rfl⟩
    have hactive :
        ((activeLineages entries).map SystemStreamLineage.shardId).reverse ++ [] ≠ [] := by
      simpa using h.active
    rw [if_neg (by rw [not_or, not_lt]; exact ⟨hne, h.small⟩), hids]
    refine Except.bind_eq_ok.mpr ⟨_, rfl, ?_⟩
    rw [if_neg hactive]
    refine Except.bind_eq_ok.mpr ⟨(), Except.forM_eq_ok.mpr fun entry hmem => ?_,
      Except.forM_eq_ok.mpr fun parent hmem => ?_⟩
    · refine checkParent_eq_ok.mpr fun parentId hentry => ⟨?_, h.rooted parentId⟩
      obtain ⟨parent, hparent, rfl, hsealed, hshard⟩ := h.parents entry hmem parentId hentry
      exact ⟨parent, findLineage_of_mem h.nodup hparent, hsealed, hshard⟩
    · obtain ⟨hmem, hsealed⟩ := mem_filter.mp hmem
      exact checkChildren_eq_ok.mpr (h.children parent hmem hsealed)

/-! ### Catalogs -/

structure SystemStreamLineageCatalog where
  sourceScope : SystemStreamScope
  entries : List SystemStreamLineage
  accepted : validateLineageCatalog entries = .ok ()
  deriving DecidableEq

namespace SystemStreamLineageCatalog

def tryNew (sourceScope : SystemStreamScope) (entries : List SystemStreamLineage) :
    Except SystemStreamContractError SystemStreamLineageCatalog :=
  match h : validateLineageCatalog entries with
  | .ok () => .ok ⟨sourceScope, entries, h⟩
  | .error e => .error e

def lineage (catalog : SystemStreamLineageCatalog) (lineageId : SystemStreamLineageId) :
    Option SystemStreamLineage :=
  findLineage catalog.entries lineageId

/-- `is_ancestor`: the catalog has no cycle, so climbing visits no lineage twice. -/
def isAncestor (catalog : SystemStreamLineageCatalog)
    (ancestor descendant : SystemStreamLineageId) : Bool :=
  reaches (parentOf catalog.entries) (lineageIds catalog.entries) ancestor [] (some descendant)

variable (catalog : SystemStreamLineageCatalog)

theorem valid : ValidCatalog catalog.entries :=
  validateLineageCatalog_eq_ok.mp catalog.accepted

theorem tryNew_eq_ok {catalog : SystemStreamLineageCatalog} {scope : SystemStreamScope} :
    tryNew scope entries = .ok catalog ↔
      catalog.sourceScope = scope ∧ catalog.entries = entries := by
  rw [tryNew.eq_def]
  split
  · cases catalog
    simp [eq_comm]
  · next h =>
    refine iff_of_false (by simp) ?_
    rintro ⟨rfl, rfl⟩
    cases catalog.accepted.symm.trans h

/-- **What makes a catalog.** -/
theorem isOk_tryNew (scope : SystemStreamScope) :
    (tryNew scope entries).isOk = true ↔ ValidCatalog entries := by
  rw [← validateLineageCatalog_eq_ok, tryNew.eq_def]
  split <;> simp_all [Except.isOk, Except.toBool]

/-- **Climbing decides ancestry.** -/
theorem isAncestor_iff (ancestor descendant : SystemStreamLineageId) :
    catalog.isAncestor ancestor descendant = true
      ↔ Ancestor (parentOf catalog.entries) ancestor descendant :=
  reaches_iff mem_ids_of_parentOf (catalog.valid.rooted descendant)

/-- **Below every lineage there is an active one.** -/
theorem exists_active {lineageId : SystemStreamLineageId}
    (hmem : lineageId ∈ lineageIds catalog.entries) :
    ∃ leaf ∈ activeLineages catalog.entries,
      Ancestor (parentOf catalog.entries) lineageId leaf.lineageId := by
  revert lineageId
  refine children_induction
    (P := fun id => ∃ leaf ∈ activeLineages catalog.entries,
      Ancestor (parentOf catalog.entries) id leaf.lineageId)
    (lineageIds catalog.entries) (fun d _ => catalog.valid.rooted d) ?_ _
  intro lineageId hmem hchildren
  obtain ⟨lineage, hlineage, rfl⟩ := mem_map.mp hmem
  cases hsealed : lineage.isSealed with
  | false => exact ⟨lineage, mem_filter.mpr ⟨hlineage, by simp [hsealed]⟩, .refl⟩
  | true =>
    obtain ⟨left, right, hpair, -⟩ := catalog.valid.children lineage hlineage hsealed
    have hleft : left ∈ childrenOf catalog.entries lineage.lineageId := by simp [hpair]
    obtain ⟨hleftMem, hleftParent⟩ := mem_filter.mp hleft
    have hparent : parentOf catalog.entries left.lineageId = some lineage.lineageId := by
      rw [parentOf_of_mem catalog.valid.nodup hleftMem]
      simpa using hleftParent
    obtain ⟨leaf, hleaf, hanc⟩ :=
      hchildren left.lineageId (mem_map_of_mem hleftMem) hparent
    exact ⟨leaf, hleaf, (Ancestor.of_parent hparent).trans hanc⟩

end SystemStreamLineageCatalog

theorem boundedText_a : boundedText 128 ['a'] = true := by decide

theorem boundedText_b : boundedText 128 ['b'] = true := by decide

theorem boundedText_c : boundedText 128 ['c'] = true := by decide

theorem boundedText_d : boundedText 128 ['d'] = true := by decide

theorem boundedText_e : boundedText 128 ['e'] = true := by decide

/-- A scope. -/
def sampleScope : SystemStreamScope := ⟨1, ⟨['a'], boundedText_a⟩, 1⟩

/-- A lineage that is alone in its shard. -/
def sampleLineage (id : BoundedText 128) (parent : Option (BoundedText 128)) (isSealed : Bool)
    (h : parent ≠ some id) : SystemStreamLineage :=
  ⟨id, id, parent, isSealed, h⟩

theorem none_ne_a : (none : Option (BoundedText 128)) ≠ some ⟨['a'], boundedText_a⟩ := by decide

theorem a_ne_b : (some ⟨['a'], boundedText_a⟩ : Option (BoundedText 128))
    ≠ some ⟨['b'], boundedText_b⟩ := by decide

theorem a_ne_c : (some ⟨['a'], boundedText_a⟩ : Option (BoundedText 128))
    ≠ some ⟨['c'], boundedText_c⟩ := by decide

/-- A catalog with one lineage. -/
def sampleCatalog : SystemStreamLineageCatalog :=
  ⟨sampleScope, [sampleLineage ⟨['a'], boundedText_a⟩ none false none_ne_a], by decide⟩

/-- A catalog whose first lineage has been split, and one of its children again. -/
def twiceSplitCatalog : SystemStreamLineageCatalog where
  sourceScope := sampleScope
  entries := [sampleLineage ⟨['a'], boundedText_a⟩ none true none_ne_a,
    sampleLineage ⟨['b'], boundedText_b⟩ (some ⟨['a'], boundedText_a⟩) true a_ne_b,
    sampleLineage ⟨['c'], boundedText_c⟩ (some ⟨['a'], boundedText_a⟩) false a_ne_c,
    sampleLineage ⟨['d'], boundedText_d⟩ (some ⟨['b'], boundedText_b⟩) false (by decide),
    sampleLineage ⟨['e'], boundedText_e⟩ (some ⟨['b'], boundedText_b⟩) false (by decide)]
  accepted := by decide +kernel

/-- Below both lineages that have been split. -/
theorem exists_active_sample :
    (∃ leaf ∈ activeLineages twiceSplitCatalog.entries,
      Ancestor (parentOf twiceSplitCatalog.entries) ⟨['a'], boundedText_a⟩ leaf.lineageId) ∧
    ∃ leaf ∈ activeLineages twiceSplitCatalog.entries,
      Ancestor (parentOf twiceSplitCatalog.entries) ⟨['b'], boundedText_b⟩ leaf.lineageId :=
  ⟨twiceSplitCatalog.exists_active (by decide), twiceSplitCatalog.exists_active (by decide)⟩

end AuxStorage
