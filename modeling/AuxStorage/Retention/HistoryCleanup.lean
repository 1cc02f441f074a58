import AuxStorage.StreamName
import AuxStorage.SystemStream.Offset

/-!
# Retention: Cleanup of Item Histories

The versions of an item are kept in a history: events, which were published at a position of a
lineage, and anchors, which are only old images. A table retires its events by a **frontier** for
each lineage, and the cleanup of a history deletes its oldest version as long as nothing needs it.
What is needed is the live version, every event that is not retired, and the image right before such
an event.

A step of the cleanup sees the two oldest versions, and whether there are more.

## Main results

* `cleanupStep_spec`: what a step does, for the two versions it sees.
* `cleanup_spec`: what a whole run does, by induction on the history.
* `cleanup_keeps_needed`: **the cleanup keeps what is needed and stops at it**.
-/

namespace AuxStorage.Retention

open List

/-! ### Histories -/

/-- `TableHistoryId`, sixteen bytes. -/
abbrev TableHistoryId : Type := List UInt8

/-- Where the history of an item is stored. -/
structure ItemHistoryAddress where
  historyId : TableHistoryId
  streamName : List UInt8
  deriving DecidableEq, Repr

/-- The kind and the key of a stream name: what follows the name of the table. -/
def ItemHistoryAddress.suffix (address : ItemHistoryAddress) : List UInt8 :=
  address.streamName.dropWhile (· != slash)

/-- `physical_stream_name`, as far as it can fail. -/
def ItemHistoryAddress.checkPhysicalStreamName (address : ItemHistoryAddress) :
    Except StorageError Unit :=
  if address.suffix = [] ∨ address.suffix = address.streamName then
    .error (.internal (text "history address has no stream kind"))
  else if address.suffix = tableStreamSuffix ∨
      itemStreamSegment <+: address.suffix ∧ address.suffix ≠ itemStreamSegment then .ok ()
  else .error (.internal (text "history address has invalid stream kind"))

/-- The table, as the name of the stream says. -/
def ItemHistoryAddress.itemTableName (address : ItemHistoryAddress) : Option Text :=
  streamItemTableName address.streamName

/-- Whether the item was there after the event. -/
inductive ItemHistoryKind
  | image
  | deleted
  deriving DecidableEq, Repr

/-- `ItemHistoryPublication`, without the time and the user, which the cleanup does not read. -/
inductive ItemHistoryPublication
  | event (kind : ItemHistoryKind) (sourceScope : SystemStreamScope)
      (tablePosition : SystemStreamPosition)
  | predecessorAnchor
  deriving DecidableEq

/-- An entry of a history. -/
structure ItemHistoryMetadata where
  address : ItemHistoryAddress
  version : ℕ
  previousVersion : Option ℕ
  publication : ItemHistoryPublication
  deriving DecidableEq

/-- An anchor counts as an image. -/
def ItemHistoryMetadata.kind (entry : ItemHistoryMetadata) : ItemHistoryKind :=
  match entry.publication with
  | .event kind _ _ => kind
  | .predecessorAnchor => .image

/-- How far a lineage is retired, and how far it is cleaned. -/
structure TableHistoryTrimLineage where
  shardId : SystemStreamShardId
  lineageId : SystemStreamLineageId
  retiredThrough : Option SystemStreamOffset
  cleanedThrough : Option SystemStreamOffset
  deriving DecidableEq

/-- `TableHistoryTrimFrontier`, without the sweep of orphans. -/
structure TableHistoryTrimFrontier where
  tableHistoryId : TableHistoryId
  tablePolicyVersion : ℕ
  sourceScope : SystemStreamScope
  lineages : List TableHistoryTrimLineage
  deriving DecidableEq

/-- The first entries of a history. -/
structure ItemHistoryMetadataPage where
  entries : List ItemHistoryMetadata
  reachedTail : Bool

/-- The entries of a page. -/
def maxPageEntries : ℕ := 2

def invalidObservation : StorageError :=
  .internal (text "Invalid table-controlled history cleanup observation")

/-! ### Validation -/

/-- A lineage is cleaned at most as far as it is retired. -/
def TableHistoryTrimLineage.requireValidProgress (lineage : TableHistoryTrimLineage) :
    Except StorageError Unit :=
  match lineage.retiredThrough with
  | none => if lineage.cleanedThrough.isNone then .ok () else .error invalidObservation
  | some retired =>
    match (lineage.cleanedThrough.getD retired).compareOrder retired with
    | .error _ => .error invalidObservation
    | .ok order => if order.isGT then .error invalidObservation else .ok ()

/-- The lineages after those that have been looked at. -/
def requireLineages (seen : List TableHistoryTrimLineage) :
    List TableHistoryTrimLineage → Except StorageError Unit
  | [] => .ok ()
  | lineage :: rest => do
      if seen.any fun previous => previous.shardId = lineage.shardId
          ∧ previous.lineageId = lineage.lineageId then
        .error invalidObservation
      lineage.requireValidProgress
      requireLineages (seen ++ [lineage]) rest

/-- An identifier that no table has. -/
def unsetHistoryId : TableHistoryId := List.replicate 16 0

/-- Every lineage is valid. -/
def TableHistoryTrimFrontier.requireValidLineages (frontier : TableHistoryTrimFrontier) :
    Except StorageError Unit :=
  if frontier.tableHistoryId = unsetHistoryId then .error invalidObservation
  else requireLineages [] frontier.lineages

/-- The entries of a page, behind the version before them. -/
def requireAscending (history : ItemHistoryAddress) (before : Option ℕ) :
    List ItemHistoryMetadata → Except StorageError Unit
  | [] => .ok ()
  | entry :: rest =>
    if entry.address ≠ history ∨ before.any (entry.version ≤ ·) then .error invalidObservation
    else requireAscending history (some entry.version) rest

/-- A page is an ascending part of one history. -/
def ItemHistoryMetadataPage.requireValidPrefix (page : ItemHistoryMetadataPage)
    (history : ItemHistoryAddress) : Except StorageError Unit :=
  if maxPageEntries < page.entries.length
      ∨ page.reachedTail = false ∧ page.entries.length ≠ maxPageEntries then
    .error invalidObservation
  else requireAscending history none page.entries

/-- Whether the event of an entry is retired. -/
def TableHistoryTrimFrontier.isRetired (frontier : TableHistoryTrimFrontier)
    (entry : ItemHistoryMetadata) : Except StorageError Bool :=
  match entry.publication with
  | .predecessorAnchor => .ok false
  | .event _ sourceScope tablePosition =>
    if sourceScope ≠ frontier.sourceScope then .ok false
    else
      match (frontier.lineages.find? fun lineage => lineage.shardId = tablePosition.shardId
          ∧ lineage.lineageId = tablePosition.lineageId).bind (·.retiredThrough) with
      | none => .ok false
      | some through =>
        match tablePosition.offset.compareOrder through with
        | .error _ => .error invalidObservation
        | .ok order => .ok !order.isGT

/-! ### The plan -/

/-- What a cleanup decides on. -/
structure ItemHistoryCleanupObservation where
  history : ItemHistoryAddress
  frontier : TableHistoryTrimFrontier
  page : ItemHistoryMetadataPage
  currentLiveVersion : Option ℕ

/-- Whether there is more to delete. -/
inductive HistoryCleanupContinuation
  | repeat
  | complete
  deriving DecidableEq, Repr

/-- What a cleanup does. -/
inductive ItemHistoryCleanupPlan
  | complete
  | delete (history : ItemHistoryAddress) (expectedTablePolicyVersion through : ℕ)
      (continuation : HistoryCleanupContinuation)
  deriving DecidableEq, Repr

namespace ItemHistoryCleanupObservation

def tryNew (history : ItemHistoryAddress) (frontier : TableHistoryTrimFrontier)
    (page : ItemHistoryMetadataPage) (currentLiveVersion : Option ℕ) :
    Except StorageError ItemHistoryCleanupObservation := do
  history.checkPhysicalStreamName
  if history.historyId ≠ frontier.tableHistoryId ∨ history.historyId = unsetHistoryId
      ∨ history.itemTableName.isNone ∨ currentLiveVersion = some 0 then
    .error invalidObservation
  frontier.requireValidLineages
  page.requireValidPrefix history
  .ok ⟨history, frontier, page, currentLiveVersion⟩

/-- An event that the frontier has not retired. -/
def isUnretired (frontier : TableHistoryTrimFrontier) (entry : ItemHistoryMetadata) :
    Except StorageError Bool :=
  match entry.publication with
  | .predecessorAnchor => .ok false
  | .event .. => (frontier.isRetired entry).map (!·)

/-- The first entry that is needed for its event. -/
def findFirstUnretired (frontier : TableHistoryTrimFrontier) :
    List ItemHistoryMetadata → Except StorageError (Option ItemHistoryMetadata)
  | [] => .ok none
  | entry :: rest => do
      if ← isUnretired frontier entry then .ok (some entry) else findFirstUnretired frontier rest

/-- The predecessor of the first unretired entry is there, with its image. -/
def requireExactPredecessor (entries : List ItemHistoryMetadata)
    (firstUnretired : Option ItemHistoryMetadata) : Except StorageError Unit :=
  match firstUnretired.bind (·.previousVersion) with
  | none => .ok ()
  | some previous =>
    if entries.any fun entry => entry.version = previous ∧ entry.kind = .image then .ok ()
    else .error (.internal (text "Required history predecessor image is unavailable"))

/-- The smaller of two versions, if there are any. -/
def minVersion : Option ℕ → Option ℕ → Option ℕ
  | some a, some b => some (min a b)
  | some a, none => some a
  | none, b => b

/-- The first version that has to stay. -/
def protectedVersion (observation : ItemHistoryCleanupObservation)
    (firstUnretired : Option ItemHistoryMetadata) : Option ℕ :=
  let boundary := match firstUnretired with
    | some entry => some (entry.previousVersion.getD entry.version)
    | none =>
      if observation.page.reachedTail then none
      else observation.page.entries.getLast?.map (·.version)
  minVersion boundary observation.currentLiveVersion

/-- Whether the cleanup is to be repeated. -/
def cleanupContinuation (observation : ItemHistoryCleanupObservation)
    (firstUnretired : Option ItemHistoryMetadata) (protectedFrom : Option ℕ) :
    HistoryCleanupContinuation :=
  match observation.page.entries[1]? with
  | none => .complete
  | some next =>
    if firstUnretired.isSome
        ∨ protectedFrom.any (· ≤ next.version) ∧ observation.page.reachedTail then .complete
    else .repeat

/-- What is deleted is before the protected version. -/
def planCleanup (observation : ItemHistoryCleanupObservation) :
    Except StorageError ItemHistoryCleanupPlan :=
  match observation.page.entries with
  | [] => .ok .complete
  | oldest :: _ => do
      let firstUnretired ← findFirstUnretired observation.frontier observation.page.entries
      requireExactPredecessor observation.page.entries firstUnretired
      let protectedFrom := observation.protectedVersion firstUnretired
      if protectedFrom.any (· ≤ oldest.version) then .ok .complete
      else .ok (.delete observation.history observation.frontier.tablePolicyVersion oldest.version
        (observation.cleanupContinuation firstUnretired protectedFrom))

end ItemHistoryCleanupObservation

/-! ### The run -/

section Run

variable (history : ItemHistoryAddress) (frontier : TableHistoryTrimFrontier) (live : Option ℕ)

/-- One step: the two oldest versions are observed, and the plan is carried out. What is left, and
whether the cleanup is over. -/
def cleanupStep (stored : List ItemHistoryMetadata) :
    Except StorageError (List ItemHistoryMetadata × Bool) := do
  let observation ← ItemHistoryCleanupObservation.tryNew history frontier
    ⟨stored.take maxPageEntries, stored.length ≤ maxPageEntries⟩ live
  match ← observation.planCleanup with
  | .complete => .ok (stored, true)
  | .delete _ _ through continuation =>
    .ok (stored.filter (through < ·.version), continuation = .complete)

/-- Steps until the cleanup is over, at most `fuel` of them. -/
def cleanup : ℕ → List ItemHistoryMetadata →
    Except StorageError (Option (List ItemHistoryMetadata))
  | 0, _ => .ok none
  | fuel + 1, stored => do
      let (left, finished) ← cleanupStep history frontier live stored
      if finished then .ok (some left) else cleanup fuel left

end Run

/-! ### What is needed -/

section Needed

variable {history : ItemHistoryAddress} {frontier : TableHistoryTrimFrontier} {live : Option ℕ}
    {stored rest : List ItemHistoryMetadata} {oldest next : ItemHistoryMetadata}

/-- An event that is not retired. -/
def Unretired (frontier : TableHistoryTrimFrontier) (entry : ItemHistoryMetadata) : Prop :=
  ItemHistoryCleanupObservation.isUnretired frontier entry = .ok true

/-- **The versions that are needed**: the live one, the events that are not retired, and the exact
predecessors of these. -/
def Needed (frontier : TableHistoryTrimFrontier) (live : Option ℕ)
    (stored : List ItemHistoryMetadata) (version : ℕ) : Prop :=
  live = some version ∨ ∃ entry ∈ stored, Unretired frontier entry ∧
    (entry.version = version ∨ entry.previousVersion = some version)

/-- One version follows another: it is later, and its predecessor, if it has one, is the image right
before it. -/
def Follows (before entry : ItemHistoryMetadata) : Prop :=
  before.version < entry.version ∧
    ∀ previous, entry.previousVersion = some previous →
      previous = before.version ∧ before.kind = .image

/-- **Two offsets have one form**: both are versionstamps, or both are numbers. -/
def OneForm (left right : SystemStreamOffset) : Prop :=
  left.versionstamp.isSome = right.versionstamp.isSome ∧
    (left.versionstamp = none → left.order.toOption.isSome ∧ right.order.toOption.isSome)

/-- The offset of an event has the form of the one through which its lineage is retired. -/
def OfOneForm (frontier : TableHistoryTrimFrontier) (entry : ItemHistoryMetadata) : Prop :=
  match entry.publication with
  | .predecessorAnchor => True
  | .event _ sourceScope tablePosition => sourceScope = frontier.sourceScope →
    ∀ through, (frontier.lineages.find? fun lineage => lineage.shardId = tablePosition.shardId
      ∧ lineage.lineageId = tablePosition.lineageId).bind (·.retiredThrough) = some through →
        OneForm tablePosition.offset through

/-- What a frontier is checked for, and that its offsets are of the form of those of a history. -/
structure FrontierFor (frontier : TableHistoryTrimFrontier) (history : ItemHistoryAddress)
    (stored : List ItemHistoryMetadata) : Prop where
  ofTable : history.historyId = frontier.tableHistoryId
  valid : frontier.requireValidLineages = .ok ()
  forms : ∀ entry ∈ stored, OfOneForm frontier entry

/-- An address that a history may have. -/
structure ItemHistoryAddress.Valid (history : ItemHistoryAddress) : Prop where
  physical : history.checkPhysicalStreamName = .ok ()
  table : history.itemTableName.isSome
  set : history.historyId ≠ unsetHistoryId

/-- The live version of an item is one of its history, or later than all of it. -/
def LiveVersion (live : Option ℕ) (stored : List ItemHistoryMetadata) : Prop :=
  ∀ version, live = some version →
    (∃ entry ∈ stored, entry.version = version) ∨ ∀ entry ∈ stored, entry.version < version

/-- What a cleanup stops at: a version that is needed, or one that is later than the live one. -/
def Kept (frontier : TableHistoryTrimFrontier) (live : Option ℕ)
    (stored : List ItemHistoryMetadata) (version : ℕ) : Prop :=
  Needed frontier live stored version ∨ live.any (· < version) = true

/-- What is left of a history while it is cleaned up: every version follows the one before it, and
an event that is not retired still has its predecessor. -/
structure IsHistory (history : ItemHistoryAddress) (frontier : TableHistoryTrimFrontier)
    (live : Option ℕ) (stored : List ItemHistoryMetadata) : Prop where
  address : ∀ entry ∈ stored, entry.address = history
  chain : stored.IsChain Follows
  first : ∀ entry, stored.head? = some entry → Unretired frontier entry →
    entry.previousVersion = none
  frontierFor : FrontierFor frontier history stored
  live_ne_zero : live ≠ some 0

variable {entry : ItemHistoryMetadata}

/-- Offsets of one form can be compared. -/
theorem OneForm.exists_compareOrder {left right : SystemStreamOffset} (h : OneForm left right) :
    ∃ order, left.compareOrder right = .ok order := by
  obtain ⟨hform, hnumbers⟩ := h
  rw [SystemStreamOffset.compareOrder]
  cases hleft : left.versionstamp with
  | some l =>
    cases hright : right.versionstamp with
    | some r => exact ⟨_, rfl⟩
    | none =>
      rw [hleft, hright] at hform
      cases hform
  | none =>
    cases hright : right.versionstamp with
    | some r =>
      rw [hleft, hright] at hform
      cases hform
    | none =>
      obtain ⟨hl, hr⟩ := hnumbers hleft
      cases hlorder : left.order with
      | error e =>
        rw [hlorder] at hl
        cases hl
      | ok l =>
        cases hrorder : right.order with
        | error e =>
          rw [hrorder] at hr
          cases hr
        | ok r => exact ⟨_, rfl⟩

/-- Whether an event is retired can be told. -/
theorem OfOneForm.exists_isRetired (h : OfOneForm frontier entry) :
    ∃ retired, frontier.isRetired entry = .ok retired := by
  rw [TableHistoryTrimFrontier.isRetired]
  rw [OfOneForm] at h
  cases hpublication : entry.publication with
  | predecessorAnchor => exact ⟨_, rfl⟩
  | event id sourceScope tablePosition =>
    rw [hpublication] at h
    dsimp only at h ⊢
    split_ifs with hscope
    · exact ⟨_, rfl⟩
    · split
      · exact ⟨_, rfl⟩
      · next through hthrough =>
          obtain ⟨order, horder⟩ := (h (not_not.mp hscope) through hthrough).exists_compareOrder
          rw [horder]
          exact ⟨_, rfl⟩

/-- Whether an entry is unretired can be told. -/
theorem isUnretired_eq_ok (h : OfOneForm frontier entry) :
    ∃ unretired, ItemHistoryCleanupObservation.isUnretired frontier entry = .ok unretired := by
  obtain ⟨retired, hretired⟩ := h.exists_isRetired
  unfold ItemHistoryCleanupObservation.isUnretired
  split
  · exact ⟨false, rfl⟩
  · exact ⟨!retired, by rw [hretired]; rfl⟩

/-- The versions of a history ascend. -/
theorem version_lt_of_chain (h : (oldest :: rest).IsChain Follows) :
    ∀ entry ∈ rest, oldest.version < entry.version := by
  have hversions : (oldest :: rest).IsChain fun a b => a.version < b.version :=
    h.imp fun _ _ hfollows => hfollows.1
  have htrans : IsTrans ItemHistoryMetadata fun a b => a.version < b.version :=
    ⟨fun _ _ _ hab hbc => hab.trans hbc⟩
  exact (pairwise_cons.mp hversions.pairwise).1

/-- Only the next version can have the oldest one as its predecessor. -/
theorem eq_next_of_previousVersion (h : (oldest :: rest).IsChain Follows) (hentry : entry ∈ rest)
    (hprevious : entry.previousVersion = some oldest.version) : rest.head? = some entry := by
  cases rest with
  | nil => cases hentry
  | cons next rest =>
    rcases mem_cons.mp hentry with rfl | hentry
    · rfl
    · -- Any later entry follows one that is later than the oldest.
      exfalso
      rw [isChain_cons_cons] at h
      obtain ⟨i, hi, rfl⟩ := getElem_of_mem hentry
      have hlater := version_lt_of_chain (isChain_cons_cons.mpr h)
      cases i with
      | zero =>
        cases rest with
        | nil => simp at hi
        | cons third rest =>
          have hfollows := (isChain_cons_cons.mp h.2).1
          obtain ⟨heq, -⟩ := hfollows.2 _ hprevious
          have := h.1.1
          omega
      | succ i =>
        have htail : rest.IsChain Follows := h.2.tail
        have hfollows : Follows rest[i] rest[i + 1] :=
          isChain_iff_getElem.mp htail i (by omega)
        obtain ⟨heq, -⟩ := hfollows.2 _ hprevious
        have := hlater rest[i] (mem_cons_of_mem _ (getElem_mem _))
        omega

/-- The oldest version is not needed: it is no event that must be kept, it is not live, and it is
not the predecessor of such an event. -/
theorem not_needed_oldest (h : (oldest :: rest).IsChain Follows)
    (holdest : ¬Unretired frontier oldest) (hlive : live ≠ some oldest.version)
    (hnext : ∀ entry, rest.head? = some entry → Unretired frontier entry →
      entry.previousVersion = none) :
    ¬Needed frontier live (oldest :: rest) oldest.version := by
  rintro (heq | ⟨entry, hentry, hunretired, heq⟩)
  · exact hlive heq
  · rcases mem_cons.mp hentry with rfl | hentry
    · exact holdest hunretired
    · rcases heq with heq | heq
      · have := version_lt_of_chain h entry hentry
        omega
      · have hhead := eq_next_of_previousVersion h hentry heq
        rw [hnext entry hhead hunretired] at heq
        cases heq

/-- A retired entry that is deleted is not missed. -/
theorem needed_tail (holdest : ¬Unretired frontier oldest) {version : ℕ} :
    Needed frontier live (oldest :: rest) version ↔ Needed frontier live rest version := by
  simp [Needed, or_and_right, exists_or, holdest]

/-- What is left after the oldest version is deleted is a history again. -/
theorem IsHistory.tail (h : IsHistory history frontier live (oldest :: rest))
    (hnext : ∀ entry, rest.head? = some entry → Unretired frontier entry →
      entry.previousVersion = none) : IsHistory history frontier live rest where
  address entry hentry := h.address entry (mem_cons_of_mem _ hentry)
  chain := h.chain.tail
  first := hnext
  frontierFor :=
    { h.frontierFor with
      forms := fun entry hentry =>
        h.frontierFor.forms entry (mem_cons_of_mem _ hentry) }
  live_ne_zero := h.live_ne_zero

/-! ### One step -/

open ItemHistoryCleanupObservation

/-- The check accepts an ascending page. -/
theorem requireAscending_eq_ok {before : Option ℕ} {entries : List ItemHistoryMetadata}
    (haddress : ∀ entry ∈ entries, entry.address = history)
    (hbefore : ∀ version, before = some version → ∀ entry ∈ entries, version < entry.version)
    (hchain : entries.IsChain fun a b => a.version < b.version) :
    requireAscending history before entries = .ok () := by
  induction entries generalizing before with
  | nil => rfl
  | cons entry rest ih =>
    have htrans : IsTrans ItemHistoryMetadata fun a b => a.version < b.version :=
      ⟨fun _ _ _ hab hbc => hab.trans hbc⟩
    rw [requireAscending, if_neg]
    · refine ih (fun e he => haddress e (mem_cons_of_mem _ he)) ?_ hchain.tail
      rintro _ ⟨⟩ e he
      exact (pairwise_cons.mp hchain.pairwise).1 e he
    · rintro (hne | hany)
      · exact hne (haddress entry mem_cons_self)
      · cases before with
        | none => cases hany
        | some version =>
          have := hbefore version rfl entry mem_cons_self
          simp only [Option.any_some, decide_eq_true_eq] at hany
          omega

/-- The observation of the two oldest versions is accepted. -/
theorem tryNew_eq_ok (hvalid : history.Valid) (h : IsHistory history frontier live stored) :
    tryNew history frontier ⟨stored.take maxPageEntries, stored.length ≤ maxPageEntries⟩ live
      = .ok ⟨history, frontier,
        ⟨stored.take maxPageEntries, stored.length ≤ maxPageEntries⟩, live⟩ := by
  have hobservation : ¬(history.historyId ≠ frontier.tableHistoryId
      ∨ history.historyId = unsetHistoryId ∨ history.itemTableName.isNone ∨ live = some 0) := by
    rintro (hne | hunset | hnone | hzero)
    · exact hne h.frontierFor.ofTable
    · exact hvalid.set hunset
    · have := hvalid.table
      simp_all
    · exact h.live_ne_zero hzero
  have hascending : requireAscending history none (stored.take maxPageEntries) = .ok () := by
    refine requireAscending_eq_ok (fun entry hentry => h.address entry (mem_of_mem_take hentry))
      (by rintro _ ⟨⟩) ?_
    exact (h.chain.imp fun _ _ hfollows => hfollows.1).take _
  have hpage : ItemHistoryMetadataPage.requireValidPrefix
      ⟨stored.take maxPageEntries, stored.length ≤ maxPageEntries⟩ history = .ok () := by
    rw [ItemHistoryMetadataPage.requireValidPrefix, if_neg, hascending]
    simp only [length_take, decide_eq_false_iff_not]
    omega
  rw [tryNew, hvalid.physical, h.frontierFor.valid, hpage, if_neg hobservation]
  rfl

/-- The observation of the two oldest versions. -/
def observationOf (history : ItemHistoryAddress) (frontier : TableHistoryTrimFrontier)
    (live : Option ℕ) (stored : List ItemHistoryMetadata) : ItemHistoryCleanupObservation :=
  ⟨history, frontier, ⟨stored.take maxPageEntries, stored.length ≤ maxPageEntries⟩, live⟩

/-- A step in terms of the first event that is not retired and of the protected version. -/
theorem cleanupStep_eq (hvalid : history.Valid)
    (h : IsHistory history frontier live (oldest :: rest)) {first : Option ItemHistoryMetadata}
    (hfirst : findFirstUnretired frontier ((oldest :: rest).take maxPageEntries) = .ok first)
    (hpredecessor : requireExactPredecessor ((oldest :: rest).take maxPageEntries) first = .ok ()) :
    cleanupStep history frontier live (oldest :: rest)
      = .ok (if ((observationOf history frontier live (oldest :: rest)).protectedVersion first).any
            (· ≤ oldest.version) then (oldest :: rest, true)
          else (rest, (observationOf history frontier live (oldest :: rest)).cleanupContinuation
            first ((observationOf history frontier live (oldest :: rest)).protectedVersion first)
              = .complete)) := by
  have hfilter : (oldest :: rest).filter (oldest.version < ·.version) = rest := by
    rw [filter_cons_of_neg (by simp), filter_eq_self]
    intro entry hentry
    exact decide_eq_true (version_lt_of_chain h.chain entry hentry)
  have hplan : (observationOf history frontier live (oldest :: rest)).planCleanup
      = if ((observationOf history frontier live (oldest :: rest)).protectedVersion first).any
          (· ≤ oldest.version) then .ok .complete
        else .ok (.delete history frontier.tablePolicyVersion oldest.version
          ((observationOf history frontier live (oldest :: rest)).cleanupContinuation first
            ((observationOf history frontier live (oldest :: rest)).protectedVersion first))) := by
    change (findFirstUnretired frontier ((oldest :: rest).take maxPageEntries) >>= _) = _
    rw [hfirst]
    change (requireExactPredecessor ((oldest :: rest).take maxPageEntries) first >>= _) = _
    rw [hpredecessor]
    rfl
  rw [cleanupStep, tryNew_eq_ok hvalid h]
  change ((observationOf history frontier live (oldest :: rest)).planCleanup >>= _) = _
  rw [hplan]
  split_ifs with hprotected
  · rfl
  · change Except.ok ((oldest :: rest).filter (oldest.version < ·.version), _) = _
    rw [hfilter]

/-- The search goes on behind a retired entry. -/
theorem findFirstUnretired_cons {more : List ItemHistoryMetadata} {unretired : Bool}
    (h : isUnretired frontier entry = .ok unretired) :
    findFirstUnretired frontier (entry :: more)
      = if unretired then .ok (some entry) else findFirstUnretired frontier more := by
  rw [findFirstUnretired, h]
  cases unretired <;> rfl

theorem not_unretired (h : isUnretired frontier entry = .ok false) : ¬Unretired frontier entry := by
  intro hunretired
  rw [Unretired, h] at hunretired
  cases hunretired

theorem any_minVersion (a b : Option ℕ) (version : ℕ) :
    (minVersion a b).any (· ≤ version) = (a.any (· ≤ version) || b.any (· ≤ version)) := by
  cases a <;> cases b <;> simp [minVersion]

/-- A cleanup stops at a version that the live one does not come after. -/
theorem kept_of_live (hlive : live.any (· ≤ oldest.version) = true) :
    Kept frontier live stored oldest.version := by
  cases live with
  | none => cases hlive
  | some version =>
    simp only [Option.any_some, decide_eq_true_eq] at hlive
    rcases hlive.eq_or_lt with rfl | hlt
    · exact .inl (.inl rfl)
    · exact .inr (by simpa using hlt)

/-- A live version that is later is another one. -/
theorem live_ne_of_later (hlive : live.any (· ≤ oldest.version) = false) :
    live ≠ some oldest.version := by
  rintro rfl
  simp at hlive

/-- **What a step does** to a history that is not empty: it stops at the oldest version, or it
deletes it, which is not needed. It is the last one when the next version is kept, or there is
none. -/
def StepSpec (history : ItemHistoryAddress) (frontier : TableHistoryTrimFrontier)
    (live : Option ℕ) (oldest : ItemHistoryMetadata) (rest : List ItemHistoryMetadata) : Prop :=
  (cleanupStep history frontier live (oldest :: rest) = .ok (oldest :: rest, true) ∧
    Kept frontier live (oldest :: rest) oldest.version) ∨
  ∃ finished, cleanupStep history frontier live (oldest :: rest) = .ok (rest, finished) ∧
    ¬Needed frontier live (oldest :: rest) oldest.version ∧ ¬Unretired frontier oldest ∧
    IsHistory history frontier live rest ∧
    (finished = true → ∀ entry, rest.head? = some entry → Kept frontier live rest entry.version)

/-- A step in which only the live version can protect the oldest one. -/
theorem StepSpec.of_live {finished : Bool} (h : IsHistory history frontier live (oldest :: rest))
    (holdest : ¬Unretired frontier oldest)
    (hstep : cleanupStep history frontier live (oldest :: rest)
      = .ok (if live.any (· ≤ oldest.version) = true then (oldest :: rest, true)
        else (rest, finished)))
    (hhead : ∀ entry, rest.head? = some entry → Unretired frontier entry →
      entry.previousVersion = none)
    (hlast : finished = true → ∀ entry, rest.head? = some entry →
      Kept frontier live rest entry.version) : StepSpec history frontier live oldest rest := by
  cases hlive : live.any (· ≤ oldest.version) with
  | true =>
    rw [if_pos hlive] at hstep
    exact .inl ⟨hstep, kept_of_live hlive⟩
  | false =>
    rw [if_neg (by rw [hlive]; simp)] at hstep
    exact .inr ⟨finished, hstep,
      not_needed_oldest h.chain holdest (live_ne_of_later hlive) hhead, holdest, h.tail hhead,
      hlast⟩

/-- A step that sees a retired version and another one after it. -/
theorem cleanupStep_spec_next {next : ItemHistoryMetadata} {unretired : Bool}
    (hvalid : history.Valid) (h : IsHistory history frontier live (oldest :: next :: rest))
    (holdest : isUnretired frontier oldest = .ok false)
    (hnext : isUnretired frontier next = .ok unretired) :
    StepSpec history frontier live oldest (next :: rest) := by
  have hfollows : Follows oldest next := (isChain_cons_cons.mp h.chain).1
  have hlt := hfollows.1
  have hfirst : findFirstUnretired frontier ((oldest :: next :: rest).take maxPageEntries)
      = .ok (if unretired then some next else none) := by
    change findFirstUnretired frontier [oldest, next] = _
    rw [findFirstUnretired_cons holdest, findFirstUnretired_cons hnext]
    cases unretired <;> rfl
  cases unretired with
  | true =>
    -- The next version is an event that must be kept.
    cases hprevious : next.previousVersion with
    | some previous =>
      -- The oldest version is the exact predecessor, and it is an image.
      obtain ⟨rfl, himage⟩ := hfollows.2 previous hprevious
      refine .inl ⟨?_, .inl (.inr ⟨next, by simp, hnext, .inr hprevious⟩)⟩
      rw [cleanupStep_eq hvalid h hfirst
        (by simp [requireExactPredecessor, hprevious, himage, maxPageEntries]), if_pos]
      simp [protectedVersion, any_minVersion, hprevious]
    | none =>
      have hstep := cleanupStep_eq hvalid h hfirst (by simp [requireExactPredecessor, hprevious])
      have hprotected : ((observationOf history frontier live
          (oldest :: next :: rest)).protectedVersion (some next)).any (· ≤ oldest.version)
            = live.any (· ≤ oldest.version) := by
        simp [protectedVersion, any_minVersion, hprevious, observationOf, hlt]
      rw [if_pos rfl, hprotected] at hstep
      refine .of_live h (not_unretired holdest) hstep ?_ ?_
      · rintro _ ⟨⟩ -
        exact hprevious
      · rintro - _ ⟨⟩
        exact .inl (.inr ⟨next, mem_cons_self, hnext, .inl rfl⟩)
  | false =>
    have hstep := cleanupStep_eq hvalid h hfirst rfl
    -- The boundary is the second version, or there is none: it never protects the oldest one.
    have hprotected : ((observationOf history frontier live
        (oldest :: next :: rest)).protectedVersion none).any (· ≤ oldest.version)
          = live.any (· ≤ oldest.version) := by
      cases rest <;> simp [protectedVersion, any_minVersion, observationOf, maxPageEntries, hlt]
    rw [if_neg Bool.false_ne_true, hprotected] at hstep
    refine .of_live h (not_unretired holdest) hstep ?_ ?_
    · rintro _ ⟨⟩ hunretired
      exact absurd hunretired (not_unretired hnext)
    · -- The step is the last one only if the second version ends the history and is live.
      intro hfinished
      rintro _ ⟨⟩
      refine kept_of_live ?_
      cases rest with
      | nil =>
        simp only [decide_eq_true_eq, cleanupContinuation, observationOf, maxPageEntries,
          take_succ_cons, take_nil, getElem?_cons_succ, getElem?_cons_zero] at hfinished
        split_ifs at hfinished with hcondition
        simpa [protectedVersion, minVersion] using hcondition
      | cons third rest =>
        simp [cleanupContinuation, observationOf, maxPageEntries] at hfinished

/-- **One step**: it deletes only what is not needed. -/
theorem cleanupStep_spec (hvalid : history.Valid)
    (h : IsHistory history frontier live (oldest :: rest)) :
    StepSpec history frontier live oldest rest := by
  obtain ⟨unretired, hunretired⟩ :=
    isUnretired_eq_ok (h.frontierFor.forms oldest mem_cons_self)
  cases unretired with
  | true =>
    -- The oldest version is an event that must be kept; its predecessor would be gone.
    have hprevious := h.first oldest rfl hunretired
    have hfirst : findFirstUnretired frontier ((oldest :: rest).take maxPageEntries)
        = .ok (some oldest) := findFirstUnretired_cons hunretired
    refine .inl ⟨?_, .inl (.inr ⟨oldest, mem_cons_self, hunretired, .inl rfl⟩)⟩
    rw [cleanupStep_eq hvalid h hfirst (by simp [requireExactPredecessor, hprevious]), if_pos]
    simp [protectedVersion, any_minVersion, hprevious]
  | false =>
    have holdest := not_unretired hunretired
    cases rest with
    | nil =>
      have hfirst : findFirstUnretired frontier ([oldest].take maxPageEntries) = .ok none :=
        findFirstUnretired_cons hunretired
      have hstep := cleanupStep_eq hvalid h hfirst rfl
      have hprotected : (observationOf history frontier live [oldest]).protectedVersion none
          = live := by cases live <;> rfl
      rw [hprotected] at hstep
      exact .of_live h holdest hstep (by rintro _ ⟨⟩) (by rintro - _ ⟨⟩)
    | cons next more =>
      obtain ⟨unretired, hnext⟩ := isUnretired_eq_ok
        (h.frontierFor.forms next (mem_cons_of_mem _ mem_cons_self))
      exact cleanupStep_spec_next hvalid h hunretired hnext

/-! ### A whole run -/

/-- There is nothing to delete from an empty history. -/
theorem cleanupStep_nil (hvalid : history.Valid) (h : IsHistory history frontier live []) :
    cleanupStep history frontier live [] = .ok ([], true) := by
  have hobservation := tryNew_eq_ok hvalid h
  rw [cleanupStep, hobservation]
  rfl

/-- **A whole run**: with as many steps as there are versions it is over, it deletes nothing that is
needed, and it stops at a version that is kept. -/
theorem cleanup_spec (hvalid : history.Valid) (h : IsHistory history frontier live stored)
    {fuel : ℕ} (hfuel : stored.length < fuel) :
    ∃ survivors, cleanup history frontier live fuel stored = .ok (some survivors) ∧
      survivors <:+ stored ∧
      (∀ entry ∈ stored, entry ∉ survivors → ¬Needed frontier live stored entry.version) ∧
      ∀ entry, survivors.head? = some entry → Kept frontier live stored entry.version := by
  induction stored generalizing fuel with
  | nil =>
    obtain ⟨fuel, rfl⟩ : ∃ k, fuel = k + 1 := ⟨fuel - 1, by omega⟩
    refine ⟨[], ?_, suffix_rfl, by simp, by simp⟩
    rw [cleanup, cleanupStep_nil hvalid h]
    rfl
  | cons oldest rest ih =>
    obtain ⟨fuel, rfl⟩ : ∃ k, fuel = k + 1 := ⟨fuel - 1, by omega⟩
    rw [length_cons] at hfuel
    rcases cleanupStep_spec hvalid h with
      ⟨hstep, hkept⟩ | ⟨finished, hstep, hneeded, hretired, htail, hfinished⟩
    · refine ⟨oldest :: rest, ?_, suffix_rfl, fun _ hmem hnot => absurd hmem hnot, ?_⟩
      · rw [cleanup, hstep]
        rfl
      · rintro _ ⟨⟩
        exact hkept
    · -- What is needed, or kept, of the rest is so in the whole history.
      have hkept {version : ℕ} (hrest : Kept frontier live rest version) :
          Kept frontier live (oldest :: rest) version :=
        hrest.imp_left (needed_tail hretired).mpr
      cases finished with
      | true =>
        refine ⟨rest, ?_, suffix_cons oldest rest, ?_, ?_⟩
        · rw [cleanup, hstep]
          rfl
        · intro entry hentry hnot
          rcases mem_cons.mp hentry with rfl | hmem
          · exact hneeded
          · exact absurd hmem hnot
        · exact fun entry hhead => hkept (hfinished rfl entry hhead)
      | false =>
        obtain ⟨survivors, hrun, hsuffix, hdeleted, hstop⟩ :=
          ih htail (by omega : rest.length < fuel)
        refine ⟨survivors, ?_, hsuffix.trans (suffix_cons oldest rest), ?_, ?_⟩
        · rw [cleanup, hstep]
          exact hrun
        · intro entry hentry hnot
          rcases mem_cons.mp hentry with rfl | hmem
          · exact hneeded
          · rw [needed_tail hretired]
            exact hdeleted entry hmem hnot
        · exact fun entry hhead => hkept (hstop entry hhead)

/-- A live version of the history is not older than what is left. -/
theorem needed_of_kept (h : IsHistory history frontier live stored)
    (hlive : LiveVersion live stored) {entry : ItemHistoryMetadata}
    {more : List ItemHistoryMetadata} (hsuffix : entry :: more <:+ stored)
    (hdeleted : ∀ e ∈ stored, e ∉ entry :: more → ¬Needed frontier live stored e.version)
    (hkept : Kept frontier live stored entry.version) :
    Needed frontier live stored entry.version := by
  rcases hkept with hneeded | hlater
  · exact hneeded
  · exfalso
    cases live with
    | none => cases hlater
    | some version =>
      simp only [Option.any_some, decide_eq_true_eq] at hlater
      rcases hlive version rfl with ⟨e, he, rfl⟩ | hall
      · refine hdeleted e he ?_ (.inl rfl)
        -- What is left is not older than its first version.
        intro hmem
        have hchain : (entry :: more).IsChain Follows := h.chain.suffix hsuffix
        rcases mem_cons.mp hmem with rfl | hmem
        · omega
        · have := version_lt_of_chain hchain e hmem
          omega
      · have := hall entry (hsuffix.subset mem_cons_self)
        omega

/-- **The cleanup keeps what is needed and stops at it.** From every history, with as many steps as
there are versions, the run is over without an error. It deletes neither the live version nor an
event that is not retired nor the predecessor of one, and what is left, if anything, starts with a
version of these. -/
theorem cleanup_keeps_needed (hvalid : history.Valid)
    (h : IsHistory history frontier live stored) {fuel : ℕ} (hfuel : stored.length < fuel) :
    ∃ survivors, cleanup history frontier live fuel stored = .ok (some survivors) ∧
      survivors <:+ stored ∧
      (∀ entry ∈ stored, entry ∉ survivors → ¬Needed frontier live stored entry.version) ∧
      (LiveVersion live stored → ∀ entry, survivors.head? = some entry →
        Needed frontier live stored entry.version) := by
  obtain ⟨survivors, hrun, hsuffix, hdeleted, hstop⟩ := cleanup_spec hvalid h hfuel
  refine ⟨survivors, hrun, hsuffix, hdeleted, ?_⟩
  intro hlive entry hhead
  obtain ⟨more, rfl⟩ := head?_eq_some_iff.mp hhead
  exact needed_of_kept h hlive hsuffix hdeleted (hstop entry hhead)

/-- A history of an item with an anchor, an event of one shard that is retired and an event of
another shard that is not. -/
def witnessAddress : ItemHistoryAddress :=
  ⟨List.replicate 16 1, (text "t/stream-item/k").bytes⟩

def witnessScope : SystemStreamScope :=
  { version := 1, scopeId := ⟨text "scope", by decide⟩, generation := 1 }

def witnessFrontier : TableHistoryTrimFrontier :=
  { tableHistoryId := List.replicate 16 1
    tablePolicyVersion := 1
    sourceScope := witnessScope
    lineages := [⟨⟨text "0", by decide⟩, ⟨text "a", by decide⟩, some ⟨text "7", by decide⟩, none⟩] }

def witnessEvent (version : ℕ) (shard : SystemStreamShardId) : ItemHistoryMetadata :=
  { address := witnessAddress
    version := version
    previousVersion := some (version - 1)
    publication := .event .image witnessScope
      ⟨shard, ⟨text "a", by decide⟩, ⟨text "7", by decide⟩⟩ }

def witnessHistory : List ItemHistoryMetadata :=
  [⟨witnessAddress, 1, none, .predecessorAnchor⟩, witnessEvent 2 ⟨text "0", by decide⟩,
    witnessEvent 3 ⟨text "1", by decide⟩]

theorem witnessAddress_valid : witnessAddress.Valid where
  physical := by decide +kernel
  table := by
    have hname : witnessAddress.itemTableName = Text.fromUtf8 (text "t").bytes := by
      decide +kernel
    rw [hname, Text.fromUtf8_eq_some.mpr rfl]
    rfl
  set := by decide +kernel

theorem witnessHistory_isHistory :
    IsHistory witnessAddress witnessFrontier (some 3) witnessHistory where
  address := by decide +kernel
  chain := by
    refine isChain_cons_cons.mpr ⟨⟨by decide, ?_⟩,
      isChain_cons_cons.mpr ⟨⟨by decide, ?_⟩, isChain_singleton _⟩⟩ <;>
    · rintro _ ⟨⟩
      exact ⟨rfl, rfl⟩
  first := by
    rintro _ ⟨⟩ -
    rfl
  frontierFor :=
    { ofTable := rfl
      valid := by decide +kernel
      forms := by
        intro entry hentry
        simp only [witnessHistory, mem_cons, not_mem_nil, or_false] at hentry
        rcases hentry with rfl | rfl | rfl
        · trivial
        · rintro - through hthrough
          cases hthrough
          exact ⟨by decide +kernel, fun _ => by decide +kernel⟩
        · rintro - through hthrough
          cases hthrough }
  live_ne_zero := by decide

/-- The anchor is deleted, and the retired event is kept as the predecessor of the last one, which
is the live version. -/
theorem witnessHistory_keeps_needed :
    cleanup witnessAddress witnessFrontier (some 3) 4 witnessHistory
        = .ok (some witnessHistory.tail) ∧
      LiveVersion (some 3) witnessHistory ∧
      (∀ entry ∈ witnessHistory, entry ∉ witnessHistory.tail →
        ¬Needed witnessFrontier (some 3) witnessHistory entry.version) ∧
      Needed witnessFrontier (some 3) witnessHistory 2 := by
  have hcleanup : cleanup witnessAddress witnessFrontier (some 3) 4 witnessHistory
      = .ok (some witnessHistory.tail) := by decide +kernel
  have hlive : LiveVersion (some 3) witnessHistory := by
    rintro _ ⟨⟩
    exact .inl ⟨witnessEvent 3 ⟨text "1", by decide⟩, by simp [witnessHistory], rfl⟩
  obtain ⟨survivors, hsurvivors, -, hdeleted, hkept⟩ :=
    cleanup_keeps_needed witnessAddress_valid witnessHistory_isHistory
      (show witnessHistory.length < 4 by decide)
  obtain rfl := Option.some.inj (Except.ok.inj (hcleanup.symm.trans hsurvivors))
  exact ⟨hcleanup, hlive, hdeleted, hkept hlive _ rfl⟩

end Needed

end AuxStorage.Retention
