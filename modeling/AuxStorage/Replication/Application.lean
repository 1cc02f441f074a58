import AuxStorage.Replication.Event

/-!
# Replication: Application and Convergence

A replica applies the events that it receives one after the other. An event that was accepted
before is answered with its receipt; any other is accepted, and becomes the **winner** of its key
when its order is above the winner's. Replicas receive the same events in different orders and
more than once, so what they end with must not depend on either.

An **expiration** removes the version that it names. It is made from the event of that version, its
victim, and a replica accepts it only when it has the victim and finds the expiration written as
the victim's. So an expiration that comes before its victim is refused, and no other expiration
can stand for it.

The store returns the acceptances, the winners and the baselines that are stored in it; what fails
physically is not modelled, nor are the writes of the images.
-/

namespace AuxStorage.Replication

open ReplicationProtocolError
open List
open WinnerOrder (compare_eq_lt)

/-! ### The decision -/

/-- What happens to the winner. -/
inductive WinnerDecision
  | replace
  | retainHistoryOnly
  | duplicate
  deriving DecidableEq, Repr

/-- An event, and what the replica knows. -/
structure WinnerEffectPlan where
  incoming : WinnerProvenance
  observed : Option WinnerProvenance
  knownIdentity : Option (CanonicalEventId × ByteString)

/-- The decision for an event that was not known. -/
def WinnerEffectPlan.decideOrder (incoming : WinnerProvenance) :
    Option WinnerProvenance → Except ReplicationProtocolError WinnerDecision
  | none => .ok .replace
  | some current =>
    if incoming.lineage ≠ current.lineage ∨ incoming.key ≠ current.key then
      .error (lineageMismatch (text "winner.decide_winner"))
    else
      match incoming.order.compare current.order with
      | .gt => .ok .replace
      | .lt => .ok .retainHistoryOnly
      | .eq =>
        if incoming = current then .ok .retainHistoryOnly
        else .error (identityContentMismatch (text "winner.decide_winner"))

/-- Both sides are validated, and a known event is not decided again. -/
def WinnerEffectPlan.decideWinner (digests : Digests) (plan : WinnerEffectPlan) :
    Except ReplicationProtocolError WinnerDecision := do
  plan.incoming.validate digests
  plan.observed.elim (.ok ()) (WinnerProvenance.validate digests)
  match plan.knownIdentity with
  | some (id, digest) =>
    if plan.incoming.event ≠ some id ∨ digest ≠ plan.incoming.digest then
      .error (identityContentMismatch (text "winner.decide_winner"))
    else .ok .duplicate
  | none => decideOrder plan.incoming plan.observed

/-! ### Replicas -/

/-- What became of an event. -/
inductive EventDisposition
  | winnerApplied
  | historyAccepted
  | duplicateAccepted
  deriving DecidableEq, Repr

/-- The answer to an accepted event. -/
structure CanonicalAcceptanceReceipt where
  event : CanonicalEventId
  digest : ByteString
  disposition : EventDisposition
  deriving DecidableEq, Repr

/-- Whether an event may become the winner or is only kept. -/
inductive EventApplication
  | materialize
  | retainHistory
  deriving DecidableEq, Repr

/-- Why an event is not applied. -/
inductive RegionalApplicationError
  | protocol (error : ReplicationProtocolError)
  | schemaUnavailable (context : Text)
  | victimUnavailable
  | corruptRecord
  deriving DecidableEq, Repr

/-- The images of an item before and after an event. -/
structure SourceImages (Image Indexers : Type) where
  old : Option Image
  new : Option Image
  oldIndexers : Option Indexers
  newIndexers : Option Indexers
  deriving DecidableEq

variable {Key Image Indexers Control : Type}
  {codec : CanonicalEventCodec Key (SourceImages Image Indexers) Control}

/-! ### Expirations -/

/-- The item that a version wrote: what was there before the capture, or the part of an event. -/
structure BaselineItem (Key Images : Type) where
  sourceTable : ℕ
  lineage : ℕ
  schema : ℕ
  key : Key
  canonicalKey : ByteString
  images : Images

/-- The item that an event wrote. -/
def AcceptedItemEvent.written {Images : Type} (item : AcceptedItemEvent Key Images) :
    BaselineItem Key Images :=
  ⟨item.sourceTable, item.lineage, item.schema, item.key, item.canonicalKey, item.images⟩

/-- The event that removes the item of a version. -/
def BaselineItem.expiration (item : BaselineItem Key (SourceImages Image Indexers)) (image : Image)
    (order : WinnerOrder) (version : VersionIdentity) (parents : List CanonicalEventId) :
    AcceptedItemEvent Key (SourceImages Image Indexers) where
  sourceTable := item.sourceTable
  lineage := item.lineage
  schema := item.schema
  key := item.key
  canonicalKey := item.canonicalKey
  images :=
    { old := some image, new := none, oldIndexers := item.images.newIndexers, newIndexers := none }
  order := order.expirationChild
  version := version
  cause := .expiration
  victimOrder := some order
  parents := parents
  predecessor := some version
  transaction := none
  observations := []

/-- A baseline has only a new image. -/
def BaselineItem.validate (codec : CanonicalEventCodec Key (SourceImages Image Indexers) Control)
    (item : BaselineItem Key (SourceImages Image Indexers)) :
    Except ReplicationProtocolError Unit := do
  codec.requireValidImages item.images item.key
  require (item.images.old.isNone && item.images.oldIndexers.isNone
    && item.images.new.isSome == item.images.newIndexers.isSome)
    (identityContentMismatch (text "baseline authority"))

/-- The expiration of a baseline. -/
def BaselineItem.expirationChild
    (codec : CanonicalEventCodec Key (SourceImages Image Indexers) Control)
    (item : BaselineItem Key (SourceImages Image Indexers)) : Except ReplicationProtocolError
      (CanonicalEventId × AcceptedItemEvent Key (SourceImages Image Indexers)) := do
  item.validate codec
  match item.images.new with
  | none => .error (identityContentMismatch (text "baseline authority"))
  | some image =>
    let version := VersionIdentity.baseline item.lineage item.canonicalKey
    .ok (version.expirationId codec.digests,
      item.expiration image (.baseline item.lineage item.canonicalKey .mutation) version [])

namespace CanonicalEvent

/-- The event is that of the winner. -/
def bindExpirationVictim (event : CanonicalEvent codec) (winner : WinnerProvenance) :
    Except ReplicationProtocolError (AcceptedItemEvent Key (SourceImages Image Indexers)) :=
  match event.candidate.payload with
  | .item victim =>
    if winner.lineage ≠ victim.lineage ∨ winner.key ≠ victim.canonicalKey
        ∨ winner.version ≠ victim.version ∨ winner.order ≠ victim.order
        ∨ winner.event ≠ some event.candidate.id ∨ winner.digest ≠ event.candidate.digest then
      .error (identityContentMismatch (text "content.try_expiration_child"))
    else .ok victim
  | _ => .error (invalidScope (text "content.try_expiration_child"))

/-- The expiration of a mutation. -/
def tryExpirationChild (event : CanonicalEvent codec) (winner : WinnerProvenance) :
    Except ReplicationProtocolError
      (CanonicalEventId × AcceptedItemEvent Key (SourceImages Image Indexers)) := do
  let victim ← event.bindExpirationVictim winner
  match victim.images.new with
  | none => .error (invalidScope (text "content.try_expiration_child"))
  | some old => .ok (victim.version.expirationId codec.digests,
      victim.written.expiration old victim.order victim.version [event.candidate.id])

end CanonicalEvent

/-- An accepted event with its receipt. -/
structure StoredAcceptance
    (codec : CanonicalEventCodec Key (SourceImages Image Indexers) Control) where
  receipt : CanonicalAcceptanceReceipt
  event : CanonicalEvent codec

/-- What the store knows about an event. -/
structure EventObservation
    (codec : CanonicalEventCodec Key (SourceImages Image Indexers) Control) where
  application : EventApplication
  schema : Option ℕ
  accepted : Option (StoredAcceptance codec)
  winner : Option WinnerProvenance

/-- The winner of a key, with the images of which the new one is written. -/
structure Materialized (Images : Type) where
  provenance : WinnerProvenance
  images : Images

/-- Whether imports go into the current lineage or into a retained one. -/
inductive ImportAuthority
  | current
  | retained (schemas : List ℕ)

/-- A table as imports find it: the table of the peer that it is bound to, its key schema, the
installed schemas, and the baselines in the journal. -/
structure ImportTable (codec : CanonicalEventCodec Key (SourceImages Image Indexers) Control) where
  authority : ImportAuthority
  sourceTable : ℕ
  validKey : Key → Bool
  schemas : List ℕ
  baselines : VersionIdentity → Option (BaselineItem Key (SourceImages Image Indexers))

/-- What a replica has stored for a table. -/
structure Replica (codec : CanonicalEventCodec Key (SourceImages Image Indexers) Control) where
  table : ImportTable codec
  accepted : CanonicalEventId → Option (StoredAcceptance codec)
  winner : ByteString → Option (Materialized (SourceImages Image Indexers))

/-- `CANONICAL_EVENT_SEMANTIC_VERSION`. -/
def canonicalEventSemanticVersion : ℕ := 9

namespace Replica

/-- The winner of a key, which has to be of the lineage. -/
def materializedWinner (replica : Replica codec) (lineage : ℕ) (key : ByteString) :
    Except RegionalApplicationError (Option WinnerProvenance) :=
  match replica.winner key with
  | none => .ok none
  | some winner =>
    if winner.provenance.lineage ≠ lineage then .error .corruptRecord
    else .ok (some winner.provenance)

/-- What the store returns for a pending event. -/
def loadPayloadObservation (replica : Replica codec) (event : CanonicalEvent codec) :
    Except RegionalApplicationError (EventObservation codec) :=
  match event.candidate.payload with
  | .item item =>
    match replica.table.authority with
    | .retained schemas => .ok
        { application := .retainHistory
          schema := if item.schema ∈ schemas then some item.schema else none
          accepted := none
          winner := none }
    | .current =>
      if replica.table.validKey item.key then do
        let winner ← replica.materializedWinner item.lineage item.canonicalKey
        .ok { application := .materialize
              schema := if item.schema ∈ replica.table.schemas then some item.schema else none
              accepted := none
              winner }
      else .error .corruptRecord
  | _ => .ok { application := .materialize, schema := none, accepted := none, winner := none }

/-- The event has the identity and the bytes of the expiration of its victim. -/
def requireChild (event : CanonicalEvent codec) (identity : CanonicalEventId)
    (bytes : ByteString) : Except RegionalApplicationError Unit :=
  if event.candidate.id ≠ identity ∨ event.candidate.bytes ≠ bytes then .error .corruptRecord
  else .ok ()

/-- The expiration that a victim has is written, and compared with the event. -/
def requireWritten (event : CanonicalEvent codec) (semantics : ℕ)
    (child : Except ReplicationProtocolError
      (CanonicalEventId × AcceptedItemEvent Key (SourceImages Image Indexers))) :
    Except RegionalApplicationError Unit := do
  let (identity, child) ← child.mapError fun _ => .corruptRecord
  let bytes ← (codec.encodeItemEvent semantics identity child).mapError fun _ => .corruptRecord
  requireChild event identity bytes

/-- An expiration is checked against its victim, which has to be there. -/
def verifyExpiration (replica : Replica codec) (event : CanonicalEvent codec) :
    Except RegionalApplicationError Unit :=
  match event.candidate.id, event.candidate.payload with
  | .expiration .., .item item =>
    match item.version with
    | .baseline .. =>
      match replica.table.baselines item.version with
      | none => .error .victimUnavailable
      | some baseline =>
        requireWritten event canonicalEventSemanticVersion (baseline.expirationChild codec)
    | .mutation victim =>
      match replica.accepted (.origin victim) with
      | none => .error .victimUnavailable
      | some accepted =>
        match accepted.event.candidate.payload with
        | .item item => requireWritten event accepted.event.candidate.semantics
            (accepted.event.tryExpirationChild
              (item.provenance accepted.event.candidate.id accepted.event.candidate.digest))
        | _ => .error .corruptRecord
  | .expiration .., _ => .error .corruptRecord
  | _, _ => .ok ()

/-- An event of an origin has to be of the table that the replica's is bound to. -/
def isOfOtherTable (replica : Replica codec) (event : CanonicalEvent codec) : Bool :=
  match event.candidate.id with
  | .origin _ => replica.table.sourceTable ≠ event.candidate.payload.sourceTable codec
  | _ => false

/-- What the store returns for an event. -/
def loadEventObservation (replica : Replica codec) (event : CanonicalEvent codec) :
    Except RegionalApplicationError (EventObservation codec) :=
  if replica.isOfOtherTable event then .error .corruptRecord
  else
    match replica.accepted event.candidate.id with
    | some accepted => .ok
        { application := .retainHistory, schema := none, accepted := some accepted, winner := none }
    | none => do
        replica.verifyExpiration event
        replica.loadPayloadObservation event

/-- The item becomes the winner of its key. -/
def storeWinnerEffects (replica : Replica codec)
    (item : AcceptedItemEvent Key (SourceImages Image Indexers)) (provenance : WinnerProvenance) : Replica codec :=
  { replica with
    winner := Function.update replica.winner item.canonicalKey (some ⟨provenance, item.images⟩) }

/-- The event is accepted. -/
def storeAcceptance (replica : Replica codec) (event : CanonicalEvent codec)
    (receipt : CanonicalAcceptanceReceipt) : Replica codec :=
  { replica with
    accepted := Function.update replica.accepted event.candidate.id (some ⟨receipt, event⟩) }

end Replica

/-! ### Application -/

/-- An accepted event comes again with the same bytes. -/
def validateDuplicate (event : CanonicalEvent codec) (accepted : StoredAcceptance codec) :
    Except RegionalApplicationError Unit :=
  if accepted.receipt.event ≠ event.candidate.id
      ∨ accepted.receipt.digest ≠ event.candidate.digest
      ∨ accepted.event.candidate.bytes ≠ event.candidate.bytes then
    .error (.protocol (identityContentMismatch (text "application.existing event differs")))
  else .ok ()

/-- The schema of an item has to be installed. -/
def validateSchema (event : CanonicalEvent codec) (observed : EventObservation codec) :
    Except RegionalApplicationError Unit :=
  match event.candidate.payload with
  | .item item =>
    if observed.schema ≠ some item.schema then
      .error (.schemaUnavailable (text "exact event schema not installed"))
    else .ok ()
  | _ => .ok ()

/-- The effect of a decision on the winner. -/
def Replica.applyDecision (replica : Replica codec)
    (item : AcceptedItemEvent Key (SourceImages Image Indexers)) (incoming : WinnerProvenance) :
    WinnerDecision → Replica codec × EventDisposition
  | .replace => (replica.storeWinnerEffects item incoming, .winnerApplied)
  | .retainHistoryOnly | .duplicate => (replica, .historyAccepted)

/-- An item event is decided against the winner. -/
def Replica.materializeEvent (replica : Replica codec) (event : CanonicalEvent codec)
    (observed : EventObservation codec) :
    Except RegionalApplicationError (Replica codec × EventDisposition) :=
  if observed.application = .retainHistory then .ok (replica, .historyAccepted)
  else
    match event.candidate.payload with
    | .item item => do
        let incoming := item.provenance event.candidate.id event.candidate.digest
        let decision ← ({ incoming, observed := observed.winner, knownIdentity := none } :
          WinnerEffectPlan).decideWinner codec.digests |>.mapError .protocol
        .ok (replica.applyDecision item incoming decision)
    | _ => .ok (replica, .historyAccepted)

/-- An event that was not accepted before. -/
def Replica.acceptEvent (replica : Replica codec) (event : CanonicalEvent codec)
    (observed : EventObservation codec) :
    Except RegionalApplicationError (Replica codec × CanonicalAcceptanceReceipt) := do
  validateSchema event observed
  let (next, disposition) ← replica.materializeEvent event observed
  let receipt : CanonicalAcceptanceReceipt :=
    { event := event.candidate.id, digest := event.candidate.digest, disposition }
  .ok (next.storeAcceptance event receipt, receipt)

/-- **One event**: answered again, or accepted. -/
def Replica.applyEvent (replica : Replica codec) (event : CanonicalEvent codec) :
    Except RegionalApplicationError (Replica codec × CanonicalAcceptanceReceipt) := do
  let observed ← replica.loadEventObservation event
  match observed.accepted with
  | some accepted => do
      validateDuplicate event accepted
      .ok (replica, accepted.receipt)
  | none => replica.acceptEvent event observed

/-- The events one after the other. -/
def Replica.applyEvents (replica : Replica codec) :
    List (CanonicalEvent codec) →
      Except RegionalApplicationError (Replica codec × List CanonicalAcceptanceReceipt)
  | [] => .ok (replica, [])
  | event :: rest => do
      let (next, receipt) ← replica.applyEvent event
      let (last, receipts) ← next.applyEvents rest
      .ok (last, receipt :: receipts)

/-! ### Winners among candidates -/

section Winners

variable {Images : Type}

/-- A winner among candidates: the candidate with the greatest order, and none if there is no
candidate. -/
def IsWinner (candidate : Materialized Images → Prop) : Option (Materialized Images) → Prop
  | none => ∀ m, ¬ candidate m
  | some m => candidate m ∧
      ∀ other, candidate other → m.provenance.order.compare other.provenance.order ≠ .lt

variable {candidate : Materialized Images → Prop}

/-- There is one winner where orders determine candidates. -/
theorem IsWinner.unique (hunique : ∀ m other, candidate m → candidate other →
      m.provenance.order = other.provenance.order → m = other) {a b : Option (Materialized Images)}
    (ha : IsWinner candidate a) (hb : IsWinner candidate b) : a = b := by
  cases a with
  | none =>
    cases b with
    | none => rfl
    | some m => exact absurd hb.1 (ha m)
  | some m =>
    cases b with
    | none => exact absurd ha.1 (hb m)
    | some other =>
      have hle := ha.2 other hb.1
      have hge := hb.2 m ha.1
      rw [Ne, compare_eq_lt, not_lt] at hle hge
      have horder := WinnerOrder.place_injective (le_antisymm hge hle)
      rw [hunique m other ha.1 hb.1 horder]

variable {current : Option (Materialized Images)} {m : Materialized Images}

/-- A candidate above the winner is the next winner. -/
theorem IsWinner.replace (h : IsWinner candidate current)
    (hgt : ∀ w ∈ current, m.provenance.order.compare w.provenance.order = .gt) :
    IsWinner (fun x => candidate x ∨ x = m) (some m) := by
  refine ⟨.inr rfl, ?_⟩
  rintro other (hother | rfl)
  · cases current with
    | none => exact absurd hother (h other)
    | some w =>
      have hle := h.2 other hother
      have hlt := hgt w rfl
      rw [Ne, compare_eq_lt, not_lt] at hle ⊢
      rw [WinnerOrder.compare_eq_gt] at hlt
      exact hle.trans hlt.le
  · rw [Ne, compare_eq_lt]
    exact lt_irrefl _

/-- A candidate below the winner leaves it. -/
theorem IsWinner.retain {w : Materialized Images} (h : IsWinner candidate (some w))
    (hlt : m.provenance.order.compare w.provenance.order = .lt) :
    IsWinner (fun x => candidate x ∨ x = m) (some w) := by
  refine ⟨.inl h.1, ?_⟩
  rintro other (hother | rfl)
  · exact h.2 other hother
  · rw [compare_eq_lt] at hlt
    rw [Ne, compare_eq_lt]
    exact hlt.not_gt

/-- A winner depends on the candidates alone. -/
theorem IsWinner.congr {candidate' : Materialized Images → Prop} (h : IsWinner candidate current)
    (hiff : ∀ m, candidate' m ↔ candidate m) : IsWinner candidate' current := by
  cases current with
  | none => exact fun m hm => h m ((hiff m).1 hm)
  | some m => exact ⟨(hiff m).2 h.1, fun other hother => h.2 other ((hiff other).1 hother)⟩

end Winners

/-! ### What a replica has settled -/

/-- An item event of a lineage and a key. -/
def CanonicalEvent.IsItemOf (event : CanonicalEvent codec) (lineage : ℕ) (key : ByteString) :
    Prop :=
  ∃ item, event.candidate.payload = .item item ∧ item.lineage = lineage ∧ item.canonicalKey = key

/-- The version that an expiration names. -/
def CanonicalEvent.expired (event : CanonicalEvent codec) : Option VersionIdentity :=
  match event.candidate.id, event.candidate.payload with
  | .expiration .., .item item => some item.version
  | _, _ => none

/-- The bytes of an event are those of the expiration of a victim. -/
def CanonicalEvent.IsWrittenAs (event : CanonicalEvent codec) (semantics : ℕ)
    (child : Except ReplicationProtocolError
      (CanonicalEventId × AcceptedItemEvent Key (SourceImages Image Indexers))) : Prop :=
  ∃ identity item, child = .ok (identity, item) ∧
    codec.encodeItemEvent semantics identity item = .ok event.candidate.bytes

/-- The event is the expiration of another one. -/
def CanonicalEvent.IsExpirationOf (event victim : CanonicalEvent codec) : Prop :=
  ∃ item, victim.candidate.payload = .item item ∧
    event.IsWrittenAs victim.candidate.semantics (victim.tryExpirationChild
      (item.provenance victim.candidate.id victim.candidate.digest))

/-- The winner that an item event would become. -/
def CanonicalEvent.Materializes (event : CanonicalEvent codec)
    (m : Materialized (SourceImages Image Indexers)) : Prop :=
  ∃ item, event.candidate.payload = .item item ∧
    m = ⟨item.provenance event.candidate.id event.candidate.digest, item.images⟩

/-- A baseline of a lineage and a key: a valid winner without an event. -/
structure IsBaseline (codec : CanonicalEventCodec Key (SourceImages Image Indexers) Control)
    (lineage : ℕ) (key : ByteString) (m : Materialized (SourceImages Image Indexers)) : Prop where
  validate : m.provenance.validate codec.digests = .ok ()
  event : m.provenance.event = none
  lineage_eq : m.provenance.lineage = lineage
  key_eq : m.provenance.key = key

/-- The candidates: the winner that was there, and the events. -/
def Candidate (start : Option (Materialized (SourceImages Image Indexers)))
    (events : List (CanonicalEvent codec)) (m : Materialized (SourceImages Image Indexers)) :
    Prop :=
  start = some m ∨ ∃ event ∈ events, event.Materializes m

/-- A set of events of one key and one lineage, with what was there before them. An expiration of
a mutation is the expiration of one of the events. -/
structure Scope (codec : CanonicalEventCodec Key (SourceImages Image Indexers) Control) where
  lineage : ℕ
  key : ByteString
  start : Option (Materialized (SourceImages Image Indexers))
  events : List (CanonicalEvent codec)
  start_baseline : ∀ m ∈ start, IsBaseline codec lineage key m
  isItemOf : ∀ event ∈ events, event.IsItemOf lineage key
  bytes_of_id : ∀ a ∈ events, ∀ b ∈ events,
    a.candidate.id = b.candidate.id → a.candidate.bytes = b.candidate.bytes
  victims : ∀ event ∈ events, ∀ id, event.expired = some (.mutation id) →
    ∃ victim ∈ events, victim.candidate.id = .origin id ∧ event.IsExpirationOf victim

/-- A table takes the events of a scope: it is bound to their table, accepts their keys and has
their schemas, and the baselines in its journal have the expirations among the events. -/
structure ImportTable.Takes (table : ImportTable codec) (scope : Scope codec) : Prop where
  authority : table.authority = .current
  items : ∀ event ∈ scope.events, ∀ item, event.candidate.payload = .item item →
    table.sourceTable = item.sourceTable ∧ table.validKey item.key = true ∧
      item.schema ∈ table.schemas
  baselines : ∀ event ∈ scope.events, ∀ lineage key,
    event.expired = some (.baseline lineage key) →
      ∃ baseline, table.baselines (.baseline lineage key) = some baseline ∧
        event.IsWrittenAs canonicalEventSemanticVersion (baseline.expirationChild codec)

/-- The mutation that an event expires is among those before it. -/
def CanonicalEvent.HasVictimIn (event : CanonicalEvent codec)
    (before : List (CanonicalEvent codec)) : Prop :=
  ∀ id, event.expired = some (.mutation id) → ∃ victim ∈ before, victim.candidate.id = .origin id

/-- **Every expiration of a mutation follows its victim.** -/
def VictimsFirst : List (CanonicalEvent codec) → List (CanonicalEvent codec) → Prop
  | _, [] => True
  | before, event :: rest => event.HasVictimIn before ∧ VictimsFirst (event :: before) rest

/-- What a replica has stored when it has applied some of the events. -/
structure Replica.Settled (scope : Scope codec) (applied : List (CanonicalEvent codec))
    (replica : Replica codec) : Prop where
  table : replica.table.Takes scope
  subset : applied ⊆ scope.events
  accepted : ∀ event ∈ applied, ∃ stored, replica.accepted event.candidate.id = some stored ∧
    stored.event = event ∧ stored.receipt.event = event.candidate.id ∧
    stored.receipt.digest = event.candidate.digest
  pending : ∀ event ∈ scope.events, event ∉ applied →
    replica.accepted event.candidate.id = none
  victims : ∀ event ∈ applied, event.HasVictimIn applied
  winner : IsWinner (Candidate scope.start applied) (replica.winner scope.key)

namespace Scope

variable {scope : Scope codec}

/-- An identity names one event. -/
theorem eq_of_id {a b : CanonicalEvent codec} (ha : a ∈ scope.events) (hb : b ∈ scope.events)
    (h : a.candidate.id = b.candidate.id) : a = b :=
  CanonicalEvent.ext_of_bytes (scope.bytes_of_id a ha b hb h)

variable {m : Materialized (SourceImages Image Indexers)} {applied : List (CanonicalEvent codec)}

/-- Candidates are valid winners of the scope. -/
theorem validate_candidate (hsub : applied ⊆ scope.events) (h : Candidate scope.start applied m) :
    m.provenance.validate codec.digests = .ok () ∧ m.provenance.lineage = scope.lineage ∧
      m.provenance.key = scope.key := by
  rcases h with hstart | ⟨event, hmem, item, hitem, rfl⟩
  · have hbaseline := scope.start_baseline m hstart
    exact ⟨hbaseline.validate, hbaseline.lineage_eq, hbaseline.key_eq⟩
  · obtain ⟨item', hitem', hlineage, hkey⟩ := scope.isItemOf event (hsub hmem)
    obtain rfl := CanonicalPayload.item.inj (hitem.symm.trans hitem')
    exact ⟨AcceptedItemEvent.validate_provenance _ (CanonicalEvent.requireCausalShape hitem),
      hlineage, hkey⟩

/-- **An order determines its candidate**: two candidates of one order have one event, and an
identity names one event. -/
theorem candidate_of_order (hsub : applied ⊆ scope.events)
    {other : Materialized (SourceImages Image Indexers)} (hm : Candidate scope.start applied m)
    (hother : Candidate scope.start applied other)
    (horder : m.provenance.order = other.provenance.order) : m = other := by
  obtain ⟨hvalid, hlineage, -⟩ := validate_candidate hsub hm
  obtain ⟨hvalid', hlineage', -⟩ := validate_candidate hsub hother
  obtain ⟨-, hevent⟩ := WinnerProvenance.event_of_order hvalid hvalid'
    (hlineage.trans hlineage'.symm) horder
  rcases hm with hm | ⟨event, hmem, item, hitem, rfl⟩
  · have hnone := (scope.start_baseline m hm).event
    rcases hother with hother | ⟨event', -, item', -, rfl⟩
    · rw [hm] at hother
      exact Option.some.inj hother
    · rw [hnone] at hevent
      cases hevent
  · rcases hother with hother | ⟨event', hmem', item', hitem', rfl⟩
    · rw [(scope.start_baseline other hother).event] at hevent
      cases hevent
    · obtain rfl := eq_of_id (hsub hmem) (hsub hmem') (Option.some.inj hevent)
      obtain rfl := CanonicalPayload.item.inj (hitem.symm.trans hitem')
      rfl

end Scope

/-! ### Application keeps the winner -/

section Step

variable {scope : Scope codec} {applied : List (CanonicalEvent codec)} {replica : Replica codec}
  {event : CanonicalEvent codec}

variable {item : AcceptedItemEvent Key (SourceImages Image Indexers)}

/-- What is settled depends on which events were applied, and not on their order or number. -/
theorem Replica.Settled.congr {applied' : List (CanonicalEvent codec)}
    (h : replica.Settled scope applied) (hiff : ∀ event, event ∈ applied' ↔ event ∈ applied) :
    replica.Settled scope applied' where
  table := h.table
  subset := fun event hmem => h.subset ((hiff event).1 hmem)
  accepted := fun event hmem => h.accepted event ((hiff event).1 hmem)
  pending := fun event hmem hnot => h.pending event hmem fun happlied =>
    hnot ((hiff event).2 happlied)
  victims := by
    intro event hmem id hid
    obtain ⟨victim, hvictim, hsame⟩ := h.victims event ((hiff event).1 hmem) id hid
    exact ⟨victim, (hiff victim).2 hvictim, hsame⟩
  winner := h.winner.congr fun m => by
    simp only [Candidate, hiff]

/-- The candidates with one more event. -/
theorem candidate_cons (hitem : event.candidate.payload = .item item)
    (start : Option (Materialized (SourceImages Image Indexers)))
    (m : Materialized (SourceImages Image Indexers)) :
    Candidate start (event :: applied) m ↔ Candidate start applied m ∨
      m = ⟨item.provenance event.candidate.id event.candidate.digest, item.images⟩ := by
  have hmaterializes : event.Materializes m ↔
      m = ⟨item.provenance event.candidate.id event.candidate.digest, item.images⟩ := by
    constructor
    · rintro ⟨item', hitem', rfl⟩
      obtain rfl := CanonicalPayload.item.inj (hitem.symm.trans hitem')
      rfl
    · rintro rfl
      exact ⟨item, hitem, rfl⟩
  simp only [Candidate, mem_cons, exists_eq_or_imp, hmaterializes]
  exact (or_congr_right or_comm).trans or_assoc.symm

section Event

/-- An event that is written as an expiration passes the comparison with it. -/
theorem CanonicalEvent.IsWrittenAs.requireWritten {semantics : ℕ}
    {child : Except ReplicationProtocolError
      (CanonicalEventId × AcceptedItemEvent Key (SourceImages Image Indexers))}
    (h : event.IsWrittenAs semantics child) :
    Replica.requireWritten event semantics child = .ok () := by
  obtain ⟨identity, item, rfl, hbytes⟩ := h
  obtain ⟨hid, -⟩ := CanonicalEvent.eq_of_encodeItemEvent hbytes
  simp [Replica.requireWritten, Except.mapError, hbytes, Replica.requireChild, hid, bind,
    Except.bind]

/-- An event of a scope is of the table that the replica's is bound to. -/
theorem ImportTable.Takes.isOfOtherTable (h : replica.table.Takes scope)
    (hmem : event ∈ scope.events) : replica.isOfOtherTable event = false := by
  obtain ⟨item, hitem, -⟩ := scope.isItemOf event hmem
  have hsource := (h.items event hmem item hitem).1
  rw [Replica.isOfOtherTable]
  cases event.candidate.id <;> simp [hitem, CanonicalPayload.sourceTable, hsource]

variable (h : replica.Settled scope applied)

include h

/-- An event that was applied is answered with its receipt. -/
theorem Replica.Settled.applyEvent_again (hmem : event ∈ applied) :
    ∃ stored, replica.accepted event.candidate.id = some stored ∧
      replica.applyEvent event = .ok (replica, stored.receipt) := by
  obtain ⟨stored, hstored, hevent, hid, hdigest⟩ := h.accepted event hmem
  have htable := h.table.isOfOtherTable (h.subset hmem)
  refine ⟨stored, hstored, ?_⟩
  simp [Replica.applyEvent, Replica.loadEventObservation, htable, hstored, validateDuplicate, hid,
    hdigest, hevent, bind, Except.bind]

variable (hmem : event ∈ scope.events)

include hmem

/-- **The check of a pending event** passes exactly when the replica has its victim. -/
theorem Replica.Settled.verifyExpiration :
    (event.HasVictimIn applied → replica.verifyExpiration event = .ok ()) ∧
      (¬event.HasVictimIn applied →
        replica.verifyExpiration event = .error .victimUnavailable) := by
  obtain ⟨item, hitem, -⟩ := scope.isItemOf event hmem
  cases hid : event.candidate.id with
  | origin | control | adopted =>
    have hexpired : event.expired = none := by rw [CanonicalEvent.expired, hid]
    refine ⟨fun _ => by rw [Replica.verifyExpiration, hid], fun hnot => absurd ?_ hnot⟩
    intro id hsome
    rw [hexpired] at hsome
    cases hsome
  | expiration lineage digest =>
    have hexpired : event.expired = some item.version := by
      rw [CanonicalEvent.expired, hid, hitem]
    cases hversion : item.version with
    | baseline lineage key =>
      rw [hversion] at hexpired
      obtain ⟨baseline, hbaseline, hchild⟩ := h.table.baselines event hmem lineage key hexpired
      refine ⟨fun _ => ?_, fun hnot => absurd ?_ hnot⟩
      · simp only [Replica.verifyExpiration, hid, hitem, hversion, hbaseline]
        exact hchild.requireWritten
      · intro id hsome
        rw [hexpired] at hsome
        cases hsome
    | mutation id =>
      rw [hversion] at hexpired
      obtain ⟨victim, hvictim, hvictimId, victimItem, hpayload, hchild⟩ :=
        scope.victims event hmem id hexpired
      constructor
      · intro hhas
        obtain ⟨other, happlied, hother⟩ := hhas id hexpired
        obtain rfl := Scope.eq_of_id (h.subset happlied) hvictim (hother.trans hvictimId.symm)
        obtain ⟨stored, hstored, hevent, -⟩ := h.accepted other happlied
        rw [hother] at hstored
        simp only [Replica.verifyExpiration, hid, hitem, hversion, hstored, hevent, hpayload]
        exact hchild.requireWritten
      · intro hnot
        have hnone : replica.accepted (.origin id) = none := by
          rw [← hvictimId]
          refine h.pending victim hvictim fun happlied => hnot fun other hsome => ?_
          obtain rfl : id = other := by
            rw [hexpired] at hsome
            cases hsome
            rfl
          exact ⟨victim, happlied, hvictimId⟩
        simp only [Replica.verifyExpiration, hid, hitem, hversion, hnone]

/-- The acceptance of a pending event, when the winner of the key is the greatest of the
candidates with it. -/
theorem Replica.Settled.storeAcceptance (receipt : CanonicalAcceptanceReceipt)
    (hid : receipt.event = event.candidate.id) (hdigest : receipt.digest = event.candidate.digest)
    {next : Replica codec} (htable : next.table = replica.table)
    (haccepted : next.accepted = replica.accepted) (hvictim : event.HasVictimIn applied)
    (hwinner : IsWinner (Candidate scope.start (event :: applied)) (next.winner scope.key)) :
    (next.storeAcceptance event receipt).Settled scope (event :: applied) where
  table := by
    change next.table.Takes scope
    rw [htable]
    exact h.table
  subset := cons_subset.2 ⟨hmem, h.subset⟩
  accepted := by
    intro other hother
    by_cases hsame : other = event
    · subst hsame
      exact ⟨⟨receipt, other⟩, Function.update_self .., rfl, hid, hdigest⟩
    · have happlied := (mem_cons.1 hother).resolve_left hsame
      have hne : other.candidate.id ≠ event.candidate.id := fun heq =>
        hsame (Scope.eq_of_id (h.subset happlied) hmem heq)
      obtain ⟨stored, hstored, hrest⟩ := h.accepted other happlied
      refine ⟨stored, ?_, hrest⟩
      rw [Replica.storeAcceptance]
      dsimp only
      rw [Function.update_of_ne hne, haccepted, hstored]
  pending := by
    intro other hother hnot
    obtain ⟨hsame, happlied⟩ := not_or.1 (mem_cons.not.1 hnot)
    have hne : other.candidate.id ≠ event.candidate.id := fun heq =>
      hsame (Scope.eq_of_id hother hmem heq)
    rw [Replica.storeAcceptance]
    dsimp only
    rw [Function.update_of_ne hne, haccepted]
    exact h.pending other hother happlied
  victims := by
    intro other hother id hid
    have hhas : other.HasVictimIn applied := by
      rcases mem_cons.1 hother with rfl | happlied
      · exact hvictim
      · exact h.victims other happlied
    obtain ⟨victim, happlied, hsame⟩ := hhas id hid
    exact ⟨victim, mem_cons_of_mem _ happlied, hsame⟩
  winner := hwinner

variable (hpending : event ∉ applied) (hitem : event.candidate.payload = .item item)

include hpending hitem

/-- The decision for a pending event, from the comparison with the winner. -/
theorem Replica.Settled.decideWinner :
    ∃ decision, WinnerEffectPlan.decideWinner codec.digests
        { incoming := item.provenance event.candidate.id event.candidate.digest
          observed := (replica.winner scope.key).map Materialized.provenance
          knownIdentity := none } = .ok decision ∧
      ((decision = .replace ∧ ∀ w ∈ replica.winner scope.key,
          item.order.compare w.provenance.order = .gt) ∨
        (decision = .retainHistoryOnly ∧ ∃ w, replica.winner scope.key = some w ∧
          item.order.compare w.provenance.order = .lt)) := by
  have hcandidate : Candidate scope.start (event :: applied)
      ⟨item.provenance event.candidate.id event.candidate.digest, item.images⟩ :=
    .inr ⟨event, mem_cons_self, item, hitem, rfl⟩
  have hsub : event :: applied ⊆ scope.events := cons_subset.2 ⟨hmem, h.subset⟩
  obtain ⟨hvalid, hlineage, hkey⟩ := Scope.validate_candidate hsub hcandidate
  cases hwinner : replica.winner scope.key with
  | none =>
    refine ⟨.replace, ?_, .inl ⟨rfl, fun w hw => by cases hw⟩⟩
    simp [WinnerEffectPlan.decideWinner, WinnerEffectPlan.decideOrder, hvalid, bind, Except.bind]
  | some w =>
    have hw := h.winner
    rw [hwinner] at hw
    have hwc : Candidate scope.start (event :: applied) w := by
      rcases hw.1 with hstart | ⟨other, hother, hm⟩
      · exact .inl hstart
      · exact .inr ⟨other, mem_cons_of_mem _ hother, hm⟩
    obtain ⟨hvalid', hlineage', hkey'⟩ := Scope.validate_candidate hsub hwc
    -- a tie would make the winner the pending event, which is not among the applied ones
    have hne : item.order.compare w.provenance.order ≠ .eq := by
      intro heq
      have hsame := Scope.candidate_of_order hsub hcandidate hwc
        (WinnerOrder.compare_eq_eq.1 heq)
      rcases hw.1 with hstart | ⟨other, hother, item', hitem', hm⟩
      · have hnone := (scope.start_baseline w hstart).event
        rw [← hsame] at hnone
        cases hnone
      · rw [← hsame] at hm
        have hid : event.candidate.id = other.candidate.id :=
          Option.some.inj (congrArg (fun m => m.provenance.event) hm)
        exact hpending (Scope.eq_of_id hmem (h.subset hother) hid ▸ hother)
    have hscope : ¬ ((item.provenance event.candidate.id event.candidate.digest).lineage
          ≠ w.provenance.lineage ∨
        (item.provenance event.candidate.id event.candidate.digest).key ≠ w.provenance.key) := by
      rw [not_or, not_not, not_not]
      exact ⟨hlineage.trans hlineage'.symm, hkey.trans hkey'.symm⟩
    have hdecide (decision : WinnerDecision)
        (horder : WinnerEffectPlan.decideOrder
          (item.provenance event.candidate.id event.candidate.digest) (some w.provenance)
            = .ok decision) :
        WinnerEffectPlan.decideWinner codec.digests
          { incoming := item.provenance event.candidate.id event.candidate.digest
            observed := (some w).map Materialized.provenance
            knownIdentity := none } = .ok decision := by
      simp [WinnerEffectPlan.decideWinner, hvalid, hvalid', horder, bind, Except.bind]
    cases hcompare : item.order.compare w.provenance.order with
    | eq => exact absurd hcompare hne
    | gt =>
      refine ⟨.replace, hdecide _ ?_, .inl ⟨rfl, ?_⟩⟩
      · rw [WinnerEffectPlan.decideOrder, if_neg hscope]
        change (match item.order.compare w.provenance.order with
          | .gt => _ | .lt => _ | .eq => _) = _
        rw [hcompare]
      · rintro x hx
        cases hx
        exact hcompare
    | lt =>
      refine ⟨.retainHistoryOnly, hdecide _ ?_, .inr ⟨rfl, w, rfl, hcompare⟩⟩
      rw [WinnerEffectPlan.decideOrder, if_neg hscope]
      change (match item.order.compare w.provenance.order with
        | .gt => _ | .lt => _ | .eq => _) = _
      rw [hcompare]

/-- The observation of a pending event whose victim is there. -/
theorem Replica.Settled.loadEventObservation (hvictim : event.HasVictimIn applied) :
    replica.loadEventObservation event = .ok
      { application := .materialize
        schema := some item.schema
        accepted := none
        winner := (replica.winner scope.key).map Materialized.provenance } := by
  obtain ⟨item', hitem', hlineage, hkey⟩ := scope.isItemOf event hmem
  obtain rfl := CanonicalPayload.item.inj (hitem.symm.trans hitem')
  obtain ⟨-, hvalid, hschema⟩ := h.table.items event hmem item hitem
  have hwinner : replica.materializedWinner item.lineage item.canonicalKey
      = .ok ((replica.winner scope.key).map Materialized.provenance) := by
    rw [Replica.materializedWinner, hkey]
    cases hw : replica.winner scope.key with
    | none => rfl
    | some w =>
      have hwinner := h.winner
      rw [hw] at hwinner
      obtain ⟨-, hwlineage, -⟩ := Scope.validate_candidate h.subset hwinner.1
      simp [hwlineage, hlineage]
  simp [Replica.loadEventObservation, h.table.isOfOtherTable hmem, h.pending event hmem hpending,
    (h.verifyExpiration hmem).1 hvictim, Replica.loadPayloadObservation, hitem,
    h.table.authority, hvalid, hwinner, hschema, bind, Except.bind]

omit hpending hitem in
/-- **One application** of an event whose victim is there: it succeeds, and the winner is the
greatest of the candidates with the event. -/
theorem Replica.Settled.applyEvent (hvictim : event.HasVictimIn applied) :
    ∃ next receipt, replica.applyEvent event = .ok (next, receipt) ∧
      next.Settled scope (event :: applied) := by
  by_cases happlied : event ∈ applied
  · obtain ⟨stored, -, hagain⟩ := h.applyEvent_again happlied
    refine ⟨replica, stored.receipt, hagain, h.congr fun other => ?_⟩
    rw [mem_cons, or_iff_right_of_imp]
    rintro rfl
    exact happlied
  · obtain ⟨item, hitem, -, hkey⟩ := scope.isItemOf event hmem
    obtain ⟨decision, hdecision, hcases⟩ := h.decideWinner hmem happlied hitem
    have hobserved := h.loadEventObservation hmem happlied hitem hvictim
    have happly : replica.applyEvent event = .ok
        (((replica.applyDecision item
          (item.provenance event.candidate.id event.candidate.digest) decision).1.storeAcceptance
            event ⟨event.candidate.id, event.candidate.digest, (replica.applyDecision item
              (item.provenance event.candidate.id event.candidate.digest) decision).2⟩),
          ⟨event.candidate.id, event.candidate.digest, (replica.applyDecision item
            (item.provenance event.candidate.id event.candidate.digest) decision).2⟩) := by
      simp [Replica.applyEvent, hobserved, Replica.acceptEvent, validateSchema, hitem,
        Replica.materializeEvent, hdecision, bind, Except.bind, Except.mapError]
    refine ⟨_, _, happly, ?_⟩
    rcases hcases with ⟨rfl, hgt⟩ | ⟨rfl, w, hw, hlt⟩
    · refine h.storeAcceptance hmem _ rfl rfl rfl rfl hvictim ?_
      change IsWinner _ (Function.update replica.winner item.canonicalKey _ scope.key)
      rw [hkey, Function.update_self]
      exact (h.winner.replace hgt).congr (candidate_cons hitem scope.start)
    · refine h.storeAcceptance hmem _ rfl rfl rfl rfl hvictim ?_
      have hwinner := h.winner
      change IsWinner _ (replica.winner scope.key)
      rw [hw] at hwinner ⊢
      exact (hwinner.retain hlt).congr (candidate_cons hitem scope.start)

omit hpending hitem in
/-- An expiration whose victim is not there is refused. -/
theorem Replica.Settled.applyEvent_unavailable (hvictim : ¬event.HasVictimIn applied) :
    replica.applyEvent event = .error .victimUnavailable := by
  have hpending : event ∉ applied := fun happlied => hvictim (h.victims event happlied)
  simp [Replica.applyEvent, Replica.loadEventObservation, h.table.isOfOtherTable hmem,
    h.pending event hmem hpending, (h.verifyExpiration hmem).2 hvictim, bind, Except.bind]

end Event

/-- **A run of applications** in which every expiration follows its victim succeeds, and settles
the events in it. -/
theorem Replica.Settled.applyEvents {events : List (CanonicalEvent codec)}
    (hsub : events ⊆ scope.events) (h : replica.Settled scope applied)
    (hvictims : VictimsFirst applied events) : ∃ last receipts,
      replica.applyEvents events = .ok (last, receipts) ∧
        last.Settled scope (events ++ applied) := by
  induction events generalizing replica applied with
  | nil => exact ⟨replica, [], rfl, h⟩
  | cons event rest ih =>
    obtain ⟨hmem, hrest⟩ := cons_subset.1 hsub
    obtain ⟨next, receipt, happly, hnext⟩ := h.applyEvent hmem hvictims.1
    obtain ⟨last, receipts, hrun, hlast⟩ := ih hrest hnext hvictims.2
    refine ⟨last, receipt :: receipts, ?_, hlast.congr fun other => ?_⟩
    · simp [Replica.applyEvents, happly, hrun, bind, Except.bind]
    · simp only [cons_append, mem_cons, mem_append]
      tauto

/-- A run that succeeds has every expiration after its victim. -/
theorem Replica.Settled.victimsFirst {events : List (CanonicalEvent codec)}
    (hsub : events ⊆ scope.events) (h : replica.Settled scope applied) {last : Replica codec}
    {receipts : List CanonicalAcceptanceReceipt}
    (hrun : replica.applyEvents events = .ok (last, receipts)) : VictimsFirst applied events := by
  induction events generalizing replica applied last receipts with
  | nil => trivial
  | cons event rest ih =>
    obtain ⟨hmem, hrest⟩ := cons_subset.1 hsub
    by_cases hvictim : event.HasVictimIn applied
    · obtain ⟨next, receipt, happly, hnext⟩ := h.applyEvent hmem hvictim
      simp only [Replica.applyEvents, happly, bind, Except.bind] at hrun
      cases hmore : next.applyEvents rest with
      | error e =>
        rw [hmore] at hrun
        cases hrun
      | ok more => exact ⟨hvictim, ih hrest hnext hmore⟩
    · simp only [Replica.applyEvents, h.applyEvent_unavailable hmem hvictim, bind,
        Except.bind] at hrun
      cases hrun

end Step

/-! ### Convergence -/

/-- A replica that has none of the events yet. -/
structure Replica.IsFresh (scope : Scope codec) (replica : Replica codec) : Prop where
  table : replica.table.Takes scope
  accepted : ∀ event ∈ scope.events, replica.accepted event.candidate.id = none
  winner : replica.winner scope.key = scope.start

/-- A fresh replica has settled nothing. -/
theorem Replica.IsFresh.settled {scope : Scope codec} {replica : Replica codec}
    (h : replica.IsFresh scope) : replica.Settled scope [] where
  table := h.table
  subset := nil_subset _
  accepted := fun _ hmem => by cases hmem
  pending := fun event hmem _ => h.accepted event hmem
  victims := fun _ hmem => by cases hmem
  winner := by
    rw [h.winner]
    cases hstart : scope.start with
    | none => rintro m (hm | ⟨event, hmem, -⟩) <;> simp_all
    | some w =>
      refine ⟨.inl rfl, ?_⟩
      rintro other (hother | ⟨event, hmem, -⟩)
      · cases hother
        rw [Ne, compare_eq_lt]
        exact lt_irrefl _
      · cases hmem

/-- The order of an expiration is next to the order of its victim. -/
def WinnerOrder.IsNextTo (child victim : WinnerOrder) : Prop :=
  victim.compare child = .lt ∧
    ∀ other : WinnerOrder, victim.compare other = .lt → other ≠ child →
      child.compare other = .lt

/-- The order of an expiration is next to that of its victim. -/
theorem WinnerOrder.isNextTo_expirationChild {victim : WinnerOrder}
    (h : victim.isExpiration = false) : victim.expirationChild.IsNextTo victim :=
  ⟨lt_expirationChild h, fun _ habove hne => expirationChild_lt h habove hne⟩

/-- A baseline has one order that is not the order of an expiration. -/
theorem VersionIdentity.order_of_baseline {lineage : ℕ} {key own own' : ByteString}
    {a b : WinnerOrder} (ha : (VersionIdentity.baseline lineage key).isBoundTo a own = true)
    (hb : (VersionIdentity.baseline lineage key).isBoundTo b own' = true)
    (harank : a.isExpiration = false) (hbrank : b.isExpiration = false) : a = b := by
  cases a with
  | mutation => cases ha
  | baseline lineage' key' rank =>
    cases b with
    | mutation => cases hb
    | baseline lineage'' key'' rank' =>
      simp only [isBoundTo, decide_eq_true_eq] at ha hb
      obtain ⟨rfl, -, rfl⟩ := ha
      obtain ⟨rfl, -, rfl⟩ := hb
      cases rank with
      | expiration => cases harank
      | mutation =>
        cases rank' with
        | expiration => cases hbrank
        | mutation => rfl

/-- A valid winner that is not the expiration of its version is that version: a mutation with the
event of its origin, or a baseline. -/
theorem WinnerProvenance.of_not_expiration {digests : Digests} {winner : WinnerProvenance}
    (h : winner.validate digests = .ok ())
    (hevent : winner.event ≠ some (winner.version.expirationId digests)) :
    winner.order.isExpiration = false ∧
      ∀ id, winner.version = .mutation id → winner.event = some (.origin id) := by
  obtain ⟨-, -, -, hvalid⟩ := WinnerProvenance.validate_eq_ok.1 h
  rw [WinnerProvenance.validEvent] at hvalid
  cases hx : winner.event with
  | none =>
    cases hv : winner.version with
    | mutation => simp [hx, hv] at hvalid
    | baseline =>
      refine ⟨by simpa [hx, hv] using hvalid, ?_⟩
      rintro id ⟨⟩
  | some x =>
    cases x with
    | origin own =>
      cases hv : winner.version with
      | baseline => simp [hx, hv] at hvalid
      | mutation version =>
        simp only [hx, hv, Bool.and_eq_true, decide_eq_true_eq, Bool.not_eq_true'] at hvalid
        obtain ⟨rfl, hrank⟩ := hvalid
        refine ⟨hrank, ?_⟩
        rintro id ⟨⟩
        rfl
    | expiration lineage digest =>
      simp only [hx, Bool.and_eq_true, decide_eq_true_eq] at hvalid
      rw [hx, hvalid.1.2] at hevent
      exact absurd rfl hevent
    | control => cases hv : winner.version <;> simp [hx, hv] at hvalid
    | adopted => cases hv : winner.version <;> simp [hx, hv] at hvalid

section Victims

variable {scope : Scope codec} {event : CanonicalEvent codec}
  {item : AcceptedItemEvent Key (SourceImages Image Indexers)}

/-- What a valid expiration says about itself. -/
theorem CanonicalEvent.expiration_spec (hitem : event.candidate.payload = .item item)
    (hcause : item.cause = .expiration) :
    event.expired = some item.version ∧
      event.candidate.id = item.version.expirationId codec.digests ∧
      ∃ order, order.isExpiration = false ∧
        item.version.isBoundTo order item.canonicalKey = true ∧
        item.order = order.expirationChild := by
  obtain ⟨-, -, hidentity⟩ :=
    AcceptedItemEvent.requireCausalShape_eq_ok (CanonicalEvent.requireCausalShape hitem)
  cases hid : event.candidate.id with
  | origin id =>
    rw [hid, AcceptedItemEvent.requireIdentity, AcceptedItemEvent.requireMutationIdentity,
      hcause] at hidentity
    obtain ⟨⟨⟩, hrequire, -⟩ := Except.bind_eq_ok.1 hidentity
    simp [require_eq_ok] at hrequire
  | expiration lineage digest =>
    rw [hid, AcceptedItemEvent.requireIdentity] at hidentity
    obtain ⟨⟨⟩, hsame, hexpiration⟩ := Except.bind_eq_ok.1 hidentity
    obtain ⟨-, order, -, hrank, hbound, horder⟩ :=
      AcceptedItemEvent.requireExpirationIdentity_eq_ok hexpiration
    rw [require_eq_ok, decide_eq_true_eq] at hsame
    exact ⟨by rw [CanonicalEvent.expired, hid, hitem], hsame, order, hrank, hbound, horder.symm⟩
  | control => rw [hid] at hidentity; cases hidentity
  | adopted => rw [hid] at hidentity; cases hidentity

/-- The expiration of an event has its order, except for the rank. -/
theorem CanonicalEvent.IsExpirationOf.order {victim : CanonicalEvent codec}
    {victimItem : AcceptedItemEvent Key (SourceImages Image Indexers)}
    (h : event.IsExpirationOf victim) (hitem : event.candidate.payload = .item item)
    (hvictim : victim.candidate.payload = .item victimItem) :
    item.order = victimItem.order.expirationChild := by
  obtain ⟨victimItem', hvictim', identity, child, hchild, hbytes⟩ := h
  obtain rfl := CanonicalPayload.item.inj (hvictim.symm.trans hvictim')
  obtain ⟨-, hpayload⟩ := CanonicalEvent.eq_of_encodeItemEvent hbytes
  obtain rfl := CanonicalPayload.item.inj (hitem.symm.trans hpayload)
  rw [CanonicalEvent.tryExpirationChild] at hchild
  obtain ⟨bound, hbound, hchild⟩ := Except.bind_eq_ok.1 hchild
  obtain rfl : victimItem = bound := by
    rw [CanonicalEvent.bindExpirationVictim, hvictim] at hbound
    dsimp only at hbound
    split_ifs at hbound
    exact Except.ok.inj hbound
  cases hnew : victimItem.images.new with
  | none =>
    rw [hnew] at hchild
    cases hchild
  | some old =>
    rw [hnew] at hchild
    cases hchild
    rfl

/-- **An expiration removes only the version that it names**: its order is next to the order of
every other candidate of that version. -/
theorem Scope.isNextTo_victim (hmem : event ∈ scope.events)
    (hitem : event.candidate.payload = .item item) (hcause : item.cause = .expiration)
    {m : Materialized (SourceImages Image Indexers)} (hm : Candidate scope.start scope.events m)
    (hversion : m.provenance.version = item.version)
    (hevent : m.provenance.event ≠ some event.candidate.id) :
    item.order.IsNextTo m.provenance.order := by
  obtain ⟨hexpired, hid, order, hrank, hbound, horder⟩ :=
    CanonicalEvent.expiration_spec hitem hcause
  obtain ⟨hvalid, -, -⟩ := Scope.validate_candidate (List.Subset.refl _) hm
  obtain ⟨-, -, ⟨-, hmbound⟩, -⟩ := WinnerProvenance.validate_eq_ok.1 hvalid
  obtain ⟨hmrank, horigin⟩ := WinnerProvenance.of_not_expiration hvalid
    (by rw [hversion, ← hid]; exact hevent)
  cases hv : item.version with
  | baseline lineage key =>
    rw [hversion, hv] at hmbound
    rw [hv] at hbound
    rw [horder, ← VersionIdentity.order_of_baseline hbound hmbound hrank hmrank]
    exact WinnerOrder.isNextTo_expirationChild hrank
  | mutation id =>
    rw [hv] at hexpired
    obtain ⟨victim, hvictim, hvictimId, hchild⟩ := scope.victims event hmem id hexpired
    have horiginEvent := horigin id (hversion.trans hv)
    rcases hm with hstart | ⟨other, hother, otherItem, hotherItem, rfl⟩
    · rw [(scope.start_baseline m hstart).event] at horiginEvent
      cases horiginEvent
    · have hotherId : other.candidate.id = .origin id := Option.some.inj horiginEvent
      obtain rfl := Scope.eq_of_id hother hvictim (hotherId.trans hvictimId.symm)
      rw [hchild.order hitem hotherItem]
      exact WinnerOrder.isNextTo_expirationChild hmrank

end Victims

namespace Sample

/-- The place of the put. -/
def putId : OriginEventId := ⟨1, ⟨[1], 1, 0, 1⟩, 1, 0⟩

def putOrder : WinnerOrder := .mutation ⟨5, 0⟩ ⟨[1], 1, 0, 1⟩ 1 0 .mutation

def put : AcceptedItemEvent Unit (SourceImages Unit Unit) where
  sourceTable := 1
  lineage := 1
  schema := 1
  key := ()
  canonicalKey := [1]
  images := { old := none, new := some (), oldIndexers := none, newIndexers := some () }
  order := putOrder
  version := .mutation putId
  cause := .put
  victimOrder := none
  parents := []
  predecessor := none
  transaction := none
  observations := []

def expiration : AcceptedItemEvent Unit (SourceImages Unit Unit) :=
  put.written.expiration () putOrder (.mutation putId) [.origin putId]

/-- A codec of two events. -/
def twoEvents : CanonicalEventCodec Unit (SourceImages Unit Unit) Unit where
  digests := ⟨id, fun _ => [7]⟩
  decodeEventContent := fun bytes =>
    match bytes with
    | [1] => .ok (9, .origin putId, .item put)
    | [2] => .ok (9, .expiration 1 [7], .item expiration)
    | _ => .error (identityContentMismatch (text "decode"))
  encodeItemEvent := fun semantics id item =>
    if semantics = 9 ∧ id = .expiration 1 [7] ∧ item = expiration then .ok [2]
    else .error (identityContentMismatch (text "encode"))
  decode_encodeItemEvent := by
    intro semantics id item bytes h
    split_ifs at h with hwritten
    obtain ⟨rfl, rfl, rfl⟩ := hwritten
    cases h
    rfl
  encodeKey := fun _ => .ok [1]
  requireValidImages := fun _ _ => .ok ()
  requireItemShape := fun _ _ _ => .ok ()
  controlTable := fun _ => 0
  controlLineage := fun _ => 0
  controlOperation := fun _ => 0
  validateControl := fun _ => .ok ()

def putEvent : CanonicalEvent twoEvents where
  candidate := ⟨9, .origin putId, .item put, [1], [1]⟩
  decoded := ⟨1, rfl⟩

def expirationEvent : CanonicalEvent twoEvents where
  candidate := ⟨9, .expiration 1 [7], .item expiration, [2], [2]⟩
  decoded := ⟨1, rfl⟩

theorem isExpirationOf_putEvent : expirationEvent.IsExpirationOf putEvent :=
  ⟨put, rfl, .expiration 1 [7], expiration, rfl, rfl⟩

def baseline : Materialized (SourceImages Unit Unit) :=
  ⟨⟨1, [1], .baseline 1 [1], none, .baseline 1 [1] .mutation, []⟩, put.images⟩

theorem forall_mem_events {p : CanonicalEvent twoEvents → Prop} (hput : p putEvent)
    (hexpiration : p expirationEvent) : ∀ event ∈ [putEvent, expirationEvent], p event := by
  intro event hevent
  simp only [mem_cons, not_mem_nil, or_false] at hevent
  rcases hevent with rfl | rfl
  · exact hput
  · exact hexpiration

def scope : Scope twoEvents where
  lineage := 1
  key := [1]
  start := some baseline
  events := [putEvent, expirationEvent]
  start_baseline := by
    rintro m hm
    cases hm
    exact ⟨rfl, rfl, rfl, rfl⟩
  isItemOf := forall_mem_events ⟨put, rfl, rfl, rfl⟩ ⟨expiration, rfl, rfl, rfl⟩
  bytes_of_id := by
    intro a ha b hb hid
    simp only [mem_cons, not_mem_nil, or_false] at ha hb
    rcases ha with rfl | rfl <;> rcases hb with rfl | rfl
    · rfl
    · exact absurd hid (by decide)
    · exact absurd hid (by decide)
    · rfl
  victims := by
    refine forall_mem_events (fun id hid => by cases hid) fun id hid => ?_
    cases hid
    exact ⟨putEvent, mem_cons_self, rfl, isExpirationOf_putEvent⟩

def fresh : Replica twoEvents where
  table :=
    { authority := .current
      sourceTable := 1
      validKey := fun _ => true
      schemas := [1]
      baselines := fun _ => none }
  accepted := fun _ => none
  winner := fun key => if key = [1] then some baseline else none

theorem fresh_isFresh : fresh.IsFresh scope where
  table :=
    { authority := rfl
      items := forall_mem_events
        (by rintro item ⟨⟩; exact ⟨rfl, rfl, mem_singleton_self 1⟩)
        (by rintro item ⟨⟩; exact ⟨rfl, rfl, mem_singleton_self 1⟩)
      baselines := forall_mem_events (fun _ _ h => by cases h) (fun _ _ h => by cases h) }
  accepted := fun _ _ => rfl
  winner := rfl

end Sample

end AuxStorage.Replication
