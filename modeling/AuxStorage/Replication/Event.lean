import AuxStorage.Text

/-!
# Replication: Canonical Events and Their Order

A replicated item has one **winner**, the version with the greatest order. The order of a mutation
is its clock and its place at its origin; a baseline, which was there before the capture, lies
below all mutations; and an expiration has the order of the version that it removes, except for
the rank. Every event carries its identity, and what it says about its version, its order and its
causes is checked against that identity when it is decoded.

Bytes are numbers. The sixteen bytes of an identity are one number, with the same order. What is
checked about the images of an item and about control operations is a parameter, as are the codec
and the digest.
-/

namespace AuxStorage.Replication

/-- The bytes as numbers. -/
abbrev ByteString := List ℕ

/-! ### Identities -/

/-- The journal that a mutation comes from. -/
structure OriginId where
  region : ByteString
  databaseGroup : ℕ
  journalPartition : ℕ
  journalGeneration : ℕ
  deriving DecidableEq, Repr

/-- The place of a mutation at its origin. -/
structure OriginEventId where
  lineage : ℕ
  origin : OriginId
  position : ℕ
  ordinal : ℕ
  deriving DecidableEq, Repr

/-- The identity of a version: a mutation, or what was there before the capture. -/
inductive VersionIdentity
  | mutation (id : OriginEventId)
  | baseline (lineage : ℕ) (key : ByteString)
  deriving DecidableEq, Repr

/-- The identity of an event. -/
inductive CanonicalEventId
  | origin (id : OriginEventId)
  | control (lineage operation : ℕ)
  | adopted (history original : ℕ)
  | expiration (lineage : ℕ) (victimDigest : ByteString)
  deriving DecidableEq, Repr

/-- Why a replicated event is refused. -/
inductive ReplicationProtocolError
  | identityContentMismatch (context : Text)
  | lineageMismatch (context : Text)
  | invalidOrigin (context : Text)
  | payloadTooLarge (context : Text) (actual limit : ℕ)
  | invalidScope (context : Text)
  deriving DecidableEq, Repr

open ReplicationProtocolError

/-- Fail unless the condition holds. -/
def require (condition : Bool) (error : ReplicationProtocolError) :
    Except ReplicationProtocolError Unit :=
  if condition then .ok () else .error error

/-- A check passes when its condition holds. -/
theorem require_eq_ok {condition : Bool} {error : ReplicationProtocolError} {u : Unit} :
    require condition error = .ok u ↔ condition = true := by
  unfold require
  split_ifs with h <;> simp [h]

/-- Positions start at one. -/
def OriginEventId.validate (id : OriginEventId) : Except ReplicationProtocolError Unit :=
  require (id.position ≠ 0) (invalidOrigin (text "event source position"))

/-- A mutation has a valid place. -/
def VersionIdentity.validate : VersionIdentity → Except ReplicationProtocolError Unit
  | .mutation id => id.validate
  | .baseline .. => .ok ()

/-- The lineage of a version. -/
def VersionIdentity.lineage : VersionIdentity → ℕ
  | .mutation id => id.lineage
  | .baseline lineage _ => lineage

/-- An event of an origin has a valid place. -/
def CanonicalEventId.validate : CanonicalEventId → Except ReplicationProtocolError Unit
  | .origin id => id.validate
  | .control .. | .adopted .. | .expiration .. => .ok ()

/-- An identity belongs to a lineage; that of adopted history is bound elsewhere. -/
def CanonicalEventId.isBoundTo (lineage : ℕ) : CanonicalEventId → Bool
  | .origin id => id.lineage = lineage
  | .control own _ => own = lineage
  | .expiration own _ => own = lineage
  | .adopted .. => true

/-! ### The order of winners -/

/-- The clock of a mutation. -/
structure HybridLogicalClock where
  physicalMs : ℕ
  logical : ℕ
  deriving DecidableEq, Repr

/-- An expiration ranks above the version that it removes. -/
inductive EffectRank
  | mutation
  | expiration
  deriving DecidableEq, Repr

/-- The rank as a number. -/
def EffectRank.toNat : EffectRank → ℕ
  | .mutation => 0
  | .expiration => 1

/-- The order of a version. -/
inductive WinnerOrder
  | baseline (lineage : ℕ) (key : ByteString) (rank : EffectRank)
  | mutation (clock : HybridLogicalClock) (origin : OriginId) (position ordinal : ℕ)
      (rank : EffectRank)
  deriving DecidableEq, Repr

namespace WinnerOrder

/-- The parts of a baseline's order, compared from the left. -/
def baselineTuple (lineage : ℕ) (key : ByteString) (rank : EffectRank) :
    ℕ ×ₗ ByteString ×ₗ ℕ :=
  toLex (lineage, toLex (key, rank.toNat))

/-- The parts of a mutation's order, compared from the left: the clock, the origin, the place and
the rank. -/
def mutationTuple (clock : HybridLogicalClock) (origin : OriginId) (position ordinal : ℕ)
    (rank : EffectRank) :
    (ℕ ×ₗ ℕ) ×ₗ (ByteString ×ₗ ℕ ×ₗ ℕ ×ₗ ℕ) ×ₗ ℕ ×ₗ ℕ ×ₗ ℕ :=
  toLex (toLex (clock.physicalMs, clock.logical),
    toLex (toLex (origin.region, toLex (origin.databaseGroup,
      toLex (origin.journalPartition, origin.journalGeneration))),
      toLex (position, toLex (ordinal, rank.toNat))))

/-- Baselines lie below mutations. -/
def compare : WinnerOrder → WinnerOrder → Ordering
  | baseline a b c, baseline x y z => cmp (baselineTuple a b c) (baselineTuple x y z)
  | baseline .., mutation .. => .lt
  | mutation .., baseline .. => .gt
  | mutation a b c d e, mutation x y z w v =>
    cmp (mutationTuple a b c d e) (mutationTuple x y z w v)

/-- The order of the expiration of a version: the same, except for the rank. -/
def expirationChild : WinnerOrder → WinnerOrder
  | baseline lineage key _ => baseline lineage key .expiration
  | mutation clock origin position ordinal _ => mutation clock origin position ordinal .expiration

/-- Whether the order is that of an expiration. -/
def isExpiration : WinnerOrder → Bool
  | baseline _ _ rank | mutation _ _ _ _ rank => rank = .expiration

/-- The place of an order among all orders: baselines first. -/
def place : WinnerOrder → (ℕ ×ₗ ByteString ×ₗ ℕ) ⊕ₗ
    ((ℕ ×ₗ ℕ) ×ₗ (ByteString ×ₗ ℕ ×ₗ ℕ ×ₗ ℕ) ×ₗ ℕ ×ₗ ℕ ×ₗ ℕ)
  | baseline lineage key rank => Sum.inlₗ (baselineTuple lineage key rank)
  | mutation clock origin position ordinal rank =>
    Sum.inrₗ (mutationTuple clock origin position ordinal rank)

/-- A rank is determined by its number. -/
theorem toNat_injective : Function.Injective EffectRank.toNat := by
  intro a b h
  cases a <;> cases b <;> first | rfl | cases h

/-- An order is determined by its place. -/
theorem place_injective : Function.Injective place := by
  intro a b h
  cases a <;> cases b
  · have h := Sum.inl.inj (toLex.injective h)
    simp only [baselineTuple, toLex_inj, Prod.mk.injEq] at h
    obtain ⟨rfl, rfl, hrank⟩ := h
    rw [toNat_injective hrank]
  · cases toLex.injective h
  · cases toLex.injective h
  · rename_i clock origin _ _ _ clock' origin' _ _ _
    have h := Sum.inr.inj (toLex.injective h)
    cases clock; cases origin; cases clock'; cases origin'
    simp only [mutationTuple, toLex_inj, Prod.mk.injEq] at h
    obtain ⟨⟨rfl, rfl⟩, ⟨rfl, rfl, rfl, rfl⟩, rfl, rfl, hrank⟩ := h
    rw [toNat_injective hrank]

/-- Orders are compared by their places. -/
theorem compare_eq_cmp (a b : WinnerOrder) : a.compare b = cmp a.place b.place := by
  cases a <;> cases b
  · exact (Sum.Lex.inl_strictMono.cmp_map_eq _ _).symm
  · exact (cmp_eq_lt_iff _ _ |>.2 (Sum.Lex.inl_lt_inr _ _)).symm
  · exact (cmp_eq_gt_iff _ _ |>.2 (Sum.Lex.inl_lt_inr _ _)).symm
  · exact (Sum.Lex.inr_strictMono.cmp_map_eq _ _).symm

variable {a b : WinnerOrder}

/-- Only an order itself is equal to it. -/
theorem compare_eq_eq : a.compare b = .eq ↔ a = b := by
  rw [compare_eq_cmp, cmp_eq_eq_iff]
  exact place_injective.eq_iff

/-- An order is below another one when its place is. -/
theorem compare_eq_lt : a.compare b = .lt ↔ a.place < b.place := by
  rw [compare_eq_cmp, cmp_eq_lt_iff]

/-- An order is above another one when its place is. -/
theorem compare_eq_gt : a.compare b = .gt ↔ b.place < a.place := by
  rw [compare_eq_cmp, cmp_eq_gt_iff]

variable {victim : WinnerOrder}

/-- The expiration of a version lies above it. -/
theorem lt_expirationChild (h : victim.isExpiration = false) :
    victim.compare victim.expirationChild = .lt := by
  rw [compare_eq_lt]
  cases victim with
  | baseline lineage key rank =>
    cases rank with
    | mutation =>
      refine Sum.Lex.inl_strictMono ?_
      simp [baselineTuple, Prod.Lex.toLex_lt_toLex, EffectRank.toNat]
    | expiration => cases h
  | mutation clock origin position ordinal rank =>
    cases rank with
    | mutation =>
      refine Sum.Lex.inr_strictMono ?_
      simp [mutationTuple, Prod.Lex.toLex_lt_toLex, EffectRank.toNat]
    | expiration => cases h

/-- Nothing lies between a version and its expiration: any other order above the version lies
above the expiration. -/
theorem expirationChild_lt {other : WinnerOrder} (h : victim.isExpiration = false)
    (habove : victim.compare other = .lt) (hne : other ≠ victim.expirationChild) :
    victim.expirationChild.compare other = .lt := by
  have hrank {rank : EffectRank} (hlt : 0 < rank.toNat) : rank = .expiration := by
    cases rank with
    | mutation => cases hlt
    | expiration => rfl
  rw [compare_eq_lt] at habove ⊢
  cases victim with
  | baseline lineage key rank =>
    cases rank with
    | expiration => cases h
    | mutation =>
      cases other with
      | mutation => exact Sum.Lex.inl_lt_inr _ _
      | baseline lineage' key' rank' =>
        have habove := Sum.Lex.inl_strictMono.lt_iff_lt.1 habove
        refine Sum.Lex.inl_strictMono ?_
        simp only [baselineTuple, Prod.Lex.toLex_lt_toLex] at habove ⊢
        rcases habove with hlt | ⟨rfl, hlt | ⟨rfl, hlt⟩⟩
        · exact .inl hlt
        · exact .inr ⟨rfl, .inl hlt⟩
        · exact absurd (by rw [hrank hlt]; rfl) hne
  | mutation clock origin position ordinal rank =>
    cases rank with
    | expiration => cases h
    | mutation =>
      cases other with
      | baseline => exact absurd habove (Sum.Lex.not_inr_lt_inl)
      | mutation clock' origin' position' ordinal' rank' =>
        have habove := Sum.Lex.inr_strictMono.lt_iff_lt.1 habove
        refine Sum.Lex.inr_strictMono ?_
        cases clock; cases origin; cases clock'; cases origin'
        simp only [mutationTuple, Prod.Lex.toLex_lt_toLex, toLex_inj, Prod.mk.injEq]
          at habove ⊢
        rcases habove with hlt | ⟨hclock, hlt | ⟨horigin, hlt | ⟨hposition, hlt |
          ⟨hordinal, hlt⟩⟩⟩⟩
        · exact .inl hlt
        · exact .inr ⟨hclock, .inl hlt⟩
        · exact .inr ⟨hclock, .inr ⟨horigin, .inl hlt⟩⟩
        · exact .inr ⟨hclock, .inr ⟨horigin, .inr ⟨hposition, .inl hlt⟩⟩⟩
        · obtain ⟨rfl, rfl⟩ := hclock
          obtain ⟨rfl, rfl, rfl, rfl⟩ := horigin
          obtain rfl := hposition
          obtain rfl := hordinal
          exact absurd (by rw [hrank hlt]; rfl) hne

end WinnerOrder

/-- A version and its order agree about where the version came from. -/
def VersionIdentity.isBoundTo (order : WinnerOrder) (key : ByteString) :
    VersionIdentity → Bool
  | .baseline lineage own =>
    match order with
    | .baseline ordered orderedKey _ => lineage = ordered ∧ own = key ∧ own = orderedKey
    | .mutation .. => false
  | .mutation id =>
    match order with
    | .mutation _ origin position ordinal _ =>
      id.origin = origin ∧ id.position = position ∧ id.ordinal = ordinal
    | .baseline .. => false

/-- The binding does not depend on the rank. -/
theorem VersionIdentity.isBoundTo_expirationChild (version : VersionIdentity)
    (order : WinnerOrder) (key : ByteString) :
    version.isBoundTo order.expirationChild key = version.isBoundTo order key := by
  cases version <;> cases order <;> rfl

/-! ### Winners -/

/-- The digest and the spelling of versions that identities of expirations are made of. -/
structure Digests where
  /-- SHA-256. -/
  of : ByteString → ByteString
  /-- The JSON text of a version. -/
  versionJson : VersionIdentity → ByteString

/-- The identity of the expiration of a version. -/
def VersionIdentity.expirationId (digests : Digests) (version : VersionIdentity) :
    CanonicalEventId :=
  .expiration version.lineage (digests.of (digests.versionJson version))

/-- Where a winner comes from. -/
structure WinnerProvenance where
  lineage : ℕ
  key : ByteString
  version : VersionIdentity
  event : Option CanonicalEventId
  order : WinnerOrder
  digest : ByteString
  deriving DecidableEq, Repr

/-- A winner without an event is a baseline, one with the event of an origin is the mutation
there, and one with an expiration is the expiration of its version. -/
def WinnerProvenance.validEvent (digests : Digests) (winner : WinnerProvenance) : Bool :=
  match winner.event, winner.version with
  | none, .baseline .. => !winner.order.isExpiration
  | some (.origin id), .mutation version => decide (id = version) && !winner.order.isExpiration
  | some (.expiration lineage digest), _ =>
    decide (winner.version.lineage = winner.lineage)
      && decide (CanonicalEventId.expiration lineage digest = winner.version.expirationId digests)
      && winner.order.isExpiration
  | _, _ => false

/-- The check of an optional event. -/
def validateEvent (event : Option CanonicalEventId) : Except ReplicationProtocolError Unit :=
  event.elim (.ok ()) CanonicalEventId.validate

/-- The version, the event and the order of a winner agree. -/
def WinnerProvenance.validate (digests : Digests) (winner : WinnerProvenance) :
    Except ReplicationProtocolError Unit := do
  winner.version.validate
  validateEvent winner.event
  require (winner.version.lineage = winner.lineage
    && winner.version.isBoundTo winner.order winner.key)
    (identityContentMismatch (text "order.validate"))
  require (winner.validEvent digests) (identityContentMismatch (text "order.validate"))

/-- What a valid winner satisfies. -/
theorem WinnerProvenance.validate_eq_ok {digests : Digests} {winner : WinnerProvenance} :
    winner.validate digests = .ok () ↔
      winner.version.validate = .ok () ∧ validateEvent winner.event = .ok () ∧
        (winner.version.lineage = winner.lineage ∧
          winner.version.isBoundTo winner.order winner.key = true) ∧
        winner.validEvent digests = true := by
  unfold validate
  simp only [Except.bind_eq_ok, require_eq_ok, Bool.and_eq_true, decide_eq_true_eq]
  constructor
  · rintro ⟨⟨⟩, hversion, ⟨⟩, hevent, ⟨⟩, hrest⟩
    exact ⟨hversion, hevent, hrest⟩
  · rintro ⟨hversion, hevent, hrest⟩
    exact ⟨(), hversion, (), hevent, (), hrest⟩

/-- **The order of a valid winner determines its version and its event**, for baselines, mutations
and expirations together. -/
theorem WinnerProvenance.event_of_order {digests : Digests} {a b : WinnerProvenance}
    (ha : a.validate digests = .ok ()) (hb : b.validate digests = .ok ())
    (hlineage : a.lineage = b.lineage) (horder : a.order = b.order) :
    a.version = b.version ∧ a.event = b.event := by
  obtain ⟨-, -, ⟨hla, hba⟩, hea⟩ := validate_eq_ok.1 ha
  obtain ⟨-, -, ⟨hlb, hbb⟩, heb⟩ := validate_eq_ok.1 hb
  have hversion : a.version = b.version := by
    rw [horder] at hba
    cases hva : a.version with
    | mutation ida =>
      cases hvb : b.version with
      | mutation idb =>
        rw [hva] at hba hla
        rw [hvb] at hbb hlb
        cases hord : b.order with
        | baseline => rw [hord] at hba; cases hba
        | mutation clock origin position ordinal rank =>
          rw [hord] at hba hbb
          simp only [VersionIdentity.isBoundTo, decide_eq_true_eq] at hba hbb
          simp only [VersionIdentity.lineage] at hla hlb
          cases ida
          cases idb
          simp only at hba hbb hla hlb
          obtain ⟨rfl, rfl, rfl⟩ := hba
          obtain ⟨rfl, rfl, rfl⟩ := hbb
          rw [hla, hlb, hlineage]
      | baseline =>
        rw [hva] at hba
        rw [hvb] at hbb
        cases hord : b.order with
        | baseline => rw [hord] at hba; cases hba
        | mutation => rw [hord] at hbb; cases hbb
    | baseline la ka =>
      cases hvb : b.version with
      | mutation =>
        rw [hva] at hba
        rw [hvb] at hbb
        cases hord : b.order with
        | baseline => rw [hord] at hbb; cases hbb
        | mutation => rw [hord] at hba; cases hba
      | baseline lb kb =>
        rw [hva] at hba
        rw [hvb] at hbb
        cases hord : b.order with
        | mutation => rw [hord] at hba; cases hba
        | baseline ordered orderedKey rank =>
          rw [hord] at hba hbb
          simp only [VersionIdentity.isBoundTo, decide_eq_true_eq] at hba hbb
          rw [hba.1, hbb.1, hba.2.2, hbb.2.2]
  refine ⟨hversion, ?_⟩
  -- with the version and the rank fixed, each shape of an event has one identity
  unfold validEvent at hea heb
  rw [hversion, horder] at hea
  cases hxa : a.event with
  | none =>
    cases hxb : b.event with
    | none => rfl
    | some xb =>
      rw [hxa] at hea
      rw [hxb] at heb
      cases hvb : b.version with
      | mutation => simp [hvb] at hea
      | baseline =>
        cases xb <;> simp_all
  | some xa =>
    cases hxb : b.event with
    | none =>
      rw [hxa] at hea
      rw [hxb] at heb
      cases hvb : b.version with
      | mutation => simp [hvb] at heb
      | baseline => cases xa <;> simp_all
    | some xb =>
      rw [hxa] at hea
      rw [hxb] at heb
      cases hvb : b.version <;> cases xa <;> cases xb <;> simp_all

/-! ### Item events -/

/-- Why an item was changed. -/
inductive MutationCause
  | put
  | update
  | delete
  | expiration
  deriving DecidableEq, Repr

/-- An item event, over the types of the key attributes and of the images. -/
structure AcceptedItemEvent (Key Images : Type) where
  sourceTable : ℕ
  lineage : ℕ
  schema : ℕ
  key : Key
  canonicalKey : ByteString
  images : Images
  order : WinnerOrder
  version : VersionIdentity
  cause : MutationCause
  victimOrder : Option WinnerOrder
  parents : List CanonicalEventId
  predecessor : Option VersionIdentity
  transaction : Option ℕ
  observations : List WinnerProvenance
  deriving DecidableEq

namespace AcceptedItemEvent

variable {Key Images : Type} (digests : Digests) (item : AcceptedItemEvent Key Images)

def invalidIdentity : ReplicationProtocolError :=
  identityContentMismatch (text "content.validate_item")

/-- An expiration names its victim, with the order next to it. -/
def requireExpirationIdentity : Except ReplicationProtocolError Unit := do
  require (item.version.lineage = item.lineage && item.predecessor = some item.version
    && item.cause = .expiration) invalidIdentity
  match item.victimOrder with
  | none => .error invalidIdentity
  | some victimOrder =>
    require (!victimOrder.isExpiration
      && item.version.isBoundTo victimOrder item.canonicalKey
      && decide (victimOrder.expirationChild = item.order)) invalidIdentity

/-- A mutation has the version and the order of its place. -/
def requireMutationIdentity (identity : OriginEventId) :
    Except ReplicationProtocolError Unit := do
  require (identity.lineage = item.lineage && item.cause ≠ .expiration
    && item.victimOrder = none && item.version = .mutation identity) invalidIdentity
  match item.order with
  | .mutation _ origin position ordinal .mutation =>
    require (origin = identity.origin ∧ position = identity.position
      ∧ ordinal = identity.ordinal) invalidIdentity
  | _ => .error invalidIdentity

/-- An event has the identity of its content. -/
def requireIdentity : CanonicalEventId → Except ReplicationProtocolError Unit
  | .origin id => item.requireMutationIdentity id
  | .expiration lineage digest => do
      require (CanonicalEventId.expiration lineage digest = item.version.expirationId digests)
        invalidIdentity
      item.requireExpirationIdentity
  | .control .. | .adopted .. => .error invalidIdentity

/-- The predecessor is another version of the item. -/
def requirePredecessor : Except ReplicationProtocolError Unit :=
  match item.predecessor with
  | none => .ok ()
  | some version => do
      version.validate
      require (version.lineage = item.lineage
        && (match version with
          | .baseline _ key => decide (key = item.canonicalKey)
          | .mutation _ => true)
        && (decide (item.cause = .expiration) || decide (version ≠ item.version)))
        (identityContentMismatch (text "content.validate_item_images"))

/-- A parent that is the event of the predecessor. -/
def isPredecessorParent (parent : CanonicalEventId) : Bool :=
  match parent, item.predecessor with
  | .origin parent, some (.mutation version) => parent = version
  | .expiration lineage digest, some version =>
    decide (version.expirationId digests = .expiration lineage digest)
  | _, _ => false

/-- A parent is observed, the predecessor's event or a control operation. -/
def requireParentScope (parent : CanonicalEventId) : Except ReplicationProtocolError Unit :=
  require (item.observations.any (fun observed => observed.event = some parent)
    || item.isPredecessorParent digests parent
    || (match parent with
      | .control lineage _ => decide (lineage = item.lineage)
      | _ => false))
    (identityContentMismatch (text "unrecorded item dependency"))

def invalidParents : ReplicationProtocolError :=
  identityContentMismatch (text "content.validate_item_parents")

/-- The parents one after the other, with those before them. -/
def requireEachParent (identity : CanonicalEventId) :
    List CanonicalEventId → List CanonicalEventId → Except ReplicationProtocolError Unit
  | _, [] => .ok ()
  | seen, parent :: rest => do
      parent.validate
      require (parent ≠ identity && parent ∉ seen) invalidParents
      item.requireParentScope digests parent
      requireEachParent identity (parent :: seen) rest

/-- The observations of a transaction, the predecessor and the configuration. -/
def maxItemEventParents : ℕ := 102

/-- The members that a transaction may have. -/
def maxTransactionMembers : ℕ := 100

/-- The parents are few, different and in scope. -/
def requireParents (identity : CanonicalEventId) : Except ReplicationProtocolError Unit := do
  require (item.parents.length ≤ maxItemEventParents) invalidParents
  require (item.parents.countP (fun parent => match parent with
    | .control .. => true
    | _ => false) ≤ 1) invalidParents
  item.requireEachParent digests identity [] item.parents

/-- The event of a predecessor is among the parents. -/
def requirePredecessorParent : Except ReplicationProtocolError Unit :=
  match item.predecessor with
  | some (.mutation _) => require (item.parents.any (item.isPredecessorParent digests))
      (identityContentMismatch (text "missing item predecessor dependency"))
  | _ => .ok ()

/-- The clock of an event is ahead of what it has observed. -/
def hasAdvancedObservationClock (child observed : WinnerOrder) : Bool :=
  match child, observed with
  | .mutation child .., .mutation observed .. =>
    decide (cmp (toLex (observed.physicalMs, observed.logical))
      (toLex (child.physicalMs, child.logical)) = .lt)
  | .mutation .., .baseline .. => true
  | _, _ => false

def invalidObservations : ReplicationProtocolError :=
  identityContentMismatch (text "content.validate_item_observations")

/-- The observations one after the other, with the versions before them. -/
def requireEachObservation :
    List VersionIdentity → List WinnerProvenance → Except ReplicationProtocolError Unit
  | _, [] => .ok ()
  | seen, observation :: rest => do
      observation.validate digests
      require (observation.version ∉ seen
        && decide (observation.order.compare item.order = .lt)
        && hasAdvancedObservationClock item.order observation.order
        && observation.event.all (fun event => event ∈ item.parents)) invalidObservations
      requireEachObservation (observation.version :: seen) rest

/-- Only a member of a transaction has observations. -/
def requireObservations : Except ReplicationProtocolError Unit := do
  require (item.observations.length ≤ maxTransactionMembers
    && (item.observations.isEmpty || item.transaction.isSome && item.cause ≠ .expiration))
    invalidObservations
  item.requireEachObservation digests [] item.observations

/-- The only parent of an expiration is its victim. -/
def requireExpirationParent : Except ReplicationProtocolError Unit :=
  require ((match item.version with
      | .mutation victim => decide (item.parents = [.origin victim])
      | .baseline .. => item.parents.isEmpty)
    && item.transaction.isNone)
    (identityContentMismatch (text "expiration causal metadata"))

/-- What an event says about its causes, checked against its identity. -/
def requireCausalShape (identity : CanonicalEventId) : Except ReplicationProtocolError Unit := do
  identity.validate
  item.version.validate
  item.requireIdentity digests identity
  item.requirePredecessor
  item.requireParents digests identity
  item.requirePredecessorParent digests
  item.requireObservations digests
  if item.cause = .expiration then item.requireExpirationParent else .ok ()

/-- The winner that an event would become. -/
def provenance (identity : CanonicalEventId) (digest : ByteString) : WinnerProvenance where
  lineage := item.lineage
  key := item.canonicalKey
  version := item.version
  event := some identity
  order := item.order
  digest := digest

variable {digests item} {identity : CanonicalEventId}

/-- What a valid causal shape says about the identities. -/
theorem requireCausalShape_eq_ok (h : item.requireCausalShape digests identity = .ok ()) :
    identity.validate = .ok () ∧ item.version.validate = .ok () ∧
      item.requireIdentity digests identity = .ok () := by
  unfold requireCausalShape at h
  obtain ⟨⟨⟩, hidentity, h⟩ := Except.bind_eq_ok.1 h
  obtain ⟨⟨⟩, hversion, h⟩ := Except.bind_eq_ok.1 h
  obtain ⟨⟨⟩, hrequire, -⟩ := Except.bind_eq_ok.1 h
  exact ⟨hidentity, hversion, hrequire⟩

/-- The order of an expiration is the child of its victim's. -/
theorem requireExpirationIdentity_eq_ok (h : item.requireExpirationIdentity = .ok ()) :
    item.version.lineage = item.lineage ∧ ∃ victim, item.victimOrder = some victim ∧
      victim.isExpiration = false ∧ item.version.isBoundTo victim item.canonicalKey = true ∧
      victim.expirationChild = item.order := by
  unfold requireExpirationIdentity at h
  obtain ⟨⟨⟩, hrequire, h⟩ := Except.bind_eq_ok.1 h
  rw [require_eq_ok] at hrequire
  simp only [Bool.and_eq_true, decide_eq_true_eq] at hrequire
  cases hvictim : item.victimOrder with
  | none => rw [hvictim] at h; cases h
  | some victim =>
    rw [hvictim] at h
    simp only [require_eq_ok, Bool.and_eq_true, decide_eq_true_eq, Bool.not_eq_true'] at h
    exact ⟨hrequire.1.1, victim, rfl, h.1.1, h.1.2, h.2⟩

/-- **A valid event would be a valid winner.** -/
theorem validate_provenance (digest : ByteString)
    (h : item.requireCausalShape digests identity = .ok ()) :
    (item.provenance identity digest).validate digests = .ok () := by
  obtain ⟨hidentity, hversion, hrequire⟩ := requireCausalShape_eq_ok h
  refine WinnerProvenance.validate_eq_ok.2 ⟨hversion, hidentity, ?_⟩
  cases identity with
  | origin id =>
    rw [requireIdentity, requireMutationIdentity] at hrequire
    obtain ⟨⟨⟩, hrequire, hmatch⟩ := Except.bind_eq_ok.1 hrequire
    simp only [require_eq_ok, Bool.and_eq_true, decide_eq_true_eq] at hrequire
    obtain ⟨⟨⟨hlineage, -⟩, -⟩, hmutation⟩ := hrequire
    split at hmatch
    · rename_i horder
      simp only [require_eq_ok, decide_eq_true_eq] at hmatch
      obtain ⟨rfl, rfl, rfl⟩ := hmatch
      simp [provenance, hmutation, horder, VersionIdentity.lineage, hlineage,
        VersionIdentity.isBoundTo, WinnerProvenance.validEvent, WinnerOrder.isExpiration]
    · cases hmatch
  | expiration lineage digest' =>
    rw [requireIdentity] at hrequire
    obtain ⟨⟨⟩, hid, hexpiration⟩ := Except.bind_eq_ok.1 hrequire
    obtain ⟨hlineage, victim, -, hrank, hbound, horder⟩ :=
      requireExpirationIdentity_eq_ok hexpiration
    rw [require_eq_ok, decide_eq_true_eq] at hid
    have hexp : item.order.isExpiration = true := by
      rw [← horder]
      cases victim <;> rfl
    refine ⟨⟨hlineage, ?_⟩, ?_⟩
    · change item.version.isBoundTo item.order item.canonicalKey = true
      rw [← horder, VersionIdentity.isBoundTo_expirationChild]
      exact hbound
    · unfold WinnerProvenance.validEvent
      simp [provenance, ← hid, hexp, hlineage]
  | control => cases hrequire
  | adopted => cases hrequire

end AcceptedItemEvent

/-! ### Decoding -/

/-- The content of an event. -/
inductive CanonicalPayload (Key Images Control : Type)
  | item (item : AcceptedItemEvent Key Images)
  | system (control : Control)
  | tableStream (table lineage : ℕ) (bytes : ByteString)

/-- A decoded event before its checks. -/
structure CanonicalEventCandidate (Key Images Control : Type) where
  semantics : ℕ
  id : CanonicalEventId
  payload : CanonicalPayload Key Images Control
  bytes : ByteString
  digest : ByteString

/-- What decoding rests on: the codec, the checks of the images and of control operations, and the
digest. What is written is read back. -/
structure CanonicalEventCodec (Key Images Control : Type) where
  digests : Digests
  decodeEventContent : ByteString → Except ReplicationProtocolError
    (ℕ × CanonicalEventId × CanonicalPayload Key Images Control)
  encodeItemEvent : ℕ → CanonicalEventId → AcceptedItemEvent Key Images →
    Except ReplicationProtocolError ByteString
  decode_encodeItemEvent : ∀ {semantics id item bytes},
    encodeItemEvent semantics id item = .ok bytes →
      decodeEventContent bytes = .ok (semantics, id, .item item)
  encodeKey : Key → Except ReplicationProtocolError ByteString
  requireValidImages : Images → Key → Except ReplicationProtocolError Unit
  requireItemShape : Images → Key → MutationCause → Except ReplicationProtocolError Unit
  controlTable : Control → ℕ
  controlLineage : Control → ℕ
  controlOperation : Control → ℕ
  validateControl : Control → Except ReplicationProtocolError Unit

section Decode

variable {Key Images Control : Type} (codec : CanonicalEventCodec Key Images Control)

/-- The canonical key is that of the key attributes. -/
def AcceptedItemEvent.requireCanonicalKey (item : AcceptedItemEvent Key Images) :
    Except ReplicationProtocolError Unit := do
  let encoded ← codec.encodeKey item.key
  require (encoded = item.canonicalKey) (identityContentMismatch (text "content.try_validate"))

/-- The lineage that the content belongs to. -/
def CanonicalPayload.lineage : CanonicalPayload Key Images Control → ℕ
  | .item event => event.lineage
  | .system control => codec.controlLineage control
  | .tableStream _ lineage _ => lineage

/-- The table that the content belongs to. -/
def CanonicalPayload.sourceTable : CanonicalPayload Key Images Control → ℕ
  | .item event => event.sourceTable
  | .system control => codec.controlTable control
  | .tableStream table _ _ => table

/-- The identity of history that is not about an item. -/
def validateHistoryIdentity (id : CanonicalEventId) :
    CanonicalPayload Key Images Control → Except ReplicationProtocolError Unit
  | .system control => do
      id.validate
      codec.validateControl control
      require (id = .control (codec.controlLineage control) (codec.controlOperation control))
        (identityContentMismatch (text "content.history identity"))
  | _ => do
      id.validate
      match id with
      | .origin _ | .adopted .. => .ok ()
      | _ => .error (identityContentMismatch (text "content.history identity"))

/-- The checks of the content against the identity. -/
def CanonicalEventCandidate.validateContent
    (candidate : CanonicalEventCandidate Key Images Control) :
    Except ReplicationProtocolError Unit := do
  require (candidate.id.isBoundTo (candidate.payload.lineage codec))
    (lineageMismatch (text "content.try_validate"))
  match candidate.payload with
  | .item item => do
      item.requireCanonicalKey codec
      item.requireCausalShape codec.digests candidate.id
      codec.requireItemShape item.images item.key item.cause
  | payload => validateHistoryIdentity codec candidate.id payload

/-- The bytes are bounded, match their digest and hold valid content. -/
def CanonicalEventCandidate.tryDecode (eventBytes : ℕ) (bytes digest : ByteString) :
    Except ReplicationProtocolError (CanonicalEventCandidate Key Images Control) := do
  require (bytes.length ≤ eventBytes) (payloadTooLarge (text "event decode") bytes.length eventBytes)
  require (digest = codec.digests.of bytes) (identityContentMismatch (text "protocol.verify"))
  let (semantics, id, payload) ← codec.decodeEventContent bytes
  let candidate := { semantics, id, payload, bytes, digest }
  candidate.validateContent codec
  .ok candidate

/-- A canonical event: a candidate that was decoded from its bytes. -/
structure CanonicalEvent where
  candidate : CanonicalEventCandidate Key Images Control
  decoded : ∃ eventBytes,
    CanonicalEventCandidate.tryDecode codec eventBytes candidate.bytes candidate.digest
      = .ok candidate

variable {codec}

/-- What is known of an event since it was decoded. -/
theorem CanonicalEvent.spec (event : CanonicalEvent codec) :
    event.candidate.digest = codec.digests.of event.candidate.bytes ∧
      codec.decodeEventContent event.candidate.bytes
        = .ok (event.candidate.semantics, event.candidate.id, event.candidate.payload) ∧
      event.candidate.validateContent codec = .ok () := by
  obtain ⟨eventBytes, h⟩ := event.decoded
  unfold CanonicalEventCandidate.tryDecode at h
  obtain ⟨⟨⟩, -, h⟩ := Except.bind_eq_ok.1 h
  obtain ⟨⟨⟩, hdigest, h⟩ := Except.bind_eq_ok.1 h
  obtain ⟨⟨semantics, id, payload⟩, hcontent, h⟩ := Except.bind_eq_ok.1 h
  obtain ⟨⟨⟩, hvalid, h⟩ := Except.bind_eq_ok.1 h
  rw [require_eq_ok, decide_eq_true_eq] at hdigest
  have hcandidate := Except.ok.inj h
  rw [hcandidate] at hvalid
  rw [← hcandidate] at hcontent ⊢
  exact ⟨hdigest, hcontent, by rw [hcandidate]; exact hvalid⟩

/-- **An event is determined by its bytes.** -/
theorem CanonicalEvent.ext_of_bytes {a b : CanonicalEvent codec}
    (h : a.candidate.bytes = b.candidate.bytes) : a = b := by
  obtain ⟨hda, hca, -⟩ := a.spec
  obtain ⟨hdb, hcb, -⟩ := b.spec
  obtain ⟨⟨_, _, _, _, _⟩, _⟩ := a
  obtain ⟨⟨_, _, _, _, _⟩, _⟩ := b
  simp only at h hda hdb hca hcb
  subst h
  rw [hca] at hcb
  simp only [Except.ok.injEq, Prod.mk.injEq] at hcb
  obtain ⟨rfl, rfl, rfl⟩ := hcb
  subst hda hdb
  rfl

/-- An event whose bytes were written for an item is the event of this item. -/
theorem CanonicalEvent.eq_of_encodeItemEvent {event : CanonicalEvent codec} {semantics : ℕ}
    {id : CanonicalEventId} {item : AcceptedItemEvent Key Images}
    (h : codec.encodeItemEvent semantics id item = .ok event.candidate.bytes) :
    event.candidate.id = id ∧ event.candidate.payload = .item item := by
  obtain ⟨-, hcontent, -⟩ := event.spec
  rw [codec.decode_encodeItemEvent h] at hcontent
  simp only [Except.ok.injEq, Prod.mk.injEq] at hcontent
  exact ⟨hcontent.2.1.symm, hcontent.2.2.symm⟩

/-- The item of an event passed the checks of its causes. -/
theorem CanonicalEvent.requireCausalShape {event : CanonicalEvent codec}
    {item : AcceptedItemEvent Key Images} (h : event.candidate.payload = .item item) :
    item.requireCausalShape codec.digests event.candidate.id = .ok () := by
  obtain ⟨-, -, hvalid⟩ := event.spec
  unfold CanonicalEventCandidate.validateContent at hvalid
  obtain ⟨⟨⟩, -, hvalid⟩ := Except.bind_eq_ok.1 hvalid
  rw [h] at hvalid
  obtain ⟨⟨⟩, -, hvalid⟩ := Except.bind_eq_ok.1 hvalid
  obtain ⟨⟨⟩, hshape, -⟩ := Except.bind_eq_ok.1 hvalid
  exact hshape

end Decode

end AuxStorage.Replication
