import AuxStorage.Lib.SecondaryIndex
import AuxStorage.Lib.Str
import AuxStorage.Pubsub.Acceptance

/-!
# Publications: Materialisation

An accepted publication is turned into delivery records, one chunk of subscriptions at a time. A
worker may **claim** the next chunk for a lease, and commit it later; or the chunk is prepared and
applied in one attempt. Either way the records of the chunk and the next intent are written
together, over the intent that was read.
-/

namespace AuxStorage.Pubsub

open SecondaryIndex
open List hiding after
open PublishIntent (nextChunk)

/-! ### Delivery records -/

inductive DeliveryTarget
  | builtIn
  | customSender
  deriving DecidableEq, Repr

/-- `DeliveryRecord`, with the fields that are set when it is created. -/
structure DeliveryRecord where
  id : Text
  messageId : Text
  subscriptionArn : Text
  subscription : Option Subscription
  messageBody : Option Text
  subject : Option Text
  messageAttributes : List (Text × MessageAttribute)
  target : DeliveryTarget
  createdAt : ℤ
  deriving DecidableEq, Repr

/-- `pending_notification_at`. -/
def PublishAcceptanceInput.notification (acceptance : PublishAcceptanceInput)
    (subscription : Subscription) : DeliveryRecord where
  id := subscription.subscriptionArn ++ ':' :: acceptance.messageId
  messageId := acceptance.messageId
  subscriptionArn := subscription.subscriptionArn
  subscription := some subscription
  messageBody := some acceptance.request.message
  subject := acceptance.request.subject
  messageAttributes := acceptance.request.messageAttributes
  target := if acceptance.customSenderEnabled = true ∧ subscription.protocol ≠ .queue
    then .customSender else .builtIn
  createdAt := acceptance.acceptedAt

def PublishAcceptanceInput.deliveryRecords (acceptance : PublishAcceptanceInput)
    (subscriptions : List Subscription) : List DeliveryRecord :=
  (subscriptions.filter fun subscription =>
    !subscription.confirmation.pendingConfirmation).map acceptance.notification

theorem PublishAcceptanceInput.deliveryRecords_append (acceptance : PublishAcceptanceInput)
    (l r : List Subscription) :
    acceptance.deliveryRecords (l ++ r)
      = acceptance.deliveryRecords l ++ acceptance.deliveryRecords r := by
  rw [deliveryRecords, filter_append, map_append]
  rfl

/-! ### Intents -/

namespace PublishIntent

def validatePosition (intent : PublishIntent) : Except PubsubFault Unit :=
  if intent.snapshot.chunkCount < intent.nextChunk ∨
      intent.snapshot.chunkCount ≠ 0 ∧ intent.nextChunk = intent.snapshot.chunkCount then
    .error (.internal (text "publish intent has no remaining chunk"))
  else .ok ()

/-- The method `next_chunk`. -/
def nextIntent (intent : PublishIntent) : Except PubsubFault (Option PublishIntent) := do
  intent.validatePosition
  if 2 ^ 32 ≤ intent.nextChunk + 1 then
    .error (.internal (text "publish chunk index overflowed"))
  else if intent.snapshot.chunkCount ≤ intent.nextChunk + 1 then pure none
  else pure (some { intent with nextChunk := intent.nextChunk + 1, leaseExpiresAt := none })

/-- `due_key`: an intent without a lease is due at once. -/
def dueKey (intent : PublishIntent) : ℤ × Text :=
  (intent.leaseExpiresAt.getD (-2 ^ 63), intent.acceptance.messageId)

/-- The entry of an intent in the due index. -/
def dueEntry (intent : PublishIntent) : Option ((ℤ × Text) × Unit) :=
  some (intent.dueKey, ())

end PublishIntent

/-- `PublishCandidate`, and `ClaimedPublishChunk` once its intent has a lease. -/
structure PublishCandidate where
  intent : PublishIntent
  subscriptions : List Subscription
  deriving DecidableEq, Repr

def PublishCandidate.validate (candidate : PublishCandidate) : Except PubsubFault Unit := do
  candidate.intent.validatePosition
  if candidate.intent.acceptance.request.topicArn ≠ candidate.intent.snapshot.topicArn ∨
      candidate.intent.snapshot.chunkCount = 0 ∧ candidate.subscriptions ≠ [] then
    .error (.internal (text "publish snapshot and intent differ"))
  else if candidate.intent.snapshot.chunkCount ≠ 0 then
    validateSnapshotChunk candidate.intent.snapshot.topicArn candidate.subscriptions
  else pure ()

/-! ### The store -/

/-- The keys of publications and of delivery records. -/
structure PublicationStore where
  intents : OrderedMap Text PublishIntent
  due : OrderedMap (ℤ × Text) Unit
  chunks : OrderedMap (ℕ × ℕ) (List Subscription)
  deliveries : OrderedMap Text DeliveryRecord

namespace PublicationStore

def writePublication (s : PublicationStore) (publication : AcceptedPublication) :
    Except PubsubFault PublicationStore :=
  let keys := (List.range publication.chunks.length).map fun i => (publication.root.generation, i)
  if keys.any fun key => (s.chunks.get key).isSome then
    .error (.conflict (text "publish snapshot generation already exists"))
  else .ok { s with
    chunks := s.chunks.insertAll (keys.zip publication.chunks)
    due := reindex PublishIntent.dueEntry publication.intent s.due
    intents := s.intents.insert publication.intent.acceptance.messageId publication.intent }

/-- `read_publish_intent`. -/
def readIntent (s : PublicationStore) (id : Text) : Except PubsubFault (Option PublishIntent) :=
  match s.intents.get id with
  | none => .ok none
  | some intent =>
    if intent.acceptance.messageId ≠ id then
      .error (.internal (text "KV publish intent identity differs"))
    else .ok (some intent)

/-- `read_publish_candidate`, for an intent that was read. -/
def readChunk (s : PublicationStore) (intent : PublishIntent) :
    Except PubsubFault PublishCandidate :=
  if intent.snapshot.chunkCount = 0 then .ok ⟨intent, []⟩
  else match s.chunks.get (intent.snapshot.generation, intent.nextChunk) with
    | none => .error (.internal (text "KV publish chunk is missing"))
    | some subscriptions => .ok ⟨intent, subscriptions⟩

/-- The keys of the due index up to a time, in their order. -/
def scanDue (s : PublicationStore) (now : ℤ) : List (ℤ × Text) :=
  ((s.due.entries.map Prod.fst).filter fun key => key.1 ≤ now).mergeSort fun a b =>
    a.1 < b.1 || a.1 = b.1 && compareUtf8 a.2 b.2 ≠ .gt

/-- A row of `read_due_publish_chunks`. -/
def readDue (s : PublicationStore) (key : ℤ × Text) : Except PubsubFault PublishCandidate :=
  match s.intents.get key.2 with
  | none => .error (.internal (text "KV publish due index is dangling"))
  | some intent =>
    if intent.acceptance.messageId ≠ key.2 ∨ intent.dueKey ≠ key then
      .error (.internal (text "KV publish due index differs"))
    else s.readChunk intent

/-- `intent_mutations`, staged. -/
def replaceIntent (s : PublicationStore) (expected : PublishIntent)
    (next : Option PublishIntent) : PublicationStore :=
  let due := unindex PublishIntent.dueEntry expected s.due
  match next with
  | some next => { s with
      due := reindex PublishIntent.dueEntry next due
      intents := s.intents.insert expected.acceptance.messageId next }
  | none => { s with
      due := due
      intents := s.intents.remove expected.acceptance.messageId
      chunks := (List.range expected.snapshot.chunkCount).foldl
        (fun chunks i => chunks.remove (expected.snapshot.generation, i)) s.chunks }

def writeDeliveryRecords (s : PublicationStore) (records : List DeliveryRecord) :
    Except PubsubFault PublicationStore :=
  if records.any fun record => (s.deliveries.get record.id).isSome then
    .error (.conflict (text "publish delivery already exists"))
  else .ok { s with
    deliveries := s.deliveries.insertAll (records.map fun record => (record.id, record)) }

/-- The records of a chunk and the next intent are written together. -/
def settle (s : PublicationStore) (original : PublishIntent) (records : List DeliveryRecord)
    (next : Option PublishIntent) : Except PubsubFault PublicationStore := do
  let s ← s.writeDeliveryRecords records
  pure (s.replaceIntent original next)

/-- `PUBLISH_INTENT_LEASE_MILLIS`. -/
def leaseMillis : ℤ := 30000

/-- `PUBSUB_CLAIM_BATCH_SIZE`. -/
def claimBatchSize : ℕ := 32

/-- When a lease that is taken now expires. -/
def leaseUntil (now : ℤ) : ℤ := min (now + leaseMillis) (2 ^ 63 - 1)

/-- A candidate is claimed. -/
def claimCandidate (now : ℤ) (candidate : PublishCandidate) :
    Except PubsubFault (PublishIntent × PublishCandidate) := do
  candidate.validate
  if candidate.intent.leaseExpiresAt.any fun expires => now < expires then
    .error (.internal (text "publish due index contains leased intent"))
  else pure (candidate.intent,
    ⟨{ candidate.intent with leaseExpiresAt := some (leaseUntil now) }, candidate.subscriptions⟩)

/-- `claim_in_attempt`. The scan ends after `rows` entries, if that is below the limit. -/
def claimPublishChunks (s : PublicationStore) (now : ℤ) (limit rows : ℕ) :
    Except PubsubFault (PublicationStore × List PublishCandidate) := do
  let limit := min claimBatchSize limit
  let candidates ← ((s.scanDue now).take (min rows limit)).mapM s.readDue
  if limit < candidates.length then
    .error (.internal (text "publish claim page exceeded its limit"))
  let replacements ← candidates.mapM (claimCandidate now)
  pure (replacements.foldl (fun s entry => s.replaceIntent entry.1 (some entry.2.intent)) s,
    replacements.map Prod.snd)

/-- The claim of a commit is no longer there. -/
def claimLost : PubsubFault := .internal (text "publish intent claim was lost")

/-- `validate_commit`, for the commit that is made of a claim. -/
def validateCommit (claimed : PublishIntent) (records : List DeliveryRecord)
    (next : Option PublishIntent) : Except PubsubFault Unit := do
  if claimed.leaseExpiresAt = none then
    .error (.internal (text "publish chunk was never claimed"))
  let expected ← claimed.nextIntent
  if ¬((∀ record ∈ records, record.messageId = claimed.acceptance.messageId ∧
      (record.subscription.map Subscription.topicArn) = some claimed.snapshot.topicArn) ∧
      (records.map DeliveryRecord.id).Nodup) then
    .error (.internal (text "publish delivery record differs from claim"))
  if next ≠ expected then .error (.internal (text "publish chunk continuation differs"))

/-- `PublishChunkCommit::try_from` and `commit_publish_chunk`. The records that are created are
returned too. -/
def commitPublishChunk (s : PublicationStore) (claim : PublishCandidate) :
    Except PubsubFault (PublicationStore × List DeliveryRecord) := do
  let records := claim.intent.acceptance.deliveryRecords claim.subscriptions
  let next ← claim.intent.nextIntent
  validateCommit claim.intent records next
  let stored ← s.readIntent claim.intent.acceptance.messageId
  if stored ≠ some claim.intent then .error claimLost
  else
    let s ← s.settle claim.intent records next
    pure (s, records)

/-- `PreparedPublishChunk::prepare` and `apply`. Nothing is done when the publication is gone, has
moved on, or is claimed. -/
def preparePublishChunk (s : PublicationStore) (messageId : Text) (position : ℕ × ℕ)
    (topicArn : Text) :
    Except PubsubFault (Option (PublicationStore × List DeliveryRecord)) := do
  match ← s.readIntent messageId with
  | none => pure none
  | some intent =>
    let candidate ← s.readChunk intent
    candidate.validate
    if candidate.intent.snapshot.topicArn ≠ topicArn then
      .error (.internal (text "selected publication belongs to another topic"))
    else if (candidate.intent.snapshot.generation, candidate.intent.nextChunk) ≠ position ∨
        candidate.intent.leaseExpiresAt.isSome then pure none
    else
      let next ← candidate.intent.nextIntent
      let records := candidate.intent.acceptance.deliveryRecords candidate.subscriptions
      let s ← s.settle candidate.intent records next
      pure (some (s, records))

end PublicationStore

/-! ### Identifiers -/

theorem compareUtf8_self (t : Text) : compareUtf8 t t = .eq := by
  change List.compareLex compare t.bytes t.bytes = .eq
  exact Std.ReflCmp.compare_self

/-- The identifier of a message is a UUID: it has no colon, and is no word. -/
def MessageIdText (id : Text) : Prop := ':' ∉ id ∧ id ≠ text "confirmation"

/-- What is behind the last colon of an identifier, and what is before it. -/
theorem append_colon_inj {a b x y : Text} (hx : ':' ∉ x) (hy : ':' ∉ y)
    (h : a ++ ':' :: x = b ++ ':' :: y) : a = b ∧ x = y := by
  have hreverse := congrArg (fun t => Str.splitOnce ':' t.reverse) h
  simp only [reverse_append, reverse_cons, append_assoc, singleton_append]
    at hreverse
  rw [Str.splitOnce_append (by rwa [mem_reverse]),
    Str.splitOnce_append (by rwa [mem_reverse])] at hreverse
  obtain ⟨hxy, hab⟩ := Prod.mk.inj (Option.some.inj hreverse)
  exact ⟨reverse_injective hab, reverse_injective hxy⟩

/-! ### Publications on their way -/

namespace AcceptedPublication

variable (p : AcceptedPublication)

/-- The identifier of the message. -/
def messageId : Text := p.intent.acceptance.messageId

/-- The intent at a chunk. -/
def intentAt (k : ℕ) (lease : Option ℤ) : PublishIntent :=
  ⟨p.intent.acceptance, p.root, k, lease⟩

/-- A chunk; a publication without subscriptions has an empty one. -/
def chunkAt (k : ℕ) : List Subscription := (p.chunks[k]?).getD []

/-- An intent may be at this chunk. -/
def HasChunk (k : ℕ) : Prop := k < p.chunks.length ∨ p.chunks = [] ∧ k = 0

/-- The records of the chunks before one. -/
def delivered (k : ℕ) : List DeliveryRecord :=
  p.intent.acceptance.deliveryRecords (p.chunks.take k).flatten

/-- The intent after a chunk. -/
def after (k : ℕ) : Option PublishIntent :=
  if k + 1 < p.chunks.length then some (p.intentAt (k + 1) none) else none

variable {p} {table : SubscriptionTable} {k : ℕ} {lease : Option ℤ}

theorem flatten_take_succ (k : ℕ) :
    (p.chunks.take (k + 1)).flatten = (p.chunks.take k).flatten ++ p.chunkAt k := by
  rw [take_add_one, flatten_append, chunkAt]
  cases p.chunks[k]? <;> simp

theorem delivered_succ (k : ℕ) :
    p.delivered (k + 1) = p.delivered k ++ p.intent.acceptance.deliveryRecords (p.chunkAt k) := by
  rw [delivered, flatten_take_succ, PublishAcceptanceInput.deliveryRecords_append]
  rfl

variable (h : p.Accepts table p.intent.acceptance)

include h

theorem validatePosition_intentAt (hk : p.HasChunk k) :
    (p.intentAt k lease).validatePosition = .ok () := by
  refine if_neg ?_
  change ¬(p.root.chunkCount < k ∨ p.root.chunkCount ≠ 0 ∧ k = p.root.chunkCount)
  rw [← h.count]
  rcases hk with hlt | ⟨hnil, rfl⟩
  · omega
  · rw [hnil]
    simp

/-- **The next intent is that of the next chunk**, if there is one. -/
theorem nextIntent_intentAt (hk : p.HasChunk k) :
    (p.intentAt k lease).nextIntent = .ok (p.after k) := by
  have hsmall := h.small
  rw [← h.count] at hsmall
  rw [PublishIntent.nextIntent, validatePosition_intentAt h hk, after]
  change (if 2 ^ 32 ≤ k + 1 then _ else if p.root.chunkCount ≤ k + 1 then _ else _) = _
  rw [if_neg (by rcases hk with hlt | ⟨-, rfl⟩ <;> omega), ← h.count]
  split_ifs with hlast hnext
  · omega
  · rfl
  · rfl
  · omega

/-- A chunk that is read passes its checks. -/
theorem validate_candidate (hk : p.HasChunk k) :
    PublishCandidate.validate ⟨p.intentAt k lease, p.chunkAt k⟩ = .ok () := by
  rw [PublishCandidate.validate, validatePosition_intentAt h hk]
  change (if p.intent.acceptance.request.topicArn ≠ p.root.topicArn ∨
    p.root.chunkCount = 0 ∧ p.chunkAt k ≠ [] then _ else _) = _
  have hempty : p.chunks = [] → p.chunkAt k = [] := by
    intro hnil
    rw [chunkAt, hnil]
    rfl
  rw [← h.count, if_neg]
  · split_ifs with hcount
    · rcases hk with hlt | ⟨hnil, -⟩
      · refine h.chunk _ ?_
        rw [chunkAt, getElem?_eq_getElem hlt]
        exact getElem_mem hlt
      · exact absurd (h.count.symm.trans (length_eq_zero_iff.mpr hnil)) hcount
    · rfl
  · rintro (htopic | ⟨hcount, hne⟩)
    · exact htopic h.topic.symm
    · exact hne (hempty (length_eq_zero_iff.mp hcount))

theorem topicArn_of_mem_chunkAt {sub : Subscription} (hsub : sub ∈ p.chunkAt k) :
    sub.topicArn = p.root.topicArn := by
  rw [chunkAt] at hsub
  cases hchunk : p.chunks[k]? with
  | none =>
    rw [hchunk] at hsub
    cases hsub
  | some chunk =>
    rw [hchunk] at hsub
    have hvalid := h.chunk chunk (mem_of_getElem? hchunk)
    rw [validateSnapshotChunk] at hvalid
    split_ifs at hvalid with hsize hsame
    exact hsame.1 sub hsub

theorem nodup_arns : (p.chunks.flatten.map Subscription.subscriptionArn).Nodup := by
  rw [(h.perm.map _).nodup_iff]
  refine pairwise_map.mpr (table.ascending.imp fun hlt heq => ?_)
  rw [heq, compareUtf8_self] at hlt
  cases hlt

theorem nodup_take (k : ℕ) :
    ((p.chunks.take k).flatten.map Subscription.subscriptionArn).Nodup := by
  have hnodup := nodup_arns h
  rw [← take_append_drop k p.chunks, flatten_append, map_append] at hnodup
  exact hnodup.of_append_left

theorem arn_notMem_before {a b : Subscription} (ha : a ∈ (p.chunks.take k).flatten)
    (hb : b ∈ p.chunkAt k) : a.subscriptionArn ≠ b.subscriptionArn := by
  have hnodup := nodup_take h (k + 1)
  rw [flatten_take_succ, map_append, nodup_append] at hnodup
  exact hnodup.2.2 _ (mem_map_of_mem ha) _ (mem_map_of_mem hb)

end AcceptedPublication

/-! ### The state of a store -/

namespace PublicationStore

/-- How far a publication has come. One whose intent is gone is done. -/
def progress (s : PublicationStore) (p : AcceptedPublication) : ℕ :=
  match s.intents.get p.messageId with
  | some intent => intent.nextChunk
  | none => p.chunks.length

/-- **The state of a store**, after publications were accepted and records created: every intent is
that of a publication at a chunk, the chunks of a publication are there as long as its intent is,
and the records of a publication are those of the chunks that it has passed. -/
structure Ready (s : PublicationStore) (accepted : List (AcceptedPublication × SubscriptionTable))
    (created : List DeliveryRecord) : Prop where
  accepts : ∀ p ∈ accepted, p.1.Accepts p.2 p.1.intent.acceptance ∧ MessageIdText p.1.messageId
  ids : (accepted.map fun p => p.1.messageId).Nodup
  generations : (accepted.map fun p => p.1.root.generation).Nodup
  intents : ∀ id intent, s.intents.get id = some intent → ∃ p ∈ accepted, p.1.messageId = id ∧
    ∃ k lease, p.1.HasChunk k ∧ intent = p.1.intentAt k lease
  due : Indexes PublishIntent.dueEntry s.intents s.due
  chunks : ∀ p ∈ accepted, ∀ i, s.chunks.get (p.1.root.generation, i)
    = if (s.intents.get p.1.messageId).isSome then p.1.chunks[i]? else none
  known : ∀ key, (s.chunks.get key).isSome → ∃ p ∈ accepted, p.1.root.generation = key.1
  records : ∀ p ∈ accepted, (created.filter fun r => r.messageId = p.1.messageId)
    = p.1.delivered (s.progress p.1)
  origin : ∀ r ∈ created, ∃ p ∈ accepted, ∃ subscription,
    r = p.1.intent.acceptance.notification subscription
  deliveries : ∀ id, (s.deliveries.get id).isSome →
    (∃ r ∈ created, r.id = id) ∨ ∃ t, id = t ++ text ":confirmation"
  stored : ∀ r ∈ created, s.deliveries.get r.id = some r

/-- The stored intent of a publication is at a chunk. -/
structure At (s : PublicationStore) (accepted : List (AcceptedPublication × SubscriptionTable))
    (p : AcceptedPublication × SubscriptionTable) (k : ℕ) (lease : Option ℤ) : Prop where
  mem : p ∈ accepted
  chunk : p.1.HasChunk k
  get : s.intents.get p.1.messageId = some (p.1.intentAt k lease)

section Ready

open AcceptedPublication

variable {s : PublicationStore} {accepted : List (AcceptedPublication × SubscriptionTable)}
  {created : List DeliveryRecord} {p : AcceptedPublication × SubscriptionTable} {k : ℕ}
  {lease : Option ℤ}

/-! ### Replacing an intent -/

theorem get_replaceIntent (s : PublicationStore) (expected : PublishIntent)
    (next : Option PublishIntent) (id : Text) :
    (s.replaceIntent expected next).intents.get id
      = if id = expected.acceptance.messageId then next else s.intents.get id := by
  cases next with
  | none => exact OrderedMap.get_remove _ _ _
  | some next => exact OrderedMap.get_insert _ _ _ _

theorem get_removeChunks (chunks : OrderedMap (ℕ × ℕ) (List Subscription)) (generation count : ℕ)
    (key : ℕ × ℕ) :
    ((List.range count).foldl (fun chunks i => chunks.remove (generation, i)) chunks).get key
      = if key.1 = generation ∧ key.2 < count then none else chunks.get key := by
  induction count with
  | zero => simp
  | succ count ih =>
    rw [range_succ, foldl_append, foldl_cons, foldl_nil, OrderedMap.get_remove, ih]
    by_cases hkey : key = (generation, count)
    · rw [if_pos hkey, if_pos (by rw [hkey]; exact ⟨rfl, Nat.lt_succ_self _⟩)]
    · rw [if_neg hkey]
      refine if_congr ⟨fun h => ⟨h.1, by omega⟩, fun h => ⟨h.1, ?_⟩⟩ rfl rfl
      have hne : key.2 ≠ count := fun heq => hkey (Prod.ext h.1 heq)
      omega

/-- An intent is replaced by one of the same publication, or by none. -/
structure Replacement (p : AcceptedPublication × SubscriptionTable) (next : Option PublishIntent) :
    Prop where
  valid : ∀ intent, next = some intent → ∃ k lease, p.1.HasChunk k ∧ intent = p.1.intentAt k lease

theorem progress_replaceIntent_self (next : Option PublishIntent) :
    (s.replaceIntent (p.1.intentAt k lease) next).progress p.1
      = (next.map nextChunk).getD p.1.chunks.length := by
  have hget : (s.replaceIntent (p.1.intentAt k lease) next).intents.get p.1.messageId = next :=
    (get_replaceIntent _ _ _ _).trans (if_pos rfl)
  rw [progress, hget]
  cases next <;> rfl

theorem progress_replaceIntent_of_ne {q : AcceptedPublication}
    (hne : q.messageId ≠ p.1.messageId) (next : Option PublishIntent) :
    (s.replaceIntent (p.1.intentAt k lease) next).progress q = s.progress q := by
  have hget : (s.replaceIntent (p.1.intentAt k lease) next).intents.get q.messageId
      = s.intents.get q.messageId :=
    (get_replaceIntent _ _ _ _).trans (if_neg hne)
  rw [progress, progress, hget]

theorem replaceIntent_deliveries (s : PublicationStore)
    (deliveries : OrderedMap Text DeliveryRecord) (expected : PublishIntent)
    (next : Option PublishIntent) :
    PublicationStore.replaceIntent { s with deliveries := deliveries } expected next
      = { s.replaceIntent expected next with deliveries := deliveries } := by
  cases next <;> rfl

theorem delivered_after (p : AcceptedPublication) (hk : p.HasChunk k) :
    p.delivered (((p.after k).map nextChunk).getD p.chunks.length)
      = p.delivered k ++ p.intent.acceptance.deliveryRecords (p.chunkAt k) := by
  rw [← delivered_succ, after]
  split_ifs with hlt
  · rfl
  · rw [Option.map_none, Option.getD_none]
    rcases hk with hlast | ⟨hnil, -⟩
    · rw [show k + 1 = p.chunks.length by omega]
    · rw [delivered, delivered, hnil, take_nil, take_nil]

theorem nodup_deliveryRecords {table : SubscriptionTable} {p : AcceptedPublication}
    (h : p.Accepts table p.intent.acceptance) (k : ℕ) :
    ((p.intent.acceptance.deliveryRecords (p.chunkAt k)).map DeliveryRecord.id).Nodup := by
  have hnodup := nodup_take h (k + 1)
  rw [flatten_take_succ, map_append, nodup_append] at hnodup
  have hchunk := (hnodup.2.1.of_map _).filter (fun sub => !sub.confirmation.pendingConfirmation)
  rw [PublishAcceptanceInput.deliveryRecords, map_map]
  refine hchunk.map_on fun a ha b hb heq => ?_
  exact inj_on_of_nodup_map hnodup.2.1 (mem_of_mem_filter ha)
    (mem_of_mem_filter hb) (append_cancel_right heq)

variable (h : s.Ready accepted created) (hat : s.At accepted p k lease)

include h

theorem Ready.eq_of_messageId
    {q : AcceptedPublication × SubscriptionTable} (hp : p ∈ accepted) (hq : q ∈ accepted)
    (heq : q.1.messageId = p.1.messageId) : q = p :=
  inj_on_of_nodup_map h.ids hq hp heq

theorem Ready.locate :
    ∀ id intent key value, s.intents.get id = some intent →
      intent.dueEntry = some (key, value) → id = key.2 := by
  intro id intent key value hget hentry
  obtain ⟨p, -, hid, k, lease, -, rfl⟩ := h.intents id intent hget
  rw [← (Prod.mk.inj (Option.some.inj hentry)).1, ← hid]
  rfl

/-- An intent is stored under its identifier. -/
theorem Ready.readIntent (id : Text) :
    s.readIntent id = .ok (s.intents.get id) := by
  rw [PublicationStore.readIntent]
  cases hget : s.intents.get id with
  | none => rfl
  | some intent =>
    obtain ⟨p, -, hid, k, lease, -, rfl⟩ := h.intents id intent hget
    exact if_neg (not_not.mpr hid)

theorem Ready.intents_replace (hp : p ∈ accepted)
    {next : Option PublishIntent} (hnext : Replacement p next) :
    ∀ id intent, (s.replaceIntent (p.1.intentAt k lease) next).intents.get id = some intent →
      ∃ q ∈ accepted, q.1.messageId = id ∧
        ∃ k lease, q.1.HasChunk k ∧ intent = q.1.intentAt k lease := by
  intro id intent hintent
  rw [get_replaceIntent] at hintent
  split_ifs at hintent with hid
  · exact ⟨p, hp, hid.symm, hnext.valid intent hintent⟩
  · exact h.intents id intent hintent

theorem Ready.known_replace (expected : PublishIntent)
    (next : Option PublishIntent) (key : ℕ × ℕ)
    (hkey : ((s.replaceIntent expected next).chunks.get key).isSome) :
    ∃ p ∈ accepted, p.1.root.generation = key.1 := by
  refine h.known key ?_
  cases next with
  | some next => exact hkey
  | none =>
    have hget := get_removeChunks s.chunks expected.snapshot.generation
      expected.snapshot.chunkCount key
    have hkey : (OrderedMap.get ((range expected.snapshot.chunkCount).foldl
      (fun chunks i => chunks.remove (expected.snapshot.generation, i)) s.chunks) key).isSome
        = true := hkey
    rw [hget] at hkey
    split_ifs at hkey with hremoved
    · cases hkey
    · exact hkey

include hat

theorem Ready.readChunk :
    s.readChunk (p.1.intentAt k lease) = .ok ⟨p.1.intentAt k lease, p.1.chunkAt k⟩ := by
  have haccepts := (h.accepts p hat.mem).1
  have hchunk := h.chunks p hat.mem k
  rw [hat.get, Option.isSome_some, if_pos rfl] at hchunk
  rw [PublicationStore.readChunk]
  change (if p.1.root.chunkCount = 0 then _
    else match s.chunks.get (p.1.root.generation, k) with | none => _ | some subs => _) = _
  rw [← haccepts.count, hchunk, chunkAt]
  rcases hat.chunk with hlt | ⟨hnil, rfl⟩
  · rw [if_neg (by omega), getElem?_eq_getElem hlt]
    rfl
  · rw [hnil]
    rfl

/-- The records of a chunk are not there yet. -/
theorem Ready.fresh :
    ∀ r ∈ p.1.intent.acceptance.deliveryRecords (p.1.chunkAt k),
      s.deliveries.get r.id = none := by
  intro r hr
  obtain ⟨sub, hsub, rfl⟩ := mem_map.mp hr
  have hsub := mem_of_mem_filter hsub
  obtain ⟨haccepts, hcolon, hword⟩ := h.accepts p hat.mem
  rw [Option.eq_none_iff_forall_ne_some]
  intro r₀ hr₀
  rcases h.deliveries _ (Option.isSome_of_eq_some hr₀) with ⟨r₁, hr₁, hid⟩ | ⟨t, ht⟩
  · obtain ⟨q, hq, sub₁, rfl⟩ := h.origin r₁ hr₁
    obtain ⟨harn, hmessage⟩ := append_colon_inj (h.accepts q hq).2.1 hcolon hid
    obtain rfl := h.eq_of_messageId hat.mem hq hmessage
    -- The earlier record is one of those that are known of this publication.
    have hmem : q.1.intent.acceptance.notification sub₁
        ∈ created.filter fun r => r.messageId = q.1.messageId :=
      mem_filter.mpr ⟨hr₁, decide_eq_true rfl⟩
    rw [h.records q hq, progress, hat.get] at hmem
    obtain ⟨sub₂, hsub₂, heq⟩ := mem_map.mp hmem
    have harn₂ : sub₂.subscriptionArn = sub₁.subscriptionArn :=
      congrArg DeliveryRecord.subscriptionArn heq
    exact arn_notMem_before haccepts (mem_of_mem_filter hsub₂) hsub
      (harn₂.trans harn)
  · have hsplit : sub.subscriptionArn ++ ':' :: p.1.messageId
        = t ++ ':' :: text "confirmation" := ht
    exact hword (append_colon_inj hcolon (by decide) hsplit).2

theorem Ready.due_replace
    {next : Option PublishIntent} (hnext : Replacement p next) :
    Indexes PublishIntent.dueEntry (s.replaceIntent (p.1.intentAt k lease) next).intents
      (s.replaceIntent (p.1.intentAt k lease) next).due := by
  have hlocate : ∀ id intent key value, s.intents.get id = some intent →
      intent.dueEntry = some (key, value) → id = (fun key (_ : Unit) => key.2) key value :=
    h.locate
  cases next with
  | none => exact h.due.erase hlocate hat.get
  | some next =>
    obtain ⟨k', lease', -, rfl⟩ := hnext.valid next rfl
    refine h.due.replace hlocate hat.get fun key value hentry => ?_
    cases hdue : s.due.get key with
    | none => exact .inr rfl
    | some value' =>
      -- An entry of the same message is that of the intent which is replaced.
      obtain ⟨id, intent, hintent, hkey⟩ := (h.due key value').mp hdue
      have hid : id = p.1.messageId := by
        rw [h.locate id intent key value' hintent hkey, ← (Prod.mk.inj (Option.some.inj hentry)).1]
        rfl
      rw [hid, hat.get] at hintent
      rw [Option.some.inj hintent, hkey]
      exact .inl rfl

/-- **The chunks of a publication go with its intent.** -/
theorem Ready.chunks_replace
    (next : Option PublishIntent) (q : AcceptedPublication × SubscriptionTable)
    (hq : q ∈ accepted) (i : ℕ) :
    (s.replaceIntent (p.1.intentAt k lease) next).chunks.get (q.1.root.generation, i)
      = if ((s.replaceIntent (p.1.intentAt k lease) next).intents.get q.1.messageId).isSome
        then q.1.chunks[i]? else none := by
  have hbefore := h.chunks q hq i
  have hid : q.1.messageId = p.1.messageId ↔ q = p :=
    ⟨h.eq_of_messageId hat.mem hq, fun heq => by rw [heq]⟩
  rw [get_replaceIntent]
  change _ = if (if q.1.messageId = p.1.messageId then next else _).isSome then _ else _
  by_cases hqp : q = p
  · subst hqp
    rw [hat.get, Option.isSome_some, if_pos rfl] at hbefore
    rw [if_pos rfl]
    cases next with
    | some next => rwa [Option.isSome_some, if_pos rfl]
    | none =>
      refine (get_removeChunks _ _ _ _).trans ?_
      rw [hbefore]
      change (if q.1.root.generation = q.1.root.generation ∧ i < q.1.root.chunkCount
        then none else _) = none
      rw [← (h.accepts q hq).1.count]
      split_ifs with hlt
      · rfl
      · exact getElem?_eq_none (by simpa using hlt)
  · rw [if_neg (mt hid.mp hqp), ← hbefore]
    cases next with
    | some next => rfl
    | none =>
      refine (get_removeChunks _ _ _ _).trans (if_neg fun hboth => hqp ?_)
      exact inj_on_of_nodup_map h.generations hq hat.mem hboth.1

/-- **A lease changes nothing else.** -/
theorem Ready.replaceLease
    (lease' : Option ℤ) :
    (s.replaceIntent (p.1.intentAt k lease) (some (p.1.intentAt k lease'))).Ready
      accepted created := by
  have hnext : Replacement p (some (p.1.intentAt k lease')) :=
    ⟨fun intent heq => ⟨k, lease', hat.chunk, (Option.some.inj heq).symm⟩⟩
  refine { h with
    intents := h.intents_replace hat.mem hnext
    due := h.due_replace hat hnext
    chunks := h.chunks_replace hat _
    known := h.known_replace _ _
    records := fun q hq => ?_ }
  rw [h.records q hq]
  by_cases hid : q.1.messageId = p.1.messageId
  · rw [h.eq_of_messageId hat.mem hq hid, progress_replaceIntent_self, progress, hat.get]
    rfl
  · rw [progress_replaceIntent_of_ne hid]

/-- **A chunk is materialised once**: its records are created, and the publication moves on. -/
theorem Ready.settle :
    ∃ s', s.settle (p.1.intentAt k lease) (p.1.intent.acceptance.deliveryRecords (p.1.chunkAt k))
        (p.1.after k) = .ok s' ∧
      s'.Ready accepted (created ++ p.1.intent.acceptance.deliveryRecords (p.1.chunkAt k)) := by
  set records := p.1.intent.acceptance.deliveryRecords (p.1.chunkAt k) with hrecords
  have hnone : ¬(records.any fun r => (s.deliveries.get r.id).isSome) = true := by
    intro hany
    obtain ⟨r, hr, hsome⟩ := any_eq_true.mp hany
    rw [h.fresh hat r hr] at hsome
    cases hsome
  have hnext : Replacement p (p.1.after k) := by
    refine ⟨fun intent heq => ?_⟩
    rw [after] at heq
    split_ifs at heq with hlt
    exact ⟨k + 1, none, .inl hlt, (Option.some.inj heq).symm⟩
  have hmessage : ∀ r ∈ records, r.messageId = p.1.messageId := by
    intro r hr
    obtain ⟨sub, -, rfl⟩ := mem_map.mp hr
    rfl
  refine ⟨{ s.replaceIntent (p.1.intentAt k lease) (p.1.after k) with
    deliveries := s.deliveries.insertAll (records.map fun record => (record.id, record)) }, ?_, ?_⟩
  · rw [PublicationStore.settle, writeDeliveryRecords, if_neg hnone]
    exact congrArg Except.ok (replaceIntent_deliveries _ _ _ _)
  refine { h with
    intents := h.intents_replace hat.mem hnext
    due := h.due_replace hat hnext
    chunks := h.chunks_replace hat _
    known := h.known_replace _ _
    records := fun q hq => ?_
    origin := fun r hr => ?_
    deliveries := fun id hid => ?_
    stored := fun r hr => ?_ }
  · rw [filter_append, h.records q hq]
    change _ = q.1.delivered ((s.replaceIntent (p.1.intentAt k lease) (p.1.after k)).progress q.1)
    by_cases hid : q.1.messageId = p.1.messageId
    · rw [h.eq_of_messageId hat.mem hq hid, progress_replaceIntent_self, delivered_after _ hat.chunk,
        progress, hat.get, filter_eq_self.mpr fun r hr => decide_eq_true (hmessage r hr)]
      rfl
    · rw [progress_replaceIntent_of_ne hid, filter_eq_nil_iff.mpr, append_nil]
      intro r hr heq
      exact hid ((of_decide_eq_true heq).symm.trans (hmessage r hr))
  · rcases mem_append.mp hr with hold | hnew
    · exact h.origin r hold
    · obtain ⟨sub, -, rfl⟩ := mem_map.mp hnew
      exact ⟨p, hat.mem, sub, rfl⟩
  · have hid : ((s.deliveries.insertAll (records.map fun record => (record.id, record))).get
        id).isSome = true := hid
    rw [OrderedMap.get_insertAll, Option.isSome_or, Bool.or_eq_true] at hid
    rcases hid with hnew | hold
    · obtain ⟨record, hrecord⟩ := Option.isSome_iff_exists.mp hnew
      obtain ⟨r, hr, heq⟩ := mem_map.mp
        (mem_reverse.mp (OrderedMap.mem_of_lookup_eq_some hrecord))
      exact .inl ⟨r, mem_append_right _ hr, congrArg Prod.fst heq⟩
    · refine (h.deliveries id hold).imp_left ?_
      rintro ⟨r, hr, rfl⟩
      exact ⟨r, mem_append_left _ hr, rfl⟩
  · refine (OrderedMap.get_insertAll _ _ _).trans ?_
    rcases mem_append.mp hr with hold | hnew
    · rw [OrderedMap.lookup_eq_none_iff.mpr, Option.none_or]
      · exact h.stored r hold
      · intro hmem
        obtain ⟨entry, hentry, heq⟩ := mem_map.mp hmem
        obtain ⟨r', hr', rfl⟩ := mem_map.mp (mem_reverse.mp hentry)
        have hstored := h.stored r hold
        rw [← heq, h.fresh hat r' hr'] at hstored
        cases hstored
    · cases hlookup : OrderedMap.lookup (records.map fun r => (r.id, r)).reverse r.id with
      | none =>
        rw [OrderedMap.lookup_eq_none_iff, map_reverse, mem_reverse] at hlookup
        exact absurd (mem_map_of_mem (mem_map_of_mem hnew)) hlookup
      | some r' =>
        obtain ⟨r'', hr'', heq⟩ := mem_map.mp
          (mem_reverse.mp (OrderedMap.mem_of_lookup_eq_some hlookup))
        obtain ⟨hid, rfl⟩ := Prod.mk.inj heq
        rw [inj_on_of_nodup_map (nodup_deliveryRecords (h.accepts p hat.mem).1 k) hr'' hnew hid]
        rfl

end Ready

end PublicationStore

end AuxStorage.Pubsub
