import AuxStorage.AttributeValue

/-!
# Publications: Acceptance

A publication is accepted against the subscriptions of its topic. They are collected page by page,
sorted, and cut into **chunks**, which are stored with an **intent** that says which chunk comes
next. The chunks do not change later, whatever happens to the subscriptions.

## Main results

* `collectSubscriptions_eq`: **paging loses and repeats no subscription.**
* `flatten_chunksOf`: the chunks together are the list that was cut.
* `AcceptedPublication.Accepts.perm`: an accepted publication holds every subscription once.
-/

namespace AuxStorage.Pubsub

open List

/-! ### Subscriptions and publications -/

/-- How a subscription is delivered to. -/
inductive SubscriptionProtocol
  | queue
  | http
  | https
  deriving DecidableEq, Repr

/-- Whether the subscriber has confirmed. -/
inductive SubscriptionConfirmation
  | confirmed
  | pending (token : Text)
  deriving DecidableEq, Repr

def SubscriptionConfirmation.pendingConfirmation : SubscriptionConfirmation → Bool
  | .confirmed => false
  | .pending _ => true

/-- A subscription of a topic. -/
structure Subscription where
  subscriptionArn : Text
  topicArn : Text
  protocol : SubscriptionProtocol
  confirmation : SubscriptionConfirmation
  deriving DecidableEq, Repr

inductive MessageAttribute
  | string (value : Text)
  | stringArray (value : Text)
  | number (value : Text)
  | binary (value : List UInt8)
  deriving DecidableEq, Repr

/-- `PublishRequest`. The attributes are a map, here listed by name. -/
structure PublishRequest where
  topicArn : Text
  message : Text
  subject : Option Text
  messageAttributes : List (Text × MessageAttribute)
  deriving DecidableEq, Repr

/-- `PublishAcceptanceInput`. A generation is a UUID, here a number. -/
structure PublishAcceptanceInput where
  request : PublishRequest
  messageId : Text
  acceptedAt : ℤ
  customSenderEnabled : Bool
  snapshotGeneration : ℕ
  deriving DecidableEq, Repr

structure SubscriptionSnapshotRoot where
  topicArn : Text
  generation : ℕ
  chunkCount : ℕ
  deriving DecidableEq, Repr

/-- A publication that is not delivered to all subscriptions yet. -/
structure PublishIntent where
  acceptance : PublishAcceptanceInput
  snapshot : SubscriptionSnapshotRoot
  nextChunk : ℕ
  leaseExpiresAt : Option ℤ
  deriving DecidableEq, Repr

/-- `AcceptedPublication`: the intent, and the chunks of the snapshot. Its root is in the intent. -/
structure AcceptedPublication where
  root : SubscriptionSnapshotRoot
  chunks : List (List Subscription)
  intent : PublishIntent
  deriving DecidableEq, Repr

/-- The errors of the operations. -/
inductive PubsubFault
  | internal (message : Text)
  | conflict (message : Text)
  deriving DecidableEq, Repr

/-! ### Collecting subscriptions -/

/-- `PUBSUB_PAGE_LIMIT`. -/
def pageLimit : ℕ := 100

/-- A page of subscriptions. -/
structure SubscriptionPage where
  rows : List Subscription
  more : Bool

/-- Whether identifiers ascend, after a given one. -/
def arnsAscend : Option Text → List Subscription → Bool
  | _, [] => true
  | previous, row :: rest =>
    (previous.all fun previous => compareUtf8 previous row.subscriptionArn = .lt)
      && arnsAscend (some row.subscriptionArn) rest

def validatePage (page : SubscriptionPage) (after : Option Text) : Except PubsubFault Unit :=
  if pageLimit + 1 < page.rows.length ∨ page.more = true ∧ page.rows = [] then
    .error (.internal (text "subscription page has invalid bounds"))
  else if arnsAscend after page.rows then .ok ()
  else .error (.internal (text "subscription page is unordered"))

/-- The subscriptions of a topic incarnation, in the order of their identifiers. -/
structure SubscriptionTable where
  rows : List Subscription
  ascending : rows.Pairwise fun a b => compareUtf8 a.subscriptionArn b.subscriptionArn = .lt

/-- What a store answers when it is asked for a page. A page starts behind its cursor, holds at
least one row while there are rows, and **says truthfully whether there are more**. -/
structure SubscriptionPages (table : SubscriptionTable) where
  read : Option Text → SubscriptionPage
  truthful : ∀ before after, table.rows = before ++ after → ∃ n, (after ≠ [] → 0 < n) ∧
    n ≤ pageLimit + 1 ∧ read (before.getLast?.map Subscription.subscriptionArn)
      = ⟨after.take n, decide (n < after.length)⟩

/-- The loop of `collect_subscriptions`, for at most `fuel` pages. -/
def collectLoop (read : Option Text → SubscriptionPage) :
    ℕ → Option Text → List Subscription → Except PubsubFault (List Subscription)
  | 0, _, _ => .error (.internal (text "out of fuel"))
  | fuel + 1, after, subscriptions => do
      let page := read after
      validatePage page after
      let more := page.more || decide (pageLimit < page.rows.length)
      let selected := page.rows.take pageLimit
      if more = true ∧ selected = [] then
        .error (.internal (text "publish subscription page cannot advance"))
      else if more then
        collectLoop read fuel (selected.getLast?.map Subscription.subscriptionArn)
          (subscriptions ++ selected)
      else .ok (subscriptions ++ selected)

/-- All pages, one after the other. -/
def collectSubscriptions {table : SubscriptionTable} (pages : SubscriptionPages table) :
    Except PubsubFault (List Subscription) :=
  collectLoop pages.read (table.rows.length + 1) none []

theorem arnsAscend_of_pairwise {before rows : List Subscription}
    (h : (before ++ rows).Pairwise fun a b =>
      compareUtf8 a.subscriptionArn b.subscriptionArn = .lt) :
    arnsAscend (before.getLast?.map Subscription.subscriptionArn) rows = true := by
  induction rows generalizing before with
  | nil => rfl
  | cons row rest ih =>
    have hrest := @ih (before ++ [row]) (by rwa [append_assoc])
    rw [getLast?_concat, Option.map_some] at hrest
    rw [arnsAscend, hrest, Bool.and_true]
    cases hlast : before.getLast? with
    | none => rfl
    | some last =>
      exact decide_eq_true ((pairwise_append.mp h).2.2 last
        (mem_of_getLast? hlast) row mem_cons_self)

variable {table : SubscriptionTable}

/-- Every page moves on, and the last one ends the loop. -/
theorem collectLoop_eq (pages : SubscriptionPages table) {fuel : ℕ}
    (before after : List Subscription) (hrows : table.rows = before ++ after)
    (hfuel : after.length < fuel) :
    collectLoop pages.read fuel (before.getLast?.map Subscription.subscriptionArn) before
      = .ok table.rows := by
  induction fuel generalizing before after with
  | zero => omega
  | succ fuel ih =>
    obtain ⟨n, hpos, hlimit, hread⟩ := pages.truthful before after hrows
    have hlength : (after.take n).length ≤ pageLimit + 1 := by
      rw [length_take]
      omega
    have hascend : arnsAscend (before.getLast?.map Subscription.subscriptionArn) (after.take n)
        = true := by
      have hsublist : (before ++ after.take n).Sublist table.rows := by
        rw [hrows]
        exact (List.Sublist.refl _).append (take_sublist n after)
      exact arnsAscend_of_pairwise (table.ascending.sublist hsublist)
    have hnonempty : n < after.length → after.take n ≠ [] := by
      intro hlt heq
      have hne : after ≠ [] := by
        rintro rfl
        simp at hlt
      rcases take_eq_nil_iff.mp heq with hzero | hnil
      · exact absurd hzero (hpos hne).ne'
      · exact hne hnil
    have hvalid : validatePage ⟨after.take n, decide (n < after.length)⟩
        (before.getLast?.map Subscription.subscriptionArn) = .ok () := by
      rw [validatePage, if_neg, if_pos hascend]
      rintro (hbig | ⟨hmore, hempty⟩)
      · exact absurd hlength (by simpa using hbig)
      · exact hnonempty (of_decide_eq_true hmore) hempty
    rw [collectLoop, hread]
    change (validatePage _ _ >>= _) = _
    rw [hvalid]
    change (if _ then _ else _) = _
    -- The rows that are selected, and those still to come.
    set selected := (after.take n).take pageLimit with hselected
    have hsplit : after = selected ++ after.drop (min pageLimit n) := by
      rw [hselected, take_take, take_append_drop]
    by_cases hmore : (decide (n < after.length) || decide (pageLimit < (after.take n).length))
        = true
    · have hselectedne : selected ≠ [] := by
        intro heq
        rcases take_eq_nil_iff.mp heq with hzero | hnil
        · exact absurd hzero (by decide)
        · rcases (Bool.or_eq_true _ _).mp hmore with hlt | hlt
          · exact hnonempty (of_decide_eq_true hlt) hnil
          · rw [hnil] at hlt
            exact absurd (of_decide_eq_true hlt) (by simp)
      rw [if_neg fun h => hselectedne h.2, if_pos hmore]
      have hnext := ih (before ++ selected) (after.drop (min pageLimit n))
        (by rw [append_assoc, ← hsplit, hrows]) (by
          have hlen := congrArg length hsplit
          rw [length_append] at hlen
          have := length_pos_of_ne_nil hselectedne
          omega)
      rwa [getLast?_append_of_ne_nil _ hselectedne] at hnext
    · have hall : selected = after := by
        rw [Bool.not_eq_true, Bool.or_eq_false_iff, decide_eq_false_iff_not,
          decide_eq_false_iff_not] at hmore
        rw [hselected, take_of_length_le (by omega), take_of_length_le (by omega)]
      rw [if_neg fun h => hmore h.1, if_neg hmore, hall, hrows]

/-- **Paging loses and repeats no subscription.** -/
theorem collectSubscriptions_eq (pages : SubscriptionPages table) :
    collectSubscriptions pages = .ok table.rows :=
  collectLoop_eq pages [] table.rows rfl (Nat.lt_succ_self _)

/-! ### Snapshots -/

/-- `slice::chunks`. -/
def chunksOf {α : Type} (size : ℕ) (l : List α) : List (List α) :=
  (List.range ((l.length + size - 1) / size)).map fun i => (l.drop (i * size)).take size

theorem flatten_range_chunks {α : Type} (size : ℕ) (l : List α) (count : ℕ) :
    ((List.range count).map fun i => (l.drop (i * size)).take size).flatten
      = l.take (count * size) := by
  induction count with
  | zero => simp
  | succ count ih =>
    rw [range_succ, map_append, flatten_append, ih, Nat.succ_mul, take_add]
    simp

/-- **The chunks together are the list that was cut.** -/
theorem flatten_chunksOf {α : Type} {size : ℕ} (hsize : 0 < size) (l : List α) :
    (chunksOf size l).flatten = l := by
  rw [chunksOf, flatten_range_chunks]
  refine take_of_length_le ?_
  have hdiv := Nat.div_add_mod (l.length + size - 1) size
  have hmod := Nat.mod_lt (l.length + size - 1) hsize
  rw [mul_comm]
  omega

/-- `PUBSUB_SNAPSHOT_CHUNK_SIZE`. -/
def snapshotChunkSize : ℕ := 10

/-- A chunk is bounded, of one topic and without repetitions. -/
def validateSnapshotChunk (topicArn : Text) (subscriptions : List Subscription) :
    Except PubsubFault Unit :=
  if subscriptions = [] ∨ snapshotChunkSize < subscriptions.length then
    .error (.internal (text "publication snapshot chunk has invalid size"))
  else if (∀ subscription ∈ subscriptions, subscription.topicArn = topicArn) ∧
      (subscriptions.map Subscription.subscriptionArn).Nodup then .ok ()
  else .error (.internal (text "publication snapshot chunk has invalid subscriptions"))

/-- `SubscriptionSnapshot::with_generation` and `AcceptedPublication::new`. -/
def AcceptedPublication.new (topicArn : Text) (subscriptions : List Subscription)
    (acceptance : PublishAcceptanceInput) : AcceptedPublication :=
  let sorted := subscriptions.mergeSort fun a b =>
    compareUtf8 a.subscriptionArn b.subscriptionArn ≠ .gt
  let root := ⟨topicArn, acceptance.snapshotGeneration,
    (subscriptions.length + snapshotChunkSize - 1) / snapshotChunkSize⟩
  { root := root
    chunks := chunksOf snapshotChunkSize sorted
    intent := ⟨acceptance, root, 0, none⟩ }

def AcceptedPublication.validate (publication : AcceptedPublication) : Except PubsubFault Unit :=
  if publication.root ≠ publication.intent.snapshot ∨
      publication.root.topicArn ≠ publication.intent.acceptance.request.topicArn ∨
      publication.chunks.length ≠ publication.root.chunkCount ∨
      publication.intent.nextChunk ≠ 0 ∨ publication.intent.leaseExpiresAt.isSome then
    .error (.internal (text "publication snapshot and intent differ"))
  else publication.chunks.forM (validateSnapshotChunk publication.root.topicArn)

/-- The rest of `prepare_publish_in_attempt`, for a topic that is there and a message whose
identifier is new. -/
def preparePublish {table : SubscriptionTable} (topicArn : Text) (pages : SubscriptionPages table)
    (acceptance : PublishAcceptanceInput) : Except PubsubFault AcceptedPublication := do
  let subscriptions ← collectSubscriptions pages
  if 2 ^ 32 ≤ (subscriptions.length + snapshotChunkSize - 1) / snapshotChunkSize then
    .error (.internal (text "publish snapshot exceeds supported size"))
  else
    let publication := AcceptedPublication.new topicArn subscriptions acceptance
    publication.validate
    pure publication

/-- **What an accepted publication is**: an intent at its first chunk, and chunks that hold the
subscriptions of the topic once each. -/
structure AcceptedPublication.Accepts (publication : AcceptedPublication)
    (table : SubscriptionTable) (acceptance : PublishAcceptanceInput) : Prop where
  intent : publication.intent = ⟨acceptance, publication.root, 0, none⟩
  topic : publication.root.topicArn = acceptance.request.topicArn
  generation : publication.root.generation = acceptance.snapshotGeneration
  count : publication.chunks.length = publication.root.chunkCount
  small : publication.root.chunkCount < 2 ^ 32
  chunk : ∀ chunk ∈ publication.chunks,
    validateSnapshotChunk publication.root.topicArn chunk = .ok ()
  perm : publication.chunks.flatten.Perm table.rows

theorem preparePublish_eq_ok {topicArn : Text} {pages : SubscriptionPages table}
    {acceptance : PublishAcceptanceInput} {publication : AcceptedPublication}
    (h : preparePublish topicArn pages acceptance = .ok publication) :
    publication.Accepts table acceptance := by
  obtain ⟨subscriptions, hsubscriptions, h⟩ := Except.bind_eq_ok.mp h
  rw [collectSubscriptions_eq] at hsubscriptions
  cases hsubscriptions
  split_ifs at h with hsmall
  obtain ⟨⟨⟩, hvalid, h⟩ := Except.bind_eq_ok.mp h
  cases h
  unfold AcceptedPublication.validate at hvalid
  split_ifs at hvalid with hdiffers
  push Not at hdiffers
  obtain ⟨-, htopic, hcount, -, -⟩ := hdiffers
  refine ⟨rfl, htopic, rfl, hcount, not_le.mp hsmall, Except.forM_eq_ok.mp hvalid, ?_⟩
  change (chunksOf snapshotChunkSize _).flatten.Perm _
  rw [flatten_chunksOf (by decide)]
  exact mergeSort_perm _ _

end AuxStorage.Pubsub
