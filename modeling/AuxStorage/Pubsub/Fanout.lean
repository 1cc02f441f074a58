import AuxStorage.Pubsub.Publication

/-!
# Publications: Fan-out

Publications are accepted, claimed and materialised in any order. A claim may be committed late,
twice or never, and a chunk may be materialised without a claim; subscriptions come and go.
-/

namespace AuxStorage.Pubsub

open List

/-! ### The records of a publication -/

namespace AcceptedPublication

variable {p : AcceptedPublication} {table : SubscriptionTable} {k : ℕ}

variable (h : p.Accepts table p.intent.acceptance)

include h

theorem nodup_delivered (k : ℕ) :
    ((p.delivered k).map DeliveryRecord.subscriptionArn).Nodup := by
  rw [delivered, PublishAcceptanceInput.deliveryRecords, map_map]
  exact (nodup_take h k).sublist (filter_sublist.map _)

theorem of_mem_delivered {r : DeliveryRecord} (hr : r ∈ p.delivered k) :
    ∃ subscription ∈ table.rows, subscription.confirmation = .confirmed ∧
      r = p.intent.acceptance.notification subscription := by
  obtain ⟨sub, hsub, rfl⟩ := mem_map.mp hr
  obtain ⟨hmem, hconfirmed⟩ := mem_filter.mp hsub
  refine ⟨sub, h.perm.subset ?_, ?_, rfl⟩
  · rw [← take_append_drop k p.chunks, flatten_append]
    exact mem_append_left _ hmem
  · cases hsub : sub.confirmation with
    | confirmed => rfl
    | pending token =>
      rw [hsub] at hconfirmed
      cases hconfirmed

theorem mem_delivered {sub : Subscription}
    (hsub : sub ∈ table.rows) (hconfirmed : sub.confirmation = .confirmed) :
    p.intent.acceptance.notification sub ∈ p.delivered p.chunks.length := by
  refine mem_map_of_mem (mem_filter.mpr ⟨?_, ?_⟩)
  · rw [take_length]
    exact h.perm.symm.subset hsub
  · rw [hconfirmed]
    rfl

end AcceptedPublication

namespace PublicationStore

open AcceptedPublication

/-! ### Intents only move forward -/

/-- No intent comes back, and none goes back to an earlier chunk. -/
def Forward (s s' : PublicationStore) : Prop :=
  ∀ id intent', s'.intents.get id = some intent' →
    ∃ intent, s.intents.get id = some intent ∧ intent.nextChunk ≤ intent'.nextChunk

theorem Forward.refl (s : PublicationStore) : s.Forward s :=
  fun _ intent h => ⟨intent, h, le_rfl⟩

theorem Forward.trans {s t u : PublicationStore} (h : s.Forward t) (h' : t.Forward u) :
    s.Forward u := by
  intro id intent hget
  obtain ⟨intent₁, hget₁, hle₁⟩ := h' id intent hget
  obtain ⟨intent₂, hget₂, hle₂⟩ := h id intent₁ hget₁
  exact ⟨intent₂, hget₂, hle₂.trans hle₁⟩

variable {next : Option PublishIntent}

theorem forward_replaceIntent {s : PublicationStore} {expected : PublishIntent}
    (hget : s.intents.get expected.acceptance.messageId = some expected)
    (hnext : ∀ intent, next = some intent → expected.nextChunk ≤ intent.nextChunk) :
    s.Forward (s.replaceIntent expected next) := by
  intro id intent hintent
  rw [get_replaceIntent] at hintent
  split_ifs at hintent with hid
  · exact ⟨expected, hid ▸ hget, hnext intent hintent⟩
  · exact ⟨intent, hintent, le_rfl⟩

theorem settle_intents {s s' : PublicationStore} {original : PublishIntent}
    {records : List DeliveryRecord} (h : s.settle original records next = .ok s') :
    s'.intents = (s.replaceIntent original next).intents := by
  obtain ⟨t, ht, h⟩ := Except.bind_eq_ok.mp h
  cases h
  rw [writeDeliveryRecords] at ht
  split_ifs at ht
  cases ht
  rw [replaceIntent_deliveries]

/-! ### Candidates -/

section

variable {s : PublicationStore} {accepted : List (AcceptedPublication × SubscriptionTable)}
  {created : List DeliveryRecord}

/-- A publication at one of its chunks. -/
def Candidate (accepted : List (AcceptedPublication × SubscriptionTable))
    (candidate : PublishCandidate) : Prop :=
  ∃ p ∈ accepted, ∃ k lease, p.1.HasChunk k ∧
    candidate = ⟨p.1.intentAt k lease, p.1.chunkAt k⟩

/-- The intent of a candidate is the one that is stored. -/
def Current (s : PublicationStore) (candidate : PublishCandidate) : Prop :=
  s.intents.get candidate.intent.acceptance.messageId = some candidate.intent

/-- **An entry of the due index is that of a publication**, and its chunk is found. -/
theorem Ready.readDue (h : s.Ready accepted created) {key : ℤ × Text}
    (hkey : key ∈ s.due.entries.map Prod.fst) :
    ∃ candidate, s.readDue key = .ok candidate ∧ Candidate accepted candidate ∧
      s.Current candidate ∧ candidate.intent.dueKey = key := by
  obtain ⟨⟨key, value⟩, hmem, rfl⟩ := mem_map.mp hkey
  obtain ⟨id, intent, hget, hentry⟩ := (h.due key value).mp (s.due.get_eq_some_iff.mpr hmem)
  obtain ⟨p, hp, rfl, k, lease, hk, rfl⟩ := h.intents id intent hget
  have hdue : (p.1.intentAt k lease).dueKey = key := (Prod.mk.inj (Option.some.inj hentry)).1
  refine ⟨⟨p.1.intentAt k lease, p.1.chunkAt k⟩, ?_, ⟨p, hp, k, lease, hk, rfl⟩, hget, hdue⟩
  have hread : s.intents.get key.2 = some (p.1.intentAt k lease) := by
    rw [← hdue]
    exact hget
  rw [PublicationStore.readDue, hread]
  refine (if_neg ?_).trans (h.readChunk ⟨hp, hk, hget⟩)
  rintro (hid | hne)
  · exact hid (congrArg Prod.snd hdue)
  · exact hne hdue

/-! ### Claims -/

/-- What a claim makes of a candidate. -/
def claimed (now : ℤ) (candidate : PublishCandidate) : PublishIntent × PublishCandidate :=
  (candidate.intent,
    ⟨{ candidate.intent with leaseExpiresAt := some (leaseUntil now) }, candidate.subscriptions⟩)

variable {candidate : PublishCandidate}

theorem Ready.claimCandidate (h : s.Ready accepted created)
    (hcandidate : Candidate accepted candidate) {now : ℤ} (hdue : candidate.intent.dueKey.1 ≤ now) :
    claimCandidate now candidate = .ok (claimed now candidate) := by
  obtain ⟨p, hp, k, lease, hk, rfl⟩ := hcandidate
  rw [PublicationStore.claimCandidate, validate_candidate (h.accepts p hp).1 hk]
  refine if_neg ?_
  change ¬(lease.any fun expires => now < expires) = true
  cases lease with
  | none => exact Bool.false_ne_true
  | some expires => exact fun hlt => absurd (of_decide_eq_true hlt) (not_lt.mpr hdue)

/-- The candidates of a page are of different messages, so each is claimed as it was read. -/
theorem Ready.foldl_claimed (now : ℤ) (candidates : List PublishCandidate)
    (h : s.Ready accepted created)
    (hcandidates : ∀ c ∈ candidates, Candidate accepted c ∧ s.Current c)
    (hnodup : (candidates.map fun c => c.intent.acceptance.messageId).Nodup) :
    ((candidates.map (claimed now)).foldl
        (fun s entry => s.replaceIntent entry.1 (some entry.2.intent)) s).Ready accepted created ∧
      s.Forward ((candidates.map (claimed now)).foldl
        (fun s entry => s.replaceIntent entry.1 (some entry.2.intent)) s) := by
  induction candidates generalizing s with
  | nil => exact ⟨h, Forward.refl s⟩
  | cons c rest ih =>
    obtain ⟨⟨p, hp, k, lease, hk, rfl⟩, hget⟩ := hcandidates c mem_cons_self
    have hready := h.replaceLease ⟨hp, hk, hget⟩ (some (leaseUntil now))
    rw [map_cons, nodup_cons] at hnodup
    have hrest : ∀ c ∈ rest, Candidate accepted c ∧ (s.replaceIntent (p.1.intentAt k lease)
        (some (p.1.intentAt k (some (leaseUntil now))))).Current c := by
      intro c hc
      obtain ⟨hcandidate, hcurrent⟩ := hcandidates c (mem_cons_of_mem _ hc)
      refine ⟨hcandidate, ?_⟩
      rw [Current, get_replaceIntent, if_neg]
      · exact hcurrent
      · intro heq
        exact hnodup.1 (heq ▸ mem_map_of_mem hc)
    obtain ⟨hready', hforward⟩ := ih hready hrest hnodup.2
    refine ⟨hready', (forward_replaceIntent hget ?_).trans hforward⟩
    intro intent heq
    rw [← Option.some.inj heq]
    exact le_rfl

theorem lookup_zip_chunks (generation : ℕ) (chunks : List (List Subscription)) (key : ℕ × ℕ) :
    OrderedMap.lookup (((List.range chunks.length).map fun i => (generation, i)).zip
        chunks).reverse key
      = if key.1 = generation then chunks[key.2]? else none := by
  induction chunks using reverseRecOn with
  | nil => simp
  | append_singleton chunks chunk ih =>
    rw [length_append, length_singleton, range_succ, map_append,
      zip_append (by simp), reverse_append, OrderedMap.lookup_append, ih]
    have hlast : OrderedMap.lookup [((generation, chunks.length), chunk)] key
        = if (generation, chunks.length) = key then some chunk else none :=
      OrderedMap.lookup_cons _ _ _
    refine (congrArg (fun o : Option _ => o.or _) hlast).trans ?_
    split_ifs with hkey hgeneration hgeneration
    · rw [← hkey]
      simp
    · exact absurd (congrArg Prod.fst hkey).symm hgeneration
    · have hne : key.2 ≠ chunks.length := fun heq => hkey (Prod.ext hgeneration.symm heq.symm)
      rw [Option.none_or]
      rcases Nat.lt_or_gt_of_ne hne with hlt | hgt
      · rw [getElem?_append_left hlt]
      · rw [getElem?_eq_none (by omega),
          getElem?_eq_none (by rw [length_append, length_singleton]; omega)]
    · rfl

variable (h : s.Ready accepted created)

include h

/-- **A claim never fails**, and what it returns are publications at their chunks, with a lease. -/
theorem Ready.claimPublishChunks (now : ℤ) (limit rows : ℕ) :
    ∃ s' claims, s.claimPublishChunks now limit rows = .ok (s', claims) ∧
      s'.Ready accepted created ∧ s.Forward s' ∧
      ∀ c ∈ claims, Candidate accepted c ∧ c.intent.leaseExpiresAt ≠ none := by
  set keys := (s.scanDue now).take (min rows (min claimBatchSize limit)) with hkeys
  have hscan : ∀ key ∈ keys, key ∈ s.due.entries.map Prod.fst ∧ key.1 ≤ now := by
    intro key hkey
    have hmem := mem_mergeSort.mp (mem_of_mem_take hkey)
    exact ⟨mem_of_mem_filter hmem, of_decide_eq_true (mem_filter.mp hmem).2⟩
  have hnodup : keys.Nodup :=
    ((mergeSort_perm _ _).nodup_iff.mpr (s.due.nodup.filter _)).sublist (take_sublist _ _)
  obtain ⟨candidates, hcandidates⟩ := exists_forall₂ fun key hkey => h.readDue (hscan key hkey).1
  have hread : keys.mapM s.readDue = .ok candidates :=
    Except.mapM_eq_ok.mpr (hcandidates.imp fun _ _ hc => hc.1)
  have hlength : candidates.length ≤ min claimBatchSize limit := by
    rw [← hcandidates.length_eq, hkeys, length_take]
    omega
  have hall : ∀ c ∈ candidates, Candidate accepted c ∧ s.Current c ∧
      c.intent.dueKey.1 ≤ now := by
    intro c hc
    obtain ⟨key, hkey, -, hcandidate, hcurrent, hdue⟩ :=
      exists_of_mem_forall₂ hcandidates.flip hc
    exact ⟨hcandidate, hcurrent, hdue ▸ (hscan key hkey).2⟩
  -- A message has one intent, and an intent has one key.
  have hids : (candidates.map fun c => c.intent.acceptance.messageId).Nodup := by
    have hdue : candidates.map (fun c => c.intent.dueKey) = keys := by
      rw [← forall₂_eq_eq_eq, forall₂_map_left_iff]
      exact (hcandidates.imp fun _ _ hc => hc.2.2.2).flip
    refine (List.Nodup.of_map _ (hdue ▸ hnodup)).map_on fun a ha b hb heq => ?_
    have hintent : a.intent = b.intent := by
      have hboth := (hall a ha).2.1
      rw [Current, heq, (hall b hb).2.1] at hboth
      exact (Option.some.inj hboth).symm
    exact inj_on_of_nodup_map (hdue ▸ hnodup) ha hb (congrArg PublishIntent.dueKey hintent)
  have hclaims : candidates.mapM (PublicationStore.claimCandidate now)
      = .ok (candidates.map (claimed now)) := by
    rw [Except.mapM_eq_ok, forall₂_map_right_iff, forall₂_same]
    exact fun c hc => h.claimCandidate (hall c hc).1 (hall c hc).2.2
  obtain ⟨hready, hforward⟩ := Ready.foldl_claimed now candidates h
    (fun c hc => ⟨(hall c hc).1, (hall c hc).2.1⟩) hids
  refine ⟨_, (candidates.map (claimed now)).map Prod.snd, ?_, hready, hforward, ?_⟩
  · rw [PublicationStore.claimPublishChunks, hread]
    change (if _ then _ else _) = _
    rw [if_neg (not_lt.mpr hlength)]
    rw [hclaims]
    rfl
  · intro c hc
    obtain ⟨entry, hentry, rfl⟩ := mem_map.mp hc
    obtain ⟨c, hmemc, rfl⟩ := mem_map.mp hentry
    obtain ⟨p, hp, k, lease, hk, rfl⟩ := (hall c hmemc).1
    exact ⟨⟨p, hp, k, _, hk, rfl⟩, Option.some_ne_none _⟩

/-! ### Materialisation -/

/-- A settled chunk is behind its publication. -/
theorem Ready.settle_cases (hcandidate : Candidate accepted candidate)
    (hcurrent : s.Current candidate) :
    ∃ next s', candidate.intent.nextIntent = .ok next ∧
      s.settle candidate.intent
        (candidate.intent.acceptance.deliveryRecords candidate.subscriptions) next = .ok s' ∧
      s'.Ready accepted
        (created ++ candidate.intent.acceptance.deliveryRecords candidate.subscriptions) ∧
      s.Forward s' ∧ ∀ intent, s'.intents.get candidate.intent.acceptance.messageId = some intent →
        candidate.intent.nextChunk < intent.nextChunk := by
  obtain ⟨p, hp, k, lease, hk, rfl⟩ := hcandidate
  obtain ⟨s', hsettle, hready⟩ := h.settle ⟨hp, hk, hcurrent⟩
  have hafter : ∀ intent, p.1.after k = some intent → k < intent.nextChunk := by
    intro intent heq
    rw [AcceptedPublication.after] at heq
    split_ifs at heq
    rw [← Option.some.inj heq]
    exact Nat.lt_succ_self k
  have hintents := settle_intents hsettle
  refine ⟨p.1.after k, s', nextIntent_intentAt (h.accepts p hp).1 hk, hsettle, hready, ?_, ?_⟩
  · have hforward := forward_replaceIntent hcurrent fun intent heq => (hafter intent heq).le
    rwa [Forward, ← hintents] at hforward
  · intro intent hget
    rw [hintents, get_replaceIntent, if_pos rfl] at hget
    exact hafter intent hget

/-- The commit that is made of a claim passes its checks. -/
theorem Ready.validateCommit {claim : PublishCandidate}
    (hclaim : Candidate accepted claim) (hlease : claim.intent.leaseExpiresAt ≠ none)
    {next : Option PublishIntent} (hnext : claim.intent.nextIntent = .ok next) :
    validateCommit claim.intent
      (claim.intent.acceptance.deliveryRecords claim.subscriptions) next = .ok () := by
  have hrecords : (∀ record ∈ claim.intent.acceptance.deliveryRecords claim.subscriptions,
      record.messageId = claim.intent.acceptance.messageId ∧
        (record.subscription.map Subscription.topicArn) = some claim.intent.snapshot.topicArn) ∧
      ((claim.intent.acceptance.deliveryRecords claim.subscriptions).map
        DeliveryRecord.id).Nodup := by
    obtain ⟨p, hp, k, lease, hk, rfl⟩ := hclaim
    refine ⟨fun record hrecord => ?_, nodup_deliveryRecords (h.accepts p hp).1 k⟩
    obtain ⟨sub, hsub, rfl⟩ := mem_map.mp hrecord
    refine ⟨rfl, congrArg some ?_⟩
    exact topicArn_of_mem_chunkAt (h.accepts p hp).1
      (mem_of_mem_filter hsub)
  rw [PublicationStore.validateCommit, if_neg hlease]
  change (claim.intent.nextIntent >>= _) = _
  rw [hnext]
  change (if ¬_ then _ else _) = _
  rw [if_neg (not_not.mpr hrecords)]
  exact if_neg (not_not.mpr rfl)

/-- **A commit succeeds exactly while its claim is the intent that is stored.** -/
theorem Ready.commitPublishChunk {claim : PublishCandidate}
    (hclaim : Candidate accepted claim) (hlease : claim.intent.leaseExpiresAt ≠ none) :
    (s.Current claim → ∃ s', s.commitPublishChunk claim
        = .ok (s', claim.intent.acceptance.deliveryRecords claim.subscriptions) ∧ s'.Ready accepted
        (created ++ claim.intent.acceptance.deliveryRecords claim.subscriptions) ∧
      s.Forward s' ∧ ∀ intent, s'.intents.get claim.intent.acceptance.messageId = some intent →
        claim.intent.nextChunk < intent.nextChunk) ∧
    (¬s.Current claim → s.commitPublishChunk claim = .error claimLost) := by
  obtain ⟨next, hnext⟩ : ∃ next, claim.intent.nextIntent = .ok next := by
    obtain ⟨p, hp, k, lease, hk, rfl⟩ := hclaim
    exact ⟨_, nextIntent_intentAt (h.accepts p hp).1 hk⟩
  set records := claim.intent.acceptance.deliveryRecords claim.subscriptions
  have heq : s.commitPublishChunk claim
      = if s.intents.get claim.intent.acceptance.messageId ≠ some claim.intent then .error claimLost
        else s.settle claim.intent records next >>= fun s' => pure (s', records) := by
    rw [PublicationStore.commitPublishChunk, hnext]
    change (PublicationStore.validateCommit _ _ next >>= _) = _
    rw [h.validateCommit hclaim hlease hnext]
    change (s.readIntent _ >>= _) = _
    rw [h.readIntent]
    rfl
  refine ⟨fun hcurrent => ?_, fun hlost => heq.trans (if_pos hlost)⟩
  obtain ⟨next', s', hnext', hsettle, hafter⟩ := h.settle_cases hclaim hcurrent
  obtain rfl : next = next' := Except.ok.inj (hnext.symm.trans hnext')
  refine ⟨s', heq.trans ((if_neg (not_not.mpr hcurrent)).trans ?_), hafter⟩
  rw [hsettle]
  rfl

/-- **A chunk that is prepared is applied.** The only error is that of another topic. -/
theorem Ready.preparePublishChunk (messageId : Text) (position : ℕ × ℕ) (topicArn : Text) :
    s.preparePublishChunk messageId position topicArn = .ok none ∨
    (∃ p ∈ accepted, p.1.messageId = messageId ∧ p.1.root.topicArn ≠ topicArn ∧
      s.preparePublishChunk messageId position topicArn
        = .error (.internal (text "selected publication belongs to another topic"))) ∨
    ∃ s' records, s.preparePublishChunk messageId position topicArn = .ok (some (s', records)) ∧
      s'.Ready accepted (created ++ records) ∧ s.Forward s' ∧
      (∃ p ∈ accepted, p.1.messageId = messageId) ∧
      ∀ intent, s'.intents.get messageId = some intent → position.2 < intent.nextChunk := by
  cases hget : s.intents.get messageId with
  | none =>
    left
    rw [PublicationStore.preparePublishChunk, h.readIntent, hget]
    rfl
  | some intent =>
    obtain ⟨p, hp, rfl, k, lease, hk, rfl⟩ := h.intents messageId intent hget
    have hcandidate : Candidate accepted ⟨p.1.intentAt k lease, p.1.chunkAt k⟩ :=
      ⟨p, hp, k, lease, hk, rfl⟩
    obtain ⟨next, s', hnext, hsettle, hready, hforward, hbehind⟩ :=
      h.settle_cases hcandidate hget
    have heq : s.preparePublishChunk p.1.messageId position topicArn
        = if p.1.root.topicArn ≠ topicArn then
            .error (.internal (text "selected publication belongs to another topic"))
          else if (p.1.root.generation, k) ≠ position ∨ lease.isSome then .ok none
          else .ok (some (s', p.1.intent.acceptance.deliveryRecords (p.1.chunkAt k))) := by
      rw [PublicationStore.preparePublishChunk, h.readIntent, hget]
      change (s.readChunk _ >>= _) = _
      rw [h.readChunk ⟨hp, hk, hget⟩]
      change (PublishCandidate.validate _ >>= _) = _
      rw [validate_candidate (h.accepts p hp).1 hk]
      refine if_congr Iff.rfl rfl (if_congr Iff.rfl rfl ?_)
      rw [hnext]
      change (s.settle _ _ _ >>= _) = _
      rw [hsettle]
      rfl
    rw [heq]
    split_ifs with htopic hmoved
    · exact .inr (.inl ⟨p, hp, rfl, htopic, rfl⟩)
    · exact .inl rfl
    · refine .inr (.inr ⟨s', _, rfl, hready, hforward, ⟨p, hp, rfl⟩, ?_⟩)
      rw [← not_not.mp fun hne => hmoved (.inl hne)]
      exact hbehind

/-! ### Acceptance -/

/-- **An accepted publication starts at its first chunk**, and touches no other. -/
theorem Ready.writePublication {p : AcceptedPublication × SubscriptionTable}
    (hp : p.1.Accepts p.2 p.1.intent.acceptance) (hid : MessageIdText p.1.messageId)
    (hfresh : ∀ q ∈ accepted, q.1.messageId ≠ p.1.messageId)
    (hgeneration : ∀ q ∈ accepted, q.1.root.generation ≠ p.1.root.generation) :
    ∃ s', s.writePublication p.1 = .ok s' ∧ s'.Ready (p :: accepted) created ∧
      ∀ id ≠ p.1.messageId, s'.intents.get id = s.intents.get id := by
  have hintent : p.1.intent = p.1.intentAt 0 none := hp.intent
  have hzero : p.1.HasChunk 0 := by
    rcases Nat.eq_zero_or_pos p.1.chunks.length with hnil | hpos
    · exact .inr ⟨length_eq_zero_iff.mp hnil, rfl⟩
    · exact .inl hpos
  have hnone : s.intents.get p.1.messageId = none := by
    rw [Option.eq_none_iff_forall_ne_some]
    intro intent hget
    obtain ⟨q, hq, heq, -⟩ := h.intents _ intent hget
    exact hfresh q hq heq
  have hchunk : ∀ i, s.chunks.get (p.1.root.generation, i) = none := by
    intro i
    rw [Option.eq_none_iff_forall_ne_some]
    intro chunk hget
    obtain ⟨q, hq, heq⟩ := h.known _ (Option.isSome_of_eq_some hget)
    exact hgeneration q hq heq
  set keys := (range p.1.chunks.length).map fun i => (p.1.root.generation, i) with hkeys
  have hget : ∀ id, (s.intents.insert p.1.messageId p.1.intent).get id
      = if id = p.1.messageId then some p.1.intent else s.intents.get id := fun id =>
    OrderedMap.get_insert _ _ _ _
  have hchunks : ∀ key, (s.chunks.insertAll (keys.zip p.1.chunks)).get key
      = if key.1 = p.1.root.generation then p.1.chunks[key.2]? else s.chunks.get key := by
    intro key
    rw [OrderedMap.get_insertAll, lookup_zip_chunks]
    split_ifs with heq
    · rw [show key = (p.1.root.generation, key.2) from Prod.ext heq rfl, hchunk, Option.or_none]
    · rfl
  refine ⟨{ s with
    chunks := s.chunks.insertAll (keys.zip p.1.chunks)
    due := SecondaryIndex.reindex PublishIntent.dueEntry p.1.intent s.due
    intents := s.intents.insert p.1.messageId p.1.intent }, if_neg ?_, ?_, fun id hne =>
    (hget id).trans (if_neg hne)⟩
  · intro hany
    obtain ⟨key, hkey, hsome⟩ := any_eq_true.mp hany
    obtain ⟨i, -, rfl⟩ := mem_map.mp hkey
    rw [hchunk i] at hsome
    cases hsome
  have hprogress : ∀ q : AcceptedPublication, q.messageId ≠ p.1.messageId →
      (s.intents.insert p.1.messageId p.1.intent).get q.messageId
        = s.intents.get q.messageId := fun q hne => (hget _).trans (if_neg hne)
  exact {
    accepts := forall_mem_cons.mpr ⟨⟨hp, hid⟩, h.accepts⟩
    ids := nodup_cons.mpr ⟨fun hmem => by
      obtain ⟨q, hq, heq⟩ := mem_map.mp hmem
      exact hfresh q hq heq, h.ids⟩
    generations := nodup_cons.mpr ⟨fun hmem => by
      obtain ⟨q, hq, heq⟩ := mem_map.mp hmem
      exact hgeneration q hq heq, h.generations⟩
    intents := fun id intent hid => by
      rw [hget] at hid
      split_ifs at hid with heq
      · exact ⟨p, mem_cons_self, heq.symm, 0, none, hzero, (Option.some.inj hid).symm.trans hintent⟩
      · obtain ⟨q, hq, hrest⟩ := h.intents id intent hid
        exact ⟨q, mem_cons_of_mem _ hq, hrest⟩
    due := h.due.put hnone fun key value hentry => by
      rw [Option.eq_none_iff_forall_ne_some]
      intro value' hdue
      obtain ⟨id, intent, hstored, hkey⟩ := (h.due key value').mp hdue
      rw [h.locate id intent key value' hstored hkey,
        ← (Prod.mk.inj (Option.some.inj hentry)).1] at hstored
      exact absurd (hnone.symm.trans hstored) (by simp)
    chunks := forall_mem_cons.mpr ⟨fun i => by
      rw [hchunks, if_pos rfl, hget, if_pos rfl]
      rfl, fun q hq i => by
      rw [hchunks, if_neg (hgeneration q hq), hprogress q.1 (hfresh q hq)]
      exact h.chunks q hq i⟩
    known := fun key hkey => by
      rw [hchunks] at hkey
      split_ifs at hkey with heq
      · exact ⟨p, mem_cons_self, heq.symm⟩
      · obtain ⟨q, hq, hrest⟩ := h.known key hkey
        exact ⟨q, mem_cons_of_mem _ hq, hrest⟩
    records := forall_mem_cons.mpr ⟨by
      rw [progress, hget, if_pos rfl, hintent, filter_eq_nil_iff.mpr]
      · rfl
      · intro r hr heq
        obtain ⟨q, hq, sub, rfl⟩ := h.origin r hr
        exact hfresh q hq (of_decide_eq_true heq), fun q hq => by
      rw [h.records q hq, progress, progress, hprogress q.1 (hfresh q hq)]⟩
    origin := fun r hr => by
      obtain ⟨q, hq, hrest⟩ := h.origin r hr
      exact ⟨q, mem_cons_of_mem _ hq, hrest⟩
    deliveries := h.deliveries
    stored := h.stored }

/-- A confirmation of a subscription is no record of a publication. -/
theorem Ready.writeConfirmation {record : DeliveryRecord} {t : Text}
    (hrecord : record.id = t ++ text ":confirmation") {s' : PublicationStore}
    (hwrite : s.writeDeliveryRecords [record] = .ok s') :
    s'.Ready accepted created ∧ s'.intents = s.intents := by
  rw [writeDeliveryRecords] at hwrite
  split_ifs at hwrite with hany
  cases hwrite
  have hnone : s.deliveries.get record.id = none := by
    simpa using hany
  have hget : ∀ id, ((s.deliveries.insertAll [(record.id, record)]).get id)
      = if id = record.id then some record else s.deliveries.get id := fun id =>
    OrderedMap.get_insert _ _ _ _
  refine ⟨{ h with
    deliveries := fun id hid => ?_
    stored := fun r hr => ?_ }, rfl⟩
  · change (OrderedMap.get (s.deliveries.insertAll [(record.id, record)]) id).isSome = true at hid
    rw [hget] at hid
    split_ifs at hid with heq
    · exact .inr ⟨t, heq.trans hrecord⟩
    · exact h.deliveries id hid
  · refine (hget r.id).trans ((if_neg fun heq => ?_).trans (h.stored r hr))
    rw [← heq, h.stored r hr] at hnone
    cases hnone

end

end PublicationStore

/-! ### Runs -/

/-- A store, with what has happened to it: the publications that were accepted, each with the
subscriptions of its topic at that time, the claims that were handed out, the records that were
created, and the chunks that were materialised. -/
structure World where
  store : PublicationStore
  accepted : List (AcceptedPublication × SubscriptionTable)
  claims : List PublishCandidate
  created : List DeliveryRecord
  settled : List (Text × ℕ)

namespace World

open AcceptedPublication PublicationStore

/-- Nothing has happened yet. -/
def initial : World := ⟨⟨.empty, .empty, .empty, .empty⟩, [], [], [], []⟩

/-- **One attempt.** A publication is accepted under a fresh identifier and generation, chunks are
claimed, a claim is committed however late, a chunk is materialised without a claim, or a change of
subscriptions leaves a confirmation to deliver. An attempt that fails changes nothing. -/
inductive Step (w : World) : World → Prop
  | accept {table : SubscriptionTable} (pages : SubscriptionPages table) (topicArn : Text)
      (acceptance : PublishAcceptanceInput) (publication : AcceptedPublication)
      (s' : PublicationStore)
      (hprepare : preparePublish topicArn pages acceptance = .ok publication)
      (hid : MessageIdText acceptance.messageId)
      (hfresh : ∀ p ∈ w.accepted, p.1.messageId ≠ acceptance.messageId)
      (hgeneration : ∀ p ∈ w.accepted, p.1.root.generation ≠ acceptance.snapshotGeneration)
      (hwrite : w.store.writePublication publication = .ok s') :
      Step w { w with store := s', accepted := (publication, table) :: w.accepted }
  | claim (now : ℤ) (limit rows : ℕ) (s' : PublicationStore) (claims : List PublishCandidate)
      (hclaim : w.store.claimPublishChunks now limit rows = .ok (s', claims)) :
      Step w { w with store := s', claims := w.claims ++ claims }
  | commit (claim : PublishCandidate) (hmem : claim ∈ w.claims) (s' : PublicationStore)
      (records : List DeliveryRecord)
      (hcommit : w.store.commitPublishChunk claim = .ok (s', records)) :
      Step w { w with
        store := s'
        created := w.created ++ records
        settled := (claim.intent.acceptance.messageId, claim.intent.nextChunk) :: w.settled }
  | materialise (messageId : Text) (position : ℕ × ℕ) (topicArn : Text) (s' : PublicationStore)
      (records : List DeliveryRecord) (hprepare :
        w.store.preparePublishChunk messageId position topicArn = .ok (some (s', records))) :
      Step w { w with
        store := s'
        created := w.created ++ records
        settled := (messageId, position.2) :: w.settled }
  | subscribe (record : DeliveryRecord) (t : Text) (hid : record.id = t ++ text ":confirmation")
      (s' : PublicationStore) (hwrite : w.store.writeDeliveryRecords [record] = .ok s') :
      Step w { w with store := s' }

/-- The worlds that attempts lead to. -/
inductive Reachable : World → Prop
  | initial : Reachable initial
  | step {w w' : World} (h : Reachable w) (hstep : w.Step w') : Reachable w'

/-- **What every run keeps**: the state of the store; a claim is a publication at a chunk, with a
lease; and a chunk that was materialised is behind its publication for ever. -/
structure Good (w : World) : Prop where
  ready : w.store.Ready w.accepted w.created
  claims : ∀ c ∈ w.claims, Candidate w.accepted c ∧ c.intent.leaseExpiresAt ≠ none
  settled : ∀ entry ∈ w.settled, (∃ p ∈ w.accepted, p.1.messageId = entry.1) ∧
    ∀ intent, w.store.intents.get entry.1 = some intent → entry.2 < intent.nextChunk

theorem Good.initial : initial.Good :=
  ⟨⟨(fun _ h => nomatch h), nodup_nil, nodup_nil, (fun _ _ h => nomatch h),
    (fun _ _ => ⟨fun h => (nomatch h), fun ⟨_, _, h, _⟩ => nomatch h⟩), (fun _ h => nomatch h),
    (fun _ h => nomatch h), (fun _ h => nomatch h), (fun _ h => nomatch h),
    (fun _ h => nomatch h), (fun _ h => nomatch h)⟩, (fun _ h => nomatch h), (fun _ h => nomatch h)⟩

theorem Good.settled_forward {w : World} (h : w.Good) {s' : PublicationStore}
    (hforward : w.store.Forward s') : ∀ entry ∈ w.settled,
      (∃ p ∈ w.accepted, p.1.messageId = entry.1) ∧
        ∀ intent, s'.intents.get entry.1 = some intent → entry.2 < intent.nextChunk := by
  intro entry hentry
  refine ⟨(h.settled entry hentry).1, fun intent hget => ?_⟩
  obtain ⟨intent₀, hget₀, hle⟩ := hforward entry.1 intent hget
  exact ((h.settled entry hentry).2 intent₀ hget₀).trans_le hle

theorem Good.step {w w' : World} (h : w.Good) (hstep : w.Step w') : w'.Good := by
  cases hstep with
  | @accept table pages topicArn acceptance publication s' hprepare hid hfresh hgeneration hwrite =>
    have haccepts := preparePublish_eq_ok hprepare
    have hacceptance : publication.intent.acceptance = acceptance := by
      rw [haccepts.intent]
    have hmessage : publication.messageId = acceptance.messageId :=
      congrArg PublishAcceptanceInput.messageId hacceptance
    obtain ⟨s₀, hs₀, hready, hother⟩ := h.ready.writePublication (p := (publication, table))
      (hacceptance.symm ▸ haccepts) (hmessage.symm ▸ hid) (hmessage.symm ▸ hfresh)
      (haccepts.generation.symm ▸ hgeneration)
    cases hs₀.symm.trans hwrite
    refine ⟨hready, fun c hc => ?_, fun entry hentry => ?_⟩
    · obtain ⟨⟨p, hp, hrest⟩, hlease⟩ := h.claims c hc
      exact ⟨⟨p, mem_cons_of_mem _ hp, hrest⟩, hlease⟩
    · obtain ⟨⟨p, hp, heq⟩, hbehind⟩ := h.settled entry hentry
      refine ⟨⟨p, mem_cons_of_mem _ hp, heq⟩, fun intent hget => hbehind intent ?_⟩
      rwa [hother entry.1 (heq ▸ hmessage.symm ▸ hfresh p hp)] at hget
  | claim now limit rows s' claims hclaim =>
    obtain ⟨s₀, claims₀, hs₀, hready, hforward, hclaims⟩ :=
      h.ready.claimPublishChunks now limit rows
    obtain ⟨rfl, rfl⟩ := Prod.mk.inj (Except.ok.inj (hs₀.symm.trans hclaim))
    exact ⟨hready, forall_mem_append.mpr ⟨h.claims, hclaims⟩, h.settled_forward hforward⟩
  | commit claim hmem s' records hcommit =>
    obtain ⟨hcandidate, hlease⟩ := h.claims claim hmem
    obtain ⟨hok, hlost⟩ := h.ready.commitPublishChunk hcandidate hlease
    by_cases hcurrent : w.store.Current claim
    · obtain ⟨s₀, hs₀, hready, hforward, hbehind⟩ := hok hcurrent
      obtain ⟨rfl, rfl⟩ := Prod.mk.inj (Except.ok.inj (hs₀.symm.trans hcommit))
      refine ⟨hready, h.claims, forall_mem_cons.mpr
        ⟨⟨?_, hbehind⟩, h.settled_forward hforward⟩⟩
      obtain ⟨p, hp, k, lease, -, rfl⟩ := hcandidate
      exact ⟨p, hp, rfl⟩
    · rw [hlost hcurrent] at hcommit
      cases hcommit
  | materialise messageId position topicArn s' records hprepare =>
    rcases h.ready.preparePublishChunk messageId position topicArn with
      hnone | ⟨p, -, -, -, herror⟩ | ⟨s₀, records₀, hs₀, hready, hforward, hknown, hbehind⟩
    · exact absurd (hnone.symm.trans hprepare) (by simp)
    · rw [herror] at hprepare
      cases hprepare
    · obtain ⟨rfl, rfl⟩ := Prod.mk.inj
        (Option.some.inj (Except.ok.inj (hs₀.symm.trans hprepare)))
      exact ⟨hready, h.claims, forall_mem_cons.mpr
        ⟨⟨hknown, hbehind⟩, h.settled_forward hforward⟩⟩
  | subscribe record t hid s' hwrite =>
    obtain ⟨hready, hintents⟩ := h.ready.writeConfirmation hid hwrite
    refine ⟨hready, h.claims, h.settled_forward ?_⟩
    rw [Forward, hintents]
    exact Forward.refl _

/-- **Every run keeps the state of the store.** -/
theorem Reachable.good {w : World} (h : w.Reachable) : w.Good := by
  induction h with
  | initial => exact Good.initial
  | step _ hstep ih => exact ih.step hstep

/-- **Every confirmed subscription gets one record.** No claim fails, and a chunk is refused only to
a claim that was lost, as every claim is once its chunk was materialised. The records of a message
are for different subscriptions, all confirmed when it was accepted. When its intent is gone they
are all there, and its chunks are not. -/
theorem Reachable.fanout_exactlyOnce {w : World} (h : w.Reachable) :
    (∀ now limit rows, ∃ result, w.store.claimPublishChunks now limit rows = .ok result) ∧
    (∀ messageId position topicArn,
      (∀ p ∈ w.accepted, p.1.messageId = messageId → p.1.root.topicArn = topicArn) →
      ∃ result, w.store.preparePublishChunk messageId position topicArn = .ok result) ∧
    (∀ claim ∈ w.claims,
      (w.store.Current claim → ∃ result, w.store.commitPublishChunk claim = .ok result) ∧
      (¬w.store.Current claim → w.store.commitPublishChunk claim = .error claimLost) ∧
      ((claim.intent.acceptance.messageId, claim.intent.nextChunk) ∈ w.settled →
        w.store.commitPublishChunk claim = .error claimLost)) ∧
    (∀ r ∈ w.created, w.store.deliveries.get r.id = some r) ∧
    ∀ p ∈ w.accepted,
      ((w.created.filter fun r => r.messageId = p.1.messageId).map
        DeliveryRecord.subscriptionArn).Nodup ∧
      (∀ r ∈ w.created, r.messageId = p.1.messageId → ∃ subscription ∈ p.2.rows,
        subscription.confirmation = .confirmed ∧
          r = p.1.intent.acceptance.notification subscription) ∧
      (w.store.intents.get p.1.messageId = none →
        (∀ subscription ∈ p.2.rows, subscription.confirmation = .confirmed →
          p.1.intent.acceptance.notification subscription ∈ w.created) ∧
        ∀ i, w.store.chunks.get (p.1.root.generation, i) = none) := by
  obtain ⟨hready, hclaims, hsettled⟩ := h.good
  refine ⟨fun now limit rows => ?_, fun messageId position topicArn htopic => ?_,
    fun claim hclaim => ?_, hready.stored, fun p hp => ⟨?_, fun r hr hid => ?_, fun hgone => ?_⟩⟩
  · obtain ⟨s', claims, hok, -⟩ := hready.claimPublishChunks now limit rows
    exact ⟨_, hok⟩
  · rcases hready.preparePublishChunk messageId position topicArn with
      hnone | ⟨p, hp, hid, hne, -⟩ | ⟨s', records, hok, -⟩
    · exact ⟨_, hnone⟩
    · exact absurd (htopic p hp hid) hne
    · exact ⟨_, hok⟩
  · obtain ⟨hcandidate, hlease⟩ := hclaims claim hclaim
    obtain ⟨hok, hlost⟩ := hready.commitPublishChunk hcandidate hlease
    refine ⟨fun hcurrent => ?_, hlost, fun hmem => hlost fun hcurrent => ?_⟩
    · obtain ⟨s', hcommit, -⟩ := hok hcurrent
      exact ⟨_, hcommit⟩
    · exact lt_irrefl _ ((hsettled _ hmem).2 claim.intent hcurrent)
  · rw [hready.records p hp]
    exact nodup_delivered (hready.accepts p hp).1 _
  · have hmem : r ∈ w.created.filter fun r => r.messageId = p.1.messageId :=
      mem_filter.mpr ⟨hr, decide_eq_true hid⟩
    rw [hready.records p hp] at hmem
    exact of_mem_delivered (hready.accepts p hp).1 hmem
  · constructor
    · intro subscription hsub hconfirmed
      have hrecords := hready.records p hp
      rw [progress, hgone] at hrecords
      have hmem := mem_delivered (hready.accepts p hp).1 hsub hconfirmed
      have hfilter : p.1.intent.acceptance.notification subscription
          ∈ w.created.filter fun r => r.messageId = p.1.messageId := by
        rw [hrecords]
        exact hmem
      exact mem_of_mem_filter hfilter
    · intro i
      rw [hready.chunks p hp i, hgone]
      rfl

/-! ### A publication in two chunks -/

/-- Pages of a table that is read at once: all rows behind the cursor. -/
def wholePages (table : SubscriptionTable) (hsize : table.rows.length ≤ pageLimit) :
    SubscriptionPages table where
  read cursor := ⟨table.rows.filter fun row =>
    cursor.all fun cursor => compareUtf8 cursor row.subscriptionArn = .lt, false⟩
  truthful before after h := by
    have hlength : after.length ≤ pageLimit := by
      rw [h, length_append] at hsize
      omega
    refine ⟨pageLimit + 1, fun _ => Nat.succ_pos _, le_rfl, ?_⟩
    rw [take_of_length_le (by omega), decide_eq_false (by omega), h, filter_append]
    have hascending := table.ascending
    rw [h, pairwise_append] at hascending
    obtain ⟨hbefore, -, hcross⟩ := hascending
    congr 1
    rcases before.eq_nil_or_concat with rfl | ⟨first, last, rfl⟩
    · simp
    · -- the rows before the cursor are not behind it
      rw [concat_eq_append, pairwise_append] at hbefore
      have hnone : (first.concat last).filter (fun row => decide
          (compareUtf8 last.subscriptionArn row.subscriptionArn = .lt)) = [] := by
        refine filter_eq_nil_iff.mpr fun row hrow hlt => ?_
        have hlt := of_decide_eq_true hlt
        rw [concat_eq_append, mem_append, mem_singleton] at hrow
        rcases hrow with hrow | rfl
        · have hbehind := hbefore.2.2 row hrow last (mem_singleton_self _)
          rw [compareUtf8, ← Std.OrientedCmp.gt_iff_lt] at hbehind
          rw [compareUtf8, hbehind] at hlt
          cases hlt
        · rw [compareUtf8_self] at hlt
          cases hlt
      have hall : after.filter (fun row => decide
          (compareUtf8 last.subscriptionArn row.subscriptionArn = .lt)) = after :=
        filter_eq_self.mpr fun row hrow => decide_eq_true
          (hcross last (by simp) row hrow)
      simp only [concat_eq_append, getLast?_concat, Option.map_some, Option.all_some] at hnone ⊢
      rw [hnone, hall, nil_append]

/-- A subscription of a topic with eleven of them; the third one is pending. -/
def sampleSubscription (c : Char) : Subscription :=
  ⟨['s', c], ['t'], .queue, if c = 'c' then .pending ['x'] else .confirmed⟩

/-- The subscriptions of the first chunk. -/
def sampleChunk : List Subscription :=
  ['a', 'b', 'c', 'd', 'e', 'f', 'g', 'h', 'i', 'j'].map sampleSubscription

def sampleTable : SubscriptionTable where
  rows := sampleChunk ++ [sampleSubscription 'k']
  ascending := by decide

def sampleAcceptance : PublishAcceptanceInput := ⟨⟨['t'], ['h', 'i'], none, []⟩, ['m'], 5, false, 1⟩

def samplePublication : AcceptedPublication where
  root := ⟨['t'], 1, 2⟩
  chunks := [sampleChunk, [sampleSubscription 'k']]
  intent := ⟨sampleAcceptance, ⟨['t'], 1, 2⟩, 0, none⟩

theorem preparePublish_sample :
    preparePublish ['t'] (wholePages sampleTable (by decide)) sampleAcceptance
      = .ok samplePublication := by
  have hsorted : sampleTable.rows.mergeSort (fun a b =>
      compareUtf8 a.subscriptionArn b.subscriptionArn ≠ .gt) = sampleTable.rows :=
    mergeSort_of_pairwise (by decide)
  have hnew : AcceptedPublication.new ['t'] sampleTable.rows sampleAcceptance
      = samplePublication := by
    rw [AcceptedPublication.new, hsorted]
    rfl
  rw [preparePublish, collectSubscriptions_eq]
  change (AcceptedPublication.validate _ >>= _) = _
  rw [hnew]
  rfl

/-- The store with the publication at its first chunk, and with the chunk claimed. -/
def acceptedStore : PublicationStore where
  intents := OrderedMap.empty.insert ['m'] samplePublication.intent
  due := OrderedMap.empty.insert (-2 ^ 63, ['m']) ()
  chunks := OrderedMap.empty.insertAll [((1, 0), sampleChunk), ((1, 1), [sampleSubscription 'k'])]
  deliveries := .empty

/-- The first chunk, claimed at time 0. -/
def sampleClaim : PublishCandidate :=
  ⟨samplePublication.intentAt 0 (some 30000), sampleChunk⟩

def claimedStore : PublicationStore :=
  acceptedStore.replaceIntent samplePublication.intent (some sampleClaim.intent)

/-- The records of the two chunks. -/
def firstRecords : List DeliveryRecord := sampleAcceptance.deliveryRecords sampleChunk

def lastRecords : List DeliveryRecord :=
  sampleAcceptance.deliveryRecords [sampleSubscription 'k']

/-- The store at the second chunk, and when the publication is done. -/
def committedStore : PublicationStore :=
  PublicationStore.replaceIntent
    { claimedStore with
      deliveries := .insertAll .empty (firstRecords.map fun record => (record.id, record)) }
    sampleClaim.intent (some (samplePublication.intentAt 1 none))

def doneStore : PublicationStore :=
  PublicationStore.replaceIntent
    { committedStore with deliveries :=
        committedStore.deliveries.insertAll (lastRecords.map fun record => (record.id, record)) }
    (samplePublication.intentAt 1 none) none

/-- The world after the run. -/
def doneWorld : World where
  store := doneStore
  accepted := [(samplePublication, sampleTable)]
  claims := [sampleClaim]
  created := firstRecords ++ lastRecords
  settled := [(['m'], 1), (['m'], 0)]

theorem claimPublishChunks_sample :
    acceptedStore.claimPublishChunks 0 1 1 = .ok (claimedStore, [sampleClaim]) := by
  have hscan : acceptedStore.scanDue 0 = [(-2 ^ 63, ['m'])] := mergeSort_singleton _
  rw [claimPublishChunks, hscan]
  rfl

/-- A publication is accepted, its first chunk is claimed and committed, and the second one is
materialised without a claim. -/
theorem reachable_doneWorld : doneWorld.Reachable := by
  have hid : MessageIdText sampleAcceptance.messageId := by
    constructor <;> decide
  have haccept := Reachable.initial.step (.accept (wholePages sampleTable (by decide)) ['t']
    sampleAcceptance samplePublication acceptedStore preparePublish_sample hid
    (fun _ h => nomatch h) (fun _ h => nomatch h) rfl)
  have hclaim := haccept.step (.claim 0 1 1 claimedStore [sampleClaim] claimPublishChunks_sample)
  have hcommit := hclaim.step (.commit sampleClaim (mem_singleton_self _) committedStore
    firstRecords rfl)
  exact hcommit.step (.materialise ['m'] (1, 1) ['t'] doneStore lastRecords rfl)

/-- Ten of the eleven subscriptions get a record, the claim cannot be committed again, and the
publication is gone. -/
theorem Reachable.fanout_exactlyOnce_eleven : doneWorld.Reachable ∧
    doneWorld.created.length = 10 ∧ doneStore.intents.get ['m'] = none ∧
    (∀ now limit rows, ∃ result, doneStore.claimPublishChunks now limit rows = .ok result) ∧
    (∀ position, ∃ result, doneStore.preparePublishChunk ['m'] position ['t'] = .ok result) ∧
    doneStore.commitPublishChunk sampleClaim = .error claimLost ∧
    (∀ r ∈ doneWorld.created, doneStore.deliveries.get r.id = some r) ∧
    (doneWorld.created.map DeliveryRecord.subscriptionArn).Nodup ∧
    (∀ r ∈ doneWorld.created, ∃ subscription ∈ sampleTable.rows,
      subscription.confirmation = .confirmed ∧ r = sampleAcceptance.notification subscription) ∧
    (∀ subscription ∈ sampleTable.rows, subscription.confirmation = .confirmed →
      sampleAcceptance.notification subscription ∈ doneWorld.created) ∧
    ∀ i, doneStore.chunks.get (1, i) = none := by
  obtain ⟨hclaim, hprepare, hcommit, hstored, hrecords⟩ := reachable_doneWorld.fanout_exactlyOnce
  obtain ⟨hnodup, horigin, hdone⟩ := hrecords _ (mem_singleton_self _)
  have hgone : doneStore.intents.get ['m'] = none := rfl
  obtain ⟨hall, hchunks⟩ := hdone hgone
  refine ⟨reachable_doneWorld, rfl, hgone, hclaim, fun position => hprepare _ _ _ ?_,
    (hcommit _ (mem_singleton_self _)).2.2 (by decide), hstored, hnodup,
    fun r hr => horigin r hr ?_, hall, hchunks⟩
  · intro p hp _
    obtain rfl := mem_singleton.mp hp
    rfl
  · have hmessage : ∀ r ∈ doneWorld.created, r.messageId = samplePublication.messageId := by
      decide
    exact hmessage r hr

end World

end AuxStorage.Pubsub
