import AuxStorage.Admission.Limit

/-!
# Admission: Slots Are Accounted For

The controller counts its slots in a number; the slots themselves move between queue entries,
grants in channels and permits. The two agree whenever the lock is released: the number is that
of the **holders**, the permits and the grants that were not delivered, and every slot that was
ever granted is either held once or was released once.
-/

namespace AuxStorage.Admission

open List
open Option (bind_eq_some_iff map_eq_some_iff)
open Call (undelivered)

variable {F : Type}

/-- The counters of a controller describe its holders, of the `issued` slots so far. -/
structure Counted (c : ControllerState F) (holders : List Permit) (released : List ℕ)
    (issued : ℕ) : Prop where
  inFlight : c.inFlight = holders.length
  byClass : ∀ cls, c.inFlightByClass cls = holders.countP (·.cls = cls)
  slots : (holders.map Permit.slot ++ released).Perm (List.range issued)

namespace Counted

variable {c c' : ControllerState F} {holders holders' : List Permit} {released : List ℕ}
  {issued : ℕ}

theorem congr (h : Counted c holders released issued) (hflight : c'.inFlight = c.inFlight)
    (hclass : c'.inFlightByClass = c.inFlightByClass) (hperm : holders.Perm holders') :
    Counted c' holders' released issued := by
  refine ⟨hflight.trans (h.inFlight.trans hperm.length_eq), fun cls => ?_, ?_⟩
  · rw [hclass, h.byClass, hperm.countP_eq]
  · exact ((hperm.symm.map _).append_right _).trans h.slots

/-- The classes together hold what is in flight. -/
theorem sum_byClass (h : Counted c holders released issued) :
    (AdmissionClass.all.map c.inFlightByClass).sum = holders.length := by
  have hsum : ∀ holders : List Permit,
      (AdmissionClass.all.map fun cls => holders.countP (·.cls = cls)).sum = holders.length := by
    intro holders
    induction holders with
    | nil => rfl
    | cons permit rest ih =>
      simp only [AdmissionClass.all, map_cons, map_nil, sum_cons, sum_nil,
        countP_cons, length_cons] at ih ⊢
      cases hcls : permit.cls <;> simp <;> omega
  rw [← hsum holders]
  exact congrArg List.sum (map_congr_left fun cls _ => h.byClass cls)

/-- A new slot is counted in: the counters do not saturate below the limit. -/
theorem issue (h : Counted c holders released issued) (hlt : c.inFlight < usizeMax)
    (cls : AdmissionClass) (hflight : c'.inFlight = saturatingAdd c.inFlight 1)
    (hclass : c'.inFlightByClass
      = Function.update c.inFlightByClass cls (saturatingAdd (c.inFlightByClass cls) 1)) :
    Counted c' (⟨issued, cls⟩ :: holders) released (issued + 1) := by
  refine ⟨?_, fun other => ?_, ?_⟩
  · rw [hflight, saturatingAdd_eq hlt, h.inFlight, length_cons]
  · have hle : c.inFlightByClass cls ≤ c.inFlight := by
      rw [h.byClass, h.inFlight]
      exact countP_le_length
    rw [hclass, countP_cons, ← h.byClass other]
    by_cases hother : cls = other
    · subst hother
      rw [Function.update_self, saturatingAdd_eq (by omega)]
      simp
    · rw [Function.update_of_ne (Ne.symm hother)]
      simp [hother]
  · rw [range_succ, map_cons, cons_append]
    exact ((h.slots.cons issued).trans (perm_append_singleton ..).symm)

variable {permit : Permit}

theorem release (h : Counted c (permit :: holders) released issued)
    (hflight : c'.inFlight = c.inFlight - 1)
    (hclass : c'.inFlightByClass
      = Function.update c.inFlightByClass permit.cls (c.inFlightByClass permit.cls - 1)) :
    Counted c' holders (released ++ [permit.slot]) issued := by
  refine ⟨?_, fun other => ?_, ?_⟩
  · rw [hflight, h.inFlight, length_cons, Nat.add_sub_cancel]
  · have hcount := h.byClass other
    rw [countP_cons] at hcount
    rw [hclass]
    by_cases hother : permit.cls = other
    · subst hother
      rw [Function.update_self, hcount]
      simp
    · rw [Function.update_of_ne (Ne.symm hother), hcount]
      simp [hother]
  · refine List.Perm.trans ?_ h.slots
    rw [map_cons, cons_append, ← append_assoc]
    exact perm_append_singleton ..

end Counted

/-! ### Calls -/

variable {channel : ℕ} {f : Call → Option (Option Call)} {calls calls' : List Call}

/-- A replaced call is the first of its channel. -/
theorem replaceCall_eq_some (h : replaceCall channel f calls = some calls') :
    ∃ front call back replaced, calls = front ++ call :: back ∧
      calls.find? (·.channel = channel) = some call ∧ f call = some replaced ∧
      calls' = front ++ (replaced.toList ++ back) := by
  induction calls generalizing calls' with
  | nil => cases h
  | cons call rest ih =>
    rw [replaceCall] at h
    split_ifs at h with hchannel
    · obtain ⟨replaced, hf, rfl⟩ := map_eq_some_iff.1 h
      exact ⟨[], call, rest, replaced, rfl, by simp [hchannel], hf, rfl⟩
    · obtain ⟨rest', hrest, rfl⟩ := map_eq_some_iff.1 h
      obtain ⟨front, found, back, replaced, rfl, hfind, hf, rfl⟩ := ih hrest
      exact ⟨call :: front, found, back, replaced, rfl, by simp [hchannel, hfind], hf, rfl⟩

/-- The undelivered grants after a call was replaced. -/
theorem undelivered_replaceCall (h : replaceCall channel f calls = some calls') :
    ∃ call replaced, calls.find? (·.channel = channel) = some call ∧ f call = some replaced ∧
      ∃ others, (calls.filterMap undelivered).Perm (call.undelivered.toList ++ others) ∧
        (calls'.filterMap undelivered).Perm
          ((replaced.bind undelivered).toList ++ others) := by
  obtain ⟨front, call, back, replaced, rfl, hfind, hf, rfl⟩ := replaceCall_eq_some h
  refine ⟨call, replaced, hfind, hf,
    front.filterMap undelivered ++ back.filterMap undelivered, ?_, ?_⟩
  · rw [filterMap_append, filterMap_cons]
    cases call.undelivered with
    | none => rfl
    | some grant => exact perm_middle
  · rw [filterMap_append, filterMap_append]
    cases replaced with
    | none => rfl
    | some next =>
      cases hnext : next.undelivered with
      | none => simp [hnext]
      | some grant => simp [hnext]

/-- A change that keeps the grant of a call keeps the undelivered grants. -/
theorem undelivered_of_same (h : replaceCall channel f calls = some calls')
    (hsame : ∀ call replaced, f call = some replaced →
      replaced.bind undelivered = call.undelivered) :
    (calls'.filterMap undelivered).Perm (calls.filterMap undelivered) := by
  obtain ⟨call, replaced, -, hf, others, hbefore, hafter⟩ := undelivered_replaceCall h
  rw [hsame call replaced hf] at hafter
  exact hafter.trans hbefore.symm

namespace World

section

/-- A call that drops its receiver keeps its grant. -/
theorem dropReceiver_undelivered {timedOut : Bool} (call : Call) (replaced : Option Call)
    (h : dropReceiver timedOut call = some replaced) :
    replaced.bind undelivered = call.undelivered := by
  unfold dropReceiver at h
  split at h
  · rename_i hphase
    cases h
    cases timedOut <;> simp [undelivered, hphase]
  · rename_i hphase
    cases h
    simp [undelivered, hphase]
  · cases h

/-- A call that starts to leave keeps its grant. -/
theorem startLeaving_undelivered (call : Call) (replaced : Option Call)
    (h : startLeaving call = some replaced) : replaced.bind undelivered = call.undelivered := by
  unfold startLeaving at h
  split at h
  · rename_i hphase
    cases h
    simp [undelivered, hphase]
  · cases h

/-- A call that ends as an orphan or while leaving delivers nothing. -/
theorem endIn_undelivered {phase : CallPhase} (hphase : phase = .orphaned ∨ phase = .leaving)
    (call : Call) (replaced : Option Call) (h : endIn phase call = some replaced) :
    replaced.bind undelivered = call.undelivered := by
  unfold endIn at h
  split_ifs at h with hcall
  cases h
  rcases hphase with rfl | rfl <;> simp [undelivered, hcall]

/-- An orphaned call keeps its grant. -/
theorem undelivered_orphan (channel : ℕ) (calls : List Call) :
    (calls.map (orphan channel)).filterMap undelivered = calls.filterMap undelivered := by
  rw [filterMap_map]
  refine filterMap_congr fun call _ => ?_
  simp only [Function.comp_apply, orphan]
  split_ifs with h
  · simp [undelivered, h.2]
  · rfl

end

/-! ### The invariant -/

/-- The accounting of a world in which the slots `loose` are in nobody's hands, as it is inside a
locked section. -/
structure AccountedWith (config : AdmissionConfig) (loose : List Permit) (w : World F) :
    Prop where
  counted : Counted w.controller (loose ++ w.holders) w.released w.grants.length
  /-- Grants were given below the limit, and to the first in the queue. -/
  grants : ∀ grant ∈ w.grants, grant.inFlight < grant.desiredLimit ∧
    ∀ channel ∈ grant.queued, grant.arrival ≤ channel
  capacity : w.controller.queue.length ≤ config.queueCapacity
  fifo : (w.controller.queue.map Waiter.sender).Pairwise (· < ·)
  arrived : ∀ waiter ∈ w.controller.queue, waiter.sender < w.arrivals

/-- Nobody waits while there are slots. -/
def Full (w : World F) : Prop :=
  w.controller.queue ≠ [] → w.controller.desiredLimit ≤ w.controller.inFlight

/-- The accounting between locked sections. -/
structure Accounted (config : AdmissionConfig) (w : World F) : Prop where
  slots : AccountedWith config [] w
  full : w.Full

namespace AccountedWith

variable {config : AdmissionConfig} {loose loose' : List Permit} {w w' : World F}

section Loose

variable (h : AccountedWith config loose w)

include h

/-- Nothing that the accounting reads has changed, except for who holds what. -/
theorem congr (hflight : w'.controller.inFlight = w.controller.inFlight)
    (hclass : w'.controller.inFlightByClass = w.controller.inFlightByClass)
    (hqueue : w'.controller.queue = w.controller.queue) (harrivals : w'.arrivals = w.arrivals)
    (hgrants : w'.grants = w.grants) (hreleased : w'.released = w.released)
    (hholders : (loose ++ w.holders).Perm (loose' ++ w'.holders)) :
    AccountedWith config loose' w' := by
  refine ⟨?_, hgrants ▸ h.grants, hqueue ▸ h.capacity, hqueue ▸ h.fifo, ?_⟩
  · rw [hgrants, hreleased]
    exact h.counted.congr hflight hclass hholders
  · rw [hqueue, harrivals]
    exact h.arrived

/-- A slot is issued below the limit. -/
theorem issueSlot (hlt : w.controller.inFlight < w.controller.desiredLimit)
    (hmax : w.controller.desiredLimit ≤ usizeMax) (cls : AdmissionClass) {arrival : ℕ}
    {queued : List ℕ} (hfirst : ∀ channel ∈ queued, arrival ≤ channel) :
    AccountedWith config ((w.issueSlot cls arrival queued).2 :: loose)
      (w.issueSlot cls arrival queued).1 := by
  refine ⟨?_, ?_, h.capacity, h.fifo, h.arrived⟩
  · have hcounted : Counted (w.issueSlot cls arrival queued).1.controller
        (⟨w.grants.length, cls⟩ :: (loose ++ w.holders)) w.released (w.grants.length + 1) :=
      h.counted.issue (hlt.trans_le hmax) cls rfl rfl
    simpa [World.issueSlot, holders] using hcounted
  · intro grant hgrant
    rcases mem_append.1 hgrant with hgrant | hgrant
    · exact h.grants grant hgrant
    · rw [mem_singleton.1 hgrant]
      exact ⟨hlt, hfirst⟩

/-- The note of the queue does not change the slots. -/
theorem observeQueue (now : ℕ) : AccountedWith config loose (w.observeQueue now) :=
  h.congr rfl rfl rfl rfl rfl rfl (.refl _)

/-- Another window does not change the slots. -/
theorem setWindow (window : Window) : AccountedWith config loose (w.setWindow window) :=
  h.congr rfl rfl rfl rfl rfl rfl (.refl _)

theorem reject : AccountedWith config loose w.reject :=
  h.congr rfl rfl rfl rfl rfl rfl (.refl _)

variable {rest : List Waiter}

/-- A waiter that leaves the queue holds no slot. -/
theorem pop {waiter : Waiter} (hqueue : w.controller.queue = waiter :: rest) :
    AccountedWith config loose { w with controller := { w.controller with queue := rest } } := by
  refine ⟨⟨h.counted.1, h.counted.2, h.counted.3⟩, h.grants, ?_, ?_, ?_⟩
  · have hlength := h.capacity
    rw [hqueue, length_cons] at hlength
    exact Nat.le_of_succ_le hlength
  · have hfifo := h.fifo
    rw [hqueue] at hfifo
    exact hfifo.of_cons
  · intro other hother
    exact h.arrived other (hqueue ▸ mem_cons_of_mem _ hother)

/-- A waiter that leaves the queue holds no slot. -/
theorem withoutWaiter (waiterId : ℕ) :
    AccountedWith config loose (w.withoutWaiter waiterId) := by
  unfold World.withoutWaiter
  split
  · rename_i waiter _
    have hsub : (w.controller.queue.eraseP (·.id = waiterId)).Sublist w.controller.queue :=
      eraseP_sublist
    refine ⟨?_, h.grants, hsub.length_le.trans h.capacity, h.fifo.sublist (hsub.map _),
      fun other hother => h.arrived other (hsub.subset hother)⟩
    refine h.counted.congr rfl rfl (.of_eq ?_)
    exact congrArg (fun grants => loose ++ (w.permits ++ grants))
      (undelivered_orphan waiter.sender w.calls).symm
  · exact h

end Loose

/-- A released slot is counted back. -/
theorem releaseSlot (h : AccountedWith config (permit :: loose) w) :
    AccountedWith config loose (w.releaseSlot permit) :=
  ⟨h.counted.release rfl rfl, h.grants, h.capacity, h.fifo, h.arrived⟩

/-- A grant that was put into a channel. -/
theorem delivered {grant : Permit} {channel : ℕ} {calls : List Call}
    (h : AccountedWith config [grant] w)
    (hdeliver : replaceCall channel (deliver grant) w.calls = some calls) :
    AccountedWith config [] { w with calls := calls } := by
  obtain ⟨call, replaced, -, hf, others, hbefore, hafter⟩ := undelivered_replaceCall hdeliver
  have hphase : call.undelivered = none ∧ replaced.bind undelivered = some grant := by
    unfold deliver at hf
    split at hf
    · rename_i hwaiting
      cases hf
      exact ⟨by simp [undelivered, hwaiting], rfl⟩
    · cases hf
  rw [hphase.1] at hbefore
  rw [hphase.2] at hafter
  have hcalls : (calls.filterMap undelivered).Perm
      (grant :: w.calls.filterMap undelivered) := hafter.trans (hbefore.symm.cons _)
  refine h.congr rfl rfl rfl rfl rfl rfl (List.Perm.trans ?_ (hcalls.symm.append_left w.permits))
  change (grant :: (w.permits ++ w.calls.filterMap undelivered)).Perm _
  exact perm_middle.symm

/-- A waiter that is granted holds a slot. -/
theorem grantWaiter {waiter : Waiter} (h : AccountedWith config [] w)
    (hqueue : w.controller.queue = waiter :: rest)
    (hlt : w.controller.inFlight < w.controller.desiredLimit)
    (hmax : w.controller.desiredLimit ≤ usizeMax) :
    AccountedWith config [] (w.grantWaiter waiter rest) := by
  have hfirst : ∀ channel ∈ (waiter :: rest).map Waiter.sender, waiter.sender ≤ channel := by
    intro channel hchannel
    have hfifo := h.fifo
    rw [hqueue, map_cons, pairwise_cons] at hfifo
    rcases mem_cons.1 hchannel with rfl | hmem
    · exact le_rfl
    · exact (hfifo.1 channel hmem).le
  have hissued := (h.pop hqueue).issueSlot hlt hmax waiter.cls hfirst
  unfold World.grantWaiter
  dsimp only
  split
  · rename_i calls hdeliver
    exact hissued.delivered hdeliver
  · exact hissued.releaseSlot

/-- **The loop of grants** keeps the account, by induction on the queue. -/
theorem grantLoop {queue : List Waiter} {w : World F} (h : AccountedWith config [] w)
    (hqueue : w.controller.queue = queue) (hmax : w.controller.desiredLimit ≤ usizeMax) :
    Accounted config (World.grantLoop queue w) := by
  induction queue generalizing w with
  | nil => exact ⟨h, fun hne => absurd hqueue hne⟩
  | cons waiter rest ih =>
    rw [World.grantLoop]
    split_ifs with hlt
    · refine ih (h.grantWaiter hqueue hlt hmax) ?_ ?_
      · unfold World.grantWaiter
        dsimp only
        split <;> rfl
      · rw [(sameHistory_grantWaiter w waiter rest).1.desiredLimit]
        exact hmax
    · exact ⟨h, fun _ => not_lt.1 hlt⟩

/-- The grants under the lock keep the account. -/
theorem grantWaitersFromLocked (h : AccountedWith config [] w)
    (hmax : w.controller.desiredLimit ≤ usizeMax) (now : ℕ) :
    Accounted config (w.grantWaitersFromLocked now) := by
  have hgranted := (h.observeQueue now).grantLoop rfl hmax
  exact ⟨hgranted.slots.observeQueue now, hgranted.full⟩

end AccountedWith

namespace Accounted

variable {config : AdmissionConfig} {w w' : World F}

section Grant

variable (h : Accounted config w) (hmax : w.controller.desiredLimit ≤ usizeMax)

include h

theorem reject : Accounted config w.reject :=
  ⟨h.slots.reject, h.full⟩

include hmax

/-- An immediate grant keeps the account. -/
theorem tryGrantLocked {cls : AdmissionClass} (hgrant : w.tryGrantLocked cls = some w') :
    Accounted config w' := by
  unfold World.tryGrantLocked at hgrant
  split_ifs at hgrant with hblocked
  obtain ⟨hlt, hempty⟩ := not_or.1 hblocked
  cases hgrant
  have hqueue : w.controller.queue = [] := not_not.1 hempty
  set queued := w.controller.queue.map Waiter.sender with hqueued
  have hissued : AccountedWith config [(w.issueSlot cls w.arrivals queued).2]
      (w.issueSlot cls w.arrivals queued).1 :=
    h.slots.issueSlot (not_le.1 hlt) hmax cls (by simp [hqueued, hqueue])
  refine ⟨⟨?_, hissued.grants, hissued.capacity, hissued.fifo, ?_⟩, fun hne => absurd hqueue hne⟩
  · exact hissued.counted.congr rfl rfl (by simp [holders, World.issueSlot])
  · intro waiter hwaiter
    change waiter ∈ w.controller.queue at hwaiter
    rw [hqueue] at hwaiter
    cases hwaiter

/-- A call that does not wait keeps the account. -/
theorem tryAcquire (cls : AdmissionClass) : Accounted config (w.tryAcquire cls) := by
  unfold World.tryAcquire
  cases hgrant : w.tryGrantLocked cls with
  | none => exact h.reject
  | some granted => exact h.tryGrantLocked hmax hgrant

/-- A call that joins the queue waits behind all others, and only when there is no slot. -/
theorem acquire (cls : AdmissionClass) (now : ℕ) :
    Accounted config (w.acquire config cls now) := by
  unfold World.acquire
  cases hgrant : w.tryGrantLocked cls with
  | some granted => exact h.tryGrantLocked hmax hgrant
  | none =>
    dsimp only
    split_ifs with hfull
    · exact h.reject
    · have hblocked : w.controller.desiredLimit ≤ w.controller.inFlight := by
        unfold World.tryGrantLocked at hgrant
        split_ifs at hgrant with hblocked
        rcases hblocked with hge | hne
        · exact hge
        · exact h.full hne
      refine ⟨⟨?_, h.slots.grants, ?_, ?_, ?_⟩, fun _ => hblocked⟩
      · refine h.slots.counted.congr rfl rfl ?_
        simp [holders, World.setWindow, World.observeQueue, filterMap_append,
          filterMap_cons, undelivered]
      · change (w.controller.queue ++ [_]).length ≤ config.queueCapacity
        rw [length_append, length_singleton]
        omega
      · change ((w.controller.queue ++ [_]).map Waiter.sender).Pairwise (· < ·)
        rw [map_append, pairwise_append]
        refine ⟨h.slots.fifo, pairwise_singleton .., ?_⟩
        intro channel hchannel last hlast
        obtain ⟨waiter, hwaiter, rfl⟩ := mem_map.1 hchannel
        rw [mem_singleton.1 hlast]
        exact h.slots.arrived waiter hwaiter
      · intro waiter hwaiter
        change waiter ∈ w.controller.queue ++ [_] at hwaiter
        change waiter.sender < w.arrivals + 1
        rcases mem_append.1 hwaiter with hwaiter | hwaiter
        · exact (h.slots.arrived waiter hwaiter).trans (Nat.lt_succ_self _)
        · rw [mem_singleton.1 hwaiter]
          exact Nat.lt_succ_self _

end Grant

/-- A waiter that is removed keeps the account. -/
theorem removeWaiter (h : AccountedWith config [] w)
    (hmax : w.controller.desiredLimit ≤ usizeMax) (waiterId now later : ℕ) :
    Accounted config (w.removeWaiter waiterId now later) := by
  refine (((h.observeQueue now).withoutWaiter waiterId).observeQueue now).grantWaitersFromLocked
    ?_ later
  change ((w.observeQueue now).withoutWaiter waiterId).controller.desiredLimit ≤ usizeMax
  rw [(sameHistory_withoutWaiter _ waiterId).1.desiredLimit]
  exact hmax

/-- A permit that is taken was one of those held. -/
theorem takePermit_eq_some {slot : ℕ} {permits rest : List Permit}
    (h : takePermit slot permits = some (permit, rest)) : permits.Perm (permit :: rest) := by
  induction permits generalizing rest with
  | nil => cases h
  | cons first others ih =>
    rw [takePermit] at h
    split_ifs at h
    · cases h
      exact .refl _
    · obtain ⟨⟨taken, left⟩, htaken, heq⟩ := map_eq_some_iff.1 h
      cases heq
      exact ((ih htaken).cons first).trans (.swap ..)

variable {f : Call → Option (Option Call)} {calls : List Call}

/-- A call that changes its phase without touching its grant. -/
theorem phase (h : Accounted config w) {channel : ℕ}
    (hcalls : replaceCall channel f w.calls = some calls)
    (hsame : ∀ call replaced, f call = some replaced →
      replaced.bind undelivered = call.undelivered) :
    Accounted config { w with calls := calls } :=
  ⟨h.slots.congr rfl rfl rfl rfl rfl rfl
    ((undelivered_of_same hcalls hsame).symm.append_left w.permits), h.full⟩

/-- A delivered grant leaves the calls. -/
theorem undelivered_give {channel : ℕ} {grant : Permit}
    (hgrant : (w.call? channel).bind undelivered = some grant)
    (hcalls : replaceCall channel f w.calls = some calls)
    (hnone : ∀ call replaced, f call = some replaced → replaced.bind undelivered = none) :
    w.holders.Perm (grant :: (w.permits ++ calls.filterMap undelivered)) := by
  obtain ⟨call, replaced, hfind, hf, others, hbefore, hafter⟩ := undelivered_replaceCall hcalls
  rw [hnone call replaced hf] at hafter
  rw [World.call?, hfind, Option.bind_some] at hgrant
  rw [hgrant] at hbefore
  refine (hbefore.append_left w.permits).trans ?_
  exact perm_middle.trans ((hafter.symm.append_left w.permits).cons grant)

/-- A granted call that ends leaves no grant. -/
theorem endGranted_undelivered (call : Call) (replaced : Option Call)
    (h : endGranted call = some replaced) : replaced.bind undelivered = none := by
  unfold endGranted at h
  split at h
  · cases h
    rfl
  · cases h

/-- A forgotten grant is not delivered. -/
theorem forgetGrant_undelivered (call : Call) (replaced : Option Call)
    (h : forgetGrant call = some replaced) : replaced.bind undelivered = none := by
  unfold forgetGrant at h
  split at h
  · rename_i grant timedOut _
    cases h
    cases timedOut <;> rfl
  · cases h

section Events

variable [AdmissionFloat F] (hconfig : config.minimumConcurrency ≤ config.effectiveMaximum)
  (hcontrolled : Controlled config w)

include hconfig

/-- An evaluation does not change the slots. -/
theorem evaluate_slots {loose : List Permit} (h : AccountedWith config loose w) (now : ℕ)
    (closing : Bool) :
    AccountedWith config loose (w.evaluate config now closing) := by
  obtain ⟨next, htransition, heq⟩ := evaluate_eq w now closing hconfig
  rw [heq]
  cases closing <;>
    exact h.congr htransition.slots.inFlight htransition.slots.byClass htransition.slots.queue
      rfl rfl rfl (.refl _)

include hcontrolled

/-- A permit that ends releases its slot, and the next in the queue get what is free. -/
theorem complete (h : AccountedWith config [permit] w) (outcome : AdmissionOutcome)
    (now later : ℕ) :
    Accounted config (w.complete config permit outcome now later) := by
  have hrecorded := (h.releaseSlot.observeQueue now).setWindow
    (recordOutcome ((w.releaseSlot permit).observeQueue now).controller.window permit.cls outcome)
  -- the limit before the grants is that of the controlled world after them
  have hmax := (hcontrolled.complete hconfig permit outcome now later).bounds.le_maximum.trans
    config.effectiveMaximum_le
  unfold World.complete at hmax ⊢
  dsimp only at hmax ⊢
  rw [(sameHistory_grantWaitersFromLocked _ later).1.desiredLimit] at hmax
  refine AccountedWith.grantWaitersFromLocked ?_ hmax later
  split_ifs
  · exact evaluate_slots hconfig hrecorded now true
  · exact evaluate_slots hconfig hrecorded now false
  · exact hrecorded

/-- Reporting an overload does not raise the limit, so nobody is left waiting beside a slot. -/
theorem rejectTimedOut (h : Accounted config w) (now : ℕ) :
    Accounted config (w.rejectTimedOut config now) := by
  refine Accounted.reject ⟨evaluate_slots hconfig (h.slots.setWindow _) now false, ?_⟩
  intro hqueue
  obtain ⟨next, htransition, heq⟩ := evaluate_eq
    (w.setWindow { w.controller.window with queueTimeout := true }) now false hconfig
  rw [heq] at hqueue ⊢
  have hbefore : w.controller.desiredLimit ≤ w.controller.inFlight :=
    h.full (htransition.slots.queue ▸ hqueue)
  refine le_trans ?_ (hbefore.trans htransition.slots.inFlight.ge)
  change next.desiredLimit ≤ w.controller.desiredLimit
  have hpressure : (w.setWindow { w.controller.window with queueTimeout := true }
      ).controller.window.pressure = true := by
    simp [Window.pressure, World.setWindow]
  cases henabled : config.enabled with
  | false =>
    have hbounds := htransition.bounds ⟨hcontrolled.bounds.1, hcontrolled.bounds.2,
      hcontrolled.bounds.3, hcontrolled.bounds.4⟩
    rw [hbounds.fixed henabled, hcontrolled.bounds.fixed henabled]
  | true =>
    rcases (htransition.pressured henabled hpressure).2.2.2 with hsame | ⟨-, hlower⟩
    · exact hsame.le
    · exact hlower.le.trans (emergencyLimit_le hcontrolled.bounds.minimum_le)

/-- **A step** keeps the slots accounted for. -/
theorem step {event : Event} (h : Accounted config w)
    (hstep : w.step config event = some w') : Accounted config w' := by
  have hmax := hcontrolled.bounds.le_maximum.trans config.effectiveMaximum_le
  have hcalls (calls : List Call) (permits : List Permit) :
      Controlled config { w with calls := calls, permits := permits } :=
    hcontrolled.of_sameHistory ⟨⟨rfl, rfl, rfl, rfl, rfl, rfl⟩, rfl⟩
  cases event with
  | tryAcquire cls =>
    cases hstep
    exact h.tryAcquire hmax cls
  | acquire cls now =>
    cases hstep
    exact h.acquire hmax cls now
  | receive channel =>
    obtain ⟨grant, hgrant, hstep⟩ := bind_eq_some_iff.1 hstep
    obtain ⟨calls, hreplace, hstep⟩ := bind_eq_some_iff.1 hstep
    cases hstep
    exact ⟨h.slots.congr rfl rfl rfl rfl rfl rfl
      (undelivered_give hgrant hreplace endGranted_undelivered), h.full⟩
  | expire channel | cancel channel =>
    obtain ⟨calls, hreplace, hstep⟩ := bind_eq_some_iff.1 hstep
    cases hstep
    exact h.phase hreplace dropReceiver_undelivered
  | reclaim channel now =>
    obtain ⟨grant, hgrant, hstep⟩ := bind_eq_some_iff.1 hstep
    obtain ⟨calls, hreplace, hstep⟩ := bind_eq_some_iff.1 hstep
    cases hstep
    have hloose : AccountedWith config [grant] { w with calls := calls } :=
      h.slots.congr rfl rfl rfl rfl rfl rfl
        (undelivered_give hgrant hreplace forgetGrant_undelivered)
    exact hloose.releaseSlot.grantWaitersFromLocked hmax now
  | rejectTimedOut channel now =>
    obtain ⟨calls, hreplace, hstep⟩ := bind_eq_some_iff.1 hstep
    cases hstep
    exact (h.phase hreplace startLeaving_undelivered).rejectTimedOut hconfig (hcalls calls _) now
  | rejectOrphaned channel =>
    obtain ⟨calls, hreplace, hstep⟩ := bind_eq_some_iff.1 hstep
    cases hstep
    exact (h.phase hreplace (endIn_undelivered (.inl rfl))).reject
  | leave channel now later =>
    obtain ⟨call, -, hstep⟩ := bind_eq_some_iff.1 hstep
    obtain ⟨calls, hreplace, hstep⟩ := bind_eq_some_iff.1 hstep
    cases hstep
    exact removeWaiter (h.phase hreplace (endIn_undelivered (.inr rfl))).slots hmax _ now later
  | complete slot outcome now later =>
    obtain ⟨⟨permit, permits⟩, htake, hstep⟩ := bind_eq_some_iff.1 hstep
    cases hstep
    have hloose : AccountedWith config [permit] { w with permits := permits } :=
      h.slots.congr rfl rfl rfl rfl rfl rfl ((takePermit_eq_some htake).append_right _)
    exact complete hconfig (hcalls _ permits) hloose outcome now later

/-- **A run keeps the account.** -/
theorem run {events : List Event} (h : Accounted config w)
    (hrun : w.run config events = some w') : Accounted config w' := by
  induction events generalizing w with
  | nil =>
    cases hrun
    exact h
  | cons event rest ih =>
    obtain ⟨middle, hstep, hrest⟩ := bind_eq_some_iff.1 hrun
    exact ih (hcontrolled.step hconfig hstep) (h.step hconfig hcontrolled hstep) hrest

end Events

/-- A new controller has issued nothing. -/
theorem new [AdmissionFloat F] (config : AdmissionConfig) (now : ℕ) (seed : UInt64) :
    Accounted config (World.new config now seed : World F) :=
  ⟨⟨⟨rfl, fun _ => rfl, .refl _⟩, by simp [World.new], Nat.zero_le _, .nil, by
    simp [World.new, ControllerState.new]⟩, fun hne => absurd rfl hne⟩

end Accounted

/-- Over every interleaving of a controller's events, the number of slots in flight is that of the
live permits and of the grants that were not delivered, and the sum of the counters by class.
Every slot that was granted is held once or was released once. Slots are granted only below the
limit, and never to a call that arrived after one in the queue. The queue keeps to its capacity,
and nobody waits in it while there are slots. -/
theorem run_accounted [AdmissionFloat F] {config : AdmissionConfig} {now : ℕ} {seed : UInt64}
    {events : List Event} {w : World F} (hconfig : config.validateConfig = .ok ())
    (hrun : (new config now seed).run config events = some w) :
    w.controller.inFlight = w.permits.length + (w.calls.filterMap undelivered).length ∧
      w.controller.inFlight = (AdmissionClass.all.map w.controller.inFlightByClass).sum ∧
      (w.holders.map Permit.slot ++ w.released).Perm (List.range w.grants.length) ∧
      (∀ grant ∈ w.grants, grant.inFlight < grant.desiredLimit ∧
        ∀ channel ∈ grant.queued, grant.arrival ≤ channel) ∧
      (w.controller.queue.map Waiter.sender).Pairwise (· < ·) ∧
      w.controller.queue.length ≤ config.queueCapacity ∧
      (w.controller.queue ≠ [] → w.controller.desiredLimit ≤ w.controller.inFlight) := by
  have hmin := AdmissionConfig.minimum_le_effectiveMaximum hconfig
  have h := (Accounted.new config now seed).run hmin (controlled_new config now seed hmin) hrun
  have hcounted := h.slots.counted
  refine ⟨?_, ?_, hcounted.slots, h.slots.grants, h.slots.fifo, h.slots.capacity, h.full⟩
  · rw [hcounted.inFlight]
    simp [holders]
  · rw [hcounted.sum_byClass, hcounted.inFlight]

/-- A configuration with a single slot and one place in the queue. -/
def singleSlot : AdmissionConfig where
  enabled := true
  initialSustainableThroughputRps := 1
  initialLatencyEstimateMs := 1
  minimumConcurrency := 1
  maximumConcurrency := 2
  controlReserveConcurrency := 1
  queueCapacity := 1
  maxQueueWaitMs := 25
  maximumConcurrency_le := by norm_num [usizeMax]

/-- A queued read that is granted the slot of a finished write and cancelled before it gets it:
the grant is in flight until it is reclaimed. -/
theorem run_accounted_cancelled : ∃ w : World ℚ,
    (new singleSlot 0 0).run singleSlot
        [.tryAcquire .write, .acquire .pointRead 1, .complete 0 (.success 5) 2 3, .cancel 1]
        = some w ∧
      w.permits = [] ∧
      w.controller.inFlight = w.permits.length + (w.calls.filterMap undelivered).length :=
  ⟨_, rfl, rfl, (@run_accounted ℚ _ singleSlot 0 0
    [.tryAcquire .write, .acquire .pointRead 1, .complete 0 (.success 5) 2 3, .cancel 1] _
    rfl rfl).1⟩

end World

end AuxStorage.Admission
