import AuxStorage.Admission.Transition

/-!
# Admission: The Controller as a System

The controller together with everything that holds or waits for one of its slots: the permits in
the hands of callers, and the calls that wait in the queue, each on a one-shot channel of its
own. Every section between taking and releasing the state lock is one event, and so is every
operation on a channel that takes no lock: receiving a grant, running out of time, dropping the
future. A `World` also keeps what happened: the slots that were granted, those that were
released, and the evaluations of windows.

A call that runs out of time or is cancelled drops its receiver first. A grant that was in the
channel is then reclaimed under the lock, and the guard of the call takes it out of the queue in
a section of its own. Until then the queue may hold a waiter whose receiver is gone; a grant to
it fails and is reclaimed at once.
-/

namespace AuxStorage.Admission

/-- A slot in somebody's hands. -/
structure Permit where
  slot : ℕ
  cls : AdmissionClass
  deriving DecidableEq, Repr

/-- Where a call that was queued stands. -/
inductive CallPhase
  /-- It awaits its channel. -/
  | waiting
  /-- A grant is in the channel and not received yet. -/
  | granted (grant : Permit)
  /-- The receiver was dropped with a grant inside, which has yet to be reclaimed. -/
  | dropped (grant : Permit) (timedOut : Bool)
  /-- The time ran out and the receiver was dropped; the rejection is not recorded yet. -/
  | timedOut
  /-- The receiver was dropped, and the guard has yet to take the call out of the queue. -/
  | leaving
  /-- The sender was dropped without a grant. -/
  | orphaned
  deriving DecidableEq, Repr

/-- A call that was queued. Channels are numbered in the order in which the calls arrived. -/
structure Call where
  channel : ℕ
  waiterId : ℕ
  cls : AdmissionClass
  phase : CallPhase
  deriving DecidableEq, Repr

/-- The slot that is granted to a call and not delivered to its caller. -/
def Call.undelivered (call : Call) : Option Permit :=
  match call.phase with
  | .granted grant | .dropped grant _ => some grant
  | .waiting | .timedOut | .leaving | .orphaned => none

/-- The circumstances of a grant: who got it, and what the controller looked like before. -/
structure Grant where
  arrival : ℕ
  cls : AdmissionClass
  inFlight : ℕ
  desiredLimit : ℕ
  queued : List ℕ

/-- The circumstances of an evaluation. Windows are numbered from zero. -/
structure Evaluation where
  window : ℕ
  closing : Bool
  pressure : Bool
  limitBefore : ℕ
  limitAfter : ℕ
  stateBefore : AdmissionState
  stateAfter : AdmissionState

/-- The controller, its surroundings and its history. -/
structure World (F : Type) where
  controller : ControllerState F
  calls : List Call
  permits : List Permit
  arrivals : ℕ
  grants : List Grant
  released : List ℕ
  evaluations : List Evaluation

/-- Apply `f` to the first call on a channel, which then is replaced or, for `some none`, ends. -/
def replaceCall (channel : ℕ) (f : Call → Option (Option Call)) : List Call → Option (List Call)
  | [] => none
  | call :: rest =>
    if call.channel = channel then (f call).map fun replaced => replaced.toList ++ rest
    else (replaceCall channel f rest).map (call :: ·)

namespace World

section Definitions

variable {F : Type} [AdmissionFloat F]

/-- The world of a new controller. -/
def new (config : AdmissionConfig) (now : ℕ) (seed : UInt64) : World F where
  controller := .new config now seed
  calls := []
  permits := []
  arrivals := 0
  grants := []
  released := []
  evaluations := []

/-- Everybody who holds a slot: the permits and the grants that were not delivered. -/
def holders (w : World F) : List Permit := w.permits ++ w.calls.filterMap Call.undelivered

/-- The number of the current window. -/
def windowNumber (w : World F) : ℕ := w.evaluations.countP (·.closing)

/-! ### Slots -/

/-- Count a new slot in. -/
def issueSlot (w : World F) (cls : AdmissionClass) (arrival : ℕ) (queued : List ℕ) :
    World F × Permit :=
  let c := w.controller
  let inFlight := saturatingAdd c.inFlight 1
  ({ w with
      controller :=
        { c with
          inFlight := inFlight
          inFlightByClass :=
            Function.update c.inFlightByClass cls (saturatingAdd (c.inFlightByClass cls) 1)
          window := { c.window with peakInFlight := max c.window.peakInFlight inFlight } }
      grants := w.grants ++ [⟨arrival, cls, c.inFlight, c.desiredLimit, queued⟩] },
    ⟨w.grants.length, cls⟩)

/-- Count a slot out. -/
def releaseSlot (w : World F) (permit : Permit) : World F :=
  let c := w.controller
  { w with
    controller :=
      { c with
        inFlight := c.inFlight - 1
        inFlightByClass :=
          Function.update c.inFlightByClass permit.cls (c.inFlightByClass permit.cls - 1) }
    released := w.released ++ [permit.slot] }

def setWindow (w : World F) (window : Window) : World F :=
  { w with controller := { w.controller with window := window } }

/-- Observe the length of the queue. -/
def observeQueue (w : World F) (now : ℕ) : World F :=
  { w with controller := observed w.controller now }

/-! ### Grants -/

/-- Put a grant into a channel whose receiver waits. -/
def deliver (grant : Permit) (call : Call) : Option (Option Call) :=
  match call.phase with
  | .waiting => some (some { call with phase := .granted grant })
  | _ => none

/-- Grant a slot to a waiter that was taken from the front of the queue. A grant that cannot be
sent comes back and is reclaimed. -/
def grantWaiter (w : World F) (waiter : Waiter) (rest : List Waiter) : World F :=
  let queued := (waiter :: rest).map Waiter.sender
  let popped := { w with controller := { w.controller with queue := rest } }
  let (issued, grant) := popped.issueSlot waiter.cls waiter.sender queued
  match replaceCall waiter.sender (deliver grant) issued.calls with
  | some calls => { issued with calls := calls }
  | none => issued.releaseSlot grant

/-- Grant slots from the front of the queue as long as the limit allows it. -/
def grantLoop : List Waiter → World F → World F
  | [], w => w
  | waiter :: rest, w =>
    if w.controller.inFlight < w.controller.desiredLimit then
      grantLoop rest (w.grantWaiter waiter rest)
    else w

def grantWaitersFromLocked (w : World F) (now : ℕ) : World F :=
  let w := w.observeQueue now
  (grantLoop w.controller.queue w).observeQueue now

/-- Grant a slot to a caller that has just arrived, unless there is none or somebody waits. -/
def tryGrantLocked (w : World F) (cls : AdmissionClass) : Option (World F) :=
  if w.controller.inFlight ≥ w.controller.desiredLimit ∨ w.controller.queue ≠ [] then none
  else
    let (issued, permit) := w.issueSlot cls w.arrivals (w.controller.queue.map Waiter.sender)
    some { issued with permits := permit :: issued.permits, arrivals := w.arrivals + 1 }

/-- Record a rejection. -/
def reject (w : World F) : World F :=
  { w with
    controller :=
      { w.controller with
        rejectionCount := min (w.controller.rejectionCount + 1) (2 ^ 64 - 1) } }

/-! ### Events -/

def tryAcquire (w : World F) (cls : AdmissionClass) : World F :=
  (w.tryGrantLocked cls).getD w.reject

/-- The identity after `id`, a nonzero 64-bit number. -/
def nextWaiterId (id : ℕ) : ℕ := max ((id + 1) % 2 ^ 64) 1

/-- The first section of a waiting acquisition: a slot, a place in the queue, or a rejection. -/
def acquire (config : AdmissionConfig) (w : World F) (cls : AdmissionClass) (now : ℕ) :
    World F :=
  match w.tryGrantLocked cls with
  | some granted => granted
  | none =>
    if w.controller.queue.length ≥ config.queueCapacity then w.reject
    else
      let w := w.observeQueue now
      let c := w.controller
      let waiter : Waiter := ⟨c.nextWaiterId, cls, now, w.arrivals⟩
      let pushed : World F :=
        { w with
          controller :=
            { c with nextWaiterId := nextWaiterId c.nextWaiterId, queue := c.queue ++ [waiter] }
          calls := w.calls ++ [⟨w.arrivals, c.nextWaiterId, cls, .waiting⟩]
          arrivals := w.arrivals + 1 }
      let w := pushed.observeQueue now
      w.setWindow
        { w.controller.window with
          queueWaits := saturatingAdd w.controller.window.queueWaits 1 }

/-- Evaluate the window, and note the evaluation. -/
def evaluate (config : AdmissionConfig) (w : World F) (now : ℕ) (closing : Bool) : World F :=
  let (next, signals) := evaluateWindowInner config w.controller now closing
  { w with
    controller := next
    evaluations := w.evaluations ++
      [⟨w.windowNumber, closing, signals.pressure, w.controller.desiredLimit, next.desiredLimit,
        w.controller.state, next.state⟩] }

/-- What the window records of a completed operation. -/
def recordOutcome (window : Window) (cls : AdmissionClass) (outcome : AdmissionOutcome) :
    Window :=
  let window := match outcome.latency with
    | some latency => window.addSample cls latency
    | none => window
  { window with
    successes :=
      if outcome.isSuccess then saturatingAdd window.successes 1 else window.successes
    explicitPressure := window.explicitPressure || outcome.isPressure }

/-- The section in which a permit ends. A dropped permit completes as cancelled. -/
def complete (config : AdmissionConfig) (w : World F) (permit : Permit)
    (outcome : AdmissionOutcome) (now later : ℕ) : World F :=
  let w := (w.releaseSlot permit).observeQueue now
  let w := w.setWindow (recordOutcome w.controller.window permit.cls outcome)
  let w :=
    if now - w.controller.window.startedAt ≥ windowLength then w.evaluate config now true
    else if outcome.isPressure then w.evaluate config now false
    else w
  w.grantWaitersFromLocked later

/-- The section in which a call that ran out of time reports the overload. -/
def rejectTimedOut (config : AdmissionConfig) (w : World F) (now : ℕ) : World F :=
  let w := w.setWindow { w.controller.window with queueTimeout := true }
  (w.evaluate config now false).reject

/-- The call behind a removed waiter loses its sender. -/
def orphan (channel : ℕ) (call : Call) : Call :=
  if call.channel = channel ∧ call.phase = .waiting then { call with phase := .orphaned }
  else call

/-- The queue without the first waiter of an identity. -/
def withoutWaiter (w : World F) (waiterId : ℕ) : World F :=
  match w.controller.queue.find? (·.id = waiterId) with
  | some waiter =>
    { w with
      controller := { w.controller with queue := w.controller.queue.eraseP (·.id = waiterId) }
      calls := w.calls.map (orphan waiter.sender) }
  | none => w

/-- The section in which the guard of a call takes it out of the queue. -/
def removeWaiter (w : World F) (waiterId now later : ℕ) : World F :=
  ((((w.observeQueue now).withoutWaiter waiterId).observeQueue now).grantWaitersFromLocked later)

/-- The first permit of a slot, and the others. -/
def takePermit (slot : ℕ) : List Permit → Option (Permit × List Permit)
  | [] => none
  | permit :: rest =>
    if permit.slot = slot then some (permit, rest)
    else (takePermit slot rest).map fun taken => (taken.1, permit :: taken.2)

/-- Everything that can happen. -/
inductive Event
  | tryAcquire (cls : AdmissionClass)
  | acquire (cls : AdmissionClass) (now : ℕ)
  | receive (channel : ℕ)
  | expire (channel : ℕ)
  | cancel (channel : ℕ)
  | reclaim (channel now : ℕ)
  | rejectTimedOut (channel now : ℕ)
  | rejectOrphaned (channel : ℕ)
  | leave (channel now later : ℕ)
  | complete (slot : ℕ) (outcome : AdmissionOutcome) (now later : ℕ)
  deriving DecidableEq, Repr

/-- The receiver of a call goes away, with the grant that may be inside. -/
def dropReceiver (timedOut : Bool) (call : Call) : Option (Option Call) :=
  match call.phase with
  | .waiting => some (some { call with phase := if timedOut then .timedOut else .leaving })
  | .granted grant => some (some { call with phase := .dropped grant timedOut })
  | _ => none

/-- The call that gets its grant ends. -/
def endGranted (call : Call) : Option (Option Call) :=
  match call.phase with
  | .granted _ => some none
  | _ => none

/-- A reclaimed grant leaves its call where it would be without it. -/
def forgetGrant (call : Call) : Option (Option Call) :=
  match call.phase with
  | .dropped _ timedOut =>
    some (some { call with phase := if timedOut then .timedOut else .leaving })
  | _ => none

def startLeaving (call : Call) : Option (Option Call) :=
  match call.phase with
  | .timedOut => some (some { call with phase := .leaving })
  | _ => none

/-- A call in the given phase ends. -/
def endIn (phase : CallPhase) (call : Call) : Option (Option Call) :=
  if call.phase = phase then some none else none

/-- The first call on a channel. -/
def call? (w : World F) (channel : ℕ) : Option Call :=
  w.calls.find? (·.channel = channel)

/-- One event, if it can happen. -/
def step (config : AdmissionConfig) (w : World F) : Event → Option (World F)
  | .tryAcquire cls => some (w.tryAcquire cls)
  | .acquire cls now => some (w.acquire config cls now)
  | .receive channel => do
      let grant ← (w.call? channel).bind Call.undelivered
      let calls ← replaceCall channel endGranted w.calls
      some { w with calls := calls, permits := grant :: w.permits }
  | .expire channel => do
      let calls ← replaceCall channel (dropReceiver true) w.calls
      some { w with calls := calls }
  | .cancel channel => do
      let calls ← replaceCall channel (dropReceiver false) w.calls
      some { w with calls := calls }
  | .reclaim channel now => do
      let grant ← (w.call? channel).bind Call.undelivered
      let calls ← replaceCall channel forgetGrant w.calls
      some (({ w with calls := calls }.releaseSlot grant).grantWaitersFromLocked now)
  | .rejectTimedOut channel now => do
      let calls ← replaceCall channel startLeaving w.calls
      some ({ w with calls := calls }.rejectTimedOut config now)
  | .rejectOrphaned channel => do
      let calls ← replaceCall channel (endIn .orphaned) w.calls
      some { w with calls := calls }.reject
  | .leave channel now later => do
      let call ← w.call? channel
      let calls ← replaceCall channel (endIn .leaving) w.calls
      some ({ w with calls := calls }.removeWaiter call.waiterId now later)
  | .complete slot outcome now later => do
      let (permit, permits) ← takePermit slot w.permits
      some ({ w with permits := permits }.complete config permit outcome now later)

/-- The world after a sequence of events, if they can happen in this order. -/
def run (config : AdmissionConfig) (w : World F) (events : List Event) : Option (World F) :=
  events.foldlM (step config) w

end Definitions

end World

end AuxStorage.Admission
