import AuxStorage.Replication.Event

/-!
# Replication: Hybrid Clocks

Each region issues clocks that lie above everything it has issued or seen. The **floor** of a region
is the greatest such clock. A clock follows the wall time when that is ahead, and otherwise counts
on from the floor or from a clock that came with the request.

A run interleaves the issues and the observations of any number of regions, with wall times that
may go backward. Events are numbered by their place in the run, so that an observation can name the
issue it has seen.
-/

namespace AuxStorage.Replication

open List

/-! ### The order of clocks -/

namespace HybridLogicalClock

/-- The parts of a clock, compared from the left. -/
def key (clock : HybridLogicalClock) : ℕ ×ₗ ℕ :=
  toLex (clock.physicalMs, clock.logical)

theorem key_injective : Function.Injective key := by
  rintro ⟨p, l⟩ ⟨q, m⟩ h
  simp only [key, toLex_inj, Prod.mk.injEq] at h
  rw [h.1, h.2]

instance : LinearOrder HybridLogicalClock :=
  LinearOrder.lift' key key_injective

variable {a b : HybridLogicalClock}

theorem lt_iff :
    a < b ↔ a.physicalMs < b.physicalMs ∨ a.physicalMs = b.physicalMs ∧ a.logical < b.logical :=
  Prod.Lex.toLex_lt_toLex

theorem le_iff :
    a ≤ b ↔ a.physicalMs < b.physicalMs ∨ a.physicalMs = b.physicalMs ∧ a.logical ≤ b.logical :=
  Prod.Lex.toLex_le_toLex

/-- Both parts are unsigned 64-bit words. -/
def InRange (clock : HybridLogicalClock) : Prop :=
  clock.physicalMs < 2 ^ 64 ∧ clock.logical < 2 ^ 64

end HybridLogicalClock

theorem WinnerOrder.compare_of_clock_lt {a b : HybridLogicalClock} (h : a < b)
    (origin origin' : OriginId) (position position' ordinal ordinal' : ℕ)
    (rank rank' : EffectRank) :
    (WinnerOrder.mutation a origin position ordinal rank).compare
      (.mutation b origin' position' ordinal' rank') = .lt := by
  rw [WinnerOrder.compare_eq_lt]
  refine Sum.Lex.inr_strictMono ?_
  rw [WinnerOrder.mutationTuple, WinnerOrder.mutationTuple, Prod.Lex.toLex_lt_toLex]
  exact .inl h

/-! ### Issuing and observing -/

inductive ClockFloor
  | unknown
  | recovered (clock : HybridLogicalClock)
  deriving DecidableEq, Repr

/-- Why a clock cannot be issued. -/
inductive ClockError
  | clockFloorUnknown (context : Text)
  | counterOverflow (context : Text)
  deriving DecidableEq, Repr

structure CapturedClockPlan where
  wallMs : ℕ
  localFloor : ClockFloor
  received : Option HybridLogicalClock
  deriving DecidableEq, Repr

/-- `checked_increment`, of an unsigned 64-bit word. -/
def checkedIncrement (value : ℕ) : Except ClockError ℕ :=
  if value + 1 < 2 ^ 64 then .ok (value + 1)
  else .error (.counterOverflow (text "clock.checked_increment"))

namespace CapturedClockPlan

/-- The received clock, or the least one. -/
def receivedClock (plan : CapturedClockPlan) : HybridLogicalClock :=
  plan.received.getD ⟨0, 0⟩

/-- The logical part of the next clock: it counts on from whatever has the physical part. -/
def nextLogical (physicalMs : ℕ) (own received : HybridLogicalClock) : Except ClockError ℕ :=
  if physicalMs = own.physicalMs ∧ physicalMs = received.physicalMs then
    checkedIncrement (max own.logical received.logical)
  else if physicalMs = own.physicalMs then checkedIncrement own.logical
  else if physicalMs = received.physicalMs then checkedIncrement received.logical
  else .ok 0

def issueClock (plan : CapturedClockPlan) : Except ClockError HybridLogicalClock :=
  match plan.localFloor with
  | .unknown => .error (.clockFloorUnknown (text "clock.issue_clock"))
  | .recovered own => do
      let physicalMs := max (max plan.wallMs own.physicalMs) plan.receivedClock.physicalMs
      let logical ← nextLogical physicalMs own plan.receivedClock
      .ok ⟨physicalMs, logical⟩

def observeClock (plan : CapturedClockPlan) (received : HybridLogicalClock) : ClockFloor :=
  match plan.localFloor with
  | .unknown => .unknown
  | .recovered own => .recovered (max own received)

theorem checkedIncrement_eq_ok {value next : ℕ} :
    checkedIncrement value = .ok next ↔ next = value + 1 ∧ next < 2 ^ 64 := by
  unfold checkedIncrement
  split_ifs with h
  · constructor
    · intro heq
      cases heq
      exact ⟨rfl, h⟩
    · rintro ⟨rfl, -⟩
      rfl
  · constructor
    · intro heq
      cases heq
    · rintro ⟨rfl, hlt⟩
      exact absurd hlt h

variable {error : ClockError}

theorem checkedIncrement_eq_error {value : ℕ} (h : checkedIncrement value = .error error) :
    2 ^ 64 ≤ value + 1 := by
  unfold checkedIncrement at h
  split_ifs at h with hlt
  omega

variable {own received : HybridLogicalClock}

/-- The next logical part counts on from both clocks, wherever they have the physical part. -/
theorem nextLogical_eq_ok {physicalMs logical : ℕ}
    (h : nextLogical physicalMs own received = .ok logical) :
    (physicalMs = own.physicalMs → own.logical < logical) ∧
      (physicalMs = received.physicalMs → received.logical < logical) ∧ logical < 2 ^ 64 := by
  unfold nextLogical at h
  split_ifs at h with hboth hown hreceived
  · obtain ⟨rfl, hlt⟩ := checkedIncrement_eq_ok.mp h
    omega
  · obtain ⟨rfl, hlt⟩ := checkedIncrement_eq_ok.mp h
    refine ⟨fun _ => by omega, fun heq => absurd ⟨hown, heq⟩ hboth, hlt⟩
  · obtain ⟨rfl, hlt⟩ := checkedIncrement_eq_ok.mp h
    refine ⟨fun heq => absurd heq hown, fun _ => by omega, hlt⟩
  · cases h
    refine ⟨fun heq => absurd heq hown, fun heq => absurd heq hreceived, by omega⟩

/-- Without a next logical part the greater of the two clocks has the physical part, and its logical
part is the last one. -/
theorem nextLogical_eq_error {physicalMs : ℕ} (hown : own.physicalMs ≤ physicalMs)
    (hreceived : received.physicalMs ≤ physicalMs)
    (h : nextLogical physicalMs own received = .error error) :
    (max own received).physicalMs = physicalMs ∧ 2 ^ 64 ≤ (max own received).logical + 1 := by
  unfold nextLogical at h
  rcases le_total own received with hle | hle
  · rw [max_eq_right hle]
    rw [HybridLogicalClock.le_iff] at hle
    split_ifs at h with hboth hown' hreceived'
    · have := checkedIncrement_eq_error h
      omega
    · omega
    · have := checkedIncrement_eq_error h
      omega
  · rw [max_eq_left hle]
    rw [HybridLogicalClock.le_iff] at hle
    split_ifs at h with hboth hown' hreceived'
    · have := checkedIncrement_eq_error h
      omega
    · have := checkedIncrement_eq_error h
      omega
    · omega

variable {plan : CapturedClockPlan}

/-- **An issued clock lies above the floor, the received clock and the wall time.** -/
theorem issueClock_eq_ok {clock : HybridLogicalClock} (h : plan.issueClock = .ok clock) :
    ∃ own, plan.localFloor = .recovered own ∧ own < clock ∧ plan.receivedClock < clock ∧
      plan.wallMs ≤ clock.physicalMs ∧ clock.logical < 2 ^ 64 ∧
      clock.physicalMs = max (max plan.wallMs own.physicalMs) plan.receivedClock.physicalMs := by
  unfold issueClock at h
  split at h
  · cases h
  · rename_i own hown
    obtain ⟨logical, hlogical, hclock⟩ := Except.bind_eq_ok.mp h
    cases hclock
    obtain ⟨habove, habove', hlt⟩ := nextLogical_eq_ok hlogical
    refine ⟨own, hown, ?_, ?_, by dsimp only; omega, hlt, rfl⟩
    · rw [HybridLogicalClock.lt_iff]
      dsimp only
      omega
    · rw [HybridLogicalClock.lt_iff]
      dsimp only
      omega

/-- **When a clock cannot be issued**: the floor is unknown, or the greatest of the clocks has no
next logical part, and the wall time is not ahead of it. -/
theorem issueClock_eq_error (h : plan.issueClock = .error error) :
    plan.localFloor = .unknown ∨ ∃ own, plan.localFloor = .recovered own ∧
      plan.wallMs ≤ (max own plan.receivedClock).physicalMs ∧
      2 ^ 64 ≤ (max own plan.receivedClock).logical + 1 := by
  unfold issueClock at h
  split at h
  · rename_i hunknown
    exact .inl hunknown
  · rename_i own hown
    refine .inr ⟨own, hown, ?_⟩
    have hnext : ∃ error', nextLogical
        (max (max plan.wallMs own.physicalMs) plan.receivedClock.physicalMs) own
          plan.receivedClock = .error error' := by
      cases hnext : nextLogical
          (max (max plan.wallMs own.physicalMs) plan.receivedClock.physicalMs) own
            plan.receivedClock with
      | ok logical =>
        simp only [hnext] at h
        cases h
      | error error' => exact ⟨error', rfl⟩
    obtain ⟨error', hnext⟩ := hnext
    obtain ⟨hphysical, hlogical⟩ := nextLogical_eq_error (by omega) (by omega) hnext
    exact ⟨by omega, hlogical⟩

end CapturedClockPlan

/-! ### Runs -/

section Runs

variable {Region : Type} [DecidableEq Region]

/-- What happens at a region. A received or observed clock comes with the number of its issue. -/
inductive ClockEvent (Region : Type)
  | issued (region : Region) (wallMs : ℕ) (received : Option (ℕ × HybridLogicalClock))
      (clock : HybridLogicalClock)
  | observed (region : Region) (source : ℕ) (clock : HybridLogicalClock)

def ClockEvent.region : ClockEvent Region → Region
  | .issued region .. | .observed region .. => region

/-- The clocks that an event makes known to its region. -/
def ClockEvent.clocks : ClockEvent Region → List HybridLogicalClock
  | .issued _ _ received clock => clock :: (received.map Prod.snd).toList
  | .observed _ _ clock => [clock]

/-- The clock that was issued at a place of a run. -/
def issuedClock (events : List (ClockEvent Region)) (i : ℕ) : Option HybridLogicalClock :=
  match events[i]? with
  | some (.issued _ _ _ clock) => some clock
  | _ => none

/-- **The runs of the regions**, with the floors they end in. An issue that fails leaves everything
as it was, so that it is no event. -/
inductive ClockRun (start : Region → HybridLogicalClock) :
    List (ClockEvent Region) → (Region → ClockFloor) → Prop
  | start : ClockRun start [] fun region => .recovered (start region)
  | issue {events : List (ClockEvent Region)} {floors : Region → ClockFloor}
      (run : ClockRun start events floors) {region : Region} {wallMs : ℕ}
      {received : Option (ℕ × HybridLogicalClock)} {clock : HybridLogicalClock}
      (hwall : wallMs < 2 ^ 64)
      (hreceived : ∀ source c, received = some (source, c) → issuedClock events source = some c)
      (hissue : CapturedClockPlan.issueClock ⟨wallMs, floors region, received.map Prod.snd⟩
        = .ok clock) :
      ClockRun start (events ++ [.issued region wallMs received clock])
        (Function.update floors region (.recovered clock))
  | observe {events : List (ClockEvent Region)} {floors : Region → ClockFloor}
      (run : ClockRun start events floors) {region : Region} (wallMs : ℕ) {source : ℕ}
      {clock : HybridLogicalClock} (hsource : issuedClock events source = some clock) :
      ClockRun start (events ++ [.observed region source clock])
        (Function.update floors region
          (CapturedClockPlan.observeClock ⟨wallMs, floors region, none⟩ clock))

/-- One issue **happens before** another: earlier at the same region, seen there before, or received
with it, or by a chain of these. -/
inductive HappensBefore (events : List (ClockEvent Region)) : ℕ → ℕ → Prop
  | sameRegion {i j : ℕ} {region : Region} {wallMs wallMs' : ℕ}
      {received received' : Option (ℕ × HybridLogicalClock)} {clock clock' : HybridLogicalClock}
      (hlt : i < j) (hi : events[i]? = some (.issued region wallMs received clock))
      (hj : events[j]? = some (.issued region wallMs' received' clock')) :
      HappensBefore events i j
  | observed {i k j : ℕ} {region : Region} {wallMs : ℕ}
      {received : Option (ℕ × HybridLogicalClock)} {clock clock' : HybridLogicalClock}
      (hlt : k < j) (hk : events[k]? = some (.observed region i clock))
      (hj : events[j]? = some (.issued region wallMs received clock')) :
      HappensBefore events i j
  | received {i j : ℕ} {region : Region} {wallMs : ℕ} {clock clock' : HybridLogicalClock}
      (hj : events[j]? = some (.issued region wallMs (some (i, clock)) clock')) :
      HappensBefore events i j
  | trans {i j k : ℕ} (hij : HappensBefore events i j) (hjk : HappensBefore events j k) :
      HappensBefore events i k

variable {clock : HybridLogicalClock}

omit [DecidableEq Region] in
theorem issuedClock_append {events more : List (ClockEvent Region)} {i : ℕ}
    (h : issuedClock events i = some clock) : issuedClock (events ++ more) i = some clock := by
  unfold issuedClock at h ⊢
  split at h
  · rename_i heq
    rw [getElem?_append_left (List.getElem?_eq_some_iff.mp heq).1, heq]
    exact h
  · cases h

/-- What stands in a list that has grown by one element. -/
theorem getElem?_snoc_eq_some {α : Type} {l : List α} {a b : α} {k : ℕ}
    (h : (l ++ [a])[k]? = some b) : k < l.length ∧ l[k]? = some b ∨ k = l.length ∧ a = b := by
  rcases lt_trichotomy k l.length with hlt | rfl | hgt
  · rw [getElem?_append_left hlt] at h
    exact .inl ⟨hlt, h⟩
  · rw [getElem?_concat_length] at h
    exact .inr ⟨rfl, Option.some.inj h⟩
  · rw [getElem?_eq_none (by simp; omega)] at h
    cases h

variable {start : Region → HybridLogicalClock} {events : List (ClockEvent Region)}
    {floors : Region → ClockFloor}

omit [DecidableEq Region] in
theorem known_of_other {region : Region} {floor : HybridLogicalClock} {event : ClockEvent Region}
    (hregion : ¬region = event.region)
    (hknown : ∀ e ∈ events, e.region = region → ∀ c ∈ e.clocks, c ≤ floor) :
    ∀ e ∈ events ++ [event], e.region = region → ∀ c ∈ e.clocks, c ≤ floor := by
  intro e he heq c hc
  rcases mem_append.mp he with he | he
  · exact hknown e he heq c hc
  · obtain rfl := mem_singleton.mp he
    exact absurd heq.symm hregion

/-- **What the floor of a region knows**: it is recovered, and lies at or above its start and every
clock that an event at the region has made known. -/
theorem ClockRun.floor_bounds (run : ClockRun start events floors) (region : Region) :
    ∃ floor, floors region = .recovered floor ∧ start region ≤ floor ∧
      ∀ event ∈ events, event.region = region → ∀ clock ∈ event.clocks, clock ≤ floor := by
  induction run with
  | start => exact ⟨start region, rfl, le_rfl, by simp⟩
  | @issue events floors _ region' wallMs received clock _ _ hissue ih =>
    obtain ⟨floor, hfloor, hstart, hknown⟩ := ih
    by_cases hregion : region = region'
    · subst hregion
      obtain ⟨own, hown, hlt, hreceived, -, -, -⟩ := CapturedClockPlan.issueClock_eq_ok hissue
      obtain rfl : floor = own := ClockFloor.recovered.inj (hfloor.symm.trans hown)
      refine ⟨clock, Function.update_self .., hstart.trans hlt.le, ?_⟩
      intro event hevent heq c hc
      rcases mem_append.mp hevent with hevent | hevent
      · exact (hknown event hevent heq c hc).trans hlt.le
      · obtain rfl := mem_singleton.mp hevent
        rcases mem_cons.mp hc with rfl | hc
        · exact le_rfl
        · cases received with
          | none => cases hc
          | some pair =>
            obtain rfl := mem_singleton.mp hc
            exact hreceived.le
    · refine ⟨floor, ?_, hstart, known_of_other hregion hknown⟩
      rw [Function.update_of_ne hregion, hfloor]
  | @observe events floors _ region' wallMs source clock _ ih =>
    obtain ⟨floor, hfloor, hstart, hknown⟩ := ih
    by_cases hregion : region = region'
    · subst hregion
      refine ⟨max floor clock, ?_, hstart.trans (le_max_left _ _), ?_⟩
      · rw [Function.update_self, CapturedClockPlan.observeClock, hfloor]
      · intro event hevent heq c hc
        rcases mem_append.mp hevent with hevent | hevent
        · exact (hknown event hevent heq c hc).trans (le_max_left _ _)
        · obtain rfl := mem_singleton.mp hevent
          obtain rfl := mem_singleton.mp hc
          exact le_max_right _ _
    · refine ⟨floor, ?_, hstart, known_of_other hregion hknown⟩
      rw [Function.update_of_ne hregion, hfloor]

variable {j : ℕ} {region : Region} {received : Option (ℕ × HybridLogicalClock)}

/-- An issue was made after the run up to it. -/
theorem ClockRun.at_issue (run : ClockRun start events floors) {wallMs : ℕ}
    (hj : events[j]? = some (.issued region wallMs received clock)) :
    ∃ floors', ClockRun start (events.take j) floors' ∧
      CapturedClockPlan.issueClock ⟨wallMs, floors' region, received.map Prod.snd⟩ = .ok clock ∧
      ∀ source c, received = some (source, c) → issuedClock events source = some c := by
  induction run with
  | start => cases hj
  | @issue events floors run region' wallMs' received' clock' hwall hreceived hissue ih =>
    rcases getElem?_snoc_eq_some hj with ⟨hlt, hj⟩ | ⟨rfl, hlast⟩
    · obtain ⟨floors', hrun, hissue', hsource⟩ := ih hj
      rw [take_append_of_le_length hlt.le]
      exact ⟨floors', hrun, hissue', fun source c h => issuedClock_append (hsource source c h)⟩
    · cases hlast
      rw [take_left]
      exact ⟨floors, run, hissue, fun source c h => issuedClock_append (hreceived source c h)⟩
  | @observe events floors run region' wallMs' source clock' hsource ih =>
    rcases getElem?_snoc_eq_some hj with ⟨hlt, hj⟩ | ⟨rfl, hlast⟩
    · obtain ⟨floors', hrun, hissue', hsource'⟩ := ih hj
      rw [take_append_of_le_length hlt.le]
      exact ⟨floors', hrun, hissue', fun source c h => issuedClock_append (hsource' source c h)⟩
    · cases hlast

theorem ClockRun.at_observation (run : ClockRun start events floors) {k : ℕ} {source : ℕ}
    (hk : events[k]? = some (.observed region source clock)) :
    issuedClock events source = some clock := by
  induction run with
  | start => cases hk
  | @issue events floors run region' wallMs' received' clock' hwall hreceived hissue ih =>
    rcases getElem?_snoc_eq_some hk with ⟨-, hk⟩ | ⟨rfl, hlast⟩
    · exact issuedClock_append (ih hk)
    · cases hlast
  | @observe events floors run region' wallMs' source' clock' hsource ih =>
    rcases getElem?_snoc_eq_some hk with ⟨-, hk⟩ | ⟨rfl, hlast⟩
    · exact issuedClock_append (ih hk)
    · cases hlast
      exact issuedClock_append hsource

/-- **An issued clock lies above everything its region knew**, and not behind its wall time. -/
theorem ClockRun.issued_above (run : ClockRun start events floors) {wallMs : ℕ}
    (hj : events[j]? = some (.issued region wallMs received clock)) :
    wallMs ≤ clock.physicalMs ∧ start region < clock ∧
      (∀ event ∈ events.take j, event.region = region → ∀ c ∈ event.clocks, c < clock) ∧
      ∀ source c, received = some (source, c) → c < clock := by
  obtain ⟨floors', hrun, hissue, -⟩ := run.at_issue hj
  obtain ⟨floor, hfloor, hstart, hknown⟩ := hrun.floor_bounds region
  obtain ⟨own, hown, hlt, hreceived, hwall, -, -⟩ := CapturedClockPlan.issueClock_eq_ok hissue
  obtain rfl : floor = own := ClockFloor.recovered.inj (hfloor.symm.trans hown)
  refine ⟨hwall, hstart.trans_lt hlt, ?_, ?_⟩
  · intro event hevent hregion c hc
    exact (hknown event hevent hregion c hc).trans_lt hlt
  · rintro source c rfl
    exact hreceived

omit [DecidableEq Region] in
theorem mem_take_of_getElem? {i : ℕ} {event : ClockEvent Region} (hlt : i < j)
    (h : events[i]? = some event) : event ∈ events.take j := by
  refine mem_of_getElem? (i := i) ?_
  rw [getElem?_take_of_lt hlt, h]

/-- A clock whose issue happens before is smaller. -/
theorem ClockRun.lt_of_happensBefore (run : ClockRun start events floors) {i : ℕ}
    (h : HappensBefore events i j) :
    ∃ clock clock', issuedClock events i = some clock ∧ issuedClock events j = some clock' ∧
      clock < clock' := by
  induction h with
  | @sameRegion i j region wallMs wallMs' received received' clock clock' hlt hi hj =>
    refine ⟨clock, clock', by rw [issuedClock, hi], by rw [issuedClock, hj], ?_⟩
    exact (run.issued_above hj).2.2.1 _ (mem_take_of_getElem? hlt hi) rfl clock
      mem_cons_self
  | @observed i k j region wallMs received clock clock' hlt hk hj =>
    refine ⟨clock, clock', run.at_observation hk, by rw [issuedClock, hj], ?_⟩
    exact (run.issued_above hj).2.2.1 _ (mem_take_of_getElem? hlt hk) rfl clock
      mem_cons_self
  | @received i j region wallMs clock clock' hj =>
    obtain ⟨_, -, -, hsource⟩ := run.at_issue hj
    exact ⟨clock, clock', hsource i clock rfl, by rw [issuedClock, hj],
      (run.issued_above hj).2.2.2 i clock rfl⟩
  | trans _ _ ih ih' =>
    obtain ⟨first, middle, hfirst, hmiddle, hlt⟩ := ih
    obtain ⟨middle', last, hmiddle', hlast, hlt'⟩ := ih'
    obtain rfl : middle = middle' := Option.some.inj (hmiddle.symm.trans hmiddle')
    exact ⟨first, last, hfirst, hlast, hlt.trans hlt'⟩

/-- What is promised of the clocks of a run. -/
structure CausalClocks (start : Region → HybridLogicalClock) (events : List (ClockEvent Region)) :
    Prop where
  /-- An issued clock is not behind its wall time, and lies above every clock that its region
  recovered, issued, observed or received before. -/
  issued : ∀ {j : ℕ} {region : Region} {wallMs : ℕ}
    {received : Option (ℕ × HybridLogicalClock)} {clock : HybridLogicalClock},
    events[j]? = some (.issued region wallMs received clock) →
      wallMs ≤ clock.physicalMs ∧ start region < clock ∧
        (∀ event ∈ events.take j, event.region = region → ∀ c ∈ event.clocks, c < clock) ∧
        ∀ source c, received = some (source, c) → c < clock
  /-- The mutation whose issue happens before has the smaller order. -/
  ordered : ∀ {i j : ℕ}, HappensBefore events i j →
    ∃ clock clock', issuedClock events i = some clock ∧ issuedClock events j = some clock' ∧
      ∀ origin origin' position position' ordinal ordinal' rank rank',
        (WinnerOrder.mutation clock origin position ordinal rank).compare
          (.mutation clock' origin' position' ordinal' rank') = .lt
  /-- A clock can be issued unless the floor is unknown or the logical part of the greatest clock is
  the last one. -/
  issuable : ∀ {plan : CapturedClockPlan} {error : ClockError},
    (∀ own, plan.localFloor = .recovered own → own.InRange) → plan.receivedClock.InRange →
      plan.issueClock = .error error →
      plan.localFloor = .unknown ∨ ∃ own, plan.localFloor = .recovered own ∧
        (max own plan.receivedClock).logical = 2 ^ 64 - 1

/-- **Hybrid clocks respect causality**, over every run of any number of regions. -/
theorem ClockRun.causalClocks (run : ClockRun start events floors) :
    CausalClocks start events where
  issued hj := run.issued_above hj
  ordered h := by
    obtain ⟨clock, clock', hi, hj, hlt⟩ := run.lt_of_happensBefore h
    exact ⟨clock, clock', hi, hj, WinnerOrder.compare_of_clock_lt hlt⟩
  issuable := by
    intro plan error hown hreceived herror
    rcases CapturedClockPlan.issueClock_eq_error herror with hunknown | ⟨own, hfloor, -, hlogical⟩
    · exact .inl hunknown
    · refine .inr ⟨own, hfloor, ?_⟩
      have hrange : (max own plan.receivedClock).InRange := by
        rcases max_choice own plan.receivedClock with h | h
        · rw [h]
          exact hown own hfloor
        · rw [h]
          exact hreceived
      have := hrange.2
      omega

/-- Two regions: the second sees a clock of the first, and its own wall is behind. -/
def lateWall : List (ClockEvent Bool) :=
  [.issued false 5 none ⟨5, 0⟩, .observed true 0 ⟨5, 0⟩, .issued true 3 none ⟨5, 1⟩]

theorem lateWall_causalClocks :
    HappensBefore lateWall 0 2 ∧ CausalClocks (fun _ => ⟨0, 0⟩) lateWall := by
  refine ⟨.observed (k := 1) (by omega) rfl rfl, ?_⟩
  have first : ClockRun (fun _ : Bool => ⟨0, 0⟩) [.issued false 5 none ⟨5, 0⟩] _ :=
    .issue .start (by omega) (by simp) (by rfl)
  have second : ClockRun (fun _ : Bool => ⟨0, 0⟩)
      [.issued false 5 none ⟨5, 0⟩, .observed true 0 ⟨5, 0⟩] _ :=
    .observe first 0 rfl
  exact ClockRun.causalClocks (.issue second (by omega) (by simp) (by rfl))

end Runs

end AuxStorage.Replication
