import AuxStorage.Admission.Types

/-!
# Admission: Window Transitions

How a sampling window changes the limit. A pressure signal halves the limit, at most once in a
window, and is judged at once; everything else is judged when the window closes: congestion backs
off, sustained health probes a higher limit, and a probe that brings nothing is rolled back.

## Main results

* `transitionWindow_disabled`, `transitionWindow_pressure`, `transitionWindow_clear`: all that a
  transition can do to the limit, to the emergency and to the window.
* `evaluateWindowInner_effect`: the same for a whole evaluation.
-/

namespace AuxStorage.Admission

open AdmissionState (noConfusion)
open FloatOps (clamp div floor le lt mul ofDecimal ofNat)

/-- The floating point type of the controller. The factor of a backoff is limited to 0.90 before
it is scaled, so the scaled factor is at most the scale. -/
class AdmissionFloat (F : Type) extends FloatOps F where
  floor_scaled_le (x : F) :
    floor (mul (clamp x (ofDecimal 80 2) (ofDecimal 90 2)) (ofNat 1000000)) ≤ 1000000

/-- Exact arithmetic, for which the rounding laws hold. -/
instance AdmissionFloat.rat : AdmissionFloat ℚ where
  floor_scaled_le x := by
    refine Nat.floor_le_of_le ?_
    have hclamp : max ((80 : ℕ) / 10 ^ 2 : ℚ) (min x ((90 : ℕ) / 10 ^ 2)) ≤ 1 :=
      max_le (by norm_num) ((min_le_right ..).trans (by norm_num))
    simpa [mul, clamp, ofDecimal, ofNat] using hclamp

/-! ### Thresholds -/

/-- A rounded-up percentage of a limit. -/
def percentThreshold (limit percent : ℕ) : ℕ :=
  saturatingAdd (min (limit / 100 * percent) usizeMax) ((limit % 100 * percent + 99) / 100)

/-- Nine tenths of a limit, rounded up. -/
def saturatedInFlightThreshold (limit : ℕ) : ℕ := limit - limit / 10

/-- Half of a limit, rounded up. -/
def lowLoadInFlightThreshold (limit : ℕ) : ℕ := limit / 2 + limit % 2

/-- A percentage of a duration, rounded up. -/
def durationPercentThreshold (duration percent : ℕ) : ℕ := (duration * percent + 99) / 100

/-- The samples below which a window says nothing about latency. -/
def baselineSampleMinimum : ℕ := 32

/-- The share of a window with a queue from which it counts as saturated. -/
def queueSaturationPercent : ℕ := 20

/-- The share of the limit that a probe adds. -/
def probePercent : ℕ := 5

/-- A minute. -/
def baselineRaiseInterval : ℕ := 60000000000

/-- **The thresholds are exact percentages, rounded up**: a percentage of any limit, nine tenths
and half of it, and a percentage of any duration. No intermediate value exceeds its type. -/
theorem percentThresholds_exact {limit duration percent : ℕ} (hlimit : limit ≤ usizeMax)
    (hduration : duration < 2 ^ 64 * 1000000000) (hpercent : percent ≤ 100) :
    (percentThreshold limit percent = ⌈(limit * percent / 100 : ℚ)⌉₊ ∧
      limit / 100 * percent + (limit % 100 * percent + 99) / 100 ≤ usizeMax ∧
      limit % 100 * percent + 99 ≤ usizeMax) ∧
    saturatedInFlightThreshold limit = ⌈(limit * 90 / 100 : ℚ)⌉₊ ∧
    lowLoadInFlightThreshold limit = ⌈(limit * 50 / 100 : ℚ)⌉₊ ∧
    durationPercentThreshold duration percent = ⌈(duration * percent / 100 : ℚ)⌉₊ ∧
      duration * percent + 99 < 2 ^ 128 := by
  have hceil (a b : ℕ) : ⌈(a * b / 100 : ℚ)⌉₊ = (a * b + 99) / 100 :=
    eq_of_forall_ge_iff fun c => by
      rw [Nat.ceil_le, div_le_iff₀ (by norm_num)]
      norm_cast
      omega
  have hsplit : limit * percent = 100 * (limit / 100 * percent) + limit % 100 * percent := by
    nth_rewrite 1 [← Nat.div_add_mod limit 100]
    ring
  have hquotient := Nat.mul_le_mul_left (limit / 100) hpercent
  have hremainder := Nat.mul_le_mul_left (limit % 100) hpercent
  have hnanos := Nat.mul_le_mul_left duration hpercent
  have h90 := hceil limit 90
  have h50 := hceil limit 50
  push_cast at h90 h50
  rw [hceil, hceil, h90, h50, percentThreshold, saturatedInFlightThreshold,
    lowLoadInFlightThreshold, durationPercentThreshold, saturatingAdd]
  rw [usizeMax] at hlimit ⊢
  refine ⟨⟨?_, ?_, ?_⟩, ?_, ?_, rfl, ?_⟩ <;> omega

/-- The threshold of a probe at the greatest limit is exact. -/
theorem percentThresholds_exact_probe : percentThreshold usizeMax probePercent
    = ⌈(usizeMax * probePercent / 100 : ℚ)⌉₊ :=
  (percentThresholds_exact le_rfl (Nat.mul_pos (by norm_num) (by norm_num)) (by decide)).1.1

section Transition

variable {F : Type} [AdmissionFloat F]

/-! ### Single moves -/

/-- Reduce the limit by the gradient, but not below the minimum. -/
def normalBackoff (config : AdmissionConfig) (state : ControllerState F) (gradient : F) :
    ControllerState F :=
  let factor := clamp gradient (ofDecimal 80 2) (ofDecimal 90 2)
  let scaledFactor := floor (mul factor (ofNat 1000000))
  let reduced := min (state.desiredLimit * scaledFactor / 1000000) usizeMax
  { state with
    desiredLimit := max reduced config.minimumConcurrency
    state := .backoff
    nonCongestedWindows := 0
    congestedWindows := 0
    probePreviousLimit := none }

/-- Half of a limit, but not below the minimum. -/
def emergencyLimit (config : AdmissionConfig) (current : ℕ) : ℕ :=
  max (current / 2) config.minimumConcurrency

/-- The time until the next probe, four to six seconds, and the advanced generator. -/
def probeDelay (rng : UInt64) : ℕ × UInt64 :=
  let rng := rng ^^^ (rng <<< 7)
  let rng := rng ^^^ (rng >>> 9)
  let rng := rng ^^^ (rng <<< 8)
  ((4 + (rng % 3).toNat) * 1000000000, rng)

/-- Try a higher limit and remember the one to return to. -/
def beginProbe (config : AdmissionConfig) (state : ControllerState F)
    (signals : WindowSignals F) : ControllerState F :=
  let delta := max (percentThreshold state.desiredLimit probePercent) 1
  { state with
    probePreviousLimit := some state.desiredLimit
    previousSaturatedGoodput := some signals.goodput
    desiredLimit := min (saturatingAdd state.desiredLimit delta) config.effectiveMaximum
    state := .probe }

/-! ### Transitions by state -/

/-- A window during warmup: two healthy windows end it. -/
def warmupWindow (config : AdmissionConfig) (state : ControllerState F)
    (signals : WindowSignals F) (sustained : Bool) : ControllerState F :=
  if signals.congested then
    let state := { state with healthyWindows := 0 }
    if sustained then normalBackoff config state signals.gradient else state
  else if !signals.enoughSamples then { state with healthyWindows := 0 }
  else
    let state := { state with healthyWindows := saturatingAdd state.healthyWindows 1 }
    if state.healthyWindows ≥ 2 then { state with state := .stable } else state

/-- A window of a steady state: congestion backs off, three saturated healthy windows probe. The
stable and the recovering state behave alike here. -/
def steadyWindow (config : AdmissionConfig) (state : ControllerState F)
    (signals : WindowSignals F) (sustained : Bool) : ControllerState F :=
  if sustained then
    { normalBackoff config state signals.gradient with saturatedHealthyWindows := 0 }
  else if signals.congested then { state with saturatedHealthyWindows := 0 }
  else if signals.saturated && signals.enoughSamples
      && le (ofNat 1) signals.gradient then
    let state :=
      { state with saturatedHealthyWindows := saturatingAdd state.saturatedHealthyWindows 1 }
    if state.saturatedHealthyWindows ≥ 3 ∧ signals.now ≥ state.probeDue then
      beginProbe config state signals
    else state
  else if !signals.saturated then { state with saturatedHealthyWindows := 0 }
  else state

/-- The goodput of a probe is better than before it. -/
def probeImproved (state : ControllerState F) (signals : WindowSignals F) : Bool :=
  lt (ofNat 0) signals.goodput
    && state.previousSaturatedGoodput.all (fun prior =>
      lt (ofNat 0) prior
        && le (mul prior (ofDecimal 102 2)) signals.goodput)
    && signals.enoughSamples
    && le (ofNat 1) signals.gradient

/-- The window of a probe: keep the limit if it helped, otherwise return to the previous one. -/
def probeWindow (config : AdmissionConfig) (state : ControllerState F)
    (signals : WindowSignals F) : ControllerState F :=
  let previous := state.probePreviousLimit.getD state.desiredLimit
  let next :=
    if !signals.saturated then { state with state := .stable, probePreviousLimit := none }
    else if probeImproved state signals then
      { state with
        previousSaturatedGoodput := some signals.goodput
        state := .stable
        probePreviousLimit := none }
    else
      { state with
        desiredLimit := max previous config.minimumConcurrency
        state := .backoff
        probePreviousLimit := none }
  let delay := probeDelay next.rng
  { next with probeDue := signals.now + delay.1, rng := delay.2 }

/-- A window during backoff: two windows without congestion end it. -/
def backoffWindow (config : AdmissionConfig) (state : ControllerState F)
    (signals : WindowSignals F) (sustained : Bool) : ControllerState F :=
  if sustained then normalBackoff config state signals.gradient
  else if signals.congested then { state with nonCongestedWindows := 0 }
  else
    let state := { state with nonCongestedWindows := saturatingAdd state.nonCongestedWindows 1 }
    if state.nonCongestedWindows ≥ 2 then
      { state with state := .recovering, nonCongestedWindows := 0 }
    else state

/-- A window without pressure during an emergency: the third in a row ends it. -/
def emergencyWindow (state : ControllerState F) : ControllerState F :=
  let state := { state with emergencyClearWindows := saturatingAdd state.emergencyClearWindows 1 }
  if state.emergencyClearWindows ≥ 3 then { state with state := .recovering } else state

/-- Judge a window without pressure, by the state it finds the controller in. -/
def clearWindow (config : AdmissionConfig) (state : ControllerState F)
    (signals : WindowSignals F) : ControllerState F :=
  let sustained := decide (state.congestedWindows ≥ 2)
  match state.state with
  | .warmup => warmupWindow config state signals sustained
  | .stable | .recovering => steadyWindow config state signals sustained
  | .probe => probeWindow config state signals
  | .backoff => backoffWindow config state signals sustained
  | .emergency => emergencyWindow state

/-- Judge a window by its signals. -/
def transitionWindow (config : AdmissionConfig) (state : ControllerState F)
    (signals : WindowSignals F) : ControllerState F :=
  if !config.enabled then
    { state with
      desiredLimit := config.effectiveMaximum
      state := .stable
      probePreviousLimit := none }
  else if signals.pressure then
    let state :=
      if !state.window.emergencyReductionApplied then
        { state with
          desiredLimit := emergencyLimit config state.desiredLimit
          window := { state.window with emergencyReductionApplied := true } }
      else state
    { state with
      state := .emergency
      emergencyClearWindows := 0
      congestedWindows := 0
      probePreviousLimit := none }
  else
    clearWindow config
      { state with
        congestedWindows :=
          if signals.congested then saturatingAdd state.congestedWindows 1 else 0 }
      signals

/-! ### Evaluation -/

/-- The baselines after a lightly loaded window, and whether one was raised: a lower latency is
taken over, a higher one raises the baseline by a hundredth. -/
def followBaselines (state : ControllerState F) (percentiles : AdmissionClass → Option F)
    (canRaise : Bool) : (AdmissionClass → F) × Bool :=
  AdmissionClass.all.foldl
    (fun acc cls =>
      if state.window.completed cls < baselineSampleMinimum then acc
      else match percentiles cls with
        | none => acc
        | some p90 =>
          if lt p90 (acc.1 cls) then (Function.update acc.1 cls p90, acc.2)
          else if canRaise then
            let raised := mul (acc.1 cls) (ofDecimal 101 2)
            if lt raised p90 then (Function.update acc.1 cls raised, true) else acc
          else acc)
    (state.baselinesMs, false)

/-- Let the latency baselines follow the measurements of a lightly loaded window. -/
def updateLowLoadBaselines (state : ControllerState F) (now : ℕ)
    (percentiles : AdmissionClass → Option F) : ControllerState F :=
  let lowLoad := state.window.peakInFlight < lowLoadInFlightThreshold state.desiredLimit
    ∧ state.window.queueWaits = 0
  if ¬ lowLoad then { state with lowLoadWindows := 0 }
  else
    let state := { state with lowLoadWindows := saturatingAdd state.lowLoadWindows 1 }
    let canRaise := decide (state.lowLoadWindows ≥ 5)
      && state.lastBaselineRaiseAt.all fun last => decide (now - last ≥ baselineRaiseInterval)
    let followed := followBaselines state percentiles canRaise
    { state with
      baselinesMs := followed.1
      lastBaselineRaiseAt := if followed.2 then some now else state.lastBaselineRaiseAt }

/-- The worst ratio of a class's baseline to its latency. -/
def windowGradient (state : ControllerState F) (percentiles : AdmissionClass → Option F) : F :=
  let ratios := AdmissionClass.all.filterMap fun cls =>
    if state.window.completed cls < baselineSampleMinimum then none
    else (percentiles cls).map fun p90 =>
      div (mul (state.baselinesMs cls) (ofDecimal 120 2)) p90
  match ratios with
  | [] => FloatOps.infinity
  | ratio :: rest => rest.foldl FloatOps.min ratio

/-- The successes in a second. -/
def windowGoodput (window : Window) (elapsed : ℕ) : F :=
  if elapsed = 0 then ofNat 0
  else div (ofNat window.successes)
    (div (ofNat elapsed) (ofNat 1000000000))

/-- The signals of a window, after the queue was observed. -/
def windowSignals (state : ControllerState F) (now : ℕ) : WindowSignals F :=
  let elapsed := now - state.window.startedAt
  let saturated :=
    decide (state.window.peakInFlight ≥ saturatedInFlightThreshold state.desiredLimit)
      || decide (state.window.queueWaits > 0)
      || decide (state.window.queueNonemptyFor
        ≥ durationPercentThreshold elapsed queueSaturationPercent)
  let gradient := windowGradient state fun cls => Window.p90 (state.window.samples cls)
  { saturated := saturated
    congested := state.window.pressure
      || (saturated && lt gradient (ofNat 1))
    pressure := state.window.pressure
    enoughSamples := decide
      ((AdmissionClass.all.map state.window.completed).sum ≥ baselineSampleMinimum)
    gradient := gradient
    goodput := windowGoodput state.window elapsed
    now := now }

/-- The start of an evaluation: the queue is observed and the baselines follow a light load. -/
def prepareEvaluation (state : ControllerState F) (now : ℕ) :
    ControllerState F × WindowSignals F :=
  let state := { state with window := state.window.observeQueue now state.queue.length }
  let signals := windowSignals state now
  let state :=
    if !signals.saturated && !signals.pressure
        && (decide (state.state = .warmup) || decide (state.state = .stable)) then
      updateLowLoadBaselines state now fun cls => Window.p90 (state.window.samples cls)
    else { state with lowLoadWindows := 0 }
  (state, signals)

/-- Judge the window, and start the next one if it closes. `evaluate_window` closes it, and
`evaluate_pressure` does not. -/
def evaluateWindowInner (config : AdmissionConfig) (state : ControllerState F) (now : ℕ)
    (closeWindow : Bool) : ControllerState F × WindowSignals F :=
  let (state, signals) := prepareEvaluation state now
  let state := transitionWindow config state signals
  if closeWindow then
    ({ state with
        window := { Window.new now with queueWasNonempty := !state.queue.isEmpty } }, signals)
  else (state, signals)

/-! ### What a transition does -/

/-- The fields of the slots and the queue, which no transition changes. -/
structure SameSlots (state next : ControllerState F) : Prop where
  inFlight : next.inFlight = state.inFlight
  byClass : next.inFlightByClass = state.inFlightByClass
  queue : next.queue = state.queue
  nextWaiterId : next.nextWaiterId = state.nextWaiterId
  rejectionCount : next.rejectionCount = state.rejectionCount

variable {a b c : ControllerState F}

omit [AdmissionFloat F] in
/-- Keeping the slots composes. -/
theorem SameSlots.trans (h : SameSlots a b) (h' : SameSlots b c) : SameSlots a c :=
  ⟨h'.1.trans h.1, h'.2.trans h.2, h'.3.trans h.3, h'.4.trans h.4, h'.5.trans h.5⟩

/-- The limits that the controller keeps between the minimum and the effective maximum. -/
structure LimitBounds (config : AdmissionConfig) (state : ControllerState F) : Prop where
  minimum_le : config.minimumConcurrency ≤ state.desiredLimit
  le_maximum : state.desiredLimit ≤ config.effectiveMaximum
  previous_le : ∀ limit ∈ state.probePreviousLimit, limit ≤ config.effectiveMaximum
  fixed : config.enabled = false → state.desiredLimit = config.effectiveMaximum

/-- A move that keeps the slots, the window and the count of clear windows, keeps the limits in
bounds, and neither begins nor ends an emergency. -/
structure QuietMove (config : AdmissionConfig) (state next : ControllerState F) : Prop where
  slots : SameSlots state next
  window : next.window = state.window
  clear : next.emergencyClearWindows = state.emergencyClearWindows
  bounds : config.enabled = true → LimitBounds config state → LimitBounds config next
  calm : next.state ≠ .emergency

/-- A backoff is a quiet move. -/
theorem normalBackoff_quiet (config : AdmissionConfig) (state : ControllerState F) (gradient : F)
    (hconfig : config.minimumConcurrency ≤ config.effectiveMaximum) :
    QuietMove config state (normalBackoff config state gradient) := by
  refine ⟨⟨rfl, rfl, rfl, rfl, rfl⟩, rfl, rfl, fun henabled h => ⟨le_max_right .., ?_, ?_, ?_⟩,
    noConfusion⟩
  · refine max_le ((min_le_left ..).trans ?_) hconfig
    calc state.desiredLimit * _ / 1000000
        ≤ state.desiredLimit * 1000000 / 1000000 :=
          Nat.div_le_div_right (Nat.mul_le_mul_left _ (AdmissionFloat.floor_scaled_le gradient))
      _ = state.desiredLimit := Nat.mul_div_cancel _ (by norm_num)
      _ ≤ config.effectiveMaximum := h.le_maximum
  · intro limit hlimit
    cases hlimit
  · simp [henabled]

omit [AdmissionFloat F] in
/-- The start of a probe is a quiet move. -/
theorem beginProbe_quiet (config : AdmissionConfig) (state : ControllerState F)
    (signals : WindowSignals F) (hconfig : config.minimumConcurrency ≤ config.effectiveMaximum) :
    QuietMove config state (beginProbe config state signals) := by
  refine ⟨⟨rfl, rfl, rfl, rfl, rfl⟩, rfl, rfl, fun henabled h => ⟨?_, min_le_right .., ?_, ?_⟩,
    noConfusion⟩
  · have hle := h.le_maximum.trans config.effectiveMaximum_le
    refine le_min (h.minimum_le.trans ?_) hconfig
    exact le_min (Nat.le_add_right ..) hle
  · rintro limit ⟨⟩
    exact h.le_maximum
  · simp [henabled]

variable {next : ControllerState F}

omit [AdmissionFloat F] in
/-- A change that keeps the slots, the window and the limit is a quiet move. -/
theorem quiet_of_counters {config : AdmissionConfig} {state : ControllerState F}
    (hprevious : next.probePreviousLimit = state.probePreviousLimit
      ∨ next.probePreviousLimit = none) (hcalm : next.state ≠ .emergency)
    (hslots : SameSlots state next := by exact ⟨rfl, rfl, rfl, rfl, rfl⟩)
    (hwindow : next.window = state.window := by rfl)
    (hclear : next.emergencyClearWindows = state.emergencyClearWindows := by rfl)
    (hlimit : next.desiredLimit = state.desiredLimit := by rfl) :
    QuietMove config state next := by
  refine ⟨hslots, hwindow, hclear, fun henabled h => ⟨?_, ?_, ?_, ?_⟩, hcalm⟩
  · rw [hlimit]; exact h.minimum_le
  · rw [hlimit]; exact h.le_maximum
  · rcases hprevious with hprevious | hprevious
    · rw [hprevious]; exact h.previous_le
    · rw [hprevious]; rintro limit ⟨⟩
  · simp [henabled]

omit [AdmissionFloat F] in
/-- A quiet move after a change of the counters alone. -/
theorem QuietMove.of_counters {config : AdmissionConfig} (h : QuietMove config b c)
    (hslots : SameSlots a b := by exact ⟨rfl, rfl, rfl, rfl, rfl⟩)
    (hwindow : b.window = a.window := by rfl)
    (hclear : b.emergencyClearWindows = a.emergencyClearWindows := by rfl)
    (hlimit : b.desiredLimit = a.desiredLimit := by rfl)
    (hprevious : b.probePreviousLimit = a.probePreviousLimit := by rfl) : QuietMove config a c := by
  refine ⟨hslots.trans h.slots, h.window.trans hwindow, h.clear.trans hclear,
    fun henabled ha => h.bounds henabled ⟨?_, ?_, ?_, ?_⟩, h.calm⟩
  · rw [hlimit]; exact ha.minimum_le
  · rw [hlimit]; exact ha.le_maximum
  · rw [hprevious]; exact ha.previous_le
  · simp [henabled]

section Windows

variable {config : AdmissionConfig} {state : ControllerState F} (signals : WindowSignals F)
  (sustained : Bool) (hconfig : config.minimumConcurrency ≤ config.effectiveMaximum)

include hconfig

/-- A window of the warmup is a quiet move. -/
theorem warmupWindow_quiet (hstate : state.state = .warmup) :
    QuietMove config state (warmupWindow config state signals sustained) := by
  have hcalm : state.state ≠ .emergency := by simp [hstate]
  unfold warmupWindow
  dsimp only
  split_ifs
  · exact (normalBackoff_quiet config _ signals.gradient hconfig).of_counters
  · exact quiet_of_counters (.inl rfl) hcalm
  · exact quiet_of_counters (.inl rfl) hcalm
  · exact quiet_of_counters (.inl rfl) noConfusion
  · exact quiet_of_counters (.inl rfl) hcalm

/-- A window of the steady state is a quiet move. -/
theorem steadyWindow_quiet (hcalm : state.state ≠ .emergency) :
    QuietMove config state (steadyWindow config state signals sustained) := by
  unfold steadyWindow
  dsimp only
  split_ifs
  · have h := normalBackoff_quiet config state signals.gradient hconfig
    exact ⟨⟨rfl, rfl, rfl, rfl, rfl⟩, rfl, rfl, fun henabled hb =>
      ⟨(h.bounds henabled hb).1, (h.bounds henabled hb).2, (h.bounds henabled hb).3,
        (h.bounds henabled hb).4⟩, h.calm⟩
  · exact quiet_of_counters (.inl rfl) hcalm
  · exact (beginProbe_quiet config _ signals hconfig).of_counters
  · exact quiet_of_counters (.inl rfl) hcalm
  · exact quiet_of_counters (.inl rfl) hcalm
  · exact quiet_of_counters (.inl rfl) hcalm

/-- A window of a probe is a quiet move. -/
theorem probeWindow_quiet : QuietMove config state (probeWindow config state signals) := by
  unfold probeWindow
  dsimp only
  split_ifs
  · exact quiet_of_counters (.inr rfl) noConfusion
  · exact quiet_of_counters (.inr rfl) noConfusion
  · refine ⟨⟨rfl, rfl, rfl, rfl, rfl⟩, rfl, rfl, fun henabled h => ⟨le_max_right .., ?_, ?_, ?_⟩,
      noConfusion⟩
    -- the remembered limit was the limit of an earlier state
    · refine max_le ?_ hconfig
      cases hprevious : state.probePreviousLimit with
      | none => exact h.le_maximum
      | some limit => exact h.previous_le limit hprevious
    · rintro limit ⟨⟩
    · simp [henabled]

/-- A window of a backoff is a quiet move. -/
theorem backoffWindow_quiet (hcalm : state.state ≠ .emergency) :
    QuietMove config state (backoffWindow config state signals sustained) := by
  unfold backoffWindow
  dsimp only
  split_ifs
  · exact normalBackoff_quiet config state signals.gradient hconfig
  · exact quiet_of_counters (.inl rfl) hcalm
  · exact quiet_of_counters (.inl rfl) noConfusion
  · exact quiet_of_counters (.inl rfl) hcalm

/-- Without pressure an emergency does not begin. -/
theorem clearWindow_quiet (hcalm : state.state ≠ .emergency) :
    QuietMove config state (clearWindow config state signals) := by
  unfold clearWindow
  cases hstate : state.state with
  | warmup => exact warmupWindow_quiet signals _ hconfig hstate
  | stable | recovering => exact steadyWindow_quiet signals _ hconfig hcalm
  | probe => exact probeWindow_quiet signals hconfig
  | backoff => exact backoffWindow_quiet signals _ hconfig hcalm
  | emergency => exact absurd hstate hcalm

end Windows

variable {config : AdmissionConfig}

/-- All that a transition does to the limit and to the emergency. The window keeps its pressure
and only gains the mark of an emergency reduction. -/
structure Transitions (config : AdmissionConfig) (pressure : Bool)
    (state next : ControllerState F) : Prop where
  slots : SameSlots state next
  bounds : LimitBounds config state → LimitBounds config next
  /-- A disabled controller is stable, and its window does not change. -/
  disabled : config.enabled = false → next.state = .stable ∧ next.window = state.window
  /-- Pressure begins an emergency, and lowers the limit only in an unmarked window. -/
  pressured : config.enabled = true → pressure = true →
    next.state = .emergency ∧ next.emergencyClearWindows = 0
      ∧ next.window = { state.window with emergencyReductionApplied := true }
      ∧ (next.desiredLimit = state.desiredLimit ∨ state.window.emergencyReductionApplied = false
          ∧ next.desiredLimit = emergencyLimit config state.desiredLimit)
  /-- Without pressure an emergency does not begin. -/
  clear : config.enabled = true → pressure = false →
    next.window = state.window ∧ (next.state = .emergency → state.state = .emergency)
  /-- Without pressure an emergency goes on for three windows. -/
  emergency : config.enabled = true → pressure = false → state.state = .emergency →
    state.emergencyClearWindows < 3 →
    next.emergencyClearWindows = state.emergencyClearWindows + 1
      ∧ (next.state = .emergency ↔ state.emergencyClearWindows + 1 < 3)

variable (state : ControllerState F) (signals : WindowSignals F)

/-- An emergency never raises the limit. -/
theorem emergencyLimit_le {limit : ℕ}
    (h : config.minimumConcurrency ≤ limit) : emergencyLimit config limit ≤ limit :=
  max_le (Nat.div_le_self ..) h

/-- A window with pressure is a transition, into the emergency. -/
theorem transitionWindow_pressure (henabled : config.enabled = true)
    (hpressure : signals.pressure = true) :
    Transitions config signals.pressure state (transitionWindow config state signals) := by
  rw [transitionWindow, if_neg (by simp [henabled]), if_pos hpressure]
  by_cases hmark : state.window.emergencyReductionApplied = true
  · rw [if_neg (by simp [hmark])]
    refine ⟨⟨rfl, rfl, rfl, rfl, rfl⟩, fun h => ⟨h.minimum_le, h.le_maximum, ?_, ?_⟩, ?_,
      fun _ _ => ⟨rfl, rfl, by rw [← hmark], .inl rfl⟩, ?_, ?_⟩
    · rintro limit ⟨⟩
    all_goals simp [henabled, hpressure]
  · rw [if_pos (by simp [hmark])]
    refine ⟨⟨rfl, rfl, rfl, rfl, rfl⟩, fun h => ⟨le_max_right .., ?_, ?_, ?_⟩, ?_,
      fun _ _ => ⟨rfl, rfl, rfl, .inr ⟨by simpa using hmark, rfl⟩⟩, ?_, ?_⟩
    · exact (emergencyLimit_le h.minimum_le).trans h.le_maximum
    · rintro limit ⟨⟩
    all_goals simp [henabled, hpressure]

omit [AdmissionFloat F] in
/-- A quiet move is a transition outside the emergency. -/
theorem QuietMove.transitions {state : ControllerState F} (h : QuietMove config state next)
    (henabled : config.enabled = true) (hstate : state.state ≠ .emergency) :
    Transitions config false state next := by
  refine ⟨h.slots, h.bounds henabled, ?_, ?_, fun _ _ => ⟨h.window, fun hnext => ?_⟩, ?_⟩
  · simp [henabled]
  · simp
  · exact absurd hnext h.calm
  · intro _ _ hemergency
    exact absurd hemergency hstate

omit [AdmissionFloat F] in
/-- A clear window of an emergency counts towards its end. -/
theorem emergencyWindow_transitions (henabled : config.enabled = true)
    (hstate : state.state = .emergency) : Transitions config false state (emergencyWindow state) := by
  have hbounds {next : ControllerState F} (hlimit : next.desiredLimit = state.desiredLimit)
      (hprevious : next.probePreviousLimit = state.probePreviousLimit)
      (h : LimitBounds config state) : LimitBounds config next :=
    ⟨hlimit ▸ h.minimum_le, hlimit ▸ h.le_maximum, hprevious ▸ h.previous_le, by simp [henabled]⟩
  have hadd : state.emergencyClearWindows < 3 →
      saturatingAdd state.emergencyClearWindows 1 = state.emergencyClearWindows + 1 := by
    intro h
    refine saturatingAdd_eq ?_
    norm_num [usizeMax]
    omega
  unfold emergencyWindow
  dsimp only
  split_ifs with hclear
  · refine ⟨⟨rfl, rfl, rfl, rfl, rfl⟩, hbounds rfl rfl, by simp [henabled], by simp,
      fun _ _ => ⟨rfl, fun _ => hstate⟩, fun _ _ _ hlt => ⟨hadd hlt, ?_⟩⟩
    have hge : saturatingAdd state.emergencyClearWindows 1 ≥ 3 := hclear
    rw [hadd hlt] at hge
    simp
    omega
  · refine ⟨⟨rfl, rfl, rfl, rfl, rfl⟩, hbounds rfl rfl, by simp [henabled], by simp,
      fun _ _ => ⟨rfl, fun _ => hstate⟩, fun _ _ _ hlt => ⟨hadd hlt, ?_⟩⟩
    have hge : ¬ saturatingAdd state.emergencyClearWindows 1 ≥ 3 := hclear
    rw [hadd hlt] at hge
    simp only [hstate, true_iff]
    omega

omit [AdmissionFloat F] in
/-- A transition after a change of the counters alone. -/
theorem Transitions.of_counters {pressure : Bool} (h : Transitions config pressure b c)
    (hslots : SameSlots a b := by exact ⟨rfl, rfl, rfl, rfl, rfl⟩)
    (hwindow : b.window = a.window := by rfl) (hstate : b.state = a.state := by rfl)
    (hclear : b.emergencyClearWindows = a.emergencyClearWindows := by rfl)
    (hlimit : b.desiredLimit = a.desiredLimit := by rfl)
    (hprevious : b.probePreviousLimit = a.probePreviousLimit := by rfl) :
    Transitions config pressure a c := by
  obtain ⟨h1, h2, h3, h4, h5, h6⟩ := h
  rw [hwindow] at h3 h4 h5
  rw [hlimit] at h4
  rw [hstate] at h5 h6
  rw [hclear] at h6
  refine ⟨hslots.trans h1, fun ha => h2 ⟨?_, ?_, ?_, ?_⟩, h3, h4, h5, h6⟩
  · rw [hlimit]; exact ha.minimum_le
  · rw [hlimit]; exact ha.le_maximum
  · rw [hprevious]; exact ha.previous_le
  · rw [hlimit]; exact ha.fixed

section Window

variable (hconfig : config.minimumConcurrency ≤ config.effectiveMaximum)

include hconfig

/-- A disabled controller does not move. -/
theorem transitionWindow_disabled (henabled : config.enabled = false) :
    Transitions config signals.pressure state (transitionWindow config state signals) := by
  have heq : transitionWindow config state signals
      = { state with
          desiredLimit := config.effectiveMaximum
          state := .stable
          probePreviousLimit := none } := by
    simp [transitionWindow, henabled]
  rw [heq]
  refine ⟨⟨rfl, rfl, rfl, rfl, rfl⟩, fun _ => ⟨hconfig, le_rfl, ?_, fun _ => rfl⟩,
    fun _ => ⟨rfl, rfl⟩, ?_, ?_, ?_⟩
  · rintro limit ⟨⟩
  all_goals simp [henabled]

/-- A window without pressure is a transition, in every state. -/
theorem clearWindow_transitions (henabled : config.enabled = true) :
    Transitions config false state (clearWindow config state signals) := by
  by_cases hstate : state.state = .emergency
  · rw [clearWindow, hstate]
    exact emergencyWindow_transitions _ henabled hstate
  · exact (clearWindow_quiet signals hconfig hstate).transitions henabled hstate

/-- A clear window of an enabled controller is a transition. -/
theorem transitionWindow_clear (henabled : config.enabled = true)
    (hpressure : signals.pressure = false) :
    Transitions config signals.pressure state (transitionWindow config state signals) := by
  rw [hpressure, transitionWindow, if_neg (by simp [henabled]), if_neg (by simp [hpressure])]
  exact (clearWindow_transitions _ signals hconfig henabled).of_counters

/-- **Every window is a transition.** -/
theorem transitionWindow_transitions :
    Transitions config signals.pressure state (transitionWindow config state signals) := by
  cases henabled : config.enabled with
  | false => exact transitionWindow_disabled state signals hconfig henabled
  | true =>
    cases hpressure : signals.pressure with
    | false => exact hpressure ▸ transitionWindow_clear state signals hconfig henabled hpressure
    | true => exact hpressure ▸ transitionWindow_pressure state signals henabled hpressure

end Window

/-! ### What an evaluation does -/

/-- The update of the baselines does not disturb a transition. -/
theorem updateLowLoadBaselines_quiet (now : ℕ) (percentiles : AdmissionClass → Option F)
    (pressure : Bool)
    (h : Transitions config pressure (updateLowLoadBaselines state now percentiles) next) :
    Transitions config pressure state next := by
  revert h
  unfold updateLowLoadBaselines
  dsimp only
  by_cases hload : state.window.peakInFlight < lowLoadInFlightThreshold state.desiredLimit
      ∧ state.window.queueWaits = 0
  · rw [if_neg (not_not_intro hload)]
    exact fun h => h.of_counters
  · rw [if_pos hload]
    exact fun h => h.of_counters

/-- The state with the queue observed, which is where an evaluation starts from. -/
def observed (state : ControllerState F) (now : ℕ) : ControllerState F :=
  { state with window := state.window.observeQueue now state.queue.length }

/-- **An evaluation is a transition** of the observed state. -/
theorem prepareEvaluation_transitions (now : ℕ)
    (hconfig : config.minimumConcurrency ≤ config.effectiveMaximum) :
    (prepareEvaluation state now).2.pressure = state.window.pressure ∧
      Transitions config state.window.pressure (observed state now)
        (transitionWindow config (prepareEvaluation state now).1
          (prepareEvaluation state now).2) := by
  refine ⟨rfl, ?_⟩
  have h := transitionWindow_transitions (prepareEvaluation state now).1
    (prepareEvaluation state now).2 hconfig
  change Transitions config state.window.pressure _ _ at h
  revert h
  unfold prepareEvaluation
  dsimp only
  split_ifs
  · exact updateLowLoadBaselines_quiet _ _ _ _
  · exact fun h => h.of_counters

/-- The window that follows a closed one. -/
def nextWindow (state : ControllerState F) (now : ℕ) : Window :=
  { Window.new now with queueWasNonempty := !state.queue.isEmpty }

/-- **An evaluation** is a transition, and starts a new window if it closes the old one. -/
theorem evaluateWindowInner_effect (now : ℕ) (closeWindow : Bool)
    (hconfig : config.minimumConcurrency ≤ config.effectiveMaximum) :
    ∃ next, Transitions config state.window.pressure (observed state now) next ∧
      (evaluateWindowInner config state now closeWindow).2.pressure = state.window.pressure ∧
      (evaluateWindowInner config state now closeWindow).1
        = if closeWindow then { next with window := nextWindow next now } else next := by
  obtain ⟨hpressure, htransition⟩ := prepareEvaluation_transitions state now hconfig
  refine ⟨_, htransition, ?_, ?_⟩
  · rw [← hpressure]
    unfold evaluateWindowInner
    cases closeWindow <;> rfl
  · unfold evaluateWindowInner
    cases closeWindow <;> rfl

end Transition

end AuxStorage.Admission
