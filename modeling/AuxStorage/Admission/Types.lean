import AuxStorage.Lib.FloatOps
import AuxStorage.Text

/-!
# Admission: Configuration, Window and State

The data of the foreground admission controller of one storage connection: its tuning values and
their checks, the sampling window, and the state behind the controller's lock. An array with an
entry for each workload class is a function of the class. Times and durations are nanoseconds.

Left out are the control lane, whose counter no foreground decision reads, and the metrics.
-/

namespace AuxStorage.Admission

/-- The bounded workload classes. -/
inductive AdmissionClass
  | pointRead
  | rangeRead
  | write
  deriving DecidableEq, Repr

/-- All classes, in the order of their array index. -/
def AdmissionClass.all : List AdmissionClass := [.pointRead, .rangeRead, .write]

/-- The adaptive states. -/
inductive AdmissionState
  | warmup
  | stable
  | probe
  | backoff
  | recovering
  | emergency
  deriving DecidableEq, Repr

/-- The greatest `usize`. -/
def usizeMax : ℕ := 2 ^ 64 - 1

/-- `usize::saturating_add`. -/
def saturatingAdd (a b : ℕ) : ℕ := min (a + b) usizeMax

theorem saturatingAdd_eq {a b : ℕ} (h : a + b ≤ usizeMax) : saturatingAdd a b = a + b :=
  min_eq_left h

/-! ### Configuration -/

/-- The tuning values; the maximum is a `usize`, the other integers are as large as they like. -/
structure AdmissionConfig where
  enabled : Bool
  initialSustainableThroughputRps : ℕ
  initialLatencyEstimateMs : ℕ
  minimumConcurrency : ℕ
  maximumConcurrency : ℕ
  controlReserveConcurrency : ℕ
  queueCapacity : ℕ
  maxQueueWaitMs : ℕ
  maximumConcurrency_le : maximumConcurrency ≤ usizeMax

namespace AdmissionConfig

/-- The foreground part of the maximum. -/
def effectiveMaximum (config : AdmissionConfig) : ℕ :=
  config.maximumConcurrency - config.controlReserveConcurrency

/-- The limit that the estimates of the configuration suggest: rate times latency, rounded up. The
128-bit product of two 64-bit integers does not overflow. -/
def bootstrapLimit (config : AdmissionConfig) : ℕ :=
  let product := config.initialSustainableThroughputRps * config.initialLatencyEstimateMs
  let rounded := (product + 999) / 1000
  let estimate := min rounded config.effectiveMaximum
  max config.minimumConcurrency (min estimate config.effectiveMaximum)

/-- The checks of the configuration, with the message of the first that fails. -/
def tryNew (config : AdmissionConfig) : Except Text AdmissionConfig :=
  if config.initialSustainableThroughputRps = 0 then
    .error (text "initial_sustainable_throughput_rps must be greater than zero")
  else if config.initialLatencyEstimateMs = 0 then
    .error (text "initial_latency_estimate_ms must be greater than zero")
  else if config.minimumConcurrency = 0 then
    .error (text "minimum_concurrency must be greater than zero")
  else if config.maximumConcurrency < config.minimumConcurrency then
    .error (text "maximum_concurrency must be at least minimum_concurrency")
  else if config.controlReserveConcurrency ≥ config.maximumConcurrency then
    .error (text "control_reserve_concurrency must be less than maximum_concurrency")
  else if config.effectiveMaximum < config.minimumConcurrency then
    .error (text "effective foreground maximum must be at least minimum_concurrency")
  else if config.maxQueueWaitMs = 0 then
    .error (text "max_queue_wait_ms must be greater than zero")
  else .ok config

/-- `tokio::sync::Semaphore::MAX_PERMITS`. -/
def maxPermits : ℕ := usizeMax / 8

/-- The check of the controller, which also bounds the reserve by the semaphore's capacity. -/
def validateConfig (config : AdmissionConfig) : Except Text Unit :=
  if config.controlReserveConcurrency > maxPermits then
    .error (text "control reserve exceeds native semaphore capacity")
  else (config.tryNew).map fun _ => ()

/-- The default tuning values. -/
def default : AdmissionConfig where
  enabled := true
  initialSustainableThroughputRps := 20000
  initialLatencyEstimateMs := 5
  minimumConcurrency := 4
  maximumConcurrency := 1024
  controlReserveConcurrency := 4
  queueCapacity := 256
  maxQueueWaitMs := 25
  maximumConcurrency_le := by norm_num [usizeMax]

/-- The defaults pass their own checks. -/
theorem validateConfig_default : default.validateConfig = .ok () := rfl

theorem minimum_le_of_tryNew {config result : AdmissionConfig} (h : config.tryNew = .ok result) :
    config.minimumConcurrency ≤ config.effectiveMaximum := by
  unfold tryNew at h
  split_ifs at h
  omega

theorem minimum_le_effectiveMaximum {config : AdmissionConfig}
    (h : config.validateConfig = .ok ()) : config.minimumConcurrency ≤ config.effectiveMaximum := by
  unfold validateConfig at h
  split_ifs at h
  cases hnew : config.tryNew with
  | error message => rw [hnew] at h; cases h
  | ok result => exact minimum_le_of_tryNew hnew

theorem effectiveMaximum_le (config : AdmissionConfig) : config.effectiveMaximum ≤ usizeMax :=
  (Nat.sub_le ..).trans config.maximumConcurrency_le

end AdmissionConfig

/-! ### Outcomes -/

/-- What a provider call ended with, as the feedback loop sees it. -/
inductive AdmissionOutcome
  | success (latency : ℕ)
  | successAfterPressure (latency : ℕ)
  | failure (latency : ℕ)
  | retryablePressure (latency : ℕ)
  | timeout
  | explicitThrottle
  | cancelled
  deriving DecidableEq, Repr

namespace AdmissionOutcome

def latency : AdmissionOutcome → Option ℕ
  | success latency | successAfterPressure latency | failure latency
  | retryablePressure latency => some latency
  | timeout | explicitThrottle | cancelled => none

def isPressure : AdmissionOutcome → Bool
  | successAfterPressure _ | retryablePressure _ | timeout | explicitThrottle => true
  | success _ | failure _ | cancelled => false

def isSuccess : AdmissionOutcome → Bool
  | success _ | successAfterPressure _ => true
  | _ => false

end AdmissionOutcome

/-! ### The sampling window -/

/-- The number of samples a window keeps for each class. -/
def sampleLimit : ℕ := 128

/-- The length of a window: one second. -/
def windowLength : ℕ := 1000000000

/-- The observations since the window was started. -/
structure Window where
  startedAt : ℕ
  samples : AdmissionClass → List ℕ
  completed : AdmissionClass → ℕ
  successes : ℕ
  peakInFlight : ℕ
  queueWaits : ℕ
  queueNonemptyFor : ℕ
  explicitPressure : Bool
  queueTimeout : Bool
  lastObservationAt : ℕ
  queueWasNonempty : Bool
  emergencyReductionApplied : Bool

namespace Window

def new (now : ℕ) : Window where
  startedAt := now
  samples _ := []
  completed _ := 0
  successes := 0
  peakInFlight := 0
  queueWaits := 0
  queueNonemptyFor := 0
  explicitPressure := false
  queueTimeout := false
  lastObservationAt := now
  queueWasNonempty := false
  emergencyReductionApplied := false

/-- Charge the interval since the last observation to the state that held during it. -/
def observeQueue (window : Window) (now queueDepth : ℕ) : Window :=
  { window with
    queueNonemptyFor :=
      if window.queueWasNonempty then window.queueNonemptyFor + (now - window.lastObservationAt)
      else window.queueNonemptyFor
    lastObservationAt := now
    queueWasNonempty := decide (queueDepth > 0) }

/-- The ring of samples, oldest first: a full ring loses its oldest one. -/
def pushSample (samples : List ℕ) (latency : ℕ) : List ℕ :=
  if samples.length = sampleLimit then samples.drop 1 ++ [latency] else samples ++ [latency]

def addSample (window : Window) (cls : AdmissionClass) (latency : ℕ) : Window :=
  { window with
    completed := Function.update window.completed cls (saturatingAdd (window.completed cls) 1)
    samples := Function.update window.samples cls (pushSample (window.samples cls) latency) }

/-- The ninetieth percentile of the samples, in milliseconds. -/
def p90 {F : Type} [FloatOps F] (samples : List ℕ) : Option F :=
  let ordered := samples.mergeSort (· ≤ ·)
  (ordered[((samples.length - 1) * 90) / 100]?).map fun duration =>
    FloatOps.mul (FloatOps.div (FloatOps.ofNat duration) (FloatOps.ofNat 1000000000))
      (FloatOps.ofNat 1000)

/-- The window has seen a pressure signal. -/
def pressure (window : Window) : Bool := window.explicitPressure || window.queueTimeout

end Window

/-- The signals that a window is judged by. -/
structure WindowSignals (F : Type) where
  saturated : Bool
  congested : Bool
  pressure : Bool
  enoughSamples : Bool
  gradient : F
  goodput : F
  now : ℕ

/-! ### The state behind the lock -/

/-- A queued call. Its `sender` names the one-shot channel on which the call waits. -/
structure Waiter where
  id : ℕ
  cls : AdmissionClass
  enqueuedAt : ℕ
  sender : ℕ
  deriving DecidableEq, Repr

/-- The controller's state. -/
structure ControllerState (F : Type) where
  desiredLimit : ℕ
  inFlight : ℕ
  inFlightByClass : AdmissionClass → ℕ
  rejectionCount : ℕ
  nextWaiterId : ℕ
  queue : List Waiter
  state : AdmissionState
  window : Window
  baselinesMs : AdmissionClass → F
  lowLoadWindows : ℕ
  lastBaselineRaiseAt : Option ℕ
  healthyWindows : ℕ
  congestedWindows : ℕ
  nonCongestedWindows : ℕ
  emergencyClearWindows : ℕ
  saturatedHealthyWindows : ℕ
  previousSaturatedGoodput : Option F
  probePreviousLimit : Option ℕ
  probeDue : ℕ
  rng : UInt64

/-- The state of a new controller. -/
def ControllerState.new {F : Type} [FloatOps F] (config : AdmissionConfig) (now : ℕ)
    (seed : UInt64) : ControllerState F where
  desiredLimit := if config.enabled then config.bootstrapLimit else config.effectiveMaximum
  inFlight := 0
  inFlightByClass _ := 0
  rejectionCount := 0
  nextWaiterId := 1
  queue := []
  state := if config.enabled then .warmup else .stable
  window := Window.new now
  baselinesMs _ := FloatOps.ofNat config.initialLatencyEstimateMs
  lowLoadWindows := 0
  lastBaselineRaiseAt := none
  healthyWindows := 0
  congestedWindows := 0
  nonCongestedWindows := 0
  emergencyClearWindows := 0
  saturatedHealthyWindows := 0
  previousSaturatedGoodput := none
  probePreviousLimit := none
  probeDue := now + 4000000000
  rng := seed

end AuxStorage.Admission
