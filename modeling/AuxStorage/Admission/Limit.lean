import AuxStorage.Admission.Controller

/-!
# Admission: The Limit Stays in Bounds

Every state that a controller reaches has its limit between the minimum and the effective
maximum, lowers it under pressure at most once in a window, and leaves an emergency only after
three windows in a row without pressure. The comparisons of latencies and goodputs are arbitrary.

Only evaluations change the limit. All other operations keep the **control** part of the state
(`SameControl`), so the invariant (`Controlled`) is proved for an evaluation once and carried
over everything else.

## Main results

* `World.Controlled.evaluate`: what an evaluation preserves.
* `World.Controlled.step`, `World.Controlled.run`: what an event and a run preserve.
* `World.run_limit`: the limit, the reductions and the emergencies of every run.
-/

namespace AuxStorage.Admission

open Option (bind_eq_some_iff)
open List

/-- The part of the state that only evaluations and pressure signals change. -/
structure SameControl {F : Type} (before next : ControllerState F) : Prop where
  desiredLimit : next.desiredLimit = before.desiredLimit
  probePreviousLimit : next.probePreviousLimit = before.probePreviousLimit
  state : next.state = before.state
  clear : next.emergencyClearWindows = before.emergencyClearWindows
  pressure : next.window.pressure = before.window.pressure
  marked : next.window.emergencyReductionApplied = before.window.emergencyReductionApplied

namespace Evaluation

/-- An emergency reduction: pressure lowered the limit. -/
def Reduces (e : Evaluation) : Prop := e.pressure = true ∧ e.limitAfter < e.limitBefore

/-- A window of an emergency closed without pressure. -/
def ClearsWindow (e : Evaluation) : Prop :=
  e.closing = true ∧ e.pressure = false ∧ e.stateBefore = .emergency

/-- An emergency ended. -/
def LeavesEmergency (e : Evaluation) : Prop :=
  e.stateBefore = .emergency ∧ e.stateAfter ≠ .emergency

/-- Three windows in a row, the last of which `e` closed, were windows of an emergency without
pressure. -/
def AfterThreeClear (evaluations : List Evaluation) (e : Evaluation) : Prop :=
  (∀ j < 3, ∃ e' ∈ evaluations, e'.ClearsWindow ∧ e'.window + j = e.window) ∧
    ∀ e' ∈ evaluations, e.window ≤ e'.window + 2 → e'.window ≤ e.window → e'.pressure = false

end Evaluation

namespace World

section Limit

variable {F : Type}

/-- The control part of the state and the evaluations are the same. -/
def SameHistory (w w' : World F) : Prop :=
  SameControl w.controller w'.controller ∧ w'.evaluations = w.evaluations

variable {w : World F}

/-- What does not change keeps the history. -/
theorem SameHistory.rfl : SameHistory w w := ⟨⟨.refl _, .refl _, .refl _, .refl _,
  .refl _, .refl _⟩, .refl _⟩

/-- Keeping the history composes. -/
theorem SameHistory.trans {a b c : World F} (h : SameHistory a b) (h' : SameHistory b c) :
    SameHistory a c :=
  ⟨⟨h'.1.1.trans h.1.1, h'.1.2.trans h.1.2, h'.1.3.trans h.1.3, h'.1.4.trans h.1.4,
    h'.1.5.trans h.1.5, h'.1.6.trans h.1.6⟩, h'.2.trans h.2⟩

/-- The invariant of the control part. -/
structure Controlled (config : AdmissionConfig) (w : World F) : Prop where
  bounds : LimitBounds config w.controller
  disabled : config.enabled = false → w.controller.state = .stable
  window_le : ∀ e ∈ w.evaluations, e.window ≤ w.windowNumber
  closed_lt : ∀ e ∈ w.evaluations, e.closing = true → e.window < w.windowNumber
  /-- No window has two reductions. -/
  reduced : w.evaluations.Pairwise fun e e' => e.Reduces → e'.Reduces → e.window ≠ e'.window
  /-- An unmarked window has none. -/
  unmarked : w.controller.window.emergencyReductionApplied = false →
    ∀ e ∈ w.evaluations, e.Reduces → e.window < w.windowNumber
  clear_lt : w.controller.state = .emergency → w.controller.emergencyClearWindows < 3
  /-- The windows that count as clear, and the current one if it has seen no pressure, saw none. -/
  quiet : w.controller.state = .emergency → ∀ e ∈ w.evaluations, e.pressure = true →
    e.window + w.controller.emergencyClearWindows
      + (if w.controller.window.pressure then 0 else 1) ≤ w.windowNumber
  /-- The windows that count as clear were closed. -/
  counted : w.controller.state = .emergency → ∀ j < w.controller.emergencyClearWindows,
    ∃ e ∈ w.evaluations, e.ClearsWindow ∧ e.window + (j + 1) = w.windowNumber
  left : ∀ e ∈ w.evaluations, e.LeavesEmergency → e.AfterThreeClear w.evaluations

variable {config : AdmissionConfig}

/-- The bounds of the limit are those of the control state. -/
theorem LimitBounds.of_sameControl {c c' : ControllerState F} (h : LimitBounds config c)
    (hsame : SameControl c c') : LimitBounds config c' :=
  ⟨hsame.1 ▸ h.1, hsame.1 ▸ h.2, hsame.2 ▸ h.3, hsame.1 ▸ h.4⟩

variable {w' : World F}

/-- What keeps the history keeps the control. -/
theorem Controlled.of_sameHistory (h : Controlled config w) (hsame : SameHistory w w') :
    Controlled config w' := by
  obtain ⟨hsame, hevaluations⟩ := hsame
  have hnumber : w'.windowNumber = w.windowNumber := by
    rw [windowNumber, windowNumber, hevaluations]
  refine ⟨LimitBounds.of_sameControl h.bounds hsame, ?_, ?_, ?_, ?_, ?_, ?_, ?_, ?_, ?_⟩
  · rw [hsame.state]; exact h.disabled
  · rw [hevaluations, hnumber]; exact h.window_le
  · rw [hevaluations, hnumber]; exact h.closed_lt
  · rw [hevaluations]; exact h.reduced
  · rw [hsame.marked, hevaluations, hnumber]; exact h.unmarked
  · rw [hsame.state, hsame.clear]; exact h.clear_lt
  · rw [hsame.state, hsame.clear, hsame.pressure, hevaluations, hnumber]; exact h.quiet
  · rw [hsame.state, hsame.clear, hevaluations, hnumber]; exact h.counted
  · rw [hevaluations]; exact h.left

/-- A pressure signal is a weaker state until it is evaluated. -/
theorem Controlled.setWindow {window : Window} (h : Controlled config w)
    (hpressure : w.controller.window.pressure = true → window.pressure = true)
    (hmark : window.emergencyReductionApplied = w.controller.window.emergencyReductionApplied) :
    Controlled config (w.setWindow window) := by
  refine ⟨⟨h.bounds.1, h.bounds.2, h.bounds.3, h.bounds.4⟩, h.disabled, h.window_le, h.closed_lt,
    h.reduced, fun hunmarked => h.unmarked (hmark.symm.trans hunmarked), h.clear_lt, ?_,
    h.counted, h.left⟩
  intro hemergency e he hp
  have hquiet := h.quiet hemergency e he hp
  refine le_trans (Nat.add_le_add_left ?_ _) hquiet
  change (if window.pressure then 0 else 1) ≤ _
  cases hw : w.controller.window.pressure with
  | true => rw [hpressure hw]
  | false => exact ite_le_one (by norm_num) le_rfl

variable [AdmissionFloat F]

/-- What an evaluation appends, and where it leads: `next` is the state before the next window. -/
theorem evaluate_eq (w : World F) (now : ℕ) (closing : Bool)
    (hconfig : config.minimumConcurrency ≤ config.effectiveMaximum) :
    ∃ next, Transitions config w.controller.window.pressure (observed w.controller now) next ∧
      w.evaluate config now closing =
        { w with
          controller :=
            if closing then { next with window := nextWindow next now } else next
          evaluations := w.evaluations ++
            [⟨w.windowNumber, closing, w.controller.window.pressure, w.controller.desiredLimit,
              next.desiredLimit, w.controller.state, next.state⟩] } := by
  obtain ⟨next, htransition, hpressure, heq⟩ :=
    evaluateWindowInner_effect w.controller now closing hconfig
  refine ⟨next, htransition, ?_⟩
  have hlimit : (evaluateWindowInner config w.controller now closing).1.desiredLimit
      = next.desiredLimit := by
    rw [heq]; cases closing <;> rfl
  have hstate : (evaluateWindowInner config w.controller now closing).1.state = next.state := by
    rw [heq]; cases closing <;> rfl
  unfold evaluate
  dsimp only
  rw [hpressure, hlimit, hstate, heq]

omit [AdmissionFloat F] in
/-- What the evaluation of a controlled world adds to its history, apart from the emergency. -/
theorem Controlled.history (h : Controlled config w) {e : Evaluation}
    (hwindow : e.window = w.windowNumber)
    (hreduces : e.Reduces → w.controller.window.emergencyReductionApplied = false)
    (hleaves : e.LeavesEmergency → e.AfterThreeClear (w.evaluations ++ [e])) :
    (w.evaluations ++ [e]).Pairwise (fun e e' => e.Reduces → e'.Reduces → e.window ≠ e'.window) ∧
      ∀ e' ∈ w.evaluations ++ [e], e'.LeavesEmergency →
        e'.AfterThreeClear (w.evaluations ++ [e]) := by
  refine ⟨pairwise_append.2 ⟨h.reduced, pairwise_singleton .., ?_⟩, ?_⟩
  · intro e' he' last hlast hred hred'
    rw [mem_singleton.1 hlast] at hred' ⊢
    rw [hwindow]
    exact (h.unmarked (hreduces hred') e' he' hred).ne
  · intro e' he' hleft
    rcases mem_append.1 he' with he' | he'
    · obtain ⟨hclear, hquiet⟩ := h.left e' he' hleft
      refine ⟨fun j hj => ?_, fun f hf hle hge => ?_⟩
      · obtain ⟨f, hf, hrest⟩ := hclear j hj
        exact ⟨f, mem_append_left _ hf, hrest⟩
      · rcases mem_append.1 hf with hf | hf
        · exact hquiet f hf hle hge
        · rw [mem_singleton.1 hf] at hge ⊢
          -- the window that `e'` closed is behind the one of the new evaluation
          obtain ⟨f', hf', hcleared, hnumber⟩ := hclear 0 (by norm_num)
          have hlt := h.closed_lt f' hf' hcleared.1
          omega
    · rw [mem_singleton.1 he'] at hleft ⊢
      exact hleaves hleft

omit [AdmissionFloat F] in
/-- The world after an evaluation, whose history is what `Controlled.history` says. -/
theorem Controlled.extend (h : Controlled config w) {e : Evaluation}
    (hwindow : e.window = w.windowNumber) (hevaluations : w'.evaluations = w.evaluations ++ [e])
    (hreduces : e.Reduces → w.controller.window.emergencyReductionApplied = false)
    (hleaves : e.LeavesEmergency → e.AfterThreeClear (w.evaluations ++ [e]))
    (hbounds : LimitBounds config w'.controller)
    (hdisabled : config.enabled = false → w'.controller.state = .stable)
    (hmark : e.closing = false → w'.controller.window.emergencyReductionApplied = false →
      w.controller.window.emergencyReductionApplied = false ∧ ¬ e.Reduces)
    (hemergency : w'.controller.state = .emergency → w'.controller.emergencyClearWindows < 3 ∧
      (∀ e' ∈ w.evaluations ++ [e], e'.pressure = true →
        e'.window + w'.controller.emergencyClearWindows
          + (if w'.controller.window.pressure then 0 else 1)
            ≤ w.windowNumber + if e.closing then 1 else 0) ∧
      ∀ j < w'.controller.emergencyClearWindows, ∃ e' ∈ w.evaluations ++ [e],
        e'.ClearsWindow ∧ e'.window + (j + 1) = w.windowNumber + if e.closing then 1 else 0) :
    Controlled config w' := by
  have hnumber : w'.windowNumber = w.windowNumber + if e.closing then 1 else 0 := by
    rw [windowNumber, hevaluations, countP_append, countP_singleton]
    rfl
  obtain ⟨hreduced, hleft⟩ := h.history hwindow hreduces hleaves
  rw [← hevaluations] at hreduced hleft hemergency
  rw [← hnumber] at hemergency
  have hmem {e' : Evaluation} (he' : e' ∈ w'.evaluations) : e' ∈ w.evaluations ∨ e' = e := by
    rw [hevaluations] at he'
    simpa using he'
  refine ⟨hbounds, hdisabled, ?_, ?_, hreduced, ?_, fun hs => (hemergency hs).1,
    fun hs => (hemergency hs).2.1, fun hs => (hemergency hs).2.2, hleft⟩
  · intro e' he'
    rcases hmem he' with he' | rfl
    · exact (h.window_le e' he').trans (hnumber ▸ Nat.le_add_right ..)
    · exact hwindow.le.trans (hnumber ▸ Nat.le_add_right ..)
  · intro e' he' hclosing
    rcases hmem he' with he' | rfl
    · exact (h.closed_lt e' he' hclosing).trans_le (hnumber ▸ Nat.le_add_right ..)
    · rw [hnumber, hwindow, if_pos hclosing]
      exact Nat.lt_succ_self _
  · intro hmarked e' he' hred
    cases hclosing : e.closing with
    | true =>
      rw [hnumber, hclosing, if_pos rfl]
      rcases hmem he' with he' | rfl
      · exact Nat.lt_succ_of_le (h.window_le e' he')
      · exact Nat.lt_succ_of_le hwindow.le
    | false =>
      obtain ⟨hbefore, hnot⟩ := hmark hclosing hmarked
      rcases hmem he' with he' | rfl
      · rw [hnumber, hclosing]
        simpa using h.unmarked hbefore e' he' hred
      · exact absurd hred hnot

section Evaluate

variable {now : ℕ} {next : ControllerState F}
  (htransition : Transitions config w.controller.window.pressure (observed w.controller now) next)

/-- What is noted of an evaluation that leads to a state. -/
def noted (w : World F) (closing : Bool) (next : ControllerState F) : Evaluation :=
  ⟨w.windowNumber, closing, w.controller.window.pressure, w.controller.desiredLimit,
    next.desiredLimit, w.controller.state, next.state⟩

include htransition

omit [AdmissionFloat F]

/-- The limit of a disabled controller is not lowered. -/
theorem Controlled.not_lowered (h : Controlled config w) (henabled : config.enabled = false) :
    ¬next.desiredLimit < w.controller.desiredLimit := by
  have hbounds : LimitBounds config next := htransition.bounds ⟨h.bounds.1, h.bounds.2,
    h.bounds.3, h.bounds.4⟩
  have hafter := hbounds.fixed henabled
  have hbefore := h.bounds.fixed henabled
  omega

/-- **A reduction** finds the window unmarked. -/
theorem Controlled.unmarked_of_reduces (h : Controlled config w) {closing : Bool}
    (hreduces : (w.noted closing next).Reduces) :
    w.controller.window.emergencyReductionApplied = false := by
  obtain ⟨hpressure, hlt⟩ := hreduces
  cases henabled : config.enabled with
  | false => exact absurd hlt (h.not_lowered htransition henabled)
  | true =>
    rcases (htransition.pressured henabled hpressure).2.2.2 with hsame | ⟨hmark, -⟩
    · exact absurd hsame hlt.ne
    · exact hmark

/-- **The end of an emergency** comes after three windows without pressure. -/
theorem Controlled.afterThreeClear (h : Controlled config w) {closing : Bool}
    (hopen : closing = false → w.controller.window.pressure = true)
    (hleaves : (w.noted closing next).LeavesEmergency) :
    (w.noted closing next).AfterThreeClear (w.evaluations ++ [w.noted closing next]) := by
  obtain ⟨hbefore, hafter⟩ := hleaves
  have henabled : config.enabled = true := by
    cases henabled : config.enabled with
    | true => rfl
    | false => exact absurd ((h.disabled henabled).symm.trans hbefore) (by decide)
  have hpressure : w.controller.window.pressure = false := by
    cases hpressure : w.controller.window.pressure with
    | false => rfl
    | true => exact absurd (htransition.pressured henabled hpressure).1 hafter
  obtain rfl : closing = true := by
    cases closing with
    | true => rfl
    | false => rw [hopen rfl] at hpressure; cases hpressure
  have hlt := h.clear_lt hbefore
  have hthree := (htransition.emergency henabled hpressure hbefore hlt).2
  have hclear : w.controller.emergencyClearWindows = 2 := by
    have : ¬ w.controller.emergencyClearWindows + 1 < 3 := fun hlt => hafter (hthree.2 hlt)
    omega
  refine ⟨fun j hj => ?_, fun e' he' hle hge => ?_⟩
  · cases j with
    | zero =>
      exact ⟨_, mem_append_right _ (mem_singleton_self _), ⟨rfl, hpressure, hbefore⟩, rfl⟩
    | succ j =>
      obtain ⟨e', he', hrest⟩ := h.counted hbefore j (by omega)
      exact ⟨e', mem_append_left _ he', hrest⟩
  · rcases mem_append.1 he' with he' | he'
    · by_contra hp
      have hquiet := h.quiet hbefore e' he' (by simpa using hp)
      rw [hpressure, hclear] at hquiet
      simp only [Bool.false_eq_true, if_false] at hquiet
      change w.windowNumber ≤ e'.window + 2 at hle
      omega
    · rw [mem_singleton.1 he']
      exact hpressure

/-- **An emergency under pressure** counts no clear window. -/
theorem Controlled.emergency_of_pressure (h : Controlled config w) (closing : Bool)
    (henabled : config.enabled = true) (hpressure : w.controller.window.pressure = true) :
    next.emergencyClearWindows = 0 ∧
      ∀ e' ∈ w.evaluations ++ [w.noted closing next], e'.window ≤ w.windowNumber := by
  obtain ⟨-, hzero, -, -⟩ := htransition.pressured henabled hpressure
  refine ⟨hzero, fun e' he' => ?_⟩
  rcases mem_append.1 he' with he' | he'
  · exact h.window_le e' he'
  · rw [mem_singleton.1 he']
    exact le_rfl

/-- **An emergency without pressure** counts the window that closes. -/
theorem Controlled.emergency_of_clear (h : Controlled config w) (henabled : config.enabled = true)
    (hpressure : w.controller.window.pressure = false) (hstate : next.state = .emergency) :
    next.emergencyClearWindows < 3 ∧
      (∀ e' ∈ w.evaluations ++ [w.noted true next], e'.pressure = true →
        e'.window + next.emergencyClearWindows ≤ w.windowNumber) ∧
      ∀ j < next.emergencyClearWindows, ∃ e' ∈ w.evaluations ++ [w.noted true next],
        e'.ClearsWindow ∧ e'.window + (j + 1) = w.windowNumber + 1 := by
  have hbefore := (htransition.clear henabled hpressure).2 hstate
  have hlt := h.clear_lt hbefore
  obtain ⟨hsucc, hiff⟩ := htransition.emergency henabled hpressure hbefore hlt
  have hsucc : next.emergencyClearWindows = w.controller.emergencyClearWindows + 1 := hsucc
  rw [hsucc]
  refine ⟨hiff.1 hstate, fun e' he' hp => ?_, fun j hj => ?_⟩
  · rcases mem_append.1 he' with he' | he'
    · have hquiet := h.quiet hbefore e' he' hp
      rw [hpressure] at hquiet
      simp only [Bool.false_eq_true, if_false] at hquiet
      omega
    · rw [mem_singleton.1 he'] at hp
      exact absurd (hpressure.symm.trans hp) (by decide)
  · cases j with
    | zero =>
      exact ⟨_, mem_append_right _ (mem_singleton_self _), ⟨rfl, hpressure, hbefore⟩, rfl⟩
    | succ j =>
      obtain ⟨e', he', hcleared, hnumber⟩ := h.counted hbefore j (by omega)
      exact ⟨e', mem_append_left _ he', hcleared, by omega⟩

end Evaluate

/-- **An evaluation** keeps the control part in order. A window that stays open is evaluated only
under pressure. -/
theorem Controlled.evaluate (h : Controlled config w) (now : ℕ) (closing : Bool)
    (hconfig : config.minimumConcurrency ≤ config.effectiveMaximum)
    (hopen : closing = false → w.controller.window.pressure = true) :
    Controlled config (w.evaluate config now closing) := by
  obtain ⟨next, htransition, heq⟩ := evaluate_eq w now closing hconfig
  have hbounds : LimitBounds config next := htransition.bounds ⟨h.bounds.1, h.bounds.2,
    h.bounds.3, h.bounds.4⟩
  rw [heq]
  refine h.extend rfl rfl (h.unmarked_of_reduces htransition)
    (h.afterThreeClear htransition hopen) ?_ ?_ ?_ ?_
  · cases closing with
    | true => exact ⟨hbounds.1, hbounds.2, hbounds.3, hbounds.4⟩
    | false => exact hbounds
  · intro henabled
    cases closing <;> exact (htransition.disabled henabled).1
  · rintro rfl hmark
    have hmark : next.window.emergencyReductionApplied = false := hmark
    cases henabled : config.enabled with
    | false =>
      rw [(htransition.disabled henabled).2] at hmark
      exact ⟨hmark, fun hred => h.not_lowered htransition henabled hred.2⟩
    | true =>
      rw [(htransition.pressured henabled (hopen rfl)).2.2.1] at hmark
      cases hmark
  · intro hstate
    have hstate : next.state = .emergency := by cases closing <;> exact hstate
    have henabled : config.enabled = true := by
      cases henabled : config.enabled with
      | true => rfl
      | false => exact absurd ((htransition.disabled henabled).1.symm.trans hstate) (by decide)
    have hclear : (if closing then { next with window := nextWindow next now } else next
        : ControllerState F).emergencyClearWindows = next.emergencyClearWindows := by
      cases closing <;> rfl
    simp only [hclear]
    cases hpressure : w.controller.window.pressure with
    | true =>
      obtain ⟨hzero, hle⟩ := h.emergency_of_pressure htransition closing henabled hpressure
      rw [noted, hpressure] at hle
      rw [hzero]
      refine ⟨by norm_num, fun e' he' _ => ?_, fun j hj => absurd hj (Nat.not_lt_zero j)⟩
      have hwindow := (htransition.pressured henabled hpressure).2.2.1
      cases closing with
      | true => exact Nat.succ_le_succ (hle e' he')
      | false =>
        have hstill : next.window.pressure = true := by rw [hwindow]; exact hpressure
        simpa [hstill] using hle e' he'
    | false =>
      obtain rfl : closing = true := by
        cases closing with
        | true => rfl
        | false => rw [hopen rfl] at hpressure; cases hpressure
      obtain ⟨hthree, hquiet, hcounted⟩ :=
        h.emergency_of_clear htransition henabled hpressure hstate
      rw [noted, hpressure] at hquiet hcounted
      refine ⟨hthree, fun e' he' hp => ?_, hcounted⟩
      have hle := hquiet e' he' hp
      simp only [if_true]
      split_ifs <;> omega

/-! ### Everything else -/

omit [AdmissionFloat F]

/-- The note of the queue keeps the history. -/
theorem sameHistory_observeQueue (w : World F) (now : ℕ) : SameHistory w (w.observeQueue now) :=
  ⟨⟨rfl, rfl, rfl, rfl, rfl, rfl⟩, rfl⟩

/-- A release keeps the history. -/
theorem sameHistory_releaseSlot (w : World F) (permit : Permit) :
    SameHistory w (w.releaseSlot permit) :=
  ⟨⟨rfl, rfl, rfl, rfl, rfl, rfl⟩, rfl⟩

/-- A rejection keeps the history. -/
theorem sameHistory_reject (w : World F) : SameHistory w w.reject :=
  ⟨⟨rfl, rfl, rfl, rfl, rfl, rfl⟩, rfl⟩

/-- A grant keeps the history. -/
theorem sameHistory_grantWaiter (w : World F) (waiter : Waiter) (rest : List Waiter) :
    SameHistory w (w.grantWaiter waiter rest) := by
  unfold grantWaiter
  dsimp only
  split
  · exact ⟨⟨rfl, rfl, rfl, rfl, rfl, rfl⟩, rfl⟩
  · exact ⟨⟨rfl, rfl, rfl, rfl, rfl, rfl⟩, rfl⟩

/-- The loop of grants keeps the history. -/
theorem sameHistory_grantLoop (queue : List Waiter) (w : World F) :
    SameHistory w (grantLoop queue w) := by
  induction queue generalizing w with
  | nil => exact .rfl
  | cons waiter rest ih =>
    rw [grantLoop]
    split_ifs
    · exact (sameHistory_grantWaiter w waiter rest).trans (ih _)
    · exact .rfl

/-- The grants under the lock keep the history. -/
theorem sameHistory_grantWaitersFromLocked (w : World F) (now : ℕ) :
    SameHistory w (w.grantWaitersFromLocked now) :=
  ((sameHistory_observeQueue w now).trans (sameHistory_grantLoop _ _)).trans
    (sameHistory_observeQueue _ now)

/-- An immediate grant keeps the history. -/
theorem sameHistory_tryGrantLocked {cls : AdmissionClass} (h : w.tryGrantLocked cls = some w') :
    SameHistory w w' := by
  unfold tryGrantLocked at h
  split_ifs at h
  cases h
  exact ⟨⟨rfl, rfl, rfl, rfl, rfl, rfl⟩, rfl⟩

/-- A call that does not wait keeps the history. -/
theorem sameHistory_tryAcquire (w : World F) (cls : AdmissionClass) :
    SameHistory w (w.tryAcquire cls) := by
  unfold tryAcquire
  cases h : w.tryGrantLocked cls with
  | none => exact sameHistory_reject w
  | some granted => exact sameHistory_tryGrantLocked h

/-- A call that waits keeps the history. -/
theorem sameHistory_acquire (config : AdmissionConfig) (w : World F) (cls : AdmissionClass)
    (now : ℕ) : SameHistory w (w.acquire config cls now) := by
  unfold acquire
  cases h : w.tryGrantLocked cls with
  | some granted => exact sameHistory_tryGrantLocked h
  | none =>
    dsimp only
    split_ifs
    · exact sameHistory_reject w
    · exact ⟨⟨rfl, rfl, rfl, rfl, rfl, rfl⟩, rfl⟩

/-- A waiter that goes keeps the history. -/
theorem sameHistory_withoutWaiter (w : World F) (waiterId : ℕ) :
    SameHistory w (w.withoutWaiter waiterId) := by
  unfold withoutWaiter
  split
  · exact ⟨⟨rfl, rfl, rfl, rfl, rfl, rfl⟩, rfl⟩
  · exact .rfl

/-- The removal of a waiter keeps the history. -/
theorem sameHistory_removeWaiter (w : World F) (waiterId now later : ℕ) :
    SameHistory w (w.removeWaiter waiterId now later) :=
  (((sameHistory_observeQueue w now).trans (sameHistory_withoutWaiter _ waiterId)).trans
    (sameHistory_observeQueue _ now)).trans (sameHistory_grantWaitersFromLocked _ later)

/-! ### Steps and runs -/

variable [AdmissionFloat F]

/-- A window is under pressure once an outcome was. -/
theorem pressure_recordOutcome (window : Window) (cls : AdmissionClass)
    (outcome : AdmissionOutcome) :
    (recordOutcome window cls outcome).pressure = (window.pressure || outcome.isPressure) ∧
      (recordOutcome window cls outcome).emergencyReductionApplied
        = window.emergencyReductionApplied := by
  unfold recordOutcome
  cases outcome <;> simp [Window.pressure, Window.addSample, AdmissionOutcome.latency,
    AdmissionOutcome.isPressure]

section Steps

variable (h : Controlled config w)
  (hconfig : config.minimumConcurrency ≤ config.effectiveMaximum)

include h hconfig

/-- A completed call may close the window. -/
theorem Controlled.complete (permit : Permit) (outcome : AdmissionOutcome) (now later : ℕ) :
    Controlled config (w.complete config permit outcome now later) := by
  obtain ⟨hpressure, hmark⟩ := pressure_recordOutcome
    ((w.releaseSlot permit).observeQueue now).controller.window permit.cls outcome
  have hrecorded := (h.of_sameHistory ((sameHistory_releaseSlot w permit).trans
    (sameHistory_observeQueue _ now))).setWindow
      (fun hp => by rw [hpressure, hp, Bool.true_or]) hmark
  unfold World.complete
  dsimp only
  refine Controlled.of_sameHistory ?_ (sameHistory_grantWaitersFromLocked _ later)
  split_ifs with hclose hsignal
  · exact hrecorded.evaluate now true hconfig (by simp)
  · refine hrecorded.evaluate now false hconfig fun _ => ?_
    exact hpressure.trans (by rw [hsignal, Bool.or_true])
  · exact hrecorded

/-- A call that timed out may close the window. -/
theorem Controlled.rejectTimedOut (now : ℕ) :
    Controlled config (w.rejectTimedOut config now) := by
  refine Controlled.of_sameHistory ?_ (sameHistory_reject _)
  have hsignal : Controlled config
      (w.setWindow { w.controller.window with queueTimeout := true }) :=
    h.setWindow (fun _ => by simp [Window.pressure]) rfl
  exact hsignal.evaluate now false hconfig fun _ => by simp [Window.pressure, World.setWindow]

/-- **A step** keeps the control part in order. -/
theorem Controlled.step {event : Event} (hstep : w.step config event = some w') :
    Controlled config w' := by
  have hcalls (calls : List Call) (permits : List Permit) :
      Controlled config { w with calls := calls, permits := permits } :=
    h.of_sameHistory ⟨⟨rfl, rfl, rfl, rfl, rfl, rfl⟩, rfl⟩
  cases event with
  | tryAcquire cls =>
    cases hstep
    exact h.of_sameHistory (sameHistory_tryAcquire w cls)
  | acquire cls now =>
    cases hstep
    exact h.of_sameHistory (sameHistory_acquire config w cls now)
  | receive channel =>
    obtain ⟨grant, -, hstep⟩ := bind_eq_some_iff.1 hstep
    obtain ⟨calls, -, hstep⟩ := bind_eq_some_iff.1 hstep
    cases hstep
    exact hcalls calls _
  | expire channel | cancel channel =>
    obtain ⟨calls, -, hstep⟩ := bind_eq_some_iff.1 hstep
    cases hstep
    exact hcalls calls _
  | reclaim channel now =>
    obtain ⟨grant, -, hstep⟩ := bind_eq_some_iff.1 hstep
    obtain ⟨calls, -, hstep⟩ := bind_eq_some_iff.1 hstep
    cases hstep
    exact (hcalls calls _).of_sameHistory ((sameHistory_releaseSlot _ grant).trans
      (sameHistory_grantWaitersFromLocked _ now))
  | rejectTimedOut channel now =>
    obtain ⟨calls, -, hstep⟩ := bind_eq_some_iff.1 hstep
    cases hstep
    exact (hcalls calls _).rejectTimedOut hconfig now
  | rejectOrphaned channel =>
    obtain ⟨calls, -, hstep⟩ := bind_eq_some_iff.1 hstep
    cases hstep
    exact (hcalls calls _).of_sameHistory (sameHistory_reject _)
  | leave channel now later =>
    obtain ⟨call, -, hstep⟩ := bind_eq_some_iff.1 hstep
    obtain ⟨calls, -, hstep⟩ := bind_eq_some_iff.1 hstep
    cases hstep
    exact (hcalls calls _).of_sameHistory (sameHistory_removeWaiter _ _ now later)
  | complete slot outcome now later =>
    obtain ⟨⟨permit, permits⟩, -, hstep⟩ := bind_eq_some_iff.1 hstep
    cases hstep
    exact (hcalls _ permits).complete hconfig permit outcome now later

/-- **A run is controlled**, by induction on its events. -/
theorem Controlled.run {events : List Event} (hrun : w.run config events = some w') :
    Controlled config w' := by
  induction events generalizing w with
  | nil =>
    cases hrun
    exact h
  | cons event rest ih =>
    obtain ⟨middle, hstep, hrest⟩ := bind_eq_some_iff.1 hrun
    exact ih (h.step hconfig hstep) hrest

end Steps

/-- A new controller is controlled. -/
theorem controlled_new (config : AdmissionConfig) (now : ℕ) (seed : UInt64)
    (hconfig : config.minimumConcurrency ≤ config.effectiveMaximum) :
    Controlled config (new config now seed : World F) := by
  refine ⟨⟨?_, ?_, by rintro limit ⟨⟩, ?_⟩, ?_, by simp [new], by simp [new],
    by simp [new], by simp [new], ?_, by simp [new], ?_, by simp [new]⟩
  · simp only [new, ControllerState.new]
    split_ifs
    · exact le_max_left ..
    · exact hconfig
  · simp only [new, ControllerState.new]
    split_ifs
    · exact max_le hconfig (min_le_right ..)
    · exact le_rfl
  · intro henabled
    simp [new, ControllerState.new, henabled]
  · intro henabled
    simp [new, ControllerState.new, henabled]
  · intro _
    simp [new, ControllerState.new]
  · intro _ j hj
    exact absurd hj (Nat.not_lt_zero j)

/-- The limit of every reachable state lies between the minimum and the effective maximum, every
window has at most one emergency reduction, and every emergency ends with three windows in a row
without pressure. -/
theorem run_limit {config : AdmissionConfig} {now : ℕ} {seed : UInt64} {events : List Event}
    {w : World F} (hconfig : config.validateConfig = .ok ())
    (hrun : (new config now seed).run config events = some w) :
    (config.minimumConcurrency ≤ w.controller.desiredLimit ∧
        w.controller.desiredLimit ≤ config.effectiveMaximum) ∧
      w.evaluations.Pairwise (fun e e' => e.Reduces → e'.Reduces → e.window ≠ e'.window) ∧
      ∀ e ∈ w.evaluations, e.LeavesEmergency → e.AfterThreeClear w.evaluations := by
  have hmin := AdmissionConfig.minimum_le_effectiveMaximum hconfig
  have h := (controlled_new config now seed hmin).run hmin hrun
  exact ⟨⟨h.bounds.minimum_le, h.bounds.le_maximum⟩, h.reduced, h.left⟩

/-- A write that is throttled halves the limit of the default configuration, within its
bounds. -/
theorem run_limit_throttled : ∃ w : World ℚ,
    (new .default 0 0).run .default [.tryAcquire .write, .complete 0 .explicitThrottle 5 6]
        = some w ∧
      w.controller.desiredLimit = 50 ∧
      w.controller.desiredLimit ≤ AdmissionConfig.default.effectiveMaximum :=
  ⟨_, rfl, rfl, (@run_limit ℚ _ .default 0 0
    [.tryAcquire .write, .complete 0 .explicitThrottle 5 6] _
    AdmissionConfig.validateConfig_default rfl).1.2⟩

end Limit

end World

end AuxStorage.Admission
