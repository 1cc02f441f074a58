import AuxStorage.Text

/-!
# Delivery Coverage

A target records which source positions it has accepted: a prefix `1 .. through`, and the
intervals that wait behind a gap. An accepted interval is merged into both in one pass.

The intervals are half open, `(after, through]`, so two of them touch when one ends where the
other begins. A coverage is **separated** when nothing that waits touches the prefix or another
interval; it is then determined by the positions it covers.
-/

namespace AuxStorage.Replication

open List

/-! ### The model -/

/-- `ReplicationProtocolError::InvalidRange`. -/
structure InvalidRange where
  context : Text
  deriving DecidableEq, Repr

/-- `ClosedSourceInterval`, the positions `(after, through]`. -/
structure ClosedSourceInterval where
  after : ℕ
  through : ℕ
  nonempty : after < through
  deriving DecidableEq, Repr

/-- `validate_source_interval` and the interval it admits. -/
def ClosedSourceInterval.tryFrom (after through : ℕ) : Except InvalidRange ClosedSourceInterval :=
  if h : after < through then pure ⟨after, through, h⟩
  else .error ⟨text "interval.validate_source_interval"⟩

abbrev ClosedSourceInterval.contains (range : ClosedSourceInterval) (position : ℕ) : Prop :=
  range.after < position ∧ position ≤ range.through

/-- The second interval begins behind the first and does not touch it. -/
abbrev ClosedSourceInterval.EndsBefore (left right : ClosedSourceInterval) : Prop :=
  left.through < right.after

instance : IsTrans ClosedSourceInterval ClosedSourceInterval.EndsBefore :=
  ⟨fun _ middle _ hleft hright => hleft.trans (middle.nonempty.trans hright)⟩

instance : Std.Irrefl ClosedSourceInterval.EndsBefore :=
  ⟨fun range hlt => absurd range.nonempty (by omega)⟩

structure DeliveryCoverage where
  through : ℕ
  pending : List ClosedSourceInterval
  deriving DecidableEq, Repr

namespace DeliveryCoverage

def default : DeliveryCoverage := ⟨0, []⟩

def hasAccepted (coverage : DeliveryCoverage) (range : ClosedSourceInterval) : Bool :=
  range.through ≤ coverage.through ||
    coverage.pending.any fun pending =>
      pending.after ≤ range.after ∧ range.through ≤ pending.through

/-- `validate`. The last test is over `windows(2)`. -/
def validate (coverage : DeliveryCoverage) (limit : ℕ) : Except InvalidRange Unit :=
  if limit < coverage.pending.length ∨ coverage.pending.head?.any (·.after ≤ coverage.through)
      ∨ ¬coverage.pending.IsChain ClosedSourceInterval.EndsBefore then
    .error ⟨text "durable delivery coverage"⟩
  else
    pure ()

def mergeRange (coverage : DeliveryCoverage) (range : ClosedSourceInterval) :
    Except InvalidRange DeliveryCoverage :=
  if range.after ≤ coverage.through then
    pure { coverage with through := max coverage.through range.through }
  else
    match coverage.pending.getLast?.filter (range.after ≤ ·.through) with
    | some last => do
      let joined ← ClosedSourceInterval.tryFrom last.after (max last.through range.through)
      pure { coverage with pending := coverage.pending.dropLast ++ [joined] }
    | none => pure { coverage with pending := coverage.pending ++ [range] }

/-- `accept`. The search for the insertion point is over validated intervals, which are sorted. -/
def accept (coverage : DeliveryCoverage) (range : ClosedSourceInterval) (limit : ℕ) :
    Except InvalidRange DeliveryCoverage := do
  coverage.validate limit
  let before := coverage.pending.takeWhile (·.after ≤ range.after)
  let behind := coverage.pending.dropWhile (·.after ≤ range.after)
  let next ← (before ++ range :: behind).foldlM mergeRange ⟨coverage.through, []⟩
  next.validate limit
  pure next

/-- Intervals accepted one after another, each under its own limit. -/
def acceptAll (coverage : DeliveryCoverage) (ranges : List (ClosedSourceInterval × ℕ)) :
    Except InvalidRange DeliveryCoverage :=
  ranges.foldlM (fun coverage step => coverage.accept step.1 step.2) coverage

/-! ### Separated coverages -/

/-- The positions of a coverage. Position zero is before the first and always covered. -/
def Covers (coverage : DeliveryCoverage) (position : ℕ) : Prop :=
  position ≤ coverage.through ∨ ∃ range ∈ coverage.pending, range.contains position

/-- No interval touches the prefix or an interval before it. -/
structure Separated (coverage : DeliveryCoverage) : Prop where
  above : ∀ range ∈ coverage.pending, coverage.through < range.after
  apart : coverage.pending.Pairwise ClosedSourceInterval.EndsBefore

variable {coverage other next : DeliveryCoverage} {range : ClosedSourceInterval} {limit : ℕ}

/-- Separated from the prefix and from the interval before is separated from all before. -/
theorem validate_eq_ok :
    coverage.validate limit = .ok () ↔ coverage.pending.length ≤ limit ∧ coverage.Separated := by
  have habove : coverage.pending.Pairwise ClosedSourceInterval.EndsBefore →
      (coverage.pending.head?.any (·.after ≤ coverage.through) = false
        ↔ ∀ range ∈ coverage.pending, coverage.through < range.after) := by
    intro hapart
    cases hpending : coverage.pending with
    | nil => simp
    | cons first rest =>
      rw [hpending] at hapart
      refine ⟨fun hhead => ?_, fun hall => by simpa using hall first mem_cons_self⟩
      have hfirst : coverage.through < first.after := by simpa using hhead
      exact forall_mem_cons.mpr ⟨hfirst, fun range hmem =>
        hfirst.trans (first.nonempty.trans (rel_of_pairwise_cons hapart hmem))⟩
  rw [validate]
  split_ifs with h <;> rw [isChain_iff_pairwise] at h
  · refine iff_of_false (by simp) ?_
    rintro ⟨hlength, hseparated, hapart⟩
    simp [not_lt.mpr hlength, (habove hapart).mpr hseparated, hapart] at h
  · simp only [not_or, not_lt, not_not, Bool.not_eq_true] at h
    exact iff_of_true rfl ⟨h.1, (habove h.2.2).mp h.2.1, h.2.2⟩

namespace Separated

variable (h : coverage.Separated)
include h

/-- Two waiting intervals with a common position, or that touch, are one. -/
theorem eq_of_touch {left right : ClosedSourceInterval} (hl : left ∈ coverage.pending)
    (hr : right ∈ coverage.pending) (hlr : left.after ≤ right.through)
    (hrl : right.after ≤ left.through) : left = right := by
  by_contra hne
  have hapart : coverage.pending.Pairwise fun left right =>
      left.EndsBefore right ∨ right.EndsBefore left := h.apart.imp Or.inl
  have : Std.Symm fun left right : ClosedSourceInterval =>
      left.EndsBefore right ∨ right.EndsBefore left := ⟨fun _ _ => Or.symm⟩
  rcases hapart.forall hl hr hne with hlt | hlt <;> omega

/-- A waiting interval is surrounded by positions that are not covered. -/
theorem not_covers_boundary (hmem : range ∈ coverage.pending) :
    ¬coverage.Covers range.after ∧ ¬coverage.Covers (range.through + 1) := by
  have habove := h.above range hmem
  have hnonempty := range.nonempty
  constructor
  · rintro (hle | ⟨found, hfound, hafter, hthrough⟩)
    · omega
    · obtain rfl := h.eq_of_touch hfound hmem (by omega) hthrough
      omega
  · rintro (hle | ⟨found, hfound, hafter, hthrough⟩)
    · omega
    · obtain rfl := h.eq_of_touch hfound hmem (by omega) (by omega)
      omega

/-- The prefix ends at the largest position up to which all are covered. -/
theorem through_isGreatest :
    IsGreatest {p | ∀ q, 1 ≤ q → q ≤ p → coverage.Covers q} coverage.through := by
  refine ⟨fun q _ hq => .inl hq, fun p hp => ?_⟩
  by_contra hlt
  -- the position behind the prefix is not covered
  obtain hle | ⟨range, hmem, hafter, -⟩ := hp (coverage.through + 1) (by omega) (by omega)
  · omega
  · have := h.above range hmem
    omega

/-- **What waits are the maximal runs** of covered positions above the prefix. -/
theorem mem_pending_iff :
    range ∈ coverage.pending ↔ coverage.through < range.after ∧
      (∀ p, range.contains p → coverage.Covers p) ∧ ¬coverage.Covers range.after ∧
      ¬coverage.Covers (range.through + 1) := by
  constructor
  · intro hmem
    obtain ⟨hbefore, hbehind⟩ := h.not_covers_boundary hmem
    exact ⟨h.above range hmem, fun p hp => .inr ⟨range, hmem, hp⟩, hbefore, hbehind⟩
  · rintro ⟨habove, hcovered, hbefore, hbehind⟩
    have hnonempty := range.nonempty
    -- The interval that covers the last position of the run is the run.
    obtain hle | ⟨found, hfound, hafter, hthrough⟩ := hcovered _ ⟨hnonempty, le_rfl⟩
    · omega
    have hend : ¬range.through < found.through :=
      fun hlt => hbehind (.inr ⟨found, hfound, by omega, by omega⟩)
    have hstart : ¬found.after < range.after :=
      fun hlt => hbefore (.inr ⟨found, hfound, hlt, by omega⟩)
    have hstart' : ¬range.after < found.after :=
      fun hlt => (h.not_covers_boundary hfound).1 (hcovered _ ⟨hlt, by omega⟩)
    have heq : found = range := by
      cases found
      cases range
      simp only [ClosedSourceInterval.mk.injEq] at *
      omega
    rwa [← heq]

/-- **An interval is accepted when all its positions are.** -/
theorem hasAccepted_iff :
    coverage.hasAccepted range = true ↔ ∀ p, range.contains p → coverage.Covers p := by
  simp only [hasAccepted, Bool.or_eq_true, decide_eq_true_eq, any_eq_true]
  constructor
  · rintro (hle | ⟨pending, hmem, hafter, hthrough⟩) p ⟨hlow, hhigh⟩
    · exact .inl (hhigh.trans hle)
    · exact .inr ⟨pending, hmem, by omega, by omega⟩
  · intro hall
    obtain hle | ⟨pending, hmem, hafter, hthrough⟩ := hall _ ⟨range.nonempty, le_rfl⟩
    · exact .inl hle
    · refine .inr ⟨pending, hmem, ?_, hthrough⟩
      by_contra hlt
      exact (h.not_covers_boundary hmem).1 (hall _ ⟨by omega, by omega⟩)

/-- **One set of positions has one separated coverage.** -/
theorem ext (hother : other.Separated) (hsame : ∀ p, coverage.Covers p ↔ other.Covers p) :
    coverage = other := by
  have hthrough : coverage.through = other.through := by
    refine h.through_isGreatest.unique ?_
    simpa only [hsame] using hother.through_isGreatest
  have hpending : coverage.pending = other.pending := by
    refine h.apart.eq_of_mem_iff hother.apart fun range => ?_
    rw [h.mem_pending_iff, hother.mem_pending_iff, hthrough]
    simp only [hsame]
  cases coverage
  cases other
  simp_all

end Separated

/-! ### Merging and accepting -/

/-- **One merge.** An interval that does not begin before the last one is merged into a separated
coverage of the union. -/
theorem mergeRange_step (h : coverage.Separated)
    (hlast : ∀ pending ∈ coverage.pending, pending.after ≤ range.after) :
    ∃ next, coverage.mergeRange range = .ok next ∧ next.Separated ∧
      (∀ p, next.Covers p ↔ coverage.Covers p ∨ range.contains p) ∧
      ∀ pending ∈ next.pending, pending.after ≤ range.after := by
  have hnonempty := range.nonempty
  rw [mergeRange]
  split_ifs with hprefix
  · -- Whatever waits begins above the prefix, so nothing does.
    have hnil : coverage.pending = [] := by
      refine eq_nil_iff_forall_not_mem.mpr fun pending hmem => ?_
      have := h.above pending hmem
      have := hlast pending hmem
      omega
    refine ⟨_, rfl, ⟨by simp [hnil], by simp [hnil]⟩, fun p => ?_, by simp [hnil]⟩
    simp only [Covers, hnil, not_mem_nil, false_and, exists_false, or_false, le_max_iff]
    omega
  · split
    · next last hfound =>
      obtain ⟨hgetLast, htouch⟩ := Option.filter_eq_some_iff.mp hfound
      have htouch : range.after ≤ last.through := by simpa using htouch
      obtain ⟨init, hpending⟩ := getLast?_eq_some_iff.mp hgetLast
      have habove := h.above
      have hapart := h.apart
      rw [hpending] at hlast habove hapart
      have hafter := hlast last (by simp)
      have hlt : last.after < max last.through range.through := lt_max_of_lt_left last.nonempty
      rw [ClosedSourceInterval.tryFrom, dif_pos hlt, hpending, dropLast_concat]
      refine ⟨_, rfl, ⟨?_, ?_⟩, fun p => ?_, ?_⟩
      · simpa [or_imp, forall_and] using habove
      · simpa [pairwise_append] using hapart
      · have hjoined : ClosedSourceInterval.contains ⟨last.after, _, hlt⟩ p
            ↔ last.contains p ∨ range.contains p := by
          simp only [ClosedSourceInterval.contains, le_max_iff]
          omega
        simp only [Covers, hpending, mem_append, mem_singleton, or_and_right, exists_or,
          exists_eq_left, hjoined, or_assoc]
      · simpa [or_imp, forall_and] using hlast
    · next hnone =>
      have hbelow : ∀ pending ∈ coverage.pending, pending.through < range.after := by
        intro pending hmem
        obtain ⟨init, last, hpending⟩ := (eq_nil_or_concat coverage.pending).resolve_left
          (ne_nil_of_mem hmem)
        have hlt : last.through < range.after := by simpa [hpending] using hnone
        have hapart := h.apart
        rw [hpending, concat_eq_append] at hmem hapart
        rcases mem_append.mp hmem with hinit | hsingle
        · have := (pairwise_append.mp hapart).2.2 pending hinit last (by simp)
          have := last.nonempty
          omega
        · rwa [mem_singleton.mp hsingle]
      refine ⟨_, rfl, ⟨?_, ?_⟩, fun p => ?_, ?_⟩
      · exact forall_mem_append.mpr ⟨h.above, forall_mem_singleton.mpr (not_le.mp hprefix)⟩
      · exact pairwise_append.mpr ⟨h.apart, pairwise_singleton _ _, fun pending hmem _ hsingle =>
          mem_singleton.mp hsingle ▸ hbelow pending hmem⟩
      · simp only [Covers, mem_append, mem_singleton, or_and_right, exists_or, exists_eq_left,
          or_assoc]
      · exact forall_mem_append.mpr ⟨hlast, forall_mem_singleton.mpr le_rfl⟩

/-- Merging intervals that are sorted by their beginnings. -/
theorem foldlM_mergeRange {ranges : List ClosedSourceInterval} (h : coverage.Separated)
    (hsorted : ranges.Pairwise fun left right => left.after ≤ right.after)
    (hlast : ∀ range ∈ ranges, ∀ pending ∈ coverage.pending, pending.after ≤ range.after) :
    ∃ next, ranges.foldlM mergeRange coverage = .ok next ∧ next.Separated ∧
      ∀ p, next.Covers p ↔ coverage.Covers p ∨ ∃ range ∈ ranges, range.contains p := by
  induction ranges generalizing coverage with
  | nil => exact ⟨coverage, rfl, h, by simp⟩
  | cons range ranges ih =>
    obtain ⟨hhead, hsorted⟩ := pairwise_cons.mp hsorted
    obtain ⟨next, hnext, hseparated, hcovers, hends⟩ :=
      mergeRange_step h (hlast range mem_cons_self)
    obtain ⟨final, hfinal, hresult, hunion⟩ := ih hseparated hsorted
      fun later hlater pending hpending => (hends pending hpending).trans (hhead later hlater)
    refine ⟨final, ?_, hresult, fun p => ?_⟩
    · rw [foldlM_cons, hnext]
      exact hfinal
    · simp only [hunion, hcovers, mem_cons, exists_eq_or_imp, or_assoc]

/-- **Accepting is the union**, when the limit admits its runs. -/
theorem accept_eq (h : coverage.validate limit = .ok ()) (range : ClosedSourceInterval) :
    ∃ next, next.Separated ∧ (∀ p, next.Covers p ↔ coverage.Covers p ∨ range.contains p) ∧
      coverage.accept range limit = if next.pending.length ≤ limit then .ok next
        else .error ⟨text "durable delivery coverage"⟩ := by
  obtain ⟨-, hseparated⟩ := validate_eq_ok.mp h
  have hsorted : coverage.pending.Pairwise fun left right => left.after ≤ right.after :=
    hseparated.apart.imp fun {left _} hlt => (left.nonempty.trans hlt).le
  have hsplit := takeWhile_append_dropWhile (p := fun pending : ClosedSourceInterval =>
    decide (pending.after ≤ range.after)) (l := coverage.pending)
  rw [accept, h]
  generalize hbefore : coverage.pending.takeWhile (·.after ≤ range.after) = before at hsplit ⊢
  generalize hbehind : coverage.pending.dropWhile (·.after ≤ range.after) = behind at hsplit ⊢
  have hlow : ∀ pending ∈ before, pending.after ≤ range.after := by
    rw [← hbefore]
    exact fun pending hmem => by simpa using mem_takeWhile_imp hmem
  have hhigh : ∀ pending ∈ behind, range.after ≤ pending.after := by
    cases behind with
    | nil => exact fun _ hmem => by cases hmem
    | cons first rest =>
      have hfirst : range.after < first.after := by
        have := head?_dropWhile_not (fun pending : ClosedSourceInterval =>
          decide (pending.after ≤ range.after)) coverage.pending
        simpa [hbehind] using this
      rw [← hsplit] at hsorted
      refine forall_mem_cons.mpr ⟨hfirst.le, fun pending hmem => hfirst.le.trans ?_⟩
      exact rel_of_pairwise_cons (pairwise_append.mp hsorted).2.1 hmem
  have hmerged : (before ++ range :: behind).Pairwise fun left right =>
      left.after ≤ right.after := by
    rw [← hsplit] at hsorted
    obtain ⟨hb, hr, hcross⟩ := pairwise_append.mp hsorted
    exact pairwise_append.mpr ⟨hb, pairwise_cons.mpr ⟨hhigh, hr⟩, fun left hl =>
      forall_mem_cons.mpr ⟨hlow left hl, hcross left hl⟩⟩
  have hstart : Separated ⟨coverage.through, []⟩ := ⟨by simp, .nil⟩
  obtain ⟨next, hnext, hresult, hcovers⟩ := foldlM_mergeRange hstart hmerged (by simp)
  refine ⟨next, hresult, fun p => ?_, ?_⟩
  · rw [hcovers]
    simp only [Covers, ← hsplit, mem_append, mem_cons, or_and_right, exists_or,
      exists_eq_left, not_mem_nil, false_and, exists_false, or_false]
    rw [@or_comm (range.contains p), or_assoc, or_assoc]
  · simp only [bind, Except.bind, hnext]
    split_ifs with hroom
    · rw [validate_eq_ok.mpr ⟨hroom, hresult⟩]
      rfl
    · rw [validate, if_pos (.inl (not_le.mp hroom))]

/-- A coverage after a sequence of intervals is separated and covers their positions. -/
theorem acceptAll_separated {ranges : List (ClosedSourceInterval × ℕ)} (h : coverage.Separated)
    (haccept : coverage.acceptAll ranges = .ok next) :
    next.Separated ∧
      ∀ p, next.Covers p ↔ coverage.Covers p ∨ ∃ range ∈ ranges.map Prod.fst, range.contains p := by
  induction ranges generalizing coverage with
  | nil =>
    cases haccept
    exact ⟨h, by simp⟩
  | cons step ranges ih =>
    rw [acceptAll, foldlM_cons] at haccept
    obtain ⟨middle, hmiddle, haccept⟩ := Except.bind_eq_ok.mp haccept
    obtain ⟨_, hvalid, -⟩ := Except.bind_eq_ok.mp hmiddle
    obtain ⟨union, hunion, hcovers, heq⟩ := accept_eq hvalid step.1
    rw [heq] at hmiddle
    split_ifs at hmiddle
    obtain rfl := Except.ok.inj hmiddle
    obtain ⟨hresult, hall⟩ := ih hunion haccept
    refine ⟨hresult, fun p => ?_⟩
    simp only [hall, hcovers, map_cons, mem_cons, exists_eq_or_imp, or_assoc]

/-- A position of some interval. -/
def Accepted (ranges : List (ClosedSourceInterval × ℕ)) (position : ℕ) : Prop :=
  ∃ range ∈ ranges.map Prod.fst, range.contains position

theorem covers_default (p : ℕ) : default.Covers p ↔ p = 0 := by
  simp [Covers, default]

/-- **Delivery coverage is the union of the accepted intervals.** The prefix is the longest one
whose positions are all accepted; what waits are the maximal runs above it, sorted and without
contact; an interval has been accepted when its positions have; neither order nor repetition nor
the limits matter; and a valid coverage refuses an interval only for a union with too many runs. -/
theorem acceptAll_spec {ranges : List (ClosedSourceInterval × ℕ)}
    (h : default.acceptAll ranges = .ok coverage) :
    IsGreatest {p | ∀ q, 1 ≤ q → q ≤ p → Accepted ranges q} coverage.through ∧
      coverage.pending.Pairwise ClosedSourceInterval.EndsBefore ∧
      (∀ range, range ∈ coverage.pending ↔ coverage.through < range.after ∧
        (∀ p, range.contains p → Accepted ranges p) ∧ ¬Accepted ranges range.after ∧
        ¬Accepted ranges (range.through + 1)) ∧
      (∀ range, coverage.hasAccepted range = true
        ↔ ∀ p, range.contains p → Accepted ranges p) ∧
      (∀ ranges' coverage', default.acceptAll ranges' = .ok coverage' →
        (∀ range, range ∈ ranges.map Prod.fst ↔ range ∈ ranges'.map Prod.fst) →
          coverage' = coverage) ∧
      ∀ (valid : DeliveryCoverage) limit range, valid.validate limit = .ok () →
        ∃ union : DeliveryCoverage, union.Separated ∧
          (∀ p, union.Covers p ↔ valid.Covers p ∨ range.contains p) ∧
          valid.accept range limit = if union.pending.length ≤ limit then .ok union
            else .error ⟨text "durable delivery coverage"⟩ := by
  have hdefault : default.Separated := ⟨by simp [default], by simp [default]⟩
  obtain ⟨hseparated, hcovers⟩ := acceptAll_separated hdefault h
  have haccepted : ∀ p, 1 ≤ p → (coverage.Covers p ↔ Accepted ranges p) := by
    intro p hp
    rw [hcovers, covers_default, Accepted]
    exact or_iff_right (by omega)
  have hinside : ∀ range : ClosedSourceInterval, (∀ p, range.contains p → coverage.Covers p)
      ↔ ∀ p, range.contains p → Accepted ranges p := fun range =>
    forall₂_congr fun p hp => haccepted p (by omega)
  refine ⟨?_, hseparated.apart, fun range => ?_, fun range => ?_, ?_,
    fun valid limit range hvalid => accept_eq hvalid range⟩
  · have hpositions : {p | ∀ q, 1 ≤ q → q ≤ p → Accepted ranges q}
        = {p | ∀ q, 1 ≤ q → q ≤ p → coverage.Covers q} :=
      Set.ext fun p => forall₃_congr fun q hq _ => (haccepted q hq).symm
    rw [hpositions]
    exact hseparated.through_isGreatest
  · rw [hseparated.mem_pending_iff, hinside]
    refine and_congr_right fun habove => ?_
    rw [haccepted range.after (by omega), haccepted (range.through + 1) (by omega)]
  · rw [hseparated.hasAccepted_iff, hinside]
  · intro ranges' coverage' h' hsame
    obtain ⟨hseparated', hcovers'⟩ := acceptAll_separated hdefault h'
    refine hseparated'.ext hseparated fun p => ?_
    simp only [hcovers, hcovers', hsame]

/-- Four intervals, one of them twice. -/
def sampleRanges : List (ClosedSourceInterval × ℕ) :=
  [(⟨2, 4, by decide⟩, 2), (⟨6, 8, by decide⟩, 2), (⟨0, 2, by decide⟩, 2), (⟨2, 4, by decide⟩, 1)]

/-- An interval that waits is joined to the prefix by the one before it, another one goes on
waiting, and the other order gives the same. -/
theorem acceptAll_joined :
    default.acceptAll sampleRanges = .ok ⟨4, [⟨6, 8, by decide⟩]⟩ ∧
      IsGreatest {p | ∀ q, 1 ≤ q → q ≤ p → Accepted sampleRanges q} 4 ∧
      ¬Accepted sampleRanges 9 ∧
      ∀ coverage', default.acceptAll sampleRanges.reverse = .ok coverage' →
        coverage' = ⟨4, [⟨6, 8, by decide⟩]⟩ := by
  have haccept : default.acceptAll sampleRanges = .ok ⟨4, [⟨6, 8, by decide⟩]⟩ := by decide
  obtain ⟨hgreatest, -, hpending, -, horder, -⟩ := acceptAll_spec haccept
  refine ⟨haccept, hgreatest, ((hpending ⟨6, 8, by decide⟩).mp (mem_singleton_self _)).2.2.2,
    fun coverage' haccept' => horder _ coverage' haccept' fun range => ?_⟩
  rw [map_reverse, mem_reverse]

end DeliveryCoverage

end AuxStorage.Replication
