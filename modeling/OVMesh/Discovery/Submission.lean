import OVMesh.Lib.Intervals
import OVMesh.Lib.Runs

/-!
# Submissions to the discovery worker

`DiscoveryWorker::submit` and what it keeps account of: the source queue, the counters and the gaps.
The rings of the source are lists, oldest first. A submission takes three steps (`enter`, `check` and
`commit`), between which the other threads take theirs.

* `gapLocked`, `reject`: a gap is counted, and joined with the newest one or queued.
* `Submission.step`: the submitting thread, the producer, a failure, `take_gaps` and `finish`.
* `timeline`: what became of the samples, in order, for each accepted block and each source loss.
* `submission_accounting`: the timeline has no hole, the counters are its sums, and the gaps that are
  handed out cover its losses.
-/

namespace OVMesh

namespace Discovery

open Intervals Runs

/-- The coordinates that a double represents exactly. -/
def maximumCoordinate : ℕ := 2 ^ 53
/-- The largest block that `submit` accepts. -/
def maximumInputBlock : ℕ := 131072
/-- The blocks that the source queue has slots for. -/
def sourceCapacity : ℕ := 64
/-- The gaps that are kept until they are taken. -/
def gapCapacity : ℕ := 128
/-- `std::numeric_limits<uint64_t>::max()`: where a counter stops. -/
def counterMax : ℕ := 2 ^ 64 - 1
/-- The index that stands for every subband. -/
def allSubbands : ℕ := 2 ^ 64 - 1

/-- Why samples were not examined. -/
inductive GapReason
  | sourceQueueFull
  | inputDiscontinuity
  | inputTooLarge
  | invalidInputOrder
  | invalidSampleCoordinate
  | processingFailure
deriving DecidableEq

/-- `Gap`: the samples that were not examined, with the reason. -/
structure Gap where
  firstInputSample : ℕ
  endInputSample : ℕ
  subbandIndex : ℕ
  reason : GapReason
deriving DecidableEq

/-- `SourceBlock`: a block of the source queue, with the coordinate of its first sample. -/
structure SourceBlock (α : Type) where
  values : List α
  first : ℕ

/-- The counters of the snapshot that submissions and their blocks change. -/
structure Progress where
  acceptedInputSamples : ℕ := 0
  rejectedInputSamples : ℕ := 0
  channelizedInputSamples : ℕ := 0
  abandonedInputSamples : ℕ := 0
  sourceGapInputSamples : ℕ := 0
  /-- `source_gap_input_samples` of the subbands. -/
  subbandGapInputSamples : List ℕ := []
  sourceQueueDrops : ℕ := 0
  invalidSubmissions : ℕ := 0
  rejectedAfterClose : ℕ := 0
  gapOverflows : ℕ := 0
  sourceQueueHighWater : ℕ := 0

/-- The saturating `add`. -/
def add (counter value : ℕ) : ℕ :=
  if value > counterMax - counter then counterMax else counter + value

theorem add_eq {counter value : ℕ} (h : counter + value ≤ counterMax) :
    add counter value = counter + value := by
  rw [add, if_neg (by omega)]

/-- A submission that has entered, and whether it has passed its checks. -/
structure Entered (α : Type) where
  block : SourceBlock α
  checked : Bool

/-- The submitting side of the worker. `taken` are the gaps that `take_gaps` has handed out, `origin`
is the first sample of the first submission in order, and in the timeline the accepted blocks are
marked `true` and the source losses `false`. -/
structure Submission (α : Type) where
  sources : List (SourceBlock α) := []
  closed : Bool := false
  failed : Bool := false
  submittedBefore : Bool := false
  expectedSubmission : ℕ := 0
  view : Progress := {}
  gaps : List Gap := []
  entered : Option (Entered α) := none
  taken : List Gap := []
  origin : ℕ := 0
  timeline : List (Bool × Span) := []

section Submission

variable {α : Type}

/-- The queue with a gap: joined with the newest one where it goes on, or at the end, or not at all. -/
def pushGap (gaps : List Gap) (gap : Gap) : Option (List Gap) :=
  match gaps.getLast? with
  | some previous =>
    if previous.reason = gap.reason ∧ previous.subbandIndex = gap.subbandIndex ∧
        previous.endInputSample = gap.firstInputSample then
      some (gaps.dropLast ++ [{ previous with endInputSample := gap.endInputSample }])
    else if gaps.length = gapCapacity then none
    else some (gaps ++ [gap])
  | none => some (gaps ++ [gap])

namespace Submission

/-- `gap_locked`: a gap is kept, joined to the last one, or counted as lost. -/
def gapLocked (s : Submission α) (first last : ℕ) (reason : GapReason) (subband : ℕ)
    (sourceLoss : Bool) : Submission α :=
  if last ≤ first then s
  else
    let s :=
      if sourceLoss = true ∧ subband = allSubbands then
        { s with
          view := { s.view with
            sourceGapInputSamples := add s.view.sourceGapInputSamples (last - first)
            subbandGapInputSamples := s.view.subbandGapInputSamples.map (add · (last - first)) }
          timeline := s.timeline ++ [(false, ⟨first, last⟩)] }
      else s
    match pushGap s.gaps ⟨first, last, subband, reason⟩ with
    | some gaps => { s with gaps := gaps }
    | none => { s with view := { s.view with gapOverflows := add s.view.gapOverflows 1 } }

/-- `reject`: a block that is not queued is counted under its reason, and leaves a gap. -/
def reject (s : Submission α) (first last : ℕ) (reason : GapReason) : Submission α :=
  let view := { s.view with rejectedInputSamples := add s.view.rejectedInputSamples (last - first) }
  let view :=
    if reason = .sourceQueueFull then { view with sourceQueueDrops := add view.sourceQueueDrops 1 }
    else if reason ≠ .processingFailure then
      { view with invalidSubmissions := add view.invalidSubmissions 1 }
    else view
  gapLocked { s with view := view } first last reason allSubbands
    (decide (reason ≠ .invalidInputOrder ∧ reason ≠ .invalidSampleCoordinate))

/-- A call after `finish`. -/
def rejectAfterClose (s : Submission α) : Submission α :=
  { s with view := { s.view with rejectedAfterClose := add s.view.rejectedAfterClose 1 } }

/-- `submit` up to the place where the coordinate has moved on. -/
def enter (s : Submission α) (input : List α) (first : ℕ) : Submission α :=
  if s.closed then s.rejectAfterClose
  else if input.length > maximumCoordinate ∨ first > maximumCoordinate - input.length then
    s.reject first first .invalidSampleCoordinate
  else
    let last := first + input.length
    if input = [] then s
    else if s.submittedBefore = true ∧ first < s.expectedSubmission then
      s.reject first last .invalidInputOrder
    else
      let s :=
        if s.submittedBefore = true ∧ first > s.expectedSubmission then
          s.gapLocked s.expectedSubmission first .inputDiscontinuity allSubbands true
        else s
      { s with
        origin := if s.submittedBefore then s.origin else first
        submittedBefore := true
        expectedSubmission := last
        entered := some ⟨⟨input, first⟩, false⟩ }

/-- `submit` up to the mutex of the queue. -/
def check (s : Submission α) (block : SourceBlock α) : Submission α :=
  let last := block.first + block.values.length
  if block.values.length > maximumInputBlock then
    { s with entered := none }.reject block.first last .inputTooLarge
  else if s.failed then { s with entered := none }.reject block.first last .processingFailure
  else { s with entered := some ⟨block, true⟩ }

/-- The end of `submit`, under the mutex of the queue. -/
def commit (s : Submission α) (block : SourceBlock α) : Submission α :=
  let last := block.first + block.values.length
  let s := { s with entered := none }
  if s.closed then s.rejectAfterClose
  else if s.failed then s.reject block.first last .processingFailure
  else if s.sources.length = sourceCapacity then s.reject block.first last .sourceQueueFull
  else
    { s with
      sources := s.sources ++ [block]
      view := { s.view with
        acceptedInputSamples := add s.view.acceptedInputSamples block.values.length
        sourceQueueHighWater := max s.view.sourceQueueHighWater (s.sources.length + 1) }
      timeline := s.timeline ++ [(true, ⟨block.first, last⟩)] }

/-- One block of `discard_pending_sources`. -/
def discardSource (s : Submission α) (block : SourceBlock α) : Submission α :=
  let view := { s.view with
    abandonedInputSamples := add s.view.abandonedInputSamples block.values.length }
  gapLocked { s with view := view } block.first (block.first + block.values.length)
    .processingFailure allSubbands false

end Submission

/-- A step of a thread. `abandon` is a gap of a subband, for staged samples or a job that are given
up. -/
inductive SubmissionEvent (α : Type)
  | enter (input : List α) (first : ℕ)
  | check
  | commit
  | channelized
  | fail
  | discard
  | abandon (subband first last : ℕ)
  | takeGaps
  | close

namespace Submission

/-- One step. The submitting thread makes one call at a time, and samples are given up only after a
failure. -/
def step (s : Submission α) : SubmissionEvent α → Submission α
  | .enter input first => if s.entered.isSome then s else s.enter input first
  | .check =>
    match s.entered with
    | some ⟨block, false⟩ => s.check block
    | _ => s
  | .commit =>
    match s.entered with
    | some ⟨block, true⟩ => s.commit block
    | _ => s
  | .channelized =>
    match s.sources with
    | block :: sources =>
      { s with
        sources := sources
        view := { s.view with
          channelizedInputSamples := add s.view.channelizedInputSamples block.values.length } }
    | [] => s
  | .fail => { s with failed := true }
  | .discard =>
    if s.failed then { (s.sources.foldl discardSource s) with sources := [] } else s
  | .abandon subband first last =>
    if s.failed then s.gapLocked first last .processingFailure subband false else s
  | .takeGaps => { s with taken := s.taken ++ s.gaps, gaps := [] }
  | .close => { s with closed := true }

/-- A worker for some subbands, before the first submission. -/
def initial (subbands : ℕ) : Submission α :=
  { view := { subbandGapInputSamples := List.replicate subbands 0 } }

/-- The gaps, but for those of repeated and backward coordinates. -/
def lossGaps (gaps : List Gap) : List Span :=
  (gaps.filter fun gap => gap.reason ≠ .invalidInputOrder).map
    fun gap => ⟨gap.firstInputSample, gap.endInputSample⟩

/-- The account of the samples up to `reached`. -/
structure Accounting (s : Submission α) (reached : ℕ) : Prop where
  tiles : Tiles s.origin (s.timeline.map Prod.snd) reached
  accepted : s.view.acceptedInputSamples = ((marked true s.timeline).map Span.length).sum
  lost : s.view.sourceGapInputSamples = ((marked false s.timeline).map Span.length).sum
  gaps : s.failed = false → s.view.gapOverflows = 0 →
    Ordered (lossGaps (s.taken ++ s.gaps)) ∧
    (∀ i ∈ lossGaps (s.taken ++ s.gaps), i.first ≤ i.last ∧ i.last ≤ reached) ∧
    ∀ x, Covers (lossGaps (s.taken ++ s.gaps)) x ↔ Covers (marked false s.timeline) x

/-! ## Gaps -/

variable {s : Submission α} {gaps gaps' taken : List Gap} {gap : Gap} {reason : GapReason}
  {first last subband reached : ℕ} {sourceLoss : Bool}

theorem pushGap_cases (h : pushGap gaps gap = some gaps') :
    gaps' = gaps ++ [gap] ∨ ∃ before previous, gaps = before ++ [previous] ∧
      previous.reason = gap.reason ∧ previous.endInputSample = gap.firstInputSample ∧
      gaps' = before ++ [{ previous with endInputSample := gap.endInputSample }] := by
  unfold pushGap at h
  split at h
  · rename_i previous hprevious
    obtain ⟨before, rfl⟩ := List.getLast?_eq_some_iff.mp hprevious
    split_ifs at h with hjoin hfull
    · refine .inr ⟨before, previous, rfl, hjoin.1, hjoin.2.2, ?_⟩
      rw [List.dropLast_concat] at h
      exact (Option.some.inj h).symm
    · exact .inl (Option.some.inj h).symm
  · exact .inl (Option.some.inj h).symm

theorem lossGaps_append : lossGaps (gaps ++ gaps') = lossGaps gaps ++ lossGaps gaps' := by
  rw [lossGaps, List.filter_append, List.map_append]
  rfl

theorem lossGaps_singleton (h : gap.reason ≠ .invalidInputOrder) :
    lossGaps [gap] = [⟨gap.firstInputSample, gap.endInputSample⟩] := by
  simp [lossGaps, h]

theorem lossGaps_order (h : gap.reason = .invalidInputOrder) : lossGaps [gap] = [] := by
  simp [lossGaps, h]

/-- A gap of a repeated or backward coordinate leaves the others as they are. -/
theorem lossGaps_pushGap_order (h : pushGap gaps gap = some gaps')
    (hreason : gap.reason = .invalidInputOrder) : lossGaps gaps' = lossGaps gaps := by
  rcases pushGap_cases h with rfl | ⟨before, previous, rfl, hprevious, -, rfl⟩
  · rw [lossGaps_append, lossGaps_order hreason, List.append_nil]
  · rw [lossGaps_append, lossGaps_append, lossGaps_order (hprevious.trans hreason), lossGaps_order]
    exact hprevious.trans hreason

/-- A gap after all others is in order with them and covers its samples, joined or not. -/
theorem lossGaps_pushGap (h : pushGap gaps gap = some gaps')
    (hreason : gap.reason ≠ .invalidInputOrder) (hlt : gap.firstInputSample < gap.endInputSample)
    (hordered : Ordered (lossGaps (taken ++ gaps)))
    (hle : ∀ i ∈ lossGaps (taken ++ gaps), i.first ≤ i.last ∧ i.last ≤ gap.firstInputSample) :
    Ordered (lossGaps (taken ++ gaps')) ∧
      (∀ i ∈ lossGaps (taken ++ gaps'), i.first ≤ i.last ∧ i.last ≤ gap.endInputSample) ∧
      ∀ x, Covers (lossGaps (taken ++ gaps')) x ↔ Covers (lossGaps (taken ++ gaps)) x ∨
        gap.firstInputSample ≤ x ∧ x < gap.endInputSample := by
  rcases pushGap_cases h with rfl | ⟨before, previous, rfl, hprevious, hjoin, rfl⟩
  · rw [← List.append_assoc, lossGaps_append, lossGaps_singleton hreason]
    refine ⟨ordered_concat.mpr ⟨hordered, fun i hi => (hle i hi).2⟩, fun i hi => ?_, fun x => ?_⟩
    · rcases List.mem_append.mp hi with hi | hi
      · exact ⟨(hle i hi).1, (hle i hi).2.trans hlt.le⟩
      · rw [List.mem_singleton.mp hi]
        exact ⟨hlt.le, le_rfl⟩
    · rw [covers_append, covers_singleton]
      rfl
  · have hkept : previous.reason ≠ .invalidInputOrder := by rwa [hprevious]
    rw [← List.append_assoc, lossGaps_append, lossGaps_singleton hkept] at hordered hle
    rw [← List.append_assoc, ← List.append_assoc, lossGaps_append,
      @lossGaps_append (taken ++ before), lossGaps_singleton hkept, lossGaps_singleton]
    obtain ⟨hbefore, hlast⟩ := ordered_concat.mp hordered
    obtain ⟨hprevious₁, hprevious₂⟩ := hle _ (List.mem_append_right _ (List.mem_singleton.mpr rfl))
    refine ⟨ordered_concat.mpr ⟨hbefore, hlast⟩, fun i hi => ?_, fun x => ?_⟩
    · rcases List.mem_append.mp hi with hi | hi
      · obtain ⟨hi₁, hi₂⟩ := hle i (List.mem_append_left _ hi)
        exact ⟨hi₁, hi₂.trans hlt.le⟩
      · rw [List.mem_singleton.mp hi]
        exact ⟨hprevious₁.trans (hjoin.le.trans hlt.le), le_rfl⟩
    · rw [covers_append, covers_append, covers_singleton, covers_singleton, or_assoc]
      refine or_congr_right ?_
      simp only [Span.Has] at hprevious₁ hprevious₂ ⊢
      omega
    · exact hkept

theorem pushGap_isSome_or : pushGap gaps gap = none ∨ ∃ gaps', pushGap gaps gap = some gaps' := by
  cases pushGap gaps gap with
  | none => exact .inl rfl
  | some gaps' => exact .inr ⟨gaps', rfl⟩

theorem add_pos {counter value : ℕ} (h : 0 < value) : 0 < add counter value := by
  rw [add]
  split_ifs
  · decide
  · omega

/-- What a gap changes: the counters, the queue and the timeline. -/
theorem gapLocked_eq (h : first < last) : ∃ view gaps, s.gapLocked first last reason subband sourceLoss =
      { s with
        view := view, gaps := gaps
        timeline := s.timeline ++
          if sourceLoss = true ∧ subband = allSubbands then [(false, ⟨first, last⟩)] else [] } ∧
    view.acceptedInputSamples = s.view.acceptedInputSamples ∧
    view.sourceGapInputSamples =
      (if sourceLoss = true ∧ subband = allSubbands then
        add s.view.sourceGapInputSamples (last - first) else s.view.sourceGapInputSamples) ∧
    (view.gapOverflows = 0 → s.view.gapOverflows = 0 ∧
      pushGap s.gaps ⟨first, last, subband, reason⟩ = some gaps) := by
  rw [gapLocked, if_neg (not_le.mpr h)]
  rcases @pushGap_isSome_or s.gaps ⟨first, last, subband, reason⟩ with hpush | ⟨gaps, hpush⟩
  · have hoverflow : add s.view.gapOverflows 1 ≠ 0 := (add_pos Nat.one_pos).ne'
    split_ifs with hloss
    · simp only [hpush]
      exact ⟨_, _, rfl, rfl, rfl, fun h => absurd h hoverflow⟩
    · simp only [hpush, List.append_nil]
      exact ⟨_, _, rfl, rfl, rfl, fun h => absurd h hoverflow⟩
  · split_ifs with hloss
    · simp only [hpush]
      exact ⟨_, _, rfl, rfl, rfl, fun h => ⟨h, rfl⟩⟩
    · simp only [hpush, List.append_nil]
      exact ⟨_, _, rfl, rfl, rfl, fun h => ⟨h, rfl⟩⟩

/-! ## The account -/

variable {block : SourceBlock α} {input : List α} {e : SubmissionEvent α} {view : Progress}

theorem Accounting.with_view (h : s.Accounting reached)
    (haccepted : view.acceptedInputSamples = s.view.acceptedInputSamples)
    (hlost : view.sourceGapInputSamples = s.view.sourceGapInputSamples)
    (hoverflows : view.gapOverflows = s.view.gapOverflows) :
    { s with view := view }.Accounting reached :=
  ⟨h.tiles, haccepted.trans h.accepted, hlost.trans h.lost,
    fun hfailed hoverflow => h.gaps hfailed (hoverflows.symm.trans hoverflow)⟩

/-- Both counters stay below the end of the account. -/
theorem Accounting.sum_le (h : s.Accounting reached) : s.origin + (s.view.acceptedInputSamples +
    s.view.sourceGapInputSamples) = reached := by
  rw [h.accepted, h.lost, sum_marked]
  exact h.tiles.sum_length

/-- A source loss from where the account ends. -/
theorem Accounting.loss (h : s.Accounting first) (hlt : first < last) (hmax : last ≤ counterMax)
    (hreason : reason ≠ .invalidInputOrder) :
    (s.gapLocked first last reason allSubbands true).Accounting last := by
  obtain ⟨view, gaps, hs, haccepted, hlost, hgaps⟩ :=
    @gapLocked_eq α s reason first last allSubbands true hlt
  have hsum := h.sum_le
  rw [hs]
  simp only [and_self, if_true] at hlost ⊢
  rw [add_eq (by omega)] at hlost
  refine ⟨?_, ?_, ?_, fun hfailed hoverflow => ?_⟩
  · rw [List.map_append]
    exact tiles_concat h.tiles rfl hlt
  · rw [haccepted, h.accepted]
    exact congrArg (fun l => (l.map Span.length).sum) (@marked_concat_not _ true _).symm
  · rw [hlost, h.lost, marked_concat_same, List.map_append, List.sum_append]
    simp [Span.length]
  · obtain ⟨hoverflow, hpush⟩ := hgaps hoverflow
    obtain ⟨hordered, hle, hcovers⟩ := h.gaps hfailed hoverflow
    obtain ⟨hordered', hle', hcovers'⟩ := lossGaps_pushGap hpush hreason hlt hordered hle
    refine ⟨hordered', hle', fun x => ?_⟩
    rw [marked_concat_same, covers_append, covers_singleton, ← hcovers]
    exact hcovers' x

/-- A gap of a repeated or backward coordinate. -/
theorem Accounting.order (h : s.Accounting reached) :
    (s.gapLocked first last .invalidInputOrder allSubbands false).Accounting reached := by
  by_cases hlt : first < last
  · obtain ⟨view, gaps, hs, haccepted, hlost, hgaps⟩ :=
      @gapLocked_eq α s .invalidInputOrder first last allSubbands false hlt
    rw [hs]
    simp only [Bool.false_eq_true, false_and, if_false, List.append_nil] at hlost ⊢
    refine ⟨h.tiles, haccepted.trans h.accepted, hlost.trans h.lost, fun hfailed hoverflow => ?_⟩
    obtain ⟨hoverflow, hpush⟩ := hgaps hoverflow
    have hkept : lossGaps (s.taken ++ gaps) = lossGaps (s.taken ++ s.gaps) := by
      rw [lossGaps_append, lossGaps_append, lossGaps_pushGap_order hpush rfl]
    have h := h.gaps hfailed hoverflow
    rw [← hkept] at h
    exact h
  · rw [gapLocked, if_pos (not_lt.mp hlt)]
    exact h

/-- A gap of samples that were given up after a failure. -/
theorem Accounting.abandoned (h : s.Accounting reached) (hfailed : s.failed = true) :
    (s.gapLocked first last reason subband false).Accounting reached ∧
      (s.gapLocked first last reason subband false).failed = true := by
  by_cases hlt : first < last
  · obtain ⟨view, gaps, hs, haccepted, hlost, hgaps⟩ :=
      @gapLocked_eq α s reason first last subband false hlt
    rw [hs]
    simp only [Bool.false_eq_true, false_and, if_false, List.append_nil] at hlost ⊢
    refine ⟨⟨h.tiles, haccepted.trans h.accepted, hlost.trans h.lost, fun hfailed' => ?_⟩, hfailed⟩
    exact absurd (hfailed.symm.trans hfailed') Bool.noConfusion
  · rw [gapLocked, if_pos (not_lt.mp hlt)]
    exact ⟨h, hfailed⟩

/-- An accepted block from where the account ends. -/
theorem Accounting.accept (h : s.Accounting first) (hlt : first < last) (hmax : last ≤ counterMax)
    (haccepted : view.acceptedInputSamples = add s.view.acceptedInputSamples (last - first))
    (hlost : view.sourceGapInputSamples = s.view.sourceGapInputSamples)
    (hoverflows : view.gapOverflows = s.view.gapOverflows) (sources : List (SourceBlock α)) :
    Accounting { s with
      sources := sources, view := view, timeline := s.timeline ++ [(true, ⟨first, last⟩)] } last := by
  have hsum := h.sum_le
  rw [add_eq (by omega)] at haccepted
  refine ⟨?_, ?_, ?_, fun hfailed hoverflow => ?_⟩
  · rw [List.map_append]
    exact tiles_concat h.tiles rfl hlt
  · rw [haccepted, h.accepted, marked_concat_same, List.map_append, List.sum_append]
    simp [Span.length]
  · rw [hlost, h.lost]
    exact congrArg (fun l => (l.map Span.length).sum) (@marked_concat_not _ false _).symm
  · obtain ⟨hordered, hle, hcovers⟩ := h.gaps hfailed (hoverflows.symm.trans hoverflow)
    refine ⟨hordered, fun i hi => ⟨(hle i hi).1, (hle i hi).2.trans hlt.le⟩, fun x => ?_⟩
    rw [hcovers]
    exact (congrArg (fun l => Covers l x) (@marked_concat_not _ false _).symm).to_iff

/-- A rejected call: a source loss, unless the input was invalid. -/
theorem reject_eq : ∃ view, s.reject first last reason =
      gapLocked { s with view := view } first last reason allSubbands
        (decide (reason ≠ .invalidInputOrder ∧ reason ≠ .invalidSampleCoordinate)) ∧
    view.acceptedInputSamples = s.view.acceptedInputSamples ∧
    view.sourceGapInputSamples = s.view.sourceGapInputSamples ∧
    view.gapOverflows = s.view.gapOverflows := by
  unfold reject
  split_ifs
  · exact ⟨_, rfl, rfl, rfl, rfl⟩
  · exact ⟨_, rfl, rfl, rfl, rfl⟩
  · exact ⟨_, rfl, rfl, rfl, rfl⟩

theorem Accounting.reject_loss (h : s.Accounting first) (hlt : first < last) (hmax : last ≤ counterMax)
    (horder : reason ≠ .invalidInputOrder) (hcoordinate : reason ≠ .invalidSampleCoordinate) :
    (s.reject first last reason).Accounting last := by
  obtain ⟨view, hs, haccepted, hlost, hoverflows⟩ := @reject_eq α s reason first last
  rw [hs, decide_eq_true ⟨horder, hcoordinate⟩]
  exact (h.with_view haccepted hlost hoverflows).loss hlt hmax horder

theorem Accounting.reject_order (h : s.Accounting reached) :
    (s.reject first last .invalidInputOrder).Accounting reached := by
  obtain ⟨view, hs, haccepted, hlost, hoverflows⟩ := @reject_eq α s .invalidInputOrder first last
  rw [hs]
  exact (h.with_view haccepted hlost hoverflows).order

theorem Accounting.reject_coordinate (h : s.Accounting reached) :
    (s.reject first first .invalidSampleCoordinate).Accounting reached := by
  obtain ⟨view, hs, haccepted, hlost, hoverflows⟩ := @reject_eq α s .invalidSampleCoordinate first first
  rw [hs, gapLocked, if_pos le_rfl]
  exact h.with_view haccepted hlost hoverflows

/-- Where the account ends: before the block of the submission that has entered. -/
def accountEnd (s : Submission α) : ℕ := (s.entered.map (·.block.first)).getD s.expectedSubmission

/-- The account is right while the input is open. -/
structure Inv (s : Submission α) : Prop where
  account : s.Accounting s.accountEnd
  bound : s.expectedSubmission ≤ maximumCoordinate
  fresh : s.submittedBefore = false →
    s.timeline = [] ∧ s.expectedSubmission = 0 ∧ s.entered = none
  entered : ∀ e, s.entered = some e → e.block.values ≠ [] ∧
    e.block.first + e.block.values.length = s.expectedSubmission

/-- The fields that a gap leaves. -/
structure SameCalls (s s' : Submission α) : Prop where
  entered : s'.entered = s.entered
  expectedSubmission : s'.expectedSubmission = s.expectedSubmission
  submittedBefore : s'.submittedBefore = s.submittedBefore
  closed : s'.closed = s.closed

theorem gapLocked_same : SameCalls s (s.gapLocked first last reason subband sourceLoss) := by
  by_cases hlt : first < last
  · obtain ⟨view, gaps, hs, -⟩ := @gapLocked_eq α s reason first last subband sourceLoss hlt
    rw [hs]
    exact ⟨rfl, rfl, rfl, rfl⟩
  · rw [gapLocked, if_pos (not_lt.mp hlt)]
    exact ⟨rfl, rfl, rfl, rfl⟩

theorem reject_same : SameCalls s (s.reject first last reason) := by
  obtain ⟨view, hs, -⟩ := @reject_eq α s reason first last
  have h := @gapLocked_same α { s with view := view } reason first last allSubbands
    (decide (reason ≠ .invalidInputOrder ∧ reason ≠ .invalidSampleCoordinate))
  rw [hs]
  exact ⟨h.entered, h.expectedSubmission, h.submittedBefore, h.closed⟩

theorem Inv.of_same {s' : Submission α} (h : s.Inv) (hsame : SameCalls s s')
    (haccount : s'.Accounting s.accountEnd)
    (htimeline : s.submittedBefore = false → s'.timeline = s.timeline) : s'.Inv := by
  obtain ⟨hentered, hexpected, hsubmitted, -⟩ := hsame
  refine ⟨?_, hexpected.le.trans h.bound, fun hfresh => ?_, fun e he => ?_⟩
  · rwa [accountEnd, hentered, hexpected]
  · rw [hsubmitted] at hfresh
    rw [htimeline hfresh, hexpected, hentered]
    exact h.fresh hfresh
  · rw [hexpected]
    exact h.entered e (hentered ▸ he)

theorem gapLocked_timeline : (s.gapLocked first last reason subband false).timeline = s.timeline := by
  by_cases hlt : first < last
  · obtain ⟨view, gaps, hs, -⟩ := @gapLocked_eq α s reason first last subband false hlt
    rw [hs]
    simp
  · rw [gapLocked, if_pos (not_lt.mp hlt)]

theorem reject_coordinate_timeline :
    (s.reject first first .invalidSampleCoordinate).timeline = s.timeline := by
  obtain ⟨view, hs, -⟩ := @reject_eq α s .invalidSampleCoordinate first first
  rw [hs, gapLocked, if_pos le_rfl]

/-! ## Steps -/

theorem accountEnd_none (h : s.entered = none) : s.accountEnd = s.expectedSubmission := by
  rw [accountEnd, h]
  rfl

/-- A submission enters where the account ends, or begins one. -/
theorem Accounting.enter (h : s.Accounting reached) (hinput : input ≠ [])
    (hbound : first + input.length ≤ maximumCoordinate)
    (hsubmitted : s.submittedBefore = true → reached = first)
    (hfresh : s.submittedBefore = false → s.timeline = [] ∧ reached = 0) :
    Inv { s with
      origin := if s.submittedBefore then s.origin else first
      submittedBefore := true
      expectedSubmission := first + input.length
      entered := some ⟨⟨input, first⟩, false⟩ } := by
  refine ⟨?_, hbound, fun h => ?_, fun e he => ?_⟩
  · change Accounting _ first
    cases hsub : s.submittedBefore with
    | true =>
      obtain rfl := hsubmitted hsub
      exact ⟨h.tiles, h.accepted, h.lost, h.gaps⟩
    | false =>
      obtain ⟨htimeline, rfl⟩ := hfresh hsub
      refine ⟨?_, h.accepted, h.lost, fun hfailed hoverflow => ?_⟩
      · rw [htimeline]
        rfl
      · obtain ⟨hordered, hle, hcovers⟩ := h.gaps hfailed hoverflow
        exact ⟨hordered, fun i hi => ⟨(hle i hi).1, (hle i hi).2.trans (Nat.zero_le _)⟩, hcovers⟩
  · cases h
  · obtain rfl := Option.some.inj he
    exact ⟨hinput, rfl⟩

theorem inv_enter (h : s.Inv) (hopen : s.closed = false) (hnone : s.entered = none) :
    (s.enter input first).Inv := by
  have haccount := h.account
  rw [accountEnd_none hnone] at haccount
  rw [Submission.enter, if_neg (by simp [hopen])]
  by_cases hcoordinate : input.length > maximumCoordinate ∨ first > maximumCoordinate - input.length
  · rw [if_pos hcoordinate]
    exact h.of_same reject_same h.account.reject_coordinate fun _ => reject_coordinate_timeline
  by_cases hempty : input = []
  · simp only [if_neg hcoordinate, if_pos hempty]
    exact h
  by_cases horder : s.submittedBefore = true ∧ first < s.expectedSubmission
  · simp only [if_neg hcoordinate, if_neg hempty, if_pos horder]
    refine h.of_same reject_same h.account.reject_order fun hfresh => ?_
    exact absurd (horder.1.symm.trans hfresh) Bool.noConfusion
  simp only [if_neg hcoordinate, if_neg hempty, if_neg horder]
  have hmax : maximumCoordinate ≤ counterMax := by decide
  by_cases hgap : s.submittedBefore = true ∧ first > s.expectedSubmission
  · rw [if_pos hgap]
    have hsame := @gapLocked_same α s .inputDiscontinuity s.expectedSubmission first allSubbands true
    have hloss := @Accounting.loss α s .inputDiscontinuity _ _ haccount hgap.2 (by omega) (by decide)
    refine hloss.enter hempty (by omega) (fun _ => rfl) fun hfresh => ?_
    rw [hsame.submittedBefore, hgap.1] at hfresh
    exact absurd hfresh Bool.noConfusion
  · rw [if_neg hgap]
    refine haccount.enter hempty (by omega) (fun hsubmitted => ?_)
      fun hfresh => ⟨(h.fresh hfresh).1, (h.fresh hfresh).2.1⟩
    have hlt : ¬ first < s.expectedSubmission := fun hlt => horder ⟨hsubmitted, hlt⟩
    have hgt : ¬ first > s.expectedSubmission := fun hgt => hgap ⟨hsubmitted, hgt⟩
    omega

/-- The end of a submission that is lost or accepted as a whole. -/
theorem Inv.leave {s' : Submission α} (h : s.Inv) {checked : Bool}
    (hentered : s.entered = some ⟨block, checked⟩) (hsame : SameCalls { s with entered := none } s')
    (hsubmitted : s.submittedBefore = true)
    (haccount : s'.Accounting (block.first + block.values.length)) : s'.Inv := by
  obtain ⟨hentered', hexpected, hsubmitted', -⟩ := hsame
  obtain ⟨-, hlast⟩ := h.entered _ hentered
  refine ⟨?_, hexpected.le.trans h.bound, fun hfresh => ?_, fun e he => ?_⟩
  · rwa [accountEnd_none hentered', hexpected, ← hlast]
  · rw [hsubmitted'] at hfresh
    exact absurd (hsubmitted.symm.trans hfresh) Bool.noConfusion
  · rw [hentered'] at he
    cases he

/-- The block of the submission that has entered is what the account lacks. -/
theorem Inv.entered_block (h : s.Inv) {checked : Bool} (hentered : s.entered = some ⟨block, checked⟩) :
    s.Accounting block.first ∧ block.first < block.first + block.values.length ∧
      block.first + block.values.length ≤ counterMax ∧ s.submittedBefore = true := by
  obtain ⟨hvalues, hlast⟩ : block.values ≠ [] ∧ block.first + block.values.length =
      s.expectedSubmission := h.entered _ hentered
  have haccount := h.account
  rw [accountEnd, hentered] at haccount
  have hlength : 0 < block.values.length := List.length_pos_iff.mpr hvalues
  have hbound := h.bound
  have hmax : maximumCoordinate ≤ counterMax := by decide
  refine ⟨haccount, by omega, by omega, ?_⟩
  by_contra hfresh
  have hnone := (h.fresh (by simpa using hfresh)).2.2
  rw [hentered] at hnone
  cases hnone

theorem Accounting.of_entered {entered : Option (Entered α)} (h : s.Accounting reached) :
    Accounting { s with entered := entered } reached := ⟨h.tiles, h.accepted, h.lost, h.gaps⟩

theorem inv_check (h : s.Inv) (hentered : s.entered = some ⟨block, false⟩) : (s.check block).Inv := by
  obtain ⟨haccount, hlt, hmax, hsubmitted⟩ := h.entered_block hentered
  rw [check]
  split_ifs with hlarge hfailed
  · exact h.leave hentered reject_same hsubmitted
      (haccount.of_entered.reject_loss hlt hmax (by decide) (by decide))
  · exact h.leave hentered reject_same hsubmitted
      (haccount.of_entered.reject_loss hlt hmax (by decide) (by decide))
  · refine ⟨haccount.of_entered, h.bound, fun hfresh => ?_, fun e he => ?_⟩
    · exact absurd (hsubmitted.symm.trans hfresh) Bool.noConfusion
    · obtain rfl := Option.some.inj he
      exact h.entered ⟨block, false⟩ hentered

theorem inv_commit (h : s.Inv) (hopen : s.closed = false) (hentered : s.entered = some ⟨block, true⟩) :
    (s.commit block).Inv := by
  obtain ⟨haccount, hlt, hmax, hsubmitted⟩ := h.entered_block hentered
  have hnone : Accounting { s with entered := none } block.first := haccount.of_entered
  rw [commit, if_neg (by simp [hopen])]
  split_ifs with hfailed hfull
  · exact h.leave hentered reject_same hsubmitted (hnone.reject_loss hlt hmax (by decide) (by decide))
  · exact h.leave hentered reject_same hsubmitted (hnone.reject_loss hlt hmax (by decide) (by decide))
  · refine h.leave hentered ⟨rfl, rfl, rfl, rfl⟩ hsubmitted ?_
    refine hnone.accept hlt hmax ?_ ?_ ?_ _
    · rw [Nat.add_sub_cancel_left]
    · rfl
    · rfl

theorem inv_discard {blocks : List (SourceBlock α)} (h : s.Inv) (hfailed : s.failed = true) :
    (blocks.foldl discardSource s).Inv := by
  induction blocks generalizing s with
  | nil => exact h
  | cons block blocks ih =>
    have hview : Inv { s with view := { s.view with
        abandonedInputSamples := add s.view.abandonedInputSamples block.values.length } } :=
      ⟨h.account.with_view rfl rfl rfl, h.bound, h.fresh, h.entered⟩
    obtain ⟨haccount, hfailed'⟩ := @Accounting.abandoned α _ .processingFailure block.first
      (block.first + block.values.length) allSubbands _ hview.account hfailed
    exact ih (hview.of_same gapLocked_same haccount fun _ => gapLocked_timeline) hfailed'

theorem closed_discard {blocks : List (SourceBlock α)} :
    (blocks.foldl discardSource s).closed = s.closed := by
  induction blocks generalizing s with
  | nil => rfl
  | cons block blocks ih => exact ih.trans gapLocked_same.closed

/-- A step keeps the account while the input is open. -/
theorem inv_step (h : s.Inv) (hopen : s.closed = false) :
    (s.step e).closed = true ∨ (s.step e).Inv := by
  -- The invariant is about an open submission; `close` is the only event that leaves it.
  cases e with
  | enter input first =>
    simp only [step]
    split_ifs with hentered
    · exact .inr h
    · exact .inr (inv_enter h hopen (by simpa using hentered))
  | check =>
    simp only [step]
    split
    · rename_i block hentered
      exact .inr (inv_check h hentered)
    · exact .inr h
  | commit =>
    simp only [step]
    split
    · rename_i block hentered
      exact .inr (inv_commit h hopen hentered)
    · exact .inr h
  | channelized =>
    simp only [step]
    split
    · exact .inr ⟨⟨h.account.tiles, h.account.accepted, h.account.lost, h.account.gaps⟩, h.bound,
        h.fresh, h.entered⟩
    · exact .inr h
  | fail =>
    refine .inr ⟨⟨h.account.tiles, h.account.accepted, h.account.lost, fun hfailed => ?_⟩, h.bound,
      h.fresh, h.entered⟩
    cases hfailed
  | discard =>
    simp only [step]
    split_ifs with hfailed
    · obtain ⟨haccount, hbound, hfresh, hentered⟩ := @inv_discard α s s.sources h hfailed
      exact .inr ⟨⟨haccount.tiles, haccount.accepted, haccount.lost, haccount.gaps⟩, hbound, hfresh,
        hentered⟩
    · exact .inr h
  | abandon subband first last =>
    simp only [step]
    split_ifs with hfailed
    · exact .inr (h.of_same gapLocked_same (h.account.abandoned hfailed).1 fun _ => gapLocked_timeline)
    · exact .inr h
  | takeGaps =>
    refine .inr ⟨⟨h.account.tiles, h.account.accepted, h.account.lost, fun hfailed hoverflow => ?_⟩,
      h.bound, h.fresh, h.entered⟩
    have hgaps := h.account.gaps hfailed hoverflow
    simp only [step, List.append_nil]
    exact hgaps
  | close => exact .inl rfl

/-- Once the input is closed, it stays so. -/
theorem closed_step (h : s.closed = true) : (s.step e).closed = true := by
  cases e with
  | enter input first =>
    simp only [step]
    split_ifs
    · exact h
    · rw [Submission.enter, if_pos h]
      exact h
  | check =>
    simp only [step]
    split
    · rw [check]
      split_ifs
      · exact reject_same.closed.trans h
      · exact reject_same.closed.trans h
      · exact h
    · exact h
  | commit =>
    simp only [step]
    split
    · rw [commit, if_pos h]
      exact h
    · exact h
  | channelized =>
    simp only [step]
    split
    · exact h
    · exact h
  | fail => exact h
  | discard =>
    simp only [step]
    split_ifs
    · exact closed_discard.trans h
    · exact h
  | abandon subband first last =>
    simp only [step]
    split_ifs
    · exact gapLocked_same.closed.trans h
    · exact h
  | takeGaps => exact h
  | close => rfl

theorem inv_initial (subbands : ℕ) : (initial subbands : Submission α).Inv := by
  refine ⟨⟨rfl, rfl, rfl, fun _ _ => ⟨List.Pairwise.nil, fun i hi => ?_, fun x => Iff.rfl⟩⟩,
    Nat.zero_le _, fun _ => ⟨rfl, rfl, rfl⟩, fun e he => ?_⟩
  · exact absurd hi List.not_mem_nil
  · cases he

theorem inv_run (subbands : ℕ) (events : List (SubmissionEvent α))
    (hopen : (run step (initial subbands) events).closed = false) :
    (run step (initial subbands : Submission α) events).Inv := by
  have h := @invariant_run _ _ step (fun s : Submission α => s.closed = true ∨ s.Inv)
    (initial subbands) (fun s e h => ?_) (.inr (inv_initial subbands)) events
  · exact h.resolve_left (by simp [hopen])
  · rcases h with hclosed | h
    · exact .inl (closed_step hclosed)
    · cases hclosed : s.closed with
      | true => exact .inl (closed_step hclosed)
      | false => exact inv_step h hclosed

end Submission

open Submission in
/-- **Every submitted sample is accounted for once.** Between two submissions, while the input is
open, the samples from the first submission in order to the expected coordinate are cut into accepted
blocks and source losses, which the two counters add up; and if no gap overflowed and no thread
failed, the gaps that were handed out or are queued, but for those of repeated and backward
coordinates, are disjoint and cover the source losses. -/
theorem submission_accounting (subbands : ℕ) (events : List (SubmissionEvent α)) :
    ∀ s, s = run step (initial subbands) events → s.closed = false → s.entered = none →
      Tiles s.origin (s.timeline.map Prod.snd) s.expectedSubmission ∧
      s.view.acceptedInputSamples + s.view.sourceGapInputSamples = s.expectedSubmission - s.origin ∧
      s.view.acceptedInputSamples = ((marked true s.timeline).map Span.length).sum ∧
      s.view.sourceGapInputSamples = ((marked false s.timeline).map Span.length).sum ∧
      (s.view.gapOverflows = 0 → s.failed = false →
        (lossGaps (s.taken ++ s.gaps)).Pairwise (fun i j => ∀ x, ¬ (i.Has x ∧ j.Has x)) ∧
        ∀ x, Covers (lossGaps (s.taken ++ s.gaps)) x ↔ Covers (marked false s.timeline) x) := by
  intro s hs hopen hnone
  have h : s.Inv := by
    subst hs
    exact inv_run subbands events hopen
  have haccount := h.account
  rw [accountEnd_none hnone] at haccount
  have hsum := haccount.sum_le
  refine ⟨haccount.tiles, by omega, haccount.accepted, haccount.lost, fun hoverflow hfailed => ?_⟩
  obtain ⟨hordered, -, hcovers⟩ := haccount.gaps hfailed hoverflow
  exact ⟨hordered.disjoint, hcovers⟩

/-- An accepted block, a backward one, and one after a hole while the gaps are taken. -/
def lossyCalls : List (SubmissionEvent ℕ) :=
  [.enter [1, 2] 10, .check, .commit, .enter [3] 5, .takeGaps, .enter [4] 20, .check, .commit, .takeGaps]

theorem submission_accounting_lossy :
    (run Submission.step (.initial 2) lossyCalls).view.acceptedInputSamples +
      (run Submission.step (.initial 2) lossyCalls).view.sourceGapInputSamples = 21 - 10 :=
  (submission_accounting 2 lossyCalls _ rfl (by decide) (by decide)).2.1

end Submission

end Discovery

end OVMesh
