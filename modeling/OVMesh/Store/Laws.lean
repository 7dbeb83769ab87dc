import OVMesh.Lib.Outcome
import OVMesh.Store.Totals

/-!
# Laws of the analysis

The totals of an analysis as a measure: additive over a split of the time interval, monotone and
subadditive in the frequency interval.

* `Sums.activeAt`: the active time of the bin at a frequency.
* `analyze_measure`: the laws. `observed_off_grid`: a query between the bins observes nothing.
-/

namespace OVMesh

namespace Analysis

open Checked SpectrumProcessor

variable {K : Type} [Field K] [LinearOrder K]

/-- The active time of the bin whose centre is `hz`; zero when no such bin is listed. -/
def Sums.activeAt (sums : Sums K) (hz : K) : K :=
  ((sums.bins.find? fun b => b.centerHz = hz).map (·.activeSeconds)).getD 0

/-- The selected cells of the bin whose centre is `hz`. -/
def cellsAt (g : Shape K) (lower upper hz : K) : Set Cell :=
  fun cell => g.Meets lower upper cell.1 ∧ g.center cell.1 = hz

/-- The two queries differ in their frequencies only. -/
def SameTimes (q q' : SurveyQuery K) : Prop :=
  q' = { q with lowerHz := q'.lowerHz, upperHz := q'.upperHz }

variable [IsStrictOrderedRing K] {m : Libm K} {g : Shape K} {s : SavedSurvey K}
  {q q' q₁ q₂ : SurveyQuery K} {sums : Sums K} {B : Set Cell} {frames : List (Frame K)} {hz : K}

omit [IsStrictOrderedRing K] in
theorem SameTimes.activeSeconds (h : SameTimes q q') :
    activeSeconds q' frames B = OVMesh.activeSeconds q frames B := by
  rw [h]
  rfl

/-- The listed bin at a frequency holds the activity of its cells. -/
theorem Computes.activeAt (h : Computes m s g q sums) (hw : s.tiles ≠ [] → 0 < g.width) :
    sums.activeAt hz = activeSeconds q s.frames (cellsAt g (s.lower q) (s.upper q) hz) := by
  by_cases hobserved : 0 < sums.observedSeconds
  · have hne : s.tiles ≠ [] := by
      rintro hnil
      rw [h.observed, hnil, observedSeconds, List.map_nil, List.sum_nil, ite_self] at hobserved
      exact lt_irrefl _ hobserved
    have hw := hw hne
    rw [Sums.activeAt, h.bins, if_pos hobserved, List.find?_map]
    cases hfind : (g.selected (s.lower q) (s.upper q)).find? _ with
    | none =>
      have hempty : cellsAt g (s.lower q) (s.upper q) hz = ∅ := by
        refine Set.eq_empty_of_forall_notMem fun cell hcell => ?_
        refine List.find?_eq_none.mp hfind cell.1 ?_ (decide_eq_true hcell.2)
        rw [Shape.selected, List.mem_filter, List.mem_range]
        exact ⟨hcell.1.1, decide_eq_true hcell.1⟩
      rw [hempty, activeSeconds_empty]
      rfl
    | some b =>
      have hfound := List.find?_some hfind
      have hcenter : g.center b = hz := of_decide_eq_true hfound
      have hmem := List.mem_of_find?_eq_some hfind
      rw [Shape.selected, List.mem_filter] at hmem
      have hcells : cellsAt g (s.lower q) (s.upper q) hz = binCells b := by
        ext cell
        refine ⟨fun hcell => center_injective hw (hcell.2.trans hcenter.symm), fun hcell => ?_⟩
        have hb : cell.1 = b := hcell
        refine ⟨?_, by rw [hb, hcenter]⟩
        rw [hb]
        exact of_decide_eq_true hmem.2
      rw [hcells]
      rfl
  · -- Nothing is observed: no bin is listed, and the selected cells have no time.
    rw [Sums.activeAt, h.bins, if_neg hobserved]
    refine le_antisymm (Occupancy.occupied_nonneg fun _ _ => frameSeconds_nonneg) ?_
    by_cases hnil : g.selected (s.lower q) (s.upper q) = []
    · have hempty : cellsAt g (s.lower q) (s.upper q) hz = ∅ :=
        Set.subset_eq_empty (fun cell (hcell : cell ∈ cellsAt g _ _ hz) => hcell.1)
          (cells_eq_empty hnil .all)
      rw [hempty, activeSeconds_empty]
      rfl
    · rw [h.observed, if_neg hnil] at hobserved
      exact activeSeconds_le_observed.trans (not_lt.mp hobserved)

variable [FloorRing K] {rounding : Rounding K}

/-- Every analysis that returned is the measure of its query. -/
theorem computes_of_ok (hs : Stored s g) {r : Resolved K}
    (h : analyze m rounding s q = .ok (r, sums)) :
    Computes m s g q sums ∧ 0 ≤ q.elapsedStart := by
  have hq : q.validate = .ok () := by
    unfold analyze at h
    obtain ⟨_, hq, -⟩ := bind_eq_ok.mp h
    exact hq
  obtain ⟨r', sums', hok, hcomputes⟩ := analyze_computes m rounding hs hq
  rw [hok] at h
  cases h
  refine ⟨hcomputes, ?_⟩
  unfold SurveyQuery.validate nonnegative at hq
  simp only [bind_eq_ok, reject_eq_ok, forM_eq_ok, List.mem_cons, List.not_mem_nil, or_false,
    forall_eq_or_imp, forall_eq, not_lt] at hq
  obtain ⟨_, ⟨_, _, hstart, _⟩, _⟩ := hq
  exact hstart

omit [FloorRing K] in
/-- The parts of the range and the observed time bound each other. -/
theorem Computes.bounds (h : Computes m s g q sums) :
    max (sums.seconds .center) (sums.seconds .outside) ≤ sums.seconds .all ∧
      sums.seconds .all ≤
        min sums.observedSeconds (sums.seconds .center + sums.seconds .outside) := by
  rw [h.seconds, h.seconds, h.seconds]
  refine ⟨max_le ?_ ?_, le_min ?_ ?_⟩
  · exact activeSeconds_mono (Region.cells_subset_all _)
  · exact activeSeconds_mono (Region.cells_subset_all _)
  · rw [h.observed]
    split <;> rename_i hnil
    · rw [cells_eq_empty hnil, activeSeconds_empty]
    · exact activeSeconds_le_observed
  · rw [Region.cells_all]
    exact activeSeconds_union_le

/-- **The analysis is a measure.** A valid query of a stored recording returns the measure of its
selection, whose parts bound each other. The totals and the bins are additive over a split of the
time; the active times are monotone and subadditive in the frequencies. -/
theorem analyze_measure (m : Libm K) (rounding : Rounding K) (hs : Stored s g) :
    (∀ q : SurveyQuery K, q.validate = .ok () → ∃ r sums,
      analyze m rounding s q = .ok (r, sums) ∧ Computes m s g q sums ∧
        max (sums.seconds .center) (sums.seconds .outside) ≤ sums.seconds .all ∧
        sums.seconds .all ≤
          min sums.observedSeconds (sums.seconds .center + sums.seconds .outside)) ∧
    (∀ (q q₁ q₂ : SurveyQuery K) (time : K) (r r₁ r₂ : Resolved K) (a a₁ a₂ : Sums K),
      SplitsAt q q₁ q₂ time → analyze m rounding s q = .ok (r, a) →
      analyze m rounding s q₁ = .ok (r₁, a₁) → analyze m rounding s q₂ = .ok (r₂, a₂) →
        a.observedSeconds = a₁.observedSeconds + a₂.observedSeconds ∧
        (∀ x, a.seconds x = a₁.seconds x + a₂.seconds x) ∧
        ∀ hz, a.activeAt hz = a₁.activeAt hz + a₂.activeAt hz) ∧
    (∀ (q q' : SurveyQuery K) (r r' : Resolved K) (a a' : Sums K), SameTimes q q' →
      s.lower q' ≤ s.lower q → s.upper q ≤ s.upper q' → analyze m rounding s q = .ok (r, a) →
      analyze m rounding s q' = .ok (r', a') → ∀ x, a.seconds x ≤ a'.seconds x) ∧
    (∀ (q q₁ q₂ : SurveyQuery K) (r r₁ r₂ : Resolved K) (a a₁ a₂ : Sums K), SameTimes q q₁ →
      SameTimes q q₂ → s.lower q₁ ≤ s.lower q → s.lower q₂ ≤ s.upper q₁ →
      s.upper q ≤ s.upper q₂ → analyze m rounding s q = .ok (r, a) →
      analyze m rounding s q₁ = .ok (r₁, a₁) → analyze m rounding s q₂ = .ok (r₂, a₂) →
        ∀ x, a.seconds x ≤ a₁.seconds x + a₂.seconds x) := by
  refine ⟨fun q hq => ?_, ?_, ?_, ?_⟩
  · obtain ⟨r, sums, hok, hcomputes⟩ := analyze_computes m rounding hs hq
    exact ⟨r, sums, hok, hcomputes, hcomputes.bounds⟩
  -- A split in time: both parts have the bounds in frequency of the whole.
  · intro q q₁ q₂ time r r₁ r₂ a a₁ a₂ hsplit ha ha₁ ha₂
    obtain ⟨ha, h0⟩ := computes_of_ok hs ha
    obtain ⟨ha₁, -⟩ := computes_of_ok hs ha₁
    obtain ⟨ha₂, -⟩ := computes_of_ok hs ha₂
    have hlower : s.lower q₁ = s.lower q ∧ s.lower q₂ = s.lower q := by
      rw [hsplit.before, hsplit.behind]
      exact ⟨rfl, rfl⟩
    have hupper : s.upper q₁ = s.upper q ∧ s.upper q₂ = s.upper q := by
      rw [hsplit.before, hsplit.behind]
      exact ⟨rfl, rfl⟩
    have hw : s.tiles ≠ [] → 0 < g.width := fun hne => by
      obtain ⟨t, ht⟩ := List.exists_mem_of_ne_nil _ hne
      exact hs.width_pos ht
    refine ⟨?_, fun x => ?_, fun hz => ?_⟩
    · rw [ha.observed, ha₁.observed, ha₂.observed, hlower.1, hlower.2, hupper.1, hupper.2]
      split
      · exact (add_zero 0).symm
      · exact hsplit.observedSeconds_add h0
    · rw [ha.seconds, ha₁.seconds, ha₂.seconds, hlower.1, hlower.2, hupper.1, hupper.2]
      exact hsplit.activeSeconds_add h0
    · rw [ha.activeAt hw, ha₁.activeAt hw, ha₂.activeAt hw, hlower.1, hlower.2, hupper.1, hupper.2]
      exact hsplit.activeSeconds_add h0
  · intro q q' r r' a a' hsame hlower hupper ha ha' x
    obtain ⟨ha, -⟩ := computes_of_ok hs ha
    obtain ⟨ha', -⟩ := computes_of_ok hs ha'
    rw [ha.seconds, ha'.seconds, hsame.activeSeconds]
    exact activeSeconds_mono (x.cells_subset hlower hupper)
  · intro q q₁ q₂ r r₁ r₂ a a₁ a₂ hsame₁ hsame₂ hlower hmeet hupper ha ha₁ ha₂ x
    obtain ⟨ha, -⟩ := computes_of_ok hs ha
    obtain ⟨ha₁, -⟩ := computes_of_ok hs ha₁
    obtain ⟨ha₂, -⟩ := computes_of_ok hs ha₂
    rw [ha.seconds, ha₁.seconds, ha₂.seconds, hsame₁.activeSeconds, hsame₂.activeSeconds]
    -- The width of a bin is positive only where a tile is stored.
    by_cases hnil : s.tiles = []
    · have hframes : s.frames = [] := by
        rw [SavedSurvey.frames, SavedSurvey.framesOfTiles, hnil, List.flatMap_nil]
      rw [hframes]
      exact (add_zero (0 : K)).ge
    · obtain ⟨t, ht⟩ := List.exists_mem_of_ne_nil _ hnil
      exact (activeSeconds_mono (x.cells_subset_union (hs.width_pos ht) hlower hmeet hupper)).trans
        activeSeconds_union_le

/-! ## A recording of one tile -/

/-- A HackRF recording at 8 MS/s around 100 MHz without lanes. -/
def oneTileConfig : ReceiverConfig ℚ :=
  { synthetic := false, hardwareReceiver := .hackRf, centerHz := 100000000, tuningOffsetHz := 0
    sampleRate := 8000000, surveySpanHz := 4000000, lnaGain := 16, vgaGain := 20
    amplifier := false, rtlGainTenthsDb := 0, rtlAutoGain := false, deviceSerial := []
    concentrators :=
      { boards := [], scanEnabled := false, decodeEnabled := false, scanStepHz := 0
        scanSamples := 0 }
    activityThresholdDbfs := some (-60), discoverLora := false, automaticDecode := false
    compactRecording := false, lanes := [], sessionPath := [], sessionTitle := []
    antennaDescription := [], receiverDescription := [], surveyNotes := [] }

/-- One frame of one bin, which is active. -/
def oneTile : SpectrumTile ℚ :=
  { id := 1, firstSample := 0, endSample := 4096, utcStartSeconds := 1
    utcEndSeconds := 1 + 4096 / 8000000, elapsedStartSeconds := 1
    elapsedEndSeconds := 1 + 4096 / 8000000, powerElapsedStart := 1
    powerElapsedEnd := 1 + 4096 / 8000000, firstCenterHz := 100000000
    binWidthHz := 8000000 / 4096, frameCount := 1, backgroundDbfs := -100, clippedSamples := 0
    quality := 0, meanDbfs := [-50], peakDbfs := [-50], activity := [1] }

/-- A survey of one tile. -/
def oneTileSurvey : SavedSurvey ℚ :=
  { version := 4, config := oneTileConfig, acquisitions := [], tiles := [oneTile], gaps := [] }

/-- The whole session at the frequencies from 1 to 2 Hz. -/
def offGridQuery : SurveyQuery ℚ :=
  { lowerHz := 1, upperHz := 2, elapsedStart := 0, elapsedEnd := 0, geographicFilter := false
    south := 0, north := 0, west := 0, east := 0, timeBucketSeconds := 1, maxObservations := 0
    maxEvents := 0 }

/-- The functions of the library, at the arguments of the tile. -/
def rationalLibm : Libm ℚ :=
  { pi := 355 / 113, cos := fun _ => 1, sin := fun _ => 0, pow10 := fun x => 10 ^ ⌊x⌋
    log10 := fun x => Int.log 10 x }

/-- A rounding of rational numbers. -/
def rationalRounding : Rounding ℚ :=
  { nextAbove := fun x => x + 1 / 2 ^ 60, lt_nextAbove := fun x => by norm_num }

theorem stored_tile (t : SpectrumTile ℚ)
    (hrow : ∃ row, readTile { oneTileSurvey with tiles := [t] } t = .ok row)
    (hbytes : AreBytes t.activity) : Stored { oneTileSurvey with tiles := [t] } t.shape where
  rate := show 0 < oneTileConfig.sampleRate by decide
  rates := fun a ha => absurd ha List.not_mem_nil
  rows := fun _ ht => by
    rw [List.mem_singleton.mp ht]
    exact hrow
  shape := fun _ ht => List.mem_singleton.mp ht ▸ rfl
  bytes := fun _ ht => by
    rw [List.mem_singleton.mp ht]
    exact hbytes
  ordered := List.pairwise_singleton _ _
  gaps := fun x hx => absurd hx List.not_mem_nil

theorem stored_oneTile : Stored oneTileSurvey oneTile.shape :=
  stored_tile oneTile (exists_ok_of_isOk (by decide +kernel)) (by decide)

/-! ## A recording of two tiles -/

/-- Tile `n` of two frames of ten bins, of which the first five lie inside the guard. -/
def tileOfTwo (n : ℕ) (activity : List ℕ) : SpectrumTile ℚ :=
  { oneTile with
    id := n + 1, firstSample := 8192 * n, endSample := 8192 * (n + 1)
    utcStartSeconds := 1 + 8192 * n / 8000000, utcEndSeconds := 1 + 8192 * (n + 1) / 8000000
    elapsedStartSeconds := 1 + 8192 * n / 8000000
    elapsedEndSeconds := 1 + 8192 * (n + 1) / 8000000
    powerElapsedStart := 1 + 8192 * n / 8000000, powerElapsedEnd := 1 + 8192 * (n + 1) / 8000000
    firstCenterHz := 100000000 - 2 * 8000000 / 4096, frameCount := 2
    meanDbfs := List.replicate 10 (-60), peakDbfs := List.replicate 10 (-50), activity }

/-- Bins 2, 5 and 8 are active in the first frame, bin 9 in the second, bin 2 in the third. -/
def twoTiles : SavedSurvey ℚ :=
  { oneTileSurvey with tiles := [tileOfTwo 0 [0x24, 1, 0, 2], tileOfTwo 1 [4, 0, 0, 0]] }

/-- From within the first frame to within the last, at every frequency. -/
def clippedQuery : SurveyQuery ℚ :=
  { offGridQuery with
    lowerHz := 0, upperHz := 0, elapsedStart := 10001 / 10000, elapsedEnd := 10018 / 10000
    timeBucketSeconds := 1 / 1000 }

/-- The query up to a time within the second frame, and from there. -/
def earlierQuery : SurveyQuery ℚ := { clippedQuery with elapsedEnd := 10007 / 10000 }

/-- The part of the query from a time within the second frame on. -/
def laterQuery : SurveyQuery ℚ := { clippedQuery with elapsedStart := 10007 / 10000 }

/-- The query below and above a frequency in bin 5; both meet the bin. -/
def lowQuery : SurveyQuery ℚ := { clippedQuery with upperHz := 100006000 }

/-- The part of the query above the frequency at which `lowQuery` ends. -/
def highQuery : SurveyQuery ℚ := { clippedQuery with lowerHz := 100006000 }

theorem stored_twoTiles : Stored twoTiles (tileOfTwo 0 []).shape where
  rate := by decide
  rates := fun a ha => absurd ha List.not_mem_nil
  rows := fun t ht => by
    rcases List.mem_pair.mp ht with rfl | rfl
    · exact exists_ok_of_isOk (by decide +kernel)
    · exact exists_ok_of_isOk (by decide +kernel)
  shape := fun t ht => by rcases List.mem_pair.mp ht with rfl | rfl <;> rfl
  bytes := fun t ht => by rcases List.mem_pair.mp ht with rfl | rfl <;> decide
  ordered := by decide +kernel
  gaps := fun x hx => absurd hx List.not_mem_nil

theorem splitsAt_clipped : SplitsAt clippedQuery earlierQuery laterQuery (10007 / 10000) where
  before := rfl
  behind := rfl
  start_lt := by decide +kernel
  lt_stop := by decide +kernel

/-- What the query returns: the observed, the active, the centre and the outside time. -/
theorem analyze_clipped : (analyze rationalLibm rationalRounding twoTiles clippedQuery).map (fun a =>
      [a.2.observedSeconds, a.2.seconds .all, a.2.seconds .center, a.2.seconds .outside]) =
    .ok [1700 / 10 ^ 6, 1436 / 10 ^ 6, 924 / 10 ^ 6, 924 / 10 ^ 6] := by decide +kernel

/-- The laws hold of two tiles that the query clips, cut in time and in frequency. -/
theorem analyze_measure_twoTiles : ∃ r sums r₁ sums₁ r₂ sums₂ r₃ low r₄ high,
    analyze rationalLibm rationalRounding twoTiles clippedQuery = .ok (r, sums) ∧
    analyze rationalLibm rationalRounding twoTiles earlierQuery = .ok (r₁, sums₁) ∧
    analyze rationalLibm rationalRounding twoTiles laterQuery = .ok (r₂, sums₂) ∧
    analyze rationalLibm rationalRounding twoTiles lowQuery = .ok (r₃, low) ∧
    analyze rationalLibm rationalRounding twoTiles highQuery = .ok (r₄, high) ∧
    Computes rationalLibm twoTiles (tileOfTwo 0 []).shape clippedQuery sums ∧
    [sums.observedSeconds, sums.seconds .all, sums.seconds .center, sums.seconds .outside] =
      [1700 / 10 ^ 6, 1436 / 10 ^ 6, 924 / 10 ^ 6, 924 / 10 ^ 6] ∧
    sums.observedSeconds = sums₁.observedSeconds + sums₂.observedSeconds ∧
    (∀ x, sums.seconds x = sums₁.seconds x + sums₂.seconds x) ∧
    (∀ hz, sums.activeAt hz = sums₁.activeAt hz + sums₂.activeAt hz) ∧
    (∀ x, low.seconds x ≤ sums.seconds x) ∧
    ∀ x, sums.seconds x ≤ low.seconds x + high.seconds x := by
  obtain ⟨hmeasure, hsplit, hmono, hunion⟩ :=
    analyze_measure rationalLibm rationalRounding stored_twoTiles
  obtain ⟨r, sums, hok, hcomputes, -⟩ := hmeasure clippedQuery (by decide +kernel)
  obtain ⟨r₁, sums₁, hok₁, -⟩ := hmeasure earlierQuery (by decide +kernel)
  obtain ⟨r₂, sums₂, hok₂, -⟩ := hmeasure laterQuery (by decide +kernel)
  obtain ⟨r₃, low, hlow, -⟩ := hmeasure lowQuery (by decide +kernel)
  obtain ⟨r₄, high, hhigh, -⟩ := hmeasure highQuery (by decide +kernel)
  have hvalues := analyze_clipped
  rw [hok] at hvalues
  obtain ⟨hobserved, hseconds, hactive⟩ :=
    hsplit _ _ _ _ _ _ _ _ _ _ splitsAt_clipped hok hok₁ hok₂
  refine ⟨r, sums, r₁, sums₁, r₂, sums₂, r₃, low, r₄, high, hok, hok₁, hok₂, hlow, hhigh, hcomputes,
    Except.ok.inj hvalues, hobserved, hseconds, hactive, ?_, ?_⟩
  · exact hmono lowQuery clippedQuery _ _ _ _ rfl (by decide +kernel) (by decide +kernel) hlow hok
  · exact hunion clippedQuery lowQuery highQuery _ _ _ _ _ _ rfl rfl (by decide +kernel)
      (by decide +kernel) (by decide +kernel) hok hlow hhigh

/-! ## A query between the bins -/

/-- A query that meets no bin observes nothing, although the tile lies within its time. -/
theorem observed_off_grid : Stored oneTileSurvey oneTile.shape ∧
    offGridQuery.validate = .ok () ∧ offGridQuery.geographicFilter = false ∧
    ∃ r sums, analyze rationalLibm rationalRounding oneTileSurvey offGridQuery = .ok (r, sums) ∧
      sums.observedSeconds = 0 ∧ observedSeconds offGridQuery oneTileSurvey.tiles ≠ 0 := by
  have hq : offGridQuery.validate = .ok () := by decide +kernel
  obtain ⟨r, sums, hok, hcomputes⟩ :=
    analyze_computes rationalLibm rationalRounding stored_oneTile hq
  refine ⟨stored_oneTile, hq, rfl, r, sums, hok, ?_, by decide +kernel⟩
  rw [hcomputes.observed, if_pos (by decide +kernel)]

end Analysis

end OVMesh
