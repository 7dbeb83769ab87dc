import OVMesh.Report.Exposure
import OVMesh.Store.Grid
import OVMesh.Store.PowerCover

/-!
# A report over the tiles of a survey

The tiles of a survey in their order, of which those in the times of the report share one grid that meets its
frequencies. The report fails for its limits only, and its accumulators have observed the tiles that it counts.

* `Context.Counts`, `countedSeconds`: the tiles that count, and their time in the selection.
* `Ran`: the report after some tiles. `consume_ran`: one more. `consumes_ran`: all of them.
* `Filled`: a report that has rows. `Filled.gaps`: its gaps.
-/

namespace OVMesh

namespace Report

open AggregateReport Checked SpectrumProcessor
open SessionStore (Before)

section Run

variable {K : Type} [Field K] [LinearOrder K]

/-- The exposure of the tile is accumulated. -/
def Context.Counts (c : Context K) (t : SpectrumTile K) : Prop :=
  c.Considers t ∧ c.options.query.InRegion t.receiverEnd

instance (c : Context K) (t : SpectrumTile K) : Decidable (c.Counts t) := inferInstanceAs (Decidable (_ ∧ _))

/-- The time of a tile in the selection. -/
def Context.seconds (c : Context K) (t : SpectrumTile K) : K := (c.clip t).2 - (c.clip t).1

/-- The seconds of the tiles that the selection counts. -/
def countedSeconds (c : Context K) (tiles : List (SpectrumTile K)) : K :=
  ((tiles.filter c.Counts).map c.seconds).sum

/-- The report has the grid, with the bins that the context selects. -/
structure OnGrid (c : Context K) (g : Shape K) (r : AggregateReport K) : Prop where
  grid : r.grid = true
  count : r.count = g.count
  gridFirst : r.gridFirst = g.firstHz
  width : r.width = g.width
  first : r.first = Analysis.firstBin g.firstHz g.width c.lower g.count
  last : r.last = Analysis.lastBin g.firstHz g.width c.upper g.count r.first

/-- The report after some tiles. -/
structure Ran (c : Context K) (g : Shape K) (seen : List (SpectrumTile K)) (r : AggregateReport K) : Prop where
  exposure : r.Exposure c (countedSeconds c seen)
  fresh : (∀ t ∈ seen, ¬ c.Considers t) → r = .initial
  fixed : ∀ t ∈ seen, c.Considers t → OnGrid c g r ∧ r.earliest < r.latest
  previous : r.previousSample = 0 ∧ r.previousElapsed = 0 ∨
    ∃ a ∈ seen, r.previousSample = a.endSample ∧ r.previousElapsed = a.elapsedEndSeconds

variable {c : Context K} {g : Shape K} {r r' : AggregateReport K} {t : SpectrumTile K} {x : K}
  {seen rest tiles : List (SpectrumTile K)}

theorem OnGrid.accumulates (h : OnGrid c g r) (haccumulates : r.Accumulates r') : OnGrid c g r' := by
  obtain ⟨bins, times, cells, rfl⟩ := haccumulates
  exact ⟨h.grid, h.count, h.gridFirst, h.width, h.first, h.last⟩

theorem exposure_initial : (AggregateReport.initial : AggregateReport K).Exposure c 0 := by
  rw [AggregateReport.Exposure]
  split
  · exact ⟨rfl, fun a ha => absurd ha List.not_mem_nil⟩
  · exact ⟨⟨.nil, fun e he => absurd he List.not_mem_nil⟩, List.sum_nil⟩
  · exact List.sum_nil
  · trivial

theorem countedSeconds_append : countedSeconds c (seen ++ [t]) =
    if c.Counts t then countedSeconds c seen + c.seconds t else countedSeconds c seen := by
  rw [countedSeconds, List.filter_append, List.map_append, List.sum_append]
  split_ifs with hcounts
  · simp [hcounts, countedSeconds]
  · simp [hcounts, countedSeconds]

/-- Nothing counts of what is not considered. -/
theorem countedSeconds_idle (h : ∀ t ∈ seen, ¬ c.Considers t) : countedSeconds c seen = 0 := by
  have hnone : seen.filter c.Counts = [] :=
    List.filter_eq_nil_iff.mpr fun t ht hcounts => h t ht (of_decide_eq_true hcounts).1
  rw [countedSeconds, hnone]
  rfl

theorem ran_initial : Ran c g [] .initial where
  exposure := exposure_initial
  fresh := fun _ => rfl
  fixed := fun _ h => absurd h List.not_mem_nil
  previous := .inl ⟨rfl, rfl⟩

/-- The clipped tile is not empty. -/
theorem clip_lt (h : Selected c) (hconsiders : c.Considers t) (hlt : t.elapsedStartSeconds < t.elapsedEndSeconds) :
    (c.clip t).1 < (c.clip t).2 :=
  max_lt (lt_min h.start_lt hconsiders.1) (lt_min hconsiders.2 hlt)

/-! ## One tile -/

variable [IsStrictOrderedRing K] {E : String → Prop}

/-- The grid is fixed, or it agrees. -/
theorem fixGrid_ensures (hshape : t.shape = g) (hgrid : r.grid = true → OnGrid c g r)
    (hfresh : r.grid = false → x = 0) (hx : r.Exposure c x) :
    Ensures E (fun r' => OnGrid c g r' ∧ r'.Exposure c x ∧
      r'.previousSample = r.previousSample ∧ r'.previousElapsed = r.previousElapsed)
      (AggregateReport.fixGrid c t r) := by
  subst hshape
  rw [AggregateReport.fixGrid]
  cases hfixed : r.grid with
  | false =>
    rw [if_pos rfl]
    refine ⟨⟨rfl, rfl, rfl, rfl, rfl, rfl⟩, ?_, rfl, rfl⟩
    obtain rfl := hfresh hfixed
    unfold AggregateReport.Exposure at hx ⊢
    split at hx
    · exact ⟨List.length_replicate, fun a ha => congrArg Accumulator.observed (List.eq_of_mem_replicate ha)⟩
    · exact hx
    · exact hx
    · trivial
  | true =>
    have hon := hgrid hfixed
    have hcount : r.count = t.meanDbfs.length := hon.count
    have hfirst : r.gridFirst = t.firstCenterHz := hon.gridFirst
    have hwidth : r.width = t.binWidthHz := hon.width
    rw [if_neg Bool.noConfusion, hcount, hfirst, hwidth, sub_self, sub_self, abs_zero]
    refine (ensures_reject fun hbad => absurd hbad (by simp)).bind fun _ _ => ?_
    exact ⟨hon, hx, rfl, rfl⟩

/-- A tile that follows those that were seen is in order. -/
theorem Ran.inOrder (hran : Ran c g seen r) (hstart : 0 ≤ t.elapsedStartSeconds) (hordered : ∀ a ∈ seen, Before a t) :
    ¬ (t.firstSample < r.previousSample ∨ t.elapsedStartSeconds < r.previousElapsed - 1 / 10 ^ 8) := by
  rw [not_or, not_lt, not_lt]
  rcases hran.previous with ⟨hsample, helapsed⟩ | ⟨a, ha, hsample, helapsed⟩
  · rw [hsample, helapsed]
    have htolerance : (0 : K) < 1 / 10 ^ 8 := by positivity
    exact ⟨Nat.zero_le _, by linarith⟩
  · rw [hsample, helapsed]
    exact ⟨(hordered a ha).sample, (hordered a ha).elapsed⟩

omit [IsStrictOrderedRing K] in
/-- The grid and the exposure before a tile. -/
theorem Ran.before (hran : Ran c g seen r) :
    (r.grid = true → OnGrid c g r) ∧ (r.grid = false → countedSeconds c seen = 0) := by
  by_cases hidle : ∀ a ∈ seen, ¬ c.Considers a
  · refine ⟨fun hgrid => ?_, fun _ => countedSeconds_idle hidle⟩
    rw [hran.fresh hidle] at hgrid
    cases hgrid
  · push Not at hidle
    obtain ⟨a, ha, hconsiders⟩ := hidle
    have hon := (hran.fixed a ha hconsiders).1
    refine ⟨fun _ => hon, fun hgrid => ?_⟩
    rw [hon.grid] at hgrid
    cases hgrid

omit [IsStrictOrderedRing K] in
/-- After a tile that was considered. -/
theorem ran_next (hconsiders : c.Considers t) (hx : r.Exposure c (countedSeconds c (seen ++ [t])))
    (hgrid : OnGrid c g r) (hlt : r.earliest < r.latest) (hsample : r.previousSample = t.endSample)
    (helapsed : r.previousElapsed = t.elapsedEndSeconds) : Ran c g (seen ++ [t]) r where
  exposure := hx
  fresh := fun hidle => absurd hconsiders (hidle t (by simp))
  fixed := fun _ _ _ => ⟨hgrid, hlt⟩
  previous := .inr ⟨t, by simp, hsample, helapsed⟩

variable [FloorRing K] {m : Libm K} {sphere : Sphere K} {below : K → K}

omit [IsStrictOrderedRing K] in
/-- A tile of other times leaves the report as it is. -/
theorem consume_skip (h : ¬ c.Considers t) : AggregateReport.consume m sphere below c r t = .ok r := by
  rw [AggregateReport.consume, if_pos h]
  rfl

/-- Some bin of the grid is selected. -/
def Context.Selects (c : Context K) (g : Shape K) : Prop :=
  let first := Analysis.firstBin g.firstHz g.width c.lower g.count
  first ≠ Analysis.lastBin g.firstHz g.width c.upper g.count first

omit [IsStrictOrderedRing K] [FloorRing K] in
theorem OnGrid.bins_ne (hgrid : OnGrid c g r) (hselects : c.Selects g) : r.first ≠ r.last := by
  rw [hgrid.last, hgrid.first]
  exact hselects

omit [IsStrictOrderedRing K] [FloorRing K] in
theorem OnGrid.bins_lt (hgrid : OnGrid c g r) (hselects : c.Selects g) : r.first < r.last := by
  refine lt_of_le_of_ne ?_ (hgrid.bins_ne hselects)
  rw [hgrid.last, hgrid.first]
  exact Analysis.firstBin_le_lastBin.1

/-- **One tile.** -/
theorem consume_ran (h : Selected c) (hran : Ran c g seen r) (hselects : c.Selects g)
    (hrow : c.Considers t → t.shape = g ∧ 0 ≤ t.elapsedStartSeconds ∧ t.elapsedStartSeconds < t.elapsedEndSeconds)
    (hordered : ∀ a ∈ seen, Before a t) :
    Ensures IsLimit (Ran c g (seen ++ [t])) (AggregateReport.consume m sphere below c r t) := by
  -- A tile outside the query leaves the report as it is.
  by_cases hconsiders : c.Considers t
  swap
  · rw [consume_skip hconsiders]
    refine ⟨?_, fun hidle => hran.fresh fun a ha => hidle a (List.mem_append_left _ ha), ?_, ?_⟩
    · rw [countedSeconds_append, if_neg fun hcounts => hconsiders hcounts.1]
      exact hran.exposure
    · intro a ha ha'
      rcases List.mem_append.mp ha with ha | ha
      · exact hran.fixed a ha ha'
      · exact absurd (List.mem_singleton.mp ha ▸ ha') hconsiders
    · exact hran.previous.imp_right fun ⟨a, ha, hprevious⟩ => ⟨a, List.mem_append_left _ ha, hprevious⟩
  obtain ⟨hshape, hstart, hlt⟩ := hrow hconsiders
  have hclip := clip_lt h hconsiders hlt
  obtain ⟨hgrid, hfresh⟩ := hran.before
  rw [AggregateReport.consume, if_neg (not_not.mpr hconsiders)]
  refine (ensures_reject fun hbad => absurd hbad (hran.inOrder hstart hordered)).bind fun _ _ => ?_
  have hmoved : r.grid = true →
      OnGrid c g { r with previousSample := t.endSample, previousElapsed := t.elapsedEndSeconds } := fun hr =>
    ⟨hr, (hgrid hr).count, (hgrid hr).gridFirst, (hgrid hr).width, (hgrid hr).first, (hgrid hr).last⟩
  refine (fixGrid_ensures (r := { r with previousSample := t.endSample, previousElapsed := t.elapsedEndSeconds })
    hshape hmoved hfresh (hran.exposure.widen rfl rfl rfl rfl rfl le_rfl le_rfl)).bind fun r₁ h₁ => ?_
  obtain ⟨hon, hx, hsample, helapsed⟩ := h₁
  rw [if_neg (not_or.mpr ⟨not_le.mpr hclip, hon.bins_ne hselects⟩)]
  have hcover : min r₁.earliest (c.clip t).1 < max r₁.latest (c.clip t).2 :=
    (min_le_right _ _).trans_lt (hclip.trans_le (le_max_right _ _))
  have hon' : ∀ gps, OnGrid c g { r₁ with
      earliest := min r₁.earliest (c.clip t).1, latest := max r₁.latest (c.clip t).2, rejectedGps := gps } :=
    fun _ => ⟨hon.grid, hon.count, hon.gridFirst, hon.width, hon.first, hon.last⟩
  have hx' : ∀ gps, AggregateReport.Exposure c { r₁ with
      earliest := min r₁.earliest (c.clip t).1, latest := max r₁.latest (c.clip t).2, rejectedGps := gps }
      (countedSeconds c seen) := fun _ => hx.widen rfl rfl rfl rfl rfl (min_le_left _ _) (le_max_left _ _)
  -- Behind the clip the grid is fixed and the extent widened, also for a tile outside the region.
  by_cases hregion : c.options.query.InRegion t.receiverEnd
  · rw [if_neg (not_not.mpr hregion)]
    refine (addTile_exposure h hclip (min_le_right _ _) (le_max_right _ _) (hx' r₁.rejectedGps)).bind
      fun r₂ h₂ => ?_
    obtain ⟨⟨bins, times, cells, rfl⟩, hx₂⟩ := h₂
    refine (addFrames_exposure h _ (min_le_right _ _) (le_max_right _ _) hx₂).mono fun r₃ h₃ => ?_
    obtain ⟨haccumulates, hx₃⟩ := h₃
    obtain ⟨bins', times', cells', rfl⟩ := haccumulates
    refine ran_next hconsiders ?_ ((hon' r₁.rejectedGps).accumulates ⟨bins', times', cells', rfl⟩) hcover hsample
      helapsed
    rw [countedSeconds_append, if_pos ⟨hconsiders, hregion⟩]
    exact hx₃
  · have hcounted : countedSeconds c (seen ++ [t]) = countedSeconds c seen := by
      rw [countedSeconds_append, if_neg fun hcounts => hregion hcounts.2]
    rw [if_pos hregion]
    split_ifs
    · exact ran_next hconsiders (hcounted ▸ hx' _) (hon' _) hcover hsample helapsed
    · exact ran_next hconsiders (hcounted ▸ hx' _) (hon' _) hcover hsample helapsed

/-- **All tiles.** -/
theorem consumes_ran (h : Selected c) (hselects : c.Selects g)
    (hrows : ∀ t ∈ tiles, c.Considers t →
      t.shape = g ∧ 0 ≤ t.elapsedStartSeconds ∧ t.elapsedStartSeconds < t.elapsedEndSeconds)
    (hordered : tiles.Pairwise Before) :
    Ensures IsLimit (Ran c g tiles) (tiles.foldlM (AggregateReport.consume m sphere below c) .initial) := by
  refine ensures_foldlM (I := Ran c g) ?_ ran_initial
  intro seen t rest r hseen hran
  have ht : t ∈ tiles := hseen ▸ List.mem_append_right _ List.mem_cons_self
  rw [← hseen] at hordered
  refine consume_ran h hran hselects (hrows t ht) fun a ha => ?_
  exact (List.pairwise_append.mp hordered).2.2 a ha t List.mem_cons_self

/-! ## Gaps -/

/-- A report that has rows. -/
structure Filled (c : Context K) (g : Shape K) (x : K) (r : AggregateReport K) : Prop where
  exposure : r.Exposure c x
  onGrid : OnGrid c g r
  earliest_lt : r.earliest < r.latest

omit [IsStrictOrderedRing K] [FloorRing K] in
theorem Ran.filled (hran : Ran c g seen r) (ht : t ∈ seen) (hconsiders : c.Considers t) :
    Filled c g (countedSeconds c seen) r :=
  ⟨hran.exposure, (hran.fixed t ht hconsiders).1, (hran.fixed t ht hconsiders).2⟩

omit [IsStrictOrderedRing K] [FloorRing K] in
theorem Filled.gap (h : Filled c g x r) (gap : CoverageGap K) : Filled c g x (r.gap c gap) := by
  unfold AggregateReport.gap
  dsimp only
  split_ifs
  · exact h
  · refine ⟨h.exposure.widen rfl rfl rfl rfl rfl (min_le_left _ _) (le_max_left _ _), ?_, ?_⟩
    · exact ⟨h.onGrid.grid, h.onGrid.count, h.onGrid.gridFirst, h.onGrid.width, h.onGrid.first, h.onGrid.last⟩
    · exact (min_le_left _ _).trans_lt (h.earliest_lt.trans_le (le_max_left _ _))

omit [IsStrictOrderedRing K] [FloorRing K] in
theorem Filled.gaps (h : Filled c g x r) (gaps : List (CoverageGap K)) : Filled c g x (gaps.foldl (AggregateReport.gap c) r) := by
  induction gaps generalizing r with
  | nil => exact h
  | cons gap gaps ih => exact ih (h.gap gap)

end Run

end Report

end OVMesh
