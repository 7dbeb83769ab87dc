import OVMesh.Report.Aggregate

/-!
# The exposure of a report

What the accumulators of a report have observed. A tile adds the time that it was observed to every bin, to the
groups of its times or to its cell, and its frames add nothing to it.

* `IsLimit`: what a report throws when it has too many rows or groups.
* `Grouped`: the groups of a time report. `Exposure`: the time that the accumulators of a report have observed.
* `addTile_exposure`, `addFrames_exposure`: a tile, and its frames.
-/

namespace OVMesh

namespace Report

open Buckets Checked SpectrumProcessor

/-- What `write` throws when a section has too many rows. -/
def tooManyRows : String :=
  "Report exceeds one million rows; narrow the selection or use larger time/geographic groups"

/-- A limit of rows or of memory is exceeded. -/
def IsLimit (message : String) : Prop :=
  message ∈ [tooManyRows, TimeGroups.tooMany, AggregateReport.timeMemory, AggregateReport.geographicMemory]

variable {K : Type} [Field K] [LinearOrder K]

theorem isLimit_tooManyRows : IsLimit tooManyRows := by simp [IsLimit]

theorem isLimit_tooMany : IsLimit TimeGroups.tooMany := by simp [IsLimit]

theorem isLimit_timeMemory : IsLimit AggregateReport.timeMemory := by simp [IsLimit]

theorem isLimit_geographicMemory : IsLimit AggregateReport.geographicMemory := by simp [IsLimit]

/-- The pieces of an interval have its length. -/
theorem chain_sum {edge : ℕ → K} {lo hi : K} {pieces : List (Piece K)} (h : Chain edge lo hi pieces) :
    (pieces.map fun p => p.upper - p.lower).sum = hi - lo := by
  induction pieces generalizing lo with
  | nil =>
    obtain rfl : lo = hi := h
    simp
  | cons p pieces ih =>
    obtain ⟨hlower, -, -, -, hrest⟩ := h
    rw [List.map_cons, List.sum_cons, ih hrest, hlower]
    ring

namespace AggregateReport

/-- The groups are in their order, and meet the interval. -/
def Grouped (c : Context K) (lo hi : K) (times : List (ℕ × Accumulator K)) : Prop :=
  SortedMap.Sorted times ∧ ∀ e ∈ times, Meets (c.groups.edge (.exact id)) lo hi e.1

/-- The time that the accumulators have observed: each of the selected bins, all groups, or all cells. -/
def Exposure (c : Context K) (r : AggregateReport K) (x : K) : Prop :=
  match c.options.kind with
  | .frequencySummary => r.bins.length = r.last - r.first ∧ ∀ a ∈ r.bins, a.observed = x
  | .timeSummary => Grouped c r.earliest r.latest r.times ∧ (r.times.map fun e => e.2.observed).sum = x
  | .geographicSummary => (r.cells.map fun e => e.2.common.observed).sum = x
  | _ => True

/-- Only the accumulators differ. -/
def Accumulates (r r' : AggregateReport K) : Prop :=
  ∃ bins times cells, r' = { r with bins := bins, times := times, cells := cells }

variable {r r' r'' : AggregateReport K} {c : Context K} {t : SpectrumTile K} {x start stop : K} {frame : ℕ}

omit [Field K] [LinearOrder K] in
theorem Accumulates.refl (r : AggregateReport K) : Accumulates r r := ⟨r.bins, r.times, r.cells, rfl⟩

omit [Field K] [LinearOrder K] in
theorem Accumulates.trans (h₁ : Accumulates r r') (h₂ : Accumulates r' r'') : Accumulates r r'' := by
  obtain ⟨bins₁, times₁, cells₁, rfl⟩ := h₁
  obtain ⟨bins, times, cells, rfl⟩ := h₂
  exact ⟨bins, times, cells, rfl⟩

variable [IsStrictOrderedRing K] [FloorRing K] {m : Libm K} {sphere : Sphere K} {below : K → K}

omit [IsStrictOrderedRing K] [FloorRing K] in
theorem exposure_frequency (hkind : c.options.kind = .frequencySummary) :
    r.Exposure c x ↔ r.bins.length = r.last - r.first ∧ ∀ a ∈ r.bins, a.observed = x := by
  rw [Exposure, hkind]

omit [IsStrictOrderedRing K] [FloorRing K] in
theorem exposure_time (hkind : c.options.kind = .timeSummary) : r.Exposure c x ↔
    Grouped c r.earliest r.latest r.times ∧ (r.times.map fun e => e.2.observed).sum = x := by
  rw [Exposure, hkind]

omit [IsStrictOrderedRing K] [FloorRing K] in
theorem exposure_geographic (hkind : c.options.kind = .geographicSummary) :
    r.Exposure c x ↔ (r.cells.map fun e => e.2.common.observed).sum = x := by
  rw [Exposure, hkind]

omit [IsStrictOrderedRing K] [FloorRing K] in
/-- Nothing is accumulated in a report of another kind. -/
theorem exposure_other (hfrequency : c.options.kind ≠ .frequencySummary) (htime : c.options.kind ≠ .timeSummary)
    (hgeographic : c.options.kind ≠ .geographicSummary) : r.Exposure c x := by
  rw [Exposure]
  split
  · exact absurd ‹_› hfrequency
  · exact absurd ‹_› htime
  · exact absurd ‹_› hgeographic
  · trivial

omit [IsStrictOrderedRing K] [FloorRing K] in
/-- Only the times and the positions that were left out differ, and the times are as long at least. -/
theorem Exposure.widen (hx : r.Exposure c x) (hbins : r'.bins = r.bins) (hfirst : r'.first = r.first)
    (hlast : r'.last = r.last) (htimes : r'.times = r.times) (hcells : r'.cells = r.cells)
    (hearliest : r'.earliest ≤ r.earliest) (hlatest : r.latest ≤ r'.latest) : r'.Exposure c x := by
  unfold Exposure at hx ⊢
  rw [hbins, hfirst, hlast, htimes, hcells]
  split at hx
  · exact hx
  · exact ⟨⟨hx.1.1, fun e he => (hx.1.2 e he).mono hearliest hlatest⟩, hx.2⟩
  · exact hx
  · trivial

omit [LinearOrder K] [IsStrictOrderedRing K] [FloorRing K] in
theorem timeValue_ensures {times : List (ℕ × Accumulator K)} {index : ℕ} {f : Accumulator K → Accumulator K} :
    Ensures IsLimit (· = SortedMap.adjust times index f .empty) (timeValue times index f) :=
  (ensures_reject fun _ => isLimit_timeMemory).bind fun _ _ => rfl

/-- The pieces of an interval are spread over the groups that meet it. -/
theorem spread_ensures (hvalid : c.groups.Valid (.exact below)) (hstart : c.options.query.elapsedStart ≤ start)
    (hle : start ≤ stop) (hstop : stop ≤ 10 ^ 10) {f : Piece K → Accumulator K → Accumulator K}
    {ψ : Piece K → K} (hf : ∀ piece a, (f piece a).observed = a.observed + ψ piece) {lo hi : K} (hlo : lo ≤ start)
    (hhi : stop ≤ hi) {times : List (ℕ × Accumulator K)} (htimes : Grouped c lo hi times) :
    Ensures IsLimit (fun times' => Grouped c lo hi times' ∧
      ∃ pieces, Chain (c.groups.edge (.exact below)) start stop pieces ∧
        (times'.map fun e => e.2.observed).sum =
          (times.map fun e => e.2.observed).sum + (pieces.map ψ).sum) (spread below c start stop f times) := by
  rw [spread]
  rcases hvalid.splitTime_chain hstart hle hstop with herror | ⟨pieces, hpieces, hchain⟩
  · rw [herror]
    exact isLimit_tooMany
  · rw [hpieces]
    refine Ensures.mono (P := fun times' : List (ℕ × Accumulator K) => Grouped c lo hi times' ∧
      (times'.map fun e => e.2.observed).sum =
        (times.map fun e => e.2.observed).sum + (pieces.map ψ).sum) ?_ fun _ hall =>
      ⟨hall.1, pieces, hchain, hall.2⟩
    refine ensures_foldlM (I := fun seen (times' : List (ℕ × Accumulator K)) => Grouped c lo hi times' ∧
      (times'.map fun e => e.2.observed).sum =
        (times.map fun e => e.2.observed).sum + (seen.map ψ).sum) ?_ ⟨htimes, by simp⟩
    rintro seen piece rest times' hseen ⟨⟨hsorted, hmeets⟩, hsum⟩
    have hpiece : Meets (c.groups.edge (.exact id)) lo hi piece.bucket :=
      (hchain.meets.2 piece (hseen ▸ List.mem_append_right _ List.mem_cons_self)).mono hlo hhi
    refine timeValue_ensures.mono fun times'' hnext => ?_
    rw [hnext]
    refine ⟨⟨hsorted.adjust, SortedMap.adjust_keys hpiece hmeets⟩, ?_⟩
    rw [SortedMap.adjust_sum (hf piece) rfl, hsum, List.map_append, List.sum_append, List.map_singleton,
      List.sum_singleton, add_assoc]

omit [IsStrictOrderedRing K] [FloorRing K] in
/-- What `checkOptions` says of the groups of a time report. -/
theorem seconds_valid (h : Selected c) (hkind : c.options.kind = .timeSummary) :
    1 / 1000 ≤ c.options.query.timeBucketSeconds ∧ c.options.query.timeBucketSeconds ≤ 10 ^ 10 := by
  have hoptions := h.options
  simp only [checkOptions, bind_eq_ok, reject_eq_ok, exists_const, hkind, true_and, not_or, not_lt] at hoptions
  exact hoptions.2.2.1

omit [IsStrictOrderedRing K] [FloorRing K] in
theorem groups_valid (h : Selected c) (hkind : c.options.kind = .timeSummary) :
    c.groups.Valid (.exact below) where
  start_value := rfl
  start_nonneg := h.elapsedStart.1
  start_le := h.elapsedStart.2
  seconds_value := rfl
  seconds_ge := (seconds_valid h hkind).1
  seconds_le := (seconds_valid h hkind).2

omit [IsStrictOrderedRing K] [FloorRing K] in
theorem stop_le (h : Selected c) : c.stop ≤ 10 ^ 10 := by
  rw [h.stop, stopBound]
  split_ifs
  · exact h.elapsedEnd.2
  · exact le_rfl

/-- The exposure of a tile in the groups of its times. -/
theorem addTimes_exposure (h : Selected c) (hkind : c.options.kind = .timeSummary)
    (hclip : (c.clip t).1 < (c.clip t).2) (hearliest : r.earliest ≤ (c.clip t).1)
    (hlatest : (c.clip t).2 ≤ r.latest) (hx : r.Exposure c x) :
    Ensures IsLimit (fun r' => r.Accumulates r' ∧ r'.Exposure c (x + ((c.clip t).2 - (c.clip t).1)))
      (addTimes m below c t r) := by
  obtain ⟨hgrouped, hsum⟩ := (exposure_time hkind).mp hx
  rw [addTimes]
  refine (spread_ensures (ψ := fun piece => piece.upper - piece.lower) (groups_valid h hkind)
    (le_max_left _ _) hclip.le ((min_le_left _ _).trans (stop_le h)) (fun piece a => rfl) hearliest hlatest
    hgrouped).bind fun times htimes => ?_
  obtain ⟨hgrouped', pieces, hchain, hsum'⟩ := htimes
  refine ⟨⟨r.bins, times, r.cells, rfl⟩, (exposure_time hkind).mpr ⟨hgrouped', ?_⟩⟩
  show (times.map fun e => e.2.observed).sum = _
  rw [hsum', chain_sum hchain, hsum]
  rfl

omit [IsStrictOrderedRing K] in
/-- The exposure of a tile in its cell. -/
theorem addCell_exposure {seconds : K} (hkind : c.options.kind = .geographicSummary) (hx : r.Exposure c x) :
    Ensures IsLimit (fun r' => r.Accumulates r' ∧ r'.Exposure c (x + seconds)) (addCell m sphere c t seconds r) := by
  rw [addCell]
  refine (ensures_reject fun _ => isLimit_geographicMemory).bind fun u _ => ?_
  refine ⟨⟨r.bins, r.times, _, rfl⟩, (exposure_geographic hkind).mpr ?_⟩
  show (List.map _ (SortedMap.adjust _ _ _ _)).sum = _
  rw [SortedMap.adjust_sum (φ := fun value : GeoValue K => value.common.observed) (x := seconds) ?_ rfl]
  · exact congrArg (· + _) ((exposure_geographic hkind).mp hx)
  · intro value
    dsimp only
    split_ifs <;> rfl

/-- **A tile** adds the time of its part in the selection. -/
theorem addTile_exposure (h : Selected c) (hclip : (c.clip t).1 < (c.clip t).2)
    (hearliest : r.earliest ≤ (c.clip t).1) (hlatest : (c.clip t).2 ≤ r.latest) (hx : r.Exposure c x) :
    Ensures IsLimit (fun r' => r.Accumulates r' ∧ r'.Exposure c (x + ((c.clip t).2 - (c.clip t).1)))
      (addTile m sphere below c t r) := by
  rw [addTile]
  cases hkind : c.options.kind with
  | frequencySummary =>
    obtain ⟨hlength, hobserved⟩ := (exposure_frequency hkind).mp hx
    refine ⟨⟨_, r.times, r.cells, rfl⟩, (exposure_frequency hkind).mpr ⟨?_, fun a ha => ?_⟩⟩
    · exact List.length_mapIdx.trans hlength
    · obtain ⟨i, hi, rfl⟩ := List.mem_mapIdx.mp ha
      exact congrArg (· + _) (hobserved _ (List.getElem_mem hi))
  | timeSummary => exact addTimes_exposure h hkind hclip hearliest hlatest hx
  | geographicSummary => exact addCell_exposure hkind hx
  | waveforms => exact ⟨.refl r, exposure_other (by simp [hkind]) (by simp [hkind]) (by simp [hkind])⟩
  | receiverTrack => exact ⟨.refl r, exposure_other (by simp [hkind]) (by simp [hkind]) (by simp [hkind])⟩
  | analysis => exact ⟨.refl r, exposure_other (by simp [hkind]) (by simp [hkind]) (by simp [hkind])⟩

omit [Field K] [LinearOrder K] [IsStrictOrderedRing K] [FloorRing K] in
/-- Changes of some entries keep their number, and what they keep of each. -/
theorem forall_foldl_modify {α : Type} {P : α → Prop} {f : ℕ → α → α} {place : ℕ → ℕ} (hf : ∀ i a, P a → P (f i a))
    (indexes : List ℕ) {entries : List α} (h : ∀ a ∈ entries, P a) :
    let changed := indexes.foldl (fun entries i => entries.modify (place i) (f i)) entries
    changed.length = entries.length ∧ ∀ a ∈ changed, P a := by
  induction indexes generalizing entries with
  | nil => exact ⟨rfl, h⟩
  | cons i indexes ih =>
    refine (ih fun a ha => ?_).imp_left fun hlength => hlength.trans (List.length_modify _ _ _)
    obtain ⟨k, hk, rfl⟩ := List.mem_iff_getElem.mp ha
    rw [List.getElem_modify]
    split_ifs
    · exact hf i _ (h _ (List.getElem_mem _))
    · exact h _ (List.getElem_mem _)

omit [LinearOrder K] [IsStrictOrderedRing K] [FloorRing K] in
theorem addBusy_observed {a : Accumulator K} {seconds : K} {busy outside : Bool} :
    (a.addBusy seconds busy outside).observed = a.observed := rfl

/-- A frame adds to what was busy, not to what was observed. -/
theorem addFrame_exposure (h : Selected c) (hearliest : r.earliest ≤ (c.clip t).1)
    (hlatest : (c.clip t).2 ≤ r.latest) (hx : r.Exposure c x) :
    Ensures IsLimit (fun r' => r.Accumulates r' ∧ r'.Exposure c x) (addFrame sphere below c t r frame) := by
  rw [addFrame]
  simp only
  split_ifs with hempty
  · exact ⟨.refl r, hx⟩
  have hlt := not_le.mp hempty
  cases hkind : c.options.kind with
  | frequencySummary =>
    obtain ⟨hlength, hobserved⟩ := (exposure_frequency hkind).mp hx
    obtain ⟨hlength', hobserved'⟩ := forall_foldl_modify (P := fun a : Accumulator K => a.observed = x)
      (f := fun bin a => a.addBusy _ true (outsideCenter c r bin)) (fun _ _ ha => ha) _ hobserved
    exact ⟨⟨_, r.times, r.cells, rfl⟩, (exposure_frequency hkind).mpr ⟨hlength'.trans hlength, hobserved'⟩⟩
  | timeSummary =>
    obtain ⟨hgrouped, hsum⟩ := (exposure_time hkind).mp hx
    refine (spread_ensures (ψ := fun _ => 0) (groups_valid h hkind)
      ((le_max_left _ _).trans (le_max_left _ _)) hlt.le
      (((min_le_left _ _).trans (min_le_left _ _)).trans (stop_le h))
      (fun piece a => addBusy_observed.trans (add_zero _).symm) (hearliest.trans (le_max_left _ _))
      ((min_le_left _ _).trans hlatest) hgrouped).bind fun times htimes => ?_
    obtain ⟨hgrouped', pieces, -, hsum'⟩ := htimes
    refine ⟨⟨r.bins, times, r.cells, rfl⟩, (exposure_time hkind).mpr ⟨hgrouped', ?_⟩⟩
    show (times.map fun e => e.2.observed).sum = x
    rw [hsum', List.map_const', List.sum_replicate, smul_zero, add_zero, hsum]
  | geographicSummary =>
    refine ⟨⟨r.bins, r.times, _, rfl⟩, (exposure_geographic hkind).mpr ?_⟩
    show (List.map _ (SortedMap.adjust _ _ _ _)).sum = x
    rw [SortedMap.adjust_sum (φ := fun value : GeoValue K => value.common.observed) (x := 0) ?_ rfl, add_zero]
    · exact (exposure_geographic hkind).mp hx
    · exact fun value => (add_zero _).symm
  | waveforms => exact ⟨.refl r, hx⟩
  | receiverTrack => exact ⟨.refl r, hx⟩
  | analysis => exact ⟨.refl r, hx⟩

/-- **The frames** of a tile. -/
theorem addFrames_exposure (h : Selected c) (frames : List ℕ) (hearliest : r.earliest ≤ (c.clip t).1)
    (hlatest : (c.clip t).2 ≤ r.latest) (hx : r.Exposure c x) :
    Ensures IsLimit (fun r' => r.Accumulates r' ∧ r'.Exposure c x)
      (frames.foldlM (addFrame sphere below c t) r) := by
  refine ensures_foldlM (I := fun _ r' => r.Accumulates r' ∧ r'.Exposure c x) ?_ ⟨.refl r, hx⟩
  rintro seen frame rest r' - ⟨haccumulates, hx'⟩
  have htimes : r'.earliest = r.earliest ∧ r'.latest = r.latest := by
    obtain ⟨bins, times, cells, rfl⟩ := haccumulates
    exact ⟨rfl, rfl⟩
  refine (addFrame_exposure h (htimes.1.trans_le hearliest) (hlatest.trans_eq htimes.2.symm) hx').mono
    fun r'' hnext => ⟨haccumulates.trans hnext.1, hnext.2⟩

end AggregateReport

end Report

end OVMesh
