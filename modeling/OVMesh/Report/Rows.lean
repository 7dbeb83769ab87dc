import OVMesh.Report.Run

/-!
# The rows of a report

What the rows that `write` returns hold: over each of the selected bins, the time that the report has observed.

* `ReportRow.Covers`, `rowSeconds`: the rows over an interval of frequencies, and what they have observed.
* `Reaches`: `std::nextafter` does not step over an edge between two groups.
* `RowsHold`: every selected bin has the exposure of the report. `Filled.write_ensures`: the rows of `write`.
-/

namespace OVMesh

namespace Report

open AggregateReport Buckets Checked SpectrumProcessor

section Definitions

variable {K : Type} [Field K] [LinearOrder K]

/-- The frequencies of the row include the interval. -/
def ReportRow.Covers (row : ReportRow K) (low high : K) : Prop := row.lowerHz ≤ low ∧ high ≤ row.upperHz

instance (row : ReportRow K) (low high : K) : Decidable (row.Covers low high) := inferInstanceAs (Decidable (_ ∧ _))

/-- What the rows over an interval of frequencies have observed together. -/
def rowSeconds (rows : List (ReportRow K)) (low high : K) : K :=
  ((rows.filter (·.Covers low high)).map (·.value.observed)).sum

/-- The kinds of report that `AggregateReport` is for. -/
def ReportKind.Aggregates : ReportKind → Prop
  | .frequencySummary | .timeSummary | .geographicSummary => True
  | .waveforms | .receiverTrack | .analysis => False

/-- The value below a time is not before the edges that are below the time. -/
def TimeGroups.Reaches (g : TimeGroups K) (below : K → K) (time : K) : Prop :=
  ∀ i, g.edge (.exact below) i < time → g.edge (.exact below) i ≤ below time

/-- The rows over each of the selected bins hold the exposure. -/
def RowsHold (below : K → K) (c : Context K) (r : AggregateReport K) (x : K) (rows : List (ReportRow K)) : Prop :=
  c.options.kind.Aggregates → (c.options.kind = .timeSummary → c.groups.Reaches below r.latest) →
    ∀ b, r.first ≤ b → b < r.last → rowSeconds rows (r.binEdge b) (r.binEdge (b + 1)) = x

end Definitions

section Rows

variable {K : Type} [Field K] [LinearOrder K] [IsStrictOrderedRing K] {c : Context K} {g : Shape K}
  {r : AggregateReport K} {x y low high : K} {b : ℕ} {below : K → K}

theorem binEdge_le_iff (hw : 0 < r.width) {i j : ℕ} : r.binEdge i ≤ r.binEdge j ↔ i ≤ j := by
  rw [binEdge, binEdge, add_le_add_iff_left, mul_le_mul_iff_left₀ hw, sub_le_sub_iff_right, Nat.cast_le]

omit [IsStrictOrderedRing K] in
/-- The rows of several lists. -/
theorem rowSeconds_flatMap {α : Type} (l : List α) (rows : α → List (ReportRow K)) :
    rowSeconds (l.flatMap rows) low high = (l.map fun a => rowSeconds (rows a) low high).sum := by
  induction l with
  | nil => rfl
  | cons a l ih =>
    rw [List.flatMap_cons, rowSeconds, List.filter_append, List.map_append, List.sum_append, List.map_cons,
      List.sum_cons, ← ih]
    rfl

/-- Rows of one bin each, of which one is over the bin. -/
theorem rowSeconds_selected (hw : 0 < r.width) {row : ℕ → ReportRow K} (hlower : ∀ i, (row i).lowerHz = r.binEdge i)
    (hupper : ∀ i, (row i).upperHz = r.binEdge (i + 1)) (hvalue : ∀ i ∈ r.selected, (row i).value.observed = y)
    (hb : b ∈ r.selected) : rowSeconds (r.selected.map row) (r.binEdge b) (r.binEdge (b + 1)) = y := by
  have hcovers : ∀ i, (row i).Covers (r.binEdge b) (r.binEdge (b + 1)) ↔ i = b := fun i => by
    rw [ReportRow.Covers, hlower, hupper, binEdge_le_iff hw, binEdge_le_iff hw]
    omega
  have hcount : r.selected.count b = 1 := List.count_eq_one_of_mem List.nodup_range' hb
  rw [rowSeconds, List.filter_map, List.filter_congr (q := fun i => i = b) (fun i _ => by
    rw [Function.comp_apply, decide_eq_decide, hcovers]), List.filter_eq, hcount]
  show (row b).value.observed + 0 = y
  rw [add_zero, hvalue b hb]

/-- The rows of a cell. -/
theorem rowSeconds_cellRows [FloorRing K] (hw : 0 < r.width) (hb : b ∈ r.selected) (item : GeoValue K) :
    rowSeconds (r.cellRows c item) (r.binEdge b) (r.binEdge (b + 1)) = item.common.observed := by
  rw [cellRows]
  refine rowSeconds_selected hw (fun i => rfl) (fun i => rfl) (fun i _ => ?_) hb
  dsimp only
  split_ifs <;> rfl

/-- The rows of the bins of a frequency summary. -/
theorem rowSeconds_bins (hw : 0 < r.width) (hlength : r.bins.length = r.last - r.first)
    (hobserved : ∀ a ∈ r.bins, a.observed = x) (hb : b ∈ r.selected) :
    rowSeconds (r.bins.mapIdx fun i a =>
      (⟨r.binEdge (r.first + i), r.binEdge (r.first + i + 1), r.earliest, r.latest, a, none⟩ : ReportRow K))
      (r.binEdge b) (r.binEdge (b + 1)) = x := by
  let row : ℕ → ReportRow K := fun i =>
    ⟨r.binEdge i, r.binEdge (i + 1), r.earliest, r.latest, r.bins.getD (i - r.first) .empty, none⟩
  have hrows : (r.bins.mapIdx fun i a =>
      (⟨r.binEdge (r.first + i), r.binEdge (r.first + i + 1), r.earliest, r.latest, a, none⟩ : ReportRow K)) =
      r.selected.map row := by
    refine List.ext_getElem ?_ fun i hi hi' => ?_
    · rw [List.length_mapIdx, List.length_map, selected, List.length_range', hlength]
    · rw [List.length_mapIdx] at hi
      simp only [row, selected, List.getElem_mapIdx, List.getElem_map, List.getElem_range', one_mul,
        Nat.add_sub_cancel_left, List.getD_eq_getElem _ _ hi]
  rw [hrows]
  refine rowSeconds_selected hw (fun i => rfl) (fun i => rfl) (fun i hi => ?_) hb
  rw [selected, List.mem_range'_1] at hi
  have hlt : i - r.first < r.bins.length := by omega
  show (r.bins.getD (i - r.first) .empty).observed = x
  rw [List.getD_eq_getElem _ _ hlt]
  exact hobserved _ (List.getElem_mem hlt)

variable [FloorRing K]

omit [IsStrictOrderedRing K] in
theorem bucket_ensures {arith : Arithmetic K} {groups : TimeGroups K} {time : K} :
    Ensures IsLimit (fun index => groups.bucket arith time = .ok index) (groups.bucket arith time) := by
  refine Ensures.mono (Ensures.returned (P := fun _ => True) ?_) fun index h => h.1
  rw [TimeGroups.bucket]
  exact (ensures_reject fun _ => isLimit_tooMany).bind fun _ _ => trivial

omit [IsStrictOrderedRing K] in
theorem timeRows_limit {arith : Arithmetic K} {groups : TimeGroups K} {α : Type} {times : ℕ → Option α} {empty : α} :
    Ensures IsLimit (fun _ => True) (groups.timeRows arith times empty low high) := by
  rw [TimeGroups.timeRows]
  exact bucket_ensures.bind fun _ _ => bucket_ensures.bind fun _ _ => trivial

/-- The groups that have values are between those of the first and the last time. -/
theorem bucket_groups (hvalid : c.groups.Valid (.exact below)) {lo hi : K} {times : List (ℕ × Accumulator K)}
    (htimes : Grouped c lo hi times) {first last : ℕ} (hfirst : c.groups.bucket (.exact below) lo = .ok first)
    (hlast : c.groups.bucket (.exact below) (below hi) = .ok last) (hreaches : c.groups.Reaches below hi) :
    ∀ e ∈ times, e.1 ∈ List.range' first (last + 1 - first) := by
  have hiff : ∀ (n : ℕ) time, (n : K) ≤ c.groups.relative (.exact below) time ↔
      c.groups.edge (.exact below) n ≤ time := fun n time =>
    (le_div_iff₀ hvalid.seconds_pos).trans le_sub_iff_add_le
  intro e he
  obtain ⟨hbefore, hafter⟩ := htimes.2 e he
  have hge : first ≤ e.1 := by
    by_contra hlt
    have hnext := (TimeGroups.bucket_ok hfirst (e.1 + 1)).mpr (not_le.mp hlt)
    exact absurd hafter (not_lt.mpr ((hiff _ _).mp hnext))
  have hle : e.1 ≤ last := (TimeGroups.bucket_ok hlast e.1).mp ((hiff _ _).mpr (hreaches e.1 hbefore))
  rw [List.mem_range'_1]
  omega

/-- The rows of the groups of a time summary. -/
theorem timeRows_ensures (hvalid : c.groups.Valid (.exact below)) {lo hi : K} {times : List (ℕ × Accumulator K)}
    (htimes : Grouped c lo hi times) :
    Ensures IsLimit (fun rows => c.groups.Reaches below hi →
      (rows.map fun row => row.value.observed).sum = (times.map fun e => e.2.observed).sum)
      (c.groups.timeRows (.exact below) (SortedMap.find times) .empty lo hi) := by
  rw [TimeGroups.timeRows]
  refine bucket_ensures.bind fun last hlast => bucket_ensures.bind fun first hfirst => fun hreaches => ?_
  have hkeys := bucket_groups hvalid htimes hfirst hlast hreaches
  rw [List.map_map]
  exact htimes.1.find_sum (φ := fun value : Option (Accumulator K) => (value.getD .empty).observed) rfl
    List.nodup_range' hkeys

/-- **The rows** of a report that has some. It fails for their limit only. -/
theorem Filled.write_ensures (h : Filled c g x r) (hc : Selected c) (hselects : c.Selects g) (hw : 0 < g.width) :
    Ensures IsLimit (RowsHold below c r x) (r.write below c) := by
  have hhistory : ¬ (r.grid = false ∨ r.first = r.last ∨ r.latest ≤ r.earliest) := by
    rw [h.onGrid.grid, not_or, not_or]
    exact ⟨Bool.noConfusion, h.onGrid.bins_ne hselects, not_le.mpr h.earliest_lt⟩
  have hwidth : 0 < r.width := h.onGrid.width ▸ hw
  have hmem : ∀ {b}, r.first ≤ b → b < r.last → b ∈ r.selected := fun {b} hge hlt => by
    rw [selected, List.mem_range'_1]
    omega
  rw [AggregateReport.write]
  refine (ensures_reject fun hbad => absurd hbad hhistory).bind fun _ _ => ?_
  cases hkind : c.options.kind with
  | frequencySummary =>
    obtain ⟨hlength, hobserved⟩ := (exposure_frequency hkind).mp h.exposure
    exact fun _ _ b hge hlt => rowSeconds_bins hwidth hlength hobserved (hmem hge hlt)
  | timeSummary =>
    obtain ⟨hgrouped, hsum⟩ := (exposure_time hkind).mp h.exposure
    refine (timeRows_ensures (groups_valid hc hkind) hgrouped).bind fun rows hrows => ?_
    intro _ hreaches b hge hlt
    rw [rowSeconds, List.filter_eq_self.mpr, List.map_map, ← hsum, ← hrows (hreaches hkind)]
    · rfl
    · intro row hrow
      obtain ⟨group, -, rfl⟩ := List.mem_map.mp hrow
      exact decide_eq_true ⟨(binEdge_le_iff hwidth).mpr hge, (binEdge_le_iff hwidth).mpr hlt⟩
  | geographicSummary =>
    intro _ _ b hge hlt
    rw [rowSeconds_flatMap, ← (exposure_geographic hkind).mp h.exposure]
    exact congrArg List.sum (List.map_congr_left fun e _ => rowSeconds_cellRows hwidth (hmem hge hlt) e.2)
  -- Nothing is said of the rows of another kind.
  | waveforms => exact timeRows_limit.bind fun _ _ haggregates => absurd haggregates (by rw [hkind]; exact id)
  | receiverTrack => exact timeRows_limit.bind fun _ _ haggregates => absurd haggregates (by rw [hkind]; exact id)
  | analysis => exact timeRows_limit.bind fun _ _ haggregates => absurd haggregates (by rw [hkind]; exact id)

end Rows

end Report

end OVMesh
