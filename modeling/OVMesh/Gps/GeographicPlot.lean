import OVMesh.Lib.Arcs
import OVMesh.Lib.Fold
import OVMesh.Survey

/-!
# The geographic plot

`GeographicPlot` of `geographic_plot.hpp` over a field, with what it takes of the sphere as a
parameter. A finite coordinate is an element of the field.

* `largestGap`, `longitudeArc`: the circle of longitudes, cut at its largest empty gap.
* `GeographicPlot.create`, `point`, `meanPoint`: the constructor and the projections.
* `longitudeArc_spec`, `longitudeArc_shortest`: the arc holds all longitudes, and no shorter one.
* `offset_le`: no longitude of the arc wraps to the other side.
* `project_inside`: the fixes and their mean are inside the drawing.
-/

namespace OVMesh

open Arcs

variable {K : Type} [Field K] [LinearOrder K]

/-- What the projection takes of the sphere: the length of a degree of a great circle, and the cosine
of an angle in degrees. -/
structure Sphere (K : Type) where
  metresPerDegree : K
  cosDegrees : K → K

/-- `GeographicPoint`: a point of the plot in metres from the reference. -/
structure GeographicPoint (K : Type) where
  x : K
  y : K

/-- `geographic_position_valid`: a valid fix with coordinates in range. -/
def geographicPositionValid (fix : PositionFix K) : Prop :=
  fix.valid = true ∧ |fix.latitude| ≤ 90 ∧ |fix.longitude| ≤ 180

instance (fix : PositionFix K) : Decidable (geographicPositionValid fix) :=
  inferInstanceAs (Decidable (_ ∧ _))

/-! ## Longitudes -/

section Longitudes

variable [FloorRing K]

/-- `wrap_positive`: the longitude from 0 up to 360 degrees. -/
def wrapPositive (value : K) : K :=
  let result := fmod value 360
  if result < 0 then result + 360 else result

/-- `wrap_signed`: the longitude from -180 up to 180 degrees. -/
def wrapSigned (value : K) : K := wrapPositive (value + 180) - 180

/-- One turn of the loop over the sorted longitudes, with `largest_gap` and `arc_start`. -/
def gapStep (next longitude : K) (s : K × K) : K × K :=
  let gap := next - longitude
  if gap > s.1 then (gap, wrapPositive next) else s

/-- The loop over the sorted longitudes. -/
def largestGap (front : K) : List K → K × K → K × K
  | [], s => s
  | longitude :: rest, s =>
    largestGap front rest (gapStep (rest.headD (front + 360)) longitude s)

/-- `arc_start` and `arc_span`. -/
def longitudeArc (longitudes : List K) : Arc K :=
  match longitudes with
  | [] => ⟨0, 0⟩
  | front :: _ =>
    let (gap, start) := largestGap front longitudes (-1, front)
    ⟨start, max 0 (360 - gap)⟩

end Longitudes

/-- A mean that takes one value after the other, with the number of values so far. -/
def meanStep (s : K × ℕ) (x : K) : K × ℕ := (s.1 + (x - s.1) / (s.2 + 1 : ℕ), s.2 + 1)

/-- The mean of the values, taken one by one as the source does. -/
def runningMean (l : List K) : K := (l.foldl meanStep (0, 0)).1

/-! ## The plot -/

/-- `GeographicPlot` with its initializers: the frame of the plot and what its points are measured from.
-/
structure GeographicPlot (K : Type) [Field K] where
  count : ℕ := 0
  drawable : Bool := false
  width : K := 0
  height : K := 0
  referenceLatitude : K := 0
  referenceLongitude : K := 0
  meanLatitude : K := 0
  meanLongitude : K := 0
  dataEastWestMetres : K := 0
  dataNorthSouthMetres : K := 0
  eastWestMetres : K := 0
  northSouthMetres : K := 0
  metresPerPixel : K := 1
  scaleBarMetres : K := 0
  longitudeFactor : K := 1

section Plot

variable [FloorRing K]

/-- `nice_scale`: the largest of 1, 2 and 5 times a power of ten that is at most `maximum`. -/
def niceScale (maximum : K) : K :=
  let decade : K := 10 ^ Int.log 10 maximum
  let significand := maximum / decade
  (if significand ≥ 5 then 5 else if significand ≥ 2 then 2 else 1) * decade

/-- The fixes that the constructor does not pass over. -/
def plotted (fixes : List (Option (PositionFix K))) : List (PositionFix K) :=
  fixes.filterMap fun fix => fix.filter fun fix => geographicPositionValid fix

/-- `longitudes`: from the smallest on, without signs. -/
def sortedLongitudes (positions : List (PositionFix K)) : List K :=
  (positions.map fun fix => wrapPositive fix.longitude).insertionSort (· ≤ ·)

/-- The southernmost latitude. -/
def south (positions : List (PositionFix K)) : K :=
  positions.foldl (fun south fix => min south fix.latitude) 90

/-- The northernmost latitude. -/
def north (positions : List (PositionFix K)) : K :=
  positions.foldl (fun north fix => max north fix.latitude) (-90)

variable (sphere : Sphere K)

/-- The part of the constructor before the size of the drawing is looked at. -/
def GeographicPlot.survey (positions : List (PositionFix K)) : GeographicPlot K :=
  let longitudes := sortedLongitudes positions
  let arc := longitudeArc longitudes
  let referenceLatitude := (south positions + north positions) / 2
  let referenceLongitude := wrapSigned (arc.start + arc.span / 2)
  let longitudeFactor := sphere.cosDegrees referenceLatitude
  let meanLongitudeOffset := runningMean (longitudes.map fun longitude =>
    wrapSigned (longitude - referenceLongitude))
  { count := positions.length
    referenceLatitude, referenceLongitude, longitudeFactor
    meanLatitude := runningMean (positions.map (·.latitude))
    meanLongitude := wrapSigned (referenceLongitude + meanLongitudeOffset)
    dataEastWestMetres := arc.span * longitudeFactor * sphere.metresPerDegree
    dataNorthSouthMetres := (north positions - south positions) * sphere.metresPerDegree }

/-- `scale`: the metres of a pixel, so that the data fit with a margin and a pixel is no smaller than a
hundred metres in all. -/
def GeographicPlot.scale (plot : GeographicPlot K) (width height : K) : K :=
  max (100 / min width height)
    (max (plot.dataEastWestMetres * (11 / 10) / width)
      (plot.dataNorthSouthMetres * (11 / 10) / height))

/-- `GeographicPlot`: the constructor measures the positions and chooses the scale. -/
def GeographicPlot.create (fixes : List (Option (PositionFix K))) (pixelsWide pixelsHigh : K) :
    GeographicPlot K :=
  if plotted fixes = [] then {}
  else
    let plot := survey sphere (plotted fixes)
    if pixelsWide ≤ 0 ∨ pixelsHigh ≤ 0 then plot
    else
      let scale := plot.scale pixelsWide pixelsHigh
      let plot := { plot with width := pixelsWide, height := pixelsHigh }
      if scale ≤ 0 then plot
      else
        { plot with
          metresPerPixel := scale
          eastWestMetres := pixelsWide * scale
          northSouthMetres := pixelsHigh * scale
          scaleBarMetres := niceScale (pixelsWide * scale / 4)
          drawable := true }

namespace GeographicPlot

variable (plot : GeographicPlot K)

/-- `project`: the point of a position, from the reference in the middle of the plot. -/
def project (latitude longitude : K) : GeographicPoint K :=
  let east := wrapSigned (longitude - plot.referenceLongitude) * plot.longitudeFactor *
    sphere.metresPerDegree
  let north := (latitude - plot.referenceLatitude) * sphere.metresPerDegree
  { x := plot.width / 2 + east / plot.metresPerPixel
    y := plot.height / 2 - north / plot.metresPerPixel }

/-- `point`: a fix that is not valid has no point. -/
def point (fix : PositionFix K) : Option (GeographicPoint K) :=
  if plot.drawable = false ∨ ¬ geographicPositionValid fix then none
  else some (plot.project sphere fix.latitude fix.longitude)

/-- `mean_point`: the point of the mean position. -/
def meanPoint : Option (GeographicPoint K) :=
  if plot.drawable = false then none
  else some (plot.project sphere plot.meanLatitude plot.meanLongitude)

end GeographicPlot

end Plot

variable [IsStrictOrderedRing K] [FloorRing K] {x y front : K} {l : List K}

/-! ## Wrapping -/

theorem wrapPositive_spec (x : K) :
    Same 360 x (wrapPositive x) ∧ 0 ≤ wrapPositive x ∧ wrapPositive x < 360 := by
  obtain ⟨hlower, hupper⟩ := abs_lt.mp (abs_fmod_lt (x := x) (T := (360 : K)) (by norm_num))
  have hsame : Same 360 x (fmod x (360 : K)) := same_fmod
  simp only [wrapPositive]
  split <;> rename_i hneg
  · exact ⟨hsame.trans (same_turn _), by linarith, by linarith⟩
  · exact ⟨hsame, not_lt.mp hneg, hupper⟩

theorem wrapSigned_spec (x : K) :
    Same 360 x (wrapSigned x) ∧ -180 ≤ wrapSigned x ∧ wrapSigned x < 180 := by
  obtain ⟨hsame, hlower, hupper⟩ := wrapPositive_spec (x + 180)
  have hsame := hsame.sub_right (180 : K)
  rw [add_sub_cancel_right] at hsame
  exact ⟨hsame, by rw [wrapSigned]; linarith, by rw [wrapSigned]; linarith⟩

/-- Wrapping depends on the place only. -/
theorem wrapPositive_same (h : Same 360 x y) : wrapPositive x = wrapPositive y := by
  obtain ⟨hx, hxlower, hxupper⟩ := wrapPositive_spec x
  obtain ⟨hy, hylower, hyupper⟩ := wrapPositive_spec y
  refine eq_of_same (hx.symm.trans (h.trans hy)) ?_
  rw [abs_lt]
  constructor <;> linarith

theorem wrapSigned_eq (h : Same 360 x y) (hlower : -180 ≤ y) (hupper : y < 180) :
    wrapSigned x = y := by
  obtain ⟨hx, hxlower, hxupper⟩ := wrapSigned_spec x
  refine eq_of_same (hx.symm.trans h) ?_
  rw [abs_lt]
  constructor <;> linarith

/-! ## The arc -/

omit [IsStrictOrderedRing K] in
theorem gapStep_ge (next x : K) (s : K × K) :
    s.1 ≤ (gapStep next x s).1 ∧ next - x ≤ (gapStep next x s).1 := by
  simp only [gapStep]
  split <;> rename_i hgap
  · exact ⟨hgap.le, le_rfl⟩
  · exact ⟨le_rfl, not_lt.mp hgap⟩

variable (front l) in
/-- The gap is at least as large as the one before it and every step around the circle. -/
theorem largestGap_ge (s : K × K) : s.1 ≤ (largestGap front l s).1 ∧
    (l ++ [front + 360]).IsChain fun a b => b ≤ a + (largestGap front l s).1 := by
  induction l generalizing s with
  | nil => exact ⟨le_rfl, List.isChain_singleton _⟩
  | cons x rest ih =>
    rw [largestGap]
    obtain ⟨hle, hchain⟩ := ih (gapStep (rest.headD (front + 360)) x s)
    obtain ⟨hkept, hgap⟩ := gapStep_ge (rest.headD (front + 360)) x s
    refine ⟨hkept.trans hle, List.isChain_cons.mpr ⟨fun next hnext => ?_, hchain⟩⟩
    have hhead : rest.headD (front + 360) = next := by
      cases rest with
      | nil => simpa using hnext
      | cons y rest => simpa using hnext
    have := hgap.trans hle
    rw [hhead] at this
    linarith

omit [IsStrictOrderedRing K] in
variable (front l) in
/-- The gap that is kept lies behind some longitude. -/
theorem largestGap_mem (s : K × K) : largestGap front l s = s ∨ ∃ before x behind,
    l = before ++ x :: behind ∧ largestGap front l s =
      (behind.headD (front + 360) - x, wrapPositive (behind.headD (front + 360))) := by
  induction l generalizing s with
  | nil => exact .inl rfl
  | cons x rest ih =>
    rw [largestGap]
    obtain hkept | ⟨before, y, behind, rfl, hgap⟩ := ih (gapStep (rest.headD (front + 360)) x s)
    · rw [hkept, gapStep]
      split
      · exact .inr ⟨[], x, rest, rfl, rfl⟩
      · exact .inl rfl
    · exact .inr ⟨x :: before, y, behind, rfl, hgap⟩

/-- Longitudes in the order of a sort. -/
structure SortedLongitudes (l : List K) : Prop where
  sorted : l.Pairwise (· ≤ ·)
  mem : ∀ x ∈ l, 0 ≤ x ∧ x < 360

omit [FloorRing K] in
/-- The other longitudes at a cut: before it, or behind it. -/
theorem cut_mem {before behind : List K} (hl : SortedLongitudes l)
    (hfront : l.head? = some front) (hcut : l = before ++ x :: behind) {p : K} (hp : p ∈ l) :
    p ≤ x ∧ behind.headD (front + 360) ≤ p + 360 ∨
      behind.headD (front + 360) ≤ p ∧ p ≤ x + 360 := by
  have hxmem : x ∈ l := by
    rw [hcut]
    simp
  have hfrontle : front ≤ p := by
    obtain ⟨rest, rfl⟩ : ∃ rest, l = front :: rest := List.head?_eq_some_iff.mp hfront
    rcases List.mem_cons.mp hp with rfl | hp
    · exact le_rfl
    · exact (List.pairwise_cons.mp hl.sorted).1 p hp
  have hnext : behind.headD (front + 360) ≤ p + 360 := by
    cases behind with
    | nil => simpa using hfrontle
    | cons y behind =>
      have hy := hl.mem y (by rw [hcut]; simp)
      have := (hl.mem p hp).1
      show y ≤ p + 360
      linarith
  obtain ⟨-, hsorted, hbefore⟩ := List.pairwise_append.mp (hcut ▸ hl.sorted)
  obtain ⟨hbehind, hsorted⟩ := List.pairwise_cons.mp hsorted
  have hp' : p ∈ before ++ x :: behind := hcut ▸ hp
  rcases List.mem_append.mp hp' with hmem | hmem
  · exact .inl ⟨hbefore p hmem x List.mem_cons_self, hnext⟩
  rcases List.mem_cons.mp hmem with rfl | hmem
  · exact .inl ⟨le_rfl, hnext⟩
  · right
    refine ⟨?_, ?_⟩
    · cases behind with
      | nil => cases hmem
      | cons y behind =>
        rcases List.mem_cons.mp hmem with rfl | hmem
        · exact le_rfl
        · exact (List.pairwise_cons.mp hsorted).1 p hmem
    · have hp := (hl.mem p hp).2
      have hx := (hl.mem x hxmem).1
      linarith

/-- **The cut of the circle:** the arc is what the largest gap leaves of it, it holds every
longitude, and no shorter one does. -/
theorem longitudeArc_spec (hl : SortedLongitudes l) (hne : l ≠ []) :
    0 ≤ (longitudeArc l).span ∧ (longitudeArc l).span < 360 ∧
      (∀ p ∈ l, (longitudeArc l).Contains 360 p) ∧
      ∀ arc : Arc K, (∀ p ∈ l, arc.Contains 360 p) → (longitudeArc l).span ≤ arc.span := by
  cases l with
  | nil => exact absurd rfl hne
  | cons front rest =>
    obtain ⟨-, hchain⟩ := largestGap_ge front (front :: rest) (-1, front)
    obtain ⟨p, -, hp, hpG⟩ := exists_after hchain le_rfl ⟨front + 360, by simp, by linarith⟩
    obtain hinitial | ⟨before, x, behind, hcut, hgap⟩ :=
      largestGap_mem front (front :: rest) (-1, front)
    · rw [hinitial] at hpG
      linarith
    have hfront : (front :: rest).head? = some front := rfl
    have hx : x ∈ front :: rest := by
      rw [hcut]
      simp
    have hle : behind.headD (front + 360) - x ≤ 360 := by
      rcases cut_mem hl hfront hcut hx with ⟨-, hx⟩ | ⟨hx, -⟩ <;> linarith
    have harc : longitudeArc (front :: rest) = ⟨wrapPositive (behind.headD (front + 360)),
        360 - (behind.headD (front + 360) - x)⟩ := by
      rw [longitudeArc, hgap]
      simp only
      rw [max_eq_right (by linarith)]
    rw [hgap] at hpG hchain
    rw [harc]
    refine ⟨by simp only; linarith, by simp only; linarith, fun p hp => ?_, fun arc harc => ?_⟩
    · refine Arc.contains_start (wrapPositive_spec _).1 ?_
      rcases cut_mem hl hfront hcut hp with ⟨hpx, hnext⟩ | ⟨hnext, hpx⟩
      · exact ⟨p + 360, same_turn p, hnext, by simp only; linarith⟩
      · exact ⟨p, Same.refl p, hnext, by simp only; linarith⟩
    · exact Arc.span_ge (by norm_num) hchain harc

/-- No place of an arc wraps to the other side of its middle. -/
theorem offset_le {arc : Arc K} {middle : K} (hspan : arc.span < 360)
    (hmiddle : Same 360 (arc.start + arc.span / 2) middle) (hx : arc.Contains 360 x) :
    |wrapSigned (x - middle)| ≤ arc.span / 2 := by
  obtain ⟨y, hy, hlower, hupper⟩ := hx
  obtain ⟨k, rfl⟩ := hmiddle
  have hsame : Same 360 (x - (arc.start + arc.span / 2 + k * 360))
      (y - (arc.start + arc.span / 2)) := by
    obtain ⟨n, rfl⟩ := hy
    refine ⟨n + k, ?_⟩
    push_cast
    ring
  rw [wrapSigned_eq hsame (by linarith) (by linarith), abs_le]
  constructor <;> linarith

/-- What is left of the middle by at most half of the span is on the arc. -/
theorem contains_offset {arc : Arc K} {middle offset : K}
    (hmiddle : Same 360 (arc.start + arc.span / 2) middle) (hle : |offset| ≤ arc.span / 2) :
    arc.Contains 360 (wrapSigned (middle + offset)) := by
  obtain ⟨hlower, hupper⟩ := abs_le.mp hle
  refine Arc.contains_same (wrapSigned_spec (middle + offset)).1 ?_
  exact ⟨arc.start + arc.span / 2 + offset, (hmiddle.add_right offset).symm, by linarith,
    by linarith⟩

/-! ## Means -/

section Means

variable {a b : K}

omit [FloorRing K] in
/-- A step leads from the mean towards the value, and first to the value itself. -/
theorem meanStep_mem {s : K × ℕ} (hs : s.2 = 0 ∨ a ≤ s.1 ∧ s.1 ≤ b) (hx : a ≤ x ∧ x ≤ b) :
    a ≤ (meanStep s x).1 ∧ (meanStep s x).1 ≤ b := by
  obtain ⟨mean, n⟩ := s
  obtain ⟨ha, hb⟩ := hx
  simp only at hs
  simp only [meanStep]
  rcases hs with rfl | ⟨hlower, hupper⟩
  · rw [Nat.zero_add, Nat.cast_one, div_one, add_sub_cancel]
    exact ⟨ha, hb⟩
  · have hn : (1 : K) ≤ (n + 1 : ℕ) := by
      push_cast
      linarith [Nat.cast_nonneg (α := K) n]
    rcases le_total mean x with hle | hle
    · have hnonneg := div_nonneg (sub_nonneg.mpr hle) (zero_le_one.trans hn)
      have := div_le_self (sub_nonneg.mpr hle) hn
      constructor <;> linarith
    · have hnonneg := div_nonneg (sub_nonneg.mpr hle) (zero_le_one.trans hn)
      have := div_le_self (sub_nonneg.mpr hle) hn
      rw [← neg_sub x mean, neg_div] at hnonneg this
      constructor <;> linarith

omit [FloorRing K] in
theorem runningMean_mem (hne : l ≠ []) (h : ∀ x ∈ l, a ≤ x ∧ x ≤ b) :
    a ≤ runningMean l ∧ runningMean l ≤ b := by
  have hfold : ∀ (l : List K) (s : K × ℕ), (∀ x ∈ l, a ≤ x ∧ x ≤ b) → a ≤ s.1 ∧ s.1 ≤ b →
      a ≤ (l.foldl meanStep s).1 ∧ (l.foldl meanStep s).1 ≤ b := by
    intro l
    induction l with
    | nil => exact fun s _ hs => hs
    | cons x l ih =>
      intro s hall hs
      obtain ⟨hx, hall⟩ := List.forall_mem_cons.mp hall
      exact ih (meanStep s x) hall (meanStep_mem (.inr hs) hx)
  cases l with
  | nil => exact absurd rfl hne
  | cons x l =>
    obtain ⟨hx, hall⟩ := List.forall_mem_cons.mp h
    exact hfold l (meanStep (0, 0) x) hall (meanStep_mem (.inl rfl) hx)

end Means

variable {positions : List (PositionFix K)} {fix : PositionFix K}

omit [IsStrictOrderedRing K] [FloorRing K] in
theorem le_south : x ≤ south positions ↔ x ≤ 90 ∧ ∀ fix ∈ positions, x ≤ fix.latitude :=
  Fold.le_foldl_min (φ := id) (fun _ _ => rfl) positions 90 x

omit [IsStrictOrderedRing K] [FloorRing K] in
theorem north_le : north positions ≤ x ↔ -90 ≤ x ∧ ∀ fix ∈ positions, fix.latitude ≤ x :=
  Fold.foldl_max_le (φ := id) (fun _ _ => rfl) positions (-90) x

omit [IsStrictOrderedRing K] [FloorRing K] in
theorem latitude_mem (hfix : fix ∈ positions) :
    south positions ≤ fix.latitude ∧ fix.latitude ≤ north positions :=
  ⟨(le_south.mp le_rfl).2 fix hfix, (north_le.mp le_rfl).2 fix hfix⟩

/-! ## The drawing -/

/-- What holds of the sphere. -/
structure Sphere.Lawful (sphere : Sphere K) : Prop where
  metres_pos : 0 < sphere.metresPerDegree
  cos_nonneg : ∀ x, |x| ≤ 90 → 0 ≤ sphere.cosDegrees x

omit [IsStrictOrderedRing K] [FloorRing K] in
theorem plotted_valid {fixes : List (Option (PositionFix K))} (hfix : fix ∈ plotted fixes) :
    geographicPositionValid fix := by
  obtain ⟨candidate, -, hcandidate⟩ := List.mem_filterMap.mp hfix
  exact of_decide_eq_true (Option.filter_eq_some_iff.mp hcandidate).2

variable (positions) in
theorem sortedLongitudes_spec : SortedLongitudes (sortedLongitudes positions) := by
  refine ⟨List.pairwise_insertionSort _ _, fun x hx => ?_⟩
  obtain ⟨fix, -, rfl⟩ := List.mem_map.mp ((List.mem_insertionSort _).mp hx)
  exact (wrapPositive_spec fix.longitude).2

omit [IsStrictOrderedRing K] in
theorem mem_sortedLongitudes (hfix : fix ∈ positions) :
    wrapPositive fix.longitude ∈ sortedLongitudes positions :=
  (List.mem_insertionSort _).mpr (List.mem_map.mpr ⟨fix, hfix, rfl⟩)

omit [IsStrictOrderedRing K] in
theorem sortedLongitudes_ne_nil (hne : positions ≠ []) : sortedLongitudes positions ≠ [] := by
  obtain ⟨fix, hfix⟩ := List.exists_mem_of_ne_nil positions hne
  exact List.ne_nil_of_mem (mem_sortedLongitudes hfix)

omit [FloorRing K] in
/-- A coordinate within half of the data from the middle is drawn inside, with some padding. -/
theorem inside {size scale data value : K} (hsize : 0 < size) (hscale : 0 < scale)
    (hdata : data * (11 / 10) / size ≤ scale) (hvalue : |value| ≤ data / 2) :
    |value / scale| < size / 2 := by
  rw [div_le_iff₀ hsize] at hdata
  have harea := mul_pos hscale hsize
  rw [abs_div, abs_of_pos hscale, div_lt_iff₀ hscale]
  linarith

section Survey

variable (sphere : Sphere K) (positions)

theorem contains_longitude (hne : positions ≠ []) (hfix : fix ∈ positions) :
    (longitudeArc (sortedLongitudes positions)).Contains 360 fix.longitude := by
  obtain ⟨-, -, hcontains, -⟩ := longitudeArc_spec (sortedLongitudes_spec positions)
    (sortedLongitudes_ne_nil hne)
  exact Arc.contains_same (wrapPositive_spec fix.longitude).1.symm
    (hcontains _ (mem_sortedLongitudes hfix))

theorem longitudeArc_shortest (hne : positions ≠ []) {arc : Arc K}
    (harc : ∀ fix ∈ positions, arc.Contains 360 fix.longitude) :
    (longitudeArc (sortedLongitudes positions)).span ≤ arc.span := by
  obtain ⟨-, -, -, hshortest⟩ := longitudeArc_spec (sortedLongitudes_spec positions)
    (sortedLongitudes_ne_nil hne)
  refine hshortest arc fun x hx => ?_
  obtain ⟨fix, hfix, rfl⟩ := List.mem_map.mp ((List.mem_insertionSort _).mp hx)
  exact Arc.contains_same (wrapPositive_spec fix.longitude).1 (harc fix hfix)

/-- The reference is the middle of the arc. -/
theorem survey_middle : Same 360
    ((longitudeArc (sortedLongitudes positions)).start +
      (longitudeArc (sortedLongitudes positions)).span / 2)
    (GeographicPlot.survey sphere positions).referenceLongitude :=
  (wrapSigned_spec _).1

/-- The longitude of a place of the arc is drawn where it is. -/
theorem survey_offset (hne : positions ≠ [])
    (hx : (longitudeArc (sortedLongitudes positions)).Contains 360 x) :
    |wrapSigned (x - (GeographicPlot.survey sphere positions).referenceLongitude)| ≤
      (longitudeArc (sortedLongitudes positions)).span / 2 := by
  obtain ⟨-, hspan, -, -⟩ := longitudeArc_spec (sortedLongitudes_spec positions)
    (sortedLongitudes_ne_nil hne)
  exact offset_le hspan (survey_middle positions sphere) hx

/-- The mean longitude is on the arc. -/
theorem contains_meanLongitude (hne : positions ≠ []) :
    (longitudeArc (sortedLongitudes positions)).Contains 360
      (GeographicPlot.survey sphere positions).meanLongitude := by
  obtain ⟨-, -, hcontains, -⟩ := longitudeArc_spec (sortedLongitudes_spec positions)
    (sortedLongitudes_ne_nil hne)
  refine contains_offset (survey_middle positions sphere) (abs_le.mpr ?_)
  refine runningMean_mem ?_ fun offset hoffset => ?_
  · rw [ne_eq, List.map_eq_nil_iff]
    exact sortedLongitudes_ne_nil hne
  · obtain ⟨x, hx, rfl⟩ := List.mem_map.mp hoffset
    exact abs_le.mp (survey_offset positions sphere hne (hcontains x hx))

omit [IsStrictOrderedRing K] in
theorem survey_eastWest : (GeographicPlot.survey sphere positions).dataEastWestMetres =
    (longitudeArc (sortedLongitudes positions)).span *
      (GeographicPlot.survey sphere positions).longitudeFactor * sphere.metresPerDegree := rfl

omit [IsStrictOrderedRing K] in
theorem survey_northSouth : (GeographicPlot.survey sphere positions).dataNorthSouthMetres =
    (north positions - south positions) * sphere.metresPerDegree := rfl

omit [IsStrictOrderedRing K] in
theorem survey_latitude_eq : (GeographicPlot.survey sphere positions).referenceLatitude =
    (south positions + north positions) / 2 := rfl

/-- A latitude between the bounds is within half of their distance from the middle. -/
theorem latitude_offset (hx : south positions ≤ x ∧ x ≤ north positions) :
    |x - (GeographicPlot.survey sphere positions).referenceLatitude| ≤
      (north positions - south positions) / 2 := by
  obtain ⟨hlower, hupper⟩ := hx
  rw [survey_latitude_eq, abs_le]
  constructor <;> linarith

theorem meanLatitude_mem (hne : positions ≠ []) :
    south positions ≤ (GeographicPlot.survey sphere positions).meanLatitude ∧
      (GeographicPlot.survey sphere positions).meanLatitude ≤ north positions := by
  refine runningMean_mem ?_ fun x hx => ?_
  · rwa [ne_eq, List.map_eq_nil_iff]
  · obtain ⟨fix, hfix, rfl⟩ := List.mem_map.mp hx
    exact latitude_mem hfix

variable {sphere positions}

/-- The factor of the longitudes is not negative, since the middle is on the globe. -/
theorem longitudeFactor_nonneg (hsphere : sphere.Lawful)
    (hvalid : ∀ fix ∈ positions, geographicPositionValid fix) (hne : positions ≠ []) :
    0 ≤ (GeographicPlot.survey sphere positions).longitudeFactor := by
  refine hsphere.cos_nonneg _ (abs_le.mpr ?_)
  obtain ⟨fix, hfix⟩ := List.exists_mem_of_ne_nil positions hne
  have hle := (latitude_mem hfix).1.trans (latitude_mem hfix).2
  have hlower : -90 ≤ south positions :=
    le_south.mpr ⟨by norm_num, fun fix hfix => (abs_le.mp (hvalid fix hfix).2.1).1⟩
  have hupper : north positions ≤ 90 :=
    north_le.mpr ⟨by norm_num, fun fix hfix => (abs_le.mp (hvalid fix hfix).2.1).2⟩
  constructor <;> linarith

end Survey

omit [FloorRing K] in
/-- The scale dominates both padded extents. -/
theorem scale_spec (plot : GeographicPlot K) {w h : K} (hw : 0 < w) (hh : 0 < h) :
    0 < plot.scale w h ∧ plot.dataEastWestMetres * (11 / 10) / w ≤ plot.scale w h ∧
      plot.dataNorthSouthMetres * (11 / 10) / h ≤ plot.scale w h := by
  have hshort : 0 < 100 / min w h := div_pos (by norm_num) (lt_min hw hh)
  exact ⟨hshort.trans_le (le_max_left _ _), (le_max_left _ _).trans (le_max_right _ _),
    (le_max_right _ _).trans (le_max_right _ _)⟩

/-- The plot of a size, over what was surveyed. -/
theorem create_eq (sphere : Sphere K) {fixes : List (Option (PositionFix K))} {w h : K}
    (hne : plotted fixes ≠ []) (hw : 0 < w) (hh : 0 < h) :
    let plot := GeographicPlot.survey sphere (plotted fixes)
    GeographicPlot.create sphere fixes w h =
      { plot with
        width := w, height := h, metresPerPixel := plot.scale w h
        eastWestMetres := w * plot.scale w h, northSouthMetres := h * plot.scale w h
        scaleBarMetres := niceScale (w * plot.scale w h / 4), drawable := true } := by
  intro plot
  have hsize : ¬ (w ≤ 0 ∨ h ≤ 0) := not_or.mpr ⟨not_le.mpr hw, not_le.mpr hh⟩
  have hscale : ¬ plot.scale w h ≤ 0 := not_le.mpr (scale_spec plot hw hh).1
  rw [GeographicPlot.create, if_neg hne]
  simp only [if_neg hsize]
  exact if_neg hscale

/-- What is near enough to the reference is drawn strictly inside. -/
theorem project_inside {sphere : Sphere K} (hsphere : sphere.Lawful)
    {fixes : List (Option (PositionFix K))} {w h latitude longitude : K} (hne : plotted fixes ≠ [])
    (hw : 0 < w) (hh : 0 < h)
    (hlatitude : south (plotted fixes) ≤ latitude ∧ latitude ≤ north (plotted fixes))
    (hlongitude : (longitudeArc (sortedLongitudes (plotted fixes))).Contains 360 longitude) :
    let p := (GeographicPlot.create sphere fixes w h).project sphere latitude longitude
    (0 < p.x ∧ p.x < w) ∧ 0 < p.y ∧ p.y < h := by
  have hfactor := longitudeFactor_nonneg hsphere (fun fix hfix => plotted_valid hfix) hne
  have hmetres := hsphere.metres_pos
  have hoffset := survey_offset (plotted fixes) sphere hne hlongitude
  have hnorthward := latitude_offset (plotted fixes) sphere hlatitude
  have heastData := survey_eastWest (plotted fixes) sphere
  have hnorthData := survey_northSouth (plotted fixes) sphere
  rw [create_eq sphere hne hw hh]
  generalize hplot : GeographicPlot.survey sphere (plotted fixes) = plot at *
  obtain ⟨hscale, heast, hnorth⟩ := scale_spec plot hw hh
  have heastWest : |wrapSigned (longitude - plot.referenceLongitude) * plot.longitudeFactor *
      sphere.metresPerDegree| ≤ plot.dataEastWestMetres / 2 := by
    have := mul_le_mul_of_nonneg_right hoffset (mul_nonneg hfactor hmetres.le)
    rw [mul_assoc, abs_mul, abs_of_nonneg (mul_nonneg hfactor hmetres.le), heastData]
    linarith
  have hnorthSouth : |(latitude - plot.referenceLatitude) * sphere.metresPerDegree| ≤
      plot.dataNorthSouthMetres / 2 := by
    have := mul_le_mul_of_nonneg_right hnorthward hmetres.le
    rw [abs_mul, abs_of_nonneg hmetres.le, hnorthData]
    linarith
  have hx := abs_lt.mp (inside hw hscale heast heastWest)
  have hy := abs_lt.mp (inside hh hscale hnorth hnorthSouth)
  intro p
  refine ⟨⟨?_, ?_⟩, ?_, ?_⟩
  · show 0 < w / 2 + _
    linarith [hx.1]
  · show w / 2 + _ < w
    linarith [hx.2]
  · show 0 < h / 2 - _
    linarith [hy.2]
  · show h / 2 - _ < h
    linarith [hy.1]

/-! ## Representatives -/

/-- The fixes are at the same place, whatever number their longitudes have. -/
structure SamePlace (a b : PositionFix K) : Prop where
  valid : geographicPositionValid a ↔ geographicPositionValid b
  latitude : a.latitude = b.latitude
  longitude : Same 360 a.longitude b.longitude

omit [IsStrictOrderedRing K] [FloorRing K] in
theorem plotted_same {fixes other : List (Option (PositionFix K))}
    (h : List.Forall₂ (Option.Rel SamePlace) fixes other) :
    List.Forall₂ SamePlace (plotted fixes) (plotted other) := by
  induction h with
  | nil => exact .nil
  | cons hfix hrest ih =>
    cases hfix with
    | none => exact ih
    | @some a b hab =>
      by_cases hvalid : geographicPositionValid a
      · have hvalid' := hab.valid.mp hvalid
        simp only [plotted, List.filterMap_cons, Option.filter_some, hvalid, hvalid', decide_true,
          if_true]
        exact .cons hab ih
      · have hvalid' := mt hab.valid.mpr hvalid
        simp only [plotted, List.filterMap_cons, Option.filter_some, hvalid, hvalid', decide_false,
          Bool.false_eq_true, if_false]
        exact ih

omit [IsStrictOrderedRing K] [FloorRing K] in
theorem map_same {β : Type} {f : PositionFix K → β} {positions' : List (PositionFix K)}
    (hf : ∀ a b, SamePlace a b → f a = f b) (h : List.Forall₂ SamePlace positions positions') :
    positions.map f = positions'.map f := by
  induction h with
  | nil => rfl
  | cons hfix _ ih => rw [List.map_cons, List.map_cons, hf _ _ hfix, ih]

theorem survey_same (sphere : Sphere K) {positions' : List (PositionFix K)}
    (h : List.Forall₂ SamePlace positions positions') :
    GeographicPlot.survey sphere positions = GeographicPlot.survey sphere positions' := by
  have hlatitudes : positions.map (·.latitude) = positions'.map (·.latitude) :=
    map_same (fun _ _ hfix => hfix.latitude) h
  have hlongitudes : sortedLongitudes positions = sortedLongitudes positions' :=
    congrArg (List.insertionSort (· ≤ ·))
      (map_same (fun _ _ hfix => wrapPositive_same hfix.longitude) h)
  have hsouth : south positions = south positions' := by
    have hmap : ∀ l : List (PositionFix K), south l = (l.map (·.latitude)).foldl min 90 := fun l => by
      rw [List.foldl_map, south]
    rw [hmap, hmap, hlatitudes]
  have hnorth : north positions = north positions' := by
    have hmap : ∀ l : List (PositionFix K), north l = (l.map (·.latitude)).foldl max (-90) :=
      fun l => by rw [List.foldl_map, north]
    rw [hmap, hmap, hlatitudes]
  rw [GeographicPlot.survey, GeographicPlot.survey, hlongitudes, hsouth, hnorth, hlatitudes,
    h.length_eq]

/-- **The plot does not depend on the representatives of the longitudes.** -/
theorem create_same (sphere : Sphere K) {fixes other : List (Option (PositionFix K))} (w h : K)
    (hsame : List.Forall₂ (Option.Rel SamePlace) fixes other) :
    GeographicPlot.create sphere other w h = GeographicPlot.create sphere fixes w h := by
  have hplotted := plotted_same hsame
  have hnil : plotted other = [] ↔ plotted fixes = [] := by
    rw [← List.length_eq_zero_iff, ← List.length_eq_zero_iff, hplotted.length_eq]
  rw [GeographicPlot.create, GeographicPlot.create, survey_same sphere hplotted]
  simp only [hnil]

/-! ## The plot -/

/-- The sphere of the source, in exact arithmetic. -/
noncomputable def earth : Sphere ℝ where
  metresPerDegree := 63710088 / 10 * Real.pi / 180
  cosDegrees := fun x => Real.cos (x * Real.pi / 180)

theorem earth_lawful : earth.Lawful where
  metres_pos := by
    have := Real.pi_pos
    unfold earth
    positivity
  cos_nonneg := by
    intro x hx
    obtain ⟨hlower, hupper⟩ := abs_le.mp hx
    have hpi := Real.pi_pos
    refine Real.cos_nonneg_of_mem_Icc ⟨?_, ?_⟩
    · nlinarith
    · nlinarith

/-- **The plot of some fixes in exact arithmetic.** Its arc of longitudes has all of them and is a
shortest one, no fix wraps to the other side of the reference, the mean longitude is on the arc and
the same for all representatives, and every fix and the mean are drawn strictly inside. -/
theorem geographicPlot_contains (fixes : List (Option (PositionFix ℝ))) (w h : ℝ)
    (hne : plotted fixes ≠ []) (hw : 0 < w) (hh : 0 < h) :
    let plot := GeographicPlot.create earth fixes w h
    let arc := longitudeArc (sortedLongitudes (plotted fixes))
    (∀ fix ∈ plotted fixes, arc.Contains 360 fix.longitude) ∧
    (∀ other : Arc ℝ, (∀ fix ∈ plotted fixes, other.Contains 360 fix.longitude) →
      arc.span ≤ other.span) ∧
    (0 ≤ arc.span ∧ arc.span < 360 ∧
      Same 360 (arc.start + arc.span / 2) plot.referenceLongitude ∧
      ∀ fix ∈ plotted fixes,
        |wrapSigned (fix.longitude - plot.referenceLongitude)| ≤ arc.span / 2) ∧
    arc.Contains 360 plot.meanLongitude ∧
    (∀ other, List.Forall₂ (Option.Rel SamePlace) fixes other →
      (GeographicPlot.create earth other w h).meanLongitude = plot.meanLongitude) ∧
    (∀ fix ∈ plotted fixes, ∃ p, plot.point earth fix = some p ∧
      (0 < p.x ∧ p.x < w) ∧ 0 < p.y ∧ p.y < h) ∧
    ∃ p, plot.meanPoint earth = some p ∧ (0 < p.x ∧ p.x < w) ∧ 0 < p.y ∧ p.y < h := by
  intro plot arc
  have hplot : plot = _ := create_eq earth hne hw hh
  have hdrawable : plot.drawable = true := by rw [hplot]
  have hreference : plot.referenceLongitude =
      (GeographicPlot.survey earth (plotted fixes)).referenceLongitude := by rw [hplot]
  have hmeanLongitude : plot.meanLongitude =
      (GeographicPlot.survey earth (plotted fixes)).meanLongitude := by rw [hplot]
  have hmeanLatitude : plot.meanLatitude =
      (GeographicPlot.survey earth (plotted fixes)).meanLatitude := by rw [hplot]
  obtain ⟨hspan, hturn, -, -⟩ := longitudeArc_spec
    (sortedLongitudes_spec (plotted fixes)) (sortedLongitudes_ne_nil hne)
  -- The mean is within the arc, so it is drawn by the same projection as the fixes.
  have hmean : arc.Contains 360 plot.meanLongitude := by
    rw [hmeanLongitude]
    exact contains_meanLongitude (plotted fixes) earth hne
  have hcontains : ∀ fix ∈ plotted fixes, arc.Contains 360 fix.longitude := fun fix hfix =>
    contains_longitude (plotted fixes) hne hfix
  refine ⟨hcontains, fun other hother => longitudeArc_shortest (plotted fixes) hne hother,
    ⟨hspan, hturn, ?_, fun fix hfix => ?_⟩, hmean, fun other hother => ?_, fun fix hfix => ?_, ?_⟩
  · rw [hreference]
    exact survey_middle (plotted fixes) earth
  · rw [hreference]
    exact survey_offset (plotted fixes) earth hne (hcontains fix hfix)
  · rw [create_same earth w h hother]
  · have hvalid := plotted_valid hfix
    refine ⟨plot.project earth fix.latitude fix.longitude, ?_,
      project_inside earth_lawful hne hw hh (latitude_mem hfix) (hcontains fix hfix)⟩
    rw [GeographicPlot.point, if_neg]
    rw [hdrawable, not_or, not_not]
    exact ⟨Bool.noConfusion, hvalid⟩
  · refine ⟨plot.project earth plot.meanLatitude plot.meanLongitude, ?_,
      project_inside earth_lawful hne hw hh ?_ hmean⟩
    · rw [GeographicPlot.meanPoint, hdrawable, if_neg Bool.noConfusion]
    · rw [hmeanLatitude]
      exact meanLatitude_mem (plotted fixes) earth hne

/-- A valid fix at a place. -/
def fixAt (latitude longitude : ℝ) : PositionFix ℝ :=
  { latitude, longitude, altitudeM := none, utcSeconds := 0, monotonicSeconds := 0, valid := true
    manual := false, source := [], hdop := none, satellites := 0 }

/-- The mean of two fixes on both sides of the date line is drawn inside. -/
theorem geographicPlot_contains_dateLine :
    let plot := GeographicPlot.create earth [some (fixAt 10 179), none, some (fixAt (-10) (-179))]
      600 300
    ∃ p, plot.meanPoint earth = some p ∧ (0 < p.x ∧ p.x < 600) ∧ 0 < p.y ∧ p.y < 300 := by
  have hne : plotted [some (fixAt 10 179), none, some (fixAt (-10) (-179))] ≠ [] := by
    have hvalid : geographicPositionValid (fixAt 10 179) := by
      refine ⟨rfl, ?_, ?_⟩ <;> norm_num [fixAt, abs_le]
    simp [plotted, hvalid]
  obtain ⟨-, -, -, -, -, -, hmean⟩ := geographicPlot_contains _ 600 300 hne (by norm_num)
    (by norm_num)
  exact hmean

end OVMesh
