import OVMesh.Lib.Fold
import OVMesh.Spectrum.Params
import OVMesh.Store.Masks
import OVMesh.Store.Saved

/-!
# Activity analysis

`SessionStore::analyze` of `storage.cpp`, as far as it visits the spectrum tiles: the bins that a
query selects, the clipped frames, the masked activity bits and the display buckets. The bursts,
events, waveforms and gaps of the result come from other loops.

* `Grid`, `openGrid`: the selected bins of an acquisition and its receiver-centre guard.
* `scanByte`, `scanFrame`: the loop over the activity bytes of a frame.
* `spread`: a frame's part of the display buckets.
* `analyzeTile`, `analyze`: the loop over the tiles.
-/

namespace OVMesh

namespace Analysis

open Checked SurveyQuality SpectrumProcessor

/-- `nextAbove x` is `nextafter(x, infinity)`. -/
structure Rounding (K : Type) [LT K] where
  nextAbove : K → K
  lt_nextAbove : ∀ x, x < nextAbove x

/-! ## The result -/

/-- A `SurveyBin` with its entries of `powers` and `peaks`. -/
structure BinSum (K : Type) where
  centerHz : K
  widthHz : K
  observedSeconds : K
  activeSeconds : K
  power : K
  peak : K

/-- The `Accumulator` of a display bucket. -/
structure Bucket (K : Type) where
  elapsedStart : K
  elapsedEnd : K
  observedSeconds : K
  busySeconds : K
  outsideCenterBusySeconds : K
  centerBusySeconds : K
  outsideCenterObservedSeconds : K
  quality : ℕ
  receiverPosition : Option (PositionFix K)
  power : K
  background : K
  peak : K

/-- The fields of `SurveyAnalysis` that the tiles determine. `guarded` and `outside` are the indexes
of the bins inside and outside the centre guards. The keys of `buckets` are below
`max_observations`. -/
structure Sums (K : Type) where
  tileCount : ℕ
  coveredLowerHz : K
  coveredUpperHz : K
  binWidthHz : K
  observedSeconds : K
  busySeconds : K
  missingStartPositionSeconds : K
  missingEndPositionSeconds : K
  centerGuardLowerHz : K
  centerGuardUpperHz : K
  outsideCenterBusySeconds : K
  centerBusySeconds : K
  outsideCenterObservedSeconds : K
  quality : ℕ
  observationsTruncated : Bool
  guarded : Finset ℕ
  outside : Finset ℕ
  bins : List (BinSum K)
  buckets : ℕ → Option (Bucket K)

/-- The bins of the current acquisition: those from `first` to `last - 1` are selected. -/
structure Grid (K : Type) where
  count : ℕ
  firstHz : K
  width : K
  first : ℕ
  last : ℕ
  centerMasks : List ℕ
  indexes : List ℕ
  outsideAvailable : Bool

/-- What `analyze` has summed up, and what it remembers of the last tile. -/
structure State (K : Type) where
  sums : Sums K
  grid : Option (Grid K)
  previousConfig : Option (Option ℕ)
  previousSample : ℕ
  previousElapsed : K

variable {K : Type} [Field K] [LinearOrder K]

/-- The sums of no tile. -/
def Sums.empty : Sums K :=
  { tileCount := 0
    coveredLowerHz := 0
    coveredUpperHz := 0
    binWidthHz := 0
    observedSeconds := 0
    busySeconds := 0
    missingStartPositionSeconds := 0
    missingEndPositionSeconds := 0
    centerGuardLowerHz := 0
    centerGuardUpperHz := 0
    outsideCenterBusySeconds := 0
    centerBusySeconds := 0
    outsideCenterObservedSeconds := 0
    quality := 0
    observationsTruncated := false
    guarded := ∅
    outside := ∅
    bins := []
    buckets := fun _ => none }

/-! ## The grid of an acquisition -/

/-- The loops that find the selected bins: `first` and `last`. -/
def firstBin (firstHz width lower : K) (count : ℕ) : ℕ :=
  Fold.advance (fun b => firstHz + (b + 1 / 2) * width ≤ lower) count 0

/-- The end of the bins below a frequency. -/
def lastBin (firstHz width upper : K) (count first : ℕ) : ℕ :=
  Fold.advance (fun b => firstHz + (b - 1 / 2) * width < upper) count first

/-- `bin_indexes.emplace`: the index of a bin, which is a new one unless the bin was met before. -/
def emplaceBin (center width : K) (s : Sums K) : Except String (ℕ × Sums K) :=
  match s.bins.findIdx? fun b => b.centerHz = center ∧ b.widthHz = width with
  | some i => .ok (i, s)
  | none => do
    reject (s.bins.length ≥ 65536)
      "Too many distinct survey measurement bins; narrow the selection"
    let s : Sums K := { s with
      bins := s.bins ++ [{ centerHz := center, widthHz := width, observedSeconds := 0,
                           activeSeconds := 0, power := 0, peak := 0 }] }
    if s.bins.length = 1 then
      return (0, { s with
        coveredLowerHz := center - width / 2
        coveredUpperHz := center + width / 2
        binWidthHz := width })
    else
      return (s.bins.length - 1, { s with
        coveredLowerHz := min s.coveredLowerHz (center - width / 2)
        coveredUpperHz := max s.coveredUpperHz (center + width / 2)
        binWidthHz := if s.binWidthHz ≠ width then 0 else s.binWidthHz })

/-- The body of the loop over the selected bins of a new grid. -/
def openBin (config : ReceiverConfig K) (gs : Grid K × Sums K) (b : ℕ) :
    Except String (Grid K × Sums K) := do
  let (grid, s) := gs
  let width := grid.width
  let center := grid.firstHz + b * width
  let (index, s) ← emplaceBin center width s
  let grid := { grid with indexes := grid.indexes.set b index }
  if Guarded center width config.centerHz then
    let s := if s.guarded = ∅ then
        { s with centerGuardLowerHz := center - width / 2, centerGuardUpperHz := center + width / 2 }
      else
        { s with
          centerGuardLowerHz := min s.centerGuardLowerHz (center - width / 2)
          centerGuardUpperHz := max s.centerGuardUpperHz (center + width / 2) }
    return ({ grid with centerMasks := Bitmap.setBit grid.centerMasks b },
      { s with guarded := insert index s.guarded })
  else
    return ({ grid with outsideAvailable := true }, { s with outside := insert index s.outside })

/-- The grid of the first tile of an acquisition that meets the query. -/
def openGrid (config : ReceiverConfig K) (lower upper : K) (t : SpectrumTile K) (s : Sums K) :
    Except String (Grid K × Sums K) :=
  let count := t.meanDbfs.length
  let first := firstBin t.firstCenterHz t.binWidthHz lower count
  let last := lastBin t.firstCenterHz t.binWidthHz upper count first
  (List.range' first (last - first)).foldlM (openBin config)
    ({ count
       firstHz := t.firstCenterHz
       width := t.binWidthHz
       first
       last
       centerMasks := List.replicate ((count + 7) / 8) 0
       indexes := List.replicate count 0
       outsideAvailable := false }, s)

/-! ## Frames -/

/-- What the byte loop of a frame has found, and the bins it has credited. -/
structure Scan (K : Type) where
  busy : Bool
  centerBusy : Bool
  outsideBusy : Bool
  bins : List (BinSum K)

/-- The bin was active for some seconds more. -/
def BinSum.addActive (seconds : K) (bin : BinSum K) : BinSum K :=
  { bin with activeSeconds := bin.activeSeconds + seconds }

/-- The body of the byte loop. -/
def scanByte (grid : Grid K) (activity : List ℕ) (offset : ℕ) (seconds : K) (s : Scan K)
    (byte : ℕ) : Scan K :=
  let mask := maskedByte activity offset grid.first grid.last byte
  let center := grid.centerMasks.getD byte 0
  { busy := s.busy || mask != 0
    centerBusy := s.centerBusy || mask &&& center != 0
    outsideBusy := s.outsideBusy || mask &&& (0xffffffff ^^^ center) != 0
    bins := (Bitmap.setBits mask).foldl (fun bins bit =>
      bins.modify (grid.indexes.getD (byte * 8 + bit) 0) (.addActive seconds)) s.bins }

/-- The byte loop of a frame. -/
def scanFrame (grid : Grid K) (activity : List ℕ) (frame : ℕ) (seconds : K)
    (bins : List (BinSum K)) : Scan K :=
  (maskBytes grid.first grid.last).foldl
    (scanByte grid activity (frame * ((grid.count + 7) / 8)) seconds)
    { busy := false, centerBusy := false, outsideBusy := false, bins }

/-! ## Display buckets -/

/-- `while (bucket && edge(bucket) > time) --bucket`: the last group that begins at or before a time. -/
def stepBack (edge : ℕ → K) (time : K) : ℕ → ℕ
  | 0 => 0
  | bucket + 1 => if edge (bucket + 1) > time then stepBack edge time bucket else bucket + 1

/-- The bucket of a time, corrected at the edges. -/
def bucketAt [FloorRing K] (r : Resolved K) (maxObservations : ℕ) (time : K) : ℕ :=
  let bucket := min ⌊(time - r.start) / r.bucketSeconds⌋₊ (maxObservations - 1)
  Fold.advance (fun b => r.edge (b + 1) ≤ time) (maxObservations - 1) (stepBack r.edge time bucket)

/-- The end of a bucket within the selection. -/
def bucketEnd (r : Resolved K) (maxObservations bucket : ℕ) : K :=
  if bucket + 1 = maxObservations then r.stop else min r.stop (r.edge (bucket + 1))

/-- What a frame adds to its buckets: the flags of its scan, and values of its tile. -/
structure FramePart (K : Type) where
  busy : Bool
  centerBusy : Bool
  outsideBusy : Bool
  outsideAvailable : Bool
  quality : ℕ
  mean : K
  background : K
  peak : K
  powerElapsedStart : K
  powerElapsedEnd : K
  receiverEnd : Option (PositionFix K)

/-- The places of two fixes differ. -/
def Moved (a b : Option (PositionFix K)) : Prop :=
  ∃ x ∈ a, ∃ y ∈ b, x.latitude ≠ y.latitude ∨ x.longitude ≠ y.longitude

instance (a b : Option (PositionFix K)) : Decidable (Moved a b) :=
  inferInstanceAs (Decidable (∃ x ∈ a, _))

/-- The bucket takes in the part of a frame between two times. -/
def Bucket.add (edge bucketEnd : K) (part : FramePart K) (time boundary : K) (a : Bucket K) :
    Bucket K :=
  let seconds := boundary - time
  let quality := if Moved a.receiverPosition part.receiverEnd then a.quality ||| merged.mask
    else a.quality
  let quality := quality ||| part.quality
  { elapsedStart := a.elapsedStart
    elapsedEnd := boundary
    observedSeconds := a.observedSeconds + seconds
    outsideCenterObservedSeconds :=
      if part.outsideAvailable then a.outsideCenterObservedSeconds + seconds
      else a.outsideCenterObservedSeconds
    busySeconds := if part.busy then a.busySeconds + seconds else a.busySeconds
    centerBusySeconds := if part.centerBusy then a.centerBusySeconds + seconds
      else a.centerBusySeconds
    outsideCenterBusySeconds := if part.outsideBusy then a.outsideCenterBusySeconds + seconds
      else a.outsideCenterBusySeconds
    quality := if edge > part.powerElapsedStart ∨ bucketEnd < part.powerElapsedEnd then
      quality ||| SurveyQuality.boundary.mask else quality
    power := a.power + part.mean * seconds
    background := a.background + part.background * seconds
    peak := max a.peak part.peak
    receiverPosition := part.receiverEnd }

/-- The bucket that is opened at a time. -/
def Bucket.fresh (time : K) (position : Option (PositionFix K)) : Bucket K :=
  { elapsedStart := time
    elapsedEnd := 0
    observedSeconds := 0
    busySeconds := 0
    outsideCenterBusySeconds := 0
    centerBusySeconds := 0
    outsideCenterObservedSeconds := 0
    quality := 0
    receiverPosition := position
    power := 0
    background := 0
    peak := 0 }

/-- The loop over the buckets of a frame that ends at `frameTo`. Every round moves to a later
bucket, so `max_observations` rounds are enough. -/
def spread [FloorRing K] (r : Resolved K) (maxObservations : ℕ) (part : FramePart K) (frameTo : K) :
    ℕ → K → (ℕ → Option (Bucket K)) → Except String (ℕ → Option (Bucket K))
  | 0, time, buckets =>
    if time < frameTo then .error "more rounds than buckets" else .ok buckets
  | rounds + 1, time, buckets => do
    if time < frameTo then
      let bucket := bucketAt r maxObservations time
      let boundary := min frameTo (bucketEnd r maxObservations bucket)
      reject (boundary ≤ time) "Unrepresentable survey time bucket"
      let a := ((buckets bucket).getD (.fresh time part.receiverEnd)).add
        (r.edge bucket) (bucketEnd r maxObservations bucket) part time boundary
      spread r maxObservations part frameTo rounds boundary (Function.update buckets bucket (some a))
    else return buckets

section Spread

variable {r : Resolved K} {n : ℕ} {time : K}

omit [Field K] in
theorem stepBack_eq {edge : ℕ → K} {bucket : ℕ} (h : edge bucket ≤ time) :
    stepBack edge time bucket = bucket := by
  cases bucket with
  | zero => rfl
  | succ bucket => rw [stepBack, if_neg (not_lt.mpr h)]

variable [IsStrictOrderedRing K]

theorem edge_mono (hw : 0 < r.bucketSeconds) {a b : ℕ} (h : a ≤ b) :
    r.edge a ≤ r.edge b :=
  add_le_add_left (mul_le_mul_of_nonneg_right (Nat.cast_le.mpr h) hw.le) _

variable [FloorRing K]

/-- The time lies in its bucket, and behind the edge of the last bucket in none but that. -/
theorem bucketAt_spec (hw : 0 < r.bucketSeconds) (ht : r.start ≤ time) :
    bucketAt r n time ≤ n - 1 ∧ r.edge (bucketAt r n time) ≤ time ∧
      (bucketAt r n time < n - 1 → time < r.edge (bucketAt r n time + 1)) := by
  have hedge : r.edge (min ⌊(time - r.start) / r.bucketSeconds⌋₊ (n - 1)) ≤ time := by
    have hle : ((min ⌊(time - r.start) / r.bucketSeconds⌋₊ (n - 1) : ℕ) : K) ≤
        (time - r.start) / r.bucketSeconds :=
      (Nat.cast_le.mpr (min_le_left _ _)).trans
        (Nat.floor_le (div_nonneg (sub_nonneg.mpr ht) hw.le))
    have hmul := (le_div_iff₀ hw).mp hle
    rw [Resolved.edge]
    linarith
  unfold bucketAt
  dsimp only
  rw [stepBack_eq hedge]
  have hle : min ⌊(time - r.start) / r.bucketSeconds⌋₊ (n - 1) ≤ n - 1 := min_le_right _ _
  generalize min ⌊(time - r.start) / r.bucketSeconds⌋₊ (n - 1) = b at hedge hle
  obtain ⟨hge, hle, hseen, hstop⟩ := Fold.advance_spec (fun b => r.edge (b + 1) ≤ time) hle
  refine ⟨hle, ?_, fun hlt => not_le.mp (hstop hlt)⟩
  rcases Nat.eq_or_lt_of_le hge with heq | hlt
  · rw [← heq]
    exact hedge
  · have hlast := hseen _ (Nat.le_sub_one_of_lt hlt) (Nat.sub_lt (by omega) Nat.one_pos)
    rwa [Nat.sub_add_cancel (by omega)] at hlast

/-- A time of the selection lies before the end of its bucket. -/
theorem lt_bucketEnd (hw : 0 < r.bucketSeconds) (hn : 0 < n) (ht : r.start ≤ time)
    (hstop : time < r.stop) : time < bucketEnd r n (bucketAt r n time) := by
  obtain ⟨hle, -, hnext⟩ := bucketAt_spec (n := n) hw ht
  unfold bucketEnd
  split <;> rename_i hlast
  · exact hstop
  · exact lt_min hstop (hnext (by omega))

/-- When a frame goes on behind a bucket, the next round is in a later one. -/
theorem bucketAt_boundary (hw : 0 < r.bucketSeconds) (hn : 0 < n) (ht : r.start ≤ time)
    {frameTo : K} (hstop : frameTo ≤ r.stop)
    (hmore : min frameTo (bucketEnd r n (bucketAt r n time)) < frameTo) :
    bucketAt r n time < bucketAt r n (min frameTo (bucketEnd r n (bucketAt r n time))) := by
  obtain ⟨hb, -, hnext⟩ := bucketAt_spec (n := n) hw ht
  generalize bucketAt r n time = b at hb hnext hmore ⊢
  have hlast : b + 1 ≠ n := fun heq => by
    rw [bucketEnd, if_pos heq, min_eq_left hstop] at hmore
    exact lt_irrefl _ hmore
  have hmin : min frameTo (bucketEnd r n b) = r.edge (b + 1) := by
    rw [bucketEnd, if_neg hlast] at hmore ⊢
    rcases le_total frameTo (r.edge (b + 1)) with h | h
    · rw [min_eq_left (le_min hstop h)] at hmore
      exact absurd hmore (lt_irrefl _)
    · rw [min_eq_right (h.trans hstop), min_eq_right h]
  rw [hmin]
  have hstart : r.start ≤ r.edge (b + 1) := by
    have hmul : 0 ≤ ((b + 1 : ℕ) : K) * r.bucketSeconds := mul_nonneg (Nat.cast_nonneg _) hw.le
    rw [Resolved.edge]
    linarith
  obtain ⟨hb', -, hnext'⟩ := bucketAt_spec (n := n) hw hstart
  by_contra hlt
  exact absurd (hnext' (by omega)) (not_lt.mpr (edge_mono hw (by omega)))

/-- The loop over the buckets of a frame returns. -/
theorem spread_ok (hw : 0 < r.bucketSeconds) (hn : 0 < n) {part : FramePart K} {frameTo : K}
    (hstop : frameTo ≤ r.stop) (rounds : ℕ) {buckets : ℕ → Option (Bucket K)} (ht : r.start ≤ time)
    (hrounds : time < frameTo → n ≤ rounds + bucketAt r n time) :
    ∃ out, spread r n part frameTo rounds time buckets = .ok out := by
  induction rounds generalizing time buckets with
  | zero =>
    have hb := (bucketAt_spec (n := n) hw ht).1
    rw [spread, if_neg fun hlt => by have := hrounds hlt; omega]
    exact ⟨_, rfl⟩
  | succ rounds ih =>
    rw [spread]
    split <;> rename_i hlt
    case isFalse => exact ⟨_, rfl⟩
    have hboundary := lt_min hlt (lt_bucketEnd hw hn ht (hlt.trans_le hstop))
    simp only [bind_eq_ok, reject_eq_ok, not_le]
    obtain ⟨out, hout⟩ := ih (ht.trans hboundary.le) fun hmore => by
      have hnext := bucketAt_boundary hw hn ht hstop hmore
      have := hrounds hlt
      omega
    exact ⟨out, (), hboundary, hout⟩

end Spread

/-! ## Tiles -/

/-- The frame with number `frame` of the tile, clipped to the interval from `start` to `stop`. -/
def frameSpan (config : ReceiverConfig K) (t : SpectrumTile K) (start stop : K) (frame : ℕ) : K × K :=
  let frameSeconds : K := t.fftSize / config.sampleRate
  (max start (t.elapsedStartSeconds + frame * frameSeconds),
    min stop (t.elapsedStartSeconds + (frame + 1 : ℕ) * frameSeconds))

/-- What the scan of a frame adds to the sums. -/
def Sums.addScan (scan : Scan K) (seconds : K) (s : Sums K) : Sums K :=
  { s with
    bins := scan.bins
    busySeconds := if scan.busy then s.busySeconds + seconds else s.busySeconds
    centerBusySeconds := if scan.centerBusy then s.centerBusySeconds + seconds
      else s.centerBusySeconds
    outsideCenterBusySeconds := if scan.outsideBusy then s.outsideCenterBusySeconds + seconds
      else s.outsideCenterBusySeconds }

/-- The body of the loop over the frames. -/
def analyzeFrame [FloorRing K] (q : SurveyQuery K) (r : Resolved K) (config : ReceiverConfig K)
    (grid : Grid K) (t : SpectrumTile K) (start stop : K) (part : FramePart K) (s : Sums K)
    (frame : ℕ) : Except String (Sums K) := do
  let (frameFrom, frameTo) := frameSpan config t start stop frame
  if frameTo ≤ frameFrom then return s
  let seconds := frameTo - frameFrom
  let scan := scanFrame grid t.activity frame seconds s.bins
  let s := s.addScan scan seconds
  if q.maxObservations = 0 then return { s with observationsTruncated := true }
  let part := { part with
    busy := scan.busy, centerBusy := scan.centerBusy, outsideBusy := scan.outsideBusy }
  let buckets ← spread r q.maxObservations part frameTo q.maxObservations frameFrom s.buckets
  return { s with buckets }

/-- The quality that a tile adds. -/
def tileQuality (q : SurveyQuery K) (r : Resolved K) (t : SpectrumTile K) (start stop : K) : ℕ :=
  let quality := if t.receiverEnd = none then t.quality ||| positionMissing.mask else t.quality
  let quality := if start > t.elapsedStartSeconds ∨ stop < t.elapsedEndSeconds then
    quality ||| boundary.mask else quality
  if HasFlag t.quality powerAggregated ∧ (q.geographicFilter = true ∨
      r.start > t.powerElapsedStart ∨ r.stop < t.powerElapsedEnd) then quality ||| boundary.mask
  else quality

/-- The body of the loop over the bins of a tile that lasts `duration` within the query. -/
def BinSum.addTile (m : Libm K) (meanDbfs peakDbfs duration : K) (bin : BinSum K) : BinSum K :=
  { bin with
    power := bin.power + m.pow10 (meanDbfs / 10) * duration
    peak := max bin.peak (m.pow10 (peakDbfs / 10))
    observedSeconds := bin.observedSeconds + duration }

/-- What a tile with selected bins adds before its frames are visited. -/
def addTile (m : Libm K) (q : SurveyQuery K) (r : Resolved K) (grid : Grid K) (t : SpectrumTile K)
    (start stop : K) (s : Sums K) : Sums K :=
  let duration := stop - start
  { s with
    tileCount := s.tileCount + 1
    observedSeconds := s.observedSeconds + duration
    outsideCenterObservedSeconds :=
      if grid.outsideAvailable then s.outsideCenterObservedSeconds + duration
      else s.outsideCenterObservedSeconds
    missingStartPositionSeconds :=
      if t.receiverStart = none then s.missingStartPositionSeconds + duration
      else s.missingStartPositionSeconds
    missingEndPositionSeconds :=
      if t.receiverEnd = none then s.missingEndPositionSeconds + duration
      else s.missingEndPositionSeconds
    quality := s.quality ||| tileQuality q r t start stop
    bins := (List.range' grid.first (grid.last - grid.first)).foldl (fun bins b =>
      bins.modify (grid.indexes.getD b 0)
        (.addTile m (t.meanDbfs.getD b 0) (t.peakDbfs.getD b 0) duration)) s.bins }

/-- The part of a frame that its tile determines. -/
def tilePart (m : Libm K) (q : SurveyQuery K) (r : Resolved K) (grid : Grid K) (t : SpectrumTile K)
    (start stop : K) : FramePart K :=
  let bins := List.range' grid.first (grid.last - grid.first)
  { busy := false
    centerBusy := false
    outsideBusy := false
    outsideAvailable := grid.outsideAvailable
    quality := tileQuality q r t start stop
    mean := (bins.map fun b => m.pow10 (t.meanDbfs.getD b 0 / 10)).sum
    background := m.pow10 (t.backgroundDbfs / 10) * (grid.last - grid.first : ℕ)
    peak := (bins.map fun b => m.pow10 (t.peakDbfs.getD b 0 / 10)).sum
    powerElapsedStart := t.powerElapsedStart
    powerElapsedEnd := t.powerElapsedEnd
    receiverEnd := t.receiverEnd }

/-- The grid of the tile: the one of its acquisition, or a new one. -/
def tileGrid (config : ReceiverConfig K) (lower upper : K) (t : SpectrumTile K)
    (grid : Option (Grid K)) (s : Sums K) : Except String (Grid K × Sums K) :=
  match grid with
  | none => openGrid config lower upper t s
  | some grid => do
    reject (t.meanDbfs.length ≠ grid.count ∨ |grid.firstHz - t.firstCenterHz| > 1 / 10 ^ 5 ∨
        |grid.width - t.binWidthHz| > 1 / 10 ^ 8)
      "Saved spectrum grid changes within acquisition"
    return (grid, s)

/-- The body of the loop over the tiles. -/
def analyzeTile [FloorRing K] (m : Libm K) (survey : SavedSurvey K) (q : SurveyQuery K)
    (r : Resolved K) (s : State K) (t : SpectrumTile K) : Except String (State K) := do
  let (acquisition, config) ← readTile survey t
  reject (t.firstSample < s.previousSample ∨
      t.elapsedStartSeconds < s.previousElapsed - 1 / 10 ^ 8)
    "Overlapping or unordered saved spectrum tiles"
  let s := { s with
    previousSample := t.endSample
    previousElapsed := t.elapsedEndSeconds
    previousConfig := some acquisition
    grid := if s.previousConfig = some acquisition then s.grid else none }
  let start := max r.start t.elapsedStartSeconds
  let stop := min r.stop t.elapsedEndSeconds
  if stop ≤ start ∨ ¬ q.InRegion t.receiverEnd then return s
  let (grid, sums) ← tileGrid config (survey.lower q) (survey.upper q) t s.grid s.sums
  let s := { s with grid := some grid }
  if grid.last = grid.first then return { s with sums }
  let sums := addTile m q r grid t start stop sums
  let sums ← (List.range t.frameCount).foldlM
    (analyzeFrame q r config grid t start stop (tilePart m q r grid t start stop)) sums
  return { s with sums }

/-- The order of the bins in the result. -/
def BinSum.le (a b : BinSum K) : Bool :=
  a.centerHz < b.centerHz ∨ a.centerHz = b.centerHz ∧ a.widthHz ≤ b.widthHz

/-- The tile loop of `analyze`, for a recording with spectrum tables. -/
def analyze [FloorRing K] (m : Libm K) (rounding : Rounding K) (survey : SavedSurvey K)
    (q : SurveyQuery K) : Except String (Resolved K × Sums K) := do
  q.validate
  let r ← resolve rounding.nextAbove survey q
  let s ← survey.tiles.foldlM (analyzeTile m survey q r)
    { sums := .empty, grid := none, previousConfig := none, previousSample := 0,
      previousElapsed := 0 }
  return (r, { s.sums with bins := s.sums.bins.mergeSort BinSum.le })

end Analysis

end OVMesh
