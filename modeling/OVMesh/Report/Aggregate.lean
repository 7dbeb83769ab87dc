import OVMesh.Lib.Outcome
import OVMesh.Lib.SortedMap
import OVMesh.Report.Cell
import OVMesh.Report.Context
import OVMesh.Report.TimeRows
import OVMesh.Store.Masks

/-!
# The aggregation of a report

`AggregateReport`: the tiles of a selection, accumulated by frequency, by time or by place. Values are exact.

* `Accumulator`, `Bounds`: what is accumulated. `Accumulator.add`: a piece of a tile.
* `AggregateReport.consume`: one tile: its grid, its selection, its exposure and its frames.
* `AggregateReport.gap`, `write`: a gap, and the rows.
-/

namespace OVMesh

namespace Report

open Buckets Checked SpectrumProcessor

/-- The rows that an aggregate may hold. -/
def aggregateLimit : ℕ := 200000

section Accumulators

variable {K : Type} [Field K] [LinearOrder K]

/-- `Bounds` of the positions, where there are any. -/
structure Bounds (K : Type) where
  any : Bool := false
  south : K
  north : K
  west : K
  east : K

/-- The bounds of no position. -/
def Bounds.empty : Bounds K := { south := 0, north := 0, west := 0, east := 0 }

/-- The bounds with one more position, if it is valid. -/
def Bounds.add (bounds : Bounds K) (position : Option (PositionFix K)) : Bounds K :=
  match position.filter (·.valid) with
  | none => bounds
  | some fix =>
    if bounds.any then
      { any := true
        south := min bounds.south fix.latitude
        north := max bounds.north fix.latitude
        west := min bounds.west fix.longitude
        east := max bounds.east fix.longitude }
    else ⟨true, fix.latitude, fix.latitude, fix.longitude, fix.longitude⟩

/-- `Accumulator`: what a group of a report sums up. -/
structure Accumulator (K : Type) where
  observed : K
  busy : K
  outsideBusy : K
  meanPower : K
  peakPower : K
  noisePower : K
  missingPosition : K
  powerSupportMax : K
  partialPower : K
  boundaryPosition : K
  quality : ℕ
  positions : Bounds K

/-- An accumulator before its first contribution. -/
def Accumulator.empty : Accumulator K :=
  { observed := 0, busy := 0, outsideBusy := 0, meanPower := 0, peakPower := 0, noisePower := 0
    missingPosition := 0, powerSupportMax := 0, partialPower := 0, boundaryPosition := 0
    quality := 0, positions := .empty }

/-- The interval that the power of a tile was retained over. -/
def powerSupport (t : SpectrumTile K) : K × K :=
  if t.powerElapsedEnd > t.powerElapsedStart then (t.powerElapsedStart, t.powerElapsedEnd)
  else (t.elapsedStartSeconds, t.elapsedEndSeconds)

/-- `add`. The power is cut when the piece has not all of its support. -/
def Accumulator.add (a : Accumulator K) (seconds mean peak noise : K) (t : SpectrumTile K) (cut : Bool) :
    Accumulator K :=
  let quality := a.quality ||| t.quality
  let quality := if cut then quality ||| SurveyQuality.boundary.mask else quality
  { a with
    observed := a.observed + seconds
    meanPower := a.meanPower + mean * seconds
    peakPower := max a.peakPower peak
    noisePower := a.noisePower + noise * seconds
    powerSupportMax := max a.powerSupportMax ((powerSupport t).2 - (powerSupport t).1)
    partialPower := if cut then a.partialPower + seconds else a.partialPower
    missingPosition := if hasPosition t.receiverEnd then a.missingPosition else a.missingPosition + seconds
    quality := if hasPosition t.receiverEnd then quality else quality ||| SurveyQuality.positionMissing.mask
    positions := (a.positions.add t.receiverStart).add t.receiverEnd }

/-- The time of a frame in which something was busy, and outside of the receiver's centre. -/
def Accumulator.addBusy (a : Accumulator K) (seconds : K) (busy outside : Bool) : Accumulator K :=
  { a with
    busy := if busy then a.busy + seconds else a.busy
    outsideBusy := if outside then a.outsideBusy + seconds else a.outsideBusy }

/-- `GeoBin`: what a cell sums up of one bin. -/
structure GeoBin (K : Type) where
  busy : K
  powerSum : K
  peak : K

/-- `GeoValue`: a cell with what all its bins share, and each of them. -/
structure GeoValue (K : Type) where
  cell : Cell K
  common : Accumulator K
  bins : List (GeoBin K)

/-- The members of `AggregateReport`. -/
structure AggregateReport (K : Type) where
  bins : List (Accumulator K)
  times : List (ℕ × Accumulator K)
  cells : List ((ℤ ×ₗ ℤ) × GeoValue K)
  first : ℕ
  last : ℕ
  count : ℕ
  gridFirst : K
  width : K
  earliest : K
  latest : K
  rejectedGps : K
  explicitGaps : K
  utcAnchor : K
  previousSample : ℕ
  previousElapsed : K
  grid : Bool

/-- A report before its first tile. -/
def AggregateReport.initial : AggregateReport K :=
  { bins := [], times := [], cells := [], first := 0, last := 0, count := 0, gridFirst := 0, width := 0
    earliest := 10 ^ 10, latest := 0, rejectedGps := 0, explicitGaps := 0, utcAnchor := 0
    previousSample := 0, previousElapsed := 0, grid := false }

end Accumulators

section Aggregate

variable {K : Type} [Field K] [LinearOrder K] [FloorRing K] (m : Libm K) (sphere : Sphere K) (below : K → K)

/-- The time groups of the query. -/
def Context.groups (c : Context K) : TimeGroups K :=
  ⟨c.options.query.elapsedStart, c.options.query.timeBucketSeconds⟩

/-- The tile lies in the times of the context, at least in part. -/
def Context.Considers (c : Context K) (t : SpectrumTile K) : Prop :=
  c.options.query.elapsedStart < t.elapsedEndSeconds ∧ t.elapsedStartSeconds < c.stop

instance (c : Context K) (t : SpectrumTile K) : Decidable (c.Considers t) := inferInstanceAs (Decidable (_ ∧ _))

/-- The part of the tile in the times of the context. -/
def Context.clip (c : Context K) (t : SpectrumTile K) : K × K :=
  (max c.options.query.elapsedStart t.elapsedStartSeconds, min c.stop t.elapsedEndSeconds)

/-- `power`: the power of a level. -/
def power (dbfs : K) : K := m.pow10 (dbfs / 10)

namespace AggregateReport

/-- What the report throws when a tile starts before the last one ended. -/
def unordered : String := "Overlapping or unordered spectrum measurements"

/-- What the report throws when two tiles have different bins. -/
def gridChanged : String := "Frequency grid changed within the saved survey"

/-- What the report throws when its time groups would not fit in memory. -/
def timeMemory : String :=
  "Time report exceeds bounded memory; use larger time groups or a shorter selection"

/-- What the report throws when its cells would not fit in memory. -/
def geographicMemory : String :=
  "Geographic report exceeds row or memory bounds; use larger cells or narrow the frequency/time selection"

/-- The grid of the first tile, with the bins that the context selects. Another one has to agree. -/
def fixGrid (c : Context K) (t : SpectrumTile K) (r : AggregateReport K) : Except String (AggregateReport K) :=
  if r.grid = false then
    let first := Analysis.firstBin t.firstCenterHz t.binWidthHz c.lower t.meanDbfs.length
    let last := Analysis.lastBin t.firstCenterHz t.binWidthHz c.upper t.meanDbfs.length first
    .ok { r with
      grid := true, count := t.meanDbfs.length, gridFirst := t.firstCenterHz, width := t.binWidthHz
      utcAnchor := t.utcStartSeconds - t.elapsedStartSeconds
      first, last
      bins := List.replicate (last - first) .empty }
  else do
    reject (r.count ≠ t.meanDbfs.length ∨ |r.gridFirst - t.firstCenterHz| > 1 / 10 ^ 5 ∨
      |r.width - t.binWidthHz| > 1 / 10 ^ 8) gridChanged
    return r

/-- `time_value`, and a change of it. -/
def timeValue (times : List (ℕ × Accumulator K)) (index : ℕ) (f : Accumulator K → Accumulator K) :
    Except String (List (ℕ × Accumulator K)) := do
  reject (SortedMap.find times index = none ∧ times.length ≥ aggregateLimit) timeMemory
  return SortedMap.adjust times index f .empty

/-- The calls of `split_time` with a change of the group of each piece. -/
def spread (c : Context K) (start stop : K) (f : Piece K → Accumulator K → Accumulator K)
    (times : List (ℕ × Accumulator K)) : Except String (List (ℕ × Accumulator K)) := do
  let pieces ← c.groups.splitTime (.exact below) (2 ^ 64) start stop
  pieces.foldlM (fun times piece => timeValue times piece.bucket (f piece)) times

/-- The selected bins. -/
def selected (r : AggregateReport K) : List ℕ := List.range' r.first (r.last - r.first)

/-- The power of the tile does not lie in the selection. -/
def cutPower (c : Context K) (t : SpectrumTile K) : Bool :=
  let query := c.options.query
  (powerSupport t).1 < query.elapsedStart - 1 / 10 ^ 9 ∨ (powerSupport t).2 > c.stop + 1 / 10 ^ 9 ∨
    query.geographicFilter = true ∧ HasFlag t.quality .powerAggregated

/-- The cell of a fix in a geographic report, by its key. -/
def key (cell : Cell K) : ℤ ×ₗ ℤ := toLex cell.key

/-- The exposure of a tile in its geographic cell. -/
def addCell (c : Context K) (t : SpectrumTile K) (seconds : K) (r : AggregateReport K) :
    Except String (AggregateReport K) := do
  let cell := cellFor sphere c.options.geographicCellM t.receiverEnd
  let start := cellFor sphere c.options.geographicCellM t.receiverStart
  let fresh : GeoValue K := ⟨cell, .empty, List.replicate (r.last - r.first) ⟨0, 0, 0⟩⟩
  reject (SortedMap.find r.cells (key cell) = none ∧
    (r.cells.length ≥ aggregateLimit ∨ (r.cells.length + 1) * (r.last - r.first) > rowLimit)) geographicMemory
  let cut := cutPower c t || decide (HasFlag t.quality .powerAggregated)
  let change := fun value : GeoValue K =>
    let common := value.common.add seconds 0 0 (power m t.backgroundDbfs) t cut
    let common := if cell.key ≠ start.key then
        { common with
          boundaryPosition := common.boundaryPosition + seconds
          quality := common.quality ||| SurveyQuality.boundary.mask }
      else common
    { value with
      common
      bins := value.bins.mapIdx fun i bin => { bin with
        powerSum := bin.powerSum + power m (t.meanDbfs.getD (r.first + i) 0) * seconds
        peak := max bin.peak (power m (t.peakDbfs.getD (r.first + i) 0)) } }
  return { r with cells := SortedMap.adjust r.cells (key cell) change fresh }

/-- The exposure of a tile in the groups of its times. -/
def addTimes (c : Context K) (t : SpectrumTile K) (r : AggregateReport K) :
    Except String (AggregateReport K) := do
  let mean := (r.selected.map fun b => power m (t.meanDbfs.getD b 0)).sum
  let peak := (r.selected.map fun b => power m (t.peakDbfs.getD b 0)).sum
  let noise := power m t.backgroundDbfs * (r.last - r.first : ℕ)
  let edge := c.groups.edge (.exact below)
  let times ← spread below c (c.clip t).1 (c.clip t).2
    (fun piece a =>
      let cut := cutPower c t || decide ((powerSupport t).1 < edge piece.bucket - 1 / 10 ^ 9 ∨
        (powerSupport t).2 > edge (piece.bucket + 1) + 1 / 10 ^ 9)
      a.add (piece.upper - piece.lower) mean peak noise t cut) r.times
  return { r with times }

/-- The exposure of a tile. -/
def addTile (c : Context K) (t : SpectrumTile K) (r : AggregateReport K) : Except String (AggregateReport K) :=
  let seconds := (c.clip t).2 - (c.clip t).1
  match c.options.kind with
  | .frequencySummary => .ok { r with
      bins := r.bins.mapIdx fun i a => a.add seconds (power m (t.meanDbfs.getD (r.first + i) 0))
        (power m (t.peakDbfs.getD (r.first + i) 0)) (power m t.backgroundDbfs) t (cutPower c t) }
  | .geographicSummary => addCell m sphere c t seconds r
  | .timeSummary => addTimes m below c t r
  | _ => .ok r

/-- A bin lies outside of the guard around the receiver's centre. -/
def outsideCenter (c : Context K) (r : AggregateReport K) (bin : ℕ) : Bool :=
  ¬ Guarded (r.gridFirst + bin * r.width) r.width c.config.centerHz

/-- The body of the loop over the frames. -/
def addFrame (c : Context K) (t : SpectrumTile K) (r : AggregateReport K) (frame : ℕ) :
    Except String (AggregateReport K) :=
  let frameSeconds : K := t.fftSize / c.config.sampleRate
  let start := max (c.clip t).1 (t.elapsedStartSeconds + frame * frameSeconds)
  let stop := min (c.clip t).2 (t.elapsedStartSeconds + (frame + 1 : ℕ) * frameSeconds)
  if stop ≤ start then .ok r
  else
    let seconds := stop - start
    let active := visitedBins t.activity (frame * ((r.count + 7) / 8)) r.first r.last
    let busy := !active.isEmpty
    let outside := active.any (outsideCenter c r)
    match c.options.kind with
    | .frequencySummary => .ok { r with
        bins := active.foldl (fun bins bin =>
          bins.modify (bin - r.first) (·.addBusy seconds true (outsideCenter c r bin))) r.bins }
    | .geographicSummary =>
      let cell := cellFor sphere c.options.geographicCellM t.receiverEnd
      let change := fun value : GeoValue K => { value with
        bins := active.foldl (fun bins bin =>
          bins.modify (bin - r.first) fun g => { g with busy := g.busy + seconds }) value.bins }
      let fresh : GeoValue K := ⟨cell, .empty, List.replicate (r.last - r.first) ⟨0, 0, 0⟩⟩
      .ok { r with cells := SortedMap.adjust r.cells (key cell) change fresh }
    | .timeSummary => do
      let times ← spread below c start stop
        (fun piece a => a.addBusy (piece.upper - piece.lower) busy outside) r.times
      return { r with times }
    | _ => .ok r

/-- `consume`: a tile of the times of the context. -/
def consume (c : Context K) (r : AggregateReport K) (t : SpectrumTile K) : Except String (AggregateReport K) := do
  if ¬ c.Considers t then return r
  reject (t.firstSample < r.previousSample ∨ t.elapsedStartSeconds < r.previousElapsed - 1 / 10 ^ 8) unordered
  let r ← fixGrid c t { r with previousSample := t.endSample, previousElapsed := t.elapsedEndSeconds }
  if (c.clip t).2 ≤ (c.clip t).1 ∨ r.first = r.last then return r
  let r := { r with earliest := min r.earliest (c.clip t).1, latest := max r.latest (c.clip t).2 }
  if ¬ c.options.query.InRegion t.receiverEnd then
    if hasPosition t.receiverEnd then return r
    else return { r with rejectedGps := r.rejectedGps + ((c.clip t).2 - (c.clip t).1) }
  let r ← addTile m sphere below c t r
  (List.range t.frameCount).foldlM (addFrame sphere below c t) r

/-- `gap`: a gap that meets the selection is counted. -/
def gap (c : Context K) (r : AggregateReport K) (g : CoverageGap K) : AggregateReport K :=
  let start := max c.options.query.elapsedStart g.elapsedStartSeconds
  let stop := min c.stop g.elapsedEndSeconds
  if stop ≤ start then r
  else { r with
    earliest := min r.earliest start
    latest := max r.latest stop
    explicitGaps := r.explicitGaps + (stop - start) }

end AggregateReport

/-- A row of the report: its frequencies, its times and its values. -/
structure ReportRow (K : Type) where
  lowerHz : K
  upperHz : K
  elapsedStart : K
  elapsedEnd : K
  value : Accumulator K
  cell : Option (Cell K)

namespace AggregateReport

/-- What the report throws when no tile meets the selection. -/
def noHistory : String := "No fine spectrum history intersects this selection"

/-- The edge below a bin. -/
def binEdge (r : AggregateReport K) (bin : ℕ) : K := r.gridFirst + (bin - 1 / 2) * r.width

/-- The rows of a geographic cell. -/
def cellRows (c : Context K) (r : AggregateReport K) (item : GeoValue K) : List (ReportRow K) :=
  r.selected.map fun bin =>
    let powers := item.bins.getD (bin - r.first) ⟨0, 0, 0⟩
    let value := { item.common with
      meanPower := powers.powerSum, peakPower := powers.peak, busy := powers.busy }
    let value := if outsideCenter c r bin then { value with outsideBusy := value.busy } else value
    ⟨r.binEdge bin, r.binEdge (bin + 1), r.earliest, r.latest, value, some item.cell⟩

/-- `write`: the rows. -/
def write (c : Context K) (r : AggregateReport K) : Except String (List (ReportRow K)) := do
  reject (r.grid = false ∨ r.first = r.last ∨ r.latest ≤ r.earliest) noHistory
  match c.options.kind with
  | .geographicSummary => return r.cells.flatMap fun e => r.cellRows c e.2
  | .frequencySummary =>
    return r.bins.mapIdx fun i a =>
      ⟨r.binEdge (r.first + i), r.binEdge (r.first + i + 1), r.earliest, r.latest, a, none⟩
  | _ =>
    let rows ← c.groups.timeRows (.exact below) (SortedMap.find r.times) .empty r.earliest r.latest
    return rows.map fun row =>
      ⟨r.binEdge r.first, r.binEdge r.last, row.elapsedStart, row.elapsedEnd, row.value, none⟩

end AggregateReport

end Aggregate

end Report

end OVMesh
