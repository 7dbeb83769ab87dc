import OVMesh.Engine.Config
import OVMesh.Survey

/-!
# Saved surveys

What `SessionStore` reads back: the acquisitions and the decoded rows of the spectrum tables, with
the checks of `storage.cpp` that every reader makes, and the part of a query that is resolved
before the rows are visited.

* `SavedSurvey`: the configuration, the acquisitions, the tiles and the gaps, in the order of ids.
* `validateTile`, `recordConfig`: the checks of one tile row.
* `SurveyQuery`, `resolve`: the selected frequencies and times.
-/

namespace OVMesh

open Checked

variable {K : Type} [Field K] [LinearOrder K]

/-! ## Rows -/

/-- `nonnegative`, for a finite value. -/
def nonnegative (value : K) (field : String) : Except String Unit :=
  reject (value < 0) ("Invalid " ++ field)

/-- `coordinates`, for finite values. -/
def coordinates (latitude longitude : K) : Except String Unit :=
  reject (|latitude| > 90 ∨ |longitude| > 180) "Invalid geographic coordinates"

/-- `validate_fix`: the coordinates, the times, the dilution and the source of a fix. -/
def validateFix (fix : PositionFix K) : Except String Unit := do
  coordinates fix.latitude fix.longitude
  nonnegative fix.utcSeconds "GPS timestamp"
  nonnegative fix.monotonicSeconds "GPS monotonic timestamp"
  forM fix.hdop.toList fun hdop => nonnegative hdop "GPS HDOP"
  reject (fix.satellites > 1000 ∨ fix.source.length > 512) "Invalid GPS metadata"

/-- `level`, for a finite value. -/
def level (value : K) : Except String Unit :=
  reject (value < -300 ∨ value > 100) "Spectrum power outside supported range"

/-- The largest `int64_t`. -/
def int64Max : ℕ := 2 ^ 63 - 1

/-- `interval`: the identity and the times of a record. -/
def interval (id : ℕ) (utcStart utcEnd elapsedStart elapsedEnd : K) : Except String Unit := do
  reject (id = 0 ∨ id > int64Max) "Invalid spectrum record identity"
  forM [utcStart, utcEnd, elapsedStart, elapsedEnd] fun value =>
    nonnegative value "spectrum record time"
  reject (utcEnd ≤ utcStart ∨ elapsedEnd ≤ elapsedStart ∨ elapsedEnd > 10 ^ 10 ∨
      |(utcEnd - utcStart) - (elapsedEnd - elapsedStart)| > 2 / 1000)
    "Inconsistent spectrum time interval"

/-- `validate_tile`. The last check says that the padding bits of every frame are zero. -/
def validateTile [FloorRing K] (t : SpectrumTile K) (c : ReceiverConfig K) : Except String Unit := do
  interval t.id t.utcStartSeconds t.utcEndSeconds t.elapsedStartSeconds t.elapsedEndSeconds
  let bins := t.meanDbfs.length
  let width : K := c.sampleRate / 4096
  let samples : K := (t.endSample - t.firstSample : ℕ)
  reject (t.fftSize ≠ 4096 ∨ t.frameCount = 0 ∨ t.frameCount > 128 ∨ bins = 0 ∨ bins > 4096 ∨
      t.peakDbfs.length ≠ bins ∨ t.activity.length ≠ (bins + 7) / 8 * t.frameCount ∨
      t.firstSample > int64Max ∨ t.endSample > int64Max ∨ t.endSample ≤ t.firstSample ∨
      t.endSample - t.firstSample ≠ t.frameCount * 4096 ∨ |t.binWidthHz - width| > 1 / 10 ^ 7 ∨
      |(t.elapsedEndSeconds - t.elapsedStartSeconds) - samples / c.sampleRate| > 1 / 10 ^ 7 ∨
      t.clippedSamples > t.endSample - t.firstSample ∨ t.quality > 1023)
    "Invalid spectrum tile dimensions, timing, or quality"
  let index := (t.firstCenterHz - ((c.centerHz : K) - (c.sampleRate : K) / 2)) / width
  reject (|index - round index| > 1 / 10 ^ 6 ∨ index < 0 ∨ index + bins > 4096 ∨
      t.firstCenterHz - width / 2 < (c.centerHz : K) - (c.surveySpanHz : K) / 2 - 1 / 10 ^ 5 ∨
      t.firstCenterHz + (bins - 1 / 2) * width >
        (c.centerHz : K) + (c.surveySpanHz : K) / 2 + 1 / 10 ^ 5)
    "Spectrum grid is outside the recorded usable range"
  level t.backgroundDbfs
  forM (t.meanDbfs.zip t.peakDbfs) fun (mean, peak) => do
    level mean
    level peak
    reject (mean > peak + 11 / 1000) "Spectrum mean exceeds peak"
  if bins % 8 ≠ 0 then
    forM (List.range t.frameCount) fun f =>
      reject (t.activity.getD ((f + 1) * ((bins + 7) / 8) - 1) 0 &&& (0xff <<< (bins % 8)) % 256 ≠ 0)
        "Nonzero spectrum bitmap padding"
  forM t.receiverStart.toList validateFix
  forM t.receiverEnd.toList validateFix

/-- A survey file: the rows in the order of their ids, decoded. The receiver positions and, from
version 6 on, the power block of a tile are part of the tile. -/
structure SavedSurvey (K : Type) where
  version : ℕ
  config : ReceiverConfig K
  acquisitions : List (AcquisitionSegment K)
  tiles : List (SpectrumTile K)
  gaps : List (CoverageGap K)

/-- `record_config`: the configuration of the acquisition that holds the interval, with its index.
Two acquisitions are different objects even when they are configured alike. -/
def recordConfig (s : SavedSurvey K) (start stop : K) :
    Except String (Option ℕ × ReceiverConfig K) := do
  match ← acquisitionConfigAt s.acquisitions start with
  | none => return (none, s.config)
  | some (i, segment) =>
    reject (stop < start ∨ segment.finalized = true ∧ stop > segment.elapsedEnd + 1 / 10 ^ 7)
      "Measurement crosses an acquisition boundary"
    return (some i, segment.config)

/-- The checks that `analyze` and `visit_tiles` make of one row, and its acquisition. -/
def readTile [FloorRing K] (s : SavedSurvey K) (t : SpectrumTile K) :
    Except String (Option ℕ × ReceiverConfig K) := do
  let config ← recordConfig s t.elapsedStartSeconds t.elapsedEndSeconds
  validateTile t config.2
  if s.version ≥ 6 then
    let _ ← recordConfig s t.powerElapsedStart t.powerElapsedEnd
  return config

/-- The bin lies inside the receiver-centre guard. -/
def Guarded (center width receiverCenter : K) : Prop :=
  |center - receiverCenter| ≤ 2 * width + 1 / 10 ^ 5

instance (center width receiverCenter : K) : Decidable (Guarded center width receiverCenter) :=
  inferInstanceAs (Decidable (_ ≤ _))

/-! ## Queries -/

/-- Zero frequency bounds mean the recorded usable range, and a zero end means the whole session. -/
structure SurveyQuery (K : Type) where
  lowerHz : K
  upperHz : K
  elapsedStart : K
  elapsedEnd : K
  geographicFilter : Bool
  south : K
  north : K
  west : K
  east : K
  timeBucketSeconds : K
  maxObservations : ℕ
  maxEvents : ℕ

/-- The checks of `analyze`, for finite values. -/
def SurveyQuery.validate (q : SurveyQuery K) : Except String Unit := do
  forM [q.lowerHz, q.upperHz, q.elapsedStart, q.elapsedEnd] fun value =>
    nonnegative value "survey query bound"
  reject (q.upperHz > 0 ∧ q.upperHz ≤ q.lowerHz ∨ q.elapsedEnd > 0 ∧ q.elapsedEnd ≤ q.elapsedStart ∨
      q.timeBucketSeconds < 1 / 1000 ∨ q.timeBucketSeconds > 10 ^ 10 ∨ q.maxObservations > 2000 ∨
      q.maxEvents > 2000)
    "Invalid survey query interval or display bound"
  if q.geographicFilter then
    coordinates q.south q.west
    coordinates q.north q.east
    reject (q.south > q.north ∨ q.west > q.east) "Invalid geographic rectangle"

/-- `in_region`: there is no region, or the position is in it. -/
def SurveyQuery.InRegion (q : SurveyQuery K) (position : Option (PositionFix K)) : Prop :=
  q.geographicFilter = false ∨ ∃ fix ∈ position, fix.valid = true ∧ q.south ≤ fix.latitude ∧
    fix.latitude ≤ q.north ∧ q.west ≤ fix.longitude ∧ fix.longitude ≤ q.east

instance (q : SurveyQuery K) (position : Option (PositionFix K)) : Decidable (q.InRegion position) :=
  inferInstanceAs (Decidable (_ ∨ _))

/-- The edges of the span of a configuration. -/
def ReceiverConfig.lowerEdge (c : ReceiverConfig K) : K := (c.centerHz : K) - (c.surveySpanHz : K) / 2

/-- The upper edge of the survey. -/
def ReceiverConfig.upperEdge (c : ReceiverConfig K) : K := (c.centerHz : K) + (c.surveySpanHz : K) / 2

/-- `lower` of `analyze` -/
def SavedSurvey.lower (s : SavedSurvey K) (q : SurveyQuery K) : K :=
  if q.lowerHz > 0 then q.lowerHz
  else s.acquisitions.foldl (fun x a => min x a.config.lowerEdge) s.config.lowerEdge

/-- `upper` of `analyze` -/
def SavedSurvey.upper (s : SavedSurvey K) (q : SurveyQuery K) : K :=
  if q.upperHz > 0 then q.upperHz
  else s.acquisitions.foldl (fun x a => max x a.config.upperEdge) s.config.upperEdge

/-- `include_extent`: the recorded interval grows. -/
def includeExtent (extent : K × K) (row : K × K) : Except String (K × K) := do
  nonnegative row.1 "recorded elapsed start"
  nonnegative row.2 "recorded elapsed end"
  reject (row.2 ≤ row.1 ∨ row.2 > 10 ^ 10) "Invalid recorded elapsed extent"
  return (min extent.1 row.1, max extent.2 row.2)

/-- The rows of the three extent statements: the first tile, the last one, and the gaps. -/
def SavedSurvey.extents (s : SavedSurvey K) : List (K × K) :=
  let tile := fun t : SpectrumTile K => (t.elapsedStartSeconds, t.elapsedEndSeconds)
  let gaps := match s.gaps with
    | [] => []
    | g :: gs => [(gs.foldl (fun x g => min x g.elapsedStartSeconds) g.elapsedStartSeconds,
        gs.foldl (fun x g => max x g.elapsedEndSeconds) g.elapsedEndSeconds)]
  (s.tiles.head?.map tile).toList ++ (s.tiles.getLast?.map tile).toList ++ gaps

/-- The resolved time selection. -/
structure Resolved (K : Type) where
  start : K
  stop : K
  bucketSeconds : K
  coarsened : Bool

/-- `edge`: the start of a display bucket. -/
def Resolved.edge (r : Resolved K) (index : ℕ) : K := index * r.bucketSeconds + r.start

/-- The time selection within the recorded extent. `nextAbove` is `nextafter` towards infinity. -/
def resolve (nextAbove : K → K) (s : SavedSurvey K) (q : SurveyQuery K) :
    Except String (Resolved K) := do
  let (recordedStart, recordedEnd) ← s.extents.foldlM includeExtent (10 ^ 10, 0)
  if recordedEnd > 0 then
    let start := max recordedStart (min q.elapsedStart recordedEnd)
    let stop := max start (min (if q.elapsedEnd > 0 then q.elapsedEnd else recordedEnd) recordedEnd)
    let span := stop - start
    if q.maxObservations ≠ 0 ∧ span / q.timeBucketSeconds > q.maxObservations then
      return { start, stop, bucketSeconds := nextAbove (span / q.maxObservations), coarsened := true }
    else return { start, stop, bucketSeconds := q.timeBucketSeconds, coarsened := false }
  else return { start := 0, stop := 0, bucketSeconds := q.timeBucketSeconds, coarsened := false }

end OVMesh
