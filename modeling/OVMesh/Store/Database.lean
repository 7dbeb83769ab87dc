import OVMesh.Store.Codec
import OVMesh.Store.Columns

/-!
# The tables of a recording

The rows that `SessionStore` writes, and what `tile_from` makes of a row of the spectrum table. A
column of an integer that the writer has checked is a natural number.

* `SpectrumRow`, `PowerRow`, `SegmentRow`: the rows of the measurements and of the acquisitions.
* `Database`: the tables.
* `tileFrom`: a tile row, joined with its power block and its receiver positions.
-/

namespace OVMesh

open Checked SurveyQuality

variable {K : Type} [Field K] [LinearOrder K]

/-! ## Rows -/

/-- A row of the positions, also an entry of `recent_fixes_`. -/
structure SavedFix (K : Type) where
  fix : PositionFix K
  id : ℕ

/-- A row of the power blocks. -/
structure PowerRow (K : Type) where
  id : ℕ
  firstSample : ℕ
  endSample : ℕ
  utcStart : K
  utcEnd : K
  elapsedStart : K
  elapsedEnd : K
  firstCenter : K
  binWidth : K
  fftSize : ℕ
  frameCount : ℕ
  binCount : ℕ
  meanCdb : List ℕ
  peakCdb : List ℕ

/-- The columns of a tile row that depend on the encoding: the levels and the positions themselves,
or references to a power block and to positions. -/
inductive TilePower (K : Type)
  | detailed (meanCdb peakCdb : List ℕ) (receiverStart receiverEnd : Option (PositionFix K))
  | compact (powerId : ℕ) (startFix endFix : Option ℕ)

/-- A row of the table of spectrum tiles. -/
structure SpectrumRow (K : Type) where
  id : ℕ
  firstSample : ℕ
  endSample : ℕ
  utcStart : K
  utcEnd : K
  elapsedStart : K
  elapsedEnd : K
  firstCenter : K
  binWidth : K
  fftSize : ℕ
  frameCount : ℕ
  binCount : ℕ
  background : K
  clipped : ℕ
  quality : ℕ
  activity : List ℕ
  power : TilePower K

/-- A row of the table of concentrator scans. -/
structure ScanRow (K : Type) where
  id : ℕ
  boardIndex : ℕ
  frequencyHz : ℕ
  filterHz : ℕ
  rssiOffsetDb : K
  utcStart : K
  utcEnd : K
  elapsedStart : K
  elapsedEnd : K
  sampleCount : ℕ
  counts : List ℕ
  receiverFix : Option ℕ

/-- A row of the concentrator packets. -/
structure ConcentratorPacketRow (K : Type) where
  receptionId : ℕ
  boardIndex : ℕ
  rssiDbm : K
  hardwareTimestampUs : ℕ

/-- A row of the table of acquisitions. -/
structure SegmentRow (K : Type) where
  id : ℕ
  elapsedStart : K
  elapsedEnd : K
  finalized : Bool
  synthetic : Bool
  hardware : HardwareReceiver
  center : ℕ
  sampleRate : ℕ
  span : ℕ
  lna : ℕ
  vga : ℕ
  amp : Bool
  threshold : K
  offsetHz : ℤ
  rtlGain : ℤ
  rtlAuto : Bool
  discovery : Bool
  antenna : Text
  receiver : Text
  notes : Text

/-- The row of the session table. -/
structure SessionRow (K : Type) where
  id : Text
  title : Text
  synthetic : ℕ
  center : ℕ
  sampleRate : ℕ
  span : ℕ
  lna : ℕ
  vga : ℕ
  amp : Bool
  threshold : K
  complete : Bool := false
  elapsed : K
  inputSeconds : K
  measurementSeconds : K
  delivered : ℤ := 0
  dropped : ℤ := 0
  receptions : ℤ := 0
  authorized : ℤ := 0
  tuningOffsetHz : ℤ
  discoverLora : Bool

/-- A row of the coverage log. -/
structure CoverageRow (K : Type) where
  elapsed : K
  inputSeconds : K
  measurementSeconds : K
  dropped : ℤ
  state : Text

/-- The tables of a recording. -/
structure Database (K : Type) where
  session : SessionRow K
  /-- The antenna, the receiver and the notes of the survey, with its metrology. -/
  provenance : Text × Text × Text
  /-- The gain and the automatic gain of an RTL-SDR recording. -/
  receiverSetup : Option (ℤ × Bool)
  /-- The profiles and the scan settings of a concentrator recording. -/
  concentratorSetup : Option ConcentratorConfig
  lanes : List LaneConfig
  /-- The tables of the acquisitions exist. -/
  segmented : Bool
  segments : List (SegmentRow K)
  /-- Acquisition, index and lane. -/
  segmentLanes : List (ℕ × ℕ × LaneConfig)
  /-- Acquisition and status. -/
  automaticDecoder : List (ℕ × AutomaticDecoderStatus)
  frequencies : List (FrequencySummary K)
  laneHealth : List (LaneHealth K)
  concentratorHealth : List (ConcentratorHealth K)
  discovery : DiscoveryStatus K
  coverage : List (CoverageRow K)
  positions : List (SavedFix K)
  powerBlocks : List (PowerRow K)
  tiles : List (SpectrumRow K)
  events : List (SpectrumEvent K)
  gaps : List (CoverageGap K)
  scans : List (ScanRow K)
  receptions : List (ReceptionRow K) := []
  concentratorPackets : List (ConcentratorPacketRow K) := []

/-- The identifier that SQLite gives to a new row. -/
def nextRowid (ids : List ℕ) : ℕ := ids.foldl max 0 + 1

theorem le_foldl_max {l : List ℕ} {n a : ℕ} (h : a ≤ n ∨ a ∈ l) : a ≤ l.foldl max n := by
  induction l generalizing n with
  | nil =>
    rcases h with h | h
    · exact h
    · cases h
  | cons b l ih =>
    rw [List.foldl_cons]
    rcases h with h | h
    · exact ih (.inl (h.trans (le_max_left n b)))
    · rcases List.mem_cons.mp h with rfl | h
      · exact ih (.inl (le_max_right n a))
      · exact ih (.inr h)

/-- A new row takes no identifier that is in use. -/
theorem lt_nextRowid {ids : List ℕ} {id : ℕ} (h : id ∈ ids) : id < nextRowid ids :=
  Nat.lt_succ_of_le (le_foldl_max (.inr h))

/-! ## Reading tiles -/

/-- `unsigned_value`: a number of a row, up to a maximum. -/
def unsignedValue (value maximum : ℕ) : Except String ℕ := do
  reject (value > maximum) "Saved integer is outside its allowed range"
  return value

theorem unsignedValue_eq_ok {value maximum out : ℕ} :
    unsignedValue value maximum = .ok out ↔ value ≤ maximum ∧ value = out := by
  simp only [unsignedValue, bind_eq_ok, reject_eq_ok, pure_eq_ok, not_lt, exists_and_left,
    exists_const]

/-- `Statement::blob`: the bytes of a column, which has some but not too many. -/
def blob (bytes : List ℕ) (maximum : ℕ) : Except String (List ℕ) := do
  reject (bytes = [] ∨ bytes.length > maximum) "Invalid spectrum blob size"
  return bytes

/-- `read_fix`: the nine columns are written together, so they are null together. -/
def readFix (columns : Option (PositionFix K)) : Except String (Option (PositionFix K)) := do
  match columns with
  | none => return none
  | some fix =>
    let _ ← unsignedValue fix.satellites 1000
    let _ ← Value.readText (.text fix.source : Value K)
    let fix := { fix with valid := true }
    validateFix fix
    return some fix

/-- The position that a reference joins. -/
def Database.position (db : Database K) (id : Option ℕ) : Option (SavedFix K) :=
  id.bind fun id => db.positions.find? (·.id = id)

variable [FloorRing K]

/-- The part of `tile_from` that is the same in both encodings. -/
def tileColumns (row : SpectrumRow K) (meanCdb peakCdb : List ℕ)
    (receiverStart receiverEnd : Option (PositionFix K)) : Except String (SpectrumTile K) := do
  let id ← unsignedValue row.id int64Max
  let firstSample ← unsignedValue row.firstSample int64Max
  let endSample ← unsignedValue row.endSample int64Max
  let fftSize ← unsignedValue row.fftSize 4096
  let frameCount ← unsignedValue row.frameCount 128
  let bins ← unsignedValue row.binCount 4096
  reject (bins = 0 ∨ frameCount = 0) "Empty spectrum tile"
  let clippedSamples ← unsignedValue row.clipped int64Max
  let quality ← unsignedValue row.quality 511
  let meanDbfs ← dequantize (← blob meanCdb 8192) bins
  let peakDbfs ← dequantize (← blob peakCdb 8192) bins
  let activity ← decodeActivity (← blob row.activity 65537) ((bins + 7) / 8 * frameCount)
  let receiverStart ← readFix receiverStart
  let receiverEnd ← readFix receiverEnd
  return {
    id, firstSample, endSample, fftSize, frameCount, clippedSamples, quality, meanDbfs, peakDbfs,
    activity, receiverStart, receiverEnd
    utcStartSeconds := row.utcStart, utcEndSeconds := row.utcEnd
    elapsedStartSeconds := row.elapsedStart, elapsedEndSeconds := row.elapsedEnd
    powerElapsedStart := row.elapsedStart, powerElapsedEnd := row.elapsedEnd
    firstCenterHz := row.firstCenter, binWidthHz := row.binWidth
    backgroundDbfs := row.background }

/-- The checks that `tile_from` makes of the power block of a tile. -/
def checkPower (t : SpectrumTile K) (p : PowerRow K) (sampleRate : ℕ) : Except String Unit := do
  let first ← unsignedValue p.firstSample int64Max
  let last ← unsignedValue p.endSample int64Max
  let frames ← unsignedValue p.frameCount 5000
  let count ← unsignedValue p.binCount 4096
  let id ← unsignedValue p.id int64Max
  interval id p.utcStart p.utcEnd p.elapsedStart p.elapsedEnd
  -- The difference of the sample coordinates is unsigned.
  let samples : ℤ := ((last : ℤ) - first) % 2 ^ 64
  reject (p.elapsedStart > t.elapsedStartSeconds + 1 / 10 ^ 8 ∨
      p.elapsedEnd < t.elapsedEndSeconds - 1 / 10 ^ 8 ∨
      p.elapsedEnd - p.elapsedStart > 1 + 1 / 10 ^ 7 ∨ first > t.firstSample ∨ last < t.endSample ∨
      samples ≠ frames * 4096 ∨ count ≠ t.meanDbfs.length ∨ p.firstCenter ≠ t.firstCenterHz ∨
      p.binWidth ≠ t.binWidthHz ∨ p.fftSize ≠ 4096 ∨
      |p.elapsedEnd - p.elapsedStart - samples / sampleRate| > 1 / 10 ^ 7)
    "Invalid compact power block or receiver reference"

/-- `tile_from` for a row of the table. A reference that joins no row leaves null columns, which the
typed reads reject. -/
def tileFrom (db : Database K) (row : SpectrumRow K) (c : ReceiverConfig K) :
    Except String (SpectrumTile K) := do
  match row.power with
  | .detailed meanCdb peakCdb receiverStart receiverEnd =>
    let t ← tileColumns row meanCdb peakCdb receiverStart receiverEnd
    validateTile t c
    return t
  | .compact powerId startFix endFix =>
    match db.powerBlocks.find? (·.id = powerId) with
    | none => throw "Invalid spectrum blob type"
    | some p =>
      let t ← tileColumns row p.meanCdb p.peakCdb ((db.position startFix).map (·.fix))
        ((db.position endFix).map (·.fix))
      checkPower t p c.sampleRate
      reject ((startFix.isSome ∧ (db.position startFix).isNone) ∨
          (endFix.isSome ∧ (db.position endFix).isNone))
        "Invalid compact power block or receiver reference"
      let t := { t with
        powerElapsedStart := p.elapsedStart
        powerElapsedEnd := p.elapsedEnd
        quality := t.quality ||| powerAggregated.mask }
      validateTile t c
      return t

end OVMesh
