import OVMesh.Lib.Binary64
import OVMesh.Lib.Keyed
import OVMesh.Lib.Stateful
import OVMesh.Spectrum.Params
import OVMesh.Store.Acquisitions

/-!
# The recording store

`SessionStore` of `storage.cpp` while it records: the connection with its open transaction, the
caches in memory, and the methods. A method that throws keeps what it changed before.

* `PowerBlock`, `SessionStore`: the caches and the store.
* `create`: a new recording.
* `appendTile`, `appendGap`, `appendFix`, `appendScan`, `appendEvent`, `beginAcquisition`, `update`.
-/

namespace OVMesh

open Checked Keyed Stateful SurveyQuality
open SpectrumProcessor (Libm)

/-- The aggregate of the tiles of the open power block. -/
structure PowerBlock (K : Type) where
  id : ℕ
  firstSample : ℕ
  endSample : ℕ
  frames : ℕ
  utcStart : K
  utcEnd : K
  elapsedStart : K
  elapsedEnd : K
  firstCenter : K
  binWidth : K
  powerSum : List K
  peak : List K
  dirty : Bool

/-- The statements of an append that the database may refuse. A refused `BEGIN` leaves everything as it
was. -/
inductive Statement
  | powerBlock | startFix | endFix | row
  deriving DecidableEq

/-- An open store. `committed` is what `ROLLBACK` restores, and `refused` the statement that the
database refuses as things stand, with its message. -/
structure SessionStore (K : Type) where
  db : Database K
  committed : Database K
  refused : Option (Statement × String)
  schemaVersion : ℕ
  readonly : Bool
  pending : Bool
  recordedConfig : ReceiverConfig K
  acquisitionExtension : Bool
  acquisitionId : ℕ
  previousTileEnd : ℕ
  previousTileId : ℕ
  previousTileElapsedEnd : K
  powerBlock : PowerBlock K
  recentFixes : List (SavedFix K)

variable {K : Type} [Field K] [LinearOrder K]

/-! ## Power blocks -/

/-- `PowerBlock{}` with an identifier. -/
def PowerBlock.empty (id : ℕ) : PowerBlock K where
  id := id
  firstSample := 0
  endSample := 0
  frames := 0
  utcStart := 0
  utcEnd := 0
  elapsedStart := 0
  elapsedEnd := 0
  firstCenter := 0
  binWidth := 0
  powerSum := []
  peak := []
  dirty := false

/-- A tile belongs to the open block. -/
def PowerBlock.Continues (b : PowerBlock K) (tile : SpectrumTile K) : Prop :=
  ¬ (b.id = 0 ∨ b.frames = 0 ∨ b.endSample ≠ tile.firstSample ∨
    |b.elapsedEnd - tile.elapsedStartSeconds| > 1 / 10 ^ 8 ∨ b.firstCenter ≠ tile.firstCenterHz ∨
    b.binWidth ≠ tile.binWidthHz ∨ b.peak.length ≠ tile.meanDbfs.length ∨
    tile.elapsedEndSeconds - b.elapsedStart > 1 + 1 / 10 ^ 8)

instance (b : PowerBlock K) (tile : SpectrumTile K) : Decidable (b.Continues tile) :=
  inferInstanceAs (Decidable (¬ _))

/-- A new block at a tile. -/
def PowerBlock.start (id : ℕ) (tile : SpectrumTile K) : PowerBlock K :=
  { PowerBlock.empty id with
    firstSample := tile.firstSample
    utcStart := tile.utcStartSeconds
    elapsedStart := tile.elapsedStartSeconds
    firstCenter := tile.firstCenterHz
    binWidth := tile.binWidthHz
    powerSum := List.replicate tile.meanDbfs.length 0
    peak := List.replicate tile.meanDbfs.length (-300) }

/-- The block with one more tile. -/
def PowerBlock.add (m : Libm K) (b : PowerBlock K) (tile : SpectrumTile K) : PowerBlock K :=
  { b with
    endSample := tile.endSample
    utcEnd := tile.utcEndSeconds
    elapsedEnd := tile.elapsedEndSeconds
    frames := b.frames + tile.frameCount
    powerSum := List.zipWith (fun sum mean => sum + m.pow10 (mean / 10) * tile.frameCount)
      b.powerSum tile.meanDbfs
    peak := List.zipWith max b.peak tile.peakDbfs
    dirty := true }

/-- The mean levels that are saved of a block, each a `float`. -/
def PowerBlock.mean [FloorRing K] (m : Libm K) (b : PowerBlock K) : List K :=
  b.powerSum.map fun sum => Binary32.nearest (10 * m.log10 (sum / b.frames))

/-! ## Statements -/

namespace SessionStore

/-- A method of the store. -/
abbrev Method (K : Type) := EStateM String (SessionStore K)

omit [Field K] [LinearOrder K] in
/-- A write to the tables. -/
def write (f : Database K → Database K) : Method K Unit :=
  modify fun s => { s with db := f s.db }

omit [Field K] [LinearOrder K] in
/-- The database refuses a statement. -/
def Refuses (s : SessionStore K) (statement : Statement) : Prop :=
  s.refused.map Prod.fst = some statement

instance (s : SessionStore K) (statement : Statement) : Decidable (s.Refuses statement) :=
  inferInstanceAs (Decidable (_ = _))

omit [Field K] [LinearOrder K] in
/-- A statement before what it writes. One that is refused changes nothing. -/
def execute (statement : Statement) : Method K Unit := do
  let s ← get
  check (reject (s.Refuses statement) ((s.refused.map Prod.snd).getD ""))

omit [Field K] [LinearOrder K] in
/-- A statement that violates a constraint. -/
def constraint (bad : Prop) [Decidable bad] : Method K Unit :=
  check (reject bad "Session database operation failed (code 19)")

omit [Field K] [LinearOrder K] in
/-- `Statement::bind` of a blob. -/
def bindBlob (bytes : List ℕ) : Except String Unit :=
  reject (bytes = [] ∨ bytes.length > 65537) "Invalid spectrum blob length"

omit [Field K] [LinearOrder K] in
/-- `Statement::bind` of a position. -/
def bindFix (position : Option (PositionFix K)) : Except String Unit :=
  forM position.toList fun f => bindText f.source

omit [Field K] [LinearOrder K] in
/-- `begin_batch`: the first write of a batch begins a transaction. -/
def beginBatch : Method K Unit := do
  let s ← get
  check (reject (s.readonly = true ∨
    s.schemaVersion ≠ 5 ∧ s.schemaVersion ≠ 6 ∧ s.schemaVersion ≠ 7) "Survey is read-only")
  if s.pending = false then set { s with committed := s.db, pending := true }

omit [Field K] [LinearOrder K] in
/-- `INSERT … ON CONFLICT(id) DO UPDATE` of a power block. -/
def upsertPower (rows : List (PowerRow K)) (row : PowerRow K) : List (PowerRow K) :=
  upsert (·.id) rows row

/-- The row of a block. -/
def powerRow (b : PowerBlock K) (meanCdb peakCdb : List ℕ) : PowerRow K where
  id := b.id
  firstSample := b.firstSample
  endSample := b.endSample
  utcStart := b.utcStart
  utcEnd := b.utcEnd
  elapsedStart := b.elapsedStart
  elapsedEnd := b.elapsedEnd
  firstCenter := b.firstCenter
  binWidth := b.binWidth
  fftSize := 4096
  frameCount := b.frames
  binCount := b.powerSum.length
  meanCdb := meanCdb
  peakCdb := peakCdb

/-- `save_power_block`: the block with its levels as they are stored, when it has changed. -/
def savePowerBlock [FloorRing K] (m : Libm K) : Method K Unit := do
  let b := (← get).powerBlock
  if b.id ≠ 0 ∧ b.dirty = true then
    let meanCdb ← check (quantize (b.mean m))
    let peakCdb ← check (quantize b.peak)
    check (bindBlob meanCdb)
    check (bindBlob peakCdb)
    execute .powerBlock
    write fun db => { db with powerBlocks := upsertPower db.powerBlocks (powerRow b meanCdb peakCdb) }
    modify fun s => { s with powerBlock := { b with dirty := false } }

/-- The comparison of `ensure_fix`: every field but the validity. -/
def SameFix (a f : PositionFix K) : Prop :=
  a.latitude = f.latitude ∧ a.longitude = f.longitude ∧ a.altitudeM = f.altitudeM ∧
    a.utcSeconds = f.utcSeconds ∧ a.monotonicSeconds = f.monotonicSeconds ∧ a.manual = f.manual ∧
    a.source = f.source ∧ a.hdop = f.hdop ∧ a.satellites = f.satellites

instance (a f : PositionFix K) : Decidable (SameFix a f) := inferInstanceAs (Decidable (_ ∧ _))

/-- The identifier of a position, and the table with its row. -/
def placeFix (positions : List (SavedFix K)) (f : PositionFix K) : ℕ × List (SavedFix K) :=
  match positions.find? fun row => SameFix row.fix f with
  | some row => (row.id, positions)
  | none =>
    let id := nextRowid (positions.map (·.id))
    (id, positions ++ [⟨f, id⟩])

/-- `push_back`, then `pop_front` of more than 128 entries. -/
def pushRecent (recent : List (SavedFix K)) (saved : SavedFix K) : List (SavedFix K) :=
  let recent := recent ++ [saved]
  if recent.length > 128 then recent.tail else recent

/-- `ensure_fix`, whose statements are one step: a new entry is bound and then looked up or inserted. -/
def ensureFix (statement : Statement) (f : PositionFix K) : Method K ℕ := do
  check (validateFix f)
  let s ← get
  match s.recentFixes.find? fun saved => SameFix saved.fix f with
  | some saved => return saved.id
  | none =>
    check (bindText f.source)
    execute statement
    let placed := placeFix s.db.positions f
    set { s with
      db := { s.db with positions := placed.2 }
      recentFixes := pushRecent s.recentFixes ⟨f, placed.1⟩ }
    return placed.1

/-- The reference to a position of a compact tile. -/
def fixReference (statement : Statement) (position : Option (PositionFix K)) :
    Method K (Option ℕ) := do
  match position with
  | some f => if f.valid then return some (← ensureFix statement f) else return none
  | none => return none

/-- `fix_values`: the fix of a row, when it is valid; an invalid one is left out. -/
def fixValues (position : Option (PositionFix K)) : Except String (Option (PositionFix K)) := do
  match position with
  | some f =>
    if f.valid then
      validateFix f
      return some f
    else return none
  | none => return none

/-! ## Measurements -/

/-- The columns of a tile, with those of its encoding. -/
def tileRow (tile : SpectrumTile K) (power : TilePower K) : SpectrumRow K where
  id := tile.id
  firstSample := tile.firstSample
  endSample := tile.endSample
  utcStart := tile.utcStartSeconds
  utcEnd := tile.utcEndSeconds
  elapsedStart := tile.elapsedStartSeconds
  elapsedEnd := tile.elapsedEndSeconds
  firstCenter := tile.firstCenterHz
  binWidth := tile.binWidthHz
  fftSize := tile.fftSize
  frameCount := tile.frameCount
  binCount := tile.meanDbfs.length
  background := tile.backgroundDbfs
  clipped := tile.clippedSamples
  quality := tile.quality
  activity := encodeActivity tile.activity
  power := power

/-- A reference names a row. -/
def Joins (ids : List ℕ) (reference : Option ℕ) : Prop := ∀ id ∈ reference, id ∈ ids

instance (ids : List ℕ) (reference : Option ℕ) : Decidable (Joins ids reference) :=
  inferInstanceAs (Decidable (∀ _ ∈ _, _))

/-- The block of a tile, opened or continued, and its row. -/
def advanceBlock [FloorRing K] (m : Libm K) (tile : SpectrumTile K) : Method K Unit := do
  let b := (← get).powerBlock
  if ¬ b.Continues tile then
    savePowerBlock m
    modify fun s => { s with powerBlock := PowerBlock.start (s.powerBlock.id + 1) tile }
  modify fun s => { s with powerBlock := s.powerBlock.add m tile }
  savePowerBlock m

/-- `append(SpectrumTile)`: the checks, the power block that the tile belongs to, and the row of the tile.
-/
def appendTile [FloorRing K] (m : Libm K) (tile : SpectrumTile K) : Method K Unit := do
  let s ← get
  check (reject (s.schemaVersion = 7) "Concentrator scans cannot create FFT or waveform records")
  check (validateTile tile s.recordedConfig)
  check (reject (HasFlag tile.quality powerAggregated)
    "Already aggregated power cannot be recorded as a fine input tile")
  check (reject (s.schemaVersion ≥ 6 ∧ tile.id ≤ s.previousTileId ∨
      tile.firstSample < s.previousTileEnd ∨
      tile.elapsedStartSeconds < s.previousTileElapsedEnd - 1 / 10 ^ 8)
    "Overlapping or unordered spectrum tiles")
  beginBatch
  if s.schemaVersion ≥ 6 then
    advanceBlock m tile
    let powerId := (← get).powerBlock.id
    let startFix ← fixReference .startFix tile.receiverStart
    let endFix ← fixReference .endFix tile.receiverEnd
    check (bindBlob (encodeActivity tile.activity))
    execute .row
    let t ← get
    constraint (powerId ∉ t.db.powerBlocks.map (·.id) ∨
      ¬ Joins (t.db.positions.map (·.id)) startFix ∨ ¬ Joins (t.db.positions.map (·.id)) endFix ∨
      tile.id ∈ t.db.tiles.map (·.id))
    write fun db => { db with
      tiles := db.tiles ++ [tileRow tile (.compact powerId startFix endFix)] }
  else
    let meanCdb ← check (quantize tile.meanDbfs)
    let peakCdb ← check (quantize tile.peakDbfs)
    let receiverStart ← check (fixValues tile.receiverStart)
    let receiverEnd ← check (fixValues tile.receiverEnd)
    check (bindBlob meanCdb)
    check (bindBlob peakCdb)
    check (bindBlob (encodeActivity tile.activity))
    check (bindFix receiverStart)
    check (bindFix receiverEnd)
    execute .row
    constraint (tile.id ∈ (← get).db.tiles.map (·.id))
    write fun db => { db with
      tiles := db.tiles ++ [tileRow tile (.detailed meanCdb peakCdb receiverStart receiverEnd)] }
  modify fun s => { s with
    previousTileId := tile.id
    previousTileEnd := tile.endSample
    previousTileElapsedEnd := tile.elapsedEndSeconds }

/-- `append(SpectrumEvent)`: the checks and the row of the event. -/
def appendEvent (event : SpectrumEvent K) : Method K Unit := do
  let s ← get
  check (reject (s.schemaVersion = 7) "Concentrator scans cannot create FFT or waveform records")
  check (validateEvent event s.recordedConfig)
  let receiverStart ← check (fixValues event.receiverStart)
  let receiverEnd ← check (fixValues event.receiverEnd)
  beginBatch
  check (bindFix receiverStart)
  check (bindFix receiverEnd)
  execute .row
  constraint (event.id ∈ s.db.events.map (·.id))
  write fun db => { db with events := db.events ++ [{ event with receiverStart, receiverEnd }] }

/-- A new power block is started at the next tile, under the next identifier. -/
def resetBlock : Method K Unit :=
  modify fun s => { s with powerBlock := PowerBlock.empty s.powerBlock.id }

/-- `append(CoverageGap)`: the checks, the end of the power block, and the row of the gap. -/
def appendGap [FloorRing K] (m : Libm K) (gap : CoverageGap K) : Method K Unit := do
  let s ← get
  check (reject (s.schemaVersion = 7) "Concentrator scan gaps have no SDR sample count")
  check (validateGap gap)
  beginBatch
  if s.schemaVersion ≥ 6 then
    savePowerBlock m
    resetBlock
  execute .row
  constraint (gap.id ∈ s.db.gaps.map (·.id))
  write fun db => { db with gaps := db.gaps ++ [gap] }

/-- `append(PositionFix)`: a valid fix gets a row, and one that is not valid has none. -/
def appendFix (f : PositionFix K) : Method K Unit := do
  if f.valid then
    check (validateFix f)
    beginBatch
    let s ← get
    if s.schemaVersion ≥ 6 then
      let _ ← ensureFix .startFix f
    else
      check (bindText f.source)
      execute .row
      write fun db => { db with
        positions := db.positions ++ [⟨f, nextRowid (db.positions.map (·.id))⟩] }

/-- The row of a scan, with its histogram in little-endian words. -/
def scanRow (scan : ConcentratorScan K) (receiverFix : Option ℕ) : ScanRow K where
  id := scan.id
  boardIndex := scan.boardIndex
  frequencyHz := scan.frequencyHz
  filterHz := scan.filterBandwidthHz
  rssiOffsetDb := scan.rssiOffsetDb
  utcStart := scan.utcStartSeconds
  utcEnd := scan.utcEndSeconds
  elapsedStart := scan.elapsedStartSeconds
  elapsedEnd := scan.elapsedEndSeconds
  sampleCount := scan.sampleCount
  counts := scan.counts.flatMap fun n => (List.range 4).map fun j => n / 256 ^ j % 256
  receiverFix := receiverFix

/-- The reference to a position of a scan, which has been checked to be valid. -/
def scanReference (position : Option (PositionFix K)) : Method K (Option ℕ) := do
  match position with
  | some f => return some (← ensureFix .startFix f)
  | none => return none

omit [Field K] [LinearOrder K] in
/-- The boards with a profile. -/
def boardCount (db : Database K) : ℕ := (db.concentratorSetup.map (·.boards.length)).getD 0

/-- `append(ConcentratorScan)`. The identities increase, so the newest row is the last one. -/
def appendScan (scan : ConcentratorScan K) : Method K Unit := do
  let s ← get
  check (reject (s.schemaVersion ≠ 7) "RSSI scans require a concentrator recording")
  check (validateConcentratorScan scan s.recordedConfig)
  beginBatch
  check (reject (∃ newest ∈ s.db.scans.getLast?, scan.id ≤ newest.id)
    "Concentrator scan identities must increase")
  let board := s.db.scans.filter fun row => row.boardIndex = scan.boardIndex
  check (reject (∃ last ∈ board.getLast?,
      scan.id ≤ last.id ∨ scan.elapsedStartSeconds < last.elapsedEnd)
    "Concentrator scans overlap or are out of order")
  let receiverFix ← scanReference scan.receiverPosition
  execute .row
  let t ← get
  constraint (scan.id ∈ t.db.scans.map (·.id) ∨ scan.boardIndex ≥ boardCount t.db ∨
    ¬ Joins (t.db.positions.map (·.id)) receiverFix)
  write fun db => { db with scans := db.scans ++ [scanRow scan receiverFix] }

/-! ## Acquisitions and checkpoints -/

omit [Field K] [LinearOrder K] in
/-- `save_automatic`: the counters of an acquisition replace those that it had. -/
def saveAutomatic (rows : List (ℕ × AutomaticDecoderStatus)) (id : ℕ) (s : AutomaticDecoderStatus) :
    Except String (List (ℕ × AutomaticDecoderStatus)) := do
  validateAutomatic s
  return rows.filter (·.1 ≠ id) ++ [(id, s)]

/-- `enable_acquisitions`: the recording gets the tables of acquisitions, unless tiles were stored without
them. -/
def enableAcquisitions : Method K Unit := do
  let s ← get
  check (reject (s.readonly = true) "Acquisition history requires a new writable recording")
  if s.acquisitionExtension = false then
    check (reject (s.db.tiles ≠ [])
      "Cannot retrofit acquisition provenance onto existing measurements")
    beginBatch
    modify fun s => { s with
      db := { s.db with segmented := true, frequencies := [] }
      pending := false
      acquisitionExtension := true }

/-- The checks of `begin_acquisition` before it changes anything. -/
def checkAcquisition (s : SessionStore K) (segment : AcquisitionSegment K) : Except String Unit := do
  reject (s.acquisitionExtension = false ∨ s.readonly = true)
    "This recording cannot be resumed without acquisition provenance"
  validateAcquisition segment s.recordedConfig
  reject (∃ previous ∈ s.db.segments.getLast?, segment.id ≠ previous.id + 1 ∨
      previous.finalized = false ∨ segment.elapsedStart < previous.elapsedEnd - 1 / 10 ^ 8)
    "Previous acquisition must be finalized before resuming"
  reject (s.acquisitionId = 0 ∧ segment.id ≠ 1) "New acquisition history must start at one"

/-- `begin_acquisition`: the power block is stored, and the next acquisition opened. -/
def beginAcquisition [FloorRing K] (m : Libm K) (segment : AcquisitionSegment K) : Method K Unit := do
  check (checkAcquisition (← get) segment)
  beginBatch
  savePowerBlock m
  resetBlock
  let c := segment.config
  let t ← get
  match c.activityThresholdDbfs with
  | none => throw "Non-finite survey measurement rejected"
  | some threshold =>
    constraint (segment.id ∈ t.db.segments.map (·.id))
    forM [c.antennaDescription, c.receiverDescription, c.surveyNotes] fun text => check (bindText text)
    write fun db => { db with segments := db.segments ++ [segmentRow segment threshold] }
    forM c.lanes.zipIdx fun (l, i) => do
      forM [l.label, l.channelName, l.protocol] fun text => check (bindText text)
      constraint ((segment.id, i) ∈ (← get).db.segmentLanes.map fun row => (row.1, row.2.1))
      write fun db => { db with segmentLanes := db.segmentLanes ++ [(segment.id, i, l)] }
    let decoders := t.db.automaticDecoder.filter (·.1 ≠ 0)
    let decoders ← check (saveAutomatic decoders segment.id
      { available := true, enabled := c.automaticDecode })
    write fun db => { db with automaticDecoder := decoders }
    modify fun s => { s with recordedConfig := c, acquisitionId := segment.id }
    write fun db => { db with
      session := { db.session with
        complete := false
        elapsed := max db.session.elapsed segment.elapsedEnd }
      discovery := { enabled := c.discoverLora } }
    modify fun s => { s with pending := false }

omit [Field K] [LinearOrder K] in
/-- The upsert of the frequency table, whose key is the centre or, with acquisitions, the centre
and the width. -/
def upsertFrequency (segmented : Bool) (rows : List (FrequencySummary K)) (b : FrequencySummary K) :
    List (FrequencySummary K) :=
  upsert (fun r => (r.centerHz, if segmented then some r.widthHz else none)) rows b

/-- The rows of the concentrator health of a checkpoint. -/
def checkHealth (t : SessionStore K) (s : Snapshot K) : Except String Unit := do
  if t.schemaVersion = 7 then
    reject (s.concentratorHealth.length > t.recordedConfig.concentrators.boards.length)
      "Too many concentrator health records"
    forM s.concentratorHealth.zipIdx fun (h, i) => do
      nonnegative h.readyElapsedSeconds "concentrator ready time"
      nonnegative h.lastUpdateElapsedSeconds "concentrator update time"
      reject (h.readyElapsedSeconds > 10 ^ 10 ∨ h.lastUpdateElapsedSeconds > 10 ^ 10 ∨
          h.scans > int64Max ∨ h.rssiSamples > int64Max ∨ h.receptions > int64Max ∨
          h.crcFailures > int64Max)
        "Invalid concentrator health counters"
      reject (i ≥ boardCount t.db) "Session database operation failed (code 19)"

/-- The writes of `update` inside its transaction. `fault` is a failure of the database itself. -/
def updateRows (t : SessionStore K) (s : Snapshot K) (final : Bool) (fault : Option String) :
    Except String (Database K) := do
  let db := t.db
  checkHealth t s
  let session := { db.session with
    complete := final && !s.incomplete
    elapsed := s.elapsedSeconds
    inputSeconds := s.inputSeconds
    measurementSeconds := s.measurementSeconds
    delivered := toInt64 s.deliveredSamples
    dropped := toInt64 s.droppedSamples
    receptions := toInt64 s.totalReceptions
    authorized := toInt64 s.classifiedReceptions }
  let segments := if t.acquisitionExtension = true ∧ t.acquisitionId ≠ 0 then
      db.segments.map fun row => if row.id = t.acquisitionId then
        { row with elapsedEnd := s.elapsedSeconds, finalized := final } else row
    else db.segments
  forM s.frequencies validateBin
  let automaticDecoder ← saveAutomatic db.automaticDecoder t.acquisitionId s.automaticDecoder
  forM s.laneHealth fun l => do
    nonnegative l.processedSeconds "decoder observed time"
    bindText l.label
    bindText l.state
  let state : Text := if t.schemaVersion = 7 then
      (if final then "Concentrator stopped" else "Concentrator receiving").toUTF8.toList
    else s.state
  bindText state
  match fault with
  | some message => throw message
  | none => return { db with
      session, segments, automaticDecoder
      concentratorHealth := if t.schemaVersion = 7 then s.concentratorHealth
        else db.concentratorHealth
      frequencies := s.frequencies.foldl (upsertFrequency t.acquisitionExtension) db.frequencies
      laneHealth := s.laneHealth
      discovery := s.discovery
      coverage := db.coverage ++ [{
        elapsed := s.elapsedSeconds, inputSeconds := s.inputSeconds
        measurementSeconds := s.measurementSeconds, dropped := toInt64 s.droppedSamples, state }] }

/-- The checks of `update` before its transaction. -/
def checkUpdate (t : SessionStore K) (s : Snapshot K) : Except String Unit := do
  nonnegative s.elapsedSeconds "session elapsed time"
  nonnegative s.inputSeconds "session input time"
  nonnegative s.measurementSeconds "session measurement time"
  validateDiscoveryStatus s.discovery t.recordedConfig.discoverLora
  reject (s.automaticDecoder.enabled ≠ t.recordedConfig.automaticDecode)
    "Automatic decoding mode differs from acquisition"
  reject (t.schemaVersion = 7 ∧ (s.inputSeconds ≠ 0 ∨ s.measurementSeconds ≠ 0 ∨
      s.deliveredSamples ≠ 0 ∨ s.droppedSamples ≠ 0 ∨ ¬ s.frequencies.isEmpty ∨
      ¬ s.laneHealth.isEmpty ∨ s.spectrumTiles ≠ 0 ∨ s.spectrumEvents ≠ 0 ∨
      s.discovery.enabled = true))
    "Concentrator scans cannot be reported as continuous SDR measurements"

/-- `update`: the rows that a snapshot changes, committed together or not at all. -/
def update (s : Snapshot K) (final : Bool) (fault : Option String) : Method K Unit := do
  check (checkUpdate (← get) s)
  beginBatch
  let t ← get
  match updateRows t s final fault with
  | .ok db => set { t with db, pending := false }
  | .error e =>
    set { t with db := t.committed, pending := false }
    throw e

/-! ## Recordings -/

/-- The checks of `create`. -/
def checkConfig (c : ReceiverConfig K) : Except String Unit := do
  if c.Rak then
    validateConcentratorConfig c.concentrators c.centerHz c.surveySpanHz c.tuningOffsetHz false
    reject (c.discoverLora = true ∨ c.sampleRate ≠ 0 ∨ c.lanes ≠ [])
      "Concentrator configuration must not claim SDR sampling or software discovery"
  let _ ← tunedCenterHz c
  reject (c.automaticDecode = true ∧ c.discoverLora = false)
    "Automatic decoding requires waveform discovery"
  reject (¬ c.Rak ∧ (c.sampleRate < 1000000 ∨ c.sampleRate > 20000000 ∨ c.surveySpanHz = 0 ∨
      c.surveySpanHz > c.sampleRate) ∨ c.antennaDescription.length > 512 ∨
      c.receiverDescription.length > 512 ∨ c.surveyNotes.length > 2048)
    "Invalid survey configuration or notes"
  reject (c.Rtl ∧ (c.sampleRate ≠ 1000000 ∧ c.sampleRate ≠ 2000000 ∨ c.amplifier = true ∨
      c.surveySpanHz < 500000 ∨ c.surveySpanHz > c.sampleRate * 4 / 5 ∨
      c.discoverLora = true ∧ (c.sampleRate ≠ 2000000 ∨ c.surveySpanHz > 1500000) ∨
      c.rtlGainTenthsDb < -100 ∨ c.rtlGainTenthsDb > 600))
    "Invalid RTL-SDR recording configuration"

/-- `create`: the store of a new recording. -/
def create (c : ReceiverConfig K) (id : Text) : Except String (SessionStore K) := do
  checkConfig c
  bindText id
  bindText c.sessionTitle
  forM c.lanes fun l => do
    forM [l.label, l.channelName, l.protocol] bindText
  forM [c.antennaDescription, c.receiverDescription, c.surveyNotes] bindText
  match c.activityThresholdDbfs with
  | none => throw "Non-finite survey measurement rejected"
  | some threshold =>
    let decoder : AutomaticDecoderStatus := { available := true, enabled := c.automaticDecode }
    let automaticDecoder ← saveAutomatic [] 0 decoder
    let session : SessionRow K := {
      id, threshold
      title := c.sessionTitle
      synthetic := if c.Rak then 3 else if c.Rtl then 2 else if c.synthetic then 1 else 0
      center := c.centerHz, sampleRate := c.sampleRate, span := c.surveySpanHz
      lna := c.lnaGain, vga := c.vgaGain, amp := c.amplifier
      elapsed := 0, inputSeconds := 0, measurementSeconds := 0
      tuningOffsetHz := c.tuningOffsetHz, discoverLora := c.discoverLora }
    let db : Database K := {
      session, automaticDecoder
      provenance := (c.antennaDescription, c.receiverDescription, c.surveyNotes)
      receiverSetup := if c.Rtl then some (c.rtlGainTenthsDb, c.rtlAutoGain) else none
      concentratorSetup := if c.Rak then some c.concentrators else none
      lanes := c.lanes
      segmented := false, segments := [], segmentLanes := []
      frequencies := [], laneHealth := [], concentratorHealth := []
      discovery := { enabled := c.discoverLora }
      coverage := [], positions := [], powerBlocks := [], tiles := [], events := [], gaps := []
      scans := [] }
    return {
      db, committed := db, refused := none
      schemaVersion := if c.Rak then 7 else if c.compactRecording then 6 else 5
      readonly := false, pending := false, recordedConfig := c
      acquisitionExtension := false, acquisitionId := 0
      previousTileEnd := 0, previousTileId := 0, previousTileElapsedEnd := 0
      powerBlock := PowerBlock.empty 0, recentFixes := [] }

end SessionStore

end OVMesh
