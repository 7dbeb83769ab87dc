import OVMesh.Store.Database

/-!
# The acquisition history

The acquisitions of a recording as `storage.cpp` checks, writes and reads them.

* `validateAcquisition`: the checks of one acquisition, made by the writer and by the reader.
* `segmentRow`, `readSegment`: a row of the table and the acquisition that comes back.
* `Database.acquisitions`: the history with the checks across its rows.
-/

namespace OVMesh

open Checked

variable {K : Type} [Field K] [LinearOrder K]

/-- The loop of `validate_acquisition` over the lanes. -/
def validateAcquisitionLane (l : LaneConfig) : Except String Unit :=
  reject (l.label.length > 160 ∨ l.channelName.length > 160 ∨ validUtf8 l.label = false ∨
      validUtf8 l.channelName = false ∨ l.frequencyHz > 6000000000 ∨
      l.protocol ≠ "Meshtastic".toUTF8.toList ∧ l.protocol ≠ "MeshCore".toUTF8.toList ∨
      ¬ supportedLoraBandwidth l.bandwidthHz ∨ l.spreadingFactor < 7 ∨ l.spreadingFactor > 12 ∨
      l.codingRate < 5 ∨ l.codingRate > 8)
    "Invalid acquisition decoder profile"

/-- `validate_acquisition`: the interval, the receiver, its frequencies and settings, and each of the
lanes. -/
def validateAcquisition (segment : AcquisitionSegment K) (legacy : ReceiverConfig K) :
    Except String Unit := do
  let c := segment.config
  nonnegative segment.elapsedStart "acquisition start"
  nonnegative segment.elapsedEnd "acquisition end"
  reject (segment.id = 0 ∨ segment.id > 2048 ∨ segment.elapsedEnd < segment.elapsedStart ∨
      segment.elapsedEnd > 10 ^ 10) "Invalid acquisition interval"
  reject (c.synthetic ≠ legacy.synthetic ∨ c.hardwareReceiver ≠ legacy.hardwareReceiver ∨
      c.compactRecording ≠ legacy.compactRecording)
    "A survey cannot mix synthetic and physical receiver types or storage encodings"
  let _ ← tunedCenterHz c
  reject (c.automaticDecode = true ∧ c.discoverLora = false)
    "Automatic decoding requires waveform discovery"
  reject (c.Rak ∧ (c.sampleRate ≠ 0 ∨ c.discoverLora = true ∨ c.lanes ≠ [] ∨
      c.centerHz ≠ legacy.centerHz ∨ c.surveySpanHz ≠ legacy.surveySpanHz ∨
      c.tuningOffsetHz ≠ legacy.tuningOffsetHz))
    "Concentrator acquisition must retain its fixed scan configuration"
  reject (¬ c.Rak ∧ (c.sampleRate < 1000000 ∨ c.sampleRate > 20000000 ∨ c.surveySpanHz < 500000 ∨
      c.surveySpanHz > c.sampleRate * 4 / 5 ∨ c.centerHz < c.surveySpanHz / 2 ∨
      c.centerHz + c.surveySpanHz / 2 > 6000000000))
    "Invalid acquisition frequency or sample configuration"
  reject (c.lnaGain > 40 ∨ c.lnaGain % 8 ≠ 0 ∨ c.vgaGain > 62 ∨ c.vgaGain % 2 ≠ 0 ∨
      ¬ (∃ t ∈ c.activityThresholdDbfs, -140 ≤ t ∧ t ≤ 0) ∨ c.rtlGainTenthsDb < -100 ∨
      c.rtlGainTenthsDb > 600 ∨ c.lanes.length > 4 ∨ c.antennaDescription.length > 512 ∨
      c.receiverDescription.length > 512 ∨ c.surveyNotes.length > 2048 ∨
      validUtf8 c.antennaDescription = false ∨ validUtf8 c.receiverDescription = false ∨
      validUtf8 c.surveyNotes = false)
    "Invalid acquisition receiver settings"
  reject (c.Rtl ∧ (c.sampleRate ≠ 1000000 ∧ c.sampleRate ≠ 2000000 ∨ c.amplifier = true ∨
      c.discoverLora = true ∧ (c.sampleRate ≠ 2000000 ∨ c.surveySpanHz > 1500000)))
    "Invalid acquisition RTL-SDR settings"
  forM c.lanes validateAcquisitionLane

/-- The settings of an acquisition that every receiver has. -/
structure ValidSettings (c : ReceiverConfig K) : Prop where
  lna : c.lnaGain ≤ 40 ∧ c.lnaGain % 8 = 0
  vga : c.vgaGain ≤ 62 ∧ c.vgaGain % 2 = 0
  threshold : ∃ t ∈ c.activityThresholdDbfs, -140 ≤ t ∧ t ≤ 0
  rtlGain : -100 ≤ c.rtlGainTenthsDb ∧ c.rtlGainTenthsDb ≤ 600
  lanes : c.lanes.length ≤ 4
  antenna : c.antennaDescription.length ≤ 512 ∧ validUtf8 c.antennaDescription = true
  receiver : c.receiverDescription.length ≤ 512 ∧ validUtf8 c.receiverDescription = true
  notes : c.surveyNotes.length ≤ 2048 ∧ validUtf8 c.surveyNotes = true

/-- `validate_acquisition` passes. -/
structure ValidAcquisition (segment : AcquisitionSegment K) (legacy : ReceiverConfig K) : Prop where
  start_nonneg : 0 ≤ segment.elapsedStart
  end_nonneg : 0 ≤ segment.elapsedEnd
  id_pos : 0 < segment.id
  id_le : segment.id ≤ 2048
  start_le : segment.elapsedStart ≤ segment.elapsedEnd
  end_le : segment.elapsedEnd ≤ 10 ^ 10
  kind : segment.config.synthetic = legacy.synthetic ∧
    segment.config.hardwareReceiver = legacy.hardwareReceiver ∧
    segment.config.compactRecording = legacy.compactRecording
  tuned : ∃ command, tunedCenterHz segment.config = .ok command
  automatic : segment.config.automaticDecode = true → segment.config.discoverLora = true
  rak : segment.config.Rak → segment.config.sampleRate = 0 ∧ segment.config.discoverLora = false ∧
    segment.config.lanes = [] ∧ segment.config.centerHz = legacy.centerHz ∧
    segment.config.surveySpanHz = legacy.surveySpanHz ∧
    segment.config.tuningOffsetHz = legacy.tuningOffsetHz
  sampled : ¬ segment.config.Rak → 1000000 ≤ segment.config.sampleRate ∧
    segment.config.sampleRate ≤ 20000000 ∧ 500000 ≤ segment.config.surveySpanHz ∧
    segment.config.surveySpanHz ≤ segment.config.sampleRate * 4 / 5 ∧
    segment.config.surveySpanHz / 2 ≤ segment.config.centerHz ∧
    segment.config.centerHz + segment.config.surveySpanHz / 2 ≤ 6000000000
  settings : ValidSettings segment.config
  rtl : segment.config.Rtl →
    (segment.config.sampleRate ≠ 1000000 → segment.config.sampleRate = 2000000) ∧
    segment.config.amplifier = false ∧ (segment.config.discoverLora = true →
      segment.config.sampleRate = 2000000 ∧ segment.config.surveySpanHz ≤ 1500000)
  lanes : ∀ l ∈ segment.config.lanes, validateAcquisitionLane l = .ok ()

theorem validateAcquisition_iff {segment : AcquisitionSegment K} {legacy : ReceiverConfig K}
    {u : Unit} : validateAcquisition segment legacy = .ok u ↔ ValidAcquisition segment legacy := by
  simp only [validateAcquisition, nonnegative, bind_eq_ok, reject_eq_ok, forM_eq_ok, not_or, not_and,
    not_lt, not_not, ne_eq, Bool.not_eq_false, Bool.not_eq_true, exists_and_left, exists_and_right,
    exists_const]
  constructor
  · rintro ⟨hstart, hend, ⟨hid, hid', hle, hlimit⟩, hkind, htuned, hautomatic, hrak, hsampled,
      ⟨hlna, hlna', hvga, hvga', hthreshold, hgain, hgain', hcount, hantenna, hreceiver, hnotes,
      hutf, hutf', hutf''⟩, hrtl, hlanes⟩
    exact ⟨hstart, hend, Nat.pos_of_ne_zero hid, hid', hle, hlimit, hkind, htuned, hautomatic, hrak,
      hsampled, ⟨⟨hlna, hlna'⟩, ⟨hvga, hvga'⟩, hthreshold, ⟨hgain, hgain'⟩, hcount,
      ⟨hantenna, hutf⟩, ⟨hreceiver, hutf'⟩, ⟨hnotes, hutf''⟩⟩, hrtl, hlanes⟩
  · intro h
    have s := h.settings
    exact ⟨h.start_nonneg, h.end_nonneg, ⟨h.id_pos.ne', h.id_le, h.start_le, h.end_le⟩, h.kind,
      h.tuned, h.automatic, h.rak, h.sampled, ⟨s.lna.1, s.lna.2, s.vga.1, s.vga.2, s.threshold,
      s.rtlGain.1, s.rtlGain.2, s.lanes, s.antenna.1, s.receiver.1, s.notes.1, s.antenna.2,
      s.receiver.2, s.notes.2⟩, h.rtl, h.lanes⟩

/-- The columns of an acquisition whose threshold is finite. -/
def segmentRow (segment : AcquisitionSegment K) (threshold : K) : SegmentRow K :=
  let c := segment.config
  { id := segment.id
    elapsedStart := segment.elapsedStart
    elapsedEnd := segment.elapsedEnd
    finalized := segment.finalized
    synthetic := c.synthetic
    hardware := c.hardwareReceiver
    center := c.centerHz
    sampleRate := c.sampleRate
    span := c.surveySpanHz
    lna := c.lnaGain
    vga := c.vgaGain
    amp := c.amplifier
    threshold
    offsetHz := c.tuningOffsetHz
    rtlGain := c.rtlGainTenthsDb
    rtlAuto := c.rtlAutoGain
    discovery := c.discoverLora
    antenna := c.antennaDescription
    receiver := c.receiverDescription
    notes := c.surveyNotes }

/-- `Statement::text`: the text of a column, which must be UTF-8 of a limited length. -/
def readText (text : Text) : Except String Text := do
  reject (text.length > 8192) "Saved field exceeds supported size"
  reject (validUtf8 text = false) "Saved text is not valid UTF-8"
  return text

/-- One row of the lanes of an acquisition, after those before it. -/
def readLane (lanes : List LaneConfig) (row : ℕ × ℕ × LaneConfig) :
    Except String (List LaneConfig) := do
  let index ← unsignedValue row.2.1 4
  reject (index ≠ lanes.length) "Invalid acquisition lane index"
  let l := row.2.2
  let lane : LaneConfig := {
    label := ← readText l.label
    channelName := ← readText l.channelName
    protocol := ← readText l.protocol
    frequencyHz := ← unsignedValue l.frequencyHz 6000000000
    bandwidthHz := ← unsignedValue l.bandwidthHz 500000
    spreadingFactor := ← unsignedValue l.spreadingFactor 12
    codingRate := ← unsignedValue l.codingRate 8
    enabled := l.enabled }
  return lanes ++ [lane]

/-- `automatic_from`: the counters of a row, each in its range. -/
def automaticFrom (row : ℕ × AutomaticDecoderStatus) : Except String AutomaticDecoderStatus := do
  let _ ← unsignedValue row.1 2048
  forM row.2.counters fun n => discard (unsignedValue n int64Max)
  let _ ← unsignedValue row.2.activeDecoders 256
  let _ ← unsignedValue row.2.historySamples (2 ^ 27)
  validateAutomatic row.2
  return row.2

/-- The rows of the lanes of an acquisition, by their index. -/
def Database.lanesOf (db : Database K) (id : ℕ) : List (ℕ × ℕ × LaneConfig) :=
  ((db.segmentLanes.filter (·.1 = id)).mergeSort fun a b => a.2.1 ≤ b.2.1).take 5

/-- The acquisition of a row: the recording's configuration with the settings of the row. -/
def readSegment (db : Database K) (legacy : ReceiverConfig K) (row : SegmentRow K) :
    Except String (AcquisitionSegment K) := do
  let id ← unsignedValue row.id 2048
  let config : ReceiverConfig K := { legacy with
    deviceSerial := []
    sessionPath := []
    synthetic := row.synthetic
    hardwareReceiver := row.hardware
    centerHz := ← unsignedValue row.center 6000000000
    sampleRate := ← unsignedValue row.sampleRate 20000000
    surveySpanHz := ← unsignedValue row.span 26000000
    lnaGain := ← unsignedValue row.lna 40
    vgaGain := ← unsignedValue row.vga 62
    amplifier := row.amp
    activityThresholdDbfs := some row.threshold
    tuningOffsetHz := row.offsetHz
    rtlGainTenthsDb := row.rtlGain
    rtlAutoGain := row.rtlAuto
    discoverLora := row.discovery }
  reject (row.rtlGain < -100 ∨ row.rtlGain > 600) "Invalid acquisition RTL gain"
  let antennaDescription ← readText row.antenna
  let receiverDescription ← readText row.receiver
  let surveyNotes ← readText row.notes
  let lanes ← (db.lanesOf id).foldlM readLane []
  match db.automaticDecoder.find? (·.1 = id) with
  | none => throw "Missing acquisition decoder metadata"
  | some decoder =>
    let status ← automaticFrom decoder
    return {
      id
      elapsedStart := row.elapsedStart
      elapsedEnd := row.elapsedEnd
      finalized := row.finalized
      config := { config with
        antennaDescription, receiverDescription, surveyNotes, lanes
        automaticDecode := status.enabled } }

/-- An acquisition follows those that were read before it. -/
def orderedAfter (result : List (AcquisitionSegment K)) (a : AcquisitionSegment K) : Prop :=
  a.id = result.length + 1 ∧ ∀ last ∈ result.getLast?,
    last.finalized = true ∧ last.elapsedEnd - 1 / 10 ^ 8 ≤ a.elapsedStart

instance (result : List (AcquisitionSegment K)) (a : AcquisitionSegment K) :
    Decidable (orderedAfter result a) :=
  inferInstanceAs (Decidable (_ ∧ _))

/-- The body of the loop of `acquisitions`. -/
def nextSegment (db : Database K) (legacy : ReceiverConfig K)
    (result : List (AcquisitionSegment K)) (row : SegmentRow K) :
    Except String (List (AcquisitionSegment K)) := do
  let a ← readSegment db legacy row
  validateAcquisition a legacy
  reject (¬ orderedAfter result a) "Overlapping or unordered acquisition history"
  return result ++ [a]

/-- `SessionStore::acquisitions`: the acquisitions in their order, with the texts of the session where
they have none of their own. -/
def Database.acquisitions (db : Database K) (legacy : ReceiverConfig K) :
    Except String (List (AcquisitionSegment K)) := do
  if db.segmented = false then return []
  let rows := (db.segments.mergeSort fun a b => a.id ≤ b.id).take 2049
  let result ← rows.foldlM (nextSegment db legacy) []
  reject ((∃ d ∈ db.automaticDecoder, ∀ a ∈ db.segments, a.id ≠ d.1) ∧ result ≠ [])
    "Orphan automatic decoder metadata"
  reject (∃ l ∈ db.segmentLanes, ∀ a ∈ db.segments, a.id ≠ l.1)
    "Orphan acquisition decoder profile"
  return result

end OVMesh
