import OVMesh.Store.Saved

/-!
# The status records of a recording

What `SessionStore::update` takes of a `Snapshot` and writes, with the checks of `storage.cpp`.
A saved integer that came from a 64-bit counter wraps as `int64_t` does.

* `validUtf8`, `bindText`: the texts that a statement accepts.
* `AutomaticDecoderStatus`, `DiscoveryStatus`, `FrequencySummary`: the records with their checks.
* `Snapshot`: the fields of the snapshot that the store reads.
-/

namespace OVMesh

open Checked

variable {K : Type} [Field K] [LinearOrder K]

/-! ## Texts -/

/-- The value of a multibyte sequence is in range, and its other bytes are continuation bytes. -/
def validSequence (lead minimum : ℕ) (bytes : List UInt8) : Bool :=
  let value := bytes.foldl (fun v b => v * 64 + b.toNat % 64) lead
  bytes.all (fun b => b.toNat / 64 = 2) && minimum ≤ value && value ≤ 0x10ffff &&
    !(0xd800 ≤ value && value ≤ 0xdfff)

/-- `valid_utf8`: the bytes encode code points, each in its shortest form and none of them a surrogate. -/
def validUtf8 : Text → Bool
  | [] => true
  | first :: text =>
    if first < 0x80 then validUtf8 text
    else if 0xc2 ≤ first ∧ first ≤ 0xdf then
      match text with
      | a :: text => validSequence (first.toNat % 32) 0x80 [a] && validUtf8 text
      | _ => false
    else if 0xe0 ≤ first ∧ first ≤ 0xef then
      match text with
      | a :: b :: text => validSequence (first.toNat % 16) 0x800 [a, b] && validUtf8 text
      | _ => false
    else if 0xf0 ≤ first ∧ first ≤ 0xf4 then
      match text with
      | a :: b :: c :: text => validSequence (first.toNat % 8) 0x10000 [a, b, c] && validUtf8 text
      | _ => false
    else false

/-- `Statement::bind` of a text. -/
def bindText (text : Text) : Except String Unit :=
  reject (text.length > 8192 ∨ validUtf8 text = false) "Invalid or oversized survey text field"

/-- The conversion of an unsigned 64-bit value to `int64_t`. -/
def toInt64 (n : ℕ) : ℤ := (n : ℤ).bmod (2 ^ 64)

theorem toInt64_of_le {n : ℕ} (h : n ≤ int64Max) : toInt64 n = n := by
  rw [int64Max] at h
  exact Int.bmod_eq_of_le (by omega) (by omega)

/-! ## Decoders -/

/-- `AutomaticDecoderStatus` with its initializers: the counters of the automatic decoder. -/
structure AutomaticDecoderStatus where
  available : Bool := false
  enabled : Bool := false
  finished : Bool := false
  candidates : ℕ := 0
  started : ℕ := 0
  completed : ℕ := 0
  crcValid : ℕ := 0
  classified : ℕ := 0
  historyMisses : ℕ := 0
  activeLimitHits : ℕ := 0
  duplicateCandidates : ℕ := 0
  excludedCandidates : ℕ := 0
  outsideRangeCandidates : ℕ := 0
  unsupportedCandidates : ℕ := 0
  timeouts : ℕ := 0
  resets : ℕ := 0
  abandonedDecoders : ℕ := 0
  frameOverflows : ℕ := 0
  activeDecoders : ℕ := 0
  historySamples : ℕ := 0
  deriving DecidableEq

/-- `automatic_counters`: the counters in the order of the columns. -/
def AutomaticDecoderStatus.counters (s : AutomaticDecoderStatus) : List ℕ :=
  [s.candidates, s.started, s.completed, s.crcValid, s.classified, s.historyMisses,
    s.activeLimitHits, s.duplicateCandidates, s.excludedCandidates, s.outsideRangeCandidates,
    s.unsupportedCandidates, s.timeouts, s.resets, s.abandonedDecoders, s.frameOverflows]

/-- `validate_automatic`: the counters fit a column and agree with each other. -/
def validateAutomatic (s : AutomaticDecoderStatus) : Except String Unit := do
  reject (∃ n ∈ s.counters, n > int64Max) "Invalid automatic decoder counter"
  reject (s.activeDecoders > 256 ∨ s.historySamples > 2 ^ 27 ∨ s.started > s.candidates ∨
      s.crcValid > s.completed ∨ s.classified > s.crcValid ∨
      s.available = false ∧ (s.enabled = true ∨ s.completed ≠ 0) ∨
      s.enabled = false ∧ (s.started ≠ 0 ∨ s.activeDecoders ≠ 0))
    "Invalid automatic decoder status"

/-- `DiscoveryBandCoverage`: what became of the samples of a subband. -/
structure DiscoveryBandCoverage (K : Type) where
  subbandIndex : ℕ
  centerHz : K
  processedSamples : ℕ
  abandonedSamples : ℕ
  sourceGapInputSamples : ℕ
  candidateLimitHits : ℕ
  trackLimitHits : ℕ

/-- `DiscoveryStatus` with its initializers: the method of the discovery and its counters. -/
structure DiscoveryStatus (K : Type) where
  enabled : Bool := false
  finished : Bool := false
  failed : Bool := false
  method : Text := "lora-preamble-v2".toUTF8.toList
  fault : Text := []
  acceptedInputSamples : ℕ := 0
  rejectedInputSamples : ℕ := 0
  channelizedInputSamples : ℕ := 0
  abandonedInputSamples : ℕ := 0
  sourceQueueDrops : ℕ := 0
  streamResets : ℕ := 0
  resultOverflows : ℕ := 0
  gapOverflows : ℕ := 0
  observations : ℕ := 0
  bands : List (DiscoveryBandCoverage K) := []

/-- `discovery_band_limit`: the subbands of a discovery. -/
def discoveryBandLimit : ℕ := 32

/-- `discovery_counter`: the counter fits a column. -/
def discoveryCounter (value : ℕ) : Except String Unit :=
  reject (value > int64Max) "Discovery counter exceeds saved integer range"

/-- `validate_discovery_band`: the subband exists, and its counters fit a column. -/
def validateDiscoveryBand (b : DiscoveryBandCoverage K) : Except String Unit := do
  reject (b.subbandIndex ≥ discoveryBandLimit ∨ b.centerHz ≤ 0 ∨ b.centerHz > 6000000000)
    "Invalid discovery subband"
  forM [b.processedSamples, b.abandonedSamples, b.sourceGapInputSamples, b.candidateLimitHits,
    b.trackLimitHits] discoveryCounter

/-- `validate_discovery_status`: the method is known, and the counters agree with each other. -/
def validateDiscoveryStatus (d : DiscoveryStatus K) (enabled : Bool) : Except String Unit := do
  reject (d.enabled ≠ enabled ∨ d.method ≠ "lora-preamble-v1".toUTF8.toList ∧
      d.method ≠ "lora-preamble-v2".toUTF8.toList ∨ d.fault.length > 160 ∨
      validUtf8 d.fault = false ∨ 0 ∈ d.fault ∨ d.bands.length > discoveryBandLimit)
    "Invalid discovery status or unsupported method"
  forM [d.acceptedInputSamples, d.rejectedInputSamples, d.channelizedInputSamples,
    d.abandonedInputSamples, d.sourceQueueDrops, d.streamResets, d.resultOverflows, d.gapOverflows,
    d.observations] discoveryCounter
  let _ ← d.bands.foldlM (fun indexes b => do
    validateDiscoveryBand b
    reject (b.subbandIndex ∈ indexes) "Duplicate discovery subband"
    return b.subbandIndex :: indexes) []

/-! ## Measurements -/

/-- `FrequencySummary`: the levels of a frequency with the seconds that it was observed. -/
structure FrequencySummary (K : Type) where
  centerHz : ℕ
  widthHz : ℕ
  meanDbfs : K
  peakDbfs : K
  observedSeconds : K
  activeSeconds : K

/-- `validate_bin`, for finite levels. -/
def validateBin (bin : FrequencySummary K) : Except String Unit := do
  reject (bin.centerHz = 0 ∨ bin.centerHz > 6000000000 ∨ bin.widthHz = 0 ∨ bin.widthHz > 20000000)
    "Invalid frequency-bin metadata"
  nonnegative bin.observedSeconds "observed time"
  nonnegative bin.activeSeconds "active time"
  reject (bin.activeSeconds > bin.observedSeconds + 1 / 10 ^ 9) "Activity exceeds observed time"

/-- `LaneHealth`: the counters of a decoder. -/
structure LaneHealth (K : Type) where
  label : Text
  frequencyHz : ℕ
  processedSeconds : K
  frames : ℕ
  classified : ℕ
  crcFailures : ℕ
  resets : ℕ
  state : Text

/-- `ConcentratorHealth`: the counters of a board. -/
structure ConcentratorHealth (K : Type) where
  ready : Bool
  scans : ℕ
  rssiSamples : ℕ
  receptions : ℕ
  crcFailures : ℕ
  readyElapsedSeconds : K
  lastUpdateElapsedSeconds : K

/-- A histogram of sampled signal strengths. -/
structure ConcentratorScan (K : Type) where
  id : ℕ
  boardIndex : ℕ
  frequencyHz : ℕ
  filterBandwidthHz : ℕ
  utcStartSeconds : K
  utcEndSeconds : K
  elapsedStartSeconds : K
  elapsedEndSeconds : K
  rssiOffsetDb : K
  counts : List ℕ
  receiverPosition : Option (PositionFix K)

/-- `concentrator_sample_count`: the samples of the histogram. -/
def ConcentratorScan.sampleCount (s : ConcentratorScan K) : ℕ := s.counts.sum

/-- `validate_concentrator_scan`: the interval, the frequency within the sweep, and a histogram with all
samples. -/
def validateConcentratorScan (scan : ConcentratorScan K) (c : ReceiverConfig K) :
    Except String Unit := do
  interval scan.id scan.utcStartSeconds scan.utcEndSeconds scan.elapsedStartSeconds
    scan.elapsedEndSeconds
  let low := (c.centerHz : K) - (c.surveySpanHz : K) / 2 + 117150
  let high := (c.centerHz : K) + (c.surveySpanHz : K) / 2 - 117150
  reject (c.concentrators.scanEnabled = false ∨ scan.boardIndex ≥ c.concentrators.boards.length ∨
      (scan.frequencyHz : K) < low ∨ (scan.frequencyHz : K) > high ∨
      scan.filterBandwidthHz ≠ 234300 ∨ scan.rssiOffsetDb ≠ -11 ∨
      scan.elapsedEndSeconds - scan.elapsedStartSeconds > 5 ∨
      scan.sampleCount ≠ c.concentrators.scanSamples)
    "Invalid concentrator scan dimensions, sample count or method"
  forM scan.receiverPosition.toList fun fix => do
    reject (fix.valid = false) "Invalid concentrator receiver fix"
    validateFix fix

/-- `validate_event`: the interval, the levels, the samples and the frequencies of an event. -/
def validateEvent (e : SpectrumEvent K) (c : ReceiverConfig K) : Except String Unit := do
  interval e.id e.utcStartSeconds e.utcEndSeconds e.elapsedStartSeconds e.elapsedEndSeconds
  level e.meanDbfs
  level e.peakDbfs
  reject (e.endSample ≤ e.firstSample ∨ e.endSample > int64Max ∨
      e.lowerHz < (c.centerHz : K) - (c.surveySpanHz : K) / 2 - 1 / 10 ^ 5 ∨
      e.upperHz > (c.centerHz : K) + (c.surveySpanHz : K) / 2 + 1 / 10 ^ 5 ∨
      e.upperHz ≤ e.lowerHz ∨ e.activeSeconds < 0 ∨
      e.activeSeconds > e.elapsedEndSeconds - e.elapsedStartSeconds + 1 / 10 ^ 7 ∨
      e.meanDbfs > e.peakDbfs + 11 / 1000 ∨ e.quality > 511)
    "Invalid spectrum event"
  forM e.receiverStart.toList validateFix
  forM e.receiverEnd.toList validateFix

/-- `validate_gap`: the interval, the samples and the reason of a gap. -/
def validateGap (g : CoverageGap K) : Except String Unit := do
  interval g.id g.utcStartSeconds g.utcEndSeconds g.elapsedStartSeconds g.elapsedEndSeconds
  reject (g.missingSamples > int64Max ∨ g.reason = "" ∨ g.reason.utf8ByteSize > 512)
    "Invalid coverage gap"

/-- The part of `Snapshot` that the store reads. -/
structure Snapshot (K : Type) where
  incomplete : Bool
  state : Text
  elapsedSeconds : K
  inputSeconds : K
  measurementSeconds : K
  deliveredSamples : ℕ
  droppedSamples : ℕ
  totalReceptions : ℕ
  classifiedReceptions : ℕ
  frequencies : List (FrequencySummary K)
  laneHealth : List (LaneHealth K)
  automaticDecoder : AutomaticDecoderStatus
  spectrumTiles : ℕ
  spectrumEvents : ℕ
  discovery : DiscoveryStatus K
  concentratorHealth : List (ConcentratorHealth K)

end OVMesh
