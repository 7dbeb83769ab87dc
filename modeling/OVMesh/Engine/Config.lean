import OVMesh.Lib.Checked

/-!
# Receiver configurations

`ReceiverConfig` of `engine.hpp`, its checks in `engine.cpp` and the acquisition segments of a
survey. A text is its list of bytes, and a floating-point setting that is not finite is `none`.

* `tunedCenterHz`, `validate`: what `Engine::start` checks before it touches a receiver.
* `acquisitionConfigAt`: the acquisition at a time, by its index.
-/

namespace OVMesh

open Checked

/-- A byte string. -/
abbrev Text := List UInt8

instance lawfulBEq_text : LawfulBEq Text := inferInstance

/-- The bytes of an ASCII literal. -/
def ascii (text : String) : Text := text.toList.map fun c => UInt8.ofNat c.toNat

/-- `HardwareReceiver`: the receivers that the engine drives. -/
inductive HardwareReceiver
  | hackRf | rtlSdr | rak5146
  deriving DecidableEq, Repr

/-- `LaneConfig`: the settings of one decoder. -/
structure LaneConfig where
  label : Text
  channelName : Text
  protocol : Text
  frequencyHz : ℕ
  bandwidthHz : ℕ
  spreadingFactor : ℕ
  codingRate : ℕ
  enabled : Bool
  deriving DecidableEq

/-- `ConcentratorBoardConfig`: the device of a board and what it receives. -/
structure ConcentratorBoardConfig where
  devicePath : Text
  deviceId : Text
  packetsEnabled : Bool
  frequencyHz : ℕ
  bandwidthHz : ℕ
  spreadingFactor : ℕ
  syncWord : ℕ
  deriving DecidableEq

/-- `ConcentratorConfig`: the boards, and what they do. -/
structure ConcentratorConfig where
  boards : List ConcentratorBoardConfig
  scanEnabled : Bool
  decodeEnabled : Bool
  scanStepHz : ℕ
  scanSamples : ℕ
  deriving DecidableEq

/-- `ReceiverConfig`: the settings of an acquisition. -/
structure ReceiverConfig (K : Type) where
  synthetic : Bool
  hardwareReceiver : HardwareReceiver
  centerHz : ℕ
  tuningOffsetHz : ℤ
  sampleRate : ℕ
  surveySpanHz : ℕ
  lnaGain : ℕ
  vgaGain : ℕ
  amplifier : Bool
  rtlGainTenthsDb : ℤ
  rtlAutoGain : Bool
  deviceSerial : Text
  concentrators : ConcentratorConfig
  activityThresholdDbfs : Option K
  discoverLora : Bool
  automaticDecode : Bool
  compactRecording : Bool
  lanes : List LaneConfig
  sessionPath : Text
  sessionTitle : Text
  antennaDescription : Text
  receiverDescription : Text
  surveyNotes : Text
  deriving DecidableEq

variable {K : Type}

/-- The RAK5146 path of a physical receiver. -/
def ReceiverConfig.Rak (c : ReceiverConfig K) : Prop :=
  c.synthetic = false ∧ c.hardwareReceiver = .rak5146

/-- The RTL-SDR path of a physical receiver. -/
def ReceiverConfig.Rtl (c : ReceiverConfig K) : Prop :=
  c.synthetic = false ∧ c.hardwareReceiver = .rtlSdr

instance (c : ReceiverConfig K) : Decidable c.Rak := inferInstanceAs (Decidable (_ ∧ _))

instance (c : ReceiverConfig K) : Decidable c.Rtl := inferInstanceAs (Decidable (_ ∧ _))

/-! ## Checks -/

/-- `tuned_center_hz`: the centre that the receiver is tuned to, when it is in range. -/
def tunedCenterHz (c : ReceiverConfig K) : Except String ℤ := do
  reject (c.centerHz < 1000000 ∨ c.centerHz > 6000000000)
    "Center frequency must be between 1 MHz and 6 GHz"
  reject (c.tuningOffsetHz < -100000 ∨ c.tuningOffsetHz > 100000)
    "Tuning offset must be between -100000 and 100000 Hz"
  let command := (c.centerHz : ℤ) + c.tuningOffsetHz
  reject (command < 1000000 ∨ command > 6000000000)
    "Corrected tuner frequency must be between 1 MHz and 6 GHz"
  reject (c.Rtl ∧ (c.centerHz < 24000000 ∨ c.centerHz > 1766000000 ∨
      command < 24000000 ∨ command > 1766000000))
    "RTL-SDR center and corrected tuner frequency must be between 24 and 1766 MHz; tuning also depends on the attached tuner"
  return command

/-- `supported_lora_bandwidth`: the bandwidths that the receiver decodes. -/
def supportedLoraBandwidth (bandwidth : ℕ) : Prop :=
  bandwidth = 15625 ∨ bandwidth = 62500 ∨ bandwidth = 125000 ∨ bandwidth = 250000 ∨
    bandwidth = 500000

instance (bandwidth : ℕ) : Decidable (supportedLoraBandwidth bandwidth) :=
  inferInstanceAs (Decidable (_ ∨ _))

/-- `validate_concentrator_config` for one board. -/
def validateBoard (c : ConcentratorConfig) (lower upper : ℚ) (requirePaths : Bool) (i : ℕ)
    (b : ConcentratorBoardConfig) : Except String Unit := do
  if requirePaths then
    reject (b.devicePath = [] ∨ b.devicePath.length > 1024 ∨ b.deviceId.length > 2048 ∨
        0 ∈ b.devicePath ∨ 0 ∈ b.deviceId)
      "Select each concentrator from the local USB device list"
    reject (i ≠ 0 ∧ ∃ first ∈ c.boards[0]?, b.devicePath = first.devicePath ∨
        b.deviceId ≠ [] ∧ b.deviceId = first.deviceId)
      "Two concentrators must be two different USB devices"
  reject (b.packetsEnabled = false ∧ c.scanEnabled = false)
    "Enable sampled RF scanning or packet reception for each concentrator"
  reject (b.bandwidthHz ≠ 125000 ∧ b.bandwidthHz ≠ 250000 ∧ b.bandwidthHz ≠ 500000)
    "RAK service modem bandwidth must be 125, 250 or 500 kHz"
  reject (b.spreadingFactor < 7 ∨ b.spreadingFactor > 12 ∨
      b.syncWord ≠ 0x2b ∧ b.syncWord ≠ 0x12 ∧ b.syncWord ≠ 0x34)
    "RAK service modem supports SF7–12 and sync words 0x2B, 0x12 or 0x34"
  reject (b.frequencyHz < 902000000 ∨ b.frequencyHz > 928000000)
    "RAK packet frequency must be within 902–928 MHz"
  reject (b.packetsEnabled = true ∧ ((b.frequencyHz : ℚ) - b.bandwidthHz / 2 < lower ∨
      (b.frequencyHz : ℚ) + b.bandwidthHz / 2 > upper))
    "Each enabled packet profile's full bandwidth must fit inside the survey range"

/-- `validate_concentrator_config`: the boards, the span and its edges, the sweep, and each board in turn.
-/
def validateConcentratorConfig (c : ConcentratorConfig) (center span : ℕ) (offset : ℤ)
    (requirePaths : Bool) : Except String Unit := do
  reject (c.boards = [] ∨ c.boards.length > 2) "Choose one or two RAK5146 concentrators"
  reject (center < 902000000 ∨ center > 928000000 ∨ span < 500000 ∨ span > 26000000 ∨
      offset < -100000 ∨ offset > 100000)
    "RAK5146 US915 survey requires 902–928 MHz, a 0.5–26 MHz span and Offset within +/-100 kHz"
  let lower : ℚ := center - span / 2
  let upper : ℚ := center + span / 2
  reject (lower < 902000000 ∨ upper > 928000000 ∨ lower + offset < 902000000 ∨
      upper + offset > 928000000)
    "Requested and corrected RAK5146 survey edges must remain within 902–928 MHz"
  reject (c.scanStepHz < 25000 ∨ c.scanStepHz > 1000000 ∨ c.scanSamples ≠ 2000)
    "RAK scan step must be 25–1000 kHz, with 2000 RSSI samples per histogram"
  forM c.boards.zipIdx fun (b, i) => validateBoard c lower upper requirePaths i b

/-- The provenance texts are longer than the engine admits. -/
def ReceiverConfig.provenanceTooLong (c : ReceiverConfig K) : Prop :=
  c.antennaDescription.length > 240 ∨ c.receiverDescription.length > 240 ∨
    c.surveyNotes.length > 2000

instance (c : ReceiverConfig K) : Decidable c.provenanceTooLong :=
  inferInstanceAs (Decidable (_ ∨ _))

/-- The body of the loop of `validate` over the lanes. -/
def validateLane (c : ReceiverConfig K) (l : LaneConfig) : Except String Unit := do
  reject (l.label.length > 80 ∨ l.channelName.length > 80) "Profile labels are too long"
  if l.enabled then
    reject (¬ supportedLoraBandwidth l.bandwidthHz)
      "Supported LoRa bandwidths are 15.625, 62.5, 125, 250 and 500 kHz"
    reject (l.spreadingFactor < 7 ∨ l.spreadingFactor > 12 ∨ l.codingRate < 5 ∨ l.codingRate > 8)
      "Supported LoRa profiles use SF7–12 and CR4/5–4/8"
    reject (c.sampleRate % (l.bandwidthHz * 4) ≠ 0)
      "Sample rate must support integer decoder decimation; 500 kHz legacy profiles need RTL-SDR at 2 MS/s"
    reject (l.frequencyHz > 6000000000) "Decoder frequency exceeds receiver range"
    let offset := ((l.frequencyHz : ℤ) - c.centerHz).natAbs
    reject (offset + l.bandwidthHz / 2 > c.surveySpanHz / 2)
      "Each decoder's entire bandwidth must be inside the survey span"

/-- `validate`. The last check of the receiver type cannot fail, since the type has three values. -/
def validate [Zero K] [LinearOrder K] [IntCast K] (c : ReceiverConfig K) : Except String Unit := do
  let _ ← tunedCenterHz c
  if c.Rak then
    validateConcentratorConfig c.concentrators c.centerHz c.surveySpanHz c.tuningOffsetHz true
    reject c.provenanceTooLong "Survey provenance text is too long"
  else
    if c.Rtl then
      reject (c.sampleRate ≠ 1000000 ∧ c.sampleRate ≠ 2000000)
        "RTL-SDR supports a 1 or 2 MS/s sample rate in this build"
      reject (c.rtlGainTenthsDb < -100 ∨ c.rtlGainTenthsDb > 600)
        "RTL-SDR manual gain must be between -10 and 60 dB; the nearest supported tuner gain is applied"
      reject (c.amplifier = true)
        "The HackRF RF amplifier control is unavailable for RTL-SDR; disable it before starting"
      reject (c.discoverLora = true ∧ (c.sampleRate ≠ 2000000 ∨ c.surveySpanHz > 1500000))
        "RTL-SDR LoRa discovery requires 2 MS/s and a survey span of at most 1.5 MHz; other supported settings can measure spectrum with discovery disabled"
    else
      reject (c.sampleRate ∉ [8000000, 10000000, 12000000, 16000000, 20000000])
        "Choose an 8, 10, 12, 16 or 20 MS/s sample rate"
    reject (c.surveySpanHz < 500000 ∨ c.surveySpanHz > c.sampleRate * 4 / 5)
      "Survey span must be 0.5 MHz through 80% of sample rate; passband remains uncalibrated"
    reject (c.centerHz < c.surveySpanHz / 2 ∨ c.centerHz + c.surveySpanHz / 2 > 6000000000)
      "Survey edges exceed receiver range"
    reject (c.Rtl ∧ (c.centerHz - c.surveySpanHz / 2 < 24000000 ∨
        c.centerHz + c.surveySpanHz / 2 > 1766000000))
      "Survey edges exceed the supported RTL-SDR 24–1766 MHz range"
    reject (¬ c.Rtl ∧ (c.lnaGain > 40 ∨ c.lnaGain % 8 ≠ 0 ∨ c.vgaGain > 62 ∨ c.vgaGain % 2 ≠ 0))
      "LNA must be 0–40 dB in 8 dB steps; VGA 0–62 dB in 2 dB steps"
    reject (c.deviceSerial.length > 256 ∨ 0 ∈ c.deviceSerial)
      "Receiver serial is invalid or too long"
    reject (¬ ∃ t ∈ c.activityThresholdDbfs, t ≤ 0 ∧ ((-140 : ℤ) : K) ≤ t)
      "Activity threshold must be -140 through 0 dBFS/bin"
    reject c.provenanceTooLong "Survey provenance text is too long"
    reject (c.automaticDecode = true ∧ c.discoverLora = false)
      "Automatic decoding requires waveform discovery"
    reject (c.lanes.length > 4)
      "This build permits at most four explicitly configured decoder lanes"
    forM c.lanes (validateLane c)

/-! ## Acquisitions -/

/-- One uninterrupted acquisition within a survey. -/
structure AcquisitionSegment (K : Type) where
  id : ℕ
  elapsedStart : K
  elapsedEnd : K
  finalized : Bool
  config : ReceiverConfig K

/-- `acquisition_config_at`: the index of the acquisition that covers the time, and `none` for a
recording without acquisitions. The segments are ordered by their starts, so `std::upper_bound`
finds the first that starts after the time. -/
def acquisitionConfigAt [Field K] [LinearOrder K] (segments : List (AcquisitionSegment K))
    (elapsed : K) : Except String (Option (ℕ × AcquisitionSegment K)) := do
  if segments = [] then return none
  reject (elapsed < 0) "Invalid acquisition time"
  let next := segments.findIdx fun s => elapsed + 1 / 10 ^ 8 < s.elapsedStart
  match next with
  | 0 => throw "Measurement precedes its acquisition"
  | i + 1 =>
    match segments[i]? with
    | none => throw "Measurement precedes its acquisition"
    | some selected =>
      reject (elapsed > selected.elapsedEnd + 1 / 10 ^ 8)
        "Measurement falls outside its acquisition interval"
      return some (i, selected)

end OVMesh
