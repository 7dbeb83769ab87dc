import OVMesh.Lib.Hex
import OVMesh.Lib.Settings
import OVMesh.Rak.Options
import OVMesh.Store.Status

/-!
# Desktop settings

`preferences.cpp`: the settings of the desktop and their text, `parse` and `serialize`. Paths are those of
a POSIX system.

* `DesktopPreferences`, `validatePreferences`: the settings and their checks.
* `settings`, `serialize`: the fields of settings, and their text.
* `readPreferences`, `parse`: the settings of fields, and of a text of any of the eight versions.
-/

namespace OVMesh

namespace Desktop

open Checked Settings Decimal Rak

/-! ## Settings -/

/-- `DesktopReceiver`: the receivers that the start page offers. -/
inductive DesktopReceiver
  | synthetic | hackRf | rtlSdr | rak5146
  deriving DecidableEq

/-- A board of new settings. -/
def newBoard : ConcentratorBoardConfig where
  devicePath := []
  deviceId := []
  packetsEnabled := false
  frequencyHz := 906875000
  bandwidthHz := 250000
  spreadingFactor := 11
  syncWord := 0x2b

/-- `DesktopPreferences` with its initializers: what the desktop keeps from one start to the next. -/
structure DesktopPreferences where
  gpsEnabled : Bool := true
  recordingEnabled : Bool := true
  compactRecording : Bool := true
  discoverLora : Bool := false
  decodeEnabled : Bool := false
  publicMeshtasticKeyEnabled : Bool := false
  spectrumOnly : Bool := true
  receiverSource : DesktopReceiver := .hackRf
  centerHz : ℕ := 907500000
  sampleRate : ℕ := 16000000
  surveySpanHz : ℕ := 10000000
  lnaGain : ℕ := 16
  vgaGain : ℕ := 16
  amplifier : Bool := false
  rtlGainTenthsDb : ℤ := 280
  rtlAutoGain : Bool := false
  concentrators : ConcentratorConfig :=
    { boards := [newBoard], scanEnabled := true, decodeEnabled := false, scanStepHz := 200000
      scanSamples := 2000 }
  mixedFonts : Bool := true
  mobilePositionDisplay : Bool := false
  recordingDirectory : Text := []
  gpsDeviceId : Text := []
  gpsBaud : ℕ := 9600
  tuningOffsetHz : ℤ := 0
  deriving DecidableEq

/-! ## Checks -/

/-- The loop of `valid_text`. -/
def printable : Text → Bool
  | [] => true
  | first :: text =>
    if first < 0x20 ∨ first = 0x7f then false
    else if first < 0x80 then printable text
    else if 0xc2 ≤ first ∧ first ≤ 0xdf then
      match text with
      | a :: text => validSequence (first.toNat % 32) 0x80 [a] && printable text
      | _ => false
    else if 0xe0 ≤ first ∧ first ≤ 0xef then
      match text with
      | a :: b :: text => validSequence (first.toNat % 16) 0x800 [a, b] && printable text
      | _ => false
    else if 0xf0 ≤ first ∧ first ≤ 0xf4 then
      match text with
      | a :: b :: c :: text => validSequence (first.toNat % 8) 0x10000 [a, b, c] && printable text
      | _ => false
    else false

/-- `valid_text`: a text of at most `limit` bytes, all of them printable. -/
def validText (text : Text) (limit : ℕ) : Bool := text.length ≤ limit && printable text

/-- The largest settings file. -/
def maximumSettingsSize : ℕ := 32768
/-- The longest directory that the settings may name. -/
def maximumPathSize : ℕ := 4096
/-- The longest identifier of a GPS or radio device. -/
def maximumDeviceIdSize : ℕ := 4096

/-- The components of a path, between its slashes. -/
def components (path : Text) : List Text := path.splitOn 47

/-- `absolute_directory`: a printable absolute path without the components `.` and `..`. -/
def absoluteDirectory (value : Text) : Except String Unit := do
  reject (validText value maximumPathSize = false) "Settings path is invalid or too long"
  reject (value.head? ≠ some 47 ∨ (ascii "//").isPrefixOf value = true)
    "Choose an absolute local settings directory"
  reject (ascii "." ∈ components value ∨ ascii ".." ∈ components value)
    "Settings paths cannot contain dot components"
  reject (value = ascii "/") "Choose an application settings folder"

/-- `local_serial_path`: the path names a serial device of Windows, Linux or macOS. -/
def localSerialPath (path : Text) : Bool :=
  if path.length > 1024 ∨ 0 ∈ path ∨ path = [] then false
  else if (ascii "COM").isPrefixOf path = true ∧ path.length ≤ 8 ∧ path.length > 3 ∧ path[3]? ≠ some 48 then
    (path.drop 3).all isDigit
  else if (ascii "/dev/").isPrefixOf path = false ∨ path.length = 5 then false
  else (path.drop 5).all (fun c => (97 ≤ c && c ≤ 122) || (65 ≤ c && c ≤ 90) || isDigit c || c == 46 ||
      c == 95 || c == 45) && path.drop 5 != ascii "." && path.drop 5 != ascii ".."

/-- The checks of `validate_preferences` for the device of a board. -/
def validateDevice (b : ConcentratorBoardConfig) : Except String Unit := do
  reject (validText b.devicePath 1024 = false ∨ validText b.deviceId 2048 = false)
    "Invalid concentrator device preference"
  reject ((b.devicePath = []) ≠ (b.deviceId = []))
    "Concentrator selection requires both a path and an identity"
  reject (b.deviceId ≠ [] ∧ (ascii "usb:0483:5740:").isPrefixOf b.deviceId = false)
    "Invalid concentrator USB identity"
  reject (b.devicePath ≠ [] ∧ localSerialPath b.devicePath = false)
    "Invalid local concentrator serial path"

/-- The checks of `validate_preferences` for the sample rate. -/
def validateRate (p : DesktopPreferences) (corrected : ℤ) : Except String Unit :=
  if p.receiverSource = .rtlSdr then do
    reject (p.centerHz < 24000000 ∨ p.centerHz > 1766000000 ∨ corrected < 24000000 ∨
        corrected > 1766000000)
      "Preferred RTL-SDR center and corrected frequency must be between 24 and 1766 MHz"
    reject (p.sampleRate ≠ 1000000 ∧ p.sampleRate ≠ 2000000)
      "RTL-SDR preferred sample rate must be 1 or 2 MS/s"
    reject (p.amplifier = true) "RTL-SDR has no HackRF RF amplifier control"
  else if p.receiverSource ≠ .rak5146 then
    reject (p.sampleRate ∉ [8000000, 10000000, 12000000, 16000000, 20000000])
      "Unsupported preferred sample rate"
  else return

/-- The checks of `validate_preferences` for the concentrators. -/
def validateConcentrators (p : DesktopPreferences) : Except String Unit :=
  if p.receiverSource = .rak5146 then
    validateConcentratorConfig p.concentrators p.centerHz p.surveySpanHz p.tuningOffsetHz false
  else validateConcentratorConfig p.concentrators 915000000 26000000 0 false

/-- `validate`: every preference in its range, in the order in which the source tests them. -/
def validatePreferences (p : DesktopPreferences) : Except String Unit := do
  absoluteDirectory p.recordingDirectory
  reject (validText p.gpsDeviceId maximumDeviceIdSize = false) "Invalid GPS device preference"
  reject (p.gpsBaud ∉ [4800, 9600, 19200, 38400, 57600, 115200]) "Unsupported GPS baud preference"
  reject (p.tuningOffsetHz < -100000 ∨ p.tuningOffsetHz > 100000)
    "Receiver tuning offset must be between -100000 and 100000 Hz"
  reject (p.centerHz < 1000000 ∨ p.centerHz > 6000000000)
    "Preferred center frequency must be between 1 MHz and 6 GHz"
  let corrected := p.centerHz + p.tuningOffsetHz
  reject (corrected < 1000000 ∨ corrected > 6000000000)
    "Preferred offset moves the tuner outside its range"
  validateRate p corrected
  reject (p.receiverSource ≠ .rak5146 ∧
      (p.surveySpanHz < 500000 ∨ p.surveySpanHz > p.sampleRate * 4 / 5))
    "Preferred survey span must be 0.5 MHz through 80% of sample rate"
  reject (p.centerHz < p.surveySpanHz / 2 ∨ p.centerHz + p.surveySpanHz / 2 > 6000000000)
    "Preferred survey edges exceed receiver range"
  reject (p.lnaGain > 40 ∨ p.lnaGain % 8 ≠ 0 ∨ p.vgaGain > 62 ∨ p.vgaGain % 2 ≠ 0)
    "Preferred LNA must be 0-40 dB in 8 dB steps; VGA 0-62 dB in 2 dB steps"
  reject (p.rtlGainTenthsDb < -100 ∨ p.rtlGainTenthsDb > 600)
    "Preferred RTL-SDR tuner gain must be -10 through 60 dB"
  forM p.concentrators.boards validateDevice
  validateConcentrators p

/-! ## Writing -/

/-- A switch is written as one digit. -/
def switch (b : Bool) : Text := if b then ascii "1" else ascii "0"

/-- The name of a receiver in the settings file. -/
def sourceText : DesktopReceiver → Text
  | .synthetic => ascii "synthetic"
  | .hackRf => ascii "hackrf"
  | .rtlSdr => ascii "rtl_sdr"
  | .rak5146 => ascii "rak5146"

/-- The name of a field of a board. -/
def boardField (i : ℕ) (name : String) : Text := ascii "rak_" ++ decimal i ++ ascii "_" ++ ascii name

/-- The fields of a board. -/
def boardFields (i : ℕ) (b : ConcentratorBoardConfig) : List Field :=
  [(boardField i "path", Hex.encode b.devicePath),
    (boardField i "id", Hex.encode b.deviceId),
    (boardField i "packets", switch b.packetsEnabled),
    (boardField i "frequency_hz", decimalInt b.frequencyHz),
    (boardField i "bandwidth_hz", decimalInt b.bandwidthHz),
    (boardField i "sf", decimalInt b.spreadingFactor),
    (boardField i "sync_word", decimalInt b.syncWord)]

/-- The fields of boards. -/
def boardsFields (boards : List ConcentratorBoardConfig) : List Field :=
  boards.zipIdx.flatMap fun (b, i) => boardFields i b

/-- The fields of the concentrators. -/
def concentratorSettings (c : ConcentratorConfig) : List Field :=
  [(ascii "rak_board_count", decimalInt c.boards.length),
    (ascii "rak_scan_enabled", switch c.scanEnabled),
    (ascii "rak_decode_enabled", switch c.decodeEnabled),
    (ascii "rak_scan_step_hz", decimalInt c.scanStepHz),
    (ascii "rak_scan_samples", decimalInt c.scanSamples)] ++ boardsFields c.boards

/-- The fields of settings in the order of `serialize`, each with the version that it came with. -/
def settings (p : DesktopPreferences) : List (ℕ × Field) :=
  [(1, ascii "gps_enabled", switch p.gpsEnabled),
    (1, ascii "recording_enabled", switch p.recordingEnabled),
    (1, ascii "recording_directory", Hex.encode p.recordingDirectory),
    (1, ascii "gps_device_id", Hex.encode p.gpsDeviceId),
    (1, ascii "gps_baud", decimal p.gpsBaud),
    (2, ascii "tuning_offset_hz", decimalInt p.tuningOffsetHz),
    (3, ascii "discover_lora", switch p.discoverLora),
    (4, ascii "compact_recording", switch p.compactRecording),
    (5, ascii "decode_enabled", switch p.decodeEnabled),
    (8, ascii "public_meshtastic_key_enabled", switch p.publicMeshtasticKeyEnabled),
    (5, ascii "spectrum_only", switch p.spectrumOnly),
    (5, ascii "receiver_source", sourceText p.receiverSource),
    (5, ascii "center_hz", decimalInt p.centerHz),
    (5, ascii "sample_rate", decimalInt p.sampleRate),
    (5, ascii "survey_span_hz", decimalInt p.surveySpanHz),
    (5, ascii "lna_gain", decimalInt p.lnaGain),
    (5, ascii "vga_gain", decimalInt p.vgaGain),
    (5, ascii "amplifier", switch p.amplifier),
    (5, ascii "mixed_fonts", switch p.mixedFonts),
    (5, ascii "mobile_position_display", switch p.mobilePositionDisplay),
    (6, ascii "rtl_gain_tenths_db", decimalInt p.rtlGainTenthsDb),
    (6, ascii "rtl_auto_gain", switch p.rtlAutoGain)] ++
  (concentratorSettings p.concentrators).map fun field => (7, field)

/-- `serialize`: the version and the settings, one line each, for preferences that pass their checks. -/
def serialize (p : DesktopPreferences) : Except String Text := do
  validatePreferences p
  let result := print ((ascii "version", ascii "8") :: (settings p).map Prod.snd)
  reject (result.length > maximumSettingsSize) "Desktop settings exceed their size limit"
  return result

/-! ## Reading -/

/-- `std::map::at`: the value of a field, which must be there. -/
def fieldAt (fields : List Field) (name : Text) : Except String Text :=
  match fields.lookup name with
  | some value => .ok value
  | none => .error "map::at"

/-- `boolean`: a switch that was written as `0` or `1`. -/
def boolean (fields : List Field) (name : Text) : Except String Bool := do
  let value ← fieldAt fields name
  reject (value ≠ ascii "0" ∧ value ≠ ascii "1") "Invalid desktop preference switch"
  return value = ascii "1"

/-- `std::from_chars` of the whole text, for a type of the bounds. -/
def fromChars (lower upper : ℤ) (text : Text) : Option ℤ :=
  let negative := lower < 0 ∧ text.head? = some 45
  let digits := if negative then text.tail else text
  if digits = [] ∨ digits.all isDigit = false then none
  else
    let n : ℤ := if negative then -value digits else value digits
    if lower ≤ n ∧ n ≤ upper then some n else none

/-- `integer`: a number in a range, in the spelling that `serialize` gives it. -/
def integer (lower upper : ℤ) (fields : List Field) (name : Text) : Except String ℤ := do
  let value ← fieldAt fields name
  match fromChars lower upper value with
  | none => throw "Invalid numeric desktop preference"
  | some n =>
    reject (decimalInt n ≠ value) "Invalid numeric desktop preference"
    return n

/-- An unsigned integer of some bits. -/
def unsigned (bits : ℕ) (fields : List Field) (name : Text) : Except String ℕ := do
  return (← integer 0 (2 ^ bits - 1) fields name).toNat

/-- `hex_decode`: a printable text from lower-case hexadecimal digits. -/
def hexDecode (text : Text) (limit : ℕ) : Except String Text := do
  reject (text.length > limit * 2 ∨ text.length % 2 ≠ 0) "Invalid preference text field"
  reject (text.all Hex.isLower = false) "Invalid preference text encoding"
  reject (validText (Hex.bytes text) limit = false) "Invalid preference text field"
  return Hex.bytes text

/-- The value of a field that holds a text in hexadecimal digits. -/
def hexField (limit : ℕ) (fields : List Field) (name : Text) : Except String Text := do
  hexDecode (← fieldAt fields name) limit

/-- The field `gps_baud`. -/
def baudField (fields : List Field) : Except String ℕ := do
  let baud ← fieldAt fields (ascii "gps_baud")
  reject (baud = [] ∨ baud.length > 6 ∨ baud.head? = some 48) "Invalid GPS baud preference"
  reject (baud.all isDigit = false) "Invalid GPS baud preference"
  return value baud

/-- The field `receiver_source`. -/
def sourceField (version : ℕ) (fields : List Field) : Except String DesktopReceiver := do
  let source ← fieldAt fields (ascii "receiver_source")
  reject (source ≠ ascii "synthetic" ∧ source ≠ ascii "hackrf" ∧
      ¬ (version ≥ 6 ∧ source = ascii "rtl_sdr") ∧ ¬ (version ≥ 7 ∧ source = ascii "rak5146"))
    "Unsupported preferred receiver"
  return if source = ascii "hackrf" then .hackRf else if source = ascii "rtl_sdr" then .rtlSdr
    else if source = ascii "rak5146" then .rak5146 else .synthetic

/-- The settings of concentrator board `i`. -/
def boardAt (fields : List Field) (i : ℕ) : Except String ConcentratorBoardConfig := do
  let devicePath ← hexField 1024 fields (boardField i "path")
  let deviceId ← hexField 2048 fields (boardField i "id")
  let packetsEnabled ← boolean fields (boardField i "packets")
  let frequencyHz ← unsigned 64 fields (boardField i "frequency_hz")
  let bandwidthHz ← unsigned 32 fields (boardField i "bandwidth_hz")
  let spreadingFactor ← unsigned 32 fields (boardField i "sf")
  let syncWord ← unsigned 32 fields (boardField i "sync_word")
  return { devicePath := devicePath, deviceId, packetsEnabled, frequencyHz, bandwidthHz, spreadingFactor, syncWord }

/-- The settings of the concentrators. The number of fields must be that of the boards and the version. -/
def concentratorFields (version : ℕ) (fields : List Field) : Except String ConcentratorConfig := do
  let count ← unsigned 32 fields (ascii "rak_board_count")
  reject (count < 1 ∨ count > 2 ∨ fields.length ≠ (if version = 8 then 28 else 27) + count * 7)
    "Missing or unknown concentrator preference"
  let scanEnabled ← boolean fields (ascii "rak_scan_enabled")
  let decodeEnabled ← boolean fields (ascii "rak_decode_enabled")
  let scanStepHz ← unsigned 32 fields (ascii "rak_scan_step_hz")
  let scanSamples ← unsigned 32 fields (ascii "rak_scan_samples")
  let boards ← (List.range count).mapM (boardAt fields)
  return { boards := boards, scanEnabled, decodeEnabled, scanStepHz, scanSamples }

/-- A field that came with a version, and before it the default. -/
def since {α : Type} (first version : ℕ) (default : α) (read : Except String α) : Except String α :=
  if version ≥ first then read else pure default

/-- The settings of some fields. -/
def readPreferences (version : ℕ) (fields : List Field) : Except String DesktopPreferences := do
  let d : DesktopPreferences := {}
  let gpsEnabled ← boolean fields (ascii "gps_enabled")
  let recordingEnabled ← boolean fields (ascii "recording_enabled")
  let discoverLora ← since 3 version d.discoverLora (boolean fields (ascii "discover_lora"))
  let compactRecording ← since 4 version d.compactRecording (boolean fields (ascii "compact_recording"))
  let recordingDirectory ← hexField maximumPathSize fields (ascii "recording_directory")
  let gpsDeviceId ← hexField maximumDeviceIdSize fields (ascii "gps_device_id")
  let gpsBaud ← baudField fields
  let tuningOffsetHz ← since 2 version d.tuningOffsetHz
    (integer (-2 ^ 63) (2 ^ 63 - 1) fields (ascii "tuning_offset_hz"))
  let receiverSource ← since 5 version d.receiverSource (sourceField version fields)
  let centerHz ← since 5 version d.centerHz (unsigned 64 fields (ascii "center_hz"))
  let sampleRate ← since 5 version d.sampleRate (unsigned 32 fields (ascii "sample_rate"))
  let surveySpanHz ← since 5 version d.surveySpanHz (unsigned 32 fields (ascii "survey_span_hz"))
  let lnaGain ← since 5 version d.lnaGain (unsigned 32 fields (ascii "lna_gain"))
  let vgaGain ← since 5 version d.vgaGain (unsigned 32 fields (ascii "vga_gain"))
  let amplifier ← since 5 version d.amplifier (boolean fields (ascii "amplifier"))
  let decodeEnabled ← since 5 version d.decodeEnabled (boolean fields (ascii "decode_enabled"))
  let spectrumOnly ← since 5 version d.spectrumOnly (boolean fields (ascii "spectrum_only"))
  let mixedFonts ← since 5 version d.mixedFonts (boolean fields (ascii "mixed_fonts"))
  let mobilePositionDisplay ← since 5 version d.mobilePositionDisplay
    (boolean fields (ascii "mobile_position_display"))
  let rtlGainTenthsDb ← since 6 version d.rtlGainTenthsDb
    (integer (-2 ^ 31) (2 ^ 31 - 1) fields (ascii "rtl_gain_tenths_db"))
  let rtlAutoGain ← since 6 version d.rtlAutoGain (boolean fields (ascii "rtl_auto_gain"))
  let concentrators ← since 7 version d.concentrators (concentratorFields version fields)
  let publicMeshtasticKeyEnabled ← since 8 version d.publicMeshtasticKeyEnabled
    (boolean fields (ascii "public_meshtastic_key_enabled"))
  return {
    gpsEnabled := gpsEnabled, recordingEnabled, compactRecording, discoverLora, decodeEnabled
    publicMeshtasticKeyEnabled, spectrumOnly, receiverSource, centerHz, sampleRate, surveySpanHz
    lnaGain, vgaGain, amplifier, rtlGainTenthsDb, rtlAutoGain, concentrators, mixedFonts
    mobilePositionDisplay, recordingDirectory, gpsDeviceId, gpsBaud, tuningOffsetHz }

/-- The version of some fields. -/
def versionOf (fields : List Field) : Except String ℕ := do
  let version ← fieldAt fields (ascii "version")
  match (List.range' 1 8).find? (decimal · = version) with
  | none => throw "Unsupported desktop settings version"
  | some version => return version

/-- One of the names has no field. -/
def Missing (fields : List Field) (names : List String) : Prop :=
  ∃ name ∈ names, fields.lookup (ascii name) = none

instance (fields : List Field) (names : List String) : Decidable (Missing fields names) :=
  inferInstanceAs (Decidable (∃ name ∈ names, _))

/-- The checks of the names, by the version. -/
def checkNames (version : ℕ) (fields : List Field) : Except String Unit := do
  reject (version = 1 ∧ fields.length ≠ 6 ∨
      version = 2 ∧ (fields.length ≠ 7 ∨ Missing fields ["tuning_offset_hz"]) ∨
      version = 3 ∧ (fields.length ≠ 8 ∨ Missing fields ["tuning_offset_hz", "discover_lora"]) ∨
      version = 4 ∧ (fields.length ≠ 9 ∨
        Missing fields ["tuning_offset_hz", "discover_lora", "compact_recording"]))
    "Missing or unknown desktop preference"
  if version ≥ 5 then
    reject (version < 7 ∧ fields.length ≠ if version = 6 then 22 else 20)
      "Missing or unknown desktop preference"
    reject (Missing fields ["tuning_offset_hz", "discover_lora", "compact_recording", "spectrum_only",
        "receiver_source", "center_hz", "sample_rate", "survey_span_hz", "lna_gain", "vga_gain",
        "amplifier", "mixed_fonts", "mobile_position_display", "decode_enabled"])
      "Missing or unknown desktop preference"
    reject (version ≠ 5 ∧ Missing fields ["rtl_gain_tenths_db", "rtl_auto_gain"])
      "Missing RTL-SDR desktop preference"

/-- `parse`: the preferences of a settings file of any version that the desktop wrote. -/
def parse (text : Text) : Except String DesktopPreferences := do
  reject (text = [] ∨ text.length > maximumSettingsSize ∨ text.getLast? ≠ some 10)
    "Incomplete or oversized desktop settings"
  let fields ← readFields 42 "Malformed desktop settings" "Duplicate desktop preference" [] text
  reject (Missing fields ["version", "gps_enabled", "recording_enabled", "recording_directory",
      "gps_device_id", "gps_baud"]) "Missing desktop preference"
  let version ← versionOf fields
  checkNames version fields
  let result ← readPreferences version fields
  validatePreferences result
  return result

end Desktop

end OVMesh
