import OVMesh.Engine.Config
import OVMesh.Lib.Binary64
import OVMesh.Lib.Decimal

/-!
# Worker records

The records of the concentrator worker, `parse_rak_message` of `rak_process.cpp`. A floating-point
field is the binary64 value of its text.

* `numeric`, `numericDouble`: the numbers of a record.
* `parseScan`, `parsePacket`, `parseRakMessage`: the records.
* `parseRakMessage_ok`: what the parser lets through.
-/

namespace OVMesh

namespace Rak

open Checked Decimal Binary64

/-- The fields of `ConcentratorScan` and of a `RakMessage` that a scan record sets. -/
structure ScanRecord where
  frequencyHz : ℕ
  monotonicStart : ℚ
  monotonicEnd : ℚ
  counts : List ℕ
  deriving DecidableEq

/-- The fields of a `RakMessage` that a packet record sets. -/
structure PacketRecord where
  frequencyHz : ℕ
  bandwidthHz : ℕ
  spreadingFactor : ℕ
  codingRate : ℕ
  rssiDbm : ℚ
  snrDb : ℚ
  crcValid : Bool
  hardwareTimestampUs : ℕ
  payload : List UInt8
  deriving DecidableEq

/-- `RakMessage`: a line of the worker. -/
inductive RakMessage
  | ready
  | heartbeat
  | scan (record : ScanRecord)
  | packet (record : PacketRecord)
  | end
  | error (reason : String)
  deriving DecidableEq

/-! ## Numbers -/

/-- The text of `malformed`. -/
def malformed : String := "Invalid or oversized RAK worker record; reception stopped"

/-- `numeric` of an unsigned type. -/
def numeric (bits : ℕ) (s : Text) : Except String ℕ := do
  reject (s = [] ∨ s.all isDigit = false ∨ value s ≥ 2 ^ bits) malformed
  return value s

/-- `numeric<double>`: a decimal number, rounded to a double, which must be finite. -/
def numericDouble (s : Text) : Except String ℚ := do
  reject (s.length > 40) malformed
  match readDecimal s with
  | none => throw malformed
  | some exact =>
    reject (|nearest exact| ≥ overflow) malformed
    return nearest exact

/-- `hex_digit`: the value of a hexadecimal digit in lower case. -/
def hexDigit (c : UInt8) : Except String ℕ := do
  if 48 ≤ c ∧ c ≤ 57 then return c.toNat - 48
  else if 97 ≤ c ∧ c ≤ 102 then return c.toNat - 97 + 10
  else throw malformed

/-- The loop over the pairs of hexadecimal digits. -/
def hexBytes : Text → Except String (List UInt8)
  | high :: low :: rest => do
    let high ← hexDigit high
    let low ← hexDigit low
    let bytes ← hexBytes rest
    return UInt8.ofNat (high * 16 + low) :: bytes
  | _ => return []

/-! ## Records -/

/-- The diagnostic identifiers that are surfaced. -/
def failureCodes : List String :=
  ["operation-timeout", "receive-timeout", "scan-timeout", "initialization-timeout",
    "invalid-arguments", "device-unavailable", "initialization-failed", "receive-failed",
    "usb-ack-header-timeout", "usb-ack-body-timeout", "usb-request-timeout", "scan-start-failed",
    "scan-tune-failed", "scan-command-failed", "scan-status-failed", "scan-read-failed",
    "scan-count-mismatch", "scan-incomplete", "record-overflow", "scanner-close-failed",
    "receiver-close-failed", "device-close-failed"]

/-- The text of an error record, by its fields. -/
def failureText (arguments : List Text) : String :=
  match failureCodes.find? fun code => arguments = [ascii code] with
  | some code => "RAK receiver failure: " ++ code
  | none =>
    "RAK worker reported a USB or receiver failure; stop and reconnect the selected concentrator"

/-- `parse_scan`: the record of a spectral scan, with its histogram. -/
def parseScan : List Text → Except String RakMessage
  | frequency :: start :: finish :: counts => do
    let frequencyHz ← numeric 64 frequency
    let monotonicStart ← numericDouble start
    let monotonicEnd ← numericDouble finish
    reject (frequencyHz < 902000000 ∨ frequencyHz > 928000000 ∨ monotonicStart < 0 ∨
      monotonicEnd ≤ monotonicStart ∨ nearest (monotonicEnd - monotonicStart) > 5) malformed
    let counts ← counts.mapM (numeric 32)
    reject (counts.sum ≠ 2000) malformed
    return .scan {
      frequencyHz := frequencyHz
      monotonicStart := monotonicStart
      monotonicEnd := monotonicEnd
      counts := counts }
  | _ => throw malformed

/-- The payload of a packet record. -/
def parsePayload (crcValid : Bool) (hex : Text) : Except String (List UInt8) := do
  if hex = ascii "-" then return []
  else
    reject (crcValid = false ∨ hex.length > 510 ∨ hex.length % 2 ≠ 0) malformed
    hexBytes hex

/-- `parse_packet`: the record of a received packet. -/
def parsePacket : List Text → Except String RakMessage
  | [frequency, bandwidth, spreading, coding, rssi, snr, crc, timestamp, hex] => do
    let frequencyHz ← numeric 64 frequency
    let bandwidthHz ← numeric 32 bandwidth
    let spreadingFactor ← numeric 32 spreading
    let codingRate ← numeric 32 coding
    let rssiDbm ← numericDouble rssi
    let snrDb ← numericDouble snr
    let crc ← numeric 32 crc
    let hardwareTimestampUs ← numeric 32 timestamp
    reject (frequencyHz < 902000000 ∨ frequencyHz > 928000000 ∨
      (bandwidthHz ≠ 125000 ∧ bandwidthHz ≠ 250000 ∧ bandwidthHz ≠ 500000) ∨
      spreadingFactor < 7 ∨ spreadingFactor > 12 ∨ codingRate < 5 ∨ codingRate > 8 ∨ crc > 1 ∨
      rssiDbm < -250 ∨ rssiDbm > 100 ∨ snrDb < -100 ∨ snrDb > 100) malformed
    let payload ← parsePayload (crc == 1) hex
    return .packet {
      frequencyHz := frequencyHz
      bandwidthHz := bandwidthHz
      spreadingFactor := spreadingFactor
      codingRate := codingRate
      rssiDbm := rssiDbm
      snrDb := snrDb
      crcValid := crc == 1
      hardwareTimestampUs := hardwareTimestampUs
      payload := payload }
  | _ => throw malformed

/-- The kinds of records, by the first field. -/
def parseFields (kind : Text) (arguments : List Text) : Except String RakMessage := do
  if kind = ascii "ERROR" then throw (failureText arguments)
  else if kind = ascii "READY" ∧ arguments = [] then return .ready
  else if kind = ascii "HEARTBEAT" ∧ arguments = [] then return .heartbeat
  else if kind = ascii "END" ∧ arguments = [] then return .end
  else if kind = ascii "SCAN" ∧ arguments.length = 36 then parseScan arguments
  else if kind = ascii "PACKET" ∧ arguments.length = 9 then parsePacket arguments
  else throw malformed

/-- `parse_rak_message`. The loop that takes the record apart at its spaces refuses a record without
a byte, one with an empty field and one of more than 48 fields, with one text. -/
def parseRakMessage (line : Text) : Except String RakMessage := do
  let fields := line.splitOn 32
  reject (line = [] ∨ line.length > 2048 ∨ fields.length > 48 ∨ [] ∈ fields) malformed
  match fields with
  | [] => throw malformed
  | kind :: arguments => parseFields kind arguments

/-! ## Accepted records -/

/-- The scans that the parser lets through. -/
structure ScanRecord.Accepted (r : ScanRecord) : Prop where
  frequency : 902000000 ≤ r.frequencyHz ∧ r.frequencyHz ≤ 928000000
  start : 0 ≤ r.monotonicStart
  order : r.monotonicStart < r.monotonicEnd
  duration : nearest (r.monotonicEnd - r.monotonicStart) ≤ 5
  bins : r.counts.length = 33
  samples : r.counts.sum = 2000

/-- The packets that the parser lets through. -/
structure PacketRecord.Accepted (r : PacketRecord) : Prop where
  frequency : 902000000 ≤ r.frequencyHz ∧ r.frequencyHz ≤ 928000000
  bandwidth : r.bandwidthHz = 125000 ∨ r.bandwidthHz = 250000 ∨ r.bandwidthHz = 500000
  spreading : 7 ≤ r.spreadingFactor ∧ r.spreadingFactor ≤ 12
  coding : 5 ≤ r.codingRate ∧ r.codingRate ≤ 8
  rssi : -250 ≤ r.rssiDbm ∧ r.rssiDbm ≤ 100
  snr : -100 ≤ r.snrDb ∧ r.snrDb ≤ 100
  payload : r.payload ≠ [] → r.crcValid = true
  size : r.payload.length ≤ 255

/-- What `parse` accepts of a line. -/
def RakMessage.Accepted : RakMessage → Prop
  | .scan r => r.Accepted
  | .packet r => r.Accepted
  | .error _ => False
  | _ => True

theorem mapM_length {α β : Type} {ε : Type} {f : α → Except ε β} {l : List α} {l' : List β}
    (h : l.mapM f = .ok l') : l'.length = l.length := by
  induction l generalizing l' with
  | nil =>
    rw [List.mapM_nil, pure_eq_ok] at h
    rw [← h]
    rfl
  | cons a l ih =>
    simp only [List.mapM_cons, bind_eq_ok, pure_eq_ok] at h
    obtain ⟨b, -, bs, hbs, rfl⟩ := h
    rw [List.length_cons, ih hbs, List.length_cons]

theorem length_hexBytes {hex : Text} {bytes : List UInt8} (h : hexBytes hex = .ok bytes) :
    bytes.length = hex.length / 2 := by
  fun_induction hexBytes hex generalizing bytes with
  | case1 high low rest ih =>
    simp only [bind_eq_ok, pure_eq_ok] at h
    obtain ⟨_, -, _, -, more, hmore, rfl⟩ := h
    rw [List.length_cons, ih hmore, List.length_cons, List.length_cons]
    omega
  | case2 hex hshort =>
    rw [pure_eq_ok] at h
    subst h
    rcases hex with _ | ⟨high, _ | ⟨low, rest⟩⟩
    · rfl
    · simp
    · exact absurd rfl (hshort high low rest)

theorem parseScan_ok {arguments : List Text} {m : RakMessage} (hlength : arguments.length = 36)
    (h : parseScan arguments = .ok m) : m.Accepted := by
  unfold parseScan at h
  split at h
  · simp only [bind_eq_ok, reject_eq_ok, pure_eq_ok] at h
    obtain ⟨f, -, start, -, finish, -, _, hrange, counts, hcounts, _, hsum, rfl⟩ := h
    have hbins := mapM_length hcounts
    simp only [not_or, not_lt, not_le, gt_iff_lt] at hrange
    have hcount : counts.length = 33 := by
      rw [List.length_cons, List.length_cons, List.length_cons] at hlength
      omega
    exact {
      frequency := ⟨hrange.1, hrange.2.1⟩
      start := hrange.2.2.1
      order := hrange.2.2.2.1
      duration := hrange.2.2.2.2
      bins := hcount
      samples := not_not.mp hsum }
  · cases h

theorem parsePayload_ok {crcValid : Bool} {hex : Text} {payload : List UInt8}
    (h : parsePayload crcValid hex = .ok payload) :
    (payload ≠ [] → crcValid = true) ∧ payload.length ≤ 255 := by
  unfold parsePayload at h
  split at h
  · rw [pure_eq_ok] at h
    subst h
    simp
  · simp only [bind_eq_ok, reject_eq_ok, not_or, not_lt, gt_iff_lt] at h
    obtain ⟨_, ⟨hvalid, hlength, -⟩, h⟩ := h
    rw [length_hexBytes h]
    exact ⟨fun _ => Bool.not_eq_false _ ▸ hvalid, by omega⟩

theorem parsePacket_ok {arguments : List Text} {m : RakMessage}
    (h : parsePacket arguments = .ok m) : m.Accepted := by
  unfold parsePacket at h
  split at h
  · simp only [bind_eq_ok, reject_eq_ok, pure_eq_ok] at h
    obtain ⟨f, -, bandwidth, -, spreading, -, coding, -, rssi, -, snr, -, crc, -, timestamp, -,
      _, hrange, payload, hpayload, rfl⟩ := h
    simp only [not_or, not_lt, gt_iff_lt, not_and, not_not] at hrange
    obtain ⟨hf, hf', hbandwidth, hsf, hsf', hcr, hcr', -, hrssi, hrssi', hsnr, hsnr'⟩ := hrange
    obtain ⟨hvalid, hsize⟩ := parsePayload_ok hpayload
    exact {
      frequency := ⟨hf, hf'⟩
      bandwidth := by
        show bandwidth = _ ∨ bandwidth = _ ∨ bandwidth = _
        omega
      spreading := ⟨hsf, hsf'⟩
      coding := ⟨hcr, hcr'⟩
      rssi := ⟨hrssi, hrssi'⟩
      snr := ⟨hsnr, hsnr'⟩
      payload := hvalid
      size := hsize }
  · cases h

theorem parseRakMessage_ok {line : Text} {m : RakMessage} (h : parseRakMessage line = .ok m) :
    m.Accepted := by
  simp only [parseRakMessage, bind_eq_ok, reject_eq_ok] at h
  obtain ⟨_, -, h⟩ := h
  split at h
  · cases h
  · unfold parseFields at h
    split_ifs at h with _ _ _ _ hscan
    · cases h
      trivial
    · cases h
      trivial
    · cases h
      trivial
    · exact parseScan_ok hscan.2 h
    · exact parsePacket_ok h

end Rak

end OVMesh
