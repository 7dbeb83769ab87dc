import OVMesh.Protocol.Classify
import OVMesh.Store.Positions

/-!
# Receptions

The receptions of a recording: `validate_reception`, `append(Reception)` and `reception_from` of
`storage.cpp`. The measurements of a reception are finite, being values of `K`.

* `Reception`, `validateReception`, `validateConcentratorPacket`: a reception and its checks.
* `receptionValues`, `appendReception`: the row of a reception, and the writer.
* `receptionFrom`, `readReception`: the readers.
* `evidenceFrom_values`, `receiverPositionFrom_values`: the evidence and the position are read back.
-/

namespace OVMesh

open Checked Stateful SessionStore

variable {K : Type}

/-! ## Receptions -/

/-- `ConcentratorPacketMetadata`: the board of a packet, its level and its time. -/
structure ConcentratorPacketMetadata (K : Type) where
  boardIndex : ℕ
  rssiDbm : K
  hardwareTimestampUs : ℕ

/-- `Reception`: a frame with its time, its waveform, what was decoded, and the receiver position. -/
structure Reception (K : Type) where
  id : ℕ
  utcSeconds : K
  elapsedSeconds : K
  frequencyHz : ℕ
  bandwidthHz : ℕ
  spreadingFactor : ℕ
  codingRate : ℕ
  durationSeconds : K
  snrDb : K
  frequencyErrorHz : K
  headerValid : Bool
  crcValid : Bool
  laneLabel : Text
  decoded : Protocol.DecodeResult
  receiverPosition : Option (PositionFix K)
  concentrator : Option (ConcentratorPacketMetadata K)

open Protocol in
/-- The values of `protocol::Status`, in their order. -/
def statuses : List Status :=
  [.classified, .badPhyCrc, .invalidFrame, .noMatchingKey, .decryptionUnvalidated,
    .unsupportedPayload, .ambiguousKeys, .unsupportedPki, .invalidProfile, .cryptoError]

/-- The conversion of a status to an integer. -/
def statusCode (status : Protocol.Status) : ℕ := statuses.idxOf status

theorem statuses_statusCode (status : Protocol.Status) :
    statuses[statusCode status]? = some status := by
  cases status <;> rfl

/-- `canonical_classification`: the texts that may be stored; all others are unknown. -/
def canonicalClassification (value : Text) : Text :=
  if value = ascii "likely Meshtastic" ∨ value = ascii "possible Meshtastic" ∨
      value = ascii "likely LoRaWAN" then value
  else ascii "unknown LoRa"

/-! ## Rows -/

/-- The columns of a receiver position. -/
def positionValues (position : Option (PositionFix K)) : List (Value K) :=
  match position with
  | some f =>
    if f.valid then
      [.real f.latitude, .real f.longitude, .number f.altitudeM, .flag f.manual, .real f.utcSeconds,
        .real f.monotonicSeconds, .text f.source, .number f.hdop, .integer f.satellites]
    else List.replicate 9 .null
  | none => List.replicate 9 .null

/-- The columns of the evidence. -/
def evidenceValues (evidence : Option Protocol.EnvelopeEvidence) : List (Value K) :=
  match evidence with
  | some e => [.integer e.port, .flag e.signaturePresent]
  | none => List.replicate 2 .null

/-- The values of a reception. The reserved columns remain null. -/
def receptionValues (r : Reception K) : List (Value K) :=
  [.integer (toInt64 r.id), .real r.utcSeconds, .real r.elapsedSeconds,
    .integer (toInt64 r.frequencyHz), .integer r.bandwidthHz, .integer r.spreadingFactor,
    .integer r.codingRate, .real r.durationSeconds, .real r.snrDb, .real r.frequencyErrorHz,
    .flag r.headerValid, .flag r.crcValid, .text r.laneLabel,
    .integer (statusCode r.decoded.status),
    .text (canonicalClassification r.decoded.classification), .text (ascii "not authenticated")] ++
  List.replicate 31 .null ++ positionValues r.receiverPosition ++
  evidenceValues r.decoded.evidence ++ List.replicate 4 .null

/-- `SAVEPOINT`, `RELEASE` and `ROLLBACK TO`: a failure leaves the tables as they were. -/
def savepoint (f : Database K → Except String (Database K)) : Method K Unit := do
  let s ← get
  let db ← check (f s.db)
  set { s with db }

variable [Field K] [LinearOrder K]

/-! ## Checks -/

/-- The checks of the evidence. -/
def validateEvidence (r : Reception K) : Except String Unit :=
  match r.decoded.evidence with
  | some evidence =>
    reject (r.crcValid = false ∨ r.headerValid = false ∨ evidence.port = 0 ∨
        evidence.port > 65535 ∨ r.decoded.status ≠ .classified ∧
          (r.decoded.status ≠ .unsupportedPayload ∨
            r.decoded.classification ≠ ascii "possible Meshtastic"))
      "Envelope evidence eligibility is inconsistent"
  | none =>
    reject (r.decoded.classification = ascii "possible Meshtastic")
      "Possible Meshtastic classification requires envelope evidence"

/-- `validate_reception`: the metadata, the times, the levels, the texts and the evidence of a reception.
-/
def validateReception (r : Reception K) : Except String Unit := do
  reject (r.id > int64Max ∨ r.frequencyHz = 0 ∨ r.frequencyHz > 6000000000 ∨ r.bandwidthHz = 0 ∨
      r.bandwidthHz > 2000000 ∨ r.spreadingFactor < 5 ∨ r.spreadingFactor > 12 ∨ r.codingRate < 5 ∨
      r.codingRate > 8 ∨ r.laneLabel.length > 160)
    "Invalid reception metadata"
  nonnegative r.utcSeconds "reception time"
  nonnegative r.elapsedSeconds "reception elapsed time"
  nonnegative r.durationSeconds "reception duration"
  reject (r.decoded.authentication ≠ ascii "not authenticated")
    "Unsupported authentication claim at persistence boundary"
  reject (r.decoded.status = .classified ∧ (r.crcValid = false ∨ r.headerValid = false ∨
      r.decoded.classification ≠ ascii "likely Meshtastic"))
    "Classification rejected at persistence boundary"
  validateEvidence r
  forM r.receiverPosition.toList fun fix => do
    if fix.valid then validateFix fix

/-- `validate_concentrator_packet`: the board, its settings and the level of a packet. -/
def validateConcentratorPacket (r : Reception K) (c : ReceiverConfig K) : Except String Unit := do
  reject (c.concentrators.decodeEnabled = false ∧
      (r.decoded.status = .classified ∨ r.decoded.evidence.isSome))
    "Protocol classification is disabled for this concentrator recording"
  match r.concentrator with
  | none => throw "Invalid concentrator packet provenance"
  | some packet =>
    match c.concentrators.boards[packet.boardIndex]? with
    | none => throw "Invalid concentrator packet provenance"
    | some b =>
      reject (packet.rssiDbm < -200 ∨ packet.rssiDbm > 50) "Invalid concentrator packet provenance"
      reject (b.packetsEnabled = false ∨ r.frequencyHz ≠ b.frequencyHz ∨
          r.bandwidthHz ≠ b.bandwidthHz ∨ r.spreadingFactor ≠ b.spreadingFactor)
        "Packet disagrees with configured concentrator service modem"

/-! ## Writing -/

omit [Field K] in
/-- The two inserts of `append(Reception)`. -/
def insertReception (db : Database K) (r : Reception K) : Except String (Database K) := do
  forM (receptionValues r) Value.bind
  let row := rowOf (receptionColumnsFor 3) (receptionValues r)
  reject (∃ saved ∈ db.receptions, saved .id = .integer (toInt64 r.id))
    "Session database operation failed (code 19)"
  let db := { db with receptions := db.receptions ++ [row] }
  match r.concentrator with
  | none => return db
  | some packet =>
    reject (r.id ∈ db.concentratorPackets.map (·.receptionId) ∨
        packet.boardIndex ≥ boardCount db)
      "Session database operation failed (code 19)"
    return { db with concentratorPackets := db.concentratorPackets ++
      [{ receptionId := r.id, boardIndex := packet.boardIndex, rssiDbm := packet.rssiDbm,
         hardwareTimestampUs := packet.hardwareTimestampUs }] }

/-- `append(Reception)`: the checks, the row, and that of the concentrator packet. -/
def appendReception (r : Reception K) : Method K Unit := do
  check (validateReception r)
  let s ← get
  if s.schemaVersion = 7 then check (validateConcentratorPacket r s.recordedConfig)
  else check (reject (r.concentrator.isSome = true)
    "Concentrator metadata requires a concentrator recording")
  beginBatch
  savepoint fun db => insertReception db r

/-! ## Reading -/

/-- A column that may be null. -/
def readOptional (value : Value K) : Except String (Option K) :=
  if value.isNull then pure none else do return some (← value.readReal)

/-- The receiver position of a selected row. -/
def receiverPositionFrom (s : List (Value K)) : Except String (Option (PositionFix K)) := do
  let column n := s.getD n .null
  if (column 47).isNull = false ∨ (column 48).isNull = false then
    let latitude ← (column 47).readReal
    let longitude ← (column 48).readReal
    let altitudeM ← readOptional (column 49)
    let manual ← (column 50).readBoolean
    let utcSeconds ← (column 51).readReal
    let monotonicSeconds ← (column 52).readReal
    let source ← (column 53).readText
    let hdop ← readOptional (column 54)
    let satellites ← (column 55).readUnsigned 1000
    return some {
      latitude, longitude, altitudeM, utcSeconds, monotonicSeconds, manual, hdop, satellites
      valid := true
      source }
  else
    reject (∃ n ∈ List.range' 49 7, (column n).isNull = false)
      "Incomplete receiver position in saved record"
    return none

/-- The evidence of a selected row. -/
def evidenceFrom (version : ℕ) (s : List (Value K)) :
    Except String (Option Protocol.EnvelopeEvidence) := do
  let column n := s.getD n .null
  if version ≥ 3 ∧ ((column 56).isNull = false ∨ (column 57).isNull = false) then
    let port ← (column 56).readUnsigned (2 ^ 32 - 1)
    let signaturePresent ← (column 57).readBoolean
    return some { port, signaturePresent }
  else return none

/-- `reception_from`: the reception of a row, with every column in its range. -/
def receptionFrom (version : ℕ) (s : List (Value K)) : Except String (Reception K) := do
  let column n := s.getD n .null
  let id ← (column 0).readUnsigned int64Max
  let utcSeconds ← (column 1).readReal
  let elapsedSeconds ← (column 2).readReal
  let frequencyHz ← (column 3).readUnsigned 6000000000
  let bandwidthHz ← (column 4).readUnsigned (2 ^ 32 - 1)
  let spreadingFactor ← (column 5).readUnsigned 12
  let codingRate ← (column 6).readUnsigned 8
  let durationSeconds ← (column 7).readReal
  let snrDb ← (column 8).readReal
  let frequencyErrorHz ← (column 9).readReal
  let headerValid ← (column 10).readBoolean
  let crcValid ← (column 11).readBoolean
  let laneLabel ← (column 12).readText
  let code ← (column 13).readInteger
  match if code < 0 then none else statuses[code.toNat]? with
  | none => throw "Unsupported saved decode status"
  | some status =>
    let classification := canonicalClassification (← (column 14).readText)
    let authentication ← (column 15).readText
    let receiverPosition ← receiverPositionFrom s
    let evidence ← evidenceFrom version s
    let r : Reception K := {
      id, utcSeconds, elapsedSeconds, frequencyHz, bandwidthHz, spreadingFactor, codingRate
      durationSeconds, snrDb, frequencyErrorHz, headerValid, crcValid, laneLabel
      decoded := { status, classification, authentication, evidence }
      receiverPosition
      concentrator := none }
    validateReception r
    return r

/-- The reader of a row of a recording. -/
def readReception (version : ℕ) (row : ReceptionRow K) : Except String (Reception K) :=
  receptionFrom version (select (receptionMetadataColumns version) row)

/-! ## Rows that were written -/

section

omit [Field K] [LinearOrder K]

variable {r : Reception K}

theorem length_positionValues (position : Option (PositionFix K)) :
    (positionValues position).length = 9 := by
  cases position with
  | none => rfl
  | some f =>
    unfold positionValues
    simp only
    split <;> rfl

theorem length_evidenceValues (evidence : Option Protocol.EnvelopeEvidence) :
    (evidenceValues evidence : List (Value K)).length = 2 := by
  cases evidence <;> rfl

theorem getD_position {n : ℕ} (h : n < 9) : (receptionValues r).getD (47 + n) Value.null =
    (positionValues r.receiverPosition).getD n Value.null := by
  have hlength := length_positionValues r.receiverPosition
  rw [receptionValues, List.append_assoc, List.append_assoc, List.getD_append_right _ _ _ _ (by simp)]
  rw [List.getD_append _ _ _ _ (by simp; omega)]
  simp

theorem getD_evidence {n : ℕ} (h : n < 2) : (receptionValues r).getD (56 + n) Value.null =
    (evidenceValues r.decoded.evidence).getD n Value.null := by
  have hlength := length_positionValues r.receiverPosition
  have hevidence := @length_evidenceValues K r.decoded.evidence
  rw [receptionValues, List.append_assoc, List.getD_append_right _ _ _ _ (by simp; omega)]
  rw [List.getD_append _ _ _ _ (by simp; omega)]
  simp [hlength]

theorem evidenceFrom_values {version : ℕ} (hversion : 3 ≤ version)
    (h : ∀ e ∈ r.decoded.evidence, e.port ≤ 65535) :
    evidenceFrom version (receptionValues r) = .ok r.decoded.evidence := by
  have h56 := @getD_evidence K r 0 (by omega)
  have h57 := @getD_evidence K r 1 (by omega)
  simp only [evidenceFrom, h56, h57]
  cases hevidence : r.decoded.evidence with
  | none => exact if_neg (by simp [evidenceValues, Value.isNull])
  | some e =>
    have hport := h e hevidence
    simp only [evidenceValues, List.getD_cons_zero, List.getD_cons_succ, Value.isNull, hversion,
      true_and, true_or, if_true, bind_eq_ok, Value.readBoolean_flag, pure_eq_ok]
    exact ⟨e.port, Value.readUnsigned_integer (by omega), e.signaturePresent, rfl, rfl⟩

variable [Field K]

theorem readOptional_number (x : Option K) : readOptional (.number x) = .ok x := by
  cases x <;> rfl

variable [LinearOrder K]

theorem receiverPositionFrom_values
    (h : ∀ f ∈ r.receiverPosition, f.valid = true → validateFix f = .ok () ∧ bindText f.source = .ok ()) :
    receiverPositionFrom (receptionValues r) = .ok (validFix r.receiverPosition) := by
  have hcolumn : ∀ n < 9, (receptionValues r).getD (47 + n) Value.null =
    (positionValues r.receiverPosition).getD n Value.null := fun n hn => getD_position hn
  -- Without a valid fix all nine columns are null, and with one the first two are not.
  cases hposition : validFix r.receiverPosition with
  | none => 
    have hnull : positionValues r.receiverPosition = List.replicate 9 .null := by
      unfold positionValues
      cases hr : r.receiverPosition with
      | none => rfl
      | some f =>
        rw [hr, validFix, Option.filter_some] at hposition
        simp only
        rw [if_neg]
        intro hf
        rw [if_pos hf] at hposition
        cases hposition
    have hall : ∀ n, 47 ≤ n → n < 56 → (receptionValues r).getD n Value.null = .null := by
      intro n h1 h2
      obtain ⟨k, rfl⟩ := Nat.exists_eq_add_of_le h1
      rw [hcolumn k (by omega), hnull, List.getD_replicate _ (by omega)]
    have hskip : ¬ (((receptionValues r).getD 47 Value.null).isNull = false ∨
        ((receptionValues r).getD 48 Value.null).isNull = false) := by
      rw [hall 47 le_rfl (by omega), hall 48 (by omega) (by omega)]
      simp [Value.isNull]
    simp only [receiverPositionFrom]
    rw [if_neg hskip]
    simp only [bind_eq_ok, reject_eq_ok, pure_eq_ok]
    refine ⟨(), ?_, trivial⟩
    rintro ⟨n, hn, hfalse⟩
    rw [List.mem_range'_1] at hn
    rw [hall n (by omega) (by omega)] at hfalse
    cases hfalse
  | some f => 
    obtain ⟨hr, hf⟩ := Option.filter_eq_some_iff.mp hposition
    obtain ⟨hfix, hsource⟩ := h f hr hf
    have hsatellites : f.satellites ≤ 1000 := by
      simp only [validateFix, bind_eq_ok, reject_eq_ok, not_or, not_lt] at hfix
      obtain ⟨_, -, _, -, _, -, _, -, hle, -⟩ := hfix
      exact hle
    have hvalues : positionValues r.receiverPosition =
      [.real f.latitude, .real f.longitude, .number f.altitudeM, .flag f.manual, .real f.utcSeconds,
        .real f.monotonicSeconds, .text f.source, .number f.hdop, .integer f.satellites] := by
      rw [hr, positionValues]
      exact if_pos hf
    rw [hvalues] at hcolumn
    have h0 : (receptionValues r).getD 47 Value.null = .real f.latitude := hcolumn 0 (by omega)
    have h1 : (receptionValues r).getD 48 Value.null = .real f.longitude := hcolumn 1 (by omega)
    have h2 : (receptionValues r).getD 49 Value.null = .number f.altitudeM := hcolumn 2 (by omega)
    have h3 : (receptionValues r).getD 50 Value.null = .flag f.manual := hcolumn 3 (by omega)
    have h4 : (receptionValues r).getD 51 Value.null = .real f.utcSeconds := hcolumn 4 (by omega)
    have h5 : (receptionValues r).getD 52 Value.null = .real f.monotonicSeconds :=
      hcolumn 5 (by omega)
    have h6 : (receptionValues r).getD 53 Value.null = .text f.source :=
      hcolumn 6 (by omega)
    have h7 : (receptionValues r).getD 54 Value.null = .number f.hdop := hcolumn 7 (by omega)
    have h8 : (receptionValues r).getD 55 Value.null = .integer f.satellites := hcolumn 8 (by omega)
    simp only [receiverPositionFrom, h0, h1, h2, h3, h4, h5, h6, h7, h8, Value.isNull, true_or,
      if_true, bind_eq_ok, pure_eq_ok, Value.readReal_real, Except.ok.injEq, readOptional_number,
      Value.readBoolean_flag, Value.readText_text hsource, Value.readUnsigned_integer hsatellites,
      exists_eq_left']
    rw [← hf]

end

end OVMesh
