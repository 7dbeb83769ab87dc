import OVMesh.Phy.Receiver
import OVMesh.Store.Receptions
import OVMesh.Store.PowerCover

/-!
# Classified receptions

The receptions that the engine makes of decoded frames, from the classifier to the recording and back.

* `frameReception`: the reception of a frame. `laneFields`: the frames of the lanes.
* `Recordable`: metadata that the store accepts. `frameReception_valid`: the classifier adds nothing that
  it refuses.
* `select_row`, `receptionFrom_values`: a row of a valid reception is read back.
* `receptions_recorded`: the frames of a recording, whatever their bytes and the keys.
-/

namespace OVMesh

open Checked Stateful SessionStore

variable {K : Type}

/-! ## The engine -/

section Engine

variable [Field K]

/-- What the engine knows of a frame beside the frame itself. -/
structure FrameFields (K : Type) where
  id : ℕ
  startedUtc : K
  elapsedSeconds : K
  frequencyHz : ℕ
  bandwidthHz : ℕ
  spreadingFactor : ℕ
  durationSeconds : K
  laneLabel : Text
  frame : Phy.LocatedFrame K
  receiverPosition : Option (PositionFix K)

/-- The reception of a frame, with the classification of its bytes. Its measurements are finite, being
values of `K`. -/
def frameReception (library : Protocol.Library) (keyring : List Protocol.Profile)
    (f : FrameFields K) : Reception K where
  id := f.id
  utcSeconds := f.startedUtc + f.elapsedSeconds
  elapsedSeconds := f.elapsedSeconds
  frequencyHz := f.frequencyHz
  bandwidthHz := f.bandwidthHz
  spreadingFactor := f.spreadingFactor
  codingRate := f.frame.codingRate
  durationSeconds := f.durationSeconds
  snrDb := f.frame.snrDb
  frequencyErrorHz := f.frame.frequencyErrorHz
  headerValid := f.frame.headerValid
  crcValid := f.frame.payloadCrcValid
  laneLabel := f.laneLabel
  decoded := Protocol.classifyMeshtastic library (f.frame.bytes.map UInt8.ofBitVec)
    (f.frame.headerValid && f.frame.payloadCrcValid) keyring
  receiverPosition := f.receiverPosition
  concentrator := none

/-- Where a stream starts: `segmentStart` includes the delay of the first output of a lane. -/
structure StreamClock (K : Type) where
  startedUtc : K
  inputEpoch : K
  segmentStart : K

/-- The fields of a frame that the receiver of a lane reports. -/
def laneFields (id : ℕ) (clock : StreamClock K) (config : LaneConfig)
    (receiverPosition : Option (PositionFix K)) (f : Phy.LocatedFrame K) : FrameFields K where
  id := id
  startedUtc := clock.startedUtc
  elapsedSeconds := clock.inputEpoch + clock.segmentStart + f.firstSample / config.bandwidthHz
  frequencyHz := config.frequencyHz
  bandwidthHz := config.bandwidthHz
  spreadingFactor := config.spreadingFactor
  durationSeconds := (f.lastSample - f.firstSample : ℕ) / config.bandwidthHz
  laneLabel := config.label
  frame := f
  receiverPosition := receiverPosition

end Engine

/-! ## What the store accepts -/

section Valid

variable [Field K] [LinearOrder K] {r : Reception K}

theorem forM_toList {position : Option (PositionFix K)} :
    forM position.toList (fun fix => do if fix.valid then validateFix fix) = Except.ok () ↔
      ∀ f ∈ position, f.valid = true → validateFix f = .ok () := by
  rw [forM_eq_ok]
  refine forall_congr' fun f => ?_
  rw [Option.mem_toList]
  refine imp_congr_right fun _ => ?_
  split_ifs with hvalid
  · simp [hvalid]
  · simp [hvalid, pure, Except.pure]

/-- What `validateReception` accepts. -/
structure ValidReception (r : Reception K) : Prop where
  metadata : ¬ (r.id > int64Max ∨ r.frequencyHz = 0 ∨ r.frequencyHz > 6000000000 ∨ r.bandwidthHz = 0 ∨
    r.bandwidthHz > 2000000 ∨ r.spreadingFactor < 5 ∨ r.spreadingFactor > 12 ∨ r.codingRate < 5 ∨
    r.codingRate > 8 ∨ r.laneLabel.length > 160)
  times : 0 ≤ r.utcSeconds ∧ 0 ≤ r.elapsedSeconds ∧ 0 ≤ r.durationSeconds
  authentication : r.decoded.authentication = ascii "not authenticated"
  classified : r.decoded.status = .classified → r.crcValid = true ∧ r.headerValid = true ∧
    r.decoded.classification = ascii "likely Meshtastic"
  evidence : validateEvidence r = .ok ()
  position : ∀ f ∈ r.receiverPosition, f.valid = true → validateFix f = .ok ()

theorem validReception : validateReception r = .ok () ↔ ValidReception r := by
  have hnonnegative : ∀ (x : K) (field : String), nonnegative x field = .ok () ↔ 0 ≤ x := by
    intro x field
    rw [nonnegative, reject_eq_ok, not_lt]
  simp only [validateReception, bind_eq_ok, reject_eq_ok, hnonnegative, forM_toList]
  constructor
  · rintro ⟨_, hmetadata, _, hutc, _, helapsed, _, hduration, _, hauth, _, hclass, _, hevidence,
      hposition⟩
    refine ⟨hmetadata, ⟨hutc, helapsed, hduration⟩, not_not.mp hauth, fun hstatus => ?_, hevidence,
      hposition⟩
    rw [not_and_or, not_or, not_or, not_not] at hclass
    rcases hclass with hne | ⟨hcrc, hheader, hlikely⟩
    · exact absurd hstatus hne
    · exact ⟨by simpa using hcrc, by simpa using hheader, hlikely⟩
  · rintro ⟨hmetadata, ⟨hutc, helapsed, hduration⟩, hauth, hclass, hevidence, hposition⟩
    refine ⟨(), hmetadata, (), hutc, (), helapsed, (), hduration, (), not_not.mpr hauth, (), ?_, (),
      hevidence, hposition⟩
    rintro ⟨hstatus, hbad⟩
    obtain ⟨hcrc, hheader, hlikely⟩ := hclass hstatus
    rw [hcrc, hheader, hlikely] at hbad
    simp at hbad

/-- The metadata of a frame that the store accepts. -/
structure Recordable (f : FrameFields K) : Prop where
  id : f.id ≤ int64Max
  frequency : 0 < f.frequencyHz ∧ f.frequencyHz ≤ 6000000000
  bandwidth : 0 < f.bandwidthHz ∧ f.bandwidthHz ≤ 2000000
  spreading : 5 ≤ f.spreadingFactor ∧ f.spreadingFactor ≤ 12
  coding : 5 ≤ f.frame.codingRate ∧ f.frame.codingRate ≤ 8
  times : 0 ≤ f.startedUtc ∧ 0 ≤ f.elapsedSeconds ∧ 0 ≤ f.durationSeconds
  label : f.laneLabel.length ≤ 160 ∧ validUtf8 f.laneLabel = true
  position : ∀ fix ∈ f.receiverPosition, fix.valid = true → validateFix fix = .ok ()
  source : ∀ fix ∈ f.receiverPosition, fix.valid = true → validUtf8 fix.source = true

/-! ## Results of the classifier -/

variable {library : Protocol.Library} {keyring : List Protocol.Profile} {f : FrameFields K}

omit [LinearOrder K] in
theorem frameReception_consistent :
    (frameReception library keyring f).decoded.Consistent (f.frame.headerValid && f.frame.payloadCrcValid) :=
  Protocol.classify_consistent

/-- **No result of the classifier is refused**, whatever the bytes of the frame and the keys. -/
theorem frameReception_valid [IsStrictOrderedRing K] (h : Recordable f) :
    ValidReception (frameReception library keyring f) := by
  have hconsistent : (frameReception library keyring f).decoded.Consistent _ := frameReception_consistent
  have hboth : ∀ {a b : Bool}, (a && b) = true → b = true ∧ a = true := fun hand => by
    rw [Bool.and_eq_true] at hand
    exact hand.symm
  refine ⟨?_, ⟨add_nonneg h.times.1 h.times.2.1, h.times.2.1, h.times.2.2⟩, hconsistent.authentication,
    fun hstatus => ?_, ?_, h.position⟩
  · obtain ⟨hid, hfrequency, hbandwidth, hspreading, hcoding, -, hlabel, -, -⟩ := h
    simp only [frameReception]
    omega
  · obtain ⟨hcrc, hclass⟩ := hconsistent.classified hstatus
    exact ⟨(hboth hcrc).1, (hboth hcrc).2, hclass⟩
  · rw [validateEvidence]
    split <;> rename_i hevidence
    · obtain ⟨hcrc, hpos, hle, hstatus⟩ := hconsistent.evidence _ hevidence
      obtain ⟨hpayload, hheader⟩ := hboth hcrc
      rw [reject_eq_ok]
      rintro (hbad | hbad | hbad | hbad | ⟨hne, hbad⟩)
      · rw [show (frameReception library keyring f).crcValid = true from hpayload] at hbad
        cases hbad
      · rw [show (frameReception library keyring f).headerValid = true from hheader] at hbad
        cases hbad
      · omega
      · omega
      · rcases hstatus with hstatus | hstatus
        · exact hne hstatus
        · rcases hbad with hbad | hbad
          · exact hbad hstatus.1
          · exact hbad hstatus.2
    · rw [reject_eq_ok]
      intro hpossible
      have hsome := hconsistent.possible hpossible
      rw [hevidence] at hsome
      cases hsome

theorem canonicalClassification_of_consistent {crc : Bool} {d : Protocol.DecodeResult}
    (h : d.Consistent crc) : canonicalClassification d.classification = d.classification := by
  unfold canonicalClassification
  rcases h.classification with hclass | hclass | hclass <;> rw [hclass]
  · decide
  · exact if_pos (.inl rfl)
  · exact if_pos (.inr (.inl rfl))

/-! ## Rows that are read back -/

section Rows

omit [Field K] [LinearOrder K]

/-- A column of a row that was inserted. -/
theorem rowOf_getElem {columns : List ReceptionColumn} {values : List (Value K)} (hnodup : columns.Nodup)
    {i : ℕ} (hcolumns : i < columns.length) (hvalues : i < values.length) :
    rowOf columns values columns[i] = values[i] := by
  induction columns generalizing values i with
  | nil => cases hcolumns
  | cons column columns ih =>
    obtain ⟨hcolumn, hnodup⟩ := List.nodup_cons.mp hnodup
    cases values with
    | nil => cases hvalues
    | cons value values =>
      rw [rowOf, List.zip_cons_cons, List.lookup_cons]
      cases i with
      | zero => simp
      | succ i =>
        have hlt : i < columns.length := Nat.lt_of_succ_lt_succ hcolumns
        have hne : columns[i] ≠ column := fun heq => hcolumn (heq ▸ List.getElem_mem hlt)
        simp only [List.getElem_cons_succ, beq_false_of_ne hne]
        exact ih hnodup hlt (Nat.lt_of_succ_lt_succ hvalues)

/-- The columns that are selected are those that were inserted, or reserved ones. -/
theorem metadata_columns : ∀ i < 62,
    (receptionMetadataColumns 3)[i]? = (receptionColumnsFor 3)[i]?.map some ∨
      (receptionMetadataColumns 3)[i]? = some none ∧ (16 ≤ i ∧ i < 47 ∨ 58 ≤ i) := by
  decide

theorem columns_nodup : (receptionColumnsFor 3).Nodup := by decide

theorem length_receptionValues : (receptionValues r).length = 62 := by
  simp [receptionValues, length_positionValues, length_evidenceValues]

theorem getElem?_reserved {i : ℕ} (h : 16 ≤ i ∧ i < 47 ∨ 58 ≤ i ∧ i < 62) :
    (receptionValues r)[i]? = some .null := by
  have hposition := length_positionValues r.receiverPosition
  have hevidence := @length_evidenceValues K r.decoded.evidence
  rcases h with ⟨h16, h47⟩ | ⟨h58, h62⟩
  · rw [receptionValues, List.append_assoc, List.append_assoc, List.getElem?_append_left (by simp; omega),
      List.getElem?_append_right (by simpa using h16), List.getElem?_replicate, if_pos (by simp; omega)]
  · rw [receptionValues, List.getElem?_append_right (by simp; omega), List.getElem?_replicate,
      if_pos (by simp; omega)]

/-- What a statement selects of an inserted row are its values. -/
theorem select_row {version : ℕ} (hversion : 3 ≤ version) :
    select (receptionMetadataColumns version) (rowOf (receptionColumnsFor 3) (receptionValues r)) =
      receptionValues r := by
  have hcolumns : receptionMetadataColumns version = receptionMetadataColumns 3 := by
    rw [receptionMetadataColumns, receptionMetadataColumns, if_pos hversion, if_pos le_rfl]
  have hlength : (receptionColumnsFor 3).length = 62 := by decide
  have hmetadata : (receptionMetadataColumns 3).length = 62 := by decide
  have hvalues := @length_receptionValues K r
  rw [hcolumns]
  refine List.ext_getElem? fun i => ?_
  rw [select, List.getElem?_map]
  by_cases hi : i < 62
  · rcases metadata_columns i hi with hsome | ⟨hnone, hreserved⟩
    · rw [hsome, List.getElem?_eq_getElem (by omega), List.getElem?_eq_getElem (by omega)]
      simp only [Option.map_some, Option.elim_some]
      rw [rowOf_getElem columns_nodup (by omega) (by omega)]
    · rw [hnone, getElem?_reserved (by omega)]
      rfl
  · rw [List.getElem?_eq_none (by omega), List.getElem?_eq_none (by omega)]
    rfl

end Rows

theorem bindText_classification {value : Text} : bindText (canonicalClassification value) = .ok () := by
  unfold canonicalClassification
  split_ifs with hknown
  · rcases hknown with hknown | hknown | hknown <;> rw [hknown] <;> decide +kernel
  · decide +kernel

/-- The text of the position of a reception can be bound. -/
def BoundPosition (r : Reception K) : Prop :=
  ∀ f ∈ r.receiverPosition, f.valid = true → bindText f.source = .ok ()

theorem bindText_authentication : bindText (ascii "not authenticated") = .ok () := by decide +kernel

/-- A valid reception is read back from its values, with its position if that is valid. -/
theorem receptionFrom_values {version : ℕ} (hversion : 3 ≤ version) (h : ValidReception r)
    (hbound : BoundPosition r) (hlabel : bindText r.laneLabel = .ok ()) (hconcentrator : r.concentrator = none)
    (hclass : canonicalClassification r.decoded.classification = r.decoded.classification) :
    receptionFrom version (receptionValues r) =
      .ok { r with receiverPosition := validFix r.receiverPosition } := by
  have hread : validateReception { r with receiverPosition := validFix r.receiverPosition } = .ok () := by
    rw [validReception]
    exact { h with position := fun f hf => h.position f (Option.filter_eq_some_iff.mp hf).1 }
  have hposition := receiverPositionFrom_values fun f hf hvalid =>
    ⟨h.position f hf hvalid, hbound f hf hvalid⟩
  have hevidence : evidenceFrom version (receptionValues r) = .ok r.decoded.evidence := by
    refine evidenceFrom_values hversion fun e he => ?_
    have hvalid := h.evidence
    rw [validateEvidence, he, reject_eq_ok] at hvalid
    omega
  have hmetadata := h.metadata
  have hid : toInt64 r.id = r.id := toInt64_of_le (by omega)
  have hfrequency : toInt64 r.frequencyHz = r.frequencyHz := toInt64_of_le (by unfold int64Max; omega)
  have hstatus := statuses_statusCode r.decoded.status
  have hauthentication := h.authentication
  -- The values of the metadata, column by column in the order of the writer.
  have h0 : (receptionValues r).getD 0 Value.null = .integer (toInt64 r.id) := rfl
  have h1 : (receptionValues r).getD 1 Value.null = .real r.utcSeconds := rfl
  have h2 : (receptionValues r).getD 2 Value.null = .real r.elapsedSeconds := rfl
  have h3 : (receptionValues r).getD 3 Value.null = .integer (toInt64 r.frequencyHz) := rfl
  have h4 : (receptionValues r).getD 4 Value.null = .integer r.bandwidthHz := rfl
  have h5 : (receptionValues r).getD 5 Value.null = .integer r.spreadingFactor := rfl
  have h6 : (receptionValues r).getD 6 Value.null = .integer r.codingRate := rfl
  have h7 : (receptionValues r).getD 7 Value.null = .real r.durationSeconds := rfl
  have h8 : (receptionValues r).getD 8 Value.null = .real r.snrDb := rfl
  have h9 : (receptionValues r).getD 9 Value.null = .real r.frequencyErrorHz := rfl
  have h10 : (receptionValues r).getD 10 Value.null = .flag r.headerValid := rfl
  have h11 : (receptionValues r).getD 11 Value.null = .flag r.crcValid := rfl
  have h12 : (receptionValues r).getD 12 Value.null = .text r.laneLabel := rfl
  have h13 : (receptionValues r).getD 13 Value.null = .integer (statusCode r.decoded.status) := rfl
  have h14 : (receptionValues r).getD 14 Value.null =
    .text (canonicalClassification r.decoded.classification) := rfl
  have h15 : (receptionValues r).getD 15 Value.null = .text (ascii "not authenticated") := rfl
  simp only [receptionFrom, h0, h1, h2, h3, h4, h5, h6, h7, h8, h9, h10, h11, h12, h13, h14, h15, hid,
    hfrequency, hposition, hevidence, Value.readReal_real, Value.readBoolean_flag, Value.readInteger_integer,
    Value.readText_text hlabel, Value.readText_text bindText_classification,
    Value.readText_text bindText_authentication]
  rw [Value.readUnsigned_integer (by omega), Value.readUnsigned_integer (by omega),
    Value.readUnsigned_integer (by omega), Value.readUnsigned_integer (by omega),
    Value.readUnsigned_integer (by omega)]
  have hcode : (if (statusCode r.decoded.status : ℤ) < 0 then none
      else statuses[(statusCode r.decoded.status : ℤ).toNat]?) = some r.decoded.status := by
    rw [if_neg (by omega), Int.toNat_natCast, hstatus]
  simp only [bind_eq_ok, Except.ok.injEq, exists_eq_left', hcode, hclass, ← hauthentication, pure_eq_ok]
  exact ⟨(), hconcentrator ▸ hread, by rw [hconcentrator]⟩

/-! ## Rows that are written -/

section Writing

variable {s s' : SessionStore K} {u : Unit}

omit [Field K] [LinearOrder K] in
theorem bind_positionValues (h : BoundPosition r) :
    ∀ value ∈ positionValues r.receiverPosition, value.bind = .ok () := by
  intro value hvalue
  unfold positionValues at hvalue
  split at hvalue
  · rename_i f hf
    split_ifs at hvalue with hvalid
    · simp only [List.mem_cons, List.not_mem_nil, or_false] at hvalue
      rcases hvalue with rfl | rfl | rfl | rfl | rfl | rfl | rfl | rfl | rfl
      · rfl
      · rfl
      · cases f.altitudeM <;> rfl
      · rfl
      · rfl
      · rfl
      · exact h f hf hvalid
      · cases f.hdop <;> rfl
      · rfl
    · rw [List.eq_of_mem_replicate hvalue]
      rfl
  · rw [List.eq_of_mem_replicate hvalue]
    rfl

omit [Field K] [LinearOrder K] in
/-- Every value of a valid reception is bound. -/
theorem bind_receptionValues (hposition : BoundPosition r) (hlabel : bindText r.laneLabel = .ok ()) :
    ∀ value ∈ receptionValues r, value.bind = .ok () := by
  intro value hvalue
  rw [receptionValues] at hvalue
  simp only [List.mem_append] at hvalue
  rcases hvalue with (((hvalue | hvalue) | hvalue) | hvalue) | hvalue
  · simp only [List.mem_cons, List.not_mem_nil, or_false] at hvalue
    rcases hvalue with rfl | rfl | rfl | rfl | rfl | rfl | rfl | rfl | rfl | rfl | rfl | rfl | rfl | rfl | rfl |
      rfl
    exacts [rfl, rfl, rfl, rfl, rfl, rfl, rfl, rfl, rfl, rfl, rfl, rfl, hlabel, rfl, bindText_classification,
      bindText_authentication]
  · rw [List.eq_of_mem_replicate hvalue]
    rfl
  · exact bind_positionValues hposition value hvalue
  · cases hevidence : r.decoded.evidence with
    | none =>
      rw [hevidence] at hvalue
      rw [List.eq_of_mem_replicate hvalue]
      rfl
    | some e =>
      rw [hevidence, evidenceValues] at hvalue
      simp only [List.mem_cons, List.not_mem_nil, or_false] at hvalue
      rcases hvalue with rfl | rfl <;> rfl
  · rw [List.eq_of_mem_replicate hvalue]
    rfl

/-- The row of a reception. -/
def rowOfReception (r : Reception K) : ReceptionRow K := rowOf (receptionColumnsFor 3) (receptionValues r)

/-- The store with one reception more. -/
def received (s : SessionStore K) (r : Reception K) : SessionStore K :=
  { s.batch with db := { s.db with receptions := s.db.receptions ++ [rowOfReception r] } }

section

omit [Field K] [LinearOrder K]

@[simp] theorem received_readonly : (received s r).readonly = s.readonly := batch_readonly

@[simp] theorem received_schemaVersion : (received s r).schemaVersion = s.schemaVersion :=
  batch_schemaVersion

@[simp] theorem received_db :
    (received s r).db = { s.db with receptions := s.db.receptions ++ [rowOfReception r] } := rfl

end

/-- **A valid reception is appended**, where its identifier is new. -/
theorem appendReception_ok (h : ValidReception r) (hbound : BoundPosition r)
    (hlabel : bindText r.laneLabel = .ok ())
    (hconcentrator : r.concentrator = none) (hwritable : s.readonly = false)
    (hversion : s.schemaVersion = 5 ∨ s.schemaVersion = 6)
    (hfresh : ∀ row ∈ s.db.receptions, row .id ≠ .integer (toInt64 r.id)) :
    appendReception r s = .ok () (received s r) := by
  have hbind : forM (receptionValues r) Value.bind = Except.ok () :=
    forM_eq_ok.mpr (bind_receptionValues hbound hlabel)
  have hinsert : insertReception s.db r =
      .ok { s.db with receptions := s.db.receptions ++ [rowOfReception r] } := by
    simp only [insertReception, bind_eq_ok, reject_eq_ok, hbind]
    refine ⟨(), trivial, (), ?_, ?_⟩
    · rintro ⟨row, hrow, heq⟩
      exact hfresh row hrow heq
    · rw [hconcentrator]
      rfl
  have h7 : s.schemaVersion ≠ 7 := by omega
  simp only [appendReception, ok_bind, ok_check, ok_get]
  refine ⟨(), s, ⟨validReception.mpr h, rfl⟩, s, s, ⟨rfl, rfl⟩, ?_⟩
  rw [if_neg h7]
  simp only [ok_bind, ok_check, reject_eq_ok, beginBatch_ok, savepoint_ok]
  refine ⟨(), s, ⟨by simp [hconcentrator], rfl⟩, (), s.batch, ⟨⟨hwritable, by omega⟩, rfl⟩, _, ?_, rfl⟩
  rw [batch_db, hinsert]

/-- The row of a valid reception is read back. -/
theorem readReception_row {version : ℕ} (hversion : 3 ≤ version) (h : ValidReception r)
    (hbound : BoundPosition r) (hlabel : bindText r.laneLabel = .ok ()) (hconcentrator : r.concentrator = none)
    (hclass : canonicalClassification r.decoded.classification = r.decoded.classification) :
    readReception version (rowOfReception r) =
      .ok { r with receiverPosition := validFix r.receiverPosition } := by
  rw [readReception, rowOfReception, select_row hversion]
  exact receptionFrom_values hversion h hbound hlabel hconcentrator hclass

omit [Field K] [LinearOrder K] in
theorem forM_cons_ok {α : Type} {g : α → Method K Unit} {a : α} {l : List α} {s₁ : SessionStore K}
    (h : g a s = .ok () s₁) : forM (a :: l) g s = forM l g s₁ := by
  rw [List.forM_cons]
  change EStateM.bind (g a) (fun _ => forM l g) s = _
  rw [EStateM.bind, h]

/-- **Every frame is recorded.** Whatever the bytes of the frames, their integrity and the keys, the
receptions of a recording's frames are accepted one after the other, nothing else changes, and the rows
are read back as the receptions. -/
theorem receptions_recorded [IsStrictOrderedRing K] (library : Protocol.Library)
    (keyring : List Protocol.Profile) {frames : List (FrameFields K)} (hframes : ∀ f ∈ frames, Recordable f)
    (hids : (frames.map (·.id)).Nodup) (hwritable : s.readonly = false)
    (hversion : s.schemaVersion = 5 ∨ s.schemaVersion = 6)
    (hfresh : ∀ f ∈ frames, ∀ row ∈ s.db.receptions, row .id ≠ .integer f.id) :
    let receptions := frames.map (frameReception library keyring)
    ∃ (s' : SessionStore K) (rows : List (ReceptionRow K)),
      forM receptions appendReception s = .ok () s' ∧
      s'.db = { s.db with receptions := s.db.receptions ++ rows } ∧
      rows.map (readReception s.schemaVersion) =
        receptions.map (fun r => .ok { r with receiverPosition := validFix r.receiverPosition }) ∧
      ∀ r ∈ receptions, r.decoded.Consistent (r.headerValid && r.crcValid) := by
  induction frames generalizing s with
  | nil => exact ⟨s, [], rfl, by simp, rfl, by simp⟩
  | cons f frames ih =>
    rw [List.forall_mem_cons] at hframes hfresh
    obtain ⟨hf, hframes⟩ := hframes
    obtain ⟨hnew, hfresh⟩ := hfresh
    rw [List.map_cons, List.nodup_cons] at hids
    obtain ⟨hid, hids⟩ := hids
    have hvalid : ValidReception (frameReception library keyring f) := frameReception_valid hf
    have hbound : BoundPosition (frameReception library keyring f) := fun fix hfix hvalid => by
      have hfixed := hf.position fix hfix hvalid
      simp only [validateFix, bind_eq_ok, reject_eq_ok, not_or, not_lt] at hfixed
      obtain ⟨_, -, _, -, _, -, _, -, -, hlength⟩ := hfixed
      rw [bindText, reject_eq_ok, hf.source fix hfix hvalid]
      simp
      omega
    have hlabel : bindText f.laneLabel = .ok () := by
      have hf := hf.label
      rw [bindText, reject_eq_ok, hf.2]
      simp
      omega
    have hkey : toInt64 f.id = f.id := toInt64_of_le hf.id
    have hstep := appendReception_ok hvalid hbound hlabel rfl hwritable hversion fun row hrow heq =>
      hnew row hrow (heq.trans (congrArg Value.integer hkey))
    have hrow : readReception s.schemaVersion (rowOfReception (frameReception library keyring f)) = _ :=
      readReception_row (by omega) hvalid hbound hlabel rfl
        (canonicalClassification_of_consistent frameReception_consistent)
    -- The row that was added has an identifier of its own.
    have hfresh' : ∀ g ∈ frames, ∀ row ∈ (received s (frameReception library keyring f)).db.receptions,
        row .id ≠ .integer g.id := by
      intro g hg row hrow
      rw [received_db, List.mem_append, List.mem_singleton] at hrow
      rcases hrow with hrow | rfl
      · exact hfresh g hg row hrow
      · intro heq
        have hsame : (f.id : ℤ) = g.id := by
          rw [← hkey]
          exact Value.integer.inj heq
        exact hid (List.mem_map.mpr ⟨g, hg, by omega⟩)
    obtain ⟨s', rows, hrun, hdb, hread, hall⟩ := ih (s := received s (frameReception library keyring f))
      hframes hids (by simpa using hwritable) (by simpa using hversion) hfresh'
    refine ⟨s', rowOfReception (frameReception library keyring f) :: rows, ?_, ?_, ?_, ?_⟩
    · rw [List.map_cons, forM_cons_ok hstep]
      exact hrun
    · rw [hdb, received_db]
      simp
    · rw [List.map_cons, List.map_cons, List.map_cons, hrow]
      rw [received_schemaVersion] at hread
      rw [hread]
    · rw [List.map_cons, List.forall_mem_cons]
      exact ⟨frameReception_consistent, hall⟩

/-- The frame of an empty traceroute, as the receiver of a lane reports it. -/
def tracerouteHeard : Phy.LocatedFrame ℚ where
  bytes := Protocol.tracerouteFrame.map UInt8.toBitVec
  headerValid := true
  payloadCrcValid := true
  payloadCrcPresent := true
  fecCorrected := false
  codingRate := 5
  firstSample := 0
  lastSample := 40 * 2048
  snrDb := 7
  frequencyErrorHz := -12

/-- The metadata of a traceroute that a lane decoded. -/
def tracerouteFields : FrameFields ℚ := laneFields 1 ⟨0, 0, 1⟩
  { label := ascii "Lane", channelName := [], protocol := [], frequencyHz := 100000000,
    bandwidthHz := 250000, spreadingFactor := 11, codingRate := 5, enabled := true } none tracerouteHeard

theorem receptions_recorded_traceroute :
    let r : Reception ℚ :=
      frameReception Protocol.tracerouteLibrary [Protocol.surveyProfile 1] tracerouteFields
    r.decoded.status = .classified ∧ ∃ (s' : SessionStore ℚ) (rows : List (ReceptionRow ℚ)),
      forM [r] appendReception compactStart = .ok () s' ∧
      s'.db = { compactStart.db with receptions := compactStart.db.receptions ++ rows } ∧
      rows.map (readReception 6) = [.ok { r with receiverPosition := validFix r.receiverPosition }] ∧
      ∀ r' ∈ [r], r'.decoded.Consistent (r'.headerValid && r'.crcValid) := by
  refine ⟨by decide +kernel, @receptions_recorded ℚ _ _ compactStart _ Protocol.tracerouteLibrary
    [Protocol.surveyProfile 1] [tracerouteFields] ?_ (by simp) rfl (.inr rfl) ?_⟩
  · intro f hf
    rw [List.mem_singleton.mp hf]
    refine ⟨by decide, by decide, by decide, by decide, by decide, by decide +kernel, by decide +kernel, ?_, ?_⟩
    · intro fix hfix
      cases hfix
    · intro fix hfix
      cases hfix
  · intro f hf row hrow
    cases hrow

end Writing

end Valid

end OVMesh
