import OVMesh.Discovery.Observations
import OVMesh.Store.Status

/-!
# Saved waveforms

The waveforms that `process` of `engine.cpp` appends to the recording, over the acquisitions of a
survey: `poll_discovery`, the base of the ids, and `append(WaveformObservation)` of `storage.cpp`.

* `WaveformStore.append`: a row is inserted, or updated with the same profile.
* `poll`: one result. `perform`: one step of a survey.
* `Kept`, `Open`: what holds of the rows, and of the ids that are still to be given.
* `waveform_identity`: the entries and the ids of every survey.
-/

namespace OVMesh

open Checked Discovery Runs

/-! ## The table -/

/-- `WaveformObservation`: a waveform of the survey, with its times and the receiver positions. -/
structure WaveformObservation (K : Type) where
  id : ℕ
  centerHz : K
  bandwidthHz : ℕ
  spreadingFactor : ℕ
  firstObservedElapsed : K
  delimiterElapsed : K
  delimiterUtc : K
  upMatch : K
  downMatch : K
  contributingSubbands : ℕ
  completeInRequestedRange : Bool
  associationAmbiguous : Bool
  receiverPosition : Option (PositionFix K)

section Table

variable {K : Type} [Field K] [LinearOrder K]

/-- `validate_waveform`, for finite values. -/
def validateWaveform (w : WaveformObservation K) (c : ReceiverConfig K) : Except String Unit := do
  let lower : K := c.centerHz - c.surveySpanHz / 2
  let upper : K := c.centerHz + c.surveySpanHz / 2
  let half : K := w.bandwidthHz / 2
  reject (c.discoverLora = false ∨ w.id = 0 ∨ w.id > int64Max ∨ w.centerHz ≤ 0 ∨
      w.centerHz > (6000000000 : ℕ) ∨ ¬ supportedLoraBandwidth w.bandwidthHz ∨
      w.spreadingFactor < 7 ∨ w.spreadingFactor > 12 ∨ w.contributingSubbands = 0 ∨
      w.contributingSubbands > discoveryBandLimit ∨ w.centerHz + half ≤ lower ∨
      w.centerHz - half ≥ upper ∨ w.completeInRequestedRange = true ∧
        (w.centerHz - half < lower - 1 / 10 ^ 5 ∨ w.centerHz + half > upper + 1 / 10 ^ 5))
    "Invalid waveform identity, inferred profile or frequency extent"
  forM [w.firstObservedElapsed, w.delimiterElapsed, w.delimiterUtc] fun value => do
    nonnegative value "waveform evidence time"
    reject (value > 10 ^ 10) "Waveform evidence time exceeds supported range"
  reject (w.delimiterElapsed ≤ w.firstObservedElapsed)
    "Waveform delimiter must follow observed preamble evidence"
  forM [w.upMatch, w.downMatch] fun value =>
    reject (value ≤ 0 ∨ value > 1 + 1 / 10 ^ 5) "Invalid waveform match fraction"
  forM w.receiverPosition.toList fun fix => do
    reject (fix.valid = false) "Invalid waveform receiver position"
    validateFix fix

/-- The part of a recording that holds the waveforms: `waveform_observations` by its ids, and the
configuration of the acquisition. -/
structure WaveformStore (K : Type) where
  schemaVersion : ℕ
  recordedConfig : ReceiverConfig K
  rows : ℕ → Option (WaveformObservation K)

/-- The two rows have one profile. -/
def WaveformObservation.SameProfile {K : Type} (v w : WaveformObservation K) : Prop :=
  v.bandwidthHz = w.bandwidthHz ∧ v.spreadingFactor = w.spreadingFactor

instance {K : Type} (v w : WaveformObservation K) : Decidable (v.SameProfile w) :=
  inferInstanceAs (Decidable (_ ∧ _))

/-- The message of an update that another waveform has the id of. -/
def changedProfile : String :=
  "Waveform update changed the inferred profile for an existing identity"

/-- `append` of a waveform. `fails` is a failure of the database. -/
def WaveformStore.append (s : WaveformStore K) (w : WaveformObservation K) (fails : Bool) :
    Except String (WaveformStore K) := do
  reject (s.schemaVersion = 7) "Concentrator scans cannot create FFT or waveform records"
  validateWaveform w s.recordedConfig
  reject (fails = true) "The database failed"
  reject (∃ previous ∈ s.rows w.id, ¬ previous.SameProfile w) changedProfile
  return { s with rows := Function.update s.rows w.id (some w) }

end Table

/-! ## The engine -/

/-- `DiscoveryWorker::Result`: a discovery with the clock of its subband. -/
structure DiscoveryResult (K : Type) where
  waveform : LoRaDiscovery K
  subbandIndex : ℕ
  firstInputAnchor : ℕ
  inputSampleStride : ℕ

/-- One append of a waveform: the acquisition, the id of the entry within it, and the row. -/
structure Written (K : Type) where
  acquisition : ℕ
  observation : ℕ
  row : WaveformObservation K

/-- A survey. Without a store it is kept in memory only. `written` is the history of the appends,
which the program does not keep. -/
structure WaveformSurvey (K : Type) where
  startedUtc : K
  config : ReceiverConfig K
  store : Option (WaveformStore K)
  waveformIdBase : ℕ := 0
  discovered : Option (DiscoveryObservations K) := none
  discoveryObservationCount : ℕ := 0
  discoveryMetadataFailed : Bool := false
  waveforms : List (WaveformObservation K) := []
  working : Bool := false
  finalSaveConfirmed : Bool
  acquisitions : ℕ := 0
  written : List (Written K) := []

namespace WaveformSurvey

/-- How a start ends: before its acquisition begins, after it, or with a worker. -/
inductive StartOutcome
  | refused
  | aborted (saved : Bool)
  | running

/-- One step of a survey. `inputEpoch` is the time of the first sample of the acquisition. -/
inductive Event (K : Type)
  | result (found : DiscoveryResult K) (inputEpoch : K) (position : Option (PositionFix K))
      (fails : Bool)
  | fail
  | finish (saved : Bool)
  | start (config : ReceiverConfig K) (subbands : Option ℕ) (outcome : StartOutcome)

variable {K : Type} [Field K] [LinearOrder K]

/-- A survey before its first start, which has nothing to confirm. -/
def new (startedUtc : K) (config : ReceiverConfig K) (schemaVersion : Option ℕ) : WaveformSurvey K :=
  { startedUtc, config
    store := schemaVersion.map fun schemaVersion =>
      { schemaVersion, recordedConfig := config, rows := fun _ => none }
    finalSaveConfirmed := true }

/-- The row of an entry. The id is a `uint64_t`. -/
def observationOf (s : WaveformSurvey K) (found : DiscoveryObservation K) (inputEpoch : K)
    (position : Option (PositionFix K)) : WaveformObservation K :=
  let c := s.config
  let delimiterElapsed := inputEpoch + found.delimiterInputSample / c.sampleRate
  let half : K := found.bandwidthHz / 2
  { id := (s.waveformIdBase + found.id) % 2 ^ 64
    centerHz := found.receivedCenterHz
    bandwidthHz := found.bandwidthHz
    spreadingFactor := found.spreadingFactor
    firstObservedElapsed := inputEpoch + found.firstObservedUpchirpInputSample / c.sampleRate
    delimiterElapsed
    delimiterUtc := s.startedUtc + delimiterElapsed
    upMatch := found.upMatch
    downMatch := found.downMatch
    contributingSubbands := found.contributingSubbands.length
    completeInRequestedRange :=
      decide (found.receivedCenterHz - half ≥ (c.centerHz : K) - c.surveySpanHz / 2 ∧
        found.receivedCenterHz + half ≤ (c.centerHz : K) + c.surveySpanHz / 2)
    associationAmbiguous := found.associationAmbiguous
    receiverPosition := position }

/-- The newest waveforms of the snapshot. -/
def publish (waveforms : List (WaveformObservation K)) (w : WaveformObservation K) :
    List (WaveformObservation K) :=
  match waveforms.findIdx? (·.id = w.id) with
  | some i => waveforms.set i w
  | none => (w :: waveforms).take 256

/-- The entry with this id is appended to the recording, and published. -/
def save (s : WaveformSurvey K) (update : DiscoveryObservations.Update)
    (discovered : DiscoveryObservations K) (found : DiscoveryObservation K) (inputEpoch : K)
    (position : Option (PositionFix K)) (fails : Bool) : Except String (WaveformSurvey K) := do
  let w := s.observationOf found inputEpoch position
  let s := { s with
    discovered := some discovered
    discoveryObservationCount := if update.merged then s.discoveryObservationCount
      else s.discoveryObservationCount + 1
    waveforms := publish s.waveforms w }
  match s.store with
  | none => return s
  | some store => do
    let store ← store.append w fails
    return { s with store, written := s.written ++ [⟨s.acquisitions, found.id, w⟩] }

/-- The loop body of `poll_discovery`. -/
def poll (s : WaveformSurvey K) (result : DiscoveryResult K) (inputEpoch : K)
    (position : Option (PositionFix K)) (fails : Bool) : Except String (WaveformSurvey K) :=
  match s.discovered with
  | none => .ok s
  | some discovered =>
    match discovered.observe result.waveform result.subbandIndex result.firstInputAnchor
      result.inputSampleStride with
    | .error _ => .ok { s with discoveryMetadataFailed := true }
    | .ok (update, discovered) =>
      match discovered.recent.find? (·.id = update.id) with
      | none => .ok { s with discovered := some discovered }
      | some found => s.save update discovered found inputEpoch position fails

/-- An exception ends `process`. -/
def failed (s : WaveformSurvey K) : WaveformSurvey K :=
  { s with working := false, discovered := none }

/-- The end of `process`, whose final save may fail. -/
def finished (s : WaveformSurvey K) (saved : Bool) : WaveformSurvey K :=
  { s with
    working := false
    discovered := none
    waveformIdBase := match s.discovered with
      | none => s.waveformIdBase
      | some discovered => (s.waveformIdBase + discovered.highest) % 2 ^ 64
    finalSaveConfirmed := s.store.isSome && saved }

/-- The acquisition that a start has begun. -/
def begun (s : WaveformSurvey K) (config : ReceiverConfig K) : WaveformSurvey K :=
  { s with
    config
    store := s.store.map fun store => { store with recordedConfig := config }
    discoveryObservationCount := 0
    discoveryMetadataFailed := false
    acquisitions := s.acquisitions + 1 }

/-- One step. A survey whose recording was not confirmed is not resumed. -/
def perform (s : WaveformSurvey K) : Event K → WaveformSurvey K
  | .result found inputEpoch position fails =>
    if s.working then
      match s.poll found inputEpoch position fails with
      | .ok s => s
      | .error _ => s.failed
    else s
  | .fail => if s.working then s.failed else s
  | .finish saved => if s.working then s.finished saved else s
  | .start config subbands outcome =>
    if s.working = true ∨ s.store.isSome = true ∧ s.finalSaveConfirmed = false then s
    else match outcome with
      | .refused => s
      | .aborted saved => { s.begun config with
          working := false
          finalSaveConfirmed := s.store.isSome && saved
          discovered := none }
      | .running => { s.begun config with
          working := true
          finalSaveConfirmed := false
          discovered := subbands.bind fun count =>
            (DiscoveryObservations.create config.sampleRate count).toOption }

/-! ## What an append does -/

section Append

variable {store store' : WaveformStore K} {w : WaveformObservation K} {fails : Bool}

/-- A row with a valid id is written over none, or over one of the same profile. -/
theorem append_ok (h : store.append w fails = .ok store') :
    w.id ≤ int64Max ∧ store'.rows = Function.update store.rows w.id (some w) := by
  unfold WaveformStore.append at h
  obtain ⟨_, -, h⟩ := bind_eq_ok.mp h
  obtain ⟨_, hvalid, h⟩ := bind_eq_ok.mp h
  obtain ⟨_, -, h⟩ := bind_eq_ok.mp h
  obtain ⟨_, -, h⟩ := bind_eq_ok.mp h
  obtain rfl := Except.ok.inj h
  refine ⟨?_, rfl⟩
  unfold validateWaveform at hvalid
  obtain ⟨_, hidentity, -⟩ := bind_eq_ok.mp hvalid
  have hid := reject_eq_ok.mp hidentity
  simp only [not_or, not_lt] at hid
  exact hid.2.2.1

theorem validateFix_error {fix : PositionFix K} {message : String}
    (h : validateFix fix = .error message) : message ≠ changedProfile := by
  unfold validateFix coordinates nonnegative at h
  rintro rfl
  rcases bind_eq_error.mp h with h | ⟨_, -, h⟩
  · exact absurd (reject_eq_error.mp h).2 (by decide)
  rcases bind_eq_error.mp h with h | ⟨_, -, h⟩
  · exact absurd (reject_eq_error.mp h).2 (by decide)
  rcases bind_eq_error.mp h with h | ⟨_, -, h⟩
  · exact absurd (reject_eq_error.mp h).2 (by decide)
  rcases bind_eq_error.mp h with h | ⟨_, -, h⟩
  · obtain ⟨_, -, h⟩ := forM_error h
    exact absurd (reject_eq_error.mp h).2 (by decide)
  · exact absurd (reject_eq_error.mp h).2 (by decide)

/-- The checks of a waveform do not compare it with others. -/
theorem validateWaveform_error {c : ReceiverConfig K} {message : String}
    (h : validateWaveform w c = .error message) : message ≠ changedProfile := by
  unfold validateWaveform nonnegative at h
  rintro rfl
  rcases bind_eq_error.mp h with h | ⟨_, -, h⟩
  · exact absurd (reject_eq_error.mp h).2 (by decide)
  rcases bind_eq_error.mp h with h | ⟨_, -, h⟩
  · obtain ⟨_, -, h⟩ := forM_error h
    rcases bind_eq_error.mp h with h | ⟨_, -, h⟩
    · exact absurd (reject_eq_error.mp h).2 (by decide)
    · exact absurd (reject_eq_error.mp h).2 (by decide)
  rcases bind_eq_error.mp h with h | ⟨_, -, h⟩
  · exact absurd (reject_eq_error.mp h).2 (by decide)
  rcases bind_eq_error.mp h with h | ⟨_, -, h⟩
  · obtain ⟨_, -, h⟩ := forM_error h
    exact absurd (reject_eq_error.mp h).2 (by decide)
  · obtain ⟨fix, -, h⟩ := forM_error h
    rcases bind_eq_error.mp h with h | ⟨_, -, h⟩
    · exact absurd (reject_eq_error.mp h).2 (by decide)
    · exact validateFix_error h rfl

/-- Only a row of another profile is found to have changed. -/
theorem append_changed (h : store.append w fails = .error changedProfile) :
    ∃ previous ∈ store.rows w.id, ¬ previous.SameProfile w := by
  unfold WaveformStore.append at h
  rcases bind_eq_error.mp h with h | ⟨_, -, h⟩
  · exact absurd (reject_eq_error.mp h).2 (by decide)
  rcases bind_eq_error.mp h with h | ⟨_, -, h⟩
  · exact absurd rfl (validateWaveform_error h)
  rcases bind_eq_error.mp h with h | ⟨_, -, h⟩
  · exact absurd (reject_eq_error.mp h).2 (by decide)
  rcases bind_eq_error.mp h with h | ⟨_, -, h⟩
  · exact (reject_eq_error.mp h).1
  · cases h

end Append

/-! ## The invariant -/

/-- The id that the next waveform of the survey gets. -/
def nextId (s : WaveformSurvey K) : ℕ :=
  s.waveformIdBase + match s.discovered with
    | none => 1
    | some discovered => discovered.nextId

/-- What holds of the rows of a recording: an id belongs to one entry of one acquisition. -/
structure Kept (s : WaveformSurvey K) (store : WaveformStore K) : Prop where
  acquisition_le : ∀ a ∈ s.written, a.acquisition ≤ s.acquisitions
  identity : ∀ a ∈ s.written, ∀ b ∈ s.written, a.row.id = b.row.id ↔
    a.acquisition = b.acquisition ∧ a.observation = b.observation
  profile : ∀ a ∈ s.written, ∃ w ∈ store.rows a.row.id, w.SameProfile a.row
  source : ∀ id w, store.rows id = some w → w.id = id ∧ ∃ a ∈ s.written, a.row = w

/-- What holds as long as waveforms may be written: the ids that are still to be given are new. -/
structure Open (s : WaveformSurvey K) : Prop where
  nextId_le : s.nextId ≤ 2 ^ 63
  written_lt : ∀ a ∈ s.written, a.row.id < s.nextId
  current : s.working = true → ∀ a ∈ s.written, a.acquisition = s.acquisitions →
    a.row.id = s.waveformIdBase + a.observation
  past : s.working = true → ∀ a ∈ s.written, a.acquisition ≠ s.acquisitions →
    a.row.id ≤ s.waveformIdBase
  entries : ∀ discovered ∈ s.discovered, ∀ e ∈ discovered.recent, ∀ a ∈ s.written,
    a.row.id = s.waveformIdBase + e.id →
      a.row.bandwidthHz = e.bandwidthHz ∧ a.row.spreadingFactor = e.spreadingFactor

/-- What holds of every survey. -/
structure Invariant (s : WaveformSurvey K) : Prop where
  wellFormed : ∀ discovered ∈ s.discovered, discovered.WellFormed
  discovering : s.discovered.isSome = true → s.working = true
  unconfirmed : s.working = true → s.finalSaveConfirmed = false
  memory : s.store = none → s.written = []
  kept : ∀ store ∈ s.store, Kept s store
  open_ : s.store.isSome = true → s.working = true ∨ s.finalSaveConfirmed = true → Open s

section Steps

variable {s s' : WaveformSurvey K} {store store' : WaveformStore K}
  {discovered discovered' : DiscoveryObservations K} {found : DiscoveryObservation K}
  {u : DiscoveryObservations.Update} {inputEpoch : K} {position : Option (PositionFix K)}
  {fails : Bool} {result : DiscoveryResult K} {w : WaveformObservation K}

omit [Field K] [LinearOrder K] in
/-- The next id while there is a view. -/
theorem nextId_some (h : s.discovered = some discovered) :
    s.nextId = s.waveformIdBase + discovered.nextId := by
  rw [nextId, h]

/-- After a result, what was written with the id of an entry still has its profile. -/
theorem Open.entries_observe (h : Open s) (hwell : discovered.WellFormed)
    (hd : s.discovered = some discovered) {first stride subband : ℕ} {waveform : LoRaDiscovery K}
    (hobserve : discovered.observe waveform subband first stride = .ok (u, discovered')) :
    ∀ e ∈ discovered'.recent, ∀ a ∈ s.written, a.row.id = s.waveformIdBase + e.id →
      a.row.bandwidthHz = e.bandwidthHz ∧ a.row.spreadingFactor = e.spreadingFactor := by
  intro e he a ha hid
  rcases hwell.observe_profile hobserve he with hnew | ⟨p, hp, hpid, hbw, hsf⟩
  · have hlt := h.written_lt a ha
    rw [nextId_some hd, hid, hnew] at hlt
    exact absurd hlt (lt_irrefl _)
  · rw [hbw, hsf]
    exact h.entries discovered hd p hp a ha (by rw [hpid]; exact hid)

/-- What `save` returns. -/
theorem save_ok (h : s.save u discovered' found inputEpoch position fails = .ok s') :
    s'.discovered = some discovered' ∧ s'.working = s.working ∧
      s'.finalSaveConfirmed = s.finalSaveConfirmed ∧ s'.acquisitions = s.acquisitions ∧
      s'.waveformIdBase = s.waveformIdBase ∧
      (s.store = none ∧ s'.store = none ∧ s'.written = s.written ∨
        ∃ store store', s.store = some store ∧ s'.store = some store' ∧
          store.append (s.observationOf found inputEpoch position) fails = .ok store' ∧
          s'.written = s.written ++
            [⟨s.acquisitions, found.id, s.observationOf found inputEpoch position⟩]) := by
  unfold save at h
  dsimp only at h
  split at h <;> rename_i hstore
  · obtain rfl := Except.ok.inj h
    exact ⟨rfl, rfl, rfl, rfl, rfl, Or.inl ⟨hstore, hstore, rfl⟩⟩
  · rename_i store
    obtain ⟨store', happend, h⟩ := bind_eq_ok.mp h
    obtain rfl := Except.ok.inj h
    exact ⟨rfl, rfl, rfl, rfl, rfl, Or.inr ⟨store, store', hstore, rfl, happend, rfl⟩⟩

omit [Field K] [LinearOrder K] in
/-- The id of an entry was not written for another one. -/
theorem Open.id_iff (h : Open s) (hworking : s.working = true) (hpos : 0 < found.id) :
    ∀ a ∈ s.written, a.row.id = s.waveformIdBase + found.id ↔
      a.acquisition = s.acquisitions ∧ a.observation = found.id := by
  intro a ha
  by_cases hcurrent : a.acquisition = s.acquisitions
  · rw [h.current hworking a ha hcurrent, Nat.add_left_cancel_iff]
    exact ⟨fun hid => ⟨hcurrent, hid⟩, fun hid => hid.2⟩
  · have hpast := h.past hworking a ha hcurrent
    exact iff_of_false (by omega) fun hid => hcurrent hid.1

omit [Field K] [LinearOrder K] in
/-- **An append in an open survey.** Its id is that of the entry. -/
theorem Kept.append (hkept : Kept s store) (h : Open s) (hworking : s.working = true)
    (hpos : 0 < found.id) (hid : w.id = s.waveformIdBase + found.id)
    (hprofile : ∀ a ∈ s.written, a.row.id = w.id → w.SameProfile a.row)
    (hwritten : s'.written = s.written ++ [⟨s.acquisitions, found.id, w⟩])
    (hacquisitions : s'.acquisitions = s.acquisitions)
    (hrows : store'.rows = Function.update store.rows w.id (some w)) : Kept s' store' := by
  have hiff := h.id_iff hworking hpos
  rw [← hid] at hiff
  have hmem : ∀ a, a ∈ s'.written ↔ a ∈ s.written ∨ a = ⟨s.acquisitions, found.id, w⟩ := fun a => by
    rw [hwritten, List.mem_append, List.mem_singleton]
  refine ⟨fun a ha => ?_, fun a ha b hb => ?_, fun a ha => ?_, fun id v hv => ?_⟩
  · rw [hacquisitions]
    rcases (hmem a).mp ha with ha | rfl
    · exact hkept.acquisition_le a ha
    · exact le_rfl
  · rcases (hmem a).mp ha with ha | rfl
    · rcases (hmem b).mp hb with hb | rfl
      · exact hkept.identity a ha b hb
      · exact hiff a ha
    · rcases (hmem b).mp hb with hb | rfl
      · rw [eq_comm, hiff b hb]
        exact ⟨fun h => ⟨h.1.symm, h.2.symm⟩, fun h => ⟨h.1.symm, h.2.symm⟩⟩
      · exact iff_of_true rfl ⟨rfl, rfl⟩
  · rw [hrows]
    by_cases heq : a.row.id = w.id
    · rw [heq, Function.update_self]
      refine ⟨w, rfl, ?_⟩
      rcases (hmem a).mp ha with ha | rfl
      · exact hprofile a ha heq
      · exact ⟨rfl, rfl⟩
    · rw [Function.update_of_ne heq]
      rcases (hmem a).mp ha with ha | rfl
      · exact hkept.profile a ha
      · exact absurd rfl heq
  · rw [hrows] at hv
    by_cases heq : id = w.id
    · rw [heq, Function.update_self] at hv
      obtain rfl := Option.some.inj hv
      exact ⟨heq.symm, _, (hmem _).mpr (Or.inr rfl), rfl⟩
    · rw [Function.update_of_ne heq] at hv
      obtain ⟨hvid, a, ha, hrow⟩ := hkept.source id v hv
      exact ⟨hvid, a, (hmem a).mpr (Or.inl ha), hrow⟩

/-- The entry that a result has given or kept. -/
structure Observed (discovered discovered' : DiscoveryObservations K)
    (found : DiscoveryObservation K) : Prop where
  wellFormed : discovered'.WellFormed
  mem : found ∈ discovered'.recent
  step : found.id < discovered.nextId ∧ discovered'.nextId = discovered.nextId ∨
    found.id = discovered.nextId ∧ discovered'.nextId = discovered.nextId + 1

/-- After an append, the ids that are still to be given are new. -/
theorem Open.append (h : Open s) (hd : s.discovered = some discovered)
    (hd' : s'.discovered = some discovered') (hobserved : Observed discovered discovered' found)
    (hid : w.id = s.waveformIdBase + found.id) (hsmall : w.id ≤ int64Max)
    (hprofile : w.bandwidthHz = found.bandwidthHz ∧ w.spreadingFactor = found.spreadingFactor)
    (hentries : ∀ e ∈ discovered'.recent, ∀ a ∈ s.written, a.row.id = s.waveformIdBase + e.id →
      a.row.bandwidthHz = e.bandwidthHz ∧ a.row.spreadingFactor = e.spreadingFactor)
    (hwritten : s'.written = s.written ++ [⟨s.acquisitions, found.id, w⟩])
    (hworking : s'.working = s.working) (hacquisitions : s'.acquisitions = s.acquisitions)
    (hbase : s'.waveformIdBase = s.waveformIdBase) : Open s' := by
  have hnext := nextId_some hd
  have hnext' := nextId_some hd'
  rw [hbase] at hnext'
  have hlt' := (hobserved.wellFormed.ids found hobserved.mem).2
  have hle := h.nextId_le
  have hmax : int64Max = 2 ^ 63 - 1 := rfl
  have hgrows : s.nextId ≤ s'.nextId ∧ s'.nextId ≤ 2 ^ 63 := by
    rcases hobserved.step with ⟨-, heq⟩ | ⟨hnew, heq⟩
    · omega
    · omega
  have hmem : ∀ a, a ∈ s'.written ↔ a ∈ s.written ∨ a = ⟨s.acquisitions, found.id, w⟩ := fun a => by
    rw [hwritten, List.mem_append, List.mem_singleton]
  refine ⟨hgrows.2, fun a ha => ?_, fun hw a ha hcurrent => ?_, fun hw a ha hpast => ?_,
    fun d hd₁ e he a ha haid => ?_⟩
  · rcases (hmem a).mp ha with ha | rfl
    · exact (h.written_lt a ha).trans_le hgrows.1
    · rw [hid, hnext']
      exact Nat.add_lt_add_left hlt' _
  · rw [hbase]
    rcases (hmem a).mp ha with ha | rfl
    · exact h.current (hworking ▸ hw) a ha (hcurrent.trans hacquisitions)
    · exact hid
  · rw [hbase]
    rcases (hmem a).mp ha with ha | rfl
    · exact h.past (hworking ▸ hw) a ha fun heq => hpast (heq.trans hacquisitions.symm)
    · exact absurd hacquisitions.symm hpast
  · obtain rfl := Option.some.inj (hd'.symm.trans hd₁)
    rw [hbase] at haid
    rcases (hmem a).mp ha with ha | rfl
    · exact hentries e he a ha haid
    · obtain rfl := hobserved.wellFormed.eq_of_id hobserved.mem he
        (Nat.add_left_cancel (hid.symm.trans haid))
      exact hprofile

/-- The row of the entry of a result has the id of the entry. -/
theorem Open.observationOf_id (h : Open s) (hd : s.discovered = some discovered)
    (hobserved : Observed discovered discovered' found) (inputEpoch : K)
    (position : Option (PositionFix K)) :
    (s.observationOf found inputEpoch position).id = s.waveformIdBase + found.id := by
  refine Nat.mod_eq_of_lt (lt_of_le_of_lt ?_ (lt_of_le_of_lt h.nextId_le (by decide)))
  rw [nextId_some hd]
  rcases hobserved.step with ⟨hlt, -⟩ | ⟨hnew, -⟩
  · exact Nat.add_le_add_left hlt.le _
  · exact Nat.add_le_add_left hnew.le _

/-- **A saved result keeps the invariant.** -/
theorem Invariant.save (h : Invariant s) (hd : s.discovered = some discovered)
    (hobserved : Observed discovered discovered' found)
    (hentries : Open s → ∀ e ∈ discovered'.recent, ∀ a ∈ s.written,
      a.row.id = s.waveformIdBase + e.id →
        a.row.bandwidthHz = e.bandwidthHz ∧ a.row.spreadingFactor = e.spreadingFactor)
    (hsave : s.save u discovered' found inputEpoch position fails = .ok s') : Invariant s' := by
  have hworking := h.discovering (by rw [hd]; rfl)
  obtain ⟨hd', hworking', hconfirmed', hacquisitions, hbase, hstore⟩ := save_ok hsave
  have hwell : ∀ d ∈ s'.discovered, d.WellFormed := fun d hd₁ =>
    Option.some.inj (hd'.symm.trans hd₁) ▸ hobserved.wellFormed
  have hunconfirmed : s'.working = true → s'.finalSaveConfirmed = false := fun hw => by
    rw [hconfirmed']
    exact h.unconfirmed (hworking' ▸ hw)
  rcases hstore with ⟨hnone, hnone', hwritten⟩ | ⟨store, store', hsome, hsome', happend, hwritten⟩
  · refine ⟨hwell, fun _ => hworking' ▸ hworking, hunconfirmed, fun _ => ?_, fun store hstore => ?_,
      fun hstore => ?_⟩
    · rw [hwritten]
      exact h.memory hnone
    · rw [hnone'] at hstore
      cases hstore
    · rw [hnone'] at hstore
      cases hstore
  · have hopen := h.open_ (by rw [hsome]; rfl) (Or.inl hworking)
    have hentries := hentries hopen
    obtain ⟨hpos, -⟩ := hobserved.wellFormed.ids found hobserved.mem
    have hid := hopen.observationOf_id hd hobserved inputEpoch position
    obtain ⟨hsmall, hrows⟩ := append_ok happend
    refine ⟨hwell, fun _ => hworking' ▸ hworking, hunconfirmed, fun hstore => ?_,
      fun store hstore => ?_, fun _ _ => ?_⟩
    · rw [hsome'] at hstore
      cases hstore
    · obtain rfl := Option.some.inj (hsome'.symm.trans hstore)
      refine (h.kept _ hsome).append hopen hworking hpos hid (fun a ha haid => ?_) hwritten
        hacquisitions hrows
      obtain ⟨hbw, hsf⟩ := hentries found hobserved.mem a ha (haid.trans hid)
      exact ⟨hbw.symm, hsf.symm⟩
    · exact hopen.append hd hd' hobserved hid hsmall ⟨rfl, rfl⟩ hentries hwritten hworking'
        hacquisitions hbase

/-- **A save does not find another waveform under its id.** -/
theorem Invariant.save_error (h : Invariant s) (hd : s.discovered = some discovered)
    (hobserved : Observed discovered discovered' found)
    (hentries : Open s → ∀ e ∈ discovered'.recent, ∀ a ∈ s.written,
      a.row.id = s.waveformIdBase + e.id →
        a.row.bandwidthHz = e.bandwidthHz ∧ a.row.spreadingFactor = e.spreadingFactor)
    {message : String}
    (hsave : s.save u discovered' found inputEpoch position fails = .error message) :
    message ≠ changedProfile := by
  rintro rfl
  unfold WaveformSurvey.save at hsave
  dsimp only at hsave
  split at hsave <;> rename_i hstore
  · cases hsave
  rename_i store
  have hopen := h.open_ (by rw [hstore]; rfl) (Or.inl (h.discovering (by rw [hd]; rfl)))
  have hid := hopen.observationOf_id hd hobserved inputEpoch position
  rcases bind_eq_error.mp hsave with herror | ⟨_, -, herror⟩
  · obtain ⟨previous, hprevious, hchanged⟩ := append_changed herror
    obtain ⟨hprevious, a, ha, rfl⟩ := (h.kept store hstore).source _ _ hprevious
    exact hchanged (hentries hopen found hobserved.mem a ha (hprevious.trans hid))
  · cases herror

/-- A worker that ended leaves the rows. -/
theorem Invariant.failed (h : Invariant s) (hworking : s.working = true) : Invariant s.failed := by
  refine ⟨fun d hd => ?_, fun hd => ?_, fun hw => ?_, h.memory, fun store hstore => ?_,
    fun _ hw => ?_⟩
  · cases hd
  · cases hd
  · cases hw
  · exact ⟨(h.kept store hstore).acquisition_le, (h.kept store hstore).identity,
      (h.kept store hstore).profile, (h.kept store hstore).source⟩
  · rcases hw with hw | hw
    · cases hw
    · have hunconfirmed := h.unconfirmed hworking
      rw [WaveformSurvey.failed] at hw
      rw [hunconfirmed] at hw
      cases hw

/-- The base moves on to the newest id. -/
theorem finished_base (h : Invariant s) (hopen : Open s) (saved : Bool) :
    (s.finished saved).nextId = s.nextId := by
  unfold finished nextId
  dsimp only
  cases hd : s.discovered with
  | none => rfl
  | some discovered =>
    have hhighest := (h.wellFormed discovered hd).highest
    have hsmall := hopen.nextId_le
    rw [nextId_some hd] at hsmall
    dsimp only
    rw [Nat.mod_eq_of_lt (by omega)]
    omega

theorem Invariant.finished (h : Invariant s) (hworking : s.working = true) {saved : Bool} :
    Invariant (s.finished saved) := by
  refine ⟨fun d hd => ?_, fun hd => ?_, fun hw => ?_, h.memory, fun store hstore => ?_,
    fun hstore _ => ?_⟩
  · cases hd
  · cases hd
  · cases hw
  · exact ⟨(h.kept store hstore).acquisition_le, (h.kept store hstore).identity,
      (h.kept store hstore).profile, (h.kept store hstore).source⟩
  · have hopen := h.open_ hstore (Or.inl hworking)
    have hbase := finished_base h hopen saved
    refine ⟨hbase ▸ hopen.nextId_le, fun a ha => hbase ▸ hopen.written_lt a ha, fun hw => ?_,
      fun hw => ?_, fun d hd => ?_⟩
    · cases hw
    · cases hw
    · cases hd

omit [Field K] [LinearOrder K] in
/-- An acquisition that a confirmed survey begins. -/
theorem Open.begun (h : Open s) (hkept : Kept s store) (hd : s.discovered = none)
    (s' : WaveformSurvey K) (hwritten : s'.written = s.written)
    (hbase : s'.waveformIdBase = s.waveformIdBase) (hnext : s'.nextId = s.nextId)
    (hacquisitions : s'.acquisitions = s.acquisitions + 1)
    (hnone : ∀ d ∈ s'.discovered, d.recent = []) : Open s' := by
  have hnextId : s.nextId = s.waveformIdBase + 1 := by rw [nextId, hd]
  refine ⟨hnext ▸ h.nextId_le, fun a ha => ?_, fun _ a ha hcurrent => ?_, fun _ a ha _ => ?_,
    fun d hd' e he => ?_⟩
  · rw [hnext]
    exact h.written_lt a (hwritten ▸ ha)
  · have := hkept.acquisition_le a (hwritten ▸ ha)
    omega
  · have := h.written_lt a (hwritten ▸ ha)
    omega
  · rw [hnone d hd'] at he
    cases he

omit [Field K] [LinearOrder K] in
/-- The rows do not depend on the acquisition. -/
theorem Kept.begun (h : Kept s store) (s' : WaveformSurvey K) (store' : WaveformStore K)
    (hwritten : s'.written = s.written) (hacquisitions : s'.acquisitions = s.acquisitions + 1)
    (hrows : store'.rows = store.rows) : Kept s' store' := by
  refine ⟨fun a ha => ?_, ?_, ?_, ?_⟩
  · have := h.acquisition_le a (hwritten ▸ ha)
    omega
  · rw [hwritten]
    exact h.identity
  · rw [hwritten, hrows]
    exact h.profile
  · rw [hwritten, hrows]
    exact h.source

theorem Invariant.begun (h : Invariant s) (hgate : s.store.isSome = true → s.finalSaveConfirmed = true)
    {config : ReceiverConfig K} {working confirmed : Bool}
    {discovered : Option (DiscoveryObservations K)}
    (hdiscovered : ∀ d ∈ discovered, d.recent = [] ∧ d.nextId = 1 ∧ d.WellFormed)
    (hidle : s.working = false) (hworking : discovered.isSome = true → working = true)
    (hconfirmed : working = true → confirmed = false) :
    Invariant { s.begun config with
      working, finalSaveConfirmed := confirmed, discovered } := by
  have hd : s.discovered = none := by
    by_contra hne
    have := h.discovering (Option.isSome_iff_ne_none.mpr hne)
    rw [hidle] at this
    cases this
  refine ⟨fun d hd => (hdiscovered d hd).2.2, hworking, hconfirmed, fun hstore => ?_,
    fun store' hstore => ?_, fun hstore _ => ?_⟩
  · exact h.memory (Option.map_eq_none_iff.mp hstore)
  · obtain ⟨store, hsome, rfl⟩ := Option.map_eq_some_iff.mp hstore
    exact (h.kept store hsome).begun _ _ rfl rfl rfl
  · obtain ⟨store', hstore'⟩ := Option.isSome_iff_exists.mp hstore
    obtain ⟨store, hsome, -⟩ := Option.map_eq_some_iff.mp hstore'
    have hsaved : s.store.isSome = true := by rw [hsome]; rfl
    have hopen := h.open_ hsaved (Or.inr (hgate hsaved))
    refine hopen.begun (h.kept store hsome) hd _ rfl rfl ?_ rfl fun d hd => (hdiscovered d hd).1
    rw [nextId, nextId, hd]
    cases hnew : discovered with
    | none => rfl
    | some d => exact congrArg (_ + ·) (hdiscovered d hnew).2.1

variable [IsStrictOrderedRing K]

/-- What a poll has to save, or a poll that saves nothing. -/
theorem poll_cases (h : Invariant s) (result : DiscoveryResult K) (inputEpoch : K)
    (position : Option (PositionFix K)) (fails : Bool) :
    (∃ s', s.poll result inputEpoch position fails = .ok s' ∧ Invariant s') ∨
    ∃ discovered discovered' found u, s.discovered = some discovered ∧
      Observed discovered discovered' found ∧
      (Open s → ∀ e ∈ discovered'.recent, ∀ a ∈ s.written,
        a.row.id = s.waveformIdBase + e.id →
          a.row.bandwidthHz = e.bandwidthHz ∧ a.row.spreadingFactor = e.spreadingFactor) ∧
      s.poll result inputEpoch position fails = s.save u discovered' found inputEpoch position fails := by
  unfold poll
  split <;> rename_i hd
  · exact Or.inl ⟨s, rfl, h⟩
  rename_i discovered
  split <;> rename_i hobserve
  · refine Or.inl ⟨_, rfl, h.wellFormed, h.discovering, h.unconfirmed, h.memory, ?_, ?_⟩
    · exact fun store hstore => ⟨(h.kept store hstore).acquisition_le, (h.kept store hstore).identity,
        (h.kept store hstore).profile, (h.kept store hstore).source⟩
    · intro hstore hworking
      have hopen := h.open_ hstore hworking
      exact ⟨hopen.nextId_le, hopen.written_lt, hopen.current, hopen.past, hopen.entries⟩
  rename_i u discovered'
  have hwell := h.wellFormed discovered hd
  have hwell' := DiscoveryObservations.observe_wellFormed hwell hobserve
  obtain ⟨e, he, heid⟩ := hwell.observe_mem hobserve
  split <;> rename_i hfind
  · exact absurd (decide_eq_true heid) (List.find?_eq_none.mp hfind e he)
  rename_i found
  have hfound := List.find?_some hfind
  have hid : found.id = u.id := of_decide_eq_true hfound
  refine Or.inr ⟨discovered, discovered', found, u, hd, ⟨hwell', List.mem_of_find?_eq_some hfind, ?_⟩,
    fun hopen => hopen.entries_observe hwell hd hobserve, rfl⟩
  rw [hid]
  exact (hwell.observe_entry hobserve).imp (fun h => h.2) fun h => h.2

/-- **One step keeps the invariant.** -/
theorem Invariant.perform (h : Invariant s) (e : Event K) : Invariant (s.perform e) := by
  cases e with
  | result found inputEpoch position fails =>
    rw [WaveformSurvey.perform]
    split_ifs with hworking
    -- The poll has nothing to save, or it has observed a fit, whose save may fail.
    · rcases poll_cases h found inputEpoch position fails with ⟨s', hpoll, hs'⟩ | ⟨d, d', e, u, hd, hobserved, hentries, hpoll⟩
      · rw [hpoll]
        exact hs'
      · rw [hpoll]
        cases hsave : s.save u d' e inputEpoch position fails with
        | ok s' => exact h.save hd hobserved hentries hsave
        | error message => exact h.failed hworking
    · exact h
  | fail =>
    rw [WaveformSurvey.perform]
    split_ifs with hworking
    · exact h.failed hworking
    · exact h
  | finish saved =>
    rw [WaveformSurvey.perform]
    split_ifs with hworking
    · exact h.finished hworking
    · exact h
  | start config subbands outcome =>
    unfold WaveformSurvey.perform
    dsimp only
    split_ifs with hgate
    · exact h
    obtain ⟨hidle, hgate⟩ := not_or.mp hgate
    have hidle := Bool.eq_false_of_not_eq_true hidle
    have hgate : s.store.isSome = true → s.finalSaveConfirmed = true := fun hstore => by
      by_contra hne
      exact hgate ⟨hstore, Bool.eq_false_of_not_eq_true hne⟩
    cases outcome with
    | refused => exact h
    | aborted saved =>
      exact h.begun hgate (fun d hd => by cases hd) hidle (fun hd => by cases hd) fun hw => by cases hw
    | running =>
      refine h.begun hgate (fun d hd => ?_) hidle (fun _ => rfl) fun _ => rfl
      obtain ⟨count, -, hcreate⟩ := Option.bind_eq_some_iff.mp hd
      cases hnew : DiscoveryObservations.create (K := K) config.sampleRate count with
      | error message =>
        rw [hnew] at hcreate
        cases hcreate
      | ok discovered =>
        rw [hnew] at hcreate
        obtain rfl := Option.some.inj hcreate
        obtain ⟨hrecent, hnext⟩ := DiscoveryObservations.create_ok hnew
        exact ⟨hrecent, hnext, DiscoveryObservations.create_wellFormed hnew⟩

omit [IsStrictOrderedRing K] in
theorem new_invariant {startedUtc : K} {config : ReceiverConfig K} {schemaVersion : Option ℕ} :
    Invariant (new startedUtc config schemaVersion) := by
  have hnone : ∀ a : Written K, a ∉ ([] : List (Written K)) := fun _ => List.not_mem_nil
  refine ⟨fun d hd => (by cases hd), fun hd => (by cases hd), fun hw => (by cases hw), fun _ => rfl,
    fun store hstore => ?_, fun _ _ => ?_⟩
  · obtain ⟨version, -, rfl⟩ := Option.map_eq_some_iff.mp hstore
    exact ⟨fun a ha => absurd ha (hnone a), fun a ha => absurd ha (hnone a),
      fun a ha => absurd ha (hnone a), fun id w hw => (by cases hw)⟩
  · exact ⟨(by decide : 0 + 1 ≤ 2 ^ 63), fun a ha => absurd ha (hnone a), fun hw => (by cases hw),
      fun hw => (by cases hw), fun d hd => (by cases hd)⟩

end Steps

/-- **The identity of a saved waveform.** In every survey the view keeps at most 256 coherent entries
with increasing ids. What is written under one id is one entry of one acquisition, with one profile,
and the rows are what was written. No append finds another profile under its id. -/
theorem waveform_identity [IsStrictOrderedRing K] (startedUtc : K) (config : ReceiverConfig K)
    (schemaVersion : Option ℕ) (events : List (Event K)) :
    let s := run perform (new startedUtc config schemaVersion) events
    (∀ discovered ∈ s.discovered, discovered.recent.length ≤ 256 ∧
      (discovered.recent.map DiscoveryObservation.id).Pairwise (· < ·) ∧
      ∀ e ∈ discovered.recent,
        DiscoveryObservations.Coherent discovered.rate discovered.subbands e) ∧
    (∀ a ∈ s.written, ∀ b ∈ s.written,
      (a.row.id = b.row.id ↔ a.acquisition = b.acquisition ∧ a.observation = b.observation) ∧
      (a.row.id = b.row.id → a.row.SameProfile b.row)) ∧
    (∀ store ∈ s.store, ∀ id w, store.rows id = some w → w.id = id ∧ ∃ a ∈ s.written, a.row = w) ∧
    ∀ result inputEpoch position fails message,
      s.poll result inputEpoch position fails = .error message → message ≠ changedProfile := by
  intro s
  have h : Invariant s := invariant_run (fun _ e h => h.perform e) new_invariant events
  refine ⟨fun discovered hd => ?_, fun a ha b hb => ?_, fun store hstore => (h.kept store hstore).source,
    fun result inputEpoch position fails message herror => ?_⟩
  · have hwell := h.wellFormed discovered hd
    exact ⟨hwell.length_le, hwell.increasing, hwell.coherent⟩
  · cases hstore : s.store with
    | none =>
      rw [h.memory hstore] at ha
      cases ha
    | some store =>
      have hkept := h.kept store hstore
      refine ⟨hkept.identity a ha b hb, fun hid => ?_⟩
      obtain ⟨w, hw, hbw, hsf⟩ := hkept.profile a ha
      obtain ⟨v, hv, hbw', hsf'⟩ := hkept.profile b hb
      rw [← hid] at hv
      obtain rfl := Option.some.inj (hw.symm.trans hv)
      exact ⟨hbw.symm.trans hbw', hsf.symm.trans hsf'⟩
  · rcases poll_cases h result inputEpoch position fails with ⟨s', hpoll, -⟩ | ⟨d, d', e, u, hd, hobserved, hentries, hpoll⟩
    · rw [hpoll] at herror
      cases herror
    · rw [hpoll] at herror
      exact h.save_error hd hobserved hentries herror

/-- A HackRF survey at 8 MS/s around 100 MHz with discovery. -/
def discoveringConfig : ReceiverConfig ℚ :=
  { synthetic := false, hardwareReceiver := .hackRf, centerHz := 100000000, tuningOffsetHz := 0
    sampleRate := 8000000, surveySpanHz := 4000000, lnaGain := 16, vgaGain := 20
    amplifier := false, rtlGainTenthsDb := 0, rtlAutoGain := false, deviceSerial := []
    concentrators :=
      { boards := [], scanEnabled := false, decodeEnabled := false, scanStepHz := 0
        scanSamples := 0 }
    activityThresholdDbfs := none, discoverLora := true, automaticDecode := false
    compactRecording := false, lanes := [], sessionPath := [], sessionTitle := []
    antennaDescription := [], receiverDescription := [], surveyNotes := [] }

/-- A waveform at the start of an acquisition. -/
def firstWaveform : Event ℚ :=
  .result
    { waveform :=
        { centerHz := some 100000000, bandwidthHz := 125000, spreadingFactor := 7
          firstObservedUpchirpSample := some 0, delimiterSample := some 1000, upMatch := some 1
          downMatch := some 1, repeatCoherence := some 1 }
      subbandIndex := 0, firstInputAnchor := 0, inputSampleStride := 4 } 0 none false

/-- Two acquisitions that find the same waveform. -/
def twoAcquisitions : List (Event ℚ) :=
  [.start discoveringConfig (some 1) .running, firstWaveform, .finish true,
    .start discoveringConfig (some 1) .running, firstWaveform]

/-- The first entries of two acquisitions are written under two ids. -/
theorem waveform_identity_twoAcquisitions : ∃ a b,
    (run perform (new 0 discoveringConfig (some 5)) twoAcquisitions).written = [a, b] ∧
      a.observation = b.observation ∧ a.row.id ≠ b.row.id := by
  have hidentity := (waveform_identity 0 discoveringConfig (some 5) twoAcquisitions).2.1
  have hwritten : (run perform (new 0 discoveringConfig (some 5)) twoAcquisitions).written.map
      (fun a => (a.acquisition, a.observation)) = [(1, 1), (2, 1)] := by decide +kernel
  obtain ⟨a, rest, hall, ha, hrest⟩ := List.map_eq_cons_iff.mp hwritten
  obtain ⟨b, rest, rfl, hb, hrest⟩ := List.map_eq_cons_iff.mp hrest
  obtain rfl := List.map_eq_nil_iff.mp hrest
  obtain ⟨hacquisition, hobservation⟩ := Prod.mk.inj ha
  obtain ⟨hacquisition', hobservation'⟩ := Prod.mk.inj hb
  refine ⟨a, b, hall, hobservation.trans hobservation'.symm, fun hid => ?_⟩
  rw [hall] at hidentity
  have hsame := ((hidentity a (by simp) b (by simp)).1.mp hid).1
  rw [hacquisition, hacquisition'] at hsame
  cases hsame

end WaveformSurvey

end OVMesh
