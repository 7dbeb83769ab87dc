import OVMesh.Store.Calls

/-!
# The recordings of the engine

`Engine::start`, `Engine::stop` and the saves of the workers in `engine.cpp` and `engine_rak.inc`,
with the store that they write. A method that throws keeps what it changed before, as
`Engine::start` does.

* `SteadyClock`: the readings of `monotonic_now`.
* `Recording`: the members of `Engine::Impl` that span the runs of a survey.
* `Recording.start`, `Recording.resume`: a new survey, and the next run of it.
* `Recording.checkpoint`, `Recording.finish`, `Recording.abort`: the saves of a run.
* `Recording.Command`, `Recording.perform`: one step of the engine.
-/

namespace OVMesh

open Checked Stateful
open SpectrumProcessor (Libm)

variable {K : Type}

/-- `std::chrono::steady_clock`, a signed 64-bit count of nanoseconds, by its successive
readings. -/
structure SteadyClock where
  ticks : ℕ → ℕ
  mono : Monotone ticks
  ticks_le : ∀ i, ticks i ≤ int64Max

/-- A reading of the clock in seconds. -/
def SteadyClock.seconds [Field K] (clock : SteadyClock) (i : ℕ) : K := clock.ticks i / 10 ^ 9

/-! ## Configurations -/

/-- What `Engine::start` changes before it validates: a concentrator has no sampled reception. -/
def ReceiverConfig.prepared (c : ReceiverConfig K) : ReceiverConfig K :=
  if c.Rak then { c with discoverLora := false, lanes := [], sampleRate := 0 } else c

/-- `configure_rtl`: the manual gain that the tuner selected, without the controls of a HackRF. -/
def ReceiverConfig.configured (c : ReceiverConfig K) (tunerGain : ℤ) : ReceiverConfig K :=
  if c.Rtl then { c with
    rtlGainTenthsDb := if c.rtlAutoGain then c.rtlGainTenthsDb else tunerGain
    lnaGain := 0
    vgaGain := 0
    amplifier := false }
  else c

/-- The configuration of a segment, without the identity of a device or a path. -/
def ReceiverConfig.anonymous (c : ReceiverConfig K) : ReceiverConfig K :=
  { c with
    deviceSerial := []
    sessionPath := []
    concentrators := { c.concentrators with
      boards := c.concentrators.boards.map fun b => { b with devicePath := [], deviceId := [] } } }

/-- The settings of two boards that a resumed survey compares. -/
def ConcentratorBoardConfig.SameModem (x y : ConcentratorBoardConfig) : Prop :=
  x.packetsEnabled = y.packetsEnabled ∧ x.frequencyHz = y.frequencyHz ∧
    x.bandwidthHz = y.bandwidthHz ∧ x.spreadingFactor = y.spreadingFactor ∧
    x.syncWord = y.syncWord

instance (x y : ConcentratorBoardConfig) : Decidable (x.SameModem y) :=
  inferInstanceAs (Decidable (_ ∧ _))

/-- `same` of `Engine::start`. -/
def ReceiverConfig.SameConcentrators (c previous : ReceiverConfig K) : Prop :=
  let a := c.concentrators
  let b := previous.concentrators
  (a.scanEnabled = b.scanEnabled ∧ a.decodeEnabled = b.decodeEnabled ∧
    a.scanStepHz = b.scanStepHz ∧ a.scanSamples = b.scanSamples ∧
    a.boards.length = b.boards.length ∧ c.centerHz = previous.centerHz ∧
    c.surveySpanHz = previous.surveySpanHz ∧ c.tuningOffsetHz = previous.tuningOffsetHz) ∧
  ∀ p ∈ a.boards.zip b.boards, p.1.SameModem p.2

instance (c previous : ReceiverConfig K) : Decidable (c.SameConcentrators previous) :=
  inferInstanceAs (Decidable (_ ∧ _))

/-! ## State -/

/-- A survey that is recorded. `working` is a worker that has not returned, and `joinable` one that
has not been joined. `readings` counts the readings of the clock. -/
structure Recording (K : Type) where
  store : SessionStore K
  savedPath : Text
  config : ReceiverConfig K
  acquisitions : List (AcquisitionSegment K)
  elapsed : K
  started : K
  startedUtc : K
  runElapsedStart : K
  pausedAt : K
  lastMeasurementElapsed : K
  gapId : ℕ
  finalSaveConfirmed : Bool
  working : Bool
  joinable : Bool
  readings : ℕ

namespace Recording

/-- A method of the engine. -/
abbrev Method (K : Type) := EStateM String (Recording K)

/-- A method of the store of the recording. -/
def inStore {α : Type} (x : SessionStore.Method K α) : Method K α := fun r =>
  match x r.store with
  | .ok a store => .ok a { r with store }
  | .error e store => .error e { r with store }

/-- `try {…} catch(...) {…}` of a method: whether it returned. -/
def attempt (x : Method K Unit) : Method K Bool := fun r => .ok (isOk (x r)) (finalState (x r))

variable [Field K] [LinearOrder K]

/-- `monotonic_now`: the next reading of the clock. -/
def monotonicNow (clock : SteadyClock) : Method K K := do
  let r ← get
  set { r with readings := r.readings + 1 }
  return clock.seconds r.readings

/-- The elapsed time that `process` and `process_concentrators` publish. -/
def elapsedAt (r : Recording K) (now : K) : K :=
  if r.config.Rak then now - r.started
  else max (max r.lastMeasurementElapsed r.runElapsedStart) (now - r.started)

/-- The newest acquisition ends at a time. -/
def ends (r : Recording K) (elapsed : K) (finalized : AcquisitionSegment K → Bool) : Recording K :=
  { r with
    elapsed
    acquisitions := r.acquisitions.modifyLast fun a =>
      { a with elapsedEnd := elapsed, finalized := finalized a } }

/-! ## Workers -/

/-- An exception ends `process`, and it stops the loop of `process_concentrators`, which still
saves. -/
def worker (x : Method K Unit) : Method K Unit := fun r =>
  match x r with
  | .ok a r => .ok a r
  | .error e r => .error e (if r.config.Rak then r else { r with working := false })

/-- A live snapshot between two saves. -/
def publish (clock : SteadyClock) : Method K Unit := do
  check (reject ((← get).working = false) "No worker")
  let now ← monotonicNow clock
  let r ← get
  if r.config.Rak then set { r with elapsed := r.elapsedAt now }
  else set (r.ends (r.elapsedAt now) (·.finalized))

/-- A measurement, and the time that the last tile has reached. -/
def append [FloorRing K] (m : Libm K) (call : SessionStore.Call K) : Method K Unit := do
  check (reject ((← get).working = false) "No worker")
  worker (inStore (SessionStore.perform m call))
  match call with
  | .tile tile => modify fun r => { r with
      lastMeasurementElapsed := max r.lastMeasurementElapsed tile.elapsedEndSeconds }
  | _ => pure ()

/-- The save of a worker at a reading of the clock. -/
def save (clock : SteadyClock) (snapshot : Snapshot K) (final : Bool) (fault : Option String) :
    Method K Unit := do
  let now ← monotonicNow clock
  let r ← get
  let elapsed := r.elapsedAt now
  set (r.ends elapsed fun a => if r.config.Rak then final else final || a.finalized)
  inStore (SessionStore.update { snapshot with elapsedSeconds := elapsed } final fault)

/-- `checkpoint`: the worker saves what it measured, and a failure ends it. -/
def checkpoint (clock : SteadyClock) (snapshot : Snapshot K) (fault : Option String) :
    Method K Unit := do
  check (reject ((← get).working = false) "No worker")
  worker (save clock snapshot false fault)

/-- The end of a worker, with its final save. -/
def finish (clock : SteadyClock) (snapshot : Snapshot K) (fault : Option String) :
    Method K Unit := do
  check (reject ((← get).working = false) "No worker")
  modify fun r => { r with working := false }
  save clock snapshot true fault
  modify fun r => { r with finalSaveConfirmed := true }

/-- The end of a worker that failed. -/
def fail : Method K Unit := do
  check (reject ((← get).working = false) "No worker")
  modify fun r => { r with working := false }

/-! ## Lifecycle -/

/-- `stop_locked`, when the worker has returned. -/
def stop (clock : SteadyClock) : Method K Unit := do
  let r ← get
  check (reject (r.working = true) "The worker has not returned")
  if r.joinable = true then
    let now ← monotonicNow clock
    modify fun r => { r with pausedAt := now, joinable := false }

/-- The end of `Engine::start` when it fails after the acquisition began. The failure of the save
is only remembered. -/
def abort (clock : SteadyClock) (snapshot : Snapshot K) (fault : Option String) :
    Method K Unit := do
  check (reject ((← get).joinable = false) "No acquisition was begun")
  let now ← monotonicNow clock
  let r ← get
  let elapsed := max (max r.lastMeasurementElapsed r.runElapsedStart) (now - r.started)
  set { r.ends elapsed (fun _ => true) with pausedAt := now, working := false, joinable := false }
  let saved ← attempt
    (inStore (SessionStore.update { snapshot with elapsedSeconds := elapsed } true fault))
  modify fun r => { r with finalSaveConfirmed := saved }

/-- The checks of `Engine::start` on the configuration of a resumed survey. -/
def checkResume (r : Recording K) (c : ReceiverConfig K) : Except String Unit := do
  reject (c.synthetic ≠ r.config.synthetic ∨ c.hardwareReceiver ≠ r.config.hardwareReceiver)
    "Choose New to change receiver type. The current survey and its measurements are preserved"
  reject (c.sessionPath ≠ r.savedPath ∨ c.compactRecording ≠ r.config.compactRecording)
    "Choose New to change the recording destination or storage format. The current survey is preserved"
  reject (c.Rak ∧ ¬ c.SameConcentrators r.config)
    "Choose New to change concentrator scan or modem settings. The current survey is preserved"
  reject (r.acquisitions.length ≥ 2048)
    "This survey reached 2048 acquisition segments. Save it and choose New"

/-- The acquisition that a run begins. -/
def newSegment (count : ℕ) (elapsed : K) (c : ReceiverConfig K) : AcquisitionSegment K where
  id := count + 1
  elapsedStart := elapsed
  elapsedEnd := elapsed
  finalized := false
  config := c.anonymous

/-- The gap of a pause. -/
def pauseGap (r : Recording K) (id : ℕ) (start stop : K) : CoverageGap K where
  id := id
  missingSamples := 0
  utcStartSeconds := r.startedUtc + start
  utcEndSeconds := r.startedUtc + stop
  elapsedStartSeconds := start
  elapsedEndSeconds := stop
  reason := "reception_paused"

/-- The part of `Engine::start` that appends the gap of the pause. -/
def appendPause [FloorRing K] (m : Libm K) (start : K) : Method K Unit := do
  let r ← get
  match r.acquisitions.getLast? with
  | none => pure ()
  | some last =>
    if ¬ r.config.Rak ∧ start > last.elapsedEnd then
      set { r with gapId := r.gapId + 1 }
      inStore (SessionStore.appendGap m (r.pauseGap (r.gapId + 1) last.elapsedEnd start))

/-- `Engine::start` on a survey with a session. `refused` is a failure of a check that needs a
device, of the frequency-grid limit or of the verification of the saved file. -/
def resume [FloorRing K] (m : Libm K) (clock : SteadyClock) (requested : ReceiverConfig K)
    (tunerGain : ℤ) (refused : Option String) : Method K Unit := do
  stop clock
  let r ← get
  check (reject (r.finalSaveConfirmed = false)
    "The previous recording could not be finalized. Preserve it with Save copy before starting a new survey")
  let config := requested.prepared
  check (validate config)
  check (checkResume r config)
  match refused with
  | some message => throw message
  | none =>
    let config := config.configured tunerGain
    modify fun r => { r with config }
    let now ← monotonicNow clock
    let later ← monotonicNow clock
    let start := max (r.elapsed + max 0 (now - r.pausedAt)) (later - r.started)
    modify fun r => { r with runElapsedStart := start }
    appendPause m start
    let segment := newSegment r.acquisitions.length start config
    inStore (SessionStore.beginAcquisition m segment)
    modify fun r => { r with
      acquisitions := r.acquisitions ++ [segment]
      elapsed := start
      finalSaveConfirmed := false
      working := true
      joinable := true }

/-- `Engine::start` without a session, at the first reading of the clock. -/
def start [FloorRing K] (m : Libm K) (clock : SteadyClock) (requested : ReceiverConfig K)
    (tunerGain : ℤ) (sessionId : Text) (startedUtc : K) : Except String (Recording K) := do
  let config := requested.prepared
  validate config
  let config := config.configured tunerGain
  let store ← SessionStore.create config sessionId
  let segment := newSegment 0 0 config
  match (do
      SessionStore.enableAcquisitions
      SessionStore.beginAcquisition m segment : SessionStore.Method K Unit) store with
  | .error e _ => throw e
  | .ok _ store => return {
      store, config
      savedPath := config.sessionPath
      acquisitions := [segment]
      elapsed := 0
      started := clock.seconds 0
      startedUtc
      runElapsedStart := 0
      pausedAt := 0
      lastMeasurementElapsed := 0
      gapId := 0
      finalSaveConfirmed := false
      working := true
      joinable := true
      readings := 1 }

/-- One step of the engine. -/
inductive Command (K : Type)
  | append (call : { call : SessionStore.Call K // call.Appends })
  | publish
  | checkpoint (snapshot : Snapshot K) (fault : Option String)
  | finish (snapshot : Snapshot K) (fault : Option String)
  | fail
  | stop
  | abort (snapshot : Snapshot K) (fault : Option String)
  | resume (requested : ReceiverConfig K) (tunerGain : ℤ) (refused : Option String)

/-- One command of the engine on the store. A record is accepted by `append` or refused, as `Call` says.
-/
def perform [FloorRing K] (m : Libm K) (clock : SteadyClock) : Command K → Method K Unit
  | .append call => append m call.val
  | .publish => publish clock
  | .checkpoint snapshot fault => checkpoint clock snapshot fault
  | .finish snapshot fault => finish clock snapshot fault
  | .fail => fail
  | .stop => stop clock
  | .abort snapshot fault => abort clock snapshot fault
  | .resume requested tunerGain refused => resume m clock requested tunerGain refused

end Recording

end OVMesh
