import OVMesh.Engine.Config
import OVMesh.Lib.Runs
import OVMesh.Lib.Stateful

/-!
# Sessions

The lifecycle of the engine: which calls end a session, and what becomes of its measurements. A
worker counts what its receiver has delivered, also after the receiver has failed, and `stop_locked`
waits for it.

* `Session`: the state behind the lifecycle lock, with the worker and the files.
* `stopLocked`, `saveLocked`, `start`, `openSession`, `saveSessionCopy`, `newSession`: the calls.
* `perform`: one call, or one step of a worker, a receiver or another program.
* `newSession_safe`: when `newSession` keeps what was measured.
-/

namespace OVMesh

open Stateful Runs

/-- What a worker counts at once: a block of samples with its tiles and receptions, or a scan. -/
structure Measurement where
  samples : ℕ
  receptions : ℕ
  tiles : ℕ
  scans : ℕ
  rssiSamples : ℕ

/-- The counters of a snapshot. -/
structure Counters where
  deliveredSamples : ℕ
  totalReceptions : ℕ
  spectrumTiles : ℕ
  concentratorScans : ℕ
  concentratorRssiSamples : ℕ

/-- The counters of a memory-only session are sums over what was measured. -/
def countersOf (measured : List Measurement) : Counters where
  deliveredSamples := (measured.map (·.samples)).sum
  totalReceptions := (measured.map (·.receptions)).sum
  spectrumTiles := (measured.map (·.tiles)).sum
  concentratorScans := (measured.map (·.scans)).sum
  concentratorRssiSamples := (measured.map (·.rssiSamples)).sum

/-- `has_data`: the session has measured something. -/
def hasData (measured : List Measurement) : Bool :=
  let c := countersOf measured
  c.deliveredSamples != 0 || c.totalReceptions != 0 || c.spectrumTiles != 0 || c.concentratorScans != 0

/-- What a reader gets of a file. -/
structure SavedSession where
  sessionId : Text
  measured : List Measurement

/-- A worker that has not been joined. `pending` is what it has still to count. -/
structure SessionWorker where
  pending : List Measurement
  ended : Bool

/-- The state behind the lifecycle lock. `files` says what reading a path gives. -/
structure Session where
  historical : Bool
  running : Bool
  sessionId : Text
  measured : List Measurement
  savedPath : Text
  store : Option Text
  finalSaveConfirmed : Bool
  run : Bool
  worker : Option SessionWorker
  files : Text → Except String SavedSession

namespace Session

/-- How a worker ends: what still arrives, which of the pending measurements it counts, which are not
all when an exception ends the input of a board, and whether it makes its final save. -/
structure Ending where
  arrived : List Measurement
  counted : ℕ → Bool
  saved : Bool

/-- What a save of a running session waits for. -/
inductive Wait
  | completed
  | timedOut
  | stopped (reason : String)

/-- What a public operation of the engine does: it returns or throws, and leaves a session. -/
abbrev Method := EStateM String Session

/-- The session as the file holds it. -/
def saved (s : Session) : SavedSession := { sessionId := s.sessionId, measured := s.measured }

/-- The state of a new engine. -/
def initial (files : Text → Except String SavedSession) : Session where
  historical := false
  running := false
  sessionId := []
  measured := []
  savedPath := []
  store := none
  finalSaveConfirmed := false
  run := false
  worker := none
  files := files

/-! ## Workers -/

/-- `store->update`, of the snapshot. -/
def update (s : Session) : Session :=
  match s.store with
  | none => s
  | some path => { s with files := Function.update s.files path (.ok s.saved) }

/-- What a worker that ends still counts. -/
def drained (e : Ending) (s : Session) : List Measurement :=
  match s.worker with
  | none => []
  | some w =>
    if w.ended then []
    else ((w.pending ++ e.arrived).zipIdx.filter fun (_, i) => e.counted i).map (·.1)

/-- The end of a worker: it counts what is pending, and saves. -/
def endWorker (e : Ending) (s : Session) : Session :=
  match s.worker with
  | none => s
  | some w =>
    if w.ended then s
    else
      let s' := { s with
        measured := s.measured ++ drained e s
        worker := some { pending := [], ended := true }
        running := false }
      if s.store = none ∨ e.saved = false then s'
      else { s'.update with finalSaveConfirmed := true }

/-- `stop_locked`: the worker stores what is left, and ends. -/
def stopLocked (e : Ending) (s : Session) : Session :=
  { endWorker e { s with run := false } with running := false, worker := none }

/-! ## Calls -/

/-- The recording agrees with the counters in memory. -/
def Agrees (saved : SavedSession) (s : Session) : Prop :=
  let a := countersOf saved.measured
  let b := countersOf s.measured
  saved.sessionId = s.sessionId ∧ a.deliveredSamples = b.deliveredSamples ∧
    a.totalReceptions = b.totalReceptions ∧ a.concentratorScans = b.concentratorScans ∧
    a.concentratorRssiSamples = b.concentratorRssiSamples

instance (saved : SavedSession) (s : Session) : Decidable (Agrees saved s) :=
  inferInstanceAs (Decidable (_ ∧ _))

/-- The end of `save_locked`: the final save is confirmed, and the file is read again. -/
def verify : Method Unit := do
  let s ← get
  if s.finalSaveConfirmed = false then
    throw "The final recording save was not confirmed. Keep this session open; Save copy can preserve its last readable checkpoint"
  match s.files s.savedPath with
  | .error e => throw ("Cannot verify the saved session: " ++ e)
  | .ok saved =>
    if ¬ Agrees saved s then
      throw "Cannot verify the saved session: Saved session does not match the current finalized measurements"

/-- `save_locked`: the file is written, unless the session is historical or was not recorded. -/
def saveLocked (e : Ending) (wait : Wait) : Method Unit := do
  let s ← get
  if s.historical = true then
    throw "This session is historical and read-only; use Save copy to keep another copy"
  if s.savedPath = [] then
    throw "This session was not recorded. Enable recording before starting a new session; earlier memory-only history cannot be recovered"
  if s.running = true ∧ s.run = true then
    match wait with
    | .completed => modify update
    | .timedOut => throw "Save was not confirmed within five seconds. Recording may still be saving; keep this session open and check its status"
    | .stopped reason => throw ("Save could not be confirmed: " ++ reason)
  else
    modify (stopLocked e)
    verify

/-- `catch`: a call that throws leaves the state that `recover` makes of it, and throws on. -/
def onError (x : Method Unit) (recover : String → Session → Session) : Method Unit := fun s =>
  match x s with
  | .ok u s => .ok u s
  | .error message s => .error message (recover message s)

/-- A requested start. `invalid` is a failure of `validate` or of what the survey was begun with,
`refused` of a device, `unrecorded` of the new file, `unbegun` of the acquisition, and `unstarted` of
the device after it, with what becomes of the save then. -/
structure StartRequest where
  sessionPath : Text
  newId : { id : Text // id ≠ [] }
  invalid : Option String
  refused : Option String
  unrecorded : Option String
  unbegun : Option String
  unstarted : Option (String × Bool)

/-- A failure that the request names. -/
def raise : Option String → Method Unit
  | none => pure ()
  | some message => throw message

/-- The part of `Engine::start` before the acquisition begins. -/
def prepare (e : Ending) (wait : Wait) (request : StartRequest) : Method Unit := do
  let s ← get
  if s.historical = true then
    throw "Saved surveys are read-only. Choose New before starting reception"
  let resume := s.sessionId ≠ []
  if resume ∧ s.savedPath ≠ [] ∧ s.finalSaveConfirmed = false then
    throw "The previous recording could not be finalized. Preserve it with Save copy before starting a new survey"
  raise request.invalid
  if resume ∧ request.sessionPath ≠ s.savedPath then
    throw "Choose New to change the recording destination or storage format. The current survey is preserved"
  if resume ∧ s.savedPath ≠ [] then
    saveLocked e wait
  raise request.refused
  if ¬ resume then
    modify fun s => { s with historical := false, running := false, sessionId := request.newId, measured := [] }
    if request.sessionPath ≠ [] then
      raise request.unrecorded
      modify fun s => update { s with store := some request.sessionPath, savedPath := request.sessionPath }
  raise request.unbegun

/-- The part of `Engine::start` from the acquisition on. -/
def launch (request : StartRequest) : Method Unit := do
  modify fun s => { s with finalSaveConfirmed := false, run := true, running := true }
  raise (request.unstarted.map (·.1))
  modify fun s => { s with worker := some { pending := [], ended := false } }

/-- A start that failed before the acquisition: a session that it would have begun is no session. -/
def abandon (resume : Bool) (s : Session) : Session :=
  let s := { s with run := false, running := false }
  if resume then s else { s with store := none, savedPath := [], sessionId := [] }

/-- A start that failed after the acquisition had begun. -/
def abort (saved : Bool) (s : Session) : Session :=
  let s := { s with run := false, running := false }
  if s.store = none then s
  else if saved then { s.update with finalSaveConfirmed := true }
  else { s with finalSaveConfirmed := false }

/-- `Engine::start`: the last acquisition is stopped, and the next one prepared, in the same session if it
is live. -/
def start (e : Ending) (wait : Wait) (request : StartRequest) : Method Unit := do
  modify (stopLocked e)
  let s ← get
  let resume := decide (s.historical = false ∧ s.sessionId ≠ [])
  onError (prepare e wait request) fun _ => abandon resume
  onError (launch request) fun _ => abort ((request.unstarted.map (·.2)).getD false)

/-- `Engine::open_session`: the acquisition is stopped, and a stored session is shown. -/
def openSession (e : Ending) (path : Text) : Method Unit := do
  modify (stopLocked e)
  let s ← get
  match s.files path with
  | .error message => throw message
  | .ok saved => modify fun s => { s with
      historical := true
      running := false
      sessionId := saved.sessionId
      measured := saved.measured
      store := none
      savedPath := path }

/-- `Engine::save_session_copy`. `failure` is one of the copy itself. -/
def saveSessionCopy (e : Ending) (wait : Wait) (path : Text) (failure : Option String) :
    Method Unit := do
  let s ← get
  if s.savedPath = [] then
    throw "This session has no saved history to copy. Enable recording before starting a new session"
  if s.running = true ∧ s.run = true then
    saveLocked e wait
  else
    modify (stopLocked e)
  let s ← get
  let failed := fun what => "Save copy failed; the original recording is preserved. " ++ what
  match s.files s.savedPath with
  | .error message => throw (failed message)
  | .ok saved => do
    if saved.sessionId ≠ s.sessionId then
      throw (failed "The saved file no longer belongs to the current session")
    raise (failure.map failed)
    modify fun s => { s with files := Function.update s.files path (.ok saved) }

/-- The empty workspace. -/
def cleared (s : Session) : Session :=
  { s with
    historical := false
    running := false
    sessionId := []
    measured := []
    savedPath := []
    store := none
    finalSaveConfirmed := false }

/-- `Engine::new_session`: what was measured only in memory is discarded, when that was confirmed. -/
def newSession (e : Ending) (wait : Wait) (discardUnrecorded : Bool) : Method Unit := do
  let s ← get
  let historical := s.historical
  if historical = false ∧ s.savedPath = [] ∧ (hasData s.measured = true ∨ s.running = true) ∧
      discardUnrecorded = false then
    throw "This session contains unrecorded measurements. Creating a new session will discard them; explicit discard confirmation is required"
  modify (stopLocked e)
  let s ← get
  if historical = false ∧ s.savedPath ≠ [] ∧ hasData s.measured = true then
    saveLocked e wait
  modify cleared

/-! ## Runs -/

/-- A call, or a step of a worker, a receiver or another program. -/
inductive Event
  | start (e : Ending) (wait : Wait) (request : StartRequest)
  | stop (e : Ending)
  | openSession (e : Ending) (path : Text)
  | save (e : Ending) (wait : Wait)
  | saveSessionCopy (e : Ending) (wait : Wait) (path : Text) (failure : Option String)
  | newSession (e : Ending) (wait : Wait) (discardUnrecorded : Bool)
  | deliver (m : Measurement)
  | count
  | checkpoint
  | fail
  | crash
  | workerEnds (e : Ending)
  | otherProgram (path : Text) (file : Except String SavedSession)

/-- A worker that has not ended. -/
def withWorker (s : Session) (f : SessionWorker → Session) : Session :=
  match s.worker with
  | none => s
  | some w => if w.ended then s else f w

/-- One event of a session; an operation that throws leaves what it had changed. -/
def perform (s : Session) : Event → Session
  | .start e wait request => finalState (start e wait request s)
  | .stop e => stopLocked e s
  | .openSession e path => finalState (openSession e path s)
  | .save e wait => finalState (saveLocked e wait s)
  | .saveSessionCopy e wait path failure => finalState (saveSessionCopy e wait path failure s)
  | .newSession e wait discardUnrecorded => finalState (newSession e wait discardUnrecorded s)
  | .deliver m => s.withWorker fun w => { s with worker := some { w with pending := w.pending ++ [m] } }
  | .count => s.withWorker fun w => match w.pending with
    | [] => s
    | m :: pending => { s with measured := s.measured ++ [m], worker := some { w with pending } }
  | .checkpoint => s.withWorker fun _ => s.update
  | .fail => s.withWorker fun _ => { s with run := false, running := false }
  | .crash => s.withWorker fun _ =>
    { s with run := false, running := false, worker := some { pending := [], ended := true } }
  | .workerEnds e => if s.run then s else endWorker e s
  | .otherProgram path file => { s with files := Function.update s.files path file }

/-! ## What the calls do -/

/-- The final save is confirmed, and what is read of the recording agrees with the counters. -/
def Confirmed (s : Session) : Prop :=
  s.finalSaveConfirmed = true ∧ ∃ saved, s.files s.savedPath = .ok saved ∧ Agrees saved s

/-- The flags of a session that its worker does not change. -/
def flags (s : Session) : Bool × Text × Text × Option Text :=
  (s.historical, s.sessionId, s.savedPath, s.store)

section Calls

variable {s t : Session} {e : Ending} {wait : Wait}

theorem update_fields : s.update.flags = s.flags ∧ s.update.measured = s.measured ∧
    s.update.run = s.run := by
  unfold update
  split
  · exact ⟨rfl, rfl, rfl⟩
  · exact ⟨rfl, rfl, rfl⟩

/-- What the end of a worker keeps, and what it counts. -/
theorem endWorker_fields : (endWorker e s).flags = s.flags ∧
    (endWorker e s).measured = s.measured ++ drained e s ∧ (endWorker e s).run = s.run := by
  unfold endWorker
  split <;> rename_i hworker
  · rw [drained, hworker]
    exact ⟨rfl, (List.append_nil _).symm, rfl⟩
  · dsimp only
    split_ifs with hended
    · rw [drained, hworker]
      dsimp only
      rw [if_pos hended]
      exact ⟨rfl, (List.append_nil _).symm, rfl⟩
    · exact ⟨rfl, rfl, rfl⟩
    · exact update_fields (s := { s with
        measured := s.measured ++ drained e s
        worker := some { pending := [], ended := true }
        running := false })

/-- **Stopping.** The session keeps its flags, and has what the worker still counted. -/
theorem stopLocked_fields : (stopLocked e s).flags = s.flags ∧
    (stopLocked e s).measured = s.measured ++ drained e s ∧ (stopLocked e s).run = false :=
  endWorker_fields (s := { s with run := false })

theorem stopLocked_of_idle (hrun : t.run = false) (hrunning : t.running = false)
    (hworker : t.worker = none) : stopLocked e t = t := by
  obtain ⟨historical, running, sessionId, measured, savedPath, store, confirmed, run, worker, files⟩ := t
  dsimp only at hrun hrunning hworker
  subst hrun hrunning hworker
  rfl

/-- A stopped session is not changed by another stop. -/
theorem stopLocked_stopped {e' : Ending} : stopLocked e' (stopLocked e s) = stopLocked e s :=
  stopLocked_of_idle stopLocked_fields.2.2 rfl rfl

/-- The end of `save_locked` returns when the recording agrees, and leaves the session. -/
theorem verify_cases : Confirmed t ∧ verify t = .ok () t ∨ ¬ Confirmed t ∧ ∃ m, verify t = .error m t := by
  by_cases hconfirmed : t.finalSaveConfirmed = false
  · refine Or.inr ⟨fun h => ?_,
      "The final recording save was not confirmed. Keep this session open; Save copy can preserve its last readable checkpoint",
      ?_⟩
    · rw [h.1] at hconfirmed
      cases hconfirmed
    · change (if _ then _ else _ : Method Unit) t = _
      rw [if_pos hconfirmed]
      rfl
  · have hbody : verify t = (match t.files t.savedPath with
        | .error e => throw ("Cannot verify the saved session: " ++ e)
        | .ok saved => if ¬ Agrees saved t then
            throw "Cannot verify the saved session: Saved session does not match the current finalized measurements"
          else pure () : Method Unit) t := by
      change (if _ then _ else _ : Method Unit) t = _
      rw [if_neg hconfirmed]
    rw [hbody]
    cases hfile : t.files t.savedPath with
    | error m =>
      refine Or.inr ⟨fun ⟨_, saved, hsaved, _⟩ => ?_, _, rfl⟩
      rw [hfile] at hsaved
      cases hsaved
    | ok saved =>
      dsimp only
      by_cases hagrees : Agrees saved t
      · refine Or.inl ⟨⟨Bool.eq_true_of_not_eq_false hconfirmed, saved, hfile, hagrees⟩, ?_⟩
        rw [if_neg (not_not.mpr hagrees)]
        rfl
      · refine Or.inr ⟨fun ⟨_, saved', hsaved, hagrees'⟩ => ?_,
          "Cannot verify the saved session: Saved session does not match the current finalized measurements",
          ?_⟩
        · obtain rfl := Except.ok.inj (hfile.symm.trans hsaved)
          exact hagrees hagrees'
        · change (if _ then throw _ else _ : Method Unit) t = _
          rw [if_pos hagrees]
          rfl

/-- A recorded session that was stopped is verified. -/
theorem saveLocked_stopped (wait : Wait) (hhistorical : (stopLocked e s).historical = false)
    (hpath : (stopLocked e s).savedPath ≠ []) :
    saveLocked e wait (stopLocked e s) = verify (stopLocked e s) := by
  generalize ht : stopLocked e s = t at *
  have hrunning : ¬ (t.running = true ∧ t.run = true) := by
    subst ht
    rintro ⟨hrunning, -⟩
    cases hrunning
  have hstopped : stopLocked e t = t := by
    rw [← ht]
    exact stopLocked_stopped
  change (if _ then _ else _ : Method Unit) t = _
  rw [if_neg (by rw [hhistorical]; exact Bool.false_ne_true)]
  change (if _ then _ else _ : Method Unit) t = _
  rw [if_neg hpath]
  change (if _ then _ else _ : Method Unit) t = _
  rw [if_neg hrunning]
  change verify (stopLocked e t) = _
  rw [hstopped]

/-- `newSession` without a discard. -/
theorem newSession_cases (e : Ending) (wait : Wait) (s : Session) :
    (s.historical = false ∧ s.savedPath = [] ∧ (hasData s.measured = true ∨ s.running = true) ∧
      ∃ m, newSession e wait false s = .error m s) ∨
    ¬ (s.historical = false ∧ s.savedPath = [] ∧ (hasData s.measured = true ∨ s.running = true)) ∧
      ((s.historical = false ∧ s.savedPath ≠ [] ∧ hasData (stopLocked e s).measured = true ∧
          (Confirmed (stopLocked e s) ∧
              newSession e wait false s = .ok () (cleared (stopLocked e s)) ∨
            ¬ Confirmed (stopLocked e s) ∧
              ∃ m, newSession e wait false s = .error m (stopLocked e s))) ∨
        ¬ (s.historical = false ∧ s.savedPath ≠ [] ∧ hasData (stopLocked e s).measured = true) ∧
          newSession e wait false s = .ok () (cleared (stopLocked e s))) := by
  have hhistorical : (stopLocked e s).historical = s.historical :=
    congrArg Prod.fst stopLocked_fields.1
  have hpath : (stopLocked e s).savedPath = s.savedPath :=
    congrArg (fun f => f.2.2.1) stopLocked_fields.1
  by_cases hguard : s.historical = false ∧ s.savedPath = [] ∧
      (hasData s.measured = true ∨ s.running = true)
  · refine Or.inl ⟨hguard.1, hguard.2.1, hguard.2.2,
      "This session contains unrecorded measurements. Creating a new session will discard them; explicit discard confirmation is required",
      ?_⟩
    change (if _ then _ else _ : Method Unit) s = _
    rw [if_pos ⟨hguard.1, hguard.2.1, hguard.2.2, rfl⟩]
    rfl
  · refine Or.inr ⟨hguard, ?_⟩
    have hbody : newSession e wait false s = (do
        if s.historical = false ∧ (stopLocked e s).savedPath ≠ [] ∧
            hasData (stopLocked e s).measured = true then
          saveLocked e wait
        modify cleared : Method Unit) (stopLocked e s) := by
      change (if _ then _ else _ : Method Unit) s = _
      rw [if_neg fun h => hguard ⟨h.1, h.2.1, h.2.2.1⟩]
      rfl
    -- Behind the guard the method is what is left after the drain, with the drained data behind its
    -- second test.
    rw [hbody, hpath]
    by_cases hsave : s.historical = false ∧ s.savedPath ≠ [] ∧
        hasData (stopLocked e s).measured = true
    · refine Or.inl ⟨hsave.1, hsave.2.1, hsave.2.2, ?_⟩
      have hlocked := saveLocked_stopped wait (hhistorical.trans hsave.1)
        (hpath ▸ hsave.2.1)
      have hrest : (do
          if s.historical = false ∧ s.savedPath ≠ [] ∧ hasData (stopLocked e s).measured = true then
            saveLocked e wait
          modify cleared : Method Unit) (stopLocked e s) =
          EStateM.bind verify (fun _ => modify cleared) (stopLocked e s) := by
        change (if _ then _ else _ : Method Unit) (stopLocked e s) = _
        rw [if_pos hsave]
        change EStateM.bind _ _ _ = _
        unfold EStateM.bind
        rw [hlocked]
      rw [hrest]
      unfold EStateM.bind
      refine verify_cases.imp (fun h => ⟨h.1, ?_⟩) fun h => ⟨h.1, ?_⟩
      · rw [h.2]
        rfl
      · obtain ⟨m, hm⟩ := h.2
        rw [hm]
        exact ⟨m, rfl⟩
    · refine Or.inr ⟨hsave, ?_⟩
      change (if _ then _ else _ : Method Unit) (stopLocked e s) = _
      rw [if_neg hsave]
      rfl

/-! ## The flags -/

/-- The flags of a session are in step: its worker writes what was recorded of it, and a session
without an identity is not recorded. -/
structure InStep (s : Session) : Prop where
  store : s.store = if s.historical = true ∨ s.savedPath = [] then none else some s.savedPath
  unnamed : s.historical = false → s.sessionId = [] → s.savedPath = []

section Keeps

variable {P : Session → Prop} (hP : ∀ s t : Session, t.flags = s.flags → P s → P t)
include hP

theorem keeps_modify {f : Session → Session} (hf : ∀ s, (f s).flags = s.flags) :
    Keeps P (modify f : Method PUnit) :=
  Keeps.modify fun s hs => hP s (f s) (hf s) hs

theorem keeps_stopLocked : Keeps P (modify (stopLocked e) : Method PUnit) :=
  keeps_modify hP fun _ => stopLocked_fields.1

omit hP in
theorem keeps_verify : Keeps P verify := by
  intro s hs
  rcases verify_cases (t := s) with ⟨-, h⟩ | ⟨-, m, h⟩
  · rw [h]
    exact hs
  · rw [h]
    exact hs

theorem keeps_saveLocked : Keeps P (saveLocked e wait) := by
  refine Keeps.get_bind fun s hs => ?_
  refine Keeps.guard (fun _ => Keeps.guard fun _ => Keeps.ite (fun _ => ?_) fun _ => ?_) s hs
  · cases wait with
    | completed => exact keeps_modify hP fun _ => update_fields.1
    | timedOut => exact Keeps.throw
    | stopped reason => exact Keeps.throw
  · exact Keeps.bind (keeps_stopLocked hP) fun _ => keeps_verify

omit hP in
theorem keeps_raise {refusal : Option String} : Keeps P (raise refusal) := by
  cases refusal with
  | none => exact Keeps.pure
  | some message => exact Keeps.throw

end Keeps

theorem InStep.of_flags (h : t.flags = s.flags) (hs : InStep s) : InStep t := by
  simp only [flags, Prod.mk.injEq] at h
  obtain ⟨hhistorical, hid, hpath, hstore⟩ := h
  refine ⟨?_, ?_⟩
  · rw [hstore, hhistorical, hpath]
    exact hs.store
  · rw [hhistorical, hid, hpath]
    exact hs.unnamed

/-- A live session that is in step. -/
def Live (s : Session) : Prop := InStep s ∧ s.historical = false

theorem Live.of_flags (h : t.flags = s.flags) (hs : Live s) : Live t :=
  ⟨hs.1.of_flags h, (congrArg Prod.fst h).trans hs.2⟩

/-- A live session that has an identity. -/
def Named (s : Session) : Prop := Live s ∧ s.sessionId ≠ []

theorem Named.of_flags (h : t.flags = s.flags) (hs : Named s) : Named t :=
  ⟨hs.1.of_flags h, fun hid => hs.2 ((congrArg (fun f => f.2.1) h).symm.trans hid)⟩

/-- A session with an identity can be given a recording. -/
theorem Named.record {path : Text} (hs : Named s) (hpath : path ≠ []) :
    Named (update { s with store := some path, savedPath := path }) := by
  refine Named.of_flags (s := { s with store := some path, savedPath := path }) update_fields.1
    ⟨⟨⟨?_, fun _ hid => absurd hid hs.2⟩, hs.1.2⟩, hs.2⟩
  have hnot : ¬ (s.historical = true ∨ path = []) := by
    rintro (h | h)
    · rw [hs.1.2] at h
      cases h
    · exact hpath h
  exact (if_neg hnot).symm

theorem keeps_prepare {request : StartRequest} : Keeps InStep (prepare e wait request) := by
  refine Keeps.get_bind fun s hs => ?_
  by_cases hhistorical : s.historical = true
  · change InStep (finalState ((if _ then _ else _ : Method Unit) s))
    rw [if_pos hhistorical]
    exact hs
  · change InStep (finalState ((if _ then _ else _ : Method Unit) s))
    rw [if_neg hhistorical]
    have hsave : Keeps Live (saveLocked e wait) := keeps_saveLocked fun _ _ => Live.of_flags
    refine And.left ((?_ : Keeps Live _) s ⟨hs, Bool.eq_false_iff.mpr hhistorical⟩)
    refine Keeps.guard fun _ => Keeps.bind keeps_raise fun _ => Keeps.guard fun _ =>
      Keeps.when (fun _ => hsave) fun _ => Keeps.bind keeps_raise fun _ => ?_
    refine Keeps.ite (fun _ t ht => ?_) fun _ => keeps_raise
    -- From here on the session has the identity of the request.
    refine And.left ((?_ : Keeps Named _) { t with
      historical := false, running := false, sessionId := request.newId, measured := [] } ?_)
    · refine Keeps.ite (fun hpath => ?_) fun _ => keeps_raise
      exact Keeps.bind keeps_raise fun _ =>
        Keeps.bind (Keeps.modify fun _ ht => ht.record hpath) fun _ => keeps_raise
    · refine ⟨⟨⟨?_, fun _ hid => absurd hid request.newId.2⟩, rfl⟩, request.newId.2⟩
      rw [← ht.2]
      exact ht.1.store

theorem keeps_launch {request : StartRequest} : Keeps InStep (launch request) := by
  have hmodify {f : Session → Session} (hf : ∀ s, (f s).flags = s.flags) :
      Keeps InStep (modify f : Method PUnit) := keeps_modify (fun _ _ => InStep.of_flags) hf
  exact Keeps.bind (hmodify fun _ => rfl) fun _ => Keeps.bind keeps_raise fun _ =>
    hmodify fun _ => rfl

/-- A handler that keeps the property does so after whatever was thrown. -/
theorem keeps_onError {P : Session → Prop} {x : Method Unit} {recover : String → Session → Session}
    (hx : Keeps P x) (hrecover : ∀ m s, P s → P (recover m s)) : Keeps P (onError x recover) := by
  intro s hs
  have hstep := hx s hs
  unfold onError
  cases h : x s with
  | ok u t =>
    rw [h] at hstep
    exact hstep
  | error m t =>
    rw [h] at hstep
    exact hrecover m t hstep

theorem InStep.abandon {resume : Bool} (hs : InStep s) : InStep (abandon resume s) := by
  cases resume with
  | true => exact InStep.of_flags (s := s) rfl hs
  | false => exact ⟨(if_pos (Or.inr rfl)).symm, fun _ _ => rfl⟩

theorem abort_flags {saved : Bool} : (abort saved s).flags = s.flags := by
  unfold abort
  dsimp only
  split_ifs
  · rfl
  · exact update_fields (s := { s with run := false, running := false }).1
  · rfl

theorem keeps_start {request : StartRequest} : Keeps InStep (start e wait request) := by
  refine Keeps.bind (keeps_stopLocked fun _ _ => InStep.of_flags) fun _ =>
    Keeps.get_bind fun s hs => ?_
  refine Keeps.bind (keeps_onError keeps_prepare fun _ _ => InStep.abandon) (fun _ => ?_) s hs
  exact keeps_onError keeps_launch fun _ _ ht => ht.of_flags abort_flags

theorem keeps_openSession {path : Text} : Keeps InStep (openSession e path) := by
  refine Keeps.bind (keeps_stopLocked fun _ _ => InStep.of_flags) fun _ =>
    Keeps.get_bind fun s hs => ?_
  generalize s.files path = file
  cases file with
  | error m => exact hs
  | ok saved => exact ⟨(if_pos (Or.inl rfl)).symm, fun h => by cases h⟩

theorem keeps_saveSessionCopy {path : Text} {failure : Option String} :
    Keeps InStep (saveSessionCopy e wait path failure) := by
  have hP : ∀ s t : Session, t.flags = s.flags → InStep s → InStep t := fun _ _ => InStep.of_flags
  have hcopy : Keeps InStep (do
      let s ← get
      let failed := fun what => "Save copy failed; the original recording is preserved. " ++ what
      match s.files s.savedPath with
      | .error message => throw (failed message)
      | .ok saved => do
        if saved.sessionId ≠ s.sessionId then
          throw (failed "The saved file no longer belongs to the current session")
        raise (failure.map failed)
        modify fun s => { s with files := Function.update s.files path (.ok saved) } : Method Unit) := by
    refine Keeps.get_bind fun s hs => ?_
    generalize s.files s.savedPath = file
    cases file with
    | error m => exact hs
    | ok saved =>
      refine (?_ : Keeps InStep _) s hs
      exact Keeps.guard fun _ => Keeps.bind keeps_raise fun _ => keeps_modify hP fun _ => rfl
  refine Keeps.get_bind fun s hs => (?_ : Keeps InStep _) s hs
  refine Keeps.guard fun _ => Keeps.ite (fun _ => ?_) fun _ => ?_
  · exact Keeps.bind (keeps_saveLocked hP) fun _ => hcopy
  · exact Keeps.bind (keeps_stopLocked hP) fun _ => hcopy

theorem cleared_inStep : InStep (cleared s) := ⟨rfl, fun _ _ => rfl⟩

theorem keeps_newSession {discardUnrecorded : Bool} :
    Keeps InStep (newSession e wait discardUnrecorded) := by
  have hP : ∀ s t : Session, t.flags = s.flags → InStep s → InStep t := fun _ _ => InStep.of_flags
  have hclear : Keeps InStep (modify cleared : Method PUnit) := Keeps.modify fun _ _ => cleared_inStep
  refine Keeps.get_bind fun s hs => (?_ : Keeps InStep _) s hs
  refine Keeps.guard fun _ => Keeps.bind (keeps_stopLocked hP) fun _ => Keeps.get_bind fun t ht =>
    (?_ : Keeps InStep _) t ht
  exact Keeps.when (fun _ => keeps_saveLocked hP) fun _ => hclear

theorem withWorker_inStep {f : SessionWorker → Session} (hf : ∀ w, (f w).flags = s.flags)
    (hs : InStep s) : InStep (s.withWorker f) := by
  unfold withWorker
  split
  · exact hs
  · split_ifs
    · exact hs
    · exact hs.of_flags (hf _)

/-- Every call and every step keeps the flags in step. -/
theorem InStep.perform (hs : InStep s) (event : Event) : InStep (perform s event) := by
  cases event with
  | start e wait request => exact keeps_start s hs
  | stop e => exact hs.of_flags stopLocked_fields.1
  | openSession e path => exact keeps_openSession s hs
  | save e wait => exact keeps_saveLocked (fun _ _ => InStep.of_flags) s hs
  | saveSessionCopy e wait path failure => exact keeps_saveSessionCopy s hs
  | newSession e wait discardUnrecorded => exact keeps_newSession s hs
  | deliver m => exact withWorker_inStep (fun _ => rfl) hs
  | count =>
    refine withWorker_inStep (fun w => ?_) hs
    cases w.pending with
    | nil => rfl
    | cons m pending => rfl
  | checkpoint => exact withWorker_inStep (fun _ => update_fields.1) hs
  | fail => exact withWorker_inStep (fun _ => rfl) hs
  | crash => exact withWorker_inStep (fun _ => rfl) hs
  | workerEnds e =>
    change InStep (if s.run = true then s else endWorker e s)
    split_ifs
    · exact hs
    · exact hs.of_flags endWorker_fields.1
  | otherProgram path file => exact InStep.of_flags (s := s) rfl hs

/-- The flags are in step after every run. -/
theorem inStep_run (files : Text → Except String SavedSession) (events : List Event) :
    InStep (Runs.run Session.perform (initial files) events) :=
  invariant_run (fun _ event hs => hs.perform event) ⟨rfl, fun _ _ => rfl⟩ events

end Calls

/-! ## New sessions -/

/-- The recording that the session writes was verified against its counters. -/
def Verified (s : Session) : Prop := s.store = some s.savedPath ∧ Confirmed s

/-- `newSession` without a discard keeps what was measured: it returns only for a saved survey, for
a session that has nothing once it is stopped, or for one whose recording was verified, and it
leaves every other session as it is, or stopped. -/
def Safe (e : Ending) (wait : Wait) (s : Session) : Prop :=
  match newSession e wait false s with
  | .ok _ _ => s.historical = true ∨ hasData (stopLocked e s).measured = false ∨
      Verified (stopLocked e s)
  | .error _ s' => s' = s ∨ s' = stopLocked e s

/-- A session in memory that has nothing and no longer runs, and whose worker then counts something
as it ends. -/
def LateData (e : Ending) (s : Session) : Prop :=
  s.historical = false ∧ s.savedPath = [] ∧ hasData s.measured = false ∧ s.running = false ∧
    hasData (drained e s) = true

theorem hasData_append {a b : List Measurement} : hasData (a ++ b) = (hasData a || hasData b) := by
  rw [Bool.eq_iff_iff]
  simp [hasData, countersOf]
  omega

/-- A session that is not recorded is safe unless its data is late. -/
theorem not_lateData_iff {e : Ending} {s : Session} (hhistorical : s.historical = false)
    (hpath : s.savedPath = []) (hguard : ¬ (hasData s.measured = true ∨ s.running = true)) :
    ¬ LateData e s ↔ hasData (stopLocked e s).measured = false := by
  rw [not_or, Bool.not_eq_true, Bool.not_eq_true] at hguard
  rw [stopLocked_fields.2.1, hasData_append, hguard.1, Bool.false_or, ← Bool.not_eq_true]
  exact not_congr ⟨fun h => h.2.2.2.2, fun h => ⟨hhistorical, hpath, hguard.1, hguard.2, h⟩⟩

theorem InStep.safe_iff {e : Ending} {wait : Wait} {s : Session} (hs : InStep s) :
    Safe e wait s ↔ ¬ LateData e s := by
  have hstopped : InStep (stopLocked e s) := hs.of_flags stopLocked_fields.1
  have hhistorical : (stopLocked e s).historical = s.historical :=
    congrArg Prod.fst stopLocked_fields.1
  have hpath : (stopLocked e s).savedPath = s.savedPath :=
    congrArg (fun f => f.2.2.1) stopLocked_fields.1
  have hstore := hstopped.store
  rw [hhistorical] at hstore
  unfold Safe
  rcases newSession_cases e wait s with
    ⟨-, -, hguard, m, h⟩ | ⟨hguard, ⟨hlive, hrecorded, -, ⟨hconfirmed, h⟩ | ⟨-, m, h⟩⟩ | ⟨hsave, h⟩⟩
  · rw [h]
    refine iff_of_true (Or.inl rfl) fun hlate => ?_
    rcases hguard with hdata | hrunning
    · exact Bool.false_ne_true (hlate.2.2.1.symm.trans hdata)
    · exact Bool.false_ne_true (hlate.2.2.2.1.symm.trans hrunning)
  · rw [h]
    refine iff_of_true (Or.inr (Or.inr ⟨?_, hconfirmed⟩)) fun hlate => hrecorded hlate.2.1
    rw [hstore, if_neg]
    rintro (h | h)
    · rw [hlive] at h
      cases h
    · exact hrecorded (hpath ▸ h)
  · rw [h]
    exact iff_of_true (Or.inr rfl) fun hlate => hrecorded hlate.2.1
  · rw [h]
    dsimp only
    by_cases hlive : s.historical = false
    · by_cases hrecorded : s.savedPath = []
      · rw [not_lateData_iff hlive hrecorded fun h => hguard ⟨hlive, hrecorded, h⟩]
        have hmemory : ¬ Verified (stopLocked e s) := by
          rintro ⟨hverified, -⟩
          rw [hstore, if_pos (Or.inr (hpath.trans hrecorded))] at hverified
          cases hverified
        rw [hlive, or_iff_right Bool.false_ne_true, or_iff_left hmemory]
      · have hempty : hasData (stopLocked e s).measured = false :=
          Bool.eq_false_iff.mpr fun hdata => hsave ⟨hlive, hrecorded, hdata⟩
        exact iff_of_true (Or.inr (Or.inl hempty)) fun hlate => hrecorded hlate.2.1
    · exact iff_of_true (Or.inl (Bool.eq_true_of_not_eq_false hlive)) fun hlate => hlive hlate.1

/-- A session in memory that has nothing and no longer runs, whose worker has not come to its
end. -/
def Exposed (s : Session) : Prop :=
  s.historical = false ∧ s.savedPath = [] ∧ hasData s.measured = false ∧ s.running = false ∧
    ∃ w, s.worker = some w ∧ w.ended = false

/-- Only a worker that has not come to its end still counts. -/
theorem exists_worker_of_drained {e : Ending} {s : Session} (h : hasData (drained e s) = true) :
    ∃ w, s.worker = some w ∧ w.ended = false := by
  unfold drained at h
  cases hworker : s.worker with
  | none =>
    rw [hworker] at h
    exact absurd h Bool.false_ne_true
  | some w =>
    refine ⟨w, rfl, Bool.eq_false_iff.mpr fun hended => ?_⟩
    rw [hworker] at h
    dsimp only at h
    rw [if_pos hended] at h
    exact absurd h Bool.false_ne_true

/-- The sample that is in the receiver when the stop comes. -/
def lastSample : Measurement where
  samples := 1
  receptions := 0
  tiles := 0
  scans := 0
  rssiSamples := 0

/-- A worker that has not come to its end may still count something. -/
theorem exists_drained {s : Session} {w : SessionWorker} (hworker : s.worker = some w)
    (hlive : w.ended = false) : ∃ e, hasData (drained e s) = true := by
  refine ⟨{ arrived := [lastSample], counted := fun _ => true, saved := true }, ?_⟩
  have hdrained : drained { arrived := [lastSample], counted := fun _ => true, saved := true } s =
      w.pending ++ [lastSample] := by
    unfold drained
    rw [hworker]
    simp [hlive]
  rw [hdrained, hasData_append]
  exact Bool.or_eq_true_iff.mpr (Or.inr rfl)

/-- The data of a session can be late just when the session is exposed. -/
theorem exposed_iff {s : Session} : Exposed s ↔ ∃ e, LateData e s := by
  constructor
  · rintro ⟨hhistorical, hpath, hnothing, hrunning, w, hworker, hlive⟩
    obtain ⟨e, hdata⟩ := exists_drained hworker hlive
    exact ⟨e, hhistorical, hpath, hnothing, hrunning, hdata⟩
  · rintro ⟨e, hhistorical, hpath, hnothing, hrunning, hdata⟩
    exact ⟨hhistorical, hpath, hnothing, hrunning, exists_worker_of_drained hdata⟩

/-- **New sessions.** After every run of calls and failures, a new session without a discard keeps
what was measured, however the worker ends and whatever becomes of a save, just when the session is
not exposed. -/
theorem newSession_safe (files : Text → Except String SavedSession) (events : List Event) :
    (∀ e wait, Safe e wait (Runs.run perform (initial files) events)) ↔
      ¬ Exposed (Runs.run perform (initial files) events) := by
  have hs := inStep_run files events
  rw [exposed_iff, not_exists]
  exact ⟨fun h e => hs.safe_iff.mp (h e .completed), fun h e _ => hs.safe_iff.mpr (h e)⟩

/-- Nothing more arrives, and the worker counts what is pending. -/
def drainsAll : Ending := { arrived := [], counted := fun _ => true, saved := true }

/-- A start without a recording. -/
def memoryOnly : StartRequest where
  sessionPath := []
  newId := ⟨ascii "1", by decide⟩
  invalid := none
  refused := none
  unrecorded := none
  unbegun := none
  unstarted := none

/-- One board fails before the first scan of the other is counted. -/
def failedBoard : List Event := [
  .start drainsAll .completed memoryOnly,
  .deliver { samples := 0, receptions := 0, tiles := 0, scans := 1, rssiSamples := 2000 },
  .fail]

theorem newSession_failedBoard :
    let s := Runs.run perform (initial fun _ => .error "Cannot open the session") failedBoard
    newSession drainsAll .completed false s = .ok () (cleared (stopLocked drainsAll s)) ∧
      s.historical = false ∧ hasData (stopLocked drainsAll s).measured = true ∧
      ¬ Verified (stopLocked drainsAll s) := by
  refine ⟨rfl, rfl, by decide, ?_⟩
  rintro ⟨hstore, -⟩
  cases hstore

end Session

end OVMesh
