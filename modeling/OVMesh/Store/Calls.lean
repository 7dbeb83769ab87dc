import OVMesh.Store.Receptions

/-!
# The calls of a recording

What an engine asks of its store, one call after the other, and what the database refuses meanwhile.

* `Call`, `perform`: a call and its method.
* `reception_ok`, `other_ok`: what an append that no tile depends on has changed when it returned.
-/

namespace OVMesh

namespace SessionStore

open Checked Stateful
open SpectrumProcessor (Libm)

variable {K : Type} [Field K] [LinearOrder K]

omit [Field K] [LinearOrder K] in
/-- The appends of windows of a detailed recording, of waveform observations and of discovery gaps, which
write to tables of their own. `checks` are those before the transaction begins and `row` those inside
it. -/
def appendOther (checks row : Except String Unit) : Method K Unit := do
  check checks
  beginBatch
  check row

/-- One call of a recording, or a change of what the database refuses. -/
inductive Call (K : Type)
  | tile (tile : SpectrumTile K)
  | event (event : SpectrumEvent K)
  | gap (gap : CoverageGap K)
  | fix (fix : PositionFix K)
  | scan (scan : ConcentratorScan K)
  | reception (reception : Reception K)
  | other (checks row : Except String Unit)
  | refuse (refused : Option (Statement × String))
  | enableAcquisitions
  | beginAcquisition (segment : AcquisitionSegment K)
  | update (snapshot : Snapshot K) (final : Bool) (fault : Option String)

omit [Field K] [LinearOrder K] in
/-- The call appends a measurement. -/
def Call.Appends : Call K → Prop
  | .tile _ | .event _ | .gap _ | .fix _ | .scan _ | .reception _ | .other _ _ => True
  | _ => False

/-- The method of a call. -/
def perform [FloorRing K] (m : Libm K) : Call K → Method K Unit
  | .tile tile => appendTile m tile
  | .event event => appendEvent event
  | .gap gap => appendGap m gap
  | .fix fix => appendFix fix
  | .scan scan => appendScan scan
  | .reception reception => appendReception reception
  | .other checks row => appendOther checks row
  | .refuse refused => modify fun s => { s with refused }
  | .enableAcquisitions => enableAcquisitions
  | .beginAcquisition segment => beginAcquisition m segment
  | .update snapshot final fault => update snapshot final fault

/-! ## Calls that returned -/

variable {s s' : SessionStore K} {u : Unit}

omit [Field K] [LinearOrder K] in
theorem other_ok {checks row : Except String Unit} (h : appendOther checks row s = .ok u s') :
    s' = s.batch := by
  simp only [appendOther, ok_bind, ok_check, beginBatch_ok] at h
  obtain ⟨_, _, ⟨-, rfl⟩, _, _, ⟨-, rfl⟩, -, rfl⟩ := h
  rfl

omit [Field K] [LinearOrder K] in
theorem savepoint_ok {g : Database K → Except String (Database K)} :
    savepoint g s = .ok u s' ↔ ∃ db, g s.db = .ok db ∧ { s with db } = s' := by
  simp only [savepoint, ok_bind, ok_get, ok_check, ok_set]
  constructor
  · rintro ⟨_, _, ⟨rfl, rfl⟩, db, _, ⟨hdb, rfl⟩, rfl⟩
    exact ⟨db, hdb, rfl⟩
  · rintro ⟨db, hdb, rfl⟩
    exact ⟨s, s, ⟨rfl, rfl⟩, db, s, ⟨hdb, rfl⟩, rfl⟩

/-- An append of a reception writes to its own tables. -/
theorem reception_ok {r : Reception K} (h : appendReception r s = .ok u s') :
    ∃ receptions concentratorPackets,
      s' = { s.batch with db := { s.db with receptions, concentratorPackets } } := by
  simp only [appendReception, ok_bind, ok_check, ok_get] at h
  obtain ⟨_, _, ⟨-, rfl⟩, _, _, ⟨rfl, rfl⟩, h⟩ := h
  have hinsert : ∃ db, insertReception s.batch.db r = .ok db ∧ { s.batch with db } = s' := by
    split at h
    · simp only [ok_bind, ok_check, beginBatch_ok, savepoint_ok] at h
      obtain ⟨_, _, ⟨-, rfl⟩, _, _, ⟨-, rfl⟩, h⟩ := h
      exact h
    · simp only [ok_bind, ok_check, beginBatch_ok, savepoint_ok] at h
      obtain ⟨_, _, ⟨-, rfl⟩, _, _, ⟨-, rfl⟩, h⟩ := h
      exact h
  obtain ⟨db, hdb, rfl⟩ := hinsert
  rw [batch_db] at hdb
  simp only [insertReception, bind_eq_ok, reject_eq_ok] at hdb
  obtain ⟨_, -, _, -, hdb⟩ := hdb
  cases hpacket : r.concentrator with
  | none =>
    simp only [hpacket, pure_eq_ok] at hdb
    exact ⟨_, _, by rw [← hdb]⟩
  | some packet =>
    simp only [hpacket, bind_eq_ok, pure_eq_ok] at hdb
    obtain ⟨_, -, rfl⟩ := hdb
    exact ⟨_, _, rfl⟩

end SessionStore

end OVMesh
