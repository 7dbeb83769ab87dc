import OVMesh.Engine.Lifecycle
import OVMesh.Store.Rollback

/-!
# The history of a survey

What a reader of the file gets of the acquisitions that the engine issued.

* `HistoryRead`: the history is accepted, and a time finds its acquisition.
* `history_read`: it is so after every sequence of calls that returned.
* `boundary_shared`: next to a resumed start a time finds the later acquisition.
-/

namespace OVMesh

open Checked Stateful
open SpectrumProcessor (Libm)
open SessionStore (decimalLibm compactConfig idleSnapshot)

variable {K : Type} [Field K] [LinearOrder K]

/-- A reader gets the acquisitions that were issued. Times are compared with the tolerance of
`acquisition_config_at`. -/
structure HistoryRead (legacy : ReceiverConfig K) (db : Database K)
    (issued history : List (AcquisitionSegment K)) : Prop where
  accepted : db.acquisitions legacy = .ok history
  stored : history.map (fun a => (a.id, a.elapsedStart, a.elapsedEnd, a.finalized)) =
    db.segments.map fun row => (row.id, row.elapsedStart, row.elapsedEnd, row.finalized)
  issued : history.map (·.issue) = issued.map fun a => (a.restored legacy).issue
  ids : history.map (·.id) = List.range' 1 history.length
  intervals : ∀ a ∈ history, 0 ≤ a.elapsedStart ∧ a.elapsedStart ≤ a.elapsedEnd
  ordered : history.Pairwise fun a b => a.elapsedEnd ≤ b.elapsedStart
  finalized : ∀ a ∈ history.dropLast, a.finalized = true
  decoders : db.automaticDecoder.map (·.1) = history.map (·.id)
  inside : ∀ i a t, history[i]? = some a → a.elapsedStart ≤ t → t ≤ a.elapsedEnd →
    (∀ b ∈ history[i + 1]?, t + 1 / 10 ^ 8 < b.elapsedStart) →
    acquisitionConfigAt history t = .ok (some (i, a))
  outside : ∀ t, (∀ a ∈ history, a.elapsedEnd + 1 / 10 ^ 8 < t ∨ t + 1 / 10 ^ 8 < a.elapsedStart) →
    ∃ message, acquisitionConfigAt history t = .error message

variable {legacy : ReceiverConfig K} {db : Database K}
  {issued before : List (AcquisitionSegment K)} {last : AcquisitionSegment K}

/-- The tables that hold the issued acquisitions are read back. -/
theorem historyRead_of_recorded [IsStrictOrderedRing K] (h : Recorded legacy db (before ++ [last]))
    (hissued : issued.map (·.issue) = (before ++ [last]).map (·.issue))
    (hordered : (before ++ [last]).Pairwise fun a b => a.elapsedEnd ≤ b.elapsedStart) :
    HistoryRead legacy db issued ((before ++ [last]).map (·.restored legacy)) := by
  have hintervals : ∀ a ∈ (before ++ [last]).map (·.restored legacy),
      0 ≤ a.elapsedStart ∧ a.elapsedStart ≤ a.elapsedEnd := by
    intro a ha
    obtain ⟨b, hb, rfl⟩ := List.mem_map.mp ha
    exact ⟨(h.valid b hb).start_nonneg, (h.valid b hb).start_le⟩
  have hordered' : ((before ++ [last]).map (·.restored legacy)).Pairwise
      fun a b => a.elapsedEnd ≤ b.elapsedStart := List.pairwise_map.mpr hordered
  refine ⟨h.acquisitions, ?_, ?_, ?_, hintervals, hordered', fun a ha => ?_, ?_, ?_, ?_⟩
  · rw [h.rows, List.map_map, List.map_map]
    rfl
  · have hread : ∀ l : List (AcquisitionSegment K), l.map (fun a => (a.restored legacy).issue) =
        (l.map (·.issue)).map fun x => (x.1, x.2.1, legacy.restored x.2.2) := by
      intro l
      rw [List.map_map]
      rfl
    rw [List.map_map]
    exact (hread _).trans (hissued ▸ (hread issued).symm)
  · rw [List.map_map, List.length_map]
    exact h.ids
  · rw [← List.map_dropLast, List.dropLast_concat] at ha
    obtain ⟨b, hb, rfl⟩ := List.mem_map.mp ha
    have hfinal := h.finalized hb
    exact hfinal
  · rw [List.map_map]
    have hzero := h.initial (by simp)
    have hdecoders := h.decoders
    rw [List.filter_eq_self.mpr fun d hd => decide_eq_true (hzero d hd)] at hdecoders
    exact hdecoders
  · intro i a t ha hstart hend hnext
    have hmem := List.mem_of_getElem? ha
    exact acquisitionConfigAt_inside ha
      (hordered'.imp_of_mem fun hx _ hxy => (hintervals _ hx).2.trans hxy)
      (hintervals a hmem).1 hstart hend hnext
  · intro t ht
    exact acquisitionConfigAt_outside (by simp) ht

namespace Recording

/-- **The acquisition history is read back.** After every sequence of calls that returned, the
tables of the recording, as its own connection and as any other one sees them, hold the
acquisitions that the engine issued, and a time finds its acquisition. -/
theorem history_read [FloorRing K] [IsStrictOrderedRing K] {m : Libm K} {clock : SteadyClock}
    {requested : ReceiverConfig K} {tunerGain : ℤ} {sessionId : Text} {startedUtc : K}
    {commands : List (Command K)} {r r' : Recording K}
    (hstart : start m clock requested tunerGain sessionId startedUtc = .ok r)
    (hrun : (forM commands (perform m clock)) r = .ok () r') (hlegacy : legacy.Agrees r.config)
    (hdb : db = r'.store.db ∨ db = r'.store.onDisk) :
    ∃ history, HistoryRead legacy db r'.acquisitions history := by
  obtain ⟨before, last, h⟩ := tracked_run hstart hrun
  have hrecorded : Recorded r.config db (before ++ [last]) := by
    rcases hdb with rfl | rfl
    · exact h.history.recorded
    · exact h.history.onDisk
  exact ⟨_, historyRead_of_recorded (hrecorded.agrees hlegacy) h.issued h.ordered⟩

/-! ## A survey with two acquisitions -/

/-- A clock that reads zero once, and one second from then on. -/
def steppedClock : SteadyClock where
  ticks i := if i = 0 then 0 else 10 ^ 9
  mono := by
    intro i j hij
    by_cases hi : i = 0
    · simp [hi]
    · simp [hi, show j ≠ 0 by omega]
  ticks_le i := by
    split <;> decide

/-- The first run of one second. -/
def firstRun : Except String (Recording ℚ) :=
  start decimalLibm steppedClock compactConfig 0 [] 0

/-- A second run at another centre, without a pause. -/
def secondRun : List (Command ℚ) :=
  [.finish idleSnapshot none, .stop, .resume { compactConfig with centerHz := 200000000 } 0 none]

/-- What a survey of two runs leaves satisfies a test. -/
def surveyed (test : Recording ℚ → Recording ℚ → Bool) : Bool :=
  match firstRun with
  | .error _ => false
  | .ok r => match (forM secondRun (perform decimalLibm steppedClock)) r with
    | .error _ _ => false
    | .ok _ r' => test r r'

theorem exists_of_surveyed {test : Recording ℚ → Recording ℚ → Bool} (h : surveyed test = true) :
    ∃ r r', firstRun = .ok r ∧
      (forM secondRun (perform decimalLibm steppedClock)) r = .ok () r' ∧ test r r' = true := by
  unfold surveyed at h
  split at h
  · cases h
  · rename_i r hfirst
    split at h
    · cases h
    · rename_i u r' hsecond
      exact ⟨r, r', hfirst, hsecond, h⟩

/-- The history of the survey of two runs. -/
theorem history_read_survey : ∃ r r', firstRun = .ok r ∧
    (forM secondRun (perform decimalLibm steppedClock)) r = .ok () r' ∧
      ∃ history, HistoryRead r.config r'.store.onDisk r'.acquisitions history := by
  obtain ⟨r, r', hfirst, hsecond, -⟩ :=
    exists_of_surveyed (show surveyed (fun _ _ => true) = true by decide +kernel)
  exact ⟨r, r', hfirst, hsecond, history_read hfirst hsecond .refl (.inr rfl)⟩

/-- A time within the first acquisition finds the second one, which starts less than the tolerance
later with another configuration, and a time after the last acquisition is accepted. -/
theorem boundary_shared : ∃ r r' history a b, firstRun = .ok r ∧
    (forM secondRun (perform decimalLibm steppedClock)) r = .ok () r' ∧
    r'.store.db.acquisitions r.config = .ok history ∧ history = [a, b] ∧ a.config ≠ b.config ∧
    (∃ t, a.elapsedStart ≤ t ∧ t ≤ a.elapsedEnd ∧ t < b.elapsedStart ∧
      acquisitionConfigAt history t = .ok (some (1, b))) ∧
    ∃ t, a.elapsedEnd < t ∧ b.elapsedEnd < t ∧
      acquisitionConfigAt history t = .ok (some (1, b)) := by
  have hcomputed : surveyed (fun _ r' =>
    r'.store.db.segments.map (fun row => (row.id, row.elapsedStart, row.elapsedEnd, row.finalized)) =
      [(1, 0, 1, true), (2, 1, 1, false)] &&
    r'.acquisitions.map (·.config.centerHz) = [100000000, 200000000]) = true := by
    decide +kernel
  obtain ⟨r, r', hfirst, hsecond, htest⟩ := exists_of_surveyed hcomputed
  rw [Bool.and_eq_true, decide_eq_true_iff, decide_eq_true_iff] at htest
  obtain ⟨before, last, h⟩ := tracked_run hfirst hsecond
  have hread := historyRead_of_recorded h.history.recorded h.issued h.ordered
  generalize (before ++ [last]).map (·.restored r.config) = history at hread
  have hstored := hread.stored
  have hcenters : history.map (·.config.centerHz) = [100000000, 200000000] := by
    have := congrArg (List.map fun x => x.2.2.centerHz) hread.issued
    rw [List.map_map, List.map_map] at this
    exact this.trans htest.2
  rw [htest.1] at hstored
  obtain ⟨a, rest, rfl, ha, hrest⟩ := List.map_eq_cons_iff.mp hstored
  obtain ⟨b, rest, rfl, hb, hrest⟩ := List.map_eq_cons_iff.mp hrest
  obtain rfl := List.map_eq_nil_iff.mp hrest
  rw [Prod.mk.injEq, Prod.mk.injEq, Prod.mk.injEq] at ha hb
  obtain ⟨-, hstart, hend, -⟩ := ha
  obtain ⟨-, hstart', hend', -⟩ := hb
  have hconfigs : a.config ≠ b.config := by
    intro heq
    simp [heq] at hcenters
    omega
  -- Up to the tolerance before its start the last acquisition already answers.
  have hlast : ∀ t : ℚ, 1 - 1 / 10 ^ 8 ≤ t → t ≤ 1 + 1 / 10 ^ 8 →
      acquisitionConfigAt [a, b] t = .ok (some (1, b)) := by
    intro t hlow hhigh
    have hfirst : ¬ t + 1 / 10 ^ 8 < a.elapsedStart := by rw [hstart]; linarith
    have hsecond : ¬ t + 1 / 10 ^ 8 < b.elapsedStart := by rw [hstart']; linarith
    have hfind : [a, b].findIdx (fun s => t + 1 / 10 ^ 8 < s.elapsedStart) = 2 := by
      rw [List.findIdx_cons, List.findIdx_cons, decide_eq_false hfirst, decide_eq_false hsecond]
      rfl
    rw [acquisitionConfigAt, if_neg (List.cons_ne_nil a [b]), hfind]
    refine bind_eq_ok.mpr ⟨(), reject_eq_ok.mpr (by linarith), ?_⟩
    exact bind_eq_ok.mpr ⟨(), reject_eq_ok.mpr (by rw [hend']; linarith), rfl⟩
  exact ⟨r, r', [a, b], a, b, hfirst, hsecond, hread.accepted, rfl, hconfigs,
    ⟨1 - 1 / 10 ^ 9, by rw [hstart]; norm_num, by rw [hend]; norm_num, by rw [hstart']; norm_num,
      hlast _ (by norm_num) (by norm_num)⟩,
    ⟨1 + 1 / 10 ^ 9, by rw [hend]; norm_num, by rw [hend']; norm_num,
      hlast _ (by norm_num) (by norm_num)⟩⟩

end Recording

end OVMesh
