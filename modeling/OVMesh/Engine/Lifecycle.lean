import OVMesh.Engine.Recording
import OVMesh.Store.History

/-!
# The acquisitions of a recorded survey

A survey that the engine starts, saves, stops and resumes.

* `Tracked`: what holds of a survey between two steps.
* `tracked_start`, `tracked_perform`: the first run, and one step of the engine.
-/

namespace OVMesh

namespace Recording

open Checked Stateful
open SpectrumProcessor (Libm)
open SessionStore (History Appended)

variable {K : Type}

/-! ## Steps that returned -/

section

variable {r r' : Recording K} {α : Type} {a : α} {u : Unit}

theorem inStore_ok {x : SessionStore.Method K α} : inStore x r = .ok a r' ↔
    ∃ store, x r.store = .ok a store ∧ r' = { r with store } := by
  unfold inStore
  cases x r.store with
  | ok b store => simp [eq_comm]
  | error e store => simp

theorem finalState_inStore {x : SessionStore.Method K α} :
    finalState (inStore x r) = { r with store := finalState (x r.store) } := by
  unfold inStore
  cases x r.store with
  | ok b store => rfl
  | error e store => rfl

theorem attempt_ok {x : Method K Unit} {b : Bool} :
    attempt x r = .ok b r' ↔ isOk (x r) = b ∧ finalState (x r) = r' := by
  simp [attempt]

variable [Field K] [LinearOrder K]

omit [Field K] [LinearOrder K] in
theorem worker_ok {x : Method K Unit} : worker x r = .ok u r' ↔ x r = .ok u r' := by
  unfold worker
  cases x r with
  | ok b r => rfl
  | error e r => simp

omit [LinearOrder K] in
theorem monotonicNow_ok {clock : SteadyClock} {now : K} : monotonicNow clock r = .ok now r' ↔
    clock.seconds r.readings = now ∧ { r with readings := r.readings + 1 } = r' := by
  simp only [monotonicNow, ok_bind, ok_get, ok_set, ok_pure]
  constructor
  · rintro ⟨_, _, ⟨rfl, rfl⟩, _, _, rfl, rfl, rfl⟩
    exact ⟨rfl, rfl⟩
  · rintro ⟨rfl, rfl⟩
    exact ⟨r, r, ⟨rfl, rfl⟩, (), _, rfl, rfl, rfl⟩

end

/-! ## The clock -/

section

variable [Field K] [LinearOrder K] [IsStrictOrderedRing K] {clock : SteadyClock} {i j : ℕ}

theorem seconds_mono (h : i ≤ j) : (clock.seconds i : K) ≤ clock.seconds j := by
  unfold SteadyClock.seconds
  gcongr
  exact clock.mono h

theorem seconds_nonneg : (0 : K) ≤ clock.seconds i := by
  unfold SteadyClock.seconds
  positivity

theorem seconds_le : (clock.seconds i : K) ≤ 10 ^ 10 := by
  have hticks : (clock.ticks i : K) ≤ 10 ^ 19 := by
    have : clock.ticks i ≤ 10 ^ 19 := (clock.ticks_le i).trans (by decide)
    exact_mod_cast this
  unfold SteadyClock.seconds
  rw [div_le_iff₀ (by positivity)]
  calc (clock.ticks i : K) ≤ 10 ^ 19 := hticks
    _ = 10 ^ 10 * 10 ^ 9 := by norm_num

end

/-! ## Surveys -/

variable [Field K] [LinearOrder K] [FloorRing K] {m : Libm K} {clock : SteadyClock}
  {c legacy : ReceiverConfig K} {r r' : Recording K} {before : List (AcquisitionSegment K)}
  {last : AcquisitionSegment K} {u : Unit}

omit [FloorRing K] in
/-- What holds of a concentrator survey, whose elapsed time is that of the clock alone. -/
structure Clocked (clock : SteadyClock) (r : Recording K) : Prop where
  unmeasured : r.lastMeasurementElapsed = 0
  running : ∀ i, r.readings ≤ i → r.runElapsedStart ≤ clock.seconds i - r.started
  paused : r.joinable = false → r.elapsed ≤ r.pausedAt - r.started

omit [FloorRing K] in
/-- What holds of a survey between two steps of the engine: the store holds the acquisitions, the
newest one last, and the elapsed time never falls behind what is saved. -/
structure Tracked (clock : SteadyClock) (c : ReceiverConfig K) (r : Recording K)
    (before : List (AcquisitionSegment K)) (last : AcquisitionSegment K) : Prop where
  history : History c r.store (before ++ [last])
  rak : r.config.Rak ↔ c.Rak
  issued : r.acquisitions.map (·.issue) = (before ++ [last]).map (·.issue)
  ordered : (before ++ [last]).Pairwise fun a b => a.elapsedEnd ≤ b.elapsedStart
  joined : r.joinable = false → r.working = false
  last_end : last.elapsedEnd ≤ r.elapsed
  last_start : last.elapsedStart ≤ r.runElapsedStart
  run_le : r.runElapsedStart ≤ 10 ^ 10
  measured_le : r.lastMeasurementElapsed ≤ 10 ^ 10
  started : 0 ≤ r.started
  advancing : ∀ i, r.readings ≤ i → r.elapsed ≤ r.elapsedAt (clock.seconds i)
  clocked : c.Rak → Clocked clock r

omit [FloorRing K] in
/-- A save lies within the newest acquisition. -/
theorem Tracked.elapsedAt_mem [IsStrictOrderedRing K] (h : Tracked clock c r before last) {i : ℕ}
    (hi : r.readings ≤ i) : last.elapsedStart ≤ r.elapsedAt (clock.seconds i) ∧
      r.elapsedAt (clock.seconds i) ≤ 10 ^ 10 := by
  have hle : (clock.seconds i : K) - r.started ≤ 10 ^ 10 := by
    have : (clock.seconds i : K) ≤ 10 ^ 10 := seconds_le
    have := h.started
    linarith
  unfold elapsedAt
  split <;> rename_i hrak
  · exact ⟨h.last_start.trans ((h.clocked (h.rak.mp hrak)).running i hi), hle⟩
  · exact ⟨h.last_start.trans ((le_max_right _ _).trans (le_max_left _ _)),
      max_le (max_le h.measured_le h.run_le) hle⟩

omit [FloorRing K] in
theorem elapsedAt_mono [IsStrictOrderedRing K] {now later : K} (h : now ≤ later) :
    r.elapsedAt now ≤ r.elapsedAt later := by
  unfold elapsedAt
  split
  · exact sub_le_sub_right h _
  · exact max_le_max_left _ (sub_le_sub_right h _)

omit [Field K] [LinearOrder K] [FloorRing K] in
@[simp] theorem map_ends {elapsed : K} {finalized : AcquisitionSegment K → Bool} :
    (r.ends elapsed finalized).acquisitions.map (·.issue) = r.acquisitions.map (·.issue) := by
  cases hlast : r.acquisitions.getLast? with
  | none =>
    unfold ends
    rw [List.getLast?_eq_none_iff.mp hlast]
    rfl
  | some a =>
    obtain ⟨rest, heq⟩ := List.getLast?_eq_some_iff.mp hlast
    unfold ends
    rw [heq, List.modifyLast_concat, List.map_append, List.map_append]
    rfl

/-! ## Saves -/

omit [FloorRing K] in
/-- A live snapshot takes the time of the clock. -/
theorem Tracked.publish [IsStrictOrderedRing K] (h : Tracked clock c r before last)
    (hs : Recording.publish clock r = .ok u r') : Tracked clock c r' before last := by
  simp only [Recording.publish, ok_bind, ok_get, ok_check, reject_eq_ok, monotonicNow_ok,
    ok_ite, ok_set] at hs
  obtain ⟨_, _, ⟨rfl, rfl⟩, _, _, ⟨hworking, rfl⟩, _, _, ⟨rfl, rfl⟩, _, _, ⟨rfl, rfl⟩, hrak, hsdr⟩ := hs
  have hjoinable : r.joinable ≠ false := fun hj => hworking (h.joined hj)
  have hnow := h.advancing r.readings le_rfl
  have hlater : ∀ i, r.readings + 1 ≤ i →
      r.elapsedAt (clock.seconds r.readings) ≤ r.elapsedAt (clock.seconds i) :=
    fun i hi => elapsedAt_mono (seconds_mono (by omega))
  have hclocked : c.Rak → r.lastMeasurementElapsed = 0 ∧
      ∀ i, r.readings + 1 ≤ i → r.runElapsedStart ≤ clock.seconds i - r.started :=
    fun hc => ⟨(h.clocked hc).unmeasured, fun i hi => (h.clocked hc).running i (by omega)⟩
  by_cases hconfig : r.config.Rak
  · rw [← hrak hconfig]
    exact ⟨h.history, h.rak, h.issued, h.ordered, h.joined, h.last_end.trans hnow, h.last_start,
      h.run_le, h.measured_le, h.started, hlater,
      fun hc => ⟨(hclocked hc).1, (hclocked hc).2, fun hj => absurd hj hjoinable⟩⟩
  · rw [← hsdr hconfig]
    exact ⟨h.history, h.rak, map_ends.trans h.issued, h.ordered, h.joined, h.last_end.trans hnow,
      h.last_start, h.run_le, h.measured_le, h.started, hlater,
      fun hc => ⟨(hclocked hc).1, (hclocked hc).2, fun hj => absurd hj hjoinable⟩⟩

omit [FloorRing K] in
theorem save_ok {snapshot : Snapshot K} {final : Bool} {fault : Option String}
    (h : save clock snapshot final fault r = .ok u r') :
    let elapsed := r.elapsedAt (clock.seconds r.readings)
    ∃ store, SessionStore.update { snapshot with elapsedSeconds := elapsed } final fault r.store =
      .ok u store ∧ r' = { r.ends elapsed fun a => if r.config.Rak then final else final || a.finalized with
        store
        readings := r.readings + 1 } := by
  simp only [save, ok_bind, ok_get, monotonicNow_ok, ok_set, inStore_ok] at h
  obtain ⟨_, _, ⟨rfl, rfl⟩, _, _, ⟨rfl, rfl⟩, _, _, rfl, store, hupdate, rfl⟩ := h
  exact ⟨store, hupdate, rfl⟩

omit [FloorRing K] in
/-- The acquisitions after a save of the newest one. -/
theorem Tracked.ended {snapshot : Snapshot K} {final : Bool} {fault : Option String}
    {store : SessionStore K} (h : Tracked clock c r before last)
    (hs : SessionStore.update snapshot final fault r.store = .ok u store)
    (hstart : last.elapsedStart ≤ snapshot.elapsedSeconds)
    (hstop : snapshot.elapsedSeconds ≤ 10 ^ 10) :
    History c store (before ++ [last.ended snapshot.elapsedSeconds final]) ∧
      (before ++ [last.ended snapshot.elapsedSeconds final]).Pairwise
        fun a b => a.elapsedEnd ≤ b.elapsedStart := by
  refine ⟨h.history.update hs hstart hstop, ?_⟩
  have hordered := List.pairwise_append.mp h.ordered
  refine List.pairwise_append.mpr ⟨hordered.1, List.pairwise_singleton _ _, fun a ha b hb => ?_⟩
  rw [List.mem_singleton.mp hb]
  exact hordered.2.2 a ha last (List.mem_singleton.mpr rfl)

omit [FloorRing K] in
/-- A save of a worker ends the newest acquisition at the time of the clock. -/
theorem Tracked.save [IsStrictOrderedRing K] {snapshot : Snapshot K} {final : Bool}
    {fault : Option String} (h : Tracked clock c r before last) (hjoinable : r.joinable = true)
    (hs : Recording.save clock snapshot final fault r = .ok u r') :
    r'.joinable = true ∧
      Tracked clock c r' before (last.ended (r.elapsedAt (clock.seconds r.readings)) final) := by
  obtain ⟨store, hupdate, rfl⟩ := save_ok hs
  obtain ⟨hstart, hstop⟩ := h.elapsedAt_mem le_rfl
  obtain ⟨hhistory, hordered⟩ := h.ended hupdate hstart hstop
  refine ⟨hjoinable, hhistory, h.rak, ?_, hordered, fun hj => absurd hj (by simp [ends, hjoinable]),
    le_rfl, h.last_start, h.run_le, h.measured_le, h.started,
    fun i hi => elapsedAt_mono (seconds_mono (by dsimp only at hi; omega)),
    fun hc => ⟨(h.clocked hc).unmeasured, fun i hi => (h.clocked hc).running i
      (by dsimp only at hi; omega), fun hj => absurd hj (by simp [ends, hjoinable])⟩⟩
  have hissued := h.issued
  rw [List.map_append] at hissued ⊢
  exact map_ends.trans hissued

omit [FloorRing K] in
theorem Tracked.checkpoint [IsStrictOrderedRing K] {snapshot : Snapshot K} {fault : Option String}
    (h : Tracked clock c r before last) (hs : Recording.checkpoint clock snapshot fault r = .ok u r') :
    ∃ last', Tracked clock c r' before last' := by
  simp only [Recording.checkpoint, ok_bind, ok_get, ok_check, reject_eq_ok, worker_ok] at hs
  obtain ⟨_, _, ⟨rfl, rfl⟩, _, _, ⟨hworking, rfl⟩, hs⟩ := hs
  have hjoinable : r.joinable = true := eq_true_of_ne_false fun hj => hworking (h.joined hj)
  exact ⟨_, (h.save hjoinable hs).2⟩

omit [FloorRing K] in
theorem Tracked.finish [IsStrictOrderedRing K] {snapshot : Snapshot K} {fault : Option String}
    (h : Tracked clock c r before last) (hs : Recording.finish clock snapshot fault r = .ok u r') :
    ∃ last', Tracked clock c r' before last' := by
  simp only [Recording.finish, ok_bind, ok_get, ok_check, reject_eq_ok, ok_modify] at hs
  obtain ⟨_, _, ⟨rfl, rfl⟩, _, _, ⟨hworking, rfl⟩, _, _, rfl, _, r₁, hs, rfl⟩ := hs
  have hjoinable : r.joinable = true := eq_true_of_ne_false fun hj => hworking (h.joined hj)
  have hreturned : Tracked clock c { r with working := false } before last :=
    { h with joined := fun _ => rfl, clocked := fun hc => { h.clocked hc with } }
  obtain ⟨-, hsaved⟩ := hreturned.save hjoinable hs
  exact ⟨_, { hsaved with clocked := fun hc => { hsaved.clocked hc with } }⟩

omit [FloorRing K] in
theorem Tracked.fail (h : Tracked clock c r before last)
    (hs : Recording.fail r = .ok u r') : Tracked clock c r' before last := by
  simp only [Recording.fail, ok_bind, ok_get, ok_check, ok_modify] at hs
  obtain ⟨_, _, ⟨rfl, rfl⟩, _, _, ⟨-, rfl⟩, rfl⟩ := hs
  exact { h with joined := fun _ => rfl, clocked := fun hc => { h.clocked hc with } }

omit [FloorRing K] in
/-- A pause begins at a reading of the clock. -/
theorem Tracked.stop (h : Tracked clock c r before last) (hs : Recording.stop clock r = .ok u r') :
    Tracked clock c r' before last ∧ r'.joinable = false ∧ r.store = r'.store := by
  simp only [Recording.stop, ok_bind, ok_get, ok_check, ok_ite, monotonicNow_ok, ok_modify,
    ok_pure] at hs
  obtain ⟨_, _, ⟨rfl, rfl⟩, _, _, ⟨hworking, rfl⟩, hjoin, hjoined⟩ := hs
  cases hj : r.joinable with
  | false =>
    obtain ⟨-, rfl⟩ := hjoined (by simp [hj])
    exact ⟨h, hj, rfl⟩
  | true =>
    obtain ⟨_, _, ⟨rfl, rfl⟩, rfl⟩ := hjoin hj
    rw [reject_eq_ok, Bool.not_eq_true] at hworking
    refine ⟨⟨h.history, h.rak, h.issued, h.ordered, fun _ => hworking, h.last_end, h.last_start,
      h.run_le, h.measured_le, h.started, fun i hi => h.advancing i (Nat.le_of_succ_le hi),
      fun hc => ⟨(h.clocked hc).unmeasured, fun i hi => (h.clocked hc).running i
        (Nat.le_of_succ_le hi), fun _ => ?_⟩⟩, rfl, rfl⟩
    have hnow := h.advancing r.readings le_rfl
    rwa [elapsedAt, if_pos (h.rak.mpr hc)] at hnow

/-- A measurement keeps the acquisitions, and a tile ends within the bound of the store. -/
theorem Tracked.append {call : SessionStore.Call K} (hcall : call.Appends)
    (h : Tracked clock c r before last) (hs : Recording.append m call r = .ok u r') :
    Tracked clock c r' before last := by
  simp only [Recording.append, ok_bind, ok_get, ok_check, worker_ok, inStore_ok] at hs
  obtain ⟨_, _, ⟨rfl, rfl⟩, _, _, ⟨-, rfl⟩, _, _, ⟨store, happend, rfl⟩, hs⟩ := hs
  have hhistory := h.history.append
    (SessionStore.appended_perform h.history.clean hcall happend)
  have happended : Tracked clock c { r with store } before last :=
    { h with history := hhistory, clocked := fun hc => { h.clocked hc with } }
  cases call with
  | tile tile =>
    obtain rfl := ok_modify.mp hs
    have haccepted := SessionStore.tile_accepted happend
    have hvalid := validateTile_iff.mp haccepted.valid
    have hgrows : ∀ now, r.elapsedAt now ≤ elapsedAt { r with
        lastMeasurementElapsed := max r.lastMeasurementElapsed tile.elapsedEndSeconds } now := by
      intro now
      unfold elapsedAt
      split
      · exact le_rfl
      · exact max_le_max_right _ (max_le_max_right _ (le_max_left _ _))
    refine ⟨hhistory, h.rak, h.issued, h.ordered, h.joined, h.last_end, h.last_start, h.run_le,
      max_le h.measured_le hvalid.interval.elapsed_le, h.started,
      fun i hi => (h.advancing i hi).trans (hgrows _), fun hc => ?_⟩
    -- A concentrator recording takes no tiles.
    have hversion := haccepted.version
    rw [h.history.version hc] at hversion
    omega
  | event event => exact (ok_pure.mp hs).2 ▸ happended
  | gap gap => exact (ok_pure.mp hs).2 ▸ happended
  | fix fix => exact (ok_pure.mp hs).2 ▸ happended
  | scan scan => exact (ok_pure.mp hs).2 ▸ happended
  | reception reception => exact (ok_pure.mp hs).2 ▸ happended
  | other checks row => exact (ok_pure.mp hs).2 ▸ happended
  | _ => exact hcall.elim

/-! ## Starts -/

omit [FloorRing K] in
theorem abort_ok {snapshot : Snapshot K} {fault : Option String}
    (h : abort clock snapshot fault r = .ok u r') :
    let elapsed := max (max r.lastMeasurementElapsed r.runElapsedStart)
      (clock.seconds r.readings - r.started)
    let result := SessionStore.update { snapshot with elapsedSeconds := elapsed } true fault r.store
    r.joinable = true ∧ ∃ finalSaveConfirmed, r' = { r.ends elapsed (fun _ => true) with
      store := finalState result
      pausedAt := clock.seconds r.readings
      finalSaveConfirmed
      working := false
      joinable := false
      readings := r.readings + 1 } := by
  simp only [abort, ok_bind, ok_get, ok_check, reject_eq_ok, Bool.not_eq_false, monotonicNow_ok,
    ok_set, ok_modify, attempt_ok, finalState_inStore] at h
  obtain ⟨_, _, ⟨rfl, rfl⟩, _, _, ⟨hjoinable, rfl⟩, _, _, ⟨rfl, rfl⟩, _, _, ⟨rfl, rfl⟩, _, _, rfl, saved,
    _, ⟨-, rfl⟩, rfl⟩ := h
  exact ⟨hjoinable, saved, rfl⟩

omit [FloorRing K] in
/-- A start that fails after its acquisition began saves it, or leaves what was saved. -/
theorem Tracked.abort [IsStrictOrderedRing K] {snapshot : Snapshot K} {fault : Option String}
    (h : Tracked clock c r before last) (hs : Recording.abort clock snapshot fault r = .ok u r') :
    ∃ last', Tracked clock c r' before last' := by
  obtain ⟨hjoinable, confirmed, rfl⟩ := abort_ok hs
  generalize helapsed : max (max r.lastMeasurementElapsed r.runElapsedStart)
    (clock.seconds r.readings - r.started) = elapsed
  have hclock : r.elapsedAt (clock.seconds r.readings) ≤ elapsed := by
    unfold elapsedAt
    rw [← helapsed]
    split
    · exact le_max_right _ _
    · exact le_rfl
  have hle : elapsed ≤ 10 ^ 10 := by
    have : (clock.seconds r.readings : K) ≤ 10 ^ 10 := seconds_le
    have := h.started
    rw [← helapsed]
    exact max_le (max_le h.measured_le h.run_le) (by linarith)
  have hstart : last.elapsedStart ≤ elapsed := (h.elapsedAt_mem le_rfl).1.trans hclock
  have hpaused : c.Rak → elapsed = clock.seconds r.readings - r.started := by
    intro hc
    have hrunning := (h.clocked hc).running r.readings le_rfl
    have hvalid := h.history.recorded.valid last (by simp)
    rw [← helapsed, (h.clocked hc).unmeasured,
      max_eq_right (hvalid.start_nonneg.trans h.last_start), max_eq_right hrunning]
  have hadvancing : ∀ i, r.readings + 1 ≤ i → elapsed ≤ r.elapsedAt (clock.seconds i) := by
    intro i hi
    have hmono : (clock.seconds r.readings : K) ≤ clock.seconds i := seconds_mono (by omega)
    unfold elapsedAt
    split <;> rename_i hrak
    · rw [hpaused (h.rak.mp hrak)]
      exact sub_le_sub_right hmono _
    · rw [← helapsed]
      exact max_le_max_left _ (sub_le_sub_right hmono _)
  obtain ⟨last', hhistory, hordered, hend, hsame⟩ : ∃ last', History c (finalState
      (SessionStore.update { snapshot with elapsedSeconds := elapsed } true fault r.store))
        (before ++ [last']) ∧
      ((before ++ [last']).Pairwise fun a b => a.elapsedEnd ≤ b.elapsedStart) ∧
      last'.elapsedEnd ≤ elapsed ∧ last'.issue = last.issue := by
    -- The final update may fail, and then the last interval keeps the end it had.
    cases hupdate : SessionStore.update { snapshot with elapsedSeconds := elapsed } true fault
      r.store with
    | ok v store =>
      obtain ⟨hhistory, hordered⟩ := h.ended hupdate hstart hle
      exact ⟨_, hhistory, hordered, le_rfl, rfl⟩
    | error e store =>
      exact ⟨last, h.history.rollback hupdate, h.ordered,
        h.last_end.trans ((h.advancing _ le_rfl).trans hclock), rfl⟩
  have hbegan : last'.elapsedStart = last.elapsedStart := congrArg (·.2.1) hsame
  refine ⟨last', hhistory, h.rak, ?_, hordered, fun _ => rfl, hend, hbegan ▸ h.last_start, h.run_le,
    h.measured_le, h.started, hadvancing, fun hc => ⟨(h.clocked hc).unmeasured, fun i hi =>
      (h.clocked hc).running i (Nat.le_of_succ_le hi), fun _ => (hpaused hc).le⟩⟩
  have hissued := h.issued
  rw [List.map_append, List.map_singleton] at hissued ⊢
  rw [hsame]
  exact map_ends.trans hissued

theorem appendPause_ok {start : K} (h : appendPause m start r = .ok u r') :
    ∃ store gapId, r' = { r with store, gapId } ∧
      (store = r.store ∨ ∃ gap, SessionStore.appendGap m gap r.store = .ok u store) := by
  simp only [appendPause, ok_bind, ok_get] at h
  obtain ⟨_, _, ⟨rfl, rfl⟩, h⟩ := h
  cases hlast : r.acquisitions.getLast? with
  | none =>
    simp only [hlast, ok_pure] at h
    exact ⟨r.store, r.gapId, h.2.symm, .inl rfl⟩
  | some last =>
    simp only [hlast, ok_ite, ok_bind, ok_set, inStore_ok, ok_pure] at h
    by_cases hpause : ¬ r.config.Rak ∧ start > last.elapsedEnd
    · obtain ⟨_, _, rfl, store, hgap, rfl⟩ := h.1 hpause
      exact ⟨store, r.gapId + 1, rfl, .inr ⟨_, hgap⟩⟩
    · obtain ⟨-, rfl⟩ := h.2 hpause
      exact ⟨r.store, r.gapId, rfl, .inl rfl⟩

theorem resume_ok {requested : ReceiverConfig K} {tunerGain : ℤ} {refused : Option String}
    (h : resume m clock requested tunerGain refused r = .ok u r') :
    ∃ r₁ r₂ store, let config := requested.prepared.configured tunerGain
      let start := max (r₁.elapsed + max 0 (clock.seconds r₁.readings - r₁.pausedAt))
        (clock.seconds (r₁.readings + 1) - r₁.started)
      let segment := newSegment r₁.acquisitions.length start config
      stop clock r = .ok () r₁ ∧ checkResume r₁ requested.prepared = .ok () ∧
      appendPause m start { r₁ with
        config, runElapsedStart := start, readings := r₁.readings + 1 + 1 } = .ok () r₂ ∧
      SessionStore.beginAcquisition m segment r₂.store = .ok () store ∧ r' = { r₂ with
        store
        acquisitions := r₂.acquisitions ++ [segment]
        elapsed := start
        finalSaveConfirmed := false
        working := true
        joinable := true } := by
  simp only [resume, ok_bind, ok_get, ok_check] at h
  obtain ⟨_, r₁, hstop, _, _, ⟨rfl, rfl⟩, _, _, ⟨-, rfl⟩, _, _, ⟨-, rfl⟩, _, _, ⟨hcheck, rfl⟩, h⟩ := h
  cases refused with
  | some message => simp only [ok_throw] at h
  | none =>
    simp only [ok_bind, ok_modify, monotonicNow_ok, inStore_ok] at h
    obtain ⟨_, _, rfl, _, _, ⟨rfl, rfl⟩, _, _, ⟨rfl, rfl⟩, _, _, rfl, _, r₂, hpause, _, _,
      ⟨store, hbegin, rfl⟩, rfl⟩ := h
    exact ⟨_, r₂, store, hstop, hcheck, hpause, hbegin, rfl⟩

omit [FloorRing K] in
/-- The start of a run does not precede what was published before the pause, and a concentrator
survey does not start ahead of its clock. -/
theorem Tracked.resumes [IsStrictOrderedRing K] (h : Tracked clock c r before last)
    (hjoinable : r.joinable = false) :
    let start := max (r.elapsed + max 0 (clock.seconds r.readings - r.pausedAt))
      (clock.seconds (r.readings + 1) - r.started)
    r.elapsed ≤ start ∧
      (c.Rak → ∀ i, r.readings + 1 + 1 ≤ i → start ≤ clock.seconds i - r.started) := by
  refine ⟨le_max_of_le_left (le_add_of_nonneg_right (le_max_left _ _)), fun hc i hi => ?_⟩
  have hnow : r.elapsed ≤ clock.seconds r.readings - r.started := by
    have := h.advancing r.readings le_rfl
    rwa [elapsedAt, if_pos (h.rak.mpr hc)] at this
  have hpaused := (h.clocked hc).paused hjoinable
  have hfirst : (clock.seconds r.readings : K) ≤ clock.seconds i := seconds_mono (by omega)
  have hsecond : (clock.seconds (r.readings + 1) : K) ≤ clock.seconds i := seconds_mono (by omega)
  refine max_le ?_ (sub_le_sub_right hsecond _)
  rw [← max_add_add_left, add_zero]
  exact max_le (by linarith) (by linarith)

/-- **A run that begins** adds its acquisition after the others. -/
theorem Tracked.resume [IsStrictOrderedRing K] {requested : ReceiverConfig K} {tunerGain : ℤ}
    {refused : Option String} (h : Tracked clock c r before last)
    (hs : Recording.resume m clock requested tunerGain refused r = .ok u r') :
    ∃ last', Tracked clock c r' (before ++ [last]) last' := by
  obtain ⟨r₁, r₂, store, hstop, -, hpause, hbegin, rfl⟩ := resume_ok hs
  obtain ⟨h, hjoinable, -⟩ := h.stop hstop
  obtain ⟨hge, hclock⟩ := h.resumes hjoinable
  generalize max (r₁.elapsed + max 0 (clock.seconds r₁.readings - r₁.pausedAt))
    (clock.seconds (r₁.readings + 1) - r₁.started) = start at hge hclock hpause hbegin ⊢
  obtain ⟨paused, gapId, rfl, hpaused⟩ := appendPause_ok hpause
  have hhistory : History c paused (before ++ [last]) := by
    rcases hpaused with rfl | ⟨gap, hgap⟩
    · exact h.history
    · have happends : SessionStore.Call.Appends (.gap gap) := trivial
      exact h.history.append (SessionStore.appended_perform h.history.clean happends hgap)
  obtain ⟨hhistory', hvalid⟩ := hhistory.begin hbegin
  have hrak : (requested.prepared.configured tunerGain).Rak ↔ c.Rak := hvalid.agrees.rak
  refine ⟨_, hhistory', hrak, ?_, ?_, fun hj => absurd hj (by simp), le_rfl, le_rfl, hvalid.end_le,
    h.measured_le, h.started, fun i hi => ?_, fun hc => ⟨(h.clocked hc).unmeasured, hclock hc,
      fun hj => absurd hj (by simp)⟩⟩
  · rw [List.map_append, h.issued, ← List.map_append]
  · refine List.pairwise_append.mpr ⟨h.ordered, List.pairwise_singleton _ _, fun a ha b hb => ?_⟩
    rw [List.mem_singleton.mp hb]
    refine le_trans ?_ hge
    rcases List.mem_append.mp ha with ha | ha
    · have hlast := (List.pairwise_append.mp h.ordered).2.2 a ha last (List.mem_singleton.mpr rfl)
      exact (hlast.trans (h.history.recorded.valid last (by simp)).start_le).trans h.last_end
    · rw [List.mem_singleton.mp ha]
      exact h.last_end
  · unfold elapsedAt
    split <;> rename_i hconfig
    · exact hclock (hrak.mp hconfig) i hi
    · exact (le_max_right _ _).trans (le_max_left _ _)

/-- The first run of a survey. -/
theorem tracked_start [IsStrictOrderedRing K] {requested : ReceiverConfig K} {tunerGain : ℤ}
    {sessionId : Text} {startedUtc : K}
    (hs : start m clock requested tunerGain sessionId startedUtc = .ok r) :
    ∃ last, Tracked clock r.config r [] last := by
  simp only [start, bind_eq_ok] at hs
  obtain ⟨_, -, created, hcreate, hs⟩ := hs
  split at hs
  · cases hs
  · rename_i store hbegin
    obtain rfl := pure_eq_ok.mp hs
    obtain ⟨_, enabled, henable, hbegin⟩ := ok_bind.mp hbegin
    obtain ⟨hhistory, hvalid⟩ := (SessionStore.history_create hcreate henable).begin hbegin
    have hclock : ∀ i, (0 : K) ≤ clock.seconds i - clock.seconds 0 :=
      fun i => sub_nonneg.mpr (seconds_mono (Nat.zero_le i))
    refine ⟨_, hhistory, Iff.rfl, rfl, List.pairwise_singleton _ _, fun hj => absurd hj (by simp),
      le_rfl, le_rfl, by positivity, by positivity, seconds_nonneg, fun i _ => ?_, fun _ =>
      ⟨rfl, fun i _ => hclock i, fun hj => absurd hj (by simp)⟩⟩
    unfold elapsedAt
    split
    · exact hclock i
    · exact le_max_of_le_right (hclock i)

/-- One step of the engine. -/
theorem tracked_perform [IsStrictOrderedRing K] {command : Command K}
    (h : Tracked clock c r before last) (hs : perform m clock command r = .ok u r') :
    ∃ before' last', Tracked clock c r' before' last' := by
  cases command with
  | append call => exact ⟨before, last, h.append call.property hs⟩
  | publish => exact ⟨before, last, h.publish hs⟩
  | checkpoint snapshot fault => exact ⟨before, h.checkpoint hs⟩
  | finish snapshot fault => exact ⟨before, h.finish hs⟩
  | fail => exact ⟨before, last, h.fail hs⟩
  | stop => exact ⟨before, last, (h.stop hs).1⟩
  | abort snapshot fault => exact ⟨before, h.abort hs⟩
  | resume requested tunerGain refused => exact ⟨_, h.resume hs⟩

/-- Every survey whose calls returned. -/
theorem tracked_run [IsStrictOrderedRing K] {requested : ReceiverConfig K} {tunerGain : ℤ}
    {sessionId : Text} {startedUtc : K} {commands : List (Command K)}
    (hstart : start m clock requested tunerGain sessionId startedUtc = .ok r)
    (hrun : (forM commands (perform m clock)) r = .ok u r') :
    ∃ before last, Tracked clock r.config r' before last := by
  obtain ⟨last, hstarted⟩ := tracked_start hstart
  exact forM_induction (P := fun _ r' => ∃ before last, Tracked clock r.config r' before last)
    (fun _ command _ _ ⟨before, last, h⟩ hs => tracked_perform h hs) ⟨[], last, hstarted⟩ hrun

end Recording

end OVMesh
