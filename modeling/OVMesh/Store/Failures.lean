import OVMesh.Store.PowerCover
import OVMesh.Store.Positions

/-!
# Calls that threw

What a call of `SessionStore` leaves when it threw. Most appends throw before they change the
measurements, but a compact tile may fail after its power block took it; a checkpoint that fails inside
its transaction rolls the tables back.

* `Libm.Decibels`: what the levels of a power block need of `pow` and `log10`.
* `Untouched`: an append that threw and changed no measurement.
* `Strands`: a compact tile that fails after its power block took it.
* `tile_error`, `scan_error`, …: one theorem for each call.
-/

namespace OVMesh

open SpectrumProcessor (Libm)

variable {K : Type} [Field K] [LinearOrder K]

/-- `pow` and `log10` are monotone, and exact at the powers of ten. -/
structure SpectrumProcessor.Libm.Decibels (m : Libm K) : Prop where
  pow10_pos : ∀ x, 0 < m.pow10 x
  pow10_mono : ∀ x y, x ≤ y → m.pow10 x ≤ m.pow10 y
  log10_mono : ∀ x y, 0 < x → x ≤ y → m.log10 x ≤ m.log10 y
  log10_pow10 : ∀ n : ℤ, m.log10 (m.pow10 n) = n

namespace SessionStore

open Checked Keyed Stateful

variable {m : Libm K} {s s' : SessionStore K} {e : String}

/-! ## Statements -/

omit [Field K] [LinearOrder K] in
theorem beginBatch_error (h : beginBatch s = .error e s') : s = s' := by
  unfold beginBatch at h
  obtain rfl | ⟨_, -, h⟩ := check_bind_error (get_bind_error h)
  · rfl
  · simp only [error_ite, error_set, error_pure, and_false, or_false] at h

omit [Field K] [LinearOrder K] in
theorem batch_bind_error {α : Type} {f : PUnit → Method K α}
    (h : (beginBatch >>= f) s = .error e s') : s = s' ∨ f ⟨⟩ s.batch = .error e s' := by
  rcases error_bind.mp h with h | ⟨_, _, hbatch, h⟩
  · exact .inl (beginBatch_error h)
  · obtain ⟨-, rfl⟩ := beginBatch_ok.mp hbatch
    exact .inr h

omit [Field K] [LinearOrder K] in
theorem constraint_error {bad : Prop} [Decidable bad] (h : constraint bad s = .error e s') :
    bad ∧ s = s' := by
  simp only [constraint, error_check] at h
  refine ⟨?_, h.2⟩
  unfold reject at h
  split at h <;> rename_i hbad
  · exact hbad
  · cases h.1

omit [Field K] [LinearOrder K] in
theorem execute_error {statement : Statement} (h : execute statement s = .error e s') :
    s.Refuses statement ∧ s = s' := by
  have h := get_bind_error h
  rw [error_check] at h
  refine ⟨?_, h.2⟩
  by_contra hrefuses
  rw [reject, if_neg hrefuses] at h
  cases h.1

omit [Field K] [LinearOrder K] in
/-- A statement was refused, or the rest of the method threw. -/
theorem execute_bind_error {α : Type} {statement : Statement} {f : PUnit → Method K α}
    (h : (execute statement >>= f) s = .error e s') :
    s.Refuses statement ∧ s = s' ∨ f ⟨⟩ s = .error e s' := by
  rcases error_bind.mp h with h | ⟨_, _, hexecute, h⟩
  · exact .inl (execute_error h)
  · obtain ⟨-, rfl⟩ := execute_ok.mp hexecute
    exact .inr h

omit [Field K] [LinearOrder K] in
theorem write_error {f : Database K → Database K} : write f s = .error e s' ↔ False := by
  simp only [write, error_modify]

omit [Field K] [LinearOrder K] in
/-- A row is written after its constraint. -/
theorem constraint_write_error {bad : Prop} [Decidable bad] {f : Database K → Database K}
    (h : (do constraint bad; write f : Method K Unit) s = .error e s') : bad ∧ s = s' := by
  rcases error_bind.mp h with h | ⟨_, _, -, h⟩
  · exact constraint_error h
  · exact (write_error.mp h).elim

/-- What an append that threw leaves. -/
inductive Untouched (s : SessionStore K) : SessionStore K → Prop
  | checked : Untouched s s
  | begun : Untouched s s.batch
  | closed : Untouched s { s.batch with powerBlock := PowerBlock.empty s.powerBlock.id }

omit [LinearOrder K] in
/-- A check leaves the state as it stands, so the rest of the method is what counts. -/
theorem Untouched.of_check {α β : Type} {t : SessionStore K} (ht : Untouched s t)
    {x : Except String α} {f : α → Method K β} (h : (check x >>= f) t = .error e s')
    (hrest : ∀ a, x = .ok a → f a t = .error e s' → Untouched s s') : Untouched s s' := by
  obtain rfl | ⟨a, hx, h⟩ := check_bind_error h
  · exact ht
  · exact hrest a hx h

/-! ## Events, gaps and positions -/

theorem event_error {event : SpectrumEvent K} (h : appendEvent event s = .error e s') :
    Untouched s s' := by
  unfold appendEvent at h
  refine .of_check .checked (get_bind_error h) fun _ _ h => ?_
  refine .of_check .checked h fun _ _ h => ?_
  refine .of_check .checked h fun _ _ h => ?_
  refine .of_check .checked h fun _ _ h => ?_
  obtain rfl | h := batch_bind_error h
  · exact .checked
  refine .of_check .begun h fun _ _ h => ?_
  refine .of_check .begun h fun _ _ h => ?_
  obtain ⟨-, rfl⟩ | h := execute_bind_error h
  · exact .begun
  rw [← (constraint_write_error h).2]
  exact .begun

omit [LinearOrder K] in
theorem other_error {checks row : Except String Unit} (h : appendOther checks row s = .error e s') :
    Untouched s s' := by
  unfold appendOther at h
  refine .of_check .checked h fun _ _ h => ?_
  obtain rfl | h := batch_bind_error h
  · exact .checked
  rw [← (error_check.mp h).2]
  exact .begun

omit [Field K] [LinearOrder K] in
theorem savepoint_error {g : Database K → Except String (Database K)}
    (h : savepoint g s = .error e s') : s = s' := by
  have h := get_bind_error h
  obtain rfl | ⟨_, -, h⟩ := check_bind_error h
  · rfl
  · exact (error_set.mp h).elim

theorem reception_error {r : Reception K} (h : appendReception r s = .error e s') :
    Untouched s s' := by
  unfold appendReception at h
  refine .of_check .checked h fun _ _ h => ?_
  have h := get_bind_error h
  have hbegun : ∀ s', (do beginBatch; savepoint fun db => insertReception db r : Method K Unit) s =
      .error e s' → Untouched s s' := by
    intro s' h
    obtain rfl | h := batch_bind_error h
    · exact .checked
    · rw [← savepoint_error h]
      exact .begun
  rcases error_ite.mp h with ⟨-, h⟩ | ⟨-, h⟩
  · refine .of_check .checked h fun _ _ h => ?_
    · exact hbegun _ h
  · refine .of_check .checked h fun _ _ h => ?_
    · exact hbegun _ h

theorem savePowerBlock_clean_error [FloorRing K] (hclean : s.powerBlock.dirty = false) :
    savePowerBlock m s ≠ .error e s' := by
  intro h
  have h := get_bind_error h
  simp [error_pure, hclean] at h

theorem gap_error [FloorRing K] {gap : CoverageGap K} (hclean : s.powerBlock.dirty = false)
    (h : appendGap m gap s = .error e s') : Untouched s s' := by
  unfold appendGap at h
  refine .of_check .checked (get_bind_error h) fun _ _ h => ?_
  refine .of_check .checked h fun _ _ h => ?_
  obtain rfl | h := batch_bind_error h
  · exact .checked
  have hclean' : s.batch.powerBlock.dirty = false := by rwa [batch_powerBlock]
  rcases error_ite.mp h with ⟨-, h⟩ | ⟨-, h⟩
  · rcases error_bind.mp h with h | ⟨_, _, hsave, h⟩
    · exact absurd h (savePowerBlock_clean_error hclean')
    · rw [← (savePowerBlock_clean hclean').mp hsave] at h
      rcases error_bind.mp h with h | ⟨_, _, hreset, h⟩
      · simp only [resetBlock, error_modify] at h
      · rw [← ok_modify.mp hreset] at h
        obtain ⟨-, rfl⟩ | h := execute_bind_error h
        · rw [batch_powerBlock]
          exact .closed
        · rw [← (constraint_write_error h).2, batch_powerBlock]
          exact .closed
  · obtain ⟨-, rfl⟩ | h := execute_bind_error h
    · exact .begun
    · rw [← (constraint_write_error h).2]
      exact .begun

/-- A position that threw fails its check, or its text or its statement is refused. -/
theorem ensureFix_error {statement : Statement} {f : PositionFix K}
    (h : ensureFix statement f s = .error e s') :
    (validateFix f = .error e ∨ bindText f.source ≠ .ok () ∨ s.Refuses statement) ∧ s = s' := by
  unfold ensureFix at h
  rcases error_bind.mp h with h | ⟨_, _, hcheck, h⟩
  · rw [error_check] at h
    exact ⟨.inl h.1, h.2⟩
  · obtain ⟨-, rfl⟩ := ok_check.mp hcheck
    have h := get_bind_error h
    cases hrecent : s.recentFixes.find? fun saved => SameFix saved.fix f with
    | some saved => simp only [hrecent, error_pure] at h
    | none =>
      simp only [hrecent] at h
      rcases error_bind.mp h with h | ⟨_, _, hbind, h⟩
      · rw [error_check] at h
        exact ⟨.inr (.inl (by simp [h.1])), h.2⟩
      · obtain ⟨-, rfl⟩ := ok_check.mp hbind
        obtain ⟨hrefuses, rfl⟩ | h := execute_bind_error h
        · exact ⟨.inr (.inr hrefuses), rfl⟩
        · simp only [error_bind, error_set, error_pure, and_false, exists_false, or_false] at h

theorem fix_error {f : PositionFix K} (h : appendFix f s = .error e s') : Untouched s s' := by
  unfold appendFix at h
  rcases error_ite.mp h with ⟨-, h⟩ | ⟨-, h⟩
  · refine .of_check .checked h fun _ _ h => ?_
    obtain rfl | h := batch_bind_error h
    · exact .checked
    have h := get_bind_error h
    rcases error_ite.mp h with ⟨-, h⟩ | ⟨-, h⟩
    · rcases error_bind.mp h with h | ⟨_, _, -, h⟩
      · rw [← (ensureFix_error h).2]
        exact .begun
      · exact (error_pure.mp h).elim
    · refine .of_check .begun h fun _ _ h => ?_
      obtain ⟨-, rfl⟩ | h := execute_bind_error h
      · exact .begun
      exact (write_error.mp h).elim
  · exact (error_pure.mp h).elim

/-! ## Scans and checkpoints -/

theorem scanReference_error {position : Option (PositionFix K)}
    (h : scanReference position s = .error e s') : s = s' := by
  cases position with
  | none => exact (error_pure.mp h).elim
  | some f =>
    rcases error_bind.mp h with h | ⟨_, _, -, h⟩
    · exact (ensureFix_error h).2
    · exact (error_pure.mp h).elim

/-- A scan that threw may have placed its position. -/
theorem scan_error {scan : ConcentratorScan K} (h : appendScan scan s = .error e s') :
    let placed := scanPlaced s.db.positions s.recentFixes scan.receiverPosition
    Untouched s s' ∨ validateConcentratorScan scan s.recordedConfig = .ok () ∧
      (∀ f ∈ scan.receiverPosition, Bound s.recentFixes f) ∧ s' = { s.batch with
      db := { s.db with positions := placed.2.1 }
      recentFixes := placed.2.2 } := by
  unfold appendScan at h
  obtain rfl | ⟨_, -, h⟩ := check_bind_error (get_bind_error h)
  · exact .inl .checked
  obtain rfl | ⟨_, hvalid, h⟩ := check_bind_error h
  · exact .inl .checked
  obtain rfl | h := batch_bind_error h
  · exact .inl .checked
  obtain rfl | ⟨_, -, h⟩ := check_bind_error h
  · exact .inl .begun
  obtain rfl | ⟨_, -, h⟩ := check_bind_error h
  · exact .inl .begun
  rcases error_bind.mp h with h | ⟨_, _, hplace, h⟩
  · rw [← scanReference_error h]
    exact .inl .begun
  · obtain ⟨hbound, -, rfl⟩ := scanReference_ok hplace
    simp only [batch_db, batch_recentFixes] at hbound h
    refine .inr ⟨hvalid, hbound, ?_⟩
    obtain ⟨-, rfl⟩ | h := execute_bind_error h
    · rfl
    · exact (constraint_write_error (get_bind_error h)).2.symm

/-- A checkpoint that fails inside its transaction rolls the tables back to the last commit. -/
theorem update_error {snapshot : Snapshot K} {final : Bool} {fault : Option String}
    (h : update snapshot final fault s = .error e s') :
    s' = s ∨ checkUpdate s snapshot = .ok () ∧
      s' = { s.batch with db := s.batch.committed, pending := false } := by
  unfold update at h
  obtain rfl | ⟨_, hcheck, h⟩ := check_bind_error (get_bind_error h)
  · exact .inl rfl
  obtain rfl | h := batch_bind_error h
  · exact .inl rfl
  have h := get_bind_error h
  cases hrows : updateRows s.batch snapshot final fault with
  | ok db => simp only [hrows, error_set] at h
  | error message =>
    simp only [hrows, error_bind, error_set, false_or, ok_set, error_throw] at h
    obtain ⟨_, _, rfl, -, rfl⟩ := h
    exact .inr ⟨hcheck, rfl⟩

/-! ## Acquisitions -/

omit [LinearOrder K] in
theorem enable_error (h : enableAcquisitions s = .error e s') : Untouched s s' := by
  unfold enableAcquisitions at h
  have h := get_bind_error h
  refine .of_check .checked h fun _ _ h => ?_
  rcases error_ite.mp h with ⟨-, h⟩ | ⟨-, h⟩
  · refine .of_check .checked h fun _ _ h => ?_
    obtain rfl | h := batch_bind_error h
    · exact .checked
    · exact (error_modify.mp h).elim
  · exact (error_pure.mp h).elim

omit [Field K] [LinearOrder K] in
private theorem texts_error {texts : List Text}
    (h : (forM texts fun text => check (bindText text) : Method K Unit) s = .error e s') :
    s = s' := by
  induction texts with
  | nil => exact (error_pure.mp h).elim
  | cons text texts ih =>
    rw [List.forM_cons] at h
    obtain rfl | ⟨_, -, h⟩ := check_bind_error h
    · rfl
    · exact ih h

omit [Field K] [LinearOrder K] in
/-- The lanes before the one that failed are written. -/
private theorem lanes_error {id : ℕ} {lanes : List (LaneConfig × ℕ)}
    (h : (forM lanes fun (l, i) => do
      forM [l.label, l.channelName, l.protocol] fun text => check (bindText text)
      constraint ((id, i) ∈ (← get).db.segmentLanes.map fun row => (row.1, row.2.1))
      write fun db => { db with segmentLanes := db.segmentLanes ++ [(id, i, l)] } :
        Method K Unit) s = .error e s') :
    ∃ segmentLanes, s' = { s with db := { s.db with segmentLanes } } := by
  induction lanes generalizing s with
  | nil => exact (error_pure.mp h).elim
  | cons l lanes ih =>
    rw [List.forM_cons] at h
    rcases error_bind.mp h with h | ⟨_, _, hlane, h⟩
    · refine ⟨s.db.segmentLanes, ?_⟩
      rcases error_bind.mp h with h | ⟨_, _, htexts, h⟩
      · exact (texts_error h).symm
      · simp only [List.forM_cons, List.forM_nil, ok_bind, ok_check, ok_pure] at htexts
        obtain ⟨_, _, ⟨-, rfl⟩, _, _, ⟨-, rfl⟩, _, _, ⟨-, rfl⟩, -, rfl⟩ := htexts
        exact (constraint_write_error (get_bind_error h)).2.symm
    · simp only [List.forM_cons, List.forM_nil, ok_bind, ok_check, ok_pure, ok_get, constraint_ok,
        write_ok] at hlane
      obtain ⟨_, _, ⟨_, _, ⟨-, rfl⟩, _, _, ⟨-, rfl⟩, _, _, ⟨-, rfl⟩, -, rfl⟩, _, _, ⟨rfl, rfl⟩, _, _,
        ⟨-, rfl⟩, rfl⟩ := hlane
      obtain ⟨segmentLanes, rfl⟩ := ih h
      exact ⟨segmentLanes, rfl⟩

/-- An acquisition that threw may have written its row and some of its lanes. -/
theorem begin_error [FloorRing K] {segment : AcquisitionSegment K}
    (hclean : s.powerBlock.dirty = false) (h : beginAcquisition m segment s = .error e s') :
    s' = s ∨ ∃ segments segmentLanes, s' = { s.batch with
      db := { s.db with segments, segmentLanes }
      powerBlock := PowerBlock.empty s.powerBlock.id } := by
  unfold beginAcquisition at h
  have h := get_bind_error h
  obtain rfl | ⟨_, -, h⟩ := check_bind_error h
  · exact .inl rfl
  obtain rfl | h := batch_bind_error h
  · exact .inl rfl
  -- From here on the batch is begun and the power block empty; only the rows of the segment may be
  -- there.
  refine .inr ?_
  have hclean' : s.batch.powerBlock.dirty = false := by rwa [batch_powerBlock]
  rcases error_bind.mp h with h | ⟨_, _, hsave, h⟩
  · exact absurd h (savePowerBlock_clean_error hclean')
  rw [← (savePowerBlock_clean hclean').mp hsave] at h
  rcases error_bind.mp h with h | ⟨_, _, hreset, h⟩
  · exact (error_modify.mp h).elim
  rw [← ok_modify.mp hreset, batch_powerBlock] at h
  have h := get_bind_error h
  cases hthreshold : segment.config.activityThresholdDbfs with
  | none =>
    simp only [hthreshold, error_throw] at h
    exact ⟨s.db.segments, s.db.segmentLanes, by rw [← h.2, batch_db]⟩
  | some threshold =>
    simp only [hthreshold] at h
    rcases error_bind.mp h with h | ⟨_, _, hid, h⟩
    · exact ⟨s.db.segments, s.db.segmentLanes, by rw [← (constraint_error h).2, batch_db]⟩
    obtain ⟨-, rfl⟩ := constraint_ok.mp hid
    rcases error_bind.mp h with h | ⟨_, _, htexts, h⟩
    · exact ⟨s.db.segments, s.db.segmentLanes, by rw [← texts_error h, batch_db]⟩
    simp only [List.forM_cons, List.forM_nil, ok_bind, ok_check, ok_pure] at htexts
    obtain ⟨_, _, ⟨-, rfl⟩, _, _, ⟨-, rfl⟩, _, _, ⟨-, rfl⟩, -, rfl⟩ := htexts
    rcases error_bind.mp h with h | ⟨_, _, hrow, h⟩
    · exact (write_error.mp h).elim
    rw [← write_ok.mp hrow] at h
    rcases error_bind.mp h with h | ⟨_, _, hlanes, h⟩
    · obtain ⟨segmentLanes, rfl⟩ := lanes_error h
      refine ⟨s.db.segments ++ [segmentRow segment threshold], segmentLanes, ?_⟩
      simp only [batch_db]
    rw [lanes_ok hlanes] at h
    obtain rfl | ⟨_, -, h⟩ := check_bind_error h
    · refine ⟨s.db.segments ++ [segmentRow segment threshold],
        s.db.segmentLanes ++ laneRows segment.id segment.config.lanes.zipIdx, ?_⟩
      simp only [batch_db]
    · simp only [error_bind, write_error, error_modify, false_or, and_false, exists_false] at h

/-! ## Tiles -/

section

variable [FloorRing K] {tile : SpectrumTile K}

/-- Bytes of levels fit their column. -/
theorem bindBlob_levelBytes {values : List K} (hpos : 0 < values.length)
    (hle : values.length ≤ 4096) : bindBlob (levelBytes values) = .ok () := by
  have hlength : (levelBytes values).length = values.length * 2 := length_quantized
  rw [bindBlob, reject_eq_ok]
  refine not_or.mpr ⟨fun hnil => ?_, by omega⟩
  rw [hnil, List.length_nil] at hlength
  omega

/-- A block of as many bins as a tile. -/
structure Binned (b : PowerBlock K) (bins : ℕ) : Prop where
  bins_pos : 0 < bins
  bins_le : bins ≤ 4096
  power : b.powerSum.length = bins
  peak : b.peak.length = bins

/-- A block whose levels can be saved is saved, unless its statement is refused. -/
theorem savePowerBlock_saveable_error {bins : ℕ} (hsave : Saveable m s.powerBlock)
    (hbins : Binned s.powerBlock bins) (haccepts : ¬ s.Refuses .powerBlock) : savePowerBlock m s ≠ .error e s' := by
  intro h
  have hmean : quantize (s.powerBlock.mean m) = .ok (levelBytes (s.powerBlock.mean m)) :=
    quantize_eq_ok.mpr ⟨hsave.mean, rfl⟩
  have hpeak : quantize s.powerBlock.peak = .ok (levelBytes s.powerBlock.peak) :=
    quantize_eq_ok.mpr ⟨hsave.peak, rfl⟩
  have hmeans : (s.powerBlock.mean m).length = bins := by
    rw [PowerBlock.mean, List.length_map, hbins.power]
  have hbytes : bindBlob (levelBytes (s.powerBlock.mean m)) = .ok () :=
    bindBlob_levelBytes (hmeans ▸ hbins.bins_pos) (hmeans ▸ hbins.bins_le)
  have hbytes' : bindBlob (levelBytes s.powerBlock.peak) = .ok () :=
    bindBlob_levelBytes (hbins.peak ▸ hbins.bins_pos) (hbins.peak ▸ hbins.bins_le)
  unfold savePowerBlock at h
  have h := get_bind_error h
  rcases error_ite.mp h with ⟨-, h⟩ | ⟨-, h⟩
  · have h := check_ok_bind_error hmean h
    have h := check_ok_bind_error hpeak h
    have h := check_ok_bind_error hbytes h
    have h := check_ok_bind_error hbytes' h
    obtain ⟨hrefuses, -⟩ | h := execute_bind_error h
    · exact haccepts hrefuses
    simp only [error_bind, write_error, error_modify, false_or, and_false, exists_false] at h
  · exact (error_pure.mp h).elim

/-- The block of a tile is saved with it. -/
theorem advanceBlock_error {bins : ℕ} (hclean : s.powerBlock.dirty = false)
    (hsave : Saveable m ((nextBlock s.powerBlock tile).add m tile))
    (hbins : Binned ((nextBlock s.powerBlock tile).add m tile) bins)
    (haccepts : ¬ s.Refuses .powerBlock) :
    advanceBlock m tile s ≠ .error e s' := by
  intro h
  unfold advanceBlock at h
  have h := get_bind_error h
  by_cases hcontinues : s.powerBlock.Continues tile
  · rw [if_neg (not_not.mpr hcontinues)] at h
    rcases error_bind.mp h with h | ⟨_, _, hadd, h⟩
    · exact error_modify.mp h
    · rw [← ok_modify.mp hadd] at h
      rw [nextBlock, if_pos hcontinues] at hsave hbins
      exact absurd h (savePowerBlock_saveable_error hsave hbins haccepts)
  · rw [if_pos hcontinues] at h
    rcases error_bind.mp h with h | ⟨_, _, hclosed, h⟩
    · exact savePowerBlock_clean_error hclean h
    rw [← (savePowerBlock_clean hclean).mp hclosed] at h
    rcases error_bind.mp h with h | ⟨_, _, hstart, h⟩
    · exact error_modify.mp h
    rcases error_bind.mp h with h | ⟨_, _, hadd, h⟩
    · exact error_modify.mp h
    rw [← ok_modify.mp hadd, ← ok_modify.mp hstart] at h
    rw [nextBlock, if_neg hcontinues] at hsave hbins
    exact absurd h (savePowerBlock_saveable_error hsave hbins haccepts)

omit [FloorRing K] in
theorem fixReference_error {statement : Statement} {position : Option (PositionFix K)}
    (h : fixReference statement position s = .error e s') :
    ∃ f ∈ position, validateFix f = .error e ∨
      f.valid = true ∧ (bindText f.source ≠ .ok () ∨ s.Refuses statement) := by
  cases position with
  | none => exact (error_pure.mp h).elim
  | some f =>
    rcases error_ite.mp h with ⟨hvalid, h⟩ | ⟨-, h⟩
    · rcases error_bind.mp h with h | ⟨_, _, -, h⟩
      · exact ⟨f, rfl, (ensureFix_error h).1.imp_right fun h => ⟨hvalid, h⟩⟩
      · exact (error_pure.mp h).elim
    · exact (error_pure.mp h).elim

omit [Field K] [LinearOrder K] [FloorRing K] in
theorem joins_of_refers {positions : List (SavedFix K)} {position : Option (PositionFix K)}
    {reference : Option ℕ} (h : Refers positions position reference) :
    Joins (positions.map (·.id)) reference := by
  cases h with
  | none => exact fun id hid => absurd hid (by simp)
  | @row f id hmem =>
    rintro _ ⟨⟩
    exact List.mem_map.mpr ⟨_, hmem, rfl⟩

/-- The mask of a valid tile fits its column. -/
theorem bindBlob_activity {c : ReceiverConfig K} (h : ValidTile tile c) :
    bindBlob (encodeActivity tile.activity) = .ok () := by
  have d := h.dimensions
  have hpos : 0 < tile.activity.length := by
    rw [d.mask]
    exact Nat.mul_pos (by have := d.bins_pos; omega) d.frames_pos
  have hle : tile.activity.length ≤ 65536 := by
    rw [d.mask]
    exact Nat.mul_le_mul (by have := d.bins_le; omega : _ ≤ 512) d.frames_le
  have hlength := length_encodeActivity (List.length_pos_iff.mp hpos)
  rw [bindBlob, reject_eq_ok]
  exact not_or.mpr ⟨List.length_pos_iff.mp hlength.1, by omega⟩

/-- A detailed tile is written last. -/
theorem tile_detailed_error (hversion : s.schemaVersion = 5)
    (h : appendTile m tile s = .error e s') : Untouched s s' := by
  unfold appendTile at h
  have h := get_bind_error h
  refine .of_check .checked h fun _ _ h => ?_
  refine .of_check .checked h fun _ _ h => ?_
  refine .of_check .checked h fun _ _ h => ?_
  refine .of_check .checked h fun _ _ h => ?_
  obtain rfl | h := batch_bind_error h
  · exact .checked
  rw [if_neg (by omega)] at h
  refine .of_check .begun h fun _ _ h => ?_
  refine .of_check .begun h fun _ _ h => ?_
  refine .of_check .begun h fun _ _ h => ?_
  refine .of_check .begun h fun _ _ h => ?_
  refine .of_check .begun h fun _ _ h => ?_
  refine .of_check .begun h fun _ _ h => ?_
  refine .of_check .begun h fun _ _ h => ?_
  refine .of_check .begun h fun _ _ h => ?_
  refine .of_check .begun h fun _ _ h => ?_
  obtain ⟨-, rfl⟩ | h := execute_bind_error h
  · exact .begun
  have h := get_bind_error h
  rcases error_bind.mp h with h | ⟨_, _, -, h⟩
  · rw [← (constraint_error h).2]
    exact .begun
  rcases error_bind.mp h with h | ⟨_, _, -, h⟩
  · exact (write_error.mp h).elim
  · exact (error_modify.mp h).elim

/-- A position whose text or whose statement is refused. -/
def FixRefused (s : SessionStore K) (statement : Statement) (position : Option (PositionFix K)) : Prop :=
  ∃ f ∈ position, f.valid = true ∧ (validUtf8 f.source = false ∨ s.Refuses statement)

/-- A compact tile that passes its checks and fails after its power block took it. -/
structure Strands (s : SessionStore K) (tile : SpectrumTile K) : Prop where
  compact : s.schemaVersion = 6
  accepted : TileAccepted s tile
  refused : s.Refuses .powerBlock ∨ FixRefused s .startFix tile.receiverStart ∨
    FixRefused s .endFix tile.receiverEnd ∨ s.Refuses .row

omit [FloorRing K] in
/-- The position of a checked tile fails where it is refused. -/
theorem fixRefused_of_error {statement : Statement} {position : Option (PositionFix K)}
    (hvalid : ∀ f ∈ position, validateFix f = .ok ())
    (h : fixReference statement position s = .error e s') : FixRefused s statement position := by
  obtain ⟨f, hf, herror⟩ := fixReference_error h
  have hfix := hvalid f hf
  rcases herror with herror | ⟨hfixed, hbind | hrefuses⟩
  · rw [hfix] at herror
    cases herror
  · refine ⟨f, hf, hfixed, .inl ?_⟩
    by_contra hutf8
    simp only [validateFix, bind_eq_ok, reject_eq_ok, not_or, not_lt] at hfix
    obtain ⟨_, -, _, -, _, -, _, -, -, hlength⟩ := hfix
    refine hbind (reject_eq_ok.mpr (not_or.mpr ⟨?_, hutf8⟩))
    omega
  · exact ⟨f, hf, hfixed, .inr hrefuses⟩

/-- **A compact tile that threw** threw in its checks, unless it strands: its block can be saved, its
positions are valid, and its identifier is new. -/
theorem tile_error (hversion : s.schemaVersion = 6) (hclean : s.powerBlock.dirty = false)
    (hfixes : SavedFixes s.db.positions s.recentFixes)
    (hids : ∀ id ∈ s.db.tiles.map (·.id), id ≤ s.previousTileId)
    (hblock : validateTile tile s.recordedConfig = .ok () →
      Saveable m ((nextBlock s.powerBlock tile).add m tile) ∧
      Binned ((nextBlock s.powerBlock tile).add m tile) tile.meanDbfs.length)
    (hstrands : ¬ Strands s tile) (h : appendTile m tile s = .error e s') : Untouched s s' := by
  unfold appendTile at h
  have h := get_bind_error h
  refine .of_check .checked h fun _ _ h => ?_
  refine .of_check .checked h fun _ hvalid h => ?_
  refine .of_check .checked h fun _ hfine h => ?_
  refine .of_check .checked h fun _ horder h => ?_
  rcases error_bind.mp h with h | ⟨_, _, hbatch, h⟩
  · rw [beginBatch_error h]
    exact .checked
  obtain ⟨⟨hwritable, -⟩, rfl⟩ := beginBatch_ok.mp hbatch
  rw [if_pos (by omega)] at h
  rw [reject_eq_ok] at hfine horder
  rw [not_or, not_or, not_lt, not_lt] at horder
  obtain ⟨hid, hsample, helapsed⟩ := horder
  -- the checks passed, so whatever throws from here on is one of the refusals of `Strands`
  have haccepted : TileAccepted s tile :=
    ⟨hwritable, .inr hversion, hvalid, hfine, fun _ => by omega, hsample, helapsed⟩
  have hrefused := fun hrefused => hstrands ⟨hversion, haccepted, hrefused⟩
  obtain ⟨hsave, hbins⟩ := hblock hvalid
  have hclean' : s.batch.powerBlock.dirty = false := by rwa [batch_powerBlock]
  rw [← batch_powerBlock] at hsave hbins
  exfalso
  rcases error_bind.mp h with h | ⟨_, _, hadvance, h⟩
  · refine advanceBlock_error hclean' hsave hbins (fun hrefuses => hrefused (.inl ?_)) h
    rwa [Refuses, batch_refused] at hrefuses
  obtain ⟨-, rfl⟩ := advanceBlock_ok hclean' hadvance
  have h := get_bind_error h
  have htile := validateTile_iff.mp hvalid
  rcases error_bind.mp h with h | ⟨_, _, hstart, h⟩
  · have hfix := fixRefused_of_error htile.receiverStart h
    simp only [FixRefused, Refuses, batch_refused] at hfix
    exact hrefused (.inr (.inl hfix))
  obtain ⟨hbound, rfl, rfl⟩ := fixReference_ok hstart
  rcases error_bind.mp h with h | ⟨_, _, hend, h⟩
  · have hfix := fixRefused_of_error htile.receiverEnd h
    simp only [FixRefused, Refuses, batch_refused] at hfix
    exact hrefused (.inr (.inr (.inl hfix)))
  obtain ⟨hbound', rfl, rfl⟩ := fixReference_ok hend
  have h := check_ok_bind_error (bindBlob_activity htile) h
  obtain ⟨hrefuses, -⟩ | h := execute_bind_error h
  · simp only [Refuses, batch_refused] at hrefuses
    exact hrefused (.inr (.inr (.inr hrefuses)))
  have h := get_bind_error h
  simp only [batch_db, batch_recentFixes] at hbound hbound'
  obtain ⟨hfixes', hsub, hrefers⟩ := referencePlaced_ok hfixes htile.receiverStart hbound
  obtain ⟨-, hsub', hrefers'⟩ := referencePlaced_ok hfixes' htile.receiverEnd hbound'
  rcases error_bind.mp h with h | ⟨_, _, -, h⟩
  · simp only [batch_db, batch_powerBlock, batch_recentFixes] at h
    rcases (constraint_error h).1 with hblock | hjoin | hjoin | hused
    · exact hblock (List.mem_map.mpr ⟨_, mem_upsert, rfl⟩)
    · exact hjoin (joins_of_refers (hrefers.mono hsub'))
    · exact hjoin (joins_of_refers hrefers')
    · have hle := hids tile.id hused
      exact hid ⟨by omega, hle⟩
  · rcases error_bind.mp h with h | ⟨_, _, -, h⟩
    · exact write_error.mp h
    · exact error_modify.mp h

end

end SessionStore

end OVMesh
