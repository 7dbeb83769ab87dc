import OVMesh.Lib.Hex
import OVMesh.Store.CsvRecord
import OVMesh.Store.ReadBack

/-!
# Activity rows of the CSV export

The rows that `export_csv` writes for the bitmap of a tile: one for every longest run of equal
frames, with the mask of the run in hexadecimal digits.

* `activityRuns`: the loops over the frames of a tile.
* `frameRow_eq`, `frameRow_runEnd`: what a run holds, and why it ends.
* `activityRecords`: the rows of the runs.
* `activityRecords_reproduce`: the rows give the bitmap of a stored tile back.
-/

namespace OVMesh

open Checked

/-! ## Runs -/

/-- `hex_bytes`: the first bytes in hexadecimal digits. -/
def hexBytes (data : List UInt8) (count : ℕ) : Text := Hex.encode (data.take count)

section Runs

variable (activity : List UInt8) (stride frameCount : ℕ)

/-- The bytes of a frame. -/
def frameRow (frame : ℕ) : List UInt8 := (activity.drop (frame * stride)).take stride

/-- The inner loop, from `end = stop`. -/
def runEnd (frame stop : ℕ) : ℕ :=
  if stop < frameCount ∧ frameRow activity stride frame = frameRow activity stride stop then
    runEnd frame (stop + 1)
  else stop
termination_by frameCount - stop

theorem le_runEnd (frame stop : ℕ) : stop ≤ runEnd activity stride frameCount frame stop := by
  fun_induction runEnd activity stride frameCount frame stop with
  | case1 stop h ih => omega
  | case2 stop h => exact le_rfl

/-- What is written for a run of frames. -/
structure ActivityRun where
  frameStart : ℕ
  frameCount : ℕ
  maskHex : Text
  deriving DecidableEq

/-- The outer loop, from `frame`. -/
def activityRunsFrom (frame : ℕ) : List ActivityRun :=
  if frame < frameCount then
    let stop := runEnd activity stride frameCount frame (frame + 1)
    ⟨frame, stop - frame, hexBytes (activity.drop (frame * stride)) stride⟩ ::
      activityRunsFrom stop
  else []
termination_by frameCount - frame
decreasing_by
  have := le_runEnd activity stride frameCount frame (frame + 1)
  omega

/-- The frames that a run stands for. -/
def ActivityRun.frames (run : ActivityRun) : List UInt8 :=
  (List.replicate run.frameCount (Hex.bytes run.maskHex)).flatten

/-- Nonempty runs that follow each other from frame `first` to frame `last`. -/
def Tiled (last : ℕ) : ℕ → List ActivityRun → Prop
  | first, [] => first = last
  | first, run :: runs =>
    run.frameStart = first ∧ 0 < run.frameCount ∧ Tiled last (first + run.frameCount) runs

variable {activity stride frameCount} {frame stop : ℕ}

theorem runEnd_le (h : stop ≤ frameCount) :
    runEnd activity stride frameCount frame stop ≤ frameCount := by
  fun_induction runEnd activity stride frameCount frame stop with
  | case1 stop hstop ih => exact ih hstop.1
  | case2 stop hstop => exact h

/-- The frames of a run are equal. -/
theorem frameRow_eq {k : ℕ} (hk : stop ≤ k)
    (hlt : k < runEnd activity stride frameCount frame stop) :
    frameRow activity stride k = frameRow activity stride frame := by
  fun_induction runEnd activity stride frameCount frame stop with
  | case1 stop hstop ih =>
    rcases hk.eq_or_lt with rfl | hk
    · exact hstop.2.symm
    · exact ih hk hlt
  | case2 stop hstop => omega

/-- The frame behind a run is another one. -/
theorem frameRow_runEnd (h : runEnd activity stride frameCount frame stop < frameCount) :
    frameRow activity stride frame ≠
      frameRow activity stride (runEnd activity stride frameCount frame stop) := by
  fun_induction runEnd activity stride frameCount frame stop with
  | case1 stop hstop ih => exact ih h
  | case2 stop hstop => exact fun heq => hstop ⟨h, heq⟩

theorem tiled_runs (h : frame ≤ frameCount) :
    Tiled frameCount frame (activityRunsFrom activity stride frameCount frame) := by
  fun_induction activityRunsFrom activity stride frameCount frame with
  | case1 frame hlt stop ih =>
    have hle : frame + 1 ≤ stop := le_runEnd activity stride frameCount frame (frame + 1)
    have hnext := ih (runEnd_le hlt)
    refine ⟨rfl, Nat.sub_pos_of_lt hle, ?_⟩
    rwa [Nat.add_sub_of_le (by omega)]
  | case2 frame hge => exact le_antisymm h (not_lt.mp hge)

theorem maskHex_head {run : ActivityRun}
    (h : run ∈ (activityRunsFrom activity stride frameCount frame).head?) :
    frame < frameCount ∧ run.maskHex = Hex.encode (frameRow activity stride frame) := by
  rw [activityRunsFrom] at h
  split at h
  · obtain rfl := Option.mem_some.mp h
    exact ⟨‹_›, rfl⟩
  · cases h

theorem masks_differ : (activityRunsFrom activity stride frameCount frame).IsChain
    fun a b => a.maskHex ≠ b.maskHex := by
  fun_induction activityRunsFrom activity stride frameCount frame with
  | case1 frame hlt stop ih =>
    refine List.isChain_cons.mpr ⟨fun run hrun heq => ?_, ih⟩
    obtain ⟨hstop, hmask⟩ := maskHex_head hrun
    refine frameRow_runEnd hstop ?_
    rw [← Hex.bytes_encode (l := frameRow activity stride stop), ← hmask, ← heq]
    exact Hex.bytes_encode.symm
  | case2 frame hge => exact List.isChain_nil

theorem drop_frame : activity.drop (frame * stride) =
    frameRow activity stride frame ++ activity.drop ((frame + 1) * stride) := by
  rw [frameRow, Nat.succ_mul, ← List.drop_drop, List.take_append_drop]

/-- Some equal frames, and what follows them. -/
theorem drop_frames {mask : List UInt8} {n : ℕ}
    (h : ∀ k < n, frameRow activity stride (frame + k) = mask) :
    activity.drop (frame * stride) =
      (List.replicate n mask).flatten ++ activity.drop ((frame + n) * stride) := by
  induction n generalizing frame with
  | zero => rfl
  | succ n ih =>
    have hrest : ∀ k < n, frameRow activity stride (frame + 1 + k) = mask := by
      intro k hk
      rw [Nat.add_right_comm]
      exact h (k + 1) (by omega)
    have hfirst : frameRow activity stride frame = mask := h 0 (Nat.succ_pos n)
    rw [drop_frame, ih hrest, hfirst, List.replicate_succ, List.flatten_cons, List.append_assoc,
      Nat.add_right_comm]
    rfl

theorem frames_runs (hlength : activity.length = stride * frameCount) :
    (activityRunsFrom activity stride frameCount frame).flatMap ActivityRun.frames =
      activity.drop (frame * stride) := by
  fun_induction activityRunsFrom activity stride frameCount frame with
  | case1 frame hlt stop ih =>
    have hle : frame + 1 ≤ stop := le_runEnd activity stride frameCount frame (frame + 1)
    have hrun : ∀ k < stop - frame,
        frameRow activity stride (frame + k) = frameRow activity stride frame := by
      intro k hk
      rcases Nat.eq_zero_or_pos k with rfl | hpos
      · rfl
      · exact frameRow_eq (by omega) (show frame + k < stop by omega)
    have hframes : ActivityRun.frames ⟨frame, stop - frame,
        hexBytes (activity.drop (frame * stride)) stride⟩ =
        (List.replicate (stop - frame) (frameRow activity stride frame)).flatten := by
      rw [ActivityRun.frames, hexBytes, Hex.bytes_encode, frameRow]
    rw [List.flatMap_cons, ih, hframes, drop_frames hrun, Nat.add_sub_of_le (by omega)]
  | case2 frame hge =>
    rw [List.flatMap_nil, List.drop_eq_nil_of_le]
    rw [hlength, Nat.mul_comm]
    exact Nat.mul_le_mul_right _ (not_lt.mp hge)

end Runs

/-! ## Rows -/

variable {K : Type} [Field K] [LinearOrder K]

/-- The runs of the bitmap of a tile, whose frames are `stride` bytes each. -/
def activityRuns (t : SpectrumTile K) : List ActivityRun :=
  activityRunsFrom (t.activity.map UInt8.ofNat) ((t.meanDbfs.length + 7) / 8) t.frameCount 0

/-- The row of a run. -/
def activityRecord (sessionId : Text) (t : SpectrumTile K) (run : ActivityRun) :
    Except String CsvRecord := do
  let mask ← CsvRecord.empty.text (ascii "record_type") (ascii "spectrum_activity_run")
  let mask ← mask.text (ascii "session_id") sessionId
  let mask ← mask.number (ascii "spectrum_id") (.ofNat t.id)
  let mask ← mask.number (ascii "activity_frame_start") (.ofNat run.frameStart)
  let mask ← mask.number (ascii "activity_frame_count") (.ofNat run.frameCount)
  mask.text (ascii "activity_mask_hex") run.maskHex

/-- The rows that `export_csv` writes for the bitmap of a tile. -/
def activityRecords (sessionId : Text) (t : SpectrumTile K) : Except String (List CsvRecord) :=
  (activityRuns t).mapM (activityRecord sessionId t)

/-- The row is that of the run. -/
def ActivityRun.WrittenIn (run : ActivityRun) (record : CsvRecord) : Prop :=
  record.cell (ascii "activity_frame_start") = .number (.ofNat run.frameStart) ∧
    record.cell (ascii "activity_frame_count") = .number (.ofNat run.frameCount) ∧
    record.cell (ascii "activity_mask_hex") = .text run.maskHex

set_option maxRecDepth 20000 in
omit [Field K] [LinearOrder K] in
theorem activityRecord_written (sessionId : Text) (t : SpectrumTile K) (run : ActivityRun) :
    ∃ record, activityRecord sessionId t run = .ok record ∧ run.WrittenIn record := by
  have htype : ascii "record_type" ∈ exportColumns :=
    mem_inputColumns (mem_columnsOf rfl rfl (by decide +kernel))
  have hsession : ascii "session_id" ∈ exportColumns :=
    mem_inputColumns (mem_columnsOf rfl rfl (by decide +kernel))
  have hid : ascii "spectrum_id" ∈ exportColumns :=
    mem_spectrumColumns (mem_columnsOf rfl rfl (by decide +kernel))
  have hstart : ascii "activity_frame_start" ∈ exportColumns :=
    mem_spectrumColumns (mem_columnsOf rfl rfl (by decide +kernel))
  have hcount : ascii "activity_frame_count" ∈ exportColumns :=
    mem_spectrumColumns (mem_columnsOf rfl rfl (by decide +kernel))
  have hmask : ascii "activity_mask_hex" ∈ exportColumns :=
    mem_spectrumColumns (mem_columnsOf rfl rfl (by decide +kernel))
  let row := CsvRecord.empty.set (ascii "record_type") (.text (ascii "spectrum_activity_run"))
    |>.set (ascii "session_id") (.text sessionId)
    |>.set (ascii "spectrum_id") (.number (.ofNat t.id))
    |>.set (ascii "activity_frame_start") (.number (.ofNat run.frameStart))
  let counted := row.set (ascii "activity_frame_count") (.number (.ofNat run.frameCount))
  have hstartCount : ascii "activity_frame_count" ≠ ascii "activity_frame_start" := by
    decide +kernel
  have hstartMask : ascii "activity_mask_hex" ≠ ascii "activity_frame_start" := by decide +kernel
  have hcountMask : ascii "activity_mask_hex" ≠ ascii "activity_frame_count" := by decide +kernel
  refine ⟨counted.set (ascii "activity_mask_hex") (.text run.maskHex), ?_, ?_, ?_, ?_⟩
  · simp only [activityRecord, CsvRecord.text, CsvRecord.number, bind_eq_ok]
    exact ⟨_, CsvRecord.put_eq htype, _, CsvRecord.put_eq hsession, _, CsvRecord.put_eq hid,
      _, CsvRecord.put_eq hstart, _, CsvRecord.put_eq hcount, CsvRecord.put_eq hmask⟩
  · rw [CsvRecord.cell_set_of_ne hmask hstartMask, CsvRecord.cell_set_of_ne hcount hstartCount,
      CsvRecord.cell_set_self hstart]
  · rw [CsvRecord.cell_set_of_ne hmask hcountMask, CsvRecord.cell_set_self hcount]
  · exact CsvRecord.cell_set_self hmask

omit [Field K] [LinearOrder K] in
theorem activityRecords_written (sessionId : Text) (t : SpectrumTile K) :
    ∃ records, activityRecords sessionId t = .ok records ∧
      List.Forall₂ ActivityRun.WrittenIn (activityRuns t) records := by
  unfold activityRecords
  induction activityRuns t with
  | nil => exact ⟨[], rfl, .nil⟩
  | cons run runs ih =>
    obtain ⟨record, hrecord, hwritten⟩ := activityRecord_written sessionId t run
    obtain ⟨records, hrecords, hwrittens⟩ := ih
    refine ⟨record :: records, ?_, .cons hwritten hwrittens⟩
    rw [List.mapM_cons, hrecord, hrecords]
    rfl

/-- What the reader of a tile checked. -/
theorem length_activity [FloorRing K] {db : Database K} {row : SpectrumRow K}
    {c : ReceiverConfig K} {t : SpectrumTile K} (h : tileFrom db row c = .ok t) :
    t.activity.length = (t.meanDbfs.length + 7) / 8 * t.frameCount := by
  have hvalid : validateTile t c = .ok () := by
    unfold tileFrom at h
    split at h
    · simp only [bind_eq_ok, pure_eq_ok] at h
      obtain ⟨_, -, _, hvalid, rfl⟩ := h
      exact hvalid
    · split at h
      · cases h
      · simp only [bind_eq_ok, pure_eq_ok] at h
        obtain ⟨_, -, _, -, _, -, _, hvalid, rfl⟩ := h
        exact hvalid
  exact (validateTile_iff.mp hvalid).dimensions.mask

/-- **The rows of a stored tile give its bitmap back.** The runs follow each other from the first
frame to behind the last one, the masks of neighbours differ, every run is in its row, and the masks
repeated over their runs are the bitmap. -/
theorem activityRecords_reproduce [FloorRing K] {db : Database K} {row : SpectrumRow K}
    {c : ReceiverConfig K} {t : SpectrumTile K} (h : tileFrom db row c = .ok t)
    (sessionId : Text) :
    ∃ runs records, activityRecords sessionId t = .ok records ∧
      List.Forall₂ ActivityRun.WrittenIn runs records ∧
      Tiled t.frameCount 0 runs ∧
      (runs.IsChain fun a b => a.maskHex ≠ b.maskHex) ∧
      runs.flatMap ActivityRun.frames = t.activity.map UInt8.ofNat := by
  obtain ⟨records, hrecords, hwritten⟩ := activityRecords_written sessionId t
  have hlength : (t.activity.map UInt8.ofNat).length =
      (t.meanDbfs.length + 7) / 8 * t.frameCount := by
    rw [List.length_map, length_activity h]
  refine ⟨activityRuns t, records, hrecords, hwritten, tiled_runs (Nat.zero_le _), masks_differ, ?_⟩
  rw [activityRuns, frames_runs hlength, Nat.zero_mul, List.drop_zero]

/-- Four frames of ten bins, of which the first two are equal. -/
def fourFrames : SpectrumTile ℚ :=
  { SessionStore.frameTile 0 with
    endSample := 16384, utcEndSeconds := 16384 / 8000000, elapsedEndSeconds := 16384 / 8000000
    powerElapsedEnd := 16384 / 8000000, frameCount := 4, meanDbfs := List.replicate 10 (-60)
    peakDbfs := List.replicate 10 (-50), activity := [1, 2, 1, 2, 0xfe, 0, 1, 2] }

/-- The runs of the tile, as it is read back. -/
theorem runs_fourFrames : (tileFrom SessionStore.compactStart.db
      (SessionStore.detailedRow fourFrames) SessionStore.compactConfig).map activityRuns =
    .ok [⟨0, 2, ascii "0102"⟩, ⟨2, 1, ascii "fe00"⟩, ⟨3, 1, ascii "0102"⟩] := by decide +kernel

/-- The rows of a recorded tile of three runs. -/
theorem activityRecords_reproduce_runs : ∃ (t : SpectrumTile ℚ) (runs : List ActivityRun)
      (records : List CsvRecord),
    tileFrom SessionStore.compactStart.db (SessionStore.detailedRow fourFrames)
      SessionStore.compactConfig = .ok t ∧
    activityRuns t = [⟨0, 2, ascii "0102"⟩, ⟨2, 1, ascii "fe00"⟩, ⟨3, 1, ascii "0102"⟩] ∧
    activityRecords [] t = .ok records ∧ List.Forall₂ ActivityRun.WrittenIn runs records ∧
    Tiled t.frameCount 0 runs ∧ (runs.IsChain fun a b => a.maskHex ≠ b.maskHex) ∧
    runs.flatMap ActivityRun.frames = t.activity.map UInt8.ofNat := by
  have hruns := runs_fourFrames
  cases hread : tileFrom SessionStore.compactStart.db (SessionStore.detailedRow fourFrames)
      SessionStore.compactConfig with
  | error e =>
    rw [hread] at hruns
    cases hruns
  | ok t =>
    rw [hread] at hruns
    obtain ⟨runs, records, hrows⟩ := activityRecords_reproduce hread []
    exact ⟨t, runs, records, rfl, Except.ok.inj hruns, hrows⟩

end OVMesh
