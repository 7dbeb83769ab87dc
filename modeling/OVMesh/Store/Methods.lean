import OVMesh.Store.Recorder

/-!
# What a method has changed when it returned

One lemma for each method of the store: the checks that passed, and the store that is left as an
update of the one before.

* `batch`: the store inside a transaction.
* `Saveable`, `savedRow`, `nextBlock`: the power block of a tile and its row.
* `tile_ok`: a compact tile; `gap_ok`, `begin_ok`, `update_ok`: the other methods of a recording.
-/

namespace OVMesh

namespace SessionStore

open Checked Stateful SurveyQuality
open SpectrumProcessor (Libm)

variable {K : Type} [Field K] [LinearOrder K] {m : Libm K} {s s' : SessionStore K} {u : Unit}

/-! ## Transactions -/

omit [Field K] [LinearOrder K] in
/-- The store inside a transaction. -/
def batch (s : SessionStore K) : SessionStore K :=
  if s.pending = false then { s with committed := s.db, pending := true } else s

section

omit [Field K] [LinearOrder K]

@[simp] theorem batch_db : s.batch.db = s.db := by unfold batch; split <;> rfl
@[simp] theorem batch_schemaVersion : s.batch.schemaVersion = s.schemaVersion := by
  unfold batch; split <;> rfl
@[simp] theorem batch_readonly : s.batch.readonly = s.readonly := by unfold batch; split <;> rfl
@[simp] theorem batch_recordedConfig : s.batch.recordedConfig = s.recordedConfig := by
  unfold batch; split <;> rfl
@[simp] theorem batch_acquisitionExtension :
    s.batch.acquisitionExtension = s.acquisitionExtension := by unfold batch; split <;> rfl
@[simp] theorem batch_acquisitionId : s.batch.acquisitionId = s.acquisitionId := by
  unfold batch; split <;> rfl
@[simp] theorem batch_previousTileEnd : s.batch.previousTileEnd = s.previousTileEnd := by
  unfold batch; split <;> rfl
@[simp] theorem batch_previousTileId : s.batch.previousTileId = s.previousTileId := by
  unfold batch; split <;> rfl
@[simp] theorem batch_previousTileElapsedEnd :
    s.batch.previousTileElapsedEnd = s.previousTileElapsedEnd := by unfold batch; split <;> rfl
@[simp] theorem batch_powerBlock : s.batch.powerBlock = s.powerBlock := by
  unfold batch; split <;> rfl
@[simp] theorem batch_recentFixes : s.batch.recentFixes = s.recentFixes := by
  unfold batch; split <;> rfl

@[simp] theorem batch_refused : s.batch.refused = s.refused := by unfold batch; split <;> rfl

theorem batch_committed : s.batch.committed = if s.pending = false then s.db else s.committed := by
  unfold batch; split <;> rfl

@[simp] theorem batch_pending : s.batch.pending = true := by
  unfold batch
  split <;> rename_i h
  · rfl
  · exact eq_true_of_ne_false h

theorem execute_ok {statement : Statement} :
    execute statement s = .ok u s' ↔ ¬ s.Refuses statement ∧ s = s' := by
  simp only [execute, ok_bind, ok_get, ok_check, reject_eq_ok]
  constructor
  · rintro ⟨_, _, ⟨rfl, rfl⟩, h⟩
    exact h
  · exact fun h => ⟨_, _, ⟨rfl, rfl⟩, h⟩

theorem beginBatch_ok : beginBatch s = .ok u s' ↔ (s.readonly = false ∧
    (s.schemaVersion = 5 ∨ s.schemaVersion = 6 ∨ s.schemaVersion = 7)) ∧ s.batch = s' := by
  have hcheck : (¬ (s.readonly = true ∨ s.schemaVersion ≠ 5 ∧ s.schemaVersion ≠ 6 ∧
      s.schemaVersion ≠ 7)) ↔ s.readonly = false ∧
      (s.schemaVersion = 5 ∨ s.schemaVersion = 6 ∨ s.schemaVersion = 7) := by
    rw [not_or, Bool.not_eq_true]
    exact and_congr_right fun _ => by omega
  simp only [beginBatch, ok_bind, ok_get, ok_check, reject_eq_ok, ok_ite, ok_set, ok_pure, batch]
  constructor
  · rintro ⟨t, _, ⟨rfl, rfl⟩, _, _, ⟨h, rfl⟩, hset, hpure⟩
    refine ⟨hcheck.mp h, ?_⟩
    split <;> rename_i hp
    · exact hset hp
    · exact (hpure hp).2
  · rintro ⟨h, rfl⟩
    refine ⟨s, s, ⟨rfl, rfl⟩, (), s, ⟨hcheck.mpr h, rfl⟩, fun hp => ?_, fun hp => ?_⟩
    · rw [if_pos hp]
    · rw [if_neg hp]
      exact ⟨trivial, rfl⟩

theorem constraint_ok {bad : Prop} [Decidable bad] :
    constraint bad s = .ok u s' ↔ ¬ bad ∧ s = s' := by
  simp only [constraint, ok_check, reject_eq_ok]

theorem write_ok {f : Database K → Database K} :
    write f s = .ok u s' ↔ { s with db := f s.db } = s' := by
  simp only [write, ok_modify]

end

/-! ## Power blocks -/

section

variable [FloorRing K]

/-- The bytes of levels in the supported range. -/
def levelBytes (values : List K) : List ℕ := values.flatMap fun value => int16Bytes (centibel value)

/-- The levels of a block can be saved. -/
structure Saveable (m : Libm K) (b : PowerBlock K) : Prop where
  mean : ∀ v ∈ b.mean m, -300 ≤ v ∧ v ≤ 100
  peak : ∀ v ∈ b.peak, -300 ≤ v ∧ v ≤ 100

/-- The row of a block whose levels can be saved. -/
def savedRow (m : Libm K) (b : PowerBlock K) : PowerRow K :=
  powerRow b (levelBytes (b.mean m)) (levelBytes b.peak)

theorem savePowerBlock_clean (h : s.powerBlock.dirty = false) :
    savePowerBlock m s = .ok u s' ↔ s = s' := by
  simp [savePowerBlock, ok_ite, h]

theorem savePowerBlock_dirty (hid : s.powerBlock.id ≠ 0) (h : s.powerBlock.dirty = true)
    (hs : savePowerBlock m s = .ok u s') : Saveable m s.powerBlock ∧ s' = { s with
      db := { s.db with powerBlocks := upsertPower s.db.powerBlocks (savedRow m s.powerBlock) }
      powerBlock := { s.powerBlock with dirty := false } } := by
  simp only [savePowerBlock, ok_bind, ok_get, ok_ite, ok_check, ok_modify, write_ok, execute_ok,
    quantize_eq_ok] at hs
  obtain ⟨_, _, ⟨rfl, rfl⟩, hsave, -⟩ := hs
  obtain ⟨_, _, ⟨⟨hmean, rfl⟩, rfl⟩, _, _, ⟨⟨hpeak, rfl⟩, rfl⟩, _, _, ⟨-, rfl⟩, _, _, ⟨-, rfl⟩, _, _,
    ⟨-, rfl⟩, _, _, rfl, rfl⟩ := hsave ⟨hid, h⟩
  exact ⟨⟨hmean, hpeak⟩, rfl⟩

/-- The block that takes a tile. -/
def nextBlock (b : PowerBlock K) (tile : SpectrumTile K) : PowerBlock K :=
  if b.Continues tile then b else PowerBlock.start (b.id + 1) tile

omit [FloorRing K] in
theorem nextBlock_id_ne_zero {b : PowerBlock K} {tile : SpectrumTile K} :
    (nextBlock b tile).id ≠ 0 := by
  unfold nextBlock
  split <;> rename_i h
  · exact fun h0 => h (.inl h0)
  · exact Nat.succ_ne_zero b.id

/-- The block of a tile is saved with it. -/
theorem advanceBlock_ok {tile : SpectrumTile K} (hclean : s.powerBlock.dirty = false)
    (h : advanceBlock m tile s = .ok u s') :
    let b := (nextBlock s.powerBlock tile).add m tile
    Saveable m b ∧ s' = { s with
      db := { s.db with powerBlocks := upsertPower s.db.powerBlocks (savedRow m b) }
      powerBlock := { b with dirty := false } } := by
  simp only [advanceBlock, ok_bind, ok_get, ok_ite, ok_modify] at h
  obtain ⟨_, _, ⟨rfl, rfl⟩, hopen, hcontinue⟩ := h
  have hsave : savePowerBlock m
      { s with powerBlock := (nextBlock s.powerBlock tile).add m tile } = .ok u s' := by
    unfold nextBlock
    split <;> rename_i hc
    · obtain ⟨_, _, rfl, hsave⟩ := hcontinue (not_not.mpr hc)
      exact hsave
    · obtain ⟨_, _, hclosed, _, _, rfl, _, _, rfl, hsave⟩ := hopen hc
      rwa [← (savePowerBlock_clean hclean).mp hclosed] at hsave
  exact savePowerBlock_dirty nextBlock_id_ne_zero rfl hsave

end

/-! ## Positions -/

/-- What `ensure_fix` leaves of the positions and of the entries in memory, and the identifier. -/
def fixPlaced (positions recent : List (SavedFix K)) (f : PositionFix K) :
    ℕ × List (SavedFix K) × List (SavedFix K) :=
  match recent.find? fun saved => SameFix saved.fix f with
  | some saved => (saved.id, positions, recent)
  | none =>
    let placed := placeFix positions f
    (placed.1, placed.2, pushRecent recent ⟨f, placed.1⟩)

/-- A position without an entry in memory has been bound. -/
def Bound (recent : List (SavedFix K)) (f : PositionFix K) : Prop :=
  (recent.find? fun saved => SameFix saved.fix f) = none → bindText f.source = .ok ()

theorem ensureFix_ok {statement : Statement} {f : PositionFix K} {id : ℕ}
    (h : ensureFix statement f s = .ok id s') :
    let placed := fixPlaced s.db.positions s.recentFixes f
    validateFix f = .ok () ∧ Bound s.recentFixes f ∧ id = placed.1 ∧ s' = { s with
      db := { s.db with positions := placed.2.1 }
      recentFixes := placed.2.2 } := by
  simp only [ensureFix, ok_bind, ok_check, ok_get] at h
  obtain ⟨_, _, ⟨hvalid, rfl⟩, _, _, ⟨rfl, rfl⟩, h⟩ := h
  unfold fixPlaced Bound
  cases hrecent : s.recentFixes.find? fun saved => SameFix saved.fix f with
  | some saved =>
    simp only [hrecent, ok_pure] at h
    obtain ⟨rfl, rfl⟩ := h
    refine ⟨hvalid, ?_, rfl, rfl⟩
    intro hnone
    cases hnone
  | none =>
    simp only [hrecent, ok_bind, ok_set, ok_pure, ok_check, execute_ok] at h
    obtain ⟨_, _, ⟨hbind, rfl⟩, _, _, ⟨-, rfl⟩, _, _, rfl, rfl, rfl⟩ := h
    exact ⟨hvalid, fun _ => hbind, rfl, rfl⟩

/-- The reference of an optional position, in the same form. -/
def referencePlaced (positions recent : List (SavedFix K)) (position : Option (PositionFix K)) :
    Option ℕ × List (SavedFix K) × List (SavedFix K) :=
  match position with
  | some f => if f.valid then ((fixPlaced positions recent f).1, (fixPlaced positions recent f).2)
    else (none, positions, recent)
  | none => (none, positions, recent)

theorem fixReference_ok {statement : Statement} {position : Option (PositionFix K)}
    {reference : Option ℕ} (h : fixReference statement position s = .ok reference s') :
    let placed := referencePlaced s.db.positions s.recentFixes position
    (∀ f ∈ position, f.valid = true → Bound s.recentFixes f) ∧ reference = placed.1 ∧ s' = { s with
      db := { s.db with positions := placed.2.1 }
      recentFixes := placed.2.2 } := by
  cases position with
  | none =>
    simp only [fixReference, ok_pure] at h
    exact ⟨fun f hf => absurd hf (by simp), h.1.symm, h.2.symm⟩
  | some f =>
    simp only [fixReference, ok_ite, ok_bind, ok_pure] at h
    simp only [referencePlaced]
    split <;> rename_i hf
    · obtain ⟨id, _, hid, rfl, rfl⟩ := h.1 hf
      obtain ⟨-, hbound, rfl, rfl⟩ := ensureFix_ok hid
      refine ⟨?_, rfl, rfl⟩
      rintro _ ⟨⟩ -
      exact hbound
    · obtain ⟨rfl, rfl⟩ := h.2 hf
      refine ⟨?_, rfl, rfl⟩
      rintro _ ⟨⟩ hvalid
      exact absurd hvalid hf

/-! ## Measurements -/

/-- The checks of `append(SpectrumTile)` before it changes anything. -/
structure TileAccepted [FloorRing K] (s : SessionStore K) (tile : SpectrumTile K) : Prop where
  writable : s.readonly = false
  version : s.schemaVersion = 5 ∨ s.schemaVersion = 6
  valid : validateTile tile s.recordedConfig = .ok ()
  fine : ¬ HasFlag tile.quality powerAggregated
  id : s.schemaVersion = 6 → s.previousTileId < tile.id
  sample : s.previousTileEnd ≤ tile.firstSample
  elapsed : s.previousTileElapsedEnd - 1 / 10 ^ 8 ≤ tile.elapsedStartSeconds

/-- The guards after a tile. -/
def guarded (s : SessionStore K) (tile : SpectrumTile K) : SessionStore K :=
  { s with
    previousTileId := tile.id
    previousTileEnd := tile.endSample
    previousTileElapsedEnd := tile.elapsedEndSeconds }

section

variable [FloorRing K] {tile : SpectrumTile K}

theorem tile_accepted (h : appendTile m tile s = .ok u s') : TileAccepted s tile := by
  simp only [appendTile, ok_bind, ok_get, ok_check, reject_eq_ok, beginBatch_ok] at h
  obtain ⟨_, _, ⟨rfl, rfl⟩, _, _, ⟨h7, rfl⟩, _, _, ⟨hvalid, rfl⟩, _, _, ⟨hfine, rfl⟩, _, _,
    ⟨horder, rfl⟩, _, _, ⟨⟨hwritable, hversion⟩, rfl⟩, -⟩ := h
  rw [not_or, not_or, not_lt, not_lt] at horder
  obtain ⟨hid, hsample, helapsed⟩ := horder
  exact ⟨hwritable, by omega, hvalid, hfine, fun h => by omega, hsample, helapsed⟩

/-- **A compact tile**: its block is saved, its positions are placed, and its row refers to them. -/
theorem tile_ok (hversion : s.schemaVersion = 6) (hclean : s.powerBlock.dirty = false)
    (h : appendTile m tile s = .ok u s') :
    let b := (nextBlock s.powerBlock tile).add m tile
    let first := referencePlaced s.db.positions s.recentFixes tile.receiverStart
    let last := referencePlaced first.2.1 first.2.2 tile.receiverEnd
    let powerBlocks := upsertPower s.db.powerBlocks (savedRow m b)
    TileAccepted s tile ∧ Saveable m b ∧
      ((∀ f ∈ tile.receiverStart, f.valid = true → Bound s.recentFixes f) ∧
        ∀ f ∈ tile.receiverEnd, f.valid = true → Bound first.2.2 f) ∧
      (Joins (last.2.1.map (·.id)) first.1 ∧ Joins (last.2.1.map (·.id)) last.1 ∧
        tile.id ∉ s.db.tiles.map (·.id)) ∧
      s' = guarded { s.batch with
        db := { s.db with
          powerBlocks
          positions := last.2.1
          tiles := s.db.tiles ++ [tileRow tile (.compact b.id first.1 last.1)] }
        powerBlock := { b with dirty := false }
        recentFixes := last.2.2 } tile := by
  refine ⟨tile_accepted h, ?_⟩
  simp only [appendTile, ok_bind, ok_get, ok_check, reject_eq_ok, beginBatch_ok] at h
  obtain ⟨_, _, ⟨rfl, rfl⟩, _, _, ⟨-, rfl⟩, _, _, ⟨-, rfl⟩, _, _, ⟨-, rfl⟩, _, _, ⟨-, rfl⟩, _, _,
    ⟨-, rfl⟩, h⟩ := h
  rw [if_pos (by omega)] at h
  simp only [ok_bind, ok_get, ok_check, constraint_ok, write_ok, ok_modify, execute_ok] at h
  obtain ⟨_, _, hblock, _, _, ⟨rfl, rfl⟩, _, _, hstart, _, _, hend, _, _, ⟨-, rfl⟩, _, _,
    ⟨-, rfl⟩, _, _, ⟨rfl, rfl⟩, _, _, ⟨hjoins, rfl⟩, _, _, rfl, hguards⟩ := h
  obtain ⟨hsaveable, rfl⟩ := advanceBlock_ok (by rw [batch_powerBlock]; exact hclean) hblock
  obtain ⟨hbound, rfl, rfl⟩ := fixReference_ok hstart
  obtain ⟨hbound', rfl, rfl⟩ := fixReference_ok hend
  simp only [batch_powerBlock, batch_db, batch_recentFixes] at hsaveable hjoins hguards hbound hbound' ⊢
  simp only [not_or, not_not] at hjoins
  exact ⟨hsaveable, ⟨hbound, hbound'⟩, hjoins.2, hguards.symm⟩

/-- A detailed tile: its levels and its positions are in its row. -/
theorem tile_detailed_ok (hversion : s.schemaVersion = 5) (h : appendTile m tile s = .ok u s') :
    ∃ receiverStart receiverEnd, TileAccepted s tile ∧
      fixValues tile.receiverStart = .ok receiverStart ∧
      fixValues tile.receiverEnd = .ok receiverEnd ∧ bindFix receiverStart = .ok () ∧
      bindFix receiverEnd = .ok () ∧ tile.id ∉ s.db.tiles.map (·.id) ∧
      s' = guarded { s.batch with
        db := { s.db with
          tiles := s.db.tiles ++ [tileRow tile (.detailed (levelBytes tile.meanDbfs)
            (levelBytes tile.peakDbfs) receiverStart receiverEnd)] } } tile := by
  have haccepted := tile_accepted h
  simp only [appendTile, ok_bind, ok_get, ok_check, reject_eq_ok, beginBatch_ok] at h
  obtain ⟨_, _, ⟨rfl, rfl⟩, _, _, ⟨-, rfl⟩, _, _, ⟨-, rfl⟩, _, _, ⟨-, rfl⟩, _, _, ⟨-, rfl⟩, _, _,
    ⟨-, rfl⟩, h⟩ := h
  rw [if_neg (by omega)] at h
  simp only [ok_bind, ok_get, ok_check, constraint_ok, write_ok, ok_modify, execute_ok,
    quantize_eq_ok] at h
  obtain ⟨_, _, ⟨⟨-, rfl⟩, rfl⟩, _, _, ⟨⟨-, rfl⟩, rfl⟩, start, _, ⟨hstart, rfl⟩, stop, _,
    ⟨hend, rfl⟩, _, _, ⟨-, rfl⟩, _, _, ⟨-, rfl⟩, _, _, ⟨-, rfl⟩, _, _, ⟨hbound, rfl⟩, _, _,
    ⟨hbound', rfl⟩, _, _, ⟨-, rfl⟩, _, _, ⟨rfl, rfl⟩, _, _, ⟨hid, rfl⟩, _, _, rfl, hguards⟩ := h
  rw [batch_db] at hid hguards
  exact ⟨start, stop, haccepted, hstart, hend, hbound, hbound', hid, hguards.symm⟩

/-- A gap closes the power block and keeps its identifier. -/
theorem gap_ok {gap : CoverageGap K} (hclean : s.powerBlock.dirty = false)
    (h : appendGap m gap s = .ok u s') :
    s.schemaVersion ≠ 7 ∧ s' = { s.batch with
      db := { s.db with gaps := s.db.gaps ++ [gap] }
      powerBlock := if s.schemaVersion ≥ 6 then PowerBlock.empty s.powerBlock.id
        else s.powerBlock } := by
  simp only [appendGap, ok_bind, ok_get, ok_check, reject_eq_ok, beginBatch_ok, ok_ite, resetBlock,
    ok_modify, constraint_ok, write_ok, execute_ok] at h
  obtain ⟨_, _, ⟨rfl, rfl⟩, _, _, ⟨h7, rfl⟩, _, _, ⟨-, rfl⟩, _, _, ⟨-, rfl⟩, hcompact, hdetailed⟩ := h
  refine ⟨h7, ?_⟩
  split <;> rename_i hversion
  · obtain ⟨_, _, hsave, _, _, rfl, _, _, ⟨-, rfl⟩, _, _, ⟨-, rfl⟩, rfl⟩ := hcompact hversion
    rw [← (savePowerBlock_clean (by rw [batch_powerBlock]; exact hclean)).mp hsave]
    simp only [batch_db, batch_powerBlock]
  · obtain ⟨_, _, ⟨-, rfl⟩, _, _, ⟨-, rfl⟩, rfl⟩ := hdetailed hversion
    simp only [batch_db, batch_powerBlock]

end

theorem event_ok {event : SpectrumEvent K} (h : appendEvent event s = .ok u s') :
    ∃ events, s' = { s.batch with db := { s.db with events } } := by
  simp only [appendEvent, ok_bind, ok_get, ok_check, beginBatch_ok, constraint_ok, write_ok,
    execute_ok] at h
  obtain ⟨_, _, ⟨rfl, rfl⟩, _, _, ⟨-, rfl⟩, _, _, ⟨-, rfl⟩, _, _, ⟨-, rfl⟩, _, _, ⟨-, rfl⟩, _, _,
    ⟨-, rfl⟩, _, _, ⟨-, rfl⟩, _, _, ⟨-, rfl⟩, _, _, ⟨-, rfl⟩, _, _, ⟨-, rfl⟩, rfl⟩ := h
  rw [batch_db]
  exact ⟨_, rfl⟩

/-- A position is placed, or it is not valid and nothing happens. -/
theorem fix_ok {f : PositionFix K} (hversion : s.schemaVersion ≠ 5)
    (h : appendFix f s = .ok u s') : f.valid = false ∧ s' = s ∨ f.valid = true ∧
      validateFix f = .ok () ∧ Bound s.recentFixes f ∧
      let placed := fixPlaced s.db.positions s.recentFixes f
      s' = { s.batch with
        db := { s.db with positions := placed.2.1 }
        recentFixes := placed.2.2 } := by
  simp only [appendFix, ok_ite, ok_bind, ok_check, ok_get, beginBatch_ok, ok_pure, execute_ok] at h
  cases hvalid : f.valid with
  | false =>
    exact .inl ⟨rfl, (h.2 (by simp [hvalid])).2.symm⟩
  | true =>
    refine .inr ⟨rfl, ?_⟩
    obtain ⟨_, _, ⟨hvalidFix, rfl⟩, _, _, ⟨⟨-, hversions⟩, rfl⟩, _, _, ⟨rfl, rfl⟩, hcompact, -⟩ :=
      h.1 hvalid
    obtain ⟨_, _, hfix, -, rfl⟩ := hcompact (by rw [batch_schemaVersion]; omega)
    obtain ⟨-, hbound, -, rfl⟩ := ensureFix_ok hfix
    simp only [batch_db, batch_recentFixes] at hbound ⊢
    exact ⟨hvalidFix, hbound, trivial⟩

/-- A position of a detailed recording gets a row of its own. -/
theorem fix_detailed_ok {f : PositionFix K} (hversion : s.schemaVersion = 5)
    (h : appendFix f s = .ok u s') : f.valid = false ∧ s' = s ∨ f.valid = true ∧
      validateFix f = .ok () ∧ bindText f.source = .ok () ∧ s' = { s.batch with
        db := { s.db with
          positions := s.db.positions ++ [⟨f, nextRowid (s.db.positions.map (·.id))⟩] } } := by
  simp only [appendFix, ok_ite, ok_bind, ok_check, ok_get, beginBatch_ok, ok_pure, execute_ok] at h
  cases hvalid : f.valid with
  | false =>
    exact .inl ⟨rfl, (h.2 (by simp [hvalid])).2.symm⟩
  | true =>
    refine .inr ⟨rfl, ?_⟩
    obtain ⟨_, _, ⟨hfix, rfl⟩, _, _, ⟨-, rfl⟩, _, _, ⟨rfl, rfl⟩, -, hdetailed⟩ := h.1 hvalid
    obtain ⟨_, _, ⟨hbind, rfl⟩, _, _, ⟨-, rfl⟩, hwrite⟩ :=
      hdetailed (by rw [batch_schemaVersion]; omega)
    rw [← write_ok.mp hwrite, batch_db]
    exact ⟨hfix, hbind, rfl⟩

/-- What a scan leaves of the positions, with its reference. -/
def scanPlaced (positions recent : List (SavedFix K)) (position : Option (PositionFix K)) :
    Option ℕ × List (SavedFix K) × List (SavedFix K) :=
  match position with
  | some f => ((fixPlaced positions recent f).1, (fixPlaced positions recent f).2)
  | none => (none, positions, recent)

theorem scanReference_ok {position : Option (PositionFix K)} {reference : Option ℕ}
    (h : scanReference position s = .ok reference s') :
    let placed := scanPlaced s.db.positions s.recentFixes position
    (∀ f ∈ position, Bound s.recentFixes f) ∧ reference = placed.1 ∧ s' = { s with
      db := { s.db with positions := placed.2.1 }
      recentFixes := placed.2.2 } := by
  cases position with
  | none =>
    simp only [scanReference, ok_pure] at h
    exact ⟨fun f hf => absurd hf (by simp), h.1.symm, h.2.symm⟩
  | some f =>
    simp only [scanReference, ok_bind, ok_pure] at h
    obtain ⟨_, _, hfix, rfl, rfl⟩ := h
    obtain ⟨-, hbound, rfl, rfl⟩ := ensureFix_ok hfix
    refine ⟨?_, rfl, rfl⟩
    rintro _ ⟨⟩
    exact hbound

/-- A scan refers to its position. -/
theorem scan_ok {scan : ConcentratorScan K} (h : appendScan scan s = .ok u s') :
    let placed := scanPlaced s.db.positions s.recentFixes scan.receiverPosition
    s.schemaVersion = 7 ∧ validateConcentratorScan scan s.recordedConfig = .ok () ∧
      (∀ f ∈ scan.receiverPosition, Bound s.recentFixes f) ∧
      Joins (placed.2.1.map (·.id)) placed.1 ∧ s' = { s.batch with
        db := { s.db with
          positions := placed.2.1
          scans := s.db.scans ++ [scanRow scan placed.1] }
        recentFixes := placed.2.2 } := by
  simp only [appendScan, ok_bind, ok_get, ok_check, reject_eq_ok, beginBatch_ok, constraint_ok,
    write_ok, execute_ok] at h
  obtain ⟨_, _, ⟨rfl, rfl⟩, _, _, ⟨hversion, rfl⟩, _, _, ⟨hvalid, rfl⟩, _, _, ⟨-, rfl⟩, _, _,
    ⟨-, rfl⟩, _, _, ⟨-, rfl⟩, _, _, hplace, _, _, ⟨-, rfl⟩, _, _, ⟨rfl, rfl⟩, _, _, ⟨hjoins, rfl⟩,
    rfl⟩ := h
  obtain ⟨hbound, rfl, rfl⟩ := scanReference_ok hplace
  simp only [not_or, not_not, batch_db, batch_recentFixes] at hversion hjoins hbound ⊢
  exact ⟨hversion, hvalid, hbound, hjoins.2.2, trivial⟩

/-! ## Acquisitions and checkpoints -/

omit [Field K] [LinearOrder K] in
theorem enable_ok (h : enableAcquisitions s = .ok u s') :
    s.acquisitionExtension = true ∧ s' = s ∨ s.acquisitionExtension = false ∧ s.db.tiles = [] ∧
      s' = { s.batch with
        db := { s.db with segmented := true, frequencies := [] }
        pending := false
        acquisitionExtension := true } := by
  simp only [enableAcquisitions, ok_bind, ok_get, ok_check, reject_eq_ok, ok_ite, beginBatch_ok,
    ok_modify, ok_pure] at h
  obtain ⟨_, _, ⟨rfl, rfl⟩, _, _, ⟨-, rfl⟩, hnew, hold⟩ := h
  cases hext : s.acquisitionExtension with
  | true => exact .inl ⟨rfl, (hold (by simp [hext])).2.symm⟩
  | false =>
    obtain ⟨_, _, ⟨htiles, rfl⟩, _, _, ⟨-, rfl⟩, rfl⟩ := hnew hext
    rw [not_not] at htiles
    exact .inr ⟨rfl, htiles, by rw [batch_db]⟩

/-- The rows of the lanes of an acquisition, from an index on. -/
def laneRows (id : ℕ) (lanes : List (LaneConfig × ℕ)) : List (ℕ × ℕ × LaneConfig) :=
  lanes.map fun l => (id, l.2, l.1)

omit [Field K] [LinearOrder K] in
theorem lanes_ok {id : ℕ} {lanes : List (LaneConfig × ℕ)}
    (h : (forM lanes fun (l, i) => do
      forM [l.label, l.channelName, l.protocol] fun text => check (bindText text)
      constraint ((id, i) ∈ (← get).db.segmentLanes.map fun row => (row.1, row.2.1))
      write fun db => { db with segmentLanes := db.segmentLanes ++ [(id, i, l)] } :
        Method K Unit) s = .ok u s') :
    s' = { s with
      db := { s.db with segmentLanes := s.db.segmentLanes ++ laneRows id lanes } } := by
  induction lanes generalizing s with
  | nil =>
    rw [List.forM_nil, ok_pure] at h
    rw [← h.2]
    simp [laneRows]
  | cons l lanes ih =>
    simp only [List.forM_cons, List.forM_nil, ok_bind, ok_check, ok_pure, ok_get, constraint_ok,
      write_ok] at h
    obtain ⟨_, _, ⟨_, _, ⟨_, _, ⟨-, rfl⟩, _, _, ⟨-, rfl⟩, _, _, ⟨-, rfl⟩, -, rfl⟩, _, _, ⟨rfl, rfl⟩,
      _, _, ⟨-, rfl⟩, rfl⟩, h⟩ := h
    rw [ih h]
    simp [laneRows]

/-- **A new acquisition** closes the power block and commits its row, its lanes and its decoder. -/
theorem begin_ok [FloorRing K] {segment : AcquisitionSegment K}
    (hclean : s.powerBlock.dirty = false) (h : beginAcquisition m segment s = .ok u s') :
    let c := segment.config
    let decoder : AutomaticDecoderStatus := { available := true, enabled := c.automaticDecode }
    ∃ threshold, c.activityThresholdDbfs = some threshold ∧ checkAcquisition s segment = .ok () ∧
      (segment.id ∉ s.db.segments.map (·.id)) ∧ s' = { s.batch with
        db := { s.db with
          segments := s.db.segments ++ [segmentRow segment threshold]
          segmentLanes := s.db.segmentLanes ++ laneRows segment.id c.lanes.zipIdx
          automaticDecoder := (s.db.automaticDecoder.filter (·.1 ≠ 0)).filter (·.1 ≠ segment.id) ++
            [(segment.id, decoder)]
          session := { s.db.session with
            complete := false
            elapsed := max s.db.session.elapsed segment.elapsedEnd }
          discovery := { enabled := c.discoverLora } }
        powerBlock := PowerBlock.empty s.powerBlock.id
        recordedConfig := c
        acquisitionId := segment.id
        pending := false } := by
  simp only [beginAcquisition, ok_bind, ok_get, ok_check, beginBatch_ok, resetBlock, ok_modify] at h
  obtain ⟨_, _, ⟨rfl, rfl⟩, _, _, ⟨hchecks, rfl⟩, _, _, ⟨-, rfl⟩, _, _, hsave, _, _, rfl, _, _,
    ⟨rfl, rfl⟩, h⟩ := h
  rw [savePowerBlock_clean (by rw [batch_powerBlock]; exact hclean)] at hsave
  subst hsave
  cases hthreshold : segment.config.activityThresholdDbfs with
  | none => simp only [hthreshold, ok_throw] at h
  | some threshold =>
    simp only [hthreshold, ok_bind, List.forM_cons, List.forM_nil, ok_check, ok_pure, write_ok,
      constraint_ok, ok_modify, saveAutomatic, bind_eq_ok, pure_eq_ok] at h
    obtain ⟨_, _, ⟨hid, rfl⟩, _, _, ⟨_, _, ⟨-, rfl⟩, _, _, ⟨-, rfl⟩, _, _, ⟨-, rfl⟩, -, rfl⟩, _, _,
      rfl, _, _, hlanes, _, _, ⟨⟨_, -, rfl⟩, rfl⟩, _, _, rfl, _, _, rfl, _, _, rfl, rfl⟩ := h
    rw [lanes_ok hlanes]
    simp only [batch_db, batch_powerBlock] at hid ⊢
    exact ⟨threshold, hthreshold, hchecks, hid, rfl⟩

/-- What a checkpoint leaves of the tables: every table of measurements is as before. -/
theorem updateRows_ok {snapshot : Snapshot K} {final : Bool} {fault : Option String}
    {db : Database K} (h : updateRows s snapshot final fault = .ok db) :
    let segments := if s.acquisitionExtension = true ∧ s.acquisitionId ≠ 0 then
        s.db.segments.map fun row => if row.id = s.acquisitionId then
          { row with elapsedEnd := snapshot.elapsedSeconds, finalized := final } else row
      else s.db.segments
    validateAutomatic snapshot.automaticDecoder = .ok () ∧
      ∃ session concentratorHealth frequencies laneHealth discovery coverage, db = { s.db with
        session, concentratorHealth, frequencies, laneHealth, discovery, coverage, segments
        automaticDecoder := s.db.automaticDecoder.filter (·.1 ≠ s.acquisitionId) ++
          [(s.acquisitionId, snapshot.automaticDecoder)] } := by
  simp only [updateRows, saveAutomatic, bind_eq_ok, pure_eq_ok] at h
  obtain ⟨_, -, _, -, _, ⟨_, hdecoder, rfl⟩, _, -, _, -, h⟩ := h
  cases fault with
  | some message => cases h
  | none =>
    cases h
    exact ⟨hdecoder, _, _, _, _, _, _, rfl⟩

/-- A checkpoint commits. -/
theorem update_ok {snapshot : Snapshot K} {final : Bool} {fault : Option String}
    (h : update snapshot final fault s = .ok u s') :
    ∃ db, checkUpdate s snapshot = .ok () ∧ updateRows s.batch snapshot final fault = .ok db ∧
      s' = { s.batch with db, pending := false } := by
  simp only [update, ok_bind, ok_get, ok_check, beginBatch_ok] at h
  obtain ⟨_, _, ⟨rfl, rfl⟩, _, _, ⟨hcheck, rfl⟩, _, _, ⟨-, rfl⟩, _, _, ⟨rfl, rfl⟩, h⟩ := h
  cases hrows : updateRows s.batch snapshot final fault with
  | error e => simp only [hrows, ok_bind, ok_throw, exists_false, and_false] at h
  | ok db =>
    simp only [hrows, ok_set] at h
    exact ⟨db, hcheck, rfl, h.symm⟩

/-! ## New recordings -/

/-- The tables of a new recording. -/
def newDatabase (c : ReceiverConfig K) (id : Text) (threshold : K) : Database K where
  session := {
    id, threshold
    title := c.sessionTitle
    synthetic := if c.Rak then 3 else if c.Rtl then 2 else if c.synthetic then 1 else 0
    center := c.centerHz, sampleRate := c.sampleRate, span := c.surveySpanHz
    lna := c.lnaGain, vga := c.vgaGain, amp := c.amplifier
    elapsed := 0, inputSeconds := 0, measurementSeconds := 0
    tuningOffsetHz := c.tuningOffsetHz, discoverLora := c.discoverLora }
  provenance := (c.antennaDescription, c.receiverDescription, c.surveyNotes)
  receiverSetup := if c.Rtl then some (c.rtlGainTenthsDb, c.rtlAutoGain) else none
  concentratorSetup := if c.Rak then some c.concentrators else none
  lanes := c.lanes
  segmented := false
  segments := []
  segmentLanes := []
  automaticDecoder := [(0, { available := true, enabled := c.automaticDecode })]
  frequencies := []
  laneHealth := []
  concentratorHealth := []
  discovery := { enabled := c.discoverLora }
  coverage := []
  positions := []
  powerBlocks := []
  tiles := []
  events := []
  gaps := []
  scans := []

omit [LinearOrder K] in
/-- **A new recording** is empty, and its caches are empty. -/
theorem create_ok {c : ReceiverConfig K} {id : Text} (h : create c id = .ok s) :
    ∃ threshold, c.activityThresholdDbfs = some threshold ∧ checkConfig c = .ok () ∧ s = {
      db := newDatabase c id threshold
      committed := newDatabase c id threshold
      schemaVersion := if c.Rak then 7 else if c.compactRecording then 6 else 5
      readonly := false
      pending := false
      recordedConfig := c
      acquisitionExtension := false
      acquisitionId := 0
      previousTileEnd := 0
      previousTileId := 0
      previousTileElapsedEnd := 0
      powerBlock := PowerBlock.empty 0
      recentFixes := []
      refused := none } := by
  simp only [create, bind_eq_ok] at h
  obtain ⟨_, hconfig, _, -, _, -, _, -, _, -, h⟩ := h
  cases hthreshold : c.activityThresholdDbfs with
  | none =>
    simp only [hthreshold] at h
    cases h
  | some threshold =>
    simp only [hthreshold, saveAutomatic, bind_eq_ok, pure_eq_ok] at h
    obtain ⟨_, ⟨_, -, rfl⟩, rfl⟩ := h
    exact ⟨threshold, rfl, hconfig, rfl⟩

omit [LinearOrder K] in
theorem create_version {c : ReceiverConfig K} {id : Text} (h : create c id = .ok s) :
    s.schemaVersion = 5 ∨ s.schemaVersion = 6 ∨ s.schemaVersion = 7 := by
  obtain ⟨threshold, -, -, rfl⟩ := create_ok h
  simp only
  split
  · exact .inr (.inr rfl)
  · split
    · exact .inr (.inl rfl)
    · exact .inl rfl

end SessionStore

end OVMesh
