import OVMesh.Store.Failures
import OVMesh.Store.ReadBack

/-!
# Caches and rollbacks

`SessionStore` keeps the newest positions, the open power block and the coordinates of the last tile
in memory. A checkpoint that fails rolls the tables back and leaves these as they are.

* `Consistent`: the caches agree with the tables.
* `Settled`: a rollback undoes no tile, no power block and no position.
* `caches_consistent`: the caches agree through every run whose rollbacks are settled.
-/

namespace OVMesh

namespace SessionStore

open Checked Keyed Stateful
open SpectrumProcessor (Libm)

variable {K : Type} [Field K] [LinearOrder K]

/-! ## Consistency -/

/-- The row of a tile holds its positions, or it names rows that hold them. -/
def TileSaved (positions : List (SavedFix K)) (t : SpectrumTile K) (row : SpectrumRow K) : Prop :=
  ∃ power, row = tileRow t power ∧ match power with
    | .detailed _ _ receiverStart receiverEnd =>
      receiverStart = validFix t.receiverStart ∧ receiverEnd = validFix t.receiverEnd
    | .compact _ startFix endFix => Refers positions (validFix t.receiverStart) startFix ∧
      Refers positions (validFix t.receiverEnd) endFix

/-- The row of a scan names a row that holds its position. -/
def ScanSaved (positions : List (SavedFix K)) (scan : ConcentratorScan K) (row : ScanRow K) : Prop :=
  ∃ reference, row = scanRow scan reference ∧ Refers positions scan.receiverPosition reference

/-- The guards describe the last tile. -/
structure Newest (tiles : List (SpectrumTile K)) (s : SessionStore K) : Prop where
  none : tiles = [] → s.previousTileId = 0 ∧ s.previousTileEnd = 0 ∧ s.previousTileElapsedEnd = 0
  last : ∀ t ∈ tiles.getLast?, s.previousTileId = t.id ∧ s.previousTileEnd = t.endSample ∧
    s.previousTileElapsedEnd = t.elapsedEndSeconds

variable [FloorRing K]

/-- The caches agree with the tables, after the calls that returned. -/
structure Consistent (m : Libm K) (calls : List (Call K)) (s : SessionStore K) : Prop where
  unique : (s.db.positions.map (·.id)).Nodup
  recent : ∀ e ∈ s.recentFixes, e ∈ s.db.positions
  tiles : List.Forall₂ (TileSaved s.db.positions) (tilesOf calls) s.db.tiles
  scans : ∀ row ∈ s.db.scans, ∃ scan, .scan scan ∈ calls ∧ ScanSaved s.db.positions scan row
  blocks : s.schemaVersion = 6 → ∃ blocks, PowerCover m calls s.db blocks
  openBlock : s.schemaVersion = 6 → s.powerBlock.frames ≠ 0 →
    ∃ row ∈ s.db.powerBlocks.getLast?, row = savedRow m s.powerBlock
  newest : Newest (tilesOf calls) s

/-- A rollback undoes no tile, no power block and no position. -/
structure Settled (s : SessionStore K) : Prop where
  tiles : s.pending = true → s.db.tiles = s.committed.tiles
  powerBlocks : s.pending = true → s.db.powerBlocks = s.committed.powerBlocks
  positions : s.pending = true → s.db.positions = s.committed.positions

/-- A checkpoint that passes its checks and fails inside its transaction. -/
def RollsBack (s : SessionStore K) : Call K → Prop
  | .update snapshot final fault =>
    checkUpdate s snapshot = .ok () ∧ isOk (update snapshot final fault s) = false
  | _ => False

/-- A tile that fails after its power block took it. -/
def Stranded (s : SessionStore K) : Call K → Prop
  | .tile t => Strands s t
  | _ => False

/-- Every rollback of a run of calls is settled, and no tile of it is stranded. -/
def SettledRun (m : Libm K) : SessionStore K → List (Call K) → Prop
  | _, [] => True
  | s, call :: rest =>
    ((RollsBack s call → Settled s) ∧ ¬ Stranded s call) ∧
      SettledRun m (finalState (perform m call s)) rest

/-- The row that a call appends names a row that holds the position it was given. -/
def Referenced (s : SessionStore K) : Call K → Prop
  | .tile t => ∃ row ∈ s.db.tiles.getLast?, TileSaved s.db.positions t row
  | .scan scan => ∃ row ∈ s.db.scans.getLast?, ScanSaved s.db.positions scan row
  | _ => True

/-! ## Levels of a power block -/

variable [IsStrictOrderedRing K] {m : Libm K} {calls : List (Call K)} {s s' : SessionStore K}
  {blocks : List (List (SpectrumTile K))} {t : SpectrumTile K} {c : ReceiverConfig K}

omit [FloorRing K] in
/-- A weighted mean lies between the bounds of its terms. -/
theorem weightedMean_mem {α : Type} {l : List α} {x : α → K} {w : α → ℕ} {low high : K}
    (hne : l ≠ []) (hbounds : ∀ a ∈ l, low ≤ x a ∧ x a ≤ high ∧ 0 < w a) :
    low ≤ (l.map fun a => x a * (w a : K)).sum / ((l.map w).sum : ℕ) ∧
      (l.map fun a => x a * (w a : K)).sum / ((l.map w).sum : ℕ) ≤ high := by
  have hsums : low * ((l.map w).sum : ℕ) ≤ (l.map fun a => x a * (w a : K)).sum ∧
      (l.map fun a => x a * (w a : K)).sum ≤ high * ((l.map w).sum : ℕ) := by
    clear hne
    induction l with
    | nil => simp
    | cons a l ih =>
      obtain ⟨⟨hlow, hhigh, -⟩, hl⟩ := List.forall_mem_cons.mp hbounds
      obtain ⟨ih₁, ih₂⟩ := ih hl
      have hweight : (0 : K) ≤ w a := Nat.cast_nonneg _
      have h₁ := mul_le_mul_of_nonneg_right hlow hweight
      have h₂ := mul_le_mul_of_nonneg_right hhigh hweight
      simp only [List.map_cons, List.sum_cons, Nat.cast_add, mul_add]
      exact ⟨add_le_add h₁ ih₁, add_le_add h₂ ih₂⟩
  have hpos : (0 : K) < ((l.map w).sum : ℕ) := by
    obtain ⟨a, rest, rfl⟩ := List.exists_cons_of_ne_nil hne
    have := (hbounds a List.mem_cons_self).2.2
    rw [List.map_cons, List.sum_cons, Nat.cast_pos]
    omega
  exact ⟨(le_div_iff₀ hpos).mpr hsums.1, (div_le_iff₀ hpos).mpr hsums.2⟩

omit [FloorRing K] in
/-- The level of a power between two powers of ten. -/
theorem decibels_mem (hm : m.Decibels) {low high : ℤ} {power : K}
    (h : m.pow10 low ≤ power ∧ power ≤ m.pow10 high) :
    (low : K) * 10 ≤ 10 * m.log10 power ∧ 10 * m.log10 power ≤ high * 10 := by
  have h₁ := hm.log10_mono _ _ (hm.pow10_pos low) h.1
  have h₂ := hm.log10_mono _ _ (lt_of_lt_of_le (hm.pow10_pos low) h.1) h.2
  rw [hm.log10_pow10] at h₁ h₂
  constructor <;> linarith

/-- The levels of a block of valid tiles can be saved. -/
theorem saveable_block (hm : m.Decibels) {block : List (SpectrumTile K)} (hne : block ≠ [])
    {id : ℕ} (hagg : Aggregates m block (blockOf m id block))
    (hvalid : ∀ t ∈ block, ∃ c, ValidTile t c) : Saveable m (blockOf m id block) := by
  have hlevels : ∀ t ∈ block, ∀ i < t.meanDbfs.length,
      (-300 ≤ t.meanDbfs.getD i 0 ∧ t.meanDbfs.getD i 0 ≤ 100) ∧
      -300 ≤ t.peakDbfs.getD i 0 ∧ t.peakDbfs.getD i 0 ≤ 100 := fun t ht i hi => by
    obtain ⟨c, hvalid⟩ := hvalid t ht
    have hi' : i < t.peakDbfs.length := by rwa [hvalid.dimensions.peaks]
    rw [List.getD_eq_getElem _ _ hi, List.getD_eq_getElem _ _ hi']
    exact ⟨(levels_mem hvalid).1 _ (List.getElem_mem hi),
      (levels_mem hvalid).2 _ (List.getElem_mem hi')⟩
  constructor
  · intro v hv
    obtain ⟨sum, hsum, rfl⟩ := List.mem_map.mp hv
    -- The limits are integers, and rounding to a float keeps them.
    suffices hdecibels : ((-300 : ℤ) : K) ≤ 10 * m.log10 (sum / (blockOf m id block).frames) ∧
        10 * m.log10 (sum / (blockOf m id block).frames) ≤ ((100 : ℤ) : K) by
      have hlow := Binary32.intCast_le_nearest (by norm_num) hdecibels.1
      have hhigh := Binary32.nearest_le_intCast (by norm_num) hdecibels.2
      push_cast at hlow hhigh
      exact ⟨hlow, hhigh⟩
    obtain ⟨i, hi, rfl⟩ := List.getElem_of_mem hsum
    rw [← List.getD_eq_getElem _ 0 hi, hagg.power i hi, hagg.frames]
    have hbounds : ∀ t ∈ block, m.pow10 ((-30 : ℤ) : K) ≤ m.pow10 (t.meanDbfs.getD i 0 / 10) ∧
        m.pow10 (t.meanDbfs.getD i 0 / 10) ≤ m.pow10 ((10 : ℤ) : K) ∧ 0 < t.frameCount :=
      fun t ht => by
        obtain ⟨-, -, hsums, -⟩ := hagg.grid t ht
        obtain ⟨⟨hlow, hhigh⟩, -⟩ := hlevels t ht i (by rwa [← hsums])
        obtain ⟨c, hc⟩ := hvalid t ht
        refine ⟨hm.pow10_mono _ _ ?_, hm.pow10_mono _ _ ?_, hc.dimensions.frames_pos⟩
        · push_cast
          linarith
        · push_cast
          linarith
    have hmem := decibels_mem hm (weightedMean_mem hne hbounds)
    simp only [Int.cast_neg, Int.cast_ofNat] at hmem ⊢
    constructor
    · linarith [hmem.1]
    · linarith [hmem.2]
  · intro v hv
    obtain ⟨i, hi, rfl⟩ := List.getElem_of_mem hv
    obtain ⟨⟨t, ht, hpeak⟩, -⟩ := hagg.peak i hi
    obtain ⟨-, -, -, hpeaks⟩ := hagg.grid t ht
    rw [← List.getD_eq_getElem _ 0 hi, ← hpeak]
    exact (hlevels t ht i (by rwa [← hpeaks])).2

/-! ## The invariant -/

/-- The store after some calls that returned, and any number that threw. -/
structure Cached (m : Libm K) (calls : List (Call K)) (s : SessionStore K) : Prop where
  version : s.schemaVersion = 5 ∨ s.schemaVersion = 6 ∨ s.schemaVersion = 7
  clean : s.powerBlock.dirty = false
  fixes : SavedFixes s.db.positions s.recentFixes
  tiles : List.Forall₂ (TileSaved s.db.positions) (tilesOf calls) s.db.tiles
  scans : ∀ row ∈ s.db.scans, ∃ scan, .scan scan ∈ calls ∧ ScanSaved s.db.positions scan row
  blocks : s.schemaVersion = 6 → ∃ blocks, Covered m calls s blocks
  newest : Newest (tilesOf calls) s
  ids : s.schemaVersion = 6 → ∀ id ∈ s.db.tiles.map (·.id), id ≤ s.previousTileId
  /-- What a rollback would leave of the scans. -/
  committed : s.pending = true → s.committed.scans ⊆ s.db.scans

/-- What a call that appends neither a tile nor a scan leaves. -/
structure Kept (s s' : SessionStore K) : Prop where
  unmeasured : Unmeasured s s'
  positions : s.db.positions ⊆ s'.db.positions
  fixes : SavedFixes s.db.positions s.recentFixes → SavedFixes s'.db.positions s'.recentFixes
  scans : s'.db.scans = s.db.scans
  committed : s'.pending = true → s'.committed = s.batch.committed

omit [Field K] [LinearOrder K] [FloorRing K] [IsStrictOrderedRing K] in
theorem TileSaved.mono {positions positions' : List (SavedFix K)} (hsub : positions ⊆ positions')
    {row : SpectrumRow K} (h : TileSaved positions t row) : TileSaved positions' t row := by
  obtain ⟨power, hrow, hpower⟩ := h
  refine ⟨power, hrow, ?_⟩
  cases power with
  | detailed meanCdb peakCdb receiverStart receiverEnd => exact hpower
  | compact id startFix endFix => exact ⟨hpower.1.mono hsub, hpower.2.mono hsub⟩

omit [Field K] [LinearOrder K] [FloorRing K] [IsStrictOrderedRing K] in
theorem ScanSaved.mono {positions positions' : List (SavedFix K)} (hsub : positions ⊆ positions')
    {scan : ConcentratorScan K} {row : ScanRow K} (h : ScanSaved positions scan row) :
    ScanSaved positions' scan row := by
  obtain ⟨reference, hrow, hrefers⟩ := h
  exact ⟨reference, hrow, hrefers.mono hsub⟩

omit [Field K] [LinearOrder K] [FloorRing K] [IsStrictOrderedRing K] in
/-- A transaction that begins keeps what a rollback would leave of the scans. -/
theorem batch_committed_scans (h : s.pending = true → s.committed.scans ⊆ s.db.scans) :
    s.batch.committed.scans ⊆ s.db.scans := by
  rw [batch_committed]
  split <;> rename_i hpending
  · exact fun _ hx => hx
  · exact h (eq_true_of_ne_false hpending)

omit [IsStrictOrderedRing K] in
theorem cached_kept (h : Cached m calls s) (hs : Kept s s') : Cached m calls s' := by
  have hu := hs.unmeasured
  refine ⟨by rw [hu.version]; exact h.version, ?_, hs.fixes h.fixes, ?_, ?_, ?_, ?_, ?_, ?_⟩
  · rcases hu.powerBlock with heq | heq
    · rw [heq, h.clean]
    · rw [heq]
      rfl
  · rw [hu.tiles]
    exact h.tiles.imp fun _ _ hrow => hrow.mono hs.positions
  · rw [hs.scans]
    intro row hrow
    obtain ⟨scan, hscan, hsaved⟩ := h.scans row hrow
    exact ⟨scan, hscan, hsaved.mono hs.positions⟩
  · rw [hu.version]
    intro h6
    obtain ⟨blocks, hcovered⟩ := h.blocks h6
    exact ⟨blocks, covered_unmeasured hcovered hu⟩
  · refine ⟨?_, ?_⟩
    · rw [hu.previousTileId, hu.previousTileEnd, hu.previousTileElapsedEnd]
      exact h.newest.none
    · rw [hu.previousTileId, hu.previousTileEnd, hu.previousTileElapsedEnd]
      exact h.newest.last
  · rw [hu.version, hu.tiles, hu.previousTileId]
    exact h.ids
  · intro hpending
    rw [hs.scans, hs.committed hpending]
    exact batch_committed_scans h.committed

omit [IsStrictOrderedRing K] in
theorem cached_call {call : Call K} (h : Cached m calls s) (hcall : tilesOf [call] = [])
    (hclosed : s.schemaVersion = 6 → Delimits call → s.powerBlock.frames = 0) :
    Cached m (calls ++ [call]) s := by
  have htiles : tilesOf (calls ++ [call]) = tilesOf calls := by
    rw [tilesOf_append, hcall, List.append_nil]
  refine ⟨h.version, h.clean, h.fixes, by rw [htiles]; exact h.tiles, ?_, ?_,
    by rw [htiles]; exact h.newest, h.ids, h.committed⟩
  · intro row hrow
    obtain ⟨scan, hscan, hsaved⟩ := h.scans row hrow
    exact ⟨scan, List.mem_append_left _ hscan, hsaved⟩
  · intro h6
    obtain ⟨blocks, hcovered⟩ := h.blocks h6
    exact ⟨blocks, covered_call hcovered hcall (hclosed h6)⟩

/-! ## Calls that returned -/

omit [FloorRing K] [IsStrictOrderedRing K] in
/-- The position of a checked scan is valid. -/
theorem receiverPosition_ok {scan : ConcentratorScan K} {u : Unit}
    (h : validateConcentratorScan scan c = .ok u) :
    ∀ f ∈ scan.receiverPosition, f.valid = true ∧ validateFix f = .ok () := by
  simp only [validateConcentratorScan, bind_eq_ok, forM_eq_ok, reject_eq_ok, Option.mem_toList] at h
  obtain ⟨_, -, _, -, hposition⟩ := h
  intro f hf
  obtain ⟨_, hvalid, hfix⟩ := hposition f hf
  exact ⟨eq_true_of_ne_false hvalid, hfix⟩

/-- Calls that append neither a tile nor a scan. -/
def Plain : Call K → Prop
  | .tile _ => False
  | .scan _ => False
  | _ => True

omit [IsStrictOrderedRing K] in
theorem kept_perform {w : Unit} {call : Call K} (hclean : s.powerBlock.dirty = false)
    (hplain : Plain call) (hs : perform m call s = .ok w s') : Kept s s' := by
  have hcall : tilesOf [call] = [] := by
    cases call with
    | tile t => exact hplain.elim
    | _ => rfl
  -- That no tile was written is known for every call; what is left are the positions, the scans and the
  -- commit.
  have hunmeasured := (unmeasured_perform hclean hcall hs).1
  cases call with
  | tile t => exact hplain.elim
  | scan scan => exact hplain.elim
  | event event =>
    obtain ⟨events, rfl⟩ := event_ok hs
    exact ⟨hunmeasured, fun _ hx => hx, by simp, rfl, fun _ => rfl⟩
  | gap gap =>
    obtain ⟨-, rfl⟩ := gap_ok hclean hs
    exact ⟨hunmeasured, fun _ hx => hx, by simp, rfl, fun _ => rfl⟩
  | fix f =>
    by_cases hversion : s.schemaVersion = 5
    · obtain ⟨-, rfl⟩ | ⟨hf, hvalid, hbind, rfl⟩ := fix_detailed_ok hversion hs
      · exact ⟨hunmeasured, fun _ hx => hx, id, rfl, fun h => by rw [batch, if_neg (by simp [h])]⟩
      · refine ⟨hunmeasured, fun _ hx => List.mem_append_left _ hx, fun hfixes => ?_, rfl,
          fun _ => rfl⟩
        simp only [batch_recentFixes]
        exact savedFixes_append hfixes ⟨hf, hvalid, hbind⟩
    · obtain ⟨-, rfl⟩ | ⟨hf, hvalid, hbound, rfl⟩ := fix_ok hversion hs
      · exact ⟨hunmeasured, fun _ hx => hx, id, rfl, fun h => by rw [batch, if_neg (by simp [h])]⟩
      · exact ⟨hunmeasured, fixPlaced_subset,
          fun hfixes => (fixPlaced_ok hfixes (storable_of_bound hfixes hf hvalid hbound)).1, rfl,
          fun _ => rfl⟩
  | reception reception =>
    obtain ⟨receptions, concentratorPackets, rfl⟩ := reception_ok hs
    exact ⟨hunmeasured, fun _ hx => hx, by simp, rfl, fun _ => rfl⟩
  | other checks row =>
    obtain rfl := other_ok hs
    exact ⟨hunmeasured, by simp, by simp, by simp, fun _ => rfl⟩
  | refuse refused =>
    obtain rfl := (ok_modify.mp hs).symm
    exact ⟨hunmeasured, fun _ hx => hx, id, rfl, fun h => by rw [batch, if_neg (by simpa using h)]⟩
  | enableAcquisitions =>
    obtain ⟨-, rfl⟩ | ⟨-, -, rfl⟩ := enable_ok hs
    · exact ⟨hunmeasured, fun _ hx => hx, id, rfl, fun h => by rw [batch, if_neg (by simp [h])]⟩
    · exact ⟨hunmeasured, fun _ hx => hx, by simp, rfl, fun h => by cases h⟩
  | beginAcquisition segment =>
    obtain ⟨threshold, -, -, -, rfl⟩ := begin_ok hclean hs
    exact ⟨hunmeasured, fun _ hx => hx, by simp, rfl, fun h => by cases h⟩
  | update snapshot final fault =>
    obtain ⟨db, -, hrows, rfl⟩ := update_ok hs
    obtain ⟨-, _, _, _, _, _, _, rfl⟩ := updateRows_ok hrows
    exact ⟨hunmeasured, by simp, by simp, by simp, fun h => by cases h⟩

omit [LinearOrder K] [FloorRing K] [IsStrictOrderedRing K] in
/-- The guards after a tile describe it. -/
theorem newest_guarded {tiles : List (SpectrumTile K)} :
    Newest (tiles ++ [t]) (guarded s t) := by
  refine ⟨fun h => by simp at h, ?_⟩
  rw [List.getLast?_concat]
  rintro _ ⟨⟩
  exact ⟨rfl, rfl, rfl⟩

theorem cached_tile {w : Unit} (h : Cached m calls s) (hs : appendTile m t s = .ok w s') :
    Cached m (calls ++ [.tile t]) s' ∧ Referenced s' (.tile t) := by
  have htiles : tilesOf (calls ++ [Call.tile t]) = tilesOf calls ++ [t] := tilesOf_append _ _
  have hscans : ∀ {positions' : List (SavedFix K)}, s.db.positions ⊆ positions' →
      ∀ row ∈ s.db.scans, ∃ scan, .scan scan ∈ calls ++ [Call.tile t] ∧
        ScanSaved positions' scan row := fun hsub row hrow => by
    obtain ⟨scan, hscan, hsaved⟩ := h.scans row hrow
    exact ⟨scan, List.mem_append_left _ hscan, hsaved.mono hsub⟩
  -- A detailed recording has no blocks; a compact one places both positions and extends the block; a
  -- recording of scans takes no tile.
  rcases h.version with hversion | hversion | hversion
  · obtain ⟨receiverStart, receiverEnd, haccepted, hstart, hend, -, -, -, rfl⟩ :=
      tile_detailed_ok hversion hs
    have hrow : TileSaved s.db.positions t (tileRow t (.detailed (levelBytes t.meanDbfs)
        (levelBytes t.peakDbfs) receiverStart receiverEnd)) :=
      ⟨_, rfl, fixValues_eq hstart, fixValues_eq hend⟩
    refine ⟨⟨.inl (by simp [guarded, hversion]), by simp [guarded, h.clean],
      by simpa [guarded] using h.fixes, ?_, hscans fun _ hx => hx, ?_, ?_, ?_, ?_⟩, ?_⟩
    · rw [htiles]
      exact List.rel_append h.tiles (.cons hrow .nil)
    · intro h6
      simp [guarded, hversion] at h6
    · rw [htiles]
      exact newest_guarded
    · intro h6
      simp [guarded, hversion] at h6
    · exact fun _ => batch_committed_scans h.committed
    · exact ⟨_, by rw [guarded, List.getLast?_concat]; rfl, hrow⟩
  · obtain ⟨blocks, hcovered⟩ := h.blocks hversion
    have hcovered' := covered_tile hcovered hs
    obtain ⟨haccepted, -, ⟨hbound, hbound'⟩, -, rfl⟩ := tile_ok hversion h.clean hs
    have hvalid := validateTile_iff.mp haccepted.valid
    obtain ⟨hfixes, hsub, hstart⟩ := referencePlaced_ok h.fixes hvalid.receiverStart hbound
    obtain ⟨hfixes', hsub', hend⟩ := referencePlaced_ok hfixes hvalid.receiverEnd hbound'
    have hrow : ∀ id, TileSaved _ t (tileRow t (.compact id _ _)) :=
      fun _ => ⟨_, rfl, hstart.mono hsub', hend⟩
    refine ⟨⟨.inr (.inl (by simp [guarded, hversion])), rfl, hfixes', ?_,
      hscans fun _ hx => hsub' (hsub hx), fun _ => ⟨_, hcovered'⟩, ?_, ?_, ?_⟩, ?_⟩
    · rw [htiles]
      exact List.rel_append (h.tiles.imp fun _ _ hold => hold.mono fun _ hx => hsub' (hsub hx))
        (.cons (hrow _) .nil)
    · rw [htiles]
      exact newest_guarded
    · intro _ id hid
      have hlt := haccepted.id hversion
      simp only [guarded, List.map_append, List.map_singleton, List.mem_append,
        List.mem_singleton] at hid ⊢
      rcases hid with hid | rfl
      · exact (h.ids hversion id hid).trans hlt.le
      · exact le_rfl
    · exact fun _ => batch_committed_scans h.committed
    · exact ⟨_, by rw [guarded, List.getLast?_concat]; rfl, hrow _⟩
  · exact absurd hs (scans_tile hversion)

omit [IsStrictOrderedRing K] in
theorem cached_scan {w : Unit} {scan : ConcentratorScan K} (h : Cached m calls s)
    (hs : appendScan scan s = .ok w s') :
    Cached m (calls ++ [.scan scan]) s' ∧ Referenced s' (.scan scan) := by
  have htiles : tilesOf (calls ++ [Call.scan scan]) = tilesOf calls := by
    rw [tilesOf_append]
    exact List.append_nil _
  obtain ⟨hversion, hvalid, hbound, -, rfl⟩ := scan_ok hs
  obtain ⟨hfixes, hsub, hrefers⟩ := scanPlaced_ok h.fixes (receiverPosition_ok hvalid) hbound
  have hrow : ScanSaved _ scan (scanRow scan _) := ⟨_, rfl, hrefers⟩
  refine ⟨⟨.inr (.inr (by simp [hversion])), by simp [h.clean], hfixes, ?_, ?_, ?_, ?_, ?_, ?_⟩,
    _, by rw [List.getLast?_concat]; rfl, hrow⟩
  · rw [htiles]
    exact h.tiles.imp fun _ _ hold => hold.mono hsub
  · intro row hmem
    rcases List.mem_append.mp hmem with hmem | hmem
    · obtain ⟨scan, hscan, hsaved⟩ := h.scans row hmem
      exact ⟨scan, List.mem_append_left _ hscan, hsaved.mono hsub⟩
    · rw [List.mem_singleton.mp hmem]
      exact ⟨scan, by simp, hrow⟩
  · intro h6
    simp [hversion] at h6
  · rw [htiles]
    exact ⟨by simpa using h.newest.none, by simpa using h.newest.last⟩
  · intro h6
    simp [hversion] at h6
  · exact fun _ _ hx => List.mem_append_left _ (batch_committed_scans h.committed hx)

/-! ## Calls that threw -/

omit [FloorRing K] [IsStrictOrderedRing K] in
theorem kept_untouched (h : Untouched s s') : Kept s s' := by
  cases h with
  | checked =>
    exact ⟨⟨rfl, id, rfl, rfl, rfl, rfl, rfl, .inl rfl⟩, fun _ hx => hx, id, rfl,
      fun h => by rw [batch, if_neg (by simp [h])]⟩
  | begun =>
    exact ⟨⟨by simp, by simp, by simp, by simp, by simp, by simp, by simp, .inl (by simp)⟩, by simp,
      by simp, by simp, fun _ => rfl⟩
  | closed =>
    exact ⟨⟨by simp, by simp, by simp, by simp, by simp, by simp, by simp, .inr rfl⟩, by simp,
      by simp, by simp, fun _ => rfl⟩

omit [Field K] [LinearOrder K] [FloorRing K] [IsStrictOrderedRing K] in
theorem settled_of_committed (h : s.pending = false) : Settled s := by
  constructor <;> simp [h]

omit [IsStrictOrderedRing K] in
/-- A rollback that undoes nothing of the measurements. -/
theorem cached_rollback (h : Cached m calls s) (hsettled : Settled s) :
    Cached m calls { s.batch with db := s.batch.committed, pending := false } := by
  have hdb : s.batch.committed.tiles = s.db.tiles ∧
      s.batch.committed.powerBlocks = s.db.powerBlocks ∧
      s.batch.committed.positions = s.db.positions := by
    rw [batch_committed]
    split <;> rename_i hpending
    · exact ⟨rfl, rfl, rfl⟩
    · have hpending := eq_true_of_ne_false hpending
      exact ⟨(hsettled.tiles hpending).symm, (hsettled.powerBlocks hpending).symm,
        (hsettled.positions hpending).symm⟩
  obtain ⟨htiles, hblocks, hpositions⟩ := hdb
  have hstays : Unmeasured s { s.batch with db := s.batch.committed, pending := false } :=
    ⟨by simp, by simp, htiles, hblocks, by simp, by simp, by simp, .inl (by simp)⟩
  refine ⟨by simpa using h.version, by simp [h.clean], ?_, ?_, ?_, ?_, ?_, ?_, fun h => by cases h⟩
  · rw [hpositions, batch_recentFixes]
    exact h.fixes
  · rw [hpositions, htiles]
    exact h.tiles
  · intro row hrow
    obtain ⟨scan, hscan, hsaved⟩ := h.scans row (batch_committed_scans h.committed hrow)
    rw [hpositions]
    exact ⟨scan, hscan, hsaved⟩
  · intro h6
    rw [batch_schemaVersion] at h6
    obtain ⟨blocks, hcovered⟩ := h.blocks h6
    exact ⟨blocks, covered_unmeasured hcovered hstays⟩
  · exact ⟨by simpa using h.newest.none, by simpa using h.newest.last⟩
  · rw [htiles, batch_schemaVersion, batch_previousTileId]
    exact h.ids

/-- A tile that threw, in any recording. -/
theorem tile_untouched (hm : m.Decibels) (h : Cached m calls s) {e : String}
    (hstrands : ¬ Strands s t) (hs : appendTile m t s = .error e s') : Untouched s s' := by
  rcases h.version with hversion | hversion | hversion
  · exact tile_detailed_error hversion hs
  · obtain ⟨blocks, hcovered⟩ := h.blocks hversion
    refine tile_error hversion h.clean h.fixes (h.ids hversion) (fun hvalid => ?_) hstrands hs
    have htile := validateTile_iff.mp hvalid
    obtain ⟨last, hext⟩ := hcovered.extended htile hcovered.config
    have hvalids : ∀ u ∈ last, ∃ c, ValidTile u c := fun u hu => by
      have hmem : u ∈ (nextBlocks s blocks t).flatten :=
        List.mem_flatten.mpr ⟨last, List.mem_of_mem_getLast? hext.isLast, hu⟩
      rw [hext.extended.flatten, hcovered.tiles] at hmem
      rcases List.mem_append.mp hmem with hmem | hmem
      · obtain ⟨c, hc, -⟩ := hcovered.valid u hmem
        exact ⟨c, hc⟩
      · rw [List.mem_singleton.mp hmem]
        exact ⟨_, htile⟩
    have hagg : Aggregates m last (blockOf m (nextBlocks s blocks t).length last) :=
      aggregates_blockOf hext.ok.nonempty hext.ok.chain fun u hu => by
        obtain ⟨c, hc⟩ := hvalids u hu
        exact leveled_of_valid hc
    obtain ⟨-, -, hsums, hpeaks⟩ := hagg.grid t (hext.extended.mem_last hext.isLast)
    rw [hext.block]
    exact ⟨saveable_block hm hext.ok.nonempty hagg hvalids,
      htile.dimensions.bins_pos, htile.dimensions.bins_le, hsums, hpeaks⟩
  · unfold appendTile at hs
    have hs := get_bind_error hs
    rw [reject, if_pos hversion] at hs
    obtain ⟨-, rfl⟩ := error_bind.mp hs |>.resolve_right (by
      rintro ⟨_, _, hthrow, _⟩
      rw [ok_check] at hthrow
      cases hthrow.1)
    exact .checked

/-- A call that threw keeps the invariant when a rollback is settled and a tile is not stranded. -/
theorem cached_error (hm : m.Decibels) (h : Cached m calls s) {call : Call K} {e : String}
    (hsettled : RollsBack s call → Settled s) (hstranded : ¬ Stranded s call) (hs : perform m call s = .error e s') :
    Cached m calls s' := by
  cases call with
  | tile t => exact cached_kept h (kept_untouched (tile_untouched hm h hstranded hs))
  | event event => exact cached_kept h (kept_untouched (event_error hs))
  | gap gap => exact cached_kept h (kept_untouched (gap_error h.clean hs))
  | fix f => exact cached_kept h (kept_untouched (fix_error hs))
  | reception reception => exact cached_kept h (kept_untouched (reception_error hs))
  | other checks row => exact cached_kept h (kept_untouched (other_error hs))
  | refuse refused => exact (error_modify.mp hs).elim
  | enableAcquisitions => exact cached_kept h (kept_untouched (enable_error hs))
  | scan scan =>
    rcases scan_error hs with hs | ⟨hvalid, hbound, rfl⟩
    · exact cached_kept h (kept_untouched hs)
    · obtain ⟨hfixes, hsub, -⟩ := scanPlaced_ok h.fixes (receiverPosition_ok hvalid) hbound
      exact cached_kept h ⟨⟨by simp, by simp, rfl, rfl, by simp, by simp, by simp, .inl (by simp)⟩,
        hsub, fun _ => hfixes, rfl, fun _ => rfl⟩
  | beginAcquisition segment =>
    obtain rfl | ⟨segments, segmentLanes, rfl⟩ := begin_error h.clean hs
    · exact h
    · exact cached_kept h ⟨⟨by simp, by simp, rfl, rfl, by simp, by simp, by simp, .inr rfl⟩,
        fun _ hx => hx, by simp, rfl, fun _ => rfl⟩
  | update snapshot final fault =>
    obtain rfl | ⟨hcheck, rfl⟩ := update_error hs
    · exact h
    · refine cached_rollback h (hsettled ⟨hcheck, ?_⟩)
      rw [show update snapshot final fault s = _ from hs]
      rfl

/-! ## Runs -/

theorem cached_ok {w : Unit} {call : Call K} (h : Cached m calls s)
    (hs : perform m call s = .ok w s') : Cached m (calls ++ [call]) s' ∧ Referenced s' call := by
  by_cases hplain : Plain call
  · have hcall : tilesOf [call] = [] := by
      cases call with
      | tile t => exact hplain.elim
      | _ => rfl
    have hkept := kept_perform h.clean hplain hs
    have hclosed := (unmeasured_perform h.clean hcall hs).2
    refine ⟨cached_call (cached_kept h hkept) hcall fun h6 => hclosed ?_, ?_⟩
    · rwa [hkept.unmeasured.version] at h6
    · cases call with
      | tile t => exact hplain.elim
      | scan scan => exact hplain.elim
      | _ => trivial
  · cases call with
    | tile t => exact cached_tile h hs
    | scan scan => exact cached_scan h hs
    | _ => exact absurd trivial hplain

omit [IsStrictOrderedRing K] in
theorem cached_create {id : Text} (h : create c id = .ok s) : Cached m [] s := by
  have hblocks : s.schemaVersion = 6 → ∃ blocks, Covered m [] s blocks :=
    fun h6 => ⟨[], covered_create h h6⟩
  have hversion := create_version h
  obtain ⟨threshold, -, -, rfl⟩ := create_ok h
  refine ⟨hversion, rfl, ⟨List.nodup_nil, ?_, ?_⟩, .nil, ?_, hblocks, ⟨fun _ => ⟨rfl, rfl, rfl⟩, ?_⟩,
    ?_, fun h => by cases h⟩
  · exact fun row hrow => by cases hrow
  · exact fun row hrow => by cases hrow
  · exact fun row hrow => by cases hrow
  · exact fun t ht => by cases ht
  · exact fun _ row hrow => by cases hrow

omit [IsStrictOrderedRing K] in
/-- The store of the invariant is consistent. -/
theorem consistent_of_cached (h : Cached m calls s) : Consistent m calls s := by
  refine ⟨h.fixes.unique, h.fixes.recent, h.tiles, h.scans, fun h6 => ?_, fun h6 hframes => ?_,
    h.newest⟩
  · obtain ⟨blocks, hcovered⟩ := h.blocks h6
    exact ⟨blocks, cover_of_covered hcovered⟩
  · obtain ⟨blocks, hcovered⟩ := h.blocks h6
    obtain hzero | ⟨b, hb, hopen⟩ := hcovered.openBlock
    · exact absurd hzero hframes
    · obtain ⟨init, rfl⟩ := List.getLast?_eq_some_iff.mp hb
      refine ⟨savedRow m (blockOf m (init ++ [b]).length b), ?_, ?_⟩
      · rw [hcovered.rows, rowsOf_append, List.getLast?_concat, List.length_append]
        rfl
      · rw [hopen]
        rfl

theorem cached_run (hm : m.Decibels) {seen : List (Call K)} (h : Cached m seen s)
    (hsettled : SettledRun m s calls) :
    Cached m (seen ++ returned (perform m) s calls) (Stateful.calls (perform m) s calls) := by
  induction calls generalizing s seen with
  | nil =>
    rw [returned, List.append_nil]
    exact h
  | cons call calls ih =>
    obtain ⟨hcall, hrest⟩ := hsettled
    rw [returned, Stateful.calls, List.foldl_cons]
    cases hs : perform m call s with
    | ok w s' =>
      rw [hs] at hrest
      have := ih (cached_ok h hs).1 hrest
      rwa [List.append_assoc] at this
    | error e s' =>
      rw [hs] at hrest
      exact ih (cached_error hm h hcall.1 hcall.2 hs) hrest

theorem decimalLibm_decibels : decimalLibm.Decibels where
  pow10_pos x := by
    change (0 : ℚ) < 10 ^ ⌊x⌋
    exact zpow_pos (by norm_num) _
  pow10_mono x y h := zpow_le_zpow_right₀ (by norm_num) (Int.floor_le_floor h)
  log10_mono x y hx h := by
    change ((Int.log 10 x : ℤ) : ℚ) ≤ (Int.log 10 y : ℤ)
    exact Int.cast_le.mpr (Int.log_mono_right hx h)
  log10_pow10 n := by
    change ((Int.log 10 ((10 : ℚ) ^ ⌊((n : ℤ) : ℚ)⌋) : ℤ) : ℚ) = n
    rw [Int.floor_intCast]
    exact congrArg _ (Int.log_zpow (by norm_num) n)

/-- A checkpoint of a recording without activity. -/
def idleSnapshot : Snapshot ℚ :=
  { incomplete := false, state := [], elapsedSeconds := 1, inputSeconds := 1
    measurementSeconds := 1, deliveredSamples := 0, droppedSamples := 0, totalReceptions := 0
    classifiedReceptions := 0, frequencies := [], laneHealth := []
    automaticDecoder := { available := true }, spectrumTiles := 0, spectrumEvents := 0
    discovery := {}, concentratorHealth := [] }

/-- A position at a latitude. -/
def fixAt (latitude : ℚ) : PositionFix ℚ :=
  { latitude, longitude := 0, altitudeM := none, utcSeconds := 0, monotonicSeconds := 0, valid := true
    manual := true, source := ascii "manual", hdop := none, satellites := 0 }

/-- Tile `n + 1` with a position at its start. -/
def tileAt (n : ℕ) (latitude : ℚ) : SpectrumTile ℚ :=
  { frameTile n with receiverStart := some (fixAt latitude) }

theorem not_strands_tileAt {s : SessionStore ℚ} (h : s.refused = none) (n : ℕ) (latitude : ℚ) :
    ¬ Strands s (tileAt n latitude) := by
  rintro ⟨-, -, hrefused⟩
  simp only [FixRefused, Refuses, h, Option.map_none, reduceCtorEq, or_false, false_or] at hrefused
  rcases hrefused with ⟨f, hf, -, hsource⟩ | ⟨f, hf, -⟩
  · obtain rfl : fixAt latitude = f := Option.some_inj.mp hf
    exact absurd (show validUtf8 (ascii "manual") = false from hsource) (by decide +kernel)
  · exact absurd hf (Option.not_mem_none f)

/-- The reference of a compact row to the position at its start. -/
def startReference (row : SpectrumRow ℚ) : Option ℕ :=
  match row.power with
  | .detailed _ _ _ _ => none
  | .compact _ startFix _ => startFix

/-- The tables after some calls, as identifiers, frames and latitudes of tiles and as sample ranges and
frames of power blocks. -/
def overview (calls : List (Call ℚ)) : List (ℕ × ℕ × Option ℚ) × List (ℕ × ℕ × ℕ) :=
  let s := Stateful.calls (perform decimalLibm) compactStart calls
  (s.db.tiles.map fun row => (row.id, row.frameCount,
      (s.db.position (startReference row)).map (·.fix.latitude)),
    s.db.powerBlocks.map fun row => (row.firstSample, row.endSample, row.frameCount))

/-- A tile whose position has a source that is not UTF-8. -/
def unboundTile : SpectrumTile ℚ :=
  { frameTile 0 with receiverStart := some { fixAt 1 with source := [0xff] } }

end SessionStore

end OVMesh
