import OVMesh.Store.Blocks
import OVMesh.Store.Calls

/-!
# The power blocks of a compact recording

What a compact recording holds after any sequence of calls that returned: the tiles that were
appended, split into power blocks that cover them.

* `PowerCover`: the rows of the tiles and of the blocks, as a list of lists of tiles.
* `Covered`: the same with the store in memory, which every call keeps.
* `power_cover`: every sequence of accepted calls leaves a cover.
-/

namespace OVMesh

namespace SessionStore

open Checked Keyed Stateful
open SpectrumProcessor (Libm)

variable {K : Type} [Field K] [LinearOrder K]

/-! ## Covers -/

/-- The tiles of a sequence of calls. -/
def tilesOf (calls : List (Call K)) : List (SpectrumTile K) :=
  calls.filterMap fun
    | .tile t => some t
    | _ => none

/-- A call that no power block crosses. -/
def Delimits : Call K → Prop
  | .gap _ => True
  | .beginAcquisition _ => True
  | _ => False

/-- The tiles of the blocks, each with the identifier of its block. -/
def referred (blocks : List (List (SpectrumTile K))) : List (SpectrumTile K × ℕ) :=
  (blocks.zipIdx 1).flatMap fun b => b.1.map fun t => (t, b.2)

/-- The row of a tile refers to its block and decodes to its mask. -/
structure RefersTo (t : SpectrumTile K × ℕ) (row : SpectrumRow K) : Prop where
  columns : ∃ startFix endFix, row = tileRow t.1 (.compact t.2 startFix endFix)
  mask : decodeActivity row.activity ((row.binCount + 7) / 8 * row.frameCount) = .ok t.1.activity

variable [FloorRing K]

/-- The row of the block of some tiles, which tile its range and its frames. -/
structure BlockRow (m : Libm K) (block : List (SpectrumTile K)) (row : PowerRow K) : Prop where
  first : ∀ t ∈ block.head?, row.firstSample = t.firstSample ∧ row.utcStart = t.utcStartSeconds ∧
    row.elapsedStart = t.elapsedStartSeconds
  last : ∀ t ∈ block.getLast?, row.endSample = t.endSample ∧ row.utcEnd = t.utcEndSeconds ∧
    row.elapsedEnd = t.elapsedEndSeconds
  grid : ∀ t ∈ block, row.firstCenter = t.firstCenterHz ∧ row.binWidth = t.binWidthHz ∧
    row.binCount = t.meanDbfs.length
  frames : row.frameCount = (block.map (·.frameCount)).sum
  samples : row.endSample = row.firstSample + row.frameCount * 4096
  span : row.elapsedEnd - row.elapsedStart ≤ 1 + 1 / 10 ^ 8
  /-- The frame-weighted mean of the powers, a `float`, before it is quantized. -/
  mean : row.meanCdb = levelBytes ((List.range row.binCount).map fun i =>
    Binary32.nearest (10 * m.log10
      ((block.map fun t => m.pow10 (t.meanDbfs.getD i 0 / 10) * t.frameCount).sum / row.frameCount)))
  /-- The maxima, before they are quantized. -/
  peak : ∃ peaks, row.peakCdb = levelBytes peaks ∧ peaks.length = row.binCount ∧
    ∀ i < row.binCount, IsGreatest {x | ∃ t ∈ block, t.peakDbfs.getD i 0 = x} (peaks.getD i 0)

/-- The tables of a compact recording after some calls. -/
structure PowerCover (m : Libm K) (calls : List (Call K)) (db : Database K)
    (blocks : List (List (SpectrumTile K))) : Prop where
  tiles : blocks.flatten = tilesOf calls
  nonempty : ∀ b ∈ blocks, b ≠ []
  contiguous : ∀ b ∈ blocks, b.IsChain Follows
  tileRows : List.Forall₂ RefersTo (referred blocks) db.tiles
  blockRows : List.Forall₂ (fun b row => row.id = b.2 ∧ BlockRow m b.1 row) (blocks.zipIdx 1)
    db.powerBlocks
  disjoint : db.powerBlocks.Pairwise fun a b =>
    a.endSample ≤ b.firstSample ∧ a.elapsedEnd - 1 / 10 ^ 8 ≤ b.elapsedStart
  uncrossed : ∀ before d after, calls = before ++ d :: after → Delimits d →
    ∃ k, (blocks.take k).flatten = tilesOf before ∧ (blocks.drop k).flatten = tilesOf after

/-! ## The rows of a list of blocks -/

variable {m : Libm K}

/-- The rows of the blocks. -/
def rowsOf (m : Libm K) (blocks : List (List (SpectrumTile K))) : List (PowerRow K) :=
  (blocks.zipIdx 1).map fun b => savedRow m (blockOf m b.2 b.1)

theorem rowsOf_append (blocks : List (List (SpectrumTile K))) (b : List (SpectrumTile K)) :
    rowsOf m (blocks ++ [b]) = rowsOf m blocks ++ [savedRow m (blockOf m (blocks.length + 1) b)] := by
  simp [rowsOf, List.zipIdx_append, Nat.add_comm]

omit [Field K] [LinearOrder K] [FloorRing K] in
theorem referred_append (blocks : List (List (SpectrumTile K))) (b : List (SpectrumTile K)) :
    referred (blocks ++ [b]) = referred blocks ++ b.map fun t => (t, blocks.length + 1) := by
  simp [referred, List.zipIdx_append, Nat.add_comm]

theorem id_le_of_mem_rowsOf {blocks : List (List (SpectrumTile K))} {row : PowerRow K}
    (h : row ∈ rowsOf m blocks) : row.id ≤ blocks.length := by
  obtain ⟨⟨b, i⟩, hb, rfl⟩ := List.mem_map.mp h
  have := (List.mem_zipIdx hb).2.1
  simp only [savedRow, powerRow, blockOf_id]
  omega

/-- The blocks with one more tile, in the last block or in one of its own. -/
inductive Extended (blocks : List (List (SpectrumTile K))) (t : SpectrumTile K) :
    List (List (SpectrumTile K)) → Prop
  | grow (init : List (List (SpectrumTile K))) (last : List (SpectrumTile K))
      (h : blocks = init ++ [last]) (hne : last ≠ []) : Extended blocks t (init ++ [last ++ [t]])
  | fresh : Extended blocks t (blocks ++ [[t]])

namespace Extended

variable {blocks blocks' : List (List (SpectrumTile K))} {t : SpectrumTile K}

omit [Field K] [LinearOrder K] [FloorRing K] in
theorem flatten (h : Extended blocks t blocks') : blocks'.flatten = blocks.flatten ++ [t] := by
  cases h with
  | grow init last h hne => simp [h]
  | fresh => simp

omit [Field K] [LinearOrder K] [FloorRing K] in
theorem referred (h : Extended blocks t blocks') :
    referred blocks' = SessionStore.referred blocks ++ [(t, blocks'.length)] := by
  cases h with
  | grow init last h hne => simp [h, referred_append]
  | fresh => simp [referred_append]

/-- The row of the extended block replaces its row, or is a new one. -/
theorem rowsOf (h : Extended blocks t blocks') {last : List (SpectrumTile K)}
    (hlast : last ∈ blocks'.getLast?) :
    upsertPower (rowsOf m blocks) (savedRow m (blockOf m blocks'.length last)) =
      SessionStore.rowsOf m blocks' := by
  cases h with
  | grow init old h hne =>
    rw [List.getLast?_concat] at hlast
    cases hlast
    rw [h, rowsOf_append, rowsOf_append, List.length_append]
    refine upsert_last (fun r hr => ?_) (by simp [savedRow, powerRow])
    have := id_le_of_mem_rowsOf hr
    simp only [savedRow, powerRow, blockOf_id, List.length_singleton]
    omega
  | fresh =>
    rw [List.getLast?_concat] at hlast
    cases hlast
    rw [rowsOf_append, List.length_append]
    refine upsert_new fun r hr => ?_
    have := id_le_of_mem_rowsOf hr
    simp only [savedRow, powerRow, blockOf_id, List.length_singleton]
    omega

omit [Field K] [LinearOrder K] [FloorRing K] in
/-- A cut of the blocks that is not inside the extended block stays a cut. -/
theorem cut (h : Extended blocks t blocks') {k : ℕ} (hk : k ≤ blocks.length)
    (hgrow : blocks'.length = blocks.length → k < blocks.length) :
    k < blocks'.length ∧ (blocks'.take k).flatten = (blocks.take k).flatten ∧
      (blocks'.drop k).flatten = (blocks.drop k).flatten ++ [t] := by
  cases h with
  | grow init last h hne =>
    subst h
    have hk' : k ≤ init.length := by
      have := hgrow (by simp)
      simp only [List.length_append, List.length_singleton] at this
      omega
    refine ⟨by simp only [List.length_append, List.length_singleton]; omega, ?_, ?_⟩
    · rw [List.take_append_of_le_length hk', List.take_append_of_le_length hk']
    · rw [List.drop_append_of_le_length hk', List.drop_append_of_le_length hk']
      simp
  | fresh =>
    refine ⟨by simp only [List.length_append, List.length_singleton]; omega, ?_, ?_⟩
    · rw [List.take_append_of_le_length hk]
    · rw [List.drop_append_of_le_length hk]
      simp

omit [Field K] [LinearOrder K] [FloorRing K] in
theorem mem (h : Extended blocks t blocks') {b last : List (SpectrumTile K)}
    (hlast : last ∈ blocks'.getLast?) (hb : b ∈ blocks') : b ∈ blocks ∨ b = last := by
  cases h with
  | grow init old h hne =>
    rw [List.getLast?_concat] at hlast
    cases hlast
    subst h
    rcases List.mem_append.mp hb with hb | hb
    · exact .inl (List.mem_append_left _ hb)
    · exact .inr (List.mem_singleton.mp hb)
  | fresh =>
    rw [List.getLast?_concat] at hlast
    cases hlast
    rcases List.mem_append.mp hb with hb | hb
    · exact .inl hb
    · exact .inr (List.mem_singleton.mp hb)

omit [Field K] [LinearOrder K] [FloorRing K] in
/-- The tile is in the extended block. -/
theorem mem_last (h : Extended blocks t blocks') {last : List (SpectrumTile K)}
    (hlast : last ∈ blocks'.getLast?) : t ∈ last := by
  cases h with
  | grow init old h hne =>
    rw [List.getLast?_concat] at hlast
    cases hlast
    exact List.mem_append_right _ (List.mem_singleton.mpr rfl)
  | fresh =>
    rw [List.getLast?_concat] at hlast
    cases hlast
    exact List.mem_singleton.mpr rfl

end Extended

/-! ## The invariant -/

/-- A time range that no later tile reaches back into. -/
structure Before (t u : SpectrumTile K) : Prop where
  sample : t.endSample ≤ u.firstSample
  elapsed : t.elapsedEndSeconds - 1 / 10 ^ 8 ≤ u.elapsedStartSeconds

/-- A configuration of a compact recording. -/
structure Sampled (c : ReceiverConfig K) : Prop where
  sdr : ¬ c.Rak
  rate_ge : 1000000 ≤ c.sampleRate
  rate_le : c.sampleRate ≤ 20000000

/-- The tiles of one block. -/
structure BlockOk (block : List (SpectrumTile K)) : Prop where
  nonempty : block ≠ []
  chain : block.IsChain Follows
  span : ∀ t ∈ block.head?, ∀ u ∈ block.getLast?,
    u.elapsedEndSeconds - t.elapsedStartSeconds ≤ 1 + 1 / 10 ^ 8

/-- The store after some calls, with the blocks of its tiles. -/
structure Covered (m : Libm K) (calls : List (Call K)) (s : SessionStore K)
    (blocks : List (List (SpectrumTile K))) : Prop where
  version : s.schemaVersion = 6
  config : Sampled s.recordedConfig
  clean : s.powerBlock.dirty = false
  id : s.powerBlock.id = blocks.length
  rows : s.db.powerBlocks = rowsOf m blocks
  tileRows : List.Forall₂ RefersTo (referred blocks) s.db.tiles
  tiles : blocks.flatten = tilesOf calls
  valid : ∀ t ∈ tilesOf calls, ∃ c, ValidTile t c ∧ Sampled c
  blocksOk : ∀ b ∈ blocks, BlockOk b
  saveable : ∀ b ∈ blocks, ∀ id, Saveable m (blockOf m id b)
  ordered : (tilesOf calls).Pairwise Before
  guards : ∀ t ∈ tilesOf calls, t.endSample ≤ s.previousTileEnd ∧
    t.elapsedEndSeconds ≤ s.previousTileElapsedEnd
  openBlock : s.powerBlock.frames = 0 ∨ ∃ b ∈ blocks.getLast?,
    s.powerBlock = { blockOf m blocks.length b with dirty := false }
  cuts : ∀ before d after, calls = before ++ d :: after → Delimits d →
    ∃ k ≤ blocks.length, (s.powerBlock.frames ≠ 0 → k < blocks.length) ∧
      (blocks.take k).flatten = tilesOf before ∧ (blocks.drop k).flatten = tilesOf after

variable [IsStrictOrderedRing K] {calls : List (Call K)} {s s' : SessionStore K}
  {blocks : List (List (SpectrumTile K))} {t u : SpectrumTile K} {c : ReceiverConfig K}

/-- The duration of a tile, from its samples. -/
theorem duration_mem (h : ValidTile t c) (hc : Sampled c) :
    t.elapsedStartSeconds + 2 / 10 ^ 4 ≤ t.elapsedEndSeconds ∧
      t.elapsedEndSeconds ≤ t.elapsedStartSeconds + 6 / 10 := by
  have hd := abs_le.mp h.dimensions.duration
  rw [h.dimensions.samples] at hd
  have hrate : (0 : K) < c.sampleRate := Nat.cast_pos.mpr (by have := hc.rate_ge; omega)
  have hge : (1000000 : K) ≤ c.sampleRate := by exact_mod_cast hc.rate_ge
  have hle : (c.sampleRate : K) ≤ 20000000 := by exact_mod_cast hc.rate_le
  have hpos : (1 : K) ≤ t.frameCount := by exact_mod_cast h.dimensions.frames_pos
  have hframes : (t.frameCount : K) ≤ 128 := by exact_mod_cast h.dimensions.frames_le
  have hlow : (201 : K) / 10 ^ 6 ≤ ((t.frameCount * 4096 : ℕ) : K) / c.sampleRate := by
    rw [le_div_iff₀ hrate]
    push_cast
    linarith
  have hhigh : ((t.frameCount * 4096 : ℕ) : K) / c.sampleRate ≤ 55 / 100 := by
    rw [div_le_iff₀ hrate]
    push_cast
    linarith
  constructor <;> linarith [hd.1, hd.2]

omit [IsStrictOrderedRing K] in
/-- The peaks of a valid tile. -/
theorem leveled_of_valid (h : ValidTile t c) : Leveled t := by
  refine ⟨h.dimensions.peaks, fun i hi => ?_⟩
  have hi' : i < t.peakDbfs.length := by rwa [h.dimensions.peaks]
  have hzip : i < (t.meanDbfs.zip t.peakDbfs).length := by
    rw [List.length_zip]
    exact lt_min hi hi'
  have hmem := List.getElem_mem hzip
  rw [List.getElem_zip] at hmem
  rw [List.getD_eq_getElem _ _ hi']
  exact (h.levels _ hmem).peak_mem.1

omit [Field K] [LinearOrder K] [FloorRing K] [IsStrictOrderedRing K] in
theorem tilesOf_append (calls : List (Call K)) (call : Call K) :
    tilesOf (calls ++ [call]) = tilesOf calls ++ tilesOf [call] :=
  List.filterMap_append

omit [IsStrictOrderedRing K] in
theorem saveable_blockOf {id id' : ℕ} {block : List (SpectrumTile K)}
    (h : Saveable m (blockOf m id block)) : Saveable m (blockOf m id' block) := by
  rw [blockOf_eq id' id]
  exact ⟨h.mean, h.peak⟩

/-- The blocks after a tile: those of the open block and the tile, or one more. -/
def nextBlocks (s : SessionStore K) (blocks : List (List (SpectrumTile K))) (t : SpectrumTile K) :
    List (List (SpectrumTile K)) :=
  if s.powerBlock.frames = 0 then blocks ++ [[t]] else growBlocks blocks t

omit [FloorRing K] [IsStrictOrderedRing K] in
private theorem frames_pos_of_continues {b : PowerBlock K} (h : b.Continues t) : b.frames ≠ 0 :=
  fun h0 => h (.inr (.inl h0))

/-- What a tile adds to the blocks: a block that is extended or opened, with its aggregate. -/
structure Extends (m : Libm K) (s : SessionStore K) (blocks : List (List (SpectrumTile K)))
    (t : SpectrumTile K) (blocks' : List (List (SpectrumTile K))) (last : List (SpectrumTile K)) :
    Prop where
  extended : Extended blocks t blocks'
  isLast : last ∈ blocks'.getLast?
  block : (nextBlock s.powerBlock t).add m t = blockOf m blocks'.length last
  ok : BlockOk last
  grow : blocks'.length = blocks.length → s.powerBlock.frames ≠ 0

/-- A tile that does not continue the open block opens one. -/
theorem Covered.extends_open (h : Covered m calls s blocks) (hvalid : ValidTile t c)
    (hc : Sampled c) (hopen : ¬ s.powerBlock.Continues t) : Extends m s blocks t (blocks ++ [[t]]) [t] := by
  have hadd : (nextBlock s.powerBlock t).add m t = blockOf m (blocks ++ [[t]]).length [t] := by
    rw [nextBlock, if_neg hopen, h.id, List.length_append]
    rfl
  refine ⟨.fresh, by rw [List.getLast?_concat]; rfl, hadd, ⟨by simp, List.isChain_singleton t, ?_⟩,
    fun hlength => by simp at hlength⟩
  rintro v ⟨⟩ w ⟨⟩
  have := duration_mem hvalid hc
  norm_num
  linarith [this.2]

omit [IsStrictOrderedRing K] in
/-- A tile that continues the open block extends it. -/
theorem Covered.extends_grow (h : Covered m calls s blocks) (hcontinues : s.powerBlock.Continues t) :
    ∃ last, Extends m s blocks t (growBlocks blocks t) last := by
  have hframes := frames_pos_of_continues hcontinues
  obtain hzero | ⟨block, hblock, hopen⟩ := h.openBlock
  · exact absurd hzero hframes
  obtain ⟨init, rfl⟩ : ∃ init, blocks = init ++ [block] := List.getLast?_eq_some_iff.mp hblock
  have hok := h.blocksOk block (by simp)
  have hagg : Aggregates m block (blockOf m (init ++ [block]).length block) :=
    aggregates_blockOf hok.nonempty hok.chain fun t ht => by
      obtain ⟨c, hvalid, -⟩ := h.valid t (h.tiles ▸ List.mem_flatten.mpr ⟨block, by simp, ht⟩)
      exact leveled_of_valid hvalid
  have htakes : Takes block t := by
    rw [hopen] at hcontinues hframes
    exact (continues_iff_takes hok.nonempty hagg (by simp) hframes).mp hcontinues
  have hgrow : growBlocks (init ++ [block]) t = init ++ [block ++ [t]] := by
    simp only [growBlocks, List.getLast?_concat, htakes, if_true, List.dropLast_concat]
  have hadd : (nextBlock s.powerBlock t).add m t =
      blockOf m (init ++ [block ++ [t]]).length (block ++ [t]) := by
    rw [nextBlock, if_pos hcontinues, hopen, blockOf_append hok.nonempty, List.length_append,
      List.length_append]
    rfl
  obtain ⟨first, hfirst, last, hlast, hfollows, hspan⟩ := htakes
  rw [hgrow]
  refine ⟨block ++ [t], .grow init block rfl hok.nonempty, by rw [List.getLast?_concat]; rfl, hadd,
    ⟨by simp, ?_, ?_⟩, fun _ => hframes⟩
  · refine List.isChain_append.mpr ⟨hok.chain, List.isChain_singleton t, ?_⟩
    rintro v hv _ ⟨⟩
    cases hlast.symm.trans hv
    exact hfollows
  · intro v hv w hw
    rw [List.head?_append_of_ne_nil _ hok.nonempty] at hv
    rw [List.getLast?_concat] at hw
    cases hw
    cases hfirst.symm.trans hv
    exact hspan

/-- The block of a tile is in the next blocks. -/
theorem Covered.extended (h : Covered m calls s blocks) (hvalid : ValidTile t c) (hc : Sampled c) :
    ∃ last, Extends m s blocks t (nextBlocks s blocks t) last := by
  by_cases hcontinues : s.powerBlock.Continues t
  · rw [nextBlocks, if_neg (frames_pos_of_continues hcontinues)]
    exact h.extends_grow hcontinues
  · have hopens := h.extends_open hvalid hc hcontinues
    rw [nextBlocks]
    split <;> rename_i hframes
    · exact ⟨[t], hopens⟩
    · obtain hzero | ⟨block, hblock, hopen⟩ := h.openBlock
      · exact absurd hzero hframes
      have hmem : block ∈ blocks := List.mem_of_mem_getLast? hblock
      have hok := h.blocksOk block hmem
      have hagg : Aggregates m block (blockOf m blocks.length block) :=
        aggregates_blockOf hok.nonempty hok.chain fun t ht => by
          obtain ⟨c, hvalid, -⟩ := h.valid t (h.tiles ▸ List.mem_flatten.mpr ⟨block, hmem, ht⟩)
          exact leveled_of_valid hvalid
      have hgrow : growBlocks blocks t = blocks ++ [[t]] := by
        have hid : blocks.length ≠ 0 := (List.length_pos_of_mem hmem).ne'
        rw [growBlocks, hblock]
        refine if_neg fun htakes => hcontinues ?_
        rw [hopen] at hframes ⊢
        exact (continues_iff_takes hok.nonempty hagg (by simpa using hid) hframes).mpr htakes
      rw [hgrow]
      exact ⟨[t], hopens⟩

omit [IsStrictOrderedRing K] in
/-- The row of a valid tile refers to its block and decodes to its mask. -/
theorem refersTo_tileRow (h : ValidTile t c) (id : ℕ) (startFix endFix : Option ℕ) :
    RefersTo (t, id) (tileRow t (.compact id startFix endFix)) := by
  have hd := h.dimensions
  have hlength : 0 < t.activity.length := by
    rw [hd.mask]
    exact Nat.mul_pos (by have := hd.bins_pos; omega) hd.frames_pos
  have hle : t.activity.length ≤ 65536 := by
    rw [hd.mask]
    have hbytes : (t.meanDbfs.length + 7) / 8 ≤ 512 := by
      have := hd.bins_le
      omega
    exact Nat.mul_le_mul hbytes hd.frames_le
  refine ⟨⟨startFix, endFix, rfl⟩, ?_⟩
  simp only [tileRow]
  rw [← hd.mask]
  exact decode_encode (List.length_pos_iff.mp hlength) hle

omit [Field K] [LinearOrder K] [FloorRing K] [IsStrictOrderedRing K] in
/-- A split of one more call is a split before it, or it is at that call. -/
private theorem split_append {calls before after : List (Call K)} {call d : Call K}
    (h : calls ++ [call] = before ++ d :: after) :
    (∃ rest, after = rest ++ [call] ∧ calls = before ++ d :: rest) ∨
      after = [] ∧ before = calls ∧ d = call := by
  rcases List.eq_nil_or_concat after with rfl | ⟨rest, last, rfl⟩
  · obtain ⟨hcalls, hd⟩ := List.append_inj' h rfl
    exact .inr ⟨rfl, hcalls.symm, (List.singleton_inj.mp hd).symm⟩
  · rw [List.concat_eq_append, ← List.cons_append, ← List.append_assoc] at h
    obtain ⟨hcalls, hlast⟩ := List.append_inj' h rfl
    exact .inl ⟨rest, by rw [List.concat_eq_append, List.singleton_inj.mp hlast], hcalls⟩

/-- **A tile extends the cover.** -/
theorem covered_tile {w : Unit} (h : Covered m calls s blocks) (hs : appendTile m t s = .ok w s') :
    Covered m (calls ++ [.tile t]) s' (nextBlocks s blocks t) := by
  obtain ⟨haccepted, hsave, -, -, rfl⟩ := tile_ok h.version h.clean hs
  have hvalid := validateTile_iff.mp haccepted.valid
  obtain ⟨last, hext, hlast, hblock, hok, hgrow⟩ := h.extended hvalid h.config
  have htiles : tilesOf (calls ++ [Call.tile t]) = tilesOf calls ++ [t] := tilesOf_append _ _
  have hduration := duration_mem hvalid h.config
  have hsample := hvalid.dimensions.first_lt
  refine ⟨by simp only [guarded, batch_schemaVersion, h.version],
    by simpa only [guarded, batch_recordedConfig] using h.config, rfl, ?_, ?_, ?_, ?_, ?_, ?_, ?_, ?_,
    ?_, ?_, ?_⟩
  · simp only [guarded, hblock, blockOf_id]
  · simp only [guarded, hblock, h.rows]
    exact hext.rowsOf hlast
  · simp only [guarded, hblock, blockOf_id]
    rw [hext.referred]
    refine List.rel_append h.tileRows (List.Forall₂.cons ?_ .nil)
    exact refersTo_tileRow hvalid _ _ _
  · rw [hext.flatten, h.tiles, htiles]
  · rw [htiles]
    intro v hv
    rcases List.mem_append.mp hv with hv | hv
    · exact h.valid v hv
    · rw [List.mem_singleton.mp hv]
      exact ⟨_, hvalid, h.config⟩
  · intro b hb
    rcases hext.mem hlast hb with hb | rfl
    · exact h.blocksOk b hb
    · exact hok
  · intro b hb
    rcases hext.mem hlast hb with hb | rfl
    · exact h.saveable b hb
    · rw [hblock] at hsave
      exact fun id => saveable_blockOf hsave
  · rw [htiles, List.pairwise_append]
    refine ⟨h.ordered, List.pairwise_singleton _ _, fun v hv w hw => ?_⟩
    obtain ⟨hv₁, hv₂⟩ := h.guards v hv
    rw [List.mem_singleton.mp hw]
    exact ⟨hv₁.trans haccepted.sample, by linarith [haccepted.elapsed]⟩
  · rw [htiles]
    intro v hv
    simp only [guarded]
    rcases List.mem_append.mp hv with hv | hv
    · obtain ⟨hv₁, hv₂⟩ := h.guards v hv
      have hstart := haccepted.elapsed
      refine ⟨hv₁.trans (haccepted.sample.trans hsample.le), ?_⟩
      norm_num at hstart hduration
      linarith [hduration.1]
    · rw [List.mem_singleton.mp hv]
      exact ⟨le_rfl, le_rfl⟩
  · exact .inr ⟨last, hlast, by simp only [guarded, hblock]⟩
  · intro before d after hsplit hd
    -- The tile is no cut, so every cut is one of the earlier calls.
    rcases split_append hsplit with ⟨rest, rfl, hcalls⟩ | ⟨-, -, rfl⟩
    · obtain ⟨k, hk, hframes, hbefore, hafter⟩ := h.cuts before d rest hcalls hd
      obtain ⟨hk', htake, hdrop⟩ := hext.cut hk fun hl => hframes (hgrow hl)
      refine ⟨k, hk'.le, fun _ => hk', by rw [htake, hbefore], ?_⟩
      rw [hdrop, hafter, tilesOf_append]
      rfl
    · exact hd.elim

/-- What a call that appends no tile leaves: the tables of the measurements and the guards as they
were, and the open block as it was or closed. -/
structure Unmeasured (s s' : SessionStore K) : Prop where
  version : s'.schemaVersion = s.schemaVersion
  config : Sampled s.recordedConfig → Sampled s'.recordedConfig
  tiles : s'.db.tiles = s.db.tiles
  powerBlocks : s'.db.powerBlocks = s.db.powerBlocks
  previousTileId : s'.previousTileId = s.previousTileId
  previousTileEnd : s'.previousTileEnd = s.previousTileEnd
  previousTileElapsedEnd : s'.previousTileElapsedEnd = s.previousTileElapsedEnd
  powerBlock : s'.powerBlock = s.powerBlock ∨ s'.powerBlock = PowerBlock.empty s.powerBlock.id

omit [IsStrictOrderedRing K] in
theorem covered_unmeasured (h : Covered m calls s blocks) (hs : Unmeasured s s') :
    Covered m calls s' blocks := by
  have hframes : s'.powerBlock.frames ≠ 0 → s.powerBlock.frames ≠ 0 := by
    rintro hne
    obtain heq | heq := hs.powerBlock
    · rwa [heq] at hne
    · rw [heq] at hne
      exact absurd rfl hne
  refine ⟨hs.version.trans h.version, hs.config h.config, ?_, ?_, hs.powerBlocks.trans h.rows,
    by rw [hs.tiles]; exact h.tileRows, h.tiles, h.valid, h.blocksOk, h.saveable, h.ordered,
    by rw [hs.previousTileEnd, hs.previousTileElapsedEnd]; exact h.guards, ?_, ?_⟩
  · obtain heq | heq := hs.powerBlock
    · rw [heq, h.clean]
    · rw [heq]
      rfl
  · obtain heq | heq := hs.powerBlock
    · rw [heq, h.id]
    · rw [heq]
      exact h.id
  · obtain heq | heq := hs.powerBlock
    · rw [heq]
      exact h.openBlock
    · exact .inl (by rw [heq]; rfl)
  · intro before d after hsplit hd
    obtain ⟨k, hk, hlt, hcut⟩ := h.cuts before d after hsplit hd
    exact ⟨k, hk, fun hne => hlt (hframes hne), hcut⟩

omit [IsStrictOrderedRing K] in
/-- A call without a tile belongs to the sequence when no block is open across it. -/
theorem covered_call {call : Call K} (h : Covered m calls s blocks) (hcall : tilesOf [call] = [])
    (hclosed : Delimits call → s.powerBlock.frames = 0) : Covered m (calls ++ [call]) s blocks := by
  have htiles : tilesOf (calls ++ [call]) = tilesOf calls := by
    rw [tilesOf_append, hcall, List.append_nil]
  refine ⟨h.version, h.config, h.clean, h.id, h.rows, h.tileRows, by rw [htiles, h.tiles],
    by rw [htiles]; exact h.valid, h.blocksOk, h.saveable, by rw [htiles]; exact h.ordered,
    by rw [htiles]; exact h.guards, h.openBlock, ?_⟩
  intro before d after hsplit hd
  rcases split_append hsplit with ⟨rest, rfl, hcalls⟩ | ⟨rfl, rfl, rfl⟩
  · obtain ⟨k, hk, hlt, hbefore, hafter⟩ := h.cuts before d rest hcalls hd
    refine ⟨k, hk, hlt, hbefore, ?_⟩
    rw [hafter, tilesOf_append, hcall, List.append_nil]
  · refine ⟨blocks.length, le_rfl, fun hne => absurd (hclosed hd) hne, ?_, ?_⟩
    · rw [List.take_length, h.tiles]
    · rw [List.drop_length]
      rfl

/-! ## Calls -/

omit [FloorRing K] [IsStrictOrderedRing K] in
/-- An acquisition keeps the kind of the receiver. -/
theorem sampled_acquisition {segment : AcquisitionSegment K}
    (h : checkAcquisition s segment = .ok ()) (hc : Sampled s.recordedConfig) :
    Sampled segment.config := by
  simp only [checkAcquisition, bind_eq_ok, validateAcquisition_iff] at h
  obtain ⟨_, -, _, hvalid, -⟩ := h
  have hsdr : ¬ segment.config.Rak := by
    rw [ReceiverConfig.Rak, hvalid.kind.1, hvalid.kind.2.1]
    exact hc.sdr
  obtain ⟨hge, hle, -⟩ := hvalid.sampled hsdr
  exact ⟨hsdr, hge, hle⟩

omit [IsStrictOrderedRing K] in
/-- A call without a tile that returned leaves the measurements, and it closes the open block when
no block may cross it. -/
theorem unmeasured_perform {w : Unit} {call : Call K} (hclean : s.powerBlock.dirty = false)
    (hcall : tilesOf [call] = []) (hs : perform m call s = .ok w s') : Unmeasured s s' ∧
      (s.schemaVersion = 6 → Delimits call → s'.powerBlock.frames = 0) := by
  cases call with
  | tile t => cases hcall
  | event event =>
    obtain ⟨events, rfl⟩ := event_ok hs
    exact ⟨⟨by simp, by simp, rfl, rfl, by simp, by simp, by simp, .inl (by simp)⟩,
      fun _ hd => hd.elim⟩
  | gap gap =>
    obtain ⟨h7, rfl⟩ := gap_ok hclean hs
    refine ⟨⟨by simp, by simp, rfl, rfl, by simp, by simp, by simp, ?_⟩, fun h6 _ => ?_⟩
    · simp only
      split
      · exact .inr rfl
      · exact .inl rfl
    -- From version 6 a gap ends the open power block.
    · simp only [h6, ge_iff_le, le_refl, if_true]
      rfl
  | fix f =>
    refine ⟨?_, fun _ hd => hd.elim⟩
    by_cases hversion : s.schemaVersion = 5
    · obtain ⟨-, rfl⟩ | ⟨-, -, -, rfl⟩ := fix_detailed_ok hversion hs
      · exact ⟨rfl, id, rfl, rfl, rfl, rfl, rfl, .inl rfl⟩
      · exact ⟨by simp, by simp, rfl, rfl, by simp, by simp, by simp, .inl (by simp)⟩
    · obtain ⟨-, rfl⟩ | ⟨-, -, -, rfl⟩ := fix_ok hversion hs
      · exact ⟨rfl, id, rfl, rfl, rfl, rfl, rfl, .inl rfl⟩
      · exact ⟨by simp, by simp, rfl, rfl, by simp, by simp, by simp, .inl (by simp)⟩
  | scan scan =>
    obtain ⟨-, -, -, -, rfl⟩ := scan_ok hs
    exact ⟨⟨by simp, by simp, rfl, rfl, by simp, by simp, by simp, .inl (by simp)⟩,
      fun _ hd => hd.elim⟩
  | reception reception =>
    obtain ⟨receptions, concentratorPackets, rfl⟩ := reception_ok hs
    exact ⟨⟨by simp, by simp, rfl, rfl, by simp, by simp, by simp, .inl (by simp)⟩,
      fun _ hd => hd.elim⟩
  | other checks row =>
    rw [other_ok hs]
    exact ⟨⟨by simp, by simp, by simp, by simp, by simp, by simp, by simp, .inl (by simp)⟩,
      fun _ hd => hd.elim⟩
  | refuse refused =>
    rw [← ok_modify.mp hs]
    exact ⟨⟨rfl, id, rfl, rfl, rfl, rfl, rfl, .inl rfl⟩, fun _ hd => hd.elim⟩
  | enableAcquisitions =>
    obtain ⟨-, rfl⟩ | ⟨-, -, rfl⟩ := enable_ok hs
    · exact ⟨⟨rfl, id, rfl, rfl, rfl, rfl, rfl, .inl rfl⟩, fun _ hd => hd.elim⟩
    · exact ⟨⟨by simp, by simp, rfl, rfl, by simp, by simp, by simp, .inl (by simp)⟩,
        fun _ hd => hd.elim⟩
  | beginAcquisition segment =>
    obtain ⟨threshold, -, hchecks, -, rfl⟩ := begin_ok hclean hs
    exact ⟨⟨by simp, sampled_acquisition hchecks, rfl, rfl, by simp, by simp, by simp, .inr rfl⟩,
      fun _ _ => rfl⟩
  | update snapshot final fault =>
    obtain ⟨db, -, hrows, rfl⟩ := update_ok hs
    obtain ⟨-, _, _, _, _, _, _, rfl⟩ := updateRows_ok hrows
    exact ⟨⟨by simp, by simp, by simp, by simp, by simp, by simp, by simp, .inl (by simp)⟩,
      fun _ hd => hd.elim⟩

theorem covered_perform {w : Unit} {call : Call K} (h : Covered m calls s blocks)
    (hs : perform m call s = .ok w s') : ∃ blocks', Covered m (calls ++ [call]) s' blocks' := by
  by_cases hcall : ∃ t, call = .tile t
  · obtain ⟨t, rfl⟩ := hcall
    exact ⟨_, covered_tile h hs⟩
  · have htiles : tilesOf [call] = [] := by
      cases call with
      | tile t => exact absurd ⟨t, rfl⟩ hcall
      | _ => rfl
    obtain ⟨hstays, hclosed⟩ := unmeasured_perform h.clean htiles hs
    exact ⟨blocks, covered_call (covered_unmeasured h hstays) htiles (hclosed h.version)⟩

omit [Field K] [LinearOrder K] [FloorRing K] [IsStrictOrderedRing K] in
/-- A new recording of spectrum tiles samples a receiver. -/
theorem sampled_create (h : checkConfig c = .ok ()) (hsdr : ¬ c.Rak) : Sampled c := by
  unfold checkConfig at h
  rw [if_neg hsdr] at h
  simp only [bind_eq_ok, reject_eq_ok] at h
  obtain ⟨_, -, _, -, _, hrate, -⟩ := h
  exact ⟨hsdr, by by_contra hlt; exact hrate (.inl ⟨hsdr, by omega⟩),
    by by_contra hlt; exact hrate (.inl ⟨hsdr, by omega⟩)⟩

omit [IsStrictOrderedRing K] in
theorem covered_create {id : Text} (h : create c id = .ok s) (hversion : s.schemaVersion = 6) :
    Covered m [] s [] := by
  obtain ⟨threshold, -, hconfig, rfl⟩ := create_ok h
  have hsdr : ¬ c.Rak := by
    intro hrak
    simp [hrak] at hversion
  refine ⟨hversion, sampled_create hconfig hsdr, rfl, rfl, rfl, .nil, rfl, ?_, ?_, ?_, .nil, ?_,
    .inl rfl, ?_⟩
  · intro t ht
    cases ht
  · intro b hb
    cases hb
  · intro b hb
    cases hb
  · intro t ht
    cases ht
  · intro before d after hsplit
    exact absurd hsplit.symm (by simp)

/-- The invariant of a sequence of calls that returned. -/
theorem covered_run {id : Text} {w : Unit} (hcreate : create c id = .ok s)
    (hversion : s.schemaVersion = 6) (hcalls : (forM calls (perform m)) s = .ok w s') :
    ∃ blocks, Covered m calls s' blocks := by
  refine forM_induction (P := fun calls s => ∃ blocks, Covered m calls s blocks) ?_
    ⟨[], covered_create hcreate hversion⟩ hcalls
  rintro seen call s s' ⟨blocks, h⟩ hs
  exact covered_perform h hs

/-! ## The cover -/

omit [IsStrictOrderedRing K] in
theorem blockRow_savedRow {id : ℕ} {block : List (SpectrumTile K)} (hok : BlockOk block)
    (hvalid : ∀ t ∈ block, ∃ c, ValidTile t c ∧ Sampled c) :
    BlockRow m block (savedRow m (blockOf m id block)) := by
  have hagg : Aggregates m block (blockOf m id block) :=
    aggregates_blockOf hok.nonempty hok.chain fun t ht => by
      obtain ⟨c, hvalid, -⟩ := hvalid t ht
      exact leveled_of_valid hvalid
  obtain ⟨first, hfirst⟩ := Option.isSome_iff_exists.mp (List.isSome_head?.mpr hok.nonempty)
  obtain ⟨last, hlast⟩ := Option.isSome_iff_exists.mp (List.getLast?_isSome.mpr hok.nonempty)
  have hbins : (blockOf m id block).peak.length = (blockOf m id block).powerSum.length := by
    obtain ⟨-, -, h₁, h₂⟩ := hagg.grid first (List.mem_of_mem_head? hfirst)
    rw [h₁, h₂]
  refine ⟨hagg.first, hagg.last, fun t ht => ?_, hagg.frames, ?_, ?_, ?_, _, rfl, hbins, ?_⟩
  · obtain ⟨hcenter, hwidth, hsums, -⟩ := hagg.grid t ht
    exact ⟨hcenter, hwidth, hsums⟩
  · refine samples_blockOf hok.nonempty hok.chain fun t ht => ?_
    obtain ⟨c, hvalid, -⟩ := hvalid t ht
    have hlt := hvalid.dimensions.first_lt
    have hsamples := hvalid.dimensions.samples
    omega
  · have := hok.span first hfirst last hlast
    rw [← (hagg.first first hfirst).2.2, ← (hagg.last last hlast).2.2] at this
    exact this
  · simp only [savedRow, powerRow, PowerBlock.mean]
    congr 1
    refine List.ext_getElem (by simp) fun i hi _ => ?_
    rw [List.length_map] at hi
    rw [List.getElem_map, List.getElem_map, List.getElem_range, ← hagg.power i hi,
      List.getD_eq_getElem _ _ hi]
  · intro i hi
    exact hagg.peak i (by rwa [hbins])

omit [IsStrictOrderedRing K] in
/-- The tables of a store that is covered. -/
theorem cover_of_covered (h : Covered m calls s blocks) : PowerCover m calls s.db blocks := by
  have hvalid : ∀ b ∈ blocks, ∀ t ∈ b, ∃ c, ValidTile t c ∧ Sampled c := fun b hb t ht => by
    refine h.valid t ?_
    rw [← h.tiles]
    exact List.mem_flatten.mpr ⟨b, hb, ht⟩
  have hrow : ∀ b ∈ blocks.zipIdx 1, BlockRow m b.1 (savedRow m (blockOf m b.2 b.1)) :=
    fun b hb => by
      have hmem : b.1 ∈ blocks := List.fst_mem_of_mem_zipIdx hb
      exact blockRow_savedRow (h.blocksOk b.1 hmem) (hvalid b.1 hmem)
  refine ⟨h.tiles, fun b hb => (h.blocksOk b hb).nonempty,
    fun b hb => (h.blocksOk b hb).chain, h.tileRows, ?_, ?_, fun before d after hsplit hd => ?_⟩
  · rw [h.rows, rowsOf, List.forall₂_map_right_iff]
    exact List.forall₂_same.mpr fun b hb => ⟨by simp [savedRow, powerRow], hrow b hb⟩
  · rw [h.rows, rowsOf, List.pairwise_map]
    have hordered := h.ordered
    rw [← h.tiles, List.pairwise_flatten] at hordered
    have hblocks := hordered.2
    rw [← List.zipIdx_map_fst 1 blocks, List.pairwise_map] at hblocks
    refine hblocks.imp_of_mem fun {a b} ha hb hbefore => ?_
    obtain ⟨t, ht⟩ := Option.isSome_iff_exists.mp (List.getLast?_isSome.mpr
      (h.blocksOk a.1 (List.fst_mem_of_mem_zipIdx ha)).nonempty)
    obtain ⟨u, hu⟩ := Option.isSome_iff_exists.mp (List.isSome_head?.mpr
      (h.blocksOk b.1 (List.fst_mem_of_mem_zipIdx hb)).nonempty)
    have htu := hbefore t (List.mem_of_mem_getLast? ht) u (List.mem_of_mem_head? hu)
    obtain ⟨hend, -, hstop⟩ := (hrow a ha).last t ht
    obtain ⟨hfirst, -, hstart⟩ := (hrow b hb).first u hu
    rw [hend, hstop, hfirst, hstart]
    exact ⟨htu.sample, htu.elapsed⟩
  · obtain ⟨k, -, -, hbefore, hafter⟩ := h.cuts before d after hsplit hd
    exact ⟨k, hbefore, hafter⟩

/-- **The power blocks of a compact recording.** After every sequence of calls that returned, the
stored blocks are disjoint and tile what was appended: each is the aggregate of contiguous tiles on
one grid within a second, none crosses a gap or an acquisition, and every tile refers to its block
and decodes to its mask. -/
theorem power_cover (m : Libm K) {c : ReceiverConfig K} {id : Text} {s s' : SessionStore K}
    {calls : List (Call K)} (hcreate : create c id = .ok s) (hversion : s.schemaVersion = 6)
    (hcalls : (forM calls (perform m)) s = .ok () s') :
    ∃ blocks, PowerCover m calls s'.db blocks := by
  obtain ⟨blocks, h⟩ := covered_run hcreate hversion hcalls
  exact ⟨blocks, cover_of_covered h⟩

/-! ## A recording of three tiles -/

/-- A synthetic compact recording at 8 MS/s around 100 MHz without lanes. -/
def compactConfig : ReceiverConfig ℚ :=
  { synthetic := true, hardwareReceiver := .hackRf, centerHz := 100000000, tuningOffsetHz := 0
    sampleRate := 8000000, surveySpanHz := 4000000, lnaGain := 16, vgaGain := 20
    amplifier := false, rtlGainTenthsDb := 0, rtlAutoGain := false, deviceSerial := []
    concentrators :=
      { boards := [], scanEnabled := false, decodeEnabled := false, scanStepHz := 0
        scanSamples := 0 }
    activityThresholdDbfs := some (-60), discoverLora := false, automaticDecode := false
    compactRecording := true, lanes := [], sessionPath := [], sessionTitle := []
    antennaDescription := [], receiverDescription := [], surveyNotes := [] }

/-- Tile `n + 1` of a recording of one bin, of one frame. -/
def frameTile (n : ℕ) : SpectrumTile ℚ :=
  { id := n + 1, firstSample := 4096 * n, endSample := 4096 * (n + 1)
    utcStartSeconds := 4096 * n / 8000000, utcEndSeconds := 4096 * (n + 1) / 8000000
    elapsedStartSeconds := 4096 * n / 8000000, elapsedEndSeconds := 4096 * (n + 1) / 8000000
    powerElapsedStart := 4096 * n / 8000000, powerElapsedEnd := 4096 * (n + 1) / 8000000
    firstCenterHz := 100000000, binWidthHz := 8000000 / 4096, frameCount := 1
    backgroundDbfs := -100, clippedSamples := 0, quality := 0, meanDbfs := [-50]
    peakDbfs := [-50], activity := [1] }

/-- A gap after the second tile. -/
def pauseGap : CoverageGap ℚ :=
  { id := 1, missingSamples := 0, utcStartSeconds := 8192 / 8000000
    utcEndSeconds := 12288 / 8000000, elapsedStartSeconds := 8192 / 8000000
    elapsedEndSeconds := 12288 / 8000000, reason := "source_stall" }

/-- The functions of the library, at the powers of ten. -/
def decimalLibm : Libm ℚ :=
  { pi := 355 / 113, cos := fun _ => 1, sin := fun _ => 0, pow10 := fun x => 10 ^ ⌊x⌋
    log10 := fun x => Int.log 10 x }

/-- A new compact recording. -/
def compactStart : SessionStore ℚ where
  db := newDatabase compactConfig [] (-60)
  committed := newDatabase compactConfig [] (-60)
  refused := none
  schemaVersion := 6
  readonly := false
  pending := false
  recordedConfig := compactConfig
  acquisitionExtension := false
  acquisitionId := 0
  previousTileEnd := 0
  previousTileId := 0
  previousTileElapsedEnd := 0
  powerBlock := PowerBlock.empty 0
  recentFixes := []

theorem create_compactStart : create compactConfig [] = .ok compactStart := by
  have hok : (create compactConfig []).isOk = true := by decide +kernel
  cases h : create compactConfig [] with
  | error e =>
    rw [h] at hok
    cases hok
  | ok s =>
    obtain ⟨threshold, hthreshold, -, rfl⟩ := create_ok h
    cases hthreshold
    rfl

/-- Two blocks cover two contiguous tiles and one after a gap. -/
theorem power_cover_gap :
    let calls := [.tile (frameTile 0), .tile (frameTile 1), .gap pauseGap, .tile (frameTile 3)]
    ∃ s, (forM calls (perform decimalLibm)) compactStart = .ok () s ∧
      ∃ blocks, PowerCover decimalLibm calls s.db blocks := by
  intro calls
  have hcalls := eq_ok_of_isOk
    (show isOk ((forM calls (perform decimalLibm)) compactStart) = true by decide +kernel)
  exact ⟨_, hcalls, power_cover decimalLibm create_compactStart rfl hcalls⟩

end SessionStore

end OVMesh
