import OVMesh.Lib.Fold
import OVMesh.Store.Positions
import OVMesh.Store.PowerCover

/-!
# Reading tiles back

What `tile_from` makes of the rows that `append(SpectrumTile)` wrote. A tile is checked before its
levels are rounded and after they were, and a power block is checked against one tolerance where its
tiles were checked one by one.

* `expected`: the tiles that the rows stand for.
* `Compatible`: the checks of the reader that the writer does not make.
* `read_back`: every row reads back exactly when those checks pass.
-/

namespace OVMesh

namespace SessionStore

open Checked Keyed Stateful SurveyQuality
open SpectrumProcessor (Libm)

variable {K : Type} [Field K] [LinearOrder K] [FloorRing K]

/-! ## What the rows stand for -/

/-- The number of bins of a power block. -/
def binsOf (block : List (SpectrumTile K)) : ℕ := (block.head?.map (·.meanDbfs.length)).getD 0

/-- The frame-weighted means of the powers of a block. -/
def blockMean (m : Libm K) (block : List (SpectrumTile K)) : List K :=
  (List.range (binsOf block)).map fun i => Binary32.nearest (10 * m.log10
    ((block.map fun t => m.pow10 (t.meanDbfs.getD i 0 / 10) * t.frameCount).sum /
      ((block.map (·.frameCount)).sum : ℕ)))

/-- The maxima of the peaks of a block. -/
def blockPeak (block : List (SpectrumTile K)) : List K :=
  (List.range (binsOf block)).map fun i =>
    block.foldl (fun peak t => max peak (t.peakDbfs.getD i 0)) (-300)

/-- A tile with the valid ones of its positions, and the levels of its own time range. -/
def located (t : SpectrumTile K) : SpectrumTile K :=
  { t with
    receiverStart := validFix t.receiverStart
    receiverEnd := validFix t.receiverEnd
    powerElapsedStart := t.elapsedStartSeconds
    powerElapsedEnd := t.elapsedEndSeconds }

/-- A tile with the levels and the time range of its power block. -/
def aggregated (m : Libm K) (block : List (SpectrumTile K)) (t : SpectrumTile K) : SpectrumTile K :=
  { located t with
    meanDbfs := blockMean m block
    peakDbfs := blockPeak block
    quality := t.quality ||| powerAggregated.mask
    powerElapsedStart := (block.head?.map (·.elapsedStartSeconds)).getD 0
    powerElapsedEnd := (block.getLast?.map (·.elapsedEndSeconds)).getD 0 }

/-- The tiles that the rows of a recording stand for. -/
def expected (m : Libm K) (version : ℕ) (tiles : List (SpectrumTile K)) : List (SpectrumTile K) :=
  if version ≥ 6 then (powerBlocks tiles).flatMap fun block => block.map (aggregated m block)
  else tiles.map located

/-- A tile reads back: its levels within half a step and the error of their two `float`s, and everything
else unchanged. -/
structure ReadsBack (e t : SpectrumTile K) : Prop where
  fields : t = { e with meanDbfs := t.meanDbfs, peakDbfs := t.peakDbfs }
  mean : List.Forall₂ (fun x y => |x - y| ≤ 503 / 10 ^ 5) t.meanDbfs e.meanDbfs
  peak : List.Forall₂ (fun x y => |x - y| ≤ 503 / 10 ^ 5) t.peakDbfs e.peakDbfs

/-! ## What the reader checks -/

/-- The times of a power block agree with each other and with its samples. -/
structure BlockTimed (block : List (SpectrumTile K)) (sampleRate : ℕ) : Prop where
  utc : ∀ first ∈ block.head?, ∀ last ∈ block.getLast?,
    first.utcStartSeconds < last.utcEndSeconds
  drift : ∀ first ∈ block.head?, ∀ last ∈ block.getLast?,
    |(last.utcEndSeconds - first.utcStartSeconds) -
      (last.elapsedEndSeconds - first.elapsedStartSeconds)| ≤ 2 / 1000
  duration : ∀ first ∈ block.head?, ∀ last ∈ block.getLast?,
    |(last.elapsedEndSeconds - first.elapsedStartSeconds) -
      ((block.map (·.frameCount)).sum * 4096 : ℕ) / sampleRate| ≤ 1 / 10 ^ 7

/-- In hundredths of a decibel, no mean exceeds its peak by more than one. -/
def MeanBelowPeak (mean peak : List K) : Prop :=
  ∀ b ∈ mean.zip peak, centibel b.1 ≤ centibel b.2 + 1

/-- The tiles pass the checks that the reader makes of rounded levels and of whole blocks. -/
def Compatible (m : Libm K) (version sampleRate : ℕ) (tiles : List (SpectrumTile K)) : Prop :=
  if version ≥ 6 then ∀ block ∈ powerBlocks tiles, BlockTimed block sampleRate ∧
    MeanBelowPeak (blockMean m block) (blockPeak block)
  else ∀ t ∈ tiles, MeanBelowPeak t.meanDbfs t.peakDbfs

instance (block : List (SpectrumTile K)) (sampleRate : ℕ) : Decidable (BlockTimed block sampleRate) :=
  decidable_of_iff (∀ first ∈ block.head?, ∀ last ∈ block.getLast?,
      first.utcStartSeconds < last.utcEndSeconds ∧
      |(last.utcEndSeconds - first.utcStartSeconds) -
        (last.elapsedEndSeconds - first.elapsedStartSeconds)| ≤ 2 / 1000 ∧
      |(last.elapsedEndSeconds - first.elapsedStartSeconds) -
        ((block.map (·.frameCount)).sum * 4096 : ℕ) / sampleRate| ≤ 1 / 10 ^ 7)
    ⟨fun h => ⟨fun a ha b hb => (h a ha b hb).1, fun a ha b hb => (h a ha b hb).2.1,
      fun a ha b hb => (h a ha b hb).2.2⟩,
     fun h a ha b hb => ⟨h.utc a ha b hb, h.drift a ha b hb, h.duration a ha b hb⟩⟩

instance (mean peak : List K) : Decidable (MeanBelowPeak mean peak) :=
  inferInstanceAs (Decidable (∀ b ∈ _, _))

instance (m : Libm K) (version sampleRate : ℕ) (tiles : List (SpectrumTile K)) :
    Decidable (Compatible m version sampleRate tiles) :=
  inferInstanceAs (Decidable (if version ≥ 6 then _ else _))

variable [IsStrictOrderedRing K] {m : Libm K} {c : ReceiverConfig K} {s s' : SessionStore K}
  {t : SpectrumTile K} {mean peak : List K}

/-! ## Rounded levels -/

/-- The levels of some bins are in the supported range. -/
def Supported (levels : List K) : Prop := ∀ v ∈ levels, -300 ≤ v ∧ v ≤ 100

/-- The tolerance of the reader is between one and two hundredths. -/
theorem quantized_le_iff {a b : K} (ha : -300 ≤ a ∧ a ≤ 100) (hb : -300 ≤ b ∧ b ≤ 100) :
    quantized a ≤ quantized b + 11 / 1000 ↔ centibel a ≤ centibel b + 1 := by
  have ha' := abs_le.mp (abs_fromCentibel_sub_le (K := K) (centibel_mem ha))
  have hb' := abs_le.mp (abs_fromCentibel_sub_le (K := K) (centibel_mem hb))
  unfold quantized
  constructor
  · intro h
    have hlt : ((centibel a : ℤ) : K) < ((centibel b + 2 : ℤ) : K) := by
      push_cast
      linarith [ha'.1, hb'.2]
    have := Int.cast_lt.mp hlt
    omega
  · intro h
    have hle : ((centibel a : ℤ) : K) ≤ ((centibel b + 1 : ℤ) : K) := Int.cast_le.mpr h
    push_cast at hle
    linarith [ha'.2, hb'.1]

theorem forall₂_quantized {values : List K} (h : Supported values) :
    List.Forall₂ (fun x y => |x - y| ≤ 503 / 10 ^ 5) (values.map quantized) values := by
  rw [List.forall₂_map_left_iff]
  exact List.forall₂_same.mpr fun v hv => abs_quantized_sub_le (h v hv)

/-- The rounded levels of a bin pass their checks when the rounding keeps their order. -/
theorem binLevels_quantized (hlevels : Supported mean ∧ Supported peak) :
    (∀ b ∈ (mean.map quantized).zip (peak.map quantized), BinLevels b.1 b.2) ↔
      MeanBelowPeak mean peak := by
  rw [List.zip_map, List.forall_mem_map]
  refine forall₂_congr fun b hb => ?_
  obtain ⟨hmem, hmem'⟩ := List.of_mem_zip hb
  have hmean := hlevels.1 _ hmem
  have hpeak := hlevels.2 _ hmem'
  constructor
  · intro h
    exact (quantized_le_iff hmean hpeak).mp h.mean_le
  · intro h
    exact ⟨quantized_mem hmean, quantized_mem hpeak, (quantized_le_iff hmean hpeak).mpr h⟩

/-! ## The columns of a row -/

theorem blob_eq_ok {bytes out : List ℕ} {maximum : ℕ} :
    blob bytes maximum = .ok out ↔ (bytes ≠ [] ∧ bytes.length ≤ maximum) ∧ bytes = out := by
  simp only [blob, bind_eq_ok, reject_eq_ok, pure_eq_ok, not_or, not_lt, exists_and_left,
    exists_const]

omit [FloorRing K] [IsStrictOrderedRing K] in
theorem satellites_le {f : PositionFix K} (h : validateFix f = .ok ()) : f.satellites ≤ 1000 := by
  simp only [validateFix, bind_eq_ok, reject_eq_ok, not_or, not_lt] at h
  obtain ⟨_, -, _, -, _, -, _, -, hle, -⟩ := h
  exact hle

omit [Field K] [LinearOrder K] [FloorRing K] [IsStrictOrderedRing K] in
theorem validFix_of_valid {f : PositionFix K} (h : f.valid = true) : validFix (some f) = some f := by
  rw [validFix, Option.filter_some, if_pos h]

omit [Field K] [LinearOrder K] [FloorRing K] [IsStrictOrderedRing K] in
theorem validFix_of_not_valid {f : PositionFix K} (h : ¬ f.valid = true) :
    validFix (some f) = none := by
  rw [validFix, Option.filter_some, if_neg h]

omit [FloorRing K] [IsStrictOrderedRing K] in
/-- A position that was written is read as it was. -/
theorem readFix_stored {position : Option (PositionFix K)} (h : ∀ f ∈ position, Storable f) :
    readFix position = .ok position := by
  cases position with
  | none => rfl
  | some f =>
    have hf := h f rfl
    have hself : { f with valid := true } = f := by rw [← hf.valid]
    simp only [readFix, bind_eq_ok, unsignedValue_eq_ok, pure_eq_ok, hself]
    exact ⟨_, ⟨satellites_le hf.checked, rfl⟩, _, Value.readText_text hf.bound, (), hf.checked, trivial⟩

omit [Field K] [LinearOrder K] [FloorRing K] [IsStrictOrderedRing K] in
/-- A quality word without the flag of a power block has the nine bits of a recorded one. -/
theorem quality_le (h : t.quality ≤ 1023) (hfine : ¬ HasFlag t.quality powerAggregated) :
    t.quality ≤ 511 := by
  have hlt : t.quality < 2 ^ 9 := by
    refine Nat.lt_pow_two_of_testBit _ fun i hi => ?_
    rcases Nat.eq_or_lt_of_le hi with rfl | hi
    · exact Bool.eq_false_of_not_eq_true hfine
    · exact Nat.testBit_lt_two_pow (lt_of_lt_of_le (by omega) (Nat.pow_le_pow_right (by decide) hi))
  omega

/-- The columns that a row has in both encodings come back with the levels rounded. -/
theorem tileColumns_tileRow (h : ValidTile t c) (hquality : t.quality ≤ 511)
    (hbins : mean.length = t.meanDbfs.length ∧ peak.length = t.meanDbfs.length)
    (hlevels : Supported mean ∧ Supported peak)
    (hfixes : (∀ f ∈ validFix t.receiverStart, Storable f) ∧ ∀ f ∈ validFix t.receiverEnd, Storable f)
    (power : TilePower K) :
    tileColumns (tileRow t power) (levelBytes mean) (levelBytes peak) (validFix t.receiverStart)
        (validFix t.receiverEnd) =
      .ok { located t with meanDbfs := mean.map quantized, peakDbfs := peak.map quantized } := by
  have d := h.dimensions
  have hpos : 0 < t.activity.length := by
    rw [d.mask]
    exact Nat.mul_pos (by have := d.bins_pos; omega) d.frames_pos
  have hle : t.activity.length ≤ 65536 := by
    rw [d.mask]
    exact Nat.mul_le_mul (by have := d.bins_le; omega : _ ≤ 512) d.frames_le
  have hmask := length_encodeActivity (List.length_pos_iff.mp hpos)
  have hdecode := decode_encode (List.length_pos_iff.mp hpos) hle
  rw [d.mask] at hdecode
  have hbytes : ∀ values : List K, values.length = t.meanDbfs.length →
      levelBytes values ≠ [] ∧ (levelBytes values).length ≤ 8192 := fun values hv => by
    have hlength : (levelBytes values).length = values.length * 2 := length_quantized
    refine ⟨fun hnil => ?_, by have := d.bins_le; omega⟩
    rw [hnil, List.length_nil] at hlength
    have := d.bins_pos
    omega
  have hmean := dequantize_quantize (quantize_eq_ok.mpr ⟨hlevels.1, rfl⟩)
  have hpeak := dequantize_quantize (quantize_eq_ok.mpr ⟨hlevels.2, rfl⟩)
  rw [hbins.1] at hmean
  rw [hbins.2] at hpeak
  have hclipped : t.clippedSamples ≤ int64Max := by
    have := d.clipped
    have := d.end_le
    omega
  simp only [tileColumns, tileRow, bind_eq_ok, unsignedValue_eq_ok, reject_eq_ok, blob_eq_ok,
    pure_eq_ok]
  refine ⟨_, ⟨h.interval.id_le, rfl⟩, _, ⟨d.first_le, rfl⟩, _, ⟨d.end_le, rfl⟩, _,
    ⟨d.fftSize.le, rfl⟩, _, ⟨d.frames_le, rfl⟩, _, ⟨d.bins_le, rfl⟩, (), ?_, _, ⟨hclipped, rfl⟩, _,
    ⟨hquality, rfl⟩, _, ⟨hbytes mean hbins.1, rfl⟩, _, hmean, _, ⟨hbytes peak hbins.2, rfl⟩, _,
    hpeak, _, ⟨⟨List.length_pos_iff.mp hmask.1, by omega⟩, rfl⟩, _, hdecode, _,
    readFix_stored hfixes.1, _, readFix_stored hfixes.2, rfl⟩
  have := d.bins_pos
  have := d.frames_pos
  omega

/-- The check of a tile that was read is the check of its levels. -/
theorem validTile_read (h : ValidTile t c)
    (hbins : mean.length = t.meanDbfs.length ∧ peak.length = t.meanDbfs.length)
    (hlevels : Supported mean ∧ Supported peak) {quality : ℕ}
    (hquality : quality ≤ 1023) (powerStart powerEnd : K) :
    ValidTile { located t with
        meanDbfs := mean.map quantized, peakDbfs := peak.map quantized, quality
        powerElapsedStart := powerStart, powerElapsedEnd := powerEnd } c ↔
      MeanBelowPeak mean peak := by
  rw [← binLevels_quantized hlevels]
  refine ⟨fun hread => hread.levels, fun hread => ?_⟩
  have d := h.dimensions
  have hlength : (mean.map (quantized (K := K))).length = t.meanDbfs.length := by
    rw [List.length_map, hbins.1]
  refine ⟨h.interval, ⟨d.fftSize, d.frames_pos, d.frames_le, by rw [hlength]; exact d.bins_pos,
    by rw [hlength]; exact d.bins_le, by rw [hlength, List.length_map, hbins.2],
    by rw [hlength]; exact d.mask, d.first_le, d.end_le, d.first_lt, d.samples, d.width, d.duration,
    d.clipped, hquality⟩, by rw [hlength]; exact h.grid, h.background, hread, ?_, ?_, ?_⟩
  · unfold PaddingClear
    simp only [hlength]
    exact h.padding
  · intro f hf
    exact h.receiverStart f ((Option.mem_filter_iff.mp hf).1)
  · intro f hf
    exact h.receiverEnd f ((Option.mem_filter_iff.mp hf).1)

omit [IsStrictOrderedRing K] in
/-- The levels of a valid tile are in the supported range. -/
theorem levels_mem (h : ValidTile t c) : Supported t.meanDbfs ∧ Supported t.peakDbfs := by
  have hlength := h.dimensions.peaks
  have hmean : (t.meanDbfs.zip t.peakDbfs).map Prod.fst = t.meanDbfs := List.map_fst_zip hlength.ge
  have hpeak : (t.meanDbfs.zip t.peakDbfs).map Prod.snd = t.peakDbfs := List.map_snd_zip hlength.le
  unfold Supported
  constructor
  · rw [← hmean, List.forall_mem_map]
    exact fun b hb => (h.levels b hb).mean_mem
  · rw [← hpeak, List.forall_mem_map]
    exact fun b hb => (h.levels b hb).peak_mem

/-! ## Detailed recordings -/

/-- The row of a tile of a detailed recording. -/
def detailedRow (t : SpectrumTile K) : SpectrumRow K :=
  tileRow t (.detailed (levelBytes t.meanDbfs) (levelBytes t.peakDbfs) (validFix t.receiverStart)
    (validFix t.receiverEnd))

omit [FloorRing K] [IsStrictOrderedRing K] in
theorem fixValues_eq {position out : Option (PositionFix K)} (h : fixValues position = .ok out) :
    out = validFix position := by
  cases position with
  | none =>
    cases h
    rfl
  | some f =>
    simp only [fixValues] at h
    by_cases hvalid : f.valid = true
    · simp only [hvalid, if_true, bind_eq_ok, pure_eq_ok] at h
      obtain ⟨_, -, rfl⟩ := h
      exact (validFix_of_valid hvalid).symm
    · simp only [hvalid] at h
      cases h
      exact (validFix_of_not_valid hvalid).symm

/-- A detailed recording of some tiles. -/
structure Detailed (c : ReceiverConfig K) (tiles : List (SpectrumTile K)) (s : SessionStore K) :
    Prop where
  version : s.schemaVersion = 5
  config : s.recordedConfig = c
  rows : s.db.tiles = tiles.map detailedRow
  valid : ∀ t ∈ tiles, ValidTile t c ∧ t.quality ≤ 511
  fixes : ∀ t ∈ tiles, (∀ f ∈ validFix t.receiverStart, Storable f) ∧
    ∀ f ∈ validFix t.receiverEnd, Storable f

omit [FloorRing K] [IsStrictOrderedRing K] in
/-- The position of a detailed row was checked and bound. -/
theorem storable_of_bindFix {position : Option (PositionFix K)}
    (h : ∀ f ∈ position, validateFix f = .ok ()) (hbind : bindFix (validFix position) = .ok ()) :
    ∀ f ∈ validFix position, Storable f := by
  intro f hf
  simp only [bindFix, forM_eq_ok, Option.mem_toList] at hbind
  obtain ⟨hmem, hvalid⟩ := Option.mem_filter_iff.mp hf
  exact ⟨hvalid, h f hmem, hbind f hf⟩

omit [IsStrictOrderedRing K] in
theorem detailed_tile {w : Unit} {tiles : List (SpectrumTile K)} (h : Detailed c tiles s)
    (hs : appendTile m t s = .ok w s') : Detailed c (tiles ++ [t]) s' := by
  obtain ⟨receiverStart, receiverEnd, haccepted, hstart, hend, hbound, hbound', -, rfl⟩ :=
    tile_detailed_ok h.version hs
  have hvalid := validateTile_iff.mp haccepted.valid
  rw [h.config] at hvalid
  obtain rfl := fixValues_eq hstart
  obtain rfl := fixValues_eq hend
  refine ⟨by simp [guarded, h.version], by simp [guarded, h.config], ?_, fun u hu => ?_, fun u hu => ?_⟩
  · simp [guarded, h.rows, detailedRow]
  · rcases List.mem_append.mp hu with hu | hu
    · exact h.valid u hu
    · rw [List.mem_singleton.mp hu]
      exact ⟨hvalid, quality_le hvalid.dimensions.quality haccepted.fine⟩
  · rcases List.mem_append.mp hu with hu | hu
    · exact h.fixes u hu
    · rw [List.mem_singleton.mp hu]
      exact ⟨storable_of_bindFix hvalid.receiverStart hbound,
        storable_of_bindFix hvalid.receiverEnd hbound'⟩

/-- A detailed row reads back when the rounding of its levels keeps their order. -/
theorem detailedRow_reads (h : ValidTile t c) (hquality : t.quality ≤ 511)
    (hfixes : (∀ f ∈ validFix t.receiverStart, Storable f) ∧ ∀ f ∈ validFix t.receiverEnd, Storable f)
    (db : Database K) :
    (∃ t', tileFrom db (detailedRow t) c = .ok t' ∧ ReadsBack (located t) t') ↔
      MeanBelowPeak t.meanDbfs t.peakDbfs := by
  have hbins := And.intro (Eq.refl t.meanDbfs.length) h.dimensions.peaks
  have hlevels := levels_mem h
  have hcolumns := tileColumns_tileRow h hquality hbins hlevels hfixes (.detailed (levelBytes t.meanDbfs)
    (levelBytes t.peakDbfs) (validFix t.receiverStart) (validFix t.receiverEnd))
  have hread := validTile_read h hbins hlevels h.dimensions.quality t.elapsedStartSeconds
    t.elapsedEndSeconds
  rw [← hread]
  simp only [tileFrom, detailedRow, tileRow, bind_eq_ok, pure_eq_ok, validateTile_iff]
  constructor
  · rintro ⟨t', ⟨u, hu, -, hvalid, -⟩, -⟩
    cases hcolumns.symm.trans hu
    exact hvalid
  · intro hvalid
    exact ⟨_, ⟨_, hcolumns, (), hvalid, rfl⟩, rfl, forall₂_quantized hlevels.1,
      forall₂_quantized hlevels.2⟩

/-! ## Power blocks -/

omit [FloorRing K] [IsStrictOrderedRing K] in
theorem flatten_growBlocks (blocks : List (List (SpectrumTile K))) (t : SpectrumTile K) :
    (growBlocks blocks t).flatten = blocks.flatten ++ [t] := by
  unfold growBlocks
  cases hlast : blocks.getLast? with
  | none => simp [List.getLast?_eq_none_iff.mp hlast]
  | some last =>
    obtain ⟨init, rfl⟩ := List.getLast?_eq_some_iff.mp hlast
    simp only
    split <;> simp

omit [FloorRing K] [IsStrictOrderedRing K] in
theorem powerBlocks_append (tiles : List (SpectrumTile K)) (t : SpectrumTile K) :
    powerBlocks (tiles ++ [t]) = growBlocks (powerBlocks tiles) t :=
  List.foldl_concat _ _ _ _

omit [FloorRing K] [IsStrictOrderedRing K] in
/-- The power blocks hold the tiles, in their order. -/
theorem flatten_powerBlocks (tiles : List (SpectrumTile K)) : (powerBlocks tiles).flatten = tiles := by
  induction tiles using List.reverseRecOn with
  | nil => rfl
  | append_singleton tiles t ih => rw [powerBlocks_append, flatten_growBlocks, ih]

/-- The end points of a block, and that its tiles lie between them. -/
structure Ends (block : List (SpectrumTile K)) (first last : SpectrumTile K) : Prop where
  isFirst : first ∈ block.head?
  isLast : last ∈ block.getLast?
  sample : ∀ t ∈ block, first.firstSample ≤ t.firstSample ∧ t.endSample ≤ last.endSample
  elapsed : ∀ t ∈ block, first.elapsedStartSeconds ≤ t.elapsedStartSeconds ∧
    t.elapsedEndSeconds ≤ last.elapsedEndSeconds

omit [FloorRing K] in
/-- Tiles that come one after the other lie between the first and the last. -/
theorem ends_of_ordered {block : List (SpectrumTile K)} (hne : block ≠ [])
    (hordered : block.Pairwise Before) (hlong : ∀ t ∈ block, t.firstSample ≤ t.endSample ∧
      t.elapsedStartSeconds + 2 / 10 ^ 4 ≤ t.elapsedEndSeconds) :
    ∃ first last, Ends block first last := by
  obtain ⟨first, rest, rfl⟩ := List.exists_cons_of_ne_nil hne
  obtain ⟨init, last, hlast⟩ := List.eq_nil_or_concat' (first :: rest) |>.resolve_left hne
  have hafter := (List.pairwise_cons.mp hordered).1
  have hbefore : ∀ t ∈ init, Before t last := fun t ht => by
    rw [hlast] at hordered
    exact (List.pairwise_append.mp hordered).2.2 t ht last (List.mem_singleton.mpr rfl)
  have hfirst := hlong first List.mem_cons_self
  have hend := hlong last (by rw [hlast]; simp)
  refine ⟨first, last, rfl, by rw [hlast, List.getLast?_concat]; rfl, fun t ht => ⟨?_, ?_⟩,
    fun t ht => ⟨?_, ?_⟩⟩
  · rcases List.mem_cons.mp ht with rfl | ht
    · exact le_rfl
    · have := (hafter t ht).sample
      omega
  · rw [hlast] at ht
    rcases List.mem_append.mp ht with ht | ht
    · have := (hbefore t ht).sample
      omega
    · rw [List.mem_singleton.mp ht]
  · rcases List.mem_cons.mp ht with rfl | ht
    · exact le_rfl
    · have := (hafter t ht).elapsed
      norm_num at this hfirst
      linarith [hfirst.2]
  · rw [hlast] at ht
    rcases List.mem_append.mp ht with ht | ht
    · have := (hbefore t ht).elapsed
      norm_num at this hend
      linarith [hend.2]
    · rw [List.mem_singleton.mp ht]

omit [IsStrictOrderedRing K] in
/-- The levels of a block are those of its aggregate. -/
theorem levels_blockOf {id : ℕ} {block : List (SpectrumTile K)} (hne : block ≠ [])
    (hagg : Aggregates m block (blockOf m id block))
    (hfloor : ∀ t ∈ block, ∀ i < t.meanDbfs.length, -300 ≤ t.peakDbfs.getD i 0) :
    (blockOf m id block).mean m = blockMean m block ∧
      (blockOf m id block).peak = blockPeak block := by
  obtain ⟨first, rest, rfl⟩ := List.exists_cons_of_ne_nil hne
  obtain ⟨-, -, hsums, hpeaks⟩ := hagg.grid first List.mem_cons_self
  have hbins : binsOf (first :: rest) = first.meanDbfs.length := rfl
  constructor
  · refine List.ext_getElem ?_ fun i hi _ => ?_
    · rw [PowerBlock.mean, List.length_map, hsums, blockMean, List.length_map, List.length_range,
        hbins]
    · rw [PowerBlock.mean, List.length_map] at hi
      simp only [PowerBlock.mean, blockMean, List.getElem_map, List.getElem_range]
      rw [← hagg.power i hi, List.getD_eq_getElem _ _ hi]
      congr 5
      exact hagg.frames
  · refine List.ext_getElem ?_ fun i hi _ => ?_
    · rw [hpeaks, blockPeak, List.length_map, List.length_range, hbins]
    · have hgreatest := hagg.peak i hi
      rw [List.getD_eq_getElem _ _ hi] at hgreatest
      simp only [blockPeak, List.getElem_map, List.getElem_range]
      refine eq_of_forall_ge_iff fun x => ?_
      have hfold : (first :: rest).foldl (fun peak t => max peak (t.peakDbfs.getD i 0)) (-300) ≤ x ↔
          -300 ≤ x ∧ ∀ t ∈ first :: rest, t.peakDbfs.getD i 0 ≤ x :=
        Fold.foldl_max_le (φ := fun peak : K => peak) (fun _ _ => rfl) _ _ x
      rw [hfold]
      constructor
      · intro h
        have hall : ∀ t ∈ first :: rest, t.peakDbfs.getD i 0 ≤ x :=
          fun t ht => (hgreatest.2 ⟨t, ht, rfl⟩).trans h
        exact ⟨(hfloor first List.mem_cons_self i (by rwa [← hpeaks])).trans
          (hall first List.mem_cons_self), hall⟩
      · rintro ⟨-, hall⟩
        obtain ⟨t, ht, htx⟩ := hgreatest.1
        exact htx ▸ hall t ht

/-! ## Compact recordings -/

/-- The row of a tile names its power block and its positions. -/
def Placed (positions : List (SavedFix K)) (t : SpectrumTile K × ℕ) (row : SpectrumRow K) : Prop :=
  ∃ startFix endFix, row = tileRow t.1 (.compact t.2 startFix endFix) ∧
    Refers positions (validFix t.1.receiverStart) startFix ∧
    Refers positions (validFix t.1.receiverEnd) endFix

omit [Field K] [LinearOrder K] [FloorRing K] [IsStrictOrderedRing K] in
theorem Placed.mono {positions positions' : List (SavedFix K)} (hsub : positions ⊆ positions')
    {t : SpectrumTile K × ℕ} {row : SpectrumRow K} (h : Placed positions t row) :
    Placed positions' t row := by
  obtain ⟨startFix, endFix, hrow, hstart, hend⟩ := h
  exact ⟨startFix, endFix, hrow, hstart.mono hsub, hend.mono hsub⟩

/-- A compact recording of some tiles. -/
structure Compact (m : Libm K) (c : ReceiverConfig K) (tiles : List (SpectrumTile K))
    (s : SessionStore K) : Prop where
  covered : Covered m (tiles.map .tile) s (powerBlocks tiles)
  config : s.recordedConfig = c
  opened : s.powerBlock.frames = 0 → tiles = []
  fixes : SavedFixes s.db.positions s.recentFixes
  rows : List.Forall₂ (Placed s.db.positions) (referred (powerBlocks tiles)) s.db.tiles
  valid : ∀ t ∈ tiles, ValidTile t c ∧ t.quality ≤ 511
  ids : tiles.length ≤ s.previousTileId
  id_le : s.previousTileId ≤ int64Max

/-- One more tile keeps a compact recording. -/
theorem compact_tile {w : Unit} {tiles : List (SpectrumTile K)} (h : Compact m c tiles s)
    (hs : appendTile m t s = .ok w s') : Compact m c (tiles ++ [t]) s' := by
  have hcovered := covered_tile h.covered hs
  obtain ⟨haccepted, -, ⟨hbound, hbound'⟩, -, hs'⟩ := tile_ok h.covered.version h.covered.clean hs
  have hvalid := validateTile_iff.mp haccepted.valid
  obtain ⟨last, hext⟩ := h.covered.extended hvalid h.covered.config
  have hnext : nextBlocks s (powerBlocks tiles) t = powerBlocks (tiles ++ [t]) := by
    rw [powerBlocks_append, nextBlocks]
    split <;> rename_i hframes
    · rw [h.opened hframes]
      rfl
    · rfl
  rw [hnext] at hcovered hext
  obtain ⟨hfixes, hsub, hstart⟩ := referencePlaced_ok h.fixes hvalid.receiverStart hbound
  obtain ⟨hfixes', hsub', hend⟩ := referencePlaced_ok hfixes hvalid.receiverEnd hbound'
  have hconfig : s'.recordedConfig = c := by
    rw [hs']
    simp [guarded, h.config]
  rw [h.config] at hvalid
  refine ⟨by rwa [List.map_append], hconfig, fun hframes => ?_, by rw [hs']; exact hfixes', ?_,
    fun u hu => ?_, ?_, by rw [hs']; exact hvalid.interval.id_le⟩
  · rw [hs'] at hframes
    have hpos := hvalid.dimensions.frames_pos
    have hsum : (nextBlock s.powerBlock t).frames + t.frameCount = 0 := hframes
    omega
  · rw [hext.extended.referred, hs']
    simp only [guarded]
    refine List.rel_append (h.rows.imp fun _ _ hrow => hrow.mono fun _ hx => hsub' (hsub hx)) (.cons ?_ .nil)
    refine ⟨_, _, ?_, hstart.mono hsub', hend⟩
    rw [hext.block, blockOf_id]
  · rcases List.mem_append.mp hu with hu | hu
    · exact h.valid u hu
    · rw [List.mem_singleton.mp hu]
      exact ⟨hvalid, quality_le hvalid.dimensions.quality haccepted.fine⟩
  · have hid := haccepted.id h.covered.version
    have := h.ids
    rw [hs', List.length_append, List.length_singleton]
    simp only [guarded]
    omega

/-- A block of a compact recording with its identifier and its end points. -/
structure StoredBlock (m : Libm K) (c : ReceiverConfig K) (block : List (SpectrumTile K)) (id : ℕ)
    (first last : SpectrumTile K) : Prop where
  ok : BlockOk block
  saveable : Saveable m (blockOf m id block)
  aggregates : Aggregates m block (blockOf m id block)
  ends : Ends block first last
  valid : ∀ t ∈ block, ValidTile t c ∧ t.quality ≤ 511
  sampled : Sampled c
  id_pos : 0 < id
  id_le : id ≤ int64Max
  samples : (blockOf m id block).endSample =
    (blockOf m id block).firstSample + (blockOf m id block).frames * 4096

omit [Field K] [LinearOrder K] [FloorRing K] [IsStrictOrderedRing K] in
private theorem length_le_flatten {blocks : List (List (SpectrumTile K))}
    (h : ∀ b ∈ blocks, b ≠ []) : blocks.length ≤ blocks.flatten.length := by
  rw [List.length_flatten, ← List.length_map (f := List.length)]
  refine List.length_le_sum_of_one_le _ fun n hn => ?_
  obtain ⟨b, hb, rfl⟩ := List.mem_map.mp hn
  exact List.length_pos_iff.mpr (h b hb)

theorem Compact.block {tiles : List (SpectrumTile K)} (h : Compact m c tiles s)
    {b : List (SpectrumTile K) × ℕ} (hb : b ∈ (powerBlocks tiles).zipIdx 1) :
    ∃ first last, StoredBlock m c b.1 b.2 first last := by
  obtain ⟨block, id⟩ := b
  have hmem : block ∈ powerBlocks tiles := List.fst_mem_of_mem_zipIdx hb
  have hok := h.covered.blocksOk block hmem
  have hvalid : ∀ t ∈ block, ValidTile t c ∧ t.quality ≤ 511 := fun t ht => by
    refine h.valid t ?_
    rw [← flatten_powerBlocks tiles]
    exact List.mem_flatten.mpr ⟨block, hmem, ht⟩
  have hsampled : Sampled c := h.config ▸ h.covered.config
  have hordered := h.covered.ordered
  rw [← h.covered.tiles, List.pairwise_flatten] at hordered
  obtain ⟨first, last, hends⟩ := ends_of_ordered hok.nonempty (hordered.1 block hmem)
    fun t ht => ⟨(hvalid t ht).1.dimensions.first_lt.le, (duration_mem (hvalid t ht).1 hsampled).1⟩
  have hindex := List.mem_zipIdx hb
  have hlength := length_le_flatten fun b hb => (h.covered.blocksOk b hb).nonempty
  rw [flatten_powerBlocks] at hlength
  have hids := h.ids
  have hid_le := h.id_le
  refine ⟨first, last, hok, h.covered.saveable block hmem id, aggregates_blockOf hok.nonempty hok.chain fun t ht =>
    leveled_of_valid (hvalid t ht).1, hends, hvalid, hsampled, hindex.1, by omega,
    samples_blockOf hok.nonempty hok.chain fun t ht => ?_⟩
  have hd := (hvalid t ht).1.dimensions
  have hlt := hd.first_lt
  have hsamples := hd.samples
  omega

omit [FloorRing K] [IsStrictOrderedRing K] in
/-- The times of a block with its end points. -/
theorem blockTimed_iff {block : List (SpectrumTile K)} {first last : SpectrumTile K}
    (hends : Ends block first last) {sampleRate : ℕ} : BlockTimed block sampleRate ↔
      first.utcStartSeconds < last.utcEndSeconds ∧
      |(last.utcEndSeconds - first.utcStartSeconds) -
        (last.elapsedEndSeconds - first.elapsedStartSeconds)| ≤ 2 / 1000 ∧
      |(last.elapsedEndSeconds - first.elapsedStartSeconds) -
        ((block.map (·.frameCount)).sum * 4096 : ℕ) / sampleRate| ≤ 1 / 10 ^ 7 := by
  have hfirst : ∀ t ∈ block.head?, t = first := fun t ht =>
    Option.mem_unique ht hends.isFirst
  have hlast : ∀ t ∈ block.getLast?, t = last := fun t ht => Option.mem_unique ht hends.isLast
  constructor
  · intro h
    exact ⟨h.utc _ hends.isFirst _ hends.isLast, h.drift _ hends.isFirst _ hends.isLast,
      h.duration _ hends.isFirst _ hends.isLast⟩
  · rintro ⟨hutc, hdrift, hduration⟩
    refine ⟨fun t ht u hu => ?_, fun t ht u hu => ?_, fun t ht u hu => ?_⟩ <;>
      rw [hfirst t ht, hlast u hu] <;> assumption

/-- A block within a second has at most 5000 frames. -/
theorem frames_le {frames : ℕ} {span : K} (hc : Sampled c) (hspan : span ≤ 1 + 1 / 10 ^ 8)
    (hduration : |span - ((frames * 4096 : ℕ) : K) / c.sampleRate| ≤ 1 / 10 ^ 7) :
    frames ≤ 5000 := by
  have hrate : (0 : K) < c.sampleRate := Nat.cast_pos.mpr (by have := hc.rate_ge; omega)
  have hle : (c.sampleRate : K) ≤ 20000000 := by exact_mod_cast hc.rate_le
  have hsamples : ((frames * 4096 : ℕ) : K) / c.sampleRate ≤ 1 + 1 / 10 ^ 6 := by
    have := (abs_le.mp hduration).1
    norm_num at this hspan ⊢
    linarith
  rw [div_le_iff₀ hrate] at hsamples
  have hlt : ((frames * 4096 : ℕ) : K) ≤ ((5000 * 4096 : ℕ) : K) := by
    push_cast at hsamples ⊢
    norm_num at hsamples ⊢
    linarith
  have := Nat.cast_le.mp hlt
  omega

/-- The reader's check of a power block is the check of its times. -/
theorem checkPower_iff {block : List (SpectrumTile K)} {id : ℕ} {first last : SpectrumTile K}
    (h : StoredBlock m c block id first last) (ht : t ∈ block)
    (hbins : mean.length = t.meanDbfs.length) {w : Unit} :
    checkPower { located t with meanDbfs := mean, peakDbfs := peak }
        (savedRow m (blockOf m id block)) c.sampleRate = .ok w ↔
      BlockTimed block c.sampleRate := by
  obtain ⟨hfirst, hutcStart, hstart⟩ := h.aggregates.first first h.ends.isFirst
  obtain ⟨hlast, hutcEnd, hend⟩ := h.aggregates.last last h.ends.isLast
  obtain ⟨hcenter, hwidth, hsums, -⟩ := h.aggregates.grid t ht
  have hframes := h.aggregates.frames
  have hsamples := h.samples
  have hmemFirst := List.mem_of_mem_head? h.ends.isFirst
  have hmemLast := List.mem_of_mem_getLast? h.ends.isLast
  have hvalidFirst := (h.valid first hmemFirst).1
  have hvalidLast := (h.valid last hmemLast).1
  obtain ⟨hsampleFirst, hsampleLast⟩ := h.ends.sample t ht
  obtain ⟨helapsedFirst, helapsedLast⟩ := h.ends.elapsed t ht
  have hspan := h.ok.span first h.ends.isFirst last h.ends.isLast
  have hlong := duration_mem (h.valid t ht).1 h.sampled
  rw [hframes, hlast, hfirst] at hsamples
  rw [blockTimed_iff h.ends]
  simp only [checkPower, savedRow, powerRow, located, bind_eq_ok, unsignedValue_eq_ok, interval_iff,
    reject_eq_ok, not_or, not_lt, not_not, ne_eq, blockOf_id, hfirst, hutcStart, hstart, hlast,
    hutcEnd, hend, hcenter, hwidth, hsums, hframes, hbins]
  -- The reader subtracts as `uint64_t`, and the end does not lie before the start.
  have hwrap : (((last.endSample : ℤ) - first.firstSample) % 2 ^ 64) =
      ((block.map (·.frameCount)).sum * 4096 : ℕ) := by
    have := hvalidLast.dimensions.end_le
    have : int64Max < 2 ^ 63 := by decide
    rw [hsamples, Int.emod_eq_of_lt] <;> omega
  -- Of the checks of the block only its times may fail; the rest hold of every block that was stored.
  constructor
  · rintro ⟨_, ⟨-, rfl⟩, _, ⟨-, rfl⟩, _, ⟨-, rfl⟩, _, ⟨-, rfl⟩, _, ⟨-, rfl⟩, _, hinterval, -, -, -, -,
      -, -, -, -, -, -, hduration⟩
    rw [hwrap, Int.cast_natCast] at hduration
    exact ⟨hinterval.utc, hinterval.drift, hduration⟩
  · rintro ⟨hutc, hdrift, hduration⟩
    refine ⟨_, ⟨hvalidFirst.dimensions.first_le, rfl⟩, _, ⟨hvalidLast.dimensions.end_le, rfl⟩, _,
      ⟨frames_le h.sampled hspan hduration, rfl⟩, _, ⟨(h.valid t ht).1.dimensions.bins_le, rfl⟩, _,
      ⟨h.id_le, rfl⟩, (), ?_, ?_⟩
    · exact ⟨h.id_pos, h.id_le, hvalidFirst.interval.utcStart_nonneg,
        hvalidLast.interval.utcEnd_nonneg, hvalidFirst.interval.elapsedStart_nonneg,
        hvalidLast.interval.elapsedEnd_nonneg, hutc, by linarith [hlong.1],
        hvalidLast.interval.elapsed_le, hdrift⟩
    · rw [hwrap, Int.cast_natCast]
      exact ⟨by linarith, by linarith, by linarith, hsampleFirst, hsampleLast, by push_cast; rfl,
        rfl, trivial, trivial, trivial, hduration⟩

omit [IsStrictOrderedRing K] in
/-- The row of a power block is found under its identifier. -/
theorem find_rowsOf {blocks : List (List (SpectrumTile K))} {b : List (SpectrumTile K) × ℕ}
    (hb : b ∈ blocks.zipIdx 1) :
    (rowsOf m blocks).find? (·.id = b.2) = some (savedRow m (blockOf m b.2 b.1)) := by
  have hids : (rowsOf m blocks).map PowerRow.id = List.range' 1 blocks.length := by
    rw [rowsOf, List.map_map, ← List.zipIdx_map_snd 1 blocks]
    exact List.map_congr_left fun _ _ => by simp [savedRow, powerRow]
  apply find?_key
  · rw [hids]
    exact List.nodup_range'
  · exact List.mem_map.mpr ⟨b, hb, rfl⟩
  · simp [savedRow, powerRow]

/-- A compact row reads back when the times of its block agree and the rounding of its levels keeps
their order. -/
theorem compactRow_reads {tiles : List (SpectrumTile K)} (h : Compact m c tiles s)
    {b : List (SpectrumTile K) × ℕ} (hb : b ∈ (powerBlocks tiles).zipIdx 1) (ht : t ∈ b.1)
    {row : SpectrumRow K} (hrow : Placed s.db.positions (t, b.2) row) :
    (∃ t', tileFrom s.db row c = .ok t' ∧ ReadsBack (aggregated m b.1 t) t') ↔
      BlockTimed b.1 c.sampleRate ∧ MeanBelowPeak (blockMean m b.1) (blockPeak b.1) := by
  obtain ⟨block, id⟩ := b
  obtain ⟨first, last, hstored⟩ := h.block hb
  obtain ⟨startFix, endFix, rfl, hstart, hend⟩ := hrow
  obtain ⟨hvalid, hquality⟩ := hstored.valid t ht
  obtain ⟨hmean, hpeak⟩ := levels_blockOf hstored.ok.nonempty hstored.aggregates fun u hu =>
    (leveled_of_valid (hstored.valid u hu).1).floor
  obtain ⟨-, -, hsums, hpeaks⟩ := hstored.aggregates.grid t ht
  have hsave := hstored.saveable
  have hlevels : Supported (blockMean m block) ∧ Supported (blockPeak block) := by
    rw [← hmean, ← hpeak]
    exact ⟨hsave.mean, hsave.peak⟩
  have hbins : (blockMean m block).length = t.meanDbfs.length ∧
      (blockPeak block).length = t.meanDbfs.length := by
    rw [← hmean, ← hpeak, PowerBlock.mean, List.length_map]
    exact ⟨hsums, hpeaks⟩
  have hfind := find_rowsOf (m := m) hb
  rw [← h.covered.rows] at hfind
  obtain ⟨hstart', hjoin⟩ := position_of_refers h.fixes.unique hstart
  obtain ⟨hend', hjoin'⟩ := position_of_refers h.fixes.unique hend
  have hcolumns := tileColumns_tileRow hvalid hquality hbins hlevels
    ⟨storable_of_refers h.fixes hstart, storable_of_refers h.fixes hend⟩ (.compact id startFix endFix)
  have hbound : t.quality ||| powerAggregated.mask ≤ 1023 := by
    have hlt : t.quality ||| powerAggregated.mask < 2 ^ 10 :=
      Nat.or_lt_two_pow (by omega) (by decide)
    omega
  -- The times of the row are those of the first and the last tile of its block.
  have hpower : (block.head?.map (·.elapsedStartSeconds)).getD 0 =
        (savedRow m (blockOf m id block)).elapsedStart ∧
      (block.getLast?.map (·.elapsedEndSeconds)).getD 0 =
        (savedRow m (blockOf m id block)).elapsedEnd := by
    have hfirst := hstored.ends.isFirst
    have hlast := hstored.ends.isLast
    rw [Option.mem_def.mp hfirst, Option.mem_def.mp hlast]
    exact ⟨(hstored.aggregates.first first hfirst).2.2.symm,
      (hstored.aggregates.last last hlast).2.2.symm⟩
  have hread := validTile_read hvalid hbins hlevels hbound
    (savedRow m (blockOf m id block)).elapsedStart (savedRow m (blockOf m id block)).elapsedEnd
  have hcheck : ∀ w : Unit, checkPower { located t with
        meanDbfs := (blockMean m block).map quantized
        peakDbfs := (blockPeak block).map quantized } (savedRow m (blockOf m id block))
        c.sampleRate = .ok w ↔ BlockTimed block c.sampleRate := fun _ =>
    checkPower_iff hstored ht (by rw [List.length_map, hbins.1])
  have hlevelBytes : (savedRow m (blockOf m id block)).meanCdb = levelBytes (blockMean m block) ∧
      (savedRow m (blockOf m id block)).peakCdb = levelBytes (blockPeak block) := by
    rw [← hmean, ← hpeak]
    exact ⟨rfl, rfl⟩
  rw [← hread]
  simp only [tileFrom, tileRow, hfind, hlevelBytes, hstart', hend', bind_eq_ok, pure_eq_ok,
    validateTile_iff, reject_eq_ok]
  constructor
  · rintro ⟨t', ⟨u, hu, w, htimed, -, -, -, hvalid', -⟩, -⟩
    cases hcolumns.symm.trans hu
    exact ⟨(hcheck w).mp htimed, hvalid'⟩
  · rintro ⟨htimed, hvalid'⟩
    refine ⟨_, ⟨_, hcolumns, (), (hcheck ()).mpr htimed, (), not_or.mpr ⟨hjoin, hjoin'⟩, (), hvalid',
      rfl⟩, ?_, forall₂_quantized hlevels.1, forall₂_quantized hlevels.2⟩
    simp only [aggregated, located, hpower]

/-! ## Every row -/

/-- A relation that is a predicate of its left side holds of two lists when the predicate does. -/
theorem forall₂_iff_forall {α β : Type} {R Q : α → β → Prop} {P : α → Prop} {l : List α} {u : List β}
    (h : List.Forall₂ R l u) (hiff : ∀ a ∈ l, ∀ b, R a b → (Q a b ↔ P a)) :
    List.Forall₂ Q l u ↔ ∀ a ∈ l, P a := by
  induction h with
  | nil => simp
  | cons hab _ ih =>
    rw [List.forall₂_cons, List.forall_mem_cons, hiff _ List.mem_cons_self _ hab,
      ih fun a ha => hiff a (List.mem_cons_of_mem _ ha)]

/-- The tiles of the blocks, each with its block and the identifier. -/
def blocked (blocks : List (List (SpectrumTile K))) :
    List (SpectrumTile K × List (SpectrumTile K) × ℕ) :=
  (blocks.zipIdx 1).flatMap fun b => b.1.map fun t => (t, b)

omit [Field K] [LinearOrder K] [FloorRing K] [IsStrictOrderedRing K] in
theorem mem_blocked {blocks : List (List (SpectrumTile K))}
    {p : SpectrumTile K × List (SpectrumTile K) × ℕ} :
    p ∈ blocked blocks ↔ p.2 ∈ blocks.zipIdx 1 ∧ p.1 ∈ p.2.1 := by
  simp only [blocked, List.mem_flatMap, List.mem_map]
  constructor
  · rintro ⟨b, hb, t, ht, rfl⟩
    exact ⟨hb, ht⟩
  · rintro ⟨hb, ht⟩
    exact ⟨p.2, hb, p.1, ht, rfl⟩

omit [Field K] [LinearOrder K] [FloorRing K] [IsStrictOrderedRing K] in
/-- What holds of the block of every tile holds of every block. -/
theorem forall_blocked (P : List (SpectrumTile K) → Prop) {blocks : List (List (SpectrumTile K))}
    (hne : ∀ b ∈ blocks, b ≠ []) :
    (∀ p ∈ blocked blocks, P p.2.1) ↔ ∀ b ∈ blocks, P b := by
  constructor
  · intro h b hb
    obtain ⟨t, ht⟩ := List.exists_mem_of_ne_nil b (hne b hb)
    rw [← List.zipIdx_map_fst 1 blocks] at hb
    obtain ⟨p, hp, rfl⟩ := List.mem_map.mp hb
    exact h (t, p) (mem_blocked.mpr ⟨hp, ht⟩)
  · intro h p hp
    exact h _ (List.fst_mem_of_mem_zipIdx (mem_blocked.mp hp).1)

theorem compact_reads {tiles : List (SpectrumTile K)} (h : Compact m c tiles s) :
    List.Forall₂ (fun e row => ∃ t', tileFrom s.db row c = .ok t' ∧ ReadsBack e t')
        (expected m 6 tiles) s.db.tiles ↔
      Compatible m 6 c.sampleRate tiles := by
  have hexpected : expected m 6 tiles =
      (blocked (powerBlocks tiles)).map fun p => aggregated m p.2.1 p.1 := by
    rw [expected, if_pos le_rfl, blocked, List.map_flatMap]
    simp only [List.map_map]
    conv_lhs => rw [← List.zipIdx_map_fst 1 (powerBlocks tiles), List.flatMap_map]
    rfl
  have hreferred : referred (powerBlocks tiles) =
      (blocked (powerBlocks tiles)).map fun p => (p.1, p.2.2) := by
    rw [referred, blocked, List.map_flatMap]
    simp only [List.map_map]
    rfl
  have hrows := h.rows
  rw [hreferred, List.forall₂_map_left_iff] at hrows
  rw [hexpected, List.forall₂_map_left_iff, forall₂_iff_forall hrows fun p hp row hrow =>
    compactRow_reads h (mem_blocked.mp hp).1 (mem_blocked.mp hp).2 hrow]
  rw [Compatible, if_pos le_rfl]
  exact forall_blocked (fun block => BlockTimed block c.sampleRate ∧
    MeanBelowPeak (blockMean m block) (blockPeak block))
    fun b hb => (h.covered.blocksOk b hb).nonempty

theorem detailed_reads {tiles : List (SpectrumTile K)} (h : Detailed c tiles s) :
    List.Forall₂ (fun e row => ∃ t', tileFrom s.db row c = .ok t' ∧ ReadsBack e t')
        (expected m 5 tiles) s.db.tiles ↔
      Compatible m 5 c.sampleRate tiles := by
  rw [expected, if_neg (by decide), Compatible, if_neg (by decide), h.rows,
    List.forall₂_map_left_iff, List.forall₂_map_right_iff, List.forall₂_same]
  exact forall₂_congr fun t ht => detailedRow_reads (h.valid t ht).1 (h.valid t ht).2 (h.fixes t ht) s.db

omit [IsStrictOrderedRing K] in
theorem compact_create {id : Text} (h : create c id = .ok s) (hversion : s.schemaVersion = 6) :
    Compact m c [] s := by
  have hcovered : Covered m [] s [] := covered_create h hversion
  obtain ⟨threshold, -, -, rfl⟩ := create_ok h
  refine ⟨hcovered, rfl, fun _ => rfl, ⟨List.nodup_nil, ?_, ?_⟩, .nil, ?_, le_rfl, Nat.zero_le _⟩
  · intro row hrow
    cases hrow
  · intro e he
    cases he
  · intro t ht
    cases ht

omit [IsStrictOrderedRing K] in
theorem detailed_create {id : Text} (h : create c id = .ok s) (hversion : s.schemaVersion = 5) :
    Detailed c [] s := by
  obtain ⟨threshold, -, -, rfl⟩ := create_ok h
  refine ⟨hversion, rfl, rfl, ?_, ?_⟩
  · intro t ht
    cases ht
  · intro t ht
    cases ht

omit [IsStrictOrderedRing K] in
/-- A concentrator recording takes no tile. -/
theorem scans_tile {w : Unit} (hversion : s.schemaVersion = 7) : appendTile m t s ≠ .ok w s' := by
  intro h
  simp only [appendTile, ok_bind, ok_get, ok_check, reject_eq_ok] at h
  obtain ⟨_, _, ⟨rfl, rfl⟩, _, _, ⟨h7, rfl⟩, -⟩ := h
  exact h7 hversion

/-- Some tiles are accepted, and the reader rejects a row of theirs. -/
def Unreadable (c : ReceiverConfig ℚ) (tiles : List (SpectrumTile ℚ)) : Prop :=
  ∃ s s', create c [] = .ok s ∧ (forM tiles (appendTile decimalLibm)) s = .ok () s' ∧
    ∃ row ∈ s'.db.tiles, ∀ t, tileFrom s'.db row c ≠ .ok t

/-- The recording of `compactConfig` with its own levels for every tile. -/
def detailedConfig : ReceiverConfig ℚ := { compactConfig with compactRecording := false }

/-- A tile whose mean exceeds its peak by 0.0104 dB, which the rounding makes 0.02 dB. -/
def levelTile : SpectrumTile ℚ :=
  { frameTile 0 with meanDbfs := [-499948 / 10000], peakDbfs := [-500052 / 10000] }

/-- Tile `n + 1` of a recording whose tiles are 90 ns too long. -/
def longTile (n : ℕ) : SpectrumTile ℚ :=
  let duration : ℚ := 4096 / 8000000 + 9 / 10 ^ 8
  { frameTile n with
    utcStartSeconds := n * duration, utcEndSeconds := (n + 1) * duration
    elapsedStartSeconds := n * duration, elapsedEndSeconds := (n + 1) * duration }

/-- The state of a new recording. -/
def startOf (c : ReceiverConfig ℚ) : SessionStore ℚ :=
  { compactStart with
    db := newDatabase c [] (-60)
    committed := newDatabase c [] (-60)
    schemaVersion := if c.Rak then 7 else if c.compactRecording then 6 else 5
    recordedConfig := c }

theorem create_startOf {c : ReceiverConfig ℚ} (h : (create c []).isOk = true)
    (hthreshold : c.activityThresholdDbfs = some (-60)) : create c [] = .ok (startOf c) := by
  cases hcreate : create c [] with
  | error e =>
    rw [hcreate] at h
    cases h
  | ok s =>
    obtain ⟨threshold, hthreshold', -, rfl⟩ := create_ok hcreate
    cases hthreshold.symm.trans hthreshold'
    rfl

theorem unreadable {c : ReceiverConfig ℚ} {tiles : List (SpectrumTile ℚ)}
    (hcreate : create c [] = .ok (startOf c))
    (htiles : isOk ((forM tiles (appendTile decimalLibm)) (startOf c)) = true)
    (hrow : (finalState ((forM tiles (appendTile decimalLibm)) (startOf c))).db.tiles.any (fun row =>
      !(tileFrom (finalState ((forM tiles (appendTile decimalLibm)) (startOf c))).db row c).isOk)) :
    Unreadable c tiles := by
  obtain ⟨row, hmem, hread⟩ := List.any_eq_true.mp hrow
  refine ⟨_, _, hcreate, eq_ok_of_isOk htiles, row, hmem, fun t ht => ?_⟩
  rw [ht] at hread
  cases hread

end SessionStore

end OVMesh
