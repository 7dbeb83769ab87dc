import OVMesh.Store.Grid

/-!
# Frames of a tile

What the byte loop of one frame finds, in terms of the active cells of the frame, and what the loop
over the frames of a tile adds to the sums.

* `scanFrame_flag`, `scanFrame_bins`: the byte loop.
* `binOf`, `Measured`: the sums that belong to a list of tiles and frames.
* `analyzeFrame_ok`: one frame adds its length to the parts and the bins in which it is active.
-/

namespace OVMesh

/-- The flags of a scan, by the part of the range that they are about. -/
def Analysis.Scan.flag {K : Type} (s : Analysis.Scan K) : Region → Bool
  | .all => s.busy
  | .center => s.centerBusy
  | .outside => s.outsideBusy

/-- The part of the range takes a bin on this side of the guard. -/
def Region.Takes : Region → Prop → Prop
  | all, _ => True
  | center, guarded => guarded
  | outside, guarded => ¬ guarded

namespace Analysis

open Checked Clip SpectrumProcessor

variable {K : Type} [Field K] [LinearOrder K]

/-! ## The byte loop -/

section Scan

variable {gr : Grid K} {activity : List ℕ} {offset byte frame first last : ℕ} {seconds : K}
  {s : Scan K} {bins : List (BinSum K)} {r : Region}

/-- The masks of a byte are not zero when they have a common bit. -/
theorem and_ne_zero {a b : ℕ} : (a &&& b != 0) = true ↔ ∃ j, a.testBit j = true ∧ b.testBit j = true := by
  rw [bne_iff_ne]
  constructor
  · intro h
    obtain ⟨j, hj⟩ := Nat.exists_testBit_of_ne_zero h
    rw [Nat.testBit_and, Bool.and_eq_true] at hj
    exact ⟨j, hj⟩
  · rintro ⟨j, ha, hb⟩ hzero
    have hj : (a &&& b).testBit j = true := by rw [Nat.testBit_and, ha, hb]; rfl
    rw [hzero, Nat.zero_testBit] at hj
    cases hj

omit [LinearOrder K] in
/-- One byte sets a flag when it holds a bit of a bin that the flag is about. -/
theorem scanByte_flag (h : AreBytes activity) (s : Scan K) (byte : ℕ) :
    (scanByte gr activity offset seconds s byte).flag r = true ↔ s.flag r = true ∨
      ∃ j, (maskedByte activity offset gr.first gr.last byte).testBit j = true ∧
        r.Takes (Bitmap.bit gr.centerMasks (byte * 8 + j) = true) := by
  have hsmall : ∀ j, (maskedByte activity offset gr.first gr.last byte).testBit j = true → j < 8 :=
    fun j hj => by
      by_contra hge
      rw [testBit_maskedByte_iff, h.testBit (not_lt.mp hge)] at hj
      cases hj.1
  have hbit : ∀ j, j < 8 → Bitmap.bit gr.centerMasks (byte * 8 + j) =
      (gr.centerMasks.getD byte 0).testBit j := fun j hj => by
    rw [Bitmap.bit, show (byte * 8 + j) / 8 = byte by omega, show (byte * 8 + j) % 8 = j by omega]
  cases r with
  | all =>
    refine Bool.or_eq_true_iff.trans (or_congr_right ?_)
    rw [← Nat.and_self (maskedByte _ _ _ _ _), and_ne_zero, Nat.and_self]
    exact exists_congr fun j => and_congr_right fun hj => iff_of_true hj trivial
  | center =>
    refine Bool.or_eq_true_iff.trans (or_congr_right (and_ne_zero.trans ?_))
    refine exists_congr fun j => and_congr_right fun hj => ?_
    rw [Region.Takes, hbit j (hsmall j hj)]
  | outside =>
    refine Bool.or_eq_true_iff.trans (or_congr_right (and_ne_zero.trans ?_))
    refine exists_congr fun j => and_congr_right fun hj => ?_
    have hj := hsmall j hj
    rw [Region.Takes, hbit j hj, Nat.testBit_xor, show 0xffffffff = 2 ^ 32 - 1 by rfl,
      Nat.testBit_two_pow_sub_one, decide_eq_true (by omega), Bool.true_xor, Bool.not_eq_true',
      Bool.not_eq_true]

omit [LinearOrder K] in
/-- A flag is set when a selected bin on its side of the guard is active in the frame. -/
theorem scanFrame_flag (h : AreBytes activity) (hlt : gr.first < gr.last) :
    (scanFrame gr activity frame seconds bins).flag r = true ↔
      ∃ b, gr.first ≤ b ∧ b < gr.last ∧
        Bitmap.bit activity (8 * (frame * ((gr.count + 7) / 8)) + b) = true ∧
        r.Takes (Bitmap.bit gr.centerMasks b = true) := by
  rw [scanFrame, Fold.foldl_or (φ := fun s : Scan K => s.flag r = true) (scanByte_flag h)]
  have hinit : ¬ (Scan.flag (K := K) ⟨false, false, false, bins⟩ r = true) := by
    cases r <;> exact Bool.false_ne_true
  rw [or_iff_right hinit]
  constructor
  · rintro ⟨byte, hbyte, j, hj, htakes⟩
    rw [testBit_maskedByte h hlt hbyte] at hj
    refine ⟨byte * 8 + j, hj.2.1, hj.2.2.1, ?_, htakes⟩
    have hmem : byte * 8 + j ∈
        visitedBins activity (frame * ((gr.count + 7) / 8)) gr.first gr.last := by
      rw [visitedBins, List.mem_flatMap]
      refine ⟨byte, hbyte, List.mem_map.mpr ⟨j, ?_, rfl⟩⟩
      rw [Bitmap.mem_setBits, testBit_maskedByte h hlt hbyte]
      exact hj
    exact ((mem_visitedBins h hlt).mp hmem).2.2
  · rintro ⟨b, hfirst, hlast, hbit, htakes⟩
    have hmem := (mem_visitedBins h hlt).mpr ⟨hfirst, hlast, hbit⟩
    rw [visitedBins, List.mem_flatMap] at hmem
    obtain ⟨byte, hbyte, hmem⟩ := hmem
    obtain ⟨j, hj, rfl⟩ := List.mem_map.mp hmem
    exact ⟨byte, hbyte, j, Bitmap.mem_setBits.mp hj, htakes⟩

omit [LinearOrder K] in
/-- The loop credits the visited bins. -/
theorem scanFrame_bins : (scanFrame gr activity frame seconds bins).bins =
    (visitedBins activity (frame * ((gr.count + 7) / 8)) gr.first gr.last).foldl
      (fun bins b => bins.modify (gr.indexes.getD b 0) (.addActive seconds)) bins := by
  rw [visitedBins, List.foldl_flatMap]
  simp only [List.foldl_map]
  exact (List.foldl_hom Scan.bins fun _ _ => rfl).symm

end Scan

/-! ## The cells of a frame -/

section Cells

variable {g : Shape K} {c : ReceiverConfig K} {lower upper : K} {gr : Grid K} {t : SpectrumTile K}
  {f b : ℕ} {l : List (BinSum K)} {d : K} {r : Region} {e : ℕ → BinSum K}

theorem cells_inter_binCells : (activeCells c t f ∩ binCells b).Nonempty ↔ t.Active f b := by
  constructor
  · rintro ⟨cell, hactive, hcell⟩
    rw [← show cell.1 = b from hcell]
    exact hactive.1
  · exact fun h => ⟨(b, Guarded (t.shape.center b) t.binWidthHz c.centerHz), ⟨h, Iff.rfl⟩, rfl⟩

theorem cells_inter_region : (activeCells c t f ∩ r.cells g lower upper).Nonempty ↔
    ∃ b, g.Meets lower upper b ∧ t.Active f b ∧
      r.Takes (Guarded (t.shape.center b) t.binWidthHz c.centerHz) := by
  constructor
  · rintro ⟨⟨b, guarded⟩, ⟨hactive, hguard⟩, hcell⟩
    refine ⟨b, ?_, hactive, ?_⟩
    · exact (r.cells_subset_all hcell :)
    · cases r with
      | all => trivial
      | center => exact hguard.mp hcell.2
      | outside => exact fun h => hcell.2 (hguard.mpr h)
  · rintro ⟨b, hmeets, hactive, htakes⟩
    refine ⟨(b, Guarded (t.shape.center b) t.binWidthHz c.centerHz), ⟨hactive, Iff.rfl⟩, ?_⟩
    cases r with
    | all => exact hmeets
    | center => exact ⟨hmeets, htakes⟩
    | outside => exact ⟨hmeets, htakes⟩

variable [IsStrictOrderedRing K]

/-- The flags of a frame say which parts of the range its active cells are in. -/
theorem flag_iff (hg : GridOk g c lower upper gr) (hw : 0 < g.width) (ht : t.shape = g)
    (hbytes : AreBytes t.activity) (hlt : gr.first < gr.last) :
    (scanFrame gr t.activity f d l).flag r = true ↔
      (activeCells c t f ∩ r.cells g lower upper).Nonempty := by
  subst ht
  have hmem : ∀ b, gr.first ≤ b ∧ b < gr.last ↔ t.shape.Meets lower upper b := fun b => by
    rw [hg.last, hg.first]
    exact mem_firstBin_lastBin hw
  rw [scanFrame_flag hbytes hlt, cells_inter_region, hg.count]
  refine exists_congr fun b => ?_
  rw [← and_assoc, hmem]
  refine and_congr_right fun hmeets => and_congr_right fun _ => ?_
  obtain ⟨hfirst, hlast⟩ := (hmem b).mpr hmeets
  have hguard := hg.centers b hfirst hlast
  cases r with
  | all => exact Iff.rfl
  | center => exact hguard
  | outside => exact not_congr hguard

open Classical in
/-- A frame adds its length to the bins that are active in it. -/
theorem bins_eq (hg : GridOk g c lower upper gr) (hw : 0 < g.width) (ht : t.shape = g)
    (hbytes : AreBytes t.activity) (hlt : gr.first < gr.last)
    (hbins : l = (g.selected lower upper).map e) :
    (scanFrame gr t.activity f d l).bins = (g.selected lower upper).map fun b =>
      if (activeCells c t f ∩ binCells b).Nonempty then (e b).addActive d else e b := by
  subst ht
  have hvisited : ∀ b, b ∈ visitedBins t.activity (f * ((gr.count + 7) / 8)) gr.first gr.last ↔
      gr.first ≤ b ∧ b < gr.last ∧ t.Active f b := fun b => by
    rw [mem_visitedBins hbytes hlt, hg.count]
    rfl
  rw [scanFrame_bins, hbins, hg.selected hw]
  calc _ = (visitedBins t.activity (f * ((gr.count + 7) / 8)) gr.first gr.last).foldl
        (fun bins b => bins.modify (b - gr.first) (BinSum.addActive d))
        (Fold.table gr.first (gr.last - gr.first) e) := by
        refine List.foldl_ext _ _ _ fun bins b hb => ?_
        rw [hvisited] at hb
        rw [hg.indexes b hb.1 hb.2.1]
    _ = _ := by
      rw [Fold.foldl_modify_table (visitedBins_nodup hbytes hlt) fun b hb => ((hvisited b).mp hb).1]
      refine Fold.table_congr fun b hb hb' => if_congr ?_ rfl rfl
      rw [hvisited, cells_inter_binCells]
      exact ⟨fun h => h.2.2, fun h => ⟨hb, by omega, h⟩⟩

end Cells

/-! ## The sums of tiles and frames -/

/-- The tiles within the query that have bin `b`, with their largest peak. -/
def peakOf (m : Libm K) (q : SurveyQuery K) (tiles : List (SpectrumTile K)) (b : ℕ) : K :=
  tiles.foldl (fun x t =>
    if 0 < tileSeconds q t then max x (m.pow10 (t.peakDbfs.getD b 0 / 10)) else x) 0

/-- What bin `b` holds after some tiles and frames. -/
noncomputable def binOf (m : Libm K) (g : Shape K) (q : SurveyQuery K)
    (tiles : List (SpectrumTile K)) (frames : List (Frame K)) (b : ℕ) : BinSum K :=
  { centerHz := g.center b
    widthHz := g.width
    observedSeconds := observedSeconds q tiles
    activeSeconds := activeSeconds q frames (binCells b)
    power := (tiles.map fun t => m.pow10 (t.meanDbfs.getD b 0 / 10) * tileSeconds q t).sum
    peak := peakOf m q tiles b }

/-- The sums are those of the tiles and the frames. -/
structure Measured (m : Libm K) (g : Shape K) (q : SurveyQuery K) (lower upper : K)
    (tiles : List (SpectrumTile K)) (frames : List (Frame K)) (s : Sums K) : Prop where
  observed : s.observedSeconds = observedSeconds q tiles
  seconds : ∀ r, s.seconds r = activeSeconds q frames (Region.cells g lower upper r)
  bins : s.bins = (g.selected lower upper).map (binOf m g q tiles frames)

section Frames

variable {m : Libm K} {g : Shape K} {q : SurveyQuery K} {c : ReceiverConfig K} {lower upper : K}
  {tiles : List (SpectrumTile K)} {frames : List (Frame K)} {s : Sums K} {gr : Grid K}
  {t : SpectrumTile K} {f : ℕ} {start stop : K} {B : Set Cell} {b : ℕ} {frame : Frame K}

open Classical in
theorem activeSeconds_append : activeSeconds q (frames ++ [frame]) B =
    if (frame.cells ∩ B).Nonempty then activeSeconds q frames B + frame.seconds q
    else activeSeconds q frames B := by
  rw [activeSeconds, Occupancy.occupied_append]
  split <;> rename_i h
  · rw [Occupancy.occupied_singleton_of_nonempty h]
    rfl
  · rw [Occupancy.occupied_singleton_of_not h, add_zero]
    rfl

open Classical in
theorem binOf_append : binOf m g q tiles (frames ++ [frame]) b =
    if (frame.cells ∩ binCells b).Nonempty then
      (binOf m g q tiles frames b).addActive (frame.seconds q)
    else binOf m g q tiles frames b := by
  unfold binOf
  rw [activeSeconds_append]
  split <;> rfl

/-- A frame of no length adds nothing. -/
theorem Measured.skip (h : Measured m g q lower upper tiles frames s) (hzero : frame.seconds q = 0) :
    Measured m g q lower upper tiles (frames ++ [frame]) s := by
  have hactive : ∀ B, activeSeconds q (frames ++ [frame]) B = activeSeconds q frames B := fun B => by
    rw [activeSeconds_append, hzero, add_zero, ite_self]
  refine ⟨h.observed, fun r => by rw [hactive, h.seconds], ?_⟩
  rw [h.bins]
  refine List.map_congr_left fun b _ => ?_
  rw [binOf, binOf, hactive]

variable [IsStrictOrderedRing K]

/-- The clipped ends of a frame. -/
theorem frameSeconds_eq (hregion : q.InRegion t.receiverEnd)
    (hstart : start = max q.elapsedStart t.elapsedStartSeconds)
    (hstop : stop = min q.stop t.elapsedEndSeconds) : frameSeconds q c t f =
      max 0 ((frameSpan c t start stop f).2 - (frameSpan c t start stop f).1) := by
  have hpos : (0 : K) ≤ f * (t.fftSize / c.sampleRate) :=
    mul_nonneg f.cast_nonneg (div_nonneg (Nat.cast_nonneg _) (Nat.cast_nonneg _))
  rw [frameSeconds, if_pos hregion, overlap, frameSpan, hstart, hstop, max_assoc,
    max_eq_right (show t.elapsedStartSeconds ≤ _ by linarith), max_comm q.elapsedStart,
    min_comm (min q.stop _), min_comm q.stop, min_assoc]

omit [LinearOrder K] [IsStrictOrderedRing K] in
theorem addScan_seconds {scan : Scan K} {seconds : K} (s : Sums K) (r : Region) :
    (s.addScan scan seconds).seconds r =
      if scan.flag r then s.seconds r + seconds else s.seconds r := by
  cases r <;> rfl

/-- What a frame adds to the sums, before its display buckets. -/
theorem Measured.addFrame (s' : Sums K) (hg : GridOk g c lower upper gr) (hw : 0 < g.width) (ht : t.shape = g)
    (hbytes : AreBytes t.activity) (hlt : gr.first < gr.last)
    (h : Measured m g q lower upper tiles frames s) {seconds : K}
    (hseconds : seconds = frameSeconds q c t f)
    (hobserved : s'.observedSeconds = s.observedSeconds)
    (hparts : ∀ r, s'.seconds r = if (scanFrame gr t.activity f seconds s.bins).flag r then
      s.seconds r + seconds else s.seconds r)
    (hbins : s'.bins = (scanFrame gr t.activity f seconds s.bins).bins) :
    Measured m g q lower upper tiles (frames ++ [⟨c, t, f⟩]) s' := by
  subst hseconds
  refine ⟨hobserved.trans h.observed, fun r => ?_, ?_⟩
  · rw [hparts, activeSeconds_append, h.seconds, Frame.cells_mk, Frame.seconds_mk]
    have hflag := flag_iff (f := f) (l := s.bins) (d := frameSeconds q c t f) (r := r) hg hw ht
      hbytes hlt
    by_cases hmem : (activeCells c t f ∩ r.cells g lower upper).Nonempty
    · rw [if_pos hmem, if_pos (hflag.mpr hmem)]
    · rw [if_neg hmem, if_neg (mt hflag.mp hmem)]
  · rw [hbins, bins_eq hg hw ht hbytes hlt h.bins]
    refine List.map_congr_left fun b _ => ?_
    rw [binOf_append, Frame.cells_mk, Frame.seconds_mk]

variable [FloorRing K] {r : Resolved K} {part : FramePart K}

/-- **One frame.** It adds its length to the parts of the range and to the bins it is active in. -/
theorem analyzeFrame_ok (hg : GridOk g c lower upper gr) (hw : 0 < g.width) (ht : t.shape = g)
    (hbytes : AreBytes t.activity) (hlt : gr.first < gr.last) (hregion : q.InRegion t.receiverEnd)
    (hstart : start = max q.elapsedStart t.elapsedStartSeconds)
    (hstop : stop = min q.stop t.elapsedEndSeconds) (hbucket : 0 < r.bucketSeconds)
    (hfrom : r.start ≤ start) (hto : stop ≤ r.stop)
    (h : Measured m g q lower upper tiles frames s) :
    ∃ s', analyzeFrame q r c gr t start stop part s f = .ok s' ∧
      Measured m g q lower upper tiles (frames ++ [⟨c, t, f⟩]) s' := by
  have hspan := frameSeconds_eq (c := c) (f := f) hregion hstart hstop
  have hfrom' : r.start ≤ (frameSpan c t start stop f).1 := hfrom.trans (le_max_left _ _)
  have hto' : (frameSpan c t start stop f).2 ≤ r.stop := (min_le_left _ _).trans hto
  unfold analyzeFrame
  dsimp only
  generalize frameSpan c t start stop f = span at hspan hfrom' hto'
  obtain ⟨frameFrom, frameTo⟩ := span
  dsimp only at hspan hfrom' hto' ⊢
  split <;> rename_i hempty
  · exact ⟨s, rfl, h.skip (hspan.trans (max_eq_left (sub_nonpos.mpr hempty)))⟩
  rw [max_eq_right (sub_nonneg.mpr (not_le.mp hempty).le)] at hspan
  have hadd := fun s' => h.addFrame s' hg hw ht hbytes hlt hspan.symm
  split <;> rename_i hmax
  · exact ⟨_, rfl, hadd { s.addScan _ _ with observationsTruncated := true } rfl
      (addScan_seconds s) rfl⟩
  · obtain ⟨buckets, hspread⟩ := spread_ok (n := q.maxObservations) hbucket (Nat.pos_of_ne_zero hmax)
      hto' q.maxObservations hfrom' fun _ => Nat.le_add_right _ _
    refine ⟨_, ?_, hadd { s.addScan _ _ with buckets } rfl (addScan_seconds s) rfl⟩
    rw [bind_eq_ok]
    exact ⟨buckets, hspread, rfl⟩

/-- The loop over the frames of a tile. -/
theorem analyzeFrames_ok (hg : GridOk g c lower upper gr) (hw : 0 < g.width) (ht : t.shape = g)
    (hbytes : AreBytes t.activity) (hlt : gr.first < gr.last) (hregion : q.InRegion t.receiverEnd)
    (hstart : start = max q.elapsedStart t.elapsedStartSeconds)
    (hstop : stop = min q.stop t.elapsedEndSeconds) (hbucket : 0 < r.bucketSeconds)
    (hfrom : r.start ≤ start) (hto : stop ≤ r.stop)
    (h : Measured m g q lower upper tiles frames s) :
    ∃ s', (List.range t.frameCount).foldlM (analyzeFrame q r c gr t start stop part) s = .ok s' ∧
      Measured m g q lower upper tiles (frames ++ framesOf c t) s' := by
  refine foldlM_ok (P := fun seen s => Measured m g q lower upper tiles
    (frames ++ seen.map fun f => ⟨c, t, f⟩) s) ?_ (by rwa [List.map_nil, List.append_nil])
  intro seen f rest s _ hs
  rw [List.map_append, ← List.append_assoc]
  exact analyzeFrame_ok hg hw ht hbytes hlt hregion hstart hstop hbucket hfrom hto hs

end Frames

end Analysis

end OVMesh
