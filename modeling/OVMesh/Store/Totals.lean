import OVMesh.Store.Frames
import OVMesh.Store.Rows

/-!
# The totals of an analysis

The loop over the tiles computes the measure of the query.

* `Measured.addTile`, `Measured.skipTile`: what a tile adds to the sums.
* `TileInv`: the state of the loop. `analyzeTile_ok`: one tile keeps it.
* `Computes`, `analyze_computes`: the result of a valid query of a stored recording.
-/

namespace OVMesh

namespace Analysis

open Checked SpectrumProcessor

variable {K : Type} [Field K] [LinearOrder K] [IsStrictOrderedRing K] {m : Libm K} {g : Shape K}
  {q : SurveyQuery K} {lower upper : K} {tiles : List (SpectrumTile K)} {frames : List (Frame K)}
  {sums : Sums K} {gr : Grid K} {c : ReceiverConfig K} {t : SpectrumTile K} {r : Resolved K}
  {start stop : K} {b : ℕ}

/-! ## One tile -/

omit [IsStrictOrderedRing K] in
theorem observedSeconds_append :
    observedSeconds q (tiles ++ [t]) = observedSeconds q tiles + tileSeconds q t := by
  rw [observedSeconds, List.map_append, List.sum_append, List.map_singleton, List.sum_singleton]
  rfl

theorem frameSeconds_eq_zero (h : tileSeconds q t = 0) {f : ℕ} (hf : f < t.frameCount) :
    frameSeconds q c t f = 0 := by
  refine le_antisymm ?_ frameSeconds_nonneg
  rw [← h]
  refine le_trans (List.single_le_sum ?_ _ (List.mem_map_of_mem (List.mem_range.mpr hf)))
    (sum_frameSeconds_le (c := c))
  intro x hx
  obtain ⟨f, -, rfl⟩ := List.mem_map.mp hx
  exact frameSeconds_nonneg

theorem activeSeconds_skip (h : tileSeconds q t = 0) (B : Set Cell) :
    activeSeconds q (frames ++ framesOf c t) B = activeSeconds q frames B := by
  have hrest : Occupancy.occupied (framesOf c t) (Frame.seconds q) Frame.cells B = 0 :=
    Occupancy.occupied_eq_zero fun frame hframe => by
      obtain ⟨f, hf, rfl⟩ := List.mem_map.mp hframe
      exact frameSeconds_eq_zero h (List.mem_range.mp hf)
  rw [activeSeconds, Occupancy.occupied_append, hrest, add_zero]
  rfl

/-- A tile outside the query adds nothing to a bin. -/
theorem binOf_skip (h : tileSeconds q t = 0) :
    binOf m g q (tiles ++ [t]) (frames ++ framesOf c t) b = binOf m g q tiles frames b := by
  unfold binOf peakOf
  rw [observedSeconds_append, activeSeconds_skip h, List.map_append, List.sum_append,
    List.foldl_append, h]
  simp [h]

theorem Measured.skipTile (h : Measured m g q lower upper tiles frames sums)
    (hzero : tileSeconds q t = 0) :
    Measured m g q lower upper (tiles ++ [t]) (frames ++ framesOf c t) sums := by
  refine ⟨?_, fun x => ?_, ?_⟩
  · rw [observedSeconds_append, hzero, add_zero, h.observed]
  · rw [activeSeconds_skip hzero, h.seconds]
  · rw [h.bins]
    exact List.map_congr_left fun b _ => (binOf_skip hzero).symm

omit [IsStrictOrderedRing K] in
/-- A tile within the query adds its length, mean and peak to a bin. -/
theorem binOf_addTile (hpos : 0 < tileSeconds q t) : binOf m g q (tiles ++ [t]) frames b =
    (binOf m g q tiles frames b).addTile m (t.meanDbfs.getD b 0) (t.peakDbfs.getD b 0)
      (tileSeconds q t) := by
  unfold binOf peakOf BinSum.addTile
  rw [observedSeconds_append, List.map_append, List.sum_append, List.foldl_append]
  simp [hpos]

/-- What a tile within the query adds before its frames. -/
theorem Measured.addTile (hg : GridOk g c lower upper gr) (hw : 0 < g.width)
    (h : Measured m g q lower upper tiles frames sums) (hpos : 0 < tileSeconds q t)
    (hseconds : stop - start = tileSeconds q t) :
    Measured m g q lower upper (tiles ++ [t]) frames (addTile m q r gr t start stop sums) := by
  refine ⟨?_, fun x => ?_, ?_⟩
  · rw [observedSeconds_append, ← h.observed, ← hseconds]
    rfl
  · rw [← h.seconds x]
    cases x <;> rfl
  · show List.foldl _ sums.bins _ = _
    rw [h.bins, hg.selected hw, hseconds]
    calc _ = (List.range' gr.first (gr.last - gr.first)).foldl (fun bins b => bins.modify
          (b - gr.first) (BinSum.addTile m (t.meanDbfs.getD b 0) (t.peakDbfs.getD b 0)
            (tileSeconds q t)))
          (Fold.table gr.first (gr.last - gr.first) (binOf m g q tiles frames)) := by
          refine List.foldl_ext _ _ _ fun bins b hb => ?_
          rw [List.mem_range'_1] at hb
          rw [hg.indexes b hb.1 (by omega)]
      _ = _ := by
        rw [Fold.foldl_modify_table List.nodup_range' fun b hb => (List.mem_range'_1.mp hb).1]
        refine Fold.table_congr fun b hb hb' => ?_
        rw [if_pos (List.mem_range'_1.mpr ⟨hb, hb'⟩), binOf_addTile hpos]

/-! ## The state of the loop -/

/-- No tile with selected bins was met. -/
structure Idle (g : Shape K) (q : SurveyQuery K) (lower upper : K) (tiles : List (SpectrumTile K))
    (sums : Sums K) : Prop where
  observed : sums.observedSeconds = 0
  seconds : ∀ r, sums.seconds r = 0
  bins : sums.bins = []
  none : g.selected lower upper ≠ [] → ∀ t ∈ tiles, tileSeconds q t = 0

/-- The state after the tiles `seen`. -/
structure TileInv (m : Libm K) (s : SavedSurvey K) (g : Shape K) (q : SurveyQuery K)
    (lower upper : K) (seen : List (SpectrumTile K)) (st : State K) : Prop where
  sample : st.previousSample = 0 ∨ ∃ x ∈ seen, st.previousSample = x.endSample
  elapsed : st.previousElapsed = 0 ∨ ∃ x ∈ seen, st.previousElapsed = x.elapsedEndSeconds
  grid : ∀ gr, st.grid = some gr → ∃ acquisition, st.previousConfig = some acquisition ∧
    GridOk g (s.configAt acquisition) lower upper gr
  sums : Idle g q lower upper seen st.sums ∧ (g.selected lower upper ≠ [] → st.grid = none) ∨
    g.selected lower upper ≠ [] ∧ 0 < observedSeconds q seen ∧
      Measured m g q lower upper seen (s.framesOfTiles seen) st.sums

section Tile

variable {s : SavedSurvey K} {st : State K} {seen rest : List (SpectrumTile K)}

/-- The length of a tile, by the two branches of the loop. -/
theorem tileSeconds_of_clips (h : ClipsAlike r q t) :
    let start := max r.start t.elapsedStartSeconds
    let stop := min r.stop t.elapsedEndSeconds
    (stop ≤ start ∨ ¬ q.InRegion t.receiverEnd → tileSeconds q t = 0) ∧
      (¬ (stop ≤ start ∨ ¬ q.InRegion t.receiverEnd) → q.InRegion t.receiverEnd ∧
        start = max q.elapsedStart t.elapsedStartSeconds ∧
        stop = min q.stop t.elapsedEndSeconds ∧ 0 < tileSeconds q t ∧
        stop - start = tileSeconds q t) := by
  intro start stop
  have hswap : Clip.overlap t.elapsedStartSeconds t.elapsedEndSeconds q.elapsedStart q.stop =
      max 0 (min q.stop t.elapsedEndSeconds - max q.elapsedStart t.elapsedStartSeconds) := by
    rw [Clip.overlap, min_comm, max_comm t.elapsedStartSeconds]
  constructor
  · rintro (hle | hregion)
    · have hempty : min q.stop t.elapsedEndSeconds ≤ max q.elapsedStart t.elapsedStartSeconds := by
        rcases h with ⟨hstart, hstop⟩ | ⟨-, hempty⟩
        · rw [← hstart, ← hstop]
          exact hle
        · exact hempty
      unfold tileSeconds
      split
      · rw [hswap, max_eq_left (sub_nonpos.mpr hempty)]
      · rfl
    · rw [tileSeconds, if_neg hregion]
  · intro hne
    obtain ⟨hlt, hregion⟩ := not_or.mp hne
    have hlt := not_le.mp hlt
    rcases h with ⟨hstart, hstop⟩ | ⟨hempty, -⟩
    · have hpos : 0 < stop - start := sub_pos.mpr hlt
      have hseconds : stop - start = tileSeconds q t := by
        rw [tileSeconds, if_pos (not_not.mp hregion), hswap, ← hstart, ← hstop,
          max_eq_right (sub_pos.mpr hlt).le]
      exact ⟨not_not.mp hregion, hstart, hstop, hseconds ▸ hpos, hseconds⟩
    · exact absurd hempty (not_le.mpr hlt)

omit [IsStrictOrderedRing K] in
theorem framesOfTiles_append : s.framesOfTiles (seen ++ [t]) =
    s.framesOfTiles seen ++ framesOf (s.configOf t) t := by
  rw [SavedSurvey.framesOfTiles, SavedSurvey.framesOfTiles, List.flatMap_append,
    List.flatMap_singleton]

/-- The bins of the sums, before a tile with selected bins. -/
theorem TileInv.bins (h : TileInv m s g q lower upper seen st) (hw : 0 < g.width) :
    let first := firstBin g.firstHz g.width lower g.count
    st.sums.bins = [] ∨
      ∃ e, BinsOf g first (lastBin g.firstHz g.width upper g.count first) e st.sums.bins := by
  intro first
  rcases h.sums with ⟨hidle, -⟩ | ⟨-, -, hmeasured⟩
  · exact Or.inl hidle.bins
  · refine Or.inr ⟨binOf m g q seen (s.framesOfTiles seen), ?_, fun b => ⟨rfl, rfl⟩⟩
    rw [hmeasured.bins, selected_eq hw]
    rfl

/-- Without activity and observation, the bins of the spec are those that a grid opens. -/
theorem binOf_idle (h : ∀ t ∈ tiles, tileSeconds q t = 0) :
    binOf m g q tiles (s.framesOfTiles tiles) b = zeroBin g b := by
  induction tiles using List.reverseRecOn with
  | nil => rfl
  | append_singleton tiles t ih =>
    rw [framesOfTiles_append, binOf_skip (h t (by simp))]
    exact ih fun x hx => h x (List.mem_append_left _ hx)

/-- The grid of a tile, and the bins that opening it adds. -/
theorem tileGrid_ok (hw : 0 < g.width) (hbound : g.count ≤ 4096) (ht : t.shape = g)
    {grid : Option (Grid K)} (hgrid : ∀ gr, grid = some gr → GridOk g c lower upper gr)
    (hbins : sums.bins = [] ∨ ∃ e, BinsOf g (firstBin g.firstHz g.width lower g.count)
      (lastBin g.firstHz g.width upper g.count (firstBin g.firstHz g.width lower g.count)) e
        sums.bins) :
    ∃ gr sums', tileGrid c lower upper t grid sums = .ok (gr, sums') ∧
      GridOk g c lower upper gr ∧ SameSums sums sums' ∧
      (sums'.bins = sums.bins ∨
        sums.bins = [] ∧ sums'.bins = (g.selected lower upper).map (zeroBin g)) ∧
      (grid = none → sums.bins = [] →
        sums'.bins = (g.selected lower upper).map (zeroBin g)) := by
  unfold tileGrid
  cases grid with
  | none =>
    obtain ⟨gr, sums', hopen, hgr, hsame, hopened⟩ := openGrid_ok (c := c) hw hbound ht hbins
    refine ⟨gr, sums', hopen, hgr, hsame, ?_, fun _ hnil => ?_⟩
    · rcases hopened with ⟨hnil, hzero⟩ | ⟨-, hold⟩
      · exact Or.inr ⟨hnil, by rw [hzero, selected_eq hw]; rfl⟩
      · exact Or.inl hold
    · rcases hopened with ⟨-, hzero⟩ | ⟨⟨e, he⟩, hold⟩
      · rw [hzero, selected_eq hw]
        rfl
      · have hempty : Fold.table (firstBin g.firstHz g.width lower g.count) _ e = [] :=
          he.1.symm.trans hnil
        rw [hold, hnil, selected_eq hw, List.map_eq_nil_iff.mp hempty]
        rfl
  | some gr =>
    have hgr := hgrid gr rfl
    refine ⟨gr, sums, ?_, hgr, .refl sums, Or.inl rfl, fun h => nomatch h⟩
    simp only [bind_eq_ok, reject_eq_ok]
    refine ⟨(), ?_, rfl⟩
    subst ht
    rw [hgr.count, hgr.firstHz, hgr.width]
    simp [SpectrumTile.shape]

/-- Before its frames, a tile within the query leaves the sums of the tiles before it. -/
theorem TileInv.opened (h : TileInv m s g q lower upper seen st)
    (hselected : g.selected lower upper ≠ []) {sums' : Sums K} (hsame : SameSums st.sums sums')
    (hbins : sums'.bins = st.sums.bins ∨ st.sums.bins = [] ∧
      sums'.bins = (g.selected lower upper).map (zeroBin g))
    (hfresh : st.grid = none → st.sums.bins = [] →
      sums'.bins = (g.selected lower upper).map (zeroBin g)) :
    Measured m g q lower upper seen (s.framesOfTiles seen) sums' := by
  rcases h.sums with ⟨hidle, hnone⟩ | ⟨-, -, hmeasured⟩
  · have hzero := hidle.none hselected
    have hobserved : observedSeconds q seen = 0 := List.sum_eq_zero fun x hx => by
      obtain ⟨t, ht, rfl⟩ := List.mem_map.mp hx
      exact hzero t ht
    have hactive : ∀ B, activeSeconds q (s.framesOfTiles seen) B = 0 := fun B =>
      Occupancy.occupied_eq_zero fun frame hframe => by
        obtain ⟨t, ht, hmem⟩ := List.mem_flatMap.mp hframe
        obtain ⟨f, hf, rfl⟩ := List.mem_map.mp hmem
        exact frameSeconds_eq_zero (hzero t ht) (List.mem_range.mp hf)
    refine ⟨?_, fun x => ?_, ?_⟩
    · rw [hsame.observed, hidle.observed, hobserved]
    · rw [hsame.seconds, hidle.seconds, hactive]
    · rw [hfresh (hnone hselected) hidle.bins]
      exact List.map_congr_left fun b _ => (binOf_idle hzero).symm
  · refine ⟨hsame.observed.trans hmeasured.observed,
      fun x => (hsame.seconds x).trans (hmeasured.seconds x), ?_⟩
    rcases hbins with hsame | ⟨hnil, -⟩
    · rw [hsame, hmeasured.bins]
    · rw [hmeasured.bins] at hnil
      rw [List.map_eq_nil_iff.mp hnil] at hselected
      exact absurd rfl hselected

/-- What a tile that was left out does to the state. -/
theorem TileInv.skip (h : TileInv m s g q lower upper seen st) (hzero : tileSeconds q t = 0) :
    (Idle g q lower upper (seen ++ [t]) st.sums ∧ (g.selected lower upper ≠ [] → st.grid = none)) ∨
      g.selected lower upper ≠ [] ∧ 0 < observedSeconds q (seen ++ [t]) ∧
        Measured m g q lower upper (seen ++ [t]) (s.framesOfTiles (seen ++ [t])) st.sums := by
  rcases h.sums with ⟨hidle, hnone⟩ | ⟨hselected, hpos, hmeasured⟩
  · refine Or.inl ⟨⟨hidle.observed, hidle.seconds, hidle.bins, fun hne x hx => ?_⟩, hnone⟩
    rcases List.mem_append.mp hx with hx | hx
    · exact hidle.none hne x hx
    · rw [List.mem_singleton.mp hx]
      exact hzero
  · refine Or.inr ⟨hselected, ?_, ?_⟩
    · rwa [observedSeconds_append, hzero, add_zero]
    · rw [framesOfTiles_append]
      exact hmeasured.skipTile hzero

variable [FloorRing K]

/-- **One tile.** The step of the loop returns and keeps the invariant. -/
theorem analyzeTile_ok (hs : Stored s g) (hseen : seen ++ t :: rest = s.tiles)
    (hr : 0 < r.bucketSeconds) (hclips : ClipsAlike r q t)
    (h : TileInv m s g q (s.lower q) (s.upper q) seen st) :
    ∃ st', analyzeTile m s q r st t = .ok st' ∧
      TileInv m s g q (s.lower q) (s.upper q) (seen ++ [t]) st' := by
  have ht : t ∈ s.tiles := hseen ▸ List.mem_append_right _ List.mem_cons_self
  have hw := hs.width_pos ht
  obtain ⟨⟨acquisition, config⟩, hrow, hat, hof, hvalid⟩ := hs.row ht
  dsimp only at hat hof hvalid
  have hordered := hs.ordered
  rw [← hseen] at hordered
  have hbefore := fun x hx => (List.pairwise_append.mp hordered).2.2 x hx t List.mem_cons_self
  -- The tiles of a stored survey are in order, so the check of the order passes.
  have horder : ¬ (t.firstSample < st.previousSample ∨
      t.elapsedStartSeconds < st.previousElapsed - 1 / 10 ^ 8) := by
    rintro (hlt | hlt)
    · rcases h.sample with hzero | ⟨x, hx, heq⟩
      · omega
      · have := (hbefore x hx).1
        omega
    · have htol : (0 : K) < 1 / 10 ^ 8 := by norm_num
      rcases h.elapsed with hzero | ⟨x, hx, heq⟩
      · have := hvalid.start_nonneg
        linarith
      · have := (hbefore x hx).2
        linarith
  have hmem : t ∈ seen ++ [t] := List.mem_append_right _ List.mem_cons_self
  have hgrid : ∀ gr, (if st.previousConfig = some acquisition then st.grid else none) = some gr →
      GridOk g config (s.lower q) (s.upper q) gr := fun gr hgr => by
    split at hgr <;> rename_i hprevious
    · obtain ⟨a, ha, hok⟩ := h.grid gr hgr
      rw [hprevious] at ha
      rwa [hat, Option.some.inj ha]
    · cases hgr
  obtain ⟨hskip, hkeep⟩ := tileSeconds_of_clips hclips
  unfold analyzeTile
  rw [hrow]
  simp only [bind_eq_ok, reject_eq_ok, Except.ok.injEq, exists_eq_left', horder, not_false_eq_true,
    true_and, exists_const]
  -- A tile that the query clips to nothing is passed over.
  split <;> rename_i hempty
  · refine ⟨_, rfl, Or.inr ⟨t, hmem, rfl⟩, Or.inr ⟨t, hmem, rfl⟩, fun gr hgr => ?_, ?_⟩
    · exact ⟨acquisition, rfl, hat ▸ hgrid gr hgr⟩
    · refine (h.skip (hskip hempty)).imp (fun hidle => ⟨hidle.1, fun hne => ?_⟩) id
      show (if _ then st.grid else none) = none
      rw [hidle.2 hne, ite_self]
  obtain ⟨hregion, hstart, hstop, hpos, hseconds⟩ := hkeep hempty
  obtain ⟨gr, sums', hopen, hgr, hsame, hbins, hfresh⟩ :=
    tileGrid_ok hw (hs.count_le ht) (hs.shape t ht) hgrid (h.bins hw)
  rw [hopen]
  show ∃ st', ite (gr.last = gr.first) _ _ = _ ∧ _
  have hreset : st.grid = none →
      (if st.previousConfig = some acquisition then st.grid else none) = none := fun hnone => by
    rw [hnone, ite_self]
  have hnone : gr.last = gr.first → g.selected (s.lower q) (s.upper q) = [] := fun hlast => by
    rw [hgr.selected hw, hlast, Nat.sub_self]
    rfl
  -- On a grid without selected bins nothing is added.
  split <;> rename_i hlast
  · have hselected := hnone hlast
    refine ⟨_, rfl, Or.inr ⟨t, hmem, rfl⟩, Or.inr ⟨t, hmem, rfl⟩, fun gr' hgr' => ?_, Or.inl ⟨?_, ?_⟩⟩
    · cases hgr'
      exact ⟨acquisition, rfl, hat ▸ hgr⟩
    · rcases h.sums with ⟨hidle, -⟩ | ⟨hne, -⟩
      · refine ⟨hsame.observed.trans hidle.observed, fun x => (hsame.seconds x).trans
          (hidle.seconds x), ?_, fun hne => absurd hselected hne⟩
        rcases hbins with hold | ⟨-, hzero⟩
        · rw [hold, hidle.bins]
        · rw [hzero, hselected]
          rfl
      · exact absurd hselected hne
    · exact fun hne => absurd hselected hne
  · have hle : gr.first ≤ gr.last := by
      rw [hgr.last, hgr.first]
      exact firstBin_le_lastBin.1
    have hlt : gr.first < gr.last := by omega
    have hselected : g.selected (s.lower q) (s.upper q) ≠ [] := by
      rw [hgr.selected hw, ← List.length_pos_iff, List.length_range']
      omega
    have hadded := (h.opened hselected hsame hbins fun hnone => hfresh (hreset hnone)).addTile
      (r := r) hgr hw hpos hseconds
    obtain ⟨sums'', hframes, hmeasured⟩ := analyzeFrames_ok hgr hw (hs.shape t ht) (hs.bytes t ht)
      hlt hregion hstart hstop hr (le_max_left _ _) (min_le_left _ _) hadded
    refine ⟨_, bind_eq_ok.mpr ⟨sums'', hframes, rfl⟩, Or.inr ⟨t, hmem, rfl⟩,
      Or.inr ⟨t, hmem, rfl⟩, fun gr' hgr' => ?_, Or.inr ⟨hselected, ?_, ?_⟩⟩
    · cases hgr'
      exact ⟨acquisition, rfl, hat ▸ hgr⟩
    · rw [observedSeconds_append]
      exact add_pos_of_nonneg_of_pos (List.sum_nonneg fun x hx => by
        obtain ⟨t, -, rfl⟩ := List.mem_map.mp hx
        exact tileSeconds_nonneg) hpos
    · rw [framesOfTiles_append, ← hof]
      exact hmeasured

end Tile

/-! ## The run -/

/-- The sums are the measure of the query: without selected bins nothing counts as observed, and
without observation no bin is listed. -/
structure Computes (m : Libm K) (s : SavedSurvey K) (g : Shape K) (q : SurveyQuery K)
    (sums : Sums K) : Prop where
  observed : sums.observedSeconds =
    if g.selected (s.lower q) (s.upper q) = [] then 0 else observedSeconds q s.tiles
  seconds : ∀ r, sums.seconds r =
    activeSeconds q s.frames (Region.cells g (s.lower q) (s.upper q) r)
  bins : sums.bins = if 0 < sums.observedSeconds then
    (g.selected (s.lower q) (s.upper q)).map (binOf m g q s.tiles s.frames) else []

section Run

variable {s : SavedSurvey K} {st : State K}

theorem activeSeconds_eq_zero {B : Set Cell} (h : ∀ t ∈ tiles, tileSeconds q t = 0) :
    activeSeconds q (s.framesOfTiles tiles) B = 0 :=
  Occupancy.occupied_eq_zero fun frame hframe => by
    obtain ⟨t, ht, hmem⟩ := List.mem_flatMap.mp hframe
    obtain ⟨f, hf, rfl⟩ := List.mem_map.mp hmem
    exact frameSeconds_eq_zero (h t ht) (List.mem_range.mp hf)

omit [IsStrictOrderedRing K] in
/-- Without selected bins there are no selected cells. -/
theorem cells_eq_empty (h : g.selected lower upper = []) (r : Region) :
    r.cells g lower upper = ∅ := by
  refine Set.eq_empty_of_forall_notMem fun cell hcell => ?_
  have hmeets : g.Meets lower upper cell.1 := r.cells_subset_all hcell
  have hmem : cell.1 ∈ g.selected lower upper := by
    rw [Shape.selected, List.mem_filter, List.mem_range]
    exact ⟨hmeets.1, decide_eq_true hmeets⟩
  rw [h] at hmem
  cases hmem

omit [LinearOrder K] [IsStrictOrderedRing K] in
theorem activeSeconds_empty [LinearOrder K] : activeSeconds q frames ∅ = 0 := by
  refine List.sum_eq_zero fun x hx => ?_
  obtain ⟨f, -, rfl⟩ := List.mem_map.mp hx
  rw [Set.inter_empty, if_neg Set.not_nonempty_empty]

/-- The final state holds the measure. -/
theorem TileInv.computes (h : TileInv m s g q (s.lower q) (s.upper q) s.tiles st) :
    Computes m s g q st.sums := by
  rcases h.sums with ⟨hidle, -⟩ | ⟨hselected, hpos, hmeasured⟩
  · have hbins : st.sums.bins = if 0 < st.sums.observedSeconds then
        (g.selected (s.lower q) (s.upper q)).map (binOf m g q s.tiles s.frames) else [] := by
      rw [hidle.observed, if_neg (lt_irrefl 0), hidle.bins]
    by_cases hnil : g.selected (s.lower q) (s.upper q) = []
    · refine ⟨by rw [if_pos hnil, hidle.observed], fun r => ?_, hbins⟩
      rw [hidle.seconds, cells_eq_empty hnil, activeSeconds_empty]
    · have hzero := hidle.none hnil
      refine ⟨?_, fun r => ?_, hbins⟩
      · rw [if_neg hnil, hidle.observed]
        refine (List.sum_eq_zero fun x hx => ?_).symm
        obtain ⟨t, ht, rfl⟩ := List.mem_map.mp hx
        exact hzero t ht
      · rw [hidle.seconds, SavedSurvey.frames, activeSeconds_eq_zero hzero]
  · refine ⟨by rw [if_neg hselected, hmeasured.observed], hmeasured.seconds, ?_⟩
    rw [hmeasured.observed, if_pos hpos, hmeasured.bins]
    rfl

/-- The bins of the result are in the order of their frequencies. -/
theorem Computes.sorted (h : Computes m s g q st.sums) (hw : 0 < g.width) :
    st.sums.bins.mergeSort BinSum.le = st.sums.bins := by
  refine List.mergeSort_of_pairwise ?_
  rw [h.bins]
  split
  · refine List.pairwise_map.mpr ?_
    have hlt : (g.selected (s.lower q) (s.upper q)).Pairwise (· < ·) :=
      List.pairwise_lt_range.filter _
    refine hlt.imp fun {a b} hab => decide_eq_true (Or.inl ?_)
    exact add_lt_add_right (mul_lt_mul_of_pos_right (Nat.cast_lt.mpr hab) hw) _
  · exact List.Pairwise.nil

variable [FloorRing K]

/-- **The analysis computes the measure of the query.** -/
theorem analyze_computes (m : Libm K) (rounding : Rounding K) (hs : Stored s g)
    (hq : q.validate = .ok ()) :
    ∃ r sums, analyze m rounding s q = .ok (r, sums) ∧ Computes m s g q sums := by
  have hbucket : 0 < q.timeBucketSeconds := by
    unfold SurveyQuery.validate at hq
    simp only [bind_eq_ok, reject_eq_ok, not_or, not_lt] at hq
    obtain ⟨_, _, _, ⟨_, _, hge, _⟩, _⟩ := hq
    exact lt_of_lt_of_le (by norm_num) hge
  obtain ⟨r, hr, hpos, -, hclips⟩ := resolve_ok hs rounding.lt_nextAbove hbucket
  obtain ⟨st, hst, hinv⟩ := foldlM_ok (f := analyzeTile m s q r) (l := s.tiles)
    (P := TileInv m s g q (s.lower q) (s.upper q))
    (fun seen t rest st hseen h => analyzeTile_ok hs hseen hpos
      (hclips t (hseen ▸ List.mem_append_right _ List.mem_cons_self)) h)
    (s := { sums := .empty, grid := none, previousConfig := none, previousSample := 0,
            previousElapsed := 0 })
    ⟨Or.inl rfl, Or.inl rfl, fun gr hgr => absurd hgr (Option.some_ne_none gr).symm,
      Or.inl ⟨⟨rfl, fun r => by cases r <;> rfl, rfl, fun _ t ht => absurd ht List.not_mem_nil⟩,
        fun _ => rfl⟩⟩
  have hcomputes := hinv.computes
  refine ⟨r, { st.sums with bins := st.sums.bins.mergeSort BinSum.le }, ?_, hcomputes.observed,
    fun r => ?_, ?_⟩
  · unfold analyze
    rw [hq, hr]
    exact bind_eq_ok.mpr ⟨(), rfl, bind_eq_ok.mpr ⟨r, rfl, bind_eq_ok.mpr ⟨st, hst, rfl⟩⟩⟩
  · rw [← hcomputes.seconds r]
    cases r <;> rfl
  · by_cases hnil : s.tiles = []
    · have hzero : st.sums.observedSeconds = 0 := by
        rw [hcomputes.observed, hnil]
        exact ite_self _
      have hbins := hcomputes.bins
      rw [hzero, if_neg (lt_irrefl 0)] at hbins
      show st.sums.bins.mergeSort BinSum.le = if 0 < st.sums.observedSeconds then _ else _
      rw [hzero, if_neg (lt_irrefl 0), hbins, List.mergeSort_nil]
    · obtain ⟨t, ht⟩ := List.exists_mem_of_ne_nil _ hnil
      exact (hcomputes.sorted (hs.width_pos ht)).trans hcomputes.bins

end Run

end Analysis

end OVMesh
