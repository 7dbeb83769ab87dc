import OVMesh.Spectrum.Processor

/-!
# Conservation of activity

Every active cell (frame, bin) of the measured frames is one set bit of one tile and is accumulated
by one track, and the tracks count the cells and sum their powers.

* `Track.Counted`: a track counts its cells and sums their powers.
* `Packed`: the bitmap of a tile holds the active cells of its frames.
* `Conserved`: the cells of the emitted and live tracks are those of the measured frames, and the
  emitted tiles and the open tile hold the measured frames in order.
-/

namespace OVMesh

namespace SpectrumProcessor

open SurveyQuality

variable {K : Type} [Field K] [LinearOrder K]

/-- The cells of a track: frame, bin and power. -/
def Track.cells (t : Track K) : List (ℕ × ℕ × K) :=
  t.runs.flatMap fun r => r.2.cells.map fun c => (r.1, c)

/-- The active cells of a frame. -/
def frameCells (p : Params K) (frame : Frame K) : List (ℕ × ℕ × K) :=
  (activeCells p.bins p.threshold frame.powers 0).map fun c => (frame.index, c)

/-- The cells of the set bits of a bitmap that was measured from `frames`. -/
def bitmapCells (p : Params K) (activity : List ℕ) (frames : List (Frame K)) :
    List (ℕ × ℕ × K) :=
  frames.zipIdx.flatMap fun f =>
    ((List.range p.bins).filter fun b => Bitmap.bit activity (8 * (f.2 * p.bytesPerFrame) + b)).map
      fun b => (f.1.index, b, f.1.powers b)

/-! ## Tracks -/

/-- A track counts its cells and sums their powers. -/
structure Track.Counted (t : Track K) : Prop where
  count_eq : t.count = t.cells.length
  sum_eq : t.sum = (t.cells.map fun c => c.2.2).sum

variable {p : Params K} {s : State K} {bins index first : ℕ} {splits : List (ℕ × ℕ)}

theorem Track.Counted.combine {old : List (Track K)} {new : List (Run K)}
    (ho : ∀ o ∈ old, o.Counted) (hn : ∀ r ∈ new, r.Counted) :
    (Track.combine bins index first splits old new).Counted := by
  have hc := combined bins index first splits old new
  have hcells : (Track.combine bins index first splits old new).cells =
      old.flatMap Track.cells ++ new.flatMap fun r => r.cells.map fun c => (index, c) := by
    rw [Track.cells, combine_runs, List.flatMap_append, List.flatMap_assoc, List.flatMap_map]
    rfl
  refine ⟨?_, ?_⟩
  · rw [hc.count_eq, hcells, List.length_append, List.length_flatMap, List.length_flatMap]
    congr 2
    · exact List.map_congr_left fun o h => (ho o h).count_eq
    · exact List.map_congr_left fun r h => by rw [(hn r h).count_eq, List.length_map]
  · rw [hc.sum_eq, hcells, List.map_append, List.sum_append, List.map_flatMap, List.map_flatMap,
      List.flatMap_def, List.flatMap_def, List.sum_flatten, List.sum_flatten, List.map_map,
      List.map_map]
    congr 2
    · exact List.map_congr_left fun o h => (ho o h).sum_eq
    · refine List.map_congr_left fun r h => ?_
      rw [(hn r h).sum_eq, Function.comp_apply, List.map_map]
      rfl

theorem frameRuns_counted {frame : Frame K} : ∀ r ∈ frameRuns p frame, r.Counted :=
  groupRuns_counted fun _ hr => (extractRuns_isRun (fun b hb => by omega) hr).2.2.2

theorem frameRuns_cells {frame : Frame K} :
    (frameRuns p frame).flatMap (fun r => r.cells.map fun c => (frame.index, c)) =
      frameCells p frame := by
  rw [← List.map_flatMap, frameRuns, groupRuns_cells, extractRuns_cells]
  rfl

/-! ## Tiles -/

/-- The bitmap of a tile holds the active cells of its frames. -/
structure Packed (p : Params K) (frameCount : ℕ) (activity : List ℕ) (frames : List (Frame K)) :
    Prop where
  frameCount_eq : frameCount = frames.length
  length_eq : activity.length = frames.length * p.bytesPerFrame
  bit_eq : ∀ k frame, frames[k]? = some frame → ∀ b < p.bins,
    Bitmap.bit activity (8 * (k * p.bytesPerFrame) + b) = decide (p.threshold ≤ frame.powers b)
  count_eq : Bitmap.countBits activity = (frames.map fun f => (frameCells p f).length).sum

omit [Field K] [LinearOrder K] in
theorem bins_le (p : Params K) : p.bins ≤ 8 * p.bytesPerFrame := by
  simp only [Params.bytesPerFrame]
  omega

theorem packed_prepare : Packed p (OpenTile.prepare : OpenTile K).frameCount
    (OpenTile.prepare : OpenTile K).activity (OpenTile.prepare : OpenTile K).frames :=
  ⟨rfl, by simp [OpenTile.prepare], by simp [OpenTile.prepare], rfl⟩

omit [Field K] in
theorem length_frameCells (frame : Frame K) : (frameCells p frame).length =
    (List.range p.bins).countP fun i => p.threshold ≤ frame.powers i := by
  rw [frameCells, List.length_map, activeCells, ← List.countP_eq_length_filter, cellsOf,
    List.countP_map, Nat.sub_zero, ← List.range_eq_range']
  rfl

theorem Packed.addFrame {tile : OpenTile K} (h : Packed p tile.frameCount tile.activity tile.frames)
    (frame : Frame K) : Packed p (tile.addFrame p frame).frameCount
      (tile.addFrame p frame).activity (tile.addFrame p frame).frames := by
  have hlen := h.length_eq
  refine ⟨?_, ?_, fun k f hf b hb => ?_, ?_⟩
  · simp [OpenTile.addFrame, h.frameCount_eq]
  · simp [OpenTile.addFrame, hlen, Nat.add_mul]
  · have hbound := bins_le p
    simp only [OpenTile.addFrame] at hf ⊢
    rw [Bitmap.bit_fill hbound]
    rcases Nat.lt_trichotomy k tile.frames.length with hk | rfl | hk
    · have hmul := Nat.mul_le_mul_right p.bytesPerFrame (Nat.succ_le_of_lt hk)
      rw [Nat.succ_mul] at hmul
      rw [if_pos (by omega)]
      rw [List.getElem?_append_left hk] at hf
      exact h.bit_eq k f hf b hb
    · rw [← hlen, if_neg (by omega), Nat.add_sub_cancel_left]
      rw [List.getElem?_append_right (le_refl _), Nat.sub_self, List.getElem?_cons_zero,
        Option.some.injEq] at hf
      simp [hb, hf]
    · rw [List.getElem?_eq_none (by simp; omega)] at hf
      cases hf
  · simp only [OpenTile.addFrame]
    rw [Bitmap.countBits_fill (bins_le p), h.count_eq, List.map_append, List.sum_append,
      List.map_singleton, List.sum_singleton, length_frameCells]

omit [Field K] in
/-- The set bits of a packed bitmap are the active cells of its frames. -/
theorem Packed.cells_eq {n : ℕ} {activity : List ℕ} {frames : List (Frame K)}
    (h : Packed p n activity frames) :
    bitmapCells p activity frames = frames.flatMap (frameCells p) := by
  have hz : frames.flatMap (frameCells p) = frames.zipIdx.flatMap fun f => frameCells p f.1 := by
    conv_lhs => rw [← List.zipIdx_map_fst 0 frames, List.flatMap_map]
  rw [hz, bitmapCells]
  refine List.flatMap_congr fun f hf => ?_
  rw [List.mem_zipIdx_iff_getElem?] at hf
  rw [frameCells, activeCells, cellsOf, Nat.sub_zero, ← List.range_eq_range', List.filter_map,
    List.map_map]
  refine congrArg (List.map _) (List.filter_congr fun b hb => ?_)
  rw [h.bit_eq f.2 f.1 hf b (List.mem_range.mp hb)]
  rfl

omit [Field K] in
theorem Packed.count_cells {n : ℕ} {activity : List ℕ} {frames : List (Frame K)}
    (h : Packed p n activity frames) :
    Bitmap.countBits activity = (bitmapCells p activity frames).length := by
  rw [h.cells_eq, h.count_eq, List.length_flatMap]

/-! ## Runs -/

/-- The tracks of all events emitted so far and the live ones. -/
def State.allTracks (s : State K) : List (Track K) := s.events.map Prod.snd ++ s.tracks

/-- The tracks hold the runs of the measured frames, and the tiles hold their cells. -/
structure Conserved (p : Params K) (s : State K) : Prop where
  index_eq : s.frames.map Frame.index = List.range s.frames.length
  described : ∀ e ∈ s.events, ∃ id quality, e.1 = e.2.event p id quality
  runs_perm : (s.allTracks.flatMap Track.runs).Perm
    (s.frames.flatMap fun f => (frameRuns p f).map fun r => (f.index, r))
  counted : ∀ t ∈ s.allTracks, t.Counted
  tile : Packed p s.tile.frameCount s.tile.activity s.tile.frames
  tiles : ∀ t ∈ s.tiles, Packed p t.1.frameCount t.1.activity t.2
  frames_eq : s.tiles.flatMap Prod.snd ++ s.tile.frames = s.frames

theorem conserved_init : Conserved p (init : State K) :=
  ⟨rfl, by simp [init], .nil, by simp [State.allTracks, init], packed_prepare, by simp [init], rfl⟩

omit [Field K] [LinearOrder K] in
/-- The tracks after a frame, in the order in which the invariant lists them. -/
private theorem filter_long_perm (ended next : List (Track K)) :
    (ended ++ next.filter (Track.Long p) ++ next.filter fun t => ¬ t.Long p).Perm (ended ++ next) := by
  rw [List.append_assoc]
  refine List.Perm.append_left _ ?_
  simpa only [decide_not] using List.filter_append_perm (fun t : Track K => decide (t.Long p)) next

/-- A frame moves every track and every run to one place. -/
theorem processFrame_allTracks :
    let frame := nextFrame p s
    let a := associate p.bins frame.index frame.first s.splitIntervals s.tracks (frameRuns p frame)
    (processFrame p s).allTracks.Perm (s.events.map Prod.snd ++ (a.1 ++ a.2)) := by
  intro frame a
  rw [processFrame_spec]
  simp only [State.allTracks, List.map_append, emitted_tracks]
  rw [List.append_assoc]
  exact (filter_long_perm a.1 a.2).append_left _

theorem Conserved.processFrame (h : Conserved p s) (hs : s.tracks.length ≤ maxTracks) :
    Conserved p (processFrame p s) := by
  have hall := processFrame_allTracks (p := p) (s := s)
  refine ⟨?_, fun e he => ?_, (hall.flatMap_right _).trans ?_, fun t ht => ?_, ?_, ?_, ?_⟩
  · rw [processFrame_spec]
    dsimp only
    rw [List.map_append, h.index_eq, List.length_append, List.length_singleton, List.range_succ]
    rfl
  · rw [processFrame_spec] at he
    rcases List.mem_append.mp he with he | he
    · exact h.described e he
    rcases List.mem_append.mp he with he | he
    · exact ⟨_, _, (mem_emitted he).2.choose_spec⟩
    · exact ⟨_, _, (mem_emitted he).2.choose_spec⟩
  · rw [processFrame_spec]
    simp only [List.flatMap_append, List.flatMap_singleton]
    have hruns := h.runs_perm
    rw [State.allTracks, List.flatMap_append] at hruns
    -- The association only moves runs between tracks, and the frame adds its own.
    refine ((associate_runs_perm hs frameRuns_length_le).append_left _).trans ?_
    rw [← List.append_assoc]
    exact hruns.append_right _
  · have ht := hall.mem_iff.mp ht
    have hold : ∀ o ∈ s.tracks, o.Counted := fun o ho =>
      h.counted o (List.mem_append_right _ ho)
    rcases List.mem_append.mp ht with ht | ht
    · exact h.counted t (List.mem_append_left _ ht)
    rcases List.mem_append.mp ht with ht | ht
    · exact hold t (mem_associate_ended hs frameRuns_length_le ht)
    · obtain ⟨old, new, ho, hn, -, rfl⟩ := mem_associate_next hs frameRuns_length_le ht
      exact .combine (fun o h => hold o (ho o h)) fun r h => frameRuns_counted r (hn r h)
  · rw [processFrame_spec]
    dsimp only
    split
    · exact packed_prepare
    · exact h.tile.addFrame _
  · rw [processFrame_spec]
    dsimp only
    split
    · intro t ht
      rcases List.mem_append.mp ht with ht | ht
      · exact h.tiles t ht
      · obtain rfl := List.mem_singleton.mp ht
        exact h.tile.addFrame _
    · exact h.tiles
  · rw [processFrame_spec, ← h.frames_eq]
    dsimp only
    split <;> simp [OpenTile.addFrame, OpenTile.prepare]

theorem flush_allTracks : (flush p s).allTracks = s.allTracks := by
  rw [flush_spec]
  simp only [State.allTracks, List.map_append, emitted_tracks, List.append_nil]

theorem Conserved.flush (h : Conserved p s) : Conserved p (flush p s) := by
  refine ⟨?_, fun e he => ?_, ?_, ?_, ?_, ?_, ?_⟩
  · rw [flush_spec]
    exact h.index_eq
  · rw [flush_spec] at he
    rcases List.mem_append.mp he with he | he
    · exact h.described e he
    · exact ⟨_, _, (mem_emitted he).2.choose_spec⟩
  · rw [flush_allTracks, flush_spec]
    exact h.runs_perm
  · rw [flush_allTracks]
    exact h.counted
  · rw [flush_spec]
    dsimp only
    split
    · exact h.tile
    · exact packed_prepare
  · rw [flush_spec]
    dsimp only
    split
    · exact h.tiles
    · intro t ht
      rcases List.mem_append.mp ht with ht | ht
      · exact h.tiles t ht
      · obtain rfl := List.mem_singleton.mp ht
        exact h.tile
  · rw [flush_spec, ← h.frames_eq]
    dsimp only
    split <;> simp [OpenTile.prepare]

theorem conserved_kept : Kept p fun c s => At c s ∧ Conserved p s where
  sample c s v h := by
    have hc : ∀ pending, Conserved p { collect p s v c with pending } := fun _ =>
      ⟨h.2.index_eq, h.2.described, h.2.runs_perm, h.2.counted, h.2.tile, h.2.tiles, h.2.frames_eq⟩
    refine ⟨at_kept.sample c s v h.1, ?_⟩
    rw [feedSample_eq]
    split
    · exact (hc 0).processFrame h.1.tracks_length
    · exact hc _
  flush c c' s h := ⟨at_kept.flush c c' s h.1, h.2.flush⟩
  frame c s n ho f h := ⟨(at_kept (p := p)).frame c s n ho f h.1,
    ⟨h.2.index_eq, h.2.described, h.2.runs_perm, h.2.counted, h.2.tile, h.2.tiles,
      h.2.frames_eq⟩⟩

/-- The invariant of every list of calls. -/
theorem run_conserved (calls : List (Call K)) : Conserved p (run p calls init) := by
  obtain ⟨_, -, h⟩ := run_exists conserved_kept (fun c => ⟨at_init c, conserved_init⟩) calls
  exact h

/-! ## The totals -/

/-- The cells of the emitted events. -/
def State.eventCells (s : State K) : List (ℕ × ℕ × K) := s.events.flatMap fun e => e.2.cells

/-- The set bits of the emitted tiles. -/
def State.tileCells (p : Params K) (s : State K) : List (ℕ × ℕ × K) :=
  s.tiles.flatMap fun t => bitmapCells p t.1.activity t.2

/-- The cells that the tracks of the emitted events counted. -/
def State.eventCount (s : State K) : ℕ := (s.events.map fun e => e.2.count).sum

/-- The power that the tracks of the emitted events summed. -/
def State.eventPower (s : State K) : K := (s.events.map fun e => e.2.sum).sum

/-- The activity bits set in the emitted tiles. -/
def State.bitCount (s : State K) : ℕ := (s.tiles.map fun t => Bitmap.countBits t.1.activity).sum

/-- The power of the activity bits set in the emitted tiles. -/
def State.bitPower (p : Params K) (s : State K) : K := ((s.tileCells p).map fun c => c.2.2).sum

/-- The cells that are not emitted yet: those of the live tracks. -/
def State.liveCells (s : State K) : List (ℕ × ℕ × K) := s.tracks.flatMap Track.cells

/-- The set bits of the open tile. -/
def State.openCells (p : Params K) (s : State K) : List (ℕ × ℕ × K) :=
  bitmapCells p s.tile.activity s.tile.frames

omit [LinearOrder K] in
theorem sum_count_eq {ts : List (Track K)} (h : ∀ t ∈ ts, t.Counted) :
    (ts.map Track.count).sum = (ts.flatMap Track.cells).length := by
  rw [List.length_flatMap]
  exact congrArg List.sum (List.map_congr_left fun t ht => (h t ht).count_eq)

omit [LinearOrder K] in
theorem sum_power_eq {ts : List (Track K)} (h : ∀ t ∈ ts, t.Counted) :
    (ts.map Track.sum).sum = ((ts.flatMap Track.cells).map fun c => c.2.2).sum := by
  rw [List.map_flatMap, List.flatMap_def, List.sum_flatten, List.map_map]
  exact congrArg List.sum (List.map_congr_left fun t ht => (h t ht).sum_eq)

omit [Field K] [LinearOrder K] in
theorem allTracks_cells : s.allTracks.flatMap Track.cells = s.eventCells ++ s.liveCells := by
  rw [State.allTracks, List.flatMap_append, List.flatMap_map]
  rfl

namespace Conserved

theorem tileCells_append (h : Conserved p s) :
    s.tileCells p ++ s.openCells p = s.frames.flatMap (frameCells p) := by
  rw [← h.frames_eq, List.flatMap_append, List.flatMap_assoc, State.openCells, h.tile.cells_eq,
    State.tileCells]
  congr 1
  exact List.flatMap_congr fun t ht => (h.tiles t ht).cells_eq

theorem cells_perm (h : Conserved p s) :
    (s.eventCells ++ s.liveCells).Perm (s.tileCells p ++ s.openCells p) := by
  have hruns := h.runs_perm.flatMap_right fun r => r.2.cells.map fun c => (r.1, c)
  have hframes : (s.frames.flatMap fun f => (frameRuns p f).map fun r => (f.index, r)).flatMap
      (fun r => r.2.cells.map fun c => (r.1, c)) = s.frames.flatMap (frameCells p) := by
    rw [List.flatMap_assoc]
    exact List.flatMap_congr fun f _ => by rw [List.flatMap_map, ← frameRuns_cells]
  rw [hframes, List.flatMap_assoc] at hruns
  rw [h.tileCells_append, ← allTracks_cells]
  exact hruns

theorem count_eq (h : Conserved p s) :
    s.eventCount + (s.tracks.map Track.count).sum = (s.eventCells ++ s.liveCells).length := by
  rw [← allTracks_cells, ← sum_count_eq h.counted, State.allTracks, List.map_append,
    List.sum_append, List.map_map]
  rfl

theorem power_eq (h : Conserved p s) : s.eventPower + (s.tracks.map Track.sum).sum =
    ((s.eventCells ++ s.liveCells).map fun c => c.2.2).sum := by
  rw [← allTracks_cells, ← sum_power_eq h.counted, State.allTracks, List.map_append,
    List.sum_append, List.map_map]
  rfl

theorem bitCount_eq (h : Conserved p s) : s.bitCount = (s.tileCells p).length := by
  rw [State.bitCount, State.tileCells, List.length_flatMap]
  exact congrArg List.sum (List.map_congr_left fun t ht => (h.tiles t ht).count_cells)

theorem nodup_measured (h : Conserved p s) :
    ((s.frames.flatMap (frameCells p)).map fun c => (c.1, c.2.1)).Nodup := by
  rw [List.map_flatMap, List.nodup_flatMap]
  refine ⟨fun f _ => ?_, ?_⟩
  · rw [frameCells, List.map_map, activeCells, cellsOf, List.filter_map, List.map_map]
    refine List.Nodup.map (fun a b hab => ?_) (List.Nodup.filter _ List.nodup_range')
    simpa using hab
  · have hidx : s.frames.Pairwise fun f g => f.index ≠ g.index := by
      rw [← List.pairwise_map, h.index_eq]
      exact List.nodup_range
    refine hidx.imp fun {f g} hne => ?_
    rw [Function.onFun, List.disjoint_left]
    intro c hf hg
    simp only [frameCells, List.map_map, List.mem_map, Function.comp_apply] at hf hg
    obtain ⟨_, _, rfl⟩ := hf
    obtain ⟨_, _, he⟩ := hg
    exact hne (congrArg Prod.fst he).symm

end Conserved

/-- **Activity is conserved.** At every moment of every list of calls, the cells of the emitted
events and the live tracks are the set bits of the emitted tiles and the open one, each of them
once, and after a `gap` or a `finish` nothing is live or open: the emitted events have counted and
summed exactly the bits of the emitted tiles. -/
theorem activity_conserved (p : Params K) (calls : List (Call K)) :
    let s := run p calls init
    (s.eventCells ++ s.liveCells).Perm (s.tileCells p ++ s.openCells p) ∧
    ((s.eventCells ++ s.liveCells).map fun c => (c.1, c.2.1)).Nodup ∧
    s.eventCount + (s.tracks.map Track.count).sum =
      s.bitCount + Bitmap.countBits s.tile.activity ∧
    s.eventPower + (s.tracks.map Track.sum).sum =
      s.bitPower p + ((s.openCells p).map fun c => c.2.2).sum ∧
    (∀ e ∈ s.events, ∃ id quality, e.1 = e.2.event p id quality) ∧
    ∀ c, c = .gap ∨ c = .finish → let s' := call p s c
      s'.eventCells.Perm (s'.tileCells p) ∧ s'.eventCount = s'.bitCount ∧
        s'.eventPower = s'.bitPower p := by
  intro s
  have h : Conserved p s := run_conserved calls
  refine ⟨h.cells_perm, ?_, ?_, ?_, h.described, fun c hc => ?_⟩
  · rw [(h.cells_perm.map _).nodup_iff, h.tileCells_append]
    exact h.nodup_measured
  · rw [h.count_eq, h.cells_perm.length_eq, List.length_append, h.bitCount_eq, h.tile.count_cells]
    rfl
  · rw [h.power_eq, (h.cells_perm.map _).sum_eq, List.map_append, List.sum_append]
    rfl
  · intro s'
    have h' : Conserved p s' := by
      have := run_conserved (p := p) (calls ++ [c])
      rwa [run, List.foldl_append] at this
    obtain ⟨hlive, hopen⟩ := run_flushed (p := p) calls hc
    have hframes : s'.tile.frames = [] := by
      rw [← List.length_eq_zero_iff, ← h'.tile.frameCount_eq]
      exact hopen
    -- After a gap or the end no track and no tile is open, so the two sides are the emitted ones alone.
    have hlive' : s'.liveCells = [] := by
      rw [State.liveCells, show s'.tracks = [] from hlive]
      rfl
    have hopen' : s'.openCells p = [] := by
      rw [State.openCells, h'.tile.cells_eq, hframes]
      rfl
    have hperm := h'.cells_perm
    have hcount := h'.count_eq
    have hpower := h'.power_eq
    rw [hlive', hopen', List.append_nil, List.append_nil] at hperm
    rw [show s'.tracks = [] from hlive, hlive', List.append_nil] at hcount hpower
    refine ⟨hperm, ?_, ?_⟩
    · rw [h'.bitCount_eq, ← hperm.length_eq, ← hcount]
      rfl
    · rw [State.bitPower, ← (hperm.map _).sum_eq, ← hpower]
      exact (add_zero _).symm

/-! ## A processor of one bin -/

/-- The functions of the C++ library over the reals. -/
noncomputable def Libm.real : Libm ℝ :=
  { pi := Real.pi
    cos := Real.cos
    sin := Real.sin
    pow10 := fun x => (10 : ℝ) ^ x
    log10 := Real.logb 10 }

theorem hann_mem (i : ℕ) : 0 ≤ hann Libm.real i ∧ hann Libm.real i ≤ 1 := by
  have h₁ := Real.neg_one_le_cos (2 * Real.pi * i / fftSize)
  have h₂ := Real.cos_le_one (2 * Real.pi * i / fftSize)
  simp only [hann, Libm.real]
  constructor <;> linarith

theorem hann_middle : hann Libm.real 2048 = 1 := by
  simp only [hann, Libm.real, fftSize]
  rw [show 2 * Real.pi * (2048 : ℕ) / (4096 : ℕ) = Real.pi by push_cast; ring, Real.cos_pi]
  norm_num

/-- The energy of the window. -/
theorem hann_energy : let e := ((List.range fftSize).map fun i => hann Libm.real i * hann Libm.real i).sum
    0 < e ∧ e ≤ 4096 := by
  intro e
  refine ⟨?_, ?_⟩
  · have hle := List.single_le_sum (l := (List.range fftSize).map
      fun i => hann Libm.real i * hann Libm.real i) (fun x hx => by
        obtain ⟨i, -, rfl⟩ := List.mem_map.mp hx
        exact mul_self_nonneg _) (hann Libm.real 2048 * hann Libm.real 2048)
      (List.mem_map.mpr ⟨2048, List.mem_range.mpr (by decide), rfl⟩)
    rw [hann_middle] at hle
    linarith
  · have hle := List.sum_le_card_nsmul ((List.range fftSize).map
      fun i => hann Libm.real i * hann Libm.real i) 1 (fun x hx => by
        obtain ⟨i, -, rfl⟩ := List.mem_map.mp hx
        exact mul_le_one₀ (hann_mem i).2 (hann_mem i).1 (hann_mem i).2)
    rw [List.length_map, List.length_range] at hle
    simpa [fftSize, e] using hle

/-- What is used of a processor of one bin of `n` Hz, with tiles of one frame and segments of `2 * n`,
whose threshold is below the power of one full-scale sample. -/
structure OneBin (n : ℕ) (p : Params ℝ) : Prop where
  pos : 0 < n
  bins_eq : p.bins = 1
  fftBin_eq : p.fftBin 0 = 0
  segment_eq : p.segmentSamples = 2 * n * 4096
  framesPerTile_eq : p.framesPerTile = 1
  twiddles_eq : p.twiddles 0 = ⟨1, 0⟩
  window_eq : p.window 2048 = 1
  threshold_pos : 0 < p.threshold
  threshold_le : p.threshold ≤ p.normalization

/-- The constructor builds such a processor. -/
theorem exists_oneBin {n : ℕ} (hn : 0 < n) (hle : n ≤ 50) :
    ∃ p, Params.create Libm.real 0 (fftSize * n) n (some (-180)) = .ok p ∧ OneBin n p := by
  have hn' : (0 : ℝ) < n := by exact_mod_cast hn
  have hle' : (n : ℝ) ≤ 50 := by exact_mod_cast hle
  have hwidth : (n : ℝ) / (2 * ((fftSize * n : ℕ) / (fftSize : ℕ))) = 1 / 2 := by
    rw [fftSize]
    push_cast
    field_simp
  have hfirst : max (-2048) ⌈-(n : ℝ) / (2 * ((fftSize * n : ℕ) / (fftSize : ℕ))) + 1 / 2⌉ = 0 := by
    rw [neg_div, hwidth, neg_add_cancel, Int.ceil_zero]
    rfl
  have hlast : min 2047 ⌊(n : ℝ) / (2 * ((fftSize * n : ℕ) / (fftSize : ℕ))) - 1 / 2⌋ = 0 := by
    rw [hwidth, sub_self, Int.floor_zero]
    rfl
  have hsegment : 2 * ((fftSize * n : ℕ) : ℝ) / (fftSize : ℕ) = (2 * n : ℕ) := by
    rw [fftSize]
    push_cast
    field_simp
  have htile : (2 / 100 : ℝ) * ((fftSize * n : ℕ) : ℝ) / (fftSize : ℕ) = n / 50 := by
    rw [fftSize]
    push_cast
    field_simp
    norm_num
  -- The band is half a bin to each side, so its first and its last bin are bin 0.
  unfold Params.create
  dsimp only
  have hvalid : ¬ (fftSize * n = 0 ∨ n = 0 ∨ fftSize * n < n ∨ (-180 : ℝ) < -180 ∨ (20 : ℝ) < -180) := by
    simp only [not_or, not_lt, fftSize]
    exact ⟨by omega, hn.ne', by omega, le_rfl, by norm_num⟩
  rw [dif_neg hvalid, dif_neg (by rw [hfirst, hlast]; norm_num)]
  obtain ⟨hpos, hle⟩ := hann_energy
  refine ⟨_, rfl, hn, ?_, ?_, ?_, ?_, ?_, hann_middle, ?_, ?_⟩
  · dsimp only
    rw [hfirst, hlast]
    rfl
  · simp only [Params.fftBin]
    rw [hfirst]
    rfl
  · dsimp only
    rw [hsegment, Int.ceil_natCast, Int.toNat_natCast, fftSize]
  · dsimp only
    rw [htile, show ⌈(n / 50 : ℝ)⌉ = 1 by rw [Int.ceil_eq_iff]; constructor <;> norm_num <;> linarith]
    rfl
  · simp [Cpx.polar, Libm.real]
  · exact Real.rpow_pos_of_pos (by norm_num) _
  · have hthreshold : Libm.real.pow10 (-180 / 10) = 1 / (10 : ℝ) ^ 18 := by
      show (10 : ℝ) ^ (-180 / 10 : ℝ) = _
      rw [show (-180 / 10 : ℝ) = -(18 : ℕ) by norm_num, Real.rpow_neg (by norm_num),
        Real.rpow_natCast, one_div]
    dsimp only
    rw [hthreshold]
    refine one_div_le_one_div_of_le (mul_pos (by norm_num [fftSize]) hpos) ?_
    calc ((fftSize : ℕ) : ℝ) * _ ≤ (fftSize : ℕ) * 4096 :=
          mul_le_mul_of_nonneg_left hle (Nat.cast_nonneg _)
      _ ≤ 10 ^ 18 := by norm_num [fftSize]

/-- One full-scale sample in the middle of a frame of zeros. -/
noncomputable def impulse : List (Cpx ℝ) := (List.range fftSize).map fun j => if j = 2048 then ⟨1, 0⟩ else 0

theorem length_impulse : impulse.length = fftSize := by
  rw [impulse, List.length_map, List.length_range]

theorem getElem?_impulse {j : ℕ} (hj : j < fftSize) :
    impulse[j]? = some (if j = 2048 then ⟨1, 0⟩ else 0) := by
  rw [impulse, List.getElem?_map, List.getElem?_range hj]
  rfl

attribute [irreducible] impulse

variable {n : ℕ} {p : Params ℝ}

/-- A frame with one full-scale sample is active, whatever the buffer held before. -/
theorem OneBin.powers_impulse (h : OneBin n p) (fft : ℕ → Cpx ℝ) :
    framePowers p (buffer p impulse fft) 0 = p.normalization := by
  have hread : ∀ i < fftSize, buffer p impulse fft i = if i = 1 then ⟨1, 0⟩ else 0 := by
    intro i hi
    obtain ⟨hlt, hrev⟩ := reversal_reversal hi
    have hone : reversal i = 2048 ↔ i = 1 :=
      ⟨fun h => by rw [h] at hrev; rw [← hrev]; decide, fun h => by rw [h]; decide⟩
    have hw := buffer_reversal (p := p) impulse fft length_impulse.le (getElem?_impulse hlt)
    rw [hrev] at hw
    rw [hw]
    by_cases h1 : i = 1
    · rw [if_pos (hone.mpr h1), if_pos h1, hone.mpr h1, h.window_eq]
      ext <;> simp [Cpx.scale]
    · rw [if_neg (mt hone.mp h1), if_neg h1]
      ext <;> simp [Cpx.scale]
  rw [framePowers, h.fftBin_eq, transform_congr hread 0 (by decide),
    transform_impulse h.twiddles_eq fun i hi => if_neg hi]
  simp [Cpx.norm]

/-- The state in which the frame of an impulse from sample `c` on is measured. -/
noncomputable def impulseAt (p : Params ℝ) (c : ℕ) (s : State ℝ) : State ℝ :=
  { s with
    haveOrigin := true
    frameFirst := c
    frameClipped := s.frameClipped + impulse.countP fun v => Clips v
    pending := 0
    fft := buffer p impulse s.fft }

theorem OneBin.impulseAt_active (h : OneBin n p) (c : ℕ) (s : State ℝ) :
    p.threshold ≤ (nextFrame p (impulseAt p c s)).powers 0 := by
  unfold nextFrame impulseAt
  dsimp only
  rw [h.powers_impulse]
  exact h.threshold_le

theorem call_impulse {p : Params ℝ} {c : ℕ} {s : State ℝ} (hf : s.finished = false)
    (ho : s.haveOrigin = true → c = s.nextSample) (hp : s.pending = 0) (hc : c < 2 ^ 63) :
    call p s (.feed (impulse.map some) c) =
      { processFrame p (impulseAt p c s) with nextSample := c + fftSize } := by
  have hlen := length_impulse
  have hne : impulse ≠ [] := fun h => by
    rw [h] at hlen
    exact absurd hlen (by decide)
  have hfeed := feed_some (p := p) hne hf ho (by rw [hlen, fftSize]; omega)
  have hframe := feedSamples_frame (p := p) (s := { s with haveOrigin := true }) impulse c hp hlen
  show (feed p (impulse.map some) c s).toOption.getD s = _
  rw [hfeed, hlen]
  dsimp only
  rw [hframe]
  rfl

/-- With no live track, a frame of a processor of one bin ends and cuts nothing. -/
theorem OneBin.events_first (h : OneBin n p) {s : State ℝ} (hs : s.tracks = []) :
    (processFrame p s).events = s.events ∧ (processFrame p s).splitIntervals = [] := by
  have hlen : s.tracks.length ≤ maxTracks := by rw [hs]; exact Nat.zero_le _
  let frame := nextFrame p s
  let a := associate p.bins frame.index frame.first s.splitIntervals s.tracks (frameRuns p frame)
  have hended : a.1 = [] := List.eq_nil_iff_forall_not_mem.mpr fun t ht => by
    have := mem_associate_ended hlen frameRuns_length_le ht
    simp [hs] at this
  have hcut : a.2.filter (Track.Long p) = [] := List.filter_eq_nil_iff.mpr fun t ht => by
    obtain ⟨old, new, hold, -, -, rfl⟩ := mem_associate_next hlen frameRuns_length_le ht
    have hc := combined p.bins frame.index frame.first s.splitIntervals old new
    have hfirst := (hc.le_first frame.first).mpr ⟨le_refl _, fun o ho => by
      have := hold o ho
      simp [hs] at this⟩
    have hn := h.pos
    simp only [Track.Long, h.segment_eq, hc.end_eq, fftSize, decide_eq_true_eq]
    omega
  rw [processFrame_spec]
  simp only [show (associate p.bins (nextFrame p s).index (nextFrame p s).first s.splitIntervals
    s.tracks (frameRuns p (nextFrame p s))) = a from rfl, hended, hcut]
  simp [emitted]

/-- Before the stream is flushed the emitted events lag behind the emitted tiles: the track of the
last frame is still live when its tile is emitted. -/
theorem activity_lags : ¬ ∀ (center rate span : ℕ) (cutoff : Option ℝ) (p : Params ℝ),
    Params.create Libm.real center rate span cutoff = .ok p →
    ∀ calls, (run p calls init).eventCount = (run p calls init).bitCount := by
  intro hall
  obtain ⟨p, hp, hone⟩ := exists_oneBin Nat.one_pos (by norm_num)
  have heq := hall 0 4096 1 (some (-180)) p hp [.feed (impulse.map some) 0]
  have hc : Conserved p (run p [.feed (impulse.map some) 0] init) := run_conserved _
  have hrun : run p [.feed (impulse.map some) 0] init =
      { processFrame p (impulseAt p 0 init) with nextSample := 0 + fftSize } := by
    rw [run, List.foldl_cons, List.foldl_nil]
    exact call_impulse rfl (fun _ => rfl) rfl (by norm_num)
  -- No event is emitted, and the only frame is the tile that is.
  have hevents : (run p [.feed (impulse.map some) 0] init).events = [] := by
    rw [hrun]
    exact (hone.events_first rfl).1
  have hopen : (run p [.feed (impulse.map some) 0] init).openCells p = [] := by
    have htile : (run p [.feed (impulse.map some) 0] init).tile = .prepare := by
      have hfull : ((impulseAt p 0 init).tile.addFrame p
          (nextFrame p (impulseAt p 0 init))).frameCount = p.framesPerTile := by
        rw [hone.framesPerTile_eq]
        rfl
      rw [hrun, processFrame_spec]
      dsimp only
      rw [if_pos hfull]
    rw [State.openCells, htile]
    rfl
  have hframes : (run p [.feed (impulse.map some) 0] init).frames =
      [nextFrame p (impulseAt p 0 init)] := by
    rw [hrun, processFrame_spec]
    rfl
  have hcells := hc.tileCells_append
  rw [hopen, List.append_nil, hframes, List.flatMap_singleton] at hcells
  rw [hc.bitCount_eq, hcells, length_frameCells, hone.bins_eq, State.eventCount, hevents] at heq
  simp [hone.impulseAt_active 0 init] at heq

end SpectrumProcessor

end OVMesh
