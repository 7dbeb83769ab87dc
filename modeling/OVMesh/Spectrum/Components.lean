import OVMesh.Lib.Layers
import OVMesh.Spectrum.Segments

/-!
# Events are connected components

Between two flushes the runs of the frames form a layered graph: a run is joined with a component of
the frames before when it touches the envelope that the component has in the last of them. While no
frame has more than `max_tracks` runs and no component reaches the segment limit, the emitted events
are the components of this graph.

* `frameLayer`, `envelopeTouches`, `Component`: the graph and its components, by `Layers.Comp`.
* `MergesAt`, `Merges`: a frame joined more than one track or more than one run of a component.
* `Components`: what the emitted and live tracks are after some frames. `Step.components`: one more
  frame keeps it, since the classes of the union-find are what one layer joins (`component_iff`).
* `Between`, `Since`: the frames and events since the last flush.
* `events_components`: the events between two flushes.
-/

namespace OVMesh

namespace SpectrumProcessor

open SurveyQuality

variable {K : Type} [Field K] [LinearOrder K]

/-! ## The graph -/

/-- The maximal runs of the frame with index `i`, as intervals of bins. -/
def frameLayer (p : Params K) (frames : List (Frame K)) (i : ℕ) : Set (ℕ × ℕ) :=
  {b | ∃ f ∈ frames, f.index = i ∧ IsRun p.bins p.threshold f.powers b.1 b.2}

/-- The envelope of a set of intervals overlaps with the interval `b` or is adjacent to it. -/
def envelopeTouches (s : Set (ℕ × ℕ)) (b : ℕ × ℕ) : Prop :=
  ∃ low high, IsLeast (Prod.fst '' s) low ∧ IsGreatest (Prod.snd '' s) high ∧
    touches low high b.1 b.2

/-- The components of the frames with an index below `n`. A node is a frame and an interval. -/
def Component (p : Params K) (frames : List (Frame K)) (n : ℕ) : Setoid (ℕ × ℕ × ℕ) :=
  Layers.Comp (frameLayer p frames) envelopeTouches n

/-- The node of a run. -/
def IsNode (p : Params K) (frames : List (Frame K)) (x : ℕ × ℕ × ℕ) : Prop :=
  x.2 ∈ frameLayer p frames x.1

/-- The frame `m` joined two runs of `s`, or two components of the frames before that are parts
of `s`. -/
def MergesAt (p : Params K) (frames : List (Frame K)) (m : ℕ) (s : Set (ℕ × ℕ × ℕ)) : Prop :=
  ∃ x ∈ s, ∃ y ∈ s, Component p frames (m + 1) x y ∧
    (x.1 = m ∧ y.1 = m ∧ x ≠ y ∨ x.1 + 1 = m ∧ y.1 + 1 = m ∧ ¬ Component p frames m x y)

/-- Some frame below `n` joined two runs or two earlier parts of the component `s`. -/
def Merges (p : Params K) (frames : List (Frame K)) (n : ℕ) (s : Set (ℕ × ℕ × ℕ)) : Prop :=
  ∃ m < n, MergesAt p frames m s

/-- The nodes of the runs of a track. -/
def Track.nodes (t : Track K) : List (ℕ × ℕ × ℕ) := t.runs.map fun x => (x.1, x.2.low, x.2.high)

/-- The nodes of the runs of a frame. -/
def frameNodes (p : Params K) (f : Frame K) : List (ℕ × ℕ × ℕ) :=
  (frameRuns p f).map fun r => (f.index, r.low, r.high)

/-- No frame has more runs than there are tracks, so the runs are not grouped. -/
def Sparse (p : Params K) (frames : List (Frame K)) : Prop :=
  ∀ f ∈ frames, (extractRuns p.bins p.threshold f.powers f.clipped 0).length ≤ maxTracks

variable {p : Params K} {f : Frame K} {fs : List (Frame K)} {b n : ℕ} {x y : ℕ × ℕ × ℕ}

/-! ## The nodes of a frame -/

theorem frameRuns_of_sparse (h : Sparse p fs) (hf : f ∈ fs) :
    frameRuns p f = extractRuns p.bins p.threshold f.powers f.clipped 0 :=
  groupRuns_of_le (h f hf)

/-- The runs of a sparse frame are its maximal runs. -/
theorem mem_frameRuns (h : Sparse p fs) (hf : f ∈ fs) {r : Run K} (hr : r ∈ frameRuns p f) :
    IsRun p.bins p.threshold f.powers r.low r.high ∧ r.count = r.high + 1 - r.low ∧
      ∀ g, HasFlag r.quality g → g = boundary ∨ g = clipped := by
  rw [frameRuns_of_sparse h hf] at hr
  obtain ⟨hrun, -, hcells, hcount⟩ := extractRuns_isRun (fun b hb => by omega) hr
  refine ⟨hrun, ?_, fun g hg => extractRuns_quality hr hg⟩
  rw [hcount.count_eq, hcells, cellsOf, List.length_map, List.length_range']

theorem mem_frameNodes (h : Sparse p fs) (hf : f ∈ fs) : x ∈ frameNodes p f ↔
    x.1 = f.index ∧ IsRun p.bins p.threshold f.powers x.2.1 x.2.2 := by
  rw [frameNodes, List.mem_map]
  constructor
  · rintro ⟨r, hr, rfl⟩
    exact ⟨rfl, (mem_frameRuns h hf hr).1⟩
  · rintro ⟨hx, hrun⟩
    obtain ⟨r, hr, hlow, hhigh⟩ := exists_mem_extractRuns f.clipped hrun
    rw [← frameRuns_of_sparse h hf] at hr
    exact ⟨r, hr, by rw [hlow, hhigh, ← hx]⟩

/-- Two runs of a sparse frame at different places have different lowest bins. -/
theorem frameRuns_pairwise (h : Sparse p fs) (hf : f ∈ fs) :
    (frameRuns p f).Pairwise fun r r' => r.low < r'.low := by
  have hpair : (frameRuns p f).Pairwise fun a b => a.high < b.low := by
    rw [frameRuns_of_sparse h hf]
    exact extractRuns_pairwise fun b hb => by omega
  refine hpair.imp_of_mem fun {r r'} hr _ hlt => ?_
  have := (mem_frameRuns h hf hr).1.le
  omega

theorem isNode_iff (h : Sparse p fs) : IsNode p fs x ↔ x ∈ fs.flatMap (frameNodes p) := by
  rw [List.mem_flatMap]
  constructor
  · rintro ⟨f, hf, hi, hrun⟩
    exact ⟨f, hf, (mem_frameNodes h hf).mpr ⟨hi.symm, hrun⟩⟩
  · rintro ⟨f, hf, hx⟩
    obtain ⟨hi, hrun⟩ := (mem_frameNodes h hf).mp hx
    exact ⟨f, hf, hi.symm, hrun⟩

theorem nodes_nodup (h : Sparse p fs) (hi : fs.map Frame.index = List.range' b fs.length) :
    (fs.flatMap (frameNodes p)).Nodup := by
  refine List.nodup_flatMap.mpr ⟨fun f hf => ?_, ?_⟩
  · refine List.pairwise_map.mpr ((frameRuns_pairwise h hf).imp fun hlt heq => ?_)
    have := congrArg (fun x : ℕ × ℕ × ℕ => x.2.1) heq
    simp only at this
    omega
  · have hne : fs.Pairwise fun f g => f.index ≠ g.index :=
      List.pairwise_map.mp (hi ▸ List.nodup_range')
    refine hne.imp_of_mem fun {f g} hf hg hne => ?_
    rw [Function.onFun, List.disjoint_left]
    intro x hx hx'
    exact hne (((mem_frameNodes h hf).mp hx).1.symm.trans ((mem_frameNodes h hg).mp hx').1)

/-! ## One more frame -/

theorem Sparse.of_append {gs : List (Frame K)} (h : Sparse p (fs ++ gs)) : Sparse p fs :=
  fun f hf => h f (List.mem_append_left _ hf)

omit [Field K] in
/-- A frame with a later index does not change a layer. -/
theorem frameLayer_append (hi : f.index = n) {i : ℕ} (hlt : i < n) :
    frameLayer p (fs ++ [f]) i = frameLayer p fs i := by
  ext c
  constructor
  · rintro ⟨g, hg, hgi, hrun⟩
    rcases List.mem_append.mp hg with hg | hg
    · exact ⟨g, hg, hgi, hrun⟩
    · rw [List.mem_singleton.mp hg] at hgi
      omega
  · rintro ⟨g, hg, h⟩
    exact ⟨g, List.mem_append_left _ hg, h⟩

omit [Field K] in
theorem component_append (hi : f.index = n) {m : ℕ} (hm : m ≤ n) :
    Component p (fs ++ [f]) m = Component p fs m :=
  Layers.Comp.congr fun _ h => frameLayer_append hi (by omega)

omit [Field K] in
theorem isNode_append (hi : f.index = n) (hx : x.1 < n) :
    IsNode p (fs ++ [f]) x ↔ IsNode p fs x := by
  rw [IsNode, IsNode, frameLayer_append hi hx]

/-! ## What the tracks record -/

/-- What a track records of its nodes, by the bounds of its minima and maxima: `start i` is the
first sample of frame `i`. -/
structure Track.Records (start : ℕ → ℕ) (t : Track K) : Prop where
  nonempty : t.nodes ≠ []
  le_low : ∀ x, x ≤ t.low ↔ ∀ y ∈ t.nodes, x ≤ y.2.1
  high_le : ∀ x, t.high ≤ x ↔ ∀ y ∈ t.nodes, y.2.2 ≤ x
  le_first : ∀ x, x ≤ t.first ↔ ∀ y ∈ t.nodes, x ≤ start y.1
  end_le : ∀ x, t.end_ ≤ x ↔ ∀ y ∈ t.nodes, start y.1 + fftSize ≤ x
  count_eq : t.count = (t.nodes.map fun y => y.2.2 + 1 - y.2.1).sum

/-- The frame `n` is the last one with a run of the track, and the track has its envelope. -/
structure Track.Last (n : ℕ) (t : Track K) : Prop where
  mem : ∃ y ∈ t.nodes, y.1 = n
  le_lastLow : ∀ x, x ≤ t.lastLow ↔ ∀ y ∈ t.nodes, y.1 = n → x ≤ y.2.1
  lastHigh_le : ∀ x, t.lastHigh ≤ x ↔ ∀ y ∈ t.nodes, y.1 = n → y.2.2 ≤ x

omit [Field K] [LinearOrder K] in
/-- A run touches the envelope of the nodes in the last frame exactly when it touches the last
interval of the track. -/
theorem Track.Last.envelopeTouches_iff {t : Track K} (h : t.Last n) {c : ℕ × ℕ} :
    envelopeTouches {c | (n, c) ∈ t.nodes} c ↔ touches t.lastLow t.lastHigh c.1 c.2 := by
  have hforall : ∀ q : ℕ × ℕ × ℕ → Prop,
      (∀ y ∈ t.nodes, y.1 = n → q y) ↔ ∀ c ∈ {c | (n, c) ∈ t.nodes}, q (n, c) := fun q =>
    ⟨fun h c hc => h (n, c) hc rfl, fun h y hy hn => by subst hn; exact h y.2 hy⟩
  have hleast : IsLeast (Prod.fst '' {c | (n, c) ∈ t.nodes}) t.lastLow :=
    Fold.isLeast_of_le_iff fun x => (h.le_lastLow x).trans (hforall fun y => x ≤ y.2.1)
  have hgreatest : IsGreatest (Prod.snd '' {c | (n, c) ∈ t.nodes}) t.lastHigh := by
    obtain ⟨y, hy, rfl⟩ := h.mem
    exact Fold.isGreatest_of_le_iff ⟨y.2, hy⟩ fun x =>
      (h.lastHigh_le x).trans (hforall fun y => y.2.2 ≤ x)
  constructor
  · rintro ⟨low, high, hlow, hhigh, htouch⟩
    rwa [hlow.unique hleast, hhigh.unique hgreatest] at htouch
  · exact fun htouch => ⟨_, _, hleast, hgreatest, htouch⟩

/-- The nodes of a group: those of its tracks, and those of its runs in the frame `index`. -/
theorem mem_combine_nodes {bins index first : ℕ} {splits : List (ℕ × ℕ)} {old : List (Track K)}
    {new : List (Run K)} : x ∈ (Track.combine bins index first splits old new).nodes ↔
      (∃ o ∈ old, x ∈ o.nodes) ∨ ∃ r ∈ new, x = (index, r.low, r.high) := by
  rw [Track.nodes, combine_runs, List.map_append, List.mem_append, List.map_flatMap,
    List.mem_flatMap, List.map_map, List.mem_map]
  exact or_congr Iff.rfl ⟨fun ⟨r, hr, h⟩ => ⟨r, hr, h.symm⟩, fun ⟨r, hr, h⟩ => ⟨r, hr, h.symm⟩⟩

/-- A group records its nodes when its tracks do and its frame is the last one. -/
theorem Track.Records.combine {bins index first : ℕ} {splits : List (ℕ × ℕ)} {start : ℕ → ℕ}
    {old : List (Track K)} {new : List (Run K)} (hmono : Monotone start) (hfirst : first = start index)
    (ho : ∀ o ∈ old, o.Records start ∧ ∀ y ∈ o.nodes, y.1 < index) (hne : new ≠ [])
    (hn : ∀ r ∈ new, r.low < bins ∧ r.count = r.high + 1 - r.low) :
    (Track.combine bins index first splits old new).Records start ∧
      (Track.combine bins index first splits old new).Last index := by
  have hc := combined bins index first splits old new
  -- A bound over the nodes of the combined track is one over the old tracks and one over the new runs.
  have hforall : ∀ q : ℕ × ℕ × ℕ → Prop,
      (∀ y ∈ (Track.combine bins index first splits old new).nodes, q y) ↔
        (∀ o ∈ old, ∀ y ∈ o.nodes, q y) ∧ ∀ r ∈ new, q (index, r.low, r.high) := fun q => by
    simp only [mem_combine_nodes]
    exact ⟨fun h => ⟨fun o hm y hy => h y (.inl ⟨o, hm, hy⟩), fun r hr => h _ (.inr ⟨r, hr, rfl⟩)⟩,
      fun h y hy => hy.elim (fun ⟨o, hm, hy⟩ => h.1 o hm y hy) fun ⟨r, hr, hy⟩ => hy ▸ h.2 r hr⟩
  obtain ⟨r₀, hr₀⟩ := List.exists_mem_of_ne_nil _ hne
  have hold : ∀ q : ℕ × ℕ × ℕ → Prop, ∀ o ∈ old, ∀ y ∈ o.nodes, y.1 = index → q y :=
    fun q o hm y hy heq => absurd heq (Nat.ne_of_lt ((ho o hm).2 y hy))
  refine ⟨⟨?_, fun x => ?_, fun x => ?_, fun x => ?_, fun x => ?_, ?_⟩,
    ⟨?_, fun x => ?_, fun x => ?_⟩⟩
  · exact List.ne_nil_of_mem (mem_combine_nodes.mpr (.inr ⟨r₀, hr₀, rfl⟩))
  · rw [hc.le_low, hforall, and_assoc]
    have hlow := (hn r₀ hr₀).1
    constructor
    · rintro ⟨-, h₁, h₂⟩
      exact ⟨fun o hm => ((ho o hm).1.le_low x).mp (h₁ o hm), h₂⟩
    · rintro ⟨h₁, h₂⟩
      have hle : x ≤ r₀.low := h₂ r₀ hr₀
      exact ⟨by omega, fun o hm => ((ho o hm).1.le_low x).mpr (h₁ o hm), h₂⟩
  · rw [hc.high_le, hforall]
    exact and_congr_left' (forall₂_congr fun o hm => (ho o hm).1.high_le x)
  · rw [hc.le_first, hforall, and_comm, hfirst]
    exact and_congr (forall₂_congr fun o hm => (ho o hm).1.le_first x)
      ⟨fun h _ _ => h, fun h => h r₀ hr₀⟩
  · rw [hc.end_eq, hforall, hfirst]
    refine ⟨fun h => ⟨fun o hm y hy => ?_, fun _ _ => h⟩, fun h => h.2 r₀ hr₀⟩
    have := hmono (Nat.le_of_lt ((ho o hm).2 y hy))
    omega
  · rw [hc.count_eq, Track.nodes, combine_runs, List.map_append, List.map_append, List.sum_append,
      List.map_flatMap, List.map_flatMap, List.flatMap_def, List.sum_flatten, List.map_map,
      List.map_map, List.map_map]
    congr 2
    · exact List.map_congr_left fun o hm => (ho o hm).1.count_eq
    · exact List.map_congr_left fun r hr => (hn r hr).2
  · exact ⟨_, mem_combine_nodes.mpr (.inr ⟨r₀, hr₀, rfl⟩), rfl⟩
  · rw [hc.le_lastLow, hforall, and_iff_right (hold _)]
    have hlow := (hn r₀ hr₀).1
    refine ⟨fun h r hr _ => h.2 r hr, fun h => ⟨?_, fun r hr => h r hr rfl⟩⟩
    have hle : x ≤ r₀.low := h r₀ hr₀ rfl
    omega
  · rw [hc.lastHigh_le, hforall, and_iff_right (hold _)]
    exact ⟨fun h r hr _ => h r hr, fun h r hr => h r hr rfl⟩

/-! ## The components so far -/

/-- The tracks `done` and `live` after the frames `frames`, which are those with the indices from
`b` on: the components of the frames, and the live ones are those with a run in the last frame. -/
structure Components (p : Params K) (b : ℕ) (start : ℕ → ℕ) (frames : List (Frame K))
    (done live : List (Track K)) : Prop where
  index_eq : frames.map Frame.index = List.range' b frames.length
  nodes_perm : ((done ++ live).flatMap Track.nodes).Perm (frames.flatMap (frameNodes p))
  conn : ∀ x y, IsNode p frames x → (Component p frames (b + frames.length) x y ↔
    ∃ t ∈ done ++ live, x ∈ t.nodes ∧ y ∈ t.nodes)
  done_lt : ∀ t ∈ done, ∀ x ∈ t.nodes, x.1 + 1 < b + frames.length
  live_last : ∀ t ∈ live, ∃ n, n + 1 = b + frames.length ∧ t.Last n
  records : ∀ t ∈ done ++ live, t.Records start
  merged : ∀ t ∈ done ++ live,
    HasFlag t.quality .merged ↔ Merges p frames (b + frames.length) {x | x ∈ t.nodes}

/-- The frame `f` comes next. -/
structure Step (p : Params K) (b : ℕ) (start : ℕ → ℕ) (fs : List (Frame K))
    (done live : List (Track K)) (f : Frame K) : Prop where
  comps : Components p b start fs done live
  sparse : Sparse p (fs ++ [f])
  index_eq : f.index = b + fs.length
  first_eq : f.first = start f.index
  mono : Monotone start
  length_le : live.length ≤ maxTracks

variable {start : ℕ → ℕ} {done live : List (Track K)} {t t' : Track K}

theorem Components.nodes_nodup (h : Components p b start fs done live) (hs : Sparse p fs) :
    ((done ++ live).flatMap Track.nodes).Nodup :=
  h.nodes_perm.nodup_iff.mpr (SpectrumProcessor.nodes_nodup hs h.index_eq)

/-- The nodes of the tracks are those of the frames. -/
theorem Components.isNode_iff (h : Components p b start fs done live) (hs : Sparse p fs) :
    IsNode p fs x ↔ ∃ t ∈ done ++ live, x ∈ t.nodes := by
  rw [SpectrumProcessor.isNode_iff hs, ← h.nodes_perm.mem_iff, List.mem_flatMap]

omit [Field K] in
theorem IsNode.lt (hi : fs.map Frame.index = List.range' b fs.length) (hx : IsNode p fs x) :
    x.1 < b + fs.length := by
  obtain ⟨f, hf, hfi, -⟩ := hx
  have hmem : f.index ∈ fs.map Frame.index := List.mem_map_of_mem hf
  rw [hi, List.mem_range'_1] at hmem
  omega

/-- Two nodes of a track are in one component, and the track has all of it. -/
theorem Components.mem_iff (h : Components p b start fs done live) (hs : Sparse p fs)
    (ht : t ∈ done ++ live) (hx : x ∈ t.nodes) :
    y ∈ t.nodes ↔ Component p fs (b + fs.length) x y := by
  rw [h.conn x y ((h.isNode_iff hs).mpr ⟨t, ht, hx⟩)]
  constructor
  · exact fun hy => ⟨t, ht, hx, hy⟩
  · rintro ⟨t', ht', hx', hy⟩
    rwa [Grouping.eq_of_mem (h.nodes_nodup hs) ht ht' hx hx']

/-! ## The graph of one frame -/

omit [Field K] in
/-- The nodes of a frame are alone before it. -/
theorem eq_of_component (hx : x.1 = n) (hc : Component p fs n x y) : y = x := by
  rcases Layers.Comp.mem hc with rfl | ⟨⟨hlt, -⟩, -⟩
  · rfl
  · omega

/-- The nodes that a node `a` of the union-find stands for: those of a track, or the run of the
frame `n`. -/
def cell (n : ℕ) (live : List (Track K)) (runs : List (Run K)) (a : ℕ) : Set (ℕ × ℕ × ℕ) :=
  {x | (∃ t, live[a]? = some t ∧ x ∈ t.nodes) ∨
    ∃ j r, a = maxTracks + j ∧ runs[j]? = some r ∧ x = (n, r.low, r.high)}

namespace Step

theorem sparse_old (h : Step p b start fs done live f) : Sparse p fs := h.sparse.of_append

theorem mem_frame (_ : Step p b start fs done live f) : f ∈ fs ++ [f] :=
  List.mem_append_right _ (List.mem_singleton_self f)

theorem old_lt (h : Step p b start fs done live f) (ht : t ∈ done ++ live) (hx : x ∈ t.nodes) :
    x.1 < f.index := by
  rw [h.index_eq]
  exact IsNode.lt h.comps.index_eq ((h.comps.isNode_iff h.sparse_old).mpr ⟨t, ht, hx⟩)

/-- The components of the frames before are those that the tracks hold. -/
theorem mem_iff (h : Step p b start fs done live f) (ht : t ∈ done ++ live) (hx : x ∈ t.nodes) :
    y ∈ t.nodes ↔ Component p (fs ++ [f]) f.index x y := by
  rw [component_append rfl (le_refl _), h.index_eq]
  exact h.comps.mem_iff h.sparse_old ht hx

theorem cell_class (h : Step p b start fs done live f) {a : ℕ}
    (hx : x ∈ cell f.index live (frameRuns p f) a) :
    y ∈ cell f.index live (frameRuns p f) a ↔ Component p (fs ++ [f]) f.index x y := by
  have hle := h.length_le
  rcases hx with ⟨t, ht, hx⟩ | ⟨j, r, rfl, hr, rfl⟩
  · have hlt := (List.getElem?_eq_some_iff.mp ht).1
    rw [← h.mem_iff (List.mem_append_right _ (List.mem_of_getElem? ht)) hx]
    constructor
    · rintro (⟨t', ht', hy⟩ | ⟨j, r, rfl, -⟩)
      · rw [ht] at ht'
        rwa [Option.some.inj ht']
      · omega
    · exact fun hy => .inl ⟨t, ht, hy⟩
  · constructor
    · rintro (⟨t, ht, -⟩ | ⟨j', r', heq, hr', rfl⟩)
      · have hlt := (List.getElem?_eq_some_iff.mp ht).1
        omega
      · obtain rfl : j = j' := Nat.add_left_cancel heq
        rw [hr] at hr'
        cases hr'
        exact Setoid.refl' _ _
    · intro hc
      exact .inr ⟨j, r, rfl, hr, eq_of_component rfl hc⟩

theorem cell_disjoint (h : Step p b start fs done live f) {a c : ℕ}
    (hx : x ∈ cell f.index live (frameRuns p f) a) (hx' : x ∈ cell f.index live (frameRuns p f) c) :
    a = c := by
  have hlive := (List.nodup_append.mp (List.flatMap_append ▸ h.comps.nodes_nodup h.sparse_old)).2.1
  rcases hx with ⟨t, ht, hx⟩ | ⟨j, r, rfl, hr, rfl⟩ <;>
    rcases hx' with ⟨t', ht', hx'⟩ | ⟨j', r', rfl, hr', heq⟩
  · exact Grouping.index_eq_of_mem hlive ht ht' hx hx'
  · have := h.old_lt (List.mem_append_right _ (List.mem_of_getElem? ht)) hx
    rw [heq] at this
    exact absurd this (Nat.lt_irrefl _)
  · exact absurd (h.old_lt (List.mem_append_right _ (List.mem_of_getElem? ht')) hx')
      (Nat.lt_irrefl _)
  · have hlow : r.low = r'.low := congrArg (fun x : ℕ × ℕ × ℕ => x.2.1) heq
    have hpair := List.pairwise_iff_getElem.mp (frameRuns_pairwise h.sparse h.mem_frame)
    obtain ⟨hj, rfl⟩ := List.getElem?_eq_some_iff.mp hr
    obtain ⟨hj', rfl⟩ := List.getElem?_eq_some_iff.mp hr'
    rcases Nat.lt_trichotomy j j' with hlt | rfl | hgt
    · have := hpair j j' hj hj' hlt
      omega
    · rfl
    · have := hpair j' j hj' hj hgt
      omega

/-- A node of the last frame and a node of the new one are joined when the track of the first
touches the run of the second. -/
theorem joined_iff (h : Step p b start fs done live f) (ht : t ∈ live) (hx : x ∈ t.nodes)
    (hlast : x.1 + 1 = f.index) {r : Run K} (hr : r ∈ frameRuns p f) :
    Layers.Joined (frameLayer p (fs ++ [f])) envelopeTouches (Component p (fs ++ [f]) f.index)
      f.index x (f.index, r.low, r.high) ↔ touches t.lastLow t.lastHigh r.low r.high := by
  have hmem : t ∈ done ++ live := List.mem_append_right _ ht
  have hnode : ∀ {y}, y ∈ t.nodes → y.2 ∈ frameLayer p (fs ++ [f]) y.1 := fun {y} hy =>
    (isNode_append rfl (h.old_lt hmem hy)).mpr ((h.comps.isNode_iff h.sparse_old).mpr ⟨t, hmem, hy⟩)
  have hlayer : {c | c ∈ frameLayer p (fs ++ [f]) x.1 ∧ Component p (fs ++ [f]) f.index x (x.1, c)} =
      {c | (x.1, c) ∈ t.nodes} := by
    ext c
    rw [Set.mem_ofPred_eq, Set.mem_ofPred_eq, ← h.mem_iff hmem hx]
    exact and_iff_right_of_imp fun hc => hnode hc
  obtain ⟨n, hn, hl⟩ := h.comps.live_last t ht
  obtain rfl : n = x.1 := by
    have := h.index_eq
    omega
  rw [Layers.Joined, hlayer, hl.envelopeTouches_iff]
  exact ⟨fun hj => hj.2.2.2.2, fun htouch => ⟨hlast, hnode hx, rfl,
    ⟨f, h.mem_frame, rfl, (mem_frameRuns h.sparse h.mem_frame hr).1⟩, htouch⟩⟩

/-- One frame joins the cells that a path of touching tracks and runs connects. -/
theorem component_iff (h : Step p b start fs done live f) :
    Component p (fs ++ [f]) (f.index + 1) x y ↔ Component p (fs ++ [f]) f.index x y ∨
      ∃ a c, x ∈ cell f.index live (frameRuns p f) a ∧ y ∈ cell f.index live (frameRuns p f) c ∧
        Relation.EqvGen (Edge live (frameRuns p f)) a c := by
  refine Layers.sup_eqvGen_iff (fun hx => h.cell_class hx) (fun hx hx' => h.cell_disjoint hx hx')
    (fun {x y} hj => ?_) fun {a c} he => ?_
  · obtain ⟨hlast, hx, hy, hyl, -⟩ := id hj
    have hx' : IsNode p fs x := (isNode_append rfl (by omega)).mp hx
    obtain ⟨t, ht, hxt⟩ := (h.comps.isNode_iff h.sparse_old).mp hx'
    have hlive : t ∈ live := (List.mem_append.mp ht).resolve_left fun hd => by
      have := h.comps.done_lt t hd x hxt
      have := h.index_eq
      omega
    obtain ⟨r, hr, hyr⟩ := List.mem_map.mp ((mem_frameNodes h.sparse h.mem_frame (x := y)).mpr
      ⟨hy, by
        obtain ⟨g, hg, hgi, hrun⟩ := hyl
        rcases List.mem_append.mp hg with hg | hg
        · have := IsNode.lt h.comps.index_eq (x := (g.index, y.2)) ⟨g, hg, rfl, hrun⟩
          have := h.index_eq
          omega
        · rwa [List.mem_singleton.mp hg] at hrun⟩)
    rw [← hyr] at hj ⊢
    obtain ⟨i, hi⟩ := List.mem_iff_getElem?.mp hlive
    obtain ⟨j, hj'⟩ := List.mem_iff_getElem?.mp hr
    exact ⟨i, maxTracks + j, .inl ⟨t, hi, hxt⟩, .inr ⟨j, r, rfl, hj', rfl⟩, i, j, t, r, hi, hj',
      (h.joined_iff hlive hxt hlast hr).mp hj, rfl, rfl⟩
  · obtain ⟨i, j, t, r, hi, hj, htouch, rfl, rfl⟩ := he
    have hlive := List.mem_of_getElem? hi
    obtain ⟨n, hn, hl⟩ := h.comps.live_last t hlive
    obtain ⟨x, hx, rfl⟩ := hl.mem
    exact ⟨x, .inl ⟨t, hi, hx⟩, _, .inr ⟨j, r, rfl, hj, rfl⟩,
      (h.joined_iff hlive hx (by rw [h.index_eq]; exact hn) (List.mem_of_getElem? hj)).mpr htouch⟩

end Step

/-! ## The groups of one frame -/

omit [Field K] [LinearOrder K] in
/-- A node that no run is connected with stands alone. -/
theorem eq_or_run {live : List (Track K)} {runs : List (Run K)} {a c : ℕ}
    (h : Relation.EqvGen (Edge live runs) a c) :
    a = c ∨ ∃ j < runs.length, Relation.EqvGen (Edge live runs) (maxTracks + j) a := by
  induction h with
  | rel a c h =>
    obtain ⟨i, j, t, r, hi, hj, htouch, rfl, rfl⟩ := id h
    exact .inr ⟨j, (List.getElem?_eq_some_iff.mp hj).1, .symm _ _ (.rel _ _ h)⟩
  | refl a => exact .inl rfl
  | symm a c hac ih =>
    rcases ih with rfl | ⟨j, hj, ha⟩
    · exact .inl rfl
    · exact .inr ⟨j, hj, .trans _ _ _ ha hac⟩
  | trans a c d _ _ ih ih' =>
    rcases ih with rfl | ih
    · exact ih'
    · exact .inr ih

variable {key : ℕ → ℕ} {groups : List ℕ} {g : ℕ}

/-- The track of a group of the frame `f`. -/
def groupTrack (p : Params K) (f : Frame K) (live : List (Track K)) (key : ℕ → ℕ) (g : ℕ) : Track K :=
  .combine p.bins f.index f.first [] (tracksOf key live g) (runsOf key (frameRuns p f) g)

/-- The association of the frame `f`. -/
abbrev Groups (p : Params K) (f : Frame K) (live : List (Track K)) (key : ℕ → ℕ)
    (groups : List ℕ) : Prop :=
  Associated p.bins f.index f.first [] live (frameRuns p f) key groups

omit [Field K] [LinearOrder K] in
/-- The cells belong to the nodes of the union-find. -/
theorem mem_nodes_of_cell {runs : List (Run K)} {a : ℕ} (ht : live.length ≤ maxTracks)
    (hr : runs.length ≤ maxTracks) (hx : x ∈ cell n live runs a) : a ∈ nodes := by
  rcases hx with ⟨t, hi, -⟩ | ⟨j, r, rfl, hj, -⟩
  · have := (List.getElem?_eq_some_iff.mp hi).1
    exact mem_nodes_track (by omega)
  · have := (List.getElem?_eq_some_iff.mp hj).1
    exact mem_nodes_run (by omega)

/-- The track of a group has the cells with its key. -/
theorem mem_groupTrack : x ∈ (groupTrack p f live key g).nodes ↔
    ∃ a, key a = g ∧ x ∈ cell f.index live (frameRuns p f) a := by
  rw [groupTrack, mem_combine_nodes]
  constructor
  · rintro (⟨t, ht, hx⟩ | ⟨r, hr, rfl⟩)
    · obtain ⟨i, hi, hk⟩ := mem_tracksOf.mp ht
      exact ⟨i, hk, .inl ⟨t, hi, hx⟩⟩
    · obtain ⟨j, hj, hk⟩ := mem_runsOf.mp hr
      exact ⟨_, hk, .inr ⟨j, r, rfl, hj, rfl⟩⟩
  · rintro ⟨a, hk, ⟨t, hi, hx⟩ | ⟨j, r, rfl, hj, rfl⟩⟩
    · exact .inl ⟨t, mem_tracksOf.mpr ⟨a, hi, hk⟩, hx⟩
    · exact .inr ⟨r, mem_runsOf.mpr ⟨j, hj, hk⟩, rfl⟩

/-- A track that ended in the frame before is that of a cell which no run is connected with. -/
theorem mem_ended_iff (a : Groups p f live key groups) {t : Track K} :
    t ∈ (associate p.bins f.index f.first [] live (frameRuns p f)).1 ↔
      ∃ i, live[i]? = some t ∧ key i ∉ groups := by
  rw [a.ended_eq, List.mem_map]
  constructor
  · rintro ⟨u, hu, rfl⟩
    obtain ⟨hu, hk⟩ := List.mem_filter.mp hu
    exact ⟨u.2, List.mem_zipIdx_iff_getElem?.mp hu, by simpa using hk⟩
  · rintro ⟨i, hi, hk⟩
    exact ⟨(t, i), List.mem_filter.mpr ⟨List.mem_zipIdx_iff_getElem?.mpr hi, by simpa using hk⟩, rfl⟩

theorem mem_next_iff (a : Groups p f live key groups) {t : Track K} :
    t ∈ (associate p.bins f.index f.first [] live (frameRuns p f)).2 ↔
      ∃ g ∈ groups, t = groupTrack p f live key g := by
  rw [a.next_eq, List.mem_map]
  exact ⟨fun ⟨g, hg, h⟩ => ⟨g, hg, h.symm⟩, fun ⟨g, hg, h⟩ => ⟨g, hg, h.symm⟩⟩

namespace Step

/-- A node of the frames is a node of a track that was done, or of a cell. -/
theorem exists_cell (h : Step p b start fs done live f) (hx : IsNode p (fs ++ [f]) x) :
    (∃ t ∈ done, x ∈ t.nodes) ∨ ∃ a, x ∈ cell f.index live (frameRuns p f) a := by
  rw [SpectrumProcessor.isNode_iff h.sparse, List.flatMap_append, List.flatMap_singleton,
    List.mem_append, ← SpectrumProcessor.isNode_iff h.sparse_old, h.comps.isNode_iff h.sparse_old] at hx
  rcases hx with ⟨t, ht, hx⟩ | hx
  · rcases List.mem_append.mp ht with ht | ht
    · exact .inl ⟨t, ht, hx⟩
    · obtain ⟨i, hi⟩ := List.mem_iff_getElem?.mp ht
      exact .inr ⟨i, .inl ⟨t, hi, hx⟩⟩
  · obtain ⟨r, hr, rfl⟩ := List.mem_map.mp hx
    obtain ⟨j, hj⟩ := List.mem_iff_getElem?.mp hr
    exact .inr ⟨_, .inr ⟨j, r, rfl, hj, rfl⟩⟩

/-- The nodes of a group are in one component. -/
theorem group_connected (h : Step p b start fs done live f) (a : Groups p f live key groups)
    (hx : x ∈ (groupTrack p f live key g).nodes) (hy : y ∈ (groupTrack p f live key g).nodes) :
    Component p (fs ++ [f]) (f.index + 1) x y := by
  obtain ⟨c, hc, hx⟩ := mem_groupTrack.mp hx
  obtain ⟨d, hd, hy⟩ := mem_groupTrack.mp hy
  have hids : ∀ {x c}, x ∈ cell f.index live (frameRuns p f) c → c ∈ nodes := fun hx =>
    mem_nodes_of_cell h.length_le frameRuns_length_le hx
  exact h.component_iff.mpr
    (.inr ⟨c, d, hx, hy, (a.key_iff c (hids hx) d (hids hy)).mp (hc.trans hd.symm)⟩)

/-- The tracks after the frame are its components. -/
theorem conn (h : Step p b start fs done live f) (a : Groups p f live key groups)
    (hx : IsNode p (fs ++ [f]) x) : Component p (fs ++ [f]) (f.index + 1) x y ↔
      (∃ t ∈ done, x ∈ t.nodes ∧ y ∈ t.nodes) ∨
      (∃ i t, live[i]? = some t ∧ key i ∉ groups ∧ x ∈ t.nodes ∧ y ∈ t.nodes) ∨
      ∃ g ∈ groups, x ∈ (groupTrack p f live key g).nodes ∧ y ∈ (groupTrack p f live key g).nodes := by
  have hids : ∀ {x c}, x ∈ cell f.index live (frameRuns p f) c → c ∈ nodes := fun hx =>
    mem_nodes_of_cell h.length_le frameRuns_length_le hx
  rw [h.component_iff]
  constructor
  · intro hc
    -- Both nodes lie in a track that was done, or in cells that are connected.
    have hcells : (∃ t ∈ done, x ∈ t.nodes ∧ y ∈ t.nodes) ∨
        ∃ c d, x ∈ cell f.index live (frameRuns p f) c ∧ y ∈ cell f.index live (frameRuns p f) d ∧
          Relation.EqvGen (Edge live (frameRuns p f)) c d := by
      rcases hc with hc | hc
      · rcases h.exists_cell hx with ⟨t, ht, hx⟩ | ⟨c, hx⟩
        · exact .inl ⟨t, ht, hx, (h.mem_iff (List.mem_append_left _ ht) hx).mpr hc⟩
        · exact .inr ⟨c, c, hx, (h.cell_class hx).mpr hc, .refl _⟩
      · exact .inr hc
    rcases hcells with hdone | ⟨c, d, hx, hy, hcd⟩
    · exact .inl hdone
    refine .inr ?_
    by_cases hg : key c ∈ groups
    · exact .inr ⟨key c, hg, mem_groupTrack.mpr ⟨c, rfl, hx⟩, mem_groupTrack.mpr
        ⟨d, ((a.key_iff c (hids hx) d (hids hy)).mpr hcd).symm, hy⟩⟩
    · rcases eq_or_run hcd with rfl | ⟨j, hj, hjc⟩
      · rcases id hx with ⟨t, ht, hxt⟩ | ⟨j, r, rfl, hr, -⟩
        · refine .inl ⟨c, t, ht, hg, hxt, ?_⟩
          rw [h.mem_iff (List.mem_append_right _ (List.mem_of_getElem? ht)) hxt]
          exact (h.cell_class hx).mp hy
        · exact absurd ((a.mem_groups _).mpr ⟨j, (List.getElem?_eq_some_iff.mp hr).1, rfl⟩) hg
      · have hlen : (frameRuns p f).length ≤ maxTracks := frameRuns_length_le
        have hkey := (a.key_iff _ (mem_nodes_run (Nat.lt_of_lt_of_le hj hlen)) c (hids hx)).mpr hjc
        exact absurd ((a.mem_groups _).mpr ⟨j, hj, hkey⟩) hg
  · rintro (⟨t, ht, hx, hy⟩ | ⟨i, t, ht, -, hx, hy⟩ | ⟨g, -, hx, hy⟩)
    · exact .inl ((h.mem_iff (List.mem_append_left _ ht) hx).mp hy)
    · exact .inl ((h.mem_iff (List.mem_append_right _ (List.mem_of_getElem? ht)) hx).mp hy)
    · exact h.component_iff.mp (h.group_connected a hx hy)

end Step

/-! ## Merges -/

omit [Field K] in
theorem MergesAt.mono {s s' : Set (ℕ × ℕ × ℕ)} {m : ℕ} (h : MergesAt p fs m s) (hs : s ⊆ s') :
    MergesAt p fs m s' := by
  obtain ⟨x, hx, y, hy, h⟩ := h
  exact ⟨x, hs hx, y, hs hy, h⟩

omit [Field K] in
/-- One more frame merges nothing in the frames before. -/
theorem merges_append (hi : f.index = n) {s : Set (ℕ × ℕ × ℕ)} :
    Merges p (fs ++ [f]) (n + 1) s ↔ Merges p fs n s ∨ MergesAt p (fs ++ [f]) n s := by
  have hat : ∀ m < n, MergesAt p (fs ++ [f]) m s ↔ MergesAt p fs m s := fun m hm => by
    rw [MergesAt, MergesAt, component_append hi (show m + 1 ≤ n by omega),
      component_append hi (Nat.le_of_lt hm)]
  constructor
  · rintro ⟨m, hm, h⟩
    rcases Nat.lt_succ_iff_lt_or_eq.mp hm with hm | rfl
    · exact .inl ⟨m, hm, (hat m hm).mp h⟩
    · exact .inr h
  · rintro (⟨m, hm, h⟩ | h)
    · exact ⟨m, by omega, (hat m hm).mpr h⟩
    · exact ⟨n, by omega, h⟩

theorem one_lt_length {α : Type} {l : List α} {a c : α} (ha : a ∈ l) (hc : c ∈ l) (hne : a ≠ c) :
    1 < l.length := by
  by_contra hle
  obtain ⟨i, hi, rfl⟩ := List.getElem_of_mem ha
  obtain ⟨j, hj, rfl⟩ := List.getElem_of_mem hc
  obtain rfl : i = j := by omega
  exact hne rfl

namespace Step

/-- The frame merges nothing into a track that it does not continue. -/
theorem not_mergesAt (h : Step p b start fs done live f) (ht : t ∈ done ++ live) :
    ¬ MergesAt p (fs ++ [f]) f.index {x | x ∈ t.nodes} := by
  rintro ⟨x, hx, y, hy, -, ⟨hn, -⟩ | ⟨-, -, hne⟩⟩
  · have := h.old_lt ht hx
    omega
  · exact hne ((h.mem_iff ht hx).mp hy)

/-- What was merged in a group before the frame was merged in one of its tracks. -/
theorem merges_group (h : Step p b start fs done live f) :
    Merges p fs f.index {x | x ∈ (groupTrack p f live key g).nodes} ↔
      ∃ o ∈ tracksOf key live g, Merges p fs f.index {x | x ∈ o.nodes} := by
  constructor
  · rintro ⟨m, hm, x, hx, y, hy, hc, hxy⟩
    rw [Set.mem_ofPred_eq, groupTrack, mem_combine_nodes] at hx
    rcases hx with ⟨o, ho, hx⟩ | ⟨r, -, rfl⟩
    · obtain ⟨i, hi, -⟩ := mem_tracksOf.mp ho
      have hmem : o ∈ done ++ live := List.mem_append_right _ (List.mem_of_getElem? hi)
      have hcn : Component p (fs ++ [f]) f.index x y := by
        rw [component_append rfl (le_refl _)]
        exact Layers.Comp.mono hm hc
      exact ⟨o, ho, m, hm, x, hx, y, (h.mem_iff hmem hx).mpr hcn, hc, hxy⟩
    · simp only at hxy
      omega
  · rintro ⟨o, ho, m, hm, hat⟩
    exact ⟨m, hm, hat.mono fun x hx => mem_combine_nodes.mpr (.inl ⟨o, ho, hx⟩)⟩

/-- The frame merges a group of more than one track or more than one run. -/
theorem mergesAt_group (h : Step p b start fs done live f) (a : Groups p f live key groups) :
    MergesAt p (fs ++ [f]) f.index {x | x ∈ (groupTrack p f live key g).nodes} ↔
      1 < (tracksOf key live g).length ∨ 1 < (runsOf key (frameRuns p f) g).length := by
  have hold : ∀ {o}, o ∈ tracksOf key live g → o ∈ live := fun ho =>
    List.mem_of_getElem? (mem_tracksOf.mp ho).choose_spec.1
  -- Two nodes of the group that were apart before come from different tracks or from different runs.
  constructor
  · rintro ⟨x, hx, y, hy, -, ⟨hxn, hyn, hne⟩ | ⟨hxn, hyn, hne⟩⟩ <;>
      rw [Set.mem_ofPred_eq, groupTrack, mem_combine_nodes] at hx hy <;>
      rcases hx with ⟨o, ho, hx⟩ | ⟨r, hr, rfl⟩ <;> rcases hy with ⟨o', ho', hy⟩ | ⟨r', hr', rfl⟩
    case inl.inr.inr => exact .inr (one_lt_length hr hr' fun heq => hne (by rw [heq]))
    case inr.inl.inl =>
      refine .inl (one_lt_length ho ho' fun heq => hne ?_)
      rw [← heq] at hy
      exact (h.mem_iff (List.mem_append_right _ (hold ho)) hx).mp hy
    case inl.inl.inl | inl.inl.inr =>
      have := h.old_lt (List.mem_append_right _ (hold ho)) hx
      omega
    case inl.inr.inl =>
      have := h.old_lt (List.mem_append_right _ (hold ho')) hy
      omega
    all_goals simp only at hxn hyn; omega
  · have hconn : ∀ {x y}, x ∈ (groupTrack p f live key g).nodes →
        y ∈ (groupTrack p f live key g).nodes → Component p (fs ++ [f]) (f.index + 1) x y :=
      fun hx hy => h.group_connected a hx hy
    rintro (hlen | hlen)
    -- Two tracks of the group have no node in common, and both reach up to the frame before.
    · obtain ⟨o, o', ho, ho', hdisj⟩ : ∃ o o', o ∈ tracksOf key live g ∧ o' ∈ tracksOf key live g ∧
          o.nodes.Disjoint o'.nodes := by
        have hsub : (tracksOf key live g).Sublist live := by
          have := (List.filter_sublist (p := fun t => key t.2 = g) (l := live.zipIdx)).map Prod.fst
          rwa [List.zipIdx_map_fst] at this
        have hnodup := (List.nodup_append.mp
          (List.flatMap_append ▸ h.comps.nodes_nodup h.sparse_old)).2.1
        have hpair := (List.nodup_flatMap.mp hnodup).2.sublist hsub
        exact ⟨_, _, List.getElem_mem (by omega), List.getElem_mem (by omega),
          List.pairwise_iff_getElem.mp hpair 0 1 (by omega) hlen (by omega)⟩
      obtain ⟨n, hn, hl⟩ := h.comps.live_last o (hold ho)
      obtain ⟨n', hn', hl'⟩ := h.comps.live_last o' (hold ho')
      obtain ⟨x, hx, rfl⟩ := hl.mem
      obtain ⟨y, hy, rfl⟩ := hl'.mem
      have hx' : x ∈ (groupTrack p f live key g).nodes := mem_combine_nodes.mpr (.inl ⟨o, ho, hx⟩)
      have hy' : y ∈ (groupTrack p f live key g).nodes := mem_combine_nodes.mpr (.inl ⟨o', ho', hy⟩)
      refine ⟨x, hx', y, hy', hconn hx' hy', .inr ⟨by rw [h.index_eq, hn], by rw [h.index_eq, hn'],
        fun hc => ?_⟩⟩
      exact List.disjoint_left.mp hdisj
        ((h.mem_iff (List.mem_append_right _ (hold ho)) hx).mpr hc) hy
    · have hsub : (runsOf key (frameRuns p f) g).Sublist (frameRuns p f) := by
        have := (List.filter_sublist (p := fun r => key (maxTracks + r.2) = g)
          (l := (frameRuns p f).zipIdx)).map Prod.fst
        rwa [List.zipIdx_map_fst] at this
      have hpair := (frameRuns_pairwise h.sparse h.mem_frame).sublist hsub
      have hlow := List.pairwise_iff_getElem.mp hpair 0 1 (by omega) hlen (by omega)
      have hnode : ∀ r ∈ runsOf key (frameRuns p f) g,
          (f.index, r.low, r.high) ∈ (groupTrack p f live key g).nodes := fun r hr =>
        mem_combine_nodes.mpr (.inr ⟨r, hr, rfl⟩)
      have hx' := hnode _ (List.getElem_mem (n := 0) (by omega))
      have hy' := hnode _ (List.getElem_mem hlen)
      refine ⟨_, hx', _, hy', hconn hx' hy', .inl ⟨rfl, rfl, fun heq => ?_⟩⟩
      have hlow' := congrArg (fun x : ℕ × ℕ × ℕ => x.2.1) heq
      simp only at hlow'
      omega

/-- What a group records, and its last interval. -/
theorem records_group (h : Step p b start fs done live f) (a : Groups p f live key groups)
    (hg : g ∈ groups) : (groupTrack p f live key g).Records start ∧
      (groupTrack p f live key g).Last f.index := by
  refine Track.Records.combine h.mono h.first_eq (fun o ho => ?_) ?_ fun r hr => ?_
  · have hmem : o ∈ done ++ live := by
      obtain ⟨i, hi, -⟩ := mem_tracksOf.mp ho
      exact List.mem_append_right _ (List.mem_of_getElem? hi)
    exact ⟨h.comps.records o hmem, fun y hy => h.old_lt hmem hy⟩
  · obtain ⟨j, hj, hk⟩ := (a.mem_groups g).mp hg
    exact List.ne_nil_of_mem (mem_runsOf.mpr ⟨j, List.getElem?_eq_getElem hj, hk⟩)
  · obtain ⟨j, hj, -⟩ := mem_runsOf.mp hr
    obtain ⟨hrun, hcount, -⟩ := mem_frameRuns h.sparse h.mem_frame (List.mem_of_getElem? hj)
    exact ⟨Nat.lt_of_le_of_lt hrun.le hrun.lt, hcount⟩

theorem merged_group (h : Step p b start fs done live f) (a : Groups p f live key groups) :
    HasFlag (groupTrack p f live key g).quality .merged ↔
      Merges p (fs ++ [f]) (f.index + 1) {x | x ∈ (groupTrack p f live key g).nodes} := by
  have hold : (∃ o ∈ tracksOf key live g, HasFlag o.quality .merged) ↔
      ∃ o ∈ tracksOf key live g, Merges p fs f.index {x | x ∈ o.nodes} := by
    refine exists_congr fun o => and_congr_right fun ho => ?_
    obtain ⟨i, hi, -⟩ := mem_tracksOf.mp ho
    rw [h.index_eq]
    exact h.comps.merged o (List.mem_append_right _ (List.mem_of_getElem? hi))
  have hnew : ¬ ∃ r ∈ runsOf key (frameRuns p f) g, HasFlag r.quality .merged := by
    rintro ⟨r, hr, hq⟩
    obtain ⟨j, hj, -⟩ := mem_runsOf.mp hr
    have := (mem_frameRuns h.sparse h.mem_frame (List.mem_of_getElem? hj)).2.2 _ hq
    simp at this
  rw [merges_append rfl, h.merges_group, h.mergesAt_group a, ← hold, groupTrack,
    (combined _ _ _ _ _ _).hasFlag]
  simp only [hasFlag_or, hasFlag_mask, reduceCtorEq, or_self, false_or, List.not_mem_nil, false_and,
    exists_false, and_false, or_false, hnew, true_and]

/-- **One more frame keeps the components.** -/
theorem components (h : Step p b start fs done live f) :
    let a := associate p.bins f.index f.first [] live (frameRuns p f)
    Components p b start (fs ++ [f]) (done ++ a.1) a.2 := by
  intro as
  have hlen : (frameRuns p f).length ≤ maxTracks := frameRuns_length_le
  obtain ⟨key, groups, a⟩ := associate_spec p.bins f.index f.first [] h.length_le hlen
  have hnext : b + (fs ++ [f]).length = f.index + 1 := by
    rw [List.length_append, List.length_singleton, h.index_eq, Nat.add_assoc]
  have hended : ∀ {t}, t ∈ as.1 → t ∈ live := fun ht =>
    mem_associate_ended h.length_le frameRuns_length_le ht
  -- A component after the frame is one that was there before, or one of the groups of the frame.
  have hcases : ∀ t ∈ (done ++ as.1) ++ as.2, t ∈ done ++ live ∨
      ∃ g ∈ groups, t = groupTrack p f live key g := by
    intro t ht
    rcases List.mem_append.mp ht with ht | ht
    · exact .inl (List.mem_append.mpr ((List.mem_append.mp ht).imp_right hended))
    · exact .inr ((mem_next_iff a).mp ht)
  constructor
  case index_eq =>
    rw [List.map_append, h.comps.index_eq, List.map_singleton, h.index_eq, List.length_append,
      List.length_singleton, List.range'_1_concat]
  -- The runs of the frame and of the tracks that go on are in one group each.
  case nodes_perm =>
    have hperm : (as.1.flatMap Track.runs ++ as.2.flatMap Track.runs).Perm
        (live.flatMap Track.runs ++ (frameRuns p f).map fun r => (f.index, r)) :=
      associate_runs_perm h.length_le hlen
    have hruns := hperm.map fun x => (x.1, x.2.low, x.2.high)
    have hold := h.comps.nodes_perm
    rw [List.flatMap_append] at hold
    rw [List.map_append, List.map_append, List.map_flatMap, List.map_flatMap, List.map_flatMap,
      List.map_map] at hruns
    rw [List.append_assoc, List.flatMap_append, List.flatMap_append, List.flatMap_append,
      List.flatMap_singleton]
    refine (hruns.append_left (done.flatMap Track.nodes)).trans ?_
    rw [← List.append_assoc]
    exact hold.append_right _
  case conn =>
    intro x y hx
    rw [hnext, h.conn a hx]
    constructor
    · rintro (⟨t, ht, hxy⟩ | ⟨i, t, hi, hk, hxy⟩ | ⟨g, hg, hxy⟩)
      · exact ⟨t, List.mem_append_left _ (List.mem_append_left _ ht), hxy⟩
      · exact ⟨t, List.mem_append_left _ (List.mem_append_right _
          ((mem_ended_iff a).mpr ⟨i, hi, hk⟩)), hxy⟩
      · exact ⟨_, List.mem_append_right _ ((mem_next_iff a).mpr ⟨g, hg, rfl⟩), hxy⟩
    · rintro ⟨t, ht, hxy⟩
      rcases List.mem_append.mp ht with ht | ht
      · rcases List.mem_append.mp ht with ht | ht
        · exact .inl ⟨t, ht, hxy⟩
        · obtain ⟨i, hi, hk⟩ := (mem_ended_iff a).mp ht
          exact .inr (.inl ⟨i, t, hi, hk, hxy⟩)
      · obtain ⟨g, hg, rfl⟩ := (mem_next_iff a).mp ht
        exact .inr (.inr ⟨g, hg, hxy⟩)
  case done_lt =>
    intro t ht x hx
    have hlt := h.old_lt (List.mem_append.mpr ((List.mem_append.mp ht).imp_right hended)) hx
    omega
  case live_last =>
    intro t ht
    obtain ⟨g, hg, rfl⟩ := (mem_next_iff a).mp ht
    exact ⟨f.index, hnext.symm, (h.records_group a hg).2⟩
  case records =>
    intro t ht
    rcases hcases t ht with ht | ⟨g, hg, rfl⟩
    · exact h.comps.records t ht
    · exact (h.records_group a hg).1
  case merged =>
    intro t ht
    rw [hnext]
    rcases hcases t ht with ht | ⟨g, hg, rfl⟩
    · rw [merges_append rfl, or_iff_left (h.not_mergesAt ht), h.index_eq]
      exact h.comps.merged t ht
    · exact h.merged_group a

end Step

/-! ## Between two flushes -/

/-- No frame has more than `max_tracks` runs, and no component reaches the segment limit. -/
structure Admissible (p : Params K) (frames : List (Frame K)) (n : ℕ) : Prop where
  sparse : Sparse p frames
  short : ∀ x y, IsNode p frames x → Component p frames n x y →
    (y.1 + 1 - x.1) * fftSize < p.segmentSamples

theorem Admissible.of_append (h : Admissible p (fs ++ [f]) (n + 1)) (hi : f.index = n) :
    Admissible p fs n := by
  refine ⟨h.sparse.of_append, fun x y hx hc => h.short x y ?_ ?_⟩
  · obtain ⟨g, hg, hx⟩ := hx
    exact ⟨g, List.mem_append_left _ hg, hx⟩
  · rw [← component_append hi (le_refl n)] at hc
    exact Layers.Comp.mono (Nat.le_succ n) hc

/-- The first sample of frame `i`, when that of frame `b` is `base`. -/
def frameStart (base b i : ℕ) : ℕ := base + fftSize * (i - b)

theorem frameStart_mono {base b : ℕ} : Monotone (frameStart base b) := fun _ _ hij =>
  Nat.add_le_add_left (Nat.mul_le_mul_left _ (Nat.sub_le_sub_right hij b)) base

/-- A track is as long as its component. -/
theorem Components.not_long {base : ℕ} (h : Components p b (frameStart base b) fs done live)
    (ha : Admissible p fs (b + fs.length)) (ht : t ∈ done ++ live) : ¬ t.Long p := by
  have hr := h.records t ht
  obtain ⟨x₀, hx₀⟩ := List.exists_mem_of_ne_nil _ hr.nonempty
  have hfirst : IsLeast ((fun y : ℕ × ℕ × ℕ => frameStart base b y.1) '' {y | y ∈ t.nodes}) t.first :=
    Fold.isLeast_of_le_iff hr.le_first
  have hend : IsGreatest ((fun y : ℕ × ℕ × ℕ => frameStart base b y.1 + fftSize) ''
      {y | y ∈ t.nodes}) t.end_ :=
    Fold.isGreatest_of_le_iff ⟨x₀, hx₀⟩ hr.end_le
  obtain ⟨x, hx, hxf⟩ := hfirst.1
  obtain ⟨y, hy, hye⟩ := hend.1
  have hshort := ha.short x y ((h.isNode_iff ha.sparse).mpr ⟨t, ht, hx⟩)
    ((h.mem_iff ha.sparse ht hx).mp hy)
  have hge : ∀ {z}, z ∈ t.nodes → b ≤ z.1 := fun {z} hz => by
    obtain ⟨f, hf, hfi, -⟩ := (h.isNode_iff ha.sparse).mpr ⟨t, ht, hz⟩
    have hmem : f.index ∈ fs.map Frame.index := List.mem_map_of_mem hf
    rw [h.index_eq, List.mem_range'_1] at hmem
    omega
  have hbx := hge hx
  have hby := hge hy
  simp only [frameStart, fftSize] at hxf hye hshort
  rw [Track.Long]
  omega

/-- The state between two flushes: the frames `fs` and the events `es` came after the frames `F` and
the events `E`, and `base` is the first sample. -/
structure Between (p : Params K) (F : List (Frame K)) (E : List (SpectrumEvent K × Track K))
    (fs : List (Frame K)) (es : List (SpectrumEvent K × Track K)) (base : ℕ) (s : State K) :
    Prop where
  frames_eq : s.frames = F ++ fs
  events_eq : s.events = E ++ es
  first_eq : ∀ f ∈ fs, f.first = frameStart base F.length f.index
  described : ∀ e ∈ es, ∃ id quality, ¬ HasFlag quality .merged ∧ e.1 = e.2.event p id quality
  comps : Admissible p fs (F.length + fs.length) → s.splitIntervals = [] ∧
    Components p F.length (frameStart base F.length) fs (es.map Prod.snd) s.tracks

variable {F : List (Frame K)} {E es : List (SpectrumEvent K × Track K)} {base c : ℕ} {s : State K}

theorem not_merged_truncated : ¬ HasFlag truncated.mask .merged := by simp

theorem Between.processFrame (h : Between p F E fs es base s) (ht : s.tracks.length ≤ maxTracks)
    (hfirst : s.frameFirst = base + fftSize * fs.length) :
    ∃ es', Between p F E (fs ++ [nextFrame p s]) es' base (processFrame p s) := by
  let f := nextFrame p s
  let a := associate p.bins f.index f.first s.splitIntervals s.tracks (frameRuns p f)
  let cut := a.2.filter (Track.Long p)
  have hindex : f.index = F.length + fs.length := by
    show s.frames.length = _
    rw [h.frames_eq, List.length_append]
  have hstart : f.first = frameStart base F.length f.index := by
    show s.frameFirst = _
    rw [hindex, frameStart, Nat.add_sub_cancel_left, hfirst]
  refine ⟨es ++ (emitted p 0 s.nextEventId a.1 ++
    emitted p truncated.mask (s.nextEventId + a.1.length) cut), ?_⟩
  rw [processFrame_spec]
  constructor
  case frames_eq =>
    show s.frames ++ [f] = _
    rw [h.frames_eq, List.append_assoc]
  case events_eq =>
    show s.events ++ _ = _
    rw [h.events_eq, List.append_assoc]
  case first_eq =>
    intro g hg
    rcases List.mem_append.mp hg with hg | hg
    · exact h.first_eq g hg
    · rw [List.mem_singleton.mp hg]
      exact hstart
  case described =>
    intro e he
    rcases List.mem_append.mp he with he | he
    · exact h.described e he
    rcases List.mem_append.mp he with he | he
    · obtain ⟨-, id, heq⟩ := mem_emitted he
      exact ⟨id, 0, not_hasFlag_zero, heq⟩
    · obtain ⟨-, id, heq⟩ := mem_emitted he
      exact ⟨id, _, not_merged_truncated, heq⟩
  case comps =>
    intro ha
    have hlen : F.length + (fs ++ [f]).length = f.index + 1 := by
      rw [List.length_append, List.length_singleton, hindex, Nat.add_assoc]
    have ha' : Admissible p fs (F.length + fs.length) := by
      rw [hlen] at ha
      rw [← hindex]
      exact ha.of_append rfl
    obtain ⟨hsplit, hcomps⟩ := h.comps ha'
    have hstep : Step p F.length (frameStart base F.length) fs (es.map Prod.snd) s.tracks f :=
      ⟨hcomps, ha.sparse, hindex, hstart, frameStart_mono, ht⟩
    have hnext := hstep.components
    have hnil : a = associate p.bins f.index f.first [] s.tracks (frameRuns p f) := by
      rw [← hsplit]
    rw [← hnil] at hnext
    -- No component is long, so nothing is cut.
    have hshort : ∀ t ∈ a.2, ¬ t.Long p := fun t ht =>
      hnext.not_long ha (List.mem_append_right _ ht)
    have hcut : cut = [] := List.filter_eq_nil_iff.mpr fun t ht => by simpa using hshort t ht
    have hlive : a.2.filter (fun t => ¬ t.Long p) = a.2 :=
      List.filter_eq_self.mpr fun t ht => by simpa using hshort t ht
    show cut.map _ = [] ∧ Components _ _ _ _ _ (a.2.filter fun t => ¬ t.Long p)
    rw [hlive, hcut]
    refine ⟨rfl, ?_⟩
    rw [List.map_append, List.map_append, emitted_tracks, emitted_tracks, List.append_nil]
    exact hnext

/-- The frames since the last flush reach up to the coordinate `c`. -/
def Since (p : Params K) (F : List (Frame K)) (E : List (SpectrumEvent K × Track K)) (c : ℕ)
    (s : State K) : Prop :=
  At c s ∧ ∃ fs es base, base + fftSize * fs.length + s.pending = c ∧ Between p F E fs es base s

theorem Since.feedSample (h : Since p F E c s) (v : Cpx K) :
    Since p F E (c + 1) (feedSample p s v c) := by
  obtain ⟨hat, fs, es, base, hc, hb⟩ := h
  refine ⟨at_kept.sample c s v hat, ?_⟩
  have hcollect : ∀ pending, Between p F E fs es base { collect p s v c with pending } := fun _ =>
    ⟨hb.frames_eq, hb.events_eq, hb.first_eq, hb.described, hb.comps⟩
  rw [feedSample_eq]
  split <;> rename_i hfull
  · have hfirst := hat.collect (p := p) v hfull
    obtain ⟨es', hb'⟩ := (hcollect 0).processFrame hat.tracks_length (by
      show (collect p s v c).frameFirst = _
      omega)
    refine ⟨_, es', base, ?_, hb'⟩
    rw [processFrame_spec, List.length_append, List.length_singleton, Nat.mul_succ]
    show _ + 0 = _
    omega
  · exact ⟨fs, es, base, by dsimp only; omega, hcollect _⟩

theorem Since.flags (h : Since p F E c s) (n : ℕ) (o d : Bool) :
    Since p F E c { s with nextSample := n, haveOrigin := o, finished := d } := by
  obtain ⟨hat, fs, es, base, hc, hb⟩ := h
  exact ⟨⟨hat.pending_lt, hat.frameFirst_eq, hat.tracks_length, hat.tracks_end, hat.tile_end⟩,
    fs, es, base, hc, ⟨hb.frames_eq, hb.events_eq, hb.first_eq, hb.described, hb.comps⟩⟩

/-- Calls of `feed` only. -/
def feeds (inputs : List (List (Option (Cpx K)) × ℕ)) : List (Call K) :=
  inputs.map fun input => .feed input.1 input.2

theorem Since.feeds (inputs : List (List (Option (Cpx K)) × ℕ)) (h : Stands (Since p F E) s) :
    Stands (Since p F E) (run p (feeds inputs) s) := by
  induction inputs generalizing s with
  | nil => exact h
  | cons input inputs ih =>
    exact ih (feed_stands (V := fun _ => True) (fun c s v _ hs => hs.feedSample v)
      (fun c s n o d hs => hs.flags n o d) h fun _ _ => trivial)

/-- Nothing is live or collected. -/
structure Idle (s : State K) : Prop where
  tracks : s.tracks = []
  splits : s.splitIntervals = []
  pending : s.pending = 0
  origin : s.haveOrigin = false
  tile : s.tile.frameCount = 0

omit [LinearOrder K] in
theorem idle_init : Idle (init : State K) := ⟨rfl, rfl, rfl, rfl, rfl⟩

theorem idle_flush (s : State K) (d : Bool) : Idle { flush p s with finished := d } := by
  rw [flush_spec]
  refine ⟨rfl, rfl, rfl, rfl, ?_⟩
  dsimp only
  split <;> rename_i h
  · exact h
  · rfl

/-- The state after the calls before a `gap` or `finish`, and after no call. -/
theorem idle_run {before : List (Call K)} (h : ∀ c ∈ before.getLast?, c = .gap ∨ c = .finish) :
    Idle (run p before init) := by
  rcases List.eq_nil_or_concat before with rfl | ⟨calls, c, rfl⟩
  · exact idle_init
  · rw [List.concat_eq_append] at h ⊢
    rw [run, List.foldl_append]
    exact run_flush idle_flush calls (h c (by simp))

theorem Idle.since (h : Idle s) : Stands (Since p s.frames s.events) s := by
  rw [Stands, if_neg (by simp [h.origin])]
  intro c
  refine ⟨⟨by rw [h.pending]; decide, fun hne => absurd h.pending hne, by rw [h.tracks]; exact Nat.zero_le _,
    by simp [h.tracks], fun hne => absurd h.tile hne⟩, [], [], c, ?_, ?_⟩
  · rw [h.pending]
    rfl
  · refine ⟨(List.append_nil _).symm, (List.append_nil _).symm, by simp, by simp,
      fun _ => ⟨h.splits, ?_⟩⟩
    rw [h.tracks]
    refine ⟨rfl, .nil, fun x y hx => ?_, by simp, by simp, by simp, by simp⟩
    obtain ⟨f, hf, -⟩ := hx
    exact absurd hf List.not_mem_nil

/-- What the call that ends the feeding emits: the live tracks become events too. -/
theorem Since.close (h : Since p F E c s) {last : Call K} (hl : last = .gap ∨ last = .finish)
    (hs : s.finished = true → s.tracks = []) : ∃ fs es base,
      (call p s last).frames = F ++ fs ∧ (call p s last).events = E ++ es ∧
      (∀ f ∈ fs, f.first = frameStart base F.length f.index) ∧
      (∀ e ∈ es, ∃ id quality, ¬ HasFlag quality .merged ∧ e.1 = e.2.event p id quality) ∧
      (Admissible p fs (F.length + fs.length) → ∃ done live, es.map Prod.snd = done ++ live ∧
        Components p F.length (frameStart base F.length) fs done live) := by
  obtain ⟨-, fs, es, base, -, hb⟩ := h
  have hflush : ∀ s' : State K, s'.frames = s.frames → s'.events = (flush p s).events → ∃ es',
      s'.frames = F ++ fs ∧ s'.events = E ++ es' ∧
      (∀ e ∈ es', ∃ id quality, ¬ HasFlag quality .merged ∧ e.1 = e.2.event p id quality) ∧
      es'.map Prod.snd = es.map Prod.snd ++ s.tracks := by
    intro s' hf he
    refine ⟨es ++ emitted p truncated.mask s.nextEventId s.tracks, hf.trans hb.frames_eq, ?_,
      fun e he => ?_, by rw [List.map_append, emitted_tracks]⟩
    · rw [he, flush_spec]
      show s.events ++ _ = _
      rw [hb.events_eq, List.append_assoc]
    · rcases List.mem_append.mp he with he | he
      · exact hb.described e he
      · obtain ⟨-, id, heq⟩ := mem_emitted he
        exact ⟨id, _, not_merged_truncated, heq⟩
  have hclosed : ∃ es', (call p s last).frames = F ++ fs ∧ (call p s last).events = E ++ es' ∧
      (∀ e ∈ es', ∃ id quality, ¬ HasFlag quality .merged ∧ e.1 = e.2.event p id quality) ∧
      es'.map Prod.snd = es.map Prod.snd ++ s.tracks := by
    by_cases hfin : s.finished = true
    · have hcall : call p s last = s := by
        rcases hl with rfl | rfl
        · simp [call, gap, hfin, Except.toOption]
        · simp [call, finish, hfin]
      rw [hcall, hs hfin]
      exact ⟨es, hb.frames_eq, hb.events_eq, hb.described, (List.append_nil _).symm⟩
    · rcases hl with rfl | rfl
      · refine hflush _ ?_ ?_ <;> simp [call, gap, hfin, Except.toOption, flush_spec]
      · refine hflush _ ?_ ?_ <;> simp [call, finish, hfin, flush_spec]
  obtain ⟨es', hframes, hevents, hdesc, htracks⟩ := hclosed
  exact ⟨fs, es', base, hframes, hevents, hb.first_eq, hdesc, fun ha => ⟨_, _, htracks, (hb.comps ha).2⟩⟩

/-- What an event says about its component `s`. -/
structure Describes (p : Params K) (frames : List (Frame K)) (n : ℕ)
    (e : SpectrumEvent K × Track K) (s : Set (ℕ × ℕ × ℕ)) : Prop where
  first : IsLeast {c | ∃ f ∈ frames, ∃ x ∈ s, x.1 = f.index ∧ c = f.first} e.1.firstSample
  end_ : IsGreatest {c | ∃ f ∈ frames, ∃ x ∈ s, x.1 = f.index ∧ c = f.first + fftSize} e.1.endSample
  lower : ∃ low : ℕ, IsLeast ((fun x => x.2.1) '' s) low ∧
    e.1.lowerHz = p.firstCenter + (low - 1 / 2) * p.width
  upper : ∃ high : ℕ, IsGreatest ((fun x => x.2.2) '' s) high ∧
    e.1.upperHz = p.firstCenter + (high + 1 / 2) * p.width
  count : ∃ xs : Finset (ℕ × ℕ × ℕ), xs = s ∧ e.2.count = ∑ x ∈ xs, (x.2.2 + 1 - x.2.1)
  merged : HasFlag e.1.quality .merged ↔ Merges p frames n s

/-- The event of a track describes the nodes of the track. -/
theorem Components.describes (h : Components p b (frameStart base b) fs done live)
    (hs : Sparse p fs) (hf : ∀ f ∈ fs, f.first = frameStart base b f.index)
    {e : SpectrumEvent K} (he : t ∈ done ++ live)
    (hd : ∃ id quality, ¬ HasFlag quality .merged ∧ e = t.event p id quality) :
    Describes p fs (b + fs.length) (e, t) {x | x ∈ t.nodes} := by
  obtain ⟨id, quality, hq, rfl⟩ := hd
  have hr := h.records t he
  obtain ⟨x₀, hx₀⟩ := List.exists_mem_of_ne_nil _ hr.nonempty
  have hne : ({x | x ∈ t.nodes} : Set (ℕ × ℕ × ℕ)).Nonempty := ⟨x₀, hx₀⟩
  -- The first sample of a frame of the track, by its index.
  have hset : ∀ k, {c | ∃ f ∈ fs, ∃ x ∈ {x | x ∈ t.nodes}, x.1 = f.index ∧ c = f.first + k} =
      (fun x : ℕ × ℕ × ℕ => frameStart base b x.1 + k) '' {x | x ∈ t.nodes} := fun k => by
    ext c
    constructor
    · rintro ⟨f, hf', x, hx, hxf, rfl⟩
      exact ⟨x, hx, by rw [hf f hf', ← hxf]⟩
    · rintro ⟨x, hx, rfl⟩
      obtain ⟨f, hf', hfi, -⟩ := (h.isNode_iff hs).mpr ⟨t, he, hx⟩
      exact ⟨f, hf', x, hx, hfi.symm, by rw [hf f hf', hfi]⟩
  constructor
  case first =>
    have := hset 0
    simp only [Nat.add_zero] at this
    rw [this]
    exact Fold.isLeast_of_le_iff hr.le_first
  case end_ =>
    rw [hset fftSize]
    exact Fold.isGreatest_of_le_iff hne hr.end_le
  case lower => exact ⟨t.low, Fold.isLeast_of_le_iff hr.le_low, rfl⟩
  case upper => exact ⟨t.high, Fold.isGreatest_of_le_iff hne hr.high_le, rfl⟩
  case count =>
    have hnodup := (List.nodup_flatMap.mp (h.nodes_nodup hs)).1 t he
    refine ⟨t.nodes.toFinset, by ext x; simp, ?_⟩
    rw [hr.count_eq, List.sum_toFinset _ hnodup]
  case merged =>
    rw [← h.merged t he]
    exact hasFlag_or.trans (or_iff_left hq)

/-- **Events are connected components.** Between two flushes, while no frame has more than
`max_tracks` runs and no component reaches the segment limit, the emitted events describe the
components of the graph of runs, each of them once. -/
theorem events_components (p : Params K) {before : List (Call K)}
    (hbefore : ∀ c ∈ before.getLast?, c = .gap ∨ c = .finish)
    (inputs : List (List (Option (Cpx K)) × ℕ)) {last : Call K} (hlast : last = .gap ∨ last = .finish) :
    let s := run p before init
    let s' := run p (feeds inputs ++ [last]) s
    ∃ frames events, s'.frames = s.frames ++ frames ∧ s'.events = s.events ++ events ∧
      (Admissible p frames s'.frames.length → ∃ comps : List (Set (ℕ × ℕ × ℕ)),
        comps.Nodup ∧
        (∀ c, c ∈ comps ↔
          ∃ x, IsNode p frames x ∧ c = {y | Component p frames s'.frames.length x y}) ∧
        List.Forall₂ (Describes p frames s'.frames.length) events comps) := by
  intro s s'
  have hfed : Stands (Since p s.frames s.events) (run p (feeds inputs) s) :=
    Since.feeds inputs (idle_run hbefore).since
  obtain ⟨c, hc⟩ := hfed.exists
  have hs' : s' = call p (run p (feeds inputs) s) last := by
    show run p (feeds inputs ++ [last]) s = _
    rw [run, List.foldl_append]
    rfl
  have hfin : (run p (feeds inputs) s).finished = true →
      (run p (feeds inputs) s).tracks = [] := fun h => by
    have hidle := run_flush (p := p) idle_flush (before ++ feeds inputs) (.inl rfl)
    have happ : run p (before ++ feeds inputs) init = run p (feeds inputs) s := by
      rw [run, List.foldl_append]
      rfl
    rw [happ] at hidle
    simpa [call, gap, h, Except.toOption] using hidle.tracks
  obtain ⟨fs, es, base, hframes, hevents, hfirst, hdesc, hcomps⟩ := hc.close hlast hfin
  rw [← hs'] at hframes hevents
  refine ⟨fs, es, hframes, hevents, fun ha => ?_⟩
  have hlen : s'.frames.length = s.frames.length + fs.length := by rw [hframes, List.length_append]
  rw [hlen] at ha ⊢
  obtain ⟨done, live, htracks, hcs⟩ := hcomps ha
  refine ⟨es.map fun e => {x | x ∈ e.2.nodes}, ?_, fun c => ?_, ?_⟩
  · have hmap : (es.map fun e => {x | x ∈ e.2.nodes}) =
        (done ++ live).map fun t => {x | x ∈ t.nodes} := by
      rw [← htracks, List.map_map]
      rfl
    rw [hmap]
    -- Two tracks of one node list would share their first node.
    have hdisj := (List.nodup_flatMap.mp (hcs.nodes_nodup ha.sparse)).2
    refine List.pairwise_map.mpr (hdisj.imp_of_mem fun {t t'} ht _ hd heq => ?_)
    obtain ⟨x, hx⟩ := List.exists_mem_of_ne_nil _ (hcs.records t ht).nonempty
    have hx' : x ∈ ({x | x ∈ t'.nodes} : Set (ℕ × ℕ × ℕ)) := heq ▸ hx
    exact List.disjoint_left.mp hd hx hx'
  · have hclass : ∀ {t x}, t ∈ done ++ live → x ∈ t.nodes →
        {x | x ∈ t.nodes} = {y | Component p fs (s.frames.length + fs.length) x y} := fun ht hx =>
      Set.ext fun y => hcs.mem_iff ha.sparse ht hx
    constructor
    · intro hc
      obtain ⟨e, he, rfl⟩ := List.mem_map.mp hc
      have ht : e.2 ∈ done ++ live := htracks ▸ List.mem_map_of_mem he
      obtain ⟨x, hx⟩ := List.exists_mem_of_ne_nil _ (hcs.records e.2 ht).nonempty
      exact ⟨x, (hcs.isNode_iff ha.sparse).mpr ⟨e.2, ht, hx⟩, hclass ht hx⟩
    · rintro ⟨x, hx, rfl⟩
      obtain ⟨t, ht, hx⟩ := (hcs.isNode_iff ha.sparse).mp hx
      rw [← hclass ht hx]
      rw [← htracks] at ht
      obtain ⟨e, he, rfl⟩ := List.mem_map.mp ht
      exact List.mem_map_of_mem he
  · refine List.forall₂_map_right_iff.mpr (List.forall₂_same.mpr fun e he => ?_)
    exact hcs.describes ha.sparse hfirst (htracks ▸ List.mem_map_of_mem he) (hdesc e he)

/-- Fewer frames than a segment of a processor of one bin, with one run at most in each. -/
theorem OneBin.admissible {n : ℕ} {p : Params ℝ} (h : OneBin n p) {frames : List (Frame ℝ)}
    (hindex : frames.map Frame.index = List.range frames.length) (hlen : frames.length < 2 * n)
    (m : ℕ) : Admissible p frames m := by
  refine ⟨fun g _ => ?_, fun x y hx hc => ?_⟩
  · have hpair : (extractRuns p.bins p.threshold g.powers g.clipped 0).Pairwise
        fun a b => a.high < b.low := extractRuns_pairwise fun b hb => by omega
    by_contra hlt
    have h01 := List.pairwise_iff_getElem.mp hpair 0 1 (by omega) (by simp only [maxTracks] at hlt; omega)
      (by omega)
    obtain ⟨hrun, -⟩ := extractRuns_isRun (fun b hb => by omega)
      (List.getElem_mem (l := extractRuns p.bins p.threshold g.powers g.clipped 0) (n := 1)
        (by simp only [maxTracks] at hlt; omega))
    have hle := hrun.le
    have hlt' := hrun.lt
    have hbins := h.bins_eq
    omega
  · have hbelow : ∀ z, IsNode p frames z → z.1 < frames.length := by
      rintro z ⟨f, hf, hfi, -⟩
      have hmem : f.index ∈ frames.map Frame.index := List.mem_map_of_mem hf
      rw [hindex, List.mem_range] at hmem
      rwa [← hfi]
    have hy : y.1 < frames.length := by
      rcases Layers.Comp.mem hc with rfl | ⟨-, -, hy⟩
      · exact hbelow x hx
      · exact hbelow y hy
    rw [h.segment_eq, fftSize]
    omega

/-- The track of two impulse frames, of a processor with longer segments. -/
theorem OneBin.feed_two {n : ℕ} {p : Params ℝ} (h : OneBin n p) (hn : 1 < n) : ∃ t : Track ℝ,
    let s := run p (feeds [(impulse.map some, 0), (impulse.map some, 4096)]) init
    s.finished = false ∧ s.frames.length = 2 ∧ s.tracks = [t] ∧ t.first = 0 ∧ t.end_ = 8192 := by
  obtain ⟨r₁, f₁⟩ := h.feed_impulse (c := 0) (s := init) rfl (fun _ => rfl) rfl (by norm_num)
    (Nat.zero_le _) (by simp [init])
  show ∃ t : Track ℝ,
    let s := call p (call p init (.feed (impulse.map some) 0)) (.feed (impulse.map some) 4096)
    s.finished = false ∧ s.frames.length = 2 ∧ s.tracks = [t] ∧ t.first = 0 ∧ t.end_ = 8192
  generalize call p init (.feed (impulse.map some) 0) = s₁ at f₁ ⊢
  let t₁ : Track ℝ := .combine p.bins 0 0 [] [] [r₁]
  have c₁ : Combined p.bins 0 [] [] [r₁] t₁ := combined _ _ _ _ [] [r₁]
  obtain ⟨live₁, split₁⟩ : s₁.tracks = [t₁] ∧ s₁.splitIntervals = [] :=
    f₁.live (h.not_long_first c₁)
  have frames₁ : s₁.frames.length = 1 := f₁.frames
  -- The track of the first frame is still short when the second one continues it.
  obtain ⟨r₂, f₂⟩ := h.feed_impulse (c := 4096) f₁.finished (fun _ => f₁.nextSample.symm) f₁.pending
    (by norm_num) (by rw [live₁, List.length_singleton]; decide) (by
      rw [live₁]
      intro t ht
      rw [List.mem_singleton.mp ht]
      exact f₁.lastLow)
  generalize call p s₁ (.feed (impulse.map some) 4096) = s₂ at f₂ ⊢
  let t₂ : Track ℝ := .combine p.bins 1 4096 [] [t₁] [r₂]
  have c₂ : Combined p.bins 4096 [] [t₁] [r₂] t₂ := combined _ _ _ _ [t₁] [r₂]
  have hfirst₂ : t₂.first = 0 := by
    have h₁ := ((c₁.le_first _).mp (le_refl _)).1
    have h₂ := ((c₂.le_first _).mp (le_refl _)).2 t₁ (by simp)
    omega
  have hend₂ : t₂.end_ = 8192 := c₂.end_eq
  have hlive₂ := f₂.live
  rw [live₁, split₁, frames₁] at hlive₂
  refine ⟨t₂, f₂.finished, f₂.frames.trans (congrArg (· + 1) frames₁), (hlive₂ ?_).1, hfirst₂, hend₂⟩
  show ¬ t₂.Long p
  simp only [Track.Long, h.segment_eq, hfirst₂, hend₂]
  omega

/-- Two impulse frames, flushed by a gap. Their runs are joined to one event of both frames. -/
theorem events_components_impulses : ∃ p, Params.create Libm.real 0 8192 2 (some (-180)) = .ok p ∧
    let s' := run p (feeds [(impulse.map some, 0), (impulse.map some, 4096)] ++ [.gap]) (run p [] init)
    ∃ frames events, s'.frames = frames ∧ s'.events = events ∧ frames.length = 2 ∧
      (∃ e ∈ events, e.1.firstSample = 0 ∧ e.1.endSample = 8192) ∧
      ∃ comps : List (Set (ℕ × ℕ × ℕ)), comps.Nodup ∧
        (∀ c, c ∈ comps ↔
          ∃ x, IsNode p frames x ∧ c = {y | Component p frames s'.frames.length x y}) ∧
        List.Forall₂ (Describes p frames s'.frames.length) events comps := by
  obtain ⟨p, hp, hone⟩ := exists_oneBin Nat.two_pos (by norm_num)
  obtain ⟨t, hfinished, hcount, hlive, hfirst, hend⟩ := hone.feed_two Nat.one_lt_two
  have hnone : ∀ c ∈ ([] : List (Call ℝ)).getLast?, c = .gap ∨ c = .finish := fun c hc => by cases hc
  obtain ⟨frames, events, hframes, hevents, h⟩ := events_components p hnone
    [(impulse.map some, 0), (impulse.map some, 4096)] (.inl rfl)
  have hrun : run p (feeds [(impulse.map some, 0), (impulse.map some, 4096)] ++ [.gap])
      (run p [] init) =
        flush p (run p (feeds [(impulse.map some, 0), (impulse.map some, 4096)]) init) := by
    rw [run, List.foldl_append]
    show (gap p (run p _ init)).toOption.getD _ = _
    rw [gap, if_neg (by simp [hfinished])]
    rfl
  have hindex : frames.map Frame.index = List.range frames.length := by
    have hall := (run_conserved (p := p)
      (feeds [(impulse.map some, 0), (impulse.map some, 4096)] ++ [.gap])).index_eq
    rw [show (run p _ init).frames = frames from hframes] at hall
    exact hall
  have hlength : frames.length = 2 := by
    rw [hrun, flush_spec] at hframes
    exact (congrArg List.length hframes).symm.trans hcount
  have hemitted : ∃ id, (t.event p id truncated.mask, t) ∈ events := by
    rw [hrun, flush_spec, hlive] at hevents
    have hall : _ ++ [_] = events := hevents
    rw [← hall]
    exact ⟨_, List.mem_append_right _ List.mem_cons_self⟩
  obtain ⟨id, hmem⟩ := hemitted
  exact ⟨p, hp, frames, events, hframes, hevents, hlength, ⟨_, hmem, hfirst, hend⟩,
    h (hone.admissible hindex (by omega) _)⟩

end SpectrumProcessor

end OVMesh
