import OVMesh.Lib.Fold
import OVMesh.Lib.Grouping
import OVMesh.Lib.UnionFind
import OVMesh.Spectrum.Runs

/-!
# Association of runs with tracks

The second half of `events`: the runs of a frame are joined with the tracks of the last frame that
they touch, by a union-find over the tracks (nodes `0 … 63`) and the runs (nodes `64 … 127`), and
every joined group becomes one track. A track also carries the runs it was built from, with the
indices of their frames (`runs`); nothing in the code reads them.

* `associate`: the tracks of the new frame, and the tracks that ended.
* `associate_spec`: the groups are the classes of the graph `Edge` of touching tracks and runs, and
  each of them becomes the `Track.combine` of its members.
* `associate_runs_perm`: no run is lost or taken by two tracks.
-/

namespace OVMesh

namespace SpectrumProcessor

open SurveyQuality

/-- Two envelopes overlap or are adjacent. -/
def touches (a b c d : ℕ) : Prop := a ≤ d + 1 ∧ c ≤ b + 1

instance (a b c d : ℕ) : Decidable (touches a b c d) := inferInstanceAs (Decidable (_ ∧ _))

/-- A connected event that may still grow. `runs` is ghost: the runs it was built from, with the
indices of their frames. -/
structure Track (K : Type) where
  first : ℕ
  end_ : ℕ
  low : ℕ
  high : ℕ
  lastLow : ℕ
  lastHigh : ℕ
  sum : K
  peak : K
  count : ℕ
  quality : ℕ
  runs : List (ℕ × Run K)

variable {K : Type} [Field K] [LinearOrder K]

/-- The track of a new group, before its members. -/
def Track.fresh (bins first : ℕ) : Track K :=
  { first
    end_ := first + fftSize
    low := bins
    high := 0
    lastLow := bins
    lastHigh := 0
    sum := 0
    peak := 0
    count := 0
    quality := uncalibrated.mask ||| backgroundUncertain.mask
    runs := [] }

/-- The track `old` of the last frame joins the group. -/
def Track.addTrack (track old : Track K) : Track K :=
  { track with
    first := min track.first old.first
    low := min track.low old.low
    high := max track.high old.high
    sum := track.sum + old.sum
    peak := max track.peak old.peak
    count := track.count + old.count
    quality := track.quality ||| old.quality
    runs := track.runs ++ old.runs }

/-- The run of the frame `index` joins the group. It is marked where it touches a track that was cut
at the segment limit in the last frame. -/
def Track.addRun (index : ℕ) (splitIntervals : List (ℕ × ℕ)) (track : Track K) (run : Run K) :
    Track K :=
  { track with
    low := min track.low run.low
    high := max track.high run.high
    lastLow := min track.lastLow run.low
    lastHigh := max track.lastHigh run.high
    sum := track.sum + run.sum
    peak := max track.peak run.peak
    count := track.count + run.count
    quality := splitIntervals.foldl (fun quality interval =>
      if touches interval.1 interval.2 run.low run.high then quality ||| truncated.mask
      else quality) (track.quality ||| run.quality)
    runs := track.runs ++ [(index, run)] }

/-- The track of a group. -/
def Track.combine (bins index first : ℕ) (splitIntervals : List (ℕ × ℕ)) (old : List (Track K))
    (new : List (Run K)) : Track K :=
  let track := new.foldl (Track.addRun index splitIntervals)
    (old.foldl Track.addTrack (.fresh bins first))
  if 1 < old.length ∨ 1 < new.length then { track with quality := track.quality ||| merged.mask }
  else track

/-! ## The association -/

/-- `root`: the representative of a node, with the path to it halved. -/
def root (node : ℕ) : StateM (ℕ → ℕ) ℕ := UnionFind.find (maxTracks * 2 + 1) node

/-- The loop that joins every track with the runs it touches. -/
def joinTouching (tracks : List (Track K)) (runs : List (Run K)) : StateM (ℕ → ℕ) Unit :=
  tracks.zipIdx.forM fun (track, i) =>
    runs.zipIdx.forM fun (run, j) =>
      if touches track.lastLow track.lastHigh run.low run.high then
        UnionFind.link (maxTracks * 2 + 1) i (maxTracks + j)
      else pure ()

/-- The loop over the runs that builds `next_tracks`. Each track is returned with the indices of
the old tracks that it used. -/
def nextTracks (bins index first : ℕ) (splitIntervals : List (ℕ × ℕ)) (tracks : List (Track K))
    (runs : List (Run K)) : StateM (ℕ → ℕ) (List (List ℕ × Track K)) :=
  (List.range runs.length).filterMapM fun j => do
    let group ← root (maxTracks + j)
    let seen ← (List.range j).anyM fun k => do return (← root (maxTracks + k)) == group
    if seen then return none
    let old ← tracks.zipIdx.filterM fun (_, i) => do return (← root i) == group
    let new ← (runs.zipIdx.drop j).filterM fun (_, k) => do return (← root (maxTracks + k)) == group
    return some (old.map Prod.snd,
      .combine bins index first splitIntervals (old.map Prod.fst) (new.map Prod.fst))

/-- The tracks that ended in the last frame, and the tracks of the new frame. -/
def associate (bins index first : ℕ) (splitIntervals : List (ℕ × ℕ)) (tracks : List (Track K))
    (runs : List (Run K)) : List (Track K) × List (Track K) :=
  let next : List (List ℕ × Track K) := StateT.run' (m := Id) (do
    joinTouching tracks runs
    nextTracks bins index first splitIntervals tracks runs) fun node => node
  let ended := tracks.zipIdx.filter fun (_, i) => !next.any fun (used, _) => used.contains i
  (ended.map Prod.fst, next.map Prod.snd)

/-! ## What the association computes -/

/-- The nodes of the union-find. -/
def nodes : Finset ℕ := Finset.range (maxTracks * 2)

theorem mem_nodes_track {i : ℕ} (h : i < maxTracks) : i ∈ nodes := by
  simp only [nodes, Finset.mem_range, maxTracks] at *
  omega

theorem mem_nodes_run {j : ℕ} (h : j < maxTracks) : maxTracks + j ∈ nodes := by
  simp only [nodes, Finset.mem_range]
  omega

/-- A track and a run that it touches. -/
def Edge (tracks : List (Track K)) (runs : List (Run K)) (x y : ℕ) : Prop :=
  ∃ i j track run, tracks[i]? = some track ∧ runs[j]? = some run ∧
    touches track.lastLow track.lastHigh run.low run.high ∧ x = i ∧ y = maxTracks + j

/-- The tracks of the group with root `g`. -/
def tracksOf (key : ℕ → ℕ) (tracks : List (Track K)) (g : ℕ) : List (Track K) :=
  (tracks.zipIdx.filter fun t => key t.2 = g).map Prod.fst

/-- The runs of the group with root `g`. -/
def runsOf (key : ℕ → ℕ) (runs : List (Run K)) (g : ℕ) : List (Run K) :=
  (runs.zipIdx.filter fun r => key (maxTracks + r.2) = g).map Prod.fst

variable {bins index first : ℕ} {splits : List (ℕ × ℕ)} {tracks : List (Track K)} {runs : List (Run K)}

omit [Field K] [LinearOrder K] in
theorem joinTouching_joins (ht : tracks.length ≤ maxTracks) (hr : runs.length ≤ maxTracks) :
    UnionFind.Joins nodes (maxTracks * 2) (joinTouching tracks runs) (Edge tracks runs) := by
  have hcard : nodes.card ≤ maxTracks * 2 := by simp [nodes]
  have hloop : joinTouching tracks runs = tracks.zipIdx.forM fun t => runs.zipIdx.forM fun r =>
      if touches t.1.lastLow t.1.lastHigh r.1.low r.1.high then
        UnionFind.link (maxTracks * 2 + 1) t.2 (maxTracks + r.2)
      else pure () := rfl
  have hj : UnionFind.Joins nodes (maxTracks * 2) (joinTouching tracks runs) (fun x y =>
      ∃ t ∈ tracks.zipIdx, ∃ r ∈ runs.zipIdx,
        touches t.1.lastLow t.1.lastHigh r.1.low r.1.high ∧ x = t.2 ∧ y = maxTracks + r.2) := by
    rw [hloop]
    refine UnionFind.Joins.forM fun t ht' => UnionFind.Joins.forM fun r hr' => ?_
    rw [List.mem_zipIdx_iff_getElem?] at ht' hr'
    have hi := (List.getElem?_eq_some_iff.mp ht').1
    have hj := (List.getElem?_eq_some_iff.mp hr').1
    split <;> rename_i htouch
    · exact (UnionFind.Joins.link hcard (mem_nodes_track (by omega))
        (mem_nodes_run (by omega))).congr (by simp [htouch])
    · exact UnionFind.Joins.pure.congr (by simp [htouch])
  refine UnionFind.Joins.congr hj fun x y => ?_
  simp only [Prod.exists, List.mem_zipIdx_iff_getElem?, Edge]
  constructor
  · rintro ⟨track, i, hi, run, j, hj, h⟩
    exact ⟨i, j, track, run, hi, hj, h⟩
  · rintro ⟨i, j, track, run, hi, hj, h⟩
    exact ⟨track, i, hi, run, j, hj, h⟩

/-- The tracks of the new frame, for the roots of a fixed table. -/
theorem nextTracks_observes (bins index first : ℕ) (splits : List (ℕ × ℕ)) {p : ℕ → ℕ} (hp : UnionFind.Forest nodes p)
    (ht : tracks.length ≤ maxTracks) (hr : runs.length ≤ maxTracks) :
    UnionFind.Observes nodes p (nextTracks bins index first splits tracks runs)
      ((List.range runs.length).filterMap fun j =>
        let key := UnionFind.rootOf (maxTracks * 2) p
        let group := key (maxTracks + j)
        if (List.range j).any fun k => key (maxTracks + k) == group then none
        else some (((tracks.zipIdx.filter fun t => key t.2 == group).map Prod.snd),
          .combine bins index first splits ((tracks.zipIdx.filter fun t => key t.2 == group).map Prod.fst)
            (((runs.zipIdx.drop j).filter fun r => key (maxTracks + r.2) == group).map Prod.fst))) := by
  have hcard : nodes.card ≤ maxTracks * 2 := by simp [nodes]
  have hroot : ∀ {x g : ℕ}, x ∈ nodes → UnionFind.Observes nodes p
      (do return (← root x) == g) (UnionFind.rootOf (maxTracks * 2) p x == g) := fun hx =>
    (UnionFind.Observes.find hp hcard hx).bind (.pure _)
  refine UnionFind.Observes.filterMapM fun j hj => ?_
  rw [List.mem_range] at hj
  refine (UnionFind.Observes.find hp hcard (mem_nodes_run (by omega))).bind ?_
  refine (UnionFind.Observes.anyM (g := fun k => UnionFind.rootOf (maxTracks * 2) p (maxTracks + k) ==
    UnionFind.rootOf (maxTracks * 2) p (maxTracks + j)) fun k hk => ?_).bind ?_
  · rw [List.mem_range] at hk
    exact hroot (mem_nodes_run (by omega))
  dsimp only
  split
  · exact .pure _
  · refine (UnionFind.Observes.filterM fun t ht' => hroot (mem_nodes_track ?_)).bind
      ((UnionFind.Observes.filterM fun r hr' => hroot (mem_nodes_run ?_)).bind (.pure _))
    · have := List.mem_zipIdx' ht'
      omega
    · have := List.mem_zipIdx' (List.mem_of_mem_drop hr')
      omega

/-- What `associate` computes: `groups` are the roots of the classes that hold a run. -/
structure Associated (bins index first : ℕ) (splits : List (ℕ × ℕ)) (tracks : List (Track K))
    (runs : List (Run K)) (key : ℕ → ℕ) (groups : List ℕ) : Prop where
  key_iff : ∀ x ∈ nodes, ∀ y ∈ nodes, key x = key y ↔ Relation.EqvGen (Edge tracks runs) x y
  nodup : groups.Nodup
  length_le : groups.length ≤ runs.length
  mem_groups : ∀ g, g ∈ groups ↔ ∃ j < runs.length, key (maxTracks + j) = g
  next_eq : (associate bins index first splits tracks runs).2 =
    groups.map fun g => .combine bins index first splits (tracksOf key tracks g) (runsOf key runs g)
  ended_eq : (associate bins index first splits tracks runs).1 =
    (tracks.zipIdx.filter fun t => key t.2 ∉ groups).map Prod.fst

/-- The loop over the runs, group by group. -/
private theorem groups_eq (key : ℕ → ℕ) :
    ((List.range runs.length).filterMap fun j =>
      let group := key (maxTracks + j)
      if (List.range j).any fun k => key (maxTracks + k) == group then none
      else some (((tracks.zipIdx.filter fun t => key t.2 == group).map Prod.snd),
        Track.combine bins index first splits
          ((tracks.zipIdx.filter fun t => key t.2 == group).map Prod.fst)
          (((runs.zipIdx.drop j).filter fun r => key (maxTracks + r.2) == group).map Prod.fst))) =
    (Grouping.firsts runs.length fun j => key (maxTracks + j)).map fun g =>
      ((tracks.zipIdx.filter fun t => key t.2 == g).map Prod.snd,
        .combine bins index first splits (tracksOf key tracks g) (runsOf key runs g)) := by
  rw [Grouping.firsts, List.map_filterMap]
  refine List.filterMap_congr fun j _ => ?_
  dsimp only
  split <;> rename_i hseen
  · rfl
  · have hfirst : ∀ k < j, key (maxTracks + k) ≠ key (maxTracks + j) := by simpa using hseen
    have hdrop := Grouping.filter_drop (f := fun k => key (maxTracks + k)) runs hfirst
    simp only [beq_eq_decide, hdrop, tracksOf, runsOf, Option.map_some]

theorem associate_spec (bins index first : ℕ) (splits : List (ℕ × ℕ))
    (ht : tracks.length ≤ maxTracks) (hr : runs.length ≤ maxTracks) :
    ∃ key groups, Associated bins index first splits tracks runs key groups := by
  obtain ⟨p, hjoin, hp, hclasses⟩ := (joinTouching_joins ht hr).classes_eq
  obtain ⟨q, hnext, -⟩ := nextTracks_observes bins index first splits hp ht hr p
    (.refl hp)
  rw [groups_eq] at hnext
  have hrun : StateT.run' (m := Id) (do
      joinTouching tracks runs
      nextTracks bins index first splits tracks runs) (fun node => node) =
        (nextTracks bins index first splits tracks runs p).1 := by
    show (StateT.bind (joinTouching tracks runs)
      (fun _ => nextTracks bins index first splits tracks runs) fun node => node).1 = _
    simp only [StateT.bind, hjoin]
    rfl
  rw [hnext] at hrun
  refine ⟨UnionFind.rootOf (maxTracks * 2) p, _, ?_, Grouping.firsts_nodup _ _,
    Grouping.length_firsts_le, fun g => Grouping.mem_firsts, ?_, ?_⟩
  · intro x hx y hy
    rw [← UnionFind.classes_iff hx hy, hclasses]
    rfl
  · rw [associate, hrun, List.map_map]
    rfl
  · rw [associate, hrun]
    refine congrArg (List.map Prod.fst) (List.filter_congr fun t ht' => ?_)
    -- The track `t` is used by the group of its own root and by no other.
    rw [Bool.eq_iff_iff]
    simp only [List.any_map, Bool.not_eq_true', List.any_eq_false, Function.comp_apply, List.contains_iff_mem, List.mem_map, List.mem_filter, beq_iff_eq,
      decide_eq_true_eq, not_exists, not_and, and_imp]
    exact ⟨fun h hmem => h _ hmem t ht' rfl rfl,
      fun h g hg t' _ hkey hidx => h (by rw [← hidx, hkey]; exact hg)⟩

omit [Field K] [LinearOrder K] in
theorem mem_tracksOf {key : ℕ → ℕ} {g : ℕ} {t : Track K} :
    t ∈ tracksOf key tracks g ↔ ∃ i, tracks[i]? = some t ∧ key i = g := by
  simp only [tracksOf, List.mem_map, List.mem_filter, decide_eq_true_eq, Prod.exists,
    List.mem_zipIdx_iff_getElem?]
  exact ⟨fun ⟨_, i, ⟨hi, hk⟩, h⟩ => ⟨i, h ▸ hi, hk⟩, fun ⟨i, hi, hk⟩ => ⟨t, i, ⟨hi, hk⟩, rfl⟩⟩

omit [Field K] [LinearOrder K] in
theorem mem_runsOf {key : ℕ → ℕ} {g : ℕ} {r : Run K} :
    r ∈ runsOf key runs g ↔ ∃ j, runs[j]? = some r ∧ key (maxTracks + j) = g := by
  simp only [runsOf, List.mem_map, List.mem_filter, decide_eq_true_eq, Prod.exists,
    List.mem_zipIdx_iff_getElem?]
  exact ⟨fun ⟨_, i, ⟨hi, hk⟩, h⟩ => ⟨i, h ▸ hi, hk⟩, fun ⟨i, hi, hk⟩ => ⟨r, i, ⟨hi, hk⟩, rfl⟩⟩

/-- Every track of the new frame is the group of some old tracks and at least one run. -/
theorem mem_associate_next (ht : tracks.length ≤ maxTracks) (hr : runs.length ≤ maxTracks)
    {t : Track K} (h : t ∈ (associate bins index first splits tracks runs).2) :
    ∃ old new, (∀ o ∈ old, o ∈ tracks) ∧ (∀ r ∈ new, r ∈ runs) ∧ new ≠ [] ∧
      t = .combine bins index first splits old new := by
  obtain ⟨key, groups, a⟩ := associate_spec bins index first splits ht hr
  rw [a.next_eq, List.mem_map] at h
  obtain ⟨g, hg, rfl⟩ := h
  refine ⟨_, _, fun o ho => ?_, fun r hr' => ?_, ?_, rfl⟩
  · obtain ⟨i, hi, -⟩ := mem_tracksOf.mp ho
    exact List.mem_of_getElem? hi
  · obtain ⟨j, hj, -⟩ := mem_runsOf.mp hr'
    exact List.mem_of_getElem? hj
  · obtain ⟨j, hj, hk⟩ := (a.mem_groups g).mp hg
    exact List.ne_nil_of_mem (mem_runsOf.mpr ⟨j, List.getElem?_eq_getElem hj, hk⟩)

theorem mem_associate_ended (ht : tracks.length ≤ maxTracks) (hr : runs.length ≤ maxTracks)
    {t : Track K} (h : t ∈ (associate bins index first splits tracks runs).1) : t ∈ tracks := by
  obtain ⟨key, groups, a⟩ := associate_spec bins index first splits ht hr
  rw [a.ended_eq, List.mem_map] at h
  obtain ⟨u, hu, rfl⟩ := h
  exact List.fst_mem_of_mem_zipIdx (List.mem_of_mem_filter hu)

theorem associate_next_length_le (ht : tracks.length ≤ maxTracks) (hr : runs.length ≤ maxTracks) :
    (associate bins index first splits tracks runs).2.length ≤ maxTracks := by
  obtain ⟨key, groups, a⟩ := associate_spec bins index first splits ht hr
  rw [a.next_eq, List.length_map]
  exact a.length_le.trans hr

/-- One run that touches every track makes one group of them all. -/
theorem associate_single {run : Run K} (ht : tracks.length ≤ maxTracks)
    (htouch : ∀ t ∈ tracks, touches t.lastLow t.lastHigh run.low run.high) :
    associate bins index first splits tracks [run] =
      ([], [.combine bins index first splits tracks [run]]) := by
  have hr : [run].length ≤ maxTracks := by
    rw [List.length_singleton]
    decide
  obtain ⟨key, groups, a⟩ := associate_spec bins index first splits ht hr
  have hgroups : groups = [key maxTracks] := by
    have hmem : ∀ g, g ∈ groups ↔ g = key maxTracks := fun g => by
      rw [a.mem_groups]
      simp [eq_comm]
    have hlen := a.length_le
    rcases groups with _ | ⟨g, _ | ⟨g', gs⟩⟩
    · exact absurd ((hmem _).mpr rfl) (by simp)
    · rw [(hmem g).mp (by simp)]
    · simp at hlen
  have hkey : ∀ t ∈ tracks.zipIdx, key t.2 = key maxTracks := fun t hm => by
    have hi := List.mem_zipIdx_iff_getElem?.mp hm
    have hlt := (List.getElem?_eq_some_iff.mp hi).1
    refine (a.key_iff t.2 (mem_nodes_track (by omega)) maxTracks
      (mem_nodes_run (j := 0) (by decide))).mpr (.rel _ _ ?_)
    exact ⟨t.2, 0, t.1, run, hi, rfl, htouch t.1 (List.fst_mem_of_mem_zipIdx hm), rfl, rfl⟩
  refine Prod.ext ?_ ?_
  · rw [a.ended_eq, List.filter_eq_nil_iff.mpr fun t hm => by simp [hgroups, hkey t hm]]
    rfl
  · have htracks : tracksOf key tracks (key maxTracks) = tracks := by
      rw [tracksOf, List.filter_eq_self.mpr fun t hm => by simp [hkey t hm], List.zipIdx_map_fst]
    rw [a.next_eq, hgroups, List.map_singleton, htracks]
    simp [runsOf]

/-! ## What a group becomes -/

/-- The track `t` of a group, field by field. Minima and maxima are given by their bounds. -/
structure Combined (bins first : ℕ) (splits : List (ℕ × ℕ)) (old : List (Track K))
    (new : List (Run K)) (t : Track K) : Prop where
  end_eq : t.end_ = first + fftSize
  le_first : ∀ x, x ≤ t.first ↔ x ≤ first ∧ ∀ o ∈ old, x ≤ o.first
  le_low : ∀ x, x ≤ t.low ↔ (x ≤ bins ∧ ∀ o ∈ old, x ≤ o.low) ∧ ∀ r ∈ new, x ≤ r.low
  high_le : ∀ x, t.high ≤ x ↔ (∀ o ∈ old, o.high ≤ x) ∧ ∀ r ∈ new, r.high ≤ x
  le_lastLow : ∀ x, x ≤ t.lastLow ↔ x ≤ bins ∧ ∀ r ∈ new, x ≤ r.low
  lastHigh_le : ∀ x, t.lastHigh ≤ x ↔ ∀ r ∈ new, r.high ≤ x
  count_eq : t.count = (old.map Track.count).sum + (new.map Run.count).sum
  sum_eq : t.sum = (old.map Track.sum).sum + (new.map Run.sum).sum
  hasFlag : ∀ f, HasFlag t.quality f ↔
    ((HasFlag (uncalibrated.mask ||| backgroundUncertain.mask) f ∨ ∃ o ∈ old, HasFlag o.quality f) ∨
      ∃ r ∈ new, HasFlag r.quality f ∨
        f = truncated ∧ ∃ i ∈ splits, touches i.1 i.2 r.low r.high) ∨
    f = merged ∧ (1 < old.length ∨ 1 < new.length)

omit [Field K] [LinearOrder K] in
/-- The marks of a run that touches a track cut in the last frame. -/
private theorem hasFlag_splits (f : SurveyQuality) (q : ℕ) (run : Run K) :
    HasFlag (splits.foldl (fun quality interval =>
      if touches interval.1 interval.2 run.low run.high then quality ||| truncated.mask
      else quality) q) f ↔
      HasFlag q f ∨ ∃ i ∈ splits, f = truncated ∧ touches i.1 i.2 run.low run.high := by
  refine Fold.foldl_or (φ := fun q => HasFlag q f) (fun q interval => ?_) splits q
  split <;> rename_i h
  · simp only [hasFlag_or, hasFlag_mask, h, and_true, eq_comm]
  · simp only [h, and_false, or_false]

theorem combined (bins index first : ℕ) (splits : List (ℕ × ℕ)) (old : List (Track K))
    (new : List (Run K)) :
    Combined bins first splits old new (.combine bins index first splits old new) := by
  -- The old tracks are added first and then the runs. Each field of the result is a fold of its own.
  let s := old.foldl Track.addTrack (.fresh bins first)
  let t := new.foldl (Track.addRun index splits) s
  have hlastLow : s.lastLow = bins :=
    Fold.foldl_eq (f := Track.addTrack) (φ := Track.lastLow) (fun _ _ => rfl) old _
  have hlastHigh : s.lastHigh = 0 :=
    Fold.foldl_eq (f := Track.addTrack) (φ := Track.lastHigh) (fun _ _ => rfl) old _
  have hquality : ∀ f, HasFlag t.quality f ↔
      (HasFlag (uncalibrated.mask ||| backgroundUncertain.mask) f ∨
        ∃ o ∈ old, HasFlag o.quality f) ∨
      ∃ r ∈ new, HasFlag r.quality f ∨
        f = truncated ∧ ∃ i ∈ splits, touches i.1 i.2 r.low r.high := fun f => by
    have hold := Fold.foldl_or (f := Track.addTrack) (φ := fun t : Track K => HasFlag t.quality f)
      (ψ := fun o => HasFlag o.quality f) (fun s o => hasFlag_or) old (.fresh bins first)
    have hnew := Fold.foldl_or (f := Track.addRun index splits)
      (φ := fun t : Track K => HasFlag t.quality f)
      (ψ := fun r => HasFlag r.quality f ∨
        f = truncated ∧ ∃ i ∈ splits, touches i.1 i.2 r.low r.high)
      (fun s r => (hasFlag_splits f _ r).trans (by
        rw [hasFlag_or, or_assoc, ← exists_and_left]
        simp only [and_left_comm])) new s
    exact hnew.trans (or_congr_left hold)
  -- The flag of a join stands for more than one track or more than one run.
  have hc : Combined bins first splits old new
      { t with quality := if 1 < old.length ∨ 1 < new.length then t.quality ||| merged.mask
               else t.quality } := by
    refine ⟨?_, fun x => ?_, fun x => ?_, fun x => ?_, fun x => ?_, fun x => ?_, ?_, ?_, fun f => ?_⟩
    · have h₁ := Fold.foldl_eq (f := Track.addTrack) (φ := Track.end_) (fun _ _ => rfl) old
        (.fresh bins first)
      exact (Fold.foldl_eq (f := Track.addRun index splits) (φ := Track.end_) (fun _ _ => rfl)
        new s).trans h₁
    · have h₁ := Fold.le_foldl_min (f := Track.addTrack) (φ := Track.first) (fun _ _ => rfl) old
        (.fresh bins first) x
      have h₂ := Fold.foldl_eq (f := Track.addRun index splits) (φ := Track.first)
        (fun _ _ => rfl) new s
      exact (iff_of_eq (congrArg (x ≤ ·) h₂)).trans h₁
    · have h₁ := Fold.le_foldl_min (f := Track.addTrack) (φ := Track.low) (fun _ _ => rfl) old
        (.fresh bins first) x
      exact (Fold.le_foldl_min (f := Track.addRun index splits) (φ := Track.low) (fun _ _ => rfl)
        new s x).trans (and_congr_left' h₁)
    · have h₁ := Fold.foldl_max_le (f := Track.addTrack) (φ := Track.high) (fun _ _ => rfl) old
        (.fresh bins first) x
      exact (Fold.foldl_max_le (f := Track.addRun index splits) (φ := Track.high) (fun _ _ => rfl)
        new s x).trans (and_congr_left' (h₁.trans (and_iff_right (Nat.zero_le x))))
    · rw [← hlastLow]
      exact Fold.le_foldl_min (f := Track.addRun index splits) (φ := Track.lastLow)
        (fun _ _ => rfl) new s x
    · have h₂ := Fold.foldl_max_le (f := Track.addRun index splits) (φ := Track.lastHigh)
        (fun _ _ => rfl) new s x
      rw [hlastHigh] at h₂
      exact h₂.trans (and_iff_right (Nat.zero_le x))
    · have h₁ := Fold.foldl_add (f := Track.addTrack) (φ := Track.count) (fun _ _ => rfl) old
        (.fresh bins first)
      have h₂ := Fold.foldl_add (f := Track.addRun index splits) (φ := Track.count)
        (fun _ _ => rfl) new s
      exact h₂.trans (congrArg (· + (new.map Run.count).sum) (h₁.trans (Nat.zero_add _)))
    · have h₁ := Fold.foldl_add (f := Track.addTrack) (φ := Track.sum) (fun _ _ => rfl) old
        (.fresh bins first)
      have h₂ := Fold.foldl_add (f := Track.addRun index splits) (φ := Track.sum)
        (fun _ _ => rfl) new s
      exact h₂.trans (congrArg (· + (new.map Run.sum).sum) (h₁.trans (zero_add _)))
    · rw [← hquality f]
      show HasFlag (if _ then _ else _) f ↔ _
      split <;> rename_i h
      · simp only [hasFlag_or, hasFlag_mask, h, and_true, eq_comm]
      · simp only [h, and_false, or_false]
  rw [Track.combine]
  split <;> rename_i h
  · simpa only [h, ↓reduceIte] using hc
  · simpa only [h, ↓reduceIte] using hc

/-! ## Where the runs go -/

theorem combine_runs (old : List (Track K)) (new : List (Run K)) :
    (Track.combine bins index first splits old new).runs =
      old.flatMap Track.runs ++ new.map fun run => (index, run) := by
  have h : ((new.foldl (Track.addRun index splits)
      (old.foldl Track.addTrack (.fresh bins first))).runs) =
        old.flatMap Track.runs ++ new.map fun run => (index, run) := by
    rw [Fold.foldl_append (φ := Track.runs) (ψ := fun run => [(index, run)]) fun _ _ => rfl,
      Fold.foldl_append (φ := Track.runs) (ψ := Track.runs) fun _ _ => rfl, List.map_eq_flatMap]
    rfl
  rw [Track.combine]
  split
  · exact h
  · exact h

theorem zipIdx_filter_append_perm {α : Type} (xs : List α) (q : α × ℕ → Prop) [DecidablePred q] :
    ((xs.zipIdx.filter fun x => q x).map Prod.fst ++
      (xs.zipIdx.filter fun x => ¬ q x).map Prod.fst).Perm xs := by
  have h := (List.filter_append_perm (fun x => decide (q x)) xs.zipIdx).map Prod.fst
  rw [List.map_append, List.zipIdx_map_fst] at h
  simpa using h

/-- The runs of the old tracks and of the new frame are those of the new tracks and of the tracks
that ended, each of them once. -/
theorem associate_runs_perm (ht : tracks.length ≤ maxTracks) (hr : runs.length ≤ maxTracks) :
    ((associate bins index first splits tracks runs).1.flatMap Track.runs ++
      (associate bins index first splits tracks runs).2.flatMap Track.runs).Perm
      (tracks.flatMap Track.runs ++ runs.map fun run => (index, run)) := by
  obtain ⟨key, groups, a⟩ := associate_spec bins index first splits ht hr
  have hold : (groups.flatMap (tracksOf key tracks)).Perm
      ((tracks.zipIdx.filter fun t => key t.2 ∈ groups).map Prod.fst) := by
    have := (Grouping.flatMap_filter_perm (fun t => key t.2) tracks.zipIdx a.nodup).map Prod.fst
    rwa [List.map_flatMap] at this
  have hnew : (groups.flatMap (runsOf key runs)).Perm runs := by
    have := (Grouping.flatMap_filter_perm (fun r => key (maxTracks + r.2)) runs.zipIdx
      a.nodup).map Prod.fst
    rw [List.map_flatMap, List.filter_eq_self.mpr, List.zipIdx_map_fst] at this
    · exact this
    · intro r hr'
      rw [List.mem_zipIdx_iff_getElem?] at hr'
      have := (List.getElem?_eq_some_iff.mp hr').1
      simpa using (a.mem_groups _).mpr ⟨r.2, this, rfl⟩
  have hnext : (associate bins index first splits tracks runs).2.flatMap Track.runs =
      groups.flatMap fun g => (tracksOf key tracks g).flatMap Track.runs ++
        (runsOf key runs g).map fun run => (index, run) := by
    rw [a.next_eq, List.flatMap_map]
    exact List.flatMap_congr fun g _ => combine_runs _ _
  have hused := zipIdx_filter_append_perm tracks fun t => key t.2 ∈ groups
  have hold' : (groups.flatMap fun g => (tracksOf key tracks g).flatMap Track.runs).Perm
      (((tracks.zipIdx.filter fun t => key t.2 ∈ groups).map Prod.fst).flatMap Track.runs) := by
    rw [← List.flatMap_assoc]
    exact hold.flatMap_right _
  have hnew' : (groups.flatMap fun g => (runsOf key runs g).map fun run => (index, run)).Perm
      (runs.map fun run => (index, run)) := by
    rw [← List.map_flatMap]
    exact hnew.map _
  rw [hnext, a.ended_eq]
  have hjoined := (List.flatMap_append_perm groups _ _).symm.trans (hold'.append hnew')
  refine (hjoined.append_left _).trans ?_
  rw [← List.append_assoc, ← List.flatMap_append]
  exact ((List.perm_append_comm.trans hused).flatMap_right _).append_right _

end SpectrumProcessor

end OVMesh
