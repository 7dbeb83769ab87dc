import OVMesh.Spectrum.Conservation

/-!
# Chunks of a stream

What the processor makes of a stream does not depend on how it is cut into calls of `feed`.

* `Call.singles`: a call as calls of one sample each. `run_singles`: these have the same effect.
* `acceptedSamples`, `run_samples`: every accepted sample is in a frame, pending or discarded.
* `Shaped`, `Tiled`, `Apart`: the tiles hold contiguous frames, padded with zeros, and are disjoint.
* `Follows`, `Joined`: a frame starts where the one before ends, unless a flush lies between.
* `feedM`: `feed` with its effects in the order of the source. `feedM_eq`.
-/

namespace OVMesh

namespace SpectrumProcessor

variable {K : Type} [Field K] [LinearOrder K] {p : Params K} {s : State K}

/-! ## Single samples -/

/-- The calls that feed the samples of a call one by one. -/
def Call.singles : Call K → List (Call K)
  | .feed input first => input.zipIdx.map fun v => .feed [v.1] (first + v.2)
  | .gap => [.gap]
  | .finish => [.finish]

/-- A call, with what it throws. -/
def tryCall (p : Params K) (s : State K) : Call K → Except String (State K)
  | .feed input first => feed p input first s
  | .gap => gap p s
  | .finish => .ok (finish p s)

/-- No call throws. -/
def Accepted (p : Params K) (s : State K) : List (Call K) → Prop
  | [] => True
  | c :: calls => (∃ s', tryCall p s c = .ok s') ∧ Accepted p (call p s c) calls

theorem call_eq (c : Call K) : call p s c = (tryCall p s c).toOption.getD s := by
  cases c <;> rfl

theorem call_of_ok {c : Call K} {s' : State K} (h : tryCall p s c = .ok s') : call p s c = s' := by
  rw [call_eq, h]
  rfl

theorem accepted_append {as bs : List (Call K)} :
    Accepted p s (as ++ bs) ↔ Accepted p s as ∧ Accepted p (run p as s) bs := by
  induction as generalizing s with
  | nil => exact (and_iff_right trivial).symm
  | cons a as ih => exact (and_congr_right fun _ => ih).trans and_assoc.symm

/-- The fields that only `feed` reads. -/
theorem feedSample_frame (n : ℕ) (h : Bool) (v : Cpx K) (c : ℕ) :
    feedSample p { s with nextSample := n, haveOrigin := h } v c =
      { feedSample p s v c with nextSample := n, haveOrigin := h } := by
  rw [feedSample_eq, feedSample_eq]
  split
  · rw [processFrame_spec, processFrame_spec]
    rfl
  · rfl

theorem foldl_feedSample_frame (n : ℕ) (h : Bool) (values : List (Cpx K × ℕ)) (c : ℕ) :
    values.foldl (fun s v => feedSample p s v.1 (c + v.2))
        { s with nextSample := n, haveOrigin := h } =
      { values.foldl (fun s v => feedSample p s v.1 (c + v.2)) s with
        nextSample := n, haveOrigin := h } := by
  induction values generalizing s with
  | nil => rfl
  | cons v values ih =>
    rw [List.foldl_cons, List.foldl_cons, feedSample_frame]
    exact ih

/-- What an accepted call of `feed` leaves. -/
def feedAll (p : Params K) (values : List (Cpx K)) (c : ℕ) (s : State K) : State K :=
  { values.zipIdx.foldl (fun s v => feedSample p s v.1 (c + v.2)) s with
    nextSample := c + values.length, haveOrigin := true }

theorem feed_all {values : List (Cpx K)} {c : ℕ} (hne : values ≠ []) (hf : s.finished = false)
    (ho : s.haveOrigin = true → c = s.nextSample) (hc : values.length ≤ 2 ^ 64 - 1 - c) :
    feed p (values.map some) c s = .ok (feedAll p values c s) := by
  have hframe := foldl_feedSample_frame (p := p) (s := s) s.nextSample true values.zipIdx c
  rw [feed_some hne hf ho hc, feedAll]
  exact congrArg Except.ok (congrArg (fun s => { s with nextSample := c + values.length }) hframe)

/-- A call of `feed` that returns. -/
theorem feed_ok_all {input : List (Option (Cpx K))} {c : ℕ} {s' : State K}
    (h : feed p input c s = .ok s') : s' = s ∧ input = [] ∨ ∃ values : List (Cpx K),
      input = values.map some ∧ s' = feedAll p values c s ∧ s.finished = false ∧
        (s.haveOrigin = true → c = s.nextSample) := by
  obtain hnil | ⟨hf, ho, values, rfl, rfl⟩ := feed_ok h
  · exact Or.inl hnil
  · refine Or.inr ⟨values, rfl, ?_, hf, ho⟩
    have hframe := foldl_feedSample_frame (p := p) (s := s) s.nextSample true values.zipIdx c
    unfold feedAll
    rw [List.length_map]
    exact congrArg (fun s : State K => { s with nextSample := c + values.length }) hframe

theorem feedAll_cons (v : Cpx K) (values : List (Cpx K)) (c : ℕ) :
    feedAll p (v :: values) c s = feedAll p values (c + 1) (feedAll p [v] c s) := by
  have hshift : ∀ s : State K, (values.zipIdx 1).foldl (fun s v => feedSample p s v.1 (c + v.2)) s =
      values.zipIdx.foldl (fun s v => feedSample p s v.1 (c + 1 + v.2)) s := fun s => by
    rw [List.zipIdx_succ, List.foldl_map]
    refine List.foldl_ext _ _ _ fun s v _ => ?_
    rw [Nat.add_right_comm c 1, Nat.add_assoc c v.2]
  have hframe := foldl_feedSample_frame (p := p) (s := feedSample p s v c) (c + 1) true
    values.zipIdx (c + 1)
  unfold feedAll
  rw [List.zipIdx_cons, List.foldl_cons, hshift, List.length_cons,
    show c + (values.length + 1) = c + 1 + values.length by omega]
  exact (congrArg (fun s : State K =>
    { s with nextSample := c + 1 + values.length, haveOrigin := true }) hframe).symm

theorem feedAll_finished (values : List (Cpx K)) (c : ℕ) :
    (feedAll p values c s).finished = s.finished := (foldl_feedSample_flags values c).2

omit [Field K] [LinearOrder K] in
theorem singles_cons (x : Option (Cpx K)) (input : List (Option (Cpx K))) (c : ℕ) :
    Call.singles (.feed (x :: input) c) = .feed [x] c :: Call.singles (.feed input (c + 1)) := by
  simp only [Call.singles]
  rw [List.zipIdx_cons, List.map_cons, List.zipIdx_succ, List.map_map]
  congr 1
  refine List.map_congr_left fun v _ => ?_
  show Call.feed [v.1] (c + (v.2 + 1)) = Call.feed [v.1] (c + 1 + v.2)
  rw [Nat.add_right_comm c 1, Nat.add_assoc c v.2]

theorem call_feed_one {v : Cpx K} {c : ℕ} (hf : s.finished = false)
    (ho : s.haveOrigin = true → c = s.nextSample) (hc : 1 ≤ 2 ^ 64 - 1 - c) :
    call p s (.feed [some v] c) = feedAll p [v] c s :=
  call_of_ok (c := .feed [some v] c) (feed_all (List.cons_ne_nil v []) hf ho hc)

/-- The samples of a call one by one do what the call does. -/
theorem run_singles_feed {values : List (Cpx K)} {c : ℕ} (hf : s.finished = false)
    (ho : s.haveOrigin = true → c = s.nextSample) (hc : values.length ≤ 2 ^ 64 - 1 - c)
    (hne : values ≠ []) :
    run p (Call.singles (.feed (values.map some) c)) s = feedAll p values c s := by
  induction values generalizing s c with
  | nil => exact absurd rfl hne
  | cons v values ih =>
    rw [List.length_cons] at hc
    rw [List.map_cons, singles_cons, feedAll_cons]
    show run p _ (call p s (.feed [some v] c)) = _
    rw [call_feed_one hf ho (by omega)]
    cases values with
    | nil => rfl
    | cons w values =>
      refine ih ((feedAll_finished [v] c).trans hf) (fun _ => rfl) ?_ (List.cons_ne_nil w values)
      omega

/-- What `feed` needs to accept samples. -/
theorem feed_accepts {values : List (Option (Cpx K))} {c : ℕ} (hne : values ≠ [])
    (h : Accepted p s (Call.singles (.feed values c))) :
    s.finished = false ∧ (s.haveOrigin = true → c = s.nextSample) ∧
      values.length ≤ 2 ^ 64 - 1 - c ∧ ∃ vs : List (Cpx K), values = vs.map some := by
  induction values generalizing s c with
  | nil => exact absurd rfl hne
  | cons x values ih =>
    rw [singles_cons] at h
    obtain ⟨⟨s', hs'⟩, hrest⟩ := h
    obtain ⟨-, hnil⟩ | ⟨hf, ho, vs, hvs, -⟩ := feed_ok (show feed p [x] c s = .ok s' from hs')
    · cases hnil
    obtain ⟨v, rfl⟩ : ∃ v, vs = [v] := by
      refine List.length_eq_one_iff.mp ?_
      rw [← List.length_map (f := some), ← hvs, List.length_singleton]
    obtain rfl : x = some v := List.singleton_inj.mp hvs
    have hroom : 1 ≤ 2 ^ 64 - 1 - c := by
      by_contra hlt
      change feed p [some v] c s = .ok s' at hs'
      rw [feed, if_neg (by simp [hf]), if_neg (List.cons_ne_nil _ _), if_pos (by simpa using hlt)] at hs'
      cases hs'
    cases values with
    | nil => exact ⟨hf, ho, hroom, [v], rfl⟩
    | cons y values =>
      rw [call_feed_one hf ho hroom] at hrest
      obtain ⟨-, -, hlen, vs, hvs⟩ := ih (List.cons_ne_nil y values) hrest
      refine ⟨hf, ho, ?_, v :: vs, congrArg (some v :: ·) hvs⟩
      rw [List.length_cons (a := some v)]
      omega

/-- **How a stream is cut** makes no difference, when its samples are accepted one by one. -/
theorem run_singles {calls : List (Call K)}
    (h : Accepted p s (calls.flatMap Call.singles)) :
    run p calls s = run p (calls.flatMap Call.singles) s ∧
      ((∀ c ∈ calls, c.singles ≠ []) → Accepted p s calls) := by
  induction calls generalizing s with
  | nil => exact ⟨rfl, fun _ => trivial⟩
  | cons c calls ih =>
    rw [List.flatMap_cons, accepted_append] at h
    obtain ⟨hone, hrest⟩ := h
    have hcall : call p s c = run p c.singles s ∧ (c.singles ≠ [] → ∃ s', tryCall p s c = .ok s') := by
      cases c with
      | gap =>
        obtain ⟨hok, -⟩ := hone
        exact ⟨rfl, fun _ => hok⟩
      | finish => exact ⟨rfl, fun _ => ⟨_, rfl⟩⟩
      | feed input first =>
        by_cases hne : input = []
        · subst hne
          refine ⟨?_, fun hne => absurd rfl hne⟩
          show (feed p [] first s).toOption.getD s = s
          unfold feed
          split <;> rfl
        · obtain ⟨hf, ho, hc, vs, rfl⟩ := feed_accepts hne hone
          rw [List.length_map] at hc
          have hvs : vs ≠ [] := fun hnil => hne (by rw [hnil, List.map_nil])
          have hok := feed_all (p := p) hvs hf ho hc
          exact ⟨(call_of_ok (c := .feed (vs.map some) first) hok).trans
            (run_singles_feed hf ho hc hvs).symm, fun _ => ⟨_, hok⟩⟩
    have hrun : run p (c :: calls) s = run p calls (call p s c) := rfl
    rw [← hcall.1] at hrest
    obtain ⟨heq, haccepted⟩ := ih hrest
    refine ⟨?_, fun hne => ⟨hcall.2 (hne c List.mem_cons_self), haccepted fun c' hc' =>
      hne c' (List.mem_cons_of_mem c hc')⟩⟩
    rw [hrun, heq, List.flatMap_cons, hcall.1]
    unfold run
    rw [List.foldl_append]

/-! ## Accepted samples -/

/-- The samples that a call feeds, unless it throws. -/
def newSamples (p : Params K) (s : State K) : Call K → ℕ
  | .feed input first => if (feed p input first s).isOk then input.length else 0
  | _ => 0

/-- The samples that a list of calls fed, without those that a call rejected. -/
def acceptedSamples (p : Params K) (s : State K) : List (Call K) → ℕ
  | [] => 0
  | c :: calls => newSamples p s c + acceptedSamples p (call p s c) calls

/-- The samples in frames, in the buffer and discarded. -/
def State.samples (s : State K) : ℕ := fftSize * s.frames.length + s.pending + s.discarded

theorem feedSample_samples (v : Cpx K) (c : ℕ) : (feedSample p s v c).samples = s.samples + 1 := by
  rw [feedSample_eq]
  split <;> rename_i hfull
  · rw [processFrame_spec]
    simp only [State.samples, collect, List.length_append, List.length_singleton]
    rw [Nat.mul_add, Nat.mul_one]
    omega
  · simp only [State.samples, collect]
    omega

theorem feedAll_samples (values : List (Cpx K)) (c : ℕ) :
    (feedAll p values c s).samples = s.samples + values.length := by
  induction values generalizing s c with
  | nil => rfl
  | cons v values ih =>
    have hone : (feedAll p [v] c s).samples = s.samples + 1 := feedSample_samples v c
    rw [feedAll_cons, ih, hone, List.length_cons]
    omega

/-- Every accepted sample is in a frame, pending or discarded. -/
theorem run_samples (calls : List (Call K)) :
    (run p calls s).samples = s.samples + acceptedSamples p s calls := by
  have hflush : ∀ s : State K, (flush p s).samples = s.samples := fun s => by
    rw [flush_spec]
    simp only [State.samples]
    omega
  induction calls generalizing s with
  | nil => rfl
  | cons c calls ih =>
    show (run p calls (call p s c)).samples = _
    rw [ih, acceptedSamples, ← Nat.add_assoc]
    congr 1
    cases c with
    | gap =>
      show ((gap p s).toOption.getD s).samples = s.samples
      unfold gap
      split
      · rfl
      · exact hflush s
    | finish =>
      show (finish p s).samples = s.samples
      unfold finish
      split
      · rfl
      · exact hflush s
    | feed input first =>
      show ((feed p input first s).toOption.getD s).samples = s.samples +
        if (feed p input first s).isOk then input.length else 0
      cases hfeed : feed p input first s with
      | error e => rfl
      | ok s' =>
        show s'.samples = s.samples + input.length
        obtain ⟨rfl, rfl⟩ | ⟨values, rfl, rfl, -⟩ := feed_ok_all hfeed
        · rfl
        · rw [feedAll_samples, List.length_map]

/-! ## The shape of a tile -/

/-- A tile of contiguous frames, with a row of the bitmap for each of them. -/
structure Shaped (p : Params K) (first stop count : ℕ) (activity : List ℕ)
    (frames : List (Frame K)) : Prop where
  le : count ≤ p.framesPerTile
  count_eq : count = frames.length
  stop : count ≠ 0 → stop = first + fftSize * count
  frames : ∀ k frame, frames[k]? = some frame → frame.first = first + fftSize * k
  length : activity.length = p.bytesPerFrame * count
  padding : ∀ k < count, ∀ b, p.bins ≤ b → b < 8 * p.bytesPerFrame →
    Bitmap.bit activity (8 * (k * p.bytesPerFrame) + b) = false

omit [LinearOrder K] in
theorem shaped_prepare : Shaped p (OpenTile.prepare : OpenTile K).firstSample
    (OpenTile.prepare : OpenTile K).endSample (OpenTile.prepare : OpenTile K).frameCount
    (OpenTile.prepare : OpenTile K).activity (OpenTile.prepare : OpenTile K).frames :=
  ⟨Nat.zero_le _, rfl, fun h => absurd rfl h, fun k f h => (by cases h), rfl,
    fun k hk => absurd hk (Nat.not_lt_zero k)⟩

/-- The next frame of a tile starts where the tile ends. -/
theorem Shaped.addFrame {tile : OpenTile K} (frame : Frame K)
    (h : Shaped p tile.firstSample tile.endSample tile.frameCount tile.activity tile.frames)
    (hlt : tile.frameCount < p.framesPerTile)
    (hfirst : tile.frameCount ≠ 0 → frame.first = tile.endSample) :
    Shaped p (tile.addFrame p frame).firstSample (tile.addFrame p frame).endSample
      (tile.addFrame p frame).frameCount (tile.addFrame p frame).activity
      (tile.addFrame p frame).frames := by
  have hat : frame.first = (tile.addFrame p frame).firstSample + fftSize * tile.frameCount := by
    show frame.first = (if tile.frameCount = 0 then frame.first else tile.firstSample) + _
    split <;> rename_i hzero
    · rw [hzero]
      rfl
    · rw [hfirst hzero, h.stop hzero]
  refine ⟨hlt, ?_, fun _ => ?_, fun k f hf => ?_, ?_, fun k hk b hb hlt => ?_⟩
  · show tile.frameCount + 1 = (tile.frames ++ [frame]).length
    rw [List.length_append, List.length_singleton, h.count_eq]
  · show frame.first + fftSize = _ + fftSize * (tile.frameCount + 1)
    rw [hat, Nat.mul_add, Nat.mul_one, Nat.add_assoc]
  · change (tile.frames ++ [frame])[k]? = some f at hf
    -- An earlier frame, or the new one; there is none behind it.
    rcases Nat.lt_trichotomy k tile.frames.length with hk | rfl | hk
    · rw [List.getElem?_append_left hk] at hf
      have hnonzero : tile.frameCount ≠ 0 := by
        rw [h.count_eq]
        omega
      show f.first = (if tile.frameCount = 0 then frame.first else tile.firstSample) + _
      rw [if_neg hnonzero]
      exact h.frames k f hf
    · rw [List.getElem?_append_right le_rfl, Nat.sub_self] at hf
      cases hf
      rw [← h.count_eq]
      exact hat
    · rw [List.getElem?_eq_none] at hf
      · cases hf
      · rw [List.length_append, List.length_singleton]
        omega
  · simp only [OpenTile.addFrame, Bitmap.length_fill, List.length_append, List.length_replicate,
      h.length, Nat.mul_add, Nat.mul_one]
  · simp only [OpenTile.addFrame] at hk ⊢
    rw [Bitmap.bit_fill (bins_le p), h.length]
    split <;> rename_i hrow
    · refine h.padding k ?_ b hb hlt
      by_contra hge
      have hmul := Nat.mul_le_mul_left p.bytesPerFrame (Nat.not_lt.mp hge)
      rw [Nat.mul_comm k] at hrow
      omega
    · have hlast : k = tile.frameCount := by
        refine Nat.le_antisymm (Nat.le_of_lt_succ hk) ?_
        by_contra hlt'
        have hmul := Nat.mul_le_mul_left p.bytesPerFrame (Nat.succ_le_of_lt (Nat.not_le.mp hlt'))
        rw [Nat.mul_succ, Nat.mul_comm _ k] at hmul
        omega
      rw [hlast, Nat.mul_comm tile.frameCount, Nat.add_sub_cancel_left]
      exact decide_eq_false fun hand => absurd hand.1 (Nat.not_lt.mpr hb)

/-- The open tile and the emitted ones. -/
structure Tiled (p : Params K) (s : State K) : Prop where
  lt : s.tile.frameCount < p.framesPerTile
  tile : Shaped p s.tile.firstSample s.tile.endSample s.tile.frameCount s.tile.activity s.tile.frames
  tiles : ∀ t ∈ s.tiles, t.1.frameCount ≠ 0 ∧
    Shaped p t.1.firstSample t.1.endSample t.1.frameCount t.1.activity t.2

omit [LinearOrder K] in
theorem tiled_init : Tiled p (init : State K) :=
  ⟨p.framesPerTile_pos, shaped_prepare, fun _ h => absurd h List.not_mem_nil⟩

theorem tiled_kept : Kept p fun c s => At c s ∧ Tiled p s where
  sample c s v h := by
    refine ⟨at_kept.sample c s v h.1, ?_⟩
    rw [feedSample_eq]
    split <;> rename_i hfull
    case isFalse => exact ⟨h.2.lt, h.2.tile, h.2.tiles⟩
    -- The frame follows the open tile without a gap, as both end at the coordinate.
    have hframe : Shaped p _ _ _ _ _ :=
      h.2.tile.addFrame (nextFrame p { collect p s v c with pending := 0 }) h.2.lt
        fun hne => by
          have hlast := h.1.collect (p := p) v hfull
          have hend := h.1.tile_end hne
          show (collect p s v c).frameFirst = s.tile.endSample
          omega
    rw [processFrame_spec]
    refine ⟨?_, ?_, fun t ht => ?_⟩
    · dsimp only
      split <;> rename_i hcount
      · exact p.framesPerTile_pos
      · exact Nat.lt_of_le_of_ne hframe.le hcount
    · dsimp only
      split
      · exact shaped_prepare
      · exact hframe
    · dsimp only at ht
      split at ht
      · rcases List.mem_append.mp ht with ht | ht
        · exact h.2.tiles t ht
        · rw [List.mem_singleton.mp ht]
          exact ⟨Nat.succ_ne_zero _, hframe⟩
      · exact h.2.tiles t ht
  flush c c' s h := by
    refine ⟨at_kept.flush c c' s h.1, ?_⟩
    rw [flush_spec]
    refine ⟨?_, ?_, fun t ht => ?_⟩
    · dsimp only
      split
      · exact h.2.lt
      · exact p.framesPerTile_pos
    · dsimp only
      split
      · exact h.2.tile
      · exact shaped_prepare
    · dsimp only at ht
      split at ht <;> rename_i hcount
      · exact h.2.tiles t ht
      · rcases List.mem_append.mp ht with ht | ht
        · exact h.2.tiles t ht
        · rw [List.mem_singleton.mp ht]
          exact ⟨hcount, h.2.tile⟩
  frame c s n ho f h := ⟨(at_kept (p := p)).frame c s n ho f h.1, ⟨h.2.lt, h.2.tile, h.2.tiles⟩⟩

/-- The tiles of every list of calls. -/
theorem run_tiled (calls : List (Call K)) : Tiled p (run p calls init) := by
  obtain ⟨_, -, h⟩ := run_exists tiled_kept (fun c => ⟨at_init c, tiled_init⟩) calls
  exact h

/-! ## Adjacent tiles -/

/-- A frame starts where another ends, unless the samples were flushed right before it. -/
def Follows (flushes : List ℕ) (f g : Frame K) : Prop :=
  g.index ∉ flushes → g.first = f.first + fftSize

/-- At the coordinate `c`, with every frame behind the one before, and the next one too. -/
structure Joined (c : ℕ) (s : State K) : Prop where
  stands : At c s
  frames : s.frames.IsChain (Follows s.flushes)
  last : ∀ f ∈ s.frames.getLast?, s.frames.length ∉ s.flushes → f.first + fftSize + s.pending = c

theorem joined_kept : Kept p (Joined (K := K)) where
  sample c s v h := by
    have hstands := at_kept (p := p).sample c s v h.stands
    rw [feedSample_eq] at hstands ⊢
    split at hstands <;> rename_i hfull
    case isFalse =>
      rw [if_neg hfull]
      refine ⟨hstands, h.frames, fun f hf hflush => ?_⟩
      have hlast := h.last f hf hflush
      show f.first + fftSize + (s.pending + 1) = c + 1
      omega
    rw [if_pos hfull]
    have hend := h.stands.collect (p := p) v hfull
    rw [processFrame_spec] at hstands ⊢
    refine ⟨hstands, List.isChain_append.mpr ⟨h.frames, List.isChain_singleton _, ?_⟩, ?_⟩
    · -- the samples of the frame are the buffered ones and the new one
      intro f hf g hg hflush
      obtain rfl := Option.some_inj.mp hg
      have hlast := h.last f hf hflush
      show (collect p s v c).frameFirst = f.first + fftSize
      omega
    · intro f hf _
      rw [List.getLast?_concat] at hf
      obtain rfl := Option.some_inj.mp hf
      exact hend
  flush c c' s h := by
    refine ⟨at_kept.flush c c' s h.stands, ?_, ?_⟩ <;> rw [flush_spec]
    · exact h.frames.imp fun f g hfollows hflush =>
        hfollows fun hmem => hflush (List.mem_append_left _ hmem)
    · exact fun f _ hflush => absurd (List.mem_append_right _ (List.mem_singleton_self _)) hflush
  frame c s n ho f h := ⟨at_kept (p := p).frame c s n ho f h.stands, h.frames, h.last⟩

/-- The frames of every list of calls. -/
theorem run_follows (calls : List (Call K)) :
    (run p calls init).frames.IsChain (Follows (run p calls init).flushes) := by
  obtain ⟨_, h⟩ := run_exists (p := p) joined_kept
    (fun c => ⟨at_init c, .nil, fun f hf => by cases hf⟩) calls
  exact h.frames

omit [Field K] [LinearOrder K] in
/-- Where the frames of two tiles follow one another, so do the tiles. -/
theorem Shaped.follows {first stop count first' stop' count' : ℕ} {activity activity' : List ℕ}
    {frames frames' : List (Frame K)} {flushes : List ℕ}
    (h : Shaped p first stop count activity frames)
    (h' : Shaped p first' stop' count' activity' frames') (hne : count ≠ 0)
    (hfollows : ∀ f ∈ frames.getLast?, ∀ g ∈ frames'.head?, Follows flushes f g) :
    ∀ g ∈ frames'.head?, g.index ∉ flushes → first' = stop := by
  intro g hg hflush
  have hlt : frames.length - 1 < frames.length := by
    have := h.count_eq
    omega
  have hlast := h.frames _ _ (List.getElem?_eq_getElem hlt)
  have hhead : g.first = first' + fftSize * 0 := h'.frames 0 g (List.head?_eq_getElem? ▸ hg)
  have hnext : g.first = frames[frames.length - 1].first + fftSize := by
    refine hfollows _ ?_ g hg hflush
    rw [List.getLast?_eq_getElem?]
    exact List.getElem?_eq_getElem hlt
  have hstop := h.stop hne
  rw [h.count_eq] at hstop
  have hmul : fftSize * frames.length = fftSize * (frames.length - 1) + fftSize := by
    rw [← Nat.mul_succ]
    congr 1
    omega
  omega

/-- A tile starts where the one before ended, unless a flush lies between. -/
theorem run_adjacent (calls : List (Call K)) : (run p calls init).tiles.IsChain fun a b =>
    ∀ g ∈ b.2.head?, g.index ∉ (run p calls init).flushes → b.1.firstSample = a.1.endSample := by
  have htiled := (run_tiled (p := p) calls).tiles
  have hframes := run_follows (p := p) calls
  rw [← (run_conserved (p := p) calls).frames_eq] at hframes
  have htiles := hframes.left_of_append
  have hnil : [] ∉ (run p calls init).tiles.map Prod.snd := fun hmem => by
    obtain ⟨t, ht, hempty⟩ := List.mem_map.mp hmem
    have hcount := (htiled t ht).2.count_eq
    rw [hempty] at hcount
    exact (htiled t ht).1 hcount
  rw [List.flatMap_def, List.isChain_flatten hnil, List.isChain_map] at htiles
  refine htiles.2.imp_of_mem_imp fun a b ha hb hfollows => ?_
  exact (htiled a ha).2.follows (htiled b hb).2 (htiled a ha).1 hfollows

/-! ## Disjoint tiles -/

/-- The calls never go back to an earlier coordinate. -/
def Forward : ℕ → List (Call K) → Prop
  | _, [] => True
  | c, .feed input first :: calls => c ≤ first ∧ Forward (first + input.length) calls
  | c, .gap :: calls => Forward c calls
  | c, .finish :: calls => Forward c calls

/-- At the coordinate `c`, which nothing behind the emitted tiles precedes. -/
structure Apart (c : ℕ) (s : State K) : Prop where
  stands : At c s
  tiles : s.tiles.Pairwise fun a b => a.1.endSample ≤ b.1.firstSample
  behind : ∀ t ∈ s.tiles, t.1.endSample ≤ c
  tile : s.tile.frameCount ≠ 0 → ∀ t ∈ s.tiles, t.1.endSample ≤ s.tile.firstSample
  pending : s.pending ≠ 0 → ∀ t ∈ s.tiles, t.1.endSample ≤ s.frameFirst

theorem Apart.sample {c : ℕ} (h : Apart c s) (v : Cpx K) : Apart (c + 1) (feedSample p s v c) := by
  have hstands := at_kept (p := p).sample c s v h.stands
  have hfirst : ∀ t ∈ s.tiles, t.1.endSample ≤ (collect p s v c).frameFirst := fun t ht => by
    show _ ≤ if s.pending = 0 then c else s.frameFirst
    split <;> rename_i hzero
    · exact h.behind t ht
    · exact h.pending hzero t ht
  rw [feedSample_eq] at hstands ⊢
  split at hstands <;> rename_i hfull
  case isFalse =>
    rw [if_neg hfull]
    exact ⟨hstands, h.tiles, fun t ht => (h.behind t ht).trans (Nat.le_succ c), h.tile,
      fun _ => hfirst⟩
  rw [if_pos hfull]
  have hlast := h.stands.collect (p := p) v hfull
  have hopen : ∀ t ∈ s.tiles, t.1.endSample ≤
      (if s.tile.frameCount = 0 then (collect p s v c).frameFirst else s.tile.firstSample) :=
    fun t ht => by
      split <;> rename_i hcount
      · exact hfirst t ht
      · exact h.tile hcount t ht
  have hbehind : ∀ t ∈ s.tiles, t.1.endSample ≤ c + 1 := fun t ht =>
    (h.behind t ht).trans (Nat.le_succ c)
  refine ⟨hstands, ?_, ?_, ?_, ?_⟩ <;> rw [processFrame_spec] <;> dsimp only
  · split
    · refine List.pairwise_append.mpr ⟨h.tiles, List.pairwise_singleton _ _, fun a ha b hb => ?_⟩
      rw [List.mem_singleton.mp hb]
      exact hopen a ha
    · exact h.tiles
  · split
    · intro t ht
      rcases List.mem_append.mp ht with ht | ht
      · exact hbehind t ht
      · rw [List.mem_singleton.mp ht]
        exact hlast.le
    · exact hbehind
  · split
    · exact fun hne => absurd rfl hne
    · exact fun _ => hopen
  · exact fun hne => absurd rfl hne

theorem Apart.flush {c c' : ℕ} (h : Apart c s) (hle : c ≤ c') : Apart c' (flush p s) := by
  have hend : s.tile.frameCount ≠ 0 → s.tile.endSample ≤ c := fun hne => by
    have := h.stands.tile_end hne
    omega
  refine ⟨at_kept.flush c c' s h.stands, ?_, ?_, ?_, ?_⟩ <;> rw [flush_spec] <;> dsimp only
  · split <;> rename_i hcount
    · exact h.tiles
    · refine List.pairwise_append.mpr ⟨h.tiles, List.pairwise_singleton _ _, fun a ha b hb => ?_⟩
      rw [List.mem_singleton.mp hb]
      exact h.tile hcount a ha
  · split <;> rename_i hcount
    · exact fun t ht => (h.behind t ht).trans hle
    · intro t ht
      rcases List.mem_append.mp ht with ht | ht
      · exact (h.behind t ht).trans hle
      · rw [List.mem_singleton.mp ht]
        exact (hend hcount).trans hle
  · split <;> rename_i hcount
    · exact fun hne => absurd hcount hne
    · exact fun hne => absurd rfl hne
  · exact fun hne => absurd rfl hne

/-- The stream stands at or in front of the coordinate `c`. -/
def ApartFrom (c : ℕ) (s : State K) : Prop :=
  if s.haveOrigin then s.nextSample ≤ c ∧ Apart s.nextSample s else ∀ c' ≥ c, Apart c' s

omit [Field K] [LinearOrder K] in
theorem ApartFrom.mono {c c' : ℕ} (h : ApartFrom c s) (hle : c ≤ c') : ApartFrom c' s := by
  unfold ApartFrom at h ⊢
  split <;> rename_i ho
  · rw [if_pos ho] at h
    exact ⟨h.1.trans hle, h.2⟩
  · rw [if_neg ho] at h
    exact fun c'' hc => h c'' (hle.trans hc)

omit [Field K] [LinearOrder K] in
theorem ApartFrom.exists {c : ℕ} (h : ApartFrom c s) : ∃ c₀ ≤ c, Apart c₀ s := by
  unfold ApartFrom at h
  split at h
  · exact ⟨_, h.1, h.2⟩
  · exact ⟨c, le_rfl, h c le_rfl⟩

theorem ApartFrom.flush {c : ℕ} (h : ApartFrom c s) (f : Bool) :
    ApartFrom c { flush p s with finished := f } := by
  obtain ⟨c₀, hle, hc₀⟩ := h.exists
  intro c' hc'
  have hflush : Apart c' (SpectrumProcessor.flush p s) := hc₀.flush (hle.trans hc')
  exact ⟨at_kept (p := p).frame c' _ _ _ f hflush.stands, hflush.tiles, hflush.behind, hflush.tile,
    hflush.pending⟩

theorem run_apart {c : ℕ} {calls : List (Call K)} (hcalls : Forward c calls)
    (h : ApartFrom c s) : (run p calls s).tiles.Pairwise fun a b => a.1.endSample ≤ b.1.firstSample := by
  induction calls generalizing c s with
  | nil =>
    obtain ⟨c₀, -, hc₀⟩ := h.exists
    exact hc₀.tiles
  | cons d calls ih =>
    cases d with
    | gap =>
      refine ih (s := call p s .gap) hcalls ?_
      show ApartFrom c ((gap p s).toOption.getD s)
      unfold gap
      split
      · exact h
      · exact h.flush _
    | finish =>
      refine ih (s := call p s .finish) hcalls ?_
      show ApartFrom c (finish p s)
      unfold finish
      split
      · exact h
      · exact h.flush true
    | feed input first =>
      obtain ⟨hle, hcalls⟩ := hcalls
      refine ih (s := call p s (.feed input first)) hcalls ?_
      show ApartFrom _ ((feed p input first s).toOption.getD s)
      cases hfeed : feed p input first s with
      | error e => exact h.mono (hle.trans (Nat.le_add_right _ _))
      | ok s' =>
        -- An empty block changes nothing; any other one starts where the stream stands, or begins the
        -- stream.
        obtain ⟨rfl, rfl⟩ | ⟨values, rfl, rfl, -, ho⟩ := feed_ok_all hfeed
        · exact h.mono hle
        · have hfirst : Apart first s := by
            unfold ApartFrom at h
            split at h <;> rename_i horigin
            · rw [ho horigin]
              exact h.2
            · exact h first hle
          have hfed := feedSamples_induction (p := p) (P := Apart) values
            (fun c s v _ hs => hs.sample v) hfirst
          rw [List.length_map]
          refine ⟨le_rfl, ?_⟩
          exact ⟨at_kept (p := p).frame _ _ _ _ _ hfed.stands, hfed.tiles, hfed.behind, hfed.tile,
            hfed.pending⟩

/-! ## Calls that throw -/

/-- `feed` with its effects in the order of the source. -/
def feedM (p : Params K) (input : List (Option (Cpx K))) (firstSample : ℕ) :
    EStateM String (State K) Unit := do
  if (← get).finished then throw "Spectrum stream already finished"
  if input = [] then return
  if 2 ^ 64 - 1 - firstSample < input.length then throw "Spectrum sample coordinate overflow"
  let state ← get
  if state.haveOrigin ∧ firstSample ≠ state.nextSample then
    throw "Spectrum sample discontinuity requires gap()"
  if input.any Option.isNone then throw "Spectrum input must be finite"
  modify fun s => { s with haveOrigin := true }
  forM input.reduceOption.zipIdx fun v => modify fun s => feedSample p s v.1 (firstSample + v.2)
  modify fun s => { s with nextSample := firstSample + input.length }

/-- A loop that changes the state is a fold. -/
theorem forM_modify {σ α : Type} (f : α → σ → σ) (l : List α) (s : σ) :
    (forM l fun a => (modify (f a) : EStateM String σ PUnit)) s =
      .ok () (l.foldl (fun s a => f a s) s) := by
  induction l generalizing s with
  | nil => rfl
  | cons a l ih => exact ih (f a s)

/-- `feed` throws before it changes anything. -/
theorem feedM_eq (input : List (Option (Cpx K))) (c : ℕ) : (feedM p input c).run s =
    match feed p input c s with
    | .ok s' => .ok () s'
    | .error e => .error e s := by
  unfold feedM feed
  show (ite (s.finished = true) _ _ : EStateM String (State K) Unit) s = _
  by_cases hfinished : s.finished = true
  · rw [if_pos hfinished, if_pos hfinished]
    rfl
  rw [if_neg hfinished, if_neg hfinished]
  by_cases hempty : input = []
  · rw [if_pos hempty, if_pos hempty]
    rfl
  rw [if_neg hempty, if_neg hempty]
  by_cases hroom : 2 ^ 64 - 1 - c < input.length
  · rw [if_pos hroom, if_pos hroom]
    rfl
  rw [if_neg hroom, if_neg hroom]
  show (ite (s.haveOrigin = true ∧ c ≠ s.nextSample) _ _ : EStateM String (State K) Unit) s = _
  by_cases horigin : s.haveOrigin = true ∧ c ≠ s.nextSample
  · rw [if_pos horigin, if_pos horigin]
    rfl
  rw [if_neg horigin, if_neg horigin]
  by_cases hfinite : input.any Option.isNone = true
  · rw [if_pos hfinite, if_pos hfinite]
    rfl
  rw [if_neg hfinite, if_neg hfinite]
  have hloop := forM_modify (fun (v : Cpx K × ℕ) (s : State K) => feedSample p s v.1 (c + v.2))
    input.reduceOption.zipIdx { s with haveOrigin := true }
  show EStateM.bind (forM input.reduceOption.zipIdx _) (fun _ => modify _)
    { s with haveOrigin := true } = _
  unfold EStateM.bind
  rw [hloop]
  rfl

/-- **The processor is independent of chunking.** Two ways to cut an accepted stream lead to the
same tiles and events. Every accepted sample is in a frame, pending or discarded. The tiles are
made of contiguous frames. They hold every frame once, each starts where the one before ended unless
a flush lies between, and their samples are disjoint when the coordinates never go back. A call of
`feed` that throws changes nothing. -/
theorem chunks_independent (p : Params K) :
    (∀ calls calls' : List (Call K), calls.flatMap Call.singles = calls'.flatMap Call.singles →
      Accepted p init (calls.flatMap Call.singles) →
        (run p calls init).tiles = (run p calls' init).tiles ∧
        (run p calls init).events = (run p calls' init).events ∧
        ((∀ c ∈ calls, c.singles ≠ []) → Accepted p init calls)) ∧
    (∀ calls : List (Call K), let s := run p calls init
      acceptedSamples p init calls = fftSize * s.frames.length + s.pending + s.discarded ∧
        (∀ t ∈ s.tiles, t.1.frameCount ≠ 0 ∧
          Shaped p t.1.firstSample t.1.endSample t.1.frameCount t.1.activity t.2) ∧
        s.tiles.flatMap Prod.snd ++ s.tile.frames = s.frames ∧
        s.frames.map Frame.index = List.range s.frames.length ∧
        (s.tiles.IsChain fun a b =>
          ∀ g ∈ b.2.head?, g.index ∉ s.flushes → b.1.firstSample = a.1.endSample) ∧
        (Forward 0 calls → s.tiles.Pairwise fun a b => a.1.endSample ≤ b.1.firstSample)) ∧
    ∀ (s s' : State K) (input : List (Option (Cpx K))) (c : ℕ) (e : String),
      (feedM p input c).run s = .error e s' → s' = s := by
  refine ⟨fun calls calls' hsame haccepted => ?_, fun calls => ⟨?_, (run_tiled calls).tiles,
    (run_conserved calls).frames_eq, (run_conserved calls).index_eq, run_adjacent calls, ?_⟩,
    fun s s' input c e h => ?_⟩
  · obtain ⟨hrun, hall⟩ := run_singles haccepted
    have haccepted' : Accepted p init (calls'.flatMap Call.singles) := hsame ▸ haccepted
    obtain ⟨hrun', -⟩ := run_singles haccepted'
    rw [hrun, hrun', hsame]
    exact ⟨rfl, rfl, hall⟩
  · have hsamples := run_samples (p := p) (s := init) calls
    rw [show (init : State K).samples = 0 from rfl, Nat.zero_add] at hsamples
    exact hsamples.symm
  · intro hforward
    exact run_apart hforward fun c _ =>
      ⟨at_init c, .nil, fun t ht => absurd ht List.not_mem_nil, fun hne => absurd rfl hne,
        fun hne => absurd rfl hne⟩
  · rw [feedM_eq] at h
    split at h
    · cases h
    · cases h
      rfl

end SpectrumProcessor

end OVMesh
