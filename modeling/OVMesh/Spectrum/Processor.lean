import OVMesh.Lib.Bitmap
import OVMesh.Spectrum.Tracks

/-!
# The spectrum processor

`SpectrumProcessor` of `spectrum.cpp`: samples are collected into frames of `fft_size`, every frame
adds a row to the open tile and moves the tracks on, and `gap` and `finish` close everything. The
state also logs what the callbacks received, each record with what it was made from.

* `State`, `init`, `feed`, `gap`, `finish`: the processor and its calls.
* `run`: the state after a list of calls. A call that throws leaves the state unchanged.
* `events_spec`: what the association of one frame does to the state.
* `run_induction`: what every sample, frame and flush keeps holds after every list of calls.
-/

namespace OVMesh

namespace SpectrumProcessor

open SurveyQuality

/-- A measured frame: its number, its first sample, its clipped samples and the powers of its bins. -/
structure Frame (K : Type) where
  index : ℕ
  first : ℕ
  clipped : ℕ
  powers : ℕ → K

/-- The tile under construction with `tile_sum` and `tile_peak`. `frames` is ghost. -/
structure OpenTile (K : Type) where
  firstSample : ℕ
  endSample : ℕ
  frameCount : ℕ
  clippedSamples : ℕ
  quality : ℕ
  activity : List ℕ
  tileSum : ℕ → K
  tilePeak : ℕ → K
  frames : List (Frame K)

/-- The last four fields are ghost: the frames measured so far, how many of them there were at each
flush, and the records that the callbacks received, with the frames and the track they were made
from. -/
structure State (K : Type) where
  nextSample : ℕ
  frameFirst : ℕ
  discarded : ℕ
  nextTileId : ℕ
  nextEventId : ℕ
  frameClipped : ℕ
  pending : ℕ
  haveOrigin : Bool
  finished : Bool
  fft : ℕ → Cpx K
  tracks : List (Track K)
  splitIntervals : List (ℕ × ℕ)
  tile : OpenTile K
  frames : List (Frame K)
  flushes : List ℕ
  tiles : List (SpectrumTile K × List (Frame K))
  events : List (SpectrumEvent K × Track K)

variable {K : Type} [Field K] [LinearOrder K]

/-! ## Tiles -/

/-- `prepare_tile`: a tile of no frame. -/
def OpenTile.prepare : OpenTile K :=
  { firstSample := 0
    endSample := 0
    frameCount := 0
    clippedSamples := 0
    quality := uncalibrated.mask ||| backgroundUncertain.mask
    activity := []
    tileSum := fun _ => 0
    tilePeak := fun _ => 0
    frames := [] }

/-- The tile after one more frame. -/
def OpenTile.addFrame (p : Params K) (tile : OpenTile K) (frame : Frame K) : OpenTile K :=
  { firstSample := if tile.frameCount = 0 then frame.first else tile.firstSample
    endSample := frame.first + fftSize
    frameCount := tile.frameCount + 1
    clippedSamples := tile.clippedSamples + frame.clipped
    quality := if frame.clipped ≠ 0 then tile.quality ||| clipped.mask else tile.quality
    activity := Bitmap.fill (fun i => p.threshold ≤ frame.powers i) tile.activity.length p.bins
      (tile.activity ++ List.replicate p.bytesPerFrame 0)
    tileSum := fun i => tile.tileSum i + frame.powers i
    tilePeak := fun i => max (tile.tilePeak i) (frame.powers i)
    frames := tile.frames ++ [frame] }

/-- The record of a closed tile. The background is the 20th percentile of its mean bin powers. -/
def OpenTile.close (p : Params K) (id : ℕ) (tile : OpenTile K) : SpectrumTile K :=
  let means := (List.range p.bins).map fun i => tile.tileSum i / tile.frameCount
  { id
    firstSample := tile.firstSample
    endSample := tile.endSample
    utcStartSeconds := 0
    utcEndSeconds := 0
    elapsedStartSeconds := tile.firstSample / p.rate
    elapsedEndSeconds := tile.endSample / p.rate
    powerElapsedStart := 0
    powerElapsedEnd := 0
    firstCenterHz := p.firstCenter
    binWidthHz := p.width
    fftSize
    frameCount := tile.frameCount
    backgroundDbfs := dbfs p.libm ((means.mergeSort fun a b => a ≤ b).getD ((p.bins - 1) / 5) 0)
    clippedSamples := tile.clippedSamples
    quality := tile.quality
    meanDbfs := means.map (dbfs p.libm)
    peakDbfs := (List.range p.bins).map fun i => dbfs p.libm (tile.tilePeak i)
    activity := tile.activity }

/-- `emit_tile`: the open tile, if it has a frame, is closed and emitted. -/
def emitTile (p : Params K) (s : State K) : State K :=
  if s.tile.frameCount = 0 then s
  else
    { s with
      nextTileId := s.nextTileId + 1
      tile := .prepare
      tiles := s.tiles ++ [(s.tile.close p s.nextTileId, s.tile.frames)] }

/-! ## Events -/

/-- The record of a track. -/
def Track.event (p : Params K) (id : ℕ) (track : Track K) (quality : ℕ) : SpectrumEvent K :=
  { id
    firstSample := track.first
    endSample := track.end_
    utcStartSeconds := 0
    utcEndSeconds := 0
    elapsedStartSeconds := track.first / p.rate
    elapsedEndSeconds := track.end_ / p.rate
    lowerHz := p.firstCenter + (track.low - 1 / 2) * p.width
    upperHz := p.firstCenter + (track.high + 1 / 2) * p.width
    activeSeconds := (track.end_ - track.first : ℕ) / p.rate
    meanDbfs := dbfs p.libm (track.sum / track.count)
    peakDbfs := dbfs p.libm track.peak
    quality := track.quality ||| quality }

/-- `emit_event`: the event of a track gets the next identifier. -/
def emitEvent (p : Params K) (quality : ℕ) (s : State K) (track : Track K) : State K :=
  { s with
    nextEventId := s.nextEventId + 1
    events := s.events ++ [(track.event p s.nextEventId quality, track)] }

/-- The track has reached the segment limit. -/
def Track.Long (p : Params K) (track : Track K) : Prop :=
  p.segmentSamples ≤ track.end_ - track.first

instance (p : Params K) (track : Track K) : Decidable (track.Long p) :=
  inferInstanceAs (Decidable (_ ≤ _))

/-- The runs of a frame after the grouping. -/
def frameRuns (p : Params K) (frame : Frame K) : List (Run K) :=
  groupRuns (extractRuns p.bins p.threshold frame.powers frame.clipped 0)

/-- `events`: the tracks that ended are emitted, and the new ones that are too long are cut. -/
def events (p : Params K) (frame : Frame K) (s : State K) : State K :=
  let (ended, next) :=
    associate p.bins frame.index frame.first s.splitIntervals s.tracks (frameRuns p frame)
  let s := ended.foldl (emitEvent p 0) s
  next.foldl (fun s track =>
    if track.Long p then
      { emitEvent p truncated.mask s track with
        splitIntervals := s.splitIntervals ++ [(track.lastLow, track.lastHigh)] }
    else { s with tracks := s.tracks ++ [track] }) { s with tracks := [], splitIntervals := [] }

/-! ## Frames and calls -/

/-- The powers of the frame in the FFT buffer. -/
def framePowers (p : Params K) (fft : ℕ → Cpx K) (i : ℕ) : K :=
  (transform p.twiddles fft (p.fftBin i)).norm * p.normalization

/-- The frame in the FFT buffer. -/
def nextFrame (p : Params K) (s : State K) : Frame K :=
  { index := s.frames.length
    first := s.frameFirst
    clipped := s.frameClipped
    powers := framePowers p s.fft }

/-- `process_frame`: the spectrum of the buffered samples is added to the tile and to the tracks, and a
full tile is emitted. -/
def processFrame (p : Params K) (s : State K) : State K :=
  let frame := nextFrame p s
  let s := { s with
    fft := transform p.twiddles s.fft
    tile := s.tile.addFrame p frame
    frames := s.frames ++ [frame] }
  let s := events p frame s
  let s := if s.tile.frameCount = p.framesPerTile then emitTile p s else s
  { s with frameClipped := 0 }

/-- `flush`: the open tile and the open tracks are emitted, and the buffered samples are discarded. -/
def flush (p : Params K) (s : State K) : State K :=
  let s := emitTile p s
  let s := s.tracks.foldl (emitEvent p truncated.mask) s
  { s with
    tracks := []
    splitIntervals := []
    discarded := s.discarded + s.pending
    pending := 0
    frameClipped := 0
    fft := fun _ => 0
    haveOrigin := false
    flushes := s.flushes ++ [s.frames.length] }

/-- The body of the loop of `feed`: the sample with coordinate `coordinate`. -/
def feedSample (p : Params K) (s : State K) (value : Cpx K) (coordinate : ℕ) : State K :=
  let s := if s.pending = 0 then { s with frameFirst := coordinate } else s
  let s := if 127 / 128 ≤ |value.re| ∨ 127 / 128 ≤ |value.im| then
    { s with frameClipped := s.frameClipped + 1 } else s
  let s := { s with
    fft := Function.update s.fft (reversal s.pending) (value.scale (p.window s.pending))
    pending := s.pending + 1 }
  if s.pending = fftSize then processFrame p { s with pending := 0 } else s

/-- `feed`. A `none` sample has a part that is not finite. -/
def feed (p : Params K) (input : List (Option (Cpx K))) (firstSample : ℕ) (s : State K) :
    Except String (State K) :=
  if s.finished then .error "Spectrum stream already finished"
  else if input = [] then .ok s
  else if 2 ^ 64 - 1 - firstSample < input.length then
    .error "Spectrum sample coordinate overflow"
  else if s.haveOrigin ∧ firstSample ≠ s.nextSample then
    .error "Spectrum sample discontinuity requires gap()"
  else if input.any Option.isNone then .error "Spectrum input must be finite"
  else
    let s := input.reduceOption.zipIdx.foldl
      (fun s (value, i) => feedSample p s value (firstSample + i)) { s with haveOrigin := true }
    .ok { s with nextSample := firstSample + input.length }

/-- `finish`: the last flush. Later calls do nothing. -/
def finish (p : Params K) (s : State K) : State K :=
  if s.finished then s else { flush p s with finished := true }

/-- `gap`: a flush, after which a stream may start anywhere. -/
def gap (p : Params K) (s : State K) : Except String (State K) :=
  if s.finished then .error "Spectrum stream already finished" else .ok (flush p s)

/-- The processor after its constructor. -/
def init : State K :=
  { nextSample := 0
    frameFirst := 0
    discarded := 0
    nextTileId := 1
    nextEventId := 1
    frameClipped := 0
    pending := 0
    haveOrigin := false
    finished := false
    fft := fun _ => 0
    tracks := []
    splitIntervals := []
    tile := .prepare
    frames := []
    flushes := []
    tiles := []
    events := [] }

/-- A call of the processor's interface. -/
inductive Call (K : Type)
  | feed (input : List (Option (Cpx K))) (firstSample : ℕ)
  | gap
  | finish

/-- The state after one call. The calls that throw do so before they change anything. -/
def call (p : Params K) (s : State K) : Call K → State K
  | .feed input firstSample => (feed p input firstSample s).toOption.getD s
  | .gap => (gap p s).toOption.getD s
  | .finish => finish p s

/-- The state after a list of calls. -/
def run (p : Params K) (calls : List (Call K)) (s : State K) : State K := calls.foldl (call p) s

/-! ## What a frame does -/

/-- The records of a list of tracks, with ids from `id` on. -/
def emitted (p : Params K) (quality id : ℕ) (tracks : List (Track K)) :
    List (SpectrumEvent K × Track K) :=
  tracks.zipIdx.map fun t => (t.1.event p (id + t.2) quality, t.1)

variable {p : Params K} {quality id : ℕ} {tracks : List (Track K)} {s : State K}

@[simp] theorem emitted_tracks :
    (emitted p quality id tracks).map Prod.snd = tracks := by
  simp [emitted, Function.comp_def]

theorem emitted_cons {track : Track K} : emitted p quality id (track :: tracks) =
    (track.event p id quality, track) :: emitted p quality (id + 1) tracks := by
  simp only [emitted, List.zipIdx_cons, List.map_cons, Nat.add_zero, List.cons.injEq, true_and,
    Nat.zero_add]
  rw [List.zipIdx_succ, List.map_map]
  refine List.map_congr_left fun t _ => ?_
  simp [Nat.add_comm, Nat.add_left_comm]

theorem mem_emitted {e : SpectrumEvent K × Track K} (h : e ∈ emitted p quality id tracks) :
    e.2 ∈ tracks ∧ ∃ n, e.1 = e.2.event p n quality := by
  obtain ⟨t, ht, rfl⟩ := List.mem_map.mp h
  exact ⟨List.fst_mem_of_mem_zipIdx ht, _, rfl⟩

theorem foldl_emitEvent : tracks.foldl (emitEvent p quality) s =
    { s with
      nextEventId := s.nextEventId + tracks.length
      events := s.events ++ emitted p quality s.nextEventId tracks } := by
  induction tracks generalizing s with
  | nil => simp [emitted]
  | cons t ts ih =>
    rw [List.foldl_cons, ih, emitted_cons]
    simp [emitEvent, Nat.add_assoc, Nat.add_comm 1]

/-- What the association of one frame does to the state. -/
theorem events_spec (frame : Frame K) :
    let a := associate p.bins frame.index frame.first s.splitIntervals s.tracks (frameRuns p frame)
    let cut := a.2.filter (Track.Long p)
    events p frame s =
      { s with
        nextEventId := s.nextEventId + a.1.length + cut.length
        tracks := a.2.filter fun t => ¬ t.Long p
        splitIntervals := cut.map fun t => (t.lastLow, t.lastHigh)
        events := s.events ++ (emitted p 0 s.nextEventId a.1 ++
          emitted p truncated.mask (s.nextEventId + a.1.length) cut) } := by
  intro a cut
  have hcut : ∀ (next : List (Track K)) (s : State K), next.foldl (fun s track =>
      if track.Long p then
        { emitEvent p truncated.mask s track with
          splitIntervals := s.splitIntervals ++ [(track.lastLow, track.lastHigh)] }
      else { s with tracks := s.tracks ++ [track] }) s =
      { s with
        nextEventId := s.nextEventId + (next.filter (Track.Long p)).length
        tracks := s.tracks ++ next.filter fun t => ¬ t.Long p
        splitIntervals := s.splitIntervals ++
          (next.filter (Track.Long p)).map fun t => (t.lastLow, t.lastHigh)
        events := s.events ++
          emitted p truncated.mask s.nextEventId (next.filter (Track.Long p)) } := by
    intro next
    induction next with
    | nil => simp [emitted]
    | cons t ts ih =>
      intro s
      rw [List.foldl_cons, ih]
      by_cases ht : t.Long p
      · simp [ht, emitEvent, emitted_cons, Nat.add_assoc, Nat.add_comm 1]
      · simp [ht]
  show List.foldl _ { List.foldl (emitEvent p 0) s a.1 with tracks := [], splitIntervals := [] } a.2 = _
  rw [foldl_emitEvent, hcut]
  simp [cut, List.append_assoc]

/-- What a flush does to the state. -/
theorem flush_spec :
    let empty := s.tile.frameCount = 0
    flush p s =
      { s with
        nextTileId := if empty then s.nextTileId else s.nextTileId + 1
        tile := if empty then s.tile else .prepare
        tiles := if empty then s.tiles
          else s.tiles ++ [(s.tile.close p s.nextTileId, s.tile.frames)]
        nextEventId := s.nextEventId + s.tracks.length
        tracks := []
        splitIntervals := []
        discarded := s.discarded + s.pending
        pending := 0
        frameClipped := 0
        fft := fun _ => 0
        haveOrigin := false
        flushes := s.flushes ++ [s.frames.length]
        events := s.events ++ emitted p truncated.mask s.nextEventId s.tracks } := by
  intro empty
  rw [flush, foldl_emitEvent]
  by_cases h : s.tile.frameCount = 0
  · simp only [emitTile, empty, if_pos h]
  · simp only [emitTile, empty, if_neg h]

/-- What a complete frame does to the state. -/
theorem processFrame_spec :
    let frame := nextFrame p s
    let a := associate p.bins frame.index frame.first s.splitIntervals s.tracks (frameRuns p frame)
    let cut := a.2.filter (Track.Long p)
    let tile := s.tile.addFrame p frame
    let full := tile.frameCount = p.framesPerTile
    processFrame p s =
      { s with
        fft := transform p.twiddles s.fft
        frameClipped := 0
        frames := s.frames ++ [frame]
        nextEventId := s.nextEventId + a.1.length + cut.length
        tracks := a.2.filter fun t => ¬ t.Long p
        splitIntervals := cut.map fun t => (t.lastLow, t.lastHigh)
        events := s.events ++ (emitted p 0 s.nextEventId a.1 ++
          emitted p truncated.mask (s.nextEventId + a.1.length) cut)
        nextTileId := if full then s.nextTileId + 1 else s.nextTileId
        tile := if full then .prepare else tile
        tiles := if full then s.tiles ++ [(tile.close p s.nextTileId, tile.frames)]
          else s.tiles } := by
  intro frame a cut tile full
  have hcount : tile.frameCount ≠ 0 := Nat.succ_ne_zero _
  have hev := events_spec (p := p) (s := { s with
    fft := transform p.twiddles s.fft
    tile := tile
    frames := s.frames ++ [frame] }) frame
  show (let s' := events p frame { s with
          fft := transform p.twiddles s.fft
          tile := tile
          frames := s.frames ++ [frame] }
        let s' := if s'.tile.frameCount = p.framesPerTile then emitTile p s' else s'
        ({ s' with frameClipped := 0 } : State K)) = _
  rw [hev]
  by_cases hfull : tile.frameCount = p.framesPerTile
  · simp only [emitTile, full, if_pos hfull, hcount, ↓reduceIte]
    rfl
  · simp only [full, if_neg hfull]
    rfl

theorem processFrame_flags : (processFrame p s).haveOrigin = s.haveOrigin ∧
    (processFrame p s).finished = s.finished := by
  rw [processFrame_spec]
  exact ⟨rfl, rfl⟩

/-! ## Runs -/

/-- The state in which the sample `value` has been written to the FFT buffer. -/
def collect (p : Params K) (s : State K) (value : Cpx K) (coordinate : ℕ) : State K :=
  { s with
    frameFirst := if s.pending = 0 then coordinate else s.frameFirst
    frameClipped := if 127 / 128 ≤ |value.re| ∨ 127 / 128 ≤ |value.im| then s.frameClipped + 1
      else s.frameClipped
    fft := Function.update s.fft (reversal s.pending) (value.scale (p.window s.pending)) }

theorem feedSample_eq (value : Cpx K) (coordinate : ℕ) : feedSample p s value coordinate =
    if s.pending + 1 = fftSize then
      processFrame p { collect p s value coordinate with pending := 0 }
    else { collect p s value coordinate with pending := s.pending + 1 } := by
  unfold feedSample collect
  by_cases h0 : s.pending = 0 <;>
    by_cases hc : 127 / 128 ≤ |value.re| ∨ 127 / 128 ≤ |value.im| <;> simp [h0, hc]

/-- A property of the state at a sample coordinate that a run keeps: every sample moves it to the
next coordinate, a flush moves it to every coordinate, and it says nothing about the fields that
only `feed` and `finish` read. -/
structure Kept (p : Params K) (P : ℕ → State K → Prop) : Prop where
  sample : ∀ c s v, P c s → P (c + 1) (feedSample p s v c)
  flush : ∀ c c' s, P c s → P c' (flush p s)
  frame : ∀ c s n h f, P c s → P c { s with nextSample := n, haveOrigin := h, finished := f }

/-- A property that a run keeps as long as its samples satisfy `V`. -/
structure KeptOn (V : Cpx K → Prop) (p : Params K) (P : ℕ → State K → Prop) : Prop where
  sample : ∀ c s v, V v → P c s → P (c + 1) (feedSample p s v c)
  flush : ∀ c c' s, P c s → P c' (flush p s)
  frame : ∀ c s n h f, P c s → P c { s with nextSample := n, haveOrigin := h, finished := f }

/-- The samples that a call feeds satisfy `V`. -/
def Call.On (V : Cpx K → Prop) : Call K → Prop
  | .feed input _ => ∀ v, some v ∈ input → V v
  | _ => True

/-- `P` holds where the stream stands, which is anywhere when it has no origin. -/
def Stands (P : ℕ → State K → Prop) (s : State K) : Prop :=
  if s.haveOrigin then P s.nextSample s else ∀ c, P c s

variable {P : ℕ → State K → Prop} {V : Cpx K → Prop}

theorem Kept.on (h : Kept p P) : KeptOn V p P := ⟨fun c s v _ => h.sample c s v, h.flush, h.frame⟩

omit [Field K] [LinearOrder K] in
theorem Stands.exists (h : Stands P s) : ∃ c, P c s := by
  unfold Stands at h
  split at h
  · exact ⟨_, h⟩
  · exact ⟨0, h 0⟩

/-- Feeding samples one by one moves the coordinate by their number. -/
theorem feedSamples_induction (values : List (Cpx K))
    (h : ∀ c s, ∀ v ∈ values, P c s → P (c + 1) (feedSample p s v c)) {c : ℕ} (hs : P c s) :
    P (c + values.length)
      (values.zipIdx.foldl (fun s v => feedSample p s v.1 (c + v.2)) s) := by
  suffices haux : ∀ n, P (c + n) s → P (c + n + values.length)
      ((values.zipIdx n).foldl (fun s v => feedSample p s v.1 (c + v.2)) s) from haux 0 hs
  clear hs
  intro n hn
  induction values generalizing n s with
  | nil => exact hn
  | cons v vs ih =>
    have := ih (fun c s v hv => h c s v (List.mem_cons_of_mem _ hv)) (n + 1)
      (h _ _ v List.mem_cons_self hn)
    rw [List.zipIdx_cons, List.foldl_cons, List.length_cons,
      show c + n + (vs.length + 1) = c + (n + 1) + vs.length by omega]
    exact this

theorem foldl_feedSample_flags (values : List (Cpx K)) (c : ℕ) :
    (values.zipIdx.foldl (fun s v => feedSample p s v.1 (c + v.2)) s).haveOrigin =
        s.haveOrigin ∧
      (values.zipIdx.foldl (fun s v => feedSample p s v.1 (c + v.2)) s).finished =
        s.finished := by
  have h : ∀ (s : State K) (v : Cpx K × ℕ), (feedSample p s v.1 (c + v.2)).haveOrigin =
      s.haveOrigin ∧ (feedSample p s v.1 (c + v.2)).finished = s.finished := fun s v => by
    rw [feedSample_eq]
    split
    · exact processFrame_flags
    · exact ⟨rfl, rfl⟩
  exact ⟨Fold.foldl_eq (φ := State.haveOrigin) (fun s v => (h s v).1) _ s,
    Fold.foldl_eq (φ := State.finished) (fun s v => (h s v).2) _ s⟩

private theorem map_some_reduceOption {α : Type} {xs : List (Option α)}
    (h : none ∉ xs) : xs.reduceOption.map some = xs := by
  induction xs with
  | nil => rfl
  | cons x xs ih =>
    cases x with
    | none => exact absurd List.mem_cons_self h
    | some v => rw [List.reduceOption_cons_of_some, List.map_cons, ih fun hx => h (by simp [hx])]

/-- A call of `feed` that returns starts where the stream stands and feeds every sample. -/
theorem feed_ok {input : List (Option (Cpx K))} {first : ℕ} {s' : State K}
    (h : feed p input first s = .ok s') :
    s' = s ∧ input = [] ∨ s.finished = false ∧ (s.haveOrigin = true → first = s.nextSample) ∧
      ∃ values : List (Cpx K), input = values.map some ∧
        s' = { values.zipIdx.foldl (fun s v => feedSample p s v.1 (first + v.2))
            { s with haveOrigin := true } with nextSample := first + input.length } := by
  unfold feed at h
  split at h
  · cases h
  rename_i hfin
  split at h
  · cases h
    exact .inl ⟨rfl, ‹_›⟩
  split at h
  · cases h
  split at h
  · cases h
  rename_i horigin
  split at h
  · cases h
  rename_i hfinite
  refine .inr ⟨by simpa using hfin, fun ho => by_contra fun hne => horigin ⟨ho, hne⟩,
    input.reduceOption, (map_some_reduceOption (by simpa using hfinite)).symm, ?_⟩
  cases h
  rfl

/-- A call of `feed` keeps what every one of its samples keeps. -/
theorem feed_stands (hsample : ∀ c s v, V v → P c s → P (c + 1) (feedSample p s v c))
    (hframe : ∀ c s n h f, P c s → P c { s with nextSample := n, haveOrigin := h, finished := f })
    (hs : Stands P s) {input : List (Option (Cpx K))} {first : ℕ}
    (hV : Call.On V (.feed input first)) : Stands P (call p s (.feed input first)) := by
  show Stands P ((feed p input first s).toOption.getD s)
  cases hf : feed p input first s with
  | error e => exact hs
  | ok s' =>
    obtain ⟨rfl, -⟩ | ⟨-, horigin, values, rfl, rfl⟩ := feed_ok hf
    · exact hs
    have hP : P first s := by
      unfold Stands at hs
      split at hs <;> rename_i ho
      · rw [horigin ho]
        exact hs
      · exact hs first
    have hfed := feedSamples_induction values
      (fun c s v hv => hsample c s v (hV v (List.mem_map_of_mem hv)))
      (hframe _ _ s.nextSample true s.finished hP)
    have ho := (foldl_feedSample_flags (p := p) values first
      (s := { s with haveOrigin := true })).1
    simp only [Stands, ho, List.length_map]
    exact hframe _ _ _ _ _ hfed

theorem KeptOn.call (h : KeptOn V p P) (hs : Stands P s) {c : Call K} (hc : c.On V) :
    Stands P (call p s c) := by
  have hflush : Stands P (SpectrumProcessor.flush p s) := by
    obtain ⟨c, hc⟩ := hs.exists
    rw [Stands, if_neg (by simp [SpectrumProcessor.flush])]
    exact fun c' => h.flush c c' s hc
  cases c with
  | feed input first => exact feed_stands h.sample h.frame hs hc
  | gap =>
    show Stands P ((gap p s).toOption.getD s)
    unfold gap
    split
    · exact hs
    · exact hflush
  | finish =>
    show Stands P (finish p s)
    unfold finish
    split
    · exact hs
    · unfold Stands at hflush ⊢
      split <;> rename_i ho
      · rw [if_pos ho] at hflush
        exact h.frame _ _ _ _ _ hflush
      · rw [if_neg ho] at hflush
        exact fun c => h.frame _ _ _ _ _ (hflush c)

/-- What every sample with `V` and every flush keep holds after every list of calls with `V`. -/
theorem run_induction_on (h : KeptOn V p P) (hs : Stands P s) {calls : List (Call K)}
    (hcalls : ∀ c ∈ calls, c.On V) : Stands P (run p calls s) := by
  induction calls generalizing s with
  | nil => exact hs
  | cons c cs ih =>
    exact ih (h.call hs (hcalls c List.mem_cons_self)) fun c hc => hcalls c (List.mem_cons_of_mem _ hc)

/-- What every sample and flush keeps holds after every list of calls. -/
theorem run_induction (h : Kept p P) (hs : Stands P s) (calls : List (Call K)) :
    Stands P (run p calls s) := by
  refine run_induction_on (V := fun _ => True) h.on hs fun c _ => ?_
  cases c <;> simp [Call.On]

/-- What every sample and flush keeps holds behind every list of calls from the start. -/
theorem run_exists (h : Kept p P) (hinit : ∀ c, P c init) (calls : List (Call K)) :
    ∃ c, P c (run p calls init) :=
  (run_induction (s := init) h hinit calls).exists

/-! ## Where the stream stands -/

/-- At the coordinate `c` of the next sample: the buffered samples, the tracks and the open tile
reach up to `c`. -/
structure At (c : ℕ) (s : State K) : Prop where
  pending_lt : s.pending < fftSize
  frameFirst_eq : s.pending ≠ 0 → s.frameFirst + s.pending = c
  tracks_length : s.tracks.length ≤ maxTracks
  tracks_end : ∀ t ∈ s.tracks, t.end_ + s.pending = c
  tile_end : s.tile.frameCount ≠ 0 → s.tile.endSample + s.pending = c

theorem frameRuns_length_le {frame : Frame K} : (frameRuns p frame).length ≤ maxTracks :=
  groupRuns_length_le

/-- The sample that completes a frame is the last of its `fft_size` samples. -/
theorem At.collect {c : ℕ} (h : At c s) (v : Cpx K) (hfull : s.pending + 1 = fftSize) :
    (collect p s v c).frameFirst + fftSize = c + 1 := by
  have hne : s.pending ≠ 0 := by simp only [fftSize] at hfull; omega
  have := h.frameFirst_eq hne
  simp only [SpectrumProcessor.collect, if_neg hne]
  omega

theorem at_kept : Kept p (At (K := K)) where
  sample c s v h := by
    rw [feedSample_eq]
    split <;> rename_i hfull
    · have hlast := h.collect (p := p) v hfull
      rw [processFrame_spec]
      refine ⟨by simp [fftSize], fun hne => absurd rfl hne, ?_, fun t ht => ?_, fun ht => ?_⟩
      · exact (List.length_filter_le _ _).trans
          (associate_next_length_le h.tracks_length frameRuns_length_le)
      · obtain ⟨old, new, -, -, -, rfl⟩ := mem_associate_next h.tracks_length frameRuns_length_le
          (List.mem_of_mem_filter ht)
        exact (congrArg (· + 0) (combined _ _ _ _ old new).end_eq).trans hlast
      · dsimp only at ht ⊢
        split at ht <;> rename_i hc
        · exact absurd rfl ht
        · rw [if_neg hc]
          exact hlast
    · have hlt := h.pending_lt
      refine ⟨by dsimp only; omega, fun _ => ?_, h.tracks_length, fun t ht => ?_, fun ht => ?_⟩
      · dsimp only [SpectrumProcessor.collect]
        split <;> rename_i h0
        · omega
        · have := h.frameFirst_eq h0
          omega
      · have := h.tracks_end t ht
        dsimp only
        omega
      · have := h.tile_end ht
        dsimp only
        exact (Nat.add_assoc _ _ _).symm.trans (congrArg (· + 1) this)
  flush c c' s h := by
    rw [flush_spec]
    refine ⟨by simp [fftSize], fun hne => absurd rfl hne, Nat.zero_le _, by simp, fun ht => ?_⟩
    dsimp only at ht
    split at ht <;> rename_i h0
    · exact absurd h0 ht
    · exact absurd rfl ht
  frame c s n h f hs :=
    ⟨hs.pending_lt, hs.frameFirst_eq, hs.tracks_length, hs.tracks_end, hs.tile_end⟩

omit [LinearOrder K] in
theorem at_init (c : ℕ) : At c (init : State K) :=
  ⟨by simp [init, fftSize], fun h => absurd rfl h, Nat.zero_le _, by simp [init],
    fun h => absurd rfl h⟩

/-! ## After a flush -/

/-- What every flush leaves holds of a finished stream: `finish` flushed it, and `feed` throws from
then on. -/
theorem call_finished {Q : State K → Prop} (hflush : ∀ s f, Q { flush p s with finished := f })
    (hs : s.finished = true → Q s) (c : Call K) :
    (call p s c).finished = true → Q (call p s c) := by
  cases c with
  | feed input first =>
    show ((feed p input first s).toOption.getD s).finished = true → _
    cases hf : feed p input first s with
    | error e =>
      have hcall : call p s (.feed input first) = s := by simp [call, hf, Except.toOption]
      rw [hcall]
      exact hs
    | ok s' =>
      have hcall : call p s (.feed input first) = s' := by simp [call, hf, Except.toOption]
      rw [hcall]
      obtain ⟨rfl, -⟩ | ⟨hfin, -, values, rfl, rfl⟩ := feed_ok hf
      · exact hs
      · have h := (foldl_feedSample_flags (p := p) values first
          (s := { s with haveOrigin := true })).2
        intro h'
        exact absurd (h.symm.trans h') (by simp [hfin])
  | gap =>
    show ((gap p s).toOption.getD s).finished = true → Q ((gap p s).toOption.getD s)
    unfold gap
    split
    · exact hs
    · exact fun _ => hflush s (flush p s).finished
  | finish =>
    show (finish p s).finished = true → Q (finish p s)
    unfold finish
    split
    · exact hs
    · exact fun _ => hflush s true

/-- What every flush leaves holds after a `gap` or a `finish`. -/
theorem run_flush {Q : State K → Prop} (hflush : ∀ s f, Q { flush p s with finished := f })
    (calls : List (Call K)) {c : Call K} (hc : c = .gap ∨ c = .finish) :
    Q (call p (run p calls init) c) := by
  have hfinished : ∀ s : State K, (s.finished = true → Q s) →
      (run p calls s).finished = true → Q (run p calls s) := by
    induction calls with
    | nil => exact fun _ h => h
    | cons c cs ih => exact fun s hs => ih (call p s c) (call_finished hflush hs c)
  have hrun := hfinished init fun h => by simp [init] at h
  rcases hc with rfl | rfl
  · show Q ((gap p _).toOption.getD _)
    unfold gap
    split <;> rename_i h
    · exact hrun h
    · exact hflush _ (flush p _).finished
  · show Q (finish p _)
    unfold finish
    split <;> rename_i h
    · exact hrun h
    · exact hflush _ true

/-- After a `gap` or a `finish` no track is live and no tile is open. -/
theorem run_flushed (calls : List (Call K)) {c : Call K} (hc : c = .gap ∨ c = .finish) :
    (call p (run p calls init) c).tracks = [] ∧
      (call p (run p calls init) c).tile.frameCount = 0 := by
  refine run_flush (Q := fun s => s.tracks = [] ∧ s.tile.frameCount = 0) (fun s f => ?_) calls hc
  rw [flush_spec]
  refine ⟨rfl, ?_⟩
  dsimp only
  split <;> rename_i h
  · exact h
  · rfl

/-! ## A whole frame -/

/-- Finite samples at the coordinate where the stream stands are accepted. -/
theorem feed_some {values : List (Cpx K)} {c : ℕ} (hne : values ≠ []) (hf : s.finished = false)
    (ho : s.haveOrigin = true → c = s.nextSample) (hc : values.length ≤ 2 ^ 64 - 1 - c) :
    feed p (values.map some) c s =
      .ok { values.zipIdx.foldl (fun s v => feedSample p s v.1 (c + v.2))
        { s with haveOrigin := true } with nextSample := c + values.length } := by
  have hvalues : (values.map some).reduceOption = values := by
    simp [List.reduceOption, List.filterMap_map]
  rw [feed, if_neg (by simp [hf]), if_neg (by simpa using hne), if_neg (by simpa using hc),
    if_neg (fun h => h.2 (ho h.1)), if_neg (by simp), hvalues, List.length_map]

/-- The FFT buffer after the samples `values` of a frame. -/
def buffer (p : Params K) (values : List (Cpx K)) (fft : ℕ → Cpx K) : ℕ → Cpx K :=
  values.zipIdx.foldl (fun fft v =>
    Function.update fft (reversal v.2) (v.1.scale (p.window v.2))) fft

/-- `feed` counts this sample as clipped. -/
def Clips (v : Cpx K) : Prop := 127 / 128 ≤ |v.re| ∨ 127 / 128 ≤ |v.im|

instance (v : Cpx K) : Decidable (Clips v) := inferInstanceAs (Decidable (_ ∨ _))

omit [LinearOrder K] in
theorem buffer_append (values : List (Cpx K)) (v : Cpx K) (fft : ℕ → Cpx K) :
    buffer p (values ++ [v]) fft = Function.update (buffer p values fft)
      (reversal values.length) (v.scale (p.window values.length)) := by
  simp [buffer, List.zipIdx_append]

/-- Fewer samples than a frame are collected. -/
theorem feedSamples_partial (values : List (Cpx K)) (c : ℕ) (hp : s.pending = 0)
    (hlen : values.length < fftSize) :
    values.zipIdx.foldl (fun s v => feedSample p s v.1 (c + v.2)) s =
      { s with
        frameFirst := if values = [] then s.frameFirst else c
        frameClipped := s.frameClipped + values.countP fun v => Clips v
        pending := values.length
        fft := buffer p values s.fft } := by
  induction values using List.reverseRecOn with
  | nil =>
    show s = { s with pending := 0 }
    rw [← hp]
  | append_singleton vs v ih =>
    rw [List.length_append, List.length_singleton] at hlen
    have hfull : vs.length + 1 ≠ fftSize := by omega
    rw [List.zipIdx_append, List.foldl_append, ih (by omega)]
    simp only [List.zipIdx_cons, List.zipIdx_nil, List.foldl_cons, List.foldl_nil, Nat.zero_add,
      feedSample_eq, if_neg hfull, collect, buffer_append, List.countP_append, List.countP_singleton]
    by_cases hv : Clips v <;> cases vs <;>
      simp [hv, Nat.add_assoc, show (127 / 128 ≤ |v.re| ∨ 127 / 128 ≤ |v.im|) = Clips v from rfl]

/-- A whole frame of samples is measured. -/
theorem feedSamples_frame (values : List (Cpx K)) (c : ℕ) (hp : s.pending = 0)
    (hlen : values.length = fftSize) :
    values.zipIdx.foldl (fun s v => feedSample p s v.1 (c + v.2)) s =
      processFrame p { s with
        frameFirst := c
        frameClipped := s.frameClipped + values.countP fun v => Clips v
        pending := 0
        fft := buffer p values s.fft } := by
  obtain ⟨vs, v, rfl⟩ : ∃ vs v, values = vs ++ [v] := by
    rcases List.eq_nil_or_concat values with rfl | ⟨vs, v, rfl⟩
    · simp [fftSize] at hlen
    · exact ⟨vs, v, List.concat_eq_append⟩
  rw [List.length_append, List.length_singleton] at hlen
  have hne : vs ≠ [] := fun h => by simp [h, fftSize] at hlen
  rw [List.zipIdx_append, List.foldl_append, feedSamples_partial vs c hp (by omega)]
  simp only [List.zipIdx_cons, List.zipIdx_nil, List.foldl_cons, List.foldl_nil, Nat.zero_add,
    feedSample_eq, if_pos hlen, collect, buffer_append, List.countP_append, List.countP_singleton]
  have hlen0 : vs.length ≠ 0 := fun h => hne (List.length_eq_zero_iff.mp h)
  by_cases hv : Clips v <;>
    simp [hv, hne, Nat.add_assoc, show (127 / 128 ≤ |v.re| ∨ 127 / 128 ≤ |v.im|) = Clips v from rfl]

omit [LinearOrder K] in
/-- The buffer of a frame holds its windowed samples in bit-reversed order. -/
theorem buffer_reversal (values : List (Cpx K)) (fft : ℕ → Cpx K) (hlen : values.length ≤ fftSize)
    {j : ℕ} {v : Cpx K} (hj : values[j]? = some v) :
    buffer p values fft (reversal j) = v.scale (p.window j) := by
  induction values using List.reverseRecOn with
  | nil => simp at hj
  | append_singleton vs w ih =>
    rw [List.length_append, List.length_singleton] at hlen
    rw [buffer_append]
    rcases Nat.lt_trichotomy j vs.length with hlt | rfl | hgt
    · rw [List.getElem?_append_left hlt] at hj
      have hne : reversal j ≠ reversal vs.length := fun h => by
        have h₁ := (reversal_reversal (i := j) (by omega)).2
        rw [h, (reversal_reversal (by omega)).2] at h₁
        omega
      rw [Function.update_of_ne hne, ih (by omega) hj]
    · rw [List.getElem?_append_right (le_refl _), Nat.sub_self, List.getElem?_cons_zero,
        Option.some.injEq] at hj
      rw [Function.update_self, hj]
    · rw [List.getElem?_eq_none (by simp; omega)] at hj
      cases hj

end SpectrumProcessor

end OVMesh
