import OVMesh.Spectrum.Conservation

/-!
# The segment limit

A track that reaches `segment_samples` is cut: its event is marked as truncated, and so is every
track of the next frame that touches its last interval.

* `LastFrame t i`: the frame `i` is the last one with a run of the track.
* `Segmented`: live tracks are shorter than the limit and end at the last frame, and both sides of
  every cut are marked.
* `segments_marked`: the result for every list of calls.
-/

namespace OVMesh

namespace SpectrumProcessor

open SurveyQuality

variable {K : Type} [Field K] [LinearOrder K] {p : Params K} {s : State K}

/-- The frame `i` is the last one with a run of the track. -/
structure LastFrame (t : Track K) (i : ℕ) : Prop where
  mem : ∃ r, (i, r) ∈ t.runs
  le : ∀ x ∈ t.runs, x.1 ≤ i

/-- The span of a track in samples: whole frames, and at least one. -/
structure Track.Spans (t : Track K) : Prop where
  lt : t.first < t.end_
  dvd : fftSize ∣ t.end_ - t.first

/-- Both sides of the cut of `t` are marked: a run of the frame after the last one of `t` that
touches the last interval of `t` marks its track `u`. -/
def MarksNext (flushes : List ℕ) (t u : Track K) : Prop :=
  t.Long p → ∀ i, LastFrame t i → i + 1 ∉ flushes → ∀ r, (i + 1, r) ∈ u.runs →
    touches t.lastLow t.lastHigh r.low r.high → HasFlag u.quality .truncated

/-- The state at the segment limit. -/
structure Segmented (p : Params K) (s : State K) : Prop where
  described : ∀ e ∈ s.events, ∃ id quality, e.1 = e.2.event p id quality
  live_spans : ∀ t ∈ s.tracks, t.Spans
  live_short : ∀ t ∈ s.tracks, ¬ t.Long p
  live_last : ∀ t ∈ s.tracks, ∃ i, LastFrame t i ∧ i + 1 = s.frames.length
  runs_lt : ∀ t ∈ s.allTracks, ∀ x ∈ t.runs, x.1 < s.frames.length
  events_span : ∀ e ∈ s.events, e.2.Spans
  events_le : ∀ e ∈ s.events, e.2.end_ - e.2.first ≤ p.segmentSamples
  events_cut : ∀ e ∈ s.events, e.2.Long p → HasFlag e.1.quality .truncated
  splits : ∀ e ∈ s.events, e.2.Long p → ∀ i, LastFrame e.2 i → i + 1 = s.frames.length →
    i + 1 ∉ s.flushes → (e.2.lastLow, e.2.lastHigh) ∈ s.splitIntervals
  marks : ∀ e ∈ s.events, ∀ u ∈ s.allTracks, MarksNext (p := p) s.flushes e.2 u

/-! ## The tracks of a new frame -/

variable {bins index first : ℕ} {splits : List (ℕ × ℕ)} {old : List (Track K)} {new : List (Run K)}
  {t : Track K}

omit [LinearOrder K] in
/-- The first sample of a group is that of the frame or of one of its tracks. -/
theorem Combined.first_eq (h : Combined bins first splits old new t) :
    t.first = first ∨ ∃ o ∈ old, t.first = o.first := by
  by_contra hne
  rw [not_or, not_exists] at hne
  have hle := (h.le_first t.first).mp (le_refl _)
  have hlt : t.first + 1 ≤ t.first := (h.le_first _).mpr
    ⟨by have := hle.1; omega, fun o ho => by
      have h₁ := hle.2 o ho
      have h₂ : t.first ≠ o.first := fun he => hne.2 o ⟨ho, he⟩
      omega⟩
  omega

omit [LinearOrder K] in
theorem Combined.spans (h : Combined bins first splits old new t)
    (ho : ∀ o ∈ old, o.Spans ∧ o.end_ = first) : t.Spans := by
  have hle := (h.le_first t.first).mp (le_refl _)
  have hend := h.end_eq
  have hpos : 0 < fftSize := by decide
  refine ⟨by omega, ?_⟩
  rcases h.first_eq with heq | ⟨o, hm, heq⟩
  · rw [hend, heq, Nat.add_sub_cancel_left]
  · obtain ⟨hspan, hoe⟩ := ho o hm
    have := hspan.lt
    rw [hend, heq, ← hoe, show o.end_ + fftSize - o.first = (o.end_ - o.first) + fftSize by omega]
    exact Nat.dvd_add hspan.dvd (dvd_refl _)

omit [LinearOrder K] in
/-- A group of tracks below the limit is at most as long as the limit. -/
theorem Combined.length_le (h : Combined bins first splits old new t)
    (ho : ∀ o ∈ old, o.Spans ∧ o.end_ = first ∧ ¬ o.Long p) :
    t.end_ - t.first ≤ p.segmentSamples := by
  have hend := h.end_eq
  have hseg := p.segment_pos
  have hdvd := p.segment_dvd
  have hle : fftSize ≤ p.segmentSamples := Nat.le_of_dvd hseg hdvd
  have hfirst : first + fftSize - p.segmentSamples ≤ t.first := by
    refine (h.le_first _).mpr ⟨by omega, fun o hm => ?_⟩
    obtain ⟨hspan, hoe, hshort⟩ := ho o hm
    -- Both lengths are whole frames, so a track below the limit leaves room for one more.
    have hroom : o.end_ - o.first + fftSize ≤ p.segmentSamples := by
      obtain ⟨a, ha⟩ := hspan.dvd
      obtain ⟨b, hb⟩ := hdvd
      simp only [Track.Long, ha, hb, not_le] at hshort
      have hab := Nat.lt_of_mul_lt_mul_left hshort
      rw [ha, hb]
      calc fftSize * a + fftSize = fftSize * (a + 1) := (Nat.mul_succ _ _).symm
        _ ≤ fftSize * b := Nat.mul_le_mul_left _ hab
    omega
  omega

theorem combine_lastFrame (ho : ∀ o ∈ old, ∀ x ∈ o.runs, x.1 < index) (hn : new ≠ []) :
    LastFrame (.combine bins index first splits old new) index := by
  refine ⟨?_, fun x hx => ?_⟩
  · obtain ⟨r, hr⟩ := List.exists_mem_of_ne_nil _ hn
    refine ⟨r, ?_⟩
    rw [combine_runs]
    exact List.mem_append_right _ (List.mem_map_of_mem hr)
  · rw [combine_runs] at hx
    rcases List.mem_append.mp hx with hx | hx
    · obtain ⟨o, hm, hx⟩ := List.mem_flatMap.mp hx
      exact Nat.le_of_lt (ho o hm x hx)
    · obtain ⟨r, -, rfl⟩ := List.mem_map.mp hx
      exact le_refl _

/-! ## Frames and flushes -/

/-- The events that a frame emits: the tracks that ended, and the cut ones. -/
theorem mem_processFrame_events (hs : s.tracks.length ≤ maxTracks)
    {e : SpectrumEvent K × Track K} (he : e ∈ (processFrame p s).events) :
    e ∈ s.events ∨ (∃ id, e.1 = e.2.event p id 0) ∧ e.2 ∈ s.tracks ∨
      (∃ id, e.1 = e.2.event p id truncated.mask) ∧ e.2.Long p ∧
        (e.2.lastLow, e.2.lastHigh) ∈ (processFrame p s).splitIntervals ∧
        ∃ old new, (∀ o ∈ old, o ∈ s.tracks) ∧ new ≠ [] ∧
          e.2 = .combine p.bins s.frames.length s.frameFirst s.splitIntervals old new := by
  rw [processFrame_spec] at he ⊢
  rcases List.mem_append.mp he with he | he
  · exact .inl he
  rcases List.mem_append.mp he with he | he
  · obtain ⟨hmem, hid⟩ := mem_emitted he
    exact .inr (.inl ⟨hid, mem_associate_ended hs frameRuns_length_le hmem⟩)
  · obtain ⟨hmem, hid⟩ := mem_emitted he
    have hlong : e.2.Long p := by simpa using (List.mem_filter.mp hmem).2
    obtain ⟨old, new, ho, -, hn, heq⟩ := mem_associate_next hs frameRuns_length_le
      (List.mem_of_mem_filter hmem)
    exact .inr (.inr ⟨hid, hlong, List.mem_map.mpr ⟨e.2, hmem, rfl⟩, old, new, ho, hn, heq⟩)

/-- The tracks after a frame: those from before, or a group of the frame. -/
theorem mem_processFrame_allTracks (hs : s.tracks.length ≤ maxTracks) {t : Track K}
    (ht : t ∈ (processFrame p s).allTracks) : t ∈ s.allTracks ∨
      ∃ old new, (∀ o ∈ old, o ∈ s.tracks) ∧ new ≠ [] ∧
        t = .combine p.bins s.frames.length s.frameFirst s.splitIntervals old new := by
  have ht := processFrame_allTracks.mem_iff.mp ht
  rcases List.mem_append.mp ht with ht | ht
  · exact .inl (List.mem_append_left _ ht)
  rcases List.mem_append.mp ht with ht | ht
  · exact .inl (List.mem_append_right _ (mem_associate_ended hs frameRuns_length_le ht))
  · obtain ⟨old, new, ho, -, hn, heq⟩ := mem_associate_next hs frameRuns_length_le ht
    exact .inr ⟨old, new, ho, hn, heq⟩

theorem processFrame_frames : (processFrame p s).frames.length = s.frames.length + 1 ∧
    (processFrame p s).flushes = s.flushes := by
  rw [processFrame_spec]
  exact ⟨by simp, rfl⟩

theorem Segmented.processFrame (h : Segmented p s) (hs : s.tracks.length ≤ maxTracks)
    (hend : ∀ t ∈ s.tracks, t.end_ = s.frameFirst) : Segmented p (processFrame p s) := by
  have hlive : ∀ t ∈ s.tracks, t ∈ s.allTracks := fun t ht => List.mem_append_right _ ht
  have hlt : ∀ {old : List (Track K)}, (∀ o ∈ old, o ∈ s.tracks) →
      ∀ o ∈ old, ∀ x ∈ o.runs, x.1 < s.frames.length := fun ho o hm =>
    h.runs_lt o (hlive o (ho o hm))
  have hcomb := combined (K := K) p.bins s.frames.length s.frameFirst s.splitIntervals
  have hspans : ∀ {old : List (Track K)}, (∀ o ∈ old, o ∈ s.tracks) →
      ∀ o ∈ old, o.Spans ∧ o.end_ = s.frameFirst ∧ ¬ o.Long p := fun ho o hm =>
    ⟨h.live_spans o (ho o hm), hend o (ho o hm), h.live_short o (ho o hm)⟩
  obtain ⟨hframes, hflushes⟩ := processFrame_frames (p := p) (s := s)
  have hnext : ∀ t ∈ (SpectrumProcessor.processFrame p s).tracks, ¬ t.Long p ∧
      ∃ old new, (∀ o ∈ old, o ∈ s.tracks) ∧ new ≠ [] ∧
        t = .combine p.bins s.frames.length s.frameFirst s.splitIntervals old new := by
    intro t ht
    rw [processFrame_spec] at ht
    obtain ⟨old, new, ho, -, hn, heq⟩ := mem_associate_next hs frameRuns_length_le
      (List.mem_of_mem_filter ht)
    exact ⟨by simpa using (List.mem_filter.mp ht).2, old, new, ho, hn, heq⟩
  constructor
  case described =>
    intro e he
    rcases mem_processFrame_events hs he with he | ⟨⟨id, he⟩, -⟩ | ⟨⟨id, he⟩, -⟩
    · exact h.described e he
    · exact ⟨id, 0, he⟩
    · exact ⟨id, _, he⟩
  case live_spans =>
    intro t ht
    obtain ⟨-, old, new, ho, -, rfl⟩ := hnext t ht
    exact (hcomb old new).spans fun o hm => ⟨(hspans ho o hm).1, (hspans ho o hm).2.1⟩
  case live_short => exact fun t ht => (hnext t ht).1
  case live_last =>
    intro t ht
    obtain ⟨-, old, new, ho, hn, rfl⟩ := hnext t ht
    exact ⟨s.frames.length, combine_lastFrame (hlt ho) hn, hframes.symm⟩
  case runs_lt =>
    intro t ht x hx
    rw [hframes]
    rcases mem_processFrame_allTracks hs ht with ht | ⟨old, new, ho, hn, rfl⟩
    · exact Nat.lt_succ_of_lt (h.runs_lt t ht x hx)
    · exact Nat.lt_succ_of_le ((combine_lastFrame (hlt ho) hn).le x hx)
  case events_span =>
    intro e he
    rcases mem_processFrame_events hs he with he | ⟨-, he⟩ | ⟨-, -, -, old, new, ho, -, heq⟩
    · exact h.events_span e he
    · exact h.live_spans e.2 he
    · rw [heq]
      exact (hcomb old new).spans fun o hm => ⟨(hspans ho o hm).1, (hspans ho o hm).2.1⟩
  case events_le =>
    intro e he
    rcases mem_processFrame_events hs he with he | ⟨-, he⟩ | ⟨-, -, -, old, new, ho, -, heq⟩
    · exact h.events_le e he
    · exact Nat.le_of_not_le (h.live_short e.2 he)
    · rw [heq]
      exact (hcomb old new).length_le (hspans ho)
  case events_cut =>
    intro e he hlong
    rcases mem_processFrame_events hs he with he | ⟨-, he⟩ | ⟨⟨id, heq⟩, -⟩
    · exact h.events_cut e he hlong
    · exact absurd hlong (h.live_short e.2 he)
    · rw [heq]
      simp [Track.event]
  case splits =>
    intro e he hlong i hi hlast _
    rw [hframes] at hlast
    rcases mem_processFrame_events hs he with he | ⟨-, he⟩ | ⟨-, -, hsplit, -⟩
    · obtain ⟨r, hr⟩ := hi.mem
      have := h.runs_lt e.2 (List.mem_append_left _ (List.mem_map_of_mem he)) _ hr
      simp only at this
      omega
    · exact absurd hlong (h.live_short e.2 he)
    · exact hsplit
  case marks =>
    intro e he u hu hlong i hi hflush r hr htouch
    rw [hflushes] at hflush
    rcases mem_processFrame_events hs he with he | ⟨-, he⟩ | ⟨-, -, -, old, new, ho, hn, heq⟩
    · rcases mem_processFrame_allTracks hs hu with hu | ⟨old, new, ho, -, rfl⟩
      · exact h.marks e he u hu hlong i hi hflush r hr htouch
      · -- The run is one of an old track, which is marked, or touches the cut in this frame.
        rw [(hcomb old new).hasFlag]
        rw [combine_runs] at hr
        rcases List.mem_append.mp hr with hr | hr
        · obtain ⟨o, hm, hr⟩ := List.mem_flatMap.mp hr
          have := h.marks e he o (hlive o (ho o hm)) hlong i hi hflush r hr htouch
          exact .inl (.inl (.inr ⟨o, hm, this⟩))
        · obtain ⟨r', hr', heq⟩ := List.mem_map.mp hr
          obtain ⟨hidx, rfl⟩ := Prod.mk.inj heq
          have := h.splits e he hlong i hi hidx.symm hflush
          exact .inl (.inr ⟨r', hr', .inr ⟨rfl, _, this, htouch⟩⟩)
    · exact absurd hlong (h.live_short e.2 he)
    · -- A cut of this frame has no next frame yet.
      have hlast : LastFrame e.2 s.frames.length := by
        rw [heq]
        exact combine_lastFrame (hlt ho) hn
      obtain ⟨r₀, hr₀⟩ := hlast.mem
      have hle := hi.le _ hr₀
      have hlt' : i + 1 < s.frames.length + 1 := by
        rcases mem_processFrame_allTracks hs hu with hu | ⟨old', new', ho', hn', rfl⟩
        · exact Nat.lt_succ_of_lt (h.runs_lt u hu _ hr)
        · exact Nat.lt_succ_of_le ((combine_lastFrame (hlt ho') hn').le _ hr)
      simp only at hle
      omega

theorem Segmented.flush (h : Segmented p s) : Segmented p (flush p s) := by
  have hall := flush_allTracks (p := p) (s := s)
  have hevents : ∀ e ∈ (SpectrumProcessor.flush p s).events, e ∈ s.events ∨
      e.2 ∈ s.tracks ∧ ∃ id, e.1 = e.2.event p id truncated.mask := by
    intro e he
    rw [flush_spec] at he
    rcases List.mem_append.mp he with he | he
    · exact .inl he
    · exact .inr (mem_emitted he)
  have hframes : (SpectrumProcessor.flush p s).frames = s.frames := by rw [flush_spec]
  have hflushes : (SpectrumProcessor.flush p s).flushes = s.flushes ++ [s.frames.length] := by
    rw [flush_spec]
  have htracks : (SpectrumProcessor.flush p s).tracks = [] := by rw [flush_spec]
  constructor
  case described =>
    intro e he
    rcases hevents e he with he | ⟨-, id, he⟩
    · exact h.described e he
    · exact ⟨id, _, he⟩
  case live_spans => simp [htracks]
  case live_short => simp [htracks]
  case live_last => simp [htracks]
  case runs_lt =>
    rw [hall, hframes]
    exact h.runs_lt
  case events_span =>
    intro e he
    rcases hevents e he with he | ⟨he, -⟩
    · exact h.events_span e he
    · exact h.live_spans e.2 he
  case events_le =>
    intro e he
    rcases hevents e he with he | ⟨he, -⟩
    · exact h.events_le e he
    · exact Nat.le_of_not_le (h.live_short e.2 he)
  case events_cut =>
    intro e he hlong
    rcases hevents e he with he | ⟨he, -⟩
    · exact h.events_cut e he hlong
    · exact absurd hlong (h.live_short e.2 he)
  -- A flush stands at the last frame now, so no segment goes on over it.
  case splits =>
    intro e _ _ i _ hlast hflush
    rw [hframes] at hlast
    rw [hflushes] at hflush
    exact absurd (by simp [hlast]) hflush
  case marks =>
    intro e he u hu hlong i hi hflush
    rw [hall] at hu
    rw [hflushes] at hflush
    have hflush : i + 1 ∉ s.flushes := fun hm => hflush (List.mem_append_left _ hm)
    rcases hevents e he with he | ⟨he, -⟩
    · exact h.marks e he u hu hlong i hi hflush
    · exact absurd hlong (h.live_short e.2 he)

theorem segmented_init : Segmented p (init : State K) := by
  constructor <;> simp [init, State.allTracks]

theorem segmented_kept : Kept p fun c s => At c s ∧ Segmented p s where
  sample c s v h := by
    have hc : ∀ pending, Segmented p { collect p s v c with pending } := fun _ =>
      ⟨h.2.described, h.2.live_spans, h.2.live_short, h.2.live_last, h.2.runs_lt, h.2.events_span,
        h.2.events_le,
        h.2.events_cut, h.2.splits, h.2.marks⟩
    refine ⟨at_kept.sample c s v h.1, ?_⟩
    rw [feedSample_eq]
    split <;> rename_i hfull
    · refine (hc 0).processFrame h.1.tracks_length fun t ht => ?_
      have hfirst := h.1.collect (p := p) v hfull
      have ht := h.1.tracks_end t ht
      simp only [fftSize] at hfirst hfull
      show t.end_ = (collect p s v c).frameFirst
      omega
    · exact hc _
  flush c c' s h := ⟨at_kept.flush c c' s h.1, h.2.flush⟩
  frame c s n ho f h := ⟨(at_kept (p := p)).frame c s n ho f h.1,
    ⟨h.2.described, h.2.live_spans, h.2.live_short, h.2.live_last, h.2.runs_lt, h.2.events_span,
        h.2.events_le,
      h.2.events_cut, h.2.splits, h.2.marks⟩⟩

/-- **Every cut is marked on both sides.** After every list of calls at most `max_tracks` tracks
are live, no event is longer than the limit, an event that reaches it is marked as truncated, and
so is every track and event with a run in the frame after the cut that touches its last interval,
unless the stream was flushed between these two frames. -/
theorem segments_marked (p : Params K) (calls : List (Call K)) :
    let s := run p calls init
    s.tracks.length ≤ maxTracks ∧
    ∀ e ∈ s.events, e.1.firstSample < e.1.endSample ∧
      e.1.endSample - e.1.firstSample ≤ p.segmentSamples ∧
      (e.1.endSample - e.1.firstSample = p.segmentSamples → HasFlag e.1.quality .truncated ∧
        ∀ i, LastFrame e.2 i → i + 1 ∉ s.flushes →
          (∀ t ∈ s.tracks, ∀ r, (i + 1, r) ∈ t.runs →
            touches e.2.lastLow e.2.lastHigh r.low r.high → HasFlag t.quality .truncated) ∧
          ∀ e' ∈ s.events, ∀ r, (i + 1, r) ∈ e'.2.runs →
            touches e.2.lastLow e.2.lastHigh r.low r.high → HasFlag e'.1.quality .truncated) := by
  intro s
  obtain ⟨_, hat, h⟩ : ∃ c, At c s ∧ Segmented p s :=
    run_exists segmented_kept (fun c => ⟨at_init c, segmented_init⟩) calls
  refine ⟨hat.tracks_length, fun e he => ?_⟩
  obtain ⟨id, quality, hevent⟩ := h.described e he
  have hfirst : e.1.firstSample = e.2.first := by rw [hevent]; rfl
  have hend : e.1.endSample = e.2.end_ := by rw [hevent]; rfl
  rw [hfirst, hend]
  refine ⟨(h.events_span e he).lt, h.events_le e he, fun hcut => ?_⟩
  have hlong : e.2.Long p := Nat.le_of_eq hcut.symm
  refine ⟨h.events_cut e he hlong, fun i hi hflush => ⟨fun t ht r hr htouch => ?_,
    fun e' he' r hr htouch => ?_⟩⟩
  · exact h.marks e he t (List.mem_append_right _ ht) hlong i hi hflush r hr htouch
  · have hmark := h.marks e he e'.2 (List.mem_append_left _ (List.mem_map_of_mem he')) hlong i hi
      hflush r hr htouch
    obtain ⟨id', quality', hevent'⟩ := h.described e' he'
    rw [hevent']
    exact hasFlag_or.mpr (.inl hmark)

/-! ## A flush between a cut and the next frame -/

/-- An active frame of a processor of one bin has one run, which carries neither mark. -/
theorem OneBin.frameRuns_eq {n : ℕ} {p : Params ℝ} (h : OneBin n p) {frame : Frame ℝ}
    (ha : p.threshold ≤ frame.powers 0) : ∃ r, frameRuns p frame = [r] ∧ r.low = 0 ∧ r.high = 0 ∧
      ¬ HasFlag r.quality .truncated := by
  have hrun : IsRun p.bins p.threshold frame.powers 0 0 :=
    ⟨le_refl 0, p.bins_pos, fun b _ hb => by rwa [Nat.le_zero.mp hb], fun b hb => by omega,
      fun hlt => by rw [h.bins_eq] at hlt; omega⟩
  obtain ⟨r, hr, hlow, hhigh⟩ := exists_mem_extractRuns frame.clipped hrun
  have hall : ∀ r' ∈ extractRuns p.bins p.threshold frame.powers frame.clipped 0,
      r'.low = 0 ∧ r'.high = 0 := fun r' hr' => by
    have hrun' := (extractRuns_isRun (fun b hb => by omega) hr').1
    have hle := hrun'.le
    have hlt := hrun'.lt
    rw [h.bins_eq] at hlt
    omega
  have hpair : (extractRuns p.bins p.threshold frame.powers frame.clipped 0).Pairwise
      fun a b => a.high < b.low := extractRuns_pairwise fun b hb => by omega
  have hsingle : extractRuns p.bins p.threshold frame.powers frame.clipped 0 = [r] := by
    generalize extractRuns p.bins p.threshold frame.powers frame.clipped 0 = rs at *
    rcases rs with _ | ⟨a, _ | ⟨b, rs⟩⟩
    · simp at hr
    · rw [List.mem_singleton.mp hr]
    · have hlt := (List.pairwise_cons.mp hpair).1 b (by simp)
      have ha := hall a (by simp)
      have hb := hall b (by simp)
      omega
  refine ⟨r, ?_, hlow, hhigh, fun hf => ?_⟩
  · rw [frameRuns, groupRuns_of_le (by rw [hsingle, List.length_singleton]; decide), hsingle]
  · rcases extractRuns_quality hr hf with h | h <;> cases h

/-- What an active frame does to a processor of one bin. -/
theorem OneBin.processFrame_active {n : ℕ} {p : Params ℝ} (h : OneBin n p) {s : State ℝ}
    (ha : p.threshold ≤ (nextFrame p s).powers 0) (ht : s.tracks.length ≤ maxTracks)
    (hlast : ∀ t ∈ s.tracks, t.lastLow = 0) :
    ∃ r, r.low = 0 ∧ r.high = 0 ∧ ¬ HasFlag r.quality .truncated ∧
      let t := Track.combine p.bins s.frames.length s.frameFirst s.splitIntervals s.tracks [r]
      t.lastLow = 0 ∧
        (¬ t.Long p → (processFrame p s).tracks = [t] ∧ (processFrame p s).splitIntervals = []) ∧
        (t.Long p → (t.event p s.nextEventId truncated.mask, t) ∈ (processFrame p s).events) := by
  obtain ⟨r, hruns, hlow, hhigh, hq⟩ := h.frameRuns_eq ha
  have hassoc : associate p.bins (nextFrame p s).index (nextFrame p s).first s.splitIntervals
      s.tracks (frameRuns p (nextFrame p s)) = ([], [.combine p.bins s.frames.length s.frameFirst
        s.splitIntervals s.tracks [r]]) := by
    rw [hruns]
    refine associate_single ht fun t hm => ?_
    rw [hlast t hm, hlow, hhigh]
    exact ⟨Nat.zero_le _, Nat.zero_le _⟩
  refine ⟨r, hlow, hhigh, hq, ?_, fun hl => ?_, fun hl => ?_⟩
  · have hc := combined p.bins s.frames.length s.frameFirst s.splitIntervals s.tracks [r]
    have := ((hc.le_lastLow _).mp (le_refl _)).2 r (by simp)
    omega
  · rw [processFrame_spec]
    simp only [hassoc]
    simp [hl]
  · rw [processFrame_spec]
    simp only [hassoc]
    simp [hl, emitted]

/-- A group of one frame is shorter than a segment. -/
theorem OneBin.not_long_first {n : ℕ} {p : Params ℝ} (h : OneBin n p) {bins first : ℕ}
    {splits : List (ℕ × ℕ)} {new : List (Run ℝ)} {t : Track ℝ}
    (hc : Combined bins first splits [] new t) : ¬ t.Long p := by
  have hle := (hc.le_first first).mpr ⟨le_refl _, by simp⟩
  have hend := hc.end_eq
  have hn := h.pos
  simp only [Track.Long, h.segment_eq, fftSize] at hend ⊢
  omega

/-- What an impulse does to a processor of one bin that stands at the coordinate `c`. -/
structure FedImpulse (p : Params ℝ) (c : ℕ) (s s' : State ℝ) (r : Run ℝ) : Prop where
  finished : s'.finished = false
  pending : s'.pending = 0
  nextSample : s'.nextSample = c + fftSize
  frames : s'.frames.length = s.frames.length + 1
  events : ∀ e ∈ s.events, e ∈ s'.events
  low : r.low = 0
  quality : ¬ HasFlag r.quality .truncated
  lastLow : (Track.combine p.bins s.frames.length c s.splitIntervals s.tracks [r]).lastLow = 0
  live : ¬ (Track.combine p.bins s.frames.length c s.splitIntervals s.tracks [r]).Long p →
    s'.tracks = [.combine p.bins s.frames.length c s.splitIntervals s.tracks [r]] ∧
      s'.splitIntervals = []
  cut : (Track.combine p.bins s.frames.length c s.splitIntervals s.tracks [r]).Long p →
    ∃ id, ((Track.combine p.bins s.frames.length c s.splitIntervals s.tracks [r]).event p id
      truncated.mask, .combine p.bins s.frames.length c s.splitIntervals s.tracks [r]) ∈ s'.events

theorem OneBin.feed_impulse {n : ℕ} {p : Params ℝ} (h : OneBin n p) {c : ℕ} {s : State ℝ}
    (hf : s.finished = false) (ho : s.haveOrigin = true → c = s.nextSample) (hp : s.pending = 0)
    (hc : c < 2 ^ 63) (ht : s.tracks.length ≤ maxTracks) (hlast : ∀ t ∈ s.tracks, t.lastLow = 0) :
    ∃ r, FedImpulse p c s (call p s (.feed (impulse.map some) c)) r := by
  obtain ⟨r, hlow, -, hq, hlastLow, hlive, hcut⟩ := h.processFrame_active (s := impulseAt p c s)
    (h.impulseAt_active c s) ht hlast
  have heq : Track.combine p.bins (impulseAt p c s).frames.length (impulseAt p c s).frameFirst
      (impulseAt p c s).splitIntervals (impulseAt p c s).tracks [r] =
        .combine p.bins s.frames.length c s.splitIntervals s.tracks [r] := by
    simp only [impulseAt]
  rw [heq] at hlastLow hlive hcut
  have hfinished : (processFrame p (impulseAt p c s)).finished = s.finished :=
    (processFrame_flags (s := impulseAt p c s)).2
  have hpending : (processFrame p (impulseAt p c s)).pending = 0 := by
    rw [processFrame_spec]
    rfl
  have hframes : (processFrame p (impulseAt p c s)).frames.length = s.frames.length + 1 :=
    (processFrame_frames (s := impulseAt p c s)).1
  have hevents : ∀ e ∈ s.events, e ∈ (processFrame p (impulseAt p c s)).events := by
    rw [processFrame_spec]
    exact fun e he => List.mem_append_left _ he
  refine ⟨r, ?_⟩
  rw [call_impulse hf ho hp hc]
  -- Nothing below looks into the frame that was processed.
  generalize processFrame p (impulseAt p c s) = processed at *
  exact ⟨hfinished.trans hf, hpending, rfl, hframes, hevents, hlow, hq, hlastLow, hlive,
    fun hl => ⟨_, hcut hl⟩⟩

/-- Without the condition on flushes the marks fail: a `gap` clears the intervals of the cuts, so the
track of the next frame is not marked although its run touches the event that was cut. -/
theorem cut_unmarked_after_gap : ¬ ∀ (center rate span : ℕ) (cutoff : Option ℝ) (p : Params ℝ),
    Params.create Libm.real center rate span cutoff = .ok p → ∀ calls, let s := run p calls init
    ∀ e ∈ s.events, e.1.endSample - e.1.firstSample = p.segmentSamples → ∀ i, LastFrame e.2 i →
      ∀ t ∈ s.tracks, ∀ r, (i + 1, r) ∈ t.runs →
        touches e.2.lastLow e.2.lastHigh r.low r.high → HasFlag t.quality .truncated := by
  intro hall
  obtain ⟨p, hp, hone⟩ := exists_oneBin Nat.one_pos (by norm_num)
  have hmark := hall 0 4096 1 (some (-180)) p hp
    [.feed (impulse.map some) 0, .feed (impulse.map some) 4096, .gap, .feed (impulse.map some) 8192]
  simp only [run, List.foldl_cons, List.foldl_nil] at hmark
  -- Two frames of impulses make an event of two frames, which is cut.
  obtain ⟨r₁, f₁⟩ := hone.feed_impulse (c := 0) (s := init) rfl (fun _ => rfl) rfl (by norm_num)
    (Nat.zero_le _) (by simp [init])
  generalize call p init (.feed (impulse.map some) 0) = s₁ at hmark f₁
  let t₁ : Track ℝ := .combine p.bins 0 0 [] [] [r₁]
  have c₁ : Combined p.bins 0 [] [] [r₁] t₁ := combined _ _ _ _ [] [r₁]
  obtain ⟨live₁, split₁⟩ : s₁.tracks = [t₁] ∧ s₁.splitIntervals = [] :=
    f₁.live (hone.not_long_first c₁)
  have frames₁ : s₁.frames.length = 1 := f₁.frames
  obtain ⟨r₂, f₂⟩ := hone.feed_impulse (c := 4096) f₁.finished (fun _ => f₁.nextSample.symm) f₁.pending
    (by norm_num) (by rw [live₁, List.length_singleton]; decide) (by
      rw [live₁]
      intro t ht
      rw [List.mem_singleton.mp ht]
      exact f₁.lastLow)
  generalize call p s₁ (.feed (impulse.map some) 4096) = s₂ at hmark f₂
  let t₂ : Track ℝ := .combine p.bins 1 4096 [] [t₁] [r₂]
  have c₂ : Combined p.bins 4096 [] [t₁] [r₂] t₂ := combined _ _ _ _ [t₁] [r₂]
  have heq₂ : Track.combine p.bins s₁.frames.length 4096 s₁.splitIntervals s₁.tracks [r₂] = t₂ := by
    rw [live₁, split₁, frames₁]
  have hlow₂ := f₂.lastLow
  have hcut₂ := f₂.cut
  rw [heq₂] at hlow₂ hcut₂
  have hfirst₂ : t₂.first = 0 := by
    have h₁ := ((c₁.le_first _).mp (le_refl _)).1
    have h₂ := ((c₂.le_first _).mp (le_refl _)).2 t₁ (by simp)
    omega
  have hend₂ : t₂.end_ = 8192 := c₂.end_eq
  obtain ⟨id, hmem₂⟩ := hcut₂ (by
    simp only [Track.Long, hone.segment_eq, hfirst₂, hend₂]
    omega)
  have hlast : LastFrame t₂ 1 := combine_lastFrame
    (fun o ho x hx => by
      rw [List.mem_singleton.mp ho, combine_runs] at hx
      simp at hx
      simp [hx]) (by simp)
  -- After the gap an impulse at the next coordinate is a track of its own.
  have e₃ : call p s₂ .gap = flush p s₂ := by
    show (gap p s₂).toOption.getD s₂ = _
    rw [gap, if_neg (by simp [f₂.finished])]
    rfl
  rw [e₃] at hmark
  have frames₃ : (flush p s₂).frames.length = 2 := by
    rw [flush_spec]
    exact f₂.frames.trans (congrArg (· + 1) frames₁)
  have live₃ : (flush p s₂).tracks = [] ∧ (flush p s₂).splitIntervals = [] := by
    rw [flush_spec]
    exact ⟨rfl, rfl⟩
  have hmem₃ : (t₂.event p id truncated.mask, t₂) ∈ (flush p s₂).events := by
    rw [flush_spec]
    exact List.mem_append_left _ hmem₂
  obtain ⟨r₄, f₄⟩ := hone.feed_impulse (c := 8192) (s := flush p s₂)
    (by rw [flush_spec]; exact f₂.finished) (by rw [flush_spec]; simp) (by rw [flush_spec])
    (by norm_num) (by rw [live₃.1]; decide) (by simp [live₃])
  generalize flush p s₂ = s₃ at *
  generalize call p s₃ (.feed (impulse.map some) 8192) = s₄ at hmark f₄
  let t₄ : Track ℝ := .combine p.bins 2 8192 [] [] [r₄]
  have c₄ : Combined p.bins 8192 [] [] [r₄] t₄ := combined _ _ _ _ [] [r₄]
  have hlive₄ := f₄.live
  rw [live₃.1, live₃.2, frames₃] at hlive₄
  have htracks₄ : s₄.tracks = [t₄] := (hlive₄ (hone.not_long_first c₄)).1
  have hflag := hmark _ (f₄.events _ hmem₃)
    (by
      show t₂.end_ - t₂.first = _
      rw [hfirst₂, hend₂, hone.segment_eq])
    1 hlast t₄ (by rw [htracks₄]; exact List.mem_singleton_self _) r₄ (by simp [t₄, combine_runs])
    ⟨by rw [hlow₂]; exact Nat.zero_le _, by rw [f₄.low]; exact Nat.zero_le _⟩
  rw [c₄.hasFlag] at hflag
  simp [f₄.quality] at hflag

end SpectrumProcessor

end OVMesh
