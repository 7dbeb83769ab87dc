import OVMesh.Lib.Checked
import OVMesh.Lib.Runs
import OVMesh.Spectrum.Chunks

/-!
# The intake of samples

`deliver`, the queue of blocks, and the loop of `process` as far as it measures the spectrum. The
producer and the worker share the pool, `head`, `tail`, `next_sample`, `dropped`, `run` and
`input_finished`. A step is what one of them does up to its next store to these, with the loads right
before it, and the steps come in any order. The test at the end of the loop is one step, since nothing
that it loads changes back. The watchdog does not look at the queue again before it ends the worker, so
it may leave blocks behind.

* `Intake.step`: one step of the producer, of the worker, or of a caller that stops them.
* `Measured`: the worker's side as a function of the blocks that were accepted.
* `Covers`: every sample is in one tile or in one gap, up to what is still in the open tile.
* `intake_conserves`: what a worker that has ended makes of the samples that arrived.
-/

namespace OVMesh

namespace SampleQueue

open Checked SpectrumProcessor

/-- The bytes of a transfer. -/
def blockBytes : ℕ := 262144
/-- The blocks of the pool. -/
def poolBlocks : ℕ := 32

/-- `data` has the bytes that were copied, of which there are `size`. -/
structure RawBlock (K : Type) where
  data : List (BitVec 8)
  first : ℕ
  arrival : K

/-- What the worker is given. -/
structure Acquisition (K : Type) where
  params : Params K
  sampleRate : ℕ
  synthetic : Bool
  rtl : Bool
  started : K
  startedUtc : K
  runElapsedStart : K
  gapId : ℕ

/-- The measurements of a worker. The places of the gaps are ghost. -/
structure Worker (K : Type) [Field K] where
  expected : ℕ := 0
  inputEpoch : K
  timeAnchored : Bool
  spectrum : State K := init
  gapId : ℕ
  gaps : List (CoverageGap K × ℕ × ℕ) := []

/-- Where the producer is within `deliver`. -/
inductive Producer (K : Type)
  | idle
  | entered (bytes : List (BitVec 8)) (arrival : K)
  | counted (bytes : List (BitVec 8)) (arrival : K) (first : ℕ)
  | copied (block : RawBlock K)

/-- Where the worker is within `process`: at the head of its loop, in a block before and behind the store
to `tail`, behind the loop, and at its end. -/
inductive Consumer (K : Type)
  | polling
  | holding (samples : List (Cpx K)) (first : ℕ)
  | feeding (samples : List (Cpx K)) (first : ℕ)
  | closing
  | done (produced : ℕ)
  | failed

/-- `accepted` and `stalled` are ghost: the blocks that were queued, and whether the worker gave up. -/
structure Intake (K : Type) [Field K] where
  run : Bool := true
  inputFinished : Bool := false
  nextSample : ℕ := 0
  dropped : ℕ := 0
  head : ℕ := 0
  tail : ℕ := 0
  pool : ℕ → RawBlock K := fun _ => ⟨[], 0, 0⟩
  producer : Producer K := .idle
  consumer : Consumer K := .polling
  worker : Worker K
  accepted : List (RawBlock K) := []
  stalled : Bool := false

section Model

variable {K : Type} [Field K]

/-- The samples of a block, two bytes each. -/
def RawBlock.count {K : Type} (block : RawBlock K) : ℕ := block.data.length / 2

/-- A sample of an RTL receiver, whose bytes have their zero at 127.5. -/
def rtlIqSample (i q : BitVec 8) : Cpx K := ⟨(i.toNat - 127.5) / 128.0, (q.toNat - 127.5) / 128.0⟩

/-- The samples of a block, of signed bytes or of unsigned ones. -/
def RawBlock.samples (rtl : Bool) (block : RawBlock K) : List (Cpx K) :=
  (List.range block.count).map fun i =>
    let a := block.data.getD (2 * i) 0
    let b := block.data.getD (2 * i + 1) 0
    if rtl then rtlIqSample a b else ⟨a.toInt / 128.0, b.toInt / 128.0⟩

/-- The samples of a block, as the receiver of the acquisition encodes them. -/
def Acquisition.samples (a : Acquisition K) (block : RawBlock K) : List (Cpx K) :=
  block.samples (!a.synthetic && a.rtl)

/-- A worker that has measured nothing. -/
def Acquisition.worker (a : Acquisition K) : Worker K where
  inputEpoch := a.runElapsedStart
  timeAnchored := a.synthetic
  gapId := a.gapId

/-- The queue of a new acquisition. -/
def Acquisition.start (a : Acquisition K) : Intake K where
  worker := a.worker

/-- `record_gap`: a gap between two coordinates that is not empty. -/
def recordGap (a : Acquisition K) (first stop : ℕ) (reason : String) (w : Worker K) : Worker K :=
  if stop ≤ first then w
  else
    let elapsedStart := w.inputEpoch + first / a.sampleRate
    let elapsedEnd := w.inputEpoch + stop / a.sampleRate
    { w with
      gapId := w.gapId + 1
      gaps := w.gaps ++ [({
        id := w.gapId + 1
        missingSamples := stop - first
        utcStartSeconds := a.startedUtc + elapsedStart
        utcEndSeconds := a.startedUtc + elapsedEnd
        elapsedStartSeconds := elapsedStart
        elapsedEndSeconds := elapsedEnd
        reason }, first, stop)] }

/-- The gap of the samples that were in the buffer of a flush. -/
def recordPart (a : Acquisition K) (part : ℕ) (w : Worker K) : Worker K :=
  if part ≠ 0 then recordGap a (w.expected - part) w.expected "partial_fft" w else w

variable [LinearOrder K]

/-- The gap of the watchdog. It takes an id, and is stored when it is not empty. -/
def recordStall (a : Acquisition K) (elapsed : K) (w : Worker K) : Worker K :=
  let elapsedStart := w.inputEpoch + w.expected / a.sampleRate
  let elapsedEnd := max elapsedStart elapsed
  if w.timeAnchored then
    { w with
      gapId := w.gapId + 1
      gaps := if elapsedEnd > elapsedStart then
          w.gaps ++ [({
            id := w.gapId + 1
            missingSamples := 0
            utcStartSeconds := a.startedUtc + elapsedStart
            utcEndSeconds := a.startedUtc + elapsedEnd
            elapsedStartSeconds := elapsedStart
            elapsedEndSeconds := elapsedEnd
            reason := "source_stall" }, w.expected, w.expected)]
        else w.gaps }
  else w

/-- The anchor of the first block. -/
def anchor (a : Acquisition K) (block : RawBlock K) (w : Worker K) : Worker K :=
  if w.timeAnchored then w
  else
    { w with
      inputEpoch := max a.runElapsedStart
        (block.arrival - a.started - (block.first + block.count : ℕ) / a.sampleRate)
      timeAnchored := true }

/-- What the loop does with a block before its samples. -/
def meet (a : Acquisition K) (block : RawBlock K) (w : Worker K) : Except String (Worker K) := do
  let w := anchor a block w
  let w ← if block.first ≠ w.expected then do
      let part := w.spectrum.pending
      let spectrum ← gap a.params w.spectrum
      pure (recordGap a w.expected block.first "application_drop"
        (recordPart a part { w with spectrum }))
    else pure w
  return { w with expected := block.first + block.count }

/-- What the loop does with the samples of a block. -/
def follow (a : Acquisition K) (samples : List (Cpx K)) (first : ℕ) (w : Worker K) :
    Except String (Worker K) := do
  let spectrum ← feed a.params (samples.map some) first w.spectrum
  return { w with spectrum }

/-- What follows the loop. -/
def close (a : Acquisition K) (produced : ℕ) (w : Worker K) : Worker K :=
  let part := w.spectrum.pending
  let w := recordPart a part { w with spectrum := finish a.params w.spectrum }
  if produced > w.expected then recordGap a w.expected produced "application_drop" w else w

/-- The steps of the producer, of the callers and of the worker. -/
inductive Action (K : Type)
  | enter (bytes : List (BitVec 8)) (arrival : K)
  | count
  | check
  | publish
  | stop
  | join
  | take
  | release
  | feed
  | stall (elapsed : K)
  | leave
  | close
  | fail

namespace Intake

variable (a : Acquisition K) (s : Intake K)

/-- `deliver`, with a step for each of its accesses. -/
def produce : Action K → Intake K
  | .enter bytes arrival =>
    match s.producer with
    | .idle => if s.run then { s with producer := .entered bytes arrival } else s
    | _ => s
  | .count =>
    match s.producer with
    | .entered bytes arrival =>
      { s with
        nextSample := s.nextSample + bytes.length / 2
        producer := .counted bytes arrival s.nextSample }
    | _ => s
  | .check =>
    match s.producer with
    | .counted bytes arrival first =>
      if bytes.length > blockBytes ∨ bytes.length % 2 ≠ 0 ∨ s.head - s.tail ≥ poolBlocks then
        { s with dropped := s.dropped + bytes.length / 2, producer := .idle }
      else
        let block := ⟨bytes, first, arrival⟩
        { s with
          pool := Function.update s.pool (s.head % poolBlocks) block
          producer := .copied block }
    | _ => s
  | .publish =>
    match s.producer with
    | .copied block =>
      { s with head := s.head + 1, producer := .idle, accepted := s.accepted ++ [block] }
    | _ => s
  | _ => s

/-- The worker reads the block at `tail`, with what the loop does before its samples. -/
def take : Intake K :=
  let block := s.pool (s.tail % poolBlocks)
  match meet a block s.worker with
  | .ok worker => { s with worker, consumer := .holding (a.samples block) block.first }
  | .error _ => { s with run := false, consumer := .failed }

/-- The worker: a step with an error leads to `failed`, as may every other one. -/
def consume : Action K → Intake K
  | .take =>
    match s.consumer with
    | .polling => if s.tail ≠ s.head then s.take a else s
    | _ => s
  | .release =>
    match s.consumer with
    | .holding samples first => { s with tail := s.tail + 1, consumer := .feeding samples first }
    | _ => s
  | .feed =>
    match s.consumer with
    | .feeding samples first =>
      match follow a samples first s.worker with
      | .ok worker => { s with worker, consumer := .polling }
      | .error _ => { s with run := false, consumer := .failed }
    | _ => s
  | .stall elapsed =>
    match s.consumer with
    | .polling =>
      if s.run ∧ a.synthetic = false then
        { s with
          worker := recordStall a elapsed s.worker
          run := false
          consumer := .closing
          stalled := true }
      else s
    | _ => s
  | .leave =>
    match s.consumer with
    | .polling =>
      if s.run = false ∧ s.inputFinished ∧ s.tail = s.head then { s with consumer := .closing } else s
    | _ => s
  | .close =>
    match s.consumer with
    | .closing =>
      { s with worker := SampleQueue.close a s.nextSample s.worker, consumer := .done s.nextSample }
    | _ => s
  | .fail =>
    match s.consumer with
    | .done _ => s
    | _ => { s with run := false, consumer := .failed }
  | _ => s

/-- One step. A producer that has ended is joined before the input is finished. -/
def step (action : Action K) : Intake K :=
  match action with
  | .enter _ _ | .count | .check | .publish => s.produce action
  | .stop => { s with run := false }
  | .join =>
    match s.producer with
    | .idle => if s.run then s else { s with inputFinished := true }
    | _ => s
  | _ => s.consume a action

end Intake

end Model

/-! ## The order of the blocks -/

section Blocks

variable {K : Type} {block : RawBlock K} {blocks : List (RawBlock K)} {c : ℕ}

/-- Blocks of a stream, in its order. -/
def Ordered : ℕ → List (RawBlock K) → Prop
  | _, [] => True
  | c, block :: blocks => c ≤ block.first ∧ Ordered (block.first + block.count) blocks

/-- The end of the last block. -/
def endOf (c : ℕ) (blocks : List (RawBlock K)) : ℕ :=
  blocks.foldl (fun _ block => block.first + block.count) c

/-- The samples of some blocks. -/
def countOf (blocks : List (RawBlock K)) : ℕ := (blocks.map RawBlock.count).sum

theorem endOf_concat : endOf c (blocks ++ [block]) = block.first + block.count := by
  simp [endOf]

theorem countOf_concat : countOf (blocks ++ [block]) = countOf blocks + block.count := by
  simp [countOf]

theorem ordered_concat :
    Ordered c (blocks ++ [block]) ↔ Ordered c blocks ∧ endOf c blocks ≤ block.first := by
  induction blocks generalizing c with
  | nil => simp [Ordered, endOf]
  | cons head blocks ih => simp [Ordered, endOf, ih, and_assoc]

theorem Ordered.take {i : ℕ} (h : Ordered c blocks) : Ordered c (blocks.take i) := by
  induction blocks generalizing c i with
  | nil => simp [Ordered]
  | cons head blocks ih =>
    cases i with
    | zero => simp [Ordered]
    | succ i => exact ⟨h.1, ih h.2⟩

theorem Ordered.le_endOf (h : Ordered c blocks) : c ≤ endOf c blocks := by
  induction blocks generalizing c with
  | nil => exact le_rfl
  | cons head blocks ih =>
    have hrest := ih h.2
    have hfirst := h.1
    simp only [endOf, List.foldl_cons] at hrest ⊢
    omega

/-- The blocks before a place end where all of them do, or before. -/
theorem Ordered.endOf_take_le {i : ℕ} (h : Ordered c blocks) : endOf c (blocks.take i) ≤ endOf c blocks := by
  induction blocks generalizing c i with
  | nil => rw [List.take_nil]
  | cons head blocks ih =>
    cases i with
    | zero => exact h.le_endOf
    | succ i => exact ih h.2

/-- A block lies between those before it and those behind it. -/
theorem Ordered.between {i : ℕ} (h : Ordered c blocks) (hi : blocks[i]? = some block) :
    endOf c (blocks.take i) ≤ block.first ∧ block.first + block.count ≤ endOf c blocks := by
  induction blocks generalizing c i with
  | nil => cases hi
  | cons head blocks ih =>
    cases i with
    | zero =>
      cases hi
      exact ⟨h.1, h.2.le_endOf⟩
    | succ i => exact ih h.2 hi

theorem mod_ne {i j n : ℕ} (hlt : i < j) (hnear : j < i + n) : i % n ≠ j % n := by
  intro heq
  have hdvd : n ∣ j - i := (Nat.modEq_iff_dvd' hlt.le).mp heq
  have hle := Nat.le_of_dvd (by omega) hdvd
  omega

end Blocks

/-! ## The blocks one after the other -/

section Measured

variable {K : Type} [Field K] {a : Acquisition K} {block : RawBlock K}
  {blocks : List (RawBlock K)} {w w' : Worker K} {c F first stop part produced : ℕ} {reason : String}

/-- The tiles and the gaps that hold a sample. -/
def Worker.holders (w : Worker K) (i : ℕ) : ℕ :=
  (w.spectrum.tiles.countP fun t => t.1.firstSample ≤ i ∧ i < t.1.endSample) +
    w.gaps.countP fun g => g.2.1 ≤ i ∧ i < g.2.2

/-- Every sample up to a place is held once, and none from there on. -/
def Worker.HeldTo (w : Worker K) (F : ℕ) : Prop := ∀ i, w.holders i = if i < F then 1 else 0

/-- The samples that the gaps of a reason miss. -/
def Worker.missing (w : Worker K) (reason : String) : ℕ :=
  ((w.gaps.filter (·.1.reason = reason)).map (·.1.missingSamples)).sum

/-- At a coordinate: what is not held yet is in the open tile or in the buffer. -/
structure Covers (a : Acquisition K) (c : ℕ) (w : Worker K) : Prop where
  stands : At c w.spectrum
  tiled : Tiled a.params w.spectrum
  held : ∃ F, F + fftSize * w.spectrum.tile.frameCount + w.spectrum.pending = c ∧ w.HeldTo F

theorem recordGap_held (h : w.HeldTo first) (hle : first ≤ stop) :
    (recordGap a first stop reason w).HeldTo stop := by
  unfold recordGap
  split_ifs with hstop
  · rwa [Nat.le_antisymm hle hstop] at h
  · intro i
    have hi := h i
    simp only [Worker.holders, List.countP_append, List.countP_singleton, decide_eq_true_eq] at hi ⊢
    split_ifs at hi ⊢ <;> omega

theorem recordGap_missing (hle : first ≤ stop) (other : String) :
    (recordGap a first stop reason w).missing other =
      w.missing other + if reason = other then stop - first else 0 := by
  unfold recordGap
  split_ifs with hstop hreason hreason
  · omega
  · rfl
  · simp [Worker.missing, List.filter_append, hreason]
  · simp [Worker.missing, List.filter_append, hreason]

@[simp] theorem recordGap_spectrum : (recordGap a first stop reason w).spectrum = w.spectrum := by
  unfold recordGap
  split_ifs <;> rfl

@[simp] theorem recordGap_expected : (recordGap a first stop reason w).expected = w.expected := by
  unfold recordGap
  split_ifs <;> rfl

theorem held_tile (tile : SpectrumTile K × List (Frame K)) {s : State K}
    (hs : s.tiles = w.spectrum.tiles ++ [tile]) (h : w.HeldTo first)
    (hfirst : tile.1.firstSample = first) (hstop : tile.1.endSample = stop) (hle : first ≤ stop) :
    Worker.HeldTo { w with spectrum := s } stop := by
  intro i
  have hi := h i
  simp only [Worker.holders, hs, List.countP_append, List.countP_singleton, decide_eq_true_eq, hfirst,
    hstop] at hi ⊢
  split_ifs at hi ⊢ <;> omega

variable [LinearOrder K]

/-- A frame goes to the open tile, and closes it if it is full. -/
theorem processFrame_tiles {p : Params K} {s : State K} : (processFrame p s).pending = s.pending ∧
    ((processFrame p s).tiles = s.tiles ∧
      (processFrame p s).tile.frameCount = s.tile.frameCount + 1 ∨
    ∃ tile, (processFrame p s).tiles = s.tiles ++ [tile] ∧
      tile.1.endSample = s.frameFirst + fftSize ∧ tile.1.frameCount = s.tile.frameCount + 1 ∧
      (processFrame p s).tile.frameCount = 0) := by
  rw [processFrame_spec]
  refine ⟨rfl, ?_⟩
  dsimp only
  split_ifs with hfull
  · exact .inr ⟨_, rfl, rfl, rfl, rfl⟩
  · exact .inl ⟨rfl, rfl⟩

/-- One sample moves the coordinate by one. -/
theorem Covers.sample (h : Covers a c w) (v : Cpx K) :
    Covers a (c + 1) { w with spectrum := feedSample a.params w.spectrum v c } := by
  obtain ⟨hstands, htiled⟩ := tiled_kept.sample c w.spectrum v ⟨h.stands, h.tiled⟩
  obtain ⟨F, hF, hheld⟩ := h.held
  refine ⟨hstands, htiled, ?_⟩
  dsimp only at htiled ⊢
  rw [feedSample_eq] at htiled ⊢
  split_ifs at htiled ⊢ with hfull
  · have hlast := h.stands.collect (p := a.params) v hfull
    generalize hs : ({ collect a.params w.spectrum v c with pending := 0 } : State K) = s at htiled ⊢
    have hcollected : s.tiles = w.spectrum.tiles ∧ s.tile = w.spectrum.tile ∧ s.pending = 0 ∧
        s.frameFirst + fftSize = c + 1 := by
      subst hs
      exact ⟨rfl, rfl, rfl, hlast⟩
    obtain ⟨htiles, htile, hzero, hfirst⟩ := hcollected
    obtain ⟨hpending, ⟨hsame, hcount⟩ | ⟨tile, hnew, hstop, hcount, hempty⟩⟩ :=
      @processFrame_tiles K _ _ a.params s
    · refine ⟨F, ?_, ?_⟩
      · rw [hcount, hpending, hzero, htile, Nat.mul_succ]
        omega
      · intro i
        rw [← hheld i, Worker.holders, Worker.holders, hsame, htiles]
    · refine ⟨c + 1, by rw [hempty, hpending, hzero]; rfl, ?_⟩
      obtain ⟨hne, hshaped⟩ := htiled.tiles tile (by rw [hnew]; simp)
      have hwhole := hshaped.stop hne
      rw [hcount, htile, Nat.mul_succ] at hwhole
      refine held_tile tile (hnew.trans (by rw [htiles])) hheld ?_ (hstop.trans hfirst) (by omega)
      omega
  · exact ⟨F, by simp only [collect]; omega, hheld⟩

/-- Nothing is open: what was fed is in a tile or was discarded. -/
structure Flushed (a : Acquisition K) (F : ℕ) (w : Worker K) : Prop where
  stands : ∀ c, At c w.spectrum
  tiled : Tiled a.params w.spectrum
  origin : w.spectrum.haveOrigin = false
  empty : w.spectrum.tile.frameCount = 0 ∧ w.spectrum.pending = 0
  held : w.HeldTo F

omit [LinearOrder K] in
theorem Flushed.covers (h : Flushed a F w) : Covers a F w :=
  ⟨h.stands F, h.tiled, F, by rw [h.empty.1, h.empty.2]; rfl, h.held⟩

theorem Covers.flush (h : Covers a c w) : w.spectrum.pending ≤ c ∧
    Flushed a (c - w.spectrum.pending) { w with spectrum := flush a.params w.spectrum } := by
  have hkept : ∀ c', At c' (SpectrumProcessor.flush a.params w.spectrum) ∧
      Tiled a.params (SpectrumProcessor.flush a.params w.spectrum) :=
    fun c' => tiled_kept.flush c c' w.spectrum ⟨h.stands, h.tiled⟩
  obtain ⟨F, hF, hheld⟩ := h.held
  refine ⟨by omega, fun c' => (hkept c').1, (hkept 0).2, ?_, ?_, ?_⟩
  · rw [flush_spec]
  · rw [flush_spec]
    dsimp only
    split_ifs with hcount
    · exact ⟨hcount, rfl⟩
    · exact ⟨rfl, rfl⟩
  · by_cases hcount : w.spectrum.tile.frameCount = 0
    · have hall : c - w.spectrum.pending = F := by
        rw [hcount] at hF
        omega
      intro i
      rw [hall, ← hheld i, Worker.holders, Worker.holders, flush_spec]
      simp only [if_pos hcount]
    · have hstop := h.tiled.tile.stop hcount
      have hend := h.stands.tile_end hcount
      refine held_tile (w.spectrum.tile.close a.params w.spectrum.nextTileId, w.spectrum.tile.frames) ?_
        hheld ?_ ?_ (by omega)
      · rw [flush_spec]
        simp only [if_neg hcount]
      · show w.spectrum.tile.firstSample = F
        omega
      · show w.spectrum.tile.endSample = c - w.spectrum.pending
        omega

omit [LinearOrder K] in
theorem Flushed.gap (h : Flushed a first w) (hle : first ≤ stop) (reason : String) :
    Flushed a stop (recordGap a first stop reason w) := by
  refine ⟨?_, ?_, ?_, ?_, recordGap_held h.held hle⟩
  · rw [recordGap_spectrum]
    exact h.stands
  · rw [recordGap_spectrum]
    exact h.tiled
  · rw [recordGap_spectrum]
    exact h.origin
  · rw [recordGap_spectrum]
    exact h.empty

omit [LinearOrder K] in
/-- The gap of what a flush discarded. -/
theorem Flushed.discard (h : Flushed a (w.expected - part) w) (hle : part ≤ w.expected) :
    Flushed a w.expected (recordPart a part w) := by
  unfold recordPart
  split_ifs with hpart
  · exact h.gap (by omega) _
  · rwa [not_not.mp hpart, Nat.sub_zero] at h

omit [LinearOrder K] in
theorem recordPart_missing (hle : part ≤ w.expected) (other : String) :
    (recordPart a part w).missing other = w.missing other + if "partial_fft" = other then part else 0 := by
  unfold recordPart
  split_ifs with hpart hreason hreason
  · rw [recordGap_missing (by omega), if_pos hreason]
    omega
  · rw [recordGap_missing (by omega), if_neg hreason]
  · omega
  · rfl

omit [LinearOrder K] in
@[simp] theorem recordPart_spectrum : (recordPart a part w).spectrum = w.spectrum := by
  unfold recordPart
  split_ifs <;> simp

omit [LinearOrder K] in
@[simp] theorem recordPart_expected : (recordPart a part w).expected = w.expected := by
  unfold recordPart
  split_ifs <;> simp

/-- What holds of a worker before the samples with a coordinate, of which it was fed as many as `fed`. -/
structure Measured (a : Acquisition K) (fed c : ℕ) (w : Worker K) : Prop where
  covers : Covers a c w
  unfinished : w.spectrum.finished = false
  origin : w.spectrum.haveOrigin = true → w.spectrum.nextSample = c
  drops : w.missing "application_drop" + fed = c
  parts : w.missing "partial_fft" = w.spectrum.discarded

theorem Measured.anchor {fed : ℕ} (h : Measured a fed c w) (block : RawBlock K) :
    Measured a fed c (anchor a block w) := by
  unfold SampleQueue.anchor
  split_ifs
  · exact h
  · exact ⟨⟨h.covers.stands, h.covers.tiled, h.covers.held⟩, h.unfinished, h.origin, h.drops, h.parts⟩

/-- What is discarded in a flush and what is missing behind it become gaps. -/
theorem Measured.lose {fed : ℕ} (h : Measured a fed w.expected w) (hle : w.expected ≤ stop) {f : Bool}
    {s : State K} (hs : s = { flush a.params w.spectrum with finished := f }) :
    let lost := recordGap a w.expected stop "application_drop"
      (recordPart a w.spectrum.pending { w with spectrum := s })
    Flushed a stop lost ∧ lost.missing "application_drop" + fed = stop ∧
      lost.missing "partial_fft" = lost.spectrum.discarded ∧ lost.spectrum.finished = f := by
  obtain ⟨hpending, hflushed⟩ := h.covers.flush
  let flushed : Worker K := { w with spectrum := s }
  have hfinished : Flushed a (w.expected - w.spectrum.pending) flushed := by
    subst hs
    exact ⟨fun c => at_kept.frame (p := a.params) _ _ _ _ _ (hflushed.stands c),
      ⟨hflushed.tiled.lt, hflushed.tiled.tile, hflushed.tiled.tiles⟩, hflushed.origin, hflushed.empty,
      hflushed.held⟩
  have hlost := (Flushed.discard (w := flushed) hfinished hpending).gap hle "application_drop"
  have hmissing : ∀ other, (recordGap a w.expected stop "application_drop"
      (recordPart a w.spectrum.pending flushed)).missing other = w.missing other +
        (if "partial_fft" = other then w.spectrum.pending else 0) +
        if "application_drop" = other then stop - w.expected else 0 := fun other => by
    rw [recordGap_missing hle, recordPart_missing (w := flushed) hpending]
    rfl
  refine ⟨hlost, ?_, ?_, ?_⟩
  · have hdrops := h.drops
    rw [hmissing, if_neg (by decide), if_pos rfl]
    omega
  · rw [hmissing, if_pos rfl, if_neg (by decide), recordGap_spectrum, recordPart_spectrum, h.parts, hs,
      flush_spec]
    rfl
  · rw [recordGap_spectrum, recordPart_spectrum, hs]

theorem meet_spec {fed : ℕ} (h : Measured a fed w.expected w) (hle : w.expected ≤ block.first) :
    ∃ w', meet a block w = .ok w' ∧ Measured a fed block.first w' ∧
      w'.expected = block.first + block.count := by
  have hanchored : (anchor a block w).expected = w.expected := by
    unfold SampleQueue.anchor
    split_ifs <;> rfl
  have h := h.anchor block
  rw [← hanchored] at h hle
  unfold meet
  generalize SampleQueue.anchor a block w = w at h hle
  simp only
  split_ifs with hgap
  · have hflush : gap a.params w.spectrum = .ok (flush a.params w.spectrum) := by
      rw [SpectrumProcessor.gap, if_neg (by simp [h.unfinished])]
    have hfinished : flush a.params w.spectrum =
        { flush a.params w.spectrum with finished := false } := by
      rw [flush_spec, h.unfinished]
    obtain ⟨hlost, hdrops, hparts, hunfinished⟩ := h.lose hle hfinished
    rw [hflush]
    refine ⟨_, rfl, ⟨⟨hlost.covers.stands, hlost.covers.tiled, hlost.covers.held⟩, hunfinished,
      fun ho => ?_, hdrops, hparts⟩, rfl⟩
    exact absurd (hlost.origin.symm.trans ho) (by simp)
  · rw [← not_not.mp hgap] at h
    exact ⟨_, rfl, ⟨⟨h.covers.stands, h.covers.tiled, h.covers.held⟩, h.unfinished, h.origin, h.drops,
      h.parts⟩, rfl⟩

theorem recordStall_expected {elapsed : K} : (recordStall a elapsed w).expected = w.expected := by
  unfold recordStall
  simp only
  split_ifs <;> rfl

/-- The gap of the watchdog misses no sample. -/
theorem Measured.stall {fed : ℕ} {elapsed : K} (h : Measured a fed w.expected w) :
    Measured a fed (recordStall a elapsed w).expected (recordStall a elapsed w) := by
  rw [recordStall_expected]
  unfold recordStall
  simp only
  split_ifs with hanchored hlong
  · refine ⟨⟨h.covers.stands, h.covers.tiled, ?_⟩, h.unfinished, h.origin, ?_, ?_⟩
    · obtain ⟨F, hF, hheld⟩ := h.covers.held
      refine ⟨F, hF, fun i => ?_⟩
      have hi := hheld i
      simp only [Worker.holders, List.countP_append, List.countP_singleton, decide_eq_true_eq] at hi ⊢
      rwa [if_neg (c := w.expected ≤ i ∧ i < w.expected) (by omega)]
    · simpa [Worker.missing, List.filter_append] using h.drops
    · simpa [Worker.missing, List.filter_append] using h.parts
  · exact ⟨⟨h.covers.stands, h.covers.tiled, h.covers.held⟩, h.unfinished, h.origin, h.drops, h.parts⟩
  · exact h

/-- Behind the last sample everything is in a tile or in a gap. -/
theorem close_spec {fed : ℕ} (h : Measured a fed w.expected w) (hle : w.expected ≤ produced) :
    (close a produced w).HeldTo produced ∧
      (close a produced w).missing "application_drop" + fed = produced ∧
      (close a produced w).missing "partial_fft" = (close a produced w).spectrum.discarded := by
  have hfinish : finish a.params w.spectrum = { flush a.params w.spectrum with finished := true } := by
    rw [finish, if_neg (by simp [h.unfinished])]
  obtain ⟨hlost, hdrops, hparts, -⟩ := h.lose hle hfinish
  have hclose : close a produced w = recordGap a w.expected produced "application_drop"
      (recordPart a w.spectrum.pending { w with spectrum := finish a.params w.spectrum }) := by
    unfold close
    simp only [recordPart_expected]
    split_ifs with hproduced
    · rfl
    · rw [recordGap, if_pos (not_lt.mp hproduced)]
  rw [hclose]
  exact ⟨hlost.held, hdrops, hparts⟩

omit [LinearOrder K] in
@[simp] theorem length_samples : (a.samples block).length = block.count := by
  simp [Acquisition.samples, RawBlock.samples]

theorem follow_spec {fed : ℕ} {samples : List (Cpx K)} (h : Measured a fed c w)
    (hfollow : follow a samples c w = .ok w') (hend : w.expected = c + samples.length) :
    Measured a (fed + samples.length) w'.expected w' ∧ w'.expected = w.expected := by
  unfold follow at hfollow
  rw [bind_eq_ok] at hfollow
  obtain ⟨spectrum, hfeed, hw⟩ := hfollow
  cases hw
  refine ⟨?_, rfl⟩
  rcases feed_ok_all hfeed with ⟨rfl, hnil⟩ | ⟨values, hvalues, rfl, -, -⟩
  · rw [List.map_eq_nil_iff] at hnil
    subst hnil
    rw [List.length_nil, Nat.add_zero] at hend ⊢
    rw [← hend] at h
    exact h
  · obtain rfl := (List.map_injective_iff.mpr (Option.some_injective _)) hvalues
    have hfed := feedSamples_induction (p := a.params)
      (P := fun c s => Covers a c { w with spectrum := s }) samples
      (fun c s v _ hs => hs.sample v) h.covers
    have hflags := foldl_feedSample_flags (p := a.params) samples c (s := w.spectrum)
    have hdiscarded : (feedAll a.params samples c w.spectrum).discarded = w.spectrum.discarded := by
      refine Fold.foldl_eq (φ := State.discarded) (fun s v => ?_) _ _
      rw [feedSample_eq, processFrame_spec]
      split_ifs <;> rfl
    have hdrops := h.drops
    refine ⟨⟨?_, ?_, ?_⟩, ?_, fun _ => ?_, ?_, ?_⟩
    · show At _ _
      rw [hend]
      exact at_kept.frame (p := a.params) _ _ _ _ _ hfed.stands
    · exact ⟨hfed.tiled.lt, hfed.tiled.tile, hfed.tiled.tiles⟩
    · have hheld := hfed.held
      rw [← hend] at hheld
      exact hheld
    · exact hflags.2.trans h.unfinished
    · exact hend.symm
    · show w.missing _ + (fed + samples.length) = w.expected
      omega
    · exact h.parts.trans hdiscarded.symm

/-- Samples are refused only at the end of the coordinates. -/
theorem follow_ok {fed : ℕ} {samples : List (Cpx K)} (h : Measured a fed c w)
    (hbound : c + samples.length < 2 ^ 64) : ∃ w', follow a samples c w = .ok w' := by
  by_cases hnil : samples = []
  · subst hnil
    refine ⟨w, ?_⟩
    simp [follow, feed, h.unfinished]
  · refine ⟨{ w with spectrum := feedAll a.params samples c w.spectrum }, ?_⟩
    rw [follow, feed_all hnil h.unfinished (fun ho => (h.origin ho).symm) (by omega)]
    rfl

/-- One block as a whole. -/
def measure (a : Acquisition K) (w : Worker K) (block : RawBlock K) : Except String (Worker K) := do
  follow a (a.samples block) block.first (← meet a block w)

/-- The worker that follows some blocks. -/
def measureAll (a : Acquisition K) (blocks : List (RawBlock K)) : Except String (Worker K) :=
  blocks.foldlM (measure a) a.worker

omit [LinearOrder K] in
theorem measured_start : Measured a 0 0 a.worker where
  covers := ⟨at_init 0, tiled_init, 0, rfl, fun i => by simp [Worker.holders, Acquisition.worker, init]⟩
  unfinished := rfl
  origin := fun h => by cases h
  drops := rfl
  parts := rfl

theorem measure_spec {fed : ℕ} (h : Measured a fed w.expected w) (hle : w.expected ≤ block.first)
    (hmeasure : measure a w block = .ok w') :
    Measured a (fed + block.count) w'.expected w' ∧ w'.expected = block.first + block.count := by
  obtain ⟨met, hmeet, hmet, hexpected⟩ := meet_spec (a := a) h hle
  rw [measure, hmeet] at hmeasure
  have hfollow : follow a (a.samples block) block.first met = .ok w' := hmeasure
  obtain ⟨hmeasured, hsame⟩ := follow_spec hmet hfollow (by rw [hexpected, length_samples])
  rw [length_samples] at hmeasured
  exact ⟨hmeasured, hsame.trans hexpected⟩

theorem measureAll_spec (hordered : Ordered 0 blocks) (h : measureAll a blocks = .ok w) :
    Measured a (countOf blocks) w.expected w ∧ w.expected = endOf 0 blocks := by
  suffices hgo : ∀ (fed : ℕ) (u : Worker K), Measured a fed u.expected u → Ordered u.expected blocks →
      blocks.foldlM (measure a) u = .ok w →
      Measured a (fed + countOf blocks) w.expected w ∧ w.expected = endOf u.expected blocks by
    have hall := hgo 0 a.worker measured_start hordered h
    rwa [Nat.zero_add] at hall
  clear h hordered
  induction blocks with
  | nil =>
    intro fed u hu _ h
    cases h
    exact ⟨hu, rfl⟩
  | cons block blocks ih =>
    intro fed u hu hordered h
    rw [List.foldlM_cons, bind_eq_ok] at h
    obtain ⟨v, hv, hrest⟩ := h
    obtain ⟨hmeasured, hexpected⟩ := measure_spec hu hordered.1 hv
    have hnext := hordered.2
    rw [← hexpected] at hnext
    have hlast := ih (fed + block.count) v hmeasured hnext hrest
    rw [hexpected] at hlast
    rw [countOf, List.map_cons, List.sum_cons, ← Nat.add_assoc]
    exact hlast

end Measured

/-! ## Any order of steps -/

section Run

variable {K : Type} [Field K] [LinearOrder K] {a : Acquisition K} {s : Intake K}

/-- The samples that arrived are in a queued block, dropped or in the block under way. -/
def Arrived (s : Intake K) : Prop :=
  match s.producer with
  | .idle | .entered _ _ =>
    endOf 0 s.accepted ≤ s.nextSample ∧ s.nextSample = countOf s.accepted + s.dropped
  | .counted bytes _ first =>
    endOf 0 s.accepted ≤ first ∧ first = countOf s.accepted + s.dropped ∧
      s.nextSample = first + bytes.length / 2
  | .copied block =>
    endOf 0 s.accepted ≤ block.first ∧ block.first = countOf s.accepted + s.dropped ∧
      s.nextSample = block.first + block.count ∧ s.head < s.tail + poolBlocks ∧
      s.pool (s.head % poolBlocks) = block

/-- A worker within a block. -/
def Within (a : Acquisition K) (s : Intake K) (i : ℕ) (samples : List (Cpx K)) (first : ℕ) : Prop :=
  ∃ block w, s.accepted[i]? = some block ∧ measureAll a (s.accepted.take i) = .ok w ∧
    meet a block w = .ok s.worker ∧ samples = a.samples block ∧ first = block.first

/-- The worker has followed the blocks before `tail`. -/
def Follows (a : Acquisition K) (s : Intake K) : Prop :=
  match s.consumer with
  | .polling => s.stalled = false ∧ measureAll a (s.accepted.take s.tail) = .ok s.worker
  | .holding samples first => s.stalled = false ∧ s.tail < s.head ∧ Within a s s.tail samples first
  | .feeding samples first => s.stalled = false ∧ 0 < s.tail ∧ Within a s (s.tail - 1) samples first
  | .closing =>
    Measured a (countOf (s.accepted.take s.tail)) s.worker.expected s.worker ∧
      s.worker.expected ≤ s.nextSample ∧ (s.stalled = false → s.inputFinished = true ∧
        s.tail = s.head ∧ measureAll a s.accepted = .ok s.worker)
  | .done produced =>
    s.worker.HeldTo produced ∧ s.worker.missing "partial_fft" = s.worker.spectrum.discarded ∧
      s.worker.missing "application_drop" + countOf (s.accepted.take s.tail) = produced ∧
      produced ≤ s.nextSample ∧ (s.stalled = false → s.inputFinished = true ∧ s.tail = s.head ∧
        produced = s.nextSample ∧ ∃ w, measureAll a s.accepted = .ok w ∧ s.worker = close a produced w)
  | .failed => True

/-- What holds between two steps. -/
structure Ok (a : Acquisition K) (s : Intake K) : Prop where
  count : s.accepted.length = s.head
  window : s.tail ≤ s.head ∧ s.head ≤ s.tail + poolBlocks
  slots : ∀ i block, s.tail ≤ i → s.accepted[i]? = some block → s.pool (i % poolBlocks) = block
  ordered : Ordered 0 s.accepted
  arrived : Arrived s
  finished : s.inputFinished = true → s.run = false ∧ s.producer = .idle
  follows : Follows a s

theorem ok_start : Ok a a.start where
  count := rfl
  window := ⟨le_rfl, Nat.zero_le _⟩
  slots i block _ h := by cases h
  ordered := trivial
  arrived := ⟨le_rfl, rfl⟩
  finished h := by cases h
  follows := ⟨rfl, rfl⟩

/-- What a worker has followed does not depend on what comes behind it. -/
theorem Follows.mono {s' : Intake K} (h : Follows a s) (hconsumer : s'.consumer = s.consumer)
    (hworker : s'.worker = s.worker) (htail : s'.tail = s.tail) (hstalled : s'.stalled = s.stalled)
    (hfinished : s.inputFinished = true → s'.inputFinished = true ∧ s'.accepted = s.accepted ∧
      s'.head = s.head ∧ s'.nextSample = s.nextSample)
    {behind : List (RawBlock K)} (haccepted : s'.accepted = s.accepted ++ behind)
    (hlength : s.tail ≤ s.accepted.length) (hhead : s.head ≤ s'.head)
    (hnext : s.nextSample ≤ s'.nextSample) : Follows a s' := by
  have htake : ∀ i ≤ s.tail, s'.accepted.take i = s.accepted.take i := fun i hi => by
    rw [haccepted, List.take_append_of_le_length (by omega)]
  have hwithin : ∀ i ≤ s.tail, ∀ samples first, Within a s i samples first →
      Within a s' i samples first := fun i hi samples first ⟨block, w, hblock, hw, hmeet, hrest⟩ => by
    refine ⟨block, w, ?_, by rw [htake i hi, hw], by rw [hworker, hmeet], hrest⟩
    rw [haccepted, List.getElem?_append_left (List.getElem?_eq_some_iff.mp hblock).1, hblock]
  unfold Follows at h ⊢
  rw [hconsumer, hworker, htail, hstalled]
  -- What the worker has measured depends on the blocks it took, and these stay where they are.
  cases hphase : s.consumer with
  | polling =>
    rw [hphase] at h
    exact ⟨h.1, by rw [htake _ le_rfl, h.2]⟩
  | holding samples first =>
    rw [hphase] at h
    exact ⟨h.1, by have := h.2.1; omega, hwithin _ le_rfl _ _ h.2.2⟩
  | feeding samples first =>
    rw [hphase] at h
    exact ⟨h.1, h.2.1, hwithin _ (Nat.sub_le _ _) _ _ h.2.2⟩
  | closing =>
    rw [hphase] at h
    simp only at h ⊢
    rw [htake _ le_rfl]
    refine ⟨h.1, h.2.1.trans hnext, fun hgoes => ?_⟩
    obtain ⟨hdone, hempty, hall⟩ := h.2.2 hgoes
    obtain ⟨hdone', hsame, hhead', -⟩ := hfinished hdone
    exact ⟨hdone', by rw [hempty, hhead'], by rw [hsame, hall]⟩
  | done produced =>
    rw [hphase] at h
    simp only at h ⊢
    obtain ⟨hheld, hparts, hdrops, hproduced, hgoes⟩ := h
    rw [htake _ le_rfl]
    refine ⟨hheld, hparts, hdrops, hproduced.trans hnext, fun hnot => ?_⟩
    obtain ⟨hdone, hempty, hlast, w, hw, hclose⟩ := hgoes hnot
    obtain ⟨hdone', hsame, hhead', hnext'⟩ := hfinished hdone
    exact ⟨hdone', by rw [hempty, hhead'], by rw [hlast, hnext'], w, by rw [hsame, hw], hclose⟩
  | failed => trivial

theorem Ok.tail_le (h : Ok a s) : s.tail ≤ s.accepted.length := by
  rw [h.count]
  exact h.window.1

/-- While a block is under way the input is not finished. -/
theorem Ok.open (h : Ok a s) (hbusy : s.producer ≠ .idle) : s.inputFinished ≠ true := fun hdone =>
  hbusy (h.finished hdone).2

/-- A block that is dropped is counted. -/
theorem Ok.drop {bytes : List (BitVec 8)} {arrival : K} {first : ℕ} (h : Ok a s)
    (hproducer : s.producer = .counted bytes arrival first) :
    Ok a { s with dropped := s.dropped + bytes.length / 2, producer := .idle } := by
  have hopen := h.open (by rw [hproducer]; simp)
  have harrived := h.arrived
  rw [Arrived, hproducer] at harrived
  obtain ⟨hend, hfirst, hnext⟩ := harrived
  exact ⟨h.count, h.window, h.slots, h.ordered, ⟨by simp only; omega, by simp only; omega⟩,
    fun hdone => absurd hdone hopen, h.follows.mono rfl rfl rfl rfl (fun hdone => absurd hdone hopen)
      (List.append_nil _).symm h.tail_le le_rfl le_rfl⟩

/-- A block is copied to a slot that the worker has left. -/
theorem Ok.copy {bytes : List (BitVec 8)} {arrival : K} {first : ℕ} (h : Ok a s)
    (hproducer : s.producer = .counted bytes arrival first) (hroom : s.head < s.tail + poolBlocks) :
    Ok a { s with
      pool := Function.update s.pool (s.head % poolBlocks) ⟨bytes, first, arrival⟩
      producer := .copied ⟨bytes, first, arrival⟩ } := by
  have hopen := h.open (by rw [hproducer]; simp)
  have harrived := h.arrived
  rw [Arrived, hproducer] at harrived
  obtain ⟨hend, hfirst, hnext⟩ := harrived
  refine ⟨h.count, h.window, fun i block hi hblock => ?_, h.ordered,
    ⟨hend, hfirst, hnext, hroom, Function.update_self _ _ _⟩, fun hdone => absurd hdone hopen,
    h.follows.mono rfl rfl rfl rfl (fun hdone => absurd hdone hopen) (List.append_nil _).symm
      h.tail_le le_rfl le_rfl⟩
  have hlt : i < s.head := by
    rw [← h.count]
    exact (List.getElem?_eq_some_iff.mp hblock).1
  simp only at hi
  -- The slot of the new block is not one of a block that the worker has yet to take.
  have hapart : i % poolBlocks ≠ s.head % poolBlocks := mod_ne hlt (by omega)
  simp only
  rw [Function.update_of_ne hapart]
  exact h.slots i block hi hblock

/-- A copied block is queued. -/
theorem Ok.publish {block : RawBlock K} (h : Ok a s) (hproducer : s.producer = .copied block) :
    Ok a { s with head := s.head + 1, producer := .idle, accepted := s.accepted ++ [block] } := by
  have hopen := h.open (by rw [hproducer]; simp)
  have harrived := h.arrived
  rw [Arrived, hproducer] at harrived
  obtain ⟨hend, hfirst, hnext, hroom, hslot⟩ := harrived
  have hwindow := h.window
  refine ⟨by simp [h.count], ⟨by simp only; omega, by simp only; omega⟩,
    fun i other hi hother => ?_, ordered_concat.mpr ⟨h.ordered, hend⟩, ⟨?_, ?_⟩,
    fun hdone => absurd hdone hopen, h.follows.mono rfl rfl rfl rfl (fun hdone => absurd hdone hopen)
      rfl h.tail_le (Nat.le_succ _) le_rfl⟩
  · simp only at hi hother ⊢
    -- The slots of the earlier blocks are unchanged, and the new block is in the slot it was copied to.
    rcases lt_or_ge i s.accepted.length with hlt | hge
    · rw [List.getElem?_append_left hlt] at hother
      exact h.slots i other hi hother
    · rw [List.getElem?_append_right hge, List.getElem?_singleton] at hother
      split_ifs at hother with hzero
      have hlast : i = s.head := by
        rw [← h.count]
        omega
      cases hother
      rw [hlast, hslot]
  · simp only
    rw [endOf_concat, hnext]
  · simp only
    rw [countOf_concat]
    omega

/-- A step of the producer. -/
theorem Ok.produce (h : Ok a s) (action : Action K) : Ok a (s.produce action) := by
  have harrived := h.arrived
  unfold Arrived at harrived
  unfold Intake.produce
  cases action with
  | enter bytes arrival =>
    simp only
    split
    next hproducer =>
      rw [hproducer] at harrived
      split_ifs with hrun
      · have hopen : s.inputFinished ≠ true := fun hdone => by
          rw [(h.finished hdone).1] at hrun
          cases hrun
        exact ⟨h.count, h.window, h.slots, h.ordered, harrived, fun hdone => absurd hdone hopen,
          h.follows.mono rfl rfl rfl rfl (fun hdone => ⟨hdone, rfl, rfl, rfl⟩) (List.append_nil _).symm
            h.tail_le le_rfl le_rfl⟩
      · exact h
    next => exact h
  | count =>
    simp only
    split
    next bytes arrival hproducer =>
      have hopen := h.open (by rw [hproducer]; simp)
      rw [hproducer] at harrived
      exact ⟨h.count, h.window, h.slots, h.ordered, ⟨harrived.1, harrived.2, rfl⟩,
        fun hdone => absurd hdone hopen, h.follows.mono rfl rfl rfl rfl (fun hdone => absurd hdone hopen)
          (List.append_nil _).symm h.tail_le le_rfl (Nat.le_add_right _ _)⟩
    next => exact h
  | check =>
    simp only
    split
    next bytes arrival first hproducer =>
      split_ifs with hdrop
      · exact h.drop hproducer
      · rw [not_or, not_or] at hdrop
        exact h.copy hproducer (by omega)
    next => exact h
  | publish =>
    simp only
    split
    next block hproducer => exact h.publish hproducer
    next => exact h
  | _ => exact h

theorem Ok.stop (h : Ok a s) : Ok a { s with run := false } :=
  ⟨h.count, h.window, h.slots, h.ordered, h.arrived, fun hdone => ⟨rfl, (h.finished hdone).2⟩,
    h.follows.mono rfl rfl rfl rfl (fun hdone => ⟨hdone, rfl, rfl, rfl⟩) (List.append_nil _).symm
      h.tail_le le_rfl le_rfl⟩

/-- The producer and the queue do not depend on where the worker is. -/
theorem Ok.worker (h : Ok a s) {worker : Worker K} {consumer : Consumer K} {stalled : Bool}
    (hfollows : Follows a { s with worker, consumer, stalled }) :
    Ok a { s with worker, consumer, stalled } :=
  ⟨h.count, h.window, h.slots, h.ordered, h.arrived, h.finished, hfollows⟩

theorem Ok.failed (h : Ok a s) : Ok a { s with run := false, consumer := .failed } := by
  have hfailed : Ok a { s with consumer := .failed } := h.worker trivial
  exact hfailed.stop

/-- The end of what was queued. -/
theorem Ok.endOf_le (h : Ok a s) : endOf 0 s.accepted ≤ s.nextSample := by
  have harrived := h.arrived
  unfold Arrived at harrived
  split at harrived <;> omega

theorem Ok.countOf_eq (h : Ok a s) (hidle : s.producer = .idle) :
    s.nextSample = countOf s.accepted + s.dropped := by
  have harrived := h.arrived
  rw [Arrived, hidle] at harrived
  exact harrived.2

/-- What a worker has measured at the head of the loop. -/
theorem Ok.measured (h : Ok a s) (hphase : s.consumer = .polling) : s.stalled = false ∧
    measureAll a (s.accepted.take s.tail) = .ok s.worker ∧
    Measured a (countOf (s.accepted.take s.tail)) s.worker.expected s.worker ∧
    s.worker.expected = endOf 0 (s.accepted.take s.tail) := by
  have hfollows := h.follows
  rw [Follows, hphase] at hfollows
  obtain ⟨hmeasured, hexpected⟩ := measureAll_spec h.ordered.take hfollows.2
  exact ⟨hfollows.1, hfollows.2, hmeasured, hexpected⟩

/-- The block at `tail` is met, and it comes from the producer as it was queued. -/
theorem Ok.take (h : Ok a s) (hphase : s.consumer = .polling) (hne : s.tail ≠ s.head) :
    ∃ block w', s.accepted[s.tail]? = some block ∧ meet a block s.worker = .ok w' ∧
      s.take a = { s with worker := w', consumer := .holding (a.samples block) block.first } := by
  obtain ⟨-, -, hmeasured, hexpected⟩ := h.measured hphase
  have hwindow := h.window
  obtain ⟨block, hblock⟩ : ∃ block, s.accepted[s.tail]? = some block := by
    refine ⟨_, List.getElem?_eq_getElem ?_⟩
    rw [h.count]
    omega
  have hle := (h.ordered.between hblock).1
  rw [← hexpected] at hle
  obtain ⟨w', hmeet, -⟩ := meet_spec (a := a) hmeasured hle
  refine ⟨block, w', hblock, hmeet, ?_⟩
  have hslot := h.slots s.tail block le_rfl hblock
  unfold Intake.take
  simp only [hslot, hmeet]

theorem measureAll_concat {block : RawBlock K} {blocks : List (RawBlock K)} :
    measureAll a (blocks ++ [block]) = measureAll a blocks >>= fun w => measure a w block := by
  simp [measureAll, List.foldlM_append]

/-- The watchdog ends a worker, whatever was queued since the worker looked. -/
theorem Ok.stall (h : Ok a s) (hphase : s.consumer = .polling) (elapsed : K) :
    Ok a { s with
      worker := recordStall a elapsed s.worker, run := false, consumer := .closing, stalled := true } := by
  obtain ⟨-, -, hmeasured, hexpected⟩ := h.measured hphase
  have hbefore : endOf 0 (s.accepted.take s.tail) ≤ endOf 0 s.accepted := h.ordered.endOf_take_le
  have hend := h.endOf_le
  have hclosing : Ok a { s with
      worker := recordStall a elapsed s.worker, consumer := .closing, stalled := true } := by
    refine h.worker ?_
    refine ⟨hmeasured.stall, ?_, fun hnot => by cases hnot⟩
    simp only [recordStall_expected]
    omega
  exact hclosing.stop

/-- Behind the store to `tail` the worker is in the same block, and the producer has more room. -/
theorem Ok.release {samples : List (Cpx K)} {first : ℕ} (h : Ok a s)
    (hphase : s.consumer = .holding samples first) :
    Ok a { s with tail := s.tail + 1, consumer := .feeding samples first } := by
  have hfollows := h.follows
  rw [Follows, hphase] at hfollows
  obtain ⟨hgoes, hlt, hwithin⟩ := hfollows
  have hwindow := h.window
  have harrived := h.arrived
  refine ⟨h.count, ⟨hlt, by simp only; omega⟩, fun i block hi => h.slots i block (Nat.le_of_succ_le hi),
    h.ordered, ?_, h.finished, hgoes, Nat.succ_pos _, hwithin⟩
  -- Room for the block of the producer only grows when `tail` moves on.
  unfold Arrived at harrived ⊢
  split at harrived
  next hproducer => simpa [hproducer] using harrived
  next hproducer => simpa [hproducer] using harrived
  next hproducer => simpa [hproducer] using harrived
  next hproducer =>
    simp only [hproducer]
    exact ⟨harrived.1, harrived.2.1, harrived.2.2.1, by omega, harrived.2.2.2.2⟩

/-- The samples of a block are measured, unless the coordinates end within them. -/
theorem Ok.feed {samples : List (Cpx K)} {first : ℕ} (h : Ok a s)
    (hphase : s.consumer = .feeding samples first) :
    (∀ w', follow a samples first s.worker = .ok w' → Ok a { s with worker := w', consumer := .polling }) ∧
      ∀ e, follow a samples first s.worker = .error e → 2 ^ 64 ≤ s.nextSample := by
  have hfollows := h.follows
  rw [Follows, hphase] at hfollows
  obtain ⟨hgoes, hpos, block, w, hblock, hall, hmeet, rfl, rfl⟩ := hfollows
  refine ⟨fun w' hfollow => h.worker ⟨hgoes, ?_⟩, fun e hfollow => ?_⟩
  · have hnext : s.accepted.take s.tail = s.accepted.take (s.tail - 1) ++ [block] := by
      have hsucc : s.tail = s.tail - 1 + 1 := by omega
      rw [hsucc, List.take_add_one, Nat.add_sub_cancel, hblock, Option.toList_some]
    show measureAll a (s.accepted.take s.tail) = .ok w'
    rw [hnext, measureAll_concat, hall]
    show measure a w block = .ok w'
    rw [measure, hmeet]
    exact hfollow
  · -- Below the end of the coordinates `follow` accepts the block, as its samples follow those before
    -- it.
    by_contra hbound
    obtain ⟨hmeasured, hexpected⟩ := measureAll_spec h.ordered.take hall
    obtain ⟨hfirst, hlast⟩ := h.ordered.between hblock
    rw [← hexpected] at hfirst
    obtain ⟨met, hmeet', hmet, -⟩ := meet_spec (a := a) hmeasured hfirst
    cases hmeet'.symm.trans hmeet
    have hend := h.endOf_le
    obtain ⟨w', hok⟩ : ∃ w', follow a (a.samples block) block.first s.worker = .ok w' := by
      refine follow_ok hmet ?_
      rw [length_samples]
      omega
    cases hok.symm.trans hfollow

/-- The worker leaves when the input is finished and the queue is empty: it has seen every block. -/
theorem Ok.leave (h : Ok a s) (hphase : s.consumer = .polling) (hfinished : s.inputFinished = true)
    (hempty : s.tail = s.head) : Ok a { s with consumer := .closing } := by
  obtain ⟨hgoes, hall, hmeasured, hexpected⟩ := h.measured hphase
  have hwhole : s.accepted.take s.tail = s.accepted := by
    rw [hempty, ← h.count, List.take_length]
  have hend := h.endOf_le
  rw [hwhole] at hall hexpected
  refine h.worker ⟨hmeasured, ?_, fun _ => ⟨hfinished, hempty, hall⟩⟩
  show s.worker.expected ≤ s.nextSample
  omega

/-- What follows the loop accounts for the rest. -/
theorem Ok.close (h : Ok a s) (hphase : s.consumer = .closing) : Ok a { s with
    worker := SampleQueue.close a s.nextSample s.worker, consumer := .done s.nextSample } := by
  have hfollows := h.follows
  rw [Follows, hphase] at hfollows
  obtain ⟨hmeasured, hle, hgoes⟩ := hfollows
  obtain ⟨hheld, hdrops, hparts⟩ := close_spec hmeasured hle
  refine h.worker ⟨hheld, hparts, hdrops, le_rfl, fun hnot => ?_⟩
  obtain ⟨hdone, hempty, hall⟩ := hgoes hnot
  exact ⟨hdone, hempty, rfl, s.worker, hall, rfl⟩

/-- A step of the worker, which fails only where the coordinates end. -/
theorem Ok.consume (h : Ok a s) (action : Action K) : Ok a (s.consume a action) ∧
    ((s.consume a action).consumer = .failed → s.consumer = .failed ∨ action = .fail ∨
      2 ^ 64 ≤ s.nextSample) ∧ (s.consume a action).nextSample = s.nextSample := by
  have hstays : ∀ p : Prop, Ok a s ∧ (s.consumer = .failed → s.consumer = .failed ∨ p ∨
      2 ^ 64 ≤ s.nextSample) ∧ s.nextSample = s.nextSample := fun _ => ⟨h, .inl, rfl⟩
  unfold Intake.consume
  cases action with
  | take =>
    simp only
    split
    next hphase =>
      split_ifs with hne
      · obtain ⟨block, w', hblock, hmeet, htake⟩ := h.take hphase hne
        obtain ⟨hgoes, hall, -, -⟩ := h.measured hphase
        have hwindow := h.window
        rw [htake]
        refine ⟨h.worker ⟨hgoes, by simp only; omega, block, s.worker, hblock, hall, hmeet, rfl, rfl⟩,
          fun hfail => ?_, rfl⟩
        cases hfail
      · exact hstays _
    next => exact hstays _
  | release =>
    simp only
    split
    next samples first hphase => exact ⟨h.release hphase, fun hfail => (by cases hfail), rfl⟩
    next => exact hstays _
  | feed =>
    simp only
    split
    next samples first hphase =>
      obtain ⟨hgoes, hends⟩ := h.feed hphase
      split
      next w' hfollow => exact ⟨hgoes w' hfollow, fun hfail => (by cases hfail), rfl⟩
      next e hfollow => exact ⟨h.failed, fun _ => .inr (.inr (hends e hfollow)), rfl⟩
    next => exact hstays _
  | stall elapsed =>
    simp only
    split
    next hphase =>
      split_ifs with hstall
      · exact ⟨h.stall hphase elapsed, fun hfail => False.elim hfail, rfl⟩
      · exact hstays _
    next => exact hstays _
  | leave =>
    simp only
    split
    next hphase =>
      split_ifs with hleave
      · exact ⟨h.leave hphase hleave.2.1 hleave.2.2, fun hfail => (by cases hfail), rfl⟩
      · exact hstays _
    next => exact hstays _
  | close =>
    simp only
    split
    next hphase => exact ⟨h.close hphase, fun hfail => (by cases hfail), rfl⟩
    next => exact hstays _
  | fail =>
    simp only
    split
    next => exact hstays _
    next => exact ⟨h.failed, fun _ => .inr (.inl trivial), rfl⟩
  | _ => exact hstays _

/-- One step of anyone. -/
theorem Ok.step (h : Ok a s) (action : Action K) : Ok a (s.step a action) ∧
    ((s.step a action).consumer = .failed → s.consumer = .failed ∨ action = .fail ∨
      2 ^ 64 ≤ s.nextSample) ∧ s.nextSample ≤ (s.step a action).nextSample := by
  have hproduced : ∀ action : Action K, (s.produce action).consumer = s.consumer ∧
      s.nextSample ≤ (s.produce action).nextSample := fun action => by
    unfold Intake.produce
    cases action with
    | enter => simp only; split <;> (try split_ifs) <;> simp
    | count => simp only; split <;> simp
    | check => simp only; split <;> (try split_ifs) <;> simp
    | publish => simp only; split <;> simp
    | _ => exact ⟨rfl, le_rfl⟩
  unfold Intake.step
  cases action with
  | enter | count | check | publish =>
    exact ⟨h.produce _, fun hfail => .inl ((hproduced _).1 ▸ hfail), (hproduced _).2⟩
  | stop => exact ⟨h.stop, fun hfail => .inl hfail, le_rfl⟩
  | join =>
    simp only
    split
    next hidle =>
      split_ifs with hrun
      · exact ⟨h, fun hfail => .inl hfail, le_rfl⟩
      · refine ⟨⟨h.count, h.window, h.slots, h.ordered, h.arrived, fun _ => ⟨by simpa using hrun, hidle⟩,
          h.follows.mono rfl rfl rfl rfl (fun _ => ⟨rfl, rfl, rfl, rfl⟩) (List.append_nil _).symm
            h.tail_le le_rfl le_rfl⟩, fun hfail => .inl hfail, le_rfl⟩
    next => exact ⟨h, fun hfail => .inl hfail, le_rfl⟩
  | _ =>
    obtain ⟨hok, hfail, hnext⟩ := h.consume _
    exact ⟨hok, hfail, hnext.ge⟩

theorem run_ok (actions : List (Action K)) : Ok a (Runs.run (Intake.step a) a.start actions) :=
  Runs.invariant_run (fun _ action h => (h.step action).1) ok_start actions

theorem run_fails (actions : List (Action K))
    (hfailed : (Runs.run (Intake.step a) a.start actions).consumer = .failed) :
    .fail ∈ actions ∨ 2 ^ 64 ≤ (Runs.run (Intake.step a) a.start actions).nextSample := by
  induction actions using List.reverseRecOn with
  | nil => cases hfailed
  | append_singleton actions action ih =>
    rw [Runs.run_concat] at hfailed ⊢
    obtain ⟨-, hfails, hnext⟩ := (run_ok (a := a) actions).step action
    rcases hfails hfailed with hbefore | rfl | hbound
    · exact (ih hbefore).imp (List.mem_append_left _) (le_trans · hnext)
    · exact .inl (by simp)
    · exact .inr (hbound.trans hnext)

/-- **Every sample is measured once or in a gap**, in whatever order the producer, the worker and the
callers take their steps. -/
theorem intake_conserves (a : Acquisition K) (actions : List (Action K)) :
    let s := Runs.run (Intake.step a) a.start actions
    match s.consumer with
    | .done produced =>
      (∀ i, s.worker.holders i = if i < produced then 1 else 0) ∧
        s.worker.missing "partial_fft" = s.worker.spectrum.discarded ∧ produced ≤ s.nextSample ∧
        (s.stalled = false → produced = s.nextSample ∧
          s.worker.missing "application_drop" = s.dropped ∧
          ∃ w, measureAll a s.accepted = .ok w ∧ s.worker = close a produced w)
    | .failed => .fail ∈ actions ∨ 2 ^ 64 ≤ s.nextSample
    | _ => True := by
  have hok := run_ok (a := a) actions
  have hfails := run_fails (a := a) actions
  simp only
  generalize Runs.run (Intake.step a) a.start actions = s at hok hfails
  have hfollows := hok.follows
  unfold Follows at hfollows
  split
  next produced hphase =>
    rw [hphase] at hfollows
    obtain ⟨hheld, hparts, hdrops, hproduced, hgoes⟩ := hfollows
    refine ⟨hheld, hparts, hproduced, fun hnot => ?_⟩
    obtain ⟨hdone, hempty, hlast, w, hw, hclose⟩ := hgoes hnot
    have hcount := hok.countOf_eq (hok.finished hdone).2
    rw [hempty, ← hok.count, List.take_length] at hdrops
    exact ⟨hlast, by omega, w, hw, hclose⟩
  next hphase => exact hfails hphase
  next => trivial

end Run

end SampleQueue

end OVMesh
