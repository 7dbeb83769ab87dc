import OVMesh.Discovery.Decoder
import OVMesh.Lib.DelayLine

/-!
# The channelizer of the discovery worker

`DiscoveryChannelizer`: it filters the source samples into subbands and keeps every `stride`-th output.
The filter bank (prototype filter, transform and rotations) is any function of the newest samples, the
phase of the modulation and the subband, and a sample is finite or not.

* `Channelizer.feed`: one call. It throws for a break in the coordinates and for a sample that is not
  finite; the blocks that it delivers are returned.
* `outputsOf`, `coordinate`: the outputs of a stretch of samples for a subband, and their coordinates.
* `feed_spec`: a call delivers what is new of these outputs, at their coordinates.
-/

namespace OVMesh

namespace Discovery

open Runs

/-- The distance between two subband centres. -/
def centerSpacing : ℕ := 1000000
/-- The taps that a sample meets in one phase of the filter bank. -/
def tapsPerPhase : ℕ := 32
/-- The samples between two deliveries. -/
def flushBlock : ℕ := 4096

/-- What `feed` throws when the last coordinate of a block does not fit 64 bits. -/
def coordinateOverflow : String := "Discovery input sample coordinate overflow"
/-- What `feed` throws when a sample is not finite. -/
def nonFiniteInput : String := "Non-finite discovery input; channelizer reset"

/-- What the constructor checks and keeps of the sample rate and the range. -/
structure ChannelizerConfig where
  rate : ℕ
  subbands : ℕ
  supported : rate ∈ [2000000, 8000000, 10000000, 12000000, 16000000, 20000000]
  subbands_pos : 0 < subbands

namespace ChannelizerConfig

variable (config : ChannelizerConfig)

/-- The phases of the filter bank: the input samples in a period of the subband spacing. -/
def phases : ℕ := config.rate / centerSpacing
/-- The input samples for each output sample. -/
def stride : ℕ := config.rate / outputSampleRate
/-- The delay of the filter, half its length. -/
def delay : ℕ := config.phases * tapsPerPhase / 2
/-- `taps.size()`: the length of the filter, one more than the taps of all phases. -/
def taps : ℕ := config.phases * tapsPerPhase + 1

theorem stride_pos : 0 < config.stride := by
  have hsupported := config.supported
  simp only [List.mem_cons, List.not_mem_nil, or_false] at hsupported
  rcases hsupported with h | h | h | h | h | h <;> rw [stride, h] <;> decide

theorem delay_eq : config.delay = tapsPerPhase * config.stride := by
  have hsupported := config.supported
  simp only [List.mem_cons, List.not_mem_nil, or_false] at hsupported
  rcases hsupported with h | h | h | h | h | h <;> rw [delay, phases, stride, h] <;> decide

theorem taps_eq : config.taps = 2 * tapsPerPhase * config.stride + 1 := by
  have hsupported := config.supported
  simp only [List.mem_cons, List.not_mem_nil, or_false] at hsupported
  rcases hsupported with h | h | h | h | h | h <;> rw [taps, phases, stride, h] <;> decide

end ChannelizerConfig

/-- The filter bank. `output` takes the newest samples, newest first, the phase of the modulation and
the subband. -/
structure FilterBank (C : Type) where
  output : List C → Bool → ℕ → C
  finite : C → Bool

/-- `DiscoveryChannelizer::Samples`: the samples of a subband, with the coordinate of the first in the
input. -/
structure Samples (C : Type) where
  subbandIndex : ℕ
  firstInputSample : ℕ
  inputSampleStride : ℕ
  values : List C

/-- The members of `DiscoveryChannelizer::Impl` that change. -/
structure Channelizer (C : Type) where
  history : List C
  outputs : List (List C)
  historyPosition : ℕ := 0
  filled : ℕ := 0
  decimationPhase : ℕ := 0
  modulationPhase : Bool := false
  nextInput : ℕ := 0
  origin : ℕ := 0
  outputFirst : ℕ := 0
  initialized : Bool := false

/-- What a call leaves and delivers, and the text where it throws. -/
structure Delivery (C : Type) where
  bank : Channelizer C
  delivered : List (Samples C)
  error : Option String

section Channelizer

variable {C : Type} [Zero C] (config : ChannelizerConfig) (filter : FilterBank C)

namespace Channelizer

/-- A bank before its first sample, with a history of zeros and no output. -/
def initial : Channelizer C :=
  { history := List.replicate (2 * config.taps) 0, outputs := List.replicate config.subbands [] }

/-- `reset`: the history is overwritten with zeros and the outputs are dropped. -/
def reset (b : Channelizer C) : Channelizer C :=
  { history := b.history.map fun _ => 0, outputs := b.outputs.map fun _ => [] }

/-- The body of the loop of `feed`: the sample enters both halves of the history, and every `stride`
samples the bank has an output. -/
def sample (b : Channelizer C) (value : C) (absolute : ℕ) : Channelizer C :=
  let b := { b with
    history := DelayLine.write b.history config.taps b.historyPosition value
    historyPosition := DelayLine.back config.taps b.historyPosition
    filled := min (b.filled + 1) config.taps }
  if b.decimationPhase + 1 < config.stride then { b with decimationPhase := b.decimationPhase + 1 }
  else
    let modulation := b.modulationPhase
    let b := { b with decimationPhase := 0, modulationPhase := !modulation }
    if b.filled < config.taps then b
    else
      let window := DelayLine.span b.history config.taps b.historyPosition
      { b with
        outputFirst := if (b.outputs.headD []).isEmpty then absolute - config.delay else b.outputFirst
        outputs := b.outputs.mapIdx fun i output => output ++ [filter.output window modulation i] }

/-- The outputs are delivered, those of a subband in one block. -/
def flush (b : Channelizer C) : Channelizer C × List (Samples C) :=
  ({ b with outputs := b.outputs.map fun _ => [] },
    (b.outputs.mapIdx fun i output => ⟨i, b.outputFirst, config.stride, output⟩).filter
      fun block => !block.values.isEmpty)

/-- The loop of `feed` over one block. -/
def samples : Channelizer C → List C → Channelizer C × Option String
  | b, [] => (b, none)
  | b, value :: values =>
    if filter.finite value then
      samples { sample config filter b value b.nextInput with nextInput := b.nextInput + 1 } values
    else (b.reset, some nonFiniteInput)

/-- The loop of `feed`, with as much fuel as there are samples. -/
def feedBlocks : ℕ → Channelizer C → List C → Delivery C
  | 0, b, _ => ⟨b, [], none⟩
  | fuel + 1, b, input =>
    if input.isEmpty then ⟨b, [], none⟩
    else
      let count := min input.length flushBlock
      match samples config filter b (input.take count) with
      | (b, some error) => ⟨b, [], some error⟩
      | (b, none) =>
        let flushed := flush config b
        let rest := feedBlocks fuel flushed.1 (input.drop count)
        { rest with delivered := flushed.2 ++ rest.delivered }

/-- `feed`: it throws before it changes anything, except for a sample that is not finite, which resets the
bank. -/
def feed (b : Channelizer C) (input : List C) (first : ℕ) : Delivery C :=
  if input.length > 2 ^ 64 - 1 - first then
    ⟨b, [], some coordinateOverflow⟩
  else if b.initialized = true ∧ first ≠ b.nextInput then
    ⟨b, [], some "Reset discovery channelizer before an input discontinuity"⟩
  else
    let b :=
      if b.initialized then b
      else { b with origin := first, nextInput := first, initialized := true }
    feedBlocks config filter input.length b input

/-- A stretch of samples in chunks, up to the first call that throws. -/
def feedAll (b : Channelizer C) (first : ℕ) : List (List C) → Delivery C
  | [] => ⟨b, [], none⟩
  | chunk :: chunks =>
    match feed config filter b chunk first with
    | ⟨b, delivered, some error⟩ => ⟨b, delivered, some error⟩
    | ⟨b, delivered, none⟩ =>
      let rest := feedAll b (first + chunk.length) chunks
      { rest with delivered := delivered ++ rest.delivered }

end Channelizer

/-! ## The outputs of a stretch -/

/-- The outputs of a subband for so many samples: one for each `stride` samples, but for the first
ones, for which the filter has too few. -/
def outputCount (samples : ℕ) : ℕ := samples / config.stride - 2 * tapsPerPhase

/-- The samples up to an output. -/
def samplesTo (j : ℕ) : ℕ := (2 * tapsPerPhase + 1 + j) * config.stride

/-- An output of a stretch. -/
def outputAt (stretch : List C) (subband j : ℕ) : C :=
  filter.output ((stretch.take (samplesTo config j)).reverse.take config.taps) (decide (j % 2 = 1))
    subband

/-- The outputs of a stretch for a subband. -/
def outputsOf (stretch : List C) (subband : ℕ) : List C :=
  (List.range (outputCount config stretch.length)).map (outputAt config filter stretch subband)

/-- The input coordinate of an output of a stretch with a first sample. -/
def coordinate (first j : ℕ) : ℕ := first + (tapsPerPhase + 1 + j) * config.stride - 1

/-- The outputs of every subband of the bank. -/
def received (stretch : List C) (subband : ℕ) : List C :=
  if subband < config.subbands then outputsOf config filter stretch subband else []

/-- A block is delivered to its subband. -/
def receive (got : ℕ → List C) (block : Samples C) : ℕ → List C :=
  Function.update got block.subbandIndex (got block.subbandIndex ++ block.values)

/-- A block goes on where its subband is: it is at the coordinate of its first output, and has the
outputs of the stretch that follow. -/
structure OnTime (first : ℕ) (stretch : List C) (got : ℕ → List C) (block : Samples C) : Prop where
  subband : block.subbandIndex < config.subbands
  values : block.values ≠ []
  first : block.firstInputSample = coordinate config first (got block.subbandIndex).length
  stride : block.inputSampleStride = config.stride
  next : got block.subbandIndex ++ block.values <+: outputsOf config filter stretch block.subbandIndex

variable {config filter} {b : Channelizer C} {stretch more : List C} {value : C}
  {subband j first sent n : ℕ} {input : List C} {fed : Delivery C}

omit [Zero C] in
theorem length_outputsOf :
    (outputsOf config filter stretch subband).length = outputCount config stretch.length := by
  rw [outputsOf, List.length_map, List.length_range]

theorem outputCount_mono {m : ℕ} (h : m ≤ n) : outputCount config m ≤ outputCount config n :=
  Nat.sub_le_sub_right (Nat.div_le_div_right h) _

/-- The coordinates of a stretch are an arithmetic progression. -/
theorem coordinate_add : coordinate config first (j + n) = coordinate config first j + n * config.stride := by
  have hpos : config.stride ≤ (tapsPerPhase + 1 + j) * config.stride :=
    Nat.le_mul_of_pos_left _ (by omega)
  have hstride := config.stride_pos
  rw [coordinate, coordinate, ← Nat.add_assoc, Nat.add_mul _ n]
  omega

/-- An output has all of its samples. -/
theorem samplesTo_le (h : j < outputCount config n) : samplesTo config j ≤ n := by
  rw [outputCount] at h
  have hle : 2 * tapsPerPhase + 1 + j ≤ n / config.stride := by omega
  exact (Nat.le_div_iff_mul_le config.stride_pos).mp hle

omit [Zero C] in
/-- More samples change no output. -/
theorem outputAt_append (h : j < outputCount config stretch.length) :
    outputAt config filter (stretch ++ more) subband j = outputAt config filter stretch subband j := by
  rw [outputAt, outputAt, List.take_append_of_le_length (samplesTo_le h)]

omit [Zero C] in
/-- With more samples there are more outputs. -/
theorem outputsOf_grows :
    outputsOf config filter stretch subband <+: outputsOf config filter (stretch ++ more) subband := by
  have hle : outputCount config stretch.length ≤ outputCount config (stretch ++ more).length :=
    outputCount_mono (by rw [List.length_append]; omega)
  obtain ⟨k, hk⟩ := Nat.exists_eq_add_of_le hle
  rw [outputsOf, outputsOf, hk, List.range_add, List.map_append]
  refine ⟨_, congrArg (· ++ _) (List.map_congr_left fun j hj => ?_)⟩
  exact (outputAt_append (List.mem_range.mp hj)).symm

omit [Zero C] in
theorem outputsOf_concat_same
    (h : outputCount config (stretch.length + 1) = outputCount config stretch.length) :
    outputsOf config filter (stretch ++ [value]) subband = outputsOf config filter stretch subband := by
  refine (outputsOf_grows.eq_of_length ?_).symm
  rw [length_outputsOf, length_outputsOf, List.length_append, List.length_singleton, h]

omit [Zero C] in
theorem outputsOf_concat_next
    (h : outputCount config (stretch.length + 1) = outputCount config stretch.length + 1) :
    outputsOf config filter (stretch ++ [value]) subband = outputsOf config filter stretch subband ++
      [outputAt config filter (stretch ++ [value]) subband (outputCount config stretch.length)] := by
  rw [outputsOf, List.length_append, List.length_singleton, h, List.range_succ, List.map_append,
    outputsOf]
  refine congrArg (· ++ _) (List.map_congr_left fun j hj => ?_)
  exact outputAt_append (List.mem_range.mp hj)

/-! ## Steps -/

namespace Channelizer

variable (config filter) in
/-- The channelizer has taken a stretch from its first sample on, and delivered so many outputs of each
subband. -/
structure At (b : Channelizer C) (first : ℕ) (stretch : List C) (sent : ℕ) : Prop where
  history : DelayLine.Holds b.history config.taps b.historyPosition stretch.reverse
  filled : b.filled = min stretch.length config.taps
  decimation : b.decimationPhase = stretch.length % config.stride
  modulation : b.modulationPhase = decide (stretch.length / config.stride % 2 = 1)
  next : b.nextInput = first + stretch.length
  initialized : b.initialized = true
  outputs : b.outputs =
    (List.range config.subbands).map fun i => (outputsOf config filter stretch i).drop sent
  sent_le : sent ≤ outputCount config stretch.length
  outputFirst : sent < outputCount config stretch.length → b.outputFirst = coordinate config first sent

omit [Zero C] in
/-- A list over the subbands, with what is at each. -/
theorem mapIdx_range {α β : Type} (f : ℕ → α) (g : ℕ → α → β) :
    ((List.range n).map f).mapIdx g = (List.range n).map fun i => g i (f i) := by
  refine List.ext_getElem (by simp) fun i h₁ h₂ => ?_
  simp

/-- The number of outputs after one more sample. -/
theorem outputCount_succ (hs : ¬ n % config.stride + 1 < config.stride) :
    (n + 1 < config.taps → outputCount config (n + 1) = 0) ∧
    (config.taps ≤ n + 1 → outputCount config (n + 1) = outputCount config n + 1 ∧
      samplesTo config (outputCount config n) = n + 1 ∧
      outputCount config n % 2 = n / config.stride % 2) := by
  obtain ⟨hdiv, -, hmul⟩ := (Ring.succ_div_mod config.stride_pos).2 hs
  rw [config.taps_eq, outputCount, outputCount, samplesTo, hdiv]
  constructor
  · intro hlt
    have hle : n / config.stride + 1 ≤ 2 * tapsPerPhase := by
      refine Nat.le_of_mul_le_mul_right ?_ config.stride_pos
      omega
    omega
  · intro hge
    have hlt : 2 * tapsPerPhase < n / config.stride + 1 := by
      refine Nat.lt_of_mul_lt_mul_right (a := config.stride) ?_
      omega
    have hcount : 2 * tapsPerPhase + 1 + (n / config.stride - 2 * tapsPerPhase) =
        n / config.stride + 1 := by omega
    rw [hcount, hmul]
    exact ⟨by omega, rfl, by omega⟩

omit [Zero C] in
/-- A sample: the outputs are those of the longer stretch. -/
theorem At.sample (h : At config filter b first stretch sent) (value : C) :
    At config filter { b.sample config filter value b.nextInput with nextInput := b.nextInput + 1 }
      first (stretch ++ [value]) sent := by
  have hstride := config.stride_pos
  have hlength : (stretch ++ [value]).length = stretch.length + 1 := by
    rw [List.length_append, List.length_singleton]
  have hreverse : (stretch ++ [value]).reverse = value :: stretch.reverse := by
    rw [List.reverse_append]
    rfl
  have hhistory := h.history.write value
  rw [← hreverse] at hhistory
  have hfilled : min (b.filled + 1) config.taps = min (stretch ++ [value]).length config.taps := by
    rw [h.filled, hlength]
    omega
  have hnext : b.nextInput + 1 = first + (stretch ++ [value]).length := by
    rw [h.next, hlength, Nat.add_assoc]
  simp only [Channelizer.sample]
  -- Between two outputs only the history grows.
  by_cases hphase : b.decimationPhase + 1 < config.stride
  · have hphase' := hphase
    rw [h.decimation] at hphase'
    obtain ⟨hdiv, hmod⟩ := (Ring.succ_div_mod hstride).1 hphase'
    have hcount : outputCount config (stretch.length + 1) = outputCount config stretch.length := by
      rw [outputCount, hdiv, outputCount]
    rw [if_pos hphase]
    refine ⟨hhistory, hfilled, ?_, ?_, hnext, h.initialized, ?_, ?_, ?_⟩
    · rw [hlength, hmod, h.decimation]
    · rw [hlength, hdiv]
      exact h.modulation
    · simp only [outputsOf_concat_same hcount]
      exact h.outputs
    · rw [hlength, hcount]
      exact h.sent_le
    · rw [hlength, hcount]
      exact h.outputFirst
  rw [if_neg hphase]
  rw [h.decimation] at hphase
  obtain ⟨hdiv, hmod, -⟩ := (Ring.succ_div_mod hstride).2 hphase
  have hmodulation : (!b.modulationPhase) =
      decide ((stretch ++ [value]).length / config.stride % 2 = 1) := by
    rw [hlength, hdiv, h.modulation, ← decide_not]
    refine decide_eq_decide.mpr ?_
    omega
  have hdecimation : 0 = (stretch ++ [value]).length % config.stride := by rw [hlength, hmod]
  have hsent := h.sent_le
  obtain ⟨hfew, hmany⟩ := outputCount_succ hphase
  -- There is no output while the history is not full.
  by_cases htaps : min (b.filled + 1) config.taps < config.taps
  · rw [if_pos htaps]
    rw [hfilled, hlength] at htaps
    have hzero := hfew (by omega)
    have hle := @outputCount_mono config _ _ (Nat.le_add_right stretch.length 1)
    have hcount : outputCount config (stretch.length + 1) = outputCount config stretch.length := by
      omega
    refine ⟨hhistory, hfilled, hdecimation, hmodulation, hnext, h.initialized, ?_, ?_, ?_⟩
    · simp only [outputsOf_concat_same hcount]
      exact h.outputs
    · rw [hlength, hcount]
      exact hsent
    · rw [hlength, hcount]
      exact h.outputFirst
  rw [if_neg htaps]
  rw [hfilled, hlength] at htaps
  obtain ⟨hcount, hsamples, hparity⟩ := hmany (by omega)
  -- The double history holds the newest samples without a break, newest first.
  have hwindow : DelayLine.span (DelayLine.write b.history config.taps b.historyPosition value)
      config.taps (DelayLine.back config.taps b.historyPosition) =
      (stretch ++ [value]).reverse.take config.taps :=
    hhistory.span (by rw [List.length_reverse]; omega)
  have hvalue : ∀ i, filter.output ((stretch ++ [value]).reverse.take config.taps) b.modulationPhase i =
      outputAt config filter (stretch ++ [value]) i (outputCount config stretch.length) := by
    intro i
    rw [outputAt, hsamples, ← hlength, List.take_length, hparity, h.modulation]
  refine ⟨hhistory, hfilled, hdecimation, hmodulation, hnext, h.initialized, ?_, ?_, fun _ => ?_⟩
  · simp only [hwindow, hvalue]
    rw [h.outputs, mapIdx_range]
    refine List.map_congr_left fun i _ => ?_
    rw [outputsOf_concat_next hcount, List.drop_append_of_le_length]
    rw [length_outputsOf]
    exact hsent
  · rw [hlength, hcount]
    omega
  · have hhead : (b.outputs.headD []).isEmpty = true ↔
        sent = outputCount config stretch.length := by
      obtain ⟨k, hk⟩ := Nat.exists_eq_add_of_lt config.subbands_pos
      rw [h.outputs, hk, Nat.zero_add, List.range_succ_eq_map, List.map_cons, List.headD_cons,
        List.isEmpty_iff_length_eq_zero, List.length_drop, length_outputsOf]
      omega
    simp only [hhead]
    split_ifs with hempty
    · have hpos : config.stride ≤ (tapsPerPhase + 1 + sent) * config.stride :=
        Nat.le_mul_of_pos_left _ (by rw [tapsPerPhase]; omega)
      rw [samplesTo, ← hempty] at hsamples
      have hsplit : (2 * tapsPerPhase + 1 + sent) * config.stride =
          tapsPerPhase * config.stride + (tapsPerPhase + 1 + sent) * config.stride := by ring
      rw [h.next, coordinate, config.delay_eq]
      omega
    · exact h.outputFirst (by omega)

/-! ## Deliveries -/

omit [Zero C] in
theorem onTime_mono {got : ℕ → List C} {block : Samples C}
    (h : OnTime config filter first stretch got block) :
    OnTime config filter first (stretch ++ more) got block :=
  ⟨h.subband, h.values, h.first, h.stride, h.next.trans outputsOf_grows⟩

omit [Zero C] in
/-- One block for each of some subbands. -/
theorem receive_blocks {block : ℕ → Samples C} {subbands : List ℕ} {got : ℕ → List C}
    (hnodup : subbands.Nodup) (hindex : ∀ i, (block i).subbandIndex = i)
    (htime : ∀ i ∈ subbands, OnTime config filter first stretch got (block i)) :
    Along receive (OnTime config filter first stretch) got (subbands.map block) ∧
    run receive got (subbands.map block) =
      fun i => if i ∈ subbands then got i ++ (block i).values else got i := by
  induction subbands generalizing got with
  | nil => exact ⟨trivial, by simp⟩
  | cons j subbands ih =>
    obtain ⟨hj, hrest⟩ := List.forall_mem_cons.mp htime
    obtain ⟨hnotMem, hnodup⟩ := List.nodup_cons.mp hnodup
    have hkeeps : ∀ i, i ≠ j → receive got (block j) i = got i := by
      intro i hne
      rw [receive, hindex, Function.update_of_ne hne]
    have hmem : ∀ i ∈ subbands, i ≠ j := fun i hi heq => hnotMem (heq ▸ hi)
    obtain ⟨halong, hrun⟩ := @ih (receive got (block j)) hnodup fun i hi => by
      have h := hrest i hi
      have hgot := hkeeps i (hmem i hi)
      refine ⟨h.subband, h.values, ?_, h.stride, ?_⟩
      · have hfirst := h.first
        rw [hindex] at hfirst ⊢
        rwa [hgot]
      · have hnext := h.next
        rw [hindex] at hnext ⊢
        rwa [hgot]
    refine ⟨⟨hj, halong⟩, ?_⟩
    rw [List.map_cons, run_cons, hrun]
    funext i
    by_cases heq : i = j
    · subst heq
      rw [if_neg hnotMem, if_pos List.mem_cons_self, receive, hindex, Function.update_self]
    · rw [hkeeps i heq]
      simp [heq]

omit [Zero C] in
/-- The flush delivers the outputs that were not delivered. -/
theorem at_flush (h : At config filter b first (stretch ++ more) (outputCount config stretch.length)) :
    At config filter (flush config b).1 first (stretch ++ more)
      (outputCount config (stretch ++ more).length) ∧
    Along receive (OnTime config filter first (stretch ++ more)) (received config filter stretch)
      (flush config b).2 ∧
    run receive (received config filter stretch) (flush config b).2 =
      received config filter (stretch ++ more) := by
  have hsplit : ∀ i, outputsOf config filter stretch i ++
      (outputsOf config filter (stretch ++ more) i).drop (outputCount config stretch.length) =
        outputsOf config filter (stretch ++ more) i := by
    intro i
    obtain ⟨rest, hrest⟩ := @outputsOf_grows _ config filter stretch more i
    rw [← hrest, ← @length_outputsOf _ config filter stretch i, List.drop_left]
  have hblocks : (flush config b).2 = ((List.range config.subbands).map fun i =>
      (⟨i, b.outputFirst, config.stride, (outputsOf config filter (stretch ++ more) i).drop
        (outputCount config stretch.length)⟩ : Samples C)).filter fun block => !block.values.isEmpty := by
    rw [flush, h.outputs, mapIdx_range]
  refine ⟨⟨h.history, h.filled, h.decimation, h.modulation, h.next, h.initialized, ?_, le_rfl,
    fun hlt => absurd hlt (lt_irrefl _)⟩, ?_⟩
  · rw [flush, h.outputs, List.map_map]
    refine List.map_congr_left fun i _ => ?_
    exact (List.drop_eq_nil_of_le (by rw [length_outputsOf])).symm
  rw [hblocks]
  -- A flush delivers a block for every subband when there is an output, and nothing else.
  by_cases hnew : outputCount config stretch.length < outputCount config (stretch ++ more).length
  · have hvalues : ∀ i, (outputsOf config filter (stretch ++ more) i).drop
        (outputCount config stretch.length) ≠ [] := by
      intro i hnil
      rw [List.drop_eq_nil_iff, length_outputsOf] at hnil
      exact absurd hnew (not_lt.mpr hnil)
    rw [List.filter_eq_self.mpr fun block hblock => ?_]
    · obtain ⟨halong, hrun⟩ := @receive_blocks _ config filter (stretch ++ more) first
        (fun i => ⟨i, b.outputFirst, config.stride, (outputsOf config filter (stretch ++ more) i).drop
          (outputCount config stretch.length)⟩) (List.range config.subbands)
        (received config filter stretch) List.nodup_range (fun _ => rfl) fun i hi => by
          have hi' := List.mem_range.mp hi
          refine ⟨hi', hvalues i, ?_, rfl, ?_⟩
          · rw [received, if_pos hi', length_outputsOf]
            exact h.outputFirst hnew
          · rw [received, if_pos hi', hsplit]
      refine ⟨halong, hrun.trans ?_⟩
      funext i
      simp only [List.mem_range, received]
      split_ifs
      · exact hsplit i
      · rfl
    · obtain ⟨i, -, rfl⟩ := List.mem_map.mp hblock
      simpa using hvalues i
  · have hcount : outputCount config (stretch ++ more).length = outputCount config stretch.length :=
      le_antisymm (not_lt.mp hnew) h.sent_le
    rw [List.filter_eq_nil_iff.mpr fun block hblock => ?_]
    · refine ⟨trivial, ?_⟩
      funext i
      simp only [run_nil, received]
      split_ifs
      · exact outputsOf_grows.eq_of_length (by rw [length_outputsOf, length_outputsOf, hcount])
      · rfl
    · obtain ⟨i, -, rfl⟩ := List.mem_map.mp hblock
      have hnil : (outputsOf config filter (stretch ++ more) i).drop
          (outputCount config stretch.length) = [] :=
        List.drop_eq_nil_of_le (by rw [length_outputsOf, hcount])
      simp [hnil]

theorem At.reset (h : At config filter b first stretch sent) : b.reset = initial config := by
  rw [Channelizer.reset, h.outputs, List.map_const', List.map_const', h.history.length,
    List.length_map, List.length_range, initial]

/-- A block of finite samples goes on with the stretch, and one with a sample that is not finite resets
the channelizer. -/
theorem samples_spec {values : List C} (h : At config filter b first stretch sent) :
    (∃ b', samples config filter b values = (b', none) ∧ (∀ x ∈ values, filter.finite x = true) ∧
      At config filter b' first (stretch ++ values) sent) ∨
    samples config filter b values = (initial config, some nonFiniteInput) ∧
      ∃ x ∈ values, filter.finite x = false := by
  induction values generalizing b stretch with
  | nil =>
    refine .inl ⟨b, rfl, fun x hx => absurd hx List.not_mem_nil, ?_⟩
    rwa [List.append_nil]
  | cons value values ih =>
    rw [samples]
    cases hfinite : filter.finite value with
    | true =>
      rw [if_pos rfl]
      rcases ih (h.sample value) with ⟨b', hsamples, hall, hat⟩ | ⟨hsamples, x, hx, hfalse⟩
      · refine .inl ⟨b', hsamples, List.forall_mem_cons.mpr ⟨hfinite, hall⟩, ?_⟩
        rwa [List.append_assoc] at hat
      · exact .inr ⟨hsamples, x, List.mem_cons_of_mem _ hx, hfalse⟩
    | false =>
      rw [if_neg Bool.false_ne_true, h.reset]
      exact .inr ⟨rfl, value, List.mem_cons_self, hfinite⟩

variable (config filter) in
/-- The channelizer goes on after a stretch, all of whose outputs it has delivered, or is new. -/
def Ready (b : Channelizer C) (first : ℕ) (stretch : List C) : Prop :=
  At config filter b first stretch (outputCount config stretch.length) ∨
    b = initial config ∧ stretch = []

variable (config filter) in
/-- What a call leaves and delivers for samples that follow a stretch: all of their outputs, unless it
throws for one that is not finite or beyond the coordinates. -/
structure Delivers (first : ℕ) (stretch input : List C) (fed : Delivery C) : Prop where
  onTime : Along receive (OnTime config filter first (stretch ++ input)) (received config filter stretch)
    fed.delivered
  ended : (fed.error = none ∧ (∀ x ∈ input, filter.finite x = true) ∧
      Ready config filter fed.bank first (stretch ++ input) ∧
      run receive (received config filter stretch) fed.delivered =
        received config filter (stretch ++ input)) ∨
    (fed.error = some nonFiniteInput ∧ ∃ x ∈ input, filter.finite x = false) ∨
    fed.error = some coordinateOverflow ∧ 2 ^ 64 - 1 < first + (stretch ++ input).length

/-- Two calls, or two parts of one. -/
theorem Delivers.append {input₁ input₂ : List C} {delivered : List (Samples C)} {fed : Delivery C}
    (halong : Along receive (OnTime config filter first (stretch ++ input₁))
      (received config filter stretch) delivered)
    (hrun : run receive (received config filter stretch) delivered =
      received config filter (stretch ++ input₁))
    (hfinite : ∀ x ∈ input₁, filter.finite x = true)
    (h : Delivers config filter first (stretch ++ input₁) input₂ fed) :
    Delivers config filter first stretch (input₁ ++ input₂)
      { fed with delivered := delivered ++ fed.delivered } := by
  have hassoc : stretch ++ input₁ ++ input₂ = stretch ++ (input₁ ++ input₂) := List.append_assoc _ _ _
  refine ⟨?_, ?_⟩
  · have hrest := h.onTime
    rw [← hrun, hassoc] at hrest
    refine along_append.mpr ⟨?_, hrest⟩
    have hmono := @Along.imp _ _ _ _ _ (fun _ => True) _ _ (fun _ _ _ _ => trivial)
      (fun _ _ _ htime => @onTime_mono _ config filter _ input₂ _ _ _ htime) halong trivial
    rwa [hassoc] at hmono
  · rcases h.ended with ⟨herror, hall, hready, hend⟩ | ⟨herror, x, hx, hfalse⟩ | ⟨herror, hover⟩
    · refine .inl ⟨herror, fun x hx => ?_, by rwa [← hassoc], ?_⟩
      · rcases List.mem_append.mp hx with hx | hx
        · exact hfinite x hx
        · exact hall x hx
      · rw [run_append, hrun, hend, hassoc]
    · exact .inr (.inl ⟨herror, x, List.mem_append_right _ hx, hfalse⟩)
    · rw [hassoc] at hover
      exact .inr (.inr ⟨herror, hover⟩)

/-- What a call delivered before it threw. -/
theorem Delivers.extend (h : Delivers config filter first stretch input fed)
    (herror : fed.error ≠ none) : Delivers config filter first stretch (input ++ more) fed := by
  refine ⟨?_, ?_⟩
  · have hmono := @Along.imp _ _ _ _ _ (fun _ => True) _ _ (fun _ _ _ _ => trivial)
      (fun _ _ _ htime => @onTime_mono _ config filter _ more _ _ _ htime) h.onTime trivial
    rwa [List.append_assoc] at hmono
  · rcases h.ended with ⟨hnone, -⟩ | ⟨hsome, x, hx, hfalse⟩ | ⟨hsome, hover⟩
    · exact absurd hnone herror
    · exact .inr (.inl ⟨hsome, x, List.mem_append_left _ hx, hfalse⟩)
    · refine .inr (.inr ⟨hsome, hover.trans_le ?_⟩)
      rw [List.length_append, List.length_append, List.length_append]
      omega

/-- The loop of `feed`. -/
theorem feedBlocks_spec {fuel : ℕ} (hfuel : input.length ≤ fuel)
    (h : At config filter b first stretch (outputCount config stretch.length)) :
    Delivers config filter first stretch input (feedBlocks config filter fuel b input) := by
  induction fuel generalizing b stretch input with
  | zero =>
    obtain rfl := List.length_eq_zero_iff.mp (Nat.le_zero.mp hfuel)
    refine ⟨trivial, .inl ⟨rfl, fun x hx => absurd hx List.not_mem_nil, ?_, ?_⟩⟩
    · rw [List.append_nil]
      exact .inl h
    · rw [List.append_nil]
      rfl
  | succ fuel ih =>
    rw [feedBlocks]
    cases hempty : input.isEmpty with
    | true =>
      obtain rfl := List.isEmpty_iff.mp hempty
      refine ⟨trivial, .inl ⟨rfl, fun x hx => absurd hx List.not_mem_nil, ?_, ?_⟩⟩
      · rw [List.append_nil]
        exact .inl h
      · rw [List.append_nil]
        rfl
    | false =>
      simp only [Bool.false_eq_true, if_false]
      have hblock : 0 < flushBlock := by decide
      have hpos : 0 < input.length := List.length_pos_iff.mpr (List.isEmpty_eq_false_iff.mp hempty)
      have hsplit := List.take_append_drop (min input.length flushBlock) input
      rcases @samples_spec _ _ _ _ _ _ _ _ (input.take (min input.length flushBlock)) h with
        ⟨b', hsamples, hall, hat⟩ | ⟨hsamples, x, hx, hfalse⟩
      · rw [hsamples]
        obtain ⟨hflush, halong, hrun⟩ := at_flush hat
        have hrest : Delivers config filter first (stretch ++ input.take (min input.length flushBlock))
            (input.drop (min input.length flushBlock)) (feedBlocks config filter fuel
              (flush config b').1 (input.drop (min input.length flushBlock))) :=
          ih (by rw [List.length_drop]; omega) hflush
        have happend := Delivers.append halong hrun hall hrest
        rwa [hsplit] at happend
      · rw [hsamples]
        exact ⟨trivial, .inr (.inl ⟨rfl, x, List.mem_of_mem_take hx, hfalse⟩)⟩

theorem at_initial (first : ℕ) : At config filter
    { (initial config : Channelizer C) with origin := first, nextInput := first, initialized := true }
    first [] (outputCount config 0) := by
  have hcount : outputCount config 0 = 0 := by rw [outputCount, Nat.zero_div, Nat.zero_sub]
  refine ⟨DelayLine.holds_replicate (Nat.succ_pos _) 0, ?_, ?_, ?_, rfl, rfl, ?_, le_rfl,
    fun hlt => absurd hlt (lt_irrefl _)⟩
  · exact (Nat.zero_min _).symm
  · exact (Nat.zero_mod _).symm
  · rw [List.length_nil, Nat.zero_div]
    rfl
  · have hnone : ∀ i, outputsOf config filter ([] : List C) i = [] := by
      intro i
      rw [outputsOf, List.length_nil, hcount]
      rfl
    simp only [initial, hnone, List.drop_nil, List.map_const', List.length_range]

/-- **A call.** Samples that follow a stretch are accepted up to the end of the coordinates, and all of
their outputs are delivered. -/
theorem feed_spec (h : Ready config filter b first stretch) :
    Delivers config filter first stretch input
      (feed config filter b input (first + stretch.length)) := by
  rw [feed]
  split_ifs with hover hbreak
  · refine ⟨trivial, .inr (.inr ⟨rfl, ?_⟩)⟩
    rw [List.length_append]
    omega
  · rcases h with h | ⟨rfl, rfl⟩
    · exact absurd h.next.symm hbreak.2
    · exact absurd hbreak.1 Bool.false_ne_true
  · rcases h with h | ⟨rfl, rfl⟩
    · exact feedBlocks_spec le_rfl h
    · exact absurd ‹_› Bool.false_ne_true
  · rcases h with h | ⟨rfl, rfl⟩
    · exact absurd h.initialized ‹_›
    · exact feedBlocks_spec le_rfl (at_initial first)

/-- **A stretch in chunks.** -/
theorem feedAll_spec {chunks : List (List C)} (h : Ready config filter b first stretch) :
    Delivers config filter first stretch chunks.flatten
      (feedAll config filter b (first + stretch.length) chunks) := by
  induction chunks generalizing b stretch with
  | nil =>
    refine ⟨trivial, .inl ⟨rfl, fun x hx => absurd hx List.not_mem_nil, ?_, ?_⟩⟩
    · rwa [List.flatten_nil, List.append_nil]
    · rw [List.flatten_nil, List.append_nil]
      rfl
  | cons chunk chunks ih =>
    have hfeed := @feed_spec _ _ _ _ _ _ _ chunk h
    rw [feedAll, List.flatten_cons]
    generalize feed config filter b chunk (first + stretch.length) = fed at hfeed
    obtain ⟨b', delivered, error⟩ := fed
    cases error with
    | some error => exact hfeed.extend (Option.some_ne_none error)
    | none =>
      rcases hfeed.ended with ⟨-, hall, hready, hrun⟩ | ⟨hsome, -⟩ | ⟨hsome, -⟩
      · have hrest := ih hready
        rw [List.length_append, ← Nat.add_assoc] at hrest
        exact Delivers.append hfeed.onTime hrun hall hrest
      · cases hsome
      · cases hsome

end Channelizer

end Channelizer

end Discovery

end OVMesh
