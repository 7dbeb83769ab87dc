import OVMesh.Lib.Ring
import OVMesh.Lib.Rounding
import OVMesh.Lib.Runs
import OVMesh.Phy.Codec

/-!
# The automatic decoder of a subband

`DiscoveryDecoder`: it keeps the newest samples of its subband in a ring, starts a decoder for a
candidate waveform from the ring, and feeds the decoders it has started with the samples that follow.
The converter and the receiver of a decoder are any machine that takes samples and gives frames; their
diagnostics are left out. Frequencies and times are exact, and a number that is not finite is `none`.

* `Decoder.feed`, `Decoder.observe`, `Decoder.reset`: the three calls.
* `Active`: a started decoder. `chunks` are the samples that it was given, call by call.
* `Ended`: a decoder that completed, timed out or was abandoned, with the samples of its segment.
-/

namespace OVMesh

namespace Discovery

open Phy

/-- The samples of a block that `feed` handles at once. -/
def maximumBlock : ℕ := 4096
/-- The decoders that may run at the same time. -/
def maximumActive : ℕ := 4
/-- The waveforms that are remembered so that none is decoded twice. -/
def recentCapacity : ℕ := 64
/-- `DiscoveryChannelizer::output_sample_rate`: the samples of a subband in a second. -/
def outputSampleRate : ℕ := 2000000

/-- The fields of `LoRaDiscovery`. -/
structure LoRaDiscovery (K : Type) where
  centerHz : Option K
  bandwidthHz : ℕ
  spreadingFactor : ℕ
  firstObservedUpchirpSample : Option K
  delimiterSample : Option K
  upMatch : Option K
  downMatch : Option K
  repeatCoherence : Option K

/-- A discovery whose frequency and times are finite. -/
structure Waveform (K : Type) where
  centerHz : K
  bandwidthHz : ℕ
  spreadingFactor : ℕ
  firstObservedUpchirpSample : K
  delimiterSample : K

/-- The waveform of a discovery, when its centre, its delimiter and its first upchirp were measured. -/
def LoRaDiscovery.waveform {K : Type} (found : LoRaDiscovery K) : Option (Waveform K) := do
  let center ← found.centerHz
  let delimiter ← found.delimiterSample
  let first ← found.firstObservedUpchirpSample
  return ⟨center, found.bandwidthHz, found.spreadingFactor, first, delimiter⟩

/-- `DiscoveryChannelizer::Subband`: the centre of a subband and the edges of its passband. -/
structure Subband (K : Type) where
  centerHz : K
  passbandLowerHz : K
  passbandUpperHz : K

/-- `DiscoveryDecoderOptions::Exclusion`: a waveform that a lane decodes already. -/
structure Exclusion (K : Type) where
  centerHz : K
  bandwidthHz : ℕ
  spreadingFactor : ℕ

/-- A frame with its place in the samples that the receiver was fed. -/
structure ReceivedFrame extends PhyFrame where
  firstSample : ℕ
  lastSample : ℕ

/-- The converter and the receiver of a decoder. `create` takes the profile and the offset of the
converter, and a sample is finite or not. -/
structure Machine (C δ : Type) where
  create : PhyConfig → ℤ → δ
  feed : δ → List C → δ × List ReceivedFrame
  finite : C → Bool

/-- What the constructor checks and keeps of the configuration. -/
structure DecoderConfig (K : Type) where
  index : ℕ
  bands : List (Subband K)
  lower : K
  upper : K
  enabled : Bool
  exclusions : List (Exclusion K)
  capacity : ℕ
  index_lt : index < bands.length
  capacity_ge : maximumBlock ≤ capacity

/-- `DiscoveryDecodedFrame`: a frame with the waveform that it was decoded from. -/
structure DiscoveryDecodedFrame (K : Type) where
  subbandIndex : ℕ
  segmentId : ℕ
  centerHz : K
  bandwidthHz : ℕ
  spreadingFactor : ℕ
  firstInputSample : K
  endInputSample : K
  delimiterInputSample : K
  frame : ReceivedFrame

/-- The counters of `DiscoveryDecoderStats`. -/
structure DecoderStats where
  candidates : ℕ := 0
  started : ℕ := 0
  completed : ℕ := 0
  crcValid : ℕ := 0
  historyMisses : ℕ := 0
  activeLimitHits : ℕ := 0
  duplicateCandidates : ℕ := 0
  excludedCandidates : ℕ := 0
  outsideRangeCandidates : ℕ := 0
  unsupportedCandidates : ℕ := 0
  timeouts : ℕ := 0
  resets : ℕ := 0
  abandonedDecoders : ℕ := 0

/-- The saturating `increment`. -/
def increment (counter : ℕ) : ℕ := if counter ≠ 2 ^ 64 - 1 then counter + 1 else counter

/-- A decoder at work: its waveform, where the replay began, when it times out, and the chunks that it was
fed. -/
structure Active (K C δ : Type) where
  waveform : Waveform K
  replayStart : ℕ
  deadline : ℕ
  phy : δ
  completed : Bool
  chunks : List (List C)

/-- How a decoder ended. -/
inductive Outcome
  | completed
  | timedOut
  | abandoned

/-- A decoder at its end, with the first sample of its segment and the samples since. -/
structure Ended (K C δ : Type) where
  decoder : Active K C δ
  outcome : Outcome
  base : ℕ
  stream : List C

/-- The members of `DiscoveryDecoder::Impl`. The stream is every sample that was fed since the segment
began at `base`. -/
structure Decoder (K C δ : Type) where
  history : List C
  historyBegin : ℕ := 0
  historyEnd : ℕ := 0
  anchor : ℕ := 0
  segment : ℕ := 0
  stride : ℕ := 0
  initialized : Bool := false
  active : List (Active K C δ) := []
  recent : List (Waveform K) := []
  counters : DecoderStats := {}
  frames : List (DiscoveryDecodedFrame K) := []
  base : ℕ := 0
  stream : List C := []
  ended : List (Ended K C δ) := []

section Decoder

variable {K C δ : Type} [Field K] [LinearOrder K] [FloorRing K] [Zero C]

namespace Decoder

/-- A decoder with its history cleared. -/
def initial (config : DecoderConfig K) : Decoder K C δ :=
  { history := if config.enabled then List.replicate config.capacity 0 else [] }

/-- A decoder leaves the active ones. -/
def retire (d : Decoder K C δ) (decoder : Active K C δ) (outcome : Outcome) : Decoder K C δ :=
  { d with ended := d.ended ++ [⟨decoder, outcome, d.base, d.stream⟩] }

/-- `reset`: the running decoders are abandoned, and the history and the segment are dropped. -/
def reset (d : Decoder K C δ) : Decoder K C δ :=
  let resets := if d.initialized then increment d.counters.resets else d.counters.resets
  let d := { d with counters := { d.counters with resets := resets } }
  let d := d.active.foldl (fun d decoder =>
    { d.retire decoder .abandoned with
      counters := { d.counters with abandonedDecoders := increment d.counters.abandonedDecoders } }) d
  { d with
    active := [], recent := []
    history := Ring.wipe d.history d.historyBegin (d.historyEnd - d.historyBegin) 0
    historyBegin := 0, historyEnd := 0, anchor := 0, segment := 0, stride := 0
    initialized := false, base := 0, stream := [] }

/-- `first_output_seconds` of the converter, in samples. -/
def firstOutput (bandwidthHz : ℕ) : K :=
  (101 : ℕ) / 2 * (outputSampleRate / bandwidthHz / 4 : ℕ) + 1 / 2

/-- The callback of `process`, for one frame of the receiver: only the first one of a decoder counts. -/
def onFrame (config : DecoderConfig K) (d : Decoder K C δ) (decoder : Active K C δ)
    (phy : ReceivedFrame) : Decoder K C δ × Active K C δ :=
  if decoder.completed then (d, decoder)
  else
    let w := decoder.waveform
    let origin : K := decoder.replayStart + firstOutput w.bandwidthHz
    let sampleStride : K := outputSampleRate / w.bandwidthHz
    let valid := phy.payloadCrcPresent && phy.payloadCrcValid
    let output : DiscoveryDecodedFrame K :=
      { subbandIndex := config.index
        segmentId := d.segment
        centerHz := w.centerHz
        bandwidthHz := w.bandwidthHz
        spreadingFactor := w.spreadingFactor
        firstInputSample := d.anchor + (origin + phy.firstSample * sampleStride) * d.stride
        endInputSample := d.anchor + (origin + phy.lastSample * sampleStride) * d.stride
        delimiterInputSample := d.anchor + w.delimiterSample * d.stride
        frame := if valid then phy else { phy with bytes := [] } }
    let counters := { d.counters with
      completed := increment d.counters.completed
      crcValid := if valid then increment d.counters.crcValid else d.counters.crcValid }
    ({ d with counters := counters, frames := d.frames ++ [output] }, { decoder with completed := true })

/-- `process`: the samples go to the receiver of a decoder, and each frame it completes is handled. -/
def process (config : DecoderConfig K) (machine : Machine C δ) (d : Decoder K C δ)
    (decoder : Active K C δ) (values : List C) : Decoder K C δ × Active K C δ :=
  let fed := machine.feed decoder.phy values
  let decoder := { decoder with phy := fed.1, chunks := decoder.chunks ++ [values] }
  fed.2.foldl (fun state phy => state.1.onFrame config state.2 phy) (d, decoder)

/-- A block for one active decoder, up to its deadline. -/
def feedOne (config : DecoderConfig K) (machine : Machine C δ) (first : ℕ) (values : List C)
    (d : Decoder K C δ) (decoder : Active K C δ) : Decoder K C δ × Active K C δ :=
  let count := if first ≥ decoder.deadline then 0 else min values.length (decoder.deadline - first)
  if count ≠ 0 then d.process config machine decoder (values.take count) else (d, decoder)

/-- A decoder whose deadline has passed. -/
def timeout (d : Decoder K C δ) : Decoder K C δ :=
  { d with counters := { d.counters with timeouts := increment d.counters.timeouts } }

/-- The loop of `feed` over the active decoders: the ones that go on are returned. -/
def feedActive (config : DecoderConfig K) (machine : Machine C δ) (first : ℕ) (values : List C) :
    Decoder K C δ → List (Active K C δ) → Decoder K C δ × List (Active K C δ)
  | d, [] => (d, [])
  | d, decoder :: rest =>
    let state := feedOne config machine first values d decoder
    if state.2.completed then
      feedActive config machine first values (state.1.retire state.2 .completed) rest
    else if d.historyEnd ≥ decoder.deadline then
      feedActive config machine first values (state.1.retire state.2 .timedOut).timeout rest
    else
      let fed := feedActive config machine first values state.1 rest
      (fed.1, state.2 :: fed.2)

/-- A block that does not go on from the last one begins a segment. -/
def enterSegment (d : Decoder K C δ) (first inputAnchor inputStride inputSegment : ℕ) :
    Decoder K C δ :=
  let d :=
    if d.initialized = true ∧ (first ≠ d.historyEnd ∨ d.anchor ≠ inputAnchor ∨ d.stride ≠ inputStride ∨
      d.segment ≠ inputSegment) then d.reset else d
  if d.initialized then d
  else
    { d with
      historyBegin := first, historyEnd := first, anchor := inputAnchor, stride := inputStride
      segment := inputSegment, initialized := true, base := first }

/-- The samples of a block enter the history. -/
def record (d : Decoder K C δ) (values : List C) : Decoder K C δ :=
  let last := d.historyEnd + values.length
  { d with
    history := Ring.write d.history d.historyEnd values
    historyEnd := last
    historyBegin :=
      if last - d.historyBegin > d.history.length then last - d.history.length else d.historyBegin
    stream := d.stream ++ values }

/-- `feed` after its checks. -/
def feedValues (config : DecoderConfig K) (machine : Machine C δ) (d : Decoder K C δ)
    (values : List C) (first inputAnchor inputStride inputSegment : ℕ) : Decoder K C δ :=
  let d := (d.enterSegment first inputAnchor inputStride inputSegment).record values
  let fed := feedActive config machine first values { d with active := [] } d.active
  { fed.1 with active := fed.2 }

/-- `feed`: the state and, where it throws, the text. -/
def feed (config : DecoderConfig K) (machine : Machine C δ) (d : Decoder K C δ) (values : List C)
    (first inputAnchor inputStride inputSegment : ℕ) : Decoder K C δ × Option String :=
  if config.enabled = false then (d, none)
  else if values.length > maximumBlock ∨ inputStride = 0 ∨ inputSegment = 0 ∨
      first > 2 ^ 53 - values.length ∨ inputAnchor > 2 ^ 53 ∨
      first + values.length > (2 ^ 53 - inputAnchor) / inputStride then
    (d, some "Automatic decoder input exceeds bounded coordinates")
  else if values.any fun sample => !machine.finite sample then
    (d.reset, some "Nonfinite automatic decoder input")
  else (d.feedValues config machine values first inputAnchor inputStride inputSegment, none)

/-- The subband that a waveform is nearest to, of those whose passband has all of it. -/
def owner (bands : List (Subband K)) (w : Waveform K) : Option ℕ :=
  let lower := w.centerHz - w.bandwidthHz / 2
  let upper := w.centerHz + w.bandwidthHz / 2
  (bands.zipIdx.foldl (fun best band =>
    if lower ≥ band.1.passbandLowerHz ∧ upper ≤ band.1.passbandUpperHz ∧
      best.all (fun best => decide (|w.centerHz - band.1.centerHz| < best.2)) = true then
      some (band.2, |w.centerHz - band.1.centerHz|)
    else best) none).map Prod.fst

/-- The samples of a symbol. -/
def symbolSamples (w : Waveform K) : K := 2 ^ w.spreadingFactor * outputSampleRate / w.bandwidthHz

/-- The frequency within which two waveforms of one profile are the same. -/
def centerTolerance (w : Waveform K) : K := max 100 (2 * w.bandwidthHz / 2 ^ w.spreadingFactor)

/-- The bandwidths that the decoder has a receiver for. -/
def supportedBandwidth (bandwidthHz : ℕ) : Bool :=
  bandwidthHz = 15625 ∨ bandwidthHz = 62500 ∨ bandwidthHz = 125000 ∨ bandwidthHz = 250000 ∨
    bandwidthHz = 500000

/-- The first sample to replay, before it is aligned. -/
def replayFrom (w : Waveform K) : ℕ :=
  let symbol := symbolSamples w
  let start := max 0 (min (w.firstObservedUpchirpSample - symbol)
    (w.delimiterSample - (7 : ℕ) * symbol) - (256 : ℕ))
  ⌊max start (w.delimiterSample - (12 : ℕ) * symbol - (256 : ℕ))⌋.toNat

/-- The end of the longest frame after a delimiter. -/
def deadlineOf (w : Waveform K) : ℕ :=
  let symbol := symbolSamples w
  let lowRate : Prop := symbol / outputSampleRate > (2 : ℕ) / (125 : ℕ)
  let numerator : K := (8 * 255 : ℕ) - (4 * w.spreadingFactor : ℕ) + (28 + 16 : ℕ)
  let denominator : K := (4 : ℕ) * ((w.spreadingFactor : K) - if lowRate then 2 else 0)
  let symbols : K := (8 : ℕ) + ⌈numerator / denominator⌉ * (8 : ℕ) + (4 : ℕ)
  ⌈min ((2 ^ 53 : ℕ) : K) (w.delimiterSample + symbols * symbol)⌉.toNat

/-- The first sample to replay, on the grid of the chips. -/
def alignedReplay (w : Waveform K) : ℕ :=
  let chipStride : K := outputSampleRate / w.bandwidthHz
  let phaseOrigin := w.firstObservedUpchirpSample - firstOutput w.bandwidthHz
  (max 0 (lround (phaseOrigin + ⌈(replayFrom w - phaseOrigin) / chipStride⌉ * chipStride))).toNat

/-- The loop of `observe` over the history, with as much fuel as there are samples. -/
def replay (config : DecoderConfig K) (machine : Machine C δ) (last : ℕ) :
    ℕ → Decoder K C δ → Active K C δ → ℕ → Decoder K C δ × Active K C δ
  | 0, d, decoder, _ => (d, decoder)
  | fuel + 1, d, decoder, position =>
    if position < last ∧ decoder.completed = false then
      let count := min maximumBlock (last - position)
      let state := d.process config machine decoder (Ring.read d.history position count)
      replay config machine last fuel state.1 state.2 (position + count)
    else (d, decoder)

/-- A new decoder. -/
def activeOf (config : DecoderConfig K) (machine : Machine C δ) (w : Waveform K)
    (replayStart deadline : ℕ) : Active K C δ :=
  let band := config.bands.get ⟨config.index, config.index_lt⟩
  { waveform := w
    replayStart := replayStart
    deadline := deadline
    phy := machine.create ⟨w.bandwidthHz, w.spreadingFactor, 5⟩ (lround (w.centerHz - band.centerHz))
    completed := false
    chunks := [] }

/-- A started decoder is counted, and its waveform is a recent one. -/
def start (d : Decoder K C δ) (w : Waveform K) : Decoder K C δ :=
  let recent := if d.recent.length = recentCapacity then d.recent.tail else d.recent
  { d with
    counters := { d.counters with started := increment d.counters.started }
    recent := recent ++ [w] }

/-- The end of `observe`: a decoder is started and given the history from its first sample on. -/
def launch (config : DecoderConfig K) (machine : Machine C δ) (d : Decoder K C δ) (w : Waveform K)
    (replayStart deadline : ℕ) : Decoder K C δ :=
  let state := replay config machine d.historyEnd (d.historyEnd - replayStart) (d.start w)
    (activeOf config machine w replayStart deadline) replayStart
  if state.2.completed then state.1.retire state.2 .completed
  else { state.1 with active := state.1.active ++ [state.2] }

/-- Where a candidate that is not started is counted. -/
inductive Refusal
  | unsupported
  | outsideRange
  | duplicate
  | excluded
  | activeLimit
  | timeout
  | historyMiss

/-- The counter of a refused candidate. -/
def refuse (d : Decoder K C δ) (refusal : Refusal) : Decoder K C δ :=
  let c := d.counters
  { d with counters :=
    (match refusal with
    | .unsupported => { c with unsupportedCandidates := increment c.unsupportedCandidates }
    | .outsideRange => { c with outsideRangeCandidates := increment c.outsideRangeCandidates }
    | .duplicate => { c with duplicateCandidates := increment c.duplicateCandidates }
    | .excluded => { c with excludedCandidates := increment c.excludedCandidates }
    | .activeLimit => { c with activeLimitHits := increment c.activeLimitHits }
    | .timeout => { c with timeouts := increment c.timeouts }
    | .historyMiss => { c with historyMisses := increment c.historyMisses }) }

/-- The checks of `observe` on the waveform itself. -/
def supported (d : Decoder K C δ) (found : LoRaDiscovery K) : Option (Waveform K) := do
  let w ← found.waveform
  if d.initialized = false ∨ w.firstObservedUpchirpSample < 0 ∨
      w.delimiterSample < w.firstObservedUpchirpSample ∨ w.delimiterSample > d.historyEnd ∨
      w.spreadingFactor < 7 ∨ w.spreadingFactor > 12 ∨ supportedBandwidth w.bandwidthHz = false ∨
      w.bandwidthHz = 15625 ∧ w.spreadingFactor > 10 then none
  else some w

/-- The rest of `observe`, in the order of its checks. -/
def consider (config : DecoderConfig K) (machine : Machine C δ) (d : Decoder K C δ) (w : Waveform K) :
    Decoder K C δ :=
  let lower := w.centerHz - w.bandwidthHz / 2
  let upper := w.centerHz + w.bandwidthHz / 2
  match owner config.bands w with
  | none => d.refuse .outsideRange
  | some owner =>
    if lower < config.lower ∨ upper > config.upper then d.refuse .outsideRange
    else if owner ≠ config.index then d.refuse .duplicate
    else if config.exclusions.any fun excluded =>
        excluded.bandwidthHz = w.bandwidthHz ∧ excluded.spreadingFactor = w.spreadingFactor ∧
          |excluded.centerHz - w.centerHz| ≤ centerTolerance w then d.refuse .excluded
    else if d.recent.any fun previous =>
        previous.bandwidthHz = w.bandwidthHz ∧ previous.spreadingFactor = w.spreadingFactor ∧
          |previous.centerHz - w.centerHz| ≤ centerTolerance w ∧
          |previous.delimiterSample - w.delimiterSample| < symbolSamples w / 2 then d.refuse .duplicate
    else if d.active.length = maximumActive then d.refuse .activeLimit
    else if d.historyEnd ≥ deadlineOf w then d.refuse .timeout
    else if alignedReplay w < d.historyBegin ∨ alignedReplay w > d.historyEnd ∨
        d.historyEnd - alignedReplay w > d.history.length then d.refuse .historyMiss
    else d.launch config machine w (alignedReplay w) (deadlineOf w)

/-- `observe`: a discovery starts a decoder, unless one of the tests refuses it. -/
def observe (config : DecoderConfig K) (machine : Machine C δ) (d : Decoder K C δ)
    (found : LoRaDiscovery K) : Decoder K C δ :=
  if config.enabled = false then d
  else
    let d := { d with counters := { d.counters with candidates := increment d.counters.candidates } }
    match d.supported found with
    | none => d.refuse .unsupported
    | some w => d.consider config machine w

/-! ## One block for one decoder -/

variable (config : DecoderConfig K) (machine : Machine C δ) (values : List C) {d : Decoder K C δ}
  {decoder : Active K C δ} {phys : List ReceivedFrame}

omit [LinearOrder K] [FloorRing K] [Zero C] in
theorem foldl_onFrame_completed (h : decoder.completed = true) :
    phys.foldl (fun state phy => state.1.onFrame config state.2 phy) (d, decoder) = (d, decoder) := by
  induction phys with
  | nil => rfl
  | cons phy phys ih => rw [List.foldl_cons, onFrame, if_pos h, ih]

omit [LinearOrder K] [FloorRing K] [Zero C] in
/-- What a block does for a decoder: the receiver is fed, and the first frame completes it. -/
theorem process_cases (hopen : decoder.completed = false) :
    let fed := machine.feed decoder.phy values
    let next := { decoder with phy := fed.1, chunks := decoder.chunks ++ [values] }
    d.process config machine decoder values = (d, next) ∨
    ∃ crcValid frames, (crcValid = d.counters.crcValid ∨ crcValid = increment d.counters.crcValid) ∧
      d.process config machine decoder values =
        ({ d with
          counters := { d.counters with
            completed := increment d.counters.completed, crcValid := crcValid }
          frames := frames }, { next with completed := true }) := by
  intro fed next
  rw [process]
  cases hphys : (machine.feed decoder.phy values).2 with
  | nil => exact .inl rfl
  | cons phy phys =>
    refine .inr ?_
    rw [List.foldl_cons, onFrame, if_neg (by simp [hopen]), foldl_onFrame_completed config rfl]
    refine ⟨_, _, ?_, rfl⟩
    split_ifs
    · exact .inr rfl
    · exact .inl rfl

end Decoder

/-- A call of the decoder. -/
inductive Call (K C : Type)
  | feed (values : List C) (first inputAnchor inputStride inputSegment : ℕ)
  | observe (found : LoRaDiscovery K)
  | reset

/-- One call of the decoder. -/
def Decoder.step (config : DecoderConfig K) (machine : Machine C δ) (d : Decoder K C δ) :
    Call K C → Decoder K C δ
  | .feed values first inputAnchor inputStride inputSegment =>
    (d.feed config machine values first inputAnchor inputStride inputSegment).1
  | .observe found => d.observe config machine found
  | .reset => d.reset

end Decoder

end Discovery

end OVMesh
