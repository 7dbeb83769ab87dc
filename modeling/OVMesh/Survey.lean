import OVMesh.Engine.Config
import OVMesh.Lib.Numerals

/-!
# Survey records

The records of `survey.hpp` that the measurement, the store and the reports share. Powers and times
are values of an ordered field `K`, sample coordinates are natural numbers.

* `SurveyQuality`: the measurement limitations. A quality word is the union of the `mask`s of its
  flags, and `HasFlag` reads one flag. `hasFlag_or`, `hasFlag_mask`: how the words compose.
* `SpectrumTile`, `SpectrumEvent`: the two products of the spectrum processor.
* `CoverageGap`: an interval that was not measured.
-/

namespace OVMesh

/-- Flags describe measurement limitations, never a transmitter identity. -/
inductive SurveyQuality
  | uncalibrated | upstreamLossUnknown | clipped | positionMissing | boundary
  | truncated | merged | backgroundUncertain | dcSuspect | powerAggregated
  deriving DecidableEq, Repr

namespace SurveyQuality

/-- The bit of the flag in a quality word. -/
def bit : SurveyQuality → ℕ
  | uncalibrated => 0
  | upstreamLossUnknown => 1
  | clipped => 2
  | positionMissing => 3
  | boundary => 4
  | truncated => 5
  | merged => 6
  | backgroundUncertain => 7
  | dcSuspect => 8
  | powerAggregated => 9

/-- The value of the flag in the source's `enum`. -/
def mask (f : SurveyQuality) : ℕ := 2 ^ f.bit

theorem bit_injective : Function.Injective bit := by
  intro a b h
  cases a <;> cases b <;> first | rfl | simp [bit] at h

end SurveyQuality

open SurveyQuality

/-- The quality word `q` carries the flag `f`. -/
def HasFlag (q : ℕ) (f : SurveyQuality) : Prop := q.testBit f.bit = true

instance (q : ℕ) (f : SurveyQuality) : Decidable (HasFlag q f) :=
  inferInstanceAs (Decidable (_ = true))

variable {q r : ℕ} {f g : SurveyQuality}

@[simp] theorem hasFlag_or : HasFlag (q ||| r) f ↔ HasFlag q f ∨ HasFlag r f := by
  simp [HasFlag, Nat.testBit_or]

@[simp] theorem hasFlag_mask : HasFlag g.mask f ↔ g = f := by
  simp only [HasFlag, mask, Nat.testBit_two_pow, decide_eq_true_eq]
  exact bit_injective.eq_iff

@[simp] theorem not_hasFlag_zero : ¬ HasFlag 0 f := by simp [HasFlag]

/-- A receiver position with its own times. -/
structure PositionFix (K : Type) where
  latitude : K
  longitude : K
  altitudeM : Option K
  utcSeconds : K
  monotonicSeconds : K
  valid : Bool
  manual : Bool
  source : Text
  hdop : Option K
  satellites : ℕ

/-- Phase-free measurements of contiguous FFT frames. The activity is a frame-major packed bitmap
of `⌈bins / 8⌉` bytes for each frame, least significant bit first. -/
structure SpectrumTile (K : Type) where
  id : ℕ
  firstSample : ℕ
  endSample : ℕ
  utcStartSeconds : K
  utcEndSeconds : K
  elapsedStartSeconds : K
  elapsedEndSeconds : K
  powerElapsedStart : K
  powerElapsedEnd : K
  firstCenterHz : K
  binWidthHz : K
  fftSize : ℕ := 4096
  frameCount : ℕ
  backgroundDbfs : K
  clippedSamples : ℕ
  quality : ℕ
  meanDbfs : List K
  peakDbfs : List K
  activity : List ℕ
  receiverStart : Option (PositionFix K) := none
  receiverEnd : Option (PositionFix K) := none

/-- A connected energy event above the threshold. Its width is the observed envelope. -/
structure SpectrumEvent (K : Type) where
  id : ℕ
  firstSample : ℕ
  endSample : ℕ
  utcStartSeconds : K
  utcEndSeconds : K
  elapsedStartSeconds : K
  elapsedEndSeconds : K
  lowerHz : K
  upperHz : K
  activeSeconds : K
  meanDbfs : K
  peakDbfs : K
  quality : ℕ
  receiverStart : Option (PositionFix K) := none
  receiverEnd : Option (PositionFix K) := none

/-- A candidate transmission: energy that was grouped across tiles. -/
structure SpectrumBurst (K : Type) where
  id : ℕ
  components : ℕ
  elapsedStartSeconds : K
  elapsedEndSeconds : K
  lowerHz : K
  upperHz : K
  activeSeconds : K
  peakDbfs : K
  quality : ℕ
  centerRegion : Bool
  ambiguous : Bool
  limited : Bool
  deriving DecidableEq

/-- An interval of a recording without measurements. -/
structure CoverageGap (K : Type) where
  id : ℕ
  missingSamples : ℕ
  utcStartSeconds : K
  utcEndSeconds : K
  elapsedStartSeconds : K
  elapsedEndSeconds : K
  reason : String

end OVMesh
