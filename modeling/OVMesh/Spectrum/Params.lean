import OVMesh.Lib.Fft
import OVMesh.Survey

/-!
# The constants of a spectrum processor

`SpectrumProcessor::Impl` of `spectrum.cpp` in exact arithmetic: powers, frequencies and times are
values of an ordered field `K`, a sample is a pair of them.

* `Libm`: the functions of the C++ library that the processor calls.
* `Params`: what the constructor computes once, with the bounds that the loops rely on.
* `Params.create`: the constructor with its checks.
-/

namespace OVMesh

namespace SpectrumProcessor

/-- The samples of a frame. -/
def fftSize : ℕ := 4096
/-- The tracks that may be open at the end of a frame. -/
def maxTracks : ℕ := 64
/-- The frames of a tile. -/
def maxTileFrames : ℕ := 128

/-- The mathematical functions of the C++ library. -/
structure Libm (K : Type) where
  pi : K
  cos : K → K
  sin : K → K
  /-- `pow(10, x)` -/
  pow10 : K → K
  log10 : K → K

/-- A complex sample. -/
@[ext] structure Cpx (K : Type) where
  re : K
  im : K
  deriving DecidableEq, Repr

namespace Cpx

variable {K : Type} [Field K]

instance : Zero (Cpx K) := ⟨⟨0, 0⟩⟩
instance : Add (Cpx K) := ⟨fun a b => ⟨a.re + b.re, a.im + b.im⟩⟩
instance : Sub (Cpx K) := ⟨fun a b => ⟨a.re - b.re, a.im - b.im⟩⟩
instance : Mul (Cpx K) := ⟨fun a b => ⟨a.re * b.re - a.im * b.im, a.re * b.im + a.im * b.re⟩⟩

/-- `std::norm`: the squared magnitude. -/
def norm (a : Cpx K) : K := a.re * a.re + a.im * a.im

/-- The product with a real factor. -/
def scale (a : Cpx K) (w : K) : Cpx K := ⟨a.re * w, a.im * w⟩

/-- `std::polar` of magnitude 1. -/
def polar (m : Libm K) (angle : K) : Cpx K := ⟨m.cos angle, m.sin angle⟩

@[simp] theorem zero_re : (0 : Cpx K).re = 0 := rfl
@[simp] theorem zero_im : (0 : Cpx K).im = 0 := rfl
@[simp] theorem add_re (a b : Cpx K) : (a + b).re = a.re + b.re := rfl
@[simp] theorem add_im (a b : Cpx K) : (a + b).im = a.im + b.im := rfl
@[simp] theorem sub_re (a b : Cpx K) : (a - b).re = a.re - b.re := rfl
@[simp] theorem sub_im (a b : Cpx K) : (a - b).im = a.im - b.im := rfl
@[simp] theorem mul_re (a b : Cpx K) : (a * b).re = a.re * b.re - a.im * b.im := rfl
@[simp] theorem mul_im (a b : Cpx K) : (a * b).im = a.re * b.im + a.im * b.re := rfl

end Cpx

/-- What the constructor computes. The proofs are what the loops rely on: a nonempty range of bins
inside the FFT, a tile of at least one frame, and segments of whole frames. -/
structure Params (K : Type) where
  libm : Libm K
  rate : ℕ
  framesPerTile : ℕ
  width : K
  firstCenter : K
  enbw : K
  normalization : K
  threshold : K
  firstSignedBin : ℤ
  bins : ℕ
  segmentSamples : ℕ
  window : ℕ → K
  twiddles : ℕ → Cpx K
  framesPerTile_pos : 0 < framesPerTile
  bins_pos : 0 < bins
  firstSignedBin_ge : -2048 ≤ firstSignedBin
  lastSignedBin_lt : firstSignedBin + bins ≤ 2048
  segment_pos : 0 < segmentSamples
  segment_dvd : fftSize ∣ segmentSamples

variable {K : Type}

/-- `bytes_per_frame`: the bytes of a row of the bitmap. -/
def Params.bytesPerFrame (p : Params K) : ℕ := (p.bins + 7) / 8

/-- The FFT output that holds the power of bin `i`: negative frequencies are the upper half. -/
def Params.fftBin (p : Params K) (i : ℕ) : ℕ :=
  let signedBin := p.firstSignedBin + i
  (if signedBin < 0 then signedBin + fftSize else signedBin).toNat

variable [Field K] [LinearOrder K]

/-- `dbfs` of a power, with the floor `minimum_power`. -/
def dbfs (m : Libm K) (power : K) : K := 10 * m.log10 (max power (1 / 10 ^ 18))

/-- One entry of the `reversal` table: the twelve low bits in reverse order. -/
def reversal (i : ℕ) : ℕ :=
  ((fun s : ℕ × ℕ => (s.1 / 2, s.2 * 2 ||| s.1 % 2))^[12] (i, 0)).2

/-- The periodic Hann window. -/
def hann (m : Libm K) (i : ℕ) : K := 1 / 2 - 1 / 2 * m.cos (2 * m.pi * i / fftSize)

section Bounds

theorem clamped_pos (frames : ℤ) : 0 < (min (max frames 1) (maxTileFrames : ℤ)).toNat := by
  simp only [maxTileFrames]
  omega

theorem binRange_pos {first last : ℤ} (h : ¬ last < first) : 0 < (last - first + 1).toNat := by
  omega

theorem binRange_le {first last : ℤ} (h : ¬ min 2047 last < first) :
    first + (min 2047 last - first + 1).toNat ≤ 2048 := by
  omega

variable [IsStrictOrderedRing K] [FloorRing K] {sampleRate : ℕ} {P : Prop}

theorem segmentFrames_pos (h : ¬ (sampleRate = 0 ∨ P)) :
    0 < ⌈2 * (sampleRate : K) / fftSize⌉.toNat * fftSize := by
  have hpos : 0 < sampleRate := Nat.pos_of_ne_zero fun h0 => h (Or.inl h0)
  refine Nat.mul_pos ?_ (by decide)
  rw [Int.lt_toNat, Int.natCast_zero, Int.ceil_pos]
  have : (0 : K) < sampleRate := Nat.cast_pos.mpr hpos
  simp only [fftSize]
  positivity

end Bounds

/-- The constructor of `SpectrumProcessor::Impl`. A `none` threshold is one that is not finite. -/
def Params.create [IsStrictOrderedRing K] [FloorRing K] (m : Libm K) (center sampleRate span : ℕ)
    (cutoff : Option K) : Except String (Params K) :=
  match cutoff with
  | none => .error "Invalid spectrum rate, span or absolute dBFS threshold"
  | some cutoff =>
    if hr : sampleRate = 0 ∨ span = 0 ∨ sampleRate < span ∨ cutoff < -180 ∨ 20 < cutoff then
      .error "Invalid spectrum rate, span or absolute dBFS threshold"
    else
      let width : K := sampleRate / fftSize
      let firstSignedBin := max (-2048) ⌈-(span : K) / (2 * width) + 1 / 2⌉
      let lastBin := min 2047 ⌊(span : K) / (2 * width) - 1 / 2⌋
      if hb : lastBin < firstSignedBin then .error "Spectrum span contains no complete FFT bin"
      else
        let window := hann m
        let sumW : K := ((List.range fftSize).map window).sum
        let sumW2 : K := ((List.range fftSize).map fun i => window i * window i).sum
        .ok
          { libm := m
            rate := sampleRate
            framesPerTile := (min (max ⌈(2 / 100 : K) * sampleRate / fftSize⌉ 1) maxTileFrames).toNat
            width
            firstCenter := center + firstSignedBin * width
            enbw := sampleRate * sumW2 / (sumW * sumW)
            normalization := 1 / (fftSize * sumW2)
            threshold := m.pow10 (cutoff / 10)
            firstSignedBin
            bins := (lastBin - firstSignedBin + 1).toNat
            segmentSamples := ⌈2 * (sampleRate : K) / fftSize⌉.toNat * fftSize
            window
            twiddles := fun i => Cpx.polar m (-2 * m.pi * i / fftSize)
            framesPerTile_pos := clamped_pos _
            bins_pos := binRange_pos hb
            firstSignedBin_ge := le_max_left _ _
            lastSignedBin_lt := binRange_le hb
            segment_pos := segmentFrames_pos hr
            segment_dvd := Dvd.intro_left _ rfl }

/-! ## The transform -/

/-- One pass of butterflies over blocks of `length`. Its pairs `(start + j, start + j + half)` are
disjoint, so the pass is written by what it leaves at each index. -/
def butterflies (twiddles : ℕ → Cpx K) (length : ℕ) (fft : ℕ → Cpx K) : ℕ → Cpx K :=
  let half := length / 2
  let stride := fftSize / length
  fun i =>
    let j := i % length
    if j < half then fft i + fft (i + half) * twiddles (j * stride)
    else fft (i - half) - fft i * twiddles ((j - half) * stride)

/-- The first `n` passes: `length = 2, 4, …, 2 ^ n`. -/
def passes (twiddles : ℕ → Cpx K) : ℕ → (ℕ → Cpx K) → ℕ → Cpx K
  | 0, fft => fft
  | n + 1, fft => butterflies twiddles (2 ^ (n + 1)) (passes twiddles n fft)

/-- The in-place transform of a bit-reversed block: `length = 2, 4, …, fft_size`. -/
def transform (twiddles : ℕ → Cpx K) (fft : ℕ → Cpx K) : ℕ → Cpx K := passes twiddles 12 fft

omit [LinearOrder K] in
/-- One pass over a block whose first half ends before the samples behind it, which are zero. -/
theorem butterflies_impulse {twiddles : ℕ → Cpx K} {fft : ℕ → Cpx K} {k : ℕ} {v : Cpx K}
    (h0 : fft 0 = v) (hz : ∀ i, 2 ^ k ≤ i → fft i = 0) :
    butterflies twiddles (2 ^ (k + 1)) fft 0 = v ∧
      ∀ i, 2 ^ (k + 1) ≤ i → butterflies twiddles (2 ^ (k + 1)) fft i = 0 := by
  have hhalf : 2 ^ (k + 1) / 2 = 2 ^ k := by rw [pow_succ, Nat.mul_div_cancel _ (by decide)]
  have hpos : 0 < 2 ^ k := Nat.two_pow_pos k
  have hadd : ∀ a b : Cpx K, a + 0 * b = a := fun a b => by ext <;> simp
  refine ⟨?_, fun i hi => ?_⟩
  · simp only [butterflies, hhalf, Nat.zero_mod, if_pos hpos, Nat.zero_add]
    rw [hz _ (le_refl _), hadd, h0]
  · have hle : 2 ^ k ≤ i := le_trans (Nat.pow_le_pow_right (by decide) (Nat.le_succ k)) hi
    simp only [butterflies, hhalf]
    split
    · rw [hz i hle, hz _ (by omega), hadd]
    · rw [hz i hle, hz (i - 2 ^ k) (by rw [pow_succ] at hi; omega)]
      ext <;> simp

omit [LinearOrder K] in
/-- The transform of one sample at index 1 of the bit-reversed block: bin 0 holds the sample. -/
theorem transform_impulse {twiddles : ℕ → Cpx K} {fft : ℕ → Cpx K} (htw : twiddles 0 = ⟨1, 0⟩)
    (hz : ∀ i, i ≠ 1 → fft i = 0) : transform twiddles fft 0 = fft 1 := by
  suffices haux : ∀ n, passes twiddles (n + 1) fft 0 = fft 1 ∧
      ∀ i, 2 ^ (n + 1) ≤ i → passes twiddles (n + 1) fft i = 0 from (haux 11).1
  intro n
  induction n with
  | zero =>
    refine ⟨?_, fun i hi => ?_⟩
    · simp [passes, butterflies, htw, hz 0 (by decide)]
      ext <;> simp
    · have h : 2 ≤ i := hi
      simp only [passes, butterflies]
      split
      · rw [hz i (by omega), hz _ (by omega)]
        ext <;> simp
      · rw [hz i (by omega), hz _ (by omega)]
        ext <;> simp
  | succ n ih => exact butterflies_impulse ih.1 ih.2

omit [LinearOrder K] in
/-- The transform reads and writes the `fft_size` entries of the buffer and no others. -/
theorem transform_congr {twiddles : ℕ → Cpx K} {f g : ℕ → Cpx K}
    (h : ∀ i < fftSize, f i = g i) : ∀ i < fftSize, transform twiddles f i = transform twiddles g i := by
  suffices haux : ∀ n ≤ 12, ∀ i < fftSize, passes twiddles n f i = passes twiddles n g i from
    haux 12 (le_refl _)
  intro n
  induction n with
  | zero => exact fun _ => h
  | succ n ih =>
    intro hn i hi
    have ih := ih (by omega)
    have hhalf : 2 ^ (n + 1) / 2 = 2 ^ n := by rw [pow_succ, Nat.mul_div_cancel _ (by decide)]
    simp only [passes, butterflies, hhalf]
    split <;> rename_i hj
    · -- The partner lies in the block of `i`, and the buffer is made of whole blocks.
      have hlt : i + 2 ^ n < fftSize := by
        obtain ⟨q, hq⟩ : 2 ^ (n + 1) ∣ fftSize := pow_dvd_pow 2 (n := 12) hn
        have hdiv : i / 2 ^ (n + 1) < q := by
          rw [Nat.div_lt_iff_lt_mul (Nat.two_pow_pos _), Nat.mul_comm, ← hq]
          exact hi
        have hmul := Nat.mul_le_mul_left (2 ^ (n + 1)) (Nat.succ_le_of_lt hdiv)
        have hsplit := Nat.div_add_mod i (2 ^ (n + 1))
        have hpow : 2 ^ (n + 1) = 2 * 2 ^ n := by rw [pow_succ, Nat.mul_comm]
        rw [← hq, Nat.mul_succ] at hmul
        omega
      rw [ih i hi, ih _ hlt]
    · rw [ih i hi, ih (i - 2 ^ n) (by omega)]

/-- The loop of the table, from any bits that were reversed before. -/
theorem reversal_loop (bits i r : ℕ) :
    ((fun s : ℕ × ℕ => (s.1 / 2, s.2 * 2 ||| s.1 % 2))^[bits] (i, r)).2 =
      r * 2 ^ bits + Fft.reverse bits i := by
  induction bits generalizing i r with
  | zero => simp [Fft.reverse]
  | succ bits ih =>
    have hor : r * 2 ||| i % 2 = r * 2 + i % 2 := by
      have h := Nat.two_pow_add_eq_or_of_lt (i := 1) (Nat.mod_lt i (by decide)) r
      rw [pow_one, Nat.mul_comm] at h
      exact h.symm
    rw [Function.iterate_succ_apply, ih, hor, Fft.reverse, pow_succ]
    ring

theorem reversal_eq (i : ℕ) : reversal i = Fft.reverse 12 i := by
  rw [reversal, reversal_loop, Nat.zero_mul, Nat.zero_add]

/-- The reversal table is a permutation that is its own inverse. -/
theorem reversal_reversal {i : ℕ} (hi : i < fftSize) :
    reversal i < fftSize ∧ reversal (reversal i) = i := by
  rw [reversal_eq, reversal_eq]
  exact ⟨Fft.reverse_lt, Fft.reverse_reverse hi⟩

end SpectrumProcessor

end OVMesh
