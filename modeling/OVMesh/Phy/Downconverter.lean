import OVMesh.Lib.LinearFilter
import OVMesh.Lib.Ring

/-!
# The downconverter

`Downconverter` of `channelizer.hpp`, in exact arithmetic: a lane is mixed down, smoothed by three boxes,
decimated, and filtered at four samples a chip. Samples and taps are values of one field, with what the
design takes of trigonometry and of the oscillator as parameters.

* `DownconverterConfig`: what the constructor checks and keeps. `taps_symmetric`: the filter it designs.
* `Downconverter.sample`, `feed`: one sample and one call.
* `coarseSample`, `output`: the direct definition of an output.
* `At`: the state after a number of samples. `At.sample`: one more sample.
* `downconverter_direct`: a stream in chunks gives the direct outputs, each at its place.
-/

namespace OVMesh

namespace Phy

open LinearFilter

/-! ## The configuration -/

/-- What the design takes of trigonometry. -/
structure Trigonometry (K : Type) [Field K] where
  pi : K
  sin : K → K
  cos : K → K
  sin_neg : ∀ x, sin (-x) = -sin x
  cos_turn : ∀ x, cos (2 * pi - x) = cos x

/-- The step of the oscillator for a sample, whose powers have magnitude one. -/
structure Oscillator (K : Type) [Field K] where
  step : K
  abs : K → K
  unit : ∀ n, abs (step ^ n) = 1

/-- `taps_.size()`: the length of the last filter. -/
def tapCount : ℕ := 97

/-- What the constructor accepts and keeps. -/
structure DownconverterConfig (K : Type) [Field K] where
  rate : ℕ
  bandwidth : ℕ
  trigonometry : Trigonometry K
  oscillator : Oscillator K
  coarse_ne_zero : rate / bandwidth / 4 ≠ 0
  multiple : rate % (bandwidth * 4) = 0

namespace DownconverterConfig

variable {K : Type} [Field K] (config : DownconverterConfig K)

/-- `coarse_`: the decimation of the boxes. -/
def coarse : ℕ := config.rate / config.bandwidth / 4

/-- `first_output_seconds_`: the time of the first output, the middle of its window. -/
def firstOutputSeconds : K := (101 / 2 * config.coarse + 1 / 2) / config.rate

/-- A tap of the windowed low pass, before the taps are divided by their sum. -/
def designedTap (n : ℕ) : K :=
  let t : K := n - 48
  let cutoff : K := 1375 / 10000
  let pi := config.trigonometry.pi
  let sinc := if n = 48 then 2 * cutoff else config.trigonometry.sin (2 * pi * cutoff * t) / (pi * t)
  let window := 54 / 100 - 46 / 100 * config.trigonometry.cos (2 * pi * n / 96)
  sinc * window

/-- `taps_`: the designed taps, divided by their sum. -/
def taps : List K :=
  let designed := (List.range tapCount).map config.designedTap
  designed.map (· / designed.sum)

theorem coarse_pos : 0 < config.coarse := Nat.pos_of_ne_zero config.coarse_ne_zero

@[simp] theorem length_taps : config.taps.length = tapCount := by simp [taps]

variable {config} [CharZero K]

/-- The low pass and its window are even around the tap in the middle. -/
theorem designedTap_symmetric {i : ℕ} (hi : i ≤ 96) :
    config.designedTap (96 - i) = config.designedTap i := by
  have hindex : ((96 - i : ℕ) : K) = 96 - i := by
    rw [Nat.cast_sub hi]
    norm_num
  have hangle : 2 * config.trigonometry.pi * (96 - (i : K)) / 96 =
      2 * config.trigonometry.pi - 2 * config.trigonometry.pi * i / 96 := by
    field_simp
  have hoffset : (96 - (i : K)) - 48 = -((i : K) - 48) := by ring
  unfold designedTap
  simp only [hindex, hangle, hoffset, config.trigonometry.cos_turn]
  congr 1
  by_cases h : i = 48
  · subst h
    rfl
  · rw [if_neg h, if_neg (by omega), mul_neg, config.trigonometry.sin_neg, mul_neg, neg_div_neg_eq]

/-- The taps read the same from both ends. -/
theorem taps_symmetric {i : ℕ} (hi : i ≤ 96) :
    config.taps.getD (96 - i) 0 = config.taps.getD i 0 := by
  have hget : ∀ k ≤ 96, config.taps.getD k 0 =
      config.designedTap k / ((List.range tapCount).map config.designedTap).sum := by
    intro k hk
    rw [List.getD_eq_getElem _ _ (by rw [length_taps]; unfold tapCount; omega)]
    simp [taps]
  rw [hget _ (Nat.sub_le _ _), hget _ hi, designedTap_symmetric hi]

end DownconverterConfig

/-! ## The state -/

/-- One entry of `delay_`, with its sum. -/
structure Box (K : Type) where
  delay : List K
  sum : K

/-- The members that change. -/
structure Downconverter (K : Type) where
  osc : K
  boxes : List (Box K)
  position : ℕ := 0
  tick : ℕ := 0
  historyPosition : ℕ := 0
  historyCount : ℕ := 0
  phase : ℕ := 0
  ticks : ℕ := 0
  history : List K

section Downconverter

variable {K : Type} [Field K] (config : DownconverterConfig K)

/-- The loop over the boxes: what leaves the last one. -/
def cascade (coarse position : ℕ) : List (Box K) → K → List (Box K) × K
  | [], x => ([], x)
  | box :: boxes, x =>
    let sum := box.sum + (x - box.delay.getD position 0)
    let rest := cascade coarse position boxes (sum / coarse)
    (⟨box.delay.set position x, sum⟩ :: rest.1, rest.2)

/-- The loop over the taps, which walks back through the history. -/
def weigh (history : List K) : ℕ → List K → K → K
  | _, [], filtered => filtered
  | position, tap :: taps, filtered =>
    let position := (position + history.length - 1) % history.length
    weigh history position taps (filtered + history.getD position 0 * tap)

namespace Downconverter

/-- A downconverter before its first sample: the oscillator at one, and delay lines of zeros. -/
def initial : Downconverter K :=
  { osc := 1
    boxes := List.replicate 3 ⟨List.replicate config.coarse 0, 0⟩
    history := List.replicate tapCount 0 }

/-- `reset`: the oscillator starts again, and every delay line is overwritten with zeros. -/
def reset (d : Downconverter K) : Downconverter K :=
  { osc := 1
    boxes := d.boxes.map fun box => ⟨box.delay.map fun _ => 0, 0⟩
    history := d.history.map fun _ => 0 }

/-- One turn of the loop of `feed`, with the output where there is one. -/
def sample (d : Downconverter K) (raw : K) : Downconverter K × Option K :=
  let x := raw * d.osc
  let osc := d.osc * config.oscillator.step
  let ticks := (d.ticks + 1) % 2 ^ 64
  let osc := if ticks % 4096 = 0 then osc / config.oscillator.abs osc else osc
  let (boxes, x) := cascade config.coarse d.position d.boxes x
  let d := { d with osc, ticks, boxes, position := (d.position + 1) % config.coarse }
  if d.tick + 1 < config.coarse then ({ d with tick := d.tick + 1 }, none)
  else
    let d := { d with
      tick := 0
      history := d.history.set d.historyPosition x
      historyPosition := (d.historyPosition + 1) % tapCount
      historyCount := min (d.historyCount + 1) tapCount }
    if d.phase + 1 < 4 then ({ d with phase := d.phase + 1 }, none)
    else
      let d := { d with phase := 0 }
      if d.historyCount < tapCount then (d, none)
      else (d, some (weigh d.history d.historyPosition config.taps 0))

/-- One call: the outputs of its samples. -/
def feed : Downconverter K → List K → Downconverter K × List K
  | d, [] => (d, [])
  | d, raw :: rest =>
    let (d, out) := sample config d raw
    let (d, outs) := feed d rest
    (d, out.toList ++ outs)

/-- Calls one after the other, with the outputs of all. -/
def feedAll : Downconverter K → List (List K) → Downconverter K × List K
  | d, [] => (d, [])
  | d, chunk :: chunks =>
    let (d, outs) := feed config d chunk
    let (d, rest) := feedAll d chunks
    (d, outs ++ rest)

end Downconverter

/-! ## The direct definition -/

/-- The stream mixed down. -/
def mixed (x : ℕ → K) (n : ℕ) : K := x n * config.oscillator.step ^ n

/-- The mean of the newest values, of which those before the stream are zero. -/
def average (coarse : ℕ) (y : ℕ → K) (n : ℕ) : K := window coarse y (n + 1) / coarse

/-- A sample at the coarse rate, after the three boxes. -/
def coarseSample (x : ℕ → K) (m : ℕ) : K :=
  (average config.coarse)^[3] (mixed config x) ((m + 1) * config.coarse - 1)

/-- An output: the filter over the newest coarse samples. -/
def output (x : ℕ → K) (j : ℕ) : K :=
  ∑ i ∈ Finset.range tapCount, config.taps.getD i 0 * coarseSample config x (99 + 4 * j - i)

/-- The outputs of so many samples. -/
def outputCount (n : ℕ) : ℕ := n / (4 * config.coarse) - 24

/-- The outputs of a stream up to a number of samples. -/
def outputs (x : ℕ → K) (n : ℕ) : List K := (List.range (outputCount config n)).map (output config x)

/-! ## Boxes -/

/-- A box after `n` values of a sequence: it holds the newest ones, and their sum. -/
structure BoxAt (coarse : ℕ) (y : ℕ → K) (n : ℕ) (box : Box K) : Prop where
  length : box.delay.length = coarse
  delay : Ring.Holds box.delay (List.replicate coarse 0 ++ (List.range n).map y) 0 n (coarse + n)
  sum : box.sum = window coarse y n

/-- Boxes of which each is fed by the one before. -/
def BoxesAt (coarse : ℕ) : (ℕ → K) → ℕ → List (Box K) → Prop
  | _, _, [] => True
  | y, n, box :: boxes => BoxAt coarse y n box ∧ BoxesAt coarse (average coarse y) n boxes

variable {coarse n : ℕ} {x y : ℕ → K} {box : Box K} {boxes : List (Box K)}

/-- The place that is written next has the value of a length before. -/
theorem BoxAt.oldest (h : BoxAt coarse y n box) (hc : 0 < coarse) :
    box.delay.getD (n % coarse) 0 = if coarse ≤ n then y (n - coarse) else 0 := by
  have hget := h.delay.get n le_rfl (by omega)
  rw [h.length, Nat.sub_zero] at hget
  rw [List.getD_eq_getElem?_getD, hget]
  split_ifs with hn
  · rw [List.getElem?_append_right (by simpa using hn), List.length_replicate]
    simp [List.getElem?_range (show n - coarse < n by omega)]
  · rw [List.getElem?_append_left (by simpa using hn)]
    simp [not_le.mp hn]

/-- A box takes the next value. -/
theorem BoxAt.next (h : BoxAt coarse y n box) (hc : 0 < coarse) : BoxAt coarse y (n + 1)
    ⟨box.delay.set (n % coarse) (y n), box.sum + (y n - box.delay.getD (n % coarse) 0)⟩ := by
  have hset := h.delay.set (by rw [h.length]; exact hc) (y n)
  have hplace : (coarse + n) % box.delay.length = n % coarse := by rw [h.length, Nat.add_mod_left]
  have hfirst : max n (coarse + n + 1 - box.delay.length) = n + 1 := by
    rw [h.length]
    omega
  rw [hplace, hfirst, List.append_assoc] at hset
  refine ⟨by simpa using h.length, ?_, ?_⟩
  · rw [List.range_succ, List.map_append]
    exact hset
  · show box.sum + _ = _
    rw [h.sum, h.oldest hc, window_succ]

/-- **The cascade.** Each box takes the next value of its sequence, and the last one gives the mean of
the means. -/
theorem cascade_spec (hc : 0 < coarse) (h : BoxesAt coarse y n boxes) :
    BoxesAt coarse y (n + 1) (cascade coarse (n % coarse) boxes (y n)).1 ∧
      (cascade coarse (n % coarse) boxes (y n)).2 = (average coarse)^[boxes.length] y n := by
  induction boxes generalizing y with
  | nil => exact ⟨trivial, rfl⟩
  | cons box boxes ih =>
    obtain ⟨hbox, hrest⟩ := h
    have hnext := hbox.next hc
    have hmean : (box.sum + (y n - box.delay.getD (n % coarse) 0)) / coarse = average coarse y n :=
      congrArg (· / (coarse : K)) hnext.sum
    obtain ⟨hboxes, hlast⟩ := ih hrest
    rw [cascade]
    simp only [hmean]
    exact ⟨⟨hnext, hboxes⟩, hlast⟩

theorem length_cascade : (cascade coarse n boxes (y n)).1.length = boxes.length := by
  generalize y n = value
  induction boxes generalizing value with
  | nil => rfl
  | cons box boxes ih => simp [cascade, ih]

/-! ## The history -/

/-- The walk back through a history that has the newest values of a stream. -/
theorem weigh_eq {history stream taps : List K} {first last m : ℕ} {filtered : K}
    (h : Ring.Holds history stream 0 first last) (hpos : 0 < history.length)
    (hfirst : first + taps.length ≤ m) (hlast : m ≤ last) :
    weigh history (m % history.length) taps filtered =
      filtered + ∑ i ∈ Finset.range taps.length, taps.getD i 0 * stream.getD (m - 1 - i) 0 := by
  induction taps generalizing m filtered with
  | nil => simp [weigh]
  | cons tap taps ih =>
    rw [List.length_cons] at hfirst
    obtain ⟨k, rfl⟩ : ∃ k, m = k + 1 := ⟨m - 1, by omega⟩
    have hplace : ((k + 1) % history.length + history.length - 1) % history.length =
        k % history.length := by
      have hmod := Nat.mod_add_mod (k + 1) history.length (history.length - 1)
      have hsum : k + 1 + (history.length - 1) = k + history.length := by omega
      rw [hsum, Nat.add_mod_right] at hmod
      rw [← hmod]
      congr 1
      omega
    have hvalue : history.getD (k % history.length) 0 = stream.getD k 0 := by
      rw [List.getD_eq_getElem?_getD, h.get k (by omega) (by omega), List.getD_eq_getElem?_getD,
        Nat.sub_zero]
    rw [weigh]
    simp only [hplace, hvalue]
    rw [ih (by omega) (by omega), List.length_cons, Finset.sum_range_succ']
    have hrest : ∑ i ∈ Finset.range taps.length,
        (tap :: taps).getD (i + 1) 0 * stream.getD (k + 1 - 1 - (i + 1)) 0 =
          ∑ i ∈ Finset.range taps.length, taps.getD i 0 * stream.getD (k - 1 - i) 0 := by
      refine Finset.sum_congr rfl fun i _ => ?_
      have hindex : k + 1 - 1 - (i + 1) = k - 1 - i := by omega
      rw [List.getD_cons_succ, hindex]
    rw [hrest, List.getD_cons_zero, Nat.add_sub_cancel, Nat.sub_zero]
    ring

/-! ## Steps -/

namespace Downconverter

/-- The state after `n` samples of a stream. -/
structure At (d : Downconverter K) (x : ℕ → K) (n : ℕ) : Prop where
  osc : d.osc = config.oscillator.step ^ n
  ticks : d.ticks = n % 2 ^ 64
  boxes : BoxesAt config.coarse (mixed config x) n d.boxes
  boxCount : d.boxes.length = 3
  position : d.position = n % config.coarse
  tick : d.tick = n % config.coarse
  history : Ring.Holds d.history ((List.range (n / config.coarse)).map (coarseSample config x)) 0
    (n / config.coarse - tapCount) (n / config.coarse)
  historyLength : d.history.length = tapCount
  historyPosition : d.historyPosition = n / config.coarse % tapCount
  historyCount : d.historyCount = min (n / config.coarse) tapCount
  phase : d.phase = n / config.coarse % 4

variable {config} {d : Downconverter K}

theorem outputCount_eq (n : ℕ) : outputCount config n = n / config.coarse / 4 - 24 := by
  rw [outputCount, Nat.mul_comm, ← Nat.div_div_eq_div_mul]

/-- The oscillator after a sample: its magnitude needs no correction. -/
theorem osc_next (n : ℕ) (p : Prop) [Decidable p] :
    (if p then config.oscillator.step ^ n * config.oscillator.step /
        config.oscillator.abs (config.oscillator.step ^ n * config.oscillator.step)
      else config.oscillator.step ^ n * config.oscillator.step) = config.oscillator.step ^ (n + 1) := by
  rw [← pow_succ, config.oscillator.unit, div_one, ite_self]

/-- **A sample.** The state goes on with the stream, and the output is the next one where there is one
more. -/
theorem At.sample (h : At config d x n) :
    At config (d.sample config (x n)).1 x (n + 1) ∧
      outputs config x (n + 1) = outputs config x n ++ (d.sample config (x n)).2.toList := by
  have hc := config.coarse_pos
  have hmixed : x n * config.oscillator.step ^ n = mixed config x n := rfl
  have hposition : (n % config.coarse + 1) % config.coarse = (n + 1) % config.coarse :=
    Nat.mod_add_mod _ _ _
  have hticks : (n % 2 ^ 64 + 1) % 2 ^ 64 = (n + 1) % 2 ^ 64 := Nat.mod_add_mod _ _ _
  obtain ⟨hboxes, hlast⟩ := cascade_spec hc h.boxes
  have hcount := @length_cascade K _ config.coarse (n % config.coarse) (fun _ => mixed config x n) d.boxes
  rw [h.boxCount] at hlast hcount
  unfold Downconverter.sample
  simp only [hmixed, h.osc, h.ticks, h.position, h.tick, osc_next, hposition, hticks]
  generalize cascade config.coarse (n % config.coarse) d.boxes (mixed config x n) = cascaded at *
  obtain ⟨boxes, value⟩ := cascaded
  simp only at *
  -- Between two ticks of the coarse decimation only the oscillator and the boxes go on.
  by_cases htick : n % config.coarse + 1 < config.coarse
  · obtain ⟨hdiv, hmod⟩ := (Ring.succ_div_mod hc).1 htick
    rw [if_pos htick]
    refine ⟨⟨rfl, rfl, hboxes, hcount, rfl, hmod.symm, ?_, h.historyLength, ?_, ?_, ?_⟩, ?_⟩
    · rw [hdiv]
      exact h.history
    · rw [hdiv]
      exact h.historyPosition
    · rw [hdiv]
      exact h.historyCount
    · rw [hdiv]
      exact h.phase
    · simp [outputs, outputCount_eq, hdiv]
  · obtain ⟨hdiv, hmod, hmul⟩ := (Ring.succ_div_mod hc).2 htick
    have hcoarse : value = coarseSample config x (n / config.coarse) := by
      rw [hlast, coarseSample, hmul, Nat.add_sub_cancel]
    have hstream : Ring.Holds (d.history.set (n / config.coarse % tapCount) value)
        ((List.range ((n + 1) / config.coarse)).map (coarseSample config x)) 0
        ((n + 1) / config.coarse - tapCount) ((n + 1) / config.coarse) := by
      have hset := h.history.set (by rw [h.historyLength]; decide) value
      have hfirst : max (n / config.coarse - tapCount) (n / config.coarse + 1 - tapCount) =
          n / config.coarse + 1 - tapCount := by omega
      rw [h.historyLength, hfirst] at hset
      rw [hdiv, List.range_succ, List.map_append, List.map_singleton, ← hcoarse]
      exact hset
    have hlength : (d.history.set (n / config.coarse % tapCount) value).length = tapCount := by
      rw [List.length_set, h.historyLength]
    have hplace : (n / config.coarse % tapCount + 1) % tapCount = (n + 1) / config.coarse % tapCount := by
      rw [hdiv, Nat.mod_add_mod]
    have hfull : min (min (n / config.coarse) tapCount + 1) tapCount =
        min ((n + 1) / config.coarse) tapCount := by
      rw [hdiv]
      omega
    simp only [h.historyPosition, h.historyCount, h.phase, hplace, hfull]
    rw [if_neg htick]
    -- Three of four coarse samples enter the history of the last filter without an output.
    by_cases hphase : n / config.coarse % 4 + 1 < 4
    · rw [if_pos hphase]
      refine ⟨⟨rfl, rfl, hboxes, hcount, rfl, hmod.symm, hstream, hlength, rfl, rfl, ?_⟩, ?_⟩
      · show n / config.coarse % 4 + 1 = _
        rw [hdiv]
        omega
      · have hquarter : (n / config.coarse + 1) / 4 = n / config.coarse / 4 := by omega
        simp [outputs, outputCount_eq, hdiv, hquarter]
    · rw [if_neg hphase]
      have hzero : 0 = (n + 1) / config.coarse % 4 := by
        rw [hdiv]
        omega
      have hat : ∀ out : Option K, At config ((⟨config.oscillator.step ^ (n + 1), boxes,
          (n + 1) % config.coarse, 0, (n + 1) / config.coarse % tapCount,
          min ((n + 1) / config.coarse) tapCount, 0, (n + 1) % 2 ^ 64,
          d.history.set (n / config.coarse % tapCount) value⟩ : Downconverter K), out).1 x (n + 1) :=
        fun _ => ⟨rfl, rfl, hboxes, hcount, rfl, hmod.symm, hstream, hlength, rfl, rfl, hzero⟩
      -- The fourth one gives an output once the history is full.
      by_cases hwarm : min ((n + 1) / config.coarse) tapCount < tapCount
      · rw [if_pos hwarm]
        refine ⟨hat none, ?_⟩
        have hfew : n / config.coarse + 1 < tapCount := by
          rw [← hdiv]
          omega
        have hnone : (n / config.coarse + 1) / 4 - 24 = 0 ∧ n / config.coarse / 4 - 24 = 0 := by
          unfold tapCount at hfew
          omega
        simp [outputs, outputCount_eq, hdiv, hnone]
      · rw [if_neg hwarm]
        refine ⟨hat (some _), ?_⟩
        have hmany : tapCount ≤ n / config.coarse + 1 := by
          rw [← hdiv]
          omega
        have hindex : (n / config.coarse + 1) / 4 - 24 = n / config.coarse / 4 - 24 + 1 ∧
            99 + 4 * (n / config.coarse / 4 - 24) = n / config.coarse := by
          unfold tapCount at hmany
          omega
        have hweigh := @weigh_eq K _ _ _ config.taps _ _ ((n + 1) / config.coarse) 0 hstream
          (by rw [hlength]; decide) (by rw [config.length_taps, hdiv]; omega) le_rfl
        rw [hlength, config.length_taps, zero_add] at hweigh
        have hnext : output config x (n / config.coarse / 4 - 24) =
            ∑ i ∈ Finset.range tapCount, config.taps.getD i 0 *
              ((List.range ((n + 1) / config.coarse)).map (coarseSample config x)).getD
                ((n + 1) / config.coarse - 1 - i) 0 := by
          rw [output, hindex.2, hdiv]
          refine Finset.sum_congr rfl fun i _ => ?_
          have hlt : n / config.coarse + 1 - 1 - i <
              ((List.range (n / config.coarse + 1)).map (coarseSample config x)).length := by
            rw [List.length_map, List.length_range]
            omega
          rw [List.getD_eq_getElem _ _ hlt]
          simp
        show outputs config x (n + 1) = outputs config x n ++ [weigh _ _ _ _]
        rw [hweigh, ← hnext, outputs, outputs, outputCount_eq, outputCount_eq, hdiv, hindex.1,
          List.range_succ, List.map_append, List.map_singleton]

theorem at_initial (config : DownconverterConfig K) (x : ℕ → K) : At config (initial config) x 0 := by
  have hbox : ∀ y : ℕ → K, BoxAt config.coarse y 0 ⟨List.replicate config.coarse 0, 0⟩ := by
    intro y
    refine ⟨List.length_replicate, ⟨le_rfl, Nat.zero_le _, by simp, fun k _ hk => ?_⟩, window_zero.symm⟩
    have hlt : k < config.coarse := hk
    simp [Nat.mod_eq_of_lt hlt, hlt]
  refine ⟨(pow_zero _).symm, rfl, ⟨hbox _, hbox _, hbox _, trivial⟩, rfl, by simp [initial],
    by simp [initial], ?_, List.length_replicate, by simp [initial], by simp [initial], by simp [initial]⟩
  rw [Nat.zero_div]
  exact Ring.holds_nil 0

/-- After any samples `reset` gives the beginning. -/
theorem At.reset (h : At config d x n) : d.reset = initial config := by
  have hboxes : ∀ (boxes : List (Box K)) (y : ℕ → K), BoxesAt config.coarse y n boxes →
      boxes.map (fun box => (⟨box.delay.map fun _ => 0, 0⟩ : Box K)) =
        List.replicate boxes.length ⟨List.replicate config.coarse 0, 0⟩ := by
    intro boxes
    induction boxes with
    | nil => exact fun _ _ => rfl
    | cons box boxes ih =>
      rintro y ⟨hbox, hrest⟩
      rw [List.map_cons, ih _ hrest, List.map_const', hbox.length]
      rfl
  rw [Downconverter.reset, hboxes _ _ h.boxes, h.boxCount, List.map_const', h.historyLength]
  rfl

/-- **A call.** It gives the outputs of its samples. -/
theorem At.feed (input : List K) (h : At config d x n) (hinput : ∀ i (hi : i < input.length),
    input[i] = x (n + i)) :
    At config (feed config d input).1 x (n + input.length) ∧
      outputs config x (n + input.length) = outputs config x n ++ (feed config d input).2 := by
  induction input generalizing d n with
  | nil => exact ⟨h, (List.append_nil _).symm⟩
  | cons raw input ih =>
    have hraw : raw = x n := hinput 0 (Nat.succ_pos _)
    subst hraw
    obtain ⟨hat, houtput⟩ := h.sample
    obtain ⟨hrest, houtputs⟩ := ih hat fun i hi => by
      have := hinput (i + 1) (Nat.succ_lt_succ hi)
      rw [List.getElem_cons_succ] at this
      rw [this]
      congr 1
      omega
    have hlength : n + 1 + input.length = n + (x n :: input).length := by
      rw [List.length_cons]
      omega
    rw [hlength] at hrest houtputs
    rw [Downconverter.feed]
    refine ⟨hrest, ?_⟩
    rw [houtputs, houtput, List.append_assoc]

/-- **The calls.** However the stream is cut, they give its outputs. -/
theorem At.feedAll (chunks : List (List K)) (h : At config d x n)
    (hinput : ∀ i (hi : i < chunks.flatten.length), chunks.flatten[i] = x (n + i)) :
    At config (feedAll config d chunks).1 x (n + chunks.flatten.length) ∧
      outputs config x (n + chunks.flatten.length) =
        outputs config x n ++ (feedAll config d chunks).2 := by
  induction chunks generalizing d n with
  | nil => exact ⟨h, (List.append_nil _).symm⟩
  | cons chunk chunks ih =>
    simp only [List.flatten_cons] at hinput
    obtain ⟨hat, houtput⟩ := h.feed chunk fun i hi => by
      rw [← hinput i (by rw [List.length_append]; omega), List.getElem_append_left hi]
    obtain ⟨hrest, houtputs⟩ := ih hat fun i hi => by
      have := hinput (chunk.length + i) (by rw [List.length_append]; omega)
      rw [List.getElem_append_right (by omega)] at this
      simp only [Nat.add_sub_cancel_left] at this
      rw [this, Nat.add_assoc]
    have hlength : n + chunk.length + chunks.flatten.length = n + (chunk :: chunks).flatten.length := by
      rw [List.flatten_cons, List.length_append]
      omega
    rw [hlength] at hrest houtputs
    rw [Downconverter.feedAll]
    refine ⟨hrest, ?_⟩
    rw [houtputs, houtput, List.append_assoc]

end Downconverter

/-! ## The weights of an output -/

section Weights

variable [CharZero K]

open Polynomial

/-- The weights of the three boxes. -/
noncomputable def boxWeights : K[X] :=
  (C (config.coarse : K)⁻¹ * ∑ i ∈ Finset.range config.coarse, X ^ i) ^ 3

/-- The weights of an output, the newest sample first. -/
noncomputable def weights : K[X] :=
  spread config.coarse 96 (fun i => config.taps.getD i 0) * boxWeights config

variable {config}

omit [CharZero K] in
theorem average_eq_filter (c : ℕ) (y : ℕ → K) :
    average c y = filter (C (c : K)⁻¹ * ∑ i ∈ Finset.range c, X ^ i) y := by
  funext n
  rw [filter_C_mul, filter_box, average, div_eq_inv_mul]

omit [CharZero K] in
theorem cascade_eq_filter (y : ℕ → K) :
    (average config.coarse)^[3] y = filter (boxWeights config) y := by
  simp only [Function.iterate_succ, Function.iterate_zero, Function.comp_apply, id_eq,
    average_eq_filter, filter_filter, boxWeights]
  generalize C (config.coarse : K)⁻¹ * ∑ i ∈ Finset.range config.coarse, X ^ i = box
  rw [pow_three]

theorem symmetric_weights : Palindromic (99 * config.coarse - 3) (weights config) := by
  have hc := config.coarse_pos
  have hbox : Palindromic (config.coarse - 1)
      (C (config.coarse : K)⁻¹ * ∑ i ∈ Finset.range config.coarse, X ^ i) := by
    simpa using (palindromic_C _).mul (palindromic_box hc)
  have hspread := @Palindromic.spread K _ config.coarse 96 (fun i => config.taps.getD i 0) fun i hi =>
    DownconverterConfig.taps_symmetric hi
  have hdegree : config.coarse * 96 + (config.coarse - 1 + (config.coarse - 1) + (config.coarse - 1)) =
      99 * config.coarse - 3 := by omega
  unfold weights boxWeights
  rw [pow_three', ← hdegree]
  exact hspread.mul ((hbox.mul hbox).mul hbox)

/-- **An output.** It is a weighted sum of the mixed samples. -/
theorem output_eq_sum (x : ℕ → K) (j : ℕ) : output config x j =
    ∑ n ∈ Finset.range (99 * config.coarse - 2), (weights config).coeff n *
      mixed config x ((100 + 4 * j) * config.coarse - 1 - n) := by
  have hc := config.coarse_pos
  have hlast : 99 * config.coarse - 3 ≤ (100 + 4 * j) * config.coarse - 1 := by
    have : 99 * config.coarse ≤ (100 + 4 * j) * config.coarse := Nat.mul_le_mul_right _ (by omega)
    omega
  have hspread : config.coarse * 96 ≤ (100 + 4 * j) * config.coarse - 1 := by
    have : 97 * config.coarse ≤ (100 + 4 * j) * config.coarse := Nat.mul_le_mul_right _ (by omega)
    omega
  have hlength : 99 * config.coarse - 3 + 1 = 99 * config.coarse - 2 := by omega
  have hfilter := @filter_eq_sum K _ _ (mixed config x) _ _ symmetric_weights.degree hlast
  rw [hlength] at hfilter
  rw [← hfilter]
  unfold weights output tapCount
  rw [← filter_filter, filter_spread hspread]
  refine Finset.sum_congr rfl fun i hi => ?_
  have hi := Finset.mem_range.mp hi
  have hplace : (99 + 4 * j - i + 1) * config.coarse - 1 =
      (100 + 4 * j) * config.coarse - 1 - config.coarse * i := by
    have hsum : 99 + 4 * j - i + 1 = 100 + 4 * j - i := by
      omega
    rw [hsum, Nat.sub_mul, Nat.mul_comm config.coarse i]
    omega
  rw [coarseSample, cascade_eq_filter, hplace]

/-- **The downconverter.** After a reset, a stream in chunks gives exactly the outputs of the direct
definition. Each is a symmetric weighted sum of the mixed samples, with its centre at the place that
`first_output_seconds` says. -/
theorem downconverter_direct (config : DownconverterConfig K) (before chunks : List (List K)) :
    let stream := chunks.flatten
    let x := fun n => stream.getD n 0
    let c := config.coarse
    let start := (Downconverter.feedAll config (.initial config) before).1.reset
    (Downconverter.feedAll config start chunks).2 =
      (List.range (stream.length / (4 * c) - 24)).map (output config x) ∧
    ∃ weight : ℕ → K, (∀ n ≤ 99 * c - 3, weight (99 * c - 3 - n) = weight n) ∧
      ∀ j, output config x j = ∑ n ∈ Finset.range (99 * c - 2),
          weight n * mixed config x ((100 + 4 * j) * c - 1 - n) ∧
        99 * c - 2 ≤ (100 + 4 * j) * c ∧
        (((100 + 4 * j) * c - 1 : ℕ) : K) - ((99 * c - 3 : ℕ) : K) / 2 =
          101 / 2 * c + 1 / 2 + 4 * c * j ∧
        config.firstOutputSeconds * config.rate + 4 * c * j = 101 / 2 * c + 1 / 2 + 4 * c * j := by
  intro stream x c start
  have hc := config.coarse_pos
  -- Whatever was fed before, a reset leaves the beginning.
  have hstart : start = .initial config := by
    obtain ⟨hat, -⟩ := (Downconverter.at_initial config
      fun n => before.flatten.getD n 0).feedAll before fun i hi => by
        simp [List.getElem?_eq_getElem hi]
    exact hat.reset
  refine ⟨?_, (weights config).coeff, fun n hn => symmetric_weights.coeff hn,
    fun j => ⟨output_eq_sum x j, ?_, ?_, ?_⟩⟩
  · obtain ⟨-, houtputs⟩ := (Downconverter.at_initial config x).feedAll chunks
      fun i hi => by simp [x, stream, List.getElem?_eq_getElem hi]
    have hnone : outputs config x 0 = [] := by simp [outputs, outputCount]
    rw [hnone, Nat.zero_add, List.nil_append] at houtputs
    rw [hstart, ← houtputs]
    rfl
  · have : 99 * c ≤ (100 + 4 * j) * c := Nat.mul_le_mul_right _ (by omega)
    omega
  · have hone : 1 ≤ (100 + 4 * j) * c := Nat.mul_pos (by omega) hc
    have hthree : 3 ≤ 99 * c := by
      have : 0 < c := hc
      omega
    rw [Nat.cast_sub hone, Nat.cast_sub hthree]
    push_cast
    ring
  · have hrate : (config.rate : K) ≠ 0 := by
      rw [Nat.cast_ne_zero]
      intro hzero
      exact config.coarse_ne_zero (by rw [hzero, Nat.zero_div, Nat.zero_div])
    rw [DownconverterConfig.firstOutputSeconds, div_mul_cancel₀ _ hrate]

/-- Two million samples a second and the narrowest bandwidth, over the complex numbers. -/
noncomputable def complexConfig : DownconverterConfig ℂ where
  rate := 2000000
  bandwidth := 125000
  trigonometry :=
    { pi := Real.pi
      sin := Complex.sin
      cos := Complex.cos
      sin_neg := Complex.sin_neg
      cos_turn := Complex.cos_two_pi_sub }
  oscillator :=
    { step := Complex.exp ((-2 * Real.pi * 100000 / 2000000 : ℝ) * Complex.I)
      abs := fun z => ‖z‖
      unit := fun n => by rw [norm_pow, Complex.norm_exp_ofReal_mul_I, one_pow, Complex.ofReal_one] }
  coarse_ne_zero := by decide
  multiple := by decide

theorem downconverter_direct_complex :
    let before : List (List ℂ) := [List.replicate 3 1]
    let start := (Downconverter.feedAll complexConfig (.initial complexConfig) before).1.reset
    (Downconverter.feedAll complexConfig start [List.replicate 1000 1, List.replicate 1000 1]).2.length =
      101 := by
  intro before start
  have hcoarse : complexConfig.coarse = 4 := rfl
  obtain ⟨houtputs, -⟩ := downconverter_direct complexConfig before
    [List.replicate 1000 1, List.replicate 1000 1]
  rw [houtputs, List.length_map, List.length_range, hcoarse, List.length_flatten]
  simp only [List.map_cons, List.map_nil, List.length_replicate, List.sum_cons, List.sum_nil]
  norm_num

end Weights

end Downconverter

end Phy

end OVMesh
