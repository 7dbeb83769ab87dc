import OVMesh.Lib.LinearFilter
import OVMesh.Lib.Ring
import OVMesh.Lib.Runs

/-!
# The chirp screen

`DiscoveryChirpScreen`: rolling sums of products of samples with delayed ones, for nine window lengths
and four lags, over a ring of every fourth sample. Values are exact, and the references are the powers
of roots of unity.

* `DiscoveryChirpScreen.push`, `reset`, `statistic`, `passes`, `recompute`: the members.
* `Stretch`, `direct`: the samples since the last reset, and the sums over the newest of them.
* `ScreenAt`: the screen after a stretch. `ScreenAt.store`: one more sample. `screen_run`: any sequence of
  calls.
* `screen_direct`: what is available is the direct sum, and decides as it does.
-/

namespace OVMesh

namespace Discovery

open LinearFilter Runs

/-- `std::norm` of a complex value and the roots of unity of the references. -/
structure ScreenNumbers (C K : Type) [Field C] [StarRing C] [Field K] [LinearOrder K] where
  norm : C →*₀ K
  norm_nonneg : ∀ z, 0 ≤ norm z
  finite : C → Bool
  root : ℕ → C
  primitive : ∀ size, 0 < size → IsPrimitiveRoot (root size) size
  conj : ∀ size, star (root size) = (root size)⁻¹

namespace ChirpScreen

/-- `history_.size()`: one of four samples of a stretch is stored. -/
def historySize : ℕ := 65536

/-- The lags at which a sample is compared with a later one. -/
def lagCount : ℕ := 4

/-- `Common`: the sums that all spreading factors of a window share. -/
structure Common (C K : Type) where
  dc : C
  energy : K

/-- `Statistic`: the correlation of a chirp with its window, and what the constant part leaves of the
energy. -/
structure Statistic (C K : Type) where
  correlation : C
  dc : C
  energy : K
  residual : K
  count : ℕ
  available : Bool
  recomputed : Bool

end ChirpScreen

open ChirpScreen

/-- The members of `DiscoveryChirpScreen`. The tables are functions of their indices. -/
structure DiscoveryChirpScreen (C K : Type) where
  history : List C
  common : ℕ → ℕ → Common C K
  cross : ℕ → ℕ → ℕ → C
  beginIndex : ℕ := 0
  endIndex : ℕ := 0
  recomputations : ℕ := 0
  initialized : Bool := false

section Screen

variable {C K : Type} [Field C] [StarRing C] [Field K] [LinearOrder K] (numbers : ScreenNumbers C K)

namespace ChirpScreen

/-- `bandwidth_index`: the row of the tables for a supported bandwidth. -/
def bandwidthIndex (bandwidth : ℕ) : Except String ℕ :=
  if bandwidth = 15625 then .ok 0
  else if bandwidth = 62500 then .ok 2
  else if bandwidth = 125000 then .ok 3
  else if bandwidth = 250000 then .ok 4
  else if bandwidth = 500000 then .ok 5
  else .error "Unsupported differential-screen bandwidth"

/-- `validate_sf_lag`: the spreading factor and the lag are those of the tables. -/
def validateSfLag (sf lag : ℕ) : Except String Unit :=
  if sf < 7 ∨ 12 < sf ∨ lagCount ≤ lag then .error "Unsupported differential-screen SF or lag" else .ok ()

/-- The checks at the beginning of `statistic` and `passes`. -/
def lookup (bandwidth sf lag : ℕ) : Except String ℕ := do
  let b ← bandwidthIndex bandwidth
  validateSfLag sf lag
  if b = 0 ∧ 10 < sf then .error "Tiny discovery supports SF7 through SF10" else .ok b

/-- `references()[b][lag].size()`: the period of the reference of a row. -/
def referenceSize (b lag : ℕ) : ℕ := 1024 * 2 ^ lag / 2 ^ b

/-- `references()[b][lag][i & (size - 1)]`: the references are powers of a root of unity. -/
def reference (b lag i : ℕ) : C := numbers.root (referenceSize b lag) ^ (i % referenceSize b lag)

/-- The difference of two coordinates, which wraps. -/
def before (index d : ℕ) : ℕ := (index + 2 ^ 64 - d) % 2 ^ 64

/-- The stored samples below an index: every fourth one, rounded up. -/
def slots (index : ℕ) : ℕ := index / 4 + if index % 4 ≠ 0 then 1 else 0

/-- The samples of a symbol period of a bandwidth and a spreading factor. -/
def symbolSamples (b sf : ℕ) : ℕ := 512 * 2 ^ (sf - 2 - b)

/-- The delay of a lag. -/
def lagDelay (n lag : ℕ) : ℕ := n / (8 * 2 ^ lag)

/-- `needs_recompute`: the sums lost so many digits that they are computed anew. -/
def needsRecompute (energy residual correlated : K) : Prop :=
  0 < energy ∧ residual ≤ energy * (1 / 10 ^ 8) ∧ energy * (1 / 10 ^ 12) ≤ correlated

instance (energy residual correlated : K) : Decidable (needsRecompute energy residual correlated) :=
  inferInstanceAs (Decidable (_ ∧ _))

/-- `passes` of a statistic. -/
def Statistic.passes (r : Statistic C K) : Prop :=
  r.available = true ∧ r.energy * (1 / 10 ^ 12) < r.residual ∧ 8 * r.residual ≤ numbers.norm r.correlation

instance (r : Statistic C K) : Decidable (r.passes numbers) := inferInstanceAs (Decidable (_ ∧ _))

end ChirpScreen

namespace DiscoveryChirpScreen

/-- A screen before its first sample. -/
def initial : DiscoveryChirpScreen C K :=
  { history := List.replicate historySize 0, common := fun _ _ => ⟨0, 0⟩, cross := fun _ _ _ => 0 }

/-- `reset`: the slots of the history that were written, the products and the sums are overwritten with
zeros. -/
def reset (s : DiscoveryChirpScreen C K) : DiscoveryChirpScreen C K :=
  let first := slots s.beginIndex
  let last := slots s.endIndex
  { history := if s.initialized then Ring.wipe s.history first (last - first) 0 else s.history
    common := fun _ _ => ⟨0, 0⟩
    cross := fun _ _ _ => 0 }

/-- `sample`: the stored sample of an index. -/
def sample (s : DiscoveryChirpScreen C K) (index : ℕ) : C := s.history.getD (index / 4 % historySize) 0

/-- `update`: a stored sample enters every sum, and what left the windows leaves them. -/
def update (s : DiscoveryChirpScreen C K) (value : C) (index : ℕ) : DiscoveryChirpScreen C K :=
  let newProduct := fun i => value * star (s.sample (before index (8 * 2 ^ i)))
  let newEnergy := fun i => numbers.norm (newProduct i)
  let old := fun p lag =>
    let n := 512 * 2 ^ p
    s.sample (before index n) * star (s.sample (before (before index n) (lagDelay n lag)))
  let delta := fun p lag => newProduct (p + 3 - lag) - old p lag
  { s with
    common := fun p lag =>
      ⟨(s.common p lag).dc + delta p lag,
        (s.common p lag).energy + (newEnergy (p + 3 - lag) - numbers.norm (old p lag))⟩
    cross := fun b sf lag =>
      if b ∈ [0, 2, 3, 4, 5] ∧ sf < if b = 0 then 4 else 6 then
        s.cross b sf lag + delta (sf + 5 - b) lag * reference numbers b lag index
      else s.cross b sf lag }

/-- The rest of `push`, for a sample that is accepted. -/
def store (s : DiscoveryChirpScreen C K) (value : C) (index : ℕ) : DiscoveryChirpScreen C K :=
  let s :=
    if index % 4 = 0 then
      let s := s.update numbers value index
      { s with history := s.history.set (index / 4 % historySize) value }
    else s
  { s with endIndex := index + 1 }

/-- `push`, with the text where it throws. -/
def push (s : DiscoveryChirpScreen C K) (value : C) (index : ℕ) : DiscoveryChirpScreen C K × Option String :=
  if numbers.finite value = false ∨ index = 2 ^ 64 - 1 ∨ (s.initialized = true ∧ index ≠ s.endIndex) then
    (s.reset, some "Invalid differential-screen sample or discontinuity; history reset")
  else
    let s := if s.initialized then s
      else { s with beginIndex := index, endIndex := index, initialized := true }
    (s.store numbers value index, none)

/-- `ready`: the window and the delay are filled, and the index is a quarter of a symbol. -/
def ready (s : DiscoveryChirpScreen C K) (n delay : ℕ) : Prop :=
  s.initialized = true ∧ n + delay ≤ s.endIndex - s.beginIndex ∧ s.endIndex % (n / 4) = 0

instance (s : DiscoveryChirpScreen C K) (n delay : ℕ) : Decidable (s.ready n delay) :=
  inferInstanceAs (Decidable (_ ∧ _))

/-- `recompute`: the sums over the window, and the count of these. -/
def recompute (s : DiscoveryChirpScreen C K) (b sf lag : ℕ) :
    Statistic C K × DiscoveryChirpScreen C K :=
  let n := symbolSamples b sf
  let delay := lagDelay n lag
  let product := fun i => s.sample (before s.endIndex n + i) *
    star (s.sample (before (before s.endIndex n) delay + i))
  let (correlation, dc, energy) := (List.range (n / 4)).foldl
    (fun (sums : C × C × K) k =>
      let z := product (4 * k)
      (sums.1 + z * reference numbers b lag (4 * k), sums.2.1 + z, sums.2.2 + numbers.norm z)) (0, 0, 0)
  let count := n / 4
  (⟨correlation, dc, energy, max 0 (energy - numbers.norm dc / count), count, true, true⟩,
    { s with recomputations := min (s.recomputations + 1) (2 ^ 64 - 1) })

/-- `statistic`: the statistic of a row, when it is available. -/
def statistic (s : DiscoveryChirpScreen C K) (bandwidth sf lag : ℕ) :
    Except String (Statistic C K × DiscoveryChirpScreen C K) := do
  let b ← lookup bandwidth sf lag
  let n := symbolSamples b sf
  if s.ready n (lagDelay n lag) then
    let accumulated := s.common (sf - 2 - b) lag
    let rotation := star (reference numbers b lag (before s.endIndex n))
    let correlation := s.cross b (sf - 7) lag * rotation
    let energy := max 0 accumulated.energy
    let residual := max 0 (energy - numbers.norm accumulated.dc / (n / 4 : ℕ))
    if needsRecompute energy residual (numbers.norm correlation) then return s.recompute numbers b sf lag
    else return (⟨correlation, accumulated.dc, energy, residual, n / 4, true, false⟩, s)
  else return (⟨0, 0, 0, 0, n / 4, false, false⟩, s)

/-- The loop of `passes` over the lags. -/
def passesFor (b sf : ℕ) : List ℕ → DiscoveryChirpScreen C K → Bool × DiscoveryChirpScreen C K
  | [], s => (false, s)
  | lag :: lags, s =>
    let n := symbolSamples b sf
    if s.ready n (lagDelay n lag) then
      let accumulated := s.common (sf - 2 - b) lag
      let energy := max 0 accumulated.energy
      let residual := max 0 (energy - numbers.norm accumulated.dc / (n / 4 : ℕ))
      let correlated := numbers.norm (s.cross b (sf - 7) lag)
      if needsRecompute energy residual correlated then
        let (recomputed, s) := s.recompute numbers b sf lag
        if recomputed.passes numbers then (true, s) else passesFor b sf lags s
      else if energy * (1 / 10 ^ 12) < residual ∧ 8 * residual ≤ correlated then (true, s)
      else passesFor b sf lags s
    else passesFor b sf lags s

/-- `passes`: one of the lags of the row has a strong correlation. -/
def passes (s : DiscoveryChirpScreen C K) (bandwidth sf : ℕ) :
    Except String (Bool × DiscoveryChirpScreen C K) := do
  let b ← lookup bandwidth sf 0
  return passesFor numbers b sf (List.range lagCount) s

end DiscoveryChirpScreen

/-- A call of the screen. -/
inductive ScreenCall (C : Type)
  | push (value : C) (index : Fin (2 ^ 64))
  | reset
  | statistic (bandwidth sf lag : ℕ)
  | passes (bandwidth sf : ℕ)

/-- What a call leaves. -/
def DiscoveryChirpScreen.step (s : DiscoveryChirpScreen C K) : ScreenCall C → DiscoveryChirpScreen C K
  | .push value index => (s.push numbers value index).1
  | .reset => s.reset
  | .statistic bandwidth sf lag =>
    match s.statistic numbers bandwidth sf lag with
    | .ok (_, s') => s'
    | .error _ => s
  | .passes bandwidth sf =>
    match s.passes numbers bandwidth sf with
    | .ok (_, s') => s'
    | .error _ => s

/-! ## Stretches -/

/-- The samples since the last reset, the first of which has the index `first`. -/
structure Stretch (C : Type) where
  first : ℕ
  values : List C

namespace Stretch

/-- The stretch after a call, where there is one. -/
def step : Option (Stretch C) → ScreenCall C → Option (Stretch C)
  | none, .push value index =>
    if numbers.finite value = false ∨ index.val = 2 ^ 64 - 1 then none else some ⟨index, [value]⟩
  | some stretch, .push value index =>
    if numbers.finite value = false ∨ index.val = 2 ^ 64 - 1 ∨
      index.val ≠ stretch.first + stretch.values.length then none
    else some ⟨stretch.first, stretch.values ++ [value]⟩
  | _, .reset => none
  | stretch, _ => stretch

/-- The coordinate behind the last sample of the stretch. -/
def endIndex (stretch : Stretch C) : ℕ := stretch.first + stretch.values.length

/-- The sample of an index. -/
def sampleAt (stretch : Stretch C) (index : ℕ) : C := stretch.values.getD (index - stretch.first) 0

/-- The stretch has the samples of a window and its delay, at the end of a quarter of a window. -/
def Available (stretch : Stretch C) (n delay : ℕ) : Prop :=
  n + delay ≤ stretch.values.length ∧ stretch.endIndex % (n / 4) = 0

/-- A product of the newest window. -/
def newest (stretch : Stretch C) (n delay k : ℕ) : C :=
  stretch.sampleAt (stretch.endIndex - n + 4 * k) * star (stretch.sampleAt (stretch.endIndex - n - delay + 4 * k))

/-- **The direct sums** over the newest window. -/
def direct (stretch : Stretch C) (b sf lag : ℕ) : Statistic C K :=
  let n := symbolSamples b sf
  let z := stretch.newest n (lagDelay n lag)
  let dc := ∑ k ∈ Finset.range (n / 4), z k
  let energy := ∑ k ∈ Finset.range (n / 4), numbers.norm (z k)
  { correlation := ∑ k ∈ Finset.range (n / 4), z k * numbers.root (referenceSize b lag) ^ (4 * k)
    dc, energy
    residual := max 0 (energy - numbers.norm dc / (n / 4 : ℕ))
    count := n / 4
    available := true
    recomputed := true }

end Stretch

/-! ## Every fourth sample -/

/-- The stored sample of a place, which is zero outside of the stretch. -/
def Stretch.slot (stretch : Stretch C) (j : ℕ) : C :=
  if stretch.first ≤ 4 * j then stretch.sampleAt (4 * j) else 0

/-- A sequence some places before, from zero history. -/
def delayed (y : ℕ → C) (d j : ℕ) : C := if d ≤ j then y (j - d) else 0

/-- The products of a sequence with itself some places before. -/
def product (y : ℕ → C) (d j : ℕ) : C := y j * star (delayed y d j)

/-- The window and the delay of a row of the tables, in stored samples. -/
def rowWindow (p : ℕ) : ℕ := 2 ^ (7 + p)
/-- The delay of a row, in stored samples. -/
def rowDelay (p lag : ℕ) : ℕ := 2 ^ (4 + p - lag)

/-- The rows and bandwidths of `cross` that are in use. -/
structure InUse (b sf lag : ℕ) : Prop where
  band : b ∈ [0, 2, 3, 4, 5]
  factor : sf < if b = 0 then 4 else 6
  lag : lag < lagCount

variable {numbers} {s : DiscoveryChirpScreen C K} {stretch : Stretch C} {value : C}
  {p lag b sf d j k n m index : ℕ}

theorem window_bytes : 512 * 2 ^ p = 4 * rowWindow p := by
  rw [rowWindow, pow_add]
  ring

theorem lagDelay_eq (hlag : lag < lagCount) : lagDelay (512 * 2 ^ p) lag = 4 * rowDelay p lag := by
  obtain ⟨e, he⟩ : ∃ e, 4 + p = lag + e + 1 := ⟨3 + p - lag, by unfold lagCount at hlag; omega⟩
  have hexp : 4 + p - lag = e + 1 := by omega
  have hsum : 9 + p = 3 + lag + (e + 3) := by omega
  have hsplit : 512 * 2 ^ p = 8 * 2 ^ lag * (4 * 2 ^ (e + 1)) := by
    have h512 : 512 * 2 ^ p = 2 ^ (9 + p) := by
      rw [pow_add]
      norm_num
    rw [h512, hsum]
    ring
  rw [lagDelay, rowDelay, hexp, hsplit, Nat.mul_div_cancel_left _ (by positivity)]

theorem product_delay (hlag : lag < lagCount) : 8 * 2 ^ (p + 3 - lag) = 4 * rowDelay p lag := by
  have hexp : 4 + p - lag = p + 3 - lag + 1 := by
    unfold lagCount at hlag
    omega
  rw [rowDelay, hexp]
  ring

theorem rowWindow_le (hp : p < 9) : rowWindow p ≤ 32768 :=
  (Nat.pow_le_pow_right (by decide) (show 7 + p ≤ 15 by omega)).trans_eq (by decide)

theorem rowDelay_le (hp : p < 9) : rowDelay p lag ≤ 4096 :=
  (Nat.pow_le_pow_right (by decide) (show 4 + p - lag ≤ 12 by omega)).trans_eq (by decide)

theorem rowDelay_pos : 0 < rowDelay p lag := Nat.two_pow_pos _

theorem rowWindow_pos : 0 < rowWindow p := Nat.two_pow_pos _

/-- The row of the tables for a bandwidth and a spreading factor. -/
theorem InUse.row_lt (h : InUse b sf lag) : sf + 5 - b < 9 := by
  have hband := h.band
  have hfactor := h.factor
  simp only [List.mem_cons, List.not_mem_nil, or_false] at hband
  split_ifs at hfactor <;> omega

/-- The samples of a symbol and of a lag, in stored samples. -/
theorem symbol_row (b sf : ℕ) (hlag : lag < lagCount) :
    symbolSamples b sf = 4 * rowWindow (sf - 2 - b) ∧
      lagDelay (4 * rowWindow (sf - 2 - b)) lag = 4 * rowDelay (sf - 2 - b) lag ∧
      4 * rowWindow (sf - 2 - b) / 4 = rowWindow (sf - 2 - b) :=
  ⟨window_bytes, window_bytes ▸ lagDelay_eq hlag, Nat.mul_div_cancel_left _ (by decide)⟩

/-! ## References -/

theorem referenceSize_pos (h : InUse b sf lag) : 0 < referenceSize b lag := by
  obtain ⟨hband, -, hlag⟩ := h
  have hb : b ≤ 5 := by
    simp only [List.mem_cons, List.not_mem_nil, or_false] at hband
    omega
  have hle : 2 ^ b ≤ 1024 * 2 ^ lag :=
    (Nat.pow_le_pow_right (by decide) hb).trans
      ((show 2 ^ 5 ≤ 1024 by decide).trans (Nat.le_mul_of_pos_right _ (Nat.two_pow_pos _)))
  exact Nat.div_pos hle (Nat.two_pow_pos _)

/-- A window is a whole number of turns of its reference. -/
theorem referenceSize_dvd (h : InUse b sf lag) : referenceSize b lag ∣ 4 * rowWindow (sf + 5 - b) := by
  obtain ⟨hband, hfactor, hlag⟩ := h
  simp only [List.mem_cons, List.not_mem_nil, or_false] at hband
  unfold lagCount at hlag
  have hb : b ≤ 5 := by omega
  have hsize : referenceSize b lag = 2 ^ (10 + lag - b) := by
    have hsplit : 1024 * 2 ^ lag = 2 ^ (10 + lag - b) * 2 ^ b := by
      have hexp : 10 + lag - b + b = 10 + lag := by omega
      rw [← pow_add, hexp, pow_add]
      norm_num
    rw [referenceSize, hsplit, Nat.mul_div_cancel _ (Nat.two_pow_pos _)]
  have hwindow : 4 * rowWindow (sf + 5 - b) = 2 ^ (9 + (sf + 5 - b)) := by
    rw [rowWindow, pow_add, pow_add]
    ring
  rw [hsize, hwindow]
  exact pow_dvd_pow 2 (by omega)

theorem root_pow_mod (hsize : 0 < n) : numbers.root n ^ (k % n) = numbers.root n ^ k := by
  rw [← pow_mod_orderOf (numbers.root n) k, ← (numbers.primitive n hsize).eq_orderOf]

theorem root_pow_add (hsize : 0 < n) (hdvd : n ∣ m) : numbers.root n ^ (m + k) = numbers.root n ^ k := by
  obtain ⟨c, rfl⟩ := hdvd
  rw [pow_add, pow_mul, (numbers.primitive n hsize).pow_eq_one, one_pow, one_mul]

theorem norm_root_pow [IsStrictOrderedRing K] (hsize : 0 < n) : numbers.norm (numbers.root n ^ k) = 1 := by
  have hone : numbers.norm (numbers.root n) = 1 := by
    have hpow : numbers.norm (numbers.root n) ^ n = 1 := by
      rw [← map_pow, (numbers.primitive n hsize).pow_eq_one, map_one]
    exact (pow_eq_one_iff_of_nonneg (numbers.norm_nonneg _) hsize.ne').mp hpow
  rw [map_pow, hone, one_pow]

/-! ## The state after a stretch -/

variable (numbers) in
/-- The screen has taken a stretch. The ring has every fourth sample, and the tables have the sums over
their windows of it. -/
structure ScreenAt (s : DiscoveryChirpScreen C K) (stretch : Stretch C) : Prop where
  initialized : s.initialized = true
  beginIndex : s.beginIndex = stretch.first
  endIndex : s.endIndex = stretch.endIndex
  bound : stretch.endIndex < 2 ^ 64
  length : s.history.length = historySize
  history : Ring.Filled s.history 0 stretch.slot (slots stretch.first) (slots stretch.endIndex)
  dc : ∀ p < 9, ∀ lag < lagCount, (s.common p lag).dc =
    window (rowWindow p) (product stretch.slot (rowDelay p lag)) (slots stretch.endIndex)
  energy : ∀ p < 9, ∀ lag < lagCount, (s.common p lag).energy =
    window (rowWindow p) (fun j => numbers.norm (product stretch.slot (rowDelay p lag) j))
      (slots stretch.endIndex)
  cross : ∀ b sf lag, InUse b sf lag → s.cross b sf lag =
    window (rowWindow (sf + 5 - b)) (fun j => product stretch.slot (rowDelay (sf + 5 - b) lag) j *
      numbers.root (referenceSize b lag) ^ (4 * j)) (slots stretch.endIndex)

/-- A stored sample, read back from the end of the stretch: zero before its beginning. -/
theorem ScreenAt.sample (h : ScreenAt numbers s stretch) (hd : 0 < d) (hd' : d ≤ historySize)
    (hindex : index / 4 % historySize = (slots stretch.endIndex + historySize - d) % historySize) :
    s.sample index = delayed stretch.slot d (slots stretch.endIndex) := by
  have hget := h.history.get d hd (by rw [h.length]; exact hd')
  rw [h.length] at hget
  rw [DiscoveryChirpScreen.sample, hindex, List.getD_eq_getElem?_getD, hget, Option.getD_some, delayed]
  by_cases hwritten : slots stretch.first + d ≤ slots stretch.endIndex
  · rw [if_pos hwritten, if_pos (by omega)]
  · rw [if_neg hwritten]
    split_ifs with hle
    · rw [Stretch.slot, if_neg]
      unfold slots at hwritten hle ⊢
      split_ifs at hwritten hle ⊢ <;> omega
    · rfl

/-- A sample some places before the next one that is stored. -/
theorem ScreenAt.sample_before (h : ScreenAt numbers s stretch) (haligned : stretch.endIndex % 4 = 0)
    (hd : 0 < d) (hd' : d ≤ historySize) :
    s.sample (before stretch.endIndex (4 * d)) = delayed stretch.slot d (slots stretch.endIndex) := by
  refine h.sample hd hd' ?_
  unfold historySize at hd' ⊢
  rw [before, slots, if_neg (by omega)]
  omega

theorem ScreenAt.sample_before_before (h : ScreenAt numbers s stretch)
    (haligned : stretch.endIndex % 4 = 0) (hd : 0 < d) (hd' : n + d ≤ historySize) :
    s.sample (before (before stretch.endIndex (4 * n)) (4 * d)) =
      delayed stretch.slot (n + d) (slots stretch.endIndex) := by
  refine h.sample (by omega) hd' ?_
  unfold historySize at hd' ⊢
  rw [before, before, slots, if_neg (by omega)]
  omega

/-! ## One more sample -/

/-- The stretch with one more sample. -/
def Stretch.concat (stretch : Stretch C) (value : C) : Stretch C := ⟨stretch.first, stretch.values ++ [value]⟩

omit [Field C] [StarRing C] in
theorem concat_endIndex : (stretch.concat value).endIndex = stretch.endIndex + 1 := by
  rw [Stretch.endIndex, Stretch.concat, List.length_append, List.length_singleton]
  rfl

omit [StarRing C] in
/-- The stored samples before the end stay. -/
theorem slot_concat (hj : j < slots stretch.endIndex) : (stretch.concat value).slot j = stretch.slot j := by
  have hlt : 4 * j < stretch.endIndex := by
    unfold slots at hj
    split_ifs at hj <;> omega
  rw [Stretch.slot, Stretch.slot]
  have hfirst : (stretch.concat value).first = stretch.first := rfl
  rw [hfirst]
  split_ifs with hle
  · rw [Stretch.endIndex] at hlt
    rw [Stretch.sampleAt, Stretch.sampleAt, hfirst, Stretch.concat, List.getD_eq_getElem?_getD,
      List.getElem?_append_left (by omega), ← List.getD_eq_getElem?_getD]
  · rfl

omit [StarRing C] in
/-- The new sample is the next one that is stored, where its index is a multiple of four. -/
theorem slot_concat_end (haligned : stretch.endIndex % 4 = 0) :
    (stretch.concat value).slot (slots stretch.endIndex) = value := by
  have hindex : 4 * slots stretch.endIndex = stretch.endIndex := by
    rw [slots, if_neg (by omega)]
    omega
  rw [Stretch.slot, hindex, Stretch.sampleAt, if_pos (by exact Nat.le_add_right _ _)]
  have hlength : stretch.endIndex - (stretch.concat value).first = stretch.values.length := by
    rw [Stretch.endIndex]
    exact Nat.add_sub_cancel_left _ _
  rw [hlength, Stretch.concat, List.getD_eq_getElem?_getD, List.getElem?_concat_length, Option.getD_some]

/-- Products of samples that stay. -/
theorem product_concat (hj : j < slots stretch.endIndex) :
    product (stretch.concat value).slot d j = product stretch.slot d j := by
  rw [product, product, slot_concat hj, delayed, delayed]
  split_ifs
  · rw [slot_concat (by omega)]
  · rfl

/-- The window moves by the product with the new sample, and that of the sample a window before. -/
theorem product_move (value : C) (hd : 0 < d) (haligned : stretch.endIndex % 4 = 0) :
    value * star (delayed stretch.slot d (slots stretch.endIndex)) =
      product (stretch.concat value).slot d (slots stretch.endIndex) ∧
    delayed stretch.slot n (slots stretch.endIndex) *
        star (delayed stretch.slot (n + d) (slots stretch.endIndex)) =
      if n ≤ slots stretch.endIndex then
        product stretch.slot d (slots stretch.endIndex - n) else 0 := by
  constructor
  · rw [product, slot_concat_end haligned, delayed, delayed]
    split_ifs
    · rw [slot_concat (by omega)]
    · rfl
  · by_cases hn : n ≤ slots stretch.endIndex
    · rw [if_pos hn, product, delayed, if_pos hn, delayed, delayed]
      by_cases hnd : n + d ≤ slots stretch.endIndex
      · rw [if_pos hnd, if_pos (by omega), Nat.sub_sub]
      · rw [if_neg hnd, if_neg (by omega)]
    · rw [if_neg hn, delayed, if_neg hn, zero_mul]

omit [Field C] [StarRing C] in
/-- The slots of the stretch with the next sample, where it is stored. -/
theorem slots_concat (haligned : stretch.endIndex % 4 = 0) :
    slots (stretch.concat value).endIndex = slots stretch.endIndex + 1 := by
  rw [concat_endIndex]
  unfold slots
  rw [if_pos (by omega), if_neg (by omega)]
  omega

/-- The product that enters a window. -/
theorem ScreenAt.entering (h : ScreenAt numbers s stretch) (value : C)
    (haligned : stretch.endIndex % 4 = 0) (hp : p < 9) (hlag : lag < lagCount) :
    value * star (s.sample (before stretch.endIndex (8 * 2 ^ (p + 3 - lag)))) =
      product (stretch.concat value).slot (rowDelay p lag) (slots stretch.endIndex) := by
  have hle := @rowDelay_le p lag hp
  rw [product_delay hlag, h.sample_before haligned rowDelay_pos (by unfold historySize; omega)]
  exact (product_move (n := 0) value rowDelay_pos haligned).1

/-- The product that leaves a window, when it is full. -/
theorem ScreenAt.leaving (h : ScreenAt numbers s stretch) (value : C)
    (haligned : stretch.endIndex % 4 = 0) (hp : p < 9) (hlag : lag < lagCount) :
    s.sample (before stretch.endIndex (512 * 2 ^ p)) * star (s.sample
        (before (before stretch.endIndex (512 * 2 ^ p)) (lagDelay (512 * 2 ^ p) lag))) =
      if rowWindow p ≤ slots stretch.endIndex then
        product (stretch.concat value).slot (rowDelay p lag) (slots stretch.endIndex - rowWindow p)
      else 0 := by
  have hle := @rowDelay_le p lag hp
  have hle' := rowWindow_le hp
  have hpos := @rowWindow_pos p
  rw [lagDelay_eq hlag, window_bytes, h.sample_before haligned hpos (by unfold historySize; omega),
    h.sample_before_before haligned rowDelay_pos (by unfold historySize; omega),
    (product_move value rowDelay_pos haligned).2]
  split_ifs
  · rw [product_concat (by omega)]
  · rfl

/-- The reference of the product that leaves is that of the one that enters: the window is a multiple
of its period. -/
theorem reference_leaving (huse : InUse b sf lag) (y : ℕ → C) :
    (if rowWindow (sf + 5 - b) ≤ n then
      y (n - rowWindow (sf + 5 - b)) *
        numbers.root (referenceSize b lag) ^ (4 * (n - rowWindow (sf + 5 - b))) else 0) =
      (if rowWindow (sf + 5 - b) ≤ n then y (n - rowWindow (sf + 5 - b)) else 0) *
        numbers.root (referenceSize b lag) ^ (4 * n) := by
  split_ifs with hle
  · have hsum : 4 * n = 4 * rowWindow (sf + 5 - b) + 4 * (n - rowWindow (sf + 5 - b)) := by omega
    rw [hsum, root_pow_add (referenceSize_pos huse) (referenceSize_dvd huse)]
  · rw [zero_mul]

/-- The sum of the products, with one more sample stored. -/
theorem ScreenAt.store_dc (h : ScreenAt numbers s stretch) (value : C)
    (haligned : stretch.endIndex % 4 = 0) (hp : p < 9) (hlag : lag < lagCount) :
    (s.common p lag).dc +
        (value * star (s.sample (before stretch.endIndex (8 * 2 ^ (p + 3 - lag)))) -
          s.sample (before stretch.endIndex (512 * 2 ^ p)) * star (s.sample
            (before (before stretch.endIndex (512 * 2 ^ p)) (lagDelay (512 * 2 ^ p) lag)))) =
      window (rowWindow p) (product (stretch.concat value).slot (rowDelay p lag))
        (slots stretch.endIndex + 1) := by
  rw [h.entering value haligned hp hlag, h.leaving value haligned hp hlag, h.dc p hp lag hlag,
    window_congr fun j hj => (product_concat hj).symm]
  exact window_succ

/-- The sum of their energies. -/
theorem ScreenAt.store_energy (h : ScreenAt numbers s stretch) (value : C)
    (haligned : stretch.endIndex % 4 = 0) (hp : p < 9) (hlag : lag < lagCount) :
    (s.common p lag).energy +
        (numbers.norm (value * star (s.sample (before stretch.endIndex (8 * 2 ^ (p + 3 - lag))))) -
          numbers.norm (s.sample (before stretch.endIndex (512 * 2 ^ p)) * star (s.sample
            (before (before stretch.endIndex (512 * 2 ^ p)) (lagDelay (512 * 2 ^ p) lag))))) =
      window (rowWindow p)
        (fun j => numbers.norm (product (stretch.concat value).slot (rowDelay p lag) j))
        (slots stretch.endIndex + 1) := by
  rw [h.entering value haligned hp hlag, h.leaving value haligned hp hlag, apply_ite numbers.norm,
    map_zero, h.energy p hp lag hlag,
    window_congr fun j hj => congrArg numbers.norm (product_concat hj).symm]
  exact window_succ

/-- The sum of the products with their reference. -/
theorem ScreenAt.store_cross (h : ScreenAt numbers s stretch) (value : C)
    (haligned : stretch.endIndex % 4 = 0) (huse : InUse b sf lag) :
    s.cross b sf lag +
        (value * star (s.sample (before stretch.endIndex (8 * 2 ^ (sf + 5 - b + 3 - lag)))) -
          s.sample (before stretch.endIndex (512 * 2 ^ (sf + 5 - b))) * star (s.sample
            (before (before stretch.endIndex (512 * 2 ^ (sf + 5 - b)))
              (lagDelay (512 * 2 ^ (sf + 5 - b)) lag)))) *
          numbers.root (referenceSize b lag) ^ (stretch.endIndex % referenceSize b lag) =
      window (rowWindow (sf + 5 - b)) (fun j =>
        product (stretch.concat value).slot (rowDelay (sf + 5 - b) lag) j *
          numbers.root (referenceSize b lag) ^ (4 * j)) (slots stretch.endIndex + 1) := by
  have hpower : numbers.root (referenceSize b lag) ^ (stretch.endIndex % referenceSize b lag) =
      numbers.root (referenceSize b lag) ^ (4 * slots stretch.endIndex) := by
    have hindex : 4 * slots stretch.endIndex = stretch.endIndex := by
      rw [slots, if_neg (by omega)]
      omega
    rw [root_pow_mod (referenceSize_pos huse), hindex]
  rw [h.entering value haligned huse.row_lt huse.lag, h.leaving value haligned huse.row_lt huse.lag,
    hpower, sub_mul,
    ← reference_leaving huse (product (stretch.concat value).slot (rowDelay (sf + 5 - b) lag)),
    h.cross b sf lag huse, window_congr fun j hj => by rw [← @product_concat C _ _ stretch value _ _ hj]]
  exact window_succ

/-- A sample that is not stored changes nothing but the end. -/
theorem ScreenAt.skip (h : ScreenAt numbers s stretch) (haligned : stretch.endIndex % 4 ≠ 0)
    (hbound : stretch.endIndex + 1 < 2 ^ 64) :
    ScreenAt numbers { s with endIndex := stretch.endIndex + 1 } (stretch.concat value) := by
  have hend := @concat_endIndex C stretch value
  have hsame : slots (stretch.concat value).endIndex = slots stretch.endIndex := by
    rw [hend]
    unfold slots
    split_ifs <;> omega
  refine ⟨h.initialized, h.beginIndex, hend.symm, by rwa [hend], h.length, ?_, ?_, ?_, ?_⟩
  · rw [hsame]
    exact h.history.congr fun k _ hk => (slot_concat hk).symm
  · intro p hp lag hlag
    rw [hsame]
    exact (h.dc p hp lag hlag).trans (window_congr fun j hj => (product_concat hj).symm)
  · intro p hp lag hlag
    rw [hsame]
    exact (h.energy p hp lag hlag).trans
      (window_congr fun j hj => congrArg numbers.norm (product_concat hj).symm)
  · intro b sf lag huse
    rw [hsame]
    exact (h.cross b sf lag huse).trans (window_congr fun j hj => by rw [product_concat hj])

/-- **A sample.** -/
theorem ScreenAt.store (h : ScreenAt numbers s stretch) (hbound : stretch.endIndex + 1 < 2 ^ 64) :
    ScreenAt numbers (s.store numbers value stretch.endIndex) (stretch.concat value) := by
  have hend := @concat_endIndex C stretch value
  rw [DiscoveryChirpScreen.store]
  -- One of four samples is stored. The sums change only with it.
  by_cases haligned : stretch.endIndex % 4 = 0
  · rw [if_pos haligned]
    have hnext := @slots_concat C stretch value haligned
    refine ⟨h.initialized, h.beginIndex, hend.symm, by rwa [hend], ?_, ?_, ?_, ?_, ?_⟩
    · exact List.length_set.trans h.length
    · have hquotient : stretch.endIndex / 4 = slots stretch.endIndex := by
        rw [slots, if_neg (by omega), Nat.add_zero]
      have hset := (h.history.congr fun k _ hk => (@slot_concat C _ stretch value _ hk).symm).set
        (by rw [h.length]; decide)
      rw [slot_concat_end haligned, h.length, ← hquotient] at hset
      rw [hnext]
      rwa [← hquotient]
    · intro p hp lag hlag
      rw [hnext]
      exact h.store_dc value haligned hp hlag
    · intro p hp lag hlag
      rw [hnext]
      exact h.store_energy value haligned hp hlag
    · intro b sf lag huse
      have hguard : b ∈ [0, 2, 3, 4, 5] ∧ sf < if b = 0 then 4 else 6 := ⟨huse.band, huse.factor⟩
      rw [hnext, ← h.store_cross value haligned huse]
      simp only [DiscoveryChirpScreen.update]
      rw [if_pos hguard]
      rfl
  · rw [if_neg haligned]
    exact h.skip haligned hbound

/-! ## Calls -/

/-- A new screen, with a stretch that begins at the next sample. -/
theorem screenAt_begin (hindex : index < 2 ^ 64) : ScreenAt numbers
    { (DiscoveryChirpScreen.initial : DiscoveryChirpScreen C K) with
      beginIndex := index, endIndex := index, initialized := true } ⟨index, []⟩ := by
  have hslot : (⟨index, []⟩ : Stretch C).slot = fun _ => 0 := by
    funext j
    simp [Stretch.slot, Stretch.sampleAt]
  have hproduct : ∀ d, product (⟨index, []⟩ : Stretch C).slot d = fun _ => 0 := by
    intro d
    funext j
    rw [hslot, product, zero_mul]
  have hwindow : ∀ {R : Type} [CommRing R] (m n : ℕ), window m (fun _ => (0 : R)) n = 0 := by
    intro R _ m n
    simp [window]
  refine ⟨rfl, rfl, rfl, hindex, List.length_replicate, Ring.filled_replicate, ?_, ?_, ?_⟩
  · intro p _ lag _
    rw [hproduct, hwindow]
    rfl
  · intro p _ lag _
    simp only [hproduct, map_zero, hwindow]
    rfl
  · intro b sf lag _
    simp only [hproduct, zero_mul, hwindow]
    rfl

/-- After any stretch `reset` gives a new screen: the wipe covers every stored sample. -/
theorem ScreenAt.reset (h : ScreenAt numbers s stretch) : s.reset = .initial := by
  have hwipe := h.history.wipe
  rw [h.length] at hwipe
  rw [DiscoveryChirpScreen.reset, if_pos h.initialized, h.beginIndex, h.endIndex]
  simp only [hwipe]
  rfl

variable (numbers) in
/-- The screen has taken the stretch, or is new. -/
def ScreenInv (s : DiscoveryChirpScreen C K) : Option (Stretch C) → Prop
  | none => s = .initial
  | some stretch => ScreenAt numbers s stretch

theorem ScreenInv.reset {current : Option (Stretch C)} (h : ScreenInv numbers s current) :
    s.reset = .initial := by
  cases current with
  | none =>
    obtain rfl : s = .initial := h
    rfl
  | some stretch => exact ScreenAt.reset h

variable (s) in
/-- A call that only asks: it may count, where the screen has samples. -/
def Asked (s' : DiscoveryChirpScreen C K) : Prop :=
  ∃ count, s' = { s with recomputations := count } ∧ (s.initialized = false → count = s.recomputations)

omit [Field C] [StarRing C] [Field K] [LinearOrder K] in
theorem asked_refl : Asked s s := ⟨s.recomputations, rfl, fun _ => rfl⟩

theorem asked_recompute (numbers : ScreenNumbers C K) (b sf lag : ℕ) (hinitialized : s.initialized = true) :
    Asked s (s.recompute numbers b sf lag).2 :=
  ⟨_, rfl, fun h => absurd (h.symm.trans hinitialized) Bool.false_ne_true⟩

theorem asked_passesFor (lags : List ℕ) : Asked s (s.passesFor numbers b sf lags).2 := by
  induction lags generalizing s with
  | nil => exact asked_refl
  | cons lag lags ih =>
    rw [DiscoveryChirpScreen.passesFor]
    simp only
    split_ifs with hready hrecompute hpasses hdirect
    · exact asked_recompute numbers b sf lag hready.1
    · obtain ⟨count, hcount, hfresh⟩ := @ih (s.recompute numbers b sf lag).2
      refine ⟨count, ?_, fun h => absurd (h.symm.trans hready.1) Bool.false_ne_true⟩
      rw [hcount]
      rfl
    · exact asked_refl
    · exact ih
    · exact ih

theorem asked_statistic (bandwidth : ℕ) {result : Statistic C K} {s' : DiscoveryChirpScreen C K}
    (h : s.statistic numbers bandwidth sf lag = .ok (result, s')) : Asked s s' := by
  cases hlookup : lookup bandwidth sf lag with
  | error text =>
    simp only [DiscoveryChirpScreen.statistic, hlookup, bind, Except.bind] at h
    cases h
  | ok b =>
    simp only [DiscoveryChirpScreen.statistic, hlookup, bind, Except.bind, pure, Except.pure] at h
    split_ifs at h with hready hrecompute
    · have hasked := asked_recompute numbers b sf lag hready.1
      rwa [(Except.ok.inj h)] at hasked
    · obtain ⟨-, rfl⟩ := Prod.mk.inj (Except.ok.inj h)
      exact asked_refl
    · obtain ⟨-, rfl⟩ := Prod.mk.inj (Except.ok.inj h)
      exact asked_refl

/-- A count of recomputations changes nothing else. -/
theorem ScreenInv.asked {current : Option (Stretch C)} {s' : DiscoveryChirpScreen C K}
    (h : ScreenInv numbers s current) (hasked : Asked s s') : ScreenInv numbers s' current := by
  obtain ⟨count, rfl, hfresh⟩ := hasked
  cases current with
  | none =>
    obtain rfl : s = .initial := h
    rw [hfresh rfl]
    rfl
  | some stretch =>
    have h : ScreenAt numbers s stretch := h
    exact ⟨h.initialized, h.beginIndex, h.endIndex, h.bound, h.length, h.history, h.dc, h.energy, h.cross⟩

theorem ScreenInv.push {current : Option (Stretch C)} (h : ScreenInv numbers s current)
    (index : Fin (2 ^ 64)) : ScreenInv numbers (s.push numbers value index).1
      (Stretch.step numbers current (.push value index)) := by
  rw [DiscoveryChirpScreen.push]
  cases current with
  | none =>
    obtain rfl : s = .initial := h
    have hfresh : (DiscoveryChirpScreen.initial : DiscoveryChirpScreen C K).initialized = false := rfl
    rw [Stretch.step]
    by_cases hrefused : numbers.finite value = false ∨ index.val = 2 ^ 64 - 1
    · rw [if_pos hrefused, if_pos (by tauto)]
      exact @ScreenInv.reset _ _ _ _ _ _ numbers _ none rfl
    · rw [if_neg hrefused, if_neg (by rw [hfresh]; tauto)]
      have hlt := index.isLt
      have hbegin : ScreenAt numbers _ ⟨index, []⟩ := screenAt_begin hlt
      have hbound : (⟨index, []⟩ : Stretch C).endIndex + 1 < 2 ^ 64 := by
        show index.val + 0 + 1 < 2 ^ 64
        omega
      exact hbegin.store hbound
  | some stretch =>
    have h : ScreenAt numbers s stretch := h
    rw [Stretch.step]
    have hend : s.endIndex = stretch.first + stretch.values.length := h.endIndex
    by_cases hrefused : numbers.finite value = false ∨ index.val = 2 ^ 64 - 1 ∨
        index.val ≠ stretch.first + stretch.values.length
    · rw [if_pos hrefused, if_pos (by rw [h.initialized, hend]; tauto)]
      exact ScreenAt.reset h
    · have hindex : index.val = stretch.endIndex := by
        by_contra hne
        exact hrefused (.inr (.inr hne))
      have hlt := index.isLt
      have hstore : ScreenAt numbers (s.store numbers value stretch.endIndex) (stretch.concat value) :=
        h.store (by omega)
      rw [← hindex] at hstore
      rw [if_neg hrefused, if_neg (by rw [h.initialized, hend]; tauto)]
      simp only [h.initialized, if_true]
      exact hstore

/-- **A call.** -/
theorem screen_step {current : Option (Stretch C)} (call : ScreenCall C) (h : ScreenInv numbers s current) :
    ScreenInv numbers (s.step numbers call) (Stretch.step numbers current call) := by
  cases call with
  | push value index => exact h.push index
  | reset =>
    have hreset : Stretch.step numbers current .reset = none := by cases current <;> rfl
    rw [hreset]
    exact ScreenInv.reset h
  | statistic bandwidth sf lag =>
    have hsame : Stretch.step numbers current (.statistic bandwidth sf lag) = current := by
      cases current <;> rfl
    rw [hsame, DiscoveryChirpScreen.step]
    cases hresult : s.statistic numbers bandwidth sf lag with
    | error text => exact h
    | ok result => exact h.asked (asked_statistic bandwidth hresult)
  | passes bandwidth sf =>
    have hsame : Stretch.step numbers current (.passes bandwidth sf) = current := by
      cases current <;> rfl
    rw [hsame, DiscoveryChirpScreen.step]
    cases hlookup : lookup bandwidth sf 0 with
    | error text =>
      simp only [DiscoveryChirpScreen.passes, hlookup, bind, Except.bind]
      exact h
    | ok b =>
      simp only [DiscoveryChirpScreen.passes, hlookup, bind, Except.bind, pure, Except.pure]
      exact h.asked (asked_passesFor _)

/-- **A run.** After any calls the screen has taken the current stretch, or is new. -/
theorem screen_run (calls : List (ScreenCall C)) :
    ScreenInv numbers (run (DiscoveryChirpScreen.step numbers) .initial calls)
      (run (Stretch.step numbers) none calls) := by
  suffices hrun : ∀ (s : DiscoveryChirpScreen C K) (current : Option (Stretch C)),
      ScreenInv numbers s current → ScreenInv numbers (run (DiscoveryChirpScreen.step numbers) s calls)
        (run (Stretch.step numbers) current calls) from hrun _ none rfl
  induction calls with
  | nil => exact fun _ _ h => h
  | cons call calls ih =>
    intro s current h
    rw [run_cons, run_cons]
    exact ih _ _ (screen_step call h)

/-! ## The direct sums -/

/-- The checks pass for what is in use. -/
theorem lookup_ok {bandwidth : ℕ} (h : lookup bandwidth sf lag = .ok b) :
    InUse b (sf - 7) lag ∧ sf - 2 - b = sf - 7 + 5 - b := by
  cases hband : bandwidthIndex bandwidth with
  | error text =>
    simp only [lookup, hband, bind, Except.bind] at h
    cases h
  | ok b' =>
    have hb : b' ∈ [0, 2, 3, 4, 5] := by
      unfold bandwidthIndex at hband
      split_ifs at hband <;> cases hband <;> decide
    simp only [lookup, hband, bind, Except.bind, validateSfLag] at h
    split_ifs at h with hrange hzero
    obtain rfl := Except.ok.inj h
    refine ⟨⟨hb, ?_, by omega⟩, ?_⟩
    · split_ifs <;> omega
    · simp only [List.mem_cons, List.not_mem_nil, or_false] at hb
      omega

/-- The checks are those of the first lag for all of them. -/
theorem lookup_any {bandwidth : ℕ} (h : lookup bandwidth sf lag = .ok b) : lookup bandwidth sf 0 = .ok b := by
  cases hband : bandwidthIndex bandwidth with
  | error text =>
    simp only [lookup, hband, bind, Except.bind] at h
    cases h
  | ok b' =>
    simp only [lookup, hband, bind, Except.bind, validateSfLag] at h ⊢
    split_ifs at h ⊢ <;> first | exact h | (exfalso; unfold lagCount at *; omega)

/-- The sums are ready when the stretch has the samples for them. -/
theorem ScreenAt.ready_iff (h : ScreenAt numbers s stretch) : s.ready n m ↔ stretch.Available n m := by
  rw [DiscoveryChirpScreen.ready, Stretch.Available, h.beginIndex, h.endIndex, Stretch.endIndex,
    Nat.add_sub_cancel_left]
  exact ⟨fun hready => hready.2, fun havailable => ⟨h.initialized, havailable⟩⟩

omit [Field C] [StarRing C] in
/-- Where the sums are available, the stretch has their samples, and its end is stored next. -/
theorem available_slots (h : stretch.Available (4 * rowWindow p) (4 * rowDelay p lag)) :
    4 * slots stretch.endIndex = stretch.endIndex ∧
      stretch.first + 4 * (rowWindow p + rowDelay p lag) ≤ stretch.endIndex := by
  obtain ⟨hlength, hend⟩ := h
  have hfour : 4 ∣ stretch.endIndex := by
    have hwindow : 4 ∣ 4 * rowWindow p / 4 := by
      rw [Nat.mul_div_cancel_left _ (by decide)]
      exact (pow_dvd_pow 2 (show 2 ≤ 7 + p by omega))
    exact hwindow.trans (Nat.dvd_of_mod_eq_zero hend)
  refine ⟨?_, ?_⟩
  · rw [slots, if_neg (by omega)]
    omega
  · rw [Stretch.endIndex]
    omega

/-- A product of the newest window is one of stored samples. -/
theorem newest_eq (h : stretch.Available (4 * rowWindow p) (4 * rowDelay p lag)) :
    stretch.newest (4 * rowWindow p) (4 * rowDelay p lag) k =
      product stretch.slot (rowDelay p lag) (slots stretch.endIndex - rowWindow p + k) := by
  obtain ⟨hend, hfits⟩ := available_slots h
  have hslot : ∀ j, stretch.first ≤ 4 * j → stretch.slot j = stretch.sampleAt (4 * j) :=
    fun j hj => if_pos hj
  rw [Stretch.newest, product, delayed, if_pos (by omega), hslot _ (by omega), hslot _ (by omega)]
  congr 3
  · omega
  · omega

/-- The sum of something of the newest products is a window of the stored samples. -/
theorem sum_newest {R : Type} [CommRing R] (f : C → ℕ → R)
    (h : stretch.Available (4 * rowWindow p) (4 * rowDelay p lag)) :
    ∑ k ∈ Finset.range (rowWindow p),
        f (stretch.newest (4 * rowWindow p) (4 * rowDelay p lag) k)
          (slots stretch.endIndex - rowWindow p + k) =
      window (rowWindow p) (fun j => f (product stretch.slot (rowDelay p lag) j) j)
        (slots stretch.endIndex) := by
  obtain ⟨hend, hfits⟩ := available_slots h
  rw [window_eq_sum (by omega)]
  exact Finset.sum_congr rfl fun k _ => by rw [newest_eq h]

/-- **The tables.** Where the sums are available, the tables have the direct ones, the correlation but
for the phase at the beginning of the window. -/
theorem ScreenAt.tables (h : ScreenAt numbers s stretch) (huse : InUse b (sf - 7) lag)
    (hp : sf - 2 - b = sf - 7 + 5 - b)
    (havailable : stretch.Available (symbolSamples b sf) (lagDelay (symbolSamples b sf) lag)) :
    (s.common (sf - 2 - b) lag).dc = (stretch.direct numbers b sf lag).dc ∧
    (s.common (sf - 2 - b) lag).energy = (stretch.direct numbers b sf lag).energy ∧
    s.cross b (sf - 7) lag = (stretch.direct numbers b sf lag).correlation *
      numbers.root (referenceSize b lag) ^ (stretch.endIndex - symbolSamples b sf) ∧
    symbolSamples b sf ≤ stretch.endIndex := by
  have hnine : sf - 2 - b < 9 := hp ▸ huse.row_lt
  obtain ⟨hn, hdelay, hquarter⟩ := symbol_row b sf huse.lag
  rw [hn, hdelay] at havailable
  obtain ⟨hend, hfits⟩ := available_slots havailable
  simp only [Stretch.direct, hdelay, hn, hquarter]
  refine ⟨?_, ?_, ?_, by omega⟩
  · rw [h.dc _ hnine _ huse.lag]
    exact (sum_newest (fun z _ => z) havailable).symm
  · rw [h.energy _ hnine _ huse.lag]
    exact (sum_newest (fun z _ => numbers.norm z) havailable).symm
  · rw [h.cross _ _ _ huse, ← hp, Finset.sum_mul]
    refine (sum_newest (fun z j => z * numbers.root (referenceSize b lag) ^ (4 * j))
      havailable).symm.trans ?_
    refine Finset.sum_congr rfl fun k _ => ?_
    have hindex : 4 * (slots stretch.endIndex - rowWindow (sf - 2 - b) + k) =
        4 * k + (stretch.endIndex - 4 * rowWindow (sf - 2 - b)) := by omega
    rw [hindex, pow_add, mul_assoc]

/-- A triple of sums in one loop. -/
theorem foldl_sums {A B : Type} [AddCommMonoid A] [AddCommMonoid B] (f g : ℕ → A) (e : ℕ → B) :
    (List.range n).foldl (fun (sums : A × A × B) k => (sums.1 + f k, sums.2.1 + g k, sums.2.2 + e k))
      (0, 0, 0) =
    (∑ k ∈ Finset.range n, f k, ∑ k ∈ Finset.range n, g k, ∑ k ∈ Finset.range n, e k) := by
  induction n with
  | zero => rfl
  | succ n ih =>
    rw [List.range_succ, List.foldl_append, ih, Finset.sum_range_succ, Finset.sum_range_succ,
      Finset.sum_range_succ]
    rfl

/-- **The rescan.** It evaluates the direct sums. -/
theorem ScreenAt.recompute (h : ScreenAt numbers s stretch) (huse : InUse b (sf - 7) lag)
    (hp : sf - 2 - b = sf - 7 + 5 - b)
    (havailable : stretch.Available (symbolSamples b sf) (lagDelay (symbolSamples b sf) lag)) :
    (s.recompute numbers b sf lag).1 = stretch.direct numbers b sf lag := by
  have hnine : sf - 2 - b < 9 := hp ▸ huse.row_lt
  obtain ⟨hn, hdelay, hquarter⟩ := symbol_row b sf huse.lag
  have hwindow := rowWindow_le hnine
  have hlag := @rowDelay_le (sf - 2 - b) lag hnine
  rw [hn, hdelay] at havailable
  obtain ⟨hend, hfits⟩ := available_slots havailable
  -- Both samples of each product of the window are still in the history.
  have hsamples : ∀ k < rowWindow (sf - 2 - b),
      s.sample (before stretch.endIndex (4 * rowWindow (sf - 2 - b)) + 4 * k) *
        star (s.sample (before (before stretch.endIndex (4 * rowWindow (sf - 2 - b)))
          (4 * rowDelay (sf - 2 - b) lag) + 4 * k)) =
      stretch.newest (4 * rowWindow (sf - 2 - b)) (4 * rowDelay (sf - 2 - b) lag) k := by
    intro k hk
    have hbound := h.bound
    have hd : rowWindow (sf - 2 - b) + rowDelay (sf - 2 - b) lag - k ≤ historySize := by
      unfold historySize
      omega
    have hpos := @rowDelay_pos (sf - 2 - b) lag
    rw [newest_eq havailable, product,
      @ScreenAt.sample _ _ _ _ _ _ numbers s stretch (rowWindow (sf - 2 - b) - k) _ h (by omega) (by omega)
        (by
          unfold historySize
          rw [before]
          omega),
      @ScreenAt.sample _ _ _ _ _ _ numbers s stretch
        (rowWindow (sf - 2 - b) + rowDelay (sf - 2 - b) lag - k) _ h (by omega) hd
        (by
          unfold historySize
          rw [before, before]
          omega),
      delayed, if_pos (by omega), delayed, if_pos (by omega), delayed, if_pos (by omega)]
    congr 2
    · omega
    · congr 1
      omega
  simp only [DiscoveryChirpScreen.recompute, Stretch.direct, hn, hdelay, hquarter, h.endIndex, foldl_sums]
  have hsize := referenceSize_pos huse
  have hsum : ∀ {R : Type} [AddCommMonoid R] (f : C → ℕ → R),
      ∑ k ∈ Finset.range (rowWindow (sf - 2 - b)),
        f (s.sample (before stretch.endIndex (4 * rowWindow (sf - 2 - b)) + 4 * k) *
          star (s.sample (before (before stretch.endIndex (4 * rowWindow (sf - 2 - b)))
            (4 * rowDelay (sf - 2 - b) lag) + 4 * k))) k =
      ∑ k ∈ Finset.range (rowWindow (sf - 2 - b)),
        f (stretch.newest (4 * rowWindow (sf - 2 - b)) (4 * rowDelay (sf - 2 - b) lag) k) k :=
    fun f => Finset.sum_congr rfl fun k hk => by rw [hsamples k (Finset.mem_range.mp hk)]
  have hreference : ∀ k, reference numbers b lag (4 * k) =
      numbers.root (referenceSize b lag) ^ (4 * k) := fun k => root_pow_mod hsize
  simp only [hreference]
  rw [hsum fun z k => z * numbers.root (referenceSize b lag) ^ (4 * k), hsum fun z _ => z,
    hsum fun z _ => numbers.norm z]

section Decisions

variable [IsStrictOrderedRing K]

/-- What the members derive from the tables is what the direct sums give: the phase of the correlation
has no part in its magnitude. -/
theorem ScreenAt.derived (h : ScreenAt numbers s stretch) (huse : InUse b (sf - 7) lag)
    (hp : sf - 2 - b = sf - 7 + 5 - b)
    (havailable : stretch.Available (symbolSamples b sf) (lagDelay (symbolSamples b sf) lag)) :
    max 0 (s.common (sf - 2 - b) lag).energy = (stretch.direct numbers b sf lag).energy ∧
    max 0 ((stretch.direct numbers b sf lag).energy -
        numbers.norm (s.common (sf - 2 - b) lag).dc / (symbolSamples b sf / 4 : ℕ)) =
      (stretch.direct numbers b sf lag).residual ∧
    s.cross b (sf - 7) lag * star (reference numbers b lag (before s.endIndex (symbolSamples b sf))) =
      (stretch.direct numbers b sf lag).correlation ∧
    numbers.norm (s.cross b (sf - 7) lag) =
      numbers.norm (stretch.direct numbers b sf lag).correlation := by
  obtain ⟨hdc, henergy, hcross, hle⟩ := h.tables huse hp havailable
  have hsize := referenceSize_pos huse
  have hnonneg : 0 ≤ (stretch.direct numbers b sf lag).energy := by
    simp only [Stretch.direct]
    exact Finset.sum_nonneg fun k _ => numbers.norm_nonneg _
  refine ⟨?_, ?_, ?_, ?_⟩
  · rw [henergy, max_eq_right hnonneg]
  · rw [hdc]
    rfl
  · have hbound := h.bound
    have hindex : before stretch.endIndex (symbolSamples b sf) =
        stretch.endIndex - symbolSamples b sf := by
      rw [before]
      omega
    have hne : numbers.root (referenceSize b lag) ≠ 0 := (numbers.primitive _ hsize).ne_zero hsize.ne'
    rw [hcross, h.endIndex, hindex, reference, root_pow_mod hsize, star_pow, numbers.conj, inv_pow, mul_assoc,
      mul_inv_cancel₀ (pow_ne_zero _ hne), mul_one]
  · rw [hcross, map_mul, norm_root_pow hsize, mul_one]

/-- **The loop over the lags.** It finds a lag whose direct sums pass, whichever of the two it uses. -/
theorem passesFor_iff {lags : List ℕ} (h : ScreenAt numbers s stretch)
    (huse : ∀ lag ∈ lags, InUse b (sf - 7) lag) (hp : sf - 2 - b = sf - 7 + 5 - b) :
    (s.passesFor numbers b sf lags).1 = true ↔ ∃ lag ∈ lags,
      stretch.Available (symbolSamples b sf) (lagDelay (symbolSamples b sf) lag) ∧
        (stretch.direct numbers b sf lag).passes numbers := by
  induction lags generalizing s with
  | nil => simp [DiscoveryChirpScreen.passesFor]
  | cons lag lags ih =>
    obtain ⟨huse', hrest⟩ := List.forall_mem_cons.mp huse
    have hmore := ih h hrest
    rw [DiscoveryChirpScreen.passesFor, List.exists_mem_cons_iff]
    simp only
    by_cases hready : s.ready (symbolSamples b sf) (lagDelay (symbolSamples b sf) lag)
    · have havailable := h.ready_iff.mp hready
      obtain ⟨henergy, hresidual, -, hnorm⟩ := h.derived huse' hp havailable
      have hrescan := h.recompute huse' hp havailable
      have hpasses : (stretch.direct numbers b sf lag).passes numbers ↔
          (stretch.direct numbers b sf lag).energy * (1 / 10 ^ 12) <
              (stretch.direct numbers b sf lag).residual ∧
            8 * (stretch.direct numbers b sf lag).residual ≤
              numbers.norm (stretch.direct numbers b sf lag).correlation :=
        ⟨fun hall => hall.2, fun hdecision => ⟨rfl, hdecision⟩⟩
      have hcounted : ScreenAt numbers (s.recompute numbers b sf lag).2 stretch :=
        @ScreenInv.asked _ _ _ _ _ _ numbers s (some stretch) _ h
          (asked_recompute numbers b sf lag h.initialized)
      rw [if_pos hready, henergy, hresidual, hnorm, hrescan]
      split_ifs with hrecompute hdirect hdecision
      · exact ⟨fun _ => .inl ⟨havailable, hdirect⟩, fun _ => rfl⟩
      · rw [ih hcounted hrest]
        exact ⟨.inr, fun hany => hany.resolve_left fun hlag => hdirect hlag.2⟩
      · exact ⟨fun _ => .inl ⟨havailable, hpasses.mpr hdecision⟩, fun _ => rfl⟩
      · rw [hmore]
        exact ⟨.inr, fun hany => hany.resolve_left fun hlag => hdecision (hpasses.mp hlag.2)⟩
    · rw [if_neg hready, hmore]
      exact ⟨.inr, fun hany => hany.resolve_left fun hlag => hready (h.ready_iff.mpr hlag.1)⟩

/-- **The statistic.** Where it is available it has the direct sums. -/
theorem ScreenAt.statistic (h : ScreenAt numbers s stretch) {bandwidth : ℕ}
    (hlookup : lookup bandwidth sf lag = .ok b) : ∃ result s',
      s.statistic numbers bandwidth sf lag = .ok (result, s') ∧
      (result.available = true ↔
        stretch.Available (symbolSamples b sf) (lagDelay (symbolSamples b sf) lag)) ∧
      (result.available = true → result.correlation = (stretch.direct numbers b sf lag).correlation ∧
        result.dc = (stretch.direct numbers b sf lag).dc ∧
        result.energy = (stretch.direct numbers b sf lag).energy ∧
        result.residual = (stretch.direct numbers b sf lag).residual) := by
  obtain ⟨huse, hp⟩ := lookup_ok hlookup
  simp only [DiscoveryChirpScreen.statistic, hlookup, bind, Except.bind, pure, Except.pure]
  by_cases hready : s.ready (symbolSamples b sf) (lagDelay (symbolSamples b sf) lag)
  · have havailable := h.ready_iff.mp hready
    obtain ⟨hdc, -⟩ := h.tables huse hp havailable
    obtain ⟨henergy, hresidual, hcorrelation, -⟩ := h.derived huse hp havailable
    have hrescan := h.recompute huse hp havailable
    rw [if_pos hready, henergy, hresidual, hcorrelation, hdc]
    split_ifs
    · refine ⟨(s.recompute numbers b sf lag).1, (s.recompute numbers b sf lag).2, rfl, ?_, fun _ => ?_⟩
      · rw [hrescan]
        exact ⟨fun _ => havailable, fun _ => rfl⟩
      · rw [hrescan]
        exact ⟨rfl, rfl, rfl, rfl⟩
    · exact ⟨_, _, rfl, ⟨fun _ => havailable, fun _ => rfl⟩, fun _ => ⟨rfl, rfl, rfl, rfl⟩⟩
  · rw [if_neg hready]
    refine ⟨_, _, rfl, ⟨fun hfalse => absurd hfalse Bool.false_ne_true, fun havailable => ?_⟩,
      fun hfalse => absurd hfalse Bool.false_ne_true⟩
    exact absurd (h.ready_iff.mpr havailable) hready

omit [IsStrictOrderedRing K] in
theorem passes_eq {bandwidth : ℕ} (hlookup : lookup bandwidth sf 0 = .ok b) :
    s.passes numbers bandwidth sf = .ok (s.passesFor numbers b sf (List.range lagCount)) := by
  simp only [DiscoveryChirpScreen.passes, hlookup, bind, Except.bind, pure, Except.pure]

omit [StarRing C] [LinearOrder K] [IsStrictOrderedRing K] in
/-- A screen without samples has nothing available. -/
theorem initial_not_ready : ¬ (DiscoveryChirpScreen.initial : DiscoveryChirpScreen C K).ready n m :=
  fun hready => absurd hready.1 Bool.false_ne_true

omit [IsStrictOrderedRing K] in
theorem initial_passesFor (lags : List ℕ) :
    ((DiscoveryChirpScreen.initial : DiscoveryChirpScreen C K).passesFor numbers b sf lags).1 = false := by
  induction lags with
  | nil => rfl
  | cons lag lags ih =>
    rw [DiscoveryChirpScreen.passesFor]
    simp only
    rw [if_neg initial_not_ready, ih]

/-- **The screen.** After any calls, for any supported bandwidth, spreading factor and lag: a statistic
that is available has the direct sums over the newest window of the current stretch, which are those of a
rescan, and a bandwidth and spreading factor pass exactly when the direct sums of an available lag do. -/
theorem screen_direct (numbers : ScreenNumbers C K) (calls : List (ScreenCall C))
    (bandwidth sf lag b : ℕ) (hsupported : lookup bandwidth sf lag = .ok b) :
    let s := run (DiscoveryChirpScreen.step numbers) .initial calls
    let current := run (Stretch.step numbers) none calls
    let available := fun (stretch : Stretch C) lag =>
      stretch.Available (symbolSamples b sf) (lagDelay (symbolSamples b sf) lag)
    (∃ result s', s.statistic numbers bandwidth sf lag = .ok (result, s') ∧
      (result.available = true ↔ ∃ stretch ∈ current, available stretch lag) ∧
      ∀ stretch ∈ current, result.available = true →
        result.correlation = (stretch.direct numbers b sf lag).correlation ∧
        result.dc = (stretch.direct numbers b sf lag).dc ∧
        result.energy = (stretch.direct numbers b sf lag).energy ∧
        result.residual = (stretch.direct numbers b sf lag).residual ∧
        (s.recompute numbers b sf lag).1 = stretch.direct numbers b sf lag) ∧
    ∃ decision s', s.passes numbers bandwidth sf = .ok (decision, s') ∧
      (decision = true ↔ ∃ stretch ∈ current, ∃ lag < 4, available stretch lag ∧
        (stretch.direct numbers b sf lag).passes numbers) := by
  intro s current available
  have hinv : ScreenInv numbers s current := screen_run calls
  obtain ⟨huse, hp⟩ := lookup_ok hsupported
  have hlookup : lookup bandwidth sf 0 = .ok b := lookup_any hsupported
  have hlags : ∀ lag ∈ List.range lagCount, InUse b (sf - 7) lag :=
    fun lag hlag => ⟨huse.band, huse.factor, List.mem_range.mp hlag⟩
  -- Only the invariant is used from here on: an object that saw nothing, or one that stands at a
  -- stretch.
  clear_value s current
  cases current with
  | none =>
    obtain rfl : s = .initial := hinv
    simp only [DiscoveryChirpScreen.statistic, hsupported, bind, Except.bind, pure, Except.pure,
      if_neg initial_not_ready]
    refine ⟨⟨_, _, rfl, ⟨fun hfalse => absurd hfalse Bool.false_ne_true, ?_⟩, ?_⟩,
      (DiscoveryChirpScreen.initial.passesFor numbers b sf (List.range lagCount)).1,
      (DiscoveryChirpScreen.initial.passesFor numbers b sf (List.range lagCount)).2,
      passes_eq hlookup, ?_⟩
    · rintro ⟨stretch, hstretch, -⟩
      cases hstretch
    · intro stretch hstretch
      cases hstretch
    · rw [initial_passesFor]
      refine ⟨fun hfalse => absurd hfalse Bool.false_ne_true, ?_⟩
      rintro ⟨stretch, hstretch, -⟩
      cases hstretch
  | some stretch =>
    have hat : ScreenAt numbers s stretch := hinv
    obtain ⟨result, s', hresult, havailable, hsums⟩ := hat.statistic hsupported
    refine ⟨⟨result, s', hresult, ?_, ?_⟩, (s.passesFor numbers b sf (List.range lagCount)).1,
      (s.passesFor numbers b sf (List.range lagCount)).2, passes_eq hlookup, ?_⟩
    · rw [havailable]
      exact ⟨fun h => ⟨stretch, rfl, h⟩, fun ⟨_, hstretch, h⟩ => Option.some.inj hstretch ▸ h⟩
    · intro stretch' hstretch hshown
      obtain rfl := Option.some.inj hstretch
      obtain ⟨hcorrelation, hdc, henergy, hresidual⟩ := hsums hshown
      exact ⟨hcorrelation, hdc, henergy, hresidual, hat.recompute huse hp (havailable.mp hshown)⟩
    · rw [passesFor_iff hat hlags hp]
      constructor
      · rintro ⟨lag, hlag, hpasses⟩
        exact ⟨stretch, rfl, lag, List.mem_range.mp hlag, hpasses⟩
      · rintro ⟨_, hstretch, lag, hlag, hpasses⟩
        obtain rfl := Option.some.inj hstretch
        exact ⟨lag, List.mem_range.mpr hlag, hpasses⟩

/-- The squared magnitude of a complex number, and the roots in the direction of the references. -/
noncomputable def complexNumbers : ScreenNumbers ℂ ℝ where
  norm := Complex.normSq
  norm_nonneg := Complex.normSq_nonneg
  finite := fun _ => true
  root := fun size => (Complex.exp (2 * Real.pi * Complex.I / size))⁻¹
  primitive := fun size h => (Complex.isPrimitiveRoot_exp size h.ne').inv
  conj := fun size => by
    rw [star_inv₀, ← Complex.exp_neg, Complex.star_def, ← Complex.exp_conj, map_div₀, map_mul, map_mul,
      Complex.conj_ofReal, Complex.conj_I, Complex.conj_ofNat, Complex.conj_natCast]
    congr 2
    ring

theorem complexNumbers_root_pow (size m : ℕ) (hm : 0 < m) (hsize : 0 < size) :
    complexNumbers.root (size * m) ^ m = complexNumbers.root size := by
  have hm' : (m : ℂ) ≠ 0 := Nat.cast_ne_zero.mpr hm.ne'
  have hsize' : (size : ℂ) ≠ 0 := Nat.cast_ne_zero.mpr hsize.ne'
  simp only [complexNumbers]
  rw [inv_pow, ← Complex.exp_nat_mul]
  congr 2
  push_cast
  field_simp

/-- The calls that push a sequence from an index on. -/
def pushes (values : ℕ → C) (first count : ℕ) : List (ScreenCall C) :=
  (List.range count).map fun i => .push (values i) (Fin.ofNat (2 ^ 64) (first + i))

omit [IsStrictOrderedRing K] in
/-- The stretch of such calls. -/
theorem run_pushes {numbers : ScreenNumbers C K} (hfinite : ∀ x, numbers.finite x = true)
    (values : ℕ → C) {first count : ℕ} (hbound : first + (count + 1) < 2 ^ 64) :
    run (Stretch.step numbers) none (pushes values first (count + 1)) =
      some ⟨first, (List.range (count + 1)).map values⟩ := by
  have hindex {i : ℕ} (hi : i ≤ count) : (Fin.ofNat (2 ^ 64) (first + i)).val = first + i :=
    Nat.mod_eq_of_lt (by omega)
  induction count with
  | zero =>
    have hzero := hindex (le_refl 0)
    show Stretch.step numbers none (.push (values 0) (Fin.ofNat (2 ^ 64) (first + 0))) = _
    rw [Stretch.step, if_neg, hzero]
    · rfl
    · rw [hfinite, hzero]
      rintro (h | h)
      · cases h
      · omega
  | succ count ih =>
    have hlast := hindex (le_refl (count + 1))
    have hbefore := ih (by omega) fun hi => hindex (by omega)
    rw [pushes, List.range_succ, List.map_append, run_append, ← pushes, hbefore]
    show Stretch.step numbers (some ⟨first, _⟩) (.push (values (count + 1)) _) = _
    rw [Stretch.step, if_neg]
    · rw [List.map_append]
      rfl
    · rw [hfinite, hlast, List.length_map, List.length_range]
      rintro (h | h | h)
      · cases h
      · omega
      · exact h rfl

/-- A chirp of 500 kHz and 128 chips, at every fourth sample. -/
noncomputable def chirp (i : ℕ) : ℂ := star (complexNumbers.root 256) ^ (i / 4) ^ 2

/-- The product of a chirp with itself sixteen stored samples before is a tone. -/
theorem chirp_product (k : ℕ) :
    chirp (128 + 4 * k) * star (chirp (64 + 4 * k)) = star (complexNumbers.root 8) ^ k := by
  have hroot := complexNumbers.primitive 256 (by norm_num)
  have hne : complexNumbers.root 256 ≠ 0 := hroot.ne_zero (by norm_num)
  have hunit : star (complexNumbers.root 256) * complexNumbers.root 256 = 1 := by
    rw [complexNumbers.conj, inv_mul_cancel₀ hne]
  have hperiod : star (complexNumbers.root 256) ^ 256 = 1 := by
    rw [complexNumbers.conj, inv_pow, hroot.pow_eq_one, inv_one]
  have hslow : star (complexNumbers.root 256) ^ 32 = star (complexNumbers.root 8) := by
    rw [← star_pow]
    exact congrArg star (complexNumbers_root_pow 8 32 (by norm_num) (by norm_num))
  have hfirst : (128 + 4 * k) / 4 = 32 + k := by omega
  have hsecond : (64 + 4 * k) / 4 = 16 + k := by omega
  have hsquare : (32 + k) ^ 2 = (16 + k) ^ 2 + (256 * 3 + 32 * k) := by ring
  rw [chirp, chirp, hfirst, hsecond, star_pow, star_star, hsquare, pow_add, mul_right_comm, ← mul_pow,
    hunit, one_pow, one_mul, pow_add, pow_mul, hperiod, one_pow, one_mul, pow_mul, hslow]

/-- The stretch of 640 samples of the chirp, at the indices from 1024 on. -/
noncomputable def chirpStretch : Stretch ℂ := ⟨1024, (List.range 640).map chirp⟩

theorem newest_chirpStretch {k : ℕ} (hk : k < 128) :
    chirpStretch.newest 512 64 k = star (complexNumbers.root 8) ^ k := by
  have hvalue {i : ℕ} (hi : i < 640) : ((List.range 640).map chirp).getD i 0 = chirp i := by
    rw [List.getD_eq_getElem?_getD, List.getElem?_map, List.getElem?_range hi]
    rfl
  rw [chirpStretch, Stretch.newest, Stretch.sampleAt, Stretch.sampleAt, Stretch.endIndex, List.length_map,
    List.length_range, show 1024 + 640 - 512 + 4 * k - 1024 = 128 + 4 * k by omega,
    show 1024 + 640 - 512 - 64 + 4 * k - 1024 = 64 + 4 * k by omega, hvalue (by omega),
    hvalue (by omega), chirp_product]

theorem chirpStretch_available :
    chirpStretch.Available (symbolSamples 5 7) (lagDelay (symbolSamples 5 7) 0) := by
  unfold chirpStretch
  constructor
  · rw [List.length_map, List.length_range]
    decide
  · rw [Stretch.endIndex, List.length_map, List.length_range]
    decide

/-- The products turn by an eighth: their sum vanishes, and at the reference each of them is one. -/
theorem direct_chirpStretch : (chirpStretch.direct complexNumbers 5 7 0).correlation = 128 ∧
    (chirpStretch.direct complexNumbers 5 7 0).dc = 0 ∧
    (chirpStretch.direct complexNumbers 5 7 0).energy = 128 := by
  have hsize : symbolSamples 5 7 = 512 ∧ lagDelay 512 0 = 64 ∧ referenceSize 5 0 = 32 := by decide
  have hproduct : ∀ k ∈ Finset.range 128,
      chirpStretch.newest 512 64 k = star (complexNumbers.root 8) ^ k :=
    fun k hk => newest_chirpStretch (Finset.mem_range.mp hk)
  have hroot := complexNumbers.primitive 8 (by norm_num)
  have hne : complexNumbers.root 8 ≠ 0 := hroot.ne_zero (by norm_num)
  refine ⟨?_, ?_, ?_⟩
  · have hone : ∀ k ∈ Finset.range 128,
        chirpStretch.newest 512 64 k * complexNumbers.root 32 ^ (4 * k) = 1 := by
      intro k hk
      rw [hproduct k hk, pow_mul, complexNumbers_root_pow 8 4 (by norm_num) (by norm_num),
        ← mul_pow, complexNumbers.conj, inv_mul_cancel₀ hne, one_pow]
    simp only [Stretch.direct, hsize]
    rw [Finset.sum_congr rfl hone, Finset.sum_const, Finset.card_range]
    norm_num
  · have hpower : star (complexNumbers.root 8) ^ 128 = 1 := by
      rw [complexNumbers.conj, inv_pow, show 128 = 8 * 16 by norm_num, pow_mul, hroot.pow_eq_one, one_pow,
        inv_one]
    have hother : star (complexNumbers.root 8) - 1 ≠ 0 := by
      rw [complexNumbers.conj, sub_ne_zero, ne_eq, inv_eq_one]
      exact hroot.ne_one (by norm_num)
    have hsum := geom_sum_mul (star (complexNumbers.root 8)) 128
    rw [hpower, sub_self] at hsum
    simp only [Stretch.direct, hsize]
    rw [Finset.sum_congr rfl hproduct]
    exact (mul_eq_zero.mp hsum).resolve_right hother
  · have hone : ∀ k ∈ Finset.range 128, complexNumbers.norm (chirpStretch.newest 512 64 k) = 1 := by
      intro k hk
      rw [hproduct k hk, complexNumbers.conj, inv_pow, map_inv₀, norm_root_pow (by norm_num), inv_one]
    simp only [Stretch.direct, hsize]
    rw [Finset.sum_congr rfl hone, Finset.sum_const, Finset.card_range]
    norm_num

theorem passes_chirpStretch : (chirpStretch.direct complexNumbers 5 7 0).passes complexNumbers := by
  obtain ⟨hcorrelation, hdc, henergy⟩ := direct_chirpStretch
  have hresidual : (chirpStretch.direct complexNumbers 5 7 0).residual = 128 := by
    have : (chirpStretch.direct complexNumbers 5 7 0).residual =
        max 0 ((chirpStretch.direct complexNumbers 5 7 0).energy -
          complexNumbers.norm (chirpStretch.direct complexNumbers 5 7 0).dc / (512 / 4 : ℕ)) := rfl
    rw [this, henergy, hdc, map_zero]
    norm_num
  refine ⟨rfl, ?_, ?_⟩
  · rw [henergy, hresidual]
    norm_num
  · rw [hresidual, hcorrelation]
    norm_num [complexNumbers]

/-- A chirp passes at its bandwidth and spreading factor: the sum of its products has no constant part,
and all of their energy at the reference. -/
theorem screen_direct_complex :
    let s := run (DiscoveryChirpScreen.step complexNumbers) .initial (pushes chirp 1024 640)
    (∃ result s', s.statistic complexNumbers 500000 7 0 = .ok (result, s') ∧ result.available = true ∧
      result.correlation = 128 ∧ result.dc = 0 ∧ result.energy = 128) ∧
    ∃ s', s.passes complexNumbers 500000 7 = .ok (true, s') := by
  intro s
  have hcurrent : run (Stretch.step complexNumbers) none (pushes chirp 1024 640) = some chirpStretch :=
    run_pushes (fun _ => rfl) chirp (by norm_num)
  obtain ⟨⟨result, s', hresult, havailable, hsums⟩, decision, s'', hpasses, hdecision⟩ :=
    screen_direct complexNumbers (pushes chirp 1024 640) 500000 7 0 5 rfl
  rw [hcurrent] at havailable hsums hdecision
  have hshown : result.available = true := havailable.mpr ⟨_, rfl, chirpStretch_available⟩
  obtain ⟨hresultCorrelation, hresultDc, hresultEnergy, -⟩ := hsums _ rfl hshown
  obtain ⟨hcorrelation, hdc, henergy⟩ := direct_chirpStretch
  have hpassed : decision = true :=
    hdecision.mpr ⟨_, rfl, 0, by norm_num, chirpStretch_available, passes_chirpStretch⟩
  exact ⟨⟨result, s', hresult, hshown, hresultCorrelation.trans hcorrelation, hresultDc.trans hdc,
    hresultEnergy.trans henergy⟩, s'', by rw [hpasses, hpassed]⟩

end Decisions

end Screen

end Discovery

end OVMesh
