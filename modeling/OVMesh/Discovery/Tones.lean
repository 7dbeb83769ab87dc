import OVMesh.Discovery.WrapFits
import OVMesh.Lib.Circular
import OVMesh.Lib.Largest

/-!
# Tones

`tones` of `LoRaPreambleDiscovery`: the peaks of a dechirped window, of which the strongest are kept in an
array of eight. The transform, the magnitude of a value and the logarithm are parameters.

* `localBackground`: the reference level of a bin. `localBackground_eq`: it is the mean around the bin.
* `consider`: one turn of the loop over the bins. `consider_spec`.
* `tones`: the search. `tones_largest`: the powers it returns, and when its limit is counted.
-/

namespace OVMesh

namespace Discovery

open Circular Largest WrapFits

/-- `Hypothesis`: a bandwidth and a spreading factor, with the chirps that samples are multiplied with. -/
structure Hypothesis (C : Type) where
  bw : ℕ
  sf : ℕ
  n : ℕ
  up : List C

/-- `Tone`: a peak of the spectrum, with its background. -/
structure Tone (K : Type) where
  hz : K
  toneMatch : K
  power : K
  background : K

/-- `LoRaDiscoveryStats`: what the search counts. -/
structure LoRaDiscoveryStats where
  fftSearches : ℕ := 0
  candidateLimitHits : ℕ := 0

/-- What the search takes of numbers: the conjugate and `std::norm` of a complex value, the transform of
the plan for a length, and the logarithm. -/
structure Spectrometry (C K : Type) where
  conj : C → C
  norm : C → K
  execute : List C → List C
  log : K → K

/-- `rate`: the sample rate of the search. -/
def sampleRate : ℕ := 2000000

section Tones

variable {C K : Type} [Field K] [LinearOrder K]

/-- `spectral_sum`: the power of some bins, around the circle. -/
def spectralSum (spectralPrefix : List K) (n first count : ℕ) : K :=
  windowSum spectralPrefix n (first &&& (n - 1)) count

/-- The bins on each side of a peak from which its background is taken. -/
def radius : ℕ := 32
/-- The bins next to a peak that are left out of its background. -/
def guardBins : ℕ := 2

/-- `local_background`: the mean power next to a bin, but at least a part of the mean of all bins. -/
def localBackground (spectralPrefix : List K) (n index : ℕ) : K :=
  let reference := spectralSum spectralPrefix n ((index + n - radius) &&& (n - 1)) (radius - guardBins) +
    spectralSum spectralPrefix n ((index + guardBins + 1) &&& (n - 1)) (radius - guardBins)
  let mean := reference / (2 * (radius - guardBins : ℕ))
  max mean (spectralPrefix.getLastD 0 / n * (1 / 10 ^ 12))

/-- `(peak - 1) & mask`, where the difference wraps. -/
def leftOf (n peak : ℕ) : ℕ := (peak + (n - 1)) &&& (n - 1)

/-- `(peak + 1) & mask`: the bin on the right, around the circle. -/
def rightOf (n peak : ℕ) : ℕ := (peak + 1) &&& (n - 1)

/-- The candidate of a peak, with its frequency from the parabola through the logarithms. -/
def toneAt (log : K → K) (size : ℕ) (energy : K) (powers : List K) (peak : ℕ) (background : K) : Tone K :=
  let n := powers.length
  let power := fun i => log (max (1 / 10 ^ 30) (powers.getD i 0))
  let l := power (leftOf n peak)
  let m := power peak
  let r := power (rightOf n peak)
  let denominator := l - 2 * m + r
  let delta :=
    if 1 / 10 ^ 12 < |denominator| then max (-(1 / 2)) (min (1 / 2 * (l - r) / denominator) (1 / 2)) else 0
  let k := peak + delta
  let k := if (size : K) ≤ k then k - n else k
  let p := powers.getD peak 0
  ⟨k * sampleRate / n, p / (size * energy), p, background⟩

/-- One turn of the loop over the bins: the tones so far, and the number of peaks that qualified. -/
def consider (log : K → K) (size : ℕ) (energy : K) (powers : List K) (found : Table (Tone K) × ℕ)
    (peak : ℕ) : Table (Tone K) × ℕ :=
  let n := powers.length
  let p := powers.getD peak 0
  if p ≤ powers.getD (leftOf n peak) 0 ∨ p < powers.getD (rightOf n peak) 0 then found
  else
    let background := localBackground (prefixSums powers) n peak
    if p < 20 * background ∨ p < 1 / 10 ^ 20 then found
    else
      let (result, qualified) := found
      if result.count = maxComponents ∧ ∃ last ∈ result.live.getLast?, p ≤ last.power then
        (result, qualified + 1)
      else
        let candidate := toneAt log size energy powers peak background
        let place := result.live.findIdx fun value => !decide (p < value.power)
        (result.insertAt place candidate, qualified + 1)

/-- The newest samples times the chirp, and as many zeros. -/
def dechirped [Zero C] [Mul C] (numbers : Spectrometry C K) (h : Hypothesis C) (down : Bool)
    (newest : List C) : List C :=
  newest.zipWith (fun x up => x * if down then up else numbers.conj up) h.up ++ List.replicate h.n 0

/-- `tones`, for the newest `h.n` samples. -/
def tones [Zero C] [Mul C] (numbers : Spectrometry C K) (h : Hypothesis C) (down : Bool)
    (newest : List C) (counters : LoRaDiscoveryStats) : Table (Tone K) × LoRaDiscoveryStats :=
  let none : Table (Tone K) := ⟨List.replicate maxComponents ⟨0, 0, 0, 0⟩, 0⟩
  let counters := { counters with fftSearches := counters.fftSearches + 1 }
  let energy := (newest.map numbers.norm).sum
  if energy < 1 / 10 ^ 20 then (none, counters)
  else
    let powers := (numbers.execute (dechirped numbers h down newest)).map numbers.norm
    let (result, qualified) :=
      (List.range powers.length).foldl (consider numbers.log h.n energy powers) (none, 0)
    (result, if maxComponents < qualified then
      { counters with candidateLimitHits := counters.candidateLimitHits + 1 } else counters)

/-! ## The background -/

/-- The reference level of a bin: the mean of the bins around it, and no less than a part of the overall
mean. -/
def background (powers : List K) (index : ℕ) : K :=
  max ((∑ j ∈ around powers.length index 3 32, powers.getD j 0) / (around powers.length index 3 32).card)
    (powers.sum / powers.length * (1 / 10 ^ 12))

/-- The bin is a peak, well above its background. -/
def Qualifies (powers : List K) (peak : ℕ) : Prop :=
  powers.getD ((peak + powers.length - 1) % powers.length) 0 < powers.getD peak 0 ∧
  powers.getD ((peak + 1) % powers.length) 0 ≤ powers.getD peak 0 ∧
  20 * background powers peak ≤ powers.getD peak 0 ∧ 1 / 10 ^ 20 ≤ powers.getD peak 0

instance (powers : List K) (peak : ℕ) : Decidable (Qualifies powers peak) :=
  inferInstanceAs (Decidable (_ ∧ _))

variable {powers ps : List K} {m index peak : ℕ} {p : K} {t : Table (Tone K)}

/-- **The background.** The two windows of the prefix sums are the bins around, wrapping or not. -/
theorem localBackground_eq (hlength : powers.length = 2 ^ m) (hlong : 64 < powers.length)
    (hindex : index < powers.length) :
    localBackground (prefixSums powers) powers.length index = background powers index := by
  have hmask : ∀ x, x &&& (powers.length - 1) = x % powers.length := by
    intro x
    rw [hlength, Nat.and_two_pow_sub_one_eq_mod]
  have hwindow : ∀ a, spectralSum (prefixSums powers) powers.length (a &&& (powers.length - 1))
      (radius - guardBins) =
        ∑ k ∈ Finset.range (32 - 3 + 1), powers.getD ((a + k) % powers.length) 0 := by
    intro a
    rw [spectralSum, hmask, hmask, Nat.mod_mod,
      windowSum_eq (Nat.mod_lt _ (by omega)) (by unfold radius guardBins; omega)]
    exact Finset.sum_congr rfl fun k _ => by rw [Nat.mod_add_mod]
  have hcard : (2 * ((radius - guardBins : ℕ) : K)) = (around powers.length index 3 32).card := by
    rw [card_around hindex (by decide) (by decide) (by omega)]
    push_cast [radius, guardBins]
    norm_num
  rw [localBackground, hwindow, hwindow, getLastD_prefixSums, hcard, background,
    sum_around _ hindex (by decide) (by decide) (by omega)]
  rfl

/-! ## The strongest peaks -/

/-- The table has the strongest of some powers, and their number was counted. -/
structure Holds (found : Table (Tone K) × ℕ) (ps : List K) : Prop where
  length : found.1.values.length = maxComponents
  count : found.1.count = min maxComponents ps.length
  live : found.1.live.map Tone.power = largest maxComponents ps
  qualified : found.2 = ps.length

omit [Field K] in
theorem Holds.length_live {found : Table (Tone K) × ℕ} (h : Holds found ps) :
    found.1.live.length = found.1.count := by
  rw [Table.live, List.length_take, h.length, h.count]
  omega

omit [Field K] in
/-- A power that is not above the last of a full table changes nothing. -/
theorem Holds.reject {qualified : ℕ} (h : Holds (t, qualified) ps) (hfull : t.count = maxComponents)
    {last : Tone K} (hlast : t.live.getLast? = some last) (hle : p ≤ last.power) :
    Holds (t, qualified + 1) (ps ++ [p]) := by
  have hmany : maxComponents ≤ ps.length := by
    have := h.count
    rw [hfull] at this
    omega
  have hkeys : (largest maxComponents ps).length = maxComponents := by
    rw [length_largest, min_eq_left hmany]
  have hall : ∀ b ∈ largest maxComponents ps, p ≤ b := by
    intro b hb
    have hmem : (largest maxComponents ps).getLast? = some last.power := by
      rw [← h.live, List.getLast?_map, hlast, Option.map_some]
    obtain ⟨before, hbefore⟩ := List.getLast?_eq_some_iff.mp hmem
    have hsorted := sorted_largest (l := ps) (k := maxComponents)
    rw [hbefore] at hsorted hb
    rcases List.mem_append.mp hb with hb | hb
    · exact hle.trans ((List.pairwise_append.mp hsorted).2.2 b hb _ List.mem_cons_self)
    · rwa [List.mem_singleton.mp hb]
  refine ⟨h.length, ?_, ?_, ?_⟩
  · show t.count = _
    rw [List.length_append, List.length_singleton, hfull, min_eq_left (by omega)]
  · have hsame := take_orderedInsert_of_le (sorted_largest (l := ps) (k := maxComponents)) hall
    rw [hkeys] at hsame
    rw [largest_concat, hsame]
    exact h.live
  · rw [List.length_append, List.length_singleton]
    exact congrArg (· + 1) h.qualified

omit [Field K] in
/-- A power that is above the last one, or for which there is a place, is put in its place. -/
theorem Holds.insert {qualified : ℕ} (h : Holds (t, qualified) ps) (candidate : Tone K)
    (hroom : ¬ (t.count = maxComponents ∧ ∃ last ∈ t.live.getLast?, candidate.power ≤ last.power)) :
    Holds (t.insertAt (t.live.findIdx fun value => !decide (candidate.power < value.power)) candidate,
      qualified + 1) (ps ++ [candidate.power]) := by
  have hlength : t.live.length = t.count := h.length_live
  have hcount : t.count = min maxComponents ps.length := h.count
  have htable : t.values.length = maxComponents := h.length
  have hle : (t.live.findIdx fun value => !decide (candidate.power < value.power)) ≤ t.live.length :=
    List.findIdx_le_length
  have hplace : (t.live.findIdx fun value => !decide (candidate.power < value.power)) <
      t.values.length := by
    by_cases hfull : t.count = maxComponents
    · cases hlast : t.live.getLast? with
      | none =>
        rw [List.getLast?_eq_none_iff.mp hlast, hfull] at hlength
        cases hlength
      | some last =>
        have habove : last.power < candidate.power := by
          refine lt_of_not_ge fun hge => hroom ⟨hfull, last, hlast, hge⟩
        have hlt := List.findIdx_lt_length_of_exists
          (p := fun value : Tone K => !decide (candidate.power < value.power))
          ⟨last, List.mem_of_getLast? hlast, by simpa using habove.le⟩
        rwa [hlength, hfull, ← htable] at hlt
    · omega
  have hkeys : ((t.live.take (t.live.findIdx fun value => !decide (candidate.power < value.power)) ++
      candidate :: t.live.drop (t.live.findIdx fun value => !decide (candidate.power < value.power))).map
        Tone.power) = (largest maxComponents ps).orderedInsert (· ≥ ·) candidate.power := by
    rw [← List.takeWhile_eq_take_findIdx_not, ← List.dropWhile_eq_drop_findIdx_not,
      List.orderedInsert_eq_take_drop, ← h.live, List.takeWhile_map, List.dropWhile_map, List.map_append,
      List.map_cons]
    simp only [ge_iff_le, not_le]
    rfl
  refine ⟨?_, ?_, ?_, ?_⟩
  · exact Table.length_insertAt.trans htable
  · show (Table.insertAt _ _ _).count = _
    rw [Table.count_insertAt (by omega), List.length_append, List.length_singleton]
    omega
  · show (Table.insertAt _ _ _).live.map _ = _
    rw [Table.live_insertAt (by omega) (by omega) hplace, List.map_take, hkeys, htable, largest_concat]
  · rw [List.length_append, List.length_singleton]
    exact congrArg (· + 1) h.qualified

/-- **A turn.** A bin that qualifies has its power among the strongest, and is counted. -/
theorem consider_spec (log : K → K) (size : ℕ) (energy : K) {found : Table (Tone K) × ℕ}
    (hlength : powers.length = 2 ^ m) (hlong : 64 < powers.length) (hpeak : peak < powers.length)
    (h : Holds found ps) : Holds (consider log size energy powers found peak)
      (if Qualifies powers peak then ps ++ [powers.getD peak 0] else ps) := by
  have hmask : ∀ x, x &&& (powers.length - 1) = x % powers.length := by
    intro x
    rw [hlength, Nat.and_two_pow_sub_one_eq_mod]
  have hleft : peak + (powers.length - 1) = peak + powers.length - 1 := by omega
  obtain ⟨t, qualified⟩ := found
  simp only [consider, leftOf, rightOf, hmask, hleft, localBackground_eq hlength hlong hpeak]
  by_cases hpeak' : powers.getD peak 0 ≤ powers.getD ((peak + powers.length - 1) % powers.length) 0 ∨
      powers.getD peak 0 < powers.getD ((peak + 1) % powers.length) 0
  · rw [if_pos hpeak', if_neg]
    · exact h
    · rintro ⟨hl, hr, -⟩
      rcases hpeak' with hle | hlt
      · exact absurd hl (not_lt.mpr hle)
      · exact absurd hr (not_le.mpr hlt)
  obtain ⟨hl, hr⟩ := not_or.mp hpeak'
  rw [if_neg hpeak']
  by_cases hlevel : powers.getD peak 0 < 20 * background powers peak ∨ powers.getD peak 0 < 1 / 10 ^ 20
  · rw [if_pos hlevel, if_neg]
    · exact h
    · rintro ⟨-, -, hb, hp⟩
      rcases hlevel with hlt | hlt
      · exact absurd hb (not_le.mpr hlt)
      · exact absurd hp (not_le.mpr hlt)
  obtain ⟨hb, hp⟩ := not_or.mp hlevel
  have hqualifies : Qualifies powers peak := ⟨not_le.mp hl, not_lt.mp hr, not_lt.mp hb, not_lt.mp hp⟩
  rw [if_neg hlevel, if_pos hqualifies]
  by_cases hreject : t.count = maxComponents ∧
      ∃ last ∈ t.live.getLast?, powers.getD peak 0 ≤ last.power
  · obtain ⟨hfull, last, hlast, hle⟩ := hreject
    rw [if_pos ⟨hfull, last, hlast, hle⟩]
    exact h.reject hfull hlast hle
  · rw [if_neg hreject]
    exact h.insert (toneAt log size energy powers peak (background powers peak)) hreject

/-- The loop over the bins. -/
theorem foldl_consider (log : K → K) (size : ℕ) (energy : K) {found : Table (Tone K) × ℕ} {bins : List ℕ}
    (hlength : powers.length = 2 ^ m) (hlong : 64 < powers.length) (hbins : ∀ i ∈ bins, i < powers.length)
    (h : Holds found ps) : Holds (bins.foldl (consider log size energy powers) found)
      (ps ++ (bins.filter fun i => Qualifies powers i).map fun i => powers.getD i 0) := by
  induction bins generalizing found ps with
  | nil => simpa using h
  | cons i bins ih =>
    obtain ⟨hi, hrest⟩ := List.forall_mem_cons.mp hbins
    have hturn := ih hrest (consider_spec log size energy hlength hlong hi h)
    rw [List.foldl_cons]
    by_cases hqualifies : Qualifies powers i
    · rw [if_pos hqualifies, List.append_assoc] at hturn
      rwa [List.filter_cons_of_pos (by simpa using hqualifies)]
    · rw [if_neg hqualifies] at hturn
      rwa [List.filter_cons_of_neg (by simpa using hqualifies)]

/-- **The tones.** Their powers are the largest of those of the bins that qualify, in descending order,
and the limit is counted when there are more. The background of each bin is the mean of the sixty bins
around it, but for the floor. -/
theorem tones_largest [Zero C] [Mul C] (numbers : Spectrometry C K) (h : Hypothesis C) (down : Bool)
    (newest : List C) (counters : LoRaDiscoveryStats) (powers : List K) (m : ℕ)
    (hpowers : (numbers.execute (dechirped numbers h down newest)).map numbers.norm = powers)
    (hlength : powers.length = 2 ^ m) (hlong : 1024 ≤ powers.length)
    (henergy : 1 / 10 ^ 20 ≤ (newest.map numbers.norm).sum) :
    let qualifying := ((List.range powers.length).filter fun i => Qualifies powers i).map
      fun i => powers.getD i 0
    let found := tones numbers h down newest counters
    found.1.live.map Tone.power = (qualifying.insertionSort (· ≥ ·)).take (min 8 qualifying.length) ∧
      found.2.candidateLimitHits =
        counters.candidateLimitHits + (if 8 < qualifying.length then 1 else 0) ∧
      ∀ i < powers.length, (around powers.length i 3 32).card = 60 ∧
        localBackground (prefixSums powers) powers.length i = background powers i := by
  intro qualifying found
  have hempty : Holds ((⟨List.replicate maxComponents ⟨0, 0, 0, 0⟩, 0⟩, 0) : Table (Tone K) × ℕ) [] :=
    ⟨List.length_replicate, rfl, by simp [Table.live], rfl⟩
  have hholds := foldl_consider numbers.log h.n (newest.map numbers.norm).sum hlength (by omega)
    (fun i hi => List.mem_range.mp hi) hempty
  rw [List.nil_append] at hholds
  obtain ⟨hresult, hlimit⟩ : found.1 = ((List.range powers.length).foldl (consider numbers.log h.n
        (newest.map numbers.norm).sum powers) (⟨List.replicate maxComponents ⟨0, 0, 0, 0⟩, 0⟩, 0)).1 ∧
      found.2.candidateLimitHits = counters.candidateLimitHits + if maxComponents <
        ((List.range powers.length).foldl (consider numbers.log h.n (newest.map numbers.norm).sum powers)
          (⟨List.replicate maxComponents ⟨0, 0, 0, 0⟩, 0⟩, 0)).2 then 1 else 0 := by
    simp only [found, tones]
    rw [if_neg (not_lt.mpr henergy), hpowers]
    refine ⟨rfl, ?_⟩
    simp only
    split_ifs <;> rfl
  refine ⟨?_, ?_, fun i hi => ⟨?_, localBackground_eq hlength (by omega) hi⟩⟩
  · rw [hresult, hholds.live, largest, List.take_eq_take_min, List.length_insertionSort]
    rfl
  · rw [hlimit, hholds.qualified]
    rfl
  · rw [card_around hi (by decide) (by decide) (by omega)]

/-- The heights of eleven peaks. -/
def heights : List ℚ := [3, 1, 4, 10, 5, 9, 2, 6, 11, 8, 7]

/-- A transform with these peaks, ninety bins apart. -/
def heightAt (i : ℕ) : ℚ := if i % 90 = 0 then heights.getD (i / 90) 0 else 0

/-- A plan that gives the peaks. -/
def peakNumbers : Spectrometry ℚ ℚ := ⟨id, fun x => x ^ 2, fun _ => (List.range 1024).map heightAt, id⟩

/-- The eight highest of the eleven peaks are found, by their powers, and the limit is counted. -/
theorem tones_largest_peaks :
    let found := tones peakNumbers ⟨500000, 7, 512, List.replicate 512 1⟩ false (List.replicate 512 1) {}
    found.1.live.map Tone.power = [121, 100, 81, 64, 49, 36, 25, 16] ∧ found.2.candidateLimitHits = 1 := by
  dsimp only
  generalize hdef : (List.range 1024).map (fun i => heightAt i ^ 2) = powers
  replace hdef := hdef.symm
  have hlength : powers.length = 1024 := by rw [hdef, List.length_map, List.length_range]
  have hget : ∀ i, powers.getD i 0 = if i < 1024 then heightAt i ^ 2 else 0 := by
    intro i
    rw [hdef, List.getD_eq_getElem?_getD, List.getElem?_map]
    by_cases hi : i < 1024
    · rw [List.getElem?_range hi, if_pos hi]
      rfl
    · rw [List.getElem?_eq_none (by simpa using hi), if_neg hi]
      rfl
  have hsum : powers.sum = 506 := by
    rw [hdef]
    decide +kernel
  have hqualifying : ((List.range powers.length).filter fun i => Qualifies powers i).map
      (fun i => powers.getD i 0) = heights.map (· ^ 2) := by
    simp only [Qualifies, background, hlength, hsum, hget]
    decide +kernel
  have hpowers : (peakNumbers.execute (dechirped peakNumbers ⟨500000, 7, 512, List.replicate 512 1⟩ false
      (List.replicate 512 1))).map peakNumbers.norm = powers := by
    simp only [peakNumbers, hdef, List.map_map]
    rfl
  have henergy : (1 : ℚ) / 10 ^ 20 ≤ ((List.replicate 512 1).map peakNumbers.norm).sum := by
    rw [List.map_replicate, List.sum_replicate]
    norm_num [peakNumbers]
  obtain ⟨hlive, hlimit, -⟩ := tones_largest peakNumbers ⟨500000, 7, 512, List.replicate 512 1⟩ false
    (List.replicate 512 1) {} powers 10 hpowers hlength hlength.ge henergy
  rw [hqualifying] at hlive hlimit
  exact ⟨hlive.trans (by decide +kernel), hlimit⟩

end Tones

end Discovery

end OVMesh
