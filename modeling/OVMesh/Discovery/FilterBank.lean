import OVMesh.Discovery.Channelizer
import OVMesh.Lib.Fft
import OVMesh.Lib.Fold

/-!
# The filter bank of the channelizer

What the constructor of `DiscoveryChannelizer` lays out, and what it computes for an output: the taps are
folded into phases, the phases are transformed, and the modulation of the hop is taken out. Values are
exact, the roots of unity are the powers of one, and the taps are any of the right number.

* `Design`: the rate and the range that the constructor accepts. `channels`, `bins`: its subbands.
* `polyphase`, `transform`, `rotations`, `bankOutput`: an output. `transform_eq`: either transform.
* `mixedThenFiltered`: an output as the sum that defines it. `bankOutput_eq`.
* `channelizer_plain`: a stretch in chunks gives these sums, each at its coordinate.
-/

namespace OVMesh

namespace Discovery

/-- The largest distance from the centre of a subband that its filter passes. -/
def passbandHalfWidth : ℕ := 750000

/-- The loop over the channels: the numbers, around the centre, of those that the range meets. -/
def channels (phases : ℕ) (center lower upper : ℚ) : List ℤ :=
  ((List.range (2 * (phases / 2) - 1)).map fun n : ℕ => -((phases / 2 : ℕ) : ℤ) + 1 + n).filter fun k =>
    let frequency := center + k * centerSpacing
    !decide (frequency + passbandHalfWidth ≤ lower ∨ upper ≤ frequency - passbandHalfWidth)

/-- `std::has_single_bit`: the number is a power of two. -/
def hasSingleBit (n : ℕ) : Prop := n = 2 ^ n.log2

instance (n : ℕ) : Decidable (hasSingleBit n) := inferInstanceAs (Decidable (_ = _))

/-- The loop over the bits of an index. -/
def reversed : ℕ → ℕ → ℕ → ℕ
  | 0, _, result => result
  | bits + 1, value, result => reversed bits (value >>> 1) ((result <<< 1) ||| (value &&& 1))

/-- What the constructor accepts, with the taps and the root that it lays out. -/
structure Design (C : Type) [Field C] [StarRing C] where
  rate : ℕ
  center : ℚ
  lower : ℚ
  upper : ℚ
  supported : rate ∈ [2000000, 8000000, 10000000, 12000000, 16000000, 20000000]
  range : 0 ≤ lower ∧ lower < upper ∧ center - rate / 2 ≤ lower ∧ upper ≤ center + rate / 2
  covered : ∃ front back,
    (channels (rate / centerSpacing) center lower upper).head? = some front ∧
    (channels (rate / centerSpacing) center lower upper).getLast? = some back ∧
    center + front * centerSpacing - passbandHalfWidth ≤ lower ∧
    upper ≤ center + back * centerSpacing + passbandHalfWidth
  taps : List C
  length_taps : taps.length = rate / centerSpacing * tapsPerPhase + 1
  root : C
  primitive : IsPrimitiveRoot root (rate / centerSpacing)
  conj : star root = root⁻¹

namespace Design

section Definitions

variable {C : Type} [Field C] [StarRing C] (design : Design C)

/-- The phases of the filter bank: the input samples in a period of the subband spacing. -/
def phases : ℕ := design.rate / centerSpacing
/-- The input samples for each output sample. -/
def stride : ℕ := design.rate / outputSampleRate

/-- `bins`: the bins of the transform that hold the subbands of the design. -/
def bins : List ℕ :=
  (channels design.phases design.center design.lower design.upper).map fun k : ℤ =>
    ((k + design.phases) % design.phases).toNat

theorem bins_pos : 0 < design.bins.length := by
  obtain ⟨front, -, hfront, -⟩ := design.covered
  rw [bins, List.length_map]
  exact List.length_pos_iff.mpr fun hnil => by
    rw [phases] at hnil
    simp [hnil] at hfront

/-- The channelizer of the design. -/
def config : ChannelizerConfig := ⟨design.rate, design.bins.length, design.supported, design.bins_pos⟩

/-- `roots`: the powers of the root of unity, one for each phase. -/
def roots : List C := (List.range design.phases).map fun k => design.root ^ k

/-- `rotations[p]`: the factors that turn the bins back to the start of output `p`. -/
def rotations (p : ℕ) : List C :=
  design.bins.map fun bin => star (design.roots.getD (bin * ((p + 1) * design.stride - 1) % design.phases) 0)

/-- `reversal`: the places of the phases in bit-reversed order. -/
def reversal : List ℕ := (List.range design.phases).map fun k => reversed design.phases.log2 k 0

/-- The taps folded into the phases, with the last tap in the first one. -/
def polyphase (samples : List C) : List C :=
  ((List.range tapsPerPhase).foldl (fun sums q => sums.mapIdx fun p sum =>
      sum + samples.getD (q * design.phases + p) 0 * design.taps.getD (q * design.phases + p) 0)
    (List.replicate design.phases 0)).modify 0
      (· + samples.getD (design.taps.length - 1) 0 * design.taps.getLastD 0)

/-- `transform`. `transformed` is what the last transform left. -/
def transform (polyphase transformed : List C) : List C :=
  if hasSingleBit design.phases then
    let reordered := (List.range design.phases).foldl
      (fun t k => t.set (design.reversal.getD k 0) (polyphase.getD k 0)) transformed
    -- the widths 2, 4, … up to the number of phases
    (List.range design.phases.log2).foldl (fun t stage =>
      let width := 2 ^ (stage + 1)
      let rootStride := design.phases / width
      (List.range (design.phases / width)).foldl (fun t block =>
        (List.range (width / 2)).foldl (fun t k =>
          let a := t.getD (block * width + k) 0
          let b := t.getD (block * width + k + width / 2) 0 * design.roots.getD (k * rootStride) 0
          (t.set (block * width + k) (a + b)).set (block * width + k + width / 2) (a - b)) t) t) reordered
  else
    (List.range design.phases).map fun k =>
      (List.range design.phases).foldl
        (fun sum p => sum + polyphase.getD p 0 * design.roots.getD (k * p % design.phases) 0) 0

/-- What `sample` appends for a subband. -/
def bankOutput (samples : List C) (modulation : Bool) (i : ℕ) : C :=
  (design.transform (design.polyphase samples) (List.replicate design.phases 0)).getD
      (design.bins.getD i 0) 0 *
    (design.rotations (if modulation then 1 else 0)).getD i 0

/-- The bank that computes the outputs of the design, with the test for finite samples. -/
def filterBank (finite : C → Bool) : FilterBank C := ⟨design.bankOutput, finite⟩

/-- A sample of a subband by the plain definition: the input is mixed down by the frequency of the bin,
from the origin on, and filtered. -/
def mixedThenFiltered (x : ℕ → C) (origin bin a : ℕ) : C :=
  ∑ n ∈ Finset.range design.taps.length,
    design.taps.getD n 0 * x (a - n) * design.root ^ (-((bin : ℤ) * ((a : ℤ) - n - origin)))

/-- The positions of the outputs. -/
def positions (origin samples : ℕ) : List ℕ :=
  ((List.range (samples / design.stride + 1)).filter fun j => design.taps.length ≤ j * design.stride).map
    fun j => origin + j * design.stride - 1

end Definitions

/-- The samples that a subband is given, with their coordinates. -/
def emitted {C : Type} (subband : ℕ) (delivered : List (Samples C)) : List (ℕ × C) :=
  (delivered.filter fun block => block.subbandIndex = subband).flatMap fun block =>
    block.values.mapIdx fun m value => (block.firstInputSample + m * block.inputSampleStride, value)

section Spec

variable {C : Type} [Field C] [StarRing C] (design : Design C)

/-! ## The transform -/

theorem phases_pos : 0 < design.phases := by
  have hsupported := design.supported
  simp only [List.mem_cons, List.not_mem_nil, or_false] at hsupported
  rcases hsupported with h | h | h | h | h | h <;> rw [phases, h] <;> decide

theorem phases_eq : design.phases = 2 * design.stride := by
  have hsupported := design.supported
  simp only [List.mem_cons, List.not_mem_nil, or_false] at hsupported
  rcases hsupported with h | h | h | h | h | h <;> rw [phases, stride, h] <;> decide

variable {design} {i j k n p : ℕ} {samples values transformed : List C}

theorem root_pow_phases : design.root ^ design.phases = 1 := design.primitive.pow_eq_one

theorem root_ne_zero : design.root ≠ 0 := design.primitive.ne_zero design.phases_pos.ne'

theorem getD_roots (hk : k < design.phases) : design.roots.getD k 0 = design.root ^ k := by
  rw [List.getD_eq_getElem _ _ (by simpa [roots] using hk)]
  simp [roots]

theorem getD_roots_mod : design.roots.getD (k % design.phases) 0 = design.root ^ k := by
  rw [getD_roots (Nat.mod_lt _ design.phases_pos), ← pow_mod_orderOf, ← pow_mod_orderOf design.root k,
    ← design.primitive.eq_orderOf]
  congr 1
  exact Nat.mod_mod _ _

/-- The loop over the bits reverses them. -/
theorem reversed_eq {bits value result : ℕ} :
    reversed bits value result = result * 2 ^ bits + Fft.reverse bits value := by
  induction bits generalizing value result with
  | zero => simp [reversed, Fft.reverse]
  | succ bits ih =>
    have hor : result <<< 1 ||| value % 2 = 2 * result + value % 2 := by
      rw [Nat.shiftLeft_eq, pow_one, Nat.mul_comm]
      exact (Nat.two_pow_add_eq_or_of_lt (i := 1) (Nat.mod_lt _ (by decide)) result).symm
    rw [reversed, ih, Nat.and_one_is_mod, hor, Nat.shiftRight_one, Fft.reverse]
    ring

theorem getD_reversal (hk : k < design.phases) :
    design.reversal.getD k 0 = Fft.reverse design.phases.log2 k := by
  rw [List.getD_eq_getElem _ _ (by simpa [reversal] using hk)]
  simp [reversal, reversed_eq]

theorem foldl_sum {R : Type} [AddCommMonoid R] (f : ℕ → R) :
    (List.range n).foldl (fun sum p => sum + f p) 0 = ∑ p ∈ Finset.range n, f p := by
  induction n with
  | zero => rfl
  | succ n ih => rw [List.range_succ, List.foldl_append, ih, Finset.sum_range_succ]; rfl

/-- The half power of the root. -/
theorem root_half {r : ℕ} (h : design.phases = 2 ^ (r + 1)) : design.root ^ 2 ^ r = -1 := by
  have hprimitive := design.primitive
  have hphases : design.rate / centerSpacing = 2 ^ (r + 1) := h
  rw [hphases] at hprimitive
  have hsquare : design.root ^ 2 ^ r * design.root ^ 2 ^ r = 1 := by
    rw [← pow_add, ← two_mul, ← pow_succ', hprimitive.pow_eq_one]
  rcases mul_self_eq_one_iff.mp hsquare with hone | hneg
  · have hlt : 2 ^ r < 2 ^ (r + 1) := Nat.pow_lt_pow_right (by decide) (Nat.lt_succ_self r)
    exact absurd hone (hprimitive.pow_ne_one_of_pos_of_lt (Nat.two_pow_pos r).ne' hlt)
  · exact hneg

/-- The stages of the radix-2 transform. -/
theorem stages_spec {m s : ℕ} (hphases : design.phases = 2 ^ m) (hs : s ≤ m) {t : List C} {x : ℕ → C}
    (ht : Fft.Stage design.root x m 0 t) :
    Fft.Stage design.root x (m - s) s ((List.range s).foldl (fun t stage =>
      let width := 2 ^ (stage + 1)
      let rootStride := design.phases / width
      (List.range (design.phases / width)).foldl (fun t block =>
        (List.range (width / 2)).foldl (fun t k =>
          let a := t.getD (block * width + k) 0
          let b := t.getD (block * width + k + width / 2) 0 * design.roots.getD (k * rootStride) 0
          (t.set (block * width + k) (a + b)).set (block * width + k + width / 2) (a - b)) t) t) t) := by
  induction s with
  | zero => exact ht
  | succ s ih =>
    have hstage := ih (by omega)
    obtain ⟨r, rfl⟩ : ∃ r, m = r + s + 1 := ⟨m - s - 1, by omega⟩
    have hr : r + s + 1 - s = r + 1 := by omega
    have hr' : r + s + 1 - (s + 1) = r := by omega
    have hwidth : 2 ^ (s + 1) / 2 = 2 ^ s := by
      rw [pow_succ, Nat.mul_div_cancel _ (by decide)]
    have hblocks : design.phases / 2 ^ (s + 1) = 2 ^ r := by
      rw [hphases, Nat.add_assoc, pow_add, Nat.mul_div_cancel _ (Nat.two_pow_pos _)]
    rw [hr] at hstage
    rw [hr', List.range_succ, List.foldl_append, List.foldl_cons, List.foldl_nil]
    refine (congrArg (Fft.Stage design.root x r (s + 1)) ?_).mp (hstage.pass (root_half hphases))
    simp only [hwidth, hblocks]
    refine List.foldl_ext _ _ _ fun t block _ => List.foldl_ext _ _ _ fun t k hk => ?_
    have hk := List.mem_range.mp hk
    have hlt : k * 2 ^ r < design.phases := by
      have hle : k * 2 ^ r ≤ 2 ^ s * 2 ^ r := Nat.mul_le_mul_right _ hk.le
      have hhalf : design.phases = 2 * (2 ^ s * 2 ^ r) := by
        rw [hphases]
        ring
      have hpos : 0 < 2 ^ s * 2 ^ r := Nat.mul_pos (Nat.two_pow_pos _) (Nat.two_pow_pos _)
      omega
    rw [Fft.butterfly, getD_roots hlt, pow_succ']

/-- **The transform.** With either number of phases it is the discrete transform, and nothing is left of
the last one. -/
theorem transform_eq (htransformed : transformed.length = design.phases) (hk : k < design.phases) :
    (design.transform values transformed).getD k 0 =
      ∑ p ∈ Finset.range design.phases, values.getD p 0 * design.root ^ (k * p) := by
  rw [transform]
  split_ifs with hbit
  · have hphases : design.phases = 2 ^ design.phases.log2 := hbit
    have hplaces : (List.range design.phases).foldl
        (fun t k => t.set (design.reversal.getD k 0) (values.getD k 0)) transformed =
          Fft.scatterTo (Fft.reverse design.phases.log2) (fun k => values.getD k 0)
            (List.range design.phases) transformed := by
      refine List.foldl_ext _ _ _ fun t k hk => ?_
      rw [getD_reversal (List.mem_range.mp hk)]
    have hstart : Fft.Stage design.root (fun k => values.getD k 0) design.phases.log2 0
        (Fft.scatterTo (Fft.reverse design.phases.log2) (fun k => values.getD k 0)
          (List.range design.phases) transformed) := by
      refine Fft.stage_reversed ?_ fun i hi => ?_
      · rw [Fft.length_scatterTo, htransformed, ← hphases]
      · rw [← hphases] at hi
        refine Fft.getD_scatterTo (List.mem_range.mpr hi) ?_ fun l hl heq => ?_
        · rw [htransformed]
          exact Fft.reverse_lt.trans_eq hphases.symm
        · have hl := List.mem_range.mp hl
          rw [hphases] at hi hl
          rw [← Fft.reverse_reverse hl, heq, Fft.reverse_reverse hi]
    have hend := stages_spec hphases le_rfl hstart
    rw [Nat.sub_self] at hend
    have hvalue := Fft.stage_full hend (hk.trans_eq hphases)
    rw [← hphases] at hvalue
    simp only [hplaces]
    exact hvalue
  · rw [List.getD_eq_getElem _ _ (by simpa using hk), List.getElem_map, List.getElem_range, foldl_sum]
    exact Finset.sum_congr rfl fun p _ => by rw [getD_roots_mod]

/-! ## The phases -/

/-- The loop over the taps of each phase. -/
theorem getD_folded (hp : p < design.phases) :
    ((List.range n).foldl (fun sums q => sums.mapIdx fun p sum =>
      sum + samples.getD (q * design.phases + p) 0 * design.taps.getD (q * design.phases + p) 0)
        (List.replicate design.phases 0)).length = design.phases ∧
    ((List.range n).foldl (fun sums q => sums.mapIdx fun p sum =>
      sum + samples.getD (q * design.phases + p) 0 * design.taps.getD (q * design.phases + p) 0)
        (List.replicate design.phases 0)).getD p 0 =
      ∑ q ∈ Finset.range n,
        samples.getD (q * design.phases + p) 0 * design.taps.getD (q * design.phases + p) 0 := by
  induction n with
  | zero => simp [hp]
  | succ n ih =>
    obtain ⟨hlength, hvalue⟩ := ih
    rw [List.range_succ, List.foldl_append, List.foldl_cons, List.foldl_nil, Finset.sum_range_succ,
      ← hvalue]
    generalize (List.range n).foldl _ _ = sums at hlength ⊢
    refine ⟨by rw [List.length_mapIdx, hlength], ?_⟩
    have hlt : p < sums.length := hp.trans_eq hlength.symm
    rw [List.getD_eq_getElem _ _ (by rwa [List.length_mapIdx]), List.getElem_mapIdx,
      List.getD_eq_getElem _ _ hlt]

theorem taps_length : design.taps.length = tapsPerPhase * design.phases + 1 := by
  rw [design.length_taps, Nat.mul_comm]
  rfl

/-- A sum in rows. -/
theorem sum_range_rows {R : Type} [AddCommMonoid R] (f : ℕ → R) (rows columns : ℕ) :
    ∑ i ∈ Finset.range (rows * columns), f i =
      ∑ p ∈ Finset.range columns, ∑ q ∈ Finset.range rows, f (q * columns + p) := by
  induction rows with
  | zero => simp
  | succ rows ih =>
    simp only [Nat.succ_mul, Finset.sum_range_add, ih, Finset.sum_range_succ, Finset.sum_add_distrib]

/-- **The phases.** Their transform is that of the weighted samples. -/
theorem sum_polyphase : ∑ p ∈ Finset.range design.phases,
      (design.polyphase samples).getD p 0 * design.root ^ (k * p) =
    ∑ n ∈ Finset.range design.taps.length,
      samples.getD n 0 * design.taps.getD n 0 * design.root ^ (k * n) := by
  have hlast : design.taps.getLastD 0 = design.taps.getD (tapsPerPhase * design.phases) 0 := by
    have hindex : design.taps.length - 1 = tapsPerPhase * design.phases := by
      rw [taps_length, Nat.add_sub_cancel]
    rw [List.getLastD_eq_getLast?, List.getLast?_eq_getElem?, hindex, List.getD_eq_getElem?_getD]
  have hphase : ∀ p < design.phases, (design.polyphase samples).getD p 0 =
      (∑ q ∈ Finset.range tapsPerPhase,
        samples.getD (q * design.phases + p) 0 * design.taps.getD (q * design.phases + p) 0) +
      if p = 0 then samples.getD (tapsPerPhase * design.phases) 0 *
        design.taps.getD (tapsPerPhase * design.phases) 0 else 0 := by
    intro p hp
    obtain ⟨hlength, hvalue⟩ := @getD_folded C _ _ design tapsPerPhase p samples hp
    rw [← hvalue, polyphase, hlast, taps_length, Nat.add_sub_cancel]
    generalize (List.range tapsPerPhase).foldl _ _ = sums at hlength ⊢
    have hlt : p < sums.length := hp.trans_eq hlength.symm
    rw [List.getD_eq_getElem _ _ (by rwa [List.length_modify]), List.getElem_modify,
      List.getD_eq_getElem _ _ hlt]
    by_cases hzero : p = 0
    · subst hzero
      simp
    · rw [if_neg (Ne.symm hzero), if_neg hzero, add_zero]
  have hrepeats : ∀ q p, design.root ^ (k * (q * design.phases + p)) = design.root ^ (k * p) := by
    intro q p
    have hsplit : k * (q * design.phases + p) = design.phases * (k * q) + k * p := by ring
    rw [hsplit, pow_add, pow_mul, root_pow_phases, one_pow, one_mul]
  have hfirst : ∑ p ∈ Finset.range design.phases, (if p = 0 then
      samples.getD (tapsPerPhase * design.phases) 0 * design.taps.getD (tapsPerPhase * design.phases) 0
        else 0) * design.root ^ (k * p) =
      samples.getD (tapsPerPhase * design.phases) 0 * design.taps.getD (tapsPerPhase * design.phases) 0 *
        design.root ^ (k * (tapsPerPhase * design.phases)) := by
    have hpower := hrepeats tapsPerPhase 0
    rw [Nat.add_zero] at hpower
    rw [hpower, Finset.sum_eq_single_of_mem 0 (Finset.mem_range.mpr design.phases_pos), if_pos rfl]
    intro p _ hne
    rw [if_neg hne, zero_mul]
  rw [taps_length, Finset.sum_range_succ, sum_range_rows, ← hfirst, ← Finset.sum_add_distrib]
  refine Finset.sum_congr rfl fun p hp => ?_
  rw [hphase p (Finset.mem_range.mp hp), add_mul, Finset.sum_mul]
  simp only [hrepeats]

/-! ## The outputs -/

theorem length_bins : design.bins.length =
    (channels design.phases design.center design.lower design.upper).length := List.length_map _

theorem bin_lt (hi : i < design.bins.length) : design.bins.getD i 0 < design.phases := by
  have hpos : (0 : ℤ) < design.phases := by exact_mod_cast design.phases_pos
  have hmem := List.getElem_mem hi
  rw [List.getD_eq_getElem _ _ hi]
  obtain ⟨k, -, hk⟩ := List.mem_map.mp hmem
  rw [← hk]
  have hlt := Int.emod_lt_of_pos (k + design.phases) hpos
  omega

/-- The rotation of a hop takes the turns of its newest sample out. -/
theorem getD_rotations (hi : i < design.bins.length) :
    (design.rotations (if decide (j % 2 = 1) then 1 else 0)).getD i 0 =
      (design.root ^ (design.bins.getD i 0 * ((2 * tapsPerPhase + 1 + j) * design.stride - 1)))⁻¹ := by
  have hstride : 0 < design.stride := by
    have hpos := design.phases_pos
    rw [phases_eq] at hpos
    omega
  have hhop : ∀ m p, p < 2 → design.root ^ (design.bins.getD i 0 *
      ((2 * m + p + 1) * design.stride - 1)) =
        design.root ^ (design.bins.getD i 0 * ((p + 1) * design.stride - 1)) := by
    intro m p hp
    have hone : 1 ≤ (p + 1) * design.stride := Nat.mul_pos (Nat.succ_pos p) hstride
    have hsum : (2 * m + p + 1) * design.stride - 1 =
        design.phases * m + ((p + 1) * design.stride - 1) := by
      have hsplit : (2 * m + p + 1) * design.stride = design.phases * m + (p + 1) * design.stride := by
        rw [phases_eq]
        ring
      omega
    have hpower : design.bins.getD i 0 * (design.phases * m + ((p + 1) * design.stride - 1)) =
        design.phases * (design.bins.getD i 0 * m) +
          design.bins.getD i 0 * ((p + 1) * design.stride - 1) := by ring
    rw [hsum, hpower, pow_add, pow_mul, root_pow_phases, one_pow, one_mul]
  have hconj : ∀ p, (design.rotations p).getD i 0 =
      (design.root ^ (design.bins.getD i 0 * ((p + 1) * design.stride - 1)))⁻¹ := by
    intro p
    have hlength : i < (design.rotations p).length := by simpa [rotations] using hi
    rw [List.getD_eq_getElem _ _ hlength, List.getD_eq_getElem _ _ hi]
    simp only [rotations, List.getElem_map]
    rw [getD_roots_mod, star_pow, design.conj, inv_pow]
  by_cases hodd : j % 2 = 1
  · have hsplit : 2 * tapsPerPhase + 1 + j = 2 * (tapsPerPhase + j / 2) + 1 + 1 := by omega
    rw [if_pos (by simpa using hodd), hconj, hsplit, hhop _ 1 (by decide)]
  · have hsplit : 2 * tapsPerPhase + 1 + j = 2 * (tapsPerPhase + j / 2) + 0 + 1 := by omega
    rw [if_neg (by simpa using hodd), hconj, hsplit, hhop _ 0 (by decide)]

/-- **An output.** The bank computes the sum that defines it. -/
theorem bankOutput_eq {stretch : List C} {origin : ℕ} {finite : C → Bool} (hi : i < design.bins.length)
    (hj : samplesTo design.config j ≤ stretch.length) :
    outputAt design.config (design.filterBank finite) stretch i j =
      design.mixedThenFiltered (fun position => stretch.getD (position - origin) 0) origin
        (design.bins.getD i 0) (origin + samplesTo design.config j - 1) := by
  have hsamples : samplesTo design.config j = (2 * tapsPerPhase + 1 + j) * design.stride := rfl
  have htaps : design.config.taps = design.taps.length := design.length_taps.symm
  have hfull : design.taps.length ≤ samplesTo design.config j := by
    have hle : (2 * tapsPerPhase + 1) * design.config.stride ≤ samplesTo design.config j :=
      Nat.mul_le_mul_right _ (by omega)
    have hpos := design.config.stride_pos
    rw [← htaps, design.config.taps_eq]
    rw [Nat.add_mul] at hle
    omega
  rw [outputAt, htaps]
  show design.bankOutput _ _ _ = _
  rw [bankOutput, getD_rotations hi, transform_eq (List.length_replicate) (bin_lt hi), sum_polyphase,
    ← hsamples, mixedThenFiltered, Finset.sum_mul]
  refine Finset.sum_congr rfl fun n hn => ?_
  have hn := Finset.mem_range.mp hn
  have hsample : ((stretch.take (samplesTo design.config j)).reverse.take design.taps.length).getD n 0 =
      stretch.getD (origin + samplesTo design.config j - 1 - n - origin) 0 := by
    have hindex : origin + samplesTo design.config j - 1 - n - origin =
        samplesTo design.config j - 1 - n := by omega
    rw [hindex, List.getD_eq_getElem?_getD, List.getD_eq_getElem?_getD, List.getElem?_take, if_pos hn,
      List.getElem?_reverse (by rw [List.length_take]; omega), List.length_take, min_eq_left hj,
      List.getElem?_take, if_pos (by omega)]
  have hpower : -((design.bins.getD i 0 : ℤ) *
      (((origin + samplesTo design.config j - 1 : ℕ) : ℤ) - n - origin)) =
        (design.bins.getD i 0 * n : ℕ) -
          (design.bins.getD i 0 * (samplesTo design.config j - 1) : ℕ) := by
    have hone : 1 ≤ samplesTo design.config j := by omega
    have hcast : origin + samplesTo design.config j - 1 = origin + (samplesTo design.config j - 1) := by
      omega
    rw [hcast]
    push_cast
    ring
  rw [hsample, hpower, zpow_sub₀ root_ne_zero, zpow_natCast, zpow_natCast]
  ring

/-! ## Deliveries -/

end Spec

section Deliveries

open Runs

variable {C : Type} {config : ChannelizerConfig} {filter : FilterBank C} {first subband : ℕ}
  {stretch : List C} {got : ℕ → List C} {blocks : List (Samples C)}

/-- Blocks on time have the outputs that follow, each with its coordinate. -/
theorem emitted_eq (h : Along receive (OnTime config filter first stretch) got blocks) :
    ∃ values, run receive got blocks subband = got subband ++ values ∧
      emitted subband blocks =
        values.mapIdx fun m value => (coordinate config first ((got subband).length + m), value) := by
  induction blocks generalizing got with
  | nil => exact ⟨[], (List.append_nil _).symm, rfl⟩
  | cons block blocks ih =>
    obtain ⟨htime, hrest⟩ := h
    obtain ⟨values, hrun, hvalues⟩ := ih hrest
    by_cases hband : block.subbandIndex = subband
    · have hgot : receive got block subband = got subband ++ block.values := by
        rw [receive, hband, Function.update_self]
      have hfirst := htime.first
      rw [hband] at hfirst
      rw [hgot] at hrun hvalues
      refine ⟨block.values ++ values, ?_, ?_⟩
      · rw [run_cons, hrun, List.append_assoc]
      · rw [emitted, List.filter_cons_of_pos (by simpa using hband), List.flatMap_cons,
          ← emitted, hvalues, List.mapIdx_append]
        simp only [hfirst, htime.stride, coordinate_add, List.length_append, Nat.add_assoc,
          Nat.add_comm (block.values.length)]
    · have hgot : receive got block subband = got subband := by
        rw [receive, Function.update_of_ne (Ne.symm hband)]
      rw [hgot] at hrun hvalues
      refine ⟨values, hrun, ?_⟩
      rw [emitted, List.filter_cons_of_neg (by simpa using hband), ← emitted, hvalues]

end Deliveries

section Claim

variable {C : Type} [Field C] [StarRing C] {design : Design C}

/-- The positions, counted from the first one. -/
theorem positions_eq (origin samples : ℕ) : design.positions origin samples =
    (List.range (outputCount design.config samples)).map fun j =>
      origin + samplesTo design.config j - 1 := by
  have hstride := design.config.stride_pos
  have hfilter : ∀ n : ℕ, (List.range n).filter (fun j => 2 * tapsPerPhase + 1 ≤ j) =
      (List.range (n - (2 * tapsPerPhase + 1))).map fun j => 2 * tapsPerPhase + 1 + j := by
    intro n
    induction n with
    | zero => rfl
    | succ n ih =>
      rw [List.range_succ, List.filter_append, ih]
      by_cases h : 2 * tapsPerPhase + 1 ≤ n
      · have hsub : n + 1 - (2 * tapsPerPhase + 1) = n - (2 * tapsPerPhase + 1) + 1 := by omega
        have hadd : 2 * tapsPerPhase + 1 + (n - (2 * tapsPerPhase + 1)) = n := by omega
        rw [hsub, List.range_succ, List.map_append, List.map_singleton, hadd,
          List.filter_singleton]
        simp [h]
      · have hnone : n + 1 - (2 * tapsPerPhase + 1) = 0 := by omega
        have hnone' : n - (2 * tapsPerPhase + 1) = 0 := by omega
        rw [hnone, hnone', List.filter_singleton]
        simp [h]
  have hfits : ∀ j, design.taps.length ≤ j * design.stride ↔ 2 * tapsPerPhase + 1 ≤ j := by
    intro j
    have htaps : design.taps.length = 2 * tapsPerPhase * design.config.stride + 1 :=
      design.length_taps.trans design.config.taps_eq
    have hconfig : design.config.stride = design.stride := rfl
    rw [htaps, hconfig, Nat.succ_le_iff, Nat.mul_lt_mul_right (hconfig ▸ hstride), Nat.lt_iff_add_one_le]
  simp only [positions, hfits, hfilter, List.map_map]
  have hcount : samples / design.stride + 1 - (2 * tapsPerPhase + 1) =
      outputCount design.config samples := by
    rw [Nat.add_sub_add_right]
    rfl
  rw [hcount]
  rfl

/-- **The channelizer.** A stretch in chunks is accepted, and each subband is given exactly the samples
of the plain definition, in order, each at its position less the group delay. -/
theorem channelizer_plain (design : Design C) (finite : C → Bool) (first : ℕ) (chunks : List (List C))
    (hfinite : ∀ value ∈ chunks.flatten, finite value = true)
    (hcoordinates : first + chunks.flatten.length ≤ 2 ^ 64 - 1) :
    let stretch := chunks.flatten
    let fed := Channelizer.feedAll design.config (design.filterBank finite)
      (Channelizer.initial design.config) first chunks
    fed.error = none ∧ ∀ i (hi : i < design.bins.length), emitted i fed.delivered =
      (design.positions first stretch.length).map fun a =>
        (a - design.config.delay,
          design.mixedThenFiltered (fun position => stretch.getD (position - first) 0) first
            design.bins[i] a) := by
  intro stretch fed
  have hfed : Channelizer.Delivers design.config (design.filterBank finite) first [] stretch fed :=
    Channelizer.feedAll_spec (.inr ⟨rfl, rfl⟩)
  have hspec := hfed.ended
  rw [List.nil_append] at hspec
  rcases hspec with ⟨herror, -, -, hrun⟩ | ⟨-, value, hvalue, hfalse⟩ | ⟨-, hover⟩
  · refine ⟨herror, fun i hi => ?_⟩
    obtain ⟨values, hgot, hemitted⟩ := @emitted_eq _ _ _ _ i _ _ _ hfed.onTime
    have hnone : received design.config (design.filterBank finite) [] i = [] := by
      simp [received, outputsOf, outputCount]
    rw [hrun, hnone, List.nil_append] at hgot
    rw [hnone] at hemitted
    have houtputs : values = outputsOf design.config (design.filterBank finite) stretch i := by
      have hsubband : i < design.config.subbands := hi
      rw [← hgot, received, if_pos hsubband]
    have hfirst : ∀ j, first + samplesTo design.config j - 1 - design.config.delay =
        coordinate design.config first (0 + j) := by
      intro j
      have hsplit : samplesTo design.config j =
          (tapsPerPhase + 1 + j) * design.config.stride + design.config.delay := by
        rw [samplesTo, design.config.delay_eq]
        ring
      rw [hsplit, coordinate, Nat.zero_add]
      omega
    rw [hemitted, houtputs, positions_eq, outputsOf, List.map_map]
    refine List.ext_getElem (by simp) fun j hj _ => ?_
    have hj : j < outputCount design.config stretch.length := by simpa using hj
    have houtput := @bankOutput_eq C _ _ design i j stretch first finite hi (samplesTo_le hj)
    rw [List.getD_eq_getElem _ _ hi] at houtput
    simp [houtput, hfirst]
  · cases (hfinite value hvalue).symm.trans hfalse
  · exact absurd hcoordinates (not_le.mpr hover)

theorem primitive_turn : IsPrimitiveRoot (Complex.exp (2 * Real.pi * Complex.I / (8 : ℕ))) 8 :=
  Complex.isPrimitiveRoot_exp 8 (by decide)

/-- Eight million samples a second around a centre, with three subbands, over the complex numbers. -/
noncomputable def complexDesign : Design ℂ where
  rate := 8000000
  center := 915000000
  lower := 914500000
  upper := 915500000
  supported := by decide
  range := by norm_num
  covered := ⟨-1, 1, by decide +kernel, by decide +kernel, by norm_num [centerSpacing, passbandHalfWidth],
    by norm_num [centerSpacing, passbandHalfWidth]⟩
  taps := List.replicate 257 1
  length_taps := List.length_replicate.trans rfl
  root := Complex.exp (2 * Real.pi * Complex.I / (8 : ℕ))
  primitive := primitive_turn
  conj := by
    rw [← Complex.exp_neg, Complex.star_def, ← Complex.exp_conj]
    congr 1
    rw [map_div₀, map_mul, map_mul, Complex.conj_ofReal, Complex.conj_I, Complex.conj_ofNat,
      Complex.conj_natCast]
    ring

theorem channelizer_plain_complex :
    (emitted 2 (Channelizer.feedAll complexDesign.config (complexDesign.filterBank fun _ => true)
      (Channelizer.initial complexDesign.config) 1000
      [List.replicate 200 1, List.replicate 100 1]).delivered).length = 11 := by
  have hlength : ([List.replicate 200 1, List.replicate 100 1] : List (List ℂ)).flatten.length = 300 := by
    simp only [List.length_flatten, List.map_cons, List.map_nil, List.length_replicate, List.sum_cons,
      List.sum_nil]
    rfl
  obtain ⟨-, hemitted⟩ := channelizer_plain complexDesign (fun _ => true) 1000
    [List.replicate 200 1, List.replicate 100 1] (fun _ _ => rfl) (by rw [hlength]; decide)
  have hbins : 2 < complexDesign.bins.length := by
    rw [length_bins]
    decide +kernel
  rw [hemitted 2 hbins, List.length_map, positions_eq, List.length_map, List.length_range, hlength]
  rfl

end Claim

end Design

end Discovery

end OVMesh
