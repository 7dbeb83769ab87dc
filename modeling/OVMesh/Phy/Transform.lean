import OVMesh.Lib.Fft

/-!
# The transform of the receiver

`fft_inplace`: the bit reversal by swaps, the butterflies, and the scale of the inverse.

* `fftInplace`: the transform of a list, in place.
* `reversed_values`: the swaps put every value at its reversed place.
* `fft_direct`: for every power of two the result is the sum of its definition, and the two directions
  undo each other.
-/

namespace OVMesh

namespace Phy

open Fft

/-- A complex number on the unit circle, by its angle in turns. -/
structure Circle (C K : Type) [Field C] [Field K] where
  turn : K → C
  turn_add : ∀ a b, turn (a + b) = turn a * turn b
  turn_half : turn (1 / 2) = -1

section Transform

variable {C K : Type} [Field C] [Field K] (circle : Circle C K)

/-- The index that counts in opposite bit order, from a bit on. -/
def carry : ℕ → ℕ → ℕ
  | 0, j => j
  | bits + 1, j => if j &&& 2 ^ bits ≠ 0 then carry bits (j ^^^ 2 ^ bits) else j ^^^ 2 ^ bits

/-- Two elements change places. -/
def swap (a : List C) (i j : ℕ) : List C := (a.set i (a.getD j 0)).set j (a.getD i 0)

/-- One index of the first loop. -/
def exchange (bits : ℕ) (s : List C × ℕ) (i : ℕ) : List C × ℕ :=
  let j := carry bits s.2
  (if i < j then swap s.1 i j else s.1, j)

/-- The stages, of which there are as many as bits. -/
def stages (inverse : Bool) (a : List C) : List C :=
  let n := a.length
  (List.range n.log2).foldl (fun a stage =>
    let len := 2 ^ (stage + 1)
    let step := circle.turn ((if inverse then 1 else -1) / (len : ℕ))
    pass (len / 2) (n / len) (fun k => step ^ k) a) a

/-- `fft_inplace`: the transform of a list whose length is a power of two, with the inverse divided by the
length. -/
def fftInplace (a : List C) (inverse : Bool) : Except String (List C) :=
  if a.length = 0 ∨ 2 ^ a.length.log2 ≠ a.length then .error "FFT length must be a power of two"
  else
    let reversed := ((List.range' 1 (a.length - 1)).foldl (exchange a.length.log2) (a, 0)).1
    let transformed := stages circle inverse reversed
    .ok (if inverse then transformed.map (· / a.length) else transformed)

end Transform

section Reversal

variable {C : Type} [Field C] {bits i j k m : ℕ} {a : List C}

theorem xor_two_pow (hj : j < 2 ^ bits) : j ^^^ 2 ^ bits = 2 ^ bits + j := by
  apply Nat.eq_of_testBit_eq
  intro i
  rw [Nat.testBit_xor]
  rcases lt_trichotomy i bits with hlt | rfl | hgt
  · rw [Nat.testBit_two_pow_add_gt hlt, Nat.testBit_two_pow_of_ne hlt.ne', Bool.xor_false]
  · rw [Nat.testBit_two_pow_add_eq, Nat.testBit_two_pow_self, Bool.xor_true]
  · have hsum : 2 ^ bits + j < 2 ^ i := by
      have hpow : 2 ^ (bits + 1) ≤ 2 ^ i := Nat.pow_le_pow_right (by decide) hgt
      rw [pow_succ] at hpow
      omega
    rw [Nat.testBit_lt_two_pow hsum, Nat.testBit_two_pow_of_ne hgt.ne,
      Nat.testBit_lt_two_pow (by omega), Bool.xor_false]

/-- **The index counts** in opposite bit order. -/
theorem carry_reverse (hi : i + 1 < 2 ^ bits) : carry bits (reverse bits i) = reverse bits (i + 1) := by
  induction bits generalizing i with
  | zero => omega
  | succ bits ih =>
    rw [pow_succ] at hi
    have hlt : ∀ k, reverse bits k < 2 ^ bits := fun k => reverse_lt
    obtain ⟨half, rfl | rfl⟩ : ∃ half, i = 2 * half ∨ i = 2 * half + 1 := ⟨i / 2, by omega⟩
    · have hclear : reverse bits half &&& 2 ^ bits = 0 := by
        rw [Nat.and_two_pow, Nat.testBit_lt_two_pow (hlt half), Bool.toNat_false, Nat.zero_mul]
      rw [carry, reverse_even, if_neg (not_not.mpr hclear), reverse_odd, xor_two_pow (hlt half)]
    · have hset : (2 ^ bits + reverse bits half) &&& 2 ^ bits ≠ 0 := by
        rw [Nat.and_two_pow, Nat.testBit_two_pow_add_eq, Nat.testBit_lt_two_pow (hlt half)]
        simp
      have hnext : 2 * half + 1 + 1 = 2 * (half + 1) := by ring
      rw [carry, reverse_odd, if_pos hset, ← xor_two_pow (hlt half), Nat.xor_assoc,
        Nat.xor_self, Nat.xor_zero, ih (by omega), hnext, reverse_even]

@[simp] theorem length_swap : (swap a i j).length = a.length := by simp [swap]

theorem getD_swap (hi : i < a.length) (hj : j < a.length) (hne : i ≠ j) : (swap a i j).getD k 0 =
    if k = i then a.getD j 0 else if k = j then a.getD i 0 else a.getD k 0 := by
  simp only [swap, Fft.getD_set, List.length_set]
  by_cases hki : k = i
  · subst hki
    rw [if_neg (by omega), if_pos ⟨rfl, hi⟩, if_pos rfl]
  · by_cases hkj : k = j
    · subst hkj
      rw [if_pos ⟨rfl, hj⟩, if_neg hki, if_pos rfl]
    · rw [if_neg (by omega), if_neg (by omega), if_neg hki, if_neg hkj]

/-- **The swaps put every value at its reversed place.** -/
theorem reversed_values (hlength : a.length = 2 ^ bits) (hm : m + 1 ≤ 2 ^ bits) :
    let s := (List.range' 1 m).foldl (exchange bits) (a, 0)
    s.1.length = 2 ^ bits ∧ s.2 = reverse bits m ∧ ∀ k < 2 ^ bits, s.1.getD k 0 =
      if k ≤ m ∨ reverse bits k ≤ m then a.getD (reverse bits k) 0 else a.getD k 0 := by
  have hzero : ∀ bits, reverse bits 0 = 0 := fun bits => by
    induction bits with
    | zero => rfl
    | succ bits ih => rw [show (0 : ℕ) = 2 * 0 from rfl, reverse_even, ih]
  -- The places that are settled are those up to m and the places they were exchanged with.
  induction m with
  | zero =>
    refine ⟨hlength, (hzero bits).symm, fun k hk => ?_⟩
    by_cases hlow : k ≤ 0 ∨ reverse bits k ≤ 0
    · have hk0 : k = 0 := by
        rcases hlow with hlow | hlow
        · omega
        · rw [← reverse_reverse hk, Nat.le_zero.mp hlow, hzero]
      rw [if_pos hlow, hk0, hzero]
      rfl
    · rw [if_neg hlow]
      rfl
  | succ m ih =>
    obtain ⟨hsize, hindex, hvalue⟩ := ih (by omega)
    rw [List.range'_1_concat, List.foldl_append, List.foldl_cons, List.foldl_nil, Nat.add_comm 1 m]
    generalize (List.range' 1 m).foldl (exchange bits) (a, 0) = s at hsize hindex hvalue
    have hm' : m + 1 < 2 ^ bits := by omega
    have hnext : carry bits s.2 = reverse bits (m + 1) := by rw [hindex, carry_reverse hm']
    have hback : reverse bits (reverse bits (m + 1)) = m + 1 := reverse_reverse hm'
    have hq : reverse bits (m + 1) < 2 ^ bits := reverse_lt
    simp only [exchange, hnext]
    generalize hrev : reverse bits (m + 1) = q at hq hback
    refine ⟨by split_ifs <;> simp [hsize], trivial, fun k hk => ?_⟩
    have hkback : reverse bits (reverse bits k) = k := reverse_reverse hk
    -- A pair is exchanged once, from its smaller place; at its larger one nothing is left to do.
    by_cases hswap : m + 1 < q
    · rw [if_pos hswap, getD_swap (by omega) (by omega) hswap.ne]
      by_cases hlow : k = m + 1
      · subst hlow
        rw [if_pos rfl, if_pos (.inl le_rfl), hvalue q hq, if_neg (by omega), hrev]
      · by_cases hhigh : k = q
        · subst hhigh
          rw [if_neg hlow, if_pos rfl, if_pos (.inr hback.le), hvalue _ hm', if_neg (by omega), hback]
        · have hne : reverse bits k ≠ m + 1 := fun heq => hhigh (by rw [← hkback, heq, hrev])
          rw [if_neg hlow, if_neg hhigh, hvalue k hk]
          exact if_congr (by omega) rfl rfl
    · rw [if_neg hswap, hvalue k hk]
      by_cases hlow : k = m + 1
      · subst hlow
        have hnew : m + 1 ≤ m + 1 ∨ q ≤ m + 1 := .inl le_rfl
        rw [hrev, if_pos hnew]
        by_cases heq : q = m + 1
        · rw [heq, ite_self]
        · rw [if_pos (.inr (by omega))]
      · by_cases hne : reverse bits k = m + 1
        · have hkq : k = q := by rw [← hkback, hne, hrev]
          rw [if_pos (.inl (by omega)), if_pos (.inl (by omega))]
        · exact if_congr (by omega) rfl rfl

end Reversal

/-! ## The stages -/

section Direct

variable {C K : Type} [Field C] [Field K] {circle : Circle C K} {bits k n : ℕ} {a : List C} {x : K}
  {inverse : Bool}

namespace Circle

theorem turn_zero : circle.turn 0 = 1 := by
  have hhalf := circle.turn_add (1 / 2) 0
  rw [add_zero, circle.turn_half] at hhalf
  simpa using hhalf.symm

theorem turn_nat : circle.turn (n * x) = circle.turn x ^ n := by
  induction n with
  | zero => rw [Nat.cast_zero, zero_mul, turn_zero, pow_zero]
  | succ n ih => rw [Nat.cast_succ, add_mul, one_mul, circle.turn_add, ih, pow_succ]

theorem turn_neg : circle.turn (-x) * circle.turn x = 1 := by
  rw [← circle.turn_add, neg_add_cancel, turn_zero]

/-- A direction of the transform. -/
def root (circle : Circle C K) (inverse : Bool) (n : ℕ) : C :=
  circle.turn ((if inverse then 1 else -1) / (n : ℕ))

theorem root_mul : circle.root inverse n * circle.root (!inverse) n = 1 := by
  cases inverse with
  | true =>
    rw [root, root, ← circle.turn_add]
    simp [neg_div, turn_zero]
  | false =>
    rw [root, root, ← circle.turn_add]
    simp [neg_div, turn_zero]

theorem root_two : circle.root inverse 2 = -1 := by
  rw [root]
  cases inverse with
  | true => simpa using circle.turn_half
  | false =>
    have hback := @turn_neg C K _ _ circle (1 / 2)
    rw [circle.turn_half, mul_neg_one, neg_eq_iff_eq_neg] at hback
    rw [if_neg Bool.false_ne_true, neg_div]
    exact_mod_cast hback

variable [CharZero K]

theorem root_pow (hk : k ≠ 0) (hn : n ≠ 0) : circle.root inverse (k * n) ^ k = circle.root inverse n := by
  have hk : (k : K) ≠ 0 := Nat.cast_ne_zero.mpr hk
  have hn : (n : K) ≠ 0 := Nat.cast_ne_zero.mpr hn
  rw [root, ← turn_nat, root]
  congr 1
  push_cast
  field_simp

/-- Half of the way round. -/
theorem root_half : circle.root inverse (2 ^ (bits + 1)) ^ 2 ^ bits = -1 := by
  rw [pow_succ, root_pow (Nat.two_pow_pos bits).ne' two_ne_zero, root_two]

end Circle

variable [CharZero K]

/-- After some of the stages. -/
theorem stages_stage {x : ℕ → C} {s : ℕ} (hs : s ≤ bits)
    (ha : Stage (circle.root inverse (2 ^ bits)) x bits 0 a) :
    Stage (circle.root inverse (2 ^ bits)) x (bits - s) s ((List.range s).foldl (fun a stage =>
      let len := 2 ^ (stage + 1)
      let step := circle.turn ((if inverse then 1 else -1) / (len : ℕ))
      pass (len / 2) (2 ^ bits / len) (fun k => step ^ k) a) a) := by
  induction s with
  | zero => exact ha
  | succ s ih =>
    have hstage := ih (by omega)
    obtain ⟨r, rfl⟩ : ∃ r, bits = r + s + 1 := ⟨bits - s - 1, by omega⟩
    have hleft : r + s + 1 - s = r + 1 := by omega
    have hnext : r + s + 1 - (s + 1) = r := by omega
    rw [hleft] at hstage
    rw [hnext, List.range_succ, List.foldl_append, List.foldl_cons, List.foldl_nil]
    refine (congrArg (Stage _ x r (s + 1)) ?_).mp (hstage.pass Circle.root_half)
    have hhalf : 2 ^ (s + 1) / 2 = 2 ^ s := by rw [pow_succ, Nat.mul_div_cancel _ two_pos]
    have hblocks : 2 ^ (r + s + 1) / 2 ^ (s + 1) = 2 ^ r := by
      rw [Nat.add_assoc, pow_add, Nat.mul_div_cancel _ (Nat.two_pow_pos _)]
    have hstep : circle.root inverse (2 ^ (r + s + 1)) ^ 2 ^ r =
        circle.turn ((if inverse then 1 else -1) / (2 ^ (s + 1) : ℕ)) := by
      rw [Nat.add_assoc, pow_add 2 r, Circle.root_pow (Nat.two_pow_pos r).ne' (Nat.two_pow_pos _).ne']
      rfl
    simp only [hhalf, hblocks, ← hstep]
    congr 1
    funext k
    rw [← pow_mul, Nat.mul_comm]

variable (circle inverse) in
/-- The sums that the transform is. -/
theorem fftInplace_eq (hlength : a.length = 2 ^ bits) : ∃ b, fftInplace circle a inverse = .ok b ∧
    b.length = 2 ^ bits ∧ ∀ k < 2 ^ bits, b.getD k 0 =
      (∑ p ∈ Finset.range (2 ^ bits), a.getD p 0 * circle.root inverse (2 ^ bits) ^ (k * p)) /
        (if inverse then 2 ^ bits else 1) := by
  have hlog : a.length.log2 = bits := by rw [hlength, Nat.log2_two_pow]
  have hne : a.length ≠ 0 := by
    rw [hlength]
    exact (Nat.two_pow_pos bits).ne'
  have hpower : ¬ (a.length = 0 ∨ 2 ^ a.length.log2 ≠ a.length) := by
    rw [hlog, hlength]
    simp
  obtain ⟨hsize, -, hvalue⟩ := reversed_values (m := 2 ^ bits - 1) hlength
    (by have := Nat.two_pow_pos bits; omega)
  rw [fftInplace, if_neg hpower, hlog, hlength]
  dsimp only
  generalize ((List.range' 1 (2 ^ bits - 1)).foldl (exchange bits) (a, 0)).1 = reversed at hsize hvalue
  -- In reversed order each sample is a transform of one point.
  have hstart : Stage (circle.root inverse (2 ^ bits)) (fun p => a.getD p 0) bits 0 reversed := by
    refine stage_reversed hsize fun i hi => ?_
    have hlt : reverse bits i < 2 ^ bits := reverse_lt
    rw [hvalue _ hlt, if_pos (.inl (by omega)), reverse_reverse hi]
  have hall := stages_stage (Nat.le_refl bits) hstart
  rw [Nat.sub_self] at hall
  have hstages : stages circle inverse reversed = (List.range bits).foldl (fun a stage =>
      let len := 2 ^ (stage + 1)
      let step := circle.turn ((if inverse then 1 else -1) / (len : ℕ))
      pass (len / 2) (2 ^ bits / len) (fun k => step ^ k) a) reversed := by
    rw [stages, hsize, Nat.log2_two_pow]
  rw [← hstages] at hall
  generalize stages circle inverse reversed = transformed at hall
  have hdirect : ∀ k < 2 ^ bits, transformed.getD k 0 =
      ∑ p ∈ Finset.range (2 ^ bits), a.getD p 0 * circle.root inverse (2 ^ bits) ^ (k * p) :=
    fun k hk => stage_full hall hk
  have htlength : transformed.length = 2 ^ bits := by
    have := hall.length
    rwa [Nat.zero_add] at this
  refine ⟨_, rfl, ?_, fun k hk => ?_⟩
  · split_ifs
    · rw [List.length_map, htlength]
    · exact htlength
  · cases inverse with
    | true =>
      rw [if_pos rfl, if_pos rfl, ← hdirect k hk, List.getD_eq_getElem _ _ (by simpa [htlength] using hk),
        List.getElem_map, List.getD_eq_getElem _ _ (by simpa [htlength] using hk)]
      push_cast
      rfl
    | false => rw [if_neg Bool.false_ne_true, if_neg Bool.false_ne_true, div_one, hdirect k hk]

/-- The sums over all powers of a root of one, but for one itself. -/
theorem sum_powers {z : C} (hz : z ≠ 1) (hpow : z ^ n = 1) : ∑ k ∈ Finset.range n, z ^ k = 0 := by
  have hprod := mul_geom_sum z n
  rw [hpow, sub_self] at hprod
  exact (mul_eq_zero.mp hprod).resolve_left (sub_ne_zero.mpr hz)

variable [CharZero C]

variable (circle bits inverse) in
theorem primitive_root : IsPrimitiveRoot (circle.root inverse (2 ^ bits)) (2 ^ bits) := by
  cases bits with
  | zero =>
    have hone : circle.root inverse (2 ^ 0) = 1 := by
      have hsquare : circle.root inverse (2 * 1) ^ 2 = circle.root inverse 1 :=
        Circle.root_pow two_ne_zero one_ne_zero
      rw [pow_zero, ← hsquare, Nat.mul_one, Circle.root_two, neg_one_sq]
    rw [hone, pow_zero]
    exact IsPrimitiveRoot.one
  | succ bits =>
    have hhalf : circle.root inverse (2 ^ (bits + 1)) ^ 2 ^ bits = -1 := Circle.root_half
    have hne : (-1 : C) ≠ 1 := by
      intro heq
      have htwo : (2 : C) = 0 := by linear_combination -heq
      exact two_ne_zero htwo
    have horder := orderOf_eq_prime_pow (p := 2) (n := bits) (x := circle.root inverse (2 ^ (bits + 1)))
      (by rw [hhalf]; exact hne) (by rw [pow_succ 2 bits, pow_mul, ← pow_succ 2 bits, hhalf, neg_one_sq])
    exact IsPrimitiveRoot.iff_orderOf.mpr horder

omit [CharZero K] [CharZero C] in
/-- The two directions together. -/
theorem sum_both {w v : C} {x : ℕ → C} {m : ℕ} (hw : IsPrimitiveRoot w n) (hwv : w * v = 1) (hm : m < n) :
    ∑ k ∈ Finset.range n, (∑ p ∈ Finset.range n, x p * w ^ (k * p)) * v ^ (m * k) = n * x m := by
  have hswap : ∑ k ∈ Finset.range n, (∑ p ∈ Finset.range n, x p * w ^ (k * p)) * v ^ (m * k) =
      ∑ p ∈ Finset.range n, x p * ∑ k ∈ Finset.range n, (w ^ p * v ^ m) ^ k := by
    simp only [Finset.sum_mul, Finset.mul_sum]
    rw [Finset.sum_comm]
    refine Finset.sum_congr rfl fun p _ => Finset.sum_congr rfl fun k _ => ?_
    rw [mul_pow, ← pow_mul, ← pow_mul, Nat.mul_comm k p, mul_assoc]
  have hone : ∀ p, (w * v) ^ p = 1 := fun p => by rw [hwv, one_pow]
  have hn : v ^ n = 1 := by
    have hboth := hone n
    rwa [mul_pow, hw.pow_eq_one, one_mul] at hboth
  rw [hswap, Finset.sum_eq_single_of_mem m (Finset.mem_range.mpr hm) fun p hp hne => ?_]
  · rw [← mul_pow, hone]
    simp [mul_comm]
  · refine mul_eq_zero_of_right _ (sum_powers (fun heq => hne ?_) ?_)
    · refine hw.pow_inj (Finset.mem_range.mp hp) hm ?_
      have hmul : w ^ p * v ^ m * w ^ m = 1 * w ^ m := by rw [heq]
      rwa [mul_assoc, ← mul_pow, mul_comm v w, hone, mul_one, one_mul] at hmul
    · rw [mul_pow, ← pow_mul, ← pow_mul, Nat.mul_comm p, Nat.mul_comm m, pow_mul, pow_mul, hw.pow_eq_one,
        hn, one_pow, one_pow, one_mul]

/-- **The transform is the sum of its definition**, in both directions and for every power of two, and
the directions undo each other. -/
theorem fft_direct (circle : Circle C K) (bits : ℕ) (a : List C) (hlength : a.length = 2 ^ bits)
    (inverse : Bool) : ∃ b, fftInplace circle a inverse = .ok b ∧ b.length = 2 ^ bits ∧
      (∀ k < 2 ^ bits, b.getD k 0 =
        (∑ p ∈ Finset.range (2 ^ bits), a.getD p 0 *
          circle.turn ((if inverse then 1 else -1) * (k * p) / 2 ^ bits)) /
            (if inverse then 2 ^ bits else 1)) ∧
      fftInplace circle b (!inverse) = .ok a := by
  obtain ⟨b, hb, hblength, hvalue⟩ := fftInplace_eq circle inverse hlength
  obtain ⟨c, hc, hclength, hback⟩ := fftInplace_eq circle (!inverse) hblength
  refine ⟨b, hb, hblength, fun k hk => ?_, ?_⟩
  · rw [hvalue k hk]
    congr 1
    refine Finset.sum_congr rfl fun p _ => ?_
    rw [Circle.root, ← Circle.turn_nat]
    congr 2
    push_cast
    ring
  · rw [hc]
    congr 1
    refine List.ext_getElem (by rw [hclength, hlength]) fun m hm hm' => ?_
    rw [hclength] at hm
    -- The transform in the other direction undoes this one up to the factor that the inverse divides
    -- by.
    have hboth := sum_both (x := fun p => a.getD p 0) (primitive_root circle bits inverse)
      Circle.root_mul hm
    have hn : ((2 ^ bits : ℕ) : C) ≠ 0 := Nat.cast_ne_zero.mpr (Nat.two_pow_pos bits).ne'
    have hsum : (∑ k ∈ Finset.range (2 ^ bits), b.getD k 0 * circle.root (!inverse) (2 ^ bits) ^ (m * k)) *
        (if inverse then 2 ^ bits else 1) = (2 ^ bits : ℕ) * a.getD m 0 := by
      rw [← hboth, Finset.sum_mul]
      refine Finset.sum_congr rfl fun k hk => ?_
      rw [hvalue k (Finset.mem_range.mp hk)]
      cases inverse with
      | true =>
        rw [if_pos rfl]
        push_cast at hn
        field_simp
      | false => simp
    have hm₁ := List.getD_eq_getElem c 0 (hclength.symm ▸ hm)
    have hm₂ := List.getD_eq_getElem a 0 hm'
    rw [← hm₁, ← hm₂, hback m hm]
    push_cast at hsum hn
    cases inverse with
    | true =>
      rw [if_pos rfl, mul_comm] at hsum
      simpa using mul_left_cancel₀ hn hsum
    | false =>
      rw [if_neg Bool.false_ne_true, mul_one] at hsum
      rw [hsum, Bool.not_false, if_pos rfl, mul_div_cancel_left₀ _ hn]

/-- The angles of the complex numbers. -/
noncomputable def complexCircle : Circle ℂ ℝ where
  turn := fun x => Complex.exp (x * (2 * Real.pi * Complex.I))
  turn_add := fun a b => by
    rw [← Complex.exp_add]
    push_cast
    ring_nf
  turn_half := by
    rw [← Complex.exp_pi_mul_I]
    congr 1
    push_cast
    ring

theorem fft_direct_complex :
    ∃ b, fftInplace complexCircle [1, Complex.I, 0, 2] true = .ok b ∧ b.length = 4 ∧
      fftInplace complexCircle b false = .ok [1, Complex.I, 0, 2] := by
  obtain ⟨b, hb, hlength, -, hback⟩ := fft_direct complexCircle 2 [1, Complex.I, 0, 2] rfl true
  exact ⟨b, hb, hlength, hback⟩

end Direct

end Phy

end OVMesh
