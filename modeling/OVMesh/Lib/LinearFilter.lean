import OVMesh.Lib.Numerals

/-!
# Linear filters

Sequences of values that begin with zero history, and the filters whose weights are the coefficients of
a polynomial.

* `filter`: the output of a filter. `filter_filter`: one filter after another is their product.
* `window`, `window_succ`: the sum of the newest values, and how it moves. `window_eq_sum`, `filter_box`.
* `spread`: weights some places apart. `filter_spread`.
* `Palindromic`: the weights read the same from both ends. `Palindromic.mul`, `Palindromic.spread`.
-/

namespace OVMesh

namespace LinearFilter

open Polynomial

variable {K : Type} [CommRing K]

/-- The output of the filter for a sequence, which is zero before its beginning. -/
noncomputable def filter (p : K[X]) (y : ℕ → K) (n : ℕ) : K :=
  ∑ i ∈ Finset.range (n + 1), p.coeff i * y (n - i)

/-- The sum of the `c` newest of the first `n` values. -/
def window (c : ℕ) (y : ℕ → K) (n : ℕ) : K :=
  ∑ i ∈ Finset.range c, if i < n then y (n - 1 - i) else 0

/-- The weights `c` places apart, from 0 to `d`. -/
noncomputable def spread (c d : ℕ) (taps : ℕ → K) : K[X] :=
  ∑ i ∈ Finset.range (d + 1), C (taps i) * X ^ (c * i)

variable {p q : K[X]} {y : ℕ → K} {c d n : ℕ}

theorem filter_eq_coeff : filter p y n = PowerSeries.coeff n ((p : PowerSeries K) * PowerSeries.mk y) := by
  rw [PowerSeries.coeff_mul, Finset.Nat.sum_antidiagonal_eq_sum_range_succ_mk, filter]
  simp

theorem mk_filter : PowerSeries.mk (filter p y) = (p : PowerSeries K) * PowerSeries.mk y := by
  ext n
  rw [PowerSeries.coeff_mk, filter_eq_coeff]

/-- **Composition.** One filter after another has the product of the weights. -/
theorem filter_filter : filter p (filter q y) = filter (p * q) y := by
  funext n
  rw [filter_eq_coeff, mk_filter, filter_eq_coeff, Polynomial.coe_mul, mul_assoc]

/-- A filter takes no more values than its weights. -/
theorem filter_eq_sum (hdegree : p.natDegree ≤ d) (hd : d ≤ n) :
    filter p y n = ∑ i ∈ Finset.range (d + 1), p.coeff i * y (n - i) := by
  rw [filter]
  refine (Finset.sum_subset (by simpa using hd) fun i _ hi => ?_).symm
  have hlt : p.natDegree < i := by
    simp at hi
    omega
  rw [Polynomial.coeff_eq_zero_of_natDegree_lt hlt, zero_mul]

theorem filter_C_mul (a : K) : filter (C a * p) y n = a * filter p y n := by
  simp [filter, Finset.mul_sum, mul_assoc]

/-! ## Windows -/

@[simp] theorem window_zero : window c y 0 = 0 := by simp [window]

/-- The next window has the next value, and not the one that is a length older. -/
theorem window_succ : window c y n + (y n - if c ≤ n then y (n - c) else 0) = window c y (n + 1) := by
  have hshift : window c y n = ∑ i ∈ Finset.range c, if i + 1 < n + 1 then y (n - (i + 1)) else 0 := by
    refine Finset.sum_congr rfl fun i _ => ?_
    rw [Nat.sub_sub, Nat.add_comm 1 i]
    simp
  have hboth := Finset.sum_range_succ' (fun i => if i < n + 1 then y (n - i) else 0) c
  rw [Finset.sum_range_succ, if_pos n.succ_pos] at hboth
  have hlast : (if c < n + 1 then y (n - c) else 0) = if c ≤ n then y (n - c) else 0 := by
    simp
  rw [hlast, ← hshift, Nat.sub_zero] at hboth
  rw [window.eq_def c y (n + 1), Nat.add_sub_cancel]
  linear_combination -hboth

/-- A window of values that are all there, the oldest first. -/
theorem window_eq_sum (h : c ≤ n) : window c y n = ∑ i ∈ Finset.range c, y (n - c + i) := by
  rw [window, ← Finset.sum_range_reflect]
  refine Finset.sum_congr rfl fun i hi => ?_
  have hi := Finset.mem_range.mp hi
  have hindex : n - 1 - (c - 1 - i) = n - c + i := by omega
  rw [if_pos (by omega), hindex]

theorem window_congr {y' : ℕ → K} (h : ∀ j < n, y j = y' j) : window c y n = window c y' n := by
  refine Finset.sum_congr rfl fun i _ => ?_
  split_ifs with hi
  · exact h _ (by omega)
  · rfl

/-- The moving sum as a filter. -/
theorem filter_box : filter (∑ i ∈ Finset.range c, X ^ i) y n = window c y (n + 1) := by
  rw [filter, window]
  simp only [Polynomial.finsetSum_coeff, Polynomial.coeff_X_pow, Finset.sum_ite_eq,
    Finset.mem_range, ite_mul, one_mul, zero_mul]
  rw [← Finset.sum_filter, ← Finset.sum_filter]
  refine Finset.sum_congr ?_ fun _ _ => rfl
  ext i
  simp only [Finset.mem_filter, Finset.mem_range]
  omega

/-! ## Palindromic weights -/

/-- The weights from 0 to `d` read the same from both ends, and there are no others. -/
structure Palindromic (d : ℕ) (p : K[X]) : Prop where
  degree : p.natDegree ≤ d
  reflect : p.reflect d = p

theorem Palindromic.coeff (h : Palindromic d p) {i : ℕ} (hi : i ≤ d) : p.coeff (d - i) = p.coeff i := by
  conv_lhs => rw [← h.reflect]
  rw [Polynomial.coeff_reflect, Polynomial.revAt_le (Nat.sub_le _ _), Nat.sub_sub_self hi]

theorem Palindromic.mul {e : ℕ} (hp : Palindromic d p) (hq : Palindromic e q) : Palindromic (d + e) (p * q) :=
  ⟨Polynomial.natDegree_mul_le.trans (Nat.add_le_add hp.degree hq.degree), by
    rw [Polynomial.reflect_mul p q hp.degree hq.degree, hp.reflect, hq.reflect]⟩

theorem palindromic_C (a : K) : Palindromic 0 (C a) :=
  ⟨by simp, by simp⟩

/-- Palindromic weights `c` places apart. -/
theorem Palindromic.spread {taps : ℕ → K} (h : ∀ i ≤ d, taps (d - i) = taps i) :
    Palindromic (c * d) (spread c d taps) := by
  unfold LinearFilter.spread
  refine ⟨?_, ?_⟩
  · refine Polynomial.natDegree_sum_le_of_forall_le _ _ fun i hi => ?_
    have hle : c * i ≤ c * d := Nat.mul_le_mul_left c (by simpa [Nat.lt_succ_iff] using hi)
    exact (Polynomial.natDegree_C_mul_X_pow_le _ _).trans hle
  · have hsum : ∀ s : Finset ℕ, (∑ i ∈ s, C (taps i) * X ^ (c * i)).reflect (c * d) =
        ∑ i ∈ s, (C (taps i) * X ^ (c * i)).reflect (c * d) := by
      intro s
      induction s using Finset.induction_on with
      | empty => simp
      | insert i s hi ih => rw [Finset.sum_insert hi, Finset.sum_insert hi, Polynomial.reflect_add, ih]
    rw [hsum, ← Finset.sum_range_reflect]
    refine Finset.sum_congr rfl fun i hi => ?_
    have hi : i ≤ d := by simpa [Nat.lt_succ_iff] using hi
    rw [Polynomial.reflect_C_mul_X_pow, Polynomial.revAt_le (Nat.mul_le_mul_left c (by omega)),
      ← Nat.mul_sub]
    have hindex : d - (d + 1 - 1 - i) = i := by omega
    rw [hindex, Nat.add_sub_cancel, h i hi]

/-- The weights of a moving sum. -/
theorem palindromic_box (hc : 0 < c) :
    Palindromic (c - 1) (∑ i ∈ Finset.range c, (X : K[X]) ^ i) := by
  have h := @Palindromic.spread K _ 1 (c - 1) (fun _ => 1) fun _ _ => rfl
  rw [LinearFilter.spread, Nat.sub_add_cancel hc, Nat.one_mul] at h
  simpa using h

/-- The filter with weights `c` places apart. -/
theorem filter_spread {taps : ℕ → K} (hn : c * d ≤ n) :
    filter (spread c d taps) y n = ∑ i ∈ Finset.range (d + 1), taps i * y (n - c * i) := by
  rw [filter, spread]
  simp only [Polynomial.finsetSum_coeff, Polynomial.coeff_C_mul_X_pow, Finset.sum_mul]
  rw [Finset.sum_comm]
  refine Finset.sum_congr rfl fun i hi => ?_
  have hle : c * i ≤ n :=
    (Nat.mul_le_mul_left c (by simpa [Nat.lt_succ_iff] using hi)).trans hn
  simp only [ite_mul, zero_mul]
  rw [Finset.sum_ite_eq' (Finset.range (n + 1)) (c * i), if_pos (by simp; omega)]

end LinearFilter

end OVMesh
