import OVMesh.Lib.Numerals

/-!
# Rounding half away from zero

`lround` and `llround` of the C++ library on the values of an ordered field.

* `lround`: the nearest integer, ties away from zero.
* `abs_lround_sub_le`: the error is at most a half.
* `lround_mono`, `lround_intCast`: it is monotone and fixes the integers, so it keeps integer bounds.
-/

namespace OVMesh

variable {K : Type} [Field K] [LinearOrder K] [IsStrictOrderedRing K] [FloorRing K] {x y : K}

/-- `lround`, for a value whose rounding is representable. -/
def lround (x : K) : ℤ := if 0 ≤ x then ⌊x + 1 / 2⌋ else -⌊-x + 1 / 2⌋

theorem abs_lround_sub_le (x : K) : |(lround x : K) - x| ≤ 1 / 2 := by
  rw [abs_le, lround]
  split
  · have h₁ := Int.floor_le (x + 1 / 2)
    have h₂ := Int.lt_floor_add_one (x + 1 / 2)
    constructor <;> linarith
  · have h₁ := Int.floor_le (-x + 1 / 2)
    have h₂ := Int.lt_floor_add_one (-x + 1 / 2)
    push_cast
    constructor <;> linarith

@[simp] theorem lround_intCast (n : ℤ) : lround (n : K) = n := by
  have h := abs_le.mp (abs_lround_sub_le (n : K))
  have h₁ : (lround (n : K) : K) < ((n + 1 : ℤ) : K) := by push_cast; linarith [h.2]
  have h₂ : ((n - 1 : ℤ) : K) < (lround (n : K) : K) := by push_cast; linarith [h.1]
  have h₁' := Int.cast_lt.mp h₁
  have h₂' := Int.cast_lt.mp h₂
  omega

theorem lround_nonneg (h : 0 ≤ x) : 0 ≤ lround x := by
  rw [lround, if_pos h]
  exact Int.floor_nonneg.mpr (by linarith)

theorem lround_nonpos (h : x ≤ 0) : lround x ≤ 0 := by
  by_cases h0 : 0 ≤ x
  · have : x = ((0 : ℤ) : K) := by rw [Int.cast_zero]; exact le_antisymm h h0
    rw [this, lround_intCast]
  · rw [lround, if_neg h0, neg_nonpos]
    exact Int.floor_nonneg.mpr (by linarith)

theorem lround_mono (h : x ≤ y) : lround x ≤ lround y := by
  by_cases hx : 0 ≤ x
  · rw [lround, lround, if_pos hx, if_pos (hx.trans h)]
    exact Int.floor_mono (by linarith)
  · by_cases hy : 0 ≤ y
    · exact (lround_nonpos (not_le.mp hx).le).trans (lround_nonneg hy)
    · rw [lround, lround, if_neg hx, if_neg hy, neg_le_neg_iff]
      exact Int.floor_mono (by linarith)

/-- Integer bounds survive rounding. -/
theorem le_lround {n : ℤ} (h : (n : K) ≤ x) : n ≤ lround x := by
  rw [← lround_intCast (K := K) n]
  exact lround_mono h

theorem lround_le {n : ℤ} (h : x ≤ (n : K)) : lround x ≤ n := by
  rw [← lround_intCast (K := K) n]
  exact lround_mono h

end OVMesh
