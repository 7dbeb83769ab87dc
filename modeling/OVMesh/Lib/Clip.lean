import OVMesh.Lib.Numerals

/-!
# Clipped intervals

The length of the part of `[a, b]` that lies in the window `[lo, hi]`.

* `overlap_add_left`, `overlap_add_right`: an interval, or a window, that is cut in two.
* `sum_overlap`: consecutive intervals of one length.
* `overlap_of_lt`, `overlap_of_le`: a loop that clips both ends and skips what is empty.
-/

namespace OVMesh

namespace Clip

variable {K : Type} [Field K] [LinearOrder K]

/-- The length of the part of `[a, b]` in `[lo, hi]`. -/
def overlap (a b lo hi : K) : K := max 0 (min b hi - max a lo)

variable {a b c lo mid hi : K}

theorem overlap_nonneg : 0 ≤ overlap a b lo hi := le_max_left _ _

theorem overlap_swap : overlap a b lo hi = overlap lo hi a b := by
  rw [overlap, overlap, min_comm, max_comm a lo]

variable [IsStrictOrderedRing K]

/-- An interval is cut in two. -/
theorem overlap_add_left (hab : a ≤ b) (hbc : b ≤ c) :
    overlap a b lo hi + overlap b c lo hi = overlap a c lo hi := by
  unfold overlap
  rcases le_total b lo with h₁ | h₁ <;> rcases le_total b hi with h₂ | h₂
  · rw [max_eq_right (hab.trans h₁), max_eq_right h₁, min_eq_left h₂,
      max_eq_left (sub_nonpos.mpr h₁), zero_add]
  · rw [max_eq_right (hab.trans h₁), max_eq_right h₁, min_eq_right h₂, min_eq_right (h₂.trans hbc),
      max_eq_left (sub_nonpos.mpr (h₂.trans h₁)), zero_add]
  · rw [max_eq_left h₁, min_eq_left h₂, max_eq_right (sub_nonneg.mpr (max_le hab h₁)),
      max_eq_right (sub_nonneg.mpr (le_min hbc h₂)),
      max_eq_right (sub_nonneg.mpr ((max_le hab h₁).trans (le_min hbc h₂)))]
    ring
  · rw [max_eq_left h₁, min_eq_right h₂, min_eq_right (h₂.trans hbc),
      max_eq_left (sub_nonpos.mpr h₂), add_zero]

/-- A window is cut in two. -/
theorem overlap_add_right (h₁ : lo ≤ mid) (h₂ : mid ≤ hi) :
    overlap a b lo mid + overlap a b mid hi = overlap a b lo hi := by
  rw [← overlap_swap (a := lo) (b := mid), ← overlap_swap (a := mid) (b := hi),
    ← overlap_swap (a := lo) (b := hi), overlap_add_left h₁ h₂]

/-- Consecutive intervals of length `d`. -/
theorem sum_overlap {d : K} (hd : 0 ≤ d) (n : ℕ) :
    ((List.range n).map fun i : ℕ => overlap (a + i * d) (a + (i + 1 : ℕ) * d) lo hi).sum =
      overlap a (a + n * d) lo hi := by
  induction n with
  | zero =>
    rw [List.range_zero, List.map_nil, List.sum_nil, overlap, Nat.cast_zero, zero_mul, add_zero]
    exact (max_eq_left (sub_nonpos.mpr ((min_le_left _ _).trans (le_max_left _ _)))).symm
  | succ n ih =>
    have hn : (0 : K) ≤ n * d := mul_nonneg n.cast_nonneg hd
    rw [List.range_succ, List.map_append, List.sum_append, ih, List.map_singleton,
      List.sum_singleton, overlap_add_left (by linarith)]
    push_cast
    linarith

theorem overlap_of_lt (h : max a lo < min b hi) : overlap a b lo hi = min b hi - max a lo :=
  max_eq_right (sub_nonneg.mpr h.le)

theorem overlap_of_le (h : min b hi ≤ max a lo) : overlap a b lo hi = 0 :=
  max_eq_left (sub_nonpos.mpr h)

end Clip

end OVMesh
