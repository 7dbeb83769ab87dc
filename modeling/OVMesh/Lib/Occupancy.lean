import OVMesh.Lib.Numerals

/-!
# Occupancy

Frames that last some time, with a set of active cells each. The time in which a set `B` of cells is
occupied is the total length of the frames that have an active cell in `B`.

* `occupied_mono`, `occupied_union_le`: monotone and subadditive in the cells.
* `occupied_add`: additive in the length of the frames.
* `occupied_le`: at most the total length.
-/

namespace OVMesh

namespace Occupancy

open Classical in
/-- The total length of the frames with an active cell in `B`. -/
noncomputable def occupied {ι K β : Type} [AddCommMonoid K] (frames : List ι) (seconds : ι → K)
    (cells : ι → Set β) (B : Set β) : K :=
  (frames.map fun i => if (cells i ∩ B).Nonempty then seconds i else 0).sum

section Sums

variable {ι K β : Type} [AddCommMonoid K] {frames rest : List ι} {seconds s₁ s₂ : ι → K}
  {cells : ι → Set β} {B C : Set β} {i : ι}

@[simp] theorem occupied_nil : occupied ([] : List ι) seconds cells B = 0 := rfl

theorem occupied_append : occupied (frames ++ rest) seconds cells B =
    occupied frames seconds cells B + occupied rest seconds cells B := by
  rw [occupied, List.map_append, List.sum_append]
  rfl

theorem occupied_singleton_of_nonempty (h : (cells i ∩ B).Nonempty) :
    occupied [i] seconds cells B = seconds i := by
  simp [occupied, h]

theorem occupied_singleton_of_not (h : ¬ (cells i ∩ B).Nonempty) :
    occupied [i] seconds cells B = 0 := by
  simp [occupied, h]

/-- Frames of no length. -/
theorem occupied_eq_zero (h : ∀ i ∈ frames, seconds i = 0) : occupied frames seconds cells B = 0 := by
  refine List.sum_eq_zero fun x hx => ?_
  obtain ⟨i, hi, rfl⟩ := List.mem_map.mp hx
  split
  · exact h i hi
  · rfl

/-- Each frame is cut in two. -/
theorem occupied_add (h : ∀ i ∈ frames, seconds i = s₁ i + s₂ i) :
    occupied frames seconds cells B =
      occupied frames s₁ cells B + occupied frames s₂ cells B := by
  rw [occupied, occupied, occupied, ← List.sum_map_add]
  refine congrArg List.sum (List.map_congr_left fun i hi => ?_)
  split
  · exact h i hi
  · exact (add_zero 0).symm

end Sums

section Order

variable {ι K β : Type} [AddCommMonoid K] [PartialOrder K] [IsOrderedAddMonoid K] {frames : List ι}
  {seconds : ι → K} {cells : ι → Set β} {B C : Set β}

theorem occupied_mono (hs : ∀ i ∈ frames, 0 ≤ seconds i) (h : B ⊆ C) :
    occupied frames seconds cells B ≤ occupied frames seconds cells C := by
  refine List.sum_le_sum fun i hi => ?_
  by_cases hB : (cells i ∩ B).Nonempty
  · rw [if_pos hB, if_pos (hB.mono (Set.inter_subset_inter_right _ h))]
  · rw [if_neg hB]
    split
    · exact hs i hi
    · exact le_refl 0

theorem occupied_union_le (hs : ∀ i ∈ frames, 0 ≤ seconds i) :
    occupied frames seconds cells (B ∪ C) ≤
      occupied frames seconds cells B + occupied frames seconds cells C := by
  rw [occupied, occupied, occupied, ← List.sum_map_add]
  refine List.sum_le_sum fun i hi => ?_
  have h0 := hs i hi
  rw [Set.inter_union_distrib_left, Set.union_nonempty]
  by_cases hB : (cells i ∩ B).Nonempty <;> by_cases hC : (cells i ∩ C).Nonempty
  · rw [if_pos (Or.inl hB), if_pos hB, if_pos hC]
    exact le_add_of_nonneg_right h0
  · rw [if_pos (Or.inl hB), if_pos hB, if_neg hC, add_zero]
  · rw [if_pos (Or.inr hC), if_neg hB, if_pos hC, zero_add]
  · rw [if_neg (not_or.mpr ⟨hB, hC⟩), if_neg hB, if_neg hC, add_zero]

theorem occupied_nonneg (hs : ∀ i ∈ frames, 0 ≤ seconds i) :
    0 ≤ occupied frames seconds cells B := by
  refine List.sum_nonneg fun x hx => ?_
  obtain ⟨i, hi, rfl⟩ := List.mem_map.mp hx
  split
  · exact hs i hi
  · exact le_refl 0

/-- The occupied time is at most the total time. -/
theorem occupied_le (hs : ∀ i ∈ frames, 0 ≤ seconds i) :
    occupied frames seconds cells B ≤ (frames.map seconds).sum := by
  refine List.sum_le_sum fun i hi => ?_
  split
  · exact le_refl _
  · exact hs i hi

end Order

end Occupancy

end OVMesh
