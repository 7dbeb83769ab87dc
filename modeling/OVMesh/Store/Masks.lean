import OVMesh.Lib.Bitmap

/-!
# Activity masks

The loop of the readers over the activity bytes of one frame: the bytes that hold the bins from
`first` to `last - 1`, with the bits of other bins masked out of the first and the last one.

* `maskedByte`, `maskBytes`: one byte, and the bytes of the loop.
* `visitedBins`: the bins that the loop visits. `mem_visitedBins`: those with their bit set.
-/

namespace OVMesh

/-- One byte of the activity of a frame, without the bits outside `first … last - 1`. -/
def maskedByte (activity : List ℕ) (offset first last byte : ℕ) : ℕ :=
  let mask := activity.getD (offset + byte) 0
  let mask := if byte = first / 8 then mask &&& 0xff <<< (first % 8) else mask
  if byte = (last - 1) / 8 ∧ last % 8 ≠ 0 then mask &&& (1 <<< (last % 8) - 1) else mask

/-- The bytes of the selected bins. -/
def maskBytes (first last : ℕ) : List ℕ :=
  List.range' (first / 8) ((last - 1) / 8 + 1 - first / 8)

/-- The bins that the loop visits: the set bits of the masked bytes. -/
def visitedBins (activity : List ℕ) (offset first last : ℕ) : List ℕ :=
  (maskBytes first last).flatMap fun byte =>
    (Bitmap.setBits (maskedByte activity offset first last byte)).map (byte * 8 + ·)

/-- Every element of the list is a byte. -/
def AreBytes (bytes : List ℕ) : Prop := ∀ byte ∈ bytes, byte < 256

instance (bytes : List ℕ) : Decidable (AreBytes bytes) :=
  inferInstanceAs (Decidable (∀ byte ∈ bytes, byte < 256))

variable {activity : List ℕ} {offset first last byte j b : ℕ}

theorem AreBytes.testBit (h : AreBytes activity) (hj : 8 ≤ j) :
    (activity.getD offset 0).testBit j = false := by
  refine Nat.testBit_lt_two_pow ?_
  have hpow : 2 ^ 8 ≤ 2 ^ j := Nat.pow_le_pow_right (by decide) hj
  rw [List.getD_eq_getElem?_getD]
  cases hg : activity[offset]? with
  | none => exact Nat.two_pow_pos j
  | some x => exact Nat.lt_of_lt_of_le (h x (List.mem_of_getElem? hg)) hpow

theorem AreBytes.setBit (h : AreBytes activity) : AreBytes (Bitmap.setBit activity b) := by
  intro byte hbyte
  rw [Bitmap.setBit, List.mem_iff_getElem?] at hbyte
  obtain ⟨i, hi⟩ := hbyte
  rw [List.getElem?_modify] at hi
  obtain ⟨x, hx, rfl⟩ := Option.map_eq_some_iff.mp hi
  have hlt := h x (List.mem_of_getElem? hx)
  split
  · have hbit : 1 <<< (b % 8) < 2 ^ 8 := by
      rw [Nat.one_shiftLeft]
      exact Nat.pow_lt_pow_right (by decide) (by omega)
    exact Nat.or_lt_two_pow hlt hbit
  · exact hlt

theorem areBytes_replicate_zero {n : ℕ} : AreBytes (List.replicate n 0) := fun byte h => by
  rw [List.eq_of_mem_replicate h]
  decide

/-- What the two masks leave of a byte. -/
theorem testBit_maskedByte_iff : (maskedByte activity offset first last byte).testBit j = true ↔
    (activity.getD (offset + byte) 0).testBit j = true ∧
      (byte = first / 8 → first % 8 ≤ j ∧ j < first % 8 + 8) ∧
      (byte = (last - 1) / 8 ∧ last % 8 ≠ 0 → j < last % 8) := by
  have hlow : ∀ m : ℕ, (m &&& 0xff <<< (first % 8)).testBit j = true ↔
      m.testBit j = true ∧ first % 8 ≤ j ∧ j < first % 8 + 8 := fun m => by
    rw [Nat.testBit_and, Nat.testBit_shiftLeft, show 0xff = 2 ^ 8 - 1 by rfl,
      Nat.testBit_two_pow_sub_one, Bool.and_eq_true, Bool.and_eq_true, decide_eq_true_eq,
      decide_eq_true_eq]
    exact and_congr_right fun _ => ⟨fun h => ⟨h.1, by omega⟩, fun h => ⟨h.1, by omega⟩⟩
  have hhigh : ∀ m : ℕ, (m &&& (1 <<< (last % 8) - 1)).testBit j = true ↔
      m.testBit j = true ∧ j < last % 8 := fun m => by
    rw [Nat.testBit_and, Nat.one_shiftLeft, Nat.testBit_two_pow_sub_one, Bool.and_eq_true,
      decide_eq_true_eq]
  unfold maskedByte
  by_cases hfirst : byte = first / 8 <;> by_cases hend : byte = (last - 1) / 8 ∧ last % 8 ≠ 0
  · rw [if_pos hend, if_pos hfirst, hhigh, hlow, and_assoc, imp_iff_right hfirst, imp_iff_right hend]
  · rw [if_neg hend, if_pos hfirst, hlow, imp_iff_right hfirst, iff_true_intro (fun h => absurd h hend),
      and_true]
  · rw [if_pos hend, if_neg hfirst, hhigh, imp_iff_right hend, iff_true_intro fun h => absurd h hfirst,
      true_and]
  · rw [if_neg hend, if_neg hfirst, iff_true_intro fun h => absurd h hfirst,
      iff_true_intro fun h => absurd h hend, and_true, and_true]

/-- The bits of a masked byte are those of the selected bins. -/
theorem testBit_maskedByte (h : AreBytes activity) (hlt : first < last)
    (hbyte : byte ∈ maskBytes first last) :
    (maskedByte activity offset first last byte).testBit j = true ↔
      j < 8 ∧ first ≤ byte * 8 + j ∧ byte * 8 + j < last ∧
        (activity.getD (offset + byte) 0).testBit j = true := by
  rw [maskBytes, List.mem_range'_1] at hbyte
  rw [testBit_maskedByte_iff]
  constructor
  · rintro ⟨hbit, hfirst, hend⟩
    have hj : j < 8 := by
      by_contra hj
      rw [h.testBit (by omega)] at hbit
      cases hbit
    refine ⟨hj, ?_, ?_, hbit⟩
    · by_cases hb : byte = first / 8
      · have := hfirst hb
        omega
      · omega
    · by_cases hb : byte = (last - 1) / 8 ∧ last % 8 ≠ 0
      · have := hend hb
        omega
      · omega
  · rintro ⟨hj, hfirst, hend, hbit⟩
    exact ⟨hbit, fun hb => by omega, fun hb => by omega⟩

/-- The loop visits the set bits of the selected bins. -/
theorem mem_visitedBins (h : AreBytes activity) (hlt : first < last) :
    b ∈ visitedBins activity offset first last ↔
      first ≤ b ∧ b < last ∧ Bitmap.bit activity (8 * offset + b) = true := by
  rw [visitedBins, List.mem_flatMap, Bitmap.bit, show (8 * offset + b) / 8 = offset + b / 8 by omega,
    show (8 * offset + b) % 8 = b % 8 by omega]
  constructor
  · rintro ⟨byte, hbyte, hb⟩
    obtain ⟨j, hj, rfl⟩ := List.mem_map.mp hb
    rw [Bitmap.mem_setBits, testBit_maskedByte h hlt hbyte] at hj
    rw [show (byte * 8 + j) / 8 = byte by omega, show (byte * 8 + j) % 8 = j by omega]
    exact hj.2
  · rintro ⟨hfirst, hend, hbit⟩
    have hbyte : b / 8 ∈ maskBytes first last := by
      rw [maskBytes, List.mem_range'_1]
      omega
    refine ⟨b / 8, hbyte, List.mem_map.mpr ⟨b % 8, ?_, by omega⟩⟩
    rw [Bitmap.mem_setBits, testBit_maskedByte h hlt hbyte]
    exact ⟨by omega, by omega, by omega, hbit⟩

theorem visitedBins_nodup (h : AreBytes activity) (hlt : first < last) :
    (visitedBins activity offset first last).Nodup := by
  refine List.nodup_flatMap.mpr ⟨fun byte _ => ?_, ?_⟩
  · exact (Bitmap.setBits_nodup _).map fun i j hij => by simpa using hij
  · refine (List.nodup_range' (s := first / 8)).imp_of_mem fun {a c} ha hc hne => ?_
    rw [Function.onFun, List.disjoint_left]
    intro x hx hx'
    obtain ⟨i, hi, rfl⟩ := List.mem_map.mp hx
    obtain ⟨j, hj, heq⟩ := List.mem_map.mp hx'
    rw [Bitmap.mem_setBits, testBit_maskedByte h hlt ha] at hi
    rw [Bitmap.mem_setBits, testBit_maskedByte h hlt hc] at hj
    omega

end OVMesh
