import OVMesh.Lib.Numerals

/-!
# Packed bitmaps

A bitmap is a list of bytes, least significant bit first: bit `i` is bit `i % 8` of byte `i / 8`.

* `bit_setBit`, `bit_append_left`, `bit_append_right`: how a bitmap is written and extended.
* `bit_fill`: the loop that sets the bits of a predicate in the last bytes of a bitmap.
* `countBits_fill`: how many bits that loop adds.
* `setBits`: the loop that visits the set bits of a mask. `mem_setBits`, `setBits_nodup`.
-/

namespace OVMesh

namespace Bitmap

/-- Bit `i` of the bitmap; bits behind its end are clear. -/
def bit (bytes : List ℕ) (i : ℕ) : Bool := (bytes.getD (i / 8) 0).testBit (i % 8)

/-- `bytes[i / 8] |= 1 << (i % 8)`: bit `i` is set. -/
def setBit (bytes : List ℕ) (i : ℕ) : List ℕ := bytes.modify (i / 8) (· ||| 1 <<< (i % 8))

/-- The number of set bits. -/
def countBits (bytes : List ℕ) : ℕ := (List.range (8 * bytes.length)).countP (bit bytes)

variable {bytes as bs : List ℕ} {i j n : ℕ}

@[simp] theorem length_setBit : (setBit bytes i).length = bytes.length := List.length_modify ..

theorem bit_setBit (hi : i / 8 < bytes.length) :
    bit (setBit bytes i) j = (decide (i = j) || bit bytes j) := by
  unfold bit setBit
  rw [List.getD_eq_getElem?_getD, List.getD_eq_getElem?_getD, List.getElem?_modify]
  by_cases hd : i / 8 = j / 8
  · rw [hd] at hi ⊢
    have hiff : i % 8 = j % 8 ↔ i = j := ⟨fun h => by omega, fun h => by rw [h]⟩
    rw [List.getElem?_eq_getElem hi]
    simp only [↓reduceIte, Option.map_eq_map, Option.map_some, Option.getD_some, Nat.testBit_or,
      Nat.one_shiftLeft, Nat.testBit_two_pow, hiff]
    exact Bool.or_comm _ _
  · have hne : i ≠ j := fun h => hd (by rw [h])
    simp [hd, hne]

theorem bit_append_left (h : i < 8 * as.length) : bit (as ++ bs) i = bit as i := by
  unfold bit
  rw [List.getD_eq_getElem?_getD, List.getD_eq_getElem?_getD,
    List.getElem?_append_left (by omega)]

theorem bit_append_right : bit (as ++ bs) (8 * as.length + i) = bit bs i := by
  unfold bit
  rw [List.getD_eq_getElem?_getD, List.getD_eq_getElem?_getD,
    List.getElem?_append_right (by omega),
    show (8 * as.length + i) / 8 - as.length = i / 8 by omega,
    show (8 * as.length + i) % 8 = i % 8 by omega]

theorem bit_replicate_zero : bit (List.replicate n 0) i = false := by
  unfold bit
  rw [List.getD_eq_getElem?_getD, List.getElem?_replicate]
  split <;> simp

/-- The loop that sets bit `8 * start + i` for the `i < m` with `q i`. -/
def fill (q : ℕ → Prop) [DecidablePred q] (start m : ℕ) (bytes : List ℕ) : List ℕ :=
  (List.range m).foldl (fun bytes i => if q i then setBit bytes (8 * start + i) else bytes) bytes

variable {q : ℕ → Prop} [DecidablePred q] {m start : ℕ}

theorem fill_succ : fill q start (m + 1) bytes =
    if q m then setBit (fill q start m bytes) (8 * start + m) else fill q start m bytes := by
  rw [fill, List.range_succ, List.foldl_append]
  rfl

@[simp] theorem length_fill : (fill q start m bytes).length = bytes.length := by
  induction m with
  | zero => rfl
  | succ m ih =>
    rw [fill_succ]
    split <;> simp [ih]

/-- Filling the bits of fresh bytes behind `as` keeps `as` and sets the bits of the predicate. -/
theorem bit_fill (hm : m ≤ 8 * n) : bit (fill q as.length m (as ++ List.replicate n 0)) j =
    if j < 8 * as.length then bit as j
    else decide (j - 8 * as.length < m ∧ q (j - 8 * as.length)) := by
  induction m with
  | zero =>
    show bit (as ++ List.replicate n 0) j = _
    by_cases h : j < 8 * as.length
    · rw [if_pos h, bit_append_left h]
    · obtain ⟨i, rfl⟩ := Nat.exists_eq_add_of_le (Nat.not_lt.mp h)
      rw [if_neg h, bit_append_right, bit_replicate_zero]
      simp
  | succ m ih =>
    have ih := ih (by omega)
    rw [fill_succ]
    split <;> rename_i hq
    · rw [bit_setBit (by simp; omega), ih]
      by_cases hj : 8 * as.length + m = j
      · subst hj
        simp [hq]
      · have hlt : j - 8 * as.length < m + 1 ↔ j < 8 * as.length ∨ j - 8 * as.length < m := by omega
        by_cases h : j < 8 * as.length <;> simp [hj, h, hlt]
    · rw [ih]
      by_cases hj : 8 * as.length + m = j
      · subst hj
        simp [hq]
      · have hlt : j - 8 * as.length < m + 1 ↔ j < 8 * as.length ∨ j - 8 * as.length < m := by omega
        by_cases h : j < 8 * as.length <;> simp [h, hlt]

theorem countBits_fill (hm : m ≤ 8 * n) :
    countBits (fill q as.length m (as ++ List.replicate n 0)) =
      countBits as + (List.range m).countP q := by
  unfold countBits
  rw [length_fill, List.length_append, List.length_replicate, Nat.mul_add, List.range_add,
    List.countP_append, List.countP_map]
  congr 1
  · refine List.countP_congr fun i hi => ?_
    rw [bit_fill hm, if_pos (List.mem_range.mp hi)]
  · obtain ⟨k, hk⟩ := Nat.exists_eq_add_of_le hm
    rw [hk, List.range_add, List.countP_append, List.countP_map]
    have hzero : List.countP ((bit (fill q as.length m (as ++ List.replicate n 0)) ∘
        (8 * as.length + ·)) ∘ (m + ·)) (List.range k) = 0 := by
      refine List.countP_eq_zero.mpr fun i _ => ?_
      simp only [Function.comp_apply, bit_fill hm]
      rw [if_neg (by omega)]
      simp
    rw [hzero, Nat.add_zero]
    refine List.countP_congr fun i hi => ?_
    have hi := List.mem_range.mp hi
    simp only [Function.comp_apply, bit_fill hm]
    rw [if_neg (by omega), Nat.add_sub_cancel_left]
    simp [hi]

/-! ## The set bits of a mask -/

/-- `std::countr_zero` of a number that is not zero. -/
def countrZero (m : ℕ) : ℕ := if m % 2 = 1 ∨ m = 0 then 0 else countrZero (m / 2) + 1
termination_by m
decreasing_by omega

variable {m : ℕ}

theorem testBit_countrZero (h : m ≠ 0) : m.testBit (countrZero m) = true := by
  fun_induction countrZero m with
  | case1 m hm => simpa [Nat.testBit_zero, h] using hm
  | case2 m hm ih =>
    rw [Nat.testBit_succ]
    exact ih (by omega)

/-- `m & (m - 1)` clears the lowest set bit. -/
theorem testBit_and_pred (h : m ≠ 0) :
    (m &&& (m - 1)).testBit j = (m.testBit j && decide (j ≠ countrZero m)) := by
  induction m using Nat.strongRecOn generalizing j with
  | ind m ih =>
    rw [Nat.testBit_and, countrZero]
    by_cases hodd : m % 2 = 1
    · rw [if_pos (.inl hodd)]
      cases j with
      | zero => simp [Nat.testBit_zero, show (m - 1) % 2 = 0 by omega]
      | succ j => simp [Nat.testBit_succ, show (m - 1) / 2 = m / 2 by omega]
    · rw [if_neg (by omega)]
      cases j with
      | zero => simp [Nat.testBit_zero, hodd]
      | succ j =>
        have := ih (m / 2) (by omega) (j := j) (by omega)
        rw [Nat.testBit_and] at this
        rw [Nat.testBit_succ, Nat.testBit_succ, show (m - 1) / 2 = m / 2 - 1 by omega, this]
        simp

/-- `while (mask) { bit = countr_zero(mask); …; mask &= mask - 1; }`: the bits that it visits. -/
def setBits (m : ℕ) : List ℕ :=
  if m = 0 then [] else countrZero m :: setBits (m &&& (m - 1))
termination_by m
decreasing_by
  have := Nat.and_le_right (n := m) (m := m - 1)
  omega

theorem mem_setBits : j ∈ setBits m ↔ m.testBit j = true := by
  fun_induction setBits m with
  | case1 => simp
  | case2 m hm ih =>
    rw [List.mem_cons, ih, testBit_and_pred hm, Bool.and_eq_true, decide_eq_true_eq]
    by_cases hj : j = countrZero m
    · simp [hj, testBit_countrZero hm]
    · simp [hj]

theorem setBits_nodup (m : ℕ) : (setBits m).Nodup := by
  fun_induction setBits m with
  | case1 => exact List.nodup_nil
  | case2 m hm ih =>
    refine List.nodup_cons.mpr ⟨fun h => ?_, ih⟩
    rw [mem_setBits, testBit_and_pred hm] at h
    simp at h

end Bitmap

end OVMesh
