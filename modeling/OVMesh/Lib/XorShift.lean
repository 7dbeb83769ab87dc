import OVMesh.Lib.Numerals

/-!
# Xor shifts

The words `x ^ (x >> k)`. The shifts of a word commute, and doing one twice shifts twice as far, so
a chain of doubling shifts undoes the first one. Gray codes are the case of a shift by one.

* `xorShift`, `xorShift_comm`, `xorShift_xorShift`: the algebra of the shifts.
* `xorShift_doubling`: the loop `for (k = 1; k < 2 ^ n; k *= 2) x ^= x >> k` inverts `x ^ (x >> 1)`.
* `toNat_xorShift_lt`: a shift keeps the width of a word.
-/

namespace OVMesh

namespace XorShift

variable {w : ℕ}

/-- `x ^ (x >> k)`: a Gray code when `k` is one. -/
def xorShift (k : ℕ) (x : BitVec w) : BitVec w := x ^^^ x >>> k

theorem xorShift_comm (j k : ℕ) (x : BitVec w) :
    xorShift j (xorShift k x) = xorShift k (xorShift j x) := by
  simp only [xorShift, BitVec.ushiftRight_xor_distrib, ← BitVec.shiftRight_add, Nat.add_comm k j]
  rw [BitVec.xor_assoc, BitVec.xor_assoc, ← BitVec.xor_assoc (x >>> k),
    BitVec.xor_comm (x >>> k), BitVec.xor_assoc]

theorem xorShift_xorShift (k : ℕ) (x : BitVec w) :
    xorShift k (xorShift k x) = xorShift (2 * k) x := by
  simp only [xorShift, BitVec.ushiftRight_xor_distrib, ← BitVec.shiftRight_add, Nat.two_mul]
  rw [BitVec.xor_assoc, ← BitVec.xor_assoc (x >>> k), BitVec.xor_self, BitVec.zero_xor]

theorem xorShift_of_le {k : ℕ} (h : w ≤ k) (x : BitVec w) : xorShift k x = x := by
  rw [xorShift, BitVec.ushiftRight_eq_zero h, BitVec.xor_zero]

/-- The shifts by `1, 2, 4, …`, each of the word before it. -/
def doubling : ℕ → BitVec w → BitVec w
  | 0, x => x
  | n + 1, x => xorShift (2 ^ n) (doubling n x)

/-- One more shift by one, of a word or of the result, is a shift by the next power. -/
theorem xorShift_doubling (n : ℕ) (x : BitVec w) :
    xorShift 1 (doubling n x) = xorShift (2 ^ n) x := by
  induction n with
  | zero => rfl
  | succ n ih =>
    rw [doubling, xorShift_comm, ih, xorShift_xorShift, pow_succ, Nat.mul_comm]

/-- Enough doublings invert the shift by one. -/
theorem xorShift_one_doubling {n : ℕ} (h : w ≤ 2 ^ n) (x : BitVec w) :
    xorShift 1 (doubling n x) = x := by
  rw [xorShift_doubling, xorShift_of_le h]

theorem toNat_xorShift_lt {n k : ℕ} {x : BitVec w} (h : x.toNat < 2 ^ n) :
    (xorShift k x).toNat < 2 ^ n := by
  rw [xorShift, BitVec.toNat_xor, BitVec.toNat_ushiftRight]
  apply Nat.xor_lt_two_pow h
  exact Nat.lt_of_le_of_lt (Nat.shiftRight_le _ _) h

theorem toNat_doubling_lt {n m : ℕ} {x : BitVec w} (h : x.toNat < 2 ^ m) :
    (doubling n x).toNat < 2 ^ m := by
  induction n with
  | zero => exact h
  | succ n ih => exact toNat_xorShift_lt ih

end XorShift

end OVMesh
