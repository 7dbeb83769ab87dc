import OVMesh.Lib.Numerals

/-!
# Numbers as bytes

The two forms of a number in a binary format, the lowest digits first: with as many digits to the
base 128 as it needs, where every byte but the last has its high bit set, and with a fixed number of
digits to the base 256.

* `Varint.encode`: the digits to the base 128.
* `LittleEndian.encode`, `LittleEndian.value`: the digits to the base 256, and their number.
* `LittleEndian.value_encode`, `LittleEndian.encode_value`: each is the other's inverse.
-/

namespace OVMesh

namespace Varint

/-- The shortest form of a number to the base 128. -/
def encode (n : ℕ) : List UInt8 :=
  if n < 128 then [UInt8.ofNat n] else UInt8.ofNat (n % 128 + 128) :: encode (n / 128)
termination_by n

theorem encode_of_lt {n : ℕ} (h : n < 128) : encode n = [UInt8.ofNat n] := by
  rw [encode, if_pos h]

theorem encode_of_le {n : ℕ} (h : 128 ≤ n) :
    encode n = UInt8.ofNat (n % 128 + 128) :: encode (n / 128) := by
  rw [encode, if_neg (not_lt.mpr h)]

theorem encode_ne_nil (n : ℕ) : encode n ≠ [] := by
  rw [encode]
  split
  · exact List.cons_ne_nil _ _
  · exact List.cons_ne_nil _ _

end Varint

namespace LittleEndian

/-- A number to the base 256, with `k` digits. -/
def encode : ℕ → ℕ → List UInt8
  | 0, _ => []
  | k + 1, n => UInt8.ofNat n :: encode k (n / 256)

/-- The number with these bytes, from the lowest one on. -/
def value (bytes : List UInt8) : ℕ := bytes.foldr (fun b n => b.toNat + 256 * n) 0

@[simp] theorem value_nil : value [] = 0 := rfl

@[simp] theorem value_cons (b : UInt8) (bytes : List UInt8) :
    value (b :: bytes) = b.toNat + 256 * value bytes := rfl

@[simp] theorem length_encode (k n : ℕ) : (encode k n).length = k := by
  induction k generalizing n with
  | zero => rfl
  | succ k ih => rw [encode, List.length_cons, ih]

theorem value_encode {k n : ℕ} (h : n < 256 ^ k) : value (encode k n) = n := by
  induction k generalizing n with
  | zero =>
    rw [Nat.pow_zero] at h
    rw [encode, value_nil]
    omega
  | succ k ih =>
    have hdiv : n / 256 < 256 ^ k := by
      rw [Nat.div_lt_iff_lt_mul (by decide)]
      rwa [Nat.pow_succ] at h
    rw [encode, value_cons, ih hdiv, UInt8.toNat_ofNat']
    omega

theorem encode_value (bytes : List UInt8) : encode bytes.length (value bytes) = bytes := by
  induction bytes with
  | nil => rfl
  | cons b bytes ih =>
    have hb := b.toNat_lt
    have hdiv : (b.toNat + 256 * value bytes) / 256 = value bytes := by omega
    have hfirst : UInt8.ofNat (b.toNat + 256 * value bytes) = b := by
      rw [← UInt8.toNat_inj, UInt8.toNat_ofNat']
      omega
    rw [List.length_cons, value_cons, encode, hdiv, ih, hfirst]

theorem value_lt (bytes : List UInt8) : value bytes < 256 ^ bytes.length := by
  induction bytes with
  | nil => decide
  | cons b bytes ih =>
    have hb := b.toNat_lt
    rw [value_cons, List.length_cons, Nat.pow_succ]
    omega

end LittleEndian

end OVMesh
