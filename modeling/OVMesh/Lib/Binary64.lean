import OVMesh.Lib.BinaryFormat

/-!
# Rounding to binary64 and to binary32

The `double` nearest to a rational number and the `float` nearest to an element of an ordered field,
ties to even. The exponent is not bounded above: a value from `overflow` on is an infinity.

* `Binary64.nearest`: the nearest `double`, and what it keeps.
* `Binary64.nextBelow`: the value before a value.
* `Binary32.nearest`: the nearest `float`.
-/

namespace OVMesh

namespace Binary64

variable {x y : ℚ}

/-- `double`: 53 bits, and normal numbers from `2 ^ -1022` on. -/
def format : BinaryFormat := ⟨53, -1022⟩

/-- The unit in the last place. -/
def ulp (x : ℚ) : ℚ := format.ulp x

/-- The nearest value, ties to even. -/
def nearest (x : ℚ) : ℚ := format.nearest x

/-- The magnitude from which a rounded value is an infinity. -/
def overflow : ℚ := 2 ^ 1024

/-- `nextafter` towards negative infinity, of a value that is not zero. -/
def nextBelow (x : ℚ) : ℚ := if nearest (x - ulp x / 2) < x then nearest (x - ulp x / 2) else x - ulp x

@[simp] theorem nearest_zero : nearest (0 : ℚ) = 0 := BinaryFormat.nearest_zero format

/-- The error of a value below a power of two. -/
theorem abs_nearest_sub_le {n : ℤ} (hn : -1021 ≤ n) (h : |x| < 2 ^ n) :
    |nearest x - x| ≤ 2 ^ (n - 54) := by
  have hlow : format.minExponent < n := by
    change -1022 < n
    omega
  have herror := BinaryFormat.abs_nearest_sub_le hlow h
  rwa [show n - format.digits - 1 = n - 54 from Int.sub_sub n 53 1] at herror

/-- Magnitudes below a power of two stay there. -/
theorem abs_nearest_le {n : ℤ} (hn : -1021 ≤ n) (h : |x| ≤ 2 ^ n) : |nearest x| ≤ 2 ^ n :=
  BinaryFormat.abs_nearest_le (show -1022 < n by omega) (by decide) h

/-- The unit in the last place from the power of two below a value. -/
theorem nearest_eq {k n : ℤ} (hk : -1022 ≤ k) (hlow : 2 ^ k ≤ |x|) (hhigh : |x| < 2 ^ (k + 1))
    (h : |x / 2 ^ (k - 52) - n| < 1 / 2) : nearest x = n * 2 ^ (k - 52) := by
  have hdigits : k - format.digits + 1 = k - 52 := by
    change k - 53 + 1 = k - 52
    omega
  rw [← hdigits] at h ⊢
  exact BinaryFormat.nearest_eq hk hlow hhigh h

theorem nearest_nonneg (h : 0 ≤ x) : 0 ≤ nearest x := BinaryFormat.nearest_nonneg h

theorem nearest_nonpos (h : x ≤ 0) : nearest x ≤ 0 := BinaryFormat.nearest_nonpos h

theorem nearest_mono (h : x ≤ y) : nearest x ≤ nearest y := BinaryFormat.nearest_mono (by decide) h

/-- The integers of 53 bits are values. -/
theorem nearest_intCast {n : ℤ} (h : |n| < 2 ^ 53) : nearest (n : ℚ) = n :=
  BinaryFormat.nearest_intCast (by decide) h

/-- Integer bounds survive rounding. -/
theorem nearest_le_intCast {n : ℤ} (hn : |n| < 2 ^ 53) (h : x ≤ n) : nearest x ≤ n :=
  nearest_intCast hn ▸ nearest_mono h

theorem intCast_le_nearest {n : ℤ} (hn : |n| < 2 ^ 53) (h : n ≤ x) : n ≤ nearest x :=
  nearest_intCast hn ▸ nearest_mono h

/-- Values further apart than twice the error stay apart. -/
theorem nearest_lt_nearest {n : ℤ} (hn : -1021 ≤ n) (hx : |x| < 2 ^ n) (hy : |y| < 2 ^ n)
    (h : x + 2 ^ (n - 53) < y) : nearest x < nearest y := by
  have hx' := abs_le.mp (abs_nearest_sub_le hn hx)
  have hy' := abs_le.mp (abs_nearest_sub_le hn hy)
  have hhalf : (2 : ℚ) ^ (n - 53) = 2 ^ (n - 54) * 2 := by
    rw [← zpow_add_one₀ (by norm_num)]
    congr 1
    omega
  linarith

end Binary64

namespace Binary32

variable {K : Type} [Field K] [LinearOrder K] [FloorRing K] {x y : K}

/-- `float`: 24 bits, and normal numbers from `2 ^ -126` on. -/
def format : BinaryFormat := ⟨24, -126⟩

/-- The nearest value, ties to even. -/
def nearest (x : K) : K := format.nearest x

variable [IsStrictOrderedRing K]

/-- The error of a value below a power of two. -/
theorem abs_nearest_sub_le {n : ℤ} (hn : -125 ≤ n) (h : |x| < 2 ^ n) :
    |nearest x - x| ≤ 2 ^ (n - 25) := by
  have hlow : format.minExponent < n := by
    change -126 < n
    omega
  have herror := BinaryFormat.abs_nearest_sub_le hlow h
  rwa [show n - format.digits - 1 = n - 25 from Int.sub_sub n 24 1] at herror

theorem nearest_mono (h : x ≤ y) : nearest x ≤ nearest y := BinaryFormat.nearest_mono (by decide) h

/-- The integers of 24 bits are values. -/
theorem nearest_intCast {n : ℤ} (h : |n| < 2 ^ 24) : nearest (n : K) = n :=
  BinaryFormat.nearest_intCast (by decide) h

/-- Integer bounds survive rounding. -/
theorem nearest_le_intCast {n : ℤ} (hn : |n| < 2 ^ 24) (h : x ≤ n) : nearest x ≤ n :=
  nearest_intCast (K := K) hn ▸ nearest_mono h

theorem intCast_le_nearest {n : ℤ} (hn : |n| < 2 ^ 24) (h : n ≤ x) : n ≤ nearest x :=
  nearest_intCast (K := K) hn ▸ nearest_mono h

end Binary32

end OVMesh
