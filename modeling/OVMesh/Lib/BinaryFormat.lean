import OVMesh.Lib.Numerals

/-!
# Rounding to a binary format

The value of a binary floating point format nearest to an element of an ordered field, ties to even. The
exponent is not bounded above.

* `roundEven`: the nearest integer, ties to even.
* `BinaryFormat`: the digits and the least exponent. `ulp`, `nearest`: the unit in the last place and the
  nearest value.
* `nearest_mono`, `nearest_intCast`: it is monotone and fixes the integers of so many digits.
* `abs_nearest_sub_le`: the error of a value below a power of two.
* `IsValue.sub`, `le_nearest_iff_of_le`: what is exact, and what rounds up.
-/

namespace OVMesh

/-- A binary format: the digits of its values, and the exponent of the least normal one. -/
structure BinaryFormat where
  digits : ℕ
  minExponent : ℤ

namespace BinaryFormat

variable {K : Type} [Field K] [LinearOrder K] [IsStrictOrderedRing K] [FloorRing K] {x y : K}

/-! ## Integers -/

/-- The nearest integer, ties to even. -/
def roundEven (x : K) : ℤ :=
  if Int.fract x < 1 / 2 ∨ (Int.fract x = 1 / 2 ∧ ⌊x⌋ % 2 = 0) then ⌊x⌋ else ⌊x⌋ + 1

theorem abs_roundEven_sub_le (x : K) : |(roundEven x : K) - x| ≤ 1 / 2 := by
  have hfract := Int.self_sub_floor x
  have h1 := Int.fract_lt_one x
  have h0 := Int.fract_nonneg x
  rw [abs_le, roundEven]
  split <;> rename_i h
  · have : Int.fract x ≤ 1 / 2 := h.elim le_of_lt fun h => h.1.le
    constructor <;> linarith
  · have : 1 / 2 ≤ Int.fract x := not_lt.mp fun hlt => h (.inl hlt)
    push_cast
    constructor <;> linarith

/-- The only integer within half a unit. -/
theorem roundEven_eq {n : ℤ} (h : |x - n| < 1 / 2) : roundEven x = n := by
  have hround := abs_le.mp (abs_roundEven_sub_le x)
  have hn := abs_lt.mp h
  have h1 : (roundEven x : K) < ((n + 1 : ℤ) : K) := by push_cast; linarith
  have h2 : ((n - 1 : ℤ) : K) < (roundEven x : K) := by push_cast; linarith
  have h1' := Int.cast_lt.mp h1
  have h2' := Int.cast_lt.mp h2
  omega

@[simp] theorem roundEven_intCast (n : ℤ) : roundEven (n : K) = n :=
  roundEven_eq (by rw [sub_self, abs_zero]; norm_num)

theorem roundEven_mono (h : x ≤ y) : roundEven x ≤ roundEven y := by
  rcases h.eq_or_lt with rfl | hlt
  · exact le_rfl
  · have hx := abs_le.mp (abs_roundEven_sub_le x)
    have hy := abs_le.mp (abs_roundEven_sub_le y)
    have : (roundEven x : K) < ((roundEven y + 1 : ℤ) : K) := by push_cast; linarith
    have := Int.cast_lt.mp this
    omega

/-- A tie goes up to an even integer. -/
theorem le_roundEven_iff {m : ℤ} (hm : Even m) : m ≤ roundEven x ↔ (m : K) - 1 / 2 ≤ x := by
  constructor
  · intro h
    have hround := abs_le.mp (abs_roundEven_sub_le x)
    have : (m : K) ≤ (roundEven x : K) := Int.cast_le.mpr h
    linarith
  · intro h
    have hfloor : ⌊(m : K) - 1 / 2⌋ = m - 1 := by
      rw [Int.floor_eq_iff]
      push_cast
      constructor <;> linarith
    have hfract : Int.fract ((m : K) - 1 / 2) = 1 / 2 := by
      rw [Int.fract, hfloor]
      push_cast
      ring
    have htie : roundEven ((m : K) - 1 / 2) = m := by
      obtain ⟨k, rfl⟩ := hm
      rw [roundEven, hfract, hfloor, if_neg, sub_add_cancel]
      rintro (hlt | ⟨-, hodd⟩)
      · exact lt_irrefl _ hlt
      · omega
    exact htie.ge.trans (roundEven_mono h)

theorem roundEven_neg (x : K) : roundEven (-x) = -roundEven x := by
  by_cases hx : Int.fract x = 0
  · have : x = (⌊x⌋ : ℤ) := by rw [← sub_eq_zero, Int.self_sub_floor, hx]
    rw [this, ← Int.cast_neg, roundEven_intCast, roundEven_intCast]
  · have hfract : Int.fract (-x) = 1 - Int.fract x := Int.fract_neg hx
    have hfloor : ⌊-x⌋ = -⌊x⌋ - 1 := by
      have h1 := Int.self_sub_floor x
      have h2 := Int.self_sub_floor (-x)
      rw [hfract] at h2
      have : ((⌊-x⌋ : ℤ) : K) = ((-⌊x⌋ - 1 : ℤ) : K) := by push_cast; linarith
      exact Int.cast_injective this
    unfold roundEven
    rw [hfract, hfloor]
    rcases lt_trichotomy (Int.fract x) (1 / 2) with h | h | h
    · rw [if_neg (by rintro (h' | ⟨h', -⟩) <;> linarith), if_pos (.inl h)]
      omega
    · rw [h]
      norm_num
      split <;> split <;> omega
    · rw [if_pos (.inl (by linarith)), if_neg (by rintro (h' | ⟨h', -⟩) <;> linarith)]
      omega

/-! ## Values -/

variable (F : BinaryFormat)

/-- The exponent of the unit in the last place, from the one of the subnormal values on. -/
def ulpExponent (x : K) : ℤ := max (Int.log 2 |x|) F.minExponent - F.digits + 1

/-- The unit of the last place at `x`. -/
def ulp (x : K) : K := 2 ^ F.ulpExponent x

/-- The nearest value, ties to even. -/
def nearest (x : K) : K := roundEven (x / F.ulp x) * F.ulp x

theorem ulp_pos (x : K) : 0 < F.ulp x := zpow_pos (by norm_num) _

omit [IsStrictOrderedRing K] in
@[simp] theorem ulp_neg (x : K) : F.ulp (-x) = F.ulp x := by
  rw [ulp, ulp, ulpExponent, ulpExponent, abs_neg]

@[simp] theorem nearest_zero : F.nearest (0 : K) = 0 := by
  have : roundEven (0 : K) = 0 := by simpa using roundEven_intCast (K := K) 0
  rw [nearest, zero_div, this, Int.cast_zero, zero_mul]

@[simp] theorem nearest_neg (x : K) : F.nearest (-x) = -F.nearest x := by
  rw [nearest, nearest, ulp_neg, neg_div, roundEven_neg, Int.cast_neg, neg_mul]

theorem abs_nearest_sub_le_ulp (x : K) : |F.nearest x - x| ≤ F.ulp x / 2 := by
  have hu := F.ulp_pos x
  have h := abs_le.mp (abs_roundEven_sub_le (x / F.ulp x))
  have hx : x / F.ulp x * F.ulp x = x := div_mul_cancel₀ x hu.ne'
  rw [abs_le, nearest]
  have h1 := mul_le_mul_of_nonneg_right h.1 hu.le
  have h2 := mul_le_mul_of_nonneg_right h.2 hu.le
  rw [sub_mul, hx] at h1 h2
  constructor <;> linarith

variable {F}

/-- The exponent of a value below a power of two. -/
theorem log_lt {n : ℤ} (h0 : x ≠ 0) : Int.log 2 |x| < n ↔ |x| < 2 ^ n := by
  have h := Int.lt_zpow_iff_log_lt (b := 2) (x := n) (by norm_num) (abs_pos.mpr h0)
  rw [← h]
  norm_num

/-- The error of a value below a power of two. -/
theorem abs_nearest_sub_le {n : ℤ} (hn : F.minExponent < n) (h : |x| < 2 ^ n) :
    |F.nearest x - x| ≤ 2 ^ (n - F.digits - 1) := by
  rcases eq_or_ne x 0 with rfl | h0
  · rw [nearest_zero, sub_self, abs_zero]
    exact (zpow_pos (by norm_num) _).le
  · have hlog := (log_lt h0).mpr h
    have hulp : F.ulp x ≤ 2 ^ (n - F.digits) := by
      refine zpow_le_zpow_right₀ (by norm_num) ?_
      unfold ulpExponent
      omega
    have hhalf : (2 : K) ^ (n - F.digits) = 2 ^ (n - F.digits - 1) * 2 := by
      rw [← zpow_add_one₀ (by norm_num)]
      congr 1
      omega
    exact (F.abs_nearest_sub_le_ulp x).trans (by linarith)

/-! ## Order -/

/-- A multiple of the unit in the last place bounds the rounded value. -/
theorem nearest_le {n : ℤ} (h : x ≤ n * F.ulp x) : F.nearest x ≤ n * F.ulp x := by
  have hu := F.ulp_pos x
  have hle := roundEven_mono ((div_le_iff₀ hu).mpr h)
  rw [roundEven_intCast] at hle
  exact mul_le_mul_of_nonneg_right (Int.cast_le.mpr hle) hu.le

theorem le_nearest {n : ℤ} (h : n * F.ulp x ≤ x) : n * F.ulp x ≤ F.nearest x := by
  have hu := F.ulp_pos x
  have hle := roundEven_mono ((le_div_iff₀ hu).mpr h)
  rw [roundEven_intCast] at hle
  exact mul_le_mul_of_nonneg_right (Int.cast_le.mpr hle) hu.le

omit [IsStrictOrderedRing K] in
/-- A power of two from the unit in the last place on is a multiple of it. -/
theorem two_zpow_eq {e : ℤ} (h : F.ulpExponent x ≤ e) :
    (2 : K) ^ e = ((2 ^ (e - F.ulpExponent x).toNat : ℤ) : K) * F.ulp x := by
  push_cast
  rw [ulp, ← zpow_natCast, ← zpow_add₀ (by norm_num)]
  congr 1
  omega

/-- Magnitudes below a power of two stay there. -/
theorem abs_nearest_le {n : ℤ} (hn : F.minExponent < n) (hdigits : 0 < F.digits) (h : |x| ≤ 2 ^ n) :
    |F.nearest x| ≤ 2 ^ n := by
  rcases eq_or_ne x 0 with rfl | h0
  · rw [nearest_zero, abs_zero]
    exact (zpow_pos (by norm_num) _).le
  · have hlt : |x| < 2 ^ (n + 1) := h.trans_lt (zpow_lt_zpow_right₀ (by norm_num) (by omega))
    have hexponent : F.ulpExponent x ≤ n := by
      have := (log_lt h0).mpr hlt
      unfold ulpExponent
      omega
    have hpower := two_zpow_eq hexponent
    rw [abs_le] at h ⊢
    constructor
    · have := le_nearest (F := F) (x := x) (n := -2 ^ (n - F.ulpExponent x).toNat)
        (by rw [Int.cast_neg, neg_mul, ← hpower]; exact h.1)
      rwa [Int.cast_neg, neg_mul, ← hpower] at this
    · rw [hpower]
      exact nearest_le (by rw [← hpower]; exact h.2)

/-- The unit in the last place from the power of two below a value. -/
theorem nearest_eq {k n : ℤ} (hk : F.minExponent ≤ k) (hlow : 2 ^ k ≤ |x|) (hhigh : |x| < 2 ^ (k + 1))
    (h : |x / 2 ^ (k - F.digits + 1) - n| < 1 / 2) : F.nearest x = n * 2 ^ (k - F.digits + 1) := by
  have h0 : x ≠ 0 := by
    rintro rfl
    rw [abs_zero] at hlow
    exact absurd hlow (not_le.mpr (zpow_pos (by norm_num) _))
  have hlt := (log_lt h0).mpr hhigh
  have hle := mt (log_lt (n := k) h0).mp (not_lt.mpr hlow)
  have hulp : F.ulp x = 2 ^ (k - F.digits + 1) := by
    rw [ulp, ulpExponent]
    congr 1
    omega
  rw [nearest, hulp, roundEven_eq h]

theorem nearest_nonneg (h : 0 ≤ x) : 0 ≤ F.nearest x := by
  have := le_nearest (F := F) (x := x) (n := 0) (by rwa [Int.cast_zero, zero_mul])
  rwa [Int.cast_zero, zero_mul] at this

theorem nearest_nonpos (h : x ≤ 0) : F.nearest x ≤ 0 := by
  have := nearest_nonneg (F := F) (neg_nonneg.mpr h)
  rw [nearest_neg] at this
  linarith

/-- Two positive values round in order: on one grid, or with a power of two between them. -/
theorem nearest_mono_of_pos (hdigits : 0 < F.digits) (hx : 0 < x) (h : x ≤ y) :
    F.nearest x ≤ F.nearest y := by
  have hy := hx.trans_le h
  have hlog : Int.log 2 |x| ≤ Int.log 2 |y| := by
    rw [abs_of_pos hx, abs_of_pos hy]
    exact Int.log_mono_right hx h
  by_cases hgrid : F.ulpExponent x = F.ulpExponent y
  · have hulp : F.ulp x = F.ulp y := by rw [ulp, ulp, hgrid]
    have hu := F.ulp_pos y
    rw [nearest, nearest, hulp]
    exact mul_le_mul_of_nonneg_right
      (Int.cast_le.mpr (roundEven_mono (div_le_div_of_nonneg_right h hu.le))) hu.le
  · have hexponent : F.ulpExponent x ≤ Int.log 2 |y| ∧ F.ulpExponent y ≤ Int.log 2 |y| ∧
        Int.log 2 |x| < Int.log 2 |y| := by
      unfold ulpExponent at *
      omega
    have hbelow : x ≤ 2 ^ Int.log 2 |y| := by
      have := (log_lt hx.ne').mp hexponent.2.2
      rw [abs_of_pos hx] at this
      exact this.le
    have habove : 2 ^ Int.log 2 |y| ≤ y := by
      have := Int.zpow_log_le_self (b := 2) (by norm_num) hy
      rw [abs_of_pos hy]
      exact_mod_cast this
    calc F.nearest x ≤ 2 ^ Int.log 2 |y| := by
          rw [two_zpow_eq hexponent.1] at hbelow ⊢
          exact nearest_le hbelow
      _ ≤ F.nearest y := by
          rw [two_zpow_eq hexponent.2.1] at habove ⊢
          exact le_nearest habove

theorem nearest_mono (hdigits : 0 < F.digits) (h : x ≤ y) : F.nearest x ≤ F.nearest y := by
  rcases lt_trichotomy x 0 with hx | rfl | hx
  · rcases lt_or_ge y 0 with hy | hy
    · have := nearest_mono_of_pos hdigits (neg_pos.mpr hy) (neg_le_neg h)
      rw [nearest_neg, nearest_neg] at this
      linarith
    · exact (nearest_nonpos hx.le).trans (nearest_nonneg hy)
  · rw [nearest_zero]
    exact nearest_nonneg h
  · exact nearest_mono_of_pos hdigits hx h

/-! ## Grids -/

/-- The values of the format. -/
def IsValue (F : BinaryFormat) (x : K) : Prop := F.nearest x = x

/-- A short multiple of a power of two is a value. -/
theorem nearest_grid {n e : ℤ} (he : F.minExponent - F.digits + 1 ≤ e) (h : |n| < 2 ^ F.digits) :
    F.nearest ((n : K) * 2 ^ e) = n * 2 ^ e := by
  rcases eq_or_ne n 0 with rfl | h0
  · simp
  · have hpos : (0 : K) < 2 ^ e := zpow_pos (by norm_num) _
    have hne : (n : K) * 2 ^ e ≠ 0 := mul_ne_zero (Int.cast_ne_zero.mpr h0) hpos.ne'
    have hlt : |(n : K) * 2 ^ e| < 2 ^ ((F.digits : ℤ) + e) := by
      have hcast : |(n : K)| < 2 ^ F.digits := by exact_mod_cast h
      rw [abs_mul, abs_of_pos hpos, zpow_add₀ (by norm_num), zpow_natCast]
      exact mul_lt_mul_of_pos_right hcast hpos
    have hexponent : F.ulpExponent ((n : K) * 2 ^ e) ≤ e := by
      have := (log_lt hne).mpr hlt
      unfold ulpExponent
      omega
    have hmultiple : (n : K) * 2 ^ e / F.ulp ((n : K) * 2 ^ e) =
        ((n * 2 ^ (e - F.ulpExponent ((n : K) * 2 ^ e)).toNat : ℤ) : K) := by
      rw [div_eq_iff (F.ulp_pos _).ne', Int.cast_mul, mul_assoc, ← two_zpow_eq hexponent]
    rw [nearest, hmultiple, roundEven_intCast, ← hmultiple, div_mul_cancel₀ _ (F.ulp_pos _).ne']

/-- The integers of so many digits are values. -/
theorem nearest_intCast (hmin : F.minExponent < F.digits) {n : ℤ} (h : |n| < 2 ^ F.digits) :
    F.nearest (n : K) = n := by
  have hgrid := nearest_grid (K := K) (F := F) (e := 0) (by omega) h
  rwa [zpow_zero, mul_one] at hgrid

/-- Rounding gives a value. -/
theorem isValue_nearest (hdigits : 0 < F.digits) (x : K) : F.IsValue (F.nearest x) := by
  have hu := F.ulp_pos x
  have hexponent : F.minExponent - F.digits + 1 ≤ F.ulpExponent x := by
    unfold ulpExponent
    omega
  have hbound : |x| ≤ ((2 ^ F.digits : ℤ) : K) * F.ulp x := by
    have hlog : |x| < 2 ^ (Int.log 2 |x| + 1) := Int.lt_zpow_succ_log_self (by norm_num) _
    have hulp : ((2 ^ F.digits : ℤ) : K) * F.ulp x = 2 ^ ((F.digits : ℤ) + F.ulpExponent x) := by
      rw [zpow_add₀ (by norm_num), zpow_natCast, ulp]
      push_cast
      rfl
    rw [hulp]
    refine hlog.le.trans (zpow_le_zpow_right₀ (by norm_num) ?_)
    unfold ulpExponent
    omega
  obtain ⟨hlow, hhigh⟩ := abs_le.mp hbound
  have hround : |roundEven (x / F.ulp x)| ≤ 2 ^ F.digits := by
    rw [abs_le]
    constructor
    · have := roundEven_mono ((le_div_iff₀ hu).mpr (by rwa [Int.cast_neg, neg_mul] :
        ((-2 ^ F.digits : ℤ) : K) * F.ulp x ≤ x))
      rwa [roundEven_intCast] at this
    · have := roundEven_mono ((div_le_iff₀ hu).mpr hhigh)
      rwa [roundEven_intCast] at this
  rcases hround.lt_or_eq with hlt | heq
  · exact nearest_grid hexponent hlt
  · -- The power of two above the grid is on the next one.
    obtain ⟨s, hs, hsign⟩ : ∃ s : ℤ, |s| = 1 ∧ roundEven (x / F.ulp x) = s * 2 ^ F.digits := by
      rcases abs_choice (roundEven (x / F.ulp x)) with h | h
      · exact ⟨1, rfl, by rw [one_mul, ← heq, h]⟩
      · exact ⟨-1, rfl, by rw [← heq, h]; ring⟩
    have hnext : F.nearest x = ((s * 2 ^ (F.digits - 1) : ℤ) : K) * 2 ^ (F.ulpExponent x + 1) := by
      rw [nearest, hsign, zpow_add_one₀ (by norm_num), ulp]
      conv_lhs => rw [show F.digits = F.digits - 1 + 1 by omega, pow_succ]
      push_cast
      ring
    rw [IsValue, hnext]
    refine nearest_grid (by omega) ?_
    rw [abs_mul, hs, one_mul, abs_of_pos (by positivity)]
    exact pow_lt_pow_right₀ (by norm_num) (by omega)

/-- The values from a power of two on are multiples of its unit in the last place. -/
theorem IsValue.exists_grid {k : ℤ} (hx : F.IsValue x) (h : 2 ^ k ≤ |x|) :
    ∃ n : ℤ, x = n * 2 ^ (k - F.digits + 1) := by
  have h0 : x ≠ 0 := by
    rintro rfl
    rw [abs_zero] at h
    exact absurd h (not_le.mpr (zpow_pos (by norm_num) _))
  have hlog := mt (log_lt (n := k) h0).mp (not_lt.mpr h)
  have hsplit : F.ulpExponent x = ((F.ulpExponent x - (k - F.digits + 1)).toNat : ℤ) +
      (k - F.digits + 1) := by
    have : k - F.digits + 1 ≤ F.ulpExponent x := by
      unfold ulpExponent
      omega
    omega
  refine ⟨roundEven (x / F.ulp x) * 2 ^ (F.ulpExponent x - (k - F.digits + 1)).toNat, ?_⟩
  conv_lhs => rw [← hx, nearest]
  nth_rewrite 2 [ulp]
  rw [hsplit, zpow_add₀ (by norm_num), zpow_natCast]
  push_cast
  rw [mul_assoc]
  simp only [← hsplit]

/-- **Sterbenz.** The difference of two values from a power of two on is a value while it stays below
the next one. -/
theorem IsValue.sub {k : ℤ} (hx : F.IsValue x) (hy : F.IsValue y) (hk : F.minExponent ≤ k)
    (hxk : 2 ^ k ≤ |x|) (hyk : 2 ^ k ≤ |y|) (h : |x - y| < 2 ^ (k + 1)) : F.IsValue (x - y) := by
  obtain ⟨m, hm⟩ := hx.exists_grid hxk
  obtain ⟨n, hn⟩ := hy.exists_grid hyk
  have hpos : (0 : K) < 2 ^ (k - F.digits + 1) := zpow_pos (by norm_num) _
  have hdiff : x - y = ((m - n : ℤ) : K) * 2 ^ (k - F.digits + 1) := by
    rw [hm, hn]
    push_cast
    ring
  rw [hdiff] at h ⊢
  refine nearest_grid (by omega) ?_
  rw [abs_mul, abs_of_pos hpos, ← lt_div_iff₀ hpos, ← zpow_sub₀ (by norm_num)] at h
  rw [show k + 1 - (k - F.digits + 1) = (F.digits : ℤ) by omega, zpow_natCast] at h
  exact_mod_cast h

/-- Rounding reaches an even multiple of the unit in the last place from half a unit below it. -/
theorem le_nearest_iff {n : ℤ} (hn : Even n) :
    n * F.ulp x ≤ F.nearest x ↔ n * F.ulp x - F.ulp x / 2 ≤ x := by
  have hu := F.ulp_pos x
  rw [nearest, mul_le_mul_iff_left₀ hu, Int.cast_le, le_roundEven_iff hn, le_div_iff₀ hu, sub_mul,
    one_div_mul_eq_div]

/-- Below an even value of the grid that is no power of two, rounding reaches the value from half a unit
below it. -/
theorem le_nearest_iff_of_le {k n : ℤ} (hdigits : 0 < F.digits) (hk : F.minExponent < k) (hn : Even n)
    (hy : y = n * 2 ^ (k - F.digits + 1)) (hlow : 2 ^ k < y) (hhigh : y < 2 ^ (k + 1)) (hx : 0 ≤ x)
    (h : x ≤ y) : y ≤ F.nearest x ↔ y - x ≤ F.ulp y / 2 := by
  have hulp {z : K} (hz : 2 ^ k ≤ z) (hz' : z < 2 ^ (k + 1)) : F.ulp z = 2 ^ (k - F.digits + 1) := by
    have hpos : 0 < z := (zpow_pos (by norm_num) k).trans_le hz
    have hlt := (log_lt hpos.ne').mpr ((abs_of_pos hpos).trans_lt hz')
    have hle := mt (log_lt (n := k) hpos.ne').mp (not_lt.mpr (hz.trans_eq (abs_of_pos hpos).symm))
    rw [ulp, ulpExponent]
    congr 1
    omega
  rw [hulp hlow.le hhigh]
  rcases le_or_gt (2 ^ k) x with hbinade | hbelow
  · have hux := hulp hbinade (h.trans_lt hhigh)
    have hiff := le_nearest_iff (F := F) (x := x) hn
    rw [hux, ← hy] at hiff
    rw [hiff]
    constructor <;> intro h <;> linarith
  · -- The power of two lies a unit or more below the value.
    have hgrid : ∃ m : ℤ, (2 : K) ^ k = m * 2 ^ (k - F.digits + 1) := by
      refine ⟨2 ^ (F.digits - 1), ?_⟩
      push_cast
      rw [← zpow_natCast, ← zpow_add₀ (by norm_num)]
      congr 1
      omega
    obtain ⟨m, hm⟩ := hgrid
    have hpos : (0 : K) < 2 ^ (k - F.digits + 1) := zpow_pos (by norm_num) _
    have hgap : (2 : K) ^ k + 2 ^ (k - F.digits + 1) ≤ y := by
      rw [hm, hy] at hlow
      have hmn : m + 1 ≤ n := Int.cast_lt.mp (lt_of_mul_lt_mul_right hlow hpos.le)
      have hcast : (m : K) + 1 ≤ n := by exact_mod_cast hmn
      rw [hm, hy, ← add_one_mul]
      exact mul_le_mul_of_nonneg_right hcast hpos.le
    have hround := (le_abs_self _).trans
      (abs_nearest_le hk hdigits ((abs_of_nonneg hx).trans_le hbelow.le))
    constructor
    · intro hle
      linarith
    · intro hle
      linarith

end BinaryFormat

end OVMesh
