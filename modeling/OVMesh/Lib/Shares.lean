import OVMesh.Lib.Numerals

/-!
# Shares and cyclic steps

Points dealt to some takers in consecutive shares, and a cursor that steps through a range and
starts over. The arithmetic of a machine word is `none` where it leaves the word.

* `unsigned`, `signed`: results that fit a word.
* `existsUnique_between`, `existsUnique_share`: every point is in one share.
* `stepped`, `iterate_stepped`: the cursor visits the points of its range in turn.
-/

namespace OVMesh

/-! ## Words -/

/-- An unsigned result of some bits. -/
def unsigned (bits : ℕ) (n : ℤ) : Option ℕ := if 0 ≤ n ∧ n < 2 ^ bits then some n.toNat else none

/-- A signed result of some bits. -/
def signed (bits : ℕ) (n : ℤ) : Option ℤ :=
  if -2 ^ (bits - 1) ≤ n ∧ n < 2 ^ (bits - 1) then some n else none

theorem unsigned_eq {bits m : ℕ} {n : ℤ} (h : n = m) (hm : m < 2 ^ bits) :
    unsigned bits n = some m := by
  subst h
  have : (m : ℤ) < 2 ^ bits := by exact_mod_cast hm
  rw [unsigned, if_pos ⟨Int.natCast_nonneg m, this⟩, Int.toNat_natCast]

theorem signed_eq {bits : ℕ} {n : ℤ} (hlow : -2 ^ (bits - 1) ≤ n) (hhigh : n < 2 ^ (bits - 1)) :
    signed bits n = some n := if_pos ⟨hlow, hhigh⟩

/-! ## Shares -/

/-- A point between the first and the last of some bounds in order is between two consecutive
ones. -/
theorem existsUnique_between {g : ℕ → ℕ} (hg : Monotone g) {b k : ℕ} (h0 : g 0 ≤ k)
    (hk : k < g b) : ∃! i, i < b ∧ g i ≤ k ∧ k < g (i + 1) := by
  have hex : ∃ i, i < b ∧ g i ≤ k ∧ k < g (i + 1) := by
    induction b with
    | zero => exact absurd hk (not_lt.mpr h0)
    | succ b ih =>
      rcases Nat.lt_or_ge k (g b) with hlt | hge
      · obtain ⟨i, hi, hbetween⟩ := ih hlt
        exact ⟨i, hi.trans (Nat.lt_succ_self b), hbetween⟩
      · exact ⟨b, Nat.lt_succ_self b, hge, hk⟩
  obtain ⟨i, hi⟩ := hex
  refine ⟨i, hi, ?_⟩
  rintro j ⟨-, hj, hj'⟩
  rcases Nat.lt_trichotomy i j with hlt | rfl | hlt
  · have : g (i + 1) ≤ g j := hg hlt
    omega
  · rfl
  · have : g (j + 1) ≤ g i := hg hlt
    omega

/-- The bounds of the shares of `n` points for `b` takers. -/
def share (n b i : ℕ) : ℕ := n * i / b

theorem share_mono (n b : ℕ) : Monotone (share n b) :=
  fun _ _ h => Nat.div_le_div_right (Nat.mul_le_mul_left n h)

@[simp] theorem share_zero (n b : ℕ) : share n b 0 = 0 := by simp [share]

@[simp] theorem share_self {b : ℕ} (n : ℕ) (hb : 0 < b) : share n b b = n :=
  Nat.mul_div_cancel n hb

/-- Every point is in one share. -/
theorem existsUnique_share {n b k : ℕ} (hb : 0 < b) (hk : k < n) :
    ∃! i, i < b ∧ share n b i ≤ k ∧ k < share n b (i + 1) :=
  existsUnique_between (share_mono n b) (by simp) (by rwa [share_self n hb])

/-! ## Cyclic steps -/

/-- The next point of a range, and the first one behind the last. -/
def stepped (lower upper step x : ℕ) : ℕ := if upper - x < step then lower else x + step

theorem iterate_stepped {lower upper step : ℕ} (hstep : 0 < step) (h : lower ≤ upper) (n : ℕ) :
    (stepped lower upper step)^[n] lower = lower + n % ((upper - lower) / step + 1) * step := by
  let c := (upper - lower) / step
  have hdiv : c * step + (upper - lower) % step = upper - lower := Nat.div_add_mod' _ _
  have hmod := Nat.mod_lt (upper - lower) hstep
  induction n with
  | zero => simp
  | succ n ih =>
    have hm : n % (c + 1) ≤ c := Nat.lt_succ_iff.mp (Nat.mod_lt n (Nat.succ_pos c))
    rw [Function.iterate_succ_apply', ih, stepped]
    show (if upper - (lower + n % (c + 1) * step) < step then _ else _) =
      lower + (n + 1) % (c + 1) * step
    rcases hm.eq_or_lt with hlast | hlt
    · -- The last point of the range.
      have hnext : (n + 1) % (c + 1) = 0 := by
        rw [Nat.add_mod, hlast]
        rcases Nat.eq_zero_or_pos c with h0 | hpos
        · rw [h0]
        · rw [Nat.mod_eq_of_lt (show 1 < c + 1 by omega), Nat.mod_self]
      rw [if_pos (by rw [hlast]; omega), hnext, Nat.zero_mul, Nat.add_zero]
    · have hnext : (n + 1) % (c + 1) = n % (c + 1) + 1 := by
        rw [Nat.add_mod, Nat.mod_eq_of_lt (show 1 < c + 1 by omega),
          Nat.mod_eq_of_lt (show n % (c + 1) + 1 < c + 1 by omega)]
      have hroom : n % (c + 1) * step + step ≤ c * step := by
        rw [← Nat.succ_mul]
        exact Nat.mul_le_mul_right step hlt
      rw [if_neg (by omega), hnext, Nat.succ_mul, Nat.add_assoc]

/-- The cursor stays in its range. -/
theorem iterate_stepped_le {lower upper step : ℕ} (hstep : 0 < step) (h : lower ≤ upper) (n : ℕ) :
    lower ≤ (stepped lower upper step)^[n] lower ∧ (stepped lower upper step)^[n] lower ≤ upper := by
  rw [iterate_stepped hstep h]
  have hm : n % ((upper - lower) / step + 1) ≤ (upper - lower) / step :=
    Nat.lt_succ_iff.mp (Nat.mod_lt n (Nat.succ_pos _))
  have := Nat.mul_le_mul_right step hm
  have := Nat.div_mul_le_self (upper - lower) step
  omega

end OVMesh
