import OVMesh.Lib.Numerals

/-!
# Sums over a circular array

An array whose last place is followed by its first one, with its prefix sums.

* `prefixSums`, `getD_prefixSums`: the sums of the first values.
* `windowSum`, `windowSum_eq`: the sum of a window by differences of them, whether it wraps or not.
* `distance`, `around`: the places at some distances of a place. `sum_around`: they are two windows.
-/

namespace OVMesh

namespace Circular

variable {K : Type} [AddCommGroup K] {l : List K} {n m first count i j lo hi : ℕ}

/-! ## Prefix sums -/

/-- The sums of the first values, from none to all of them. -/
def prefixSums (l : List K) : List K := l.scanl (· + ·) 0

theorem getD_prefixSums (hj : j ≤ l.length) :
    (prefixSums l).getD j 0 = ∑ i ∈ Finset.range j, l.getD i 0 := by
  have hlt : j < (l.scanl (· + ·) 0).length := by
    rw [List.length_scanl]
    omega
  rw [prefixSums, List.getD_eq_getElem _ _ hlt]
  induction j with
  | zero => rw [List.getElem_scanl_zero, Finset.sum_range_zero]
  | succ j ih =>
    have hj' : j < l.length := by omega
    rw [List.getElem_succ_scanl, ih (by omega) (by omega), Finset.sum_range_succ,
      List.getD_eq_getElem _ _ hj']

theorem getLastD_prefixSums : (prefixSums l).getLastD 0 = l.sum := by
  rw [List.getLastD_eq_getLast?, prefixSums, List.getLast?_scanl, Option.getD_some, List.sum_eq_foldl]

/-- The sum of a window from its prefix sums, in two parts where it wraps. -/
def windowSum (sums : List K) (n first count : ℕ) : K :=
  let initial := min count (n - first)
  sums.getD (first + initial) 0 - sums.getD first 0 +
    if initial < count then sums.getD (count - initial) 0 else 0

/-- **The window.** It is the sum of its values, at places modulo the length. -/
theorem windowSum_eq (hfirst : first < l.length) (hcount : count ≤ l.length) :
    windowSum (prefixSums l) l.length first count =
      ∑ i ∈ Finset.range count, l.getD ((first + i) % l.length) 0 := by
  have hsplit : count = min count (l.length - first) + (count - min count (l.length - first)) := by omega
  have hdifference : ∀ k, first + k ≤ l.length →
      (prefixSums l).getD (first + k) 0 - (prefixSums l).getD first 0 =
        ∑ i ∈ Finset.range k, l.getD ((first + i) % l.length) 0 := by
    intro k hk
    rw [getD_prefixSums hk, getD_prefixSums hfirst.le, Finset.sum_range_add, add_sub_cancel_left]
    refine Finset.sum_congr rfl fun i hi => ?_
    have hi := Finset.mem_range.mp hi
    rw [Nat.mod_eq_of_lt (by omega)]
  unfold windowSum
  simp only []
  rw [hdifference _ (by omega)]
  by_cases hwrap : min count (l.length - first) < count
  · have hinitial : min count (l.length - first) = l.length - first := by omega
    rw [if_pos hwrap, getD_prefixSums (by omega)]
    conv_rhs => rw [hsplit]
    rw [Finset.sum_range_add]
    congr 1
    refine Finset.sum_congr rfl fun i hi => ?_
    have hi := Finset.mem_range.mp hi
    have hindex : first + (min count (l.length - first) + i) = i + l.length := by omega
    rw [hindex, Nat.add_mod_right, Nat.mod_eq_of_lt (by omega)]
  · have hinitial : min count (l.length - first) = count := by omega
    rw [if_neg hwrap, add_zero, hinitial]

/-! ## Places around a place -/

/-- The steps between two places, the shorter way round. -/
def distance (n i j : ℕ) : ℕ := min ((i + n - j) % n) ((j + n - i) % n)

/-- The places at a distance from `lo` to `hi`. -/
def around (n i lo hi : ℕ) : Finset ℕ :=
  (Finset.range n).filter fun j => lo ≤ distance n i j ∧ distance n i j ≤ hi

theorem mem_around : j ∈ around n i lo hi ↔ j < n ∧ lo ≤ distance n i j ∧ distance n i j ≤ hi := by
  rw [around, Finset.mem_filter, Finset.mem_range]

/-- A place modulo the length, from a sum that is not twice the length. -/
theorem mod_cases {a : ℕ} (h : a < 2 * n) : a % n = if a < n then a else a - n := by
  split_ifs with hlt
  · exact Nat.mod_eq_of_lt hlt
  · rw [Nat.mod_eq_sub_mod (by omega), Nat.mod_eq_of_lt (by omega)]

/-- The place some steps after another one, by the steps between them. -/
theorem add_steps (hi' : i < n) (hj : j < n) : (i + (j + n - i) % n) % n = j := by
  have hsum : i + (j + n - i) = j + n := by omega
  rw [Nat.add_mod_mod, hsum, Nat.add_mod_right, Nat.mod_eq_of_lt hj]

theorem distance_steps {steps : ℕ} (hi' : i < n) (hpos : 0 < steps) (hlt : steps < n) :
    distance n i ((i + steps) % n) = min (n - steps) steps := by
  rw [distance, mod_cases (show i + steps < 2 * n by omega)]
  split_ifs with hwrap
  · have hback : i + n - (i + steps) = n - steps := by omega
    have hfront : i + steps + n - i = steps + n := by omega
    rw [hback, hfront, Nat.add_mod_right, Nat.mod_eq_of_lt hlt, Nat.mod_eq_of_lt (by omega)]
  · have hback : i + n - (i + steps - n) = n - steps + n := by omega
    have hfront : i + steps - n + n - i = steps := by omega
    rw [hback, hfront, Nat.add_mod_right, Nat.mod_eq_of_lt hlt, Nat.mod_eq_of_lt (by omega)]

/-- The places around are those before and those after. -/
theorem around_eq (hi' : i < n) (hlo : 0 < lo) (hle : lo ≤ hi) (hn : 2 * hi < n) :
    around n i lo hi =
      (Finset.range (hi - lo + 1)).image (fun k => (i + n - hi + k) % n) ∪
      (Finset.range (hi - lo + 1)).image (fun k => (i + lo + k) % n) := by
  ext j
  simp only [mem_around, Finset.mem_union, Finset.mem_image, Finset.mem_range]
  constructor
  · rintro ⟨hj, hlower, hupper⟩
    have hplace := add_steps hi' hj
    have hlt : (j + n - i) % n < n := Nat.mod_lt _ (by omega)
    generalize (j + n - i) % n = steps at hplace hlt
    subst hplace
    have hpos : 0 < steps := by
      by_contra hzero
      have hself : (i + steps) % n = i := by
        rw [Nat.eq_zero_of_not_pos hzero, Nat.add_zero, Nat.mod_eq_of_lt hi']
      rw [hself, distance, Nat.add_sub_cancel_left, Nat.mod_self, min_self] at hlower
      omega
    rw [distance_steps hi' hpos hlt] at hlower hupper
    by_cases hafter : steps ≤ hi
    · refine .inr ⟨steps - lo, by omega, ?_⟩
      have hsum : i + lo + (steps - lo) = i + steps := by omega
      rw [hsum]
    · refine .inl ⟨hi - (n - steps), by omega, ?_⟩
      have hsum : i + n - hi + (hi - (n - steps)) = i + steps := by omega
      rw [hsum]
  · rintro (⟨k, hk, rfl⟩ | ⟨k, hk, rfl⟩)
    · have hsum : i + n - hi + k = i + (n - hi + k) := by omega
      rw [hsum, distance_steps hi' (by omega) (by omega)]
      exact ⟨Nat.mod_lt _ (by omega), by omega, by omega⟩
    · have hsum : i + lo + k = i + (lo + k) := by omega
      rw [hsum, distance_steps hi' (by omega) (by omega)]
      exact ⟨Nat.mod_lt _ (by omega), by omega, by omega⟩

/-- The places before and those after are apart, and no place is twice among them. -/
theorem windows_disjoint (hlo : 0 < lo) (hle : lo ≤ hi) (hn : 2 * hi < n) (hi' : i < n) :
    Disjoint ((Finset.range (hi - lo + 1)).image fun k => (i + n - hi + k) % n)
      ((Finset.range (hi - lo + 1)).image fun k => (i + lo + k) % n) := by
  rw [Finset.disjoint_left]
  intro j hbefore hafter
  obtain ⟨k, hk, rfl⟩ := Finset.mem_image.mp hbefore
  obtain ⟨l, hl, heq⟩ := Finset.mem_image.mp hafter
  have hk := Finset.mem_range.mp hk
  have hl := Finset.mem_range.mp hl
  rw [mod_cases (by omega), mod_cases (by omega)] at heq
  split_ifs at heq <;> omega

theorem injOn_window {a : ℕ} (hcount : count ≤ n) :
    Set.InjOn (fun k => (a + k) % n) (Finset.range count : Set ℕ) := by
  intro k hk l hl heq
  have hk := Finset.mem_range.mp hk
  have hl := Finset.mem_range.mp hl
  have hmod : k % n = l % n := Nat.ModEq.add_left_cancel' a heq
  rwa [Nat.mod_eq_of_lt (by omega), Nat.mod_eq_of_lt (by omega)] at hmod

/-- **The places around.** The sum over them is that of two windows. -/
theorem sum_around (f : ℕ → K) (hi' : i < n) (hlo : 0 < lo) (hle : lo ≤ hi) (hn : 2 * hi < n) :
    ∑ j ∈ around n i lo hi, f j =
      ∑ k ∈ Finset.range (hi - lo + 1), f ((i + n - hi + k) % n) +
        ∑ k ∈ Finset.range (hi - lo + 1), f ((i + lo + k) % n) := by
  rw [around_eq hi' hlo hle hn, Finset.sum_union (windows_disjoint hlo hle hn hi'),
    Finset.sum_image (injOn_window (by omega)), Finset.sum_image (injOn_window (by omega))]

theorem card_around (hi' : i < n) (hlo : 0 < lo) (hle : lo ≤ hi) (hn : 2 * hi < n) :
    (around n i lo hi).card = 2 * (hi - lo + 1) := by
  rw [around_eq hi' hlo hle hn, Finset.card_union_of_disjoint (windows_disjoint hlo hle hn hi'),
    Finset.card_image_of_injOn (injOn_window (by omega)),
    Finset.card_image_of_injOn (injOn_window (by omega)), Finset.card_range]
  omega

end Circular

end OVMesh
