import OVMesh.Lib.Numerals

/-!
# Arcs of a circle

Places on a circle of circumference `T`, as numbers that stand for the same place where they differ
by a multiple of it.

* `Same`, `Arc.Contains`: the same place, and the places of an arc.
* `fmod`, `same_fmod`, `abs_fmod_lt`: the remainder that keeps its sign.
* `eq_of_same`: a place has one number in a turn.
* `exists_after`: in a chain with small steps there is a next member soon after every place.
* `Arc.span_ge`: an arc that has all places of such a chain is long.
-/

namespace OVMesh

namespace Arcs

variable {K : Type} [Field K]

/-- The numbers stand for the same place. -/
def Same (T x y : K) : Prop := ∃ k : ℤ, y = x + k * T

variable {T x y z : K}

theorem Same.refl (x : K) : Same T x x := ⟨0, by rw [Int.cast_zero, zero_mul, add_zero]⟩

theorem Same.symm (h : Same T x y) : Same T y x := by
  obtain ⟨k, rfl⟩ := h
  refine ⟨-k, ?_⟩
  push_cast
  ring

theorem Same.trans (h : Same T x y) (h' : Same T y z) : Same T x z := by
  obtain ⟨k, rfl⟩ := h
  obtain ⟨n, rfl⟩ := h'
  refine ⟨k + n, ?_⟩
  push_cast
  ring

theorem Same.add_right (h : Same T x y) (z : K) : Same T (x + z) (y + z) := by
  obtain ⟨k, rfl⟩ := h
  exact ⟨k, by ring⟩

theorem Same.sub_right (h : Same T x y) (z : K) : Same T (x - z) (y - z) := by
  rw [sub_eq_add_neg, sub_eq_add_neg]
  exact h.add_right (-z)

/-- A turn leads to the same place. -/
theorem same_turn (x : K) : Same T x (x + T) := ⟨1, by rw [Int.cast_one, one_mul]⟩

variable [LinearOrder K]

/-- The places that are passed on the way from `start` over `span`. -/
structure Arc (K : Type) where
  start : K
  span : K

/-- The place is on the arc. -/
def Arc.Contains (T : K) (arc : Arc K) (x : K) : Prop :=
  ∃ y, Same T x y ∧ arc.start ≤ y ∧ y ≤ arc.start + arc.span

/-- The numbers of a place are all as good. -/
theorem Arc.contains_same {arc : Arc K} (h : Same T x y) (hx : arc.Contains T x) :
    arc.Contains T y := by
  obtain ⟨place, hplace, hmem⟩ := hx
  exact ⟨place, h.symm.trans hplace, hmem⟩

section Remainder

variable [FloorRing K]

/-- `std::fmod`: what is left of `x` when so many whole `T` are taken from it, towards zero. -/
def fmod (x T : K) : K := x - T * (if 0 ≤ x / T then ⌊x / T⌋ else ⌈x / T⌉ : ℤ)

theorem same_fmod : Same T x (fmod x T) := by
  refine ⟨-(if 0 ≤ x / T then ⌊x / T⌋ else ⌈x / T⌉), ?_⟩
  rw [fmod]
  push_cast
  ring

end Remainder

variable [IsStrictOrderedRing K]

/-- A place has one number in a turn. -/
theorem eq_of_same (h : Same T x y) (hlt : |y - x| < T) : x = y := by
  obtain ⟨k, rfl⟩ := h
  rw [add_sub_cancel_left] at hlt
  have hT : 0 < T := (abs_nonneg _).trans_lt hlt
  rw [abs_mul, abs_of_pos hT, mul_lt_iff_lt_one_left hT, ← Int.cast_abs] at hlt
  have hk : |k| < 1 := by exact_mod_cast hlt
  rw [Int.abs_lt_one_iff.mp hk, Int.cast_zero, zero_mul, add_zero]

/-- Where an arc starts is a place. -/
theorem Arc.contains_start {start start' span : K} (h : Same T start start')
    (hx : Arc.Contains T ⟨start, span⟩ x) : Arc.Contains T ⟨start', span⟩ x := by
  obtain ⟨k, rfl⟩ := h
  obtain ⟨y, hy, hlower, hupper⟩ := hx
  simp only at hlower hupper
  exact ⟨y + k * T, hy.trans ⟨k, rfl⟩, by linarith, by linarith⟩

theorem abs_fmod_lt [FloorRing K] (hT : 0 < T) : |fmod x T| < T := by
  have hx : T * (x / T) = x := mul_div_cancel₀ x hT.ne'
  rw [fmod]
  split
  · have hlower := mul_le_mul_of_nonneg_left (Int.floor_le (x / T)) hT.le
    have hupper := mul_lt_mul_of_pos_left (Int.lt_floor_add_one (x / T)) hT
    rw [abs_lt]
    constructor <;> linarith
  · have hlower := mul_le_mul_of_nonneg_left (Int.le_ceil (x / T)) hT.le
    have hupper := mul_lt_mul_of_pos_left (Int.ceil_lt_add_one (x / T)) hT
    rw [abs_lt]
    constructor <;> linarith

/-- A chain with steps of at most `G` has a member soon after every place before its last one. -/
theorem exists_after {G c : K} {l : List K}
    (hchain : (x :: l).IsChain fun a b => b ≤ a + G) (hx : x ≤ c) (hlast : ∃ p ∈ l, c < p) :
    ∃ p ∈ l, c < p ∧ p ≤ c + G := by
  induction l generalizing x with
  | nil =>
    obtain ⟨p, hp, -⟩ := hlast
    cases hp
  | cons y l ih =>
    obtain ⟨hstep, hrest⟩ := List.isChain_cons_cons.mp hchain
    rcases lt_or_ge c y with hy | hy
    · exact ⟨y, List.mem_cons_self, hy, by linarith⟩
    · obtain ⟨p, hp, hcp⟩ := hlast
      have hp : p ∈ l := (List.mem_cons.mp hp).resolve_left fun heq => by
        subst heq
        exact absurd hcp (not_lt.mpr hy)
      obtain ⟨q, hq, hcq⟩ := ih hrest hy ⟨p, hp, hcp⟩
      exact ⟨q, List.mem_cons_of_mem _ hq, hcq⟩

/-- **An arc that has all places of a chain around the circle** leaves out no more than a step. -/
theorem Arc.span_ge [FloorRing K] {front G : K} {l : List K} (hT : 0 < T)
    (hchain : (front :: (l ++ [front + T])).IsChain fun a b => b ≤ a + G) {arc : Arc K}
    (hall : ∀ p ∈ front :: l, arc.Contains T p) : T - G ≤ arc.span := by
  by_contra hlt
  -- `c` is the end of the arc, moved into the turn from `front` on.
  let n := ⌊(arc.start + arc.span - front) / T⌋
  let c := arc.start + arc.span - n * T
  have hx : T * ((arc.start + arc.span - front) / T) = arc.start + arc.span - front :=
    mul_div_cancel₀ _ hT.ne'
  have hlower : front ≤ c := by
    have := mul_le_mul_of_nonneg_left (Int.floor_le ((arc.start + arc.span - front) / T)) hT.le
    show front ≤ arc.start + arc.span - n * T
    linarith
  have hupper : c < front + T := by
    have := mul_lt_mul_of_pos_left
      (Int.lt_floor_add_one ((arc.start + arc.span - front) / T)) hT
    show arc.start + arc.span - n * T < front + T
    linarith
  obtain ⟨p, hp, hcp, hpc⟩ := exists_after hchain hlower ⟨front + T, by simp, hupper⟩
  have hplace : arc.Contains T p := by
    rcases List.mem_append.mp hp with hp | hp
    · exact hall p (List.mem_cons_of_mem _ hp)
    · obtain rfl := List.mem_singleton.mp hp
      exact Arc.contains_same (same_turn front) (hall front List.mem_cons_self)
  obtain ⟨y, ⟨k, rfl⟩, hstart, hend⟩ := hplace
  have hcp : arc.start + arc.span - n * T < p := hcp
  have hpc : p ≤ arc.start + arc.span - n * T + G := hpc
  have hneg : ((k - n : ℤ) : K) * T < 0 := by
    push_cast
    linarith
  have hk : k - n ≤ -1 := by
    have hlt : ((k - n : ℤ) : K) < 0 := by
      by_contra hge
      exact absurd hneg (not_lt.mpr (mul_nonneg (not_lt.mp hge) hT.le))
    have : k - n < 0 := by exact_mod_cast hlt
    omega
  have hturn : ((k - n : ℤ) : K) * T ≤ -T := by
    have : ((k - n : ℤ) : K) ≤ -1 := by exact_mod_cast hk
    have := mul_le_mul_of_nonneg_right this hT.le
    linarith
  push_cast at hturn
  linarith

end Arcs

end OVMesh
