import OVMesh.Lib.Numerals

/-!
# The transform in place

The radix-2 transform over a list: the values are put in bit-reversed order, and each stage combines
pairs of them in place. The root of unity is any element whose half power is minus one.

* `reverse`: the bits of an index in opposite order. `reverse_reverse`.
* `scatterTo`, `getD_scatterTo`: the values at their reversed places.
* `pass`, `pass_spec`: a stage, and what it leaves at every place.
* `strided`: the transform of every so many-th value. `strided_succ`: from two halves.
* `Stage`: the list after some stages. `Stage.pass`: one more. `stage_full`: all of them are the transform.
-/

namespace OVMesh

namespace Fft

variable {R : Type}

/-! ## Bit reversal -/

/-- The lowest bits of an index, in opposite order. -/
def reverse : ℕ → ℕ → ℕ
  | 0, _ => 0
  | bits + 1, i => i % 2 * 2 ^ bits + reverse bits (i / 2)

variable {bits i j : ℕ}

theorem reverse_lt : reverse bits i < 2 ^ bits := by
  induction bits generalizing i with
  | zero => exact Nat.one_pos
  | succ bits ih =>
    have hrest := @ih (i / 2)
    have hbit : i % 2 * 2 ^ bits ≤ 1 * 2 ^ bits := Nat.mul_le_mul_right _ (by omega)
    rw [reverse, pow_succ]
    omega

theorem reverse_even : reverse (bits + 1) (2 * i) = reverse bits i := by
  have hdiv : 2 * i / 2 = i := by omega
  rw [reverse, Nat.mul_mod_right, Nat.zero_mul, Nat.zero_add, hdiv]

theorem reverse_odd : reverse (bits + 1) (2 * i + 1) = 2 ^ bits + reverse bits i := by
  have hmod : (2 * i + 1) % 2 = 1 := by omega
  have hdiv : (2 * i + 1) / 2 = i := by omega
  rw [reverse, hmod, hdiv, Nat.one_mul]

/-- The highest bit comes last. -/
theorem reverse_top {bit : ℕ} (hbit : bit < 2) (hi : i < 2 ^ bits) :
    reverse (bits + 1) (bit * 2 ^ bits + i) = 2 * reverse bits i + bit := by
  induction bits generalizing i with
  | zero =>
    obtain rfl : i = 0 := by omega
    simp [reverse, Nat.mod_eq_of_lt hbit]
  | succ bits ih =>
    rw [pow_succ] at hi
    have hsplit : bit * 2 ^ (bits + 1) = 2 * (bit * 2 ^ bits) := by ring
    have hmod : (bit * 2 ^ (bits + 1) + i) % 2 = i % 2 := by omega
    have hdiv : (bit * 2 ^ (bits + 1) + i) / 2 = bit * 2 ^ bits + i / 2 := by omega
    rw [reverse, hmod, hdiv, ih (by omega), reverse]
    ring

theorem reverse_reverse (hi : i < 2 ^ bits) : reverse bits (reverse bits i) = i := by
  induction bits generalizing i with
  | zero =>
    simp only [reverse]
    omega
  | succ bits ih =>
    rw [pow_succ] at hi
    have hrest := ih (show i / 2 < 2 ^ bits by omega)
    rw [reverse.eq_def (bits + 1) i]
    simp only []
    rw [reverse_top (Nat.mod_lt _ (by decide)) reverse_lt, hrest]
    omega

/-! ## Places -/

/-- What is at a place after a value was put somewhere. -/
theorem getD_set {t : List R} {x zero : R} :
    (t.set i x).getD j zero = if i = j ∧ j < t.length then x else t.getD j zero := by
  rw [List.getD_eq_getElem?_getD, List.getD_eq_getElem?_getD, List.getElem?_set]
  by_cases hij : i = j
  · subst hij
    by_cases hlt : i < t.length <;> simp [hlt]
  · simp [hij]

/-- `for (k : places) t[place(k)] = value(k)`: a loop that writes the values to their places. -/
def scatterTo (place : ℕ → ℕ) (value : ℕ → R) (places : List ℕ) (t : List R) : List R :=
  places.foldl (fun t k => t.set (place k) (value k)) t

@[simp] theorem length_scatterTo {place : ℕ → ℕ} {value : ℕ → R} {places : List ℕ} {t : List R} :
    (scatterTo place value places t).length = t.length := by
  unfold scatterTo
  induction places generalizing t with
  | nil => rfl
  | cons k places ih => rw [List.foldl_cons, ih, List.length_set]

/-- Where only one value is put. -/
theorem getD_scatterTo {place : ℕ → ℕ} {value : ℕ → R} {places : List ℕ} {t : List R} {zero : R} {k : ℕ}
    (hk : k ∈ places) (hlt : place k < t.length) (hunique : ∀ l ∈ places, place l = place k → l = k) :
    (scatterTo place value places t).getD (place k) zero = value k := by
  have hkeeps : ∀ (rest : List ℕ) (s : List R), (∀ l ∈ rest, place l ≠ place k) →
      (scatterTo place value rest s).getD (place k) zero = s.getD (place k) zero := by
    intro rest
    induction rest with
    | nil => exact fun _ _ => rfl
    | cons l rest ih =>
      intro s hne
      obtain ⟨hl, hrest⟩ := List.forall_mem_cons.mp hne
      have hcons := ih (s.set (place l) (value l)) hrest
      rw [getD_set, if_neg fun h => hl h.1] at hcons
      exact hcons
  induction places generalizing t with
  | nil => exact absurd hk List.not_mem_nil
  | cons l places ih =>
    obtain ⟨hl, hrest⟩ := List.forall_mem_cons.mp hunique
    by_cases hmem : k ∈ places
    · exact ih hmem (by rwa [List.length_set]) hrest
    · obtain rfl : k = l := (List.mem_cons.mp hk).resolve_right hmem
      have hother : ∀ l ∈ places, place l ≠ place k := by
        intro l hl heq
        exact hmem (hrest l hl heq ▸ hl)
      have hput := hkeeps places (t.set (place k) (value k)) hother
      rw [getD_set, if_pos ⟨rfl, hlt⟩] at hput
      exact hput

/-! ## A stage -/

section Stage

variable [CommRing R] {half blocks : ℕ} {t : List R} {twiddle : ℕ → R}

/-- Two values are replaced by their sum and their difference. -/
def butterfly (half : ℕ) (twiddle : R) (t : List R) (lower : ℕ) : List R :=
  let a := t.getD lower 0
  let b := t.getD (lower + half) 0 * twiddle
  (t.set lower (a + b)).set (lower + half) (a - b)

/-- Butterflies in blocks of two halves. -/
def pass (half blocks : ℕ) (twiddle : ℕ → R) (t : List R) : List R :=
  (List.range blocks).foldl (fun t block =>
    (List.range half).foldl (fun t k => butterfly half (twiddle k) t (block * (2 * half) + k)) t) t

@[simp] theorem length_butterfly {x : R} : (butterfly half x t i).length = t.length := by
  simp [butterfly]

/-- What a butterfly leaves at every place. -/
theorem getD_butterfly {x : R} (hhalf : 0 < half) (hlt : i + half < t.length) :
    (butterfly half x t i).getD j 0 =
      if j = i then t.getD i 0 + t.getD (i + half) 0 * x
      else if j = i + half then t.getD i 0 - t.getD (i + half) 0 * x else t.getD j 0 := by
  simp only [butterfly, getD_set, List.length_set]
  by_cases hlower : j = i
  · subst hlower
    rw [if_neg (by omega), if_pos ⟨rfl, by omega⟩, if_pos rfl]
  · rw [if_neg hlower]
    by_cases hupper : j = i + half
    · subst hupper
      rw [if_pos ⟨rfl, hlt⟩, if_pos rfl]
    · rw [if_neg (by omega), if_neg (by omega), if_neg hupper]

/-- Butterflies at places whose pairs are apart: every pair is replaced, and nothing else. -/
theorem foldl_butterfly {places : List ℕ} {x : ℕ → R} (hhalf : 0 < half) (hnodup : places.Nodup)
    (hapart : ∀ i ∈ places, ∀ j ∈ places, i + half ≠ j) (hlt : ∀ i ∈ places, i + half < t.length) :
    (∀ i ∈ places,
      (places.foldl (fun t i => butterfly half (x i) t i) t).getD i 0 =
        t.getD i 0 + t.getD (i + half) 0 * x i ∧
      (places.foldl (fun t i => butterfly half (x i) t i) t).getD (i + half) 0 =
        t.getD i 0 - t.getD (i + half) 0 * x i) ∧
    ∀ j, j ∉ places → (∀ i ∈ places, i + half ≠ j) →
      (places.foldl (fun t i => butterfly half (x i) t i) t).getD j 0 = t.getD j 0 := by
  induction places generalizing t with
  | nil => exact ⟨fun i hi => absurd hi List.not_mem_nil, fun _ _ _ => rfl⟩
  | cons i places ih =>
    obtain ⟨hnotMem, hnodup⟩ := List.nodup_cons.mp hnodup
    have hmem : i ∈ i :: places := List.mem_cons_self
    have hrest : ∀ j ∈ places, j ∈ i :: places := fun j hj => List.mem_cons_of_mem _ hj
    obtain ⟨hpairs, hothers⟩ := @ih (butterfly half (x i) t i) hnodup
      (fun j hj k hk => hapart j (hrest j hj) k (hrest k hk))
      (fun j hj => by simpa using hlt j (hrest j hj))
    have hplace := fun j => @getD_butterfly R i j _ half t (x i) hhalf (hlt i hmem)
    rw [List.foldl_cons]
    refine ⟨fun j hj => ?_, fun j hj hne => ?_⟩
    · by_cases heq : j = i
      · subst heq
        rw [hothers j hnotMem fun k hk => hapart k (hrest k hk) j hmem,
          hothers (j + half) (fun h => hapart j hmem _ (hrest _ h) rfl) fun k hk h =>
            hnotMem (by rwa [← Nat.add_right_cancel h]), hplace, hplace, if_pos rfl,
          if_neg (by omega), if_pos rfl]
        exact ⟨rfl, rfl⟩
      · have hj' : j ∈ places := (List.mem_cons.mp hj).resolve_left heq
        obtain ⟨hlower, hupper⟩ := hpairs j hj'
        rw [hlower, hupper, hplace, hplace, if_neg heq, if_neg fun h => hapart i hmem j hj h.symm,
          if_neg (hapart j hj i hmem), if_neg (by omega)]
        exact ⟨rfl, rfl⟩
    · rw [hothers j (fun h => hj (hrest j h)) fun k hk => hne k (hrest k hk), hplace,
        if_neg fun h : j = i => hj (h ▸ hmem), if_neg fun h : j = i + half => hne i hmem h.symm]

theorem length_foldl_butterfly {places : List ℕ} {x : ℕ → R} :
    (places.foldl (fun t i => butterfly half (x i) t i) t).length = t.length := by
  induction places generalizing t with
  | nil => rfl
  | cons i places ih => rw [List.foldl_cons, ih, length_butterfly]

/-- The lower places of a stage. -/
def lowerPlaces (half blocks : ℕ) : List ℕ :=
  (List.range blocks).flatMap fun block => (List.range half).map fun k => block * (2 * half) + k

theorem mem_lowerPlaces :
    i ∈ lowerPlaces half blocks ↔ ∃ block < blocks, ∃ k < half, block * (2 * half) + k = i := by
  simp [lowerPlaces]

/-- A lower place has its block and its place there. -/
theorem lower_div_mod (block : ℕ) {k : ℕ} (hk : k < half) :
    (block * (2 * half) + k) / (2 * half) = block ∧ (block * (2 * half) + k) % (2 * half) = k := by
  have hlt : k < 2 * half := by omega
  refine ⟨?_, ?_⟩
  · rw [Nat.mul_comm, Nat.mul_add_div (by omega), Nat.div_eq_of_lt hlt, Nat.add_zero]
  · rw [Nat.mul_add_mod_self_right, Nat.mod_eq_of_lt hlt]

theorem nodup_lowerPlaces : (lowerPlaces half blocks).Nodup := by
  refine List.nodup_flatMap.mpr ⟨fun block _ => ?_, ?_⟩
  · exact List.nodup_range.map fun k l h => Nat.add_left_cancel h
  · refine List.nodup_range.imp fun {block other} hne => ?_
    rw [Function.onFun, List.disjoint_left]
    intro i hi hi'
    obtain ⟨k, hk, rfl⟩ := List.mem_map.mp hi
    obtain ⟨l, hl, heq⟩ := List.mem_map.mp hi'
    have hblock := (lower_div_mod block (List.mem_range.mp hk)).1
    rw [← heq, (lower_div_mod _ (List.mem_range.mp hl)).1] at hblock
    exact hne hblock.symm

theorem pass_eq : pass half blocks twiddle t =
    (lowerPlaces half blocks).foldl (fun t i => butterfly half (twiddle (i % (2 * half))) t i) t := by
  rw [lowerPlaces, List.foldl_flatMap, pass]
  refine List.foldl_ext _ _ _ fun t block _ => ?_
  rw [List.foldl_map]
  refine List.foldl_ext _ _ _ fun t k hk => ?_
  rw [(lower_div_mod _ (List.mem_range.mp hk)).2]

@[simp] theorem length_pass : (pass half blocks twiddle t).length = t.length := by
  rw [pass_eq, length_foldl_butterfly]

/-- **A stage.** Each pair of a block is replaced by its sum and its difference. -/
theorem pass_spec (twiddle : ℕ → R) {block k : ℕ} (hlength : t.length = blocks * (2 * half)) (hblock : block < blocks)
    (hk : k < half) :
    (pass half blocks twiddle t).getD (block * (2 * half) + k) 0 =
      t.getD (block * (2 * half) + k) 0 + t.getD (block * (2 * half) + k + half) 0 * twiddle k ∧
    (pass half blocks twiddle t).getD (block * (2 * half) + k + half) 0 =
      t.getD (block * (2 * half) + k) 0 - t.getD (block * (2 * half) + k + half) 0 * twiddle k := by
  have hapart : ∀ i ∈ lowerPlaces half blocks, ∀ j ∈ lowerPlaces half blocks, i + half ≠ j := by
    intro i hi j hj heq
    obtain ⟨b, -, k, hk, rfl⟩ := mem_lowerPlaces.mp hi
    obtain ⟨c, -, l, hl, rfl⟩ := mem_lowerPlaces.mp hj
    have hmod := (lower_div_mod c hl).2
    rw [← heq, Nat.add_assoc, Nat.mul_add_mod_self_right, Nat.mod_eq_of_lt (by omega)] at hmod
    omega
  have hlt : ∀ i ∈ lowerPlaces half blocks, i + half < t.length := by
    intro i hi
    obtain ⟨b, hb, k, hk, rfl⟩ := mem_lowerPlaces.mp hi
    have hle : (b + 1) * (2 * half) ≤ blocks * (2 * half) := Nat.mul_le_mul_right _ hb
    rw [Nat.add_mul] at hle
    omega
  obtain ⟨hpairs, -⟩ := foldl_butterfly (x := fun i => twiddle (i % (2 * half))) (by omega)
    nodup_lowerPlaces hapart hlt
  have hpair := hpairs _ (mem_lowerPlaces.mpr ⟨block, hblock, k, hk, rfl⟩)
  rwa [← pass_eq, (lower_div_mod _ hk).2] at hpair

end Stage

/-! ## The transform -/

section Transform

variable [CommRing R] {w : R} {x : ℕ → R} {r s k n : ℕ} {t : List R}

/-- The transform of every `2 ^ r`-th value, from one on that the index `i` gives. -/
def strided (w : R) (x : ℕ → R) (r s i k : ℕ) : R :=
  ∑ p ∈ Finset.range (2 ^ s), x (reverse r i + p * 2 ^ r) * w ^ (2 ^ r * k * p)

theorem sum_range_two_mul (f : ℕ → R) :
    ∑ p ∈ Finset.range (2 * n), f p =
      ∑ p ∈ Finset.range n, f (2 * p) + ∑ p ∈ Finset.range n, f (2 * p + 1) := by
  induction n with
  | zero => simp
  | succ n ih =>
    rw [Nat.mul_succ, Finset.sum_range_succ, Finset.sum_range_succ, ih, Finset.sum_range_succ,
      Finset.sum_range_succ]
    ring

/-- The even values and the odd ones. -/
theorem strided_succ : strided w x r (s + 1) i k =
    strided w x (r + 1) s (2 * i) k + strided w x (r + 1) s (2 * i + 1) k * w ^ (k * 2 ^ r) := by
  rw [strided, pow_succ' 2 s, sum_range_two_mul, strided, strided, reverse_even, reverse_odd,
    Finset.sum_mul]
  congr 1
  · refine Finset.sum_congr rfl fun p _ => ?_
    have hindex : reverse r i + 2 * p * 2 ^ r = reverse r i + p * 2 ^ (r + 1) := by ring
    have hpower : 2 ^ r * k * (2 * p) = 2 ^ (r + 1) * k * p := by ring
    rw [hindex, hpower]
  · refine Finset.sum_congr rfl fun p _ => ?_
    have hindex : reverse r i + (2 * p + 1) * 2 ^ r = 2 ^ r + reverse r i + p * 2 ^ (r + 1) := by ring
    have hpower : 2 ^ r * k * (2 * p + 1) = 2 ^ (r + 1) * k * p + k * 2 ^ r := by ring
    rw [hindex, hpower, pow_add w, ← mul_assoc]

/-- The transform of a half repeats after its length. -/
theorem strided_periodic (hw : w ^ 2 ^ (r + s) = 1) : strided w x r s i (k + 2 ^ s) = strided w x r s i k := by
  refine Finset.sum_congr rfl fun p _ => ?_
  have hpower : 2 ^ r * (k + 2 ^ s) * p = 2 ^ r * k * p + 2 ^ (r + s) * p := by ring
  rw [hpower, pow_add, pow_mul w (2 ^ (r + s)), hw, one_pow, mul_one]

/-- The list when the transforms of length `2 ^ s` are done. -/
structure Stage (w : R) (x : ℕ → R) (r s : ℕ) (t : List R) : Prop where
  length : t.length = 2 ^ (r + s)
  value : ∀ i < 2 ^ r, ∀ k < 2 ^ s, t.getD (i * 2 ^ s + k) 0 = strided w x r s i k

/-- **One more stage.** -/
theorem Stage.pass (h : Stage w x (r + 1) s t) (hw : w ^ 2 ^ (r + s) = -1) :
    Stage w x r (s + 1) (Fft.pass (2 ^ s) (2 ^ r) (fun k => w ^ (k * 2 ^ r)) t) := by
  have hwhole : w ^ 2 ^ (r + 1 + s) = 1 := by
    have hdouble : 2 ^ (r + 1 + s) = 2 ^ (r + s) * 2 := by ring
    rw [hdouble, pow_mul, hw, neg_one_sq]
  have hlength : t.length = 2 ^ r * (2 * 2 ^ s) := by
    rw [h.length]
    ring
  refine ⟨?_, fun i hi k hk => ?_⟩
  · rw [length_pass, hlength]
    ring
  have hhalf : ∀ l < 2 ^ s, t.getD (i * (2 * 2 ^ s) + l) 0 = strided w x (r + 1) s (2 * i) l ∧
      t.getD (i * (2 * 2 ^ s) + l + 2 ^ s) 0 = strided w x (r + 1) s (2 * i + 1) l := by
    intro l hl
    have hpow : 2 ^ (r + 1) = 2 * 2 ^ r := pow_succ' 2 r
    refine ⟨?_, ?_⟩
    · rw [← h.value (2 * i) (by omega) l hl]
      congr 1
      ring
    · rw [← h.value (2 * i + 1) (by omega) l hl]
      congr 1
      ring
  by_cases hlow : k < 2 ^ s
  · obtain ⟨hvalue, -⟩ := pass_spec (fun k => w ^ (k * 2 ^ r)) hlength hi hlow
    obtain ⟨heven, hodd⟩ := hhalf k hlow
    rw [strided_succ, ← heven, ← hodd, ← hvalue, pow_succ']
  · obtain ⟨l, rfl⟩ : ∃ l, k = l + 2 ^ s := ⟨k - 2 ^ s, by omega⟩
    have hl : l < 2 ^ s := by
      rw [pow_succ'] at hk
      omega
    obtain ⟨-, hvalue⟩ := pass_spec (fun k => w ^ (k * 2 ^ r)) hlength hi hl
    obtain ⟨heven, hodd⟩ := hhalf l hl
    have htwiddle : w ^ ((l + 2 ^ s) * 2 ^ r) = -w ^ (l * 2 ^ r) := by
      have hpower : (l + 2 ^ s) * 2 ^ r = l * 2 ^ r + 2 ^ (r + s) := by ring
      rw [hpower, pow_add, hw, mul_neg_one]
    rw [strided_succ, strided_periodic hwhole, strided_periodic hwhole, htwiddle, ← heven, ← hodd,
      mul_neg, ← sub_eq_add_neg, ← hvalue, pow_succ', Nat.add_assoc]

/-- Before the stages the values are at their reversed places. -/
theorem stage_reversed (hlength : t.length = 2 ^ r)
    (hvalue : ∀ i < 2 ^ r, t.getD (reverse r i) 0 = x i) : Stage w x r 0 t := by
  refine ⟨by simpa using hlength, fun i hi k hk => ?_⟩
  obtain rfl : k = 0 := by omega
  have hreverse := hvalue _ (@reverse_lt r i)
  rw [reverse_reverse hi] at hreverse
  simpa [strided] using hreverse

/-- After all of the stages the list is the transform. -/
theorem stage_full (h : Stage w x 0 s t) (hk : k < 2 ^ s) :
    t.getD k 0 = ∑ p ∈ Finset.range (2 ^ s), x p * w ^ (k * p) := by
  have hvalue := h.value 0 (by decide) k hk
  simpa [strided, reverse] using hvalue

end Transform

end Fft

end OVMesh
