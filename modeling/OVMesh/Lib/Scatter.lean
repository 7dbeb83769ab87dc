import OVMesh.Lib.Numerals

/-!
# Scattered bits

A loop that ors words into the cells of a table. A bit of a cell is set when it was set before or
when one of the words that fall into the cell sets it.

* `scatter`: the loop. `getLsbD_scatter`: the bits of its cells.
* `getLsbD_bitMask`: a single bit of a word, moved to another place.
-/

namespace OVMesh

namespace Scatter

variable {ι : Type} {w : ℕ} {cell : ι → ℕ} {mask : ι → BitVec w} {table : List (BitVec w)}

/-- `for (p : places) table[cell(p)] |= mask(p)`: a loop that sets bits in the cells of a table. -/
def scatter (cell : ι → ℕ) (mask : ι → BitVec w) (places : List ι) (table : List (BitVec w)) :
    List (BitVec w) :=
  places.foldl (fun table p => table.modify (cell p) (· ||| mask p)) table

@[simp] theorem length_scatter (places : List ι) :
    (scatter cell mask places table).length = table.length := by
  unfold scatter
  induction places generalizing table with
  | nil => rfl
  | cons p places ih => rw [List.foldl_cons, ih, List.length_modify]

private theorem getLsbD_modify (v : BitVec w) {c r k : ℕ} (h : r < table.length) :
    ((table.modify c (· ||| v)).getD r 0).getLsbD k =
      ((table.getD r 0).getLsbD k || (decide (c = r) && v.getLsbD k)) := by
  rw [List.getD_eq_getElem?_getD, List.getD_eq_getElem?_getD, List.getElem?_modify,
    List.getElem?_eq_getElem h]
  by_cases hc : c = r <;> simp [hc]

theorem getLsbD_scatter (places : List ι) {r k : ℕ} (h : r < table.length) :
    ((scatter cell mask places table).getD r 0).getLsbD k =
      ((table.getD r 0).getLsbD k ||
        places.any fun p => decide (cell p = r) && (mask p).getLsbD k) := by
  unfold scatter
  induction places generalizing table with
  | nil => simp
  | cons p places ih =>
    rw [List.foldl_cons, ih (by simpa using h), getLsbD_modify _ h, List.any_cons, Bool.or_assoc]

/-- The only place that sets the bit decides it. -/
theorem getLsbD_scatter_of_unique {places : List ι} {r k : ℕ} {p : ι} (h : r < table.length)
    (hp : p ∈ places) (hcell : cell p = r)
    (hunique : ∀ q ∈ places, cell q = r → (mask q).getLsbD k = true → q = p) :
    ((scatter cell mask places table).getD r 0).getLsbD k =
      ((table.getD r 0).getLsbD k || (mask p).getLsbD k) := by
  rw [getLsbD_scatter places h]
  congr 1
  rw [Bool.eq_iff_iff, List.any_eq_true]
  constructor
  · rintro ⟨q, hq, hset⟩
    simp only [Bool.and_eq_true, decide_eq_true_eq] at hset
    rw [← hunique q hq hset.1 hset.2]
    exact hset.2
  · exact fun hset => ⟨p, hp, by simp [hcell, hset]⟩

/-- `((x >> i) & 1) << j`, in another width. -/
theorem getLsbD_bitMask {v : ℕ} (x : BitVec w) {i j k : ℕ} (hj : j < v) (hv : v ≤ w) :
    ((((x >>> i) &&& 1#w) <<< j).setWidth v).getLsbD k = (decide (k = j) && x.getLsbD i) := by
  rw [BitVec.getLsbD_setWidth, BitVec.getLsbD_shiftLeft, BitVec.getLsbD_and,
    BitVec.getLsbD_ushiftRight, BitVec.getLsbD_one]
  by_cases hk : k = j
  · subst hk
    have hw : 0 < w := by omega
    simp [hj, hw, Nat.lt_of_lt_of_le hj hv]
  · by_cases hlt : k < j
    · simp [hlt, hk]
    · have hne : k - j ≠ 0 := by omega
      simp [hk, hne]

end Scatter

end OVMesh
