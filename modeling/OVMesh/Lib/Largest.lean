import OVMesh.Lib.Numerals

/-!
# The largest values

The first values of a list in descending order, one value at a time, and a table of bounded length that
is kept so.

* `largest`: the first values of the sorted list. `largest_concat`: with one more value.
* `take_orderedInsert_of_le`: a value that is not above the last of a full list changes nothing.
* `Table.insertAt`: a value moves the later ones up by a place. `Table.live_insertAt`.
-/

namespace OVMesh

namespace Largest

section Values

variable {K : Type} [LinearOrder K] {l : List K} {p : K} {k : ℕ}

/-- The first `k` values in descending order. -/
def largest (k : ℕ) (l : List K) : List K := (l.insertionSort (· ≥ ·)).take k

@[simp] theorem largest_nil : largest k ([] : List K) = [] := by simp [largest]

theorem length_largest : (largest k l).length = min k l.length := by
  simp [largest]

theorem sorted_largest : (largest k l).Pairwise (· ≥ ·) :=
  (List.pairwise_insertionSort _ _).sublist (List.take_sublist _ _)

/-- What is beyond the first values does not matter for them. -/
theorem take_orderedInsert_take :
    ((l.take k).orderedInsert (· ≥ ·) p).take k = (l.orderedInsert (· ≥ ·) p).take k := by
  induction l generalizing k with
  | nil => simp
  | cons b l ih =>
    cases k with
    | zero => simp
    | succ k =>
      rw [List.take_succ_cons, List.orderedInsert_cons, List.orderedInsert_cons]
      by_cases h : p ≥ b
      · have hcons : (b :: l.take k).take k = (b :: l).take k := by
          rw [← List.take_succ_cons, List.take_take, min_eq_left (Nat.le_succ k)]
        rw [if_pos h, if_pos h, List.take_succ_cons, List.take_succ_cons, hcons]
      · rw [if_neg h, if_neg h, List.take_succ_cons, List.take_succ_cons, ih]

/-- **One more value.** It is inserted in its place, and the last one may fall out. -/
theorem largest_concat : largest k (l ++ [p]) = ((largest k l).orderedInsert (· ≥ ·) p).take k := by
  have hsort : (l ++ [p]).insertionSort (· ≥ ·) = (l.insertionSort (· ≥ ·)).orderedInsert (· ≥ ·) p := by
    have hperm : ((l ++ [p]).insertionSort (· ≥ ·)).Perm
        ((l.insertionSort (· ≥ ·)).orderedInsert (· ≥ ·) p) :=
      calc ((l ++ [p]).insertionSort (· ≥ ·)).Perm (l ++ [p]) := List.perm_insertionSort _ _
        List.Perm _ (p :: l) := List.perm_append_singleton _ _
        List.Perm _ (p :: l.insertionSort (· ≥ ·)) := (List.perm_insertionSort _ _).symm.cons p
        List.Perm _ _ := (List.perm_orderedInsert _ _ _).symm
    exact List.Perm.eq_of_pairwise' (List.pairwise_insertionSort _ _)
      ((List.pairwise_insertionSort _ _).orderedInsert _ _) hperm
  rw [largest, hsort, largest, take_orderedInsert_take]

/-- A value that is not above the last one changes nothing. -/
theorem take_orderedInsert_of_le (hsorted : l.Pairwise (· ≥ ·)) (hlast : ∀ b ∈ l, p ≤ b) :
    (l.orderedInsert (· ≥ ·) p).take l.length = l := by
  induction l with
  | nil => rfl
  | cons b l ih =>
    obtain ⟨hb, hrest⟩ := List.forall_mem_cons.mp hlast
    obtain ⟨hhead, htail⟩ := List.pairwise_cons.mp hsorted
    have hmore := ih htail hrest
    rw [List.orderedInsert_cons]
    by_cases h : p ≥ b
    · obtain rfl : p = b := le_antisymm hb h
      rw [if_pos h]
      cases l with
      | nil => rfl
      | cons c l =>
        obtain rfl : c = p := le_antisymm (hhead c List.mem_cons_self) (hrest c List.mem_cons_self)
        rw [List.orderedInsert_cons, if_pos le_rfl, List.length_cons, List.take_succ_cons] at hmore
        rw [List.length_cons, List.length_cons, List.take_succ_cons, List.take_succ_cons, hmore]
    · rw [if_neg h, List.length_cons, List.take_succ_cons, hmore]

end Values

/-! ## A table of bounded length -/

variable {α : Type}

/-- An array, of which the first places are in use. -/
structure Table (α : Type) where
  values : List α
  count : ℕ

namespace Table

/-- The places in use. -/
def live (t : Table α) : List α := t.values.take t.count

/-- `for (size_t i = last; i > place; --i) values[i] = values[i - 1];` moves the values from `place` on.
-/
def shift (values : List α) (place : ℕ) : ℕ → List α
  | 0 => values
  | i + 1 =>
    if place < i + 1 then
      match values[i]? with
      | some x => shift (values.set (i + 1) x) place i
      | none => values
    else values

/-- A value is put at a place, and the later ones move up. -/
def insertAt (t : Table α) (place : ℕ) (x : α) : Table α :=
  { values := (shift t.values place (min t.count (t.values.length - 1))).set place x
    count := if t.count < t.values.length then t.count + 1 else t.count }

variable {values : List α} {place last : ℕ} {x : α} {t : Table α}

@[simp] theorem length_shift : (shift values place last).length = values.length := by
  induction last generalizing values with
  | zero => rfl
  | succ i ih =>
    rw [shift]
    split_ifs with h
    · cases hget : values[i]? with
      | none => rfl
      | some x => simp only [ih, List.length_set]
    · rfl

/-- What the loop leaves: the places up to the last one have what was before them. -/
theorem getElem?_shift (hlast : last < values.length) (i : ℕ) : (shift values place last)[i]? =
    if place < i ∧ i ≤ last then values[i - 1]? else values[i]? := by
  induction last generalizing values with
  | zero => rw [shift, if_neg (by omega)]
  | succ j ih =>
    rw [shift]
    by_cases h : place < j + 1
    · have hj : j < values.length := by omega
      rw [if_pos h, List.getElem?_eq_getElem hj]
      simp only
      rw [ih (by rw [List.length_set]; exact hj)]
      by_cases hlow : place < i ∧ i ≤ j
      · rw [if_pos hlow, if_pos ⟨hlow.1, by omega⟩, List.getElem?_set_ne (by omega)]
      · rw [if_neg hlow]
        by_cases htop : i = j + 1
        · subst htop
          rw [if_pos ⟨h, le_rfl⟩, List.getElem?_set_self hlast, Nat.add_sub_cancel,
            List.getElem?_eq_getElem hj]
        · rw [if_neg (by omega), List.getElem?_set_ne (Ne.symm htop)]
    · rw [if_neg h, if_neg (by omega)]

@[simp] theorem length_insertAt : (t.insertAt place x).values.length = t.values.length := by
  simp [insertAt]

theorem count_insertAt (hcount : t.count ≤ t.values.length) :
    (t.insertAt place x).count = min (t.count + 1) t.values.length := by
  simp only [insertAt]
  split_ifs <;> omega

/-- **One more value.** The table has the value in its place, and the last one may fall out. -/
theorem live_insertAt (hcount : t.count ≤ t.values.length) (hplace : place ≤ t.count)
    (hlt : place < t.values.length) :
    (t.insertAt place x).live = (t.live.take place ++ x :: t.live.drop place).take t.values.length := by
  have hlast : min t.count (t.values.length - 1) < t.values.length := by omega
  have hlive : t.live.length = t.count := by
    rw [live, List.length_take, min_eq_left hcount]
  refine List.ext_getElem? fun i => ?_
  rw [live, count_insertAt hcount, List.getElem?_take, List.getElem?_take]
  by_cases hi : i < min (t.count + 1) t.values.length
  · rw [if_pos hi, if_pos (by omega)]
    simp only [insertAt]
    by_cases heq : i = place
    · subst heq
      rw [List.getElem?_set_self (by simpa using hlt), List.getElem?_append_right (by simp),
        List.length_take, min_eq_left (by omega), Nat.sub_self, List.getElem?_cons_zero]
    · rw [List.getElem?_set_ne (Ne.symm heq), getElem?_shift hlast]
      by_cases hbefore : i < place
      · rw [if_neg (by omega), List.getElem?_append_left (by rw [List.length_take]; omega),
          List.getElem?_take_of_lt hbefore, live, List.getElem?_take_of_lt (by omega)]
      · obtain ⟨j, rfl⟩ : ∃ j, i = place + 1 + j := ⟨i - place - 1, by omega⟩
        have hindex : place + 1 + j - place = j + 1 := by omega
        rw [if_pos (by omega), List.getElem?_append_right (by rw [List.length_take]; omega),
          List.length_take, hlive, min_eq_left hplace, hindex, List.getElem?_cons_succ,
          List.getElem?_drop, live, List.getElem?_take_of_lt (by omega)]
        congr 1
        omega
  · rw [if_neg hi]
    split_ifs with htable
    · rw [List.getElem?_eq_none]
      rw [List.length_append, List.length_take, List.length_cons, List.length_drop, hlive]
      omega
    · rfl

end Table

end Largest

end OVMesh
