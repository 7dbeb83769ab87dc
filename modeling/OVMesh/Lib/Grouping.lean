import OVMesh.Lib.Numerals

/-!
# Grouping by a key

A loop that visits the indices `0 … n - 1`, skips an index whose key it has met before, and
collects the elements with the key of every other index.

* `firsts n f`: the keys in the order in which the loop meets them. `mem_firsts`, `firsts_nodup`.
* `flatMap_filter_perm`: the collected groups hold each element whose key occurs exactly once.
* `index_eq_of_mem`: groups without a common element.
-/

namespace OVMesh

namespace Grouping

variable {α β : Type} [DecidableEq β]

/-- The values of `f` on `0 … n - 1`, each where it occurs first. -/
def firsts (n : ℕ) (f : ℕ → β) : List β :=
  (List.range n).filterMap fun j => if (List.range j).any (fun k => f k == f j) then none
    else some (f j)

theorem firsts_succ (n : ℕ) (f : ℕ → β) :
    firsts (n + 1) f = if ∃ k < n, f k = f n then firsts n f else firsts n f ++ [f n] := by
  rw [firsts, List.range_succ, List.filterMap_append, ← firsts]
  by_cases h : ∃ k < n, f k = f n
  · rw [if_pos h]
    simp [h]
  · rw [if_neg h]
    rw [List.filterMap_cons, List.filterMap_nil, if_neg (by simpa using h)]

theorem mem_firsts {n : ℕ} {f : ℕ → β} {g : β} : g ∈ firsts n f ↔ ∃ j < n, f j = g := by
  induction n with
  | zero => simp [firsts]
  | succ n ih =>
    have hsucc : (∃ j < n + 1, f j = g) ↔ (∃ j < n, f j = g) ∨ f n = g := by
      simp only [Nat.lt_succ_iff_lt_or_eq, or_and_right, exists_or, exists_eq_left]
    rw [firsts_succ, hsucc]
    split <;> rename_i h
    · rw [ih]
      exact ⟨.inl, fun h' => h'.elim id fun h' => h' ▸ h⟩
    · rw [List.mem_append, List.mem_singleton, ih, eq_comm (a := g)]

theorem length_firsts_le {n : ℕ} {f : ℕ → β} : (firsts n f).length ≤ n :=
  (List.length_filterMap_le _ _).trans (List.length_range).le

theorem firsts_nodup (n : ℕ) (f : ℕ → β) : (firsts n f).Nodup := by
  induction n with
  | zero => exact List.nodup_nil
  | succ n ih =>
    rw [firsts_succ]
    split <;> rename_i h
    · exact ih
    · refine List.Nodup.append ih (List.nodup_singleton _) ?_
      rw [List.disjoint_singleton]
      exact fun hm => h (mem_firsts.mp hm)

/-- The groups of distinct keys hold the elements with one of these keys, each of them once. -/
theorem flatMap_filter_perm (key : α → β) (xs : List α) {gs : List β} (h : gs.Nodup) :
    (gs.flatMap fun g => xs.filter fun x => key x = g).Perm (xs.filter fun x => key x ∈ gs) := by
  induction gs with
  | nil => simp
  | cons g gs ih =>
    obtain ⟨hg, hgs⟩ := List.nodup_cons.mp h
    rw [List.flatMap_cons]
    refine ((ih hgs).append_left _).trans ?_
    have hsplit := List.filter_append_perm (fun x => decide (key x = g))
      (xs.filter fun x => key x ∈ g :: gs)
    rw [List.filter_filter, List.filter_filter] at hsplit
    refine .trans (.of_eq ?_) hsplit
    congr 1 <;> refine List.filter_congr fun x _ => ?_
    · by_cases hx : key x = g <;> simp [hx]
    · by_cases hx : key x = g
      · simp [hx, hg]
      · simp [hx]

/-- When the key of `j` occurs at no index before it, its group is read from `j` on. -/
theorem filter_drop {f : ℕ → β} (xs : List α) {j : ℕ} (h : ∀ k < j, f k ≠ f j) :
    (xs.zipIdx.drop j).filter (fun x => f x.2 = f j) = xs.zipIdx.filter fun x => f x.2 = f j := by
  conv_rhs => rw [← List.take_append_drop j xs.zipIdx, List.filter_append]
  have hnil : (xs.zipIdx.take j).filter (fun x => f x.2 = f j) = [] := by
    refine List.filter_eq_nil_iff.mpr fun x hx => ?_
    obtain ⟨i, hi, rfl⟩ := List.getElem_of_mem hx
    rw [List.length_take] at hi
    simpa using h i (by omega)
  rw [hnil, List.nil_append]

omit [DecidableEq β] in
/-- An element of a group says at which index the group stands. -/
theorem index_eq_of_mem {l : List α} {f : α → List β} (h : (l.flatMap f).Nodup) {i j : ℕ} {a a' : α}
    {x : β} (hi : l[i]? = some a) (hj : l[j]? = some a') (hx : x ∈ f a) (hx' : x ∈ f a') :
    i = j := by
  have hdisj := List.pairwise_iff_getElem.mp (List.nodup_flatMap.mp h).2
  obtain ⟨hil, rfl⟩ := List.getElem?_eq_some_iff.mp hi
  obtain ⟨hjl, rfl⟩ := List.getElem?_eq_some_iff.mp hj
  rcases Nat.lt_trichotomy i j with hlt | heq | hgt
  · exact absurd hx' (List.disjoint_left.mp (hdisj i j hil hjl hlt) hx)
  · exact heq
  · exact absurd hx (List.disjoint_left.mp (hdisj j i hjl hil hgt) hx')

omit [DecidableEq β] in
theorem eq_of_mem {l : List α} {f : α → List β} (h : (l.flatMap f).Nodup) {a a' : α} {x : β}
    (ha : a ∈ l) (ha' : a' ∈ l) (hx : x ∈ f a) (hx' : x ∈ f a') : a = a' := by
  obtain ⟨i, hi⟩ := List.mem_iff_getElem?.mp ha
  obtain ⟨j, hj⟩ := List.mem_iff_getElem?.mp ha'
  obtain rfl := index_eq_of_mem h hi hj hx hx'
  exact Option.some.inj (hi.symm.trans hj)

end Grouping

end OVMesh
