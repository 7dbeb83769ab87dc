import OVMesh.Lib.Numerals

/-!
# Reading loops

A loop that accumulates a record, `l.foldl f s`, is read one field `φ` at a time: from what one
step does to the field follows what the whole loop does.

* `foldl_eq`: a field that no step changes. `foldl_add`: a sum. `foldl_append`: a list.
* `le_foldl_min`, `foldl_max_le`: a minimum and a maximum, by their universal properties.
* `foldl_or`: a flag that some step sets.
* `isLeast_of_le_iff`, `isGreatest_of_le_iff`: a minimum and a maximum of numbers are attained.
* `advance`: a loop that moves an index while a condition holds. `advance_spec`.
* `table`: entries over a range of indexes. `foldl_modify_table`: a loop that changes some of them.
-/

namespace OVMesh

namespace Fold

variable {σ α β : Type} {f : σ → α → σ} {φ : σ → β} {ψ : α → β}

theorem foldl_eq (h : ∀ s a, φ (f s a) = φ s) (l : List α) (s : σ) : φ (l.foldl f s) = φ s := by
  induction l generalizing s with
  | nil => rfl
  | cons a l ih => rw [List.foldl_cons, ih, h]

theorem foldl_add [AddMonoid β] (h : ∀ s a, φ (f s a) = φ s + ψ a) (l : List α) (s : σ) :
    φ (l.foldl f s) = φ s + (l.map ψ).sum := by
  induction l generalizing s with
  | nil => simp
  | cons a l ih => rw [List.foldl_cons, ih, h, List.map_cons, List.sum_cons, add_assoc]

theorem foldl_append {φ : σ → List β} {ψ : α → List β} (h : ∀ s a, φ (f s a) = φ s ++ ψ a)
    (l : List α) (s : σ) : φ (l.foldl f s) = φ s ++ l.flatMap ψ := by
  induction l generalizing s with
  | nil => simp
  | cons a l ih => rw [List.foldl_cons, ih, h, List.flatMap_cons, List.append_assoc]

theorem le_foldl_min [Lattice β] (h : ∀ s a, φ (f s a) = φ s ⊓ ψ a) (l : List α) (s : σ) (x : β) :
    x ≤ φ (l.foldl f s) ↔ x ≤ φ s ∧ ∀ a ∈ l, x ≤ ψ a := by
  induction l generalizing s with
  | nil => simp
  | cons a l ih => rw [List.foldl_cons, ih, h, le_inf_iff, List.forall_mem_cons, and_assoc]

theorem foldl_max_le [Lattice β] (h : ∀ s a, φ (f s a) = φ s ⊔ ψ a) (l : List α) (s : σ) (x : β) :
    φ (l.foldl f s) ≤ x ↔ φ s ≤ x ∧ ∀ a ∈ l, ψ a ≤ x := by
  induction l generalizing s with
  | nil => simp
  | cons a l ih => rw [List.foldl_cons, ih, h, sup_le_iff, List.forall_mem_cons, and_assoc]

theorem foldl_or {φ : σ → Prop} {ψ : α → Prop} (h : ∀ s a, φ (f s a) ↔ φ s ∨ ψ a) (l : List α)
    (s : σ) : φ (l.foldl f s) ↔ φ s ∨ ∃ a ∈ l, ψ a := by
  induction l generalizing s with
  | nil => simp
  | cons a l ih => rw [List.foldl_cons, ih, h, List.exists_mem_cons_iff, or_assoc]

theorem isLeast_of_le_iff {s : Set α} {φ : α → ℕ} {m : ℕ}
    (h : ∀ x, x ≤ m ↔ ∀ a ∈ s, x ≤ φ a) : IsLeast (φ '' s) m := by
  have hle := (h m).mp (le_refl m)
  refine ⟨?_, Set.forall_mem_image.mpr hle⟩
  by_contra hm
  have hlt : m + 1 ≤ m := (h (m + 1)).mpr fun a ha =>
    lt_of_le_of_ne (hle a ha) fun heq => hm ⟨a, ha, heq.symm⟩
  omega

theorem isGreatest_of_le_iff {s : Set α} {φ : α → ℕ} {m : ℕ} (hne : s.Nonempty)
    (h : ∀ x, m ≤ x ↔ ∀ a ∈ s, φ a ≤ x) : IsGreatest (φ '' s) m := by
  have hle := (h m).mp (le_refl m)
  refine ⟨?_, Set.forall_mem_image.mpr hle⟩
  by_contra hm
  have hlt : ∀ a ∈ s, φ a < m := fun a ha =>
    lt_of_le_of_ne (hle a ha) fun heq => hm ⟨a, ha, heq⟩
  obtain ⟨a, ha⟩ := hne
  have hpos := hlt a ha
  have hpred : m ≤ m - 1 := (h (m - 1)).mpr fun a ha => Nat.le_sub_one_of_lt (hlt a ha)
  omega

/-! ## Moving an index -/

/-- `while (n < count && p(n)) ++n`: the first number from `n` on without the property. -/
def advance (p : ℕ → Prop) [DecidablePred p] (count n : ℕ) : ℕ :=
  if n < count ∧ p n then advance p count (n + 1) else n
termination_by count - n

/-- The loop stops at the first index that fails the condition, or at the end. -/
theorem advance_spec (p : ℕ → Prop) [DecidablePred p] {count n : ℕ} (h : n ≤ count) :
    n ≤ advance p count n ∧ advance p count n ≤ count ∧
      (∀ i, n ≤ i → i < advance p count n → p i) ∧
      (advance p count n < count → ¬ p (advance p count n)) := by
  fun_induction advance p count n with
  | case1 n hp ih =>
    obtain ⟨h₁, h₂, h₃, h₄⟩ := ih hp.1
    refine ⟨by omega, h₂, fun i hi hlt => ?_, h₄⟩
    rcases Nat.eq_or_lt_of_le hi with rfl | hi
    · exact hp.2
    · exact h₃ i hi hlt
  | case2 n hp => exact ⟨le_refl n, h, fun i hi hlt => by omega, fun hlt hpn => hp ⟨hlt, hpn⟩⟩

/-! ## Tables -/

/-- The entries of a table over the indexes from `first` on. -/
def table (first n : ℕ) (e : ℕ → β) : List β := (List.range' first n).map e

variable {first n i : ℕ} {e : ℕ → β}

@[simp] theorem length_table : (table first n e).length = n := by simp [table]

theorem table_congr {e' : ℕ → β} (h : ∀ i, first ≤ i → i < first + n → e i = e' i) :
    table first n e = table first n e' :=
  List.map_congr_left fun i hi => h i (List.mem_range'_1.mp hi).1 (List.mem_range'_1.mp hi).2

/-- Changing an entry. -/
theorem modify_table (h : first ≤ i) (g : β → β) :
    (table first n e).modify (i - first) g = table first n (Function.update e i (g (e i))) := by
  refine List.ext_getElem (by simp) fun k hk hk' => ?_
  simp only [table, List.getElem_modify, List.getElem_map, List.getElem_range', one_mul]
  split <;> rename_i heq
  · rw [← heq, Nat.add_sub_cancel' h, Function.update_self]
  · rw [Function.update_of_ne (by omega)]

/-- A loop that changes the entries of a list of indexes. -/
theorem foldl_modify_table {l : List ℕ} (hl : l.Nodup) (h : ∀ i ∈ l, first ≤ i) (g : ℕ → β → β)
    (e : ℕ → β) : l.foldl (fun t i => t.modify (i - first) (g i)) (table first n e) =
      table first n fun i => if i ∈ l then g i (e i) else e i := by
  induction l generalizing e with
  | nil => exact table_congr fun i _ _ => (if_neg List.not_mem_nil).symm
  | cons a l ih =>
    obtain ⟨ha, hl⟩ := List.nodup_cons.mp hl
    rw [List.foldl_cons, modify_table (h a List.mem_cons_self),
      ih hl fun i hi => h i (List.mem_cons_of_mem _ hi)]
    refine table_congr fun i _ _ => ?_
    by_cases hia : i = a
    · subst hia
      rw [if_neg ha, Function.update_self, if_pos List.mem_cons_self]
    · rw [Function.update_of_ne hia]
      exact if_congr (by rw [List.mem_cons, or_iff_right hia]) rfl rfl

end Fold

end OVMesh
