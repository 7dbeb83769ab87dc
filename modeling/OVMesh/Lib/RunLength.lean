import OVMesh.Lib.Numerals

/-!
# Run lengths

A list as its runs of equal elements, where no run is longer than a limit.

* `runs`: the runs from left to right, each as long as the limit allows.
* `expand`: the list of a list of runs.
* `expand_runs`, `mem_runs`: the runs give the list back, and each is nonempty and within the limit.
-/

namespace OVMesh

namespace RunLength

variable {α : Type} [DecidableEq α] {limit n : ℕ} {x : α} {l : List α}

/-- The runs of a list after `n` equal elements `x`. -/
def runsFrom (limit : ℕ) (x : α) (n : ℕ) : List α → List (ℕ × α)
  | [] => [(n, x)]
  | y :: l => if y = x ∧ n < limit then runsFrom limit x (n + 1) l else (n, x) :: runsFrom limit y 1 l

/-- The runs of a list, from left to right, none longer than `limit`. -/
def runs (limit : ℕ) : List α → List (ℕ × α)
  | [] => []
  | x :: l => runsFrom limit x 1 l

omit [DecidableEq α] in
/-- The list that a list of runs stands for. -/
def expand (rs : List (ℕ × α)) : List α := rs.flatMap fun r => List.replicate r.1 r.2

omit [DecidableEq α] in
@[simp] theorem expand_cons (r : ℕ × α) (rs : List (ℕ × α)) :
    expand (r :: rs) = List.replicate r.1 r.2 ++ expand rs := by
  simp [expand]

theorem expand_runsFrom : expand (runsFrom limit x n l) = List.replicate n x ++ l := by
  induction l generalizing x n with
  | nil => simp [runsFrom, expand]
  | cons y l ih =>
    rw [runsFrom]
    split <;> rename_i h
    · obtain ⟨rfl, -⟩ := h
      rw [ih, List.replicate_succ', List.append_assoc]
      rfl
    · rw [expand_cons, ih]
      rfl

/-- **The runs give the list back.** -/
@[simp] theorem expand_runs : expand (runs limit l) = l := by
  cases l with
  | nil => rfl
  | cons x l => exact expand_runsFrom

theorem mem_runsFrom (hn : 0 < n) (hle : n ≤ limit) {r : ℕ × α} (h : r ∈ runsFrom limit x n l) :
    0 < r.1 ∧ r.1 ≤ limit := by
  induction l generalizing x n with
  | nil =>
    rw [runsFrom, List.mem_singleton] at h
    subst h
    exact ⟨hn, hle⟩
  | cons y l ih =>
    rw [runsFrom] at h
    split at h <;> rename_i hy
    · exact ih (by omega) (by omega) h
    · rcases List.mem_cons.mp h with rfl | h
      · exact ⟨hn, hle⟩
      · exact ih Nat.one_pos (by omega) h

/-- Every run is nonempty and within the limit. -/
theorem mem_runs (hlimit : 0 < limit) {r : ℕ × α} (h : r ∈ runs limit l) :
    0 < r.1 ∧ r.1 ≤ limit := by
  cases l with
  | nil => cases h
  | cons x l => exact mem_runsFrom Nat.one_pos hlimit h

end RunLength

end OVMesh
