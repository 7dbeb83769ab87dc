import OVMesh.Lib.Numerals

/-!
# Searches for a unique answer

A search tries candidates one by one. It keeps the first one that has an answer, passes over the
same candidate later, and is ambiguous from the second distinct candidate with an answer on.

* `search`: the search, as a fold.
* `Search.Holds`: the outcome in terms of the set of candidates.
* `search_congr`: the order and the repetitions of the candidates do not matter.
-/

namespace OVMesh

variable {α β : Type}

/-- The outcome of a search. -/
inductive Search (α β : Type)
  | none
  | found (a : α) (b : β)
  | ambiguous

namespace Search

/-- The outcome with one more candidate. -/
def step [DecidableEq α] (f : α → Option β) : Search α β → α → Search α β
  | .none, a => match f a with
    | .none => .none
    | some b => .found a b
  | .found a b, a' =>
    if a = a' then .found a b
    else match f a' with
      | .none => .found a b
      | some _ => .ambiguous
  | .ambiguous, _ => .ambiguous

/-- What an outcome says of the candidates. -/
def Holds (f : α → Option β) (l : List α) : Search α β → Prop
  | .none => ∀ a ∈ l, f a = .none
  | .found a b => a ∈ l ∧ f a = some b ∧ ∀ a' ∈ l, (f a').isSome → a' = a
  | .ambiguous => ∃ a ∈ l, ∃ a' ∈ l, a ≠ a' ∧ (f a).isSome ∧ (f a').isSome

variable {f : α → Option β} {l l' : List α} {r r' : Search α β}

theorem Holds.step [DecidableEq α] (h : r.Holds f l) (a : α) :
    (r.step f a).Holds f (l ++ [a]) := by
  cases r with
  | none =>
    cases hf : f a with
    | none =>
      simp only [Search.step, hf]
      intro a' ha'
      rcases List.mem_append.mp ha' with ha' | ha'
      · exact h a' ha'
      · rw [List.mem_singleton.mp ha', hf]
    | some b =>
      simp only [Search.step, hf]
      refine ⟨by simp, hf, fun a' ha' hsome => ?_⟩
      rcases List.mem_append.mp ha' with ha' | ha'
      · rw [h a' ha'] at hsome
        cases hsome
      · exact List.mem_singleton.mp ha'
  | found c b =>
    obtain ⟨hc, hfc, hunique⟩ := h
    have hmem : c ∈ l ++ [a] := List.mem_append_left _ hc
    by_cases hca : c = a
    · simp only [Search.step, if_pos hca]
      refine ⟨hmem, hfc, fun a' ha' hsome => ?_⟩
      rcases List.mem_append.mp ha' with ha' | ha'
      · exact hunique a' ha' hsome
      · rw [List.mem_singleton.mp ha', hca]
    · cases hf : f a with
      | none =>
        simp only [Search.step, if_neg hca, hf]
        refine ⟨hmem, hfc, fun a' ha' hsome => ?_⟩
        rcases List.mem_append.mp ha' with ha' | ha'
        · exact hunique a' ha' hsome
        · rw [List.mem_singleton.mp ha', hf] at hsome
          cases hsome
      | some b' =>
        simp only [Search.step, if_neg hca, hf]
        exact ⟨c, hmem, a, by simp, hca, by simp [hfc], by simp [hf]⟩
  | ambiguous =>
    obtain ⟨c, hc, c', hc', hne, hsome⟩ := h
    exact ⟨c, List.mem_append_left _ hc, c', List.mem_append_left _ hc', hne, hsome⟩

theorem Holds.congr (hl : ∀ a, a ∈ l ↔ a ∈ l') (h : r.Holds f l) : r.Holds f l' := by
  cases r with
  | none => exact fun a ha => h a ((hl a).mpr ha)
  | found c b => exact ⟨(hl c).mp h.1, h.2.1, fun a ha => h.2.2 a ((hl a).mpr ha)⟩
  | ambiguous =>
    obtain ⟨c, hc, c', hc', hne, hsome⟩ := h
    exact ⟨c, (hl c).mp hc, c', (hl c').mp hc', hne, hsome⟩

/-- The candidates determine the outcome. -/
theorem Holds.unique (h : r.Holds f l) (h' : r'.Holds f l) : r = r' := by
  cases r with
  | none =>
    cases r' with
    | none => rfl
    | found c b =>
      have := h c h'.1
      rw [h'.2.1] at this
      cases this
    | ambiguous =>
      obtain ⟨c, hc, -, -, -, hsome, -⟩ := h'
      rw [h c hc] at hsome
      cases hsome
  | found c b =>
    obtain ⟨hc, hfc, hunique⟩ := h
    cases r' with
    | none =>
      have := h' c hc
      rw [hfc] at this
      cases this
    | found c' b' =>
      obtain rfl : c' = c := hunique c' h'.1 (by rw [h'.2.1]; rfl)
      have := hfc.symm.trans h'.2.1
      cases this
      rfl
    | ambiguous =>
      obtain ⟨d, hd, d', hd', hne, hsome, hsome'⟩ := h'
      exact absurd ((hunique d hd hsome).trans (hunique d' hd' hsome').symm) hne
  | ambiguous =>
    obtain ⟨d, hd, d', hd', hne, hsome, hsome'⟩ := h
    cases r' with
    | none =>
      rw [h' d hd] at hsome
      cases hsome
    | found c b =>
      exact absurd ((h'.2.2 d hd hsome).trans (h'.2.2 d' hd' hsome').symm) hne
    | ambiguous => rfl

end Search

variable [DecidableEq α]

/-- The search for the one candidate with an answer. -/
def search (f : α → Option β) (l : List α) : Search α β := l.foldl (Search.step f) .none

variable {f : α → Option β} {l l' : List α}

theorem search_concat (f : α → Option β) (l : List α) (a : α) :
    search f (l ++ [a]) = (search f l).step f a := by
  simp [search]

theorem search_holds (f : α → Option β) (l : List α) : (search f l).Holds f l := by
  induction l using List.reverseRecOn with
  | nil => exact fun a ha => absurd ha List.not_mem_nil
  | append_singleton l a ih =>
    rw [search_concat]
    exact ih.step a

/-- **A search sees a set.** Only the candidates matter, not their order or repetitions. -/
theorem search_congr (h : ∀ a, a ∈ l ↔ a ∈ l') : search f l = search f l' :=
  ((search_holds f l).congr h).unique (search_holds f l')

end OVMesh
