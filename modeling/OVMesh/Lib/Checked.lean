import OVMesh.Lib.Numerals

/-!
# Checked computations

Functions that throw, as values of `Except ε`. A computation that returned is taken apart by
`bind_eq_ok`, a check by `reject_eq_ok`, and a loop by an invariant of the elements it has seen.

* `reject`: throw when a condition holds.
* `forM_eq_ok`: a loop of checks.
* `reject_eq_error`, `bind_eq_error`, `forM_error`: where an error comes from.
* `foldlM_ok`, `foldlM_induction`: a loop that returns, and what it keeps when it returned.
* `foldlM_error`: what a loop throws.
-/

namespace OVMesh

namespace Checked

variable {ε α β σ : Type}

/-- `if (bad) throw message`: a check that stops what follows it. -/
def reject (bad : Prop) [Decidable bad] (message : ε) : Except ε Unit :=
  if bad then .error message else .ok ()

@[simp] theorem reject_eq_ok {bad : Prop} [Decidable bad] {message : ε} {u : Unit} :
    reject bad message = .ok u ↔ ¬ bad := by
  unfold reject
  split <;> rename_i h
  · simp [h]
  · simp [h]

@[simp] theorem bind_eq_ok {x : Except ε α} {f : α → Except ε β} {b : β} :
    (x >>= f) = .ok b ↔ ∃ a, x = .ok a ∧ f a = .ok b := by
  cases x with
  | error e => simp [bind, Except.bind]
  | ok a => simp [bind, Except.bind]

@[simp] theorem pure_eq_ok {a b : α} : (pure a : Except ε α) = .ok b ↔ a = b := by
  simp [pure, Except.pure]

@[simp] theorem forM_eq_ok {l : List α} {f : α → Except ε Unit} {u : Unit} :
    forM l f = .ok u ↔ ∀ a ∈ l, f a = .ok () := by
  induction l with
  | nil => simp
  | cons a l ih =>
    rw [List.forM_cons, bind_eq_ok, List.forall_mem_cons]
    constructor
    · rintro ⟨_, ha, hl⟩
      exact ⟨ha, ih.mp hl⟩
    · rintro ⟨ha, hl⟩
      exact ⟨(), ha, ih.mpr hl⟩

theorem reject_eq_error {bad : Prop} [Decidable bad] {message e : ε} :
    reject bad message = .error e ↔ bad ∧ message = e := by
  unfold reject
  split <;> rename_i h
  · simp [h]
  · simp [h]

theorem bind_eq_error {x : Except ε α} {f : α → Except ε β} {e : ε} :
    (x >>= f) = .error e ↔ x = .error e ∨ ∃ a, x = .ok a ∧ f a = .error e := by
  cases x with
  | error e' => simp [bind, Except.bind]
  | ok a => simp [bind, Except.bind]

/-- A loop of checks throws what one of them throws. -/
theorem forM_error {l : List α} {f : α → Except ε Unit} {e : ε} (h : forM l f = .error e) :
    ∃ a ∈ l, f a = .error e := by
  induction l with
  | nil => cases h
  | cons a l ih =>
    rw [List.forM_cons, bind_eq_error] at h
    rcases h with h | ⟨_, -, h⟩
    · exact ⟨a, List.mem_cons_self, h⟩
    · obtain ⟨b, hb, h⟩ := ih h
      exact ⟨b, List.mem_cons_of_mem a hb, h⟩

variable {f : σ → α → Except ε σ}

/-- What a loop that returned keeps, by the elements it has seen. -/
theorem foldlM_induction {P : List α → σ → Prop} {l : List α}
    (h : ∀ seen a rest s s', seen ++ a :: rest = l → P seen s → f s a = .ok s' → P (seen ++ [a]) s')
    {s s' : σ} (hs : P [] s) (hl : l.foldlM f s = .ok s') : P l s' := by
  suffices haux : ∀ rest seen s, seen ++ rest = l → P seen s → rest.foldlM f s = .ok s' → P l s' from
    haux l [] s rfl hs hl
  intro rest
  induction rest with
  | nil =>
    intro seen s hseen hP hs
    rw [List.append_nil] at hseen
    cases hs
    exact hseen ▸ hP
  | cons a rest ih =>
    intro seen s hseen hP hfold
    rw [List.foldlM_cons, bind_eq_ok] at hfold
    obtain ⟨s₁, hstep, hrest⟩ := hfold
    exact ih (seen ++ [a]) s₁ (by rw [List.append_assoc]; exact hseen)
      (h seen a rest s s₁ hseen hP hstep) hrest

/-- A loop returns when every step returns and keeps what the next one needs. -/
theorem foldlM_ok {P : List α → σ → Prop} {l : List α}
    (h : ∀ seen a rest s, seen ++ a :: rest = l → P seen s → ∃ s', f s a = .ok s' ∧ P (seen ++ [a]) s')
    {s : σ} (hs : P [] s) : ∃ s', l.foldlM f s = .ok s' ∧ P l s' := by
  suffices haux : ∀ rest seen s, seen ++ rest = l → P seen s →
      ∃ s', rest.foldlM f s = .ok s' ∧ P l s' from haux l [] s rfl hs
  intro rest
  induction rest with
  | nil =>
    intro seen s hseen hP
    rw [List.append_nil] at hseen
    exact ⟨s, rfl, hseen ▸ hP⟩
  | cons a rest ih =>
    intro seen s hseen hP
    obtain ⟨s₁, hstep, hP₁⟩ := h seen a rest s hseen hP
    obtain ⟨s', hrest, hP'⟩ := ih (seen ++ [a]) s₁ (by rw [List.append_assoc]; exact hseen) hP₁
    exact ⟨s', by rw [List.foldlM_cons, bind_eq_ok]; exact ⟨s₁, hstep, hrest⟩, hP'⟩

/-- A loop throws what one of its steps throws. -/
theorem foldlM_error {P : ε → Prop} {l : List α} (h : ∀ s, ∀ a ∈ l, ∀ e, f s a = .error e → P e)
    {s : σ} {e : ε} (hl : l.foldlM f s = .error e) : P e := by
  induction l generalizing s with
  | nil => cases hl
  | cons a l ih =>
    rw [List.foldlM_cons] at hl
    cases hstep : f s a with
    | error e' =>
      rw [hstep] at hl
      cases hl
      exact h s a List.mem_cons_self e hstep
    | ok s' =>
      rw [hstep] at hl
      exact ih (fun s b hb => h s b (List.mem_cons_of_mem a hb)) hl

end Checked

end OVMesh
