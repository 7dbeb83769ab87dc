import OVMesh.Lib.Checked

/-!
# Outcomes of checked computations

A condition on both ends of a function that throws: what it may throw, and what it returns.

* `Ensures`: the condition. `Ensures.mono`, `Ensures.bind`, `Ensures.returned`: its rules.
* `ensures_reject`: a check.
* `ensures_foldlM`: a loop, by an invariant of the elements it has seen.
* `foldlM_beside`: a loop that runs beside one that returns. `foldlM_append`: a loop that collects.
-/

namespace OVMesh

namespace Checked

variable {ε α β σ : Type} {E : ε → Prop} {P Q : α → Prop} {R : β → Prop} {x : Except ε α}

/-- What is thrown satisfies `E`, and what is returned `P`. -/
def Ensures (E : ε → Prop) (P : α → Prop) : Except ε α → Prop
  | .error e => E e
  | .ok a => P a

@[simp] theorem ensures_ok {a : α} : Ensures E P (.ok a) ↔ P a := Iff.rfl

@[simp] theorem ensures_error {e : ε} : Ensures E P (.error e) ↔ E e := Iff.rfl

@[simp] theorem ensures_pure {a : α} : Ensures E P (pure a) ↔ P a := Iff.rfl

theorem Ensures.mono (h : Ensures E P x) (himp : ∀ a, P a → Q a) : Ensures E Q x := by
  cases x with
  | error e => exact h
  | ok a => exact himp a h

theorem Ensures.bind {f : α → Except ε β} (h : Ensures E P x) (hf : ∀ a, P a → Ensures E R (f a)) :
    Ensures E R (x >>= f) := by
  cases x with
  | error e => exact h
  | ok a => exact hf a h

/-- What is returned is known. -/
theorem Ensures.returned (h : Ensures E P x) : Ensures E (fun a => x = .ok a ∧ P a) x := by
  cases x with
  | error e => exact h
  | ok a => exact ⟨rfl, h⟩

/-- A check that throws only what may be thrown. -/
theorem ensures_reject {bad : Prop} [Decidable bad] {message : ε} (h : bad → E message) :
    Ensures E (fun _ => ¬ bad) (reject bad message) := by
  rw [reject]
  split_ifs with hbad
  · exact h hbad
  · exact hbad

/-- An outcome that is computed to be a value. -/
theorem exists_ok_of_isOk (h : x.isOk = true) : ∃ a, x = .ok a := by
  cases x with
  | error e => cases h
  | ok a => exact ⟨a, rfl⟩

/-- A loop keeps an invariant of what it has seen. -/
theorem ensures_foldlM {f : σ → α → Except ε σ} {I : List α → σ → Prop} {l : List α}
    (h : ∀ seen a rest s, seen ++ a :: rest = l → I seen s → Ensures E (I (seen ++ [a])) (f s a))
    {s : σ} (hs : I [] s) : Ensures E (I l) (l.foldlM f s) := by
  suffices haux : ∀ rest seen s, seen ++ rest = l → I seen s → Ensures E (I l) (rest.foldlM f s) from
    haux l [] s rfl hs
  intro rest
  induction rest with
  | nil =>
    intro seen s hseen hI
    rw [List.append_nil] at hseen
    exact hseen ▸ hI
  | cons a rest ih =>
    intro seen s hseen hI
    rw [List.foldlM_cons]
    refine (h seen a rest s hseen hI).bind fun s' hs' => ?_
    exact ih (seen ++ [a]) s' (by rw [List.append_assoc]; exact hseen) hs'

/-- A loop beside one that returns. -/
theorem foldlM_beside {τ : Type} {f : σ → α → Except ε σ} {l : List α} {s s' : σ} (h : l.foldlM f s = .ok s')
    (g : τ → α → Except ε τ) (t : τ) :
    (do
      let (_, t) ← l.foldlM (fun (s, t) a => do
        let s ← f s a
        let t ← g t a
        return (s, t)) (s, t)
      return t) = l.foldlM g t := by
  induction l generalizing s t with
  | nil => rfl
  | cons a l ih =>
    rw [List.foldlM_cons, bind_eq_ok] at h
    obtain ⟨s₁, hs₁, h⟩ := h
    rw [List.foldlM_cons, List.foldlM_cons]
    dsimp only
    rw [hs₁]
    cases g t a with
    | error e => rfl
    | ok t₁ => exact ih h t₁

/-- A loop that collects. -/
theorem foldlM_append {f : α → List β} {l : List α} {out : List β} :
    (l.foldlM (fun out a => .ok (out ++ f a)) out : Except ε (List β)) = .ok (out ++ l.flatMap f) := by
  induction l generalizing out with
  | nil => simp [pure, Except.pure]
  | cons a l ih =>
    rw [List.foldlM_cons]
    show l.foldlM _ (out ++ f a) = _
    rw [ih, List.flatMap_cons, List.append_assoc]

end Checked

end OVMesh
