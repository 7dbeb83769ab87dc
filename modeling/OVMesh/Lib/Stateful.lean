import OVMesh.Lib.Checked

/-!
# Stateful computations

Methods that throw and keep what they had changed before, as values of `EStateM ε σ`. A method that
returned is taken apart by the `ok_` lemmas, one for each constructor of a computation, and one that
threw by the `error_` lemmas.

* `check`: a checked function inside a method.
* `finalState`: the state that a call leaves, whether it returned or threw.
* `Keeps`: what a call leaves, by its parts.
* `forM_induction`: what a run keeps when every call returned.
* `calls`, `returned`: a run whose calls may throw, and the calls that returned.
-/

namespace OVMesh

namespace Stateful

open EStateM

variable {ε σ α β : Type} {s s' : σ} {a : α} {b : β} {u : Unit}

/-- A checked function inside a method. -/
def check : Except ε α → EStateM ε σ α
  | .ok a => pure a
  | .error e => throw e

/-- The state that a call leaves. -/
def finalState : EStateM.Result ε σ α → σ
  | .ok _ s => s
  | .error _ s => s

@[simp] theorem ok_bind {x : EStateM ε σ α} {f : α → EStateM ε σ β} :
    (x >>= f) s = .ok b s' ↔ ∃ a s₁, x s = .ok a s₁ ∧ f a s₁ = .ok b s' := by
  change EStateM.bind x f s = _ ↔ _
  unfold EStateM.bind
  cases x s with
  | ok a s₁ => simp
  | error e s₁ => simp

@[simp] theorem ok_pure {c : α} : (pure c : EStateM ε σ α) s = .ok a s' ↔ c = a ∧ s = s' := by
  change EStateM.Result.ok c s = _ ↔ _
  simp

@[simp] theorem ok_throw {e : ε} : (throw e : EStateM ε σ α) s = .ok a s' ↔ False := by
  change EStateM.Result.error e s = _ ↔ _
  simp

@[simp] theorem ok_get {t : σ} : (get : EStateM ε σ σ) s = .ok t s' ↔ s = t ∧ s = s' := by
  change EStateM.Result.ok s s = _ ↔ _
  simp

@[simp] theorem ok_set {t : σ} {u : PUnit} : (set t : EStateM ε σ PUnit) s = .ok u s' ↔ t = s' := by
  change EStateM.Result.ok PUnit.unit t = _ ↔ _
  simp

@[simp] theorem ok_modify {f : σ → σ} {u : PUnit} :
    (modify f : EStateM ε σ PUnit) s = .ok u s' ↔ f s = s' := by
  change EStateM.Result.ok PUnit.unit (f s) = _ ↔ _
  simp

@[simp] theorem ok_check {x : Except ε α} : check x s = .ok a s' ↔ x = .ok a ∧ s = s' := by
  cases x with
  | error e =>
    change EStateM.Result.error e s = _ ↔ _
    simp
  | ok c =>
    change EStateM.Result.ok c s = _ ↔ _
    simp

theorem ok_ite {c : Prop} [Decidable c] {x y : EStateM ε σ α} :
    (if c then x else y) s = .ok a s' ↔ (c → x s = .ok a s') ∧ (¬ c → y s = .ok a s') := by
  by_cases h : c
  · simp [h]
  · simp [h]

/-! ## Calls that threw -/

theorem error_bind {x : EStateM ε σ α} {f : α → EStateM ε σ β} {e : ε} :
    (x >>= f) s = .error e s' ↔
      x s = .error e s' ∨ ∃ a s₁, x s = .ok a s₁ ∧ f a s₁ = .error e s' := by
  change EStateM.bind x f s = _ ↔ _
  unfold EStateM.bind
  cases x s with
  | ok a s₁ => simp
  | error e s₁ => simp

theorem error_pure {c : α} {e : ε} : (pure c : EStateM ε σ α) s = .error e s' ↔ False := by
  change EStateM.Result.ok c s = _ ↔ _
  simp

theorem error_get {e : ε} : (get : EStateM ε σ σ) s = .error e s' ↔ False := by
  change EStateM.Result.ok s s = _ ↔ _
  simp

theorem error_set {t : σ} {e : ε} : (set t : EStateM ε σ PUnit) s = .error e s' ↔ False := by
  change EStateM.Result.ok PUnit.unit t = _ ↔ _
  simp

theorem error_modify {f : σ → σ} {e : ε} :
    (modify f : EStateM ε σ PUnit) s = .error e s' ↔ False := by
  change EStateM.Result.ok PUnit.unit (f s) = _ ↔ _
  simp

theorem error_throw {d e : ε} : (throw d : EStateM ε σ α) s = .error e s' ↔ d = e ∧ s = s' := by
  change EStateM.Result.error d s = _ ↔ _
  simp

theorem error_check {x : Except ε α} {e : ε} :
    check x s = .error e s' ↔ x = .error e ∧ s = s' := by
  cases x with
  | error d =>
    change EStateM.Result.error d s = _ ↔ _
    simp
  | ok c =>
    change EStateM.Result.ok c s = _ ↔ _
    simp

theorem error_ite {c : Prop} [Decidable c] {x y : EStateM ε σ α} {e : ε} :
    (if c then x else y) s = .error e s' ↔
      c ∧ x s = .error e s' ∨ ¬ c ∧ y s = .error e s' := by
  by_cases h : c
  · simp [h]
  · simp [h]

/-- A checked function threw, and the state is as it was, or the rest of the method did. -/
theorem check_bind_error {x : Except ε α} {f : α → EStateM ε σ β} {e : ε}
    (h : (check x >>= f) s = .error e s') : s = s' ∨ ∃ a, x = .ok a ∧ f a s = .error e s' := by
  simp only [error_bind, error_check, ok_check] at h
  rcases h with ⟨-, rfl⟩ | ⟨a, _, ⟨hx, rfl⟩, h⟩
  · exact .inl rfl
  · exact .inr ⟨a, hx, h⟩

/-- A checked function returned, so the rest of the method threw. -/
theorem check_ok_bind_error {x : Except ε α} {f : α → EStateM ε σ β} {e : ε} (hx : x = .ok a)
    (h : (check x >>= f) s = .error e s') : f a s = .error e s' := by
  subst hx
  exact h

theorem get_bind_error {f : σ → EStateM ε σ β} {e : ε} (h : (get >>= f) s = .error e s') :
    f s s = .error e s' := by
  simp only [error_bind, error_get, false_or, ok_get] at h
  obtain ⟨_, _, ⟨rfl, rfl⟩, h⟩ := h
  exact h

/-! ## Runs -/

@[simp] theorem finalState_ok : finalState (.ok a s : EStateM.Result ε σ α) = s := rfl

@[simp] theorem finalState_error {e : ε} : finalState (.error e s : EStateM.Result ε σ α) = s := rfl

/-- The call returned. -/
def isOk : EStateM.Result ε σ α → Bool
  | .ok _ _ => true
  | .error _ _ => false

theorem eq_ok_of_isOk {r : EStateM.Result ε σ Unit} (h : isOk r = true) : r = .ok () (finalState r) := by
  cases r with
  | ok u s => rfl
  | error e s => cases h

/-- The method leaves a state with the property, whether it returned or threw. -/
def Keeps (P : σ → Prop) (x : EStateM ε σ α) : Prop := ∀ s, P s → P (finalState (x s))

section Keeps

variable {P : σ → Prop}

theorem Keeps.bind {x : EStateM ε σ α} {f : α → EStateM ε σ β} (hx : Keeps P x)
    (hf : ∀ a, Keeps P (f a)) : Keeps P (x >>= f) := by
  intro s hs
  change P (finalState (EStateM.bind x f s))
  have hstep := hx s hs
  unfold EStateM.bind
  cases h : x s with
  | ok a s' =>
    rw [h] at hstep
    exact hf a s' hstep
  | error e s' =>
    rw [h] at hstep
    exact hstep

/-- The rest of a method knows the state that it has read. -/
theorem Keeps.get_bind {f : σ → EStateM ε σ β} (h : ∀ s, P s → P (finalState (f s s))) :
    Keeps P (get >>= f) := h

theorem Keeps.pure {a : α} : Keeps P (Pure.pure a : EStateM ε σ α) := fun _ hs => hs

theorem Keeps.throw {e : ε} : Keeps P (MonadExcept.throw e : EStateM ε σ α) := fun _ hs => hs

theorem Keeps.modify {f : σ → σ} (h : ∀ s, P s → P (f s)) :
    Keeps P (modify f : EStateM ε σ PUnit) := h

theorem Keeps.ite {c : Prop} [Decidable c] {x y : EStateM ε σ α} (hx : c → Keeps P x)
    (hy : ¬ c → Keeps P y) : Keeps P (if c then x else y) := by
  by_cases h : c
  · rw [if_pos h]
    exact hx h
  · rw [if_neg h]
    exact hy h

/-- A method that throws in a case, before the rest of it. -/
theorem Keeps.guard {c : Prop} [Decidable c] {e : ε} {f : α → EStateM ε σ β} {x : EStateM ε σ β}
    (hx : ¬ c → Keeps P x) : Keeps P (if c then MonadExcept.throw e >>= f else x) :=
  Keeps.ite (fun _ _ hs => hs) hx

/-- A method that does something only in a case, before the rest of it. -/
theorem Keeps.when {c : Prop} [Decidable c] {x : EStateM ε σ PUnit} {f : PUnit → EStateM ε σ β}
    (hx : c → Keeps P x) (hf : ∀ u, Keeps P (f u)) :
    Keeps P (if c then x >>= f else f PUnit.unit) :=
  Keeps.ite (fun hc => Keeps.bind (hx hc) hf) fun _ => hf _

end Keeps

/-- What a loop that returned keeps, by the elements it has seen. -/
theorem forM_induction {f : α → EStateM ε σ Unit} {P : List α → σ → Prop}
    (h : ∀ seen a s s', P seen s → f a s = .ok () s' → P (seen ++ [a]) s') {l : List α}
    (hs : P [] s) (hl : (forM l f) s = .ok u s') : P l s' := by
  suffices haux : ∀ rest seen s, P seen s → (forM rest f) s = .ok u s' → P (seen ++ rest) s' from
    haux l [] s hs hl
  intro rest
  induction rest with
  | nil =>
    intro seen s hP hs
    rw [List.forM_nil, ok_pure] at hs
    rw [List.append_nil, ← hs.2]
    exact hP
  | cons a rest ih =>
    intro seen s hP hs
    rw [List.forM_cons, ok_bind] at hs
    obtain ⟨_, s₁, hstep, hrest⟩ := hs
    have := ih (seen ++ [a]) s₁ (h seen a s s₁ hP hstep) hrest
    rwa [List.append_assoc] at this

/-- A run of calls whose failures are survived. -/
def calls (f : α → EStateM ε σ Unit) (s : σ) (l : List α) : σ :=
  l.foldl (fun s a => finalState (f a s)) s

/-- The calls of a run that returned. -/
def returned (f : α → EStateM ε σ Unit) (s : σ) : List α → List α
  | [] => []
  | a :: l => match f a s with
    | .ok _ s' => a :: returned f s' l
    | .error _ s' => returned f s' l

end Stateful

end OVMesh
