import OVMesh.Lib.Numerals

/-!
# Runs of a step function

A machine as a total step function, and what holds of all of its runs.

* `run`: the state after some events.
* `Along`: what holds of every step of a run, of the state before it and its event.
* `along_iff_forall`: the steps of a run are the places where its events split.
* `Along.invariant`, `Along.imp`: an invariant that the steps of a run keep.
-/

namespace OVMesh

namespace Runs

variable {σ ε : Type} (step : σ → ε → σ)

/-- The state after some events. -/
def run (s : σ) (events : List ε) : σ := events.foldl step s

/-- Every step of the run satisfies `P`. -/
def Along (P : σ → ε → Prop) : σ → List ε → Prop
  | _, [] => True
  | s, e :: events => P s e ∧ Along P (step s e) events

variable {step} {P Q : σ → ε → Prop} {Inv : σ → Prop} {s : σ} {e : ε} {events before : List ε}

@[simp] theorem run_nil : run step s [] = s := rfl

@[simp] theorem run_cons : run step s (e :: events) = run step (step s e) events := rfl

theorem run_append : run step s (before ++ events) = run step (run step s before) events :=
  List.foldl_append

theorem run_concat : run step s (events ++ [e]) = step (run step s events) e := by
  rw [run_append, run_cons, run_nil]

theorem along_append :
    Along step P s (before ++ events) ↔ Along step P s before ∧ Along step P (run step s before) events := by
  induction before generalizing s with
  | nil => simp [Along]
  | cons e before ih => rw [List.cons_append, Along, Along, ih, run_cons, and_assoc]

theorem along_iff_forall : Along step P s events ↔
    ∀ before e after, events = before ++ e :: after → P (run step s before) e := by
  induction events generalizing s with
  | nil => simp [Along]
  | cons e events ih =>
    rw [Along, ih]
    constructor
    · rintro ⟨he, hrest⟩ before e' after hsplit
      cases before with
      | nil =>
        obtain ⟨rfl, -⟩ := List.cons.inj hsplit
        exact he
      | cons e₀ before =>
        obtain ⟨rfl, hevents⟩ := List.cons.inj hsplit
        exact hrest before e' after hevents
    · intro h
      refine ⟨h [] e events rfl, fun before e' after hsplit => ?_⟩
      exact h (e :: before) e' after (by rw [hsplit, List.cons_append])

/-- What every step of a run keeps holds at its end. -/
theorem Along.invariant (hkeep : ∀ s e, Inv s → P s e → Inv (step s e)) (h : Along step P s events)
    (hs : Inv s) : Inv (run step s events) := by
  induction events generalizing s with
  | nil => exact hs
  | cons e events ih => exact ih h.2 (hkeep s e hs h.1)

theorem Along.imp (hkeep : ∀ s e, Inv s → P s e → Inv (step s e))
    (himp : ∀ s e, Inv s → P s e → Q s e) (h : Along step P s events) (hs : Inv s) :
    Along step Q s events := by
  induction events generalizing s with
  | nil => trivial
  | cons e events ih => exact ⟨himp s e hs h.1, ih h.2 (hkeep s e hs h.1)⟩

/-- What every step keeps holds after every run. -/
theorem invariant_run (hkeep : ∀ s e, Inv s → Inv (step s e)) (hs : Inv s) (events : List ε) :
    Inv (run step s events) := by
  induction events generalizing s with
  | nil => exact hs
  | cons e events ih => exact ih (hkeep s e hs)

end Runs

end OVMesh
