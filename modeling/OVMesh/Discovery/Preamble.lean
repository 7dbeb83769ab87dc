import OVMesh.Discovery.ChirpScreen

/-!
# The preamble discovery

`LoRaPreambleDiscovery`: its ring of samples, its chirp screen, and its calls. The search at a checkpoint
is a parameter, which reads everything and may throw.

* `Preamble.feed`, `reset`: the calls. `clearHistory`: the clearing that they share.
* `PreambleInv`: the ring has what was written since the last clearing, and the screen goes on with it.
* `feedSamples_inv`: the loop of `feed`. `preamble_run`: any calls.
-/

namespace OVMesh

namespace Discovery

open Runs

/-- `capacity`: the samples that the ring has slots for. -/
def ringCapacity : ℕ := 524288

/-- The members of `LoRaPreambleDiscovery::Impl`. The search has the rest of them. -/
structure Preamble (C K σ : Type) where
  ring : List C
  screen : DiscoveryChirpScreen C K
  beginIndex : ℕ := 0
  endIndex : ℕ := 0
  initialized : Bool := false
  samples : ℕ := 0
  resets : ℕ := 0
  search : σ

/-- The search: what clears it, and what a checkpoint leaves of it, of the count of recomputations of the
screen, and the text where it throws. `bounded` are the samples whose parts are at most 16. -/
structure PreambleSearch (C K σ : Type) where
  clear : σ → σ
  checkpoint : Preamble C K σ → σ × ℕ × Option String
  bounded : C → Bool

section Preamble

variable {C K σ : Type} [Field C] [StarRing C] [Field K] [LinearOrder K] (numbers : ScreenNumbers C K)
  (search : PreambleSearch C K σ)

namespace Preamble

/-- A detector before its first sample, with a fresh search. -/
def initial (fresh : σ) : Preamble C K σ :=
  { ring := List.replicate ringCapacity 0, screen := .initial, search := fresh }

/-- `clear_history`: the samples of the ring are overwritten, and the screen and the search start anew. -/
def clearHistory (p : Preamble C K σ) : Preamble C K σ :=
  { p with
    ring := if p.initialized then Ring.wipe p.ring p.beginIndex (p.endIndex - p.beginIndex) 0 else p.ring
    screen := p.screen.reset
    search := search.clear p.search
    beginIndex := 0, endIndex := 0, initialized := false }

/-- One turn of the loop of `feed`, with the text where it throws. -/
def sample (p : Preamble C K σ) (x : C) : Preamble C K σ × Option String :=
  if !numbers.finite x || !search.bounded x then
    let next := p.endIndex + 1
    let p := { p with samples := p.samples + 1, resets := p.resets + 1 }
    ({ p.clearHistory search with beginIndex := next, endIndex := next, initialized := true }, none)
  else
    let p := { p with ring := p.ring.set (p.endIndex % p.ring.length) x }
    match p.screen.push numbers x p.endIndex with
    | (screen, some error) => ({ p with screen }, some error)
    | (screen, none) =>
      let p := { p with screen, endIndex := p.endIndex + 1, samples := p.samples + 1 }
      if p.endIndex % 128 = 0 then
        let (found, recomputations, error) := search.checkpoint p
        ({ p with search := found, screen := { p.screen with recomputations } }, error)
      else (p, none)

/-- The loop of `feed`, up to where it throws. -/
def feedSamples : Preamble C K σ → List C → Preamble C K σ × Option String
  | p, [] => (p, none)
  | p, x :: samples =>
    match sample numbers search p x with
    | (p, some error) => (p, some error)
    | (p, none) => feedSamples p samples

/-- `feed`: samples that do not follow the earlier ones clear the history first; coordinates that a double
cannot hold are refused. -/
def feed (p : Preamble C K σ) (samples : List C) (first : ℕ) : Preamble C K σ × Option String :=
  if samples.length > 2 ^ 64 - 1 - first then (p, some "Discovery sample index overflow")
  else if first > 2 ^ 53 ∨ samples.length > 2 ^ 53 - first then
    (p, some "Discovery sample index exceeds exact timestamp domain")
  else
    let p :=
      if p.initialized = false ∨ first ≠ p.endIndex then
        let p := { p with resets := if p.initialized then p.resets + 1 else p.resets }
        { p.clearHistory search with beginIndex := first, endIndex := first, initialized := true }
      else p
    feedSamples numbers search p samples

/-- `reset`: the history is cleared, and the call is counted. -/
def reset (p : Preamble C K σ) : Preamble C K σ :=
  clearHistory search { p with resets := p.resets + 1 }

end Preamble

/-- A call of the discovery. -/
inductive PreambleCall (C : Type)
  | feed (samples : List C) (first : ℕ)
  | reset

/-- One call of the detector. -/
def Preamble.step (p : Preamble C K σ) : PreambleCall C → Preamble C K σ
  | .feed samples first => (p.feed numbers search samples first).1
  | .reset => p.reset search

/-! ## The ring and the screen -/

/-- The ring has what was written since the last clearing, none when there are no samples, and the
screen goes on at the end. -/
structure PreambleInv (p : Preamble C K σ) : Prop where
  length : p.ring.length = ringCapacity
  written : Ring.Written p.ring 0 p.beginIndex p.endIndex
  fresh : p.initialized = false → p.ring = List.replicate ringCapacity 0
  screen : ∃ current, ScreenInv numbers p.screen current ∧ ∀ stretch ∈ current, stretch.endIndex = p.endIndex

variable {numbers search} {p : Preamble C K σ} {x : C} {samples : List C} {first : ℕ}

variable (search) in
/-- **A clearing.** Nothing is left in the two rings. -/
theorem clearHistory_rings (h : PreambleInv numbers p) :
    (p.clearHistory search).ring = List.replicate ringCapacity 0 ∧
      (p.clearHistory search).screen = .initial := by
  obtain ⟨current, hscreen, -⟩ := h.screen
  refine ⟨?_, hscreen.reset⟩
  rw [Preamble.clearHistory]
  cases hinitialized : p.initialized with
  | true =>
    rw [if_pos rfl, h.written.wipe, h.length]
  | false =>
    rw [if_neg Bool.false_ne_true]
    exact h.fresh hinitialized

/-- A stretch begins after a clearing. -/
theorem inv_cleared (h : PreambleInv numbers p) (first : ℕ) (started : Bool) :
    PreambleInv numbers { p.clearHistory search with
      beginIndex := first, endIndex := first, initialized := started } := by
  obtain ⟨hring, hscreen⟩ := clearHistory_rings search h
  refine ⟨?_, ?_, fun _ => hring, none, hscreen, fun stretch hstretch => ?_⟩
  · show (p.clearHistory search).ring.length = _
    rw [hring, List.length_replicate]
  · show Ring.Written (p.clearHistory search).ring 0 first first
    rw [hring]
    exact Ring.written_replicate
  · cases hstretch

/-- A sample at the end of what the screen has is accepted. -/
theorem push_end {s : DiscoveryChirpScreen C K} {current : Option (Stretch C)} {index : ℕ}
    (h : ScreenInv numbers s current) (hend : ∀ stretch ∈ current, stretch.endIndex = index)
    (hfinite : numbers.finite x = true) (hindex : index + 1 < 2 ^ 64) :
    (s.push numbers x index).2 = none ∧ ∃ stretch, ScreenAt numbers (s.push numbers x index).1 stretch ∧
      stretch.endIndex = index + 1 := by
  have hlast : index ≠ 2 ^ 64 - 1 := by omega
  have hpush : ScreenInv numbers (s.push numbers x index).1
      (Stretch.step numbers current (.push x ⟨index, by omega⟩)) := h.push _
  have haccepted : ¬ (numbers.finite x = false ∨ index = 2 ^ 64 - 1 ∨
      (s.initialized = true ∧ index ≠ s.endIndex)) := by
    rw [hfinite]
    rintro (hnot | hfull | ⟨hinitialized, hgap⟩)
    · cases hnot
    · exact hlast hfull
    · cases current with
      | none =>
        obtain rfl : s = .initial := h
        cases hinitialized
      | some stretch =>
        have h : ScreenAt numbers s stretch := h
        exact hgap ((hend stretch rfl).symm.trans h.endIndex.symm)
  refine ⟨by rw [DiscoveryChirpScreen.push, if_neg haccepted], ?_⟩
  cases current with
  | none =>
    have hkept : ¬ (numbers.finite x = false ∨ index = 2 ^ 64 - 1) := by
      rw [hfinite]
      rintro (hnot | hfull)
      · cases hnot
      · exact hlast hfull
    rw [Stretch.step, if_neg hkept] at hpush
    exact ⟨_, hpush, rfl⟩
  | some stretch =>
    have hgoes : index = stretch.first + stretch.values.length := (hend stretch rfl).symm
    have hkept : ¬ (numbers.finite x = false ∨ index = 2 ^ 64 - 1 ∨
        index ≠ stretch.first + stretch.values.length) := by
      rw [hfinite]
      rintro (hnot | hfull | hgap)
      · cases hnot
      · exact hlast hfull
      · exact hgap hgoes
    rw [Stretch.step, if_neg hkept] at hpush
    refine ⟨_, hpush, ?_⟩
    rw [hgoes, Stretch.endIndex, List.length_append, List.length_singleton, Nat.add_assoc]

variable (search x) in
/-- **A turn of the loop.** A sample enters both rings, or clears them. -/
theorem sample_inv (h : PreambleInv numbers p) (hstarted : p.initialized = true)
    (hindex : p.endIndex < 2 ^ 53) :
    PreambleInv numbers (p.sample numbers search x).1 ∧ (p.sample numbers search x).1.initialized = true ∧
      (p.sample numbers search x).1.endIndex = p.endIndex + 1 := by
  rw [Preamble.sample]
  by_cases hrefused : (!numbers.finite x || !search.bounded x) = true
  · rw [if_pos hrefused]
    have hcounted : PreambleInv numbers
        ({ p with samples := p.samples + 1, resets := p.resets + 1 } : Preamble C K σ) :=
      ⟨h.length, h.written, h.fresh, h.screen⟩
    exact ⟨inv_cleared hcounted _ _, rfl, rfl⟩
  · rw [if_neg hrefused]
    obtain ⟨current, hscreen, hend⟩ := h.screen
    have hpos : 0 < p.ring.length := by
      rw [h.length]
      decide
    obtain ⟨haccepted, stretch, hat, hnext⟩ : (p.screen.push numbers x p.endIndex).2 = none ∧
        ∃ stretch, ScreenAt numbers (p.screen.push numbers x p.endIndex).1 stretch ∧
          stretch.endIndex = p.endIndex + 1 :=
      push_end hscreen hend (by simp_all) (by omega)
    rcases hpush : p.screen.push numbers x p.endIndex with ⟨screen, error⟩
    rw [hpush] at haccepted hat
    obtain rfl : error = none := haccepted
    have hlength : (p.ring.set (p.endIndex % p.ring.length) x).length = ringCapacity := by
      rw [List.length_set, h.length]
    have hwritten : Ring.Written (p.ring.set (p.endIndex % p.ring.length) x) 0 p.beginIndex
        (p.endIndex + 1) := h.written.set hpos x
    simp only [hpush]
    by_cases hcheckpoint : (p.endIndex + 1) % 128 = 0
    · -- a checkpoint only counts in the screen
      rw [if_pos hcheckpoint]
      refine ⟨⟨hlength, hwritten, fun hfresh => ?_, some stretch, ?_, fun _ hsome => ?_⟩, hstarted, rfl⟩
      · exact absurd (hstarted.symm.trans hfresh) Bool.noConfusion
      · have hasked : ScreenInv numbers screen (some stretch) := hat
        exact hasked.asked ⟨_, rfl, fun hfresh => absurd (hat.initialized.symm.trans hfresh) Bool.noConfusion⟩
      · obtain rfl := Option.mem_some.mp hsome
        exact hnext
    · rw [if_neg hcheckpoint]
      refine ⟨⟨hlength, hwritten, fun hfresh => ?_, some stretch, hat, fun _ hsome => ?_⟩, hstarted, rfl⟩
      · exact absurd (hstarted.symm.trans hfresh) Bool.noConfusion
      · obtain rfl := Option.mem_some.mp hsome
        exact hnext

/-- The loop of `feed`, also where a checkpoint ends it. -/
theorem feedSamples_inv (h : PreambleInv numbers p) (hstarted : p.initialized = true)
    (hindex : p.endIndex + samples.length ≤ 2 ^ 53) :
    PreambleInv numbers (p.feedSamples numbers search samples).1 := by
  induction samples generalizing p with
  | nil => exact h
  | cons x samples ih =>
    rw [List.length_cons] at hindex
    obtain ⟨hinv, hstarted', hend⟩ := sample_inv search x h hstarted (by omega)
    rw [Preamble.feedSamples]
    rcases hsample : p.sample numbers search x with ⟨next, error⟩
    rw [hsample] at hinv hstarted' hend
    cases error with
    | some error => exact hinv
    | none => exact ih hinv hstarted' (by simp only at hend; omega)

theorem feed_inv (h : PreambleInv numbers p) :
    PreambleInv numbers (p.feed numbers search samples first).1 := by
  rw [Preamble.feed]
  by_cases hoverflow : samples.length > 2 ^ 64 - 1 - first
  · rw [if_pos hoverflow]
    exact h
  rw [if_neg hoverflow]
  by_cases hinexact : first > 2 ^ 53 ∨ samples.length > 2 ^ 53 - first
  · rw [if_pos hinexact]
    exact h
  rw [if_neg hinexact]
  by_cases hbreak : p.initialized = false ∨ first ≠ p.endIndex
  · simp only [if_pos hbreak]
    generalize (if p.initialized = true then p.resets + 1 else p.resets) = resets
    have hcounted : PreambleInv numbers ({ p with resets } : Preamble C K σ) :=
      ⟨h.length, h.written, h.fresh, h.screen⟩
    refine feedSamples_inv (inv_cleared hcounted first true) rfl ?_
    show first + samples.length ≤ 2 ^ 53
    omega
  · simp only [if_neg hbreak]
    rw [not_or, Bool.not_eq_false, not_not] at hbreak
    exact feedSamples_inv h hbreak.1 (by omega)

theorem reset_counted (h : PreambleInv numbers p) :
    PreambleInv numbers ({ p with resets := p.resets + 1 } : Preamble C K σ) :=
  ⟨h.length, h.written, h.fresh, h.screen⟩

theorem preamble_step (call : PreambleCall C) (h : PreambleInv numbers p) :
    PreambleInv numbers (p.step numbers search call) := by
  cases call with
  | feed samples first => exact feed_inv h
  | reset => exact inv_cleared (reset_counted h) 0 false

theorem preamble_initial (fresh : σ) : PreambleInv numbers (Preamble.initial fresh : Preamble C K σ) :=
  ⟨List.length_replicate, Ring.written_replicate, fun _ => rfl, none, rfl, fun _ hnone => by cases hnone⟩

/-- The rings after any calls. -/
theorem preamble_run (fresh : σ) (calls : List (PreambleCall C)) :
    PreambleInv numbers (run (Preamble.step numbers search) (Preamble.initial fresh) calls) :=
  @invariant_run _ _ (Preamble.step numbers search) (PreambleInv numbers) _
    (fun _ call h => preamble_step call h) (preamble_initial fresh) calls

variable (numbers search) in
/-- A reset after any calls. -/
theorem preamble_reset (fresh : σ) (calls : List (PreambleCall C)) :
    let p := (run (Preamble.step numbers search) (Preamble.initial fresh) calls).reset search
    p.ring = List.replicate ringCapacity 0 ∧ p.screen = .initial :=
  clearHistory_rings search (reset_counted (preamble_run fresh calls))

end Preamble

end Discovery

end OVMesh
