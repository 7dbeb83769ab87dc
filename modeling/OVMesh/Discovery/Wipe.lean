import OVMesh.Discovery.Preamble
import OVMesh.Discovery.Replay

/-!
# What a reset leaves

A reset wipes the range of its ring that was written, not all of it. Every place of the ring is zero then,
after any calls.

* `Decoder.held`: the ring of the automatic decoder, with its range.
* `held_feedActive`, `held_observe`: only `feed` writes it.
* `RingInv`: what was written since the last wipe is in the range, or was overwritten.
* `reset_rings`: the two discoveries and the screen.
-/

namespace OVMesh

namespace Discovery

open Runs

section Wipe

variable {K C δ : Type} [Field K] [LinearOrder K] [FloorRing K]
  {config : DecoderConfig K} {machine : Machine C δ} {d : Decoder K C δ} {decoder : Active K C δ}
  {actives : List (Active K C δ)} {values : List C} {w : Waveform K}
  {first last fuel position inputAnchor inputStride inputSegment : ℕ}

namespace Decoder

/-- The history with its range, and whether there is a segment. -/
def held (d : Decoder K C δ) : List C × ℕ × ℕ × Bool :=
  (d.history, d.historyBegin, d.historyEnd, d.initialized)

omit [LinearOrder K] [FloorRing K] in
@[simp] theorem held_onFrame (phy : ReceivedFrame) : (d.onFrame config decoder phy).1.held = d.held := by
  rw [onFrame]
  split_ifs
  · rfl
  · rfl

omit [LinearOrder K] [FloorRing K] in
@[simp] theorem held_process : (d.process config machine decoder values).1.held = d.held := by
  rw [process]
  generalize (machine.feed decoder.phy values).2 = phys
  generalize ({ decoder with
    phy := (machine.feed decoder.phy values).1, chunks := decoder.chunks ++ [values] } :
      Active K C δ) = next
  induction phys generalizing d next with
  | nil => rfl
  | cons phy phys ih => rw [List.foldl_cons, ih, held_onFrame]

omit [LinearOrder K] [FloorRing K] in
@[simp] theorem held_feedOne : (feedOne config machine first values d decoder).1.held = d.held := by
  simp only [feedOne]
  split_ifs <;> simp

omit [Field K] [LinearOrder K] [FloorRing K] in
@[simp] theorem held_retire {outcome : Outcome} : (d.retire decoder outcome).held = d.held := rfl

omit [Field K] [LinearOrder K] [FloorRing K] in
@[simp] theorem held_timeout : d.timeout.held = d.held := rfl

omit [LinearOrder K] [FloorRing K] in
/-- The loop of `feed` over the active decoders. -/
theorem held_feedActive : (feedActive config machine first values d actives).1.held = d.held := by
  induction actives generalizing d with
  | nil => rfl
  | cons decoder actives ih =>
    simp only [feedActive]
    split_ifs <;> simp [ih]

omit [LinearOrder K] [FloorRing K] in
/-- The loop of `observe` over the history. -/
theorem held_replay : (replay config machine last fuel d decoder position).1.held = d.held := by
  induction fuel generalizing d decoder position with
  | zero => rfl
  | succ fuel ih =>
    rw [replay]
    split_ifs
    · rw [ih, held_process]
    · rfl

theorem held_launch {replayStart deadline : ℕ} :
    (d.launch config machine w replayStart deadline).held = d.held := by
  simp only [launch]
  split_ifs
  · rw [held_retire]
    exact held_replay
  · exact held_replay (d := d.start w)

omit [Field K] [LinearOrder K] [FloorRing K] in
theorem held_refuse {refusal : Refusal} : (d.refuse refusal).held = d.held := rfl

theorem held_consider : (d.consider config machine w).held = d.held := by
  rw [consider]
  split
  · exact held_refuse
  · split_ifs
    all_goals first
      | exact held_refuse
      | exact held_launch

/-- A candidate leaves the ring as it is. -/
theorem held_observe {found : LoRaDiscovery K} : (d.observe config machine found).held = d.held := by
  rw [observe]
  split_ifs
  · rfl
  · simp only
    split
    · exact held_refuse
    · exact held_consider

/-! ## The range -/

/-- `history.size()`: a decoder that is disabled keeps no history. -/
def historyLength (config : DecoderConfig K) : ℕ := if config.enabled then config.capacity else 0

variable [Zero C]

/-- The range has what was written since the last wipe, none when there is no segment. -/
structure RingInv (config : DecoderConfig K) (d : Decoder K C δ) : Prop where
  length : d.history.length = historyLength config
  written : Ring.Written d.history 0 d.historyBegin d.historyEnd
  fresh : d.initialized = false → d.history = List.replicate (historyLength config) 0

omit [Field K] [LinearOrder K] [FloorRing K] in
theorem RingInv.of_held {d' : Decoder K C δ} (h : RingInv config d) (hheld : d'.held = d.held) :
    RingInv config d' := by
  simp only [held, Prod.mk.injEq] at hheld
  obtain ⟨hhistory, hbegin, hend, hinitialized⟩ := hheld
  exact ⟨by rw [hhistory, h.length], by rw [hhistory, hbegin, hend]; exact h.written,
    fun hfresh => hhistory.trans (h.fresh (hinitialized.symm.trans hfresh))⟩

omit [Field K] [LinearOrder K] [FloorRing K] in
/-- **A reset.** -/
theorem RingInv.reset_history (h : RingInv config d) :
    d.reset.history = List.replicate (historyLength config) 0 := by
  obtain ⟨-, -, hhistory⟩ := reset_ended (d := d)
  rw [hhistory, h.written.wipe, h.length]

omit [Field K] [LinearOrder K] [FloorRing K] in
theorem ring_begin (h : RingInv config d) (hfresh : d.initialized = false) :
    RingInv config { d with
      historyBegin := first, historyEnd := first, anchor := inputAnchor, stride := inputStride
      segment := inputSegment, initialized := true, base := first } := by
  refine ⟨h.length, ?_, fun h => absurd h Bool.noConfusion⟩
  show Ring.Written d.history 0 first first
  rw [h.fresh hfresh]
  exact Ring.written_replicate

omit [Field K] [LinearOrder K] [FloorRing K] in
theorem ring_reset (h : RingInv config d) : RingInv config d.reset := by
  have hhistory := h.reset_history
  refine ⟨?_, ?_, fun _ => hhistory⟩
  · rw [hhistory, List.length_replicate]
  · rw [hhistory]
    exact Ring.written_replicate

omit [Field K] [LinearOrder K] [FloorRing K] in
theorem ring_enterSegment (h : RingInv config d) :
    RingInv config (d.enterSegment first inputAnchor inputStride inputSegment) := by
  simp only [enterSegment]
  split_ifs with hbreak hreset hinitialized
  · exact ring_reset h
  · exact ring_begin (ring_reset h) rfl
  · exact h
  · exact ring_begin h (by simpa using hinitialized)

variable (values) in
omit [Field K] [LinearOrder K] [FloorRing K] in
/-- A block moves the end of the range, and its beginning when the ring is full. -/
theorem ring_record (henabled : config.enabled = true) (hstarted : d.initialized = true)
    (h : RingInv config d) : RingInv config (d.record values) := by
  have hpos : 0 < d.history.length := by
    rw [h.length, historyLength, if_pos henabled]
    exact lt_of_lt_of_le (by decide) config.capacity_ge
  obtain ⟨value, hfilled⟩ := h.written
  have hle := hfilled.le
  have hwritten := (h.written.write hpos values).mono
  rw [Ring.length_write] at hwritten
  refine ⟨?_, ?_, fun hfresh => ?_⟩
  · rw [record, Ring.length_write, h.length]
  · simp only [record]
    have hbegin : (if d.historyEnd + values.length - d.historyBegin > d.history.length then
        d.historyEnd + values.length - d.history.length else d.historyBegin) =
        max d.historyBegin (d.historyEnd + values.length - d.history.length) := by
      split_ifs <;> omega
    rw [hbegin]
    exact hwritten
  · exact absurd (hstarted.symm.trans hfresh) Bool.noConfusion

omit [LinearOrder K] [FloorRing K] in
theorem ring_feed (h : RingInv config d) :
    RingInv config (d.feed config machine values first inputAnchor inputStride inputSegment).1 := by
  rw [feed]
  split_ifs with henabled
  · exact h
  · exact h
  · exact ring_reset h
  · have henter : RingInv config (d.enterSegment first inputAnchor inputStride inputSegment) :=
      ring_enterSegment h
    have hstarted : (d.enterSegment first inputAnchor inputStride inputSegment).initialized = true := by
      simp only [enterSegment]
      split_ifs <;> simp_all
    have hrecord := ring_record values (by simpa using henabled) hstarted henter
    exact hrecord.of_held held_feedActive

theorem ring_step (call : Call K C) (h : RingInv config d) : RingInv config (d.step config machine call) := by
  cases call with
  | feed values first inputAnchor inputStride inputSegment => exact ring_feed h
  | observe found => exact h.of_held held_observe
  | reset => exact ring_reset h

omit [Field K] [LinearOrder K] [FloorRing K] in
theorem ring_initial : RingInv config (initial config : Decoder K C δ) := by
  have hhistory : (initial config : Decoder K C δ).history = List.replicate (historyLength config) 0 := by
    rw [initial, historyLength]
    split_ifs <;> rfl
  refine ⟨?_, ?_, fun _ => hhistory⟩
  · rw [hhistory, List.length_replicate]
  · rw [hhistory]
    exact Ring.written_replicate

variable (machine) in
/-- The ring after any calls. -/
theorem ring_run (calls : List (Call K C)) : RingInv config (run (step config machine) (initial config) calls) :=
  @invariant_run _ _ (step config machine) (RingInv config) _ (fun _ call h => ring_step call h)
    ring_initial calls

end Decoder

end Wipe

/-- After any calls, a reset leaves zero in every place of the rings of the preamble discovery and of its
screen, of the automatic decoder, and of a screen on its own. -/
theorem reset_rings {C K L δ σ : Type} [Field C] [StarRing C] [Field K] [LinearOrder K] [Field L]
    [LinearOrder L] [FloorRing L] (numbers : ScreenNumbers C K) (search : PreambleSearch C K σ) (fresh : σ)
    (config : DecoderConfig L) (machine : Machine C δ) (feeds : List (PreambleCall C))
    (calls : List (Call L C)) (pushes : List (ScreenCall C)) :
    let preamble := (run (Preamble.step numbers search) (Preamble.initial fresh) feeds).reset search
    let decoder := (run (Decoder.step config machine) (Decoder.initial config) calls).reset
    let screen := (run (DiscoveryChirpScreen.step numbers) .initial pushes).reset
    preamble.ring = List.replicate ringCapacity 0 ∧
    preamble.screen.history = List.replicate ChirpScreen.historySize 0 ∧
    decoder.history = List.replicate (if config.enabled then config.capacity else 0) 0 ∧
    screen.history = List.replicate ChirpScreen.historySize 0 := by
  intro preamble decoder screen
  obtain ⟨hring, hscreen⟩ := preamble_reset numbers search fresh feeds
  have hdecoder : decoder.history = _ := (Decoder.ring_run machine calls).reset_history
  have hpushes : screen = .initial := (screen_run pushes).reset
  refine ⟨hring, ?_, hdecoder, ?_⟩
  · rw [show preamble.screen = .initial from hscreen]
    rfl
  · rw [hpushes]
    rfl

end Discovery

end OVMesh
