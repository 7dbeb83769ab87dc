import OVMesh.Discovery.Decoder

/-!
# The candidates of the automatic decoder

Every candidate ends in one counter or is an active decoder.

* `DecoderStats.settled`: the candidates that have ended.
* `Tally`: the counters with a number of decoders on the way.
* `decoder_balance`: the counters balance after any calls.
-/

namespace OVMesh

namespace Discovery

open Runs

/-- `std::numeric_limits<uint64_t>::max()`, where `increment` stops. -/
def countMax : ℕ := 2 ^ 64 - 1

theorem increment_eq {c : ℕ} (h : c < countMax) : increment c = c + 1 := by
  rw [countMax] at h
  rw [increment, if_pos (by omega)]

theorem increment_mono {a b : ℕ} (h : a ≤ b) : increment a ≤ increment b := by
  simp only [increment]
  split_ifs <;> omega

theorem le_increment (c : ℕ) : c ≤ increment c := by
  simp only [increment]
  split_ifs <;> omega

/-- The candidates that have ended. -/
def DecoderStats.settled (c : DecoderStats) : ℕ :=
  c.completed + c.abandonedDecoders + c.timeouts + c.historyMisses + c.activeLimitHits +
    c.duplicateCandidates + c.excludedCandidates + c.outsideRangeCandidates + c.unsupportedCandidates

/-- The counters, while `n` candidates have not ended. -/
structure Tally (c : DecoderStats) (n : ℕ) : Prop where
  total : c.candidates < countMax → c.candidates = c.settled + n
  started : c.started ≤ c.candidates
  crcValid : c.crcValid ≤ c.completed

section Balance

variable {K C δ : Type} [Field K] [LinearOrder K] [FloorRing K] [Zero C]
  (config : DecoderConfig K) (machine : Machine C δ) (values : List C) {d : Decoder K C δ}
  {c : DecoderStats} {decoder : Active K C δ} {actives : List (Active K C δ)} {w : Waveform K}
  {n first position inputAnchor inputStride inputSegment : ℕ}

/-- A new candidate. -/
theorem Tally.candidate (h : Tally c n) :
    Tally { c with candidates := increment c.candidates } (n + 1) := by
  refine ⟨fun hmax => ?_, h.started.trans (le_increment _), h.crcValid⟩
  have hlt : c.candidates < countMax := (le_increment _).trans_lt hmax
  have htotal := h.total hlt
  change increment c.candidates = c.settled + (n + 1)
  rw [increment_eq hlt]
  omega

/-- A decoder completes. -/
theorem Tally.complete (h : Tally c (n + 1)) {crcValid : ℕ}
    (hcrc : crcValid = c.crcValid ∨ crcValid = increment c.crcValid) :
    Tally { c with completed := increment c.completed, crcValid := crcValid } n := by
  refine ⟨fun hmax => ?_, h.started, ?_⟩
  · have htotal := h.total hmax
    change c.candidates < countMax at hmax
    simp only [DecoderStats.settled] at htotal ⊢
    rw [increment_eq (by omega)]
    omega
  · rcases hcrc with rfl | rfl
    · exact h.crcValid.trans (le_increment _)
    · exact increment_mono h.crcValid

/-- A decoder is abandoned. -/
theorem Tally.abandon (h : Tally c (n + 1)) :
    Tally { c with abandonedDecoders := increment c.abandonedDecoders } n := by
  refine ⟨fun hmax => ?_, h.started, h.crcValid⟩
  have htotal := h.total hmax
  change c.candidates < countMax at hmax
  simp only [DecoderStats.settled] at htotal ⊢
  rw [increment_eq (by omega)]
  omega

namespace Decoder

omit [Field K] [LinearOrder K] [FloorRing K] [Zero C] in
/-- A candidate is refused, or times out. -/
theorem tally_refuse {refusal : Refusal} (h : Tally d.counters (n + 1)) :
    Tally (d.refuse refusal).counters n := by
  cases refusal <;>
  · refine ⟨fun hmax => ?_, h.started, h.crcValid⟩
    have htotal := h.total hmax
    change d.counters.candidates < countMax at hmax
    simp only [DecoderStats.settled, refuse] at htotal ⊢
    rw [increment_eq (by omega)]
    omega

omit [Field K] [LinearOrder K] [FloorRing K] [Zero C] in
theorem tally_timeout (h : Tally d.counters (n + 1)) : Tally d.timeout.counters n := by
  have hrefused : Tally (d.refuse .timeout).counters n := tally_refuse h
  exact hrefused

omit [LinearOrder K] [FloorRing K] [Zero C] in
/-- A block for one decoder: it goes on, or it completes and is counted. -/
theorem tally_process (hopen : decoder.completed = false) (h : Tally d.counters (n + 1)) :
    ((d.process config machine decoder values).2.completed = false →
      Tally (d.process config machine decoder values).1.counters (n + 1)) ∧
    ((d.process config machine decoder values).2.completed = true →
      Tally (d.process config machine decoder values).1.counters n) := by
  rcases process_cases config machine values (d := d) hopen with
    hprocess | ⟨crcValid, frames, hcrc, hprocess⟩
  · rw [hprocess]
    exact ⟨fun _ => h, fun hcompleted => absurd (hopen.symm.trans hcompleted) Bool.noConfusion⟩
  · rw [hprocess]
    exact ⟨fun hcompleted => absurd hcompleted Bool.noConfusion, fun _ => h.complete hcrc⟩

omit [LinearOrder K] [FloorRing K] [Zero C] in
theorem tally_feedOne (first : ℕ) (hopen : decoder.completed = false) (h : Tally d.counters (n + 1)) :
    ((feedOne config machine first values d decoder).2.completed = false →
      Tally (feedOne config machine first values d decoder).1.counters (n + 1)) ∧
    ((feedOne config machine first values d decoder).2.completed = true →
      Tally (feedOne config machine first values d decoder).1.counters n) := by
  simp only [feedOne]
  split_ifs
  · exact tally_process config machine _ hopen h
  · exact ⟨fun _ => h, fun hcompleted => absurd (hopen.symm.trans hcompleted) Bool.noConfusion⟩
  · exact tally_process config machine _ hopen h
  · exact ⟨fun _ => h, fun hcompleted => absurd (hopen.symm.trans hcompleted) Bool.noConfusion⟩

omit [LinearOrder K] [FloorRing K] [Zero C] in
/-- The loop of `feed`: what completes or times out is counted, and the rest goes on. -/
theorem tally_feedActive (first : ℕ) {m : ℕ} (hopen : ∀ a ∈ actives, a.completed = false)
    (h : Tally d.counters (actives.length + m)) :
    Tally (feedActive config machine first values d actives).1.counters
      ((feedActive config machine first values d actives).2.length + m) ∧
    (feedActive config machine first values d actives).2.length ≤ actives.length ∧
    ∀ a ∈ (feedActive config machine first values d actives).2, a.completed = false := by
  induction actives generalizing d m with
  | nil => exact ⟨h, le_rfl, hopen⟩
  | cons decoder actives ih =>
    obtain ⟨hdecoder, hrest⟩ := List.forall_mem_cons.mp hopen
    rw [List.length_cons, Nat.add_right_comm] at h
    obtain ⟨hgoes, hcompletes⟩ := tally_feedOne config machine values
      first hdecoder h
    rw [feedActive]
    generalize feedOne config machine first values d decoder = state at hgoes hcompletes
    obtain ⟨d', decoder'⟩ := state
    by_cases hcompleted : decoder'.completed = true
    · simp only [hcompleted, if_true]
      obtain ⟨htally, hlength, hkept⟩ := ih (d := d'.retire decoder' .completed) hrest
        (hcompletes hcompleted)
      exact ⟨htally, hlength.trans (Nat.le_succ _), hkept⟩
    have hopen' : decoder'.completed = false := by simpa using hcompleted
    by_cases hdeadline : d.historyEnd ≥ decoder.deadline
    · simp only [hopen', Bool.false_eq_true, if_false, if_pos hdeadline]
      obtain ⟨htally, hlength, hkept⟩ := ih (d := (d'.retire decoder' .timedOut).timeout) hrest
        (tally_timeout (hgoes hopen'))
      exact ⟨htally, hlength.trans (Nat.le_succ _), hkept⟩
    · simp only [hopen', Bool.false_eq_true, if_false, if_neg hdeadline]
      obtain ⟨htally, hlength, hkept⟩ := ih (d := d') (m := m + 1) hrest (hgoes hopen')
      refine ⟨?_, Nat.succ_le_succ hlength, List.forall_mem_cons.mpr ⟨hopen', hkept⟩⟩
      rwa [List.length_cons, Nat.add_right_comm]

omit [Field K] [LinearOrder K] [FloorRing K] in
/-- Every active decoder is abandoned by a reset. -/
theorem tally_reset (h : Tally d.counters d.active.length) : Tally d.reset.counters 0 := by
  have hfold : ∀ (actives : List (Active K C δ)) (d : Decoder K C δ), Tally d.counters actives.length →
      Tally (actives.foldl (fun d decoder =>
        { d.retire decoder .abandoned with
          counters := { d.counters with
            abandonedDecoders := increment d.counters.abandonedDecoders } }) d).counters 0 := by
    intro actives
    induction actives with
    | nil => exact fun d h => h
    | cons decoder actives ih => exact fun d h => ih _ h.abandon
  exact hfold d.active _ ⟨h.total, h.started, h.crcValid⟩

/-- The counters balance, and at most four decoders are active. -/
structure Balanced (d : Decoder K C δ) : Prop where
  tally : Tally d.counters d.active.length
  bound : d.active.length ≤ maximumActive
  opened : ∀ a ∈ d.active, a.completed = false

omit [Field K] [LinearOrder K] [FloorRing K] in
theorem reset_active : d.reset.active = [] := rfl

omit [Field K] [LinearOrder K] [FloorRing K] in
theorem balanced_reset (h : d.Balanced) : d.reset.Balanced :=
  ⟨tally_reset h.tally, Nat.zero_le _, fun _ ha => absurd ha List.not_mem_nil⟩

omit [Field K] [LinearOrder K] [FloorRing K] in
theorem balanced_enterSegment (h : d.Balanced) :
    (d.enterSegment first inputAnchor inputStride inputSegment).Balanced := by
  simp only [enterSegment]
  split_ifs
  · exact balanced_reset h
  · exact ⟨tally_reset h.tally, Nat.zero_le _, (balanced_reset h).opened⟩
  · exact h
  · exact ⟨h.tally, h.bound, h.opened⟩

omit [LinearOrder K] [FloorRing K] in
theorem balanced_feedValues (h : d.Balanced) :
    (d.feedValues config machine values first inputAnchor inputStride inputSegment).Balanced := by
  have henter : (d.enterSegment first inputAnchor inputStride inputSegment).Balanced :=
    balanced_enterSegment h
  rw [feedValues]
  generalize d.enterSegment first inputAnchor inputStride inputSegment = d₁ at henter
  obtain ⟨htally, hlength, hopened⟩ := tally_feedActive config machine values
    first (m := 0) (d := { d₁.record values with active := [] })
    henter.opened henter.tally
  exact ⟨htally, hlength.trans henter.bound, hopened⟩

omit [LinearOrder K] [FloorRing K] [Zero C] in
/-- A block changes the counters and the frames only. -/
theorem process_active (hopen : decoder.completed = false) :
    (d.process config machine decoder values).1.active = d.active := by
  rcases process_cases config machine values (d := d) hopen with
    hprocess | ⟨crcValid, frames, -, hprocess⟩
  · rw [hprocess]
  · rw [hprocess]

omit [LinearOrder K] [FloorRing K] [Zero C] in
theorem replay_completed {fuel last : ℕ} (h : decoder.completed = true) :
    replay config machine last fuel d decoder position = (d, decoder) := by
  cases fuel with
  | zero => rfl
  | succ fuel => rw [replay, if_neg (by simp [h])]

omit [LinearOrder K] [FloorRing K] [Zero C] in
theorem tally_replay (fuel last position : ℕ) (hopen : decoder.completed = false)
    (h : Tally d.counters (n + 1)) :
    ((replay config machine last fuel d decoder position).2.completed = false →
      Tally (replay config machine last fuel d decoder position).1.counters (n + 1)) ∧
    ((replay config machine last fuel d decoder position).2.completed = true →
      Tally (replay config machine last fuel d decoder position).1.counters n) ∧
    (replay config machine last fuel d decoder position).1.active = d.active := by
  induction fuel generalizing d decoder position with
  | zero =>
    exact ⟨fun _ => h, fun hcompleted => absurd (hopen.symm.trans hcompleted) Bool.noConfusion, rfl⟩
  | succ fuel ih =>
    rw [replay]
    split_ifs with hmore
    · obtain ⟨hgoes, hcompletes⟩ := tally_process config machine
        (Ring.read d.history position (min maximumBlock (last - position))) hopen h
      have hactive := process_active config machine (d := d)
        (Ring.read d.history position (min maximumBlock (last - position))) hopen
      simp only
      generalize d.process config machine decoder _ = state at hgoes hcompletes hactive
      cases hcompleted : state.2.completed with
      | false =>
        obtain ⟨h₁, h₂, h₃⟩ := ih (d := state.1) _ hcompleted (hgoes hcompleted)
        exact ⟨h₁, h₂, h₃.trans hactive⟩
      | true =>
        rw [replay_completed config machine hcompleted]
        exact ⟨fun hopen' => absurd (hopen'.symm.trans hcompleted) Bool.noConfusion,
          fun _ => hcompletes hcompleted, hactive⟩
    · exact ⟨fun _ => h, fun hcompleted => absurd (hopen.symm.trans hcompleted) Bool.noConfusion, rfl⟩

omit [Zero C] in
theorem balanced_launch {replayStart deadline : ℕ} (h : Tally d.counters (d.active.length + 1))
    (hstarted : increment d.counters.started ≤ d.counters.candidates)
    (hbound : d.active.length < maximumActive) (hopened : ∀ a ∈ d.active, a.completed = false) :
    (d.launch config machine w replayStart deadline).Balanced := by
  have hstart : Tally (d.start w).counters (d.active.length + 1) := ⟨h.total, hstarted, h.crcValid⟩
  obtain ⟨hgoes, hcompletes, hactive⟩ := tally_replay config machine (d.historyEnd - replayStart)
    d.historyEnd replayStart
    (rfl : (activeOf config machine w replayStart deadline).completed = false) hstart
  rw [launch]
  generalize replay config machine d.historyEnd _ (d.start w) _ replayStart = state
    at hgoes hcompletes hactive
  obtain ⟨d', decoder'⟩ := state
  change d'.active = d.active at hactive
  cases hcompleted : decoder'.completed with
  | true =>
    have htally := hcompletes hcompleted
    simp only [if_true]
    rw [← hactive] at htally hbound hopened
    exact ⟨htally, hbound.le, hopened⟩
  | false =>
    have htally := hgoes hcompleted
    simp only [Bool.false_eq_true, if_false]
    rw [← hactive] at htally hbound hopened
    refine ⟨?_, ?_, fun a ha => ?_⟩
    · rw [List.length_append]
      exact htally
    · rw [List.length_append]
      exact hbound
    · rcases List.mem_append.mp ha with ha | ha
      · exact hopened a ha
      · rw [List.mem_singleton.mp ha]
        exact hcompleted

omit [Field K] [LinearOrder K] [FloorRing K] [Zero C] in
theorem balanced_refuse {refusal : Refusal} (h : Tally d.counters (d.active.length + 1))
    (hbound : d.active.length ≤ maximumActive) (hopened : ∀ a ∈ d.active, a.completed = false) :
    (d.refuse refusal).Balanced := ⟨tally_refuse h, hbound, hopened⟩

omit [Zero C] in
theorem balanced_consider (h : Tally d.counters (d.active.length + 1))
    (hstarted : increment d.counters.started ≤ d.counters.candidates)
    (hbound : d.active.length ≤ maximumActive) (hopened : ∀ a ∈ d.active, a.completed = false) :
    (d.consider config machine w).Balanced := by
  rw [consider]
  split
  · exact balanced_refuse h hbound hopened
  · split_ifs with hrange howner hexcluded hrecent hfull
    · exact balanced_refuse h hbound hopened
    · exact balanced_refuse h hbound hopened
    · exact balanced_refuse h hbound hopened
    · exact balanced_refuse h hbound hopened
    · exact balanced_refuse h hbound hopened
    · exact balanced_refuse h hbound hopened
    · exact balanced_refuse h hbound hopened
    · exact balanced_launch config machine h hstarted (lt_of_le_of_ne hbound hfull) hopened

omit [Zero C] in
theorem balanced_observe {found : LoRaDiscovery K} (h : d.Balanced) :
    (d.observe config machine found).Balanced := by
  rw [observe]
  split_ifs
  · exact h
  · have hcandidate := h.tally.candidate
    simp only
    split
    · exact balanced_refuse hcandidate h.bound h.opened
    · exact balanced_consider config machine hcandidate (increment_mono h.tally.started) h.bound h.opened

omit [LinearOrder K] [FloorRing K] in
theorem balanced_feed (h : d.Balanced) :
    (d.feed config machine values first inputAnchor inputStride inputSegment).1.Balanced := by
  rw [feed]
  split_ifs
  · exact h
  · exact h
  · exact balanced_reset h
  · exact balanced_feedValues config machine values h

theorem balanced_step (call : Call K C) (h : d.Balanced) : (d.step config machine call).Balanced := by
  cases call with
  | feed values first inputAnchor inputStride inputSegment => exact balanced_feed config machine values h
  | observe found => exact balanced_observe config machine h
  | reset => exact balanced_reset h

omit [Field K] [LinearOrder K] [FloorRing K] in
theorem balanced_initial : (initial config : Decoder K C δ).Balanced :=
  ⟨⟨fun _ => rfl, le_rfl, le_rfl⟩, Nat.zero_le _, fun _ ha => absurd ha List.not_mem_nil⟩

end Decoder

/-- **Every candidate is counted once.** After any calls, unless the counter of the candidates has
saturated, it is the sum of the counters of the ways in which a candidate ends and of the active
decoders; and no more candidates are started than there are, no more frames have a valid checksum
than are complete, and at most four decoders are active. -/
theorem decoder_balance (calls : List (Call K C)) :
    let d : Decoder K C δ := run (Decoder.step config machine) (Decoder.initial config) calls
    (d.counters.candidates < countMax → d.counters.candidates =
      d.counters.completed + d.counters.abandonedDecoders + d.active.length + d.counters.timeouts +
        d.counters.historyMisses + d.counters.activeLimitHits + d.counters.duplicateCandidates +
        d.counters.excludedCandidates + d.counters.outsideRangeCandidates +
        d.counters.unsupportedCandidates) ∧
    d.counters.started ≤ d.counters.candidates ∧ d.counters.crcValid ≤ d.counters.completed ∧
    d.active.length ≤ maximumActive := by
  intro d
  have h : d.Balanced := invariant_run (fun _ call h => Decoder.balanced_step config machine call h)
    (Decoder.balanced_initial config) calls
  refine ⟨fun hmax => ?_, h.tally.started, h.tally.crcValid, h.bound⟩
  have htotal := h.tally.total hmax
  rw [DecoderStats.settled] at htotal
  omega

end Balance

end Discovery

end OVMesh
