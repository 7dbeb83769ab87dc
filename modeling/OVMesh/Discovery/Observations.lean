import OVMesh.Lib.Fold
import OVMesh.Discovery.Decoder

/-!
# Waveform observations

`DiscoveryObservations` of `discovery_observations.hpp`: the bounded view of the waveforms that the
subbands have found, where fits of one waveform are merged.

* `candidateOf`: the checks of `observe` and the fit in input samples.
* `Associates`, `merge`: when a fit belongs to an entry, and the entry then.
* `observe`, `observe_spec`: what one result does.
* `WellFormed`: the invariant. `observe_wellFormed`: one result keeps it.
-/

namespace OVMesh

open Checked Discovery

/-- `DiscoveryObservation`: a waveform of the discovery with the spread of its measurements. -/
structure DiscoveryObservation (K : Type) where
  id : ℕ
  receivedCenterHz : K
  bandwidthHz : ℕ
  spreadingFactor : ℕ
  firstObservedUpchirpInputSample : K
  delimiterInputSample : K
  upMatch : K
  downMatch : K
  repeatCoherence : K
  bestSubband : ℕ
  contributingSubbands : List ℕ
  centerMinHz : K
  centerMaxHz : K
  delimiterMinInputSample : K
  delimiterMaxInputSample : K
  associationAmbiguous : Bool

/-- `DiscoveryObservations`, whose entries are in the order of their insertion. -/
structure DiscoveryObservations (K : Type) where
  rate : ℕ
  subbands : ℕ
  nextId : ℕ := 1
  evictions : ℕ := 0
  recent : List (DiscoveryObservation K) := []

namespace DiscoveryObservations

/-- `DiscoveryObservations::Update`: the observation that a discovery went to, and what it displaced. -/
structure Update where
  id : ℕ
  merged : Bool
  evicted : Bool

/-- The observations that are remembered. -/
def capacity : ℕ := 256

/-- The subbands that an observation may name. -/
def maximumSubbands : ℕ := 32

/-- The largest `uint64_t`. -/
def maximumId : ℕ := 2 ^ 64 - 1

/-- Input samples up to here have exact coordinates. -/
def maximumCoordinate : ℕ := 2 ^ 53

/-- The constructor checks the input clock and the number of subbands. -/
def create {K : Type} (inputSampleRate subbandCount : ℕ) : Except String (DiscoveryObservations K) := do
  reject (inputSampleRate < 2000000 ∨ inputSampleRate > 20000000 ∨ inputSampleRate % 2000000 ≠ 0 ∨
    subbandCount = 0 ∨ subbandCount > maximumSubbands)
    "Invalid discovery observation clock or subband count"
  return { rate := inputSampleRate, subbands := subbandCount }

variable {K : Type} [Field K] [LinearOrder K]

/-- `score_valid`, for a finite value. -/
def ScoreValid (value : K) : Prop := 0 ≤ value ∧ value ≤ 1 + 1 / 10 ^ 5

instance (value : K) : Decidable (ScoreValid value) := inferInstanceAs (Decidable (_ ∧ _))

/-- The checks of `observe`, and the fit in input samples. A value that is not finite is missing. -/
def candidateOf (o : DiscoveryObservations K) (found : LoRaDiscovery K)
    (subband firstInputSample stride : ℕ) : Except String (DiscoveryObservation K) :=
  match found.centerHz, found.firstObservedUpchirpSample, found.delimiterSample, found.upMatch,
    found.downMatch, found.repeatCoherence with
  | some center, some first, some delimiter, some up, some down, some coherence => do
    reject (subband ≥ o.subbands ∨ stride ≠ o.rate / 2000000 ∨ firstInputSample > maximumCoordinate ∨
        center ≤ 0 ∨ ¬ supportedLoraBandwidth found.bandwidthHz ∨ found.spreadingFactor < 7 ∨
        found.spreadingFactor > 12 ∨ center < (found.bandwidthHz : K) / 2 ∨ first < 0 ∨
        delimiter ≤ first ∨ ¬ ScoreValid up ∨ ¬ ScoreValid down ∨ ¬ ScoreValid coherence ∨
        up ≤ 0 ∨ down ≤ 0)
      "Invalid discovery waveform observation"
    reject (delimiter > ((maximumCoordinate - firstInputSample : ℕ) : K) / stride)
      "Discovery observation sample coordinate exceeds precise range"
    let delimiterInput := firstInputSample + delimiter * stride
    return {
      id := 0
      receivedCenterHz := center
      bandwidthHz := found.bandwidthHz
      spreadingFactor := found.spreadingFactor
      firstObservedUpchirpInputSample := firstInputSample + first * stride
      delimiterInputSample := delimiterInput
      upMatch := up
      downMatch := down
      repeatCoherence := coherence
      bestSubband := subband
      contributingSubbands := [subband]
      centerMinHz := center
      centerMaxHz := center
      delimiterMinInputSample := delimiterInput
      delimiterMaxInputSample := delimiterInput
      associationAmbiguous := false }
  | _, _, _, _, _, _ => throw "Invalid discovery waveform observation"

/-- Two centres within this distance are those of one waveform: two bins of the transform. -/
def frequencyTolerance (bandwidthHz spreadingFactor : ℕ) : K := 2 * bandwidthHz / 2 ^ spreadingFactor

/-- Two delimiters within this distance are those of one waveform: two samples at the bandwidth. -/
def timeTolerance (rate bandwidthHz : ℕ) : K := 2 * rate / bandwidthHz

/-- The fit of a subband belongs to an entry. -/
def Associates (o : DiscoveryObservations K) (candidate : DiscoveryObservation K) (subband : ℕ)
    (previous : DiscoveryObservation K) : Prop :=
  previous.bandwidthHz = candidate.bandwidthHz ∧
  previous.spreadingFactor = candidate.spreadingFactor ∧
  subband ∉ previous.contributingSubbands ∧
  max previous.centerMaxHz candidate.receivedCenterHz -
      min previous.centerMinHz candidate.receivedCenterHz ≤
    frequencyTolerance candidate.bandwidthHz candidate.spreadingFactor ∧
  max previous.delimiterMaxInputSample candidate.delimiterInputSample -
      min previous.delimiterMinInputSample candidate.delimiterInputSample ≤
    timeTolerance o.rate candidate.bandwidthHz

instance (o : DiscoveryObservations K) (candidate : DiscoveryObservation K) (subband : ℕ)
    (previous : DiscoveryObservation K) : Decidable (o.Associates candidate subband previous) :=
  inferInstanceAs (Decidable (_ ∧ _))

/-- An entry and one more fit of it. One measured fit is kept, that with the larger minimum of its
matches. -/
def merge (previous candidate : DiscoveryObservation K) (subband : ℕ) : DiscoveryObservation K :=
  let best := if min candidate.upMatch candidate.downMatch > min previous.upMatch previous.downMatch
    then candidate else previous
  { best with
    id := previous.id
    contributingSubbands := (previous.contributingSubbands ++ [subband]).mergeSort (· ≤ ·)
    centerMinHz := min previous.centerMinHz candidate.receivedCenterHz
    centerMaxHz := max previous.centerMaxHz candidate.receivedCenterHz
    delimiterMinInputSample := min previous.delimiterMinInputSample candidate.delimiterInputSample
    delimiterMaxInputSample := max previous.delimiterMaxInputSample candidate.delimiterInputSample
    associationAmbiguous := previous.associationAmbiguous }

/-- The indexes of the entries that a fit belongs to. -/
def matching (o : DiscoveryObservations K) (candidate : DiscoveryObservation K) (subband : ℕ) :
    List ℕ :=
  (List.range o.recent.length).filter fun i =>
    ∃ previous ∈ o.recent[i]?, o.Associates candidate subband previous

/-- The part of `observe` that adds an entry. -/
def insert (o : DiscoveryObservations K) (candidate : DiscoveryObservation K) (ambiguous : Bool) :
    Except String (Update × DiscoveryObservations K) := do
  reject (o.nextId = maximumId) "Discovery observation ID exhausted"
  let evicted := o.recent.length = capacity
  let kept := if evicted then o.recent.drop 1 else o.recent
  return ({ id := o.nextId, merged := false, evicted },
    { o with
      nextId := o.nextId + 1
      evictions := if evicted then o.evictions + 1 else o.evictions
      recent := kept ++ [{ candidate with id := o.nextId, associationAmbiguous := ambiguous }] })

/-- `observe`: a discovery that matches one observation is merged with it, one that matches none becomes a
new observation, and one that matches several is ambiguous. -/
def observe (o : DiscoveryObservations K) (found : LoRaDiscovery K)
    (subband firstInputSample stride : ℕ) : Except String (Update × DiscoveryObservations K) := do
  let candidate ← candidateOf o found subband firstInputSample stride
  match o.matching candidate subband with
  | [i] => match o.recent[i]? with
    | some previous => return ({ id := previous.id, merged := true, evicted := false },
        { o with recent := o.recent.set i (merge previous candidate subband) })
    | none => throw "an index of no entry"
  | indexes => insert o candidate (indexes.length > 1)

/-! ## What one result does -/

/-- A fit that passed the checks. -/
structure Fit (o : DiscoveryObservations K) (subband : ℕ) (c : DiscoveryObservation K) : Prop where
  subband_lt : subband < o.subbands
  best : c.bestSubband = subband
  contributing : c.contributingSubbands = [subband]
  center : c.centerMinHz = c.receivedCenterHz ∧ c.centerMaxHz = c.receivedCenterHz
  delimiter : c.delimiterMinInputSample = c.delimiterInputSample ∧
    c.delimiterMaxInputSample = c.delimiterInputSample

/-- The entry of a new waveform. -/
def named (c : DiscoveryObservation K) (id : ℕ) (ambiguous : Bool) : DiscoveryObservation K :=
  { c with id, associationAmbiguous := ambiguous }

/-- The observations after a new entry, for which a full view has lost its first one. -/
def inserted (o : DiscoveryObservations K) (c : DiscoveryObservation K) (ambiguous : Bool) :
    DiscoveryObservations K :=
  { o with
    nextId := o.nextId + 1
    evictions := if o.recent.length = capacity then o.evictions + 1 else o.evictions
    recent := (if o.recent.length = capacity then o.recent.drop 1 else o.recent) ++
      [named c o.nextId ambiguous] }

section Spec

variable {o o' : DiscoveryObservations K} {found : LoRaDiscovery K} {subband first stride i : ℕ}
  {c p : DiscoveryObservation K} {u : Update}

theorem candidateOf_fit (h : candidateOf o found subband first stride = .ok c) : Fit o subband c := by
  unfold candidateOf at h
  split at h
  · obtain ⟨_, hchecks, h⟩ := bind_eq_ok.mp h
    obtain ⟨_, -, h⟩ := bind_eq_ok.mp h
    obtain rfl := Except.ok.inj h
    have hsubband := not_le.mp (not_or.mp (reject_eq_ok.mp hchecks)).1
    exact ⟨hsubband, rfl, rfl, ⟨rfl, rfl⟩, rfl, rfl⟩
  · cases h

/-- **One result.** It is merged into an entry that it belongs to, or becomes a new entry. -/
theorem observe_spec (h : o.observe found subband first stride = .ok (u, o')) :
    ∃ c, Fit o subband c ∧
      ((∃ i p, o.recent[i]? = some p ∧ o.Associates c subband p ∧ u.id = p.id ∧ u.merged = true ∧
        o' = { o with recent := o.recent.set i (merge p c subband) }) ∨
      o.nextId ≠ maximumId ∧ u.id = o.nextId ∧ u.merged = false ∧
        ∃ ambiguous, o' = o.inserted c ambiguous) := by
  unfold observe at h
  obtain ⟨c, hc, h⟩ := bind_eq_ok.mp h
  refine ⟨c, candidateOf_fit hc, ?_⟩
  split at h
  · rename_i i hmatching
    have hi : i ∈ o.matching c subband := hmatching ▸ List.mem_singleton_self i
    obtain ⟨-, hassociates⟩ := List.mem_filter.mp hi
    obtain ⟨p, hp, hassociates⟩ := of_decide_eq_true hassociates
    have hp : o.recent[i]? = some p := hp
    rw [hp] at h
    obtain ⟨rfl, rfl⟩ := Prod.mk.inj (Except.ok.inj h)
    exact Or.inl ⟨i, p, hp, hassociates, rfl, rfl, rfl⟩
  · unfold insert at h
    obtain ⟨_, hfull, h⟩ := bind_eq_ok.mp h
    obtain ⟨rfl, rfl⟩ := Prod.mk.inj (Except.ok.inj h)
    exact Or.inr ⟨reject_eq_ok.mp hfull, rfl, rfl, _, rfl⟩

end Spec

/-! ## The invariant -/

/-- What holds of an entry: its measured fit lies within all fits of it, and these within the
tolerances of the association. -/
structure Coherent (rate subbands : ℕ) (e : DiscoveryObservation K) : Prop where
  sorted : e.contributingSubbands.Pairwise (· < ·)
  subbands : ∀ b ∈ e.contributingSubbands, b < subbands
  best : e.bestSubband ∈ e.contributingSubbands
  center : e.centerMinHz ≤ e.receivedCenterHz ∧ e.receivedCenterHz ≤ e.centerMaxHz
  delimiter : e.delimiterMinInputSample ≤ e.delimiterInputSample ∧
    e.delimiterInputSample ≤ e.delimiterMaxInputSample
  centerSpread : e.centerMaxHz - e.centerMinHz ≤ frequencyTolerance e.bandwidthHz e.spreadingFactor
  delimiterSpread : e.delimiterMaxInputSample - e.delimiterMinInputSample ≤
    timeTolerance rate e.bandwidthHz

/-- What holds of the observations after every result. -/
structure WellFormed (o : DiscoveryObservations K) : Prop where
  length_le : o.recent.length ≤ capacity
  increasing : (o.recent.map DiscoveryObservation.id).Pairwise (· < ·)
  ids : ∀ e ∈ o.recent, 0 < e.id ∧ e.id < o.nextId
  coherent : ∀ e ∈ o.recent, Coherent o.rate o.subbands e
  nextId_pos : 0 < o.nextId
  nextId_le : o.nextId ≤ maximumId
  newest : o.recent = [] ∧ o.nextId = 1 ∨ ∃ e ∈ o.recent, e.id + 1 = o.nextId

section Invariant

variable {o o' : DiscoveryObservations K} {found : LoRaDiscovery K} {subband first stride i : ℕ}
  {c p e : DiscoveryObservation K} {u : Update}

omit [Field K] [LinearOrder K] in
/-- New observations are empty. -/
theorem create_ok {rate subbands : ℕ} (h : create rate subbands = .ok o) :
    o.recent = [] ∧ o.nextId = 1 := by
  unfold create at h
  obtain ⟨_, -, h⟩ := bind_eq_ok.mp h
  obtain rfl := Except.ok.inj h
  exact ⟨rfl, rfl⟩

theorem create_wellFormed {rate subbands : ℕ} (h : create rate subbands = .ok o) : o.WellFormed := by
  obtain ⟨hrecent, hnext⟩ := create_ok h
  have hnone : ∀ e, e ∉ o.recent := fun e he => by
    rw [hrecent] at he
    cases he
  refine ⟨hrecent ▸ Nat.zero_le _, hrecent ▸ List.Pairwise.nil, fun e he => absurd he (hnone e),
    fun e he => absurd he (hnone e), hnext ▸ Nat.one_pos, ?_, Or.inl ⟨hrecent, hnext⟩⟩
  rw [hnext]
  decide

omit [Field K] in
@[simp] theorem merge_id : (merge p c subband).id = p.id := rfl

omit [Field K] in
theorem merge_profile (subband : ℕ) (h : p.bandwidthHz = c.bandwidthHz ∧ p.spreadingFactor = c.spreadingFactor) :
    (merge p c subband).bandwidthHz = p.bandwidthHz ∧
      (merge p c subband).spreadingFactor = p.spreadingFactor := by
  unfold merge
  split
  · exact ⟨h.1.symm, h.2.symm⟩
  · exact ⟨rfl, rfl⟩

/-- A merged entry is coherent, whichever fit is kept. -/
theorem merge_coherent (hfit : Fit o subband c) (hp : Coherent o.rate o.subbands p)
    (h : o.Associates c subband p) : Coherent o.rate o.subbands (merge p c subband) := by
  obtain ⟨hbandwidth, hfactor, hnew, hcenter, hdelimiter⟩ := h
  obtain ⟨hbw, hsf⟩ := merge_profile subband ⟨hbandwidth, hfactor⟩
  have hperm := List.mergeSort_perm (p.contributingSubbands ++ [subband]) (· ≤ ·)
  have hmem : ∀ b, b ∈ (merge p c subband).contributingSubbands ↔
      b ∈ p.contributingSubbands ∨ b = subband := fun b => by
    exact hperm.mem_iff.trans (by rw [List.mem_append, List.mem_singleton])
  have hnodup : (p.contributingSubbands ++ [subband]).Nodup :=
    List.nodup_append.mpr ⟨hp.sorted.imp ne_of_lt, List.nodup_singleton _, fun a ha b hb heq =>
      hnew (by rwa [← List.mem_singleton.mp hb, ← heq])⟩
  refine ⟨?_, fun b hb => ?_, ?_, ?_, ?_, ?_, ?_⟩
  · have hle := @List.pairwise_mergeSort ℕ (fun a b => decide (a ≤ b))
      (fun a b c => by simpa using le_trans) (fun a b => by simpa using le_total a b)
      (p.contributingSubbands ++ [subband])
    refine (hle.and (hperm.nodup_iff.mpr hnodup)).imp fun h => ?_
    exact lt_of_le_of_ne (of_decide_eq_true h.1) h.2
  · rcases (hmem b).mp hb with hb | rfl
    · exact hp.subbands b hb
    · exact hfit.subband_lt
  · refine (hmem _).mpr ?_
    unfold merge
    split
    · exact Or.inr hfit.best
    · exact Or.inl hp.best
  · unfold merge
    split
    · exact ⟨min_le_right _ _, le_max_right _ _⟩
    · exact ⟨(min_le_left _ _).trans hp.center.1, hp.center.2.trans (le_max_left _ _)⟩
  · unfold merge
    split
    · exact ⟨min_le_right _ _, le_max_right _ _⟩
    · exact ⟨(min_le_left _ _).trans hp.delimiter.1, hp.delimiter.2.trans (le_max_left _ _)⟩
  · rw [hbw, hsf, hbandwidth, hfactor]
    exact hcenter
  · rw [hbw, hbandwidth]
    exact hdelimiter

theorem fit_coherent [IsStrictOrderedRing K] (h : Fit o subband c) {id : ℕ} {ambiguous : Bool} :
    Coherent o.rate o.subbands (named c id ambiguous) := by
  obtain ⟨hlt, hbest, hcontributing, ⟨hlow, hhigh⟩, hearly, hlate⟩ := h
  refine ⟨?_, ?_, ?_, ⟨hlow.le, hhigh.ge⟩, ⟨hearly.le, hlate.ge⟩, ?_, ?_⟩
  · exact hcontributing ▸ List.pairwise_singleton _ _
  · intro b hb
    rw [named, hcontributing] at hb
    rwa [List.mem_singleton.mp hb]
  · rw [named, hcontributing]
    exact List.mem_singleton.mpr hbest
  · rw [named, hlow, hhigh, sub_self]
    unfold frequencyTolerance
    positivity
  · rw [named, hearly, hlate, sub_self]
    unfold timeTolerance
    positivity

omit [Field K] in
/-- A merge keeps the ids. -/
theorem map_id_set (subband : ℕ) (h : o.recent[i]? = some p) :
    (o.recent.set i (merge p c subband)).map DiscoveryObservation.id =
      o.recent.map DiscoveryObservation.id := by
  rw [List.map_set, merge_id]
  refine List.ext_getElem? fun j => ?_
  rw [List.getElem?_set]
  split_ifs with heq hlt
  · rw [← heq, List.getElem?_map, h]
    rfl
  · rw [List.getElem?_eq_none (heq ▸ not_lt.mp hlt)]
  · rfl

/-- The view after a new entry has lost its first one, if it was full. -/
theorem inserted_recent (h : o.WellFormed) (ambiguous : Bool) : ∃ kept,
    (o.inserted c ambiguous).recent = kept ++ [named c o.nextId ambiguous] ∧
      kept.Sublist o.recent ∧ kept.length < capacity := by
  refine ⟨_, rfl, ?_, ?_⟩
  · split
    · exact List.drop_sublist _ _
    · exact List.Sublist.refl _
  · split <;> rename_i hfull
    · rw [List.length_drop, hfull]
      decide
    · exact lt_of_le_of_ne h.length_le hfull

/-- **Every result keeps the invariant.** -/
theorem observe_wellFormed [IsStrictOrderedRing K] (h : o.WellFormed)
    (hobserve : o.observe found subband first stride = .ok (u, o')) : o'.WellFormed := by
  obtain ⟨c, hfit, ⟨i, p, hp, hassociates, -, -, rfl⟩ | ⟨hmore, -, -, ambiguous, rfl⟩⟩ :=
    observe_spec hobserve
  · have hmem := List.mem_of_getElem? hp
    have hids := map_id_set (c := c) subband hp
    refine ⟨?_, ?_, fun e he => ?_, fun e he => ?_, h.nextId_pos, h.nextId_le, ?_⟩
    · exact List.length_set.trans_le h.length_le
    · exact hids ▸ h.increasing
    · rcases List.mem_or_eq_of_mem_set he with he | rfl
      · exact h.ids e he
      · exact h.ids p hmem
    · rcases List.mem_or_eq_of_mem_set he with he | rfl
      · exact h.coherent e he
      · exact merge_coherent (o := o) hfit (h.coherent p hmem) hassociates
    · right
      rcases h.newest with ⟨hnil, -⟩ | ⟨e, he, hlast⟩
      · rw [hnil] at hmem
        cases hmem
      · have he := List.mem_map_of_mem (f := DiscoveryObservation.id) he
        rw [← hids] at he
        obtain ⟨e', he', hid⟩ := List.mem_map.mp he
        exact ⟨e', he', by rw [hid]; exact hlast⟩
  -- A new entry has the next identifier, above those of the entries that are kept.
  · obtain ⟨kept, hrecent, hsublist, hroom⟩ := inserted_recent (c := c) h ambiguous
    have hkept : ∀ e ∈ kept, 0 < e.id ∧ e.id < o.nextId := fun e he => h.ids e (hsublist.subset he)
    refine ⟨?_, ?_, fun e he => ?_, fun e he => ?_, Nat.succ_pos _, ?_, ?_⟩
    · rw [hrecent, List.length_append, List.length_singleton]
      exact hroom
    · rw [hrecent, List.map_append]
      refine List.pairwise_append.mpr ⟨h.increasing.sublist (hsublist.map _),
        List.pairwise_singleton _ _, fun a ha b hb => ?_⟩
      obtain ⟨e, he, rfl⟩ := List.mem_map.mp ha
      rw [List.mem_singleton.mp hb]
      exact (hkept e he).2
    · rw [hrecent] at he
      rcases List.mem_append.mp he with he | he
      · exact ⟨(hkept e he).1, (hkept e he).2.trans (Nat.lt_succ_self _)⟩
      · rw [List.mem_singleton.mp he]
        exact ⟨h.nextId_pos, Nat.lt_succ_self _⟩
    · rw [hrecent] at he
      rcases List.mem_append.mp he with he | he
      · exact h.coherent e (hsublist.subset he)
      · rw [List.mem_singleton.mp he]
        exact fit_coherent hfit
    · exact Nat.succ_le_of_lt (lt_of_le_of_ne h.nextId_le hmore)
    · exact Or.inr ⟨named c o.nextId ambiguous, hrecent ▸ by simp, rfl⟩

/-- The entry of the update, and whether it is a new one. -/
theorem WellFormed.observe_entry (h : o.WellFormed)
    (hobserve : o.observe found subband first stride = .ok (u, o')) :
    (u.merged = true ∧ u.id < o.nextId ∧ o'.nextId = o.nextId) ∨
      u.merged = false ∧ u.id = o.nextId ∧ o'.nextId = o.nextId + 1 := by
  obtain ⟨c, -, ⟨i, p, hp, -, hid, hmerged, rfl⟩ | ⟨-, hid, hmerged, ambiguous, rfl⟩⟩ :=
    observe_spec hobserve
  · exact Or.inl ⟨hmerged, hid ▸ (h.ids p (List.mem_of_getElem? hp)).2, rfl⟩
  · exact Or.inr ⟨hmerged, hid, rfl⟩

/-- The entry of the update is in the view. -/
theorem WellFormed.observe_mem (h : o.WellFormed)
    (hobserve : o.observe found subband first stride = .ok (u, o')) : ∃ e ∈ o'.recent, e.id = u.id := by
  obtain ⟨c, -, ⟨i, p, hp, -, hid, -, rfl⟩ | ⟨-, hid, -, ambiguous, rfl⟩⟩ := observe_spec hobserve
  · obtain ⟨hi, -⟩ := List.getElem?_eq_some_iff.mp hp
    exact ⟨merge p c subband, List.mem_set hi _, hid.symm⟩
  · obtain ⟨kept, hrecent, -⟩ := inserted_recent (c := c) h ambiguous
    exact ⟨named c o.nextId ambiguous, hrecent ▸ by simp, hid.symm⟩

/-- Entries have different ids. -/
theorem WellFormed.eq_of_id (h : o.WellFormed) {e' : DiscoveryObservation K} (he : e ∈ o.recent)
    (he' : e' ∈ o.recent) (hid : e.id = e'.id) : e = e' :=
  List.inj_on_of_nodup_map (h.increasing.imp ne_of_lt) he he' hid

/-- An entry is new or has the profile of the entry that it was. -/
theorem WellFormed.observe_profile (h : o.WellFormed)
    (hobserve : o.observe found subband first stride = .ok (u, o')) (he : e ∈ o'.recent) :
    e.id = o.nextId ∨ ∃ p ∈ o.recent, p.id = e.id ∧ e.bandwidthHz = p.bandwidthHz ∧
      e.spreadingFactor = p.spreadingFactor := by
  obtain ⟨c, -, ⟨i, p, hp, hassociates, -, -, rfl⟩ | ⟨-, -, -, ambiguous, rfl⟩⟩ :=
    observe_spec hobserve
  · right
    rcases List.mem_or_eq_of_mem_set he with he | rfl
    · exact ⟨e, he, rfl, rfl, rfl⟩
    · obtain ⟨hbw, hsf⟩ := merge_profile subband ⟨hassociates.1, hassociates.2.1⟩
      exact ⟨p, List.mem_of_getElem? hp, rfl, hbw, hsf⟩
  · obtain ⟨kept, hrecent, hsublist, -⟩ := inserted_recent (c := c) h ambiguous
    rw [hrecent] at he
    rcases List.mem_append.mp he with he | he
    · exact Or.inr ⟨e, hsublist.subset he, rfl, rfl, rfl⟩
    · exact Or.inl (by rw [List.mem_singleton.mp he]; rfl)

/-- The largest id of the view. -/
def highest (o : DiscoveryObservations K) : ℕ := o.recent.foldl (fun highest e => max highest e.id) 0

/-- The newest entry is never lost: it has the id that was given last. -/
theorem WellFormed.highest (h : o.WellFormed) : o.highest + 1 = o.nextId := by
  have hmax : ∀ x, o.highest ≤ x ↔ 0 ≤ x ∧ ∀ e ∈ o.recent, e.id ≤ x := fun x =>
    Fold.foldl_max_le (φ := id) (ψ := fun e : DiscoveryObservation K => e.id) (fun _ _ => rfl)
      o.recent 0 x
  rcases h.newest with ⟨hnil, hnext⟩ | ⟨e, he, hnext⟩
  · rw [DiscoveryObservations.highest, hnil, hnext]
    rfl
  · have hge := ((hmax o.highest).mp le_rfl).2 e he
    have hle := (hmax e.id).mpr ⟨Nat.zero_le _, fun e' he' => by have := (h.ids e' he').2; omega⟩
    omega

end Invariant

end DiscoveryObservations

end OVMesh
