import Mathlib.Data.List.Chain
import OVMesh.Lib.Outcome
import OVMesh.Store.History
import OVMesh.Store.Observations
import OVMesh.Store.PowerCover

/-!
# Visiting the tiles of a survey

`visit_tiles` and `visit_gaps`: the rows of a saved survey with the checks between them.

* `Visit`: what is remembered of the rows before. `Visit.next`: the checks of a row.
* `visitTiles`, `visitGaps`: the visits. `Readable`: their checks pass.
* `Separate`: a survey whose tiles lie in acquisitions that do not overlap. `Held`: a tile in an acquisition.
* `Separate.before`, `Separate.shape_eq`: its tiles are in order, and share a grid within an acquisition.
-/

namespace OVMesh

open Checked
open SessionStore (Before Sampled)

variable {K : Type} [Field K] [LinearOrder K]

/-- The variables of `visit_tiles`. An acquisition is known by its index. -/
structure Visit (K : Type) where
  previous : ℕ
  elapsed : K
  bins : ℕ
  first : K
  width : K
  config : Option (Option ℕ)

/-- A visit before its first tile. -/
def Visit.initial : Visit K := ⟨0, 0, 0, 0, 0, none⟩

/-- After the row of a tile. -/
def Visit.after (t : SpectrumTile K) (acquisition : Option ℕ) : Visit K :=
  ⟨t.endSample, t.elapsedEndSeconds, t.meanDbfs.length, t.firstCenterHz, t.binWidthHz, some acquisition⟩

section Visits

variable [FloorRing K]

/-- The checks of a row. -/
def Visit.next (s : SavedSurvey K) (v : Visit K) (t : SpectrumTile K) : Except String (Visit K) := do
  let row ← readTile s t
  reject (t.firstSample < v.previous ∨ t.elapsedStartSeconds < v.elapsed - 1 / 10 ^ 8 ∨
      v.config = some row.1 ∧ v.bins ≠ 0 ∧
        (v.bins ≠ t.meanDbfs.length ∨ v.first ≠ t.firstCenterHz ∨ v.width ≠ t.binWidthHz))
    "Unordered or inconsistent saved spectrum tiles"
  return .after t row.1

namespace SavedSurvey

variable {σ : Type}

/-- `visit_tiles`: the visitor takes every tile of the survey in turn, in the order and on the grid that
are checked on the way. -/
def visitTiles (s : SavedSurvey K) (visitor : σ → SpectrumTile K → Except String σ) (state : σ) :
    Except String σ := do
  reject (s.version = 7) "Sampled concentrator RSSI is not FFT occupancy"
  reject (s.version < 4) "This legacy recording has no fine frequency activity history"
  let (_, state) ← s.tiles.foldlM (fun (v, state) t => do
    let v ← Visit.next s v t
    let state ← visitor state t
    return (v, state)) (Visit.initial, state)
  return state

/-- `visit_gaps`: the visitor takes every gap of the survey in turn. -/
def visitGaps (s : SavedSurvey K) (visitor : σ → CoverageGap K → σ) (state : σ) : Except String σ := do
  reject (s.version < 4) "This legacy recording has no fine coverage-gap history"
  s.gaps.foldlM (fun state gap => do
    validateGap gap
    return visitor state gap) state

end SavedSurvey

/-- The checks of the visits pass. -/
structure Readable (s : SavedSurvey K) : Prop where
  version_ge : 4 ≤ s.version
  version_ne : s.version ≠ 7
  tiles : ∃ v, s.tiles.foldlM (Visit.next s) .initial = .ok v
  gaps : ∀ gap ∈ s.gaps, validateGap gap = .ok ()

/-- A tile within the times of an acquisition. -/
structure AcquisitionSegment.Spans (a : AcquisitionSegment K) (t : SpectrumTile K) : Prop where
  start_le : a.elapsedStart ≤ t.elapsedStartSeconds
  end_le : t.elapsedEndSeconds ≤ a.elapsedEnd

/-- Each tile lies in an acquisition, and the acquisitions do not overlap. -/
structure Separate (s : SavedSurvey K) : Prop where
  readable : Readable s
  sampled : ¬ s.config.Rak
  acquisitions : ∀ a ∈ s.acquisitions, ValidAcquisition a s.config
  ids : (s.acquisitions.map (·.id)).Nodup
  disjoint : s.acquisitions.Pairwise fun a b => a.elapsedEnd ≤ b.elapsedStart
  nonempty : s.acquisitions ≠ []
  spans : ∀ t ∈ s.tiles, ∃ a ∈ s.acquisitions, a.Spans t

/-- A tile of an acquisition of the survey, as its checks describe it. -/
structure Held (s : SavedSurvey K) (a : AcquisitionSegment K) (t : SpectrumTile K) : Prop where
  mem : a ∈ s.acquisitions
  spans : a.Spans t
  valid : ValidTile t a.config

/-! ## Visits -/

variable {s : SavedSurvey K} {a b : AcquisitionSegment K} {t u : SpectrumTile K} {σ : Type}

theorem Readable.visitTiles_eq (h : Readable s) (visitor : σ → SpectrumTile K → Except String σ) (state : σ) :
    s.visitTiles visitor state = s.tiles.foldlM visitor state := by
  obtain ⟨v, hv⟩ := h.tiles
  rw [SavedSurvey.visitTiles, reject, if_neg h.version_ne, reject, if_neg (not_lt.mpr h.version_ge)]
  exact foldlM_beside hv visitor state

theorem Readable.visitGaps_eq (h : Readable s) (visitor : σ → CoverageGap K → σ) (state : σ) :
    s.visitGaps visitor state = .ok (s.gaps.foldl visitor state) := by
  rw [SavedSurvey.visitGaps, reject, if_neg (not_lt.mpr h.version_ge)]
  show s.gaps.foldlM _ state = _
  have hgaps := h.gaps
  generalize s.gaps = gaps at hgaps ⊢
  induction gaps generalizing state with
  | nil => rfl
  | cons gap gaps ih =>
    rw [List.foldlM_cons, hgaps gap List.mem_cons_self]
    exact ih (visitor state gap) fun g hg => hgaps g (List.mem_cons_of_mem gap hg)

/-- A row follows another one. -/
structure Adjacent (s : SavedSurvey K) (t u : SpectrumTile K) : Prop where
  before : Before t u
  shape : ∀ row row', readTile s t = .ok row → readTile s u = .ok row' → row.1 = row'.1 → t.shape = u.shape

/-- The rows that were visited. -/
theorem Readable.rows (h : Readable s) :
    (∀ t ∈ s.tiles, ∃ row, readTile s t = .ok row) ∧ s.tiles.IsChain (Adjacent s) := by
  obtain ⟨v, hv⟩ := h.tiles
  refine (foldlM_induction (P := fun seen v => ((∀ t ∈ seen, ∃ row, readTile s t = .ok row) ∧
    seen.IsChain (Adjacent s)) ∧ ∀ t ∈ seen.getLast?, ∃ row, readTile s t = .ok row ∧ v = .after t row.1)
    ?_ (by simp) hv).1
  rintro seen u rest v v' - ⟨⟨hrows, hchain⟩, hlast⟩ hnext
  rw [Visit.next, bind_eq_ok] at hnext
  obtain ⟨row', hrow', hnext⟩ := hnext
  rw [bind_eq_ok] at hnext
  obtain ⟨_, hchecks, hnext⟩ := hnext
  rw [reject_eq_ok, not_or, not_or, not_lt, not_lt] at hchecks
  obtain ⟨hsample, helapsed, hgrid⟩ := hchecks
  obtain rfl := pure_eq_ok.mp hnext
  refine ⟨⟨fun t ht => ?_, ?_⟩, fun t ht => ?_⟩
  · rcases List.mem_append.mp ht with ht | ht
    · exact hrows t ht
    · exact ⟨row', List.mem_singleton.mp ht ▸ hrow'⟩
  · refine List.isChain_append.mpr ⟨hchain, .singleton u, fun t ht u' hu' => ?_⟩
    obtain rfl : u = u' := Option.some.inj hu'
    obtain ⟨row, hrow, rfl⟩ := hlast t ht
    refine ⟨⟨hsample, helapsed⟩, fun row₁ row₂ hrow₁ hrow₂ hsame => ?_⟩
    obtain rfl : row = row₁ := Except.ok.inj (hrow.symm.trans hrow₁)
    obtain rfl : row' = row₂ := Except.ok.inj (hrow'.symm.trans hrow₂)
    have hbins := (Analysis.readTile_valid hrow).2.dimensions.bins_pos.ne'
    have heq := not_or.mp fun hne => hgrid ⟨congrArg some hsame, hbins, hne⟩
    obtain ⟨hcount, hrest⟩ := heq
    obtain ⟨hfirst, hwidth⟩ := not_or.mp hrest
    simp only [SpectrumTile.shape, Shape.mk.injEq]
    exact ⟨not_not.mp hfirst, not_not.mp hwidth, not_not.mp hcount⟩
  · rw [List.getLast?_concat] at ht
    obtain rfl : u = t := Option.some.inj ht
    exact ⟨row', hrow', rfl⟩

/-- The acquisition of a row is found by its start. -/
theorem readTile_found (hne : s.acquisitions ≠ []) {row : Option ℕ × ReceiverConfig K}
    (h : readTile s t = .ok row) :
    ∃ i a, acquisitionConfigAt s.acquisitions t.elapsedStartSeconds = .ok (some (i, a)) ∧ row = (some i, a.config) := by
  rw [readTile, bind_eq_ok] at h
  obtain ⟨found, hfound, h⟩ := h
  rw [bind_eq_ok] at h
  obtain ⟨_, -, h⟩ := h
  have hrow : found = row := by
    split at h
    · obtain ⟨_, -, h⟩ := bind_eq_ok.mp h
      exact Except.ok.inj h
    · exact Except.ok.inj h
  subst hrow
  rw [recordConfig, bind_eq_ok] at hfound
  obtain ⟨at_start, hstart, hfound⟩ := hfound
  cases at_start with
  | none =>
    rw [acquisitionConfigAt, if_neg hne, bind_eq_ok] at hstart
    obtain ⟨_, -, hstart⟩ := hstart
    dsimp only at hstart
    split at hstart
    · cases hstart
    split at hstart
    · cases hstart
    obtain ⟨_, -, hstart⟩ := bind_eq_ok.mp hstart
    cases hstart
  | some found' =>
    obtain ⟨i, a⟩ := found'
    obtain ⟨_, -, hfound⟩ := bind_eq_ok.mp hfound
    exact ⟨i, a, hstart, (Except.ok.inj hfound).symm⟩

/-! ## Surveys with separate acquisitions -/

namespace Separate

variable [IsStrictOrderedRing K]

omit [IsStrictOrderedRing K] in
theorem config (h : Separate s) (ha : a ∈ s.acquisitions) : Sampled a.config := by
  have hvalid := h.acquisitions a ha
  have hsdr : ¬ a.config.Rak := fun hrak => h.sampled (hvalid.agrees.rak.mp hrak)
  exact ⟨hsdr, (hvalid.sampled hsdr).1, (hvalid.sampled hsdr).2.1⟩

omit [IsStrictOrderedRing K] in
/-- The acquisitions start one after the other. -/
theorem starts (h : Separate s) : s.acquisitions.Pairwise fun a b => a.elapsedStart ≤ b.elapsedStart :=
  h.disjoint.imp_of_mem fun ha _ hab => (h.acquisitions _ ha).start_le.trans hab

/-- The row of a tile is that of the acquisition that spans it. -/
theorem row (h : Separate s) (ht : t ∈ s.tiles) :
    ∃ i a, s.acquisitions[i]? = some a ∧ Held s a t ∧ readTile s t = .ok (some i, a.config) := by
  obtain ⟨row, hrow⟩ := h.readable.rows.1 t ht
  obtain ⟨j, b, hfound, rfl⟩ := readTile_found h.nonempty hrow
  have hb := List.mem_of_getElem? (acquisitionConfigAt_getElem hfound)
  have hvalid := (Analysis.readTile_valid hrow).2
  have hlong := (SessionStore.duration_mem hvalid (h.config hb)).1
  obtain ⟨a, ha, hspans⟩ := h.spans t ht
  obtain ⟨i, hi, rfl⟩ := List.getElem_of_mem ha
  have hnext : ∀ x ∈ s.acquisitions[i + 1]?, t.elapsedStartSeconds + 1 / 10 ^ 8 < x.elapsedStart := by
    intro x hx
    obtain ⟨hi', rfl⟩ := List.getElem?_eq_some_iff.mp hx
    have hdisjoint := List.pairwise_iff_getElem.mp h.disjoint i (i + 1) hi hi' (Nat.lt_succ_self i)
    have hend := hspans.end_le
    linarith
  have hinside := acquisitionConfigAt_inside (List.getElem?_eq_getElem hi) h.starts
    (h.acquisitions _ ha).start_nonneg hspans.start_le
    ((by linarith : t.elapsedStartSeconds ≤ t.elapsedEndSeconds).trans hspans.end_le) hnext
  obtain ⟨rfl, rfl⟩ := Prod.mk.inj (Option.some.inj (Except.ok.inj (hfound.symm.trans hinside)))
  exact ⟨j, _, List.getElem?_eq_getElem hi, ⟨ha, hspans, hvalid⟩, hrow⟩

theorem held (h : Separate s) (ht : t ∈ s.tiles) : ∃ a, Held s a t := by
  obtain ⟨i, a, -, hheld, -⟩ := h.row ht
  exact ⟨a, hheld⟩

theorem lasts (h : Separate s) (ht : Held s a t) : t.elapsedStartSeconds + 2 / 10 ^ 4 ≤ t.elapsedEndSeconds :=
  (SessionStore.duration_mem ht.valid (h.config ht.mem)).1

theorem lt (h : Separate s) (ht : Held s a t) : t.elapsedStartSeconds < t.elapsedEndSeconds := by
  have := h.lasts ht
  linarith

omit [IsStrictOrderedRing K] in
/-- Another acquisition ends before one starts, or starts after it ends. -/
theorem apart (h : Separate s) (ha : a ∈ s.acquisitions) (hb : b ∈ s.acquisitions) :
    a = b ∨ a.elapsedEnd ≤ b.elapsedStart ∨ b.elapsedEnd ≤ a.elapsedStart := by
  obtain ⟨i, hi, rfl⟩ := List.getElem_of_mem ha
  obtain ⟨j, hj, rfl⟩ := List.getElem_of_mem hb
  have hpairs := List.pairwise_iff_getElem.mp h.disjoint
  rcases lt_trichotomy i j with hlt | rfl | hlt
  · exact .inr (.inl (hpairs i j hi hj hlt))
  · exact .inl rfl
  · exact .inr (.inr (hpairs j i hj hi hlt))

theorem eq_of_held (h : Separate s) (ha : Held s a t) (hb : Held s b t) : a = b := by
  have hlt := h.lt ha
  rcases h.apart ha.mem hb.mem with heq | hab | hba
  · exact heq
  · exact absurd (ha.spans.end_le.trans (hab.trans hb.spans.start_le)) (not_le.mpr hlt)
  · exact absurd (hb.spans.end_le.trans (hba.trans ha.spans.start_le)) (not_le.mpr hlt)

/-- What two tiles of a survey, one before the other, have in common. -/
structure Related (s : SavedSurvey K) (t u : SpectrumTile K) : Prop where
  first : ∃ a, Held s a t
  second : ∃ a, Held s a u
  before : Before t u
  shape : ∀ a, Held s a t → Held s a u → t.shape = u.shape

/-- A tile between two tiles of an acquisition is one of them. -/
theorem between {v : SpectrumTile K} (h : Separate s) (ha : Held s a t) (hb : Held s b u) (hc : Held s a v)
    (htu : Before t u) (huv : Before u v) : Held s a u := by
  have helapsed := htu.elapsed
  have helapsed' := huv.elapsed
  have hu := h.lasts hb
  have hcases := h.apart ha.mem hb.mem
  rcases hcases with rfl | hab | hba
  · exact hb
  · have := hb.spans.start_le
    have := hc.spans.end_le
    have := h.lasts hc
    linarith
  · have := hb.spans.end_le
    have := ha.spans.start_le
    have := h.lasts ha
    linarith

theorem Related.trans {v : SpectrumTile K} (h : Separate s) (htu : Related s t u) (huv : Related s u v) :
    Related s t v := by
  obtain ⟨b, hb⟩ := htu.second
  have hlong := h.lasts hb
  refine ⟨htu.first, huv.second, ⟨?_, ?_⟩, fun a ha hc => ?_⟩
  · exact htu.before.sample.trans (hb.valid.dimensions.first_lt.le.trans huv.before.sample)
  · have := htu.before.elapsed
    have := huv.before.elapsed
    linarith
  · have hu := h.between ha hb hc htu.before huv.before
    exact (htu.shape a ha hu).trans (huv.shape a hu hc)

/-- The tiles of a survey, in their order. -/
theorem related (h : Separate s) : s.tiles.Pairwise (Related s) := by
  have htrans : Trans (Related s) (Related s) (Related s) := ⟨Related.trans h⟩
  refine (List.IsChain.imp_of_mem_imp ?_ h.readable.rows.2).pairwise
  intro t u ht hu hadjacent
  obtain ⟨i, a, hi, hheld, hrow⟩ := h.row ht
  obtain ⟨j, b, hj, hheld', hrow'⟩ := h.row hu
  refine ⟨⟨a, hheld⟩, ⟨b, hheld'⟩, hadjacent.before, fun c hc hc' => hadjacent.shape _ _ hrow hrow' ?_⟩
  obtain rfl := h.eq_of_held hheld hc
  obtain rfl := h.eq_of_held hheld' hc'
  obtain ⟨hlt, hget⟩ := List.getElem?_eq_some_iff.mp hi
  obtain ⟨hlt', hget'⟩ := List.getElem?_eq_some_iff.mp hj
  have hnodup : s.acquisitions.Nodup := List.Nodup.of_map _ h.ids
  exact congrArg some ((List.Nodup.getElem_inj_iff hnodup).mp (hget.trans hget'.symm))

theorem before (h : Separate s) : s.tiles.Pairwise Before := h.related.imp fun hrelated => hrelated.before

/-- The tiles of an acquisition share their grid. -/
theorem shape_eq (h : Separate s) (ht : t ∈ s.tiles) (hu : u ∈ s.tiles) (ha : Held s a t) (hb : Held s a u) :
    t.shape = u.shape := by
  obtain ⟨i, hi, rfl⟩ := List.getElem_of_mem ht
  obtain ⟨j, hj, rfl⟩ := List.getElem_of_mem hu
  have hpairs := List.pairwise_iff_getElem.mp h.related
  rcases lt_trichotomy i j with hlt | rfl | hlt
  · exact (hpairs i j hi hj hlt).shape a ha hb
  · rfl
  · exact ((hpairs j i hj hi hlt).shape a hb ha).symm

end Separate

end Visits

end OVMesh
