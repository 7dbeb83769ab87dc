import OVMesh.Report.Rows
import OVMesh.Store.Visit

/-!
# The sections of a report

`export_survey_report` for the kinds that aggregate: the acquisitions that a report has a section for, and the
section of each, with the context narrowed to it.

* `exportReport`: the sections of a report. `writeOne`: one of them.
* `Selected.narrow`: the context of a section. `Narrowed`: what it selects of the tiles.
* `Sectioned`: each tile counts in one section, and the rows hold what counts. `exportReport_sectioned`: every
  report is so.
-/

namespace OVMesh

namespace Report

open AggregateReport Checked SpectrumProcessor
open SessionStore (Before Sampled)

/-! ## Reports -/

section Definitions

variable {K : Type} [Field K] [LinearOrder K]

/-- A section, with the context that it is written for. -/
structure ReportSection (K : Type) where
  context : Context K
  report : AggregateReport K
  rows : List (ReportRow K)

/-- The acquisition lies in the selection, at least in part. -/
def Context.Meets (c : Context K) (a : AcquisitionSegment K) : Prop :=
  max c.options.query.elapsedStart a.elapsedStart < min c.stop a.elapsedEnd ∧
    c.lower < a.config.upperEdge ∧ a.config.lowerEdge < c.upper

instance (c : Context K) (a : AcquisitionSegment K) : Decidable (c.Meets a) := inferInstanceAs (Decidable (_ ∧ _))

/-- The tile meets the frequencies of the selection. -/
def Context.MeetsTile (c : Context K) (t : SpectrumTile K) : Prop :=
  c.lower < t.firstCenterHz + (t.meanDbfs.length - 1 / 2) * t.binWidthHz ∧
    t.firstCenterHz - 1 / 2 * t.binWidthHz < c.upper

instance (c : Context K) (t : SpectrumTile K) : Decidable (c.MeetsTile t) := inferInstanceAs (Decidable (_ ∧ _))

/-- The condition of `with_data`. -/
def Context.HasData (c : Context K) (a : AcquisitionSegment K) (t : SpectrumTile K) : Prop :=
  a.elapsedStart - 1 / 10 ^ 8 ≤ t.elapsedStartSeconds ∧ t.elapsedStartSeconds < a.elapsedEnd ∧ c.Counts t ∧
    c.MeetsTile t

instance (c : Context K) (a : AcquisitionSegment K) (t : SpectrumTile K) : Decidable (c.HasData a t) :=
  inferInstanceAs (Decidable (_ ∧ _))

/-- What the report throws when no acquisition meets the selection. -/
def noMeasurements : String := "No acquisition measurements intersect this report selection"

variable [FloorRing K] (m : Libm K) (sphere : Sphere K) (below : K → K)

/-- `write_one`, after some rows. The first section writes the header. -/
def writeOne (s : SavedSurvey K) (c : Context K) (written : ℕ) : Except String (ReportSection K × ℕ) := do
  let report ← s.visitTiles (consume m sphere below c) .initial
  let report ← s.visitGaps (gap c) report
  let rows ← report.write below c
  let written := (if written = 0 then 1 else written) + rows.length
  reject (written > rowLimit + 1) tooManyRows
  return (⟨c, report, rows⟩, written)

/-- `selected_segments`: the acquisitions in the selection that have data in it. -/
def selectedSegments (s : SavedSurvey K) (c : Context K) : Except String (List (AcquisitionSegment K)) := do
  let segments := s.acquisitions.filter fun a => c.Meets a
  let withData ← s.visitTiles
    (fun ids t => .ok (ids ++ (segments.filter fun a => c.HasData a t).map (·.id))) []
  return segments.filter fun a => a.id ∈ withData

/-- The loop over the acquisitions. -/
def writeSections (s : SavedSurvey K) (c : Context K) (segments : List (AcquisitionSegment K)) :
    Except String (List (ReportSection K)) := do
  let (sections, _) ← segments.foldlM (fun (sections, written) a => do
    let selected ← c.narrow a
    let (one, written) ← writeOne m sphere below s selected written
    return (sections ++ [one], written)) ([], 0)
  return sections

/-- `export_survey_report`: the sections of a kind that aggregates. -/
def exportReport (s : SavedSurvey K) (o : ReportOptions K) : Except String (List (ReportSection K)) := do
  let context ← Context.create o s.config s.acquisitions s.version
  if s.acquisitions = [] then
    let (one, _) ← writeOne m sphere below s context 0
    return [one]
  let segments ← selectedSegments s context
  reject (segments = []) noMeasurements
  writeSections m sphere below s context segments

/-! ## What is counted -/

/-- The tile and its acquisition meet the selection. -/
def Context.Passes (s : SavedSurvey K) (c : Context K) (t : SpectrumTile K) : Prop :=
  c.Counts t ∧ c.MeetsTile t ∧
    ∃ a, Held s a t ∧ c.lower < a.config.upperEdge ∧ a.config.lowerEdge < c.upper

/-- The sections of a report, each for an acquisition. -/
structure Sectioned (s : SavedSurvey K) (c : Context K) (sections : List (ReportSection K)) : Prop where
  once : ∀ t ∈ s.tiles, c.Passes s t → sections.countP (fun x => x.context.Counts t) = 1
  clip : ∀ x ∈ sections, ∀ t ∈ s.tiles, x.context.Counts t → c.Counts t ∧ x.context.clip t = c.clip t
  foreign : ∀ x ∈ sections, ∀ a t, Held s a t → a ∉ x.context.acquisitions → ∀ r,
    consume m sphere below x.context r t = .ok r
  kind : ∀ x ∈ sections, x.context.options.kind = c.options.kind
  bins : ∀ x ∈ sections, x.report.first < x.report.last
  exposure : ∀ x ∈ sections, x.report.Exposure x.context (countedSeconds x.context s.tiles)
  written : ∀ x ∈ sections, x.report.write below x.context = .ok x.rows
  rows : ∀ x ∈ sections, RowsHold below x.context x.report (countedSeconds x.context s.tiles) x.rows

end Definitions

/-! ## The context of a section -/

section Narrowed

variable {K : Type} [Field K] [LinearOrder K] {q : SurveyQuery K} {config : ReceiverConfig K}
  {acquisitions : List (AcquisitionSegment K)} {c x : Context K} {a b : AcquisitionSegment K} {t : SpectrumTile K}
  {s : SavedSurvey K}

theorem lowerBound_pos (h : 0 < q.lowerHz) : lowerBound q config acquisitions = q.lowerHz := by
  rw [lowerBound, if_pos h]
  refine Fold.foldl_eq (φ := id) (fun lower a => ?_) acquisitions q.lowerHz
  rw [if_neg h.ne', id]

theorem upperBound_pos (h : 0 < q.upperHz) : upperBound q config acquisitions = q.upperHz := by
  rw [upperBound, if_pos h]
  refine Fold.foldl_eq (φ := id) (fun upper a => ?_) acquisitions q.upperHz
  rw [if_neg h.ne', id]

theorem lowerBound_zero (h : q.lowerHz = 0) : lowerBound q a.config [a] = a.config.lowerEdge := by
  simp [lowerBound, h]

theorem upperBound_zero (h : q.upperHz = 0) : upperBound q a.config [a] = a.config.upperEdge := by
  simp [upperBound, h]

variable [IsStrictOrderedRing K]

theorem edges_lt (h : ValidAcquisition a config) (ha : Sampled a.config) : a.config.lowerEdge < a.config.upperEdge := by
  have hspan : (500000 : K) ≤ a.config.surveySpanHz := by exact_mod_cast (h.sampled ha.sdr).2.2.1
  rw [ReceiverConfig.lowerEdge, ReceiverConfig.upperEdge]
  linarith

/-- What the frequencies of a section lie between. -/
theorem narrow_edges (h : Selected c) (hvalid : ValidAcquisition a config) (ha : Sampled a.config)
    (hupper : c.lower < a.config.upperEdge) (hlower : a.config.lowerEdge < c.upper) :
    lowerBound c.options.query a.config [a] < upperBound c.options.query a.config [a] := by
  have hlt := h.lower_lt
  rcases h.lowerHz.1.eq_or_lt with hzero | hpos <;> rcases h.upperHz.1.eq_or_lt with hzero' | hpos'
  · rw [lowerBound_zero hzero.symm, upperBound_zero hzero'.symm]
    exact edges_lt hvalid ha
  · rw [h.upper, upperBound_pos hpos'] at hlower
    rw [lowerBound_zero hzero.symm, upperBound_pos hpos']
    exact hlower
  · rw [h.lower, lowerBound_pos hpos] at hupper
    rw [lowerBound_pos hpos, upperBound_zero hzero'.symm]
    exact hupper
  · rw [h.lower, lowerBound_pos hpos, h.upper, upperBound_pos hpos'] at hlt
    rw [lowerBound_pos hpos, upperBound_pos hpos']
    exact hlt

/-- What the context of a section selects. -/
structure Narrowed (c : Context K) (a : AcquisitionSegment K) (x : Context K) : Prop where
  selected : Selected x
  options : x.options = c.narrowOptions a
  acquisitions : x.acquisitions = [a]
  stop : x.stop = min c.stop a.elapsedEnd
  lower : x.lower = lowerBound c.options.query a.config [a]
  upper : x.upper = upperBound c.options.query a.config [a]

/-- **The context of a section** is not empty. -/
theorem Selected.narrow (h : Selected c) (hvalid : ValidAcquisition a config) (ha : Sampled a.config)
    (hmeets : c.Meets a) : ∃ x, c.narrow a = .ok x ∧ Narrowed c a x := by
  obtain ⟨htimes, hupper, hlower⟩ := hmeets
  have hpos : 0 < min c.stop a.elapsedEnd := (h.elapsedStart.1.trans (le_max_left _ _)).trans_lt htimes
  have hstop : stopBound (c.narrowOptions a).query = min c.stop a.elapsedEnd := if_pos hpos
  let x : Context K :=
    { options := c.narrowOptions a, config := a.config, acquisitions := [a], schema := c.schema
      lower := lowerBound c.options.query a.config [a], upper := upperBound c.options.query a.config [a]
      stop := min c.stop a.elapsedEnd }
  have hx : Selected x :=
    { lowerHz := h.lowerHz
      upperHz := h.upperHz
      elapsedStart := ⟨h.elapsedStart.1.trans (le_max_left _ _),
        max_le h.elapsedStart.2 (hvalid.start_le.trans hvalid.end_le)⟩
      elapsedEnd := ⟨hpos.le, (min_le_right _ _).trans hvalid.end_le⟩
      lower := rfl
      upper := rfl
      stop := hstop.symm
      lower_lt := narrow_edges h hvalid ha hupper hlower
      start_lt := htimes
      options := h.options }
  exact ⟨x, create_ok.mpr ⟨hx, rfl, rfl, rfl, rfl⟩, hx, rfl, rfl, rfl, rfl, rfl⟩

namespace Narrowed

omit [IsStrictOrderedRing K] in
/-- The tiles of the acquisition. -/
theorem considers (h : Narrowed c a x) (hspans : a.Spans t) (hlt : t.elapsedStartSeconds < t.elapsedEndSeconds) :
    x.Considers t ↔ c.Considers t := by
  rw [Context.Considers, Context.Considers, h.options, h.stop, lt_min_iff]
  have hstart : a.elapsedStart < t.elapsedEndSeconds := hspans.start_le.trans_lt hlt
  have hend : t.elapsedStartSeconds < a.elapsedEnd := hlt.trans_le hspans.end_le
  rw [Context.narrowOptions, max_lt_iff, and_iff_left hstart, and_iff_left hend]

omit [IsStrictOrderedRing K] in
theorem counts (h : Narrowed c a x) (hspans : a.Spans t) (hlt : t.elapsedStartSeconds < t.elapsedEndSeconds) :
    x.Counts t ↔ c.Counts t := by
  refine and_congr (h.considers hspans hlt) ?_
  rw [h.options]
  exact Iff.rfl

omit [IsStrictOrderedRing K] in
theorem clip (h : Narrowed c a x) (hspans : a.Spans t) : x.clip t = c.clip t := by
  rw [Context.clip, Context.clip, h.options, h.stop, Context.narrowOptions, max_assoc, min_assoc,
    max_eq_right hspans.start_le, min_eq_right hspans.end_le]

variable [FloorRing K]

omit [IsStrictOrderedRing K] in
/-- The tiles of another acquisition. -/
theorem foreign (hs : Separate s) (h : Narrowed c a x) (ha : a ∈ s.acquisitions) (hb : Held s b t) (hne : b ≠ a) :
    ¬ x.Considers t := by
  rw [Context.Considers, h.options, h.stop, Context.narrowOptions]
  rintro ⟨hstart, hend⟩
  rcases hs.apart ha hb.mem with heq | hab | hba
  · exact hne heq.symm
  · exact absurd (hab.trans hb.spans.start_le) (not_le.mpr (hend.trans_le (min_le_right _ _)))
  · exact absurd (hb.spans.end_le.trans hba) (not_le.mpr ((le_max_right _ _).trans_lt hstart))

end Narrowed

/-! ## The bins of a section -/

/-- A selection that an extent of bins meets has some of them. -/
theorem selects_of_lt {g : Shape K} (hw : 0 < g.width) (hcount : 0 < g.count) (hlt : x.lower < x.upper)
    (hlower : x.lower < g.firstHz + (g.count - 1 / 2) * g.width)
    (hupper : g.firstHz - 1 / 2 * g.width < x.upper) : x.Selects g := by
  have hcast : ((g.count - 1 : ℕ) : K) + 1 / 2 = g.count - 1 / 2 := by
    rw [Nat.cast_sub hcount]
    ring
  rw [← hcast] at hlower
  -- The first bin above the lower bound is selected.
  have hexists : ∃ b : ℕ, x.lower < g.firstHz + (b + 1 / 2) * g.width := ⟨g.count - 1, hlower⟩
  have hspec := Nat.find_spec hexists
  have hle : Nat.find hexists ≤ g.count - 1 := Nat.find_min' hexists hlower
  have hbelow : g.firstHz + ((Nat.find hexists : ℕ) - 1 / 2) * g.width < x.upper := by
    rcases Nat.eq_zero_or_pos (Nat.find hexists) with hzero | hpos
    · rw [hzero]
      linarith
    · have hmin := not_lt.mp (Nat.find_min hexists (Nat.sub_lt hpos Nat.one_pos))
      rw [Nat.cast_sub hpos] at hmin
      linarith
  have hmeets : g.Meets x.lower x.upper (Nat.find hexists) := ⟨by omega, hspec, hbelow⟩
  obtain ⟨hfirst, hlast⟩ := (Analysis.mem_firstBin_lastBin hw).mpr hmeets
  exact (hfirst.trans_lt hlast).ne

variable [FloorRing K]

/-- The extent of a tile meets the span of its acquisition. -/
theorem tile_edges (hs : Separate s) (h : Held s a t) :
    0 < t.binWidthHz ∧ a.config.lowerEdge < t.firstCenterHz + (t.meanDbfs.length - 1 / 2) * t.binWidthHz ∧
      t.firstCenterHz - 1 / 2 * t.binWidthHz < a.config.upperEdge := by
  have hrate : (1000000 : K) ≤ a.config.sampleRate := by exact_mod_cast (hs.config h.mem).rate_ge
  have hwidth := abs_le.mp h.valid.dimensions.width
  have hbins : (1 : K) ≤ t.meanDbfs.length := by exact_mod_cast h.valid.dimensions.bins_pos
  have hlower := h.valid.grid.lower
  have hupper := h.valid.grid.upper
  have hwide : (200 : K) ≤ t.binWidthHz := by linarith [hwidth.1]
  have hhalf : (1 / 2 : K) * t.binWidthHz ≤ (t.meanDbfs.length - 1 / 2) * t.binWidthHz :=
    mul_le_mul_of_nonneg_right (by linarith) (by linarith)
  have hhalf' : (1 / 2 : K) * (a.config.sampleRate / 4096) ≤
      (t.meanDbfs.length - 1 / 2) * (a.config.sampleRate / 4096) :=
    mul_le_mul_of_nonneg_right (by linarith) (by positivity)
  rw [ReceiverConfig.lowerEdge, ReceiverConfig.upperEdge]
  refine ⟨by linarith, ?_, ?_⟩
  · linarith
  · linarith

/-- The section of an acquisition has bins when a tile of it meets the selection. -/
theorem Narrowed.selects (hs : Separate s) (h : Selected c) (hx : Narrowed c a x) (ht : Held s a t)
    (hmeets : c.MeetsTile t) : x.Selects t.shape := by
  obtain ⟨hwidth, hlower, hupper⟩ := tile_edges hs ht
  refine selects_of_lt hwidth ht.valid.dimensions.bins_pos hx.selected.lower_lt ?_ ?_
  · rw [hx.lower]
    rcases h.lowerHz.1.eq_or_lt with hzero | hpos
    · rw [lowerBound_zero hzero.symm]
      exact hlower
    · have hbelow := hmeets.1
      rw [h.lower, lowerBound_pos hpos] at hbelow
      rw [lowerBound_pos hpos]
      exact hbelow
  · rw [hx.upper]
    rcases h.upperHz.1.eq_or_lt with hzero | hpos
    · rw [upperBound_zero hzero.symm]
      exact hupper
    · have habove := hmeets.2
      rw [h.upper, upperBound_pos hpos] at habove
      rw [upperBound_pos hpos]
      exact habove

end Narrowed

/-! ## The sections -/

section Sections

variable {K : Type} [Field K] [LinearOrder K] [IsStrictOrderedRing K] [FloorRing K] {m : Libm K} {sphere : Sphere K}
  {below : K → K} {s : SavedSurvey K} {o : ReportOptions K} {c x : Context K} {a b : AcquisitionSegment K}
  {t : SpectrumTile K} {written : ℕ}

variable (below) in
/-- A section of an acquisition. -/
structure SectionOf (s : SavedSurvey K) (c : Context K) (a : AcquisitionSegment K) (x : ReportSection K) : Prop where
  narrowed : Narrowed c a x.context
  bins : x.report.first < x.report.last
  exposure : x.report.Exposure x.context (countedSeconds x.context s.tiles)
  written : x.report.write below x.context = .ok x.rows
  rows : RowsHold below x.context x.report (countedSeconds x.context s.tiles) x.rows

/-- **One section.** -/
theorem writeOne_ensures (hs : Separate s) (h : Selected c) (hx : Narrowed c a x) (ht : t ∈ s.tiles)
    (hheld : Held s a t) (hconsiders : c.Considers t) (hmeets : c.MeetsTile t) :
    Ensures IsLimit (fun one => SectionOf below s c a one.1) (writeOne m sphere below s x written) := by
  have hselects := hx.selects hs h hheld hmeets
  have hrows : ∀ u ∈ s.tiles, x.Considers u →
      u.shape = t.shape ∧ 0 ≤ u.elapsedStartSeconds ∧ u.elapsedStartSeconds < u.elapsedEndSeconds := by
    intro u hu hconsiders'
    obtain ⟨b, hb⟩ := hs.held hu
    obtain rfl : b = a := by
      by_contra hne
      exact hx.foreign hs hheld.mem hb hne hconsiders'
    exact ⟨hs.shape_eq hu ht hb hheld, hb.valid.interval.elapsedStart_nonneg, hs.lt hb⟩
  have hconsidered : x.Considers t := (hx.considers hheld.spans (hs.lt hheld)).mpr hconsiders
  rw [writeOne, hs.readable.visitTiles_eq]
  refine (consumes_ran hx.selected hselects hrows hs.before).bind fun report hran => ?_
  have hfilled := (hran.filled ht hconsidered).gaps s.gaps
  rw [hs.readable.visitGaps_eq]
  refine Ensures.bind (P := (· = s.gaps.foldl (gap x) report)) rfl ?_
  rintro _ rfl
  refine (hfilled.write_ensures hx.selected hselects (tile_edges hs hheld).1).returned.bind fun rows hrows => ?_
  refine (ensures_reject fun _ => isLimit_tooManyRows).bind fun _ _ => ?_
  exact ⟨hx, hfilled.onGrid.bins_lt hselects, hfilled.exposure, hrows.1, hrows.2⟩

/-- The tiles of an acquisition that has data. -/
theorem held_of_hasData (hs : Separate s) (ha : a ∈ s.acquisitions) (ht : t ∈ s.tiles) (h : c.HasData a t) :
    Held s a t := by
  obtain ⟨b, hb⟩ := hs.held ht
  have hlong := hs.lasts hb
  rcases hs.apart ha hb.mem with rfl | hab | hba
  · exact hb
  · exact absurd (hab.trans hb.spans.start_le) (not_le.mpr h.2.1)
  · have hstart := h.1
    have hend := hb.spans.end_le
    linarith

theorem hasData_of_held (hs : Separate s) (h : Held s a t) (hcounts : c.Counts t) (hmeets : c.MeetsTile t) :
    c.HasData a t := by
  have htolerance : (0 : K) < 1 / 10 ^ 8 := by positivity
  have hstart := h.spans.start_le
  exact ⟨by linarith, (hs.lt h).trans_le h.spans.end_le, hcounts, hmeets⟩

/-- The acquisition of a tile that counts lies in the selection. -/
theorem meets_of_held (hs : Separate s) (hc : Selected c) (h : Held s a t) (hcounts : c.Counts t)
    (hupper : c.lower < a.config.upperEdge) (hlower : a.config.lowerEdge < c.upper) : c.Meets a := by
  obtain ⟨⟨hstart, hend⟩, -⟩ := hcounts
  have hlt := hs.lt h
  refine ⟨max_lt (lt_min hc.start_lt ?_) (lt_min ?_ ?_), hupper, hlower⟩
  · exact hstart.trans_le h.spans.end_le
  · exact h.spans.start_le.trans_lt hend
  · exact h.spans.start_le.trans_lt (hlt.trans_le h.spans.end_le)

omit [IsStrictOrderedRing K] in
/-- The acquisitions that are kept. -/
theorem selectedSegments_ok (hs : Separate s) : ∃ segments, selectedSegments s c = .ok segments ∧ segments.Nodup ∧
    ∀ a, a ∈ segments ↔ a ∈ s.acquisitions ∧ c.Meets a ∧ ∃ t ∈ s.tiles, c.HasData a t := by
  rw [selectedSegments, hs.readable.visitTiles_eq, foldlM_append]
  refine ⟨_, rfl, ((List.Nodup.of_map _ hs.ids).filter _).filter _, fun a => ?_⟩
  simp only [List.nil_append, List.mem_filter, List.mem_flatMap, List.mem_map, decide_eq_true_eq, and_assoc]
  refine and_congr_right fun ha => and_congr_right fun hmeets => exists_congr fun t => and_congr_right fun ht => ?_
  constructor
  · rintro ⟨b, hb, -, hdata, hid⟩
    exact List.inj_on_of_nodup_map hs.ids hb ha hid ▸ hdata
  · exact fun hdata => ⟨a, ha, hmeets, hdata, rfl⟩

/-- Exactly one entry has a property that determines its key. -/
theorem countP_eq_one {α β : Type} {l : List α} {p : α → Bool} {key : α → β} (hnodup : (l.map key).Nodup) {x : α}
    (hx : x ∈ l) (hp : p x = true) (h : ∀ y ∈ l, p y = true → key y = key x) : l.countP p = 1 := by
  induction l with
  | nil => cases hx
  | cons y l ih =>
    obtain ⟨hfresh, hnodup⟩ := List.nodup_cons.mp hnodup
    have hrest : ∀ z ∈ l, p z = true → key z = key x := fun z hz => h z (List.mem_cons_of_mem y hz)
    by_cases hy : p y = true
    · have hnone : l.countP p = 0 := by
        refine List.countP_eq_zero.mpr fun z hz hpz => hfresh ?_
        rw [h y List.mem_cons_self hy, ← hrest z hz hpz]
        exact List.mem_map_of_mem hz
      rw [List.countP_cons_of_pos hy, hnone]
    · have hmem : x ∈ l := (List.mem_cons.mp hx).resolve_left fun heq => hy (heq ▸ hp)
      rw [List.countP_cons_of_neg hy]
      exact ih hnodup hmem hrest

variable (below) in
/-- The sections of some acquisitions. -/
structure SectionsOf (s : SavedSurvey K) (c : Context K) (segments : List (AcquisitionSegment K))
    (sections : List (ReportSection K)) : Prop where
  keys : (sections.map fun x => x.context.acquisitions) = segments.map fun a => [a]
  each : ∀ x ∈ sections, ∃ a ∈ segments, SectionOf below s c a x

/-- The section of an acquisition counts its tiles. -/
theorem SectionOf.counts_iff (hs : Separate s) {x : ReportSection K} (h : SectionOf below s c a x) (ha : a ∈ s.acquisitions)
    (ht : Held s b t) : x.context.Counts t ↔ b = a ∧ c.Counts t := by
  constructor
  · intro hcounts
    obtain rfl : b = a := by
      by_contra hne
      exact h.narrowed.foreign hs ha ht hne hcounts.1
    exact ⟨rfl, (h.narrowed.counts ht.spans (hs.lt ht)).mp hcounts⟩
  · rintro ⟨rfl, hcounts⟩
    exact (h.narrowed.counts ht.spans (hs.lt ht)).mpr hcounts

theorem SectionsOf.sectioned (hs : Separate s) (hc : Selected c) {segments : List (AcquisitionSegment K)}
    {sections : List (ReportSection K)} (h : SectionsOf below s c segments sections) (hnodup : segments.Nodup)
    (hsegments : ∀ a, a ∈ segments ↔ a ∈ s.acquisitions ∧ c.Meets a ∧ ∃ t ∈ s.tiles, c.HasData a t) :
    Sectioned m sphere below s c sections where
  once := fun t ht hpasses => by
    obtain ⟨hcounts, hmeets, a, hheld, hupper, hlower⟩ := hpasses
    have ha : a ∈ segments := (hsegments a).mpr
      ⟨hheld.mem, meets_of_held hs hc hheld hcounts hupper hlower, t, ht, hasData_of_held hs hheld hcounts hmeets⟩
    have hkey : [a] ∈ sections.map fun x => x.context.acquisitions := h.keys ▸ List.mem_map_of_mem ha
    obtain ⟨x, hx, hacquisitions⟩ := List.mem_map.mp hkey
    have hkeys : (sections.map fun x => x.context.acquisitions).Nodup := by
      rw [h.keys]
      exact hnodup.map fun a b hab => List.head_eq_of_cons_eq hab
    -- A section that counts the tile is that of its acquisition.
    have hcounted : ∀ y ∈ sections, y.context.Counts t ↔ y.context.acquisitions = [a] := by
      intro y hy
      obtain ⟨b, hb, hof⟩ := h.each y hy
      rw [hof.counts_iff hs ((hsegments b).mp hb).1 hheld, hof.narrowed.acquisitions, and_iff_left hcounts]
      exact ⟨fun heq => heq ▸ rfl, fun heq => (List.head_eq_of_cons_eq heq).symm⟩
    refine countP_eq_one hkeys hx (decide_eq_true ((hcounted x hx).mpr hacquisitions)) fun y hy hp => ?_
    rw [(hcounted y hy).mp (of_decide_eq_true hp), hacquisitions]
  clip := fun x hx t ht hcounts => by
    obtain ⟨a, ha, hof⟩ := h.each x hx
    obtain ⟨b, hb⟩ := hs.held ht
    obtain ⟨rfl, hcounts⟩ := (hof.counts_iff hs ((hsegments a).mp ha).1 hb).mp hcounts
    exact ⟨hcounts, hof.narrowed.clip hb.spans⟩
  foreign := fun x hx b t hb hforeign r => by
    obtain ⟨a, ha, hof⟩ := h.each x hx
    refine consume_skip (hof.narrowed.foreign hs ((hsegments a).mp ha).1 hb fun heq => hforeign ?_)
    rw [hof.narrowed.acquisitions, heq]
    exact List.mem_singleton_self a
  kind := fun x hx => by
    obtain ⟨a, -, hof⟩ := h.each x hx
    rw [hof.narrowed.options]
    rfl
  bins := fun x hx => by
    obtain ⟨a, -, hof⟩ := h.each x hx
    exact hof.bins
  exposure := fun x hx => by
    obtain ⟨a, -, hof⟩ := h.each x hx
    exact hof.exposure
  written := fun x hx => by
    obtain ⟨a, -, hof⟩ := h.each x hx
    exact hof.written
  rows := fun x hx => by
    obtain ⟨a, -, hof⟩ := h.each x hx
    exact hof.rows

/-- **All sections.** -/
theorem writeSections_ensures (hs : Separate s) (hc : Selected c) {segments : List (AcquisitionSegment K)}
    (hsegments : ∀ a ∈ segments, a ∈ s.acquisitions ∧ c.Meets a ∧ ∃ t ∈ s.tiles, c.HasData a t) :
    Ensures IsLimit (SectionsOf below s c segments) (writeSections m sphere below s c segments) := by
  rw [writeSections]
  refine Ensures.bind (P := fun done : List (ReportSection K) × ℕ => SectionsOf below s c segments done.1) ?_
    fun _ hdone => hdone
  refine ensures_foldlM (I := fun seen (done : List (ReportSection K) × ℕ) => SectionsOf below s c seen done.1) ?_
    ⟨rfl, fun x hx => absurd hx List.not_mem_nil⟩
  rintro seen a rest ⟨sections, written⟩ hseen hdone
  obtain ⟨ha, hmeets, t, ht, hdata⟩ := hsegments a (hseen ▸ List.mem_append_right _ List.mem_cons_self)
  have hheld := held_of_hasData hs ha ht hdata
  obtain ⟨x, hx, hnarrowed⟩ := hc.narrow (hs.acquisitions a ha) (hs.config ha) hmeets
  rw [hx]
  refine (writeOne_ensures hs hc hnarrowed ht hheld hdata.2.2.1.1 hdata.2.2.2).bind fun one hone => ?_
  refine ⟨?_, fun y hy => ?_⟩
  · rw [List.map_append, hdone.keys, List.map_append, List.map_singleton, hone.narrowed.acquisitions]
    rfl
  · rcases List.mem_append.mp hy with hy | hy
    · obtain ⟨b, hb, hof⟩ := hdone.each y hy
      exact ⟨b, List.mem_append_left _ hb, hof⟩
    · obtain rfl := List.mem_singleton.mp hy
      exact ⟨a, List.mem_append_right _ (List.mem_singleton_self a), hone⟩

/-- **The sections of a report.** It fails for its limits only, unless nothing passes. -/
theorem exportReport_sectioned (hs : Separate s) (hc : Context.create o s.config s.acquisitions s.version = .ok c) :
    Ensures (fun e => IsLimit e ∨ e = noMeasurements ∧ ∀ t ∈ s.tiles, ¬ c.Passes s t)
      (Sectioned m sphere below s c) (exportReport m sphere below s o) := by
  have hselected := (create_ok.mp hc).1
  obtain ⟨segments, hok, hnodup, hsegments⟩ := selectedSegments_ok (c := c) hs
  rw [exportReport, hc]
  refine Ensures.bind (P := (c = ·)) rfl ?_
  rintro _ rfl
  rw [if_neg hs.nonempty, hok]
  refine Ensures.bind (P := (segments = ·)) rfl ?_
  rintro _ rfl
  have hnone : segments = [] → ∀ t ∈ s.tiles, ¬ c.Passes s t := by
    rintro rfl t ht ⟨hcounts, hmeets, a, hheld, hupper, hlower⟩
    have ha := (hsegments a).mpr
      ⟨hheld.mem, meets_of_held hs hselected hheld hcounts hupper hlower, t, ht,
        hasData_of_held hs hheld hcounts hmeets⟩
    cases ha
  by_cases hempty : segments = []
  · rw [reject, if_pos hempty]
    exact .inr ⟨rfl, hnone hempty⟩
  · rw [reject, if_neg hempty]
    have hwritten : Ensures IsLimit (SectionsOf below s c segments) (writeSections m sphere below s c segments) :=
      writeSections_ensures hs hselected fun a ha => (hsegments a).mp ha
    show Ensures _ _ (writeSections m sphere below s c segments)
    revert hwritten
    cases writeSections m sphere below s c segments with
    | error e => exact fun hlimit => Or.inl hlimit
    | ok sections => exact fun hof => hof.sectioned hs hselected hnodup hsegments

end Sections

/-! ## A tile beyond the span of its acquisition -/

/-- A HackRF acquisition of 500.5 kHz at 2.048 MS/s. -/
def segmentAt (id : ℕ) (start stop : ℚ) (centerHz : ℕ) : AcquisitionSegment ℚ :=
  { id, elapsedStart := start, elapsedEnd := stop, finalized := true
    config := { Analysis.oneTileConfig with centerHz, sampleRate := 2048000, surveySpanHz := 500500 } }

/-- One frame of one bin. -/
def tileAt (id firstSample : ℕ) (start firstCenterHz : ℚ) : SpectrumTile ℚ :=
  { Analysis.oneTile with
    id, firstSample, endSample := firstSample + 4096, elapsedStartSeconds := start
    elapsedEndSeconds := start + 1 / 500, utcStartSeconds := start, utcEndSeconds := start + 1 / 500
    firstCenterHz, binWidthHz := 500 }

/-- A tile that begins 10 µHz below the span of its acquisition, and one of a later acquisition. -/
def overhangTile : SpectrumTile ℚ := tileAt 1 0 0 (914750000 - 1 / 10 ^ 5)

/-- A survey of two acquisitions, the first of which has a tile that reaches over its end. -/
def overhangSurvey : SavedSurvey ℚ :=
  { version := 4, config := (segmentAt 1 0 1 915000000).config
    acquisitions := [segmentAt 1 0 1 915000000, segmentAt 2 1 2 433000000]
    tiles := [overhangTile, tileAt 2 4096 1 432750000], gaps := [] }

/-- The frequency summary of the whole session between two frequencies. -/
def summaryOf (lowerHz upperHz : ℚ) : ReportOptions ℚ :=
  { kind := .frequencySummary, query := { Analysis.offGridQuery with lowerHz, upperHz }
    geographicCellM := 10, coordinateDecimals := 0, includeReceiverPositions := false }

/-- A sphere whose cosine is a rational function. -/
def plainSphere : Sphere ℚ := ⟨100000, fun degrees => 1 - degrees ^ 2 / 8100⟩

/-- The context of a summary of the survey. -/
def contextOf (o : ReportOptions ℚ) (lower upper : ℚ) : Context ℚ :=
  { options := o, config := overhangSurvey.config, acquisitions := overhangSurvey.acquisitions, schema := 4
    lower, upper, stop := 10 ^ 10 }

/-- Up to 5 µHz below the span of the first acquisition. -/
def overhangOptions : ReportOptions ℚ := summaryOf 914749749 (914749750 - 5 / 10 ^ 6)

/-- The context of the selection of the survey with the long tile. -/
def overhangContext : Context ℚ := contextOf overhangOptions 914749749 (914749750 - 5 / 10 ^ 6)

/-- A summary of the whole session, in milliseconds where it is one of the times. -/
def wholeOf (kind : ReportKind) : ReportOptions ℚ :=
  { summaryOf 0 0 with
    kind, query := { (summaryOf 0 0).query with timeBucketSeconds := 1 / 1000 }
    coordinateDecimals := 6, includeReceiverPositions := true }

/-- The value a nanosecond before a time. -/
def nanosecondBelow (time : ℚ) : ℚ := time - 1 / 10 ^ 9

/-- What the survey is read as, and the selection of it. -/
theorem overhang_checked :
    (overhangSurvey.tiles.foldlM (Visit.next overhangSurvey) Visit.initial).isOk = true ∧
      Selected overhangContext := by
  refine ⟨?_, ⟨?_, ?_⟩, ⟨?_, ?_⟩, ⟨?_, ?_⟩, ⟨?_, ?_⟩, ?_, ?_, ?_, ?_, ?_, ?_⟩ <;> decide +kernel

theorem valid_segmentAt : ∀ a ∈ overhangSurvey.acquisitions, ValidAcquisition a overhangSurvey.config := by
  have hvalid : ∀ a ∈ overhangSurvey.acquisitions, (validateAcquisition a overhangSurvey.config).isOk = true := by
    decide
  intro a ha
  obtain ⟨u, hok⟩ := exists_ok_of_isOk (hvalid a ha)
  exact validateAcquisition_iff.mp hok

theorem readable_overhang : Readable overhangSurvey where
  version_ge := le_rfl
  version_ne := by decide
  tiles := exists_ok_of_isOk overhang_checked.1
  gaps := fun gap h => absurd h List.not_mem_nil

theorem separate_overhang : Separate overhangSurvey where
  readable := readable_overhang
  sampled := by decide
  acquisitions := valid_segmentAt
  ids := by decide
  disjoint := by decide
  nonempty := List.cons_ne_nil _ _
  spans := by
    intro t ht
    rcases List.mem_pair.mp ht with rfl | rfl
    · exact ⟨_, List.mem_cons_self, by decide, by norm_num [overhangTile, tileAt, segmentAt]⟩
    · exact ⟨_, List.mem_cons_of_mem _ List.mem_cons_self, by decide, by norm_num [tileAt, segmentAt]⟩

theorem create_overhang : Context.create overhangOptions overhangSurvey.config overhangSurvey.acquisitions
    overhangSurvey.version = .ok overhangContext :=
  create_ok.mpr ⟨overhang_checked.2, rfl, rfl, rfl, rfl⟩

/-- **A tile that meets the selection** only beyond the span of its acquisition is in no section. -/
theorem exportReport_overhang : Separate overhangSurvey ∧ overhangTile ∈ overhangSurvey.tiles ∧
    Context.create overhangOptions overhangSurvey.config overhangSurvey.acquisitions overhangSurvey.version =
      .ok overhangContext ∧
    overhangContext.Counts overhangTile ∧ overhangContext.MeetsTile overhangTile ∧
    exportReport Analysis.rationalLibm plainSphere id overhangSurvey overhangOptions = .error noMeasurements := by
  refine ⟨separate_overhang, List.mem_cons_self, create_overhang, by decide +kernel, by decide +kernel, ?_⟩
  have hapart : ∀ a ∈ overhangSurvey.acquisitions, ¬ overhangContext.Meets a := by decide +kernel
  obtain ⟨segments, hok, -, hsegments⟩ := selectedSegments_ok (s := overhangSurvey) separate_overhang
  have hnone : segments = [] :=
    List.eq_nil_iff_forall_not_mem.mpr fun a ha => hapart a ((hsegments a).mp ha).1 ((hsegments a).mp ha).2.1
  rw [exportReport, create_overhang]
  show (selectedSegments _ _ >>= fun segments => _) = _
  rw [hok, hnone]
  rfl

/-- The context of the whole session. -/
theorem create_whole {kind : ReportKind} (hkind : kind.Aggregates) :
    Context.create (wholeOf kind) overhangSurvey.config overhangSurvey.acquisitions overhangSurvey.version =
      .ok (contextOf (wholeOf kind) 432749750 915250250) := by
  have hoptions : checkOptions (wholeOf kind) 4 = .ok () := by
    cases kind <;> first | exact absurd hkind id | decide +kernel
  -- Nothing else that is selected reads the kind.
  have hselected : Selected (contextOf (wholeOf .frequencySummary) 432749750 915250250) := by
    refine ⟨⟨?_, ?_⟩, ⟨?_, ?_⟩, ⟨?_, ?_⟩, ⟨?_, ?_⟩, ?_, ?_, ?_, ?_, ?_, ?_⟩ <;> decide +kernel
  exact create_ok.mpr ⟨{ hselected with options := hoptions }, rfl, rfl, rfl, rfl⟩

/-- The sections of the whole session, and what their rows have observed. -/
def WholeSections (kind : ReportKind) (observed : List (List ℚ)) : Prop :=
  ∃ sections, exportReport Analysis.rationalLibm plainSphere nanosecondBelow overhangSurvey (wholeOf kind) =
      .ok sections ∧
    (sections.map fun x => x.rows.map (·.value.observed)) = observed ∧
    Sectioned Analysis.rationalLibm plainSphere nanosecondBelow overhangSurvey
      (contextOf (wholeOf kind) 432749750 915250250) sections

/-- The whole session has two sections, each with a tile of two milliseconds. -/
theorem exportReport_sectioned_whole :
    WholeSections .frequencySummary [[1 / 500], [1 / 500]] ∧
      WholeSections .timeSummary [[1 / 1000, 1 / 1000], [1 / 1000, 1 / 1000]] ∧
      WholeSections .geographicSummary [[1 / 500], [1 / 500]] := by
  have hwhole : ∀ (kind : ReportKind) (observed : List (List ℚ)), kind.Aggregates →
      (exportReport Analysis.rationalLibm plainSphere nanosecondBelow overhangSurvey (wholeOf kind)).map
        (fun sections => sections.map fun x => x.rows.map (·.value.observed)) = .ok observed →
      WholeSections kind observed := by
    intro kind observed hkind hrows
    have hsections : Ensures _ _
        (exportReport Analysis.rationalLibm plainSphere nanosecondBelow overhangSurvey (wholeOf kind)) :=
      exportReport_sectioned separate_overhang (create_whole hkind)
    cases hok : exportReport Analysis.rationalLibm plainSphere nanosecondBelow overhangSurvey (wholeOf kind) with
    | error e =>
      rw [hok] at hrows
      cases hrows
    | ok sections =>
      rw [hok] at hrows hsections
      exact ⟨sections, hok, Except.ok.inj hrows, hsections⟩
  refine ⟨hwhole _ _ trivial ?_, hwhole _ _ trivial ?_, hwhole _ _ trivial ?_⟩
  · decide +kernel
  · decide +kernel
  · decide +kernel

end Report

end OVMesh
