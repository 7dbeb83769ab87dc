import OVMesh.Store.Saved

/-!
# The selection of a report

`Context` of `report.cpp`: the options of a report with the configuration and the acquisitions that it is
about, and the frequencies and the times that it selects. Values are exact.

* `ReportKind`, `ReportOptions`: the options.
* `Context.create`: the constructor with its checks. `Selected`: what it has checked and computed.
* `Context.narrow`: the selection for one acquisition.
-/

namespace OVMesh

namespace Report

open Checked

/-- `ReportKind`: what a report counts. -/
inductive ReportKind
  | frequencySummary
  | timeSummary
  | geographicSummary
  | waveforms
  | receiverTrack
  | analysis
  deriving DecidableEq

variable {K : Type} [Field K] [LinearOrder K]

/-- The kind, the query, and what else the checks of `Context` read. -/
structure ReportOptions (K : Type) where
  kind : ReportKind
  query : SurveyQuery K
  geographicCellM : K
  coordinateDecimals : ℕ
  includeReceiverPositions : Bool

/-- The members of `Context`, with those of its summary. -/
structure Context (K : Type) where
  options : ReportOptions K
  config : ReceiverConfig K
  acquisitions : List (AcquisitionSegment K)
  schema : ℕ
  lower : K
  upper : K
  stop : K

/-- `lower`: the lower edge of the selection, or of all acquisitions when there is none. -/
def lowerBound (q : SurveyQuery K) (config : ReceiverConfig K) (acquisitions : List (AcquisitionSegment K)) : K :=
  acquisitions.foldl (fun lower a => if q.lowerHz = 0 then min lower a.config.lowerEdge else lower)
    (if q.lowerHz > 0 then q.lowerHz else config.lowerEdge)

/-- `upper`: the upper edge of the selection, or of all acquisitions when there is none. -/
def upperBound (q : SurveyQuery K) (config : ReceiverConfig K) (acquisitions : List (AcquisitionSegment K)) : K :=
  acquisitions.foldl (fun upper a => if q.upperHz = 0 then max upper a.config.upperEdge else upper)
    (if q.upperHz > 0 then q.upperHz else config.upperEdge)

/-- `end`: the end of the selection, or the largest time when there is none. -/
def stopBound (q : SurveyQuery K) : K := if q.elapsedEnd > 0 then q.elapsedEnd else 10 ^ 10

/-- The checks of the constructor on the options alone. -/
def checkOptions (o : ReportOptions K) (schema : ℕ) : Except String Unit := do
  let q := o.query
  reject (q.geographicFilter = true ∧ (q.south < -90 ∨ q.north > 90 ∨ q.west < -180 ∨ q.east > 180 ∨
      q.south > q.north ∨ q.west > q.east))
    "Invalid geographic rectangle; split a selection crossing the date line"
  reject (o.coordinateDecimals > 7) "Coordinate decimal places must be 0 through 7"
  reject (o.kind = .timeSummary ∧ (q.timeBucketSeconds < 1 / 1000 ∨ q.timeBucketSeconds > 10 ^ 10))
    "Report time groups must be at least one millisecond"
  reject (o.kind = .geographicSummary ∧ (o.geographicCellM < 10 ∨ o.geographicCellM > 10000))
    "Geographic cell size must be between 10 and 10000 metres"
  reject ((o.kind = .geographicSummary ∨ o.kind = .receiverTrack) ∧ o.includeReceiverPositions = false)
    "This report requires receiver GPS export to be enabled; geographic grouping is not anonymization"
  reject (o.kind = .waveforms ∧ schema < 5)
    "Waveform observations are unavailable in this legacy recording format"

/-- What the report throws for a bound that is no number. -/
def invalidBound : String := "Invalid report selection bound"

/-- What the report throws for a selection that is empty. -/
def emptySelection : String := "Empty or reversed report selection"

/-- The constructor. -/
def Context.create (o : ReportOptions K) (config : ReceiverConfig K)
    (acquisitions : List (AcquisitionSegment K)) (schema : ℕ) : Except String (Context K) := do
  let q := o.query
  forM [q.lowerHz, q.upperHz, q.elapsedStart, q.elapsedEnd] fun bound =>
    reject (bound < 0 ∨ bound > 10 ^ 10) invalidBound
  let lower := lowerBound q config acquisitions
  let upper := upperBound q config acquisitions
  let stop := stopBound q
  reject (lower ≥ upper ∨ stop ≤ q.elapsedStart) emptySelection
  checkOptions o schema
  return { options := o, config, acquisitions, schema, lower, upper, stop }

/-- The options for one acquisition: its times only. -/
def Context.narrowOptions (c : Context K) (segment : AcquisitionSegment K) : ReportOptions K :=
  { c.options with
    query := { c.options.query with
      elapsedStart := max c.options.query.elapsedStart segment.elapsedStart
      elapsedEnd := min c.stop segment.elapsedEnd } }

/-- The context for one acquisition. -/
def Context.narrow (c : Context K) (segment : AcquisitionSegment K) : Except String (Context K) :=
  Context.create (c.narrowOptions segment) segment.config [segment] c.schema

/-! ## What is selected -/

/-- A bound of a query. -/
def IsBound (x : K) : Prop := 0 ≤ x ∧ x ≤ 10 ^ 10

/-- A context that was created. -/
structure Selected (c : Context K) : Prop where
  lowerHz : IsBound c.options.query.lowerHz
  upperHz : IsBound c.options.query.upperHz
  elapsedStart : IsBound c.options.query.elapsedStart
  elapsedEnd : IsBound c.options.query.elapsedEnd
  lower : c.lower = lowerBound c.options.query c.config c.acquisitions
  upper : c.upper = upperBound c.options.query c.config c.acquisitions
  stop : c.stop = stopBound c.options.query
  lower_lt : c.lower < c.upper
  start_lt : c.options.query.elapsedStart < c.stop
  options : checkOptions c.options c.schema = .ok ()

variable {o : ReportOptions K} {config : ReceiverConfig K} {acquisitions : List (AcquisitionSegment K)}
  {schema : ℕ} {c : Context K} {segment : AcquisitionSegment K}

theorem create_ok : Context.create o config acquisitions schema = .ok c ↔
    Selected c ∧ c.options = o ∧ c.config = config ∧ c.acquisitions = acquisitions ∧ c.schema = schema := by
  simp only [Context.create, bind_eq_ok, reject_eq_ok, forM_eq_ok, List.mem_cons, List.not_mem_nil, or_false,
    forall_eq_or_imp, forall_eq, not_or, not_lt, not_le, pure_eq_ok, exists_and_left, exists_const]
  constructor
  · rintro ⟨⟨hlower, hupper, hstart, hend⟩, ⟨hlt, hstart_lt⟩, u, hoptions, rfl⟩
    exact ⟨⟨hlower, hupper, hstart, hend, rfl, rfl, rfl, hlt, hstart_lt, hoptions⟩, rfl, rfl, rfl, rfl⟩
  · rintro ⟨h, rfl, rfl, rfl, rfl⟩
    rw [← h.lower, ← h.upper, ← h.stop]
    exact ⟨⟨h.lowerHz, h.upperHz, h.elapsedStart, h.elapsedEnd⟩, ⟨h.lower_lt, h.start_lt⟩, (), h.options, rfl⟩

end Report

end OVMesh
