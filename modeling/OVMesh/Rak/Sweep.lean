import OVMesh.Lib.Shares
import OVMesh.Rak.Options

/-!
# Sweeps

The scan points of a survey and their boards, `process_concentrators` of `engine_rak.inc`, and the
stepping loop of `rak_worker.c`. An operation that leaves its machine word is `none`.

* `Plan`, `plan`, `Plan.share`: the points and the sweeps of the boards.
* `startBoard`: the command line of a board, and `startBoards` the loop over the boards.
* `nextFrequency`, `scanFrequency`: the stepping loop of the worker.
* `assigned`: the check of a reported frequency.
* `sweeps_partition`: the four describe the same points.
-/

namespace OVMesh

namespace Rak

open Checked Decimal

variable {K : Type}

/-! ## Points -/

/-- The scan points of a survey. -/
structure Plan where
  first : ℕ
  last : ℕ
  points : ℕ
  deriving DecidableEq, Repr

/-- The scan points of a survey: the first and the last that keep the filter inside the span, and their
number. -/
def plan (c : ReceiverConfig K) : Option Plan := do
  let half := c.surveySpanHz / 2
  let low ← unsigned 64 (c.centerHz - half)
  let first ← unsigned 64 (low + 117150)
  let high ← unsigned 64 (c.centerHz + half)
  let last ← unsigned 64 (high - 117150)
  let width ← unsigned 64 (last - first)
  let points ← unsigned 64 (width / c.concentrators.scanStepHz + 1)
  return { first := first, last := last, points := points }

/-- `begin` and `end` of a board. -/
def Plan.share (p : Plan) (boards i : ℕ) : Option (ℕ × ℕ) := do
  let low ← unsigned 64 (p.points * i)
  let high ← unsigned 64 (p.points * (i + 1))
  return (low / boards, high / boards)

/-- `first + k * step`: scan point `k`, when the word does not overflow. -/
def Plan.point (p : Plan) (step k : ℕ) : Option ℕ := do
  let distance ← unsigned 64 (k * step)
  unsigned 64 (p.first + distance)

/-- `first + (end - 1) * step`: the last scan point of a board. -/
def Plan.lastPoint (p : Plan) (step finish : ℕ) : Option ℕ := do
  let k ← unsigned 64 (finish - 1)
  p.point step k

/-! ## Starting the boards -/

/-- A setting with the tuning offset, and zero for none. -/
def shifted (hz : ℕ) (offset : ℤ) : Option ℤ :=
  if hz = 0 then some 0 else signed 64 (hz + offset)

/-- The packet frequency with the tuning offset, and zero for none. -/
def packetFrequency (c : ReceiverConfig K) (b : ConcentratorBoardConfig) : Option ℤ :=
  if b.packetsEnabled then signed 64 (b.frequencyHz + c.tuningOffsetHz) else some 0

/-- What the start of a survey throws when a board would have no point. -/
def tooFewPoints : String :=
  "RAK scan step leaves too few scan centers for two boards; reduce the step or use one board"

/-- The body of the loop over the boards: the command line of a board. -/
def startBoard (c : ReceiverConfig K) (p : Plan) (b : ConcentratorBoardConfig) (i : ℕ) :
    Option (Except String (List Text)) := do
  let (start, finish) ← p.share c.concentrators.boards.length i
  if c.concentrators.scanEnabled = true ∧ start = finish then return .error tooFewPoints
  else
    let step := c.concentrators.scanStepHz
    let lower ← if c.concentrators.scanEnabled then p.point step start else some 0
    let upper ← if c.concentrators.scanEnabled then p.lastPoint step finish else some 0
    let frequency ← packetFrequency c b
    let lower ← shifted lower c.tuningOffsetHz
    let upper ← shifted upper c.tuningOffsetHz
    return .ok (startArguments b frequency lower upper step c.concentrators.scanSamples i)

/-- The loop over the boards. -/
def startBoards (c : ReceiverConfig K) (p : Plan) :
    List (ConcentratorBoardConfig × ℕ) → Option (Except String (List (List Text)))
  | [] => some (.ok [])
  | (b, i) :: rest => do
    match ← startBoard c p b i with
    | .error message => return .error message
    | .ok arguments =>
      match ← startBoards c p rest with
      | .error message => return .error message
      | .ok more => return .ok (arguments :: more)

/-! ## Stepping -/

/-- The frequency behind a completed scan. -/
def nextFrequency (o : RakOptions) (frequency : ℕ) : Option ℕ := do
  let room ← unsigned 32 (o.upper - frequency)
  if room < o.step then return o.lower
  else unsigned 32 (frequency + o.step)

/-- The frequency of the scan number `n`. -/
def scanFrequency (o : RakOptions) : ℕ → Option ℕ
  | 0 => some o.lower
  | n + 1 => scanFrequency o n >>= nextFrequency o

/-! ## Reported frequencies -/

/-- The check of a reported frequency, which returns it without the tuning offset. -/
def assigned (c : ReceiverConfig K) (p : Plan) (i frequency : ℕ) : Option (Except String ℕ) := do
  let step := c.concentrators.scanStepHz
  let physical ← signed 64 (frequency - c.tuningOffsetHz)
  let (start, finish) ← p.share c.concentrators.boards.length i
  let low ← p.point step start
  let high ← p.lastPoint step finish
  let distance ← signed 64 (physical - p.first)
  if physical < low ∨ physical > high ∨ distance.tmod step ≠ 0 then
    return .error "RAK scan frequency does not match its assigned sweep"
  else return .ok physical.toNat

/-- The range check of `validate_concentrator_scan`. -/
def InScanRange (c : ReceiverConfig K) (frequency : ℕ) : Prop :=
  (c.centerHz : ℚ) - c.surveySpanHz / 2 + 117150 ≤ frequency ∧
    (frequency : ℚ) ≤ c.centerHz + c.surveySpanHz / 2 - 117150

instance (c : ReceiverConfig K) (frequency : ℕ) : Decidable (InScanRange c frequency) :=
  inferInstanceAs (Decidable (_ ∧ _))

/-! ## Accepted configurations -/

/-- What `validate_concentrator_config` accepts of a board. -/
structure AcceptedBoard (c : ReceiverConfig K) (b : ConcentratorBoardConfig) : Prop where
  bandwidth : b.bandwidthHz = 125000 ∨ b.bandwidthHz = 250000 ∨ b.bandwidthHz = 500000
  spreading : 7 ≤ b.spreadingFactor ∧ b.spreadingFactor ≤ 12
  sync : b.syncWord = 0x2b ∨ b.syncWord = 0x12 ∨ b.syncWord = 0x34
  frequency : 902000000 ≤ b.frequencyHz ∧ b.frequencyHz ≤ 928000000
  fits : b.packetsEnabled = true →
    (c.centerHz : ℚ) - c.surveySpanHz / 2 ≤ b.frequencyHz - b.bandwidthHz / 2 ∧
      (b.frequencyHz : ℚ) + b.bandwidthHz / 2 ≤ c.centerHz + c.surveySpanHz / 2
  used : b.packetsEnabled = true ∨ c.concentrators.scanEnabled = true

/-- What `validate_concentrator_config` accepts. -/
structure Accepted (c : ReceiverConfig K) : Prop where
  boards : c.concentrators.boards ≠ [] ∧ c.concentrators.boards.length ≤ 2
  span : 500000 ≤ c.surveySpanHz ∧ c.surveySpanHz ≤ 26000000
  offset : -100000 ≤ c.tuningOffsetHz ∧ c.tuningOffsetHz ≤ 100000
  lower : (902000000 : ℚ) ≤ c.centerHz - c.surveySpanHz / 2
  upper : (c.centerHz : ℚ) + c.surveySpanHz / 2 ≤ 928000000
  tunedLower : (902000000 : ℚ) ≤ c.centerHz - c.surveySpanHz / 2 + c.tuningOffsetHz
  tunedUpper : (c.centerHz : ℚ) + c.surveySpanHz / 2 + c.tuningOffsetHz ≤ 928000000
  step : 25000 ≤ c.concentrators.scanStepHz ∧ c.concentrators.scanStepHz ≤ 1000000
  samples : c.concentrators.scanSamples = 2000
  board : ∀ b ∈ c.concentrators.boards, AcceptedBoard c b

/-- The checks of the paths stand before those of the settings. -/
theorem validateBoard_settings {c : ConcentratorConfig} {lower upper : ℚ} {i : ℕ}
    {b : ConcentratorBoardConfig} (h : validateBoard c lower upper true i b = .ok ()) :
    validateBoard c lower upper false i b = .ok () := by
  simp only [validateBoard, if_true, Bool.false_eq_true, if_false, bind_eq_ok] at h ⊢
  obtain ⟨_, -, _, -, h⟩ := h
  exact h

theorem accepted_of_validate {c : ReceiverConfig K} {requirePaths : Bool}
    (h : validateConcentratorConfig c.concentrators c.centerHz c.surveySpanHz c.tuningOffsetHz
      requirePaths = .ok ()) : Accepted c := by
  simp only [validateConcentratorConfig, bind_eq_ok, reject_eq_ok, forM_eq_ok, not_or, not_lt,
    gt_iff_lt, not_not, ne_eq] at h
  obtain ⟨_, hboards, _, ⟨-, -, hspan, hspan', hoffset, hoffset'⟩, _, ⟨hlow, hhigh, htlow, hthigh⟩,
    _, ⟨hstep, hstep', hsamples⟩, hall⟩ := h
  refine ⟨hboards, ⟨hspan, hspan'⟩, ⟨hoffset, hoffset'⟩, hlow, hhigh, htlow, hthigh,
    ⟨hstep, hstep'⟩, hsamples, fun b hb => ?_⟩
  obtain ⟨i, hi, rfl⟩ := List.getElem_of_mem hb
  have hboard := hall (c.concentrators.boards[i], i) (List.mk_mem_zipIdx_iff_getElem?.mpr
    (List.getElem?_eq_getElem hi))
  have hsettings : validateBoard c.concentrators (c.centerHz - c.surveySpanHz / 2)
      (c.centerHz + c.surveySpanHz / 2) false i c.concentrators.boards[i] = .ok () := by
    cases requirePaths with
    | true => exact validateBoard_settings hboard
    | false => exact hboard
  simp only [validateBoard, Bool.false_eq_true, if_false, bind_eq_ok, reject_eq_ok, not_or,
    not_lt, gt_iff_lt, not_and, not_not, ne_eq, Bool.not_eq_false] at hsettings
  obtain ⟨_, hused, _, hbandwidth, _, ⟨hsf, hsf', hsync⟩, _, ⟨hf, hf'⟩, hfits⟩ := hsettings
  have hpacket : ∀ b : Bool, (b = false → c.concentrators.scanEnabled = true) →
      b = true ∨ c.concentrators.scanEnabled = true := by
    intro b hb
    cases b with
    | true => exact .inl rfl
    | false => exact .inr (hb rfl)
  refine ⟨?_, ⟨hsf, hsf'⟩, ?_, ⟨hf, hf'⟩, hfits, hpacket _ hused⟩
  · omega
  · omega

/-! ## The words -/

/-- The plan of an accepted survey. -/
def planOf (c : ReceiverConfig K) : Plan where
  first := c.centerHz - c.surveySpanHz / 2 + 117150
  last := c.centerHz + c.surveySpanHz / 2 - 117150
  points := (2 * (c.surveySpanHz / 2) - 234300) / c.concentrators.scanStepHz + 1

/-- The first point of a board, by its number. -/
def boardStart (c : ReceiverConfig K) (i : ℕ) : ℕ :=
  share (planOf c).points c.concentrators.boards.length i

/-- The packet frequency that the worker is given. -/
def tuned (c : ReceiverConfig K) (b : ConcentratorBoardConfig) : ℕ :=
  if b.packetsEnabled then (b.frequencyHz + c.tuningOffsetHz).toNat else 0

/-- A scan point as the worker is given it. -/
def tunedPoint (c : ReceiverConfig K) (k : ℕ) : ℕ :=
  ((planOf c).first + k * c.concentrators.scanStepHz + c.tuningOffsetHz).toNat

namespace Accepted

variable {c : ReceiverConfig K}

/-- The edges of an accepted survey, twice. -/
theorem edges (h : Accepted c) :
    1804000000 + c.surveySpanHz ≤ 2 * c.centerHz ∧
      2 * c.centerHz + c.surveySpanHz ≤ 1856000000 ∧
      1804000000 + (c.surveySpanHz : ℤ) ≤ 2 * c.centerHz + 2 * c.tuningOffsetHz ∧
      2 * (c.centerHz : ℤ) + c.surveySpanHz + 2 * c.tuningOffsetHz ≤ 1856000000 := by
  have h1 : (1804000000 + c.surveySpanHz : ℚ) ≤ 2 * c.centerHz := by linarith [h.lower]
  have h2 : (2 * c.centerHz + c.surveySpanHz : ℚ) ≤ 1856000000 := by linarith [h.upper]
  have h3 : (1804000000 + c.surveySpanHz : ℚ) ≤ 2 * c.centerHz + 2 * c.tuningOffsetHz := by
    linarith [h.tunedLower]
  have h4 : (2 * c.centerHz + c.surveySpanHz + 2 * c.tuningOffsetHz : ℚ) ≤ 1856000000 := by
    linarith [h.tunedUpper]
  exact ⟨by exact_mod_cast h1, by exact_mod_cast h2, by exact_mod_cast h3, by exact_mod_cast h4⟩

theorem plan_eq (h : Accepted c) : plan c = some (planOf c) := by
  obtain ⟨h1, h2, -, -⟩ := h.edges
  have hspan := h.span
  have hwidth : c.centerHz + c.surveySpanHz / 2 - 117150 -
      (c.centerHz - c.surveySpanHz / 2 + 117150) = 2 * (c.surveySpanHz / 2) - 234300 := by omega
  have hpoints : (planOf c).points ≤ 2 * (c.surveySpanHz / 2) - 234300 + 1 :=
    Nat.succ_le_succ (Nat.div_le_self _ _)
  unfold plan
  simp only [Option.bind_eq_bind, Option.pure_def]
  rw [unsigned_eq (m := c.centerHz - c.surveySpanHz / 2) (by omega) (by omega), Option.bind_some,
    unsigned_eq (m := (planOf c).first) (by simp [planOf]) (by simp only [planOf]; omega),
    Option.bind_some, unsigned_eq (m := c.centerHz + c.surveySpanHz / 2) (by omega) (by omega),
    Option.bind_some, unsigned_eq (m := (planOf c).last) (by simp only [planOf]; omega)
      (by simp only [planOf]; omega), Option.bind_some,
    unsigned_eq (m := 2 * (c.surveySpanHz / 2) - 234300) (by simp only [planOf]; omega) (by omega),
    Option.bind_some, unsigned_eq (m := (planOf c).points) (by simp only [planOf]; omega) (by omega)]
  rfl

theorem points_le (h : Accepted c) : (planOf c).points ≤ 1040 := by
  have hspan := h.span
  have hstep := h.step
  have : (2 * (c.surveySpanHz / 2) - 234300) / c.concentrators.scanStepHz ≤ 1039 := by
    refine (Nat.div_le_div_left hstep.1 (by norm_num)).trans ?_
    omega
  exact Nat.succ_le_succ this

theorem share_eq (h : Accepted c) {i : ℕ} (hi : i < 2) :
    (planOf c).share c.concentrators.boards.length i =
      some (boardStart c i, boardStart c (i + 1)) := by
  have hpoints := h.points_le
  have hlow : (planOf c).points * i ≤ 1040 * 2 := Nat.mul_le_mul hpoints (by omega)
  have hhigh : (planOf c).points * (i + 1) ≤ 1040 * 2 := Nat.mul_le_mul hpoints (by omega)
  unfold Plan.share
  rw [unsigned_eq (m := (planOf c).points * i) (by push_cast; rfl) (by omega),
    unsigned_eq (m := (planOf c).points * (i + 1)) (by push_cast; rfl) (by omega)]
  rfl

/-- The points lie between the edges of the filter. -/
theorem point_le (h : Accepted c) {k : ℕ} (hk : k < (planOf c).points) :
    (planOf c).first + k * c.concentrators.scanStepHz ≤ (planOf c).last := by
  have hspan := h.span
  obtain ⟨h1, -, -, -⟩ := h.edges
  have hle : k * c.concentrators.scanStepHz ≤ 2 * (c.surveySpanHz / 2) - 234300 :=
    (Nat.mul_le_mul_right _ (Nat.lt_succ_iff.mp hk)).trans (Nat.div_mul_le_self _ _)
  simp only [planOf]
  omega

theorem last_lt (h : Accepted c) : (planOf c).last < 928000000 := by
  obtain ⟨-, h2, -, -⟩ := h.edges
  simp only [planOf]
  omega

theorem point_eq (h : Accepted c) {k : ℕ} (hk : k < (planOf c).points) :
    (planOf c).point c.concentrators.scanStepHz k =
      some ((planOf c).first + k * c.concentrators.scanStepHz) := by
  have hle := h.point_le hk
  have hlt := h.last_lt
  unfold Plan.point
  rw [unsigned_eq (m := k * c.concentrators.scanStepHz) (by push_cast; rfl) (by omega),
    Option.bind_eq_bind, Option.bind_some,
    unsigned_eq (m := (planOf c).first + k * c.concentrators.scanStepHz) (by push_cast; rfl)
      (by omega)]

theorem lastPoint_eq (h : Accepted c) {finish : ℕ} (h0 : 0 < finish)
    (hfinish : finish ≤ (planOf c).points) :
    (planOf c).lastPoint c.concentrators.scanStepHz finish =
      some ((planOf c).first + (finish - 1) * c.concentrators.scanStepHz) := by
  have hpoints := h.points_le
  unfold Plan.lastPoint
  rw [unsigned_eq (m := finish - 1) (by omega) (by omega), Option.bind_eq_bind, Option.bind_some,
    h.point_eq (by omega)]

theorem boardStart_le (c : ReceiverConfig K) {i : ℕ} (hi : i < c.concentrators.boards.length) :
    boardStart c i ≤ boardStart c (i + 1) ∧ boardStart c (i + 1) ≤ (planOf c).points := by
  refine ⟨share_mono _ _ (Nat.le_succ i), ?_⟩
  have := share_mono (planOf c).points c.concentrators.boards.length (Nat.succ_le_of_lt hi)
  rwa [share_self _ (by omega)] at this

theorem inScanRange (h : Accepted c) {k : ℕ} (hk : k < (planOf c).points) :
    InScanRange c ((planOf c).first + k * c.concentrators.scanStepHz) := by
  obtain ⟨h1, -, -, -⟩ := h.edges
  have hspan := h.span
  have hle := h.point_le hk
  have hfirst : 2 * c.centerHz + 234300 ≤ 2 * (planOf c).first + c.surveySpanHz := by
    simp only [planOf]
    omega
  have hlast : 2 * (planOf c).last + 234300 ≤ 2 * c.centerHz + c.surveySpanHz := by
    simp only [planOf]
    omega
  have h1 : (2 * c.centerHz + 234300 : ℚ) ≤ 2 * (planOf c).first + c.surveySpanHz := by
    exact_mod_cast hfirst
  have h2 : (2 * ((planOf c).first + k * c.concentrators.scanStepHz) + 234300 : ℚ) ≤
      2 * c.centerHz + c.surveySpanHz := by
    have : 2 * ((planOf c).first + k * c.concentrators.scanStepHz) + 234300 ≤
        2 * c.centerHz + c.surveySpanHz := by omega
    exact_mod_cast this
  have h3 : (0 : ℚ) ≤ k * c.concentrators.scanStepHz :=
    mul_nonneg (Nat.cast_nonneg _) (Nat.cast_nonneg _)
  unfold InScanRange
  push_cast
  constructor <;> linarith

/-! ## One board -/

theorem tunedPoint_eq (h : Accepted c) (k : ℕ) :
    (tunedPoint c k : ℤ) =
      (planOf c).first + k * c.concentrators.scanStepHz + c.tuningOffsetHz := by
  obtain ⟨h1, -, -, -⟩ := h.edges
  have hoffset := h.offset
  have hfirst : 902000000 + 117150 ≤ (planOf c).first := by
    simp only [planOf]
    omega
  have : (0 : ℤ) ≤ k * c.concentrators.scanStepHz :=
    mul_nonneg (Int.natCast_nonneg _) (Int.natCast_nonneg _)
  unfold tunedPoint
  omega

theorem tunedPoint_add (h : Accepted c) (k d : ℕ) :
    tunedPoint c (k + d) = tunedPoint c k + d * c.concentrators.scanStepHz := by
  have hk := h.tunedPoint_eq k
  have hd := h.tunedPoint_eq (k + d)
  have hsum : (tunedPoint c (k + d) : ℤ) =
      ((tunedPoint c k + d * c.concentrators.scanStepHz : ℕ) : ℤ) := by
    rw [hd]
    push_cast
    rw [hk]
    ring
  exact Int.natCast_inj.mp hsum

theorem tunedPoint_range (h : Accepted c) {k : ℕ} (hk : k < (planOf c).points) :
    902000000 ≤ tunedPoint c k ∧ tunedPoint c k ≤ 928000000 := by
  obtain ⟨-, -, h3, h4⟩ := h.edges
  have hpoint := h.tunedPoint_eq k
  have hle : ((planOf c).first + k * c.concentrators.scanStepHz : ℤ) ≤ (planOf c).last := by
    exact_mod_cast h.point_le hk
  have hfirst : 2 * (c.centerHz : ℤ) + 234300 ≤ 2 * (planOf c).first + c.surveySpanHz := by
    simp only [planOf]
    omega
  have hlast : 2 * ((planOf c).last : ℤ) + 234300 ≤ 2 * c.centerHz + c.surveySpanHz := by
    have hspan := h.span
    simp only [planOf]
    omega
  have : (0 : ℤ) ≤ k * c.concentrators.scanStepHz :=
    mul_nonneg (Int.natCast_nonneg _) (Int.natCast_nonneg _)
  omega

theorem tuned_range (h : Accepted c) {b : ConcentratorBoardConfig} (hb : AcceptedBoard c b)
    (hpackets : b.packetsEnabled = true) :
    902000000 ≤ b.frequencyHz + c.tuningOffsetHz ∧
      b.frequencyHz + c.tuningOffsetHz ≤ 928000000 := by
  obtain ⟨hlow, hhigh⟩ := hb.fits hpackets
  have hpositive : (0 : ℚ) ≤ b.bandwidthHz := Nat.cast_nonneg _
  have h1 : (902000000 : ℚ) ≤ b.frequencyHz + c.tuningOffsetHz := by linarith [h.tunedLower]
  have h2 : (b.frequencyHz + c.tuningOffsetHz : ℚ) ≤ 928000000 := by linarith [h.tunedUpper]
  exact ⟨by exact_mod_cast h1, by exact_mod_cast h2⟩

/-- The command line of a board with points. -/
theorem startBoard_eq (h : Accepted c) (hscan : c.concentrators.scanEnabled = true)
    {b : ConcentratorBoardConfig} {i : ℕ} (hi : c.concentrators.boards[i]? = some b)
    {start finish : ℕ} (hstart : start = boardStart c i) (hfinish : finish = boardStart c (i + 1)) :
    startBoard c (planOf c) b i =
      if start = finish then some (.error tooFewPoints)
      else some (.ok (startArguments b (tuned c b) (tunedPoint c start)
        (tunedPoint c (finish - 1)) c.concentrators.scanStepHz c.concentrators.scanSamples i)) := by
  obtain ⟨hlt, rfl⟩ := List.getElem?_eq_some_iff.mp hi
  have hboards := h.boards.2
  obtain ⟨hle, hpoints⟩ := Accepted.boardStart_le c hlt
  rw [← hstart, ← hfinish] at hle
  rw [← hfinish] at hpoints
  unfold startBoard
  rw [h.share_eq (by omega), ← hstart, ← hfinish, Option.bind_eq_bind, Option.bind_some]
  simp only [hscan, true_and, if_true]
  by_cases hempty : start = finish
  · rw [if_pos hempty, if_pos hempty]
    rfl
  · have hb := h.board _ (List.getElem_mem hlt)
    have hfrequency : packetFrequency c c.concentrators.boards[i] =
        some ((tuned c c.concentrators.boards[i] : ℕ) : ℤ) := by
      unfold packetFrequency tuned
      split <;> rename_i hpackets
      · have := h.tuned_range hb hpackets
        rw [signed_eq (by omega) (by omega), Int.toNat_of_nonneg (by omega)]
      · rfl
    -- The offset of a valid plan keeps every point in the range of `int64_t`, and the sum positive.
    have hshifted : ∀ k < (planOf c).points,
        shifted ((planOf c).first + k * c.concentrators.scanStepHz) c.tuningOffsetHz =
          some (tunedPoint c k : ℤ) := by
      intro k hk
      have hrange := h.tunedPoint_range hk
      have hpoint := h.tunedPoint_eq k
      have hoffset := h.offset
      have hne : (planOf c).first + k * c.concentrators.scanStepHz ≠ 0 := by
        have : ((planOf c).first + k * c.concentrators.scanStepHz : ℤ) ≠ 0 := by omega
        exact_mod_cast this
      rw [shifted, if_neg hne]
      push_cast
      rw [← hpoint, signed_eq (by omega) (by omega)]
    rw [if_neg hempty, if_neg hempty, h.point_eq (by omega), h.lastPoint_eq (by omega) hpoints]
    simp only [Option.bind_eq_bind, Option.bind_some]
    rw [hfrequency, Option.bind_some, hshifted start (by omega), Option.bind_some,
      hshifted (finish - 1) (by omega), Option.bind_some]
    rfl

/-- The worker accepts the command line of a board with points and a device that it accepts. -/
theorem parseOptions_eq (h : Accepted c) {b : ConcentratorBoardConfig} {i : ℕ}
    (hi : c.concentrators.boards[i]? = some b) {start finish : ℕ} (hlt : start < finish)
    (hfinish : finish ≤ (planOf c).points) {platform : Platform}
    (hpath : validDevicePath platform b.devicePath = true) :
    parseOptions platform (startArguments b (tuned c b) (tunedPoint c start)
        (tunedPoint c (finish - 1)) c.concentrators.scanStepHz c.concentrators.scanSamples i) =
      some (startOptions b (tuned c b) (tunedPoint c start) (tunedPoint c (finish - 1))
        c.concentrators.scanStepHz c.concentrators.scanSamples i) := by
  obtain ⟨hboard, rfl⟩ := List.getElem?_eq_some_iff.mp hi
  have hboards := h.boards.2
  have hb := h.board _ (List.getElem_mem hboard)
  have hstep := h.step
  have hlow := h.tunedPoint_range (k := start) (by omega)
  have hhigh := h.tunedPoint_range (k := finish - 1) (by omega)
  have hpoints := h.points_le
  refine parseOptions_start (by omega) ?_
  refine ⟨⟨_, rfl, hpath⟩, by show i ≤ 1; omega, hb.sync, hb.spreading.1, hb.spreading.2,
    hb.bandwidth, fun hfrequency => ?_, ?_, fun _ => ?_, h.samples, .inr ?_⟩
  · simp only [startOptions] at hfrequency ⊢
    unfold tuned at hfrequency ⊢
    split at hfrequency <;> rename_i hpackets
    · have := h.tuned_range hb hpackets
      rw [if_pos hpackets]
      omega
    · exact absurd rfl hfrequency
  · simp only [startOptions]
    omega
  · have hsum := h.tunedPoint_add start (finish - 1 - start)
    rw [show start + (finish - 1 - start) = finish - 1 by omega] at hsum
    simp only [startOptions]
    rw [hsum, Nat.add_sub_cancel_left, Nat.mul_div_cancel _ (by omega)]
    exact ⟨hlow.1, hsum ▸ hhigh.2, by omega, hstep.1, hstep.2, by omega⟩
  · simp only [startOptions]
    omega

/-! ## The loop of the worker -/

/-- The worker steps through the points of its board and starts over. -/
theorem scanFrequency_eq (h : Accepted c) {o : RakOptions} {start finish : ℕ}
    (hlt : start < finish) (hfinish : finish ≤ (planOf c).points)
    (hlower : o.lower = tunedPoint c start) (hupper : o.upper = tunedPoint c (finish - 1))
    (hstep : o.step = c.concentrators.scanStepHz) (n : ℕ) :
    scanFrequency o n = some (tunedPoint c (start + n % (finish - start))) := by
  have hsum := h.tunedPoint_add start (finish - 1 - start)
  rw [show start + (finish - 1 - start) = finish - 1 by omega] at hsum
  have hlow := h.tunedPoint_range (k := start) (by omega)
  have hhigh := h.tunedPoint_range (k := finish - 1) (by omega)
  have hstep0 : 0 < o.step := by
    have := h.step
    omega
  have hle : o.lower ≤ o.upper := by omega
  have hiterate : scanFrequency o n = some ((stepped o.lower o.upper o.step)^[n] o.lower) := by
    induction n with
    | zero => rfl
    | succ n ih =>
      obtain ⟨hx, hx'⟩ := iterate_stepped_le hstep0 hle n
      rw [scanFrequency, ih, Option.bind_eq_bind, Option.bind_some, Function.iterate_succ_apply']
      generalize (stepped o.lower o.upper o.step)^[n] o.lower = x at hx hx'
      rw [nextFrequency, unsigned_eq (m := o.upper - x) (by omega) (by omega), Option.bind_eq_bind,
        Option.bind_some, stepped]
      split
      · rfl
      · exact unsigned_eq (by push_cast; rfl) (by omega)
  have hdiv : (o.upper - o.lower) / o.step + 1 = finish - start := by
    rw [hlower, hupper, hsum, Nat.add_sub_cancel_left, hstep,
      Nat.mul_div_cancel _ (hstep ▸ hstep0)]
    omega
  rw [hiterate, iterate_stepped hstep0 hle, hdiv, hlower, hstep, h.tunedPoint_add]

/-- A point of the board of a worker passes the check of its assigned sweep. -/
theorem assigned_eq (h : Accepted c) {i k : ℕ} (hi : i < c.concentrators.boards.length)
    (hlow : boardStart c i ≤ k) (hhigh : k < boardStart c (i + 1)) :
    assigned c (planOf c) i (tunedPoint c k) =
      some (.ok ((planOf c).first + k * c.concentrators.scanStepHz)) := by
  have hboards := h.boards.2
  obtain ⟨-, hpoints⟩ := Accepted.boardStart_le c hi
  have hrange := h.tunedPoint_range (k := k) (by omega)
  have hoffset := h.offset
  have hpoint := h.tunedPoint_eq k
  have hphysical : (tunedPoint c k : ℤ) - c.tuningOffsetHz =
      (((planOf c).first + k * c.concentrators.scanStepHz : ℕ) : ℤ) := by
    push_cast
    omega
  have hdistance : ((((planOf c).first + k * c.concentrators.scanStepHz : ℕ) : ℤ) -
      ((planOf c).first : ℤ)) = (k : ℤ) * c.concentrators.scanStepHz := by
    push_cast
    ring
  have hle := h.point_le (k := k) (by omega)
  have hlast := h.last_lt
  unfold assigned
  simp only []
  rw [signed_eq (by omega) (by omega), Option.bind_eq_bind, Option.bind_some,
    h.share_eq (by omega), Option.bind_eq_bind, Option.bind_some]
  simp only []
  rw [h.point_eq (by omega), h.lastPoint_eq (by omega) hpoints]
  simp only [Option.bind_eq_bind, Option.bind_some]
  rw [hphysical, signed_eq (by omega) (by omega), Option.bind_some, hdistance, Int.mul_tmod_left,
    if_neg]
  · rfl
  · have h1 := Nat.mul_le_mul_right c.concentrators.scanStepHz hlow
    have h2 := Nat.mul_le_mul_right c.concentrators.scanStepHz (Nat.le_sub_one_of_lt hhigh)
    rintro (h' | h' | h')
    · omega
    · omega
    · exact h' rfl

end Accepted

/-! ## All boards -/

variable {c : ReceiverConfig K}

/-- The loop over the boards: it is refused when a board has no points, and else gives every board
its command line. -/
theorem startBoards_eq (h : Accepted c) (hscan : c.concentrators.scanEnabled = true)
    {boards : List (ConcentratorBoardConfig × ℕ)}
    (hboards : ∀ b ∈ boards, c.concentrators.boards[b.2]? = some b.1) :
    ((∃ b ∈ boards, boardStart c b.2 = boardStart c (b.2 + 1)) ∧
        startBoards c (planOf c) boards = some (.error tooFewPoints)) ∨
      ((∀ b ∈ boards, boardStart c b.2 < boardStart c (b.2 + 1)) ∧
        startBoards c (planOf c) boards = some (.ok (boards.map fun b =>
          startArguments b.1 (tuned c b.1) (tunedPoint c (boardStart c b.2))
            (tunedPoint c (boardStart c (b.2 + 1) - 1)) c.concentrators.scanStepHz
            c.concentrators.scanSamples b.2))) := by
  induction boards with
  | nil => exact .inr ⟨fun b hb => absurd hb List.not_mem_nil, rfl⟩
  | cons b boards ih =>
    obtain ⟨hb, hrest⟩ := List.forall_mem_cons.mp hboards
    have hstart := h.startBoard_eq hscan hb rfl rfl
    obtain ⟨hlt, -⟩ := List.getElem?_eq_some_iff.mp hb
    have hle := (Accepted.boardStart_le c hlt).1
    unfold startBoards
    rw [hstart]
    by_cases hempty : boardStart c b.2 = boardStart c (b.2 + 1)
    · rw [if_pos hempty]
      exact .inl ⟨⟨b, List.mem_cons_self, hempty⟩, rfl⟩
    · rw [if_neg hempty]
      obtain ⟨⟨b', hb', hempty'⟩, hmore⟩ | ⟨hpoints, hmore⟩ := ih hrest
      · refine .inl ⟨⟨b', List.mem_cons_of_mem _ hb', hempty'⟩, ?_⟩
        simp only [Option.bind_eq_bind, Option.bind_some, hmore]
        rfl
      · refine .inr ⟨List.forall_mem_cons.mpr ⟨lt_of_le_of_ne hle hempty, hpoints⟩, ?_⟩
        simp only [Option.bind_eq_bind, Option.bind_some, hmore]
        rfl

/-- **The sweeps partition the points.** For an accepted scanning configuration no operation leaves
its word. Either the start is refused and a board would have no point, or every point is in the
sweep of one board, and each board whose device the worker accepts reports exactly its points in
turn, which pass the check of the engine and the range of the store. -/
theorem sweeps_partition
    (h : validateConcentratorConfig c.concentrators c.centerHz c.surveySpanHz c.tuningOffsetHz true =
      .ok ()) (hscan : c.concentrators.scanEnabled = true) :
    let boards := c.concentrators.boards
    let step := c.concentrators.scanStepHz
    ∃ p, plan c = some p ∧ p.first ≤ p.last ∧ p.points = (p.last - p.first) / step + 1 ∧
      ((∃ i < boards.length, ∃ k, p.share boards.length i = some (k, k)) ∧
          startBoards c p boards.zipIdx = some (.error tooFewPoints) ∨
        (∀ k, p.first + k * step ≤ p.last → ∃! i, i < boards.length ∧
          ∃ start finish, p.share boards.length i = some (start, finish) ∧ start ≤ k ∧ k < finish) ∧
        ∃ commands, startBoards c p boards.zipIdx = some (.ok commands) ∧
          ∀ i b, boards[i]? = some b → ∃ start finish arguments,
            p.share boards.length i = some (start, finish) ∧ start < finish ∧
            commands[i]? = some arguments ∧
            ∀ platform, validDevicePath platform b.devicePath = true →
              ∃ o, parseOptions platform arguments = some o ∧
                ∀ n, ∃ frequency, scanFrequency o n = some frequency ∧
                  902000000 ≤ frequency ∧ frequency ≤ 928000000 ∧
                  (frequency : ℤ) = p.first + (start + n % (finish - start) : ℕ) * step +
                    c.tuningOffsetHz ∧
                  assigned c p i frequency =
                    some (.ok (p.first + (start + n % (finish - start)) * step)) ∧
                  InScanRange c (p.first + (start + n % (finish - start)) * step)) := by
  intro boards step
  have haccepted := accepted_of_validate h
  have hlength : boards.length ≤ 2 := haccepted.boards.2
  have hpos : 0 < boards.length := List.length_pos_iff.mpr haccepted.boards.1
  -- The filter is narrower than the smallest span, so the first point is not behind the last.
  have hedges : (planOf c).first ≤ (planOf c).last ∧
      (planOf c).points = ((planOf c).last - (planOf c).first) / step + 1 := by
    have hspan := haccepted.span
    obtain ⟨h1, -, -, -⟩ := haccepted.edges
    have hwidth : (planOf c).last - (planOf c).first = 2 * (c.surveySpanHz / 2) - 234300 := by
      simp only [planOf]
      omega
    refine ⟨?_, by rw [hwidth]; rfl⟩
    simp only [planOf]
    omega
  have hzip : ∀ b ∈ boards.zipIdx, boards[b.2]? = some b.1 := fun b hb =>
    List.mk_mem_zipIdx_iff_getElem?.mp hb
  have hshare : ∀ i < boards.length, (planOf c).share boards.length i =
      some (boardStart c i, boardStart c (i + 1)) := fun i hi => haccepted.share_eq (by omega)
  refine ⟨planOf c, haccepted.plan_eq, hedges.1, hedges.2, ?_⟩
  obtain ⟨⟨b, hb, hempty⟩, hrefused⟩ | ⟨hpoints, hcommands⟩ :=
    startBoards_eq haccepted hscan hzip
  -- A board whose share begins where it ends makes the start fail.
  · left
    obtain ⟨hi, -⟩ := List.getElem?_eq_some_iff.mp (hzip b hb)
    refine ⟨⟨b.2, hi, boardStart c b.2, ?_⟩, hrefused⟩
    rw [hshare b.2 hi, ← hempty]
  · right
    refine ⟨fun k hk => ?_, _, hcommands, fun i b hi => ?_⟩
    · have hkpoints : k < (planOf c).points := by
        rw [hedges.2]
        refine Nat.lt_succ_of_le ((Nat.le_div_iff_mul_le ?_).mpr (by omega))
        exact lt_of_lt_of_le (by norm_num) haccepted.step.1
      obtain ⟨i, ⟨hi, hlow, hhigh⟩, hunique⟩ := existsUnique_share hpos hkpoints
      refine ⟨i, ⟨hi, _, _, hshare i hi, hlow, hhigh⟩, ?_⟩
      rintro j ⟨hj, start, finish, hj', hstart, hfinish⟩
      rw [hshare j hj, Option.some.injEq, Prod.mk.injEq] at hj'
      obtain ⟨rfl, rfl⟩ := hj'
      exact hunique j ⟨hj, hstart, hfinish⟩
    · obtain ⟨hlt, rfl⟩ := List.getElem?_eq_some_iff.mp hi
      have hsome := hpoints _ (List.mk_mem_zipIdx_iff_getElem?.mpr hi)
      have hle := (Accepted.boardStart_le c hlt).2
      refine ⟨_, _, _, hshare i hlt, hsome, ?_, fun platform hpath =>
        ⟨_, haccepted.parseOptions_eq hi hsome hle hpath, fun n => ?_⟩⟩
      · rw [List.getElem?_map, List.getElem?_zipIdx, hi, Option.map_some, Option.map_some,
          Nat.zero_add]
      · simp only [] at hsome
        have hmod : n % (boardStart c (i + 1) - boardStart c i) <
            boardStart c (i + 1) - boardStart c i := Nat.mod_lt _ (by omega)
        have hrange := haccepted.tunedPoint_range
          (k := boardStart c i + n % (boardStart c (i + 1) - boardStart c i)) (by omega)
        exact ⟨_, haccepted.scanFrequency_eq hsome hle rfl rfl rfl n, hrange.1, hrange.2,
          haccepted.tunedPoint_eq _, haccepted.assigned_eq hlt (by omega) (by omega),
          haccepted.inScanRange (by omega)⟩

/-- A board at a device. -/
def boardAt (path : Text) : ConcentratorBoardConfig where
  devicePath := path
  deviceId := []
  packetsEnabled := true
  frequencyHz := 915000000
  bandwidthHz := 250000
  spreadingFactor := 11
  syncWord := 0x2b

/-- A survey of two megahertz with nine points. -/
def boardSurvey (paths : List Text) : ReceiverConfig ℚ where
  synthetic := false
  hardwareReceiver := .rak5146
  centerHz := 915000000
  tuningOffsetHz := 0
  sampleRate := 0
  surveySpanHz := 2000000
  lnaGain := 0
  vgaGain := 0
  amplifier := false
  rtlGainTenthsDb := 0
  rtlAutoGain := false
  deviceSerial := []
  concentrators := {
    boards := paths.map boardAt
    scanEnabled := true
    decodeEnabled := true
    scanStepHz := 200000
    scanSamples := 2000 }
  activityThresholdDbfs := none
  discoverLora := false
  automaticDecode := false
  compactRecording := true
  lanes := []
  sessionPath := []
  sessionTitle := []
  antennaDescription := []
  receiverDescription := []
  surveyNotes := []

theorem boardSurvey_validate (paths : List Text) (hlength : 0 < paths.length ∧ paths.length ≤ 2)
    (hpaths : ∀ path ∈ paths, path ≠ [] ∧ path.length ≤ 1024 ∧ 0 ∉ path) (hnodup : paths.Nodup) :
    validateConcentratorConfig (boardSurvey paths).concentrators (boardSurvey paths).centerHz
      (boardSurvey paths).surveySpanHz (boardSurvey paths).tuningOffsetHz true = .ok () := by
  obtain ⟨hpos, hle⟩ := hlength
  have hboards : ¬ ((boardSurvey paths).concentrators.boards = [] ∨
      (boardSurvey paths).concentrators.boards.length > 2) := by
    rw [← List.length_eq_zero_iff]
    simp only [boardSurvey, List.length_map]
    omega
  simp only [validateConcentratorConfig, bind_eq_ok, reject_eq_ok]
  refine ⟨(), hboards, (), by norm_num [boardSurvey], (), by norm_num [boardSurvey],
    (), by norm_num [boardSurvey], forM_eq_ok.mpr fun v hv => ?_⟩
  have hat := List.mk_mem_zipIdx_iff_getElem?.mp hv
  simp only [boardSurvey, List.getElem?_map, Option.map_eq_some_iff] at hat
  obtain ⟨path, hpath, hboard⟩ := hat
  obtain ⟨hne, hlen, hzero⟩ := hpaths path (List.mem_of_getElem? hpath)
  -- another board with the path of the first one would be the first one
  have hother : ¬ (v.2 ≠ 0 ∧ ∃ first ∈ (boardSurvey paths).concentrators.boards[0]?,
      v.1.devicePath = first.devicePath ∨ v.1.deviceId ≠ [] ∧ v.1.deviceId = first.deviceId) := by
    rintro ⟨hsecond, first, hfirst, hsame⟩
    simp only [boardSurvey, List.getElem?_map, Option.mem_def, Option.map_eq_some_iff] at hfirst
    obtain ⟨path', hpath', rfl⟩ := hfirst
    rw [← hboard] at hsame
    obtain hsame | ⟨hid, -⟩ := hsame
    · have hlt : v.2 < paths.length := (List.getElem?_eq_some_iff.mp hpath).1
      have hsame : path = path' := hsame
      exact hsecond ((List.getElem?_inj hlt hnodup).mp (hpath.trans (hsame ▸ hpath'.symm)))
    · exact hid rfl
  rw [← hboard] at hother ⊢
  simp only [validateBoard, if_true, bind_eq_ok, reject_eq_ok]
  exact ⟨(), by simp [boardAt, hne, hlen, hzero], (), hother, (), by simp [boardAt],
    (), by simp [boardAt], (), by simp [boardAt], (), by simp [boardAt],
    by norm_num [boardSurvey, boardAt]⟩

/-- Two boards share nine points. The first sweeps four of them and the second five, in turn. -/
theorem boardSurvey_swept :
    let c := boardSurvey [ascii "/dev/ttyACM0", ascii "/dev/ttyACM1"]
    ∃ p commands, plan c = some p ∧ p.points = 9 ∧
      p.share 2 0 = some (0, 4) ∧ p.share 2 1 = some (4, 9) ∧
      (∀ k, p.first + k * 200000 ≤ p.last → ∃! i, i < 2 ∧
        ∃ start finish, p.share 2 i = some (start, finish) ∧ start ≤ k ∧ k < finish) ∧
      startBoards c p c.concentrators.boards.zipIdx = some (.ok commands) ∧
      ∃ arguments o, commands[1]? = some arguments ∧ parseOptions .other arguments = some o ∧
        ∀ n, ∃ frequency, scanFrequency o n = some frequency ∧
          (frequency : ℤ) = p.first + (4 + n % 5 : ℕ) * 200000 + 0 := by
  intro c
  have hvalidate := boardSurvey_validate [ascii "/dev/ttyACM0", ascii "/dev/ttyACM1"]
    (by decide) (by decide) (by decide)
  obtain ⟨p, hplan, hle, hpoints, h⟩ := sweeps_partition hvalidate rfl
  have hp : plan c = some { first := 914117150, last := 915882850, points := 9 } := by decide
  obtain rfl := Option.some_inj.mp (hplan.symm.trans hp)
  obtain ⟨⟨i, hi, k, hk⟩, -⟩ | ⟨hpartition, commands, hcommands, hboards⟩ := h
  · -- no share is empty
    have hnone : ∀ i < 2, ∀ v ∈ Plan.share { first := 914117150, last := 915882850, points := 9 } 2 i,
        v.1 ≠ v.2 := by decide
    exact absurd rfl (hnone i hi (k, k) hk)
  obtain ⟨start, finish, arguments, hshare, -, harguments, hworker⟩ := hboards 1 _ rfl
  obtain ⟨rfl, rfl⟩ : start = 4 ∧ finish = 9 := by
    have hsecond : Plan.share { first := 914117150, last := 915882850, points := 9 } 2 1 =
        some (4, 9) := by decide
    exact Prod.mk.inj (Option.some_inj.mp (hshare.symm.trans hsecond))
  obtain ⟨o, ho, hsteps⟩ := hworker .other (by decide)
  refine ⟨_, commands, hplan, rfl, by decide, hshare, hpartition, hcommands, arguments, o,
    harguments, ho, fun n => ?_⟩
  obtain ⟨frequency, hfrequency, -, -, heq, -⟩ := hsteps n
  exact ⟨frequency, hfrequency, heq⟩

/-- An accepted survey whose device the worker refuses. -/
theorem serial_device_refused :
    let c := boardSurvey [ascii "/dev/ttyUSB0"]
    validateConcentratorConfig c.concentrators c.centerHz c.surveySpanHz c.tuningOffsetHz true =
        .ok () ∧
      c.concentrators.scanEnabled = true ∧
      ∃ p arguments, plan c = some p ∧
        startBoards c p c.concentrators.boards.zipIdx = some (.ok [arguments]) ∧
        ∀ platform, parseOptions platform arguments = none := by
  intro c
  have hvalidate := boardSurvey_validate [ascii "/dev/ttyUSB0"] (by decide) (by decide) (by decide)
  have haccepted : Accepted c := accepted_of_validate hvalidate
  have hzip : ∀ b ∈ c.concentrators.boards.zipIdx, c.concentrators.boards[b.2]? = some b.1 :=
    fun b hb => List.mk_mem_zipIdx_iff_getElem?.mp hb
  have hpoints : boardStart c 0 = 0 ∧ boardStart c 1 = 9 := by decide
  obtain ⟨⟨b, hb, hempty⟩, -⟩ | ⟨-, hcommands⟩ := startBoards_eq haccepted rfl hzip
  · rw [List.mem_singleton.mp hb] at hempty
    have hempty : boardStart c 0 = boardStart c 1 := hempty
    omega
  · refine ⟨hvalidate, rfl, planOf c, _, haccepted.plan_eq, hcommands, fun platform => ?_⟩
    have hnine : (planOf c).points = 9 := by decide
    have hlow := haccepted.tunedPoint_range (k := 0) (by omega)
    have hhigh := haccepted.tunedPoint_range (k := 8) (by omega)
    show parseOptions platform (startArguments (boardAt (ascii "/dev/ttyUSB0"))
      (tuned c (boardAt (ascii "/dev/ttyUSB0"))) (tunedPoint c (boardStart c 0))
      (tunedPoint c (boardStart c 1 - 1)) c.concentrators.scanStepHz c.concentrators.scanSamples
      0) = none
    have hlast : boardStart c 1 - 1 = 8 := by omega
    rw [hpoints.1, hlast, parseOptions, readOptions_start
      (by decide) (by decide) (by decide) (by decide) (by omega) (by omega) (by decide) (by decide)
      (by decide), Option.bind_eq_bind, Option.bind_some, if_neg]
    rintro ⟨⟨path, hpath, hvalid⟩, -⟩
    cases hpath
    revert hvalid
    cases platform <;> decide

end Rak

end OVMesh
