import OVMesh.Lib.Binary64
import OVMesh.Lib.Runs
import OVMesh.Survey

/-!
# The serial receiver

What `SerialGps` does with the fixes of its sentences. The arithmetic of the two comparisons with the
tolerance rounds, by `rnd`; the other times are only compared.

* `SerialGps.deliver`: a fix is refused, given the time of its epoch, or opens a new epoch.
* `Replays`: a sentence that repeats the current epoch or goes back.
* `Slips`: a sentence that goes back by the tolerance, within rounding, and opens an epoch all the
  same.
* `receiver_freshness`: the epochs never go back and replays age, exactly in the runs without a slip.
-/

namespace OVMesh

namespace Gps

open Runs

/-- `GpsConnectionState`: what is known of the device and of its fix. -/
inductive GpsConnectionState
  | disconnected
  | waitingForFix
  | validFix
  | staleFix
  | readError
deriving DecidableEq

/-- `GpsConnectionStatus`: the state with the text that the desktop shows for it. -/
structure GpsConnectionStatus where
  state : GpsConnectionState := .disconnected
  devicePath : String := ""
  detail : String := "GPS disconnected"
deriving DecidableEq

section Receiver

variable {K : Type} [Field K] [LinearOrder K]

/-- The members of `SerialGps::Impl` that the deliveries read and change. -/
structure SerialGps (K : Type) where
  running : Bool
  lastUtc : K
  lastMonotonic : K
  lastFix : Option (PositionFix K)
  connection : GpsConnectionStatus
  freshFixMonotonic : K

namespace SerialGps

/-- `SerialGps::start`, once the port is open. -/
def start (s : SerialGps K) (path : String) : SerialGps K :=
  { s with
    running := true, lastUtc := -1, lastFix := none, freshFixMonotonic := 0
    connection := ⟨.waitingForFix, path, "GPS connected; waiting for a valid fix"⟩ }

/-- `SerialGps::stop`: nothing is known of the device or of its last fix. -/
def stop (s : SerialGps K) : SerialGps K :=
  { s with running := false, lastFix := none, connection := {}, freshFixMonotonic := 0 }

omit [Field K] [LinearOrder K] in
/-- `invalidate`: the fix is no longer valid, for a reason that its source names. -/
def invalidate (fix : PositionFix K) (reason : String) : PositionFix K :=
  { fix with valid := false, source := fix.source ++ ascii ("; " ++ reason) }

/-- `0.0001`: two times closer than this are one epoch. -/
def tolerance (rnd : K → K) : K := rnd (1 / 10000)

/-- The fix is of the last epoch. -/
def SameEpoch (rnd : K → K) (s : SerialGps K) (fix : PositionFix K) : Prop :=
  |rnd (fix.utcSeconds - s.lastUtc)| < tolerance rnd

instance (rnd : K → K) (s : SerialGps K) (fix : PositionFix K) : Decidable (SameEpoch rnd s fix) :=
  inferInstanceAs (Decidable (_ < _))

/-- A fix of the last epoch: it keeps the time of the epoch and what it lacks itself. -/
def sameEpoch (s : SerialGps K) (fix : PositionFix K) : PositionFix K :=
  { fix with
    monotonicSeconds := s.lastMonotonic
    altitudeM := fix.altitudeM.or (s.lastFix.bind (·.altitudeM))
    hdop := fix.hdop.or (s.lastFix.bind (·.hdop))
    satellites := if fix.satellites = 0 then (s.lastFix.map (·.satellites)).getD fix.satellites
      else fix.satellites
    source := fix.source ++ ascii "; same epoch freshness preserved" }

/-- The first part of `deliver`: the epoch of a fix. -/
def place (rnd : K → K) (s : SerialGps K) (fix : PositionFix K) : SerialGps K × PositionFix K :=
  if fix.valid then
    if fix.utcSeconds < rnd (s.lastUtc - tolerance rnd) then (s, invalidate fix "out-of-order fix")
    else if SameEpoch rnd s fix then
      let fix := s.sameEpoch fix
      ({ s with lastFix := some fix }, fix)
    else
      ({ s with lastUtc := fix.utcSeconds, lastMonotonic := fix.monotonicSeconds, lastFix := some fix },
        fix)
  else (s, fix)

/-- The second part of `deliver`: the connection status. A read failure stays. -/
def report (s : SerialGps K) (fix : PositionFix K) : SerialGps K :=
  if s.connection.state = .readError then s
  else if fix.valid then
    { s with
      connection := { s.connection with state := .validFix, detail := "GPS fix valid" }
      freshFixMonotonic := fix.monotonicSeconds }
  else if s.lastFix.isSome then
    { s with connection :=
      { s.connection with state := .staleFix, detail := "GPS fix lost; waiting for a valid fix" } }
  else
    { s with connection :=
      { s.connection with
        state := .waitingForFix, detail := "GPS connected; waiting for a valid fix" } }

/-- `deliver`: the state, and the fix that the callback is given. -/
def deliver (rnd : K → K) (s : SerialGps K) (fix : PositionFix K) : SerialGps K × PositionFix K :=
  let placed := s.place rnd fix
  (placed.1.report placed.2, placed.2)

/-- `SerialGps::status`: a fix that is older than two seconds is stale. -/
def status (s : SerialGps K) (now : K) : GpsConnectionStatus :=
  if s.connection.state = .validFix ∧ now - s.freshFixMonotonic > 2 then
    { s.connection with state := .staleFix, detail := "GPS fix stale; waiting for a fresh fix" }
  else s.connection

/-- The state after a delivery. -/
def next (rnd : K → K) (s : SerialGps K) (fix : PositionFix K) : SerialGps K := (s.deliver rnd fix).1

/-- The fixes that the callback is given. -/
def delivered (rnd : K → K) : SerialGps K → List (PositionFix K) → List (PositionFix K)
  | _, [] => []
  | s, fix :: fixes => (s.deliver rnd fix).2 :: delivered rnd (s.next rnd fix) fixes

/-- A sentence that repeats the last epoch or goes back. -/
def Replays (rnd : K → K) (s : SerialGps K) (fix : PositionFix K) : Prop :=
  fix.utcSeconds < s.lastUtc ∨ SameEpoch rnd s fix

/-- A sentence that goes back, but neither enough to be refused nor little enough to be of the same
epoch. -/
def Slips (rnd : K → K) (s : SerialGps K) (fix : PositionFix K) : Prop :=
  fix.valid = true ∧ fix.utcSeconds < s.lastUtc ∧
    ¬ fix.utcSeconds < rnd (s.lastUtc - tolerance rnd) ∧ ¬ SameEpoch rnd s fix

/-- What the receiver is for, over the sentences that follow a state: the epoch does not go back,
and while the sentences only replay, the current fix keeps its time, no valid fix with another time is
handed on, and two seconds later the fix is not shown as valid. -/
structure Steady (rnd : K → K) (s : SerialGps K) (fixes : List (PositionFix K)) : Prop where
  epoch : s.lastUtc ≤ (run (next rnd) s fixes).lastUtc
  fresh : (∀ fix ∈ fixes, Replays rnd s fix) → ∀ current, s.lastFix = some current →
    (run (next rnd) s fixes).lastFix.map (·.monotonicSeconds) = some current.monotonicSeconds
  handed : (∀ fix ∈ fixes, Replays rnd s fix) → ∀ current, s.lastFix = some current →
    ∀ fix ∈ delivered rnd s fixes, fix.valid = true →
      fix.monotonicSeconds = current.monotonicSeconds
  stale : (∀ fix ∈ fixes, Replays rnd s fix) → ∀ current, s.lastFix = some current →
    ∀ now, now - current.monotonicSeconds > 2 →
      ((run (next rnd) s fixes).status now).state ≠ .validFix

/-- The current fix has the time of its epoch, and a valid connection shows the current fix. -/
structure Wf (s : SerialGps K) : Prop where
  current : ∀ f, s.lastFix = some f → f.monotonicSeconds = s.lastMonotonic
  shown : s.connection.state = .validFix →
    s.freshFixMonotonic = s.lastMonotonic ∧ s.lastFix.isSome = true

/-! ## One delivery -/

variable {rnd : K → K} {s : SerialGps K} {fix : PositionFix K} {fixes : List (PositionFix K)}

omit [Field K] [LinearOrder K] in
@[simp] theorem report_lastUtc : (s.report fix).lastUtc = s.lastUtc := by
  unfold report
  split_ifs <;> rfl

omit [Field K] [LinearOrder K] in
@[simp] theorem report_lastMonotonic : (s.report fix).lastMonotonic = s.lastMonotonic := by
  unfold report
  split_ifs <;> rfl

omit [Field K] [LinearOrder K] in
@[simp] theorem report_lastFix : (s.report fix).lastFix = s.lastFix := by
  unfold report
  split_ifs <;> rfl

/-- What a delivery does: it hands an invalid fix on and keeps everything, or hands a fix of the last
epoch on, or opens an epoch. -/
theorem place_cases (rnd : K → K) (s : SerialGps K) (fix : PositionFix K) :
    ((fix.valid = true → fix.utcSeconds < rnd (s.lastUtc - tolerance rnd)) ∧
      (s.place rnd fix).1 = s ∧ (s.place rnd fix).2.valid = false) ∨
    (fix.valid = true ∧ SameEpoch rnd s fix ∧
      s.place rnd fix = ({ s with lastFix := some (s.sameEpoch fix) }, s.sameEpoch fix)) ∨
    (fix.valid = true ∧ ¬ fix.utcSeconds < rnd (s.lastUtc - tolerance rnd) ∧ ¬ SameEpoch rnd s fix ∧
      s.place rnd fix = ({ s with
        lastUtc := fix.utcSeconds, lastMonotonic := fix.monotonicSeconds, lastFix := some fix }, fix)) := by
  unfold place
  by_cases hvalid : fix.valid = true
  · rw [if_pos hvalid]
    by_cases hback : fix.utcSeconds < rnd (s.lastUtc - tolerance rnd)
    · rw [if_pos hback]
      exact .inl ⟨fun _ => hback, rfl, rfl⟩
    · rw [if_neg hback]
      by_cases hsame : SameEpoch rnd s fix
      · rw [if_pos hsame]
        exact .inr (.inl ⟨hvalid, hsame, rfl⟩)
      · rw [if_neg hsame]
        exact .inr (.inr ⟨hvalid, hback, hsame, rfl⟩)
  · rw [if_neg hvalid]
    exact .inl ⟨fun h => absurd h hvalid, rfl, by simpa using hvalid⟩

/-- The epoch goes back exactly in a slip. -/
theorem le_lastUtc_next : s.lastUtc ≤ (s.next rnd fix).lastUtc ↔ ¬ Slips rnd s fix := by
  have hnext : (s.next rnd fix).lastUtc = (s.place rnd fix).1.lastUtc := report_lastUtc
  rw [hnext]
  rcases place_cases rnd s fix with ⟨hback, hstate, -⟩ | ⟨-, hsame, hplace⟩ |
    ⟨hvalid, hback, hsame, hplace⟩
  · rw [hstate]
    exact iff_of_true le_rfl fun hslip => hslip.2.2.1 (hback hslip.1)
  · rw [hplace]
    exact iff_of_true le_rfl fun hslip => hslip.2.2.2 hsame
  · rw [hplace]
    constructor
    · exact fun hle hslip => absurd hslip.2.1 (not_lt.mpr hle)
    · exact fun hslip => not_lt.mp fun hlt => hslip ⟨hvalid, hlt, hback, hsame⟩

omit [Field K] [LinearOrder K] in
theorem wf_report (hcurrent : ∀ f, s.lastFix = some f → f.monotonicSeconds = s.lastMonotonic)
    (hfix : fix.valid = true → fix.monotonicSeconds = s.lastMonotonic ∧ s.lastFix.isSome = true) :
    (s.report fix).Wf := by
  refine ⟨fun f hf => ?_, ?_⟩
  · rw [report_lastFix] at hf
    rw [report_lastMonotonic]
    exact hcurrent f hf
  · unfold report
    split_ifs with herror hvalid hfixed
    · exact fun hshown => by rw [herror] at hshown; cases hshown
    · exact fun _ => hfix hvalid
    · exact fun hshown => by cases hshown
    · exact fun hshown => by cases hshown

omit [LinearOrder K] in
theorem wf_start {path : String} : (s.start path).Wf := by
  refine ⟨fun f hf => ?_, fun hshown => ?_⟩
  · cases hf
  · cases hshown

theorem deliver_eq : s.deliver rnd fix = ((s.place rnd fix).1.report (s.place rnd fix).2,
    (s.place rnd fix).2) := rfl

theorem Wf.next (h : s.Wf) : (s.next rnd fix).Wf := by
  rw [SerialGps.next, deliver_eq]
  rcases place_cases rnd s fix with ⟨-, hstate, hinvalid⟩ | ⟨-, -, hplace⟩ | ⟨-, -, -, hplace⟩
  · rw [hstate]
    exact wf_report h.current fun hvalid => by rw [hinvalid] at hvalid; cases hvalid
  · rw [hplace]
    refine wf_report (fun f hf => ?_) fun _ => ⟨rfl, rfl⟩
    obtain rfl := Option.some.inj hf
    rfl
  · rw [hplace]
    refine wf_report (fun f hf => ?_) fun _ => ⟨rfl, rfl⟩
    obtain rfl := Option.some.inj hf
    rfl

/-- A valid fix that is neither refused nor of the last epoch opens one. -/
theorem next_of_new (hvalid : fix.valid = true)
    (hback : ¬ fix.utcSeconds < rnd (s.lastUtc - tolerance rnd)) (hsame : ¬ SameEpoch rnd s fix) :
    (s.next rnd fix).lastUtc = fix.utcSeconds ∧ (s.next rnd fix).lastFix = some fix := by
  rw [SerialGps.next, deliver_eq, report_lastUtc, report_lastFix, place, if_pos hvalid, if_neg hback,
    if_neg hsame]
  exact ⟨rfl, rfl⟩

/-- A replay keeps the epoch and its time, and hands no valid fix on that has another time. -/
theorem next_of_replays (hreplays : Replays rnd s fix) (hslip : ¬ Slips rnd s fix) :
    (s.next rnd fix).lastUtc = s.lastUtc ∧ (s.next rnd fix).lastMonotonic = s.lastMonotonic ∧
      (s.lastFix.isSome = true → (s.next rnd fix).lastFix.isSome = true) ∧
      ((s.deliver rnd fix).2.valid = true →
        (s.deliver rnd fix).2.monotonicSeconds = s.lastMonotonic) := by
  rw [SerialGps.next, deliver_eq]
  simp only [report_lastUtc, report_lastMonotonic, report_lastFix]
  rcases place_cases rnd s fix with ⟨-, hstate, hinvalid⟩ | ⟨-, -, hplace⟩ |
    ⟨hvalid, hback, hsame, hplace⟩
  · rw [hstate, hinvalid]
    exact ⟨rfl, rfl, id, fun h => by cases h⟩
  · rw [hplace]
    exact ⟨rfl, rfl, fun _ => rfl, fun _ => rfl⟩
  · rcases hreplays with hlt | hsame'
    · exact absurd ⟨hvalid, hlt, hback, hsame⟩ hslip
    · exact absurd hsame' hsame

/-! ## Stretches of sentences -/

/-- The replays of a stretch are replays where they are delivered. -/
theorem replays_run (hreplays : ∀ fix ∈ fixes, Replays rnd s fix)
    (hslips : Along (next rnd) (fun s fix => ¬ Slips rnd s fix) s fixes) :
    (run (next rnd) s fixes).lastUtc = s.lastUtc ∧
      (run (next rnd) s fixes).lastMonotonic = s.lastMonotonic ∧
      (s.lastFix.isSome = true → (run (next rnd) s fixes).lastFix.isSome = true) ∧
      ∀ fix ∈ delivered rnd s fixes, fix.valid = true → fix.monotonicSeconds = s.lastMonotonic := by
  induction fixes generalizing s with
  | nil => exact ⟨rfl, rfl, id, fun fix hfix => absurd hfix List.not_mem_nil⟩
  | cons fix fixes ih =>
    obtain ⟨hfirst, hrest⟩ := List.forall_mem_cons.mp hreplays
    obtain ⟨hutc, hmonotonic, hfixed, hhanded⟩ := next_of_replays hfirst hslips.1
    have hnext : ∀ fix' ∈ fixes, Replays rnd (s.next rnd fix) fix' := by
      intro fix' hmem
      have h := hrest fix' hmem
      rw [Replays, SameEpoch] at h ⊢
      rwa [hutc]
    obtain ⟨hutc', hmonotonic', hfixed', hhanded'⟩ := ih hnext hslips.2
    refine ⟨hutc'.trans hutc, hmonotonic'.trans hmonotonic, fun h => hfixed' (hfixed h), ?_⟩
    intro fix' hmem hvalid
    rw [delivered, List.mem_cons] at hmem
    rcases hmem with rfl | hmem
    · exact hhanded hvalid
    · rw [hhanded' fix' hmem hvalid, hmonotonic]

theorem le_lastUtc_run (hslips : Along (next rnd) (fun s fix => ¬ Slips rnd s fix) s fixes) :
    s.lastUtc ≤ (run (next rnd) s fixes).lastUtc := by
  induction fixes generalizing s with
  | nil => exact le_rfl
  | cons fix fixes ih => exact (le_lastUtc_next.mpr hslips.1).trans (ih hslips.2)

theorem Wf.run (h : s.Wf) (fixes : List (PositionFix K)) : (run (SerialGps.next rnd) s fixes).Wf :=
  invariant_run (fun _ _ h => h.next) h fixes

theorem steady_of_not_slips (h : s.Wf)
    (hslips : Along (next rnd) (fun s fix => ¬ Slips rnd s fix) s fixes) : Steady rnd s fixes := by
  refine ⟨le_lastUtc_run hslips, fun hreplays current hcurrent => ?_,
    fun hreplays current hcurrent fix hmem hvalid => ?_,
    fun hreplays current hcurrent now hage => ?_⟩
  all_goals
    obtain ⟨-, hmonotonic, hfixed, hhanded⟩ := replays_run hreplays hslips
    have htime : current.monotonicSeconds = s.lastMonotonic := h.current current hcurrent
  · obtain ⟨f, hf⟩ := Option.isSome_iff_exists.mp (hfixed (by rw [hcurrent]; rfl))
    rw [hf, Option.map_some, (h.run fixes).current f hf, hmonotonic, htime]
  · rw [hhanded fix hmem hvalid, htime]
  · intro hshown
    unfold status at hshown
    split_ifs at hshown with hold
    have hfresh := ((@Wf.run K _ _ rnd s h fixes).shown hshown).1
    refine hold ⟨hshown, ?_⟩
    rwa [hfresh, hmonotonic, ← htime]

/-- **Replayed sentences age, but for slips.** From the opening of a port on, the epoch never goes
back and every stretch of replays leaves the current fix to age, exactly if no sentence slips. -/
theorem receiver_freshness (rnd : K → K) (s : SerialGps K) (path : String)
    (fixes : List (PositionFix K)) :
    (∀ before stretch after, fixes = before ++ stretch ++ after →
      Steady rnd (run (next rnd) (s.start path) before) stretch) ↔
    Along (next rnd) (fun s fix => ¬ Slips rnd s fix) (s.start path) fixes := by
  constructor
  · intro h
    refine along_iff_forall.mpr fun before fix after hsplit => ?_
    have hsteady := h before [fix] after (by rw [hsplit, List.append_assoc]; rfl)
    exact le_lastUtc_next.mp hsteady.epoch
  · intro h before stretch after hsplit
    rw [hsplit, List.append_assoc, along_append, along_append] at h
    exact steady_of_not_slips (wf_start.run before) h.2.1

end SerialGps

end Receiver

/-! ## Slips -/

namespace SerialGps

/-- A fix at a time of the GNSS clock. -/
def fixAt (utc monotonic : ℚ) : PositionFix ℚ :=
  ⟨0, 0, none, utc, monotonic, true, false, ascii "NMEA RMC; GNSS UTC", none, 0⟩

/-- A receiver before any port was opened. -/
def closed : SerialGps ℚ := ⟨false, -1, 0, none, {}, 0⟩

/-- The seconds until 2039. -/
def newYear : ℚ := 2177452800

open Binary64

theorem tolerance_nearest : tolerance nearest = 7378697629483821 / 2 ^ 66 := by
  have h := @nearest_eq (1 / 10000) (-14) 7378697629483821 (by decide) (by norm_num)
    (by norm_num) (by norm_num [abs_lt])
  rw [tolerance, h]
  norm_num

/-- The first two tenths of a millisecond of 2039, delivered backwards: with binary64 numbers, the
second sentence opens an epoch. -/
theorem newYear_slips (s : SerialGps ℚ) (monotonic : ℚ)
    (h : s.lastUtc = newYear + 210 / 2 ^ 21) : Slips nearest s (fixAt newYear monotonic) := by
  have hback : nearest (s.lastUtc - tolerance nearest) = newYear := by
    have hnearest := @nearest_eq (s.lastUtc - tolerance nearest) 31 (2177452800 * 2 ^ 21) (by decide)
      (by rw [h, tolerance_nearest, newYear]; norm_num [abs_of_pos])
      (by rw [h, tolerance_nearest, newYear]; norm_num [abs_of_pos])
      (by rw [h, tolerance_nearest, newYear]; norm_num [abs_lt])
    rw [hnearest, newYear]
    norm_num
  have hfar : nearest (newYear - s.lastUtc) = -(210 / 2 ^ 21) := by
    have hnearest := @nearest_eq (newYear - s.lastUtc) (-14) (-(210 * 2 ^ 45)) (by decide)
      (by rw [h]; norm_num [abs_of_neg])
      (by rw [h]; norm_num [abs_of_neg])
      (by rw [h]; norm_num [abs_lt])
    rw [hnearest]
    norm_num
  refine ⟨rfl, ?_, ?_, ?_⟩
  · change newYear < s.lastUtc
    rw [h]
    norm_num
  · change ¬ newYear < _
    rw [hback]
    exact lt_irrefl _
  · rw [SameEpoch]
    change ¬ |nearest (newYear - s.lastUtc)| < _
    rw [hfar, tolerance_nearest]
    norm_num

/-- The port is opened, and the two sentences follow: the epoch goes back, and the current fix gets
the time of a sentence that repeats an older one. -/
theorem newYear_refreshes : ∃ s, s = run (next nearest) (closed.start "/dev/ttyACM0")
      [fixAt (newYear + 210 / 2 ^ 21) 100] ∧
    s.lastUtc = newYear + 210 / 2 ^ 21 ∧ s.lastFix.map (·.monotonicSeconds) = some 100 ∧
    (s.next nearest (fixAt newYear 101)).lastUtc = newYear ∧
    (s.next nearest (fixAt newYear 101)).lastFix.map (·.monotonicSeconds) = some 101 ∧
    ¬ Steady nearest s [fixAt newYear 101] := by
  have hopen : (next nearest (closed.start "/dev/ttyACM0") (fixAt (newYear + 210 / 2 ^ 21) 100)).lastUtc =
      newYear + 210 / 2 ^ 21 ∧
      (next nearest (closed.start "/dev/ttyACM0") (fixAt (newYear + 210 / 2 ^ 21) 100)).lastFix =
        some (fixAt (newYear + 210 / 2 ^ 21) 100) := by
    have hlarge : (0 : ℚ) ≤ newYear + 210 / 2 ^ 21 := by rw [newYear]; norm_num
    refine next_of_new rfl ?_ ?_
    · have hback : nearest (-1 - tolerance nearest) ≤ 0 :=
        nearest_nonpos (by rw [tolerance_nearest]; norm_num)
      exact not_lt.mpr (hback.trans hlarge)
    · have hfar := @intCast_le_nearest (newYear + 210 / 2 ^ 21 - -1) 1 (by decide)
        (by rw [newYear]; norm_num)
      have hsmall : tolerance nearest < 1 := by rw [tolerance_nearest]; norm_num
      rw [Int.cast_one] at hfar
      exact not_lt.mpr (hsmall.le.trans (hfar.trans (le_abs_self _)))
  have hslip := newYear_slips (run (next nearest) (closed.start "/dev/ttyACM0")
    [fixAt (newYear + 210 / 2 ^ 21) 100]) 101 hopen.1
  obtain ⟨hutc, hfix⟩ := next_of_new hslip.1 hslip.2.2.1 hslip.2.2.2
  refine ⟨_, rfl, hopen.1, ?_, hutc, ?_, fun hsteady => le_lastUtc_next.mp hsteady.epoch hslip⟩
  · rw [run_cons, run_nil, hopen.2]
    rfl
  · rw [hfix]
    rfl

end SerialGps

end Gps

end OVMesh
