import OVMesh.Gps.NmeaFields

/-!
# What a valid fix of a sentence says

The fixes that `parseNmea` marks as valid, compared with the sentence they come from.

* `RmcFix`, `GgaFix`, `Trusted`: the position and the time of a fix are those of the sentence, and the
  store takes it.
* `BeforeEpoch`, `AtMidnight`, `AtLimit`: the sentences with a fix that is before 1970, on the next day, or
  at the limit of the host clock.
* `window_of_agrees`, `ggaUtc_spec`, `midnight_le_double_iff`: what the roundings of the times do.
* `parseNmea_trusted`: a valid fix can be trusted, exactly when the sentence is none of these.
-/

namespace OVMesh

namespace Gps

open Calendar Checked

variable {K : Type} [Field K] [LinearOrder K]

/-! ## The fix -/

section Meaning

variable [FloorRing K]

/-- A fix at the position and on the day of an RMC sentence, at the time of the day it names to a
microsecond. -/
structure RmcFix (fields : List Text) (fix : PositionFix K) : Prop where
  kind : (fieldAt fields 0).drop 2 = ascii "RMC"
  latitude : IsCoordinate true (fieldAt fields 3) (fieldAt fields 4) fix.latitude
  longitude : IsCoordinate false (fieldAt fields 5) (fieldAt fields 6) fix.longitude
  day : IsDate (fieldAt fields 9) (calendarDay ⌊fix.utcSeconds / 86400⌋₊)
  clock : ∃ time : K, IsClock (fieldAt fields 1) time ∧
    |fix.utcSeconds - (86400 * (⌊fix.utcSeconds / 86400⌋₊ : K) + time)| ≤ 1 / 10 ^ 6

/-- A fix at the position of a GGA sentence, at the time of the day it names to a microsecond, at most
twelve hours from the host time. -/
structure GgaFix (fields : List Text) (receivedUtc : K) (fix : PositionFix K) : Prop where
  kind : (fieldAt fields 0).drop 2 = ascii "GGA"
  latitude : IsCoordinate true (fieldAt fields 2) (fieldAt fields 3) fix.latitude
  longitude : IsCoordinate false (fieldAt fields 4) (fieldAt fields 5) fix.longitude
  clock : ∃ (day : ℤ) (time : K), IsClock (fieldAt fields 1) time ∧
    |fix.utcSeconds - (86400 * (day : K) + time)| ≤ 1 / 10 ^ 6
  near : |fix.utcSeconds - receivedUtc| ≤ 43200

/-- What a valid fix stands for: a sentence with a matching checksum, its position and its time, close
to the host time, in a form that the store takes. -/
structure Trusted (sentence : Text) (receivedUtc : K) (fix : PositionFix K) : Prop where
  sentence : ∃ body, Line sentence body ∧
    (RmcFix (body.splitOn 44) fix ∨ GgaFix (body.splitOn 44) receivedUtc fix)
  stored : validateFix fix = .ok ()
  past : receivedUtc - 10 ≤ fix.utcSeconds
  future : fix.utcSeconds ≤ receivedUtc + 5

omit [FloorRing K] in
/-- The position of a sentence of a kind. -/
def readingOf (kind : SentenceKind) (fields : List Text) : Option (Reading K) :=
  match kind with
  | .rmc => rmcReading fields
  | .gga => ggaReading fields

/-- A sentence with a position: its kind, its fields and the time of the day as it is read. -/
structure Positioned (sentence : Text) (kind : SentenceKind) (fields : List Text) (time : K) : Prop where
  text : ∃ body, framed sentence = some body ∧ splitFields 20 body = some fields
  address : sentenceKind fields = some kind
  clock : clockSeconds (fieldAt fields 1) = some time
  position : ∃ (latitude longitude : K) (altitudeM hdop : Option K) (satellites : ℕ),
    readingOf kind fields = some (.located latitude longitude altitudeM hdop satellites)

/-- A GGA sentence that names a time of the day at which the last day before 1970 agrees with the host
clock. -/
structure BeforeEpoch (sentence : Text) (receivedUtc : K) : Prop where
  named : ∃ fields time, Positioned sentence .gga fields time ∧ time < 86400 ∧
    ¬ ClockDisagrees receivedUtc (time - 86400)

/-- The midnight that ends a date. -/
def midnight (d : Date) : K := ((86400 * (sysDays d + 1) : ℕ) : K)

/-- An RMC sentence that names a time within half a unit in the last place of the midnight that ends its
date, when this agrees with the host clock. -/
structure AtMidnight (sentence : Text) (receivedUtc : K) : Prop where
  named : ∃ fields time d, Positioned sentence .rmc fields time ∧ date (fieldAt fields 9) = some d ∧
    86400 - time ≤ Binary64.format.ulp (midnight d : K) / 2 ∧
    ¬ ClockDisagrees receivedUtc (midnight d)

/-- A GGA sentence that agrees with the host clock by rounding only. -/
structure AtLimit (sentence : Text) (receivedUtc : K) : Prop where
  named : ∃ fields time, Positioned sentence .gga fields time ∧ ¬ ClockDisagrees receivedUtc time ∧
    (10 < receivedUtc - time ∨ 5 < time - receivedUtc)

/-- The times that `parseNmea` takes, and a sentence of one of these kinds. -/
structure Misplaced (sentence : Text) (receivedMonotonic receivedUtc : K) : Prop where
  monotonic : 0 ≤ receivedMonotonic
  utc : 0 ≤ receivedUtc ∧ receivedUtc ≤ 4102444800
  kind : BeforeEpoch sentence receivedUtc ∨ AtMidnight sentence receivedUtc ∨
    AtLimit sentence receivedUtc

end Meaning


section Fix

variable [IsStrictOrderedRing K] {fields : List Text} {fix : PositionFix K} {source : Text}
  {utc receivedMonotonic receivedUtc time x y : K} {reading : Reading K}

omit [IsStrictOrderedRing K] in
theorem utcSeconds_nonneg (h : validateFix fix = .ok ()) : 0 ≤ fix.utcSeconds := by
  simp only [validateFix, nonnegative, bind_eq_ok, reject_eq_ok] at h
  obtain ⟨_, -, _, hutc, -⟩ := h
  exact not_lt.mp hutc

omit [IsStrictOrderedRing K] in
/-- A fix within the range of the coordinates is stored when its time is not negative. -/
theorem validateFix_eq_ok (hlat : |fix.latitude| ≤ 90) (hlon : |fix.longitude| ≤ 180)
    (hmono : 0 ≤ fix.monotonicSeconds) (hhdop : ∀ hdop ∈ fix.hdop, 0 ≤ hdop)
    (hsatellites : fix.satellites ≤ 1000) (hsource : fix.source.length ≤ 512) :
    validateFix fix = .ok () ↔ 0 ≤ fix.utcSeconds := by
  have hchecked : forM fix.hdop.toList (fun hdop => nonnegative hdop "GPS HDOP") = .ok () := by
    rw [forM_eq_ok]
    intro hdop hmem
    exact reject_eq_ok.mpr (not_lt.mpr (hhdop hdop (Option.mem_toList.mp hmem)))
  refine ⟨utcSeconds_nonneg, fun h => ?_⟩
  simp only [validateFix, coordinates, nonnegative, bind_eq_ok, reject_eq_ok, not_or, not_lt] at hchecked ⊢
  exact ⟨(), ⟨hlat, hlon⟩, (), h, (), hmono, (), hchecked, hsatellites, hsource⟩

/-- The fields of an RMC sentence with a position. -/
theorem rmcReading_spec {latitude longitude : K} {altitudeM hdop : Option K} {satellites : ℕ}
    (h : rmcReading fields = some (.located latitude longitude altitudeM hdop satellites)) :
    IsCoordinate true (fieldAt fields 3) (fieldAt fields 4) latitude ∧
      IsCoordinate false (fieldAt fields 5) (fieldAt fields 6) longitude ∧
      hdop = none ∧ satellites = 0 := by
  unfold rmcReading at h
  obtain ⟨-, h⟩ := Option.ite_none_left_eq_some.mp h
  split_ifs at h
  all_goals try (cases h)
  obtain ⟨lat, hlat, h⟩ := Option.bind_eq_some_iff.mp h
  obtain ⟨lon, hlon, h⟩ := Option.bind_eq_some_iff.mp h
  cases h
  exact ⟨coordinate_spec hlat, coordinate_spec hlon, rfl, rfl⟩

/-- The fields of a GGA sentence with a position. -/
theorem ggaReading_spec {latitude longitude : K} {altitudeM hdop : Option K} {satellites : ℕ}
    (h : ggaReading fields = some (.located latitude longitude altitudeM hdop satellites)) :
    IsCoordinate true (fieldAt fields 2) (fieldAt fields 3) latitude ∧
      IsCoordinate false (fieldAt fields 4) (fieldAt fields 5) longitude ∧
      (∀ value ∈ hdop, 0 ≤ value) ∧ satellites ≤ 99 := by
  unfold ggaReading at h
  obtain ⟨quality, -, h⟩ := Option.bind_eq_some_iff.mp h
  split_ifs at h
  all_goals try (cases h)
  obtain ⟨lat, hlat, h⟩ := Option.bind_eq_some_iff.mp h
  obtain ⟨lon, hlon, h⟩ := Option.bind_eq_some_iff.mp h
  obtain ⟨satellites', hsatellites, h⟩ := Option.bind_eq_some_iff.mp h
  obtain ⟨hdop', hhdop, h⟩ := Option.bind_eq_some_iff.mp h
  obtain ⟨-, h⟩ := Option.ite_none_left_eq_some.mp h
  obtain ⟨altitude, -, h⟩ := Option.bind_eq_some_iff.mp h
  cases h
  refine ⟨coordinate_spec hlat, coordinate_spec hlon, ?_, (integer_eq_some.mp hsatellites).2.2.2⟩
  rintro value ⟨⟩
  obtain ⟨whole, fraction, -, -, -, rfl⟩ := decimal_id hhdop
  exact decimals_nonneg _ _

variable [FloorRing K]

/-! ### The host clock -/

/-- A difference that rounds to no more than a small bound is small. -/
theorem lt_of_double_le {c : ℤ} (hc : c < 16) (h : double x ≤ c) : x < 16 := by
  by_contra hx
  have hsixteen : double ((16 : ℤ) : K) = (16 : ℤ) := double_intCast (by norm_num)
  have hround := double_mono (show ((16 : ℤ) : K) ≤ x by
    push_cast
    exact not_lt.mp hx)
  rw [hsixteen] at hround
  have := Int.cast_le.mp (hround.trans h)
  omega

/-- From half a minute after 1970 began, a small difference of two times is exact. -/
theorem sub_le_of_double_sub_le {c : ℤ} (hx : double x = x) (hy : double y = y) (h32 : 32 ≤ x)
    (hc0 : 0 ≤ c) (hc : c < 16) (h : double (x - y) ≤ c) : x - y ≤ c := by
  by_contra hlt
  rw [not_le] at hlt
  have hsmall := lt_of_double_le hc h
  have hpos : (0 : K) ≤ c := by exact_mod_cast hc0
  have hexact : double (x - y) = x - y := by
    refine BinaryFormat.IsValue.sub (F := Binary64.format) (k := 4) hx hy (by decide) ?_ ?_ ?_
    · rw [abs_of_nonneg (by linarith)]
      norm_num
      linarith
    · rw [abs_of_nonneg (by linarith)]
      norm_num
      linarith
    · rw [abs_of_nonneg (by linarith)]
      norm_num
      linarith
  rw [hexact] at h
  exact absurd h (not_le.mpr hlt)

/-- Times that agree with the host clock are close to it. -/
theorem near_of_agrees (h : ¬ ClockDisagrees receivedUtc utc) :
    receivedUtc - utc < 16 ∧ utc - receivedUtc < 16 := by
  unfold ClockDisagrees at h
  push Not at h
  exact ⟨lt_of_double_le (c := 10) (by norm_num) (by exact_mod_cast h.1),
    lt_of_double_le (c := 5) (by norm_num) (by exact_mod_cast h.2)⟩

/-- From half a minute after 1970 began, the comparison with the host clock is exact. -/
theorem window_of_agrees (hr : double receivedUtc = receivedUtc) (hutc : double utc = utc)
    (h32 : 32 ≤ receivedUtc) (h : ¬ ClockDisagrees receivedUtc utc) :
    receivedUtc - utc ≤ 10 ∧ utc - receivedUtc ≤ 5 := by
  unfold ClockDisagrees at h
  push Not at h
  constructor
  · have := sub_le_of_double_sub_le (c := 10) hr hutc h32 (by norm_num) (by norm_num)
      (by exact_mod_cast h.1)
    exact_mod_cast this
  · rcases le_or_gt 32 utc with hlate | hearly
    · have := sub_le_of_double_sub_le (c := 5) hutc hr hlate (by norm_num) (by norm_num)
        (by exact_mod_cast h.2)
      exact_mod_cast this
    · linarith

omit [IsStrictOrderedRing K] in
/-- A valid fix has the position of the reading, and agrees with the host clock. -/
theorem fixOf_valid (h : (fixOf source utc receivedMonotonic receivedUtc reading).valid = true) :
    ∃ latitude longitude altitudeM hdop satellites,
      reading = .located latitude longitude altitudeM hdop satellites ∧
      fixOf source utc receivedMonotonic receivedUtc reading =
        ⟨latitude, longitude, altitudeM, utc, receivedMonotonic, true, false, source, hdop, satellites⟩ ∧
      ¬ ClockDisagrees receivedUtc utc := by
  cases reading with
  | refused reason => cases h
  | located latitude longitude altitudeM hdop satellites =>
    refine ⟨latitude, longitude, altitudeM, hdop, satellites, rfl, ?_⟩
    unfold fixOf at h ⊢
    simp only at h ⊢
    split at h <;> rename_i hclock
    · cases h
    · exact ⟨if_neg hclock, hclock⟩

/-! ### Times -/

/-- A rounded time of the years that are read. -/
theorem abs_time_sub_le (hx : |x| < 2 ^ 32) : |double x - x| ≤ 1 / (4 * 10 ^ 6) :=
  (abs_double_sub_le (e := -22) 32 rfl (by norm_num) (by exact_mod_cast hx)).trans (by norm_num)

/-- A GGA sentence is placed on some day, to three roundings. -/
theorem ggaUtc_spec (hr : 0 ≤ receivedUtc) (hr' : receivedUtc ≤ 4102444800) (h0 : 0 ≤ time)
    (h1 : time ≤ 86400) :
    double (ggaUtc receivedUtc time) = ggaUtc receivedUtc time ∧
      ∃ day : ℤ, |ggaUtc receivedUtc time - (86400 * (day : K) + time)| ≤ 3 / (4 * 10 ^ 6) := by
  have hday0 : 0 ≤ ⌊double (receivedUtc / 86400)⌋ :=
    Int.floor_nonneg.mpr (double_nonneg (by positivity))
  have hday1 : ⌊double (receivedUtc / 86400)⌋ ≤ 47482 := by
    have hlast : double ((47482 : ℤ) : K) = (47482 : ℤ) := double_intCast (by norm_num)
    have hround := double_mono (show receivedUtc / 86400 ≤ ((47482 : ℤ) : K) by
      rw [div_le_iff₀ (by norm_num)]
      norm_num
      exact hr')
    rw [hlast] at hround
    exact Int.floor_le_iff.mpr (hround.trans_lt (lt_add_one _))
  unfold ggaUtc
  generalize (⌊double (receivedUtc / 86400)⌋ : ℤ) = day at hday0 hday1
  have hlow : (0 : K) ≤ day := by exact_mod_cast hday0
  have hhigh : (day : K) ≤ 47482 := by exact_mod_cast hday1
  have hfirst := abs_le.mp (abs_time_sub_le (x := (day : K) * 86400 + time) (by
    rw [abs_of_nonneg (by positivity)]
    norm_num
    linarith))
  have hvalue := double_double ((day : K) * 86400 + time)
  simp only
  generalize double ((day : K) * 86400 + time) = first at hfirst hvalue ⊢
  -- Each of the two corrections moves by a day, and rounds once.
  have hsecond : ∃ day' : ℤ, |(if double (first - receivedUtc) > 43200 then double (first - 86400) else
      first) - (86400 * (day' : K) + time)| ≤ 2 / (4 * 10 ^ 6) ∧ -1 ≤ day' ∧ day' ≤ 47482 ∧
      double (if double (first - receivedUtc) > 43200 then double (first - 86400) else first) =
        if double (first - receivedUtc) > 43200 then double (first - 86400) else first := by
    split_ifs
    · have hround := abs_le.mp (abs_time_sub_le (x := first - 86400) (by
        rw [abs_lt]
        norm_num at hfirst ⊢
        constructor <;> linarith))
      refine ⟨day - 1, ?_, by omega, by omega, double_double _⟩
      rw [abs_le]
      push_cast
      norm_num at hfirst hround ⊢
      constructor <;> linarith
    · refine ⟨day, ?_, by omega, hday1, hvalue⟩
      rw [abs_le]
      norm_num at hfirst ⊢
      constructor <;> linarith
  obtain ⟨day', herror, hday0', hday1', hvalue'⟩ := hsecond
  generalize (if double (first - receivedUtc) > 43200 then double (first - 86400) else first) = second
    at herror hvalue' ⊢
  obtain ⟨herror, herror'⟩ := abs_le.mp herror
  have hlow' : (-1 : K) ≤ day' := by exact_mod_cast hday0'
  have hhigh' : (day' : K) ≤ 47482 := by exact_mod_cast hday1'
  split_ifs
  · have hround := abs_le.mp (abs_time_sub_le (x := second + 86400) (by
      rw [abs_lt]
      norm_num at herror herror' ⊢
      constructor <;> linarith))
    refine ⟨double_double _, day' + 1, ?_⟩
    rw [abs_le]
    push_cast
    norm_num at herror herror' hround ⊢
    constructor <;> linarith
  · refine ⟨hvalue', day', ?_⟩
    rw [abs_le]
    norm_num at herror herror' ⊢
    constructor <;> linarith

/-- Within half a minute after 1970 began, a GGA sentence is placed on the first day or before it. -/
theorem ggaUtc_early (hr : 0 ≤ receivedUtc) (h32 : receivedUtc < 32) (h0 : 0 ≤ time)
    (h1 : time ≤ 86400) (hvalue : double time = time) :
    ggaUtc receivedUtc time = time ∧ double (time - receivedUtc) ≤ 43200 ∨
      ggaUtc receivedUtc time = time - 86400 ∧ 43200 < time - receivedUtc := by
  have hday : ⌊double (receivedUtc / 86400)⌋ = 0 := by
    rw [Int.floor_eq_zero_iff]
    refine ⟨double_nonneg (by positivity), ?_⟩
    have hquotient : receivedUtc / 86400 < 1 / 2 := by
      rw [div_lt_iff₀ (by norm_num)]
      linarith
    have hround := abs_le.mp (abs_double_sub_le (x := receivedUtc / 86400) (e := -55) (-1) rfl
      (by norm_num) (by
        rw [abs_of_nonneg (by positivity)]
        norm_num
        exact hquotient))
    norm_num at hround hquotient
    linarith
  have hhalf : double ((43200 : ℤ) : K) = (43200 : ℤ) := double_intCast (by norm_num)
  push_cast at hhalf
  simp only [ggaUtc]
  rw [hday, Int.cast_zero, zero_mul, zero_add, hvalue]
  -- The host is within the first half minute, so only a time late in the day is moved, to the day
  -- before 1970.
  by_cases hlate : double (time - receivedUtc) > 43200
  · right
    have hfar : 43200 < time - receivedUtc := by
      by_contra hnear
      exact absurd hlate (not_lt.mpr ((double_mono (not_lt.mp hnear)).trans_eq hhalf))
    -- Both are multiples of the last place of the larger one, so their difference is exact.
    have hexact : double (time - 86400) = time - 86400 := by
      have hdayValue : double ((86400 : ℤ) : K) = (86400 : ℤ) := double_intCast (by norm_num)
      push_cast at hdayValue
      refine BinaryFormat.IsValue.sub (F := Binary64.format) (k := 15) hvalue hdayValue (by decide)
        ?_ ?_ ?_
      · rw [abs_of_nonneg h0]
        norm_num
        linarith
      · norm_num
      · rw [abs_lt]
        norm_num
        constructor <;> linarith
    rw [if_pos hlate, hexact, if_neg (not_lt.mpr ((double_mono _).trans_eq hhalf))]
    · exact ⟨rfl, hfar⟩
    · linarith
  · left
    rw [if_neg hlate, if_neg (not_lt.mpr ((double_mono _).trans_eq hhalf))]
    · exact ⟨rfl, not_lt.mp hlate⟩
    · linarith

omit [Field K] [LinearOrder K] [IsStrictOrderedRing K] [FloorRing K] in
/-- The seconds of the dates that a sentence can name. -/
theorem isDate_seconds {value : Text} {d : Date} (h : IsDate value d) :
    2 ^ 28 ≤ 86400 * sysDays d ∧ 86400 * (sysDays d + 1) < 2 ^ 32 := by
  obtain ⟨_, _, _, -, -, -, -, -, hok, -, -, hyear, hyear', -⟩ := h
  have := sysDays_bounds hok
  omega

/-- **Midnight.** A time of an RMC sentence rounds to the midnight that ends its date from half a unit in
the last place of the midnight on. -/
theorem midnight_le_double_iff {value : Text} {d : Date} (hd : IsDate value d) (h0 : 0 ≤ time)
    (h1 : time ≤ 86400) : midnight d ≤ double (((sysDays d * 86400 : ℕ) : K) + time) ↔
      86400 - time ≤ Binary64.format.ulp (midnight d : K) / 2 := by
  obtain ⟨hlow, hhigh⟩ := isDate_seconds hd
  have hsum : (midnight d : K) = ((sysDays d * 86400 : ℕ) : K) + 86400 := by
    rw [midnight]
    push_cast
    ring
  obtain ⟨m, hm⟩ : ∃ m, m = 86400 * (sysDays d + 1) := ⟨_, rfl⟩
  have hmid : (midnight d : K) = (m : K) := by rw [midnight, hm]
  have hlog : Nat.log 2 m ≤ 52 := by
    have := Nat.log_lt_of_lt_pow (b := 2) (x := 32) (y := m) (by omega) (by omega)
    omega
  have hpow : 2 ^ Nat.log 2 m < m := by
    refine lt_of_le_of_ne (Nat.pow_log_le_self 2 (by omega)) fun heq => ?_
    have hthree : 3 ∣ 2 ^ Nat.log 2 m :=
      (Dvd.intro (28800 * (sysDays d + 1)) (by omega)).trans (dvd_of_eq heq.symm)
    exact absurd (Nat.Prime.dvd_of_dvd_pow Nat.prime_three hthree) (by decide)
  have hnext : m < 2 ^ (Nat.log 2 m + 1) := Nat.lt_pow_succ_log_self (by norm_num) m
  have hiff := BinaryFormat.le_nearest_iff_of_le (F := Binary64.format) (k := Nat.log 2 m)
    (n := m * 2 ^ (52 - Nat.log 2 m)) (x := ((sysDays d * 86400 : ℕ) : K) + time) (y := midnight d)
    (by decide) ((show (-1022 : ℤ) < 0 by norm_num).trans_le (Int.natCast_nonneg _)) ?_ ?_ ?_ ?_
    (add_nonneg (Nat.cast_nonneg _) h0) (by rw [hsum]; linarith)
  · rwa [hsum, add_sub_add_left_eq_sub, ← hsum] at hiff
  · have heven : Even (m : ℤ) := ⟨43200 * ((sysDays d : ℤ) + 1), by rw [hm]; push_cast; ring⟩
    exact heven.mul_right _
  · have hexponent : ((Nat.log 2 m : ℕ) : ℤ) - (Binary64.format.digits : ℤ) + 1 =
        -((52 - Nat.log 2 m : ℕ) : ℤ) := by
      change ((Nat.log 2 m : ℕ) : ℤ) - (53 : ℕ) + 1 = _
      omega
    rw [hmid, hexponent, zpow_neg, zpow_natCast]
    push_cast
    rw [mul_assoc, mul_inv_cancel₀ (by positivity), mul_one]
  · rw [hmid, zpow_natCast]
    exact_mod_cast hpow
  · rw [hmid, ← Nat.cast_succ, zpow_natCast]
    exact_mod_cast hnext

theorem le_double_add {value : Text} {d : Date} (hd : IsDate value d) (h0 : 0 ≤ time) :
    ((sysDays d * 86400 : ℕ) : K) ≤ double (((sysDays d * 86400 : ℕ) : K) + time) := by
  obtain ⟨-, hhigh⟩ := isDate_seconds hd
  have hexact : double ((sysDays d * 86400 : ℕ) : K) = ((sysDays d * 86400 : ℕ) : K) :=
    double_natCast (by omega)
  exact hexact.ge.trans (double_mono (le_add_of_nonneg_right h0))

theorem double_le_midnight {value : Text} {d : Date} (hd : IsDate value d) (h1 : time ≤ 86400) :
    double (((sysDays d * 86400 : ℕ) : K) + time) ≤ midnight d := by
  obtain ⟨-, hhigh⟩ := isDate_seconds hd
  have hexact : double (midnight d : K) = midnight d := double_natCast (by omega)
  refine (double_mono ?_).trans_eq hexact
  rw [midnight]
  push_cast
  linarith

/-! ### What the text determines -/

omit [Field K] [LinearOrder K] [IsStrictOrderedRing K] [FloorRing K] in
/-- A sentence is the line of one text. -/
theorem Line.unique {sentence body body' : Text} (h : Line sentence body) (h' : Line sentence body') :
    body = body' := by
  have hstar {sentence body : Text} (h : Line sentence body) :
      (sentence.drop 1).takeWhile (· != 42) = body := by
    obtain ⟨high, low, ending, rfl, -⟩ := h.form
    have hall : ∀ b ∈ body, (b != 42) = true := fun b hb => by simp [(h.printable b hb).2.2.2]
    rw [List.append_assoc, List.cons_append, List.drop_succ_cons, List.drop_zero,
      List.takeWhile_append_of_pos hall]
    simp
  rw [← hstar h, hstar h']

omit [Field K] [LinearOrder K] [IsStrictOrderedRing K] [FloorRing K] in
/-- A date text names one date. -/
theorem IsDate.unique {value : Text} {d d' : Date} (h : IsDate value d) (h' : IsDate value d') :
    d = d' := by
  obtain ⟨day, month, year, hvalue, hday, hmonth, -, -, -, hd, hm, hlow, hhigh, hy⟩ := h
  obtain ⟨day', month', year', rfl, hday', hmonth', -, -, -, hd', hm', hlow', hhigh', hy'⟩ := h'
  rw [List.append_assoc, List.append_assoc] at hvalue
  obtain ⟨rfl, hrest⟩ := List.append_inj hvalue (hday'.trans hday.symm)
  obtain ⟨rfl, rfl⟩ := List.append_inj hrest (hmonth'.trans hmonth.symm)
  obtain ⟨y, m, dd⟩ := d
  obtain ⟨y', m', dd'⟩ := d'
  simp only at *
  rw [Date.mk.injEq]
  omega

omit [Field K] [LinearOrder K] [IsStrictOrderedRing K] [FloorRing K] in
/-- The next day is another date. -/
theorem calendarDay_succ_ne {value : Text} {d : Date} (h : IsDate value d) :
    calendarDay (sysDays d + 1) ≠ d := by
  obtain ⟨_, _, _, -, -, -, -, -, hok, -, -, hyear, -⟩ := h
  intro hnext
  rw [calendarDay, Function.iterate_succ_apply', ← calendarDay,
    calendarDay_sysDays hok (by omega)] at hnext
  have := sysDays_next hok (by omega)
  rw [hnext] at this
  omega

omit [Field K] [LinearOrder K] [IsStrictOrderedRing K] [FloorRing K] in
theorem sentenceKind_spec {kind : SentenceKind} (h : sentenceKind fields = some kind) :
    (fieldAt fields 0).drop 2 = match kind with
      | .rmc => ascii "RMC"
      | .gga => ascii "GGA" := by
  unfold sentenceKind at h
  simp only at h
  split_ifs at h with _ hrmc _ hgga _
  · cases h
    exact hrmc
  · cases h
    exact hgga

/-! ### Sentences -/

omit [IsStrictOrderedRing K] in
/-- The fix of a GGA sentence, when it agrees with the host clock. -/
theorem parseNmea_gga {sentence : Text} (hm : 0 ≤ receivedMonotonic) (hu : 0 ≤ receivedUtc)
    (hu' : receivedUtc ≤ 4102444800) (h : Positioned sentence .gga fields time)
    (hclock : ¬ ClockDisagrees receivedUtc (ggaUtc receivedUtc time)) :
    ∃ fix, parseNmea sentence receivedMonotonic receivedUtc = some fix ∧ fix.valid = true ∧
      fix.utcSeconds = ggaUtc receivedUtc time := by
  obtain ⟨⟨body, hbody, hfields⟩, hkind, htime, latitude, longitude, altitudeM, hdop, satellites,
    hreading⟩ := h
  have hrange : ¬ (receivedMonotonic < 0 ∨ receivedUtc < 0 ∨ receivedUtc > 4102444800) := by
    push Not
    exact ⟨hm, hu, hu'⟩
  have hreading : ggaReading fields =
    some (.located latitude longitude altitudeM hdop satellites) := hreading
  refine ⟨⟨latitude, longitude, altitudeM, ggaUtc receivedUtc time, receivedMonotonic, true, false,
    ascii "NMEA GGA; date inferred from host UTC", hdop, satellites⟩, ?_, rfl, rfl⟩
  simp only [parseNmea, if_neg hrange, hbody, hfields, hkind, htime, hreading, Option.bind_eq_bind,
    Option.bind_some]
  rw [fixOf, if_neg hclock]

omit [IsStrictOrderedRing K] in
/-- The fix of an RMC sentence, when it agrees with the host clock. -/
theorem parseNmea_rmc {sentence : Text} {d : Date} (hm : 0 ≤ receivedMonotonic) (hu : 0 ≤ receivedUtc)
    (hu' : receivedUtc ≤ 4102444800) (h : Positioned sentence .rmc fields time)
    (hd : date (fieldAt fields 9) = some d)
    (hclock : ¬ ClockDisagrees receivedUtc (double (((sysDays d * 86400 : ℕ) : K) + time))) :
    ∃ fix, parseNmea sentence receivedMonotonic receivedUtc = some fix ∧ fix.valid = true ∧
      fix.utcSeconds = double (((sysDays d * 86400 : ℕ) : K) + time) := by
  obtain ⟨⟨body, hbody, hfields⟩, hkind, htime, latitude, longitude, altitudeM, hdop, satellites,
    hreading⟩ := h
  have hrange : ¬ (receivedMonotonic < 0 ∨ receivedUtc < 0 ∨ receivedUtc > 4102444800) := by
    push Not
    exact ⟨hm, hu, hu'⟩
  have hreading : rmcReading fields =
    some (.located latitude longitude altitudeM hdop satellites) := hreading
  refine ⟨⟨latitude, longitude, altitudeM, double (((sysDays d * 86400 : ℕ) : K) + time),
    receivedMonotonic, true, false, ascii "NMEA RMC; GNSS UTC", hdop, satellites⟩, ?_, rfl, rfl⟩
  simp only [parseNmea, if_neg hrange, hbody, hfields, hkind, htime, dateSeconds, hd, hreading,
    Option.bind_eq_bind, Option.bind_some, Option.map_some]
  rw [fixOf, if_neg hclock]

/-- A fix on the midnight that ends its date is not on the day that the sentence names. -/
theorem not_trusted_of_midnight {sentence : Text} {d : Date} (h : Positioned sentence .rmc fields time)
    (hd : date (fieldAt fields 9) = some d) (hutc : fix.utcSeconds = midnight d) :
    ¬ Trusted sentence receivedUtc fix := by
  rintro ⟨⟨body', hline', hfix⟩, -, -, -⟩
  obtain ⟨⟨body, hbody, hfields⟩, hkind, -, -⟩ := h
  obtain ⟨rfl, -⟩ := splitFields_eq_some.mp hfields
  obtain rfl := (framed_spec hbody).unique hline'
  have hday : ⌊fix.utcSeconds / 86400⌋₊ = sysDays d + 1 := by
    rw [hutc, midnight, Nat.cast_mul, Nat.cast_ofNat, mul_div_cancel_left₀ _ (by norm_num),
      Nat.floor_natCast]
  have hformatter := sentenceKind_spec hkind
  rcases hfix with hfix | hfix
  · have hnext := hfix.day
    rw [hday] at hnext
    have hdate := date_spec hd
    exact calendarDay_succ_ne hdate (hnext.unique hdate)
  · exact absurd (show ascii "RMC" = ascii "GGA" from hformatter.symm.trans hfix.kind) (by decide)

/-- What the fix of a GGA sentence says, when it agrees with the host clock. -/
theorem trusted_gga {sentence body : Text} (hm : 0 ≤ receivedMonotonic) (hu : 0 ≤ receivedUtc)
    (hu' : receivedUtc ≤ 4102444800)
    (hline : Line sentence body) (hkind : (fieldAt (body.splitOn 44) 0).drop 2 = ascii "GGA")
    (htime : clockSeconds (fieldAt (body.splitOn 44) 1) = some time)
    {latitude longitude : K} {altitudeM hdop : Option K} {satellites : ℕ}
    (hreading : ggaReading (body.splitOn 44) =
      some (.located latitude longitude altitudeM hdop satellites))
    (hfix : fix = ⟨latitude, longitude, altitudeM, ggaUtc receivedUtc time, receivedMonotonic, true,
      false, ascii "NMEA GGA; date inferred from host UTC", hdop, satellites⟩)
    (hnonneg : 0 ≤ ggaUtc receivedUtc time) (hpast : receivedUtc - ggaUtc receivedUtc time ≤ 10)
    (hfuture : ggaUtc receivedUtc time - receivedUtc ≤ 5) : Trusted sentence receivedUtc fix := by
  obtain ⟨hlat, hlon, hhdop, hsatellites⟩ := ggaReading_spec hreading
  obtain ⟨⟨named, hnamed, hread⟩, h0, h1, -⟩ := clockSeconds_spec htime
  obtain ⟨-, day, hday⟩ := ggaUtc_spec hu hu' h0 h1
  have hstored : validateFix fix = .ok () := by
    obtain ⟨_, _, _, -, -, -, -, -, -, hlat⟩ := hlat
    obtain ⟨_, _, _, -, -, -, -, -, -, hlon⟩ := hlon
    rw [hfix]
    exact (validateFix_eq_ok (by simpa [degreeLimit] using hlat) (by simpa [degreeLimit] using hlon) hm
      hhdop (by dsimp only; omega) (by dsimp only; decide +kernel)).mpr hnonneg
  have hutc : fix.utcSeconds = ggaUtc receivedUtc time := by rw [hfix]
  refine ⟨⟨body, hline, .inr ⟨hkind, ?_, ?_, ⟨day, named, hnamed, ?_⟩, ?_⟩⟩, hstored, ?_, ?_⟩
  · rwa [hfix]
  · rwa [hfix]
  · obtain ⟨hday, hday'⟩ := abs_le.mp hday
    obtain ⟨hread, hread'⟩ := abs_le.mp hread
    rw [hutc, abs_le]
    norm_num at hday hday' hread hread' ⊢
    constructor <;> linarith
  · rw [hutc, abs_le]
    constructor <;> linarith
  · rw [hutc]
    linarith
  · rw [hutc]
    linarith

/-- What the fix of an RMC sentence says, when it agrees with the host clock before midnight. -/
theorem trusted_rmc {sentence body : Text} (hm : 0 ≤ receivedMonotonic)
    (hline : Line sentence body) (hkind : (fieldAt (body.splitOn 44) 0).drop 2 = ascii "RMC")
    (htime : clockSeconds (fieldAt (body.splitOn 44) 1) = some time) {d : Date}
    (hd : date (fieldAt (body.splitOn 44) 9) = some d)
    {latitude longitude : K} {altitudeM hdop : Option K} {satellites : ℕ}
    (hreading : rmcReading (body.splitOn 44) =
      some (.located latitude longitude altitudeM hdop satellites))
    (hutc : utc = double (((sysDays d * 86400 : ℕ) : K) + time))
    (hfix : fix = ⟨latitude, longitude, altitudeM, utc, receivedMonotonic, true,
      false, ascii "NMEA RMC; GNSS UTC", hdop, satellites⟩)
    (hmidnight : utc < midnight d) (hpast : receivedUtc - utc ≤ 10)
    (hfuture : utc - receivedUtc ≤ 5) : Trusted sentence receivedUtc fix := by
  obtain ⟨hlat, hlon, rfl, rfl⟩ := rmcReading_spec hreading
  obtain ⟨⟨named, hnamed, hread⟩, h0, h1, -⟩ := clockSeconds_spec htime
  have hdate := date_spec hd
  obtain ⟨-, hhigh⟩ := isDate_seconds hdate
  have hseconds : ((sysDays d * 86400 : ℕ) : K) ≤ utc := (le_double_add hdate h0).trans_eq hutc.symm
  -- The rounded sum is still within the day that the sentence names.
  have hfloor : ⌊utc / 86400⌋₊ = sysDays d := by
    rw [Nat.floor_eq_iff (div_nonneg ((Nat.cast_nonneg _).trans hseconds) (by norm_num)),
      le_div_iff₀ (by norm_num), div_lt_iff₀ (by norm_num)]
    rw [midnight] at hmidnight
    push_cast at hmidnight hseconds
    constructor <;> linarith
  have herror : |utc - (((sysDays d * 86400 : ℕ) : K) + time)| ≤ 1 / (4 * 10 ^ 6) := by
    rw [hutc]
    refine abs_time_sub_le ?_
    have hcast : ((86400 * (sysDays d + 1) : ℕ) : K) < 2 ^ 32 := by exact_mod_cast hhigh
    push_cast at hcast
    rw [abs_of_nonneg (add_nonneg (Nat.cast_nonneg _) h0)]
    push_cast
    linarith
  have hstored : validateFix fix = .ok () := by
    obtain ⟨_, _, _, -, -, -, -, -, -, hlat⟩ := hlat
    obtain ⟨_, _, _, -, -, -, -, -, -, hlon⟩ := hlon
    rw [hfix]
    exact (validateFix_eq_ok (by simpa [degreeLimit] using hlat) (by simpa [degreeLimit] using hlon) hm
      (by simp) (by simp) (by dsimp only; decide +kernel)).mpr ((Nat.cast_nonneg _).trans hseconds)
  have hfixUtc : fix.utcSeconds = utc := by rw [hfix]
  refine ⟨⟨body, hline, .inl ⟨hkind, ?_, ?_, ?_, named, hnamed, ?_⟩⟩, hstored, ?_, ?_⟩
  · rwa [hfix]
  · rwa [hfix]
  · obtain ⟨_, _, _, -, -, -, -, -, hok, -, -, hyear, -⟩ := hdate
    rw [hfixUtc, hfloor, calendarDay_sysDays hok (by omega)]
    exact date_spec hd
  · rw [hfixUtc, hfloor]
    obtain ⟨herror, herror'⟩ := abs_le.mp herror
    obtain ⟨hread, hread'⟩ := abs_le.mp hread
    push_cast at herror herror'
    rw [abs_le]
    norm_num at herror herror' hread hread' ⊢
    constructor <;> linarith
  · rw [hfixUtc]
    linarith
  · rw [hfixUtc]
    linarith

/-- A valid fix of one of the three kinds cannot be trusted. -/
theorem exists_untrusted {sentence : Text} (hr : double receivedUtc = receivedUtc)
    (h : Misplaced sentence receivedMonotonic receivedUtc) :
    ∃ fix, parseNmea sentence receivedMonotonic receivedUtc = some fix ∧ fix.valid = true ∧
      ¬ Trusted sentence receivedUtc fix := by
  obtain ⟨hm, ⟨hu, hu'⟩, ⟨fields, time, hsentence, hday, hclock⟩ |
    ⟨fields, time, d, hsentence, hd, hlate, hclock⟩ | ⟨fields, time, hsentence, hclock, hlimit⟩⟩ := h
  · obtain ⟨-, h0, h1, hvalue⟩ := clockSeconds_spec hsentence.clock
    obtain ⟨hnear, -⟩ := near_of_agrees hclock
    have hplace : ggaUtc receivedUtc time = time - 86400 := by
      rcases ggaUtc_early hu (by linarith) h0 h1 hvalue with ⟨-, hsame⟩ | ⟨hbefore, -⟩
      · -- The sentence names a time twelve hours ahead of the host clock.
        have hhalf : double ((43201 : ℤ) : K) = (43201 : ℤ) := double_intCast (by norm_num)
        push_cast at hhalf
        have := double_mono (show (43201 : K) ≤ time - receivedUtc by linarith)
        rw [hhalf] at this
        linarith
      · exact hbefore
    rw [← hplace] at hclock
    obtain ⟨fix, hfix, hvalid, hutc⟩ := parseNmea_gga hm hu hu' hsentence hclock
    refine ⟨fix, hfix, hvalid, fun htrusted => ?_⟩
    have := utcSeconds_nonneg htrusted.stored
    rw [hutc, hplace] at this
    linarith
  · obtain ⟨-, h0, h1, -⟩ := clockSeconds_spec hsentence.clock
    have hdate := date_spec hd
    have hplace : double (((sysDays d * 86400 : ℕ) : K) + time) = midnight d :=
      le_antisymm (double_le_midnight hdate h1) ((midnight_le_double_iff hdate h0 h1).mpr hlate)
    rw [← hplace] at hclock
    obtain ⟨fix, hfix, hvalid, hutc⟩ := parseNmea_rmc hm hu hu' hsentence hd hclock
    exact ⟨fix, hfix, hvalid, not_trusted_of_midnight hsentence hd (hutc.trans hplace)⟩
  · obtain ⟨-, h0, h1, hvalue⟩ := clockSeconds_spec hsentence.clock
    have h32 : receivedUtc < 32 := by
      by_contra h32
      obtain ⟨hpast, hfuture⟩ := window_of_agrees hr hvalue (not_lt.mp h32) hclock
      rcases hlimit with h | h <;> linarith
    have hplace : ggaUtc receivedUtc time = time := by
      rcases ggaUtc_early hu h32 h0 h1 hvalue with ⟨hsame, -⟩ | ⟨-, hfar⟩
      · exact hsame
      · have := (near_of_agrees hclock).2
        linarith
    rw [← hplace] at hclock
    obtain ⟨fix, hfix, hvalid, hutc⟩ := parseNmea_gga hm hu hu' hsentence hclock
    refine ⟨fix, hfix, hvalid, fun htrusted => ?_⟩
    have hpast := htrusted.past
    have hfuture := htrusted.future
    rw [hutc, hplace] at hpast hfuture
    rcases hlimit with h | h <;> linarith

/-- Every valid fix of another sentence can be trusted. -/
theorem trusted_of_valid {sentence : Text} (hr : double receivedUtc = receivedUtc)
    (hplaced : ¬ Misplaced sentence receivedMonotonic receivedUtc)
    (hparse : parseNmea sentence receivedMonotonic receivedUtc = some fix) (hvalid : fix.valid = true) :
    Trusted sentence receivedUtc fix := by
  unfold parseNmea at hparse
  obtain ⟨hrange, hparse⟩ := Option.ite_none_left_eq_some.mp hparse
  push Not at hrange
  obtain ⟨hm, hu, hu'⟩ := hrange
  obtain ⟨body, hbody, hparse⟩ := Option.bind_eq_some_iff.mp hparse
  obtain ⟨fields, hfields, hparse⟩ := Option.bind_eq_some_iff.mp hparse
  obtain ⟨kind, hkind, hparse⟩ := Option.bind_eq_some_iff.mp hparse
  obtain ⟨time, htime, hparse⟩ := Option.bind_eq_some_iff.mp hparse
  obtain ⟨-, h0, h1, hvalue⟩ := clockSeconds_spec htime
  cases kind with
  | rmc =>
    obtain ⟨date, hday, hparse⟩ := Option.bind_eq_some_iff.mp hparse
    obtain ⟨d, hd, rfl⟩ := Option.map_eq_some_iff.mp hday
    obtain ⟨reading, hreading, hparse⟩ := Option.bind_eq_some_iff.mp hparse
    cases hparse
    obtain ⟨_, _, _, _, _, rfl, hfix, hclock⟩ := fixOf_valid hvalid
    have hdate := date_spec hd
    have hmidnight : double (((sysDays d * 86400 : ℕ) : K) + time) < midnight d := by
      by_contra hlate
      have hplace := le_antisymm (double_le_midnight hdate h1) (not_lt.mp hlate)
      exact hplaced ⟨hm, ⟨hu, hu'⟩, .inr (.inl ⟨fields, time, d,
        ⟨⟨body, hbody, hfields⟩, hkind, htime, _, _, _, _, _, hreading⟩, hd,
        (midnight_le_double_iff hdate h0 h1).mp (not_lt.mp hlate), hplace ▸ hclock⟩)⟩
    have h32 : 32 ≤ receivedUtc := by
      have hfar : ((2 ^ 28 : ℕ) : K) ≤ ((sysDays d * 86400 : ℕ) : K) :=
        Nat.cast_le.mpr (by have := (isDate_seconds hdate).1; omega)
      have hlate := hfar.trans (le_double_add hdate h0)
      have := (near_of_agrees hclock).2
      norm_num only [Nat.cast_ofNat] at hlate
      linarith
    obtain ⟨hpast, hfuture⟩ := window_of_agrees hr (double_double _) h32 hclock
    obtain ⟨rfl, -⟩ := splitFields_eq_some.mp hfields
    exact trusted_rmc hm (framed_spec hbody) (sentenceKind_spec hkind) htime hd hreading rfl hfix
      hmidnight hpast hfuture
  | gga =>
    obtain ⟨reading, hreading, hparse⟩ := Option.bind_eq_some_iff.mp hparse
    cases hparse
    obtain ⟨_, _, _, _, _, rfl, hfix, hclock⟩ := fixOf_valid hvalid
    have hsentence : Positioned sentence .gga fields time :=
      ⟨⟨body, hbody, hfields⟩, hkind, htime, _, _, _, _, _, hreading⟩
    have hplace : 0 ≤ ggaUtc receivedUtc time ∧ receivedUtc - ggaUtc receivedUtc time ≤ 10 ∧
        ggaUtc receivedUtc time - receivedUtc ≤ 5 := by
      rcases le_or_gt 32 receivedUtc with h32 | h32
      · obtain ⟨hpast, hfuture⟩ := window_of_agrees hr (ggaUtc_spec hu hu' h0 h1).1 h32 hclock
        exact ⟨by linarith, hpast, hfuture⟩
      · rcases ggaUtc_early hu h32 h0 h1 hvalue with ⟨hsame, -⟩ | ⟨hbefore, -⟩
        · rw [hsame] at hclock ⊢
          by_contra hlimit
          refine hplaced ⟨hm, ⟨hu, hu'⟩, .inr (.inr ⟨fields, time, hsentence, hclock, ?_⟩)⟩
          by_contra hin
          push Not at hin
          exact hlimit ⟨h0, hin⟩
        · rw [hbefore] at hclock ⊢
          rcases h1.lt_or_eq with hlt | rfl
          · exact absurd ⟨hm, ⟨hu, hu'⟩, .inl ⟨fields, time, hsentence, hlt, hclock⟩⟩ hplaced
          · -- The end of the day is the start of 1970.
            unfold ClockDisagrees at hclock
            push Not at hclock
            rw [sub_self, sub_zero, hr] at hclock
            rw [sub_self, sub_zero, zero_sub]
            exact ⟨le_rfl, hclock.1, by linarith⟩
    obtain ⟨rfl, -⟩ := splitFields_eq_some.mp hfields
    exact trusted_gga hm hu hu' (framed_spec hbody) (sentenceKind_spec hkind) htime hreading hfix
      hplace.1 hplace.2.1 hplace.2.2

/-- **Fixes.** Every fix that is marked as valid can be trusted, exactly when the sentence is no GGA
report that the host clock places before 1970, no RMC report that rounds to the next day, and no report
that agrees with the host clock by rounding only. -/
theorem parseNmea_trusted (sentence : Text) (receivedMonotonic : K)
    (receivedUtc : { utc : K // double utc = utc }) :
    (∀ fix, parseNmea sentence receivedMonotonic receivedUtc.1 = some fix → fix.valid = true →
      Trusted sentence receivedUtc.1 fix) ↔
    ¬ Misplaced sentence receivedMonotonic receivedUtc.1 := by
  constructor
  · intro h hmisplaced
    obtain ⟨fix, hfix, hvalid, huntrusted⟩ := exists_untrusted receivedUtc.2 hmisplaced
    exact huntrusted (h fix hfix hvalid)
  · intro hplaced fix hparse hvalid
    exact trusted_of_valid receivedUtc.2 hplaced hparse hvalid

end Fix

/-! ## Three sentences -/

/-- The sentence `$GPRMC,123519,A,4807.038,N,01131.000,E,022.4,084.4,230394,003.1,W*6A`. -/
def rmcExample : Text :=
  [36, 71, 80, 82, 77, 67, 44, 49, 50, 51, 53, 49, 57, 44, 65, 44, 52, 56, 48, 55, 46, 48, 51, 56,
    44, 78, 44, 48, 49, 49, 51, 49, 46, 48, 48, 48, 44, 69, 44, 48, 50, 50, 46, 52, 44, 48, 56,
    52, 46, 52, 44, 50, 51, 48, 51, 57, 52, 44, 48, 48, 51, 46, 49, 44, 87, 42, 54, 65]

/-- The sentence `$GPGGA,235958,4807.038,N,01131.000,E,1,08,0.9,545.4,M,46.9,M,,*4A`. -/
def ggaExample : Text :=
  [36, 71, 80, 71, 71, 65, 44, 50, 51, 53, 57, 53, 56, 44, 52, 56, 48, 55, 46, 48, 51, 56, 44, 78,
    44, 48, 49, 49, 51, 49, 46, 48, 48, 48, 44, 69, 44, 49, 44, 48, 56, 44, 48, 46, 57, 44, 53,
    52, 53, 46, 52, 44, 77, 44, 52, 54, 46, 57, 44, 77, 44, 44, 42, 52, 65]

/-- The sentence `$GPRMC,235959.9999999,A,4807.038,N,01131.000,E,022.4,084.4,010126,003.1,W*7A`. -/
def midnightExample : Text :=
  [36, 71, 80, 82, 77, 67, 44, 50, 51, 53, 57, 53, 57, 46, 57, 57, 57, 57, 57, 57, 57, 44, 65, 44,
    52, 56, 48, 55, 46, 48, 51, 56, 44, 78, 44, 48, 49, 49, 51, 49, 46, 48, 48, 48, 44, 69, 44, 48,
    50, 50, 46, 52, 44, 48, 56, 52, 46, 52, 44, 48, 49, 48, 49, 50, 54, 44, 48, 48, 51, 46, 49, 44,
    87, 42, 55, 65]

theorem parseNmea_trusted_rmc : ∃ fix, parseNmea rmcExample (40 : ℚ) 764426119 = some fix ∧
    fix.valid = true ∧ Trusted rmcExample 764426119 fix := by
  have hparse : (parseNmea rmcExample (40 : ℚ) 764426119).map (·.valid) = some true := by
    decide +kernel
  obtain ⟨fix, hfix, hvalid⟩ := Option.map_eq_some_iff.mp hparse
  have hkind : ((framed rmcExample).bind (splitFields 20)).map sentenceKind = some (some .rmc) := by
    decide +kernel
  have hnames : ((framed rmcExample).bind (splitFields 20)).map (fun fields =>
      (clockSeconds (K := ℚ) (fieldAt fields 1), date (fieldAt fields 9))) =
      some (some 45319, some ⟨1994, 3, 23⟩) := by
    decide +kernel
  have hfar : ¬ 86400 - 45319 ≤ Binary64.format.ulp (midnight ⟨1994, 3, 23⟩ : ℚ) / 2 := by
    decide +kernel
  refine ⟨fix, hfix, hvalid, (parseNmea_trusted _ _ ⟨764426119, by decide +kernel⟩).mpr ?_ fix hfix hvalid⟩
  rintro ⟨-, -, ⟨fields, _, h, -⟩ | ⟨fields, time, d, h, hd, hlate, -⟩ | ⟨fields, _, h, -⟩⟩
  · obtain ⟨⟨body, hbody, hfields⟩, haddress, -, -⟩ := h
    rw [hbody, Option.bind_some, hfields, Option.map_some, haddress] at hkind
    cases hkind
  · obtain ⟨⟨body, hbody, hfields⟩, -, hclock, -⟩ := h
    rw [hbody, Option.bind_some, hfields, Option.map_some, hclock, hd] at hnames
    cases hnames
    exact hfar hlate
  · obtain ⟨⟨body, hbody, hfields⟩, haddress, -, -⟩ := h
    rw [hbody, Option.bind_some, hfields, Option.map_some, haddress] at hkind
    cases hkind

/-- Five seconds after 1970 began, a report of two seconds before is a valid fix that the store
refuses. At the midnight that ends the first day of 2026, a report of the last tenth of a microsecond of
that day is a valid fix on the second. -/
theorem parseNmea_untrusted :
    (∃ fix, parseNmea ggaExample (40 : ℚ) 5 = some fix ∧ fix.valid = true ∧
      validateFix fix ≠ .ok () ∧ ¬ Trusted ggaExample 5 fix) ∧
    ∃ fix, parseNmea midnightExample (40 : ℚ) 1767312000 = some fix ∧ fix.valid = true ∧
      calendarDay ⌊fix.utcSeconds / 86400⌋₊ = ⟨2026, 1, 2⟩ ∧
      ¬ Trusted midnightExample 1767312000 fix := by
  constructor
  · have hparse : (parseNmea ggaExample (40 : ℚ) 5).map (fun fix => (fix.valid, fix.utcSeconds)) =
        some (true, -2) := by
      decide +kernel
    obtain ⟨fix, hfix, hvalue⟩ := Option.map_eq_some_iff.mp hparse
    obtain ⟨hvalid, hutc⟩ := Prod.ext_iff.mp hvalue
    have hrefused : validateFix fix ≠ .ok () := by
      intro h
      have := utcSeconds_nonneg h
      simp only at hutc
      rw [hutc] at this
      exact absurd this (by norm_num)
    exact ⟨fix, hfix, hvalid, hrefused, fun h => hrefused h.stored⟩
  · have hparse : (parseNmea midnightExample (40 : ℚ) 1767312000).map
        (fun fix => (fix.valid, fix.utcSeconds)) = some (true, 1767312000) := by
      decide +kernel
    obtain ⟨fix, hfix, hvalue⟩ := Option.map_eq_some_iff.mp hparse
    obtain ⟨hvalid, hutc⟩ := Prod.ext_iff.mp hvalue
    simp only at hvalid hutc
    -- The sentence names the day before, with a time that the sum rounds to its end.
    have hnames : ((framed midnightExample).bind (splitFields 20)).map (fun fields =>
        (sentenceKind fields, clockSeconds (K := ℚ) (fieldAt fields 1), date (fieldAt fields 9),
          readingOf (K := ℚ) .rmc fields)) =
        some (some .rmc, some (double (863999999999 / 10 ^ 7)), some ⟨2026, 1, 1⟩,
          some (.located (481173 / 10000) (691 / 60) none none 0)) := by
      decide +kernel
    obtain ⟨fields, hfields, hnames⟩ := Option.map_eq_some_iff.mp hnames
    simp only [Prod.mk.injEq] at hnames
    obtain ⟨haddress, hclock, hd, hreading⟩ := hnames
    have hsentence : Positioned midnightExample .rmc fields (double (863999999999 / 10 ^ 7 : ℚ)) :=
      ⟨Option.bind_eq_some_iff.mp hfields, haddress, hclock, _, _, _, _, _, hreading⟩
    refine ⟨fix, hfix, hvalid, ?_, not_trusted_of_midnight hsentence hd (hutc.trans ?_)⟩
    · have hday : (1767312000 : ℚ) / 86400 = (sysDays ⟨2026, 1, 2⟩ : ℕ) := by
        rw [show sysDays ⟨2026, 1, 2⟩ = 20455 by decide]
        norm_num
      rw [hutc, hday, Nat.floor_natCast]
      exact calendarDay_sysDays (by decide) (by decide)
    · decide +kernel

end Gps

end OVMesh
