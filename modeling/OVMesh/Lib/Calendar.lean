import OVMesh.Lib.Numerals

/-!
# The Gregorian calendar

The calendar dates from 1970 on, and the number of days since 1970-01-01, as `sys_days` counts them.

* `Date`, `Date.Ok`: a year, a month and a day, and the dates that there are.
* `Date.next`, `calendarDay`: the next day, and the date some days after 1970-01-01.
* `sysDays`: the days from 1970-01-01 to a date.
* `calendarDay_sysDays`: that many days later it is the date.
-/

namespace OVMesh

namespace Calendar

/-- `year_month_day`: a date, which need not be in the calendar. -/
structure Date where
  year : ℕ
  month : ℕ
  day : ℕ
  deriving DecidableEq, Repr

/-- A leap year. -/
def IsLeap (year : ℕ) : Prop := year % 4 = 0 ∧ (year % 100 ≠ 0 ∨ year % 400 = 0)

instance (year : ℕ) : Decidable (IsLeap year) := inferInstanceAs (Decidable (_ ∧ _))

/-- The days of a month. -/
def monthLength (year month : ℕ) : ℕ :=
  if month = 2 then if IsLeap year then 29 else 28
  else if month = 4 ∨ month = 6 ∨ month = 9 ∨ month = 11 then 30
  else 31

/-- The days of a year. -/
def yearLength (year : ℕ) : ℕ := if IsLeap year then 366 else 365

namespace Date

/-- `year_month_day::ok`: the date is in the calendar. -/
def Ok (d : Date) : Prop :=
  1 ≤ d.month ∧ d.month ≤ 12 ∧ 1 ≤ d.day ∧ d.day ≤ monthLength d.year d.month

instance (d : Date) : Decidable d.Ok := inferInstanceAs (Decidable (_ ∧ _))

/-- The next day. -/
def next (d : Date) : Date :=
  if d.day < monthLength d.year d.month then { d with day := d.day + 1 }
  else if d.month < 12 then ⟨d.year, d.month + 1, 1⟩
  else ⟨d.year + 1, 1, 1⟩

/-- The day before. -/
def previous (d : Date) : Date :=
  if 1 < d.day then { d with day := d.day - 1 }
  else if 1 < d.month then ⟨d.year, d.month - 1, monthLength d.year (d.month - 1)⟩
  else ⟨d.year - 1, 12, 31⟩

end Date

/-- The days of the years from 1970 up to a year. -/
def daysBeforeYear (year : ℕ) : ℕ := ((List.range (year - 1970)).map fun k => yearLength (1970 + k)).sum

/-- The days of the months of a year before a month. -/
def daysBeforeMonth (year month : ℕ) : ℕ :=
  ((List.range (month - 1)).map fun k => monthLength year (k + 1)).sum

/-- `sys_days`: the days since 1970-01-01. -/
def sysDays (d : Date) : ℕ := daysBeforeYear d.year + daysBeforeMonth d.year d.month + (d.day - 1)

/-- The date so many days after 1970-01-01. -/
def calendarDay (n : ℕ) : Date := Date.next^[n] ⟨1970, 1, 1⟩

theorem monthLength_pos (year month : ℕ) : 1 ≤ monthLength year month := by
  unfold monthLength
  split_ifs <;> omega

theorem daysBeforeYear_succ {year : ℕ} (h : 1970 ≤ year) :
    daysBeforeYear (year + 1) = daysBeforeYear year + yearLength year := by
  unfold daysBeforeYear
  rw [Nat.sub_add_comm h, List.range_succ, List.map_append, List.sum_append, List.map_singleton,
    List.sum_singleton, Nat.add_sub_cancel' h]

theorem daysBeforeMonth_succ {year month : ℕ} (h : 1 ≤ month) :
    daysBeforeMonth year (month + 1) = daysBeforeMonth year month + monthLength year month := by
  obtain ⟨k, rfl⟩ := Nat.exists_eq_add_of_le' h
  rw [daysBeforeMonth, Nat.add_sub_cancel, List.range_succ, List.map_append, List.sum_append,
    List.map_singleton, List.sum_singleton]
  rfl

/-- December ends with the year. -/
theorem daysBeforeMonth_december (year : ℕ) :
    daysBeforeMonth year 12 + monthLength year 12 = yearLength year := by
  by_cases h : IsLeap year
  · simp [daysBeforeMonth, List.range_succ, monthLength, yearLength, h]
  · simp [daysBeforeMonth, List.range_succ, monthLength, yearLength, h]

theorem monthLength_le (year month : ℕ) : monthLength year month ≤ 31 := by
  unfold monthLength
  split_ifs <;> omega

/-- The days since 1970-01-01, from the number of the years. -/
theorem sysDays_bounds {d : Date} (h : d.Ok) :
    365 * (d.year - 1970) ≤ sysDays d ∧ sysDays d < 366 * (d.year - 1970) + 372 := by
  obtain ⟨-, hm, -, hd⟩ := h
  have hlow : 365 * (d.year - 1970) ≤ daysBeforeYear d.year := by
    have := List.card_nsmul_le_sum
      ((List.range (d.year - 1970)).map fun k => yearLength (1970 + k)) 365 (by
        intro n hn
        obtain ⟨k, -, rfl⟩ := List.mem_map.mp hn
        unfold yearLength
        split_ifs <;> omega)
    rwa [List.length_map, List.length_range, smul_eq_mul, mul_comm] at this
  have hhigh : daysBeforeYear d.year ≤ 366 * (d.year - 1970) := by
    have := List.sum_le_card_nsmul
      ((List.range (d.year - 1970)).map fun k => yearLength (1970 + k)) 366 (by
        intro n hn
        obtain ⟨k, -, rfl⟩ := List.mem_map.mp hn
        unfold yearLength
        split_ifs <;> omega)
    rwa [List.length_map, List.length_range, smul_eq_mul, mul_comm] at this
  have hmonths : daysBeforeMonth d.year d.month ≤ (d.month - 1) * 31 := by
    have := List.sum_le_card_nsmul
      ((List.range (d.month - 1)).map fun k => monthLength d.year (k + 1)) 31 (by
        intro n hn
        obtain ⟨k, -, rfl⟩ := List.mem_map.mp hn
        exact monthLength_le _ _)
    rwa [List.length_map, List.length_range, smul_eq_mul] at this
  have := hd.trans (monthLength_le _ _)
  unfold sysDays
  omega

/-- The next day is counted one higher. -/
theorem sysDays_next {d : Date} (h : d.Ok) (hyear : 1970 ≤ d.year) :
    sysDays d.next = sysDays d + 1 := by
  obtain ⟨hm, hm', hd, hd'⟩ := h
  unfold Date.next
  by_cases hday : d.day < monthLength d.year d.month
  · rw [if_pos hday]
    simp only [sysDays]
    omega
  · have hlast : d.day = monthLength d.year d.month := by omega
    rw [if_neg hday]
    by_cases hmonth : d.month < 12
    · rw [if_pos hmonth]
      simp only [sysDays, daysBeforeMonth_succ hm]
      omega
    · have hdecember : d.month = 12 := by omega
      have := daysBeforeMonth_december d.year
      have hone : daysBeforeMonth (d.year + 1) 1 = 0 := rfl
      rw [if_neg hmonth]
      simp only [sysDays, daysBeforeYear_succ hyear, hone]
      rw [hlast, hdecember]
      have := monthLength_pos d.year 12
      omega

/-- A date after 1970-01-01 is the next day of the day before. -/
theorem next_previous {d : Date} (h : d.Ok) (hyear : 1970 ≤ d.year)
    (hne : d ≠ ⟨1970, 1, 1⟩) :
    d.previous.Ok ∧ 1970 ≤ d.previous.year ∧ d.previous.next = d := by
  obtain ⟨year, month, day⟩ := d
  obtain ⟨hm, hm', hd, hd'⟩ := h
  simp only at hm hm' hd hd' hyear
  unfold Date.previous
  by_cases hday : 1 < day
  · have hlt : day - 1 < monthLength year month := by omega
    rw [if_pos hday]
    refine ⟨⟨hm, hm', by dsimp only; omega, hlt.le⟩, hyear, ?_⟩
    rw [Date.next, if_pos hlt]
    congr 1
    dsimp only
    omega
  · have hone : day = 1 := by omega
    rw [if_neg hday, hone]
    by_cases hmonth : 1 < month
    · rw [if_pos hmonth]
      refine ⟨⟨by dsimp only; omega, by dsimp only; omega, monthLength_pos _ _, le_rfl⟩, hyear, ?_⟩
      have hlt : month - 1 < 12 := by omega
      rw [Date.next, if_neg (Nat.lt_irrefl _), if_pos hlt, Nat.sub_add_cancel hm]
    · have hjanuary : month = 1 := by omega
      rw [if_neg hmonth, hjanuary]
      have hlater : 1970 < year := by
        rcases hyear.eq_or_lt with heq | hlt
        · rw [hone, hjanuary, ← heq] at hne
          exact absurd rfl hne
        · exact hlt
      have hdecember (y : ℕ) : monthLength y 12 = 31 := rfl
      refine ⟨⟨by simp, le_rfl, by simp, (hdecember _).ge⟩, by dsimp only; omega, ?_⟩
      rw [Date.next, hdecember, if_neg (Nat.lt_irrefl _), if_neg (Nat.lt_irrefl _),
        Nat.sub_add_cancel (Nat.one_le_of_lt hlater)]

/-- The days since 1970-01-01 lead from there to the date. -/
theorem calendarDay_sysDays {d : Date} (h : d.Ok) (hyear : 1970 ≤ d.year) :
    calendarDay (sysDays d) = d := by
  induction hn : sysDays d generalizing d with
  | zero =>
    by_contra hne
    obtain ⟨hok, hyear', hnext⟩ := next_previous h hyear (Ne.symm hne)
    have := sysDays_next hok hyear'
    rw [hnext] at this
    omega
  | succ n ih =>
    have hne : d ≠ ⟨1970, 1, 1⟩ := by
      rintro rfl
      exact (Nat.succ_ne_zero n) hn.symm
    obtain ⟨hok, hyear', hnext⟩ := next_previous h hyear hne
    have hstep := sysDays_next hok hyear'
    rw [hnext] at hstep
    have hbefore := ih hok hyear' (by omega)
    rw [calendarDay, Function.iterate_succ_apply', ← calendarDay, hbefore, hnext]

example : sysDays ⟨2024, 2, 29⟩ = 19782 := by decide

end Calendar

end OVMesh
