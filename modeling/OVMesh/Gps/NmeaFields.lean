import OVMesh.Gps.Nmea

/-!
# What the fields of a sentence name

The values that the text of a sentence names, and what the readers of `parseNmea` make of them.

* `Line`, `IsClock`, `IsDate`, `IsCoordinate`: a framed sentence, and the values that its fields name.
* `framed_spec`, `coordinate_spec`, `date_spec`: the readers that are exact.
* `clockSeconds_spec`: a time of the day, and the time that its field names.
-/

namespace OVMesh

namespace Gps

open Calendar

variable {K : Type} [Field K] [LinearOrder K]

/-! ## What the fields name -/

/-- One line `$…*hh` with its checksum, the text between `$` and `*` being `body`. -/
structure Line (sentence body : Text) : Prop where
  size : sentence.length ≤ 128
  form : ∃ high low ending, sentence = 36 :: body ++ [42, high, low] ++ ending ∧
    (ending = [] ∨ ending = [10] ∨ ending = [13, 10]) ∧
    Hex.isDigit high = true ∧ Hex.isDigit low = true ∧
    checksum body = 16 * Hex.value high + Hex.value low
  printable : ∀ b ∈ body, 0x20 ≤ b ∧ b ≤ 0x7e ∧ b ≠ 36 ∧ b ≠ 42

/-- The time of the day `hhmmss.ss…`. -/
def IsClock (value : Text) (time : K) : Prop :=
  ∃ hour minute second fraction : Text, value = hour ++ minute ++ second ++ pointed fraction ∧
    hour.length = 2 ∧ minute.length = 2 ∧ second.length = 2 ∧
    (hour ++ minute ++ second ++ fraction).all Decimal.isDigit = true ∧
    Decimal.value hour < 24 ∧ Decimal.value minute < 60 ∧ decimals second fraction < (60 : K) ∧
    time = 3600 * Decimal.value hour + 60 * Decimal.value minute + decimals second fraction

/-- The date `ddmmyy`, of the years from 1980 to 2079. -/
def IsDate (value : Text) (d : Date) : Prop :=
  ∃ day month year : Text, value = day ++ month ++ year ∧
    day.length = 2 ∧ month.length = 2 ∧ year.length = 2 ∧
    value.all Decimal.isDigit = true ∧ d.Ok ∧
    d.day = Decimal.value day ∧ d.month = Decimal.value month ∧
    1980 ≤ d.year ∧ d.year < 2080 ∧ d.year % 100 = Decimal.value year

/-- The angle `d…dmm.mm…`, with the sign of the hemisphere. -/
def IsCoordinate (latitude : Bool) (value direction : Text) (x : K) : Prop :=
  ∃ degrees minutes fraction : Text, value = degrees ++ minutes ++ pointed fraction ∧
    degrees.length = degreeDigits latitude ∧ minutes.length = 2 ∧
    (degrees ++ minutes ++ fraction).all Decimal.isDigit = true ∧
    decimals minutes fraction < (60 : K) ∧
    (direction = (hemispheres latitude).1 ∧
        x = Decimal.value degrees + decimals minutes fraction / 60 ∨
      direction = (hemispheres latitude).2 ∧
        x = -(Decimal.value degrees + decimals minutes fraction / 60)) ∧
    |x| ≤ degreeLimit latitude

section Fields

variable {value direction sentence body whole fraction : Text} {w : ℕ} {x : K}

/-- Two digits stand before the point. -/
theorem length_whole (hlength : w + 2 ≤ value.length)
    (hpoint : w + 2 < value.length → value[w + 2]? = some 46)
    (hdrop : value.drop w = whole ++ pointed fraction) (hwhole : digits whole = true)
    (hfraction : fraction.all Decimal.isDigit = true) : whole.length = 2 := by
  obtain ⟨hne, hdigits⟩ := digits_iff.mp hwhole
  have hpos := List.length_pos_iff.mpr hne
  have hsize := congrArg List.length hdrop
  rw [List.length_drop, List.length_append] at hsize
  have hthird (h : w + 2 < value.length) : (whole ++ pointed fraction)[2]? = some 46 := by
    rw [← hdrop, List.getElem?_drop]
    exact hpoint h
  have hdot : Decimal.isDigit 46 = false := rfl
  by_contra hne2
  rcases Nat.lt_or_ge 2 whole.length with hlong | hshort
  · have := hthird (by omega)
    rw [List.getElem?_append_left hlong] at this
    have := List.all_eq_true.mp hdigits _ (List.mem_of_getElem? this)
    rw [hdot] at this
    cases this
  · have hone : whole.length = 1 := by omega
    have hfr : fraction ≠ [] := by
      rintro rfl
      rw [pointed, if_pos rfl, List.length_nil] at hsize
      omega
    rw [pointed, if_neg hfr, List.length_cons] at hsize
    have hlen := List.length_pos_iff.mpr hfr
    have := hthird (by omega)
    rw [List.getElem?_append_right (by omega), hone, pointed, if_neg hfr,
      List.getElem?_cons_succ] at this
    have := List.all_eq_true.mp hfraction _ (List.mem_of_getElem? this)
    rw [hdot] at this
    cases this

variable [IsStrictOrderedRing K]

/-- What stands behind a number of digits of a field is `mm.mm…`. -/
theorem decimal_drop (hlength : w + 2 ≤ value.length)
    (hpoint : w + 2 < value.length → value[w + 2]? = some 46)
    (h : decimal id (value.drop w) false = some x) :
    ∃ whole fraction, value = value.take w ++ whole ++ pointed fraction ∧ whole.length = 2 ∧
      (whole ++ fraction).all Decimal.isDigit = true ∧ x = decimals whole fraction := by
  obtain ⟨whole, fraction, hdrop, hwhole, hfraction, hx⟩ := decimal_id h
  refine ⟨whole, fraction, ?_, length_whole hlength hpoint hdrop hwhole hfraction, ?_, hx⟩
  · rw [List.append_assoc, ← hdrop, List.take_append_drop]
  · rw [List.all_append, (digits_iff.mp hwhole).2, hfraction]
    rfl

theorem coordinate_spec {latitude : Bool} (h : coordinate value direction latitude = some x) :
    IsCoordinate latitude value direction x := by
  unfold coordinate at h
  simp only at h
  split at h
  · cases h
  rename_i hform
  push Not at hform
  obtain ⟨degree, hdegree, h⟩ := Option.bind_eq_some_iff.mp h
  obtain ⟨minute, hminute, h⟩ := Option.bind_eq_some_iff.mp h
  obtain ⟨hdigits, -, hvalue, hlimit⟩ := integer_eq_some.mp hdegree
  obtain ⟨minutes, fraction, heq, hlength, hall, rfl⟩ := decimal_drop hform.1 hform.2 hminute
  have hnonneg : (0 : K) ≤ decimals minutes fraction := decimals_nonneg _ _
  split at h
  · cases h
  rename_i hrange
  push Not at hrange
  have hbound : (degree : K) + decimals minutes fraction / 60 ≤ degreeLimit latitude := by
    rcases hlimit.eq_or_lt with heq | hlt
    · rw [hrange.2 heq, heq, zero_div, add_zero]
    · have : ((degree + 1 : ℕ) : K) ≤ degreeLimit latitude := Nat.cast_le.mpr hlt
      push_cast at this
      linarith [hrange.1]
  have hdegree0 : (0 : K) ≤ degree := Nat.cast_nonneg _
  refine ⟨value.take (degreeDigits latitude), minutes, fraction, heq, ?_, hlength, ?_, hrange.1, ?_⟩
  · rw [List.length_take]
    omega
  · rw [List.append_assoc, List.all_append, (digits_iff.mp hdigits).2, hall]
    rfl
  · rw [hvalue]
    split at h <;> rename_i hnegative
    · cases h
      refine ⟨.inr ⟨hnegative, rfl⟩, ?_⟩
      rw [abs_neg, abs_of_nonneg (by positivity)]
      exact hbound
    · split at h <;> rename_i hpositive
      · cases h
      · cases h
        refine ⟨.inl ⟨not_not.mp hpositive, rfl⟩, ?_⟩
        rw [abs_of_nonneg (by positivity)]
        exact hbound

/-- The times of a day. -/
theorem clockSeconds_spec [FloorRing K] (h : clockSeconds value = some x) :
    (∃ named, IsClock value named ∧ |x - named| ≤ 1 / 10 ^ 10) ∧ 0 ≤ x ∧ x ≤ 86400 ∧ double x = x := by
  unfold clockSeconds at h
  split at h
  · cases h
  rename_i hform
  push Not at hform
  obtain ⟨hour, hhour, h⟩ := Option.bind_eq_some_iff.mp h
  obtain ⟨minute, hminute, h⟩ := Option.bind_eq_some_iff.mp h
  obtain ⟨second, hsecond, h⟩ := Option.bind_eq_some_iff.mp h
  obtain ⟨hdigits, -, hvalue, hlimit⟩ := integer_eq_some.mp hhour
  obtain ⟨hdigits', -, hvalue', hlimit'⟩ := integer_eq_some.mp hminute
  obtain ⟨seconds, fraction, hdrop, hwhole, hfraction, -, hle, herror⟩ := decimal_double hsecond
  have hlength := length_whole (w := 4) hform.1 hform.2.2 hdrop hwhole hfraction
  have herror := abs_le.mp (herror hlength)
  split at h <;> rename_i hrange
  · cases h
  cases h
  rw [ge_iff_le, not_le] at hrange
  have hseconds : Decimal.value seconds < 60 := by exact_mod_cast hle.trans_lt hrange
  have hcast : (Decimal.value seconds : K) ≤ 59 := by exact_mod_cast Nat.le_of_lt_succ hseconds
  have hnonneg : (0 : K) ≤ Decimal.value seconds := Nat.cast_nonneg _
  have hpart : (Decimal.value fraction : K) / 10 ^ fraction.length < 1 := by
    rw [div_lt_one (by positivity)]
    exact_mod_cast Decimal.value_lt hfraction
  have hday : hour * 3600 + minute * 60 ≤ 86340 := by omega
  have hday' : ((hour * 3600 + minute * 60 : ℕ) : K) ≤ 86340 := by exact_mod_cast hday
  have hday0 : (0 : K) ≤ ((hour * 3600 + minute * 60 : ℕ) : K) := Nat.cast_nonneg _
  have hround := abs_le.mp (abs_double_sub_le (e := -37)
    (x := ((hour * 3600 + minute * 60 : ℕ) : K) + second) 17 rfl (by norm_num) (by
      rw [abs_of_nonneg (by linarith)]
      exact lt_of_lt_of_le (b := (86400 : K)) (by linarith) (by norm_num)))
  -- Rounding is monotone and midnight is a double, so the second stays within the day.
  have htop : double (((hour * 3600 + minute * 60 : ℕ) : K) + second) ≤ 86400 := by
    have hmidnight : double ((86400 : ℕ) : K) = (86400 : ℕ) := double_natCast (by norm_num)
    have := double_mono (show ((hour * 3600 + minute * 60 : ℕ) : K) + second ≤ ((86400 : ℕ) : K) by
      push_cast at hday' ⊢
      linarith)
    rw [hmidnight] at this
    exact_mod_cast this
  have htake : value.take 4 = value.take 2 ++ (value.drop 2).take 2 := List.take_add (i := 2) (j := 2)
  refine ⟨⟨((hour * 3600 + minute * 60 : ℕ) : K) + decimals seconds fraction,
    ⟨value.take 2, (value.drop 2).take 2, seconds, fraction, ?_, ?_, ?_, hlength, ?_, ?_, ?_, ?_, ?_⟩,
    ?_⟩, double_nonneg (by linarith), htop, double_double _⟩
  · rw [← htake, List.append_assoc, ← hdrop, List.take_append_drop]
  · rw [List.length_take]
    omega
  · rw [List.length_take, List.length_drop]
    omega
  · rw [List.append_assoc, List.all_append, List.all_append, List.all_append, (digits_iff.mp hdigits).2,
      (digits_iff.mp hdigits').2, (digits_iff.mp hwhole).2, hfraction]
    rfl
  · omega
  · omega
  · unfold decimals
    linarith
  · rw [hvalue, hvalue']
    push_cast
    ring
  · norm_num at hround herror
    rw [abs_le]
    norm_num at hround herror ⊢
    constructor <;> linarith

omit [Field K] [LinearOrder K] [IsStrictOrderedRing K] in
theorem date_spec {d : Date} (h : date value = some d) : IsDate value d := by
  unfold date at h
  split at h
  · cases h
  rename_i hform
  push Not at hform
  obtain ⟨day, hday, h⟩ := Option.bind_eq_some_iff.mp h
  obtain ⟨month, hmonth, h⟩ := Option.bind_eq_some_iff.mp h
  obtain ⟨year, hyear, h⟩ := Option.bind_eq_some_iff.mp h
  obtain ⟨-, -, hday, -⟩ := integer_eq_some.mp hday
  obtain ⟨-, -, hmonth, -⟩ := integer_eq_some.mp hmonth
  obtain ⟨-, -, hyear, hlimit⟩ := integer_eq_some.mp hyear
  obtain ⟨-, h⟩ := Option.ite_none_left_eq_some.mp h
  obtain ⟨hok, h⟩ := Option.ite_none_right_eq_some.mp h
  cases h
  refine ⟨value.take 2, (value.drop 2).take 2, (value.drop 4).take 2, ?_, ?_, ?_, ?_,
    (digits_iff.mp hform.2).2, hok, hday.symm, hmonth.symm, ?_⟩
  · have hlast : (value.drop 4).take 2 = value.drop 4 := by
      rw [List.take_of_length_le]
      rw [List.length_drop]
      omega
    have htake : value.take 4 = value.take 2 ++ (value.drop 2).take 2 :=
      List.take_add (i := 2) (j := 2)
    rw [hlast, ← htake, List.take_append_drop]
  · rw [List.length_take]
    omega
  · rw [List.length_take, List.length_drop]
    omega
  · rw [List.length_take, List.length_drop]
    omega
  · rw [hyear]
    dsimp only
    split <;> omega

/-! ## The sentence -/

theorem withoutLineEnd_spec (sentence : Text) : ∃ ending,
    sentence = withoutLineEnd sentence ++ ending ∧ (ending = [] ∨ ending = [10] ∨ ending = [13, 10]) := by
  unfold withoutLineEnd
  split <;> rename_i hcrlf
  · obtain ⟨front, rfl⟩ := List.isSuffixOf_iff_suffix.mp hcrlf
    exact ⟨[13, 10], by simp, .inr (.inr rfl)⟩
  · split <;> rename_i hlf
    · obtain ⟨front, rfl⟩ := List.isSuffixOf_iff_suffix.mp hlf
      exact ⟨[10], by simp, .inr (.inl rfl)⟩
    · exact ⟨[], by simp, .inl rfl⟩

theorem hex_eq_some {c : UInt8} {n : ℕ} : hex c = some n ↔ Hex.isDigit c = true ∧ Hex.value c = n := by
  unfold hex
  split <;> rename_i h <;> simp [h]

theorem framed_spec (h : framed sentence = some body) : Line sentence body := by
  unfold framed at h
  split at h
  · cases h
  rename_i hsize
  obtain ⟨ending, hending, hkind⟩ := withoutLineEnd_spec sentence
  simp only at h
  generalize withoutLineEnd sentence = text at h hending
  split at h
  · cases h
  rename_i hhead
  push Not at hhead
  split at h
  · cases h
  rename_i hstar
  push Not at hstar
  obtain ⟨high, hhigh, h⟩ := Option.bind_eq_some_iff.mp h
  obtain ⟨low, hlow, h⟩ := Option.bind_eq_some_iff.mp h
  obtain ⟨hhighDigit, rfl⟩ := hex_eq_some.mp hhigh
  obtain ⟨hlowDigit, rfl⟩ := hex_eq_some.mp hlow
  split at h
  · cases h
  rename_i hprintable
  split at h
  · cases h
  rename_i hchecksum
  cases h
  have hfound : text.idxOf 42 < text.length := by omega
  -- The star and the two digits end the text.
  have hstarAt : text[text.idxOf 42] = 42 := List.getElem_idxOf hfound
  have htail : text.drop (text.idxOf 42) =
      [42, text.getD (text.idxOf 42 + 1) 0, text.getD (text.idxOf 42 + 2) 0] := by
    refine List.ext_getElem (by simp; omega) fun i hi hi' => ?_
    rw [List.getElem_drop]
    have hi3 : i < 3 := hi'
    interval_cases i
    · exact hstarAt
    · simp [List.getD, List.getElem?_eq_getElem (show text.idxOf 42 + 1 < text.length by omega)]
    · simp [List.getD, List.getElem?_eq_getElem (show text.idxOf 42 + 2 < text.length by omega)]
  have hfront : text.take (text.idxOf 42) = 36 :: (text.take (text.idxOf 42)).drop 1 := by
    cases text with
    | nil => simp at hstar
    | cons b rest =>
      have hb : b = 36 := by simpa using hhead.2
      rw [hb, List.idxOf_cons_ne _ (by decide), List.take_succ_cons]
      rfl
  have hstarless : (42 : UInt8) ∉ text.take (text.idxOf 42) := by
    intro hmem
    have hin : (42 : UInt8) ∈ text := List.mem_of_mem_take hmem
    exact lt_irrefl _ ((List.mem_take_iff_idxOf_lt hin).mp hmem)
  refine ⟨not_lt.mp hsize, ⟨_, _, ending, ?_, hkind, hhighDigit, hlowDigit, ?_⟩, fun b hb => ?_⟩
  · rw [← hfront, ← htail, List.take_append_drop]
    exact hending
  · rw [not_not.mp hchecksum, ← Nat.shiftLeft_add_eq_or_of_lt (Hex.value_lt hlowDigit), Nat.shiftLeft_eq]
    omega
  · have := List.any_eq_false.mp (Bool.eq_false_iff.mpr hprintable) b hb
    simp only [Bool.or_eq_true, decide_eq_true_eq, beq_iff_eq, not_or] at this
    refine ⟨UInt8.not_lt.mp this.1.1, UInt8.not_lt.mp this.1.2, this.2, ?_⟩
    rintro rfl
    exact hstarless (List.mem_of_mem_drop hb)

end Fields

end Gps

end OVMesh
