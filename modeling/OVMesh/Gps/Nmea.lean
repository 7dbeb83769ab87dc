import OVMesh.Gps.Receiver
import OVMesh.Lib.Calendar
import OVMesh.Lib.Hex
import OVMesh.Store.Saved

/-!
# NMEA sentences

`parse_nmea` of `gps.cpp` over a field. The times are doubles: every operation on them rounds, as the day
a time falls on depends on it. The coordinates, the altitude and the dilution are exact numbers. A field
beyond the last one is empty, as the array of the source has it.

* `double`: the rounding of a time.
* `integer`, `decimal`, `clockSeconds`, `dateSeconds`, `coordinate`: the readers of a field.
* `framed`, `splitFields`, `sentenceKind`: the checked sentence and its fields.
* `rmcReading`, `ggaReading`: the position of the fields, or why there is none.
* `parseNmea`: the fix of a sentence.
* `integer_eq_some`, `decimal_spec`, `splitFields_eq_some`: what the readers accept.
* `decimal_id`, `decimal_double`: an exact number, and the error of a rounded number.
-/

namespace OVMesh

namespace Gps

open Calendar

/-! ## Numbers -/

/-- The longest sentence that is kept. -/
def maximumSentence : ℕ := 128

/-- `digits`: the text has digits only, and at least one. -/
def digits (value : Text) : Bool := !value.isEmpty && value.all Decimal.isDigit

/-- `integer`: at most nine digits, for a number that is at most `maximum`. -/
def integer (value : Text) (maximum : ℕ) : Option ℕ :=
  if ¬ digits value ∨ value.length > 9 then none
  else value.foldlM (fun result c =>
    let result := result * 10 + (c.toNat - 48)
    if result > maximum then none else some result) 0

section Readers

variable {K : Type} [Field K]

/-- The loop over the digits behind the point, with `result` and `scale`. Every operation rounds, by
`rnd`. -/
def fractionLoop (rnd : K → K) : K → K → Text → K
  | result, _, [] => result
  | result, scale, c :: rest =>
    fractionLoop rnd (rnd (result + rnd (((c.toNat - 48 : ℕ) : K) * scale)))
      (rnd (scale * rnd (1 / 10))) rest

/-- `decimal`, behind the sign. -/
def unsignedDecimal (rnd : K → K) (value : Text) : Option K :=
  let whole := value.takeWhile (· != 46)
  if ¬ digits whole ∨ whole.length > 9 then none
  else
    let result : K :=
      whole.foldl (fun result c => rnd (rnd (result * 10) + ((c.toNat - 48 : ℕ) : K))) 0
    match value.dropWhile (· != 46) with
    | [] => some result
    | _ :: fraction =>
      if ¬ digits fraction ∨ fraction.length > 12 then none
      else some (fractionLoop rnd result (rnd (1 / 10)) fraction)

/-- `decimal`, in an arithmetic that rounds by `rnd`. -/
def decimal (rnd : K → K) (value : Text) (signedValue : Bool) : Option K :=
  if value = [] ∨ value.length > 24 then none
  else if value.head? = some 45 ∧ signedValue then (unsignedDecimal rnd value.tail).map (· * -1)
  else unsignedDecimal rnd value

variable [LinearOrder K]

/-- The `double` of a time. -/
def double [FloorRing K] (x : K) : K := Binary64.format.nearest x

/-- A leap second is no time of the day. -/
def clockSeconds [FloorRing K] (value : Text) : Option K :=
  if value.length < 6 ∨ ¬ digits (value.take 6) ∨ value.length > 6 ∧ value[6]? ≠ some 46 then none
  else do
    let hour ← integer (value.take 2) 23
    let minute ← integer ((value.drop 2).take 2) 59
    let second : K ← decimal double (value.drop 4) false
    if second ≥ 60 then none else some (double (((hour * 3600 + minute * 60 : ℕ) : K) + second))

/-- The date that `date_seconds` reads. The years are pivoted at 1980. -/
def date (date : Text) : Option Date :=
  if date.length ≠ 6 ∨ ¬ digits date then none
  else do
    let day ← integer (date.take 2) 31
    let month ← integer ((date.drop 2).take 2) 12
    let year ← integer ((date.drop 4).take 2) 99
    if day = 0 ∨ month = 0 then none
    else
      let ymd : Date := ⟨if year ≥ 80 then 1900 + year else 2000 + year, month, day⟩
      if ymd.Ok then some ymd else none

omit [LinearOrder K] in
/-- `date_seconds`. The days are whole, and their seconds are doubles. -/
def dateSeconds (text : Text) : Option K := (date text).map fun ymd => ((sysDays ymd * 86400 : ℕ) : K)

/-- The digits of the degrees. -/
def degreeDigits (latitude : Bool) : ℕ := if latitude then 2 else 3

/-- The largest degree. -/
def degreeLimit (latitude : Bool) : ℕ := if latitude then 90 else 180

/-- The letters of the hemispheres, the positive one first. -/
def hemispheres (latitude : Bool) : Text × Text :=
  if latitude then (ascii "N", ascii "S") else (ascii "E", ascii "W")

/-- `coordinate`: degrees and minutes in one number, with the letter of the hemisphere. -/
def coordinate (value direction : Text) (latitude : Bool) : Option K :=
  let width := degreeDigits latitude
  if value.length < width + 2 ∨ value.length > width + 2 ∧ value[width + 2]? ≠ some 46 then none
  else do
    let degree ← integer (value.take width) (degreeLimit latitude)
    let minute : K ← decimal id (value.drop width) false
    if minute ≥ 60 ∨ degree = degreeLimit latitude ∧ minute ≠ 0 then none
    else
      let result := (degree : K) + minute / 60
      if direction = (hemispheres latitude).2 then some (-result)
      else if direction ≠ (hemispheres latitude).1 then none
      else some result

/-! ## Sentences -/

/-- `hex`, where a byte that is no digit has no value. -/
def hex (c : UInt8) : Option ℕ := if Hex.isDigit c then some (Hex.value c) else none

/-- `checksum`: the exclusive or of the bytes. -/
def checksum (body : Text) : ℕ := body.foldl (fun checksum c => checksum ^^^ c.toNat) 0

/-- The sentence without its line end. -/
def withoutLineEnd (sentence : Text) : Text :=
  if [13, 10].isSuffixOf sentence then sentence.take (sentence.length - 2)
  else if [10].isSuffixOf sentence then sentence.take (sentence.length - 1)
  else sentence

/-- The checked text between `$` and `*`. The index of a missing `*` is the length. -/
def framed (sentence : Text) : Option Text :=
  if sentence.length > maximumSentence then none
  else
    let sentence := withoutLineEnd sentence
    if sentence.length < 10 ∨ sentence.head? ≠ some 36 then none
    else
      let star := sentence.idxOf 42
      if star + 3 ≠ sentence.length then none
      else do
        let h ← hex (sentence.getD (star + 1) 0)
        let l ← hex (sentence.getD (star + 2) 0)
        let body := (sentence.take star).drop 1
        if body.any (fun c => c < 0x20 || c > 0x7e || c == 36) then none
        else if checksum body ≠ h <<< 4 ||| l then none
        else some body

/-- The loop over the fields, with room for so many more. -/
def splitFields : ℕ → Text → Option (List Text)
  | 0, _ => none
  | room + 1, body =>
    match body.dropWhile (· != 44) with
    | [] => some [body.takeWhile (· != 44)]
    | _ :: rest => (splitFields room rest).map (body.takeWhile (· != 44) :: ·)

/-- A field, as the array of the source has it. -/
def fieldAt (fields : List Text) (i : ℕ) : Text := fields.getD i []

/-- `SentenceKind`: the sentences that are read. -/
inductive SentenceKind
  | rmc | gga
  deriving DecidableEq

/-- The kind of a sentence: a talker of two bytes, the first ones capital letters, and a formatter. -/
def sentenceKind (fields : List Text) : Option SentenceKind :=
  let address := fieldAt fields 0
  let capital (c : UInt8) : Bool := 65 ≤ c && c ≤ 90
  if address.length ≠ 5 ∨ ¬ capital (address.getD 0 0) ∨ ¬ capital (address.getD 1 0) then none
  else if address.drop 2 = ascii "RMC" then
    if fields.length < 12 ∨ fields.length > 14 then none else some .rmc
  else if address.drop 2 = ascii "GGA" then
    if fields.length ≠ 15 then none else some .gga
  else none

/-- What the fields of a sentence say of the position: nothing, with the reason, or where it is. -/
inductive Reading (K : Type)
  | refused (reason : String)
  | located (latitude longitude : K) (altitudeM hdop : Option K) (satellites : ℕ)
  deriving DecidableEq

/-- The branch of an RMC sentence. -/
def rmcReading (fields : List Text) : Option (Reading K) :=
  if fieldAt fields 2 ≠ ascii "A" ∧ fieldAt fields 2 ≠ ascii "V" then none
  else if fieldAt fields 2 = ascii "V" then some (.refused "receiver reports invalid fix")
  else if fields.length > 12 ∧ fieldAt fields 12 ≠ [] ∧
      fieldAt fields 12 ∉ [ascii "A", ascii "D", ascii "F", ascii "P", ascii "R"] then
    some (.refused "unsupported or invalid navigation mode")
  else if fields.length > 13 ∧ fieldAt fields 13 ≠ [] ∧
      fieldAt fields 13 ∉ [ascii "A", ascii "D", ascii "V"] then
    some (.refused "invalid navigation status")
  else do
    let latitude ← coordinate (fieldAt fields 3) (fieldAt fields 4) true
    let longitude ← coordinate (fieldAt fields 5) (fieldAt fields 6) false
    some (.located latitude longitude none none 0)

/-- The altitude of a GGA sentence, when it has one. -/
def ggaAltitude (fields : List Text) : Option (Option K) :=
  if fieldAt fields 9 = [] then some none
  else do
    let altitude : K ← decimal id (fieldAt fields 9) true
    if altitude < -12000 ∨ altitude > 100000 ∨ fieldAt fields 10 ≠ ascii "M" then none
    else some (some altitude)

/-- The branch of a GGA sentence. -/
def ggaReading (fields : List Text) : Option (Reading K) := do
  let quality ← integer (fieldAt fields 6) 8
  if quality = 0 then some (.refused "receiver reports no fix")
  else if quality > 5 then some (.refused "estimated/manual/simulated fix excluded")
  else do
    let latitude ← coordinate (fieldAt fields 2) (fieldAt fields 3) true
    let longitude ← coordinate (fieldAt fields 4) (fieldAt fields 5) false
    let satellites ← integer (fieldAt fields 7) 99
    let hdop : K ← decimal id (fieldAt fields 8) false
    if satellites = 0 ∨ hdop > 1000 then none
    else do
      let altitude ← ggaAltitude fields
      some (.located latitude longitude altitude (some hdop) satellites)

variable [FloorRing K]

/-- The host clock and a sentence disagree: the sentence is stale or of the future. -/
def ClockDisagrees (receivedUtc utc : K) : Prop :=
  double (receivedUtc - utc) > 10 ∨ double (utc - receivedUtc) > 5

instance (receivedUtc utc : K) : Decidable (ClockDisagrees receivedUtc utc) :=
  inferInstanceAs (Decidable (_ ∨ _))

/-- The fix of a reading, and its comparison with the host clock. -/
def fixOf (source : Text) (utc receivedMonotonic receivedUtc : K) : Reading K → PositionFix K
  | .refused reason =>
    SerialGps.invalidate
      ⟨0, 0, none, utc, receivedMonotonic, false, false, source, none, 0⟩ reason
  | .located latitude longitude altitudeM hdop satellites =>
    let fix : PositionFix K :=
      ⟨latitude, longitude, altitudeM, utc, receivedMonotonic, true, false, source, hdop, satellites⟩
    if ClockDisagrees receivedUtc utc then
      SerialGps.invalidate fix "stale/future sentence or host clock disagreement"
    else fix

/-- The time of a GGA sentence, on the nearest day. -/
def ggaUtc (receivedUtc time : K) : K :=
  let day : K := (⌊double (receivedUtc / 86400)⌋ : K) * 86400
  let utc := double (day + time)
  let utc := if double (utc - receivedUtc) > 43200 then double (utc - 86400) else utc
  if double (receivedUtc - utc) > 43200 then double (utc + 86400) else utc

/-- `parse_nmea`, for finite times. -/
def parseNmea (sentence : Text) (receivedMonotonic receivedUtc : K) : Option (PositionFix K) :=
  if receivedMonotonic < 0 ∨ receivedUtc < 0 ∨ receivedUtc > 4102444800 then none
  else do
    let body ← framed sentence
    let fields ← splitFields 20 body
    let kind ← sentenceKind fields
    let time : K ← clockSeconds (fieldAt fields 1)
    match kind with
    | .rmc => do
      let date ← dateSeconds (fieldAt fields 9)
      let reading ← rmcReading fields
      some (fixOf (ascii "NMEA RMC; GNSS UTC") (double (date + time)) receivedMonotonic receivedUtc
        reading)
    | .gga => do
      let reading ← ggaReading fields
      some (fixOf (ascii "NMEA GGA; date inferred from host UTC") (ggaUtc receivedUtc time)
        receivedMonotonic receivedUtc reading)

end Readers

/-! ## What the readers accept -/

section Accepted

variable {value direction body sentence : Text} {fields : List Text} {maximum n r : ℕ}

theorem digits_iff : digits value = true ↔ value ≠ [] ∧ value.all Decimal.isDigit = true := by
  simp [digits]

theorem integerLoop_eq_some (hr : r ≤ maximum) :
    value.foldlM (fun result (c : UInt8) =>
      let result := result * 10 + (c.toNat - 48)
      if result > maximum then none else some result) r = some n ↔
      r * 10 ^ value.length + Decimal.value value = n ∧ n ≤ maximum := by
  induction value generalizing r with
  | nil =>
    simp only [List.foldlM_nil, List.length_nil, pow_zero, mul_one, Decimal.value_nil, add_zero]
    constructor
    · rintro ⟨⟩
      exact ⟨rfl, hr⟩
    · rintro ⟨rfl, -⟩
      rfl
  | cons c rest ih =>
    have hsplit : r * 10 ^ (c :: rest).length + Decimal.value (c :: rest) =
        (r * 10 + (c.toNat - 48)) * 10 ^ rest.length + Decimal.value rest := by
      rw [Decimal.value_cons, List.length_cons, pow_succ]
      ring
    rw [List.foldlM_cons, hsplit]
    by_cases hover : r * 10 + (c.toNat - 48) > maximum
    · have hle : r * 10 + (c.toNat - 48) ≤ (r * 10 + (c.toNat - 48)) * 10 ^ rest.length :=
        Nat.le_mul_of_pos_right _ (Nat.pow_pos (by norm_num))
      simp only [hover, if_true]
      constructor
      · rintro ⟨⟩
      · rintro ⟨rfl, hle'⟩
        omega
    · simp only [hover, if_false]
      exact ih (not_lt.mp hover)

theorem integer_eq_some : integer value maximum = some n ↔
    digits value = true ∧ value.length ≤ 9 ∧ Decimal.value value = n ∧ n ≤ maximum := by
  unfold integer
  split <;> rename_i h
  · constructor
    · rintro ⟨⟩
    · rintro ⟨hdigits, hlength, -⟩
      rcases h with h | h
      · exact absurd hdigits h
      · omega
  · rw [integerLoop_eq_some (Nat.zero_le _)]
    push Not at h
    simp [h.1, h.2]

theorem splitFields_eq_some {room : ℕ} :
    splitFields room body = some fields ↔ body.splitOn 44 = fields ∧ fields.length ≤ room := by
  induction room generalizing body fields with
  | zero =>
    constructor
    · rintro ⟨⟩
    · rintro ⟨rfl, h⟩
      exact absurd (List.length_eq_zero_iff.mp (Nat.le_zero.mp h)) (List.splitOn_ne_nil _ _)
  | succ room ih =>
    have hcomma : (44 : UInt8) ∉ body.takeWhile (· != 44) := by
      intro h
      have := List.mem_takeWhile_imp h
      simp at this
    unfold splitFields
    split <;> rename_i hrest
    · have hall : body.takeWhile (· != 44) = body := by
        conv_rhs => rw [← List.takeWhile_append_dropWhile (p := (· != 44)) (l := body), hrest,
          List.append_nil]
      rw [hall] at hcomma ⊢
      have hsplit : body.splitOn 44 = [body] := List.splitOn_eq_singleton hcomma
      rw [hsplit]
      constructor
      · rintro ⟨⟩
        exact ⟨rfl, by simp⟩
      · rintro ⟨rfl, -⟩
        rfl
    · rename_i b rest
      have hb : b = 44 := by
        have := List.head?_dropWhile_not (fun b : UInt8 => b != 44) body
        rw [hrest] at this
        simpa using this
      have hbody : body = body.takeWhile (· != 44) ++ b :: rest := by
        rw [← hrest, List.takeWhile_append_dropWhile]
      have hsplit : body.splitOn 44 = body.takeWhile (· != 44) :: rest.splitOn 44 := by
        conv_lhs => rw [hbody, hb, List.splitOn_append_cons_self_of_not_mem hcomma]
      rw [hsplit, Option.map_eq_some_iff]
      constructor
      · rintro ⟨fields, h, rfl⟩
        obtain ⟨rfl, hlength⟩ := ih.mp h
        exact ⟨rfl, Nat.succ_le_succ hlength⟩
      · rintro ⟨rfl, hlength⟩
        exact ⟨_, ih.mpr ⟨rfl, Nat.le_of_succ_le_succ hlength⟩, rfl⟩

/-- A point and decimals, or nothing. -/
def pointed (fraction : Text) : Text := if fraction = [] then [] else 46 :: fraction

variable {K : Type} [Field K] {rnd : K → K}

/-- The number of some digits with decimals. -/
def decimals (whole fraction : Text) : K :=
  (Decimal.value whole : K) + (Decimal.value fraction : K) / 10 ^ fraction.length

/-- The digits before the point are read exactly while the rounding keeps the numbers of nine digits. -/
theorem wholeLoop_eq {whole : Text} (hrnd : ∀ n : ℕ, n < 10 ^ 9 → rnd (n : K) = n)
    (hdigits : whole.all Decimal.isDigit = true) (hlength : whole.length ≤ 9) :
    whole.foldl (fun (result : K) c => rnd (rnd (result * 10) + ((c.toNat - 48 : ℕ) : K))) 0 =
      Decimal.value whole := by
  induction whole using List.reverseRecOn with
  | nil => simp
  | append_singleton whole c ih =>
    have hvalue := (Decimal.value_lt hdigits).trans_le (Nat.pow_le_pow_right (by norm_num) hlength)
    rw [List.all_append, Bool.and_eq_true] at hdigits
    rw [List.length_append, List.length_singleton] at hlength
    rw [Decimal.value_concat] at hvalue ⊢
    rw [List.foldl_append, ih hdigits.1 (by omega), List.foldl_cons, List.foldl_nil]
    have hten : rnd ((Decimal.value whole : K) * 10) = ((10 * Decimal.value whole : ℕ) : K) := by
      have hwhole := hrnd (10 * Decimal.value whole) (by omega)
      push_cast at hwhole ⊢
      rwa [mul_comm]
    rw [hten, ← Nat.cast_add, hrnd _ hvalue]

/-- What `decimal` accepts, with or without rounding. -/
theorem unsignedDecimal_spec {x : K} (hrnd : ∀ n : ℕ, n < 10 ^ 9 → rnd (n : K) = n)
    (h : unsignedDecimal rnd value = some x) :
    ∃ whole fraction, value = whole ++ pointed fraction ∧ digits whole = true ∧ whole.length ≤ 9 ∧
      fraction.all Decimal.isDigit = true ∧ fraction.length ≤ 12 ∧
      x = fractionLoop rnd (Decimal.value whole : K) (rnd (1 / 10)) fraction := by
  unfold unsignedDecimal at h
  simp only at h
  split at h
  · cases h
  · rename_i hwhole
    push Not at hwhole
    rw [wholeLoop_eq hrnd (digits_iff.mp hwhole.1).2 hwhole.2] at h
    have hvalue := List.takeWhile_append_dropWhile (p := (· != (46 : UInt8))) (l := value)
    split at h <;> rename_i hrest
    · cases h
      refine ⟨value.takeWhile (· != 46), [], ?_, hwhole.1, hwhole.2, rfl, Nat.zero_le _, rfl⟩
      rw [hrest] at hvalue
      simpa [pointed] using hvalue.symm
    · rename_i point fraction
      have hpoint : point = 46 := by
        have := List.head?_dropWhile_not (fun b : UInt8 => b != 46) value
        rw [hrest] at this
        simpa using this
      split at h
      · cases h
      · rename_i hfraction
        push Not at hfraction
        obtain ⟨hne, hdigits⟩ := digits_iff.mp hfraction.1
        cases h
        refine ⟨value.takeWhile (· != 46), fraction, ?_, hwhole.1, hwhole.2, hdigits, hfraction.2, rfl⟩
        rw [pointed, if_neg hne, ← hpoint, ← hrest, hpoint, hvalue]

theorem decimal_spec {x : K} (hrnd : ∀ n : ℕ, n < 10 ^ 9 → rnd (n : K) = n)
    (h : decimal rnd value false = some x) :
    ∃ whole fraction, value = whole ++ pointed fraction ∧ digits whole = true ∧ whole.length ≤ 9 ∧
      fraction.all Decimal.isDigit = true ∧ fraction.length ≤ 12 ∧
      x = fractionLoop rnd (Decimal.value whole : K) (rnd (1 / 10)) fraction := by
  unfold decimal at h
  split at h
  · cases h
  · rw [if_neg (by simp)] at h
    exact unsignedDecimal_spec hrnd h

variable [LinearOrder K] [IsStrictOrderedRing K]

/-- The digits behind the point, in exact arithmetic. -/
theorem fractionLoop_id (result scale : K) (fraction : Text) :
    fractionLoop id result scale fraction =
      result + scale * 10 * (Decimal.value fraction / 10 ^ fraction.length) := by
  induction fraction generalizing result scale with
  | nil => simp [fractionLoop]
  | cons c rest ih =>
    have hten : (10 : K) ≠ 0 := by norm_num
    rw [fractionLoop, ih, Decimal.value_cons, List.length_cons, pow_succ]
    simp only [id_eq]
    push_cast
    field_simp
    ring

theorem fractionLoop_decimals (whole fraction : Text) :
    fractionLoop id (Decimal.value whole : K) (1 / 10) fraction = decimals whole fraction := by
  rw [fractionLoop_id, decimals, one_div_mul_cancel (by norm_num), one_mul]

/-- A number without rounding is exact. -/
theorem decimal_id {x : K} (h : decimal id value false = some x) :
    ∃ whole fraction, value = whole ++ pointed fraction ∧ digits whole = true ∧
      fraction.all Decimal.isDigit = true ∧ x = decimals whole fraction := by
  obtain ⟨whole, fraction, hvalue, hwhole, -, hfraction, -, rfl⟩ := decimal_spec (fun _ _ => rfl) h
  exact ⟨whole, fraction, hvalue, hwhole, hfraction, fractionLoop_decimals whole fraction⟩

theorem decimals_nonneg (whole fraction : Text) : (0 : K) ≤ decimals whole fraction := by
  unfold decimals
  positivity

end Accepted

/-! ## Rounded times -/

section Rounded

variable {K : Type} [Field K] [LinearOrder K] [IsStrictOrderedRing K] [FloorRing K] {x y : K}

theorem double_mono (h : x ≤ y) : double x ≤ double y := BinaryFormat.nearest_mono (by decide) h

theorem double_intCast {n : ℤ} (h : |n| < 2 ^ 53) : double (n : K) = n :=
  BinaryFormat.nearest_intCast (by decide) h

theorem double_natCast {n : ℕ} (h : n < 2 ^ 53) : double (n : K) = n := by
  have := double_intCast (K := K) (n := n) (by rw [Nat.abs_cast]; exact_mod_cast h)
  rwa [Int.cast_natCast] at this

theorem double_double (x : K) : double (double x) = double x :=
  BinaryFormat.isValue_nearest (by decide) x

theorem double_nonneg (h : 0 ≤ x) : 0 ≤ double x := BinaryFormat.nearest_nonneg h

/-- The error of a time below a power of two. -/
theorem abs_double_sub_le (n : ℤ) {e : ℤ} (he : e = n - 54) (hn : -1021 ≤ n) (h : |x| < 2 ^ n) :
    |double x - x| ≤ 2 ^ e := by
  have hlow : Binary64.format.minExponent < n := by
    change -1022 < n
    omega
  have herror := BinaryFormat.abs_nearest_sub_le hlow h
  rwa [he, ← show n - Binary64.format.digits - 1 = n - 54 from Int.sub_sub n 53 1]

/-- The digits behind the point only add. -/
theorem le_fractionLoop (hx : double x = x) (hy : 0 ≤ y) (fraction : Text) :
    x ≤ fractionLoop double x y fraction := by
  induction fraction generalizing x y with
  | nil => exact le_rfl
  | cons c rest ih =>
    have htenth : (0 : K) ≤ double (1 / 10) := double_nonneg (by positivity)
    have hdigit : 0 ≤ double (((c.toNat - 48 : ℕ) : K) * y) :=
      double_nonneg (mul_nonneg (Nat.cast_nonneg _) hy)
    have hstep : x ≤ double (x + double (((c.toNat - 48 : ℕ) : K) * y)) := by
      conv_lhs => rw [← hx]
      exact double_mono (by linarith)
    exact hstep.trans (ih (double_double _) (double_nonneg (mul_nonneg hy htenth)))

theorem abs_tenth_sub_le : |double (1 / 10 : K) - 1 / 10| ≤ 2 ^ (-57 : ℤ) :=
  abs_double_sub_le (x := (1 / 10 : K)) (-3) rfl (by norm_num) (by rw [abs_of_pos (by norm_num)]; norm_num)

/-- One tenth of a scale `x` that is known as `y`. -/
theorem abs_scale_sub_le (hx : 0 ≤ x) (hx' : x ≤ 1 / 10) (h : |y - x| ≤ 2 ^ (-56 : ℤ)) :
    |double (y * double (1 / 10)) - x / 10| ≤ 2 ^ (-56 : ℤ) := by
  have htenth := abs_tenth_sub_le (K := K)
  generalize (double (1 / 10) : K) = tenth at htenth ⊢
  have hsmall : |tenth| ≤ 1 / 8 := by
    have := abs_le.mp htenth
    norm_num at this
    rw [abs_le]
    constructor <;> linarith
  have hproduct : |y * tenth - x / 10| ≤ 2 ^ (-58 : ℤ) := by
    calc |y * tenth - x / 10| = |(y - x) * tenth + x * (tenth - 1 / 10)| := by ring_nf
      _ ≤ |y - x| * |tenth| + |x| * |tenth - 1 / 10| := by
          rw [← abs_mul, ← abs_mul]
          exact abs_add_le _ _
      _ ≤ 2 ^ (-56 : ℤ) * (1 / 8) + 1 / 10 * 2 ^ (-57 : ℤ) := by
          rw [abs_of_nonneg hx]
          gcongr
      _ ≤ 2 ^ (-58 : ℤ) := by norm_num
  have hround : |double (y * tenth) - y * tenth| ≤ 2 ^ (-60 : ℤ) := by
    refine abs_double_sub_le (-6) rfl (by norm_num) ?_
    obtain ⟨hlow, hhigh⟩ := abs_le.mp hproduct
    rw [abs_lt]
    norm_num at hlow hhigh ⊢
    constructor <;> linarith
  obtain ⟨hlow, hhigh⟩ := abs_le.mp hproduct
  obtain ⟨hlow', hhigh'⟩ := abs_le.mp hround
  norm_num at hlow hhigh hlow' hhigh' ⊢
  rw [abs_le]
  constructor <;> linarith

/-- The error of the digits behind the point: the sum `x` is known as `v`, the scale `y` as `w`, and
every digit adds no more than a unit of `2⁻⁴⁶`. -/
theorem abs_fractionLoop_sub_le {v w ε : K} {fraction : Text}
    (hdigits : fraction.all Decimal.isDigit = true) (hx : 0 ≤ x) (hy : 0 ≤ y) (hy' : y ≤ 1 / 10)
    (hsum : x + 10 * y ≤ 101) (hxe : |v - x| ≤ ε) (hye : |w - y| ≤ 2 ^ (-56 : ℤ))
    (hε : ε + fraction.length * 2 ^ (-46 : ℤ) ≤ 1) :
    |fractionLoop double v w fraction - fractionLoop id x y fraction| ≤
      ε + fraction.length * 2 ^ (-46 : ℤ) := by
  -- A digit adds the rounding of its product and that of the sum to the error, and the next scale has
  -- the error of a quotient by ten, so the errors of the digits are generalised with their values.
  induction fraction generalizing x y v w ε with
  | nil => simpa [fractionLoop] using hxe
  | cons c rest ih =>
    rw [List.all_cons, Bool.and_eq_true] at hdigits
    rw [List.length_cons, Nat.cast_add_one, add_one_mul] at hε ⊢
    have hlength : (0 : K) ≤ rest.length * 2 ^ (-46 : ℤ) := by positivity
    obtain ⟨d, hd, hd9⟩ : ∃ d : K, d = ((c.toNat - 48 : ℕ) : K) ∧ d ≤ 9 := by
      refine ⟨_, rfl, ?_⟩
      have hdigit : 48 ≤ c ∧ c ≤ 57 := by simpa [Decimal.isDigit] using hdigits.1
      have := UInt8.le_iff_toNat_le.mp hdigit.2
      simp only [UInt8.reduceToNat] at this
      have : c.toNat - 48 ≤ 9 := by omega
      exact_mod_cast this
    have hd0 : 0 ≤ d := hd ▸ Nat.cast_nonneg _
    have hdy : d * y ≤ 9 * y := mul_le_mul_of_nonneg_right hd9 hy
    have hdy0 : 0 ≤ d * y := mul_nonneg hd0 hy
    obtain ⟨hxl, hxh⟩ := abs_le.mp hxe
    have hdigit : |d * w - d * y| ≤ 9 * 2 ^ (-56 : ℤ) := by
      rw [← mul_sub, abs_mul, abs_of_nonneg hd0]
      exact mul_le_mul hd9 hye (abs_nonneg _) (by norm_num)
    obtain ⟨hdl, hdh⟩ := abs_le.mp hdigit
    norm_num at hdl hdh
    have hround : |double (d * w) - d * w| ≤ 2 ^ (-53 : ℤ) := by
      refine abs_double_sub_le 1 rfl (by norm_num) ?_
      rw [abs_lt]
      norm_num
      constructor <;> linarith
    obtain ⟨hrl, hrh⟩ := abs_le.mp hround
    norm_num at hrl hrh
    norm_num at hε hlength
    have hadd : |double (v + double (d * w)) - (v + double (d * w))| ≤ 2 ^ (-47 : ℤ) := by
      refine abs_double_sub_le 7 rfl (by norm_num) ?_
      rw [abs_lt]
      norm_num
      constructor <;> linarith
    obtain ⟨hal, hah⟩ := abs_le.mp hadd
    norm_num at hal hah
    have hstep : |double (v + double (d * w)) - (x + d * y)| ≤ ε + 2 ^ (-46 : ℤ) := by
      rw [abs_le]
      norm_num
      constructor <;> linarith
    rw [fractionLoop, fractionLoop, ← hd]
    have hnext := ih (x := x + d * y) (y := y / 10) hdigits.2 (by linarith) (by linarith) (by linarith)
      (by linarith) hstep (abs_scale_sub_le hy hy' hye) (by norm_num; linarith)
    simp only [id_eq, mul_one_div]
    refine hnext.trans_eq ?_
    ring

/-- The digits behind the point end with a rounding. -/
theorem double_fractionLoop (hx : double x = x) (y : K) (fraction : Text) :
    double (fractionLoop double x y fraction) = fractionLoop double x y fraction := by
  induction fraction generalizing x y with
  | nil => exact hx
  | cons c rest ih => exact ih (double_double _) _

/-- A rounded number, and the error of one of two digits before the point. -/
theorem decimal_double {value : Text} (h : decimal double value false = some x) :
    ∃ whole fraction, value = whole ++ pointed fraction ∧ digits whole = true ∧
      fraction.all Decimal.isDigit = true ∧ double x = x ∧ (Decimal.value whole : K) ≤ x ∧
      (whole.length = 2 → |x - decimals whole fraction| ≤ 2 ^ (-42 : ℤ)) := by
  obtain ⟨whole, fraction, hvalue, hwhole, hnine, hfraction, hsize, rfl⟩ :=
    decimal_spec (fun n hn => double_natCast (by omega)) h
  have hlt := Decimal.value_lt (digits_iff.mp hwhole).2
  have hexact : double (Decimal.value whole : K) = Decimal.value whole := by
    refine double_natCast ((hlt.trans_le (Nat.pow_le_pow_right (by norm_num) hnine)).trans ?_)
    norm_num
  refine ⟨whole, fraction, hvalue, hwhole, hfraction, double_fractionLoop hexact _ _,
    le_fractionLoop hexact (double_nonneg (by norm_num)) _, fun htwo => ?_⟩
  rw [htwo] at hlt
  have hcast : ((Decimal.value whole : ℕ) : K) ≤ 99 := by exact_mod_cast Nat.le_of_lt_succ hlt
  have hlength : (fraction.length : K) ≤ 12 := by exact_mod_cast hsize
  have hbound : (0 : K) + fraction.length * 2 ^ (-46 : ℤ) ≤ 2 ^ (-42 : ℤ) := by
    norm_num
    linarith
  have herror := abs_fractionLoop_sub_le (x := (Decimal.value whole : K)) (y := 1 / 10)
    (v := Decimal.value whole) (w := double (1 / 10)) (ε := 0) hfraction (Nat.cast_nonneg _)
    (by norm_num) le_rfl (by linarith) (by simp)
    (abs_tenth_sub_le.trans (by norm_num)) (hbound.trans (by norm_num))
  rw [fractionLoop_decimals] at herror
  exact herror.trans hbound

end Rounded

end Gps

end OVMesh
