import OVMesh.Lib.Binary64
import OVMesh.Lib.Buckets
import OVMesh.Store.Analysis

/-!
# The time groups of a report

`split_time` and the rows of the time report. A group has the times between its edges; the number of a group
is computed from a quotient, which may be off by one from the edges when both are rounded.

* `Arithmetic`: the rounding. `binary64`, `exact`: the two that are meant.
* `TimeGroups`: the start and the width of the groups. `edge`, `bucket`: their edges and numbers.
* `splitTime`: the pieces of an interval. `splitTime_chain`: they partition it, whatever the quotient.
* `timeRows`: the rows of the report. `timeRows_cover`: when they are the groups of the report.
-/

namespace OVMesh

namespace Report

open Binary64 Buckets Checked

/-- `row_limit`: the rows of a report. -/
def rowLimit : ℕ := 1000000

/-- The rounding of a result, and `std::nextafter` towards negative infinity. -/
structure Arithmetic (K : Type) [Field K] [LinearOrder K] where
  round : K → K
  below : K → K
  mono : Monotone round
  natCast : ∀ n : ℕ, n < 2 ^ 53 → round n = n

/-- The arithmetic of doubles, rounded to nearest. -/
def binary64 : Arithmetic ℚ where
  round := nearest
  below := nextBelow
  mono := fun _ _ => nearest_mono
  natCast := fun n hn => by exact_mod_cast nearest_intCast (n := n) (by rw [Nat.abs_cast]; exact_mod_cast hn)

section Groups

variable {K : Type} [Field K] [LinearOrder K]

/-- Nothing is rounded. -/
def Arithmetic.exact (below : K → K) : Arithmetic K where
  round := id
  below
  mono := monotone_id
  natCast := fun _ _ => rfl

/-- The fields of a query that place its time groups. -/
structure TimeGroups (K : Type) where
  elapsedStart : K
  timeBucketSeconds : K

namespace TimeGroups

variable (arith : Arithmetic K)

/-- The fields are values, and are accepted. -/
structure Valid (g : TimeGroups K) : Prop where
  start_value : arith.round g.elapsedStart = g.elapsedStart
  start_nonneg : 0 ≤ g.elapsedStart
  start_le : g.elapsedStart ≤ 10 ^ 10
  seconds_value : arith.round g.timeBucketSeconds = g.timeBucketSeconds
  seconds_ge : 1 / 1000 ≤ g.timeBucketSeconds
  seconds_le : g.timeBucketSeconds ≤ 10 ^ 10

/-- `relative`: the time from the first group on, in groups. -/
def relative (g : TimeGroups K) (time : K) : K :=
  arith.round (arith.round (time - g.elapsedStart) / g.timeBucketSeconds)

/-- What the report throws when its groups would be too many. -/
def tooMany : String := "Time report exceeds one million groups; choose a wider time group or narrower selection"

/-- `bucket`: the group of a time, among the first million. -/
def bucket [FloorRing K] (g : TimeGroups K) (time : K) : Except String ℕ := do
  reject (g.relative arith time < 0 ∨ (rowLimit : K) ≤ g.relative arith time) tooMany
  return ⌊g.relative arith time⌋₊

/-- `edge`: the time at which a group begins. -/
def edge (g : TimeGroups K) (index : ℕ) : K :=
  arith.round (arith.round index * g.timeBucketSeconds + g.elapsedStart)

/-- The two loops of `split_time` that move an index to the group of a time. -/
def correct (g : TimeGroups K) (time : K) (index : ℕ) : ℕ :=
  Fold.advance (fun i => g.edge arith (i + 1) ≤ time) (2 ^ 64 - 1) (Analysis.stepBack (g.edge arith) time index)

/-- `split_time`: the calls of its body. -/
def splitTime [FloorRing K] (g : TimeGroups K) : ℕ → K → K → Except String (List (Piece K))
  | 0, time, stop => if time < stop then .error "more rounds than groups" else .ok []
  | rounds + 1, time, stop => do
    if time < stop then
      let first ← g.bucket arith time
      let index := g.correct arith time first
      let last := min stop (g.edge arith (index + 1))
      reject (last ≤ time) "Unrepresentable report time bucket"
      let pieces ← splitTime g rounds last stop
      return ⟨index, time, last⟩ :: pieces
    else return []

/-- A row of the time report. -/
structure Row (K α : Type) where
  index : ℕ
  elapsedStart : K
  elapsedEnd : K
  value : α

/-- The rows of `write`: the accumulated values, and an empty one where there is none. -/
def timeRows [FloorRing K] {α : Type} (g : TimeGroups K) (times : ℕ → Option α) (empty : α)
    (earliest latest : K) : Except String (List (Row K α)) := do
  let lastBucket ← g.bucket arith (arith.below latest)
  let firstBucket ← g.bucket arith earliest
  return (List.range' firstBucket (lastBucket + 1 - firstBucket)).map fun i =>
    ⟨i, max earliest (g.edge arith i), min latest (g.edge arith (i + 1)), (times i).getD empty⟩

/-- The rows are the groups that meet the interval, each once and in order. -/
def Cover {α : Type} (g : TimeGroups K) (earliest latest : K) (rows : List (Row K α)) : Prop :=
  (rows.map Row.index).Pairwise (· < ·) ∧
    ∀ i, i ∈ rows.map Row.index ↔ Meets (g.edge arith) earliest latest i

/-- The quotients of the first and the last time reach a number when the times reach its edge. -/
def Agree (g : TimeGroups K) (earliest latest : K) : Prop :=
  (∀ n : ℕ, n ≤ g.relative arith earliest ↔ g.edge arith n ≤ earliest) ∧
    ∀ n : ℕ, n ≤ g.relative arith (arith.below latest) ↔ g.edge arith n < latest

/-! ## Edges -/

variable [IsStrictOrderedRing K] {arith} {g : TimeGroups K} {time stop earliest latest : K} {index rounds : ℕ}

theorem Valid.seconds_pos (hg : g.Valid arith) : 0 < g.timeBucketSeconds :=
  lt_of_lt_of_le (by norm_num) hg.seconds_ge

omit [IsStrictOrderedRing K] in
theorem Valid.edge_zero (hg : g.Valid arith) : g.edge arith 0 = g.elapsedStart := by
  have hzero := arith.natCast 0 (by norm_num)
  rw [edge, hzero, Nat.cast_zero, zero_mul, zero_add, hg.start_value]

theorem Valid.edge_mono (hg : g.Valid arith) : Monotone (g.edge arith) := by
  intro i j hij
  have hindex : arith.round (i : K) ≤ arith.round (j : K) := arith.mono (Nat.cast_le.mpr hij)
  have hmul := mul_le_mul_of_nonneg_right hindex hg.seconds_pos.le
  exact arith.mono (by linarith)

omit [IsStrictOrderedRing K] in
/-- A number of 53 bits bounds what is rounded. -/
theorem natCast_le_round {n : ℕ} {x : K} (hn : n < 2 ^ 53) (h : (n : K) ≤ x) : (n : K) ≤ arith.round x := by
  have hround := arith.mono h
  rwa [arith.natCast n hn] at hround

/-- The edges pass every time that is accepted. -/
theorem Valid.lt_edge (hg : g.Valid arith) (h : time ≤ 10 ^ 10) : time < g.edge arith (2 ^ 64 - 1) := by
  have hindex : ((9 * 10 ^ 15 : ℕ) : K) ≤ arith.round ((2 ^ 64 - 1 : ℕ) : K) :=
    natCast_le_round (by norm_num) (Nat.cast_le.mpr (by norm_num))
  have hstart := hg.start_nonneg
  have hmul := mul_le_mul hindex hg.seconds_ge (by norm_num) (le_trans (Nat.cast_nonneg _) hindex)
  have hedge : ((9 * 10 ^ 12 : ℕ) : K) ≤ g.edge arith (2 ^ 64 - 1) := by
    refine natCast_le_round (by norm_num) ?_
    push_cast at hmul ⊢
    linarith
  refine lt_of_le_of_lt h (lt_of_lt_of_le ?_ hedge)
  norm_num

variable (index) in
omit [IsStrictOrderedRing K] in
/-- A step back is to an edge at or before the time. -/
theorem Valid.stepBack_le (hg : g.Valid arith) (h : g.elapsedStart ≤ time) :
    g.edge arith (Analysis.stepBack (g.edge arith) time index) ≤ time := by
  induction index with
  | zero =>
    show g.edge arith 0 ≤ time
    rwa [hg.edge_zero]
  | succ index ih =>
    rw [Analysis.stepBack]
    split_ifs with hafter
    · exact ih
    · exact not_lt.mp hafter

/-- The corrected index is the one of the group, wherever the loops begin. -/
theorem Valid.correct_has (hg : g.Valid arith) (h : g.elapsedStart ≤ time) (hstop : time ≤ 10 ^ 10) :
    Has (g.edge arith) (g.correct arith time index) time := by
  have hle := hg.stepBack_le index h
  have hlt := hg.lt_edge hstop
  rw [correct]
  generalize Analysis.stepBack (g.edge arith) time index = first at hle
  have hfirst : first ≤ 2 ^ 64 - 1 := by
    by_contra hafter
    exact absurd (hlt.trans_le (hg.edge_mono (not_le.mp hafter).le)) (not_lt.mpr hle)
  obtain ⟨hge, hcount, hseen, hend⟩ := Fold.advance_spec (fun i => g.edge arith (i + 1) ≤ time) hfirst
  generalize Fold.advance (fun i => g.edge arith (i + 1) ≤ time) (2 ^ 64 - 1) first = last
    at hge hcount hseen hend
  have hlast : g.edge arith last ≤ time := by
    rcases Nat.eq_or_lt_of_le hge with rfl | hmoved
    · exact hle
    · have hbefore := hseen (last - 1) (by omega) (by omega)
      rwa [Nat.sub_add_cancel (by omega)] at hbefore
  have hne : last ≠ 2 ^ 64 - 1 := by
    intro heq
    rw [heq] at hlast
    exact absurd hlt (not_lt.mpr hlast)
  exact ⟨hlast, not_le.mp (hend (by omega))⟩

/-! ## The pieces of an interval -/

variable [FloorRing K]

variable (rounds) in
/-- A round of the loop: a piece up to the next edge, and the rest. -/
theorem Valid.splitTime_succ (hg : g.Valid arith) (hstart : g.elapsedStart ≤ time) (hlt : time < stop)
    (hstop : stop ≤ 10 ^ 10) :
    g.splitTime arith (rounds + 1) time stop = .error tooMany ∨ ∃ index, Has (g.edge arith) index time ∧
      g.splitTime arith (rounds + 1) time stop =
        (g.splitTime arith rounds (min stop (g.edge arith (index + 1))) stop).map
          (⟨index, time, min stop (g.edge arith (index + 1))⟩ :: ·) := by
  have hhas : Has (g.edge arith) (g.correct arith time ⌊g.relative arith time⌋₊) time :=
    hg.correct_has hstart (hlt.le.trans hstop)
  rw [splitTime, if_pos hlt, bucket]
  by_cases hmany : g.relative arith time < 0 ∨ (rowLimit : K) ≤ g.relative arith time
  · exact .inl (by rw [reject, if_pos hmany]; rfl)
  · refine .inr ⟨_, hhas, ?_⟩
    have hafter : ¬ min stop (g.edge arith (g.correct arith time ⌊g.relative arith time⌋₊ + 1)) ≤ time :=
      not_le.mpr (lt_min hlt hhas.lt)
    simp only [reject, if_neg hmany]
    simp only [bind, Except.bind, pure, Except.pure, if_neg hafter, Except.map]

/-- Every round moves to a later group, so the loop ends. -/
theorem Valid.splitTime_rounds (hg : g.Valid arith) (hstart : g.elapsedStart ≤ time) (hle : time ≤ stop)
    (hstop : stop ≤ 10 ^ 10) (hrounds : time < stop → ∀ b, Has (g.edge arith) b time → 2 ^ 64 ≤ rounds + b) :
    g.splitTime arith rounds time stop = .error tooMany ∨
      ∃ pieces, g.splitTime arith rounds time stop = .ok pieces ∧ Chain (g.edge arith) time stop pieces := by
  induction rounds generalizing time with
  | zero =>
    rcases hle.eq_or_lt with rfl | hlt
    · exact .inr ⟨[], by rw [splitTime, if_neg (lt_irrefl _)], rfl⟩
    · have h0 : g.edge arith 0 ≤ time := by rwa [hg.edge_zero]
      obtain ⟨b, hb, hhas⟩ := exists_has h0 (hg.lt_edge (hle.trans hstop))
      have hmany := hrounds hlt b hhas
      omega
  | succ rounds ih =>
    rcases hle.eq_or_lt with rfl | hlt
    · exact .inr ⟨[], by rw [splitTime, if_neg (lt_irrefl _)]; rfl, rfl⟩
    · rcases hg.splitTime_succ rounds hstart hlt hstop with herror | ⟨index, hhas, hround⟩
      · exact .inl herror
      · have hafter : time < min stop (g.edge arith (index + 1)) := lt_min hlt hhas.lt
        have hnext : min stop (g.edge arith (index + 1)) < stop →
            ∀ b, Has (g.edge arith) b (min stop (g.edge arith (index + 1))) → 2 ^ 64 ≤ rounds + b := by
          intro hmore b hb
          have hedge : min stop (g.edge arith (index + 1)) = g.edge arith (index + 1) := by
            rcases min_choice stop (g.edge arith (index + 1)) with hmin | hmin
            · exact absurd hmore (by rw [hmin]; exact lt_irrefl _)
            · exact hmin
          have hlater : index + 1 ≤ b := (hb.le_iff hg.edge_mono).mpr hedge.ge
          have hbound := hrounds hlt index hhas
          omega
        rw [hround]
        rcases ih (hstart.trans hafter.le) (min_le_left _ _) hnext with herror | ⟨pieces, hpieces, hchain⟩
        · exact .inl (by rw [herror]; rfl)
        · rw [hpieces]
          exact .inr ⟨_, rfl, rfl, hafter, hhas.le, min_le_right _ _, hchain⟩

/-- **The pieces.** The loop ends, and its pieces partition the interval, each in its group. -/
theorem Valid.splitTime_chain (hg : g.Valid arith) (hstart : g.elapsedStart ≤ time) (hle : time ≤ stop)
    (hstop : stop ≤ 10 ^ 10) : g.splitTime arith (2 ^ 64) time stop = .error tooMany ∨
      ∃ pieces, g.splitTime arith (2 ^ 64) time stop = .ok pieces ∧ Chain (g.edge arith) time stop pieces :=
  hg.splitTime_rounds hstart hle hstop fun _ _ _ => Nat.le_add_right _ _

/-! ## The rows -/

omit [IsStrictOrderedRing K] in
theorem bucket_ok (h : g.bucket arith time = .ok index) :
    ∀ n : ℕ, (n : K) ≤ g.relative arith time ↔ n ≤ index := by
  rw [bucket, bind_eq_ok] at h
  obtain ⟨u, haccepted, hindex⟩ := h
  rw [reject_eq_ok, not_or, not_lt] at haccepted
  obtain rfl : ⌊g.relative arith time⌋₊ = index := by simpa using hindex
  exact fun n => (Nat.le_floor_iff haccepted.1).symm

variable {α : Type} {times : ℕ → Option α} {empty : α} {rows : List (Row K α)}

omit [IsStrictOrderedRing K] in
theorem timeRows_indexes (h : g.timeRows arith times empty earliest latest = .ok rows) :
    ∃ first last, g.bucket arith earliest = .ok first ∧ g.bucket arith (arith.below latest) = .ok last ∧
      rows.map Row.index = List.range' first (last + 1 - first) := by
  simp only [timeRows, bind_eq_ok] at h
  obtain ⟨last, hlast, first, hfirst, hrows⟩ := h
  obtain rfl := Except.ok.inj hrows
  refine ⟨first, last, hfirst, hlast, ?_⟩
  rw [List.map_map]
  exact List.map_id _

theorem Valid.cover_iff (hg : g.Valid arith) (hstart : g.elapsedStart ≤ earliest) (hlt : earliest < latest)
    (hstop : latest ≤ 10 ^ 10) (hrows : g.timeRows arith times empty earliest latest = .ok rows) :
    g.Cover arith earliest latest rows ↔ g.Agree arith earliest latest := by
  obtain ⟨first, last, hfirst, hlast, hindexes⟩ := timeRows_indexes hrows
  have h0 : g.edge arith 0 ≤ earliest := by rwa [hg.edge_zero]
  have hsorted : (List.range' first (last + 1 - first)).Pairwise (· < ·) := List.pairwise_lt_range'
  have hmem : ∀ i, i ∈ List.range' first (last + 1 - first) ↔ first ≤ i ∧ i ≤ last := by
    intro i
    rw [List.mem_range'_1]
    omega
  rw [Cover, hindexes, Agree, and_iff_right hsorted]
  simp only [hmem, bucket_ok hfirst, bucket_ok hlast]
  exact meets_range_iff hg.edge_mono h0 hlt (hg.lt_edge hstop).le

end TimeGroups

end Groups

open TimeGroups

/-- The loop of `split_time` ends for every interval, and where it does not refuse the interval its pieces
partition it, each in its group. The rows of the report are the groups from its earliest to its latest time,
each once and in order, exactly when the quotients of these two times agree with the edges. -/
theorem timeRows_cover {α : Type} {g : TimeGroups ℚ} (hg : g.Valid binary64) (times : ℕ → Option α) (empty : α)
    {earliest latest : ℚ} {rows : List (Row ℚ α)} (hstart : g.elapsedStart ≤ earliest)
    (hlt : earliest < latest) (hstop : latest ≤ 10 ^ 10)
    (hrows : g.timeRows binary64 times empty earliest latest = .ok rows) :
    (∀ time stop, g.elapsedStart ≤ time → time ≤ stop → stop ≤ 10 ^ 10 →
      g.splitTime binary64 (2 ^ 64) time stop = .error tooMany ∨
        ∃ pieces, g.splitTime binary64 (2 ^ 64) time stop = .ok pieces ∧
          Chain (g.edge binary64) time stop pieces) ∧
    (g.Cover binary64 earliest latest rows ↔ g.Agree binary64 earliest latest) :=
  ⟨fun _ _ htime hle hlast => hg.splitTime_chain htime hle hlast, hg.cover_iff hstart hlt hstop hrows⟩

/-! ## Tenths of a second -/

/-- Groups of a tenth of a second, from the start on. -/
def tenths : TimeGroups ℚ := ⟨0, 3602879701896397 / 2 ^ 55⟩

theorem valid_tenths : tenths.Valid binary64 where
  start_value := nearest_zero
  start_nonneg := le_rfl
  start_le := by norm_num [tenths]
  seconds_value := by
    have h := @nearest_eq (3602879701896397 / 2 ^ 55) (-4) 7205759403792794 (by decide) (by norm_num)
      (by norm_num) (by norm_num)
    show nearest (3602879701896397 / 2 ^ 55) = 3602879701896397 / 2 ^ 55
    rw [h]
    norm_num
  seconds_ge := by norm_num [tenths]
  seconds_le := by norm_num [tenths]

/-- The binary64 value of 1.7 -/
def slipTime : ℚ := 7656119366529843 / 2 ^ 52

theorem nearest_slipTime : nearest slipTime = slipTime := by
  have h := @nearest_eq slipTime 0 7656119366529843 (by decide) (by norm_num [slipTime])
    (by norm_num [slipTime]) (by norm_num [slipTime])
  rw [h, slipTime]
  norm_num

theorem bucket_slipTime : tenths.bucket binary64 slipTime = .ok 17 := by
  have hrelative : tenths.relative binary64 slipTime = 17 := by
    have h := @nearest_eq (slipTime / (3602879701896397 / 2 ^ 55)) 4 4785074604081152 (by decide)
      (by norm_num [slipTime]) (by norm_num [slipTime]) (by norm_num [slipTime, abs_lt])
    show nearest (nearest (slipTime - 0) / (3602879701896397 / 2 ^ 55)) = 17
    rw [sub_zero, nearest_slipTime, h]
    norm_num
  rw [bucket, hrelative, reject, if_neg (by norm_num [rowLimit])]
  norm_num

theorem nextBelow_two : nextBelow 2 = 9007199254740991 / 2 ^ 52 := by
  have hulp : ulp 2 = 2 / 2 ^ 52 := by
    have hlog : Int.log 2 |(2 : ℚ)| = 1 := by
      have h := @Int.log_natCast ℚ _ _ _ _ 2 2
      norm_num at h ⊢
    rw [ulp, BinaryFormat.ulp, BinaryFormat.ulpExponent, hlog]
    norm_num [Binary64.format]
  have h := @nearest_eq (2 - ulp 2 / 2) 0 9007199254740991 (by decide) (by norm_num [hulp])
    (by norm_num [hulp]) (by norm_num [hulp])
  rw [nextBelow, h]
  norm_num

theorem bucket_two : tenths.bucket binary64 (nextBelow 2) = .ok 19 := by
  have hvalue := @nearest_eq (9007199254740991 / 2 ^ 52) 0 9007199254740991 (by decide) (by norm_num)
    (by norm_num) (by norm_num)
  have hquotient := @nearest_eq (9007199254740991 / 2 ^ 52 / (3602879701896397 / 2 ^ 55)) 4 5629499534213119
    (by decide) (by norm_num) (by norm_num) (by norm_num [abs_lt])
  have hrelative : tenths.relative binary64 (nextBelow 2) = 5629499534213119 / 2 ^ 48 := by
    show nearest (nearest (nextBelow 2 - 0) / (3602879701896397 / 2 ^ 55)) = _
    rw [sub_zero, nextBelow_two, hvalue]
    norm_num at hquotient ⊢
    exact hquotient
  rw [bucket, hrelative, reject, if_neg (by norm_num [rowLimit])]
  norm_num

theorem edges_slipTime : tenths.edge binary64 16 < 2 ∧ slipTime < tenths.edge binary64 17 := by
  have hlow := @nearest_eq (16 * (3602879701896397 / 2 ^ 55)) 0 7205759403792794 (by decide) (by norm_num)
    (by norm_num) (by norm_num)
  have hhigh := @nearest_eq (17 * (3602879701896397 / 2 ^ 55)) 0 7656119366529844 (by decide) (by norm_num)
    (by norm_num) (by norm_num [abs_lt])
  have h16 : nearest ((16 : ℕ) : ℚ) = 16 := by exact_mod_cast nearest_intCast (n := 16) (by norm_num)
  have h17 : nearest ((17 : ℕ) : ℚ) = 17 := by exact_mod_cast nearest_intCast (n := 17) (by norm_num)
  constructor
  · show nearest (nearest ((16 : ℕ) : ℚ) * (3602879701896397 / 2 ^ 55) + 0) < 2
    rw [h16, add_zero, hlow]
    norm_num
  · show slipTime < nearest (nearest ((17 : ℕ) : ℚ) * (3602879701896397 / 2 ^ 55) + 0)
    rw [h17, add_zero, hhigh, slipTime]
    norm_num

theorem timeRows_slipTime : ∃ rows : List (Row ℚ Unit),
    tenths.timeRows binary64 (fun _ => none) () slipTime 2 = .ok rows ∧ rows.map Row.index = [17, 18, 19] := by
  refine ⟨_, by rw [timeRows, show binary64.below = nextBelow from rfl, bucket_two, bucket_slipTime]; rfl, ?_⟩
  rw [List.map_map]
  rfl

/-- From 1.7 s to 2 s, the group 16 has the first of the time, and no row. -/
theorem timeRows_slip : ∃ rows : List (Row ℚ Unit),
    tenths.timeRows binary64 (fun _ => none) () slipTime 2 = .ok rows ∧
      Meets (tenths.edge binary64) slipTime 2 16 ∧ ¬ tenths.Cover binary64 slipTime 2 rows := by
  obtain ⟨rows, hrows, hindexes⟩ := timeRows_slipTime
  refine ⟨rows, hrows, edges_slipTime, fun hcover => ?_⟩
  have hmem : 16 ∈ rows.map Row.index := (hcover.2 16).mpr edges_slipTime
  rw [hindexes] at hmem
  exact absurd hmem (by decide)

theorem timeRows_cover_slip : ∃ rows : List (Row ℚ Unit),
    tenths.timeRows binary64 (fun _ => none) () slipTime 2 = .ok rows ∧
      (tenths.Cover binary64 slipTime 2 rows ↔ tenths.Agree binary64 slipTime 2) := by
  obtain ⟨rows, hrows, -⟩ := timeRows_slipTime
  refine ⟨rows, hrows, (timeRows_cover valid_tenths (fun _ => none) () ?_ ?_ ?_ hrows).2⟩
  · show 0 ≤ slipTime
    norm_num [slipTime]
  · norm_num [slipTime]
  · norm_num

end Report

end OVMesh
