import OVMesh.Spectrum.Params

/-!
# Runs of active bins

The first half of `events`: the maximal runs of bins at or above the threshold, and the grouping
that leaves at most `max_tracks` of them. A run also carries the bins it was built from, with their
powers (`cells`); nothing in the code reads them.

* `extractRuns`: the extraction loop. `extractRuns_cells`: its runs hold the active bins of the
  frame, in order. `extractRuns_isRun`, `exists_mem_extractRuns`: they are its maximal runs.
* `groupRuns`: the in-place grouping. `groupRuns_cells`: it loses no bin and takes none twice.
  `groupRuns_length_le`: it leaves at most `max_tracks` runs.
-/

namespace OVMesh

namespace SpectrumProcessor

open SurveyQuality

/-- A run of bins of one frame. `cells` is ghost: the active bins with their powers. -/
structure Run (K : Type) where
  low : ℕ
  high : ℕ
  sum : K
  peak : K
  count : ℕ
  quality : ℕ
  cells : List (ℕ × K)

variable {K : Type} [Field K] [LinearOrder K]

/-! ## Extraction -/

/-- The run before its first bin. -/
def Run.start (i : ℕ) : Run K :=
  { low := i, high := 0, sum := 0, peak := 0, count := 0, quality := 0, cells := [] }

/-- The body of the `do … while`: bin `i` with power `x` joins the run. -/
def Run.add (run : Run K) (i : ℕ) (x : K) : Run K :=
  { run with
    high := i
    sum := run.sum + x
    peak := max run.peak x
    count := run.count + 1
    cells := run.cells ++ [(i, x)] }

/-- The `do … while` from bin `i`, and the bin that it stops at. -/
def takeRun (bins : ℕ) (threshold : K) (powers : ℕ → K) (i : ℕ) (run : Run K) : Run K × ℕ :=
  let run := run.add i (powers i)
  if i + 1 < bins ∧ threshold ≤ powers (i + 1) then takeRun bins threshold powers (i + 1) run
  else (run, i + 1)
termination_by bins - i

/-- The flags of a finished run. -/
def Run.mark (bins frameClipped : ℕ) (run : Run K) : Run K :=
  let quality := if run.low = 0 ∨ run.high + 1 = bins then run.quality ||| boundary.mask
    else run.quality
  { run with quality := if frameClipped ≠ 0 then quality ||| clipped.mask else quality }

theorem lt_takeRun (bins : ℕ) (threshold : K) (powers : ℕ → K) (i : ℕ) (run : Run K) :
    i < (takeRun bins threshold powers i run).2 := by
  fun_induction takeRun bins threshold powers i run with
  | case1 i run run' h ih => omega
  | case2 i run run' h => exact Nat.lt_succ_self i

/-- The extraction loop from bin `i`. -/
def extractRuns (bins : ℕ) (threshold : K) (powers : ℕ → K) (frameClipped i : ℕ) : List (Run K) :=
  if i < bins then
    if powers i < threshold then extractRuns bins threshold powers frameClipped (i + 1)
    else
      let next := takeRun bins threshold powers i (.start i)
      next.1.mark bins frameClipped :: extractRuns bins threshold powers frameClipped next.2
  else []
termination_by bins - i
decreasing_by
  · omega
  · have := lt_takeRun bins threshold powers i (.start i)
    omega

variable {bins : ℕ} {threshold : K} {powers : ℕ → K} {frameClipped i : ℕ}

/-- The bins `i … j - 1` with their powers. -/
def cellsOf (powers : ℕ → K) (i j : ℕ) : List (ℕ × K) :=
  (List.range' i (j - i)).map fun b => (b, powers b)

/-- The active bins of a frame, from bin `i` on. -/
def activeCells (bins : ℕ) (threshold : K) (powers : ℕ → K) (i : ℕ) : List (ℕ × K) :=
  (cellsOf powers i bins).filter fun c => threshold ≤ c.2

/-- A run counts its cells and sums their powers. -/
structure Run.Counted (run : Run K) : Prop where
  count_eq : run.count = run.cells.length
  sum_eq : run.sum = (run.cells.map Prod.snd).sum

omit [LinearOrder K] in
theorem Run.Counted.start : (Run.start i : Run K).Counted := ⟨rfl, rfl⟩

theorem Run.Counted.add {run : Run K} (h : run.Counted) (i : ℕ) (x : K) : (run.add i x).Counted :=
  ⟨by simp [Run.add, h.count_eq], by simp [Run.add, h.sum_eq]⟩

omit [LinearOrder K] in
theorem Run.Counted.mark {run : Run K} (h : run.Counted) : (run.mark bins frameClipped).Counted :=
  ⟨h.count_eq, h.sum_eq⟩

/-- What the `do … while` leaves: the run from `i` to the first inactive bin `k`. -/
structure TookRun (bins : ℕ) (threshold : K) (powers : ℕ → K) (i : ℕ) (run : Run K)
    (next : Run K × ℕ) : Prop where
  lt : i < next.2
  le : next.2 ≤ bins
  active : ∀ b, i ≤ b → b < next.2 → threshold ≤ powers b
  stop : next.2 < bins → powers next.2 < threshold
  low_eq : next.1.low = run.low
  high_eq : next.1.high + 1 = next.2
  cells_eq : next.1.cells = run.cells ++ cellsOf powers i next.2
  quality_eq : next.1.quality = run.quality
  counted : run.Counted → next.1.Counted

theorem takeRun_spec {run : Run K} (hi : i < bins) (ha : threshold ≤ powers i) :
    TookRun bins threshold powers i run (takeRun bins threshold powers i run) := by
  fun_induction takeRun bins threshold powers i run with
  | case1 i run run' h ih =>
    have t := ih h.1 h.2
    refine ⟨by have := t.lt; omega, t.le, fun b hb hb' => ?_, t.stop, t.low_eq, t.high_eq, ?_,
      t.quality_eq, fun hc => t.counted (hc.add _ _)⟩
    · rcases Nat.eq_or_lt_of_le hb with rfl | hb
      · exact ha
      · exact t.active b hb hb'
    · have hlt := t.lt
      rw [t.cells_eq, cellsOf, cellsOf]
      obtain ⟨n, hn⟩ := Nat.exists_eq_succ_of_ne_zero
        (n := (takeRun bins threshold powers (i + 1) run').2 - i) (by omega)
      rw [hn, List.range'_succ, show (takeRun bins threshold powers (i + 1) run').2 - (i + 1) = n
        by omega]
      simp [run', Run.add]
  | case2 i run run' h =>
    refine ⟨Nat.lt_succ_self i, hi, fun b hb hb' => ?_, fun hlt => ?_, rfl, rfl, ?_, rfl,
      fun hc => hc.add _ _⟩
    · obtain rfl : b = i := by simp only at hb'; omega
      exact ha
    · exact not_le.mp fun hle => h ⟨hlt, hle⟩
    · simp [run', Run.add, cellsOf]

/-- A maximal run of active bins of a frame: every bin of `low … high` is active, and the bins
next to it are inactive or outside the frame. -/
structure IsRun (bins : ℕ) (threshold : K) (powers : ℕ → K) (low high : ℕ) : Prop where
  le : low ≤ high
  lt : high < bins
  active : ∀ b, low ≤ b → b ≤ high → threshold ≤ powers b
  left : ∀ b, b + 1 = low → powers b < threshold
  right : high + 1 < bins → powers (high + 1) < threshold

omit [Field K] in
/-- Two maximal runs that share a bin are the same run. -/
theorem IsRun.eq_of_mem {l h l' h' b : ℕ} (r : IsRun bins threshold powers l h)
    (r' : IsRun bins threshold powers l' h') (hb : l ≤ b ∧ b ≤ h) (hb' : l' ≤ b ∧ b ≤ h') :
    l = l' ∧ h = h' := by
  have left : ∀ {l h l' h'}, IsRun bins threshold powers l h → IsRun bins threshold powers l' h' →
      l ≤ b ∧ b ≤ h → l' ≤ b ∧ b ≤ h' → l ≤ l' := by
    intro l h l' h' r r' hb hb'
    by_contra hlt
    have := r.left (l - 1) (by omega)
    exact absurd (r'.active (l - 1) (by omega) (by omega)) (not_le.mpr this)
  have right : ∀ {l h l' h'}, IsRun bins threshold powers l h → IsRun bins threshold powers l' h' →
      l ≤ b ∧ b ≤ h → l' ≤ b ∧ b ≤ h' → h' ≤ h := by
    intro l h l' h' r r' hb hb'
    by_contra hlt
    have hlt' := r'.lt
    have := r.right (by omega)
    exact absurd (r'.active (h + 1) (by omega) (by omega)) (not_le.mpr this)
  exact ⟨le_antisymm (left r r' hb hb') (left r' r hb' hb),
    le_antisymm (right r' r hb' hb) (right r r' hb hb')⟩

omit [Field K] in
theorem activeCells_of_lt (hi : i < bins) (h : powers i < threshold) :
    activeCells bins threshold powers i = activeCells bins threshold powers (i + 1) := by
  obtain ⟨n, hn⟩ : ∃ n, bins - i = n + 1 := ⟨bins - i - 1, by omega⟩
  rw [activeCells, activeCells, cellsOf, cellsOf, hn, show bins - (i + 1) = n by omega,
    List.range'_succ, List.map_cons, List.filter_cons, if_neg (by simpa using h)]

omit [Field K] in
theorem activeCells_append {k : ℕ} (hik : i ≤ k) (hk : k ≤ bins)
    (h : ∀ b, i ≤ b → b < k → threshold ≤ powers b) :
    activeCells bins threshold powers i =
      cellsOf powers i k ++ activeCells bins threshold powers k := by
  have hsplit : cellsOf powers i bins = cellsOf powers i k ++ cellsOf powers k bins := by
    rw [cellsOf, cellsOf, cellsOf, ← List.map_append]
    congr 1
    have := List.range'_append_1 (s := i) (m := k - i) (n := bins - k)
    rw [show i + (k - i) = k by omega] at this
    rw [this]
    congr 1
    omega
  rw [activeCells, hsplit, List.filter_append, activeCells]
  congr 1
  refine List.filter_eq_self.mpr fun c hc => ?_
  obtain ⟨b, hb, rfl⟩ := List.mem_map.mp hc
  rw [List.mem_range'_1] at hb
  simpa using h b (by omega) (by omega)

/-- The runs hold the active bins of the frame, in order, and each of them once. -/
theorem extractRuns_cells (frameClipped : ℕ) :
    (extractRuns bins threshold powers frameClipped i).flatMap Run.cells =
      activeCells bins threshold powers i := by
  fun_induction extractRuns bins threshold powers frameClipped i with
  | case1 i hi h ih => rw [ih, activeCells_of_lt hi h]
  | case2 i hi h next ih =>
    have t : TookRun bins threshold powers i (.start i) next := takeRun_spec hi (not_lt.mp h)
    rw [List.flatMap_cons, ih, activeCells_append (Nat.le_of_lt t.lt) t.le t.active]
    congr 1
    exact t.cells_eq
  | case3 i hi =>
    rw [activeCells, cellsOf, show bins - i = 0 by omega]
    rfl

/-- Every extracted run is a maximal run of the frame and records its cells. -/
theorem extractRuns_isRun (hleft : ∀ b, b + 1 = i → threshold ≤ powers i → powers b < threshold)
    {run : Run K} (h : run ∈ extractRuns bins threshold powers frameClipped i) :
    IsRun bins threshold powers run.low run.high ∧ i ≤ run.low ∧
      run.cells = cellsOf powers run.low (run.high + 1) ∧ run.Counted := by
  fun_induction extractRuns bins threshold powers frameClipped i with
  | case1 i hi hlt ih =>
    obtain ⟨h₁, h₂, h₃⟩ := ih (fun b hb _ => by rwa [show b = i by omega]) h
    exact ⟨h₁, by omega, h₃⟩
  | case2 i hi hlt next ih =>
    have ha : threshold ≤ powers i := not_lt.mp hlt
    have t : TookRun bins threshold powers i (.start i) next := takeRun_spec hi ha
    have hnext := t.lt
    rcases List.mem_cons.mp h with rfl | h
    · have hlow : (next.1.mark bins frameClipped).low = i := t.low_eq
      have hhigh : (next.1.mark bins frameClipped).high + 1 = next.2 := t.high_eq
      have hle := t.le
      refine ⟨⟨by omega, by omega, fun b hb hb' => t.active b (by omega) (by omega),
        fun b hb => hleft b (by omega) ha, fun hr => ?_⟩, by omega, ?_,
        (t.counted .start).mark⟩
      · rw [hhigh] at hr ⊢
        exact t.stop hr
      · rw [hlow, hhigh]
        exact t.cells_eq
    · obtain ⟨h₁, h₂, h₃⟩ := ih (fun b hb hact => by
        -- The loop goes on at an inactive bin, or at the end, where it finds no run.
        rcases Nat.lt_or_ge next.2 bins with hlt' | hge
        · exact absurd hact (not_le.mpr (t.stop hlt'))
        · rw [extractRuns, if_neg (by omega)] at h
          simp at h) h
      exact ⟨h₁, by omega, h₃⟩
  | case3 i hi => simp at h

/-- An extracted run is marked at the edge of the range and for clipped samples only. -/
theorem extractRuns_quality {run : Run K}
    (h : run ∈ extractRuns bins threshold powers frameClipped i) {f : SurveyQuality}
    (hf : HasFlag run.quality f) : f = boundary ∨ f = clipped := by
  fun_induction extractRuns bins threshold powers frameClipped i with
  | case1 i hi hlt ih => exact ih h
  | case2 i hi hlt next ih =>
    rcases List.mem_cons.mp h with rfl | h
    · have t : TookRun bins threshold powers i (.start i) next := takeRun_spec hi (not_lt.mp hlt)
      have hq : next.1.quality = 0 := t.quality_eq
      simp only [Run.mark, hq] at hf
      split at hf <;> split at hf <;> simp [eq_comm] at hf <;> tauto
    · exact ih h
  | case3 i hi => simp at h

/-- The extracted runs stand in the order of their bins. -/
theorem extractRuns_pairwise (hleft : ∀ b, b + 1 = i → threshold ≤ powers i → powers b < threshold) :
    (extractRuns bins threshold powers frameClipped i).Pairwise fun a b => a.high < b.low := by
  fun_induction extractRuns bins threshold powers frameClipped i with
  | case1 i hi hlt ih => exact ih fun b hb _ => by rwa [show b = i by omega]
  | case2 i hi hlt next ih =>
    have t : TookRun bins threshold powers i (.start i) next := takeRun_spec hi (not_lt.mp hlt)
    have hl : ∀ b, b + 1 = next.2 → threshold ≤ powers next.2 → next.2 < bins →
        powers b < threshold := fun b _ hact hlt' => absurd hact (not_le.mpr (t.stop hlt'))
    have hhigh : (next.1.mark bins frameClipped).high + 1 = next.2 := t.high_eq
    rcases Nat.lt_or_ge next.2 bins with hlt' | hge
    · refine List.pairwise_cons.mpr ⟨fun run hrun => ?_, ih fun b hb ha => hl b hb ha hlt'⟩
      have := (extractRuns_isRun (fun b hb ha => hl b hb ha hlt') hrun).2.1
      omega
    · rw [extractRuns, if_neg (by omega)]
      exact List.pairwise_singleton _ _
  | case3 i hi => exact .nil

/-- Every maximal run of the frame is extracted. -/
theorem exists_mem_extractRuns (frameClipped : ℕ) {l h : ℕ} (hr : IsRun bins threshold powers l h) :
    ∃ run ∈ extractRuns bins threshold powers frameClipped 0, run.low = l ∧ run.high = h := by
  have hl : (l, powers l) ∈ activeCells bins threshold powers 0 := by
    have hlt := hr.lt
    have hle := hr.le
    simp only [activeCells, cellsOf, List.mem_filter, List.mem_map, List.mem_range'_1]
    exact ⟨⟨l, by omega, rfl⟩, by simpa using hr.active l (le_refl l) hr.le⟩
  rw [← extractRuns_cells frameClipped, List.mem_flatMap] at hl
  obtain ⟨run, hrun, hl⟩ := hl
  obtain ⟨hrun', -, hcells, -⟩ := extractRuns_isRun (fun b hb => by omega) hrun
  rw [hcells, cellsOf, List.mem_map] at hl
  obtain ⟨b, hb, heq⟩ := hl
  obtain rfl : b = l := congrArg Prod.fst heq
  rw [List.mem_range'_1] at hb
  obtain ⟨rfl, rfl⟩ := hrun'.eq_of_mem hr (b := b) ⟨hb.1, by omega⟩ ⟨le_refl b, hr.le⟩
  exact ⟨run, hrun, rfl, rfl⟩

/-! ## Grouping -/

/-- `merged` after the run `next` of its group. -/
def Run.merge (merged next : Run K) : Run K :=
  { merged with
    high := next.high
    sum := merged.sum + next.sum
    peak := max merged.peak next.peak
    count := merged.count + next.count
    quality := merged.quality ||| next.quality
    cells := merged.cells ++ next.cells }

/-- The in-place grouping loop: the runs from `begin` on are read in groups of `groupSize`, and
each group is written as one run at `out`. -/
def groupFrom (groupSize begin out : ℕ) (runs : List (Run K)) : List (Run K) :=
  if begin < runs.length ∧ 0 < groupSize then
    match (runs.drop begin).take groupSize with
    | [] => runs.take out
    | first :: rest =>
      let merged := rest.foldl Run.merge first
      let merged := { merged with quality := merged.quality ||| (mask .merged ||| truncated.mask) }
      groupFrom groupSize (begin + groupSize) (out + 1) (runs.set out merged)
  else runs.take out
termination_by runs.length - begin
decreasing_by
  rw [List.length_set]
  omega

/-- Excess runs are grouped, to bound the association cost. -/
def groupRuns (runs : List (Run K)) : List (Run K) :=
  if maxTracks < runs.length then
    groupFrom ((runs.length + maxTracks - 1) / maxTracks) 0 0 runs
  else runs

theorem groupRuns_of_le {runs : List (Run K)} (h : runs.length ≤ maxTracks) :
    groupRuns runs = runs := if_neg (by omega)

theorem foldl_merge_cells (rest : List (Run K)) (first : Run K) :
    (rest.foldl Run.merge first).cells = first.cells ++ rest.flatMap Run.cells := by
  induction rest generalizing first with
  | nil => simp
  | cons run rest ih => simp [ih, Run.merge]

theorem Run.Counted.merge {a b : Run K} (ha : a.Counted) (hb : b.Counted) : (a.merge b).Counted :=
  ⟨by simp [Run.merge, ha.count_eq, hb.count_eq], by simp [Run.merge, ha.sum_eq, hb.sum_eq]⟩

theorem Run.Counted.foldl_merge {rest : List (Run K)} {first : Run K} (hf : first.Counted)
    (hr : ∀ run ∈ rest, run.Counted) : (rest.foldl Run.merge first).Counted := by
  induction rest generalizing first with
  | nil => exact hf
  | cons run rest ih =>
    exact ih (hf.merge (hr run (by simp))) fun r h => hr r (by simp [h])

/-- What the grouping loop leaves of the runs that it reads. -/
structure Grouped (groupSize : ℕ) (runs groups : List (Run K)) : Prop where
  cells_eq : groups.flatMap Run.cells = runs.flatMap Run.cells
  counted : (∀ run ∈ runs, run.Counted) → ∀ run ∈ groups, run.Counted
  marked : ∀ run ∈ groups, HasFlag run.quality .merged ∧ HasFlag run.quality .truncated
  length_lt : groups.length * groupSize < runs.length + groupSize

variable {groupSize begin out : ℕ} {runs : List (Run K)}

/-- The loop writes behind the runs that it still has to read. -/
theorem groupFrom_spec (runs : List (Run K)) (hg : 0 < groupSize) (ho : out ≤ begin) :
    ∃ groups, groupFrom groupSize begin out runs = runs.take out ++ groups ∧
      Grouped groupSize (runs.drop begin) groups := by
  fun_induction groupFrom groupSize begin out runs with
  | case1 begin out runs h hnil =>
    have : ((runs.drop begin).take groupSize).length = 0 := by rw [hnil, List.length_nil]
    rw [List.length_take, List.length_drop] at this
    omega
  | case2 begin out runs h first rest hslice merged merged' ih =>
    obtain ⟨groups, heq, g⟩ := ih (by omega)
    have hdrop : runs.drop begin = (first :: rest) ++ runs.drop (begin + groupSize) := by
      rw [← hslice, ← List.drop_drop, List.take_append_drop]
    rw [List.drop_set_of_lt (by omega)] at g
    refine ⟨merged' :: groups, ?_, ?_, fun hc run hrun => ?_, fun run hrun => ?_, ?_⟩
    · rw [heq, List.take_add_one, List.take_set_of_le (le_refl out)]
      simp [show out < runs.length by omega]
    · rw [hdrop, List.flatMap_cons, g.cells_eq, List.flatMap_append]
      congr 1
      simp [merged', merged, foldl_merge_cells]
    · rw [hdrop] at hc
      rcases List.mem_cons.mp hrun with rfl | hrun
      · have hm : merged.Counted := .foldl_merge (hc first (by simp)) fun run h => hc run (by simp [h])
        exact ⟨hm.count_eq, hm.sum_eq⟩
      · exact g.counted (fun run h => hc run (List.mem_append_right _ h)) run hrun
    · rcases List.mem_cons.mp hrun with rfl | hrun
      · simp [merged']
      · exact g.marked run hrun
    · have hlt := g.length_lt
      rw [List.length_drop] at hlt
      rw [List.length_drop, List.length_cons, Nat.add_mul]
      rcases Nat.eq_zero_or_pos groups.length with h0 | h0
      · rw [h0]
        omega
      · have := Nat.le_mul_of_pos_left groupSize h0
        omega
  | case3 begin out runs h =>
    have hlen : runs.length ≤ begin := by omega
    refine ⟨[], (List.append_nil _).symm, ?_, by simp, by simp, by simp [hg]⟩
    rw [List.drop_eq_nil_of_le hlen]

theorem groupRuns_spec (h : maxTracks < runs.length) :
    Grouped ((runs.length + maxTracks - 1) / maxTracks) runs (groupRuns runs) := by
  have hsize : 0 < (runs.length + maxTracks - 1) / maxTracks := by
    simp only [maxTracks] at h ⊢
    omega
  obtain ⟨groups, heq, g⟩ := groupFrom_spec runs hsize (le_refl 0)
  rw [groupRuns, if_pos h, heq]
  exact g

/-- Grouping moves no cell between frames and loses none. -/
theorem groupRuns_cells : (groupRuns runs).flatMap Run.cells = runs.flatMap Run.cells := by
  by_cases h : maxTracks < runs.length
  · exact (groupRuns_spec h).cells_eq
  · rw [groupRuns_of_le (by omega)]

theorem groupRuns_counted (hc : ∀ run ∈ runs, run.Counted) : ∀ run ∈ groupRuns runs, run.Counted := by
  by_cases h : maxTracks < runs.length
  · exact (groupRuns_spec h).counted hc
  · rwa [groupRuns_of_le (by omega)]

theorem groupRuns_length_le : (groupRuns runs).length ≤ maxTracks := by
  by_cases h : maxTracks < runs.length
  · have hlt := (groupRuns_spec h).length_lt
    generalize hs : (runs.length + maxTracks - 1) / maxTracks = size at hlt
    by_contra hgt
    have := Nat.mul_le_mul_right size (show maxTracks + 1 ≤ (groupRuns runs).length by omega)
    simp only [maxTracks] at *
    omega
  · rw [groupRuns_of_le (by omega)]
    omega

end SpectrumProcessor

end OVMesh
