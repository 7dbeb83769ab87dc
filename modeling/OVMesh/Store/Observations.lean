import OVMesh.Store.Laws
import OVMesh.Store.Valid

/-!
# The display buckets of an analysis

The frames of the tiles are spread over the buckets of the query, and the buckets become the
observations of the result.

* `Sums.observations`: the observations, in the order of the buckets.
* `InCells`: each observation lies in the cell of its bucket. `spread_spec`: one frame keeps it.
* `Bucketed`: the state of the tile loop.
* `analyze_observations`: the observations of every analysis.
-/

namespace OVMesh

namespace Analysis

open Checked Clip SpectrumProcessor

variable {K : Type} [Field K] [LinearOrder K]

/-- The observations of the result. -/
def Sums.observations (s : Sums K) (maxObservations : ℕ) : List (Bucket K) :=
  (List.range maxObservations).filterMap s.buckets

/-- The active seconds of a part of the range. -/
def Bucket.seconds (a : Bucket K) : Region → K
  | .all => a.busySeconds
  | .center => a.centerBusySeconds
  | .outside => a.outsideCenterBusySeconds

/-- A total over the buckets. -/
def totalOf (φ : Bucket K → K) (n : ℕ) (buckets : ℕ → Option (Bucket K)) : K :=
  (((List.range n).filterMap buckets).map φ).sum

/-- A field to which a part of a frame adds its length, or nothing. -/
structure Counts (part : FramePart K) (φ : Bucket K → K) (flag : Bool) : Prop where
  fresh : ∀ time position, φ (.fresh time position) = 0
  add : ∀ edge stop time boundary a, φ (a.add edge stop part time boundary) =
    φ a + if flag then boundary - time else 0

/-- The observations lie in the cells of their buckets. -/
structure InCells (r : Resolved K) (n : ℕ) (buckets : ℕ → Option (Bucket K)) : Prop where
  bound : ∀ k, n ≤ k → buckets k = none
  cell : ∀ k a, buckets k = some a → r.edge k ≤ a.elapsedStart ∧
    a.elapsedStart < bucketEnd r n k ∧ a.elapsedEnd ≤ bucketEnd r n k

/-- The observations begin at an edge or not after `x`, and end later. -/
def Begun (r : Resolved K) (x : K) (buckets : ℕ → Option (Bucket K)) : Prop :=
  ∀ k a, buckets k = some a → a.elapsedStart ≤ max (r.edge k) x ∧ a.elapsedStart < a.elapsedEnd

section Spread

variable {r : Resolved K} {n k rounds : ℕ} {time frameTo x : K} {part : FramePart K}
  {buckets out : ℕ → Option (Bucket K)} {φ : Bucket K → K} {flag : Bool}

omit [LinearOrder K] in
theorem totalOf_eq (φ : Bucket K → K) :
    totalOf φ n buckets = ((List.range n).map fun i => ((buckets i).map φ).getD 0).sum := by
  rw [totalOf]
  induction List.range n with
  | nil => rfl
  | cons i is ih =>
    rw [List.filterMap_cons, List.map_cons, List.sum_cons, ← ih]
    cases buckets i with
    | none => simp
    | some a => simp

omit [LinearOrder K] in
/-- A bucket is written: the total changes by its change. -/
theorem totalOf_update (φ : Bucket K → K) (hk : k < n) (a : Bucket K) :
    totalOf φ n (Function.update buckets k (some a)) =
      totalOf φ n buckets - ((buckets k).map φ).getD 0 + φ a := by
  rw [totalOf_eq, totalOf_eq]
  have hrest : ∀ m ≤ k, ((List.range m).map fun i =>
      ((Function.update buckets k (some a) i).map φ).getD 0) =
      (List.range m).map fun i => ((buckets i).map φ).getD 0 := by
    intro m hm
    refine List.map_congr_left fun i hi => ?_
    rw [Function.update_of_ne (by have := List.mem_range.mp hi; omega)]
  induction n with
  | zero => omega
  | succ n ih =>
    rw [List.range_succ, List.map_append, List.sum_append, List.map_append, List.sum_append,
      List.map_singleton, List.sum_singleton, List.map_singleton, List.sum_singleton]
    by_cases heq : k = n
    · subst heq
      rw [hrest k le_rfl, Function.update_self]
      simp only [Option.map_some, Option.getD_some]
      ring
    · rw [ih (by omega), Function.update_of_ne (Ne.symm heq)]
      ring

theorem Counts.sum (h : Counts part φ flag) (hk : k < n) {edge stop boundary : K} :
    totalOf φ n (Function.update buckets k (some (((buckets k).getD (.fresh time part.receiverEnd)).add
      edge stop part time boundary))) =
      totalOf φ n buckets + if flag then boundary - time else 0 := by
  rw [totalOf_update φ hk, h.add]
  cases buckets k with
  | none =>
    simp only [Option.getD_none, Option.map_none, h.fresh]
    ring
  | some a =>
    simp only [Option.getD_some, Option.map_some]
    ring

theorem bucketEnd_le (h : k + 1 ≠ n) : bucketEnd r n k ≤ r.edge (k + 1) := by
  rw [bucketEnd, if_neg h]
  exact min_le_right _ _

variable [IsStrictOrderedRing K] [FloorRing K]

/-- **A frame.** It adds its length to the fields of its kind, and its parts to the cells that they
are in. -/
theorem spread_spec (hw : 0 < r.bucketSeconds) (hn : 0 < n) (hstop : frameTo ≤ r.stop)
    (ht : r.start ≤ time) (hle : time ≤ frameTo) (hin : InCells r n buckets)
    (h : spread r n part frameTo rounds time buckets = .ok out) :
    InCells r n out ∧
      (∀ φ flag, Counts part φ flag →
        totalOf φ n out = totalOf φ n buckets + if flag then frameTo - time else 0) ∧
      ∀ x ≤ time, (time < frameTo → time ≤ max (r.edge (bucketAt r n time)) x) → Begun r x buckets →
        Begun r x out := by
  induction rounds generalizing time buckets with
  | zero =>
    rw [spread] at h
    split_ifs at h with hlt
    obtain rfl := Except.ok.inj h
    obtain rfl := le_antisymm hle (not_lt.mp hlt)
    refine ⟨hin, fun φ flag _ => ?_, fun x _ _ hbegun => hbegun⟩
    rw [sub_self, ite_self, add_zero]
  | succ rounds ih =>
    rw [spread] at h
    split_ifs at h with hlt
    · obtain ⟨hb, hedge, -⟩ := bucketAt_spec (n := n) hw ht
      have hnext := bucketAt_boundary hw hn ht hstop
      have hinside := lt_bucketEnd hw hn ht (hlt.trans_le hstop)
      simp only [bind_eq_ok, reject_eq_ok, not_le] at h
      obtain ⟨-, hmore, h⟩ := h
      generalize bucketAt r n time = b at hb hedge hnext hinside hmore h
      have hlast : min frameTo (bucketEnd r n b) ≤ bucketEnd r n b := min_le_right _ _
      -- The bucket of `time` takes in the part up to its end or to that of the frame.
      have hin' : InCells r n (Function.update buckets b (some (((buckets b).getD
          (.fresh time part.receiverEnd)).add (r.edge b) (bucketEnd r n b) part time
            (min frameTo (bucketEnd r n b))))) := by
        refine ⟨fun k hk => ?_, fun k a ha => ?_⟩
        · rw [Function.update_of_ne (by omega)]
          exact hin.bound k hk
        · by_cases hk : k = b
          · subst hk
            rw [Function.update_self] at ha
            obtain rfl := Option.some.inj ha
            cases hold : buckets k with
            | none => exact ⟨hedge, hinside, hlast⟩
            | some old =>
              obtain ⟨hfirst, hstart, -⟩ := hin.cell k old hold
              exact ⟨hfirst, hstart, hlast⟩
          · rw [Function.update_of_ne hk] at ha
            exact hin.cell k a ha
      -- The rest of the frame is in the buckets from there on.
      obtain ⟨hcells, htotal, hbegun⟩ := ih (ht.trans hmore.le) (min_le_left _ _) hin' h
      refine ⟨hcells, fun φ flag hcounts => ?_, fun x hx hat hbefore => ?_⟩
      · rw [htotal φ flag hcounts, hcounts.sum (by omega)]
        split_ifs
        · ring
        · ring
      · refine hbegun x (hx.trans hmore.le) (fun hfurther => ?_) fun k a ha => ?_
        · have hlater := hnext hfurther
          have hne : b + 1 ≠ n := by
            intro heq
            rw [bucketEnd, if_pos heq, min_eq_left hstop] at hfurther
            exact lt_irrefl _ hfurther
          exact ((hlast.trans (bucketEnd_le hne)).trans (edge_mono hw hlater)).trans (le_max_left _ _)
        · by_cases hk : k = b
          · subst hk
            rw [Function.update_self] at ha
            obtain rfl := Option.some.inj ha
            cases hold : buckets k with
            | none => exact ⟨hat hlt, hmore⟩
            | some old =>
              have hstart := (hbefore k old hold).1
              exact ⟨hstart, (hstart.trans (max_le hedge hx)).trans_lt hmore⟩
          · rw [Function.update_of_ne hk] at ha
            exact hbefore k a ha
    · obtain rfl := Except.ok.inj h
      obtain rfl := le_antisymm hle (not_lt.mp hlt)
      refine ⟨hin, fun φ flag _ => ?_, fun x _ _ hbegun => hbegun⟩
      rw [sub_self, ite_self, add_zero]

end Spread

/-! ## Tiles -/

/-- Opening a grid changes neither the buckets nor the totals. -/
structure SameBuckets (s s' : Sums K) : Prop where
  sums : SameSums s s'
  buckets : s'.buckets = s.buckets
  tileCount : s'.tileCount = s.tileCount

section Grid

variable {s s' : Sums K} {gr : Grid K} {c : ReceiverConfig K} {t : SpectrumTile K}
  {lower upper center width : K}

omit [Field K] [LinearOrder K] in
theorem SameBuckets.refl (s : Sums K) : SameBuckets s s := ⟨.refl s, rfl, rfl⟩

omit [Field K] [LinearOrder K] in
theorem SameBuckets.trans {a b c : Sums K} (h₁ : SameBuckets a b) (h₂ : SameBuckets b c) :
    SameBuckets a c :=
  ⟨h₁.sums.trans h₂.sums, h₂.buckets.trans h₁.buckets, h₂.tileCount.trans h₁.tileCount⟩

theorem emplaceBin_same {i : ℕ} (h : emplaceBin center width s = .ok (i, s')) : SameBuckets s s' := by
  unfold emplaceBin at h
  split at h
  · obtain ⟨-, rfl⟩ := Prod.mk.inj (Except.ok.inj h)
    exact .refl s
  · obtain ⟨_, -, h⟩ := bind_eq_ok.mp h
    dsimp only at h
    split_ifs at h
    · obtain ⟨-, rfl⟩ := Prod.mk.inj (Except.ok.inj h)
      exact ⟨⟨rfl, fun x => by cases x <;> rfl⟩, rfl, rfl⟩
    · obtain ⟨-, rfl⟩ := Prod.mk.inj (Except.ok.inj h)
      exact ⟨⟨rfl, fun x => by cases x <;> rfl⟩, rfl, rfl⟩
    · obtain ⟨-, rfl⟩ := Prod.mk.inj (Except.ok.inj h)
      exact ⟨⟨rfl, fun x => by cases x <;> rfl⟩, rfl, rfl⟩

theorem openBin_same {gs gs' : Grid K × Sums K} {b : ℕ} (h : openBin c gs b = .ok gs') :
    SameBuckets gs.2 gs'.2 := by
  obtain ⟨gr, s⟩ := gs
  unfold openBin at h
  dsimp only at h
  obtain ⟨⟨i, s₁⟩, hemplace, h⟩ := bind_eq_ok.mp h
  refine (emplaceBin_same hemplace).trans ?_
  dsimp only at h
  split_ifs at h
  · obtain rfl := Except.ok.inj h
    exact ⟨⟨rfl, fun x => by cases x <;> rfl⟩, rfl, rfl⟩
  · obtain rfl := Except.ok.inj h
    exact ⟨⟨rfl, fun x => by cases x <;> rfl⟩, rfl, rfl⟩
  · obtain rfl := Except.ok.inj h
    exact ⟨⟨rfl, fun x => by cases x <;> rfl⟩, rfl, rfl⟩

theorem tileGrid_same {grid : Option (Grid K)}
    (h : tileGrid c lower upper t grid s = .ok (gr, s')) : SameBuckets s s' := by
  unfold tileGrid at h
  split at h
  · unfold openGrid at h
    exact foldlM_induction (P := fun _ gs => SameBuckets s gs.2)
      (fun _ _ _ _ _ _ hP hstep => hP.trans (openBin_same hstep)) (.refl s) h
  · obtain ⟨_, -, h⟩ := bind_eq_ok.mp h
    obtain ⟨-, rfl⟩ := Prod.mk.inj (Except.ok.inj h)
    exact .refl s

end Grid

/-- What frames of a length do to the sums. -/
structure Shares (r : Resolved K) (n : ℕ) (gained : K) (s s' : Sums K) : Prop where
  observed : s'.observedSeconds = s.observedSeconds
  tileCount : s'.tileCount = s.tileCount
  cells : InCells r n s'.buckets
  seconds : ∀ x, totalOf (·.seconds x) n s'.buckets - s'.seconds x =
    totalOf (·.seconds x) n s.buckets - s.seconds x
  spread : totalOf (·.observedSeconds) n s'.buckets =
    totalOf (·.observedSeconds) n s.buckets + gained

section Frames

variable {r : Resolved K} {q : SurveyQuery K} {c : ReceiverConfig K} {gr : Grid K}
  {t : SpectrumTile K} {start stop x y : K} {part : FramePart K} {s s' s'' : Sums K} {f n : ℕ}
  {gained gained' : K} {buckets : ℕ → Option (Bucket K)}

theorem Shares.trans (h : Shares r n gained s s') (h' : Shares r n gained' s' s'') :
    Shares r n (gained + gained') s s'' := by
  refine ⟨h'.observed.trans h.observed, h'.tileCount.trans h.tileCount, h'.cells,
    fun x => (h'.seconds x).trans (h.seconds x), ?_⟩
  rw [h'.spread, h.spread, add_assoc]

theorem Begun.mono (h : Begun r x buckets) (hle : x ≤ y) : Begun r y buckets := fun k a ha =>
  ⟨(h k a ha).1.trans (max_le_max_left _ hle), (h k a ha).2⟩

/-- The fields that a frame adds to. -/
theorem counts_observed : Counts part (·.observedSeconds) true := ⟨fun _ _ => rfl, fun _ _ _ _ _ => rfl⟩

theorem counts_seconds (scan : Scan K) (x : Region) :
    Counts { part with
      busy := scan.busy, centerBusy := scan.centerBusy, outsideBusy := scan.outsideBusy }
      (·.seconds x) (scan.flag x) := by
  refine ⟨fun _ _ => by cases x <;> rfl, fun _ _ _ _ a => ?_⟩
  by_cases hflag : scan.flag x = true
  · rw [if_pos hflag]
    cases x <;> exact if_pos hflag
  · rw [if_neg hflag, add_zero]
    cases x <;> exact if_neg hflag

/-- The first sample of a frame. -/
def frameStart (c : ReceiverConfig K) (t : SpectrumTile K) (f : ℕ) : K :=
  t.elapsedStartSeconds + f * (t.fftSize / c.sampleRate)

/-- The length of a frame within `start` and `stop`. -/
def frameLength (c : ReceiverConfig K) (t : SpectrumTile K) (start stop : K) (f : ℕ) : K :=
  overlap (frameStart c t f) (frameStart c t (f + 1)) start stop

omit [LinearOrder K] in
theorem frameStart_zero : frameStart c t 0 = t.elapsedStartSeconds := by
  rw [frameStart, Nat.cast_zero, zero_mul, add_zero]

variable [IsStrictOrderedRing K]

theorem frameStart_mono {i j : ℕ} (h : i ≤ j) : frameStart c t i ≤ frameStart c t j :=
  add_le_add_right (mul_le_mul_of_nonneg_right (Nat.cast_le.mpr h)
    (div_nonneg (Nat.cast_nonneg _) (Nat.cast_nonneg _))) _

theorem sum_frameLength (n : ℕ) : ((List.range n).map (frameLength c t start stop)).sum =
    overlap t.elapsedStartSeconds (frameStart c t n) start stop :=
  sum_overlap (div_nonneg (Nat.cast_nonneg _) (Nat.cast_nonneg _)) n

variable [FloorRing K]

/-- One frame of a tile. -/
theorem analyzeFrame_spec (hw : 0 < r.bucketSeconds) (hn : q.maxObservations ≠ 0)
    (hstart : start = max r.start t.elapsedStartSeconds) (hstop : stop ≤ r.stop)
    (hin : InCells r q.maxObservations s.buckets)
    (h : analyzeFrame q r c gr t start stop part s f = .ok s') :
    Shares r q.maxObservations (frameLength c t start stop f) s s' ∧
    (x ≤ frameStart c t f → Begun r x s.buckets → Begun r (frameStart c t f) s'.buckets) := by
  have hspan : frameSpan c t start stop f =
      (max (frameStart c t f) start, min (frameStart c t (f + 1)) stop) := by
    rw [frameSpan, max_comm start, min_comm stop]
    rfl
  have hfrom : r.start ≤ max (frameStart c t f) start :=
    (hstart ▸ le_max_left _ _).trans (le_max_right _ _)
  have hto : min (frameStart c t (f + 1)) stop ≤ r.stop := (min_le_right _ _).trans hstop
  have hat : max (frameStart c t f) start ≤ max r.start (frameStart c t f) := by
    rw [hstart, ← frameStart_zero (c := c)]
    exact max_le (le_max_right _ _) (max_le_max_left _ (frameStart_mono f.zero_le))
  unfold analyzeFrame at h
  rw [hspan] at h
  dsimp only at h
  -- A frame outside the clipped tile adds nothing.
  split_ifs at h with hempty
  · obtain rfl := Except.ok.inj h
    rw [frameLength, overlap_of_le hempty]
    exact ⟨⟨rfl, rfl, hin, fun _ => rfl, (add_zero _).symm⟩, fun hx hbegun => hbegun.mono hx⟩
  · obtain ⟨buckets, hspread, h⟩ := bind_eq_ok.mp h
    obtain rfl := Except.ok.inj h
    have hlt := not_le.mp hempty
    rw [frameLength, overlap_of_lt hlt]
    generalize min (frameStart c t (f + 1)) stop = frameTo at *
    obtain ⟨hcells, htotal, hbegun⟩ := spread_spec hw (Nat.pos_of_ne_zero hn) hto hfrom hlt.le hin
      hspread
    refine ⟨⟨rfl, rfl, hcells, fun x => ?_, htotal _ _ counts_observed⟩, fun hx hbefore => ?_⟩
    · have hsum : (Sums.seconds { s.addScan (scanFrame gr t.activity f
          (frameTo - max (frameStart c t f) start) s.bins)
          (frameTo - max (frameStart c t f) start) with buckets } x) = _ := addScan_seconds s x
      rw [hsum]
      have htotal := htotal _ _ (counts_seconds _ x)
      dsimp only at htotal ⊢
      rw [htotal]
      split_ifs
      · ring
      · ring
    · refine hbegun _ (le_max_left _ _) (fun _ => hat.trans (max_le_max_right _ ?_)) (hbefore.mono hx)
      rw [Resolved.edge]
      exact le_add_of_nonneg_left (mul_nonneg (Nat.cast_nonneg _) hw.le)

/-- The frames of a tile. -/
theorem analyzeFrames_spec (hw : 0 < r.bucketSeconds) (hn : q.maxObservations ≠ 0)
    (hstart : start = max r.start t.elapsedStartSeconds) (hstop : stop ≤ r.stop)
    (hin : InCells r q.maxObservations s.buckets)
    (h : (List.range t.frameCount).foldlM (analyzeFrame q r c gr t start stop part) s = .ok s') :
    Shares r q.maxObservations
      (overlap t.elapsedStartSeconds (frameStart c t t.frameCount) start stop) s s' ∧
    (x ≤ t.elapsedStartSeconds → Begun r x s.buckets →
      Begun r (frameStart c t (t.frameCount - 1)) s'.buckets) := by
  rw [← sum_frameLength]
  have hloop := foldlM_induction (P := fun seen s' => Shares r q.maxObservations
    (seen.map (frameLength c t start stop)).sum s s' ∧ (x ≤ t.elapsedStartSeconds →
      Begun r x s.buckets → Begun r (frameStart c t (seen.length - 1)) s'.buckets))
    (fun seen f rest s₁ s₂ hseen hP hstep => ?_) ?_ h
  · rwa [List.length_range] at hloop
  · obtain ⟨hshares, hbegun⟩ := hP
    obtain ⟨hshares', hbegun'⟩ := analyzeFrame_spec (x := frameStart c t (seen.length - 1)) hw hn
      hstart hstop hshares.cells hstep
    have hf : f = seen.length := by
      have hget := congrArg (·[seen.length]?) hseen
      simp only [List.getElem?_append_right le_rfl, Nat.sub_self, List.getElem?_cons_zero] at hget
      obtain ⟨hlt, hget⟩ := List.getElem?_eq_some_iff.mp hget.symm
      rw [List.getElem_range] at hget
      exact hget.symm
    subst hf
    refine ⟨?_, fun hx hbefore => ?_⟩
    · rw [List.map_append, List.sum_append, List.map_singleton, List.sum_singleton]
      exact hshares.trans hshares'
    · rw [List.length_append, List.length_singleton, Nat.add_sub_cancel]
      exact hbegun' (frameStart_mono (Nat.sub_le _ _)) (hbegun hx hbefore)
  · refine ⟨⟨rfl, rfl, hin, fun _ => rfl, (add_zero _).symm⟩, fun hx hbefore => ?_⟩
    rw [List.length_nil, frameStart_zero]
    exact hbefore.mono hx

end Frames

/-! ## The run -/

/-- The buckets after the tiles `seen`. -/
structure Bucketed (s : SavedSurvey K) (r : Resolved K) (n : ℕ) (seen : List (SpectrumTile K))
    (st : State K) : Prop where
  cells : InCells r n st.sums.buckets
  seconds : ∀ x, totalOf (·.seconds x) n st.sums.buckets = st.sums.seconds x
  observed_le : totalOf (·.observedSeconds) n st.sums.buckets ≤ st.sums.observedSeconds
  le_observed : st.sums.observedSeconds ≤
    totalOf (·.observedSeconds) n st.sums.buckets + st.sums.tileCount * (1 / 10 ^ 7)
  exact : (∀ t ∈ seen, t.elapsedEndSeconds ≤ frameStart (s.configOf t) t t.frameCount) →
    totalOf (·.observedSeconds) n st.sums.buckets = st.sums.observedSeconds
  begun : (∀ t ∈ seen, 0 < (s.configOf t).sampleRate ∧ (s.configOf t).sampleRate < 2 ^ 32) →
    Begun r (st.previousElapsed - 1 / 10 ^ 8) st.sums.buckets

section Run

variable {s : SavedSurvey K} {q : SurveyQuery K} {r : Resolved K} {c : ReceiverConfig K}
  {t : SpectrumTile K} {st st' : State K} {n : ℕ} {seen : List (SpectrumTile K)} {m : Libm K}
  {start stop : K} [FloorRing K]

theorem readTile_valid {row : Option ℕ × ReceiverConfig K} (h : readTile s t = .ok row) :
    row.2 = s.configOf t ∧ ValidTile t row.2 := by
  refine ⟨(readTile_row h).2.1, ?_⟩
  unfold readTile at h
  obtain ⟨found, -, h⟩ := bind_eq_ok.mp h
  obtain ⟨_, hvalid, h⟩ := bind_eq_ok.mp h
  have hrow : found = row := by
    split at h
    · obtain ⟨_, -, h⟩ := bind_eq_ok.mp h
      exact Except.ok.inj h
    · exact Except.ok.inj h
  exact hrow ▸ validateTile_iff.mp hvalid

/-- The frames of a tile end within the tolerance of its end. -/
theorem frames_end (h : ValidTile t c) :
    |t.elapsedEndSeconds - frameStart c t t.frameCount| ≤ 1 / 10 ^ 7 := by
  have hduration := h.dimensions.duration
  have hframes : ((t.endSample - t.firstSample : ℕ) : K) / c.sampleRate =
      t.frameCount * (t.fftSize / c.sampleRate) := by
    rw [h.dimensions.samples, h.dimensions.fftSize, Nat.cast_mul, mul_div_assoc]
  rwa [hframes, sub_sub] at hduration

variable [IsStrictOrderedRing K]

/-- The last frame of a tile begins before the end of the tile. -/
theorem lastFrame_le (h : ValidTile t c) (hpos : 0 < c.sampleRate)
    (hlt : c.sampleRate < 2 ^ 32) :
    frameStart c t (t.frameCount - 1) ≤ t.elapsedEndSeconds - 1 / 10 ^ 8 := by
  have hend := (abs_le.mp (frames_end h)).1
  obtain ⟨count, hcount⟩ := Nat.exists_eq_add_of_lt h.dimensions.frames_pos
  have hrate : (0 : K) < c.sampleRate := Nat.cast_pos.mpr hpos
  have hlong : (11 / 10 ^ 8 : K) ≤ t.fftSize / c.sampleRate := by
    have hle : (c.sampleRate : K) ≤ (2 ^ 32 : ℕ) := Nat.cast_le.mpr hlt.le
    rw [h.dimensions.fftSize, le_div_iff₀ hrate]
    push_cast at hle ⊢
    linarith
  rw [hcount, frameStart] at hend
  rw [hcount, frameStart, Nat.add_sub_cancel]
  push_cast at hend ⊢
  linarith

/-- The frames of a tile within `start` and `stop` last as long as the tile, but for the
tolerance. -/
theorem overlap_frames (h : ValidTile t c) (hstart : t.elapsedStartSeconds ≤ start)
    (hlt : start < stop) (hstop : stop ≤ t.elapsedEndSeconds) :
    overlap t.elapsedStartSeconds (frameStart c t t.frameCount) start stop ≤ stop - start ∧
      stop - start ≤
        overlap t.elapsedStartSeconds (frameStart c t t.frameCount) start stop + 1 / 10 ^ 7 ∧
      (t.elapsedEndSeconds ≤ frameStart c t t.frameCount →
        overlap t.elapsedStartSeconds (frameStart c t t.frameCount) start stop = stop - start) := by
  have hend := (abs_le.mp (frames_end h)).2
  rw [overlap, max_eq_right hstart]
  refine ⟨max_le (sub_nonneg.mpr hlt.le) (sub_le_sub_right (min_le_right _ _) _), ?_, fun hle => ?_⟩
  · refine le_trans ?_ (add_le_add_left (le_max_right _ _) _)
    rcases min_cases (frameStart c t t.frameCount) stop with ⟨hmin, -⟩ | ⟨hmin, -⟩
    · rw [hmin]
      linarith
    · rw [hmin]
      exact le_add_of_nonneg_right (by norm_num)
  · rw [min_eq_right (hstop.trans hle), max_eq_right (sub_nonneg.mpr hlt.le)]

omit [IsStrictOrderedRing K] [FloorRing K] in
/-- Opening a grid keeps the buckets. -/
theorem Bucketed.grid (h : Bucketed s r n seen st) {sums : Sums K} (hsame : SameBuckets st.sums sums) :
    Bucketed s r n seen { st with sums } := by
  obtain ⟨⟨hobserved, hseconds⟩, hbuckets, hcount⟩ := hsame
  constructor
  · rw [hbuckets]
    exact h.cells
  · intro x
    rw [hbuckets, hseconds]
    exact h.seconds x
  · rw [hbuckets, hobserved]
    exact h.observed_le
  · rw [hbuckets, hobserved, hcount]
    exact h.le_observed
  · rw [hbuckets, hobserved]
    exact h.exact
  · rw [hbuckets]
    exact h.begun

/-- Without frames, a tile moves the time on. -/
theorem Bucketed.skip (h : Bucketed s r n seen st) (hvalid : ValidTile t (s.configOf t))
    (horder : st.previousElapsed - 1 / 10 ^ 8 ≤ t.elapsedStartSeconds) (st' : State K)
    (hsums : st'.sums = st.sums) (helapsed : st'.previousElapsed = t.elapsedEndSeconds) :
    Bucketed s r n (seen ++ [t]) st' := by
  obtain ⟨sums, grid, previousConfig, previousSample, previousElapsed⟩ := st'
  dsimp only at hsums helapsed
  subst hsums helapsed
  refine ⟨h.cells, h.seconds, h.observed_le, h.le_observed,
    fun hends => h.exact fun x hx => hends x (List.mem_append_left _ hx), fun hrates => ?_⟩
  have hrate := hrates t (by simp)
  refine (h.begun fun x hx => hrates x (List.mem_append_left _ hx)).mono
    (horder.trans (le_trans ?_ (lastFrame_le hvalid hrate.1 hrate.2)))
  rw [← frameStart_zero (c := s.configOf t)]
  exact frameStart_mono (Nat.zero_le _)

/-- **One tile.** -/
theorem Bucketed.step (hw : 0 < r.bucketSeconds) (hn : q.maxObservations ≠ 0)
    (h : Bucketed s r q.maxObservations seen st) (hstep : analyzeTile m s q r st t = .ok st') :
    Bucketed s r q.maxObservations (seen ++ [t]) st' := by
  unfold analyzeTile at hstep
  obtain ⟨⟨acquisition, c⟩, hrow, hstep⟩ := bind_eq_ok.mp hstep
  obtain ⟨hconfig, hvalid⟩ := readTile_valid hrow
  dsimp only at hconfig hvalid hstep
  subst hconfig
  obtain ⟨_, horder, hstep⟩ := bind_eq_ok.mp hstep
  have horder := not_lt.mp (not_or.mp (reject_eq_ok.mp horder)).2
  generalize (if st.previousConfig = some acquisition then st.grid else none) = grid at hstep
  -- A tile outside the times, or without a selected bin, changes no bucket.
  split_ifs at hstep with hempty
  · obtain rfl := Except.ok.inj hstep
    exact h.skip hvalid horder _ rfl rfl
  · obtain ⟨⟨gr, sums⟩, hgrid, hstep⟩ := bind_eq_ok.mp hstep
    have h := h.grid (tileGrid_same hgrid)
    dsimp only at hstep
    split_ifs at hstep with hlast
    · obtain rfl := Except.ok.inj hstep
      exact h.skip hvalid horder _ rfl rfl
    · obtain ⟨sums', hframes, hstep⟩ := bind_eq_ok.mp hstep
      obtain rfl := Except.ok.inj hstep
      obtain ⟨hlt, -⟩ := not_or.mp hempty
      -- The clipped frames of a tile last as long as the clipped tile, up to the tolerance of its end.
      obtain ⟨hle, hge, hexact⟩ := overlap_frames hvalid (le_max_right r.start _) (not_le.mp hlt)
        (min_le_right r.stop _)
      obtain ⟨hshares, hbegun⟩ := analyzeFrames_spec (x := st.previousElapsed - 1 / 10 ^ 8)
        (s := addTile m q r gr t _ _ sums) hw hn rfl (min_le_left _ _) h.cells hframes
      have hspread := hshares.spread
      have hobserved := hshares.observed
      refine ⟨hshares.cells, fun x => ?_, ?_, ?_, fun hends => ?_, fun hrates => ?_⟩
      · have hadded : (addTile m q r gr t (max r.start t.elapsedStartSeconds)
            (min r.stop t.elapsedEndSeconds) sums).seconds x = sums.seconds x := by cases x <;> rfl
        refine sub_eq_zero.mp ((hshares.seconds x).trans ?_)
        rw [hadded]
        exact sub_eq_zero.mpr (h.seconds x)
      · rw [hspread, hobserved]
        exact add_le_add h.observed_le hle
      · rw [hspread, hobserved, hshares.tileCount]
        have hbefore := h.le_observed
        dsimp only [addTile] at hbefore ⊢
        push_cast
        linarith
      · rw [hspread, hobserved, hexact (hends t (by simp))]
        exact congrArg (· + _) (h.exact fun x hx => hends x (List.mem_append_left _ hx))
      · have hrate := hrates t (by simp)
        exact (hbegun horder (h.begun fun x hx => hrates x (List.mem_append_left _ hx))).mono
          (lastFrame_le hvalid hrate.1 hrate.2)

omit [FloorRing K] in
/-- The buckets of a valid query have a width, coarsened or not. -/
theorem resolve_bucket_pos {nextAbove : K → K} (hnext : ∀ x, x < nextAbove x)
    (hq : q.validate = .ok ()) (h : resolve nextAbove s q = .ok r) : 0 < r.bucketSeconds := by
  have hbucket : 0 < q.timeBucketSeconds := by
    unfold SurveyQuery.validate at hq
    simp only [bind_eq_ok, reject_eq_ok, not_or, not_lt] at hq
    obtain ⟨_, _, _, ⟨_, _, hge, _⟩, _⟩ := hq
    exact lt_of_lt_of_le (by norm_num) hge
  unfold resolve at h
  obtain ⟨⟨recordedStart, recordedEnd⟩, -, h⟩ := bind_eq_ok.mp h
  dsimp only at h
  generalize (if q.elapsedEnd > 0 then q.elapsedEnd else recordedEnd) = stop at h
  split_ifs at h
  · obtain rfl := Except.ok.inj h
    exact (div_nonneg (sub_nonneg.mpr (le_max_left _ _)) q.maxObservations.cast_nonneg).trans_lt
      (hnext _)
  · obtain rfl := Except.ok.inj h
    exact hbucket
  · obtain rfl := Except.ok.inj h
    exact hbucket

/-- The loop over the buckets of a frame ends and throws nothing. -/
theorem analyzeFrame_ends (hw : 0 < r.bucketSeconds) (hn : q.maxObservations ≠ 0) {gr : Grid K}
    {part : FramePart K} {sums : Sums K} {f : ℕ} (hstart : r.start ≤ start) (hstop : stop ≤ r.stop) :
    ∃ sums', analyzeFrame q r c gr t start stop part sums f = .ok sums' := by
  unfold analyzeFrame
  dsimp only
  split_ifs
  · exact ⟨_, rfl⟩
  · have hend : (frameSpan c t start stop f).2 ≤ r.stop := (min_le_left _ _).trans hstop
    obtain ⟨buckets, hspread⟩ := spread_ok (n := q.maxObservations) hw (Nat.pos_of_ne_zero hn)
      hend q.maxObservations
      (hstart.trans (le_max_left _ _)) fun _ => Nat.le_add_right _ _
    exact ⟨_, bind_eq_ok.mpr ⟨buckets, hspread, rfl⟩⟩

omit [FloorRing K] in
/-- The observations of the cells. -/
theorem InCells.pairwise (hw : 0 < r.bucketSeconds) {buckets : ℕ → Option (Bucket K)}
    (h : InCells r n buckets) : ((List.range n).filterMap buckets).Pairwise fun a b =>
      a.elapsedEnd ≤ b.elapsedStart := by
  refine List.pairwise_filterMap.mpr (List.pairwise_lt_range.imp fun {i j} hlt a ha b hb => ?_)
  obtain ⟨hstart, hinside, -⟩ := h.cell j b hb
  have hj : j < n := by
    by_contra hge
    rw [h.bound j (not_lt.mp hge)] at hb
    cases hb
  exact ((h.cell i a ha).2.2.trans (bucketEnd_le (by omega))).trans ((edge_mono hw hlt).trans hstart)

/-- **The display buckets.** The loop over the buckets of a frame ends. The observations are at most
as many as the query asks for, in the order of their disjoint times, with the active seconds of the
analysis. They have its observed seconds as well when the tiles end with their frames, and otherwise
all of them but for the tolerance of each tile. -/
theorem analyze_observations (m : Libm K) (rounding : Rounding K) (s : SavedSurvey K)
    (q : SurveyQuery K) (hq : q.validate = .ok ()) (hn : q.maxObservations ≠ 0)
    (hrates : ∀ t ∈ s.tiles, 0 < (s.configOf t).sampleRate ∧ (s.configOf t).sampleRate < 2 ^ 32) :
    (∀ r, resolve rounding.nextAbove s q = .ok r → ∀ config grid t part sums frame, ∃ sums',
      analyzeFrame q r config grid t (max r.start t.elapsedStartSeconds)
        (min r.stop t.elapsedEndSeconds) part sums frame = .ok sums') ∧
    ∀ r sums, analyze m rounding s q = .ok (r, sums) →
      let observations := sums.observations q.maxObservations
      observations.length ≤ q.maxObservations ∧
      (∀ a ∈ observations, a.elapsedStart < a.elapsedEnd) ∧
      (observations.Pairwise fun a b => a.elapsedEnd ≤ b.elapsedStart) ∧
      (∀ x, (observations.map (·.seconds x)).sum = sums.seconds x) ∧
      (observations.map (·.observedSeconds)).sum ≤ sums.observedSeconds ∧
      sums.observedSeconds ≤
        (observations.map (·.observedSeconds)).sum + sums.tileCount * (1 / 10 ^ 7) ∧
      ((∀ t ∈ s.tiles, t.elapsedEndSeconds ≤ frameStart (s.configOf t) t t.frameCount) →
        (observations.map (·.observedSeconds)).sum = sums.observedSeconds) := by
  refine ⟨fun r hr config grid t part sums frame => analyzeFrame_ends
    (resolve_bucket_pos rounding.lt_nextAbove hq hr) hn (le_max_left _ _) (min_le_left _ _),
    fun r sums h => ?_⟩
  unfold analyze at h
  obtain ⟨_, -, h⟩ := bind_eq_ok.mp h
  obtain ⟨r', hr, h⟩ := bind_eq_ok.mp h
  obtain ⟨st, hst, h⟩ := bind_eq_ok.mp h
  obtain ⟨rfl, rfl⟩ := Prod.mk.inj (Except.ok.inj h)
  have hw := resolve_bucket_pos rounding.lt_nextAbove hq hr
  have hbuckets : Bucketed s r' q.maxObservations s.tiles st := by
    refine foldlM_induction (P := Bucketed s r' q.maxObservations)
      (fun _ _ _ _ _ _ h hstep => h.step hw hn hstep) ?_ hst
    have hnone : ∀ φ : Bucket K → K, totalOf φ q.maxObservations (fun _ => none) = 0 := fun φ => by
      rw [totalOf, List.filterMap_eq_nil_iff.mpr fun _ _ => rfl]
      rfl
    refine ⟨⟨fun _ _ => rfl, fun _ _ h => by cases h⟩, fun x => ?_, (hnone _).le, ?_,
      fun _ => hnone _, fun _ _ _ h => by cases h⟩
    · exact (hnone _).trans (by cases x <;> rfl)
    · exact ((hnone _).symm ▸ (by simp [Sums.empty]))
  refine ⟨?_, fun a ha => ?_, hbuckets.cells.pairwise hw, fun x => ?_, hbuckets.observed_le,
    hbuckets.le_observed, hbuckets.exact⟩
  · exact (List.length_filterMap_le _ _).trans List.length_range.le
  · obtain ⟨k, -, hk⟩ := List.mem_filterMap.mp ha
    exact (hbuckets.begun hrates k a hk).2
  · exact (hbuckets.seconds x).trans (by cases x <;> rfl)

/-- The clipped query of two tiles, for at most four observations. -/
def clippedObservations : SurveyQuery ℚ := { clippedQuery with maxObservations := 4 }

/-- The first of its two observations ends within the third frame. -/
theorem observations_clipped :
    (analyze rationalLibm rationalRounding twoTiles clippedObservations).map (fun a =>
      (a.2.observations 4).map fun o : Bucket ℚ => o.elapsedEnd) =
    .ok [1 + 1100 / 10 ^ 6, 1 + 1800 / 10 ^ 6] := by decide +kernel

/-- The observations of two tiles are as long and as busy together as the analysis. -/
theorem analyze_observations_twoTiles : ∃ r sums,
    analyze rationalLibm rationalRounding twoTiles clippedObservations = .ok (r, sums) ∧
      (sums.observations 4).map (·.elapsedEnd) = [1 + 1100 / 10 ^ 6, 1 + 1800 / 10 ^ 6] ∧
      (∀ x, ((sums.observations 4).map (·.seconds x)).sum = sums.seconds x) ∧
      ((sums.observations 4).map (·.observedSeconds)).sum = sums.observedSeconds := by
  have hq : clippedObservations.validate = .ok () := by decide +kernel
  have hobservations := (analyze_observations rationalLibm rationalRounding twoTiles
    clippedObservations hq (by decide) (by decide +kernel)).2
  obtain ⟨r, sums, hok, -⟩ := analyze_computes rationalLibm rationalRounding stored_twoTiles hq
  obtain ⟨-, -, -, hseconds, -, -, hexact⟩ := hobservations r sums hok
  have hends := observations_clipped
  rw [hok] at hends
  exact ⟨r, sums, hok, Except.ok.inj hends, hseconds, hexact (by decide +kernel)⟩

/-! ## A tile that ends behind its frames -/

/-- The whole session and range, for at most four observations. -/
def wholeQuery : SurveyQuery ℚ :=
  { offGridQuery with lowerHz := 0, upperHz := 0, maxObservations := 4 }

/-- The tile with an end that is late by half of the tolerance. -/
def lateTile : SpectrumTile ℚ :=
  { oneTile with
    utcEndSeconds := oneTile.utcEndSeconds + 1 / 20000000
    elapsedEndSeconds := oneTile.elapsedEndSeconds + 1 / 20000000 }

/-- A survey of one tile that ends late. -/
def lateTileSurvey : SavedSurvey ℚ := { oneTileSurvey with tiles := [lateTile] }

theorem stored_lateTile : Stored lateTileSurvey lateTile.shape :=
  stored_tile lateTile (exists_ok_of_isOk (by decide +kernel)) (by decide)

/-- The analysis observes the whole of a tile, but the observations its frames only. -/
theorem observed_lateTile : Stored lateTileSurvey lateTile.shape ∧
    wholeQuery.validate = .ok () ∧ ∃ r sums,
      analyze rationalLibm rationalRounding lateTileSurvey wholeQuery = .ok (r, sums) ∧
        ((sums.observations wholeQuery.maxObservations).map (·.observedSeconds)).sum ≠
          sums.observedSeconds := by
  have hq : wholeQuery.validate = .ok () := by decide +kernel
  obtain ⟨r, sums, hok, -⟩ := analyze_computes rationalLibm rationalRounding stored_lateTile hq
  refine ⟨stored_lateTile, hq, r, sums, hok, ?_⟩
  have hdiffer : ((analyze rationalLibm rationalRounding lateTileSurvey wholeQuery).map fun a =>
      decide (((a.2.observations wholeQuery.maxObservations).map (·.observedSeconds)).sum =
        a.2.observedSeconds)) = .ok false := by decide +kernel
  rw [hok] at hdiffer
  exact of_decide_eq_false (Except.ok.inj hdiffer)

end Run

end Analysis

end OVMesh
