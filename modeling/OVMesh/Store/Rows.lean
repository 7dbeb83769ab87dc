import OVMesh.Lib.Fold
import OVMesh.Store.Masks
import OVMesh.Store.Measure

/-!
# Stored rows

What the checks of a reader say about the rows that pass them: the acquisition of a tile, its times
and its dimensions, and the time selection that a query is resolved to.

* `recordConfig_config`: the configuration is that of the acquisition.
* `TileRow`, `readTile_row`: the facts about a tile that was read.
* `Stored`: a recording whose tiles are ordered and share one grid.
* `resolve_ok`: clipping to the resolved selection is clipping to the query.
-/

namespace OVMesh

open Checked

variable {K : Type} [Field K] [LinearOrder K]

/-! ## Acquisitions -/

theorem acquisitionConfigAt_getElem {l : List (AcquisitionSegment K)} {x : K} {i : ℕ}
    {a : AcquisitionSegment K} (h : acquisitionConfigAt l x = .ok (some (i, a))) :
    l[i]? = some a := by
  unfold acquisitionConfigAt at h
  split at h
  · cases h
  obtain ⟨_, -, h⟩ := bind_eq_ok.mp h
  dsimp only at h
  split at h
  · cases h
  split at h
  · cases h
  rename_i hget
  obtain ⟨_, -, h⟩ := bind_eq_ok.mp h
  cases h
  exact hget

/-- The configuration is the one of the acquisition that was found. -/
theorem recordConfig_config {s : SavedSurvey K} {start stop : K} {acquisition : Option ℕ}
    {c : ReceiverConfig K} (h : recordConfig s start stop = .ok (acquisition, c)) :
    c = s.configAt acquisition := by
  unfold recordConfig at h
  obtain ⟨found, hfound, h⟩ := bind_eq_ok.mp h
  cases found with
  | none =>
    cases h
    rfl
  | some found =>
    obtain ⟨i, a⟩ := found
    obtain ⟨_, -, h⟩ := bind_eq_ok.mp h
    cases h
    rw [SavedSurvey.configAt, acquisitionConfigAt_getElem hfound]
    rfl

/-! ## Tiles -/

/-- What the readers rely on after the checks of a tile row. -/
structure TileRow (t : SpectrumTile K) (c : ReceiverConfig K) : Prop where
  start_nonneg : 0 ≤ t.elapsedStartSeconds
  start_lt : t.elapsedStartSeconds < t.elapsedEndSeconds
  stop_le : t.elapsedEndSeconds ≤ 10 ^ 10
  count_le : t.meanDbfs.length ≤ 4096
  width : |t.binWidthHz - c.sampleRate / 4096| ≤ 1 / 10 ^ 7

variable [FloorRing K]

theorem validateTile_row {t : SpectrumTile K} {c : ReceiverConfig K}
    (h : validateTile t c = .ok ()) : TileRow t c := by
  unfold validateTile interval nonnegative at h
  simp only [bind_eq_ok, reject_eq_ok, forM_eq_ok, List.mem_cons, List.not_mem_nil, or_false,
    forall_eq_or_imp, forall_eq, not_or, not_lt, not_le] at h
  obtain ⟨_, ⟨_, _, _, ⟨_, _, hstart, _⟩, _, hlt, hstop, _⟩, _, hdims, _⟩ := h
  obtain ⟨_, _, _, _, hcount, _, _, _, _, _, _, hwidth, _⟩ := hdims
  exact ⟨hstart, hlt, hstop, hcount, hwidth⟩

theorem readTile_row {s : SavedSurvey K} {t : SpectrumTile K}
    {row : Option ℕ × ReceiverConfig K} (h : readTile s t = .ok row) :
    row.2 = s.configAt row.1 ∧ row.2 = s.configOf t ∧ TileRow t row.2 := by
  unfold readTile at h
  obtain ⟨found, hfound, h⟩ := bind_eq_ok.mp h
  obtain ⟨_, hvalid, h⟩ := bind_eq_ok.mp h
  have hrow : found = row := by
    split at h
    · obtain ⟨_, -, h⟩ := bind_eq_ok.mp h
      cases h
      rfl
    · cases h
      rfl
  subst hrow
  refine ⟨recordConfig_config hfound, ?_, validateTile_row hvalid⟩
  rw [SavedSurvey.configOf, hfound]

/-! ## Recordings -/

/-- A recording of ordered tiles that share the grid `g`, as it is read back. -/
structure Stored (s : SavedSurvey K) (g : Shape K) : Prop where
  rate : 0 < s.config.sampleRate
  rates : ∀ a ∈ s.acquisitions, 0 < a.config.sampleRate
  rows : ∀ t ∈ s.tiles, ∃ row, readTile s t = .ok row
  shape : ∀ t ∈ s.tiles, t.shape = g
  bytes : ∀ t ∈ s.tiles, AreBytes t.activity
  ordered : s.tiles.Pairwise fun a b =>
    a.endSample ≤ b.firstSample ∧ a.elapsedEndSeconds ≤ b.elapsedStartSeconds
  gaps : ∀ x ∈ s.gaps, 0 ≤ x.elapsedStartSeconds ∧ x.elapsedStartSeconds < x.elapsedEndSeconds ∧
    x.elapsedEndSeconds ≤ 10 ^ 10

namespace Stored

variable {s : SavedSurvey K} {g : Shape K} {t : SpectrumTile K}

theorem row (h : Stored s g) (ht : t ∈ s.tiles) :
    ∃ row, readTile s t = .ok row ∧ row.2 = s.configAt row.1 ∧ row.2 = s.configOf t ∧
      TileRow t row.2 := by
  obtain ⟨row, hrow⟩ := h.rows t ht
  exact ⟨row, hrow, readTile_row hrow⟩

theorem tileRow (h : Stored s g) (ht : t ∈ s.tiles) : TileRow t (s.configOf t) := by
  obtain ⟨row, -, -, hconfig, hrow⟩ := h.row ht
  exact hconfig ▸ hrow

theorem rate_pos (h : Stored s g) (acquisition : Option ℕ) :
    0 < (s.configAt acquisition).sampleRate := by
  cases acquisition with
  | none => exact h.rate
  | some i =>
    rw [SavedSurvey.configAt]
    cases hi : s.acquisitions[i]? with
    | none => exact h.rate
    | some a => exact h.rates a (List.mem_of_getElem? hi)

theorem count_le (h : Stored s g) (ht : t ∈ s.tiles) : g.count ≤ 4096 := by
  rw [← h.shape t ht]
  exact (h.tileRow ht).count_le

variable [IsStrictOrderedRing K]

/-- The bins have a width, since the sample rate is positive. -/
theorem width_pos (h : Stored s g) (ht : t ∈ s.tiles) : 0 < g.width := by
  obtain ⟨row, -, hat, -, hrow⟩ := h.row ht
  have hrate : (1 : K) ≤ row.2.sampleRate := by
    rw [hat]
    exact_mod_cast h.rate_pos row.1
  have hwidth := (abs_le.mp hrow.width).1
  rw [← h.shape t ht]
  show 0 < t.binWidthHz
  norm_num at hwidth ⊢
  linarith

end Stored

/-! ## The time selection -/

/-- Both pairs of ends clip the tile to the same interval, or to none. -/
def ClipsAlike (r : Resolved K) (q : SurveyQuery K) (t : SpectrumTile K) : Prop :=
  max r.start t.elapsedStartSeconds = max q.elapsedStart t.elapsedStartSeconds ∧
      min r.stop t.elapsedEndSeconds = min q.stop t.elapsedEndSeconds ∨
    min r.stop t.elapsedEndSeconds ≤ max r.start t.elapsedStartSeconds ∧
      min q.stop t.elapsedEndSeconds ≤ max q.elapsedStart t.elapsedStartSeconds

section Resolve

variable {s : SavedSurvey K} {q : SurveyQuery K} {g : Shape K}

omit [Field K] [FloorRing K] in
/-- Clamping the selection to an extent that holds the tile does not change what is left of it. -/
theorem clamp_clips {lo hi a b start stop : K} (hlo : lo ≤ a) (hab : a < b) (hhi : b ≤ hi) :
    let from' := max lo (min start hi)
    let to' := max from' (min stop hi)
    max from' a = max start a ∧ min to' b = min stop b ∨
      min to' b ≤ max from' a ∧ min stop b ≤ max start a := by
  intro from' to'
  rcases le_or_gt start hi with hstart | hstart
  · have hfrom : from' = max lo start := by rw [← min_eq_left hstart]
    have hmax : max from' a = max start a := by
      rw [hfrom, max_assoc, max_eq_right (hlo.trans (le_max_right _ _))]
    rcases le_or_gt from' (min stop hi) with hle | hlt
    · refine Or.inl ⟨hmax, ?_⟩
      rw [show to' = min stop hi from max_eq_right hle, min_assoc, min_eq_right hhi]
    · refine Or.inr ⟨?_, ?_⟩
      · rw [show to' = from' from max_eq_left hlt.le]
        exact (min_le_left _ _).trans (le_max_left _ _)
      · rcases le_or_gt stop hi with hstop | hstop
        · rw [min_eq_left hstop, hfrom] at hlt
          refine (min_le_left _ _).trans (hlt.le.trans (max_le ?_ (le_max_left _ _)))
          exact hlo.trans (le_max_right _ _)
        · rw [min_eq_right hstop.le, hfrom] at hlt
          exact absurd hlt (not_lt.mpr (max_le (hlo.trans (hab.le.trans hhi)) hstart))
  · refine Or.inr ⟨?_, ?_⟩
    · refine (min_le_right _ _).trans (hhi.trans (le_trans ?_ (le_max_left _ _)))
      rw [show from' = max lo hi by rw [← min_eq_right hstart.le]]
      exact le_max_right _ _
    · exact (min_le_right _ _).trans (hhi.trans (hstart.le.trans (le_max_left _ _)))

/-- A row that may enlarge the recorded interval. -/
def ExtentRow (row : K × K) : Prop := 0 ≤ row.1 ∧ row.1 < row.2 ∧ row.2 ≤ 10 ^ 10

omit [FloorRing K] in
theorem includeExtent_ok {extent row : K × K} (h : ExtentRow row) :
    includeExtent extent row = .ok (min extent.1 row.1, max extent.2 row.2) := by
  obtain ⟨h0, hlt, hle⟩ := h
  unfold includeExtent nonnegative
  simp only [bind_eq_ok, reject_eq_ok, not_or, not_lt, not_le]
  exact ⟨(), h0, (), h0.trans hlt.le, (), ⟨hlt, hle⟩, rfl⟩

/-- The recorded interval holds every row. -/
structure Extent (rows : List (K × K)) (extent : K × K) : Prop where
  le : ∀ row ∈ rows, extent.1 ≤ row.1 ∧ row.2 ≤ extent.2
  bound : extent.2 ≤ 10 ^ 10
  empty : rows = [] → extent.2 = 0

omit [FloorRing K] in
theorem extents_ok (h0 : (0 : K) ≤ 10 ^ 10) {rows : List (K × K)} (h : ∀ row ∈ rows, ExtentRow row) :
    ∃ extent, rows.foldlM includeExtent (10 ^ 10, 0) = .ok extent ∧ Extent rows extent := by
  refine foldlM_ok (fun seen row rest extent hseen hP => ?_)
    ⟨fun row hrow => absurd hrow List.not_mem_nil, h0, fun _ => rfl⟩
  have hrow := h row (hseen ▸ List.mem_append_right _ List.mem_cons_self)
  refine ⟨_, includeExtent_ok hrow, fun x hx => ?_, max_le hP.bound hrow.2.2, fun hnil => ?_⟩
  · rcases List.mem_append.mp hx with hx | hx
    · exact ⟨(min_le_left _ _).trans (hP.le x hx).1, (hP.le x hx).2.trans (le_max_left _ _)⟩
    · rw [List.mem_singleton.mp hx]
      exact ⟨min_le_right _ _, le_max_right _ _⟩
  · exact absurd hnil (List.append_ne_nil_of_right_ne_nil _ (List.cons_ne_nil _ _))

/-- The extents of a stored recording are valid. -/
theorem Stored.extentRows (h : Stored s g) : ∀ row ∈ s.extents, ExtentRow row := by
  have htile : ∀ t ∈ s.tiles, ExtentRow (t.elapsedStartSeconds, t.elapsedEndSeconds) :=
    fun t ht => ⟨(h.tileRow ht).start_nonneg, (h.tileRow ht).start_lt, (h.tileRow ht).stop_le⟩
  intro row hrow
  unfold SavedSurvey.extents at hrow
  rcases List.mem_append.mp hrow with hrow | hrow
  · rcases List.mem_append.mp hrow with hrow | hrow
    · obtain ⟨t, ht, rfl⟩ := Option.map_eq_some_iff.mp (Option.mem_toList.mp hrow)
      exact htile t (List.mem_of_head? ht)
    · obtain ⟨t, ht, rfl⟩ := Option.map_eq_some_iff.mp (Option.mem_toList.mp hrow)
      exact htile t (List.mem_of_getLast? ht)
  · have hgaps := h.gaps
    revert hrow hgaps
    cases s.gaps with
    | nil => exact fun hrow => absurd hrow List.not_mem_nil
    | cons x xs =>
      intro hrow hgaps
      rw [List.mem_singleton.mp hrow]
      obtain ⟨hx0, hxlt, hxle⟩ := hgaps x List.mem_cons_self
      have hxs := fun y hy => hgaps y (List.mem_cons_of_mem x hy)
      have hmin := Fold.le_foldl_min (φ := id) (ψ := fun y : CoverageGap K => y.elapsedStartSeconds)
        (f := fun a y => min a y.elapsedStartSeconds) (fun _ _ => rfl) xs x.elapsedStartSeconds
      have hmax := Fold.foldl_max_le (φ := id) (ψ := fun y : CoverageGap K => y.elapsedEndSeconds)
        (f := fun a y => max a y.elapsedEndSeconds) (fun _ _ => rfl) xs x.elapsedEndSeconds
      refine ⟨(hmin 0).mpr ⟨hx0, fun y hy => (hxs y hy).1⟩, ?_,
        (hmax _).mpr ⟨hxle, fun y hy => (hxs y hy).2.2⟩⟩
      exact (((hmin _).mp le_rfl).1.trans_lt hxlt).trans_le ((hmax _).mp le_rfl).1

/-- The first and the last tile enclose all of them. -/
theorem Stored.extent_le (h : Stored s g) {extent : K × K} (he : Extent s.extents extent)
    {t : SpectrumTile K} (ht : t ∈ s.tiles) :
    extent.1 ≤ t.elapsedStartSeconds ∧ t.elapsedEndSeconds ≤ extent.2 := by
  obtain ⟨before, behind, hsplit⟩ := List.append_of_mem ht
  have hfirst : ∀ x, s.tiles.head? = some x → extent.1 ≤ x.elapsedStartSeconds := fun x hx =>
    (he.le (x.elapsedStartSeconds, x.elapsedEndSeconds) (List.mem_append_left _
      (List.mem_append_left _ (Option.mem_toList.mpr (by rw [hx]; rfl))))).1
  have hlast : ∀ x, s.tiles.getLast? = some x → x.elapsedEndSeconds ≤ extent.2 := fun x hx =>
    (he.le (x.elapsedStartSeconds, x.elapsedEndSeconds) (List.mem_append_left _
      (List.mem_append_right _ (Option.mem_toList.mpr (by rw [hx]; rfl))))).2
  have hordered := h.ordered
  have hpos := fun x hx => (h.tileRow (t := x) hx).start_lt
  rw [hsplit] at hfirst hlast hordered hpos
  constructor
  · cases before with
    | nil => exact hfirst t rfl
    | cons x xs =>
      have hxt := (List.pairwise_append.mp hordered).2.2 x List.mem_cons_self t List.mem_cons_self
      exact (hfirst x rfl).trans ((hpos x (List.mem_append_left _ List.mem_cons_self)).le.trans hxt.2)
  · rcases List.eq_nil_or_concat' behind with rfl | ⟨xs, x, rfl⟩
    · exact hlast t (by simp)
    · have hmem : x ∈ xs ++ [x] := List.mem_append_right _ List.mem_cons_self
      have htx := (List.pairwise_cons.mp (List.pairwise_append.mp hordered).2.1).1 x hmem
      have hx : (before ++ t :: (xs ++ [x])).getLast? = some x := by
        rw [← List.cons_append, ← List.append_assoc, List.getLast?_concat]
      refine (htx.2.trans (hpos x ?_).le).trans (hlast x hx)
      exact List.mem_append_right _ (List.mem_cons_of_mem _ hmem)

variable [IsStrictOrderedRing K]

/-- A valid query of a stored recording is resolved, and the tiles are clipped as by the query. -/
theorem resolve_ok (h : Stored s g) {nextAbove : K → K} (hnext : ∀ x, x < nextAbove x)
    (hq : 0 < q.timeBucketSeconds) :
    ∃ r, resolve nextAbove s q = .ok r ∧ 0 < r.bucketSeconds ∧ r.start ≤ r.stop ∧
      ∀ t ∈ s.tiles, ClipsAlike r q t := by
  obtain ⟨⟨lo, hi⟩, hextent, he⟩ := extents_ok (pow_nonneg (by norm_num) 10) h.extentRows
  unfold resolve
  rw [hextent]
  by_cases hpos : 0 < hi
  · have hstop : min (if q.elapsedEnd > 0 then q.elapsedEnd else hi) hi = min q.stop hi := by
      unfold SurveyQuery.stop
      split
      · rfl
      · rw [min_self, min_eq_right he.bound]
    have hclips : ∀ t ∈ s.tiles, ∀ r : Resolved K, r.start = max lo (min q.elapsedStart hi) →
        r.stop = max r.start (min q.stop hi) → ClipsAlike r q t := fun t ht r hr hr' => by
      obtain ⟨hle, hge⟩ := h.extent_le he ht
      rw [ClipsAlike, hr', hr]
      exact clamp_clips hle (h.tileRow ht).start_lt hge
    simp only [bind_eq_ok, Except.ok.injEq, exists_eq_left', gt_iff_lt, hpos, ↓reduceIte]
    rw [hstop]
    split
    · refine ⟨_, rfl, (div_nonneg ?_ q.maxObservations.cast_nonneg).trans_lt (hnext _),
        le_max_left _ _, fun t ht => hclips t ht _ rfl rfl⟩
      exact sub_nonneg.mpr (le_max_left _ _)
    · exact ⟨_, rfl, hq, le_max_left _ _, fun t ht => hclips t ht _ rfl rfl⟩
  · have hnone : ∀ t ∈ s.tiles, ClipsAlike (⟨0, 0, q.timeBucketSeconds, false⟩ : Resolved K) q t :=
      fun t ht => by
        have hrow := h.tileRow ht
        exact absurd ((hrow.start_nonneg.trans_lt hrow.start_lt).trans_le (h.extent_le he ht).2) hpos
    simp only [bind_eq_ok, Except.ok.injEq, exists_eq_left', gt_iff_lt, hpos, ↓reduceIte]
    exact ⟨_, rfl, hq, le_refl _, hnone⟩

end Resolve

end OVMesh
