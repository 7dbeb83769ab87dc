import OVMesh.Lib.Bitmap
import OVMesh.Lib.Clip
import OVMesh.Lib.Occupancy
import OVMesh.Spectrum.Params
import OVMesh.Store.Saved

/-!
# The measure of a query

What a query selects of a saved survey, in terms of sets: a cell is a bin with the side of the
receiver-centre guard that it lies on, and a frame has a length within the query and a set of active
cells. Nothing of the byte loops or of the display buckets is mentioned.

* `Shape`: the common grid of the tiles. `Shape.Meets`: the bins whose extent meets an interval.
* `tileSeconds`, `frameSeconds`: the length of a tile and of a frame within the query.
* `activeCells`, `activeSeconds`: the activity of the survey. `Region`: the selected cells.
* `SplitsAt.tileSeconds_add`, `Region.cells_subset_union`: what a query that is cut in two measures.
-/

namespace OVMesh

open Clip Occupancy SpectrumProcessor

/-- The grid of a tile: the frequency axis that all tiles of an acquisition share. -/
structure Shape (K : Type) where
  firstHz : K
  width : K
  count : ℕ

/-- A bin, with `true` when it lies inside the guard around the receiver's centre. -/
abbrev Cell := ℕ × Prop

variable {K : Type} [Field K] [LinearOrder K]

namespace Shape

variable (g : Shape K)

/-- The centre of bin `b`. -/
def center (b : ℕ) : K := g.firstHz + b * g.width

/-- The extent of the bin meets the frequency interval. -/
def Meets (lower upper : K) (b : ℕ) : Prop :=
  b < g.count ∧ lower < g.firstHz + (b + 1 / 2) * g.width ∧
    g.firstHz + (b - 1 / 2) * g.width < upper

instance (lower upper : K) (b : ℕ) : Decidable (g.Meets lower upper b) :=
  inferInstanceAs (Decidable (_ ∧ _))

/-- The bins whose extent meets the frequency interval. -/
def selected (lower upper : K) : List ℕ := (List.range g.count).filter (g.Meets lower upper ·)

end Shape

/-- The shape of a tile. -/
def SpectrumTile.shape (t : SpectrumTile K) : Shape K :=
  { firstHz := t.firstCenterHz, width := t.binWidthHz, count := t.meanDbfs.length }

/-! ## Times -/

/-- The end of the time selection: a zero end means the whole session. -/
def SurveyQuery.stop (q : SurveyQuery K) : K := if q.elapsedEnd > 0 then q.elapsedEnd else 10 ^ 10

/-- The length of the tile within the query. -/
def tileSeconds (q : SurveyQuery K) (t : SpectrumTile K) : K :=
  if q.InRegion t.receiverEnd then
    overlap t.elapsedStartSeconds t.elapsedEndSeconds q.elapsedStart q.stop
  else 0

/-- The length of frame `f` of the tile within the tile and the query. -/
def frameSeconds (q : SurveyQuery K) (c : ReceiverConfig K) (t : SpectrumTile K) (f : ℕ) : K :=
  if q.InRegion t.receiverEnd then
    overlap (t.elapsedStartSeconds + f * (t.fftSize / c.sampleRate))
      (min (t.elapsedStartSeconds + (f + 1 : ℕ) * (t.fftSize / c.sampleRate)) t.elapsedEndSeconds)
      q.elapsedStart q.stop
  else 0

/-- Bin `b` is active in frame `f` of the tile. -/
def SpectrumTile.Active (t : SpectrumTile K) (f b : ℕ) : Prop :=
  Bitmap.bit t.activity (8 * (f * ((t.meanDbfs.length + 7) / 8)) + b) = true

/-! ## Activity -/

/-- The active cells of frame `f` of a tile that was received with configuration `c`. -/
def activeCells (c : ReceiverConfig K) (t : SpectrumTile K) (f : ℕ) : Set Cell :=
  fun cell => t.Active f cell.1 ∧ (cell.2 ↔ Guarded (t.shape.center cell.1) t.binWidthHz c.centerHz)

/-- The parts of the selected range in which activity is counted. -/
inductive Region
  | all | center | outside

/-- The cells of a part of the bins that satisfy `Meets`. -/
def Region.cells (g : Shape K) (lower upper : K) : Region → Set Cell
  | all => fun cell => g.Meets lower upper cell.1
  | center => fun cell => g.Meets lower upper cell.1 ∧ cell.2
  | outside => fun cell => g.Meets lower upper cell.1 ∧ ¬ cell.2

/-- The cells of one bin. -/
def binCells (b : ℕ) : Set Cell := fun cell => cell.1 = b

/-- The configuration of the acquisition with an index. -/
def SavedSurvey.configAt (s : SavedSurvey K) : Option ℕ → ReceiverConfig K
  | none => s.config
  | some i => (s.acquisitions[i]?).elim s.config (·.config)

/-- The configuration of the acquisition that holds the tile. -/
def SavedSurvey.configOf (s : SavedSurvey K) (t : SpectrumTile K) : ReceiverConfig K :=
  match recordConfig s t.elapsedStartSeconds t.elapsedEndSeconds with
  | .ok config => config.2
  | .error _ => s.config

/-- A frame of a tile, with the configuration of its acquisition. -/
structure Frame (K : Type) where
  config : ReceiverConfig K
  tile : SpectrumTile K
  index : ℕ

namespace Frame

/-- The seconds of a frame that the query counts. -/
def seconds (q : SurveyQuery K) (f : Frame K) : K := frameSeconds q f.config f.tile f.index

/-- The cells of a frame that are active. -/
def cells (f : Frame K) : Set Cell := activeCells f.config f.tile f.index

variable {q : SurveyQuery K} {c : ReceiverConfig K} {t : SpectrumTile K} {i : ℕ}

theorem seconds_mk : (⟨c, t, i⟩ : Frame K).seconds q = frameSeconds q c t i := rfl

theorem cells_mk : (⟨c, t, i⟩ : Frame K).cells = activeCells c t i := rfl

end Frame

/-- The frames of a tile. -/
def framesOf (c : ReceiverConfig K) (t : SpectrumTile K) : List (Frame K) :=
  (List.range t.frameCount).map fun f => ⟨c, t, f⟩

/-- The frames of some tiles of the survey. -/
def SavedSurvey.framesOfTiles (s : SavedSurvey K) (tiles : List (SpectrumTile K)) : List (Frame K) :=
  tiles.flatMap fun t => framesOf (s.configOf t) t

/-- The frames of the survey. -/
def SavedSurvey.frames (s : SavedSurvey K) : List (Frame K) := s.framesOfTiles s.tiles

/-- The time within the query in which a cell of `B` is active. -/
noncomputable def activeSeconds (q : SurveyQuery K) (frames : List (Frame K)) (B : Set Cell) : K :=
  occupied frames (Frame.seconds q) Frame.cells B

/-- The time within the query that was measured. -/
def observedSeconds (q : SurveyQuery K) (tiles : List (SpectrumTile K)) : K :=
  (tiles.map (tileSeconds q)).sum

/-! ## Laws -/

section Laws

variable {q q₁ q₂ : SurveyQuery K} {t : SpectrumTile K} {c : ReceiverConfig K} {g : Shape K}
  {frames : List (Frame K)} {tiles : List (SpectrumTile K)} {B C : Set Cell} {f b : ℕ}
  {l₁ l₂ u₁ u₂ lower upper : K}

theorem tileSeconds_nonneg : 0 ≤ tileSeconds q t := by
  unfold tileSeconds
  split
  · exact overlap_nonneg
  · exact le_refl 0

theorem frameSeconds_nonneg : 0 ≤ frameSeconds q c t f := by
  unfold frameSeconds
  split
  · exact overlap_nonneg
  · exact le_refl 0

/-- The query `q` is cut at a time: `q₁` is the part before it and `q₂` the one behind it. -/
structure SplitsAt (q q₁ q₂ : SurveyQuery K) (time : K) : Prop where
  before : q₁ = { q with elapsedEnd := time }
  behind : q₂ = { q with elapsedStart := time }
  start_lt : q.elapsedStart < time
  lt_stop : time < q.stop

theorem Region.cells_subset (r : Region) (h₁ : l₁ ≤ lower) (h₂ : upper ≤ u₁) :
    r.cells g lower upper ⊆ r.cells g l₁ u₁ := by
  have hmeets : ∀ b, g.Meets lower upper b → g.Meets l₁ u₁ b := fun b hb =>
    ⟨hb.1, h₁.trans_lt hb.2.1, hb.2.2.trans_le h₂⟩
  cases r with
  | all => exact fun cell hcell => hmeets _ hcell
  | center => exact fun cell hcell => ⟨hmeets _ hcell.1, hcell.2⟩
  | outside => exact fun cell hcell => ⟨hmeets _ hcell.1, hcell.2⟩

theorem Region.cells_subset_all (r : Region) : r.cells g lower upper ⊆ all.cells g lower upper := by
  cases r with
  | all => exact subset_rfl
  | center => exact fun cell hcell => hcell.1
  | outside => exact fun cell hcell => hcell.1

/-- Every selected bin is on one side of the guard. -/
theorem Region.cells_all : all.cells g lower upper =
    center.cells g lower upper ∪ outside.cells g lower upper := by
  ext cell
  by_cases hcell : cell.2
  · exact ⟨fun h => Or.inl ⟨h, hcell⟩, fun h => h.elim (·.1) (·.1)⟩
  · exact ⟨fun h => Or.inr ⟨h, hcell⟩, fun h => h.elim (·.1) (·.1)⟩

variable [IsStrictOrderedRing K]

/-- A bin that meets the union of two intervals meets one of them. -/
theorem Region.cells_subset_union (hw : 0 < g.width) (r : Region) (h₁ : l₁ ≤ lower) (h₂ : l₂ ≤ u₁)
    (h₃ : upper ≤ u₂) :
    r.cells g lower upper ⊆ r.cells g l₁ u₁ ∪ r.cells g l₂ u₂ := by
  have hmeets : ∀ b, g.Meets lower upper b → g.Meets l₁ u₁ b ∨ g.Meets l₂ u₂ b := fun b hb => by
    obtain ⟨hcount, hlower, hupper⟩ := hb
    rcases lt_or_ge (g.firstHz + (b - 1 / 2) * g.width) u₁ with hlt | hge
    · exact Or.inl ⟨hcount, h₁.trans_lt hlower, hlt⟩
    · refine Or.inr ⟨hcount, ?_, hupper.trans_le h₃⟩
      calc l₂ ≤ g.firstHz + (b - 1 / 2) * g.width := h₂.trans hge
        _ < g.firstHz + (b + 1 / 2) * g.width := by
          have := mul_lt_mul_of_pos_right (show (b - 1 / 2 : K) < b + 1 / 2 by linarith) hw
          linarith
  cases r with
  | all => exact fun cell hcell => hmeets _ hcell
  | center => exact fun cell hcell => (hmeets _ hcell.1).imp (⟨·, hcell.2⟩) (⟨·, hcell.2⟩)
  | outside => exact fun cell hcell => (hmeets _ hcell.1).imp (⟨·, hcell.2⟩) (⟨·, hcell.2⟩)

/-! ### Cutting the time -/

omit [IsStrictOrderedRing K] in
theorem SplitsAt.stop_before {time : K} (h : SplitsAt q q₁ q₂ time) (h0 : 0 ≤ q.elapsedStart) :
    q₁.stop = time := by
  rw [h.before, SurveyQuery.stop]
  exact if_pos (h0.trans_lt h.start_lt)

/-- An interval within the query is the sum of its parts. -/
theorem SplitsAt.overlap_add {time a b : K} (h : SplitsAt q q₁ q₂ time) (h0 : 0 ≤ q.elapsedStart) :
    overlap a b q.elapsedStart q.stop =
      overlap a b q₁.elapsedStart q₁.stop + overlap a b q₂.elapsedStart q₂.stop := by
  have hstart : q₁.elapsedStart = q.elapsedStart := by rw [h.before]
  have hmid : q₂.elapsedStart = time := by rw [h.behind]
  have hstop : q₂.stop = q.stop := by rw [h.behind]; rfl
  rw [h.stop_before h0, hstart, hmid, hstop, overlap_add_right h.start_lt.le h.lt_stop.le]

omit [IsStrictOrderedRing K] in
theorem SplitsAt.inRegion {time : K} (h : SplitsAt q q₁ q₂ time) {p : Option (PositionFix K)} :
    (q₁.InRegion p ↔ q.InRegion p) ∧ (q₂.InRegion p ↔ q.InRegion p) := by
  rw [h.before, h.behind]
  exact ⟨Iff.rfl, Iff.rfl⟩

theorem SplitsAt.tileSeconds_add {time : K} (h : SplitsAt q q₁ q₂ time) (h0 : 0 ≤ q.elapsedStart) :
    tileSeconds q t = tileSeconds q₁ t + tileSeconds q₂ t := by
  unfold tileSeconds
  simp only [h.inRegion.1, h.inRegion.2]
  split
  · exact h.overlap_add h0
  · exact (add_zero 0).symm

theorem SplitsAt.frameSeconds_add {time : K} (h : SplitsAt q q₁ q₂ time)
    (h0 : 0 ≤ q.elapsedStart) :
    frameSeconds q c t f = frameSeconds q₁ c t f + frameSeconds q₂ c t f := by
  unfold frameSeconds
  simp only [h.inRegion.1, h.inRegion.2]
  split
  · exact h.overlap_add h0
  · exact (add_zero 0).symm

/-- The measured time is additive. -/
theorem SplitsAt.observedSeconds_add {time : K} (h : SplitsAt q q₁ q₂ time)
    (h0 : 0 ≤ q.elapsedStart) :
    observedSeconds q tiles = observedSeconds q₁ tiles + observedSeconds q₂ tiles := by
  rw [observedSeconds, observedSeconds, observedSeconds, ← List.sum_map_add]
  exact congrArg List.sum (List.map_congr_left fun t _ => h.tileSeconds_add h0)

/-- The active time is additive. -/
theorem SplitsAt.activeSeconds_add {time : K} (h : SplitsAt q q₁ q₂ time)
    (h0 : 0 ≤ q.elapsedStart) :
    activeSeconds q frames B = activeSeconds q₁ frames B + activeSeconds q₂ frames B :=
  occupied_add fun _ _ => h.frameSeconds_add h0

/-! ### Bounds -/

theorem activeSeconds_mono (h : B ⊆ C) : activeSeconds q frames B ≤ activeSeconds q frames C :=
  occupied_mono (fun _ _ => frameSeconds_nonneg) h

theorem activeSeconds_union_le : activeSeconds q frames (B ∪ C) ≤
    activeSeconds q frames B + activeSeconds q frames C :=
  occupied_union_le fun _ _ => frameSeconds_nonneg

/-- The frames of a tile last at most as long as the tile. -/
theorem sum_frameSeconds_le : ((List.range t.frameCount).map (frameSeconds q c t)).sum ≤
    tileSeconds q t := by
  unfold frameSeconds tileSeconds
  split
  · have hclip : ∀ f : ℕ, overlap (t.elapsedStartSeconds + f * (t.fftSize / c.sampleRate))
        (min (t.elapsedStartSeconds + (f + 1 : ℕ) * (t.fftSize / c.sampleRate)) t.elapsedEndSeconds)
        q.elapsedStart q.stop =
        overlap (t.elapsedStartSeconds + f * (t.fftSize / c.sampleRate))
          (t.elapsedStartSeconds + (f + 1 : ℕ) * (t.fftSize / c.sampleRate))
          q.elapsedStart (min t.elapsedEndSeconds q.stop) := fun f => by
      rw [overlap, overlap, min_assoc]
    simp only [hclip]
    rw [sum_overlap (div_nonneg (Nat.cast_nonneg _) (Nat.cast_nonneg _)), overlap, overlap]
    exact max_le_max_left 0 (sub_le_sub_right (min_le_right _ _) _)
  · simp

theorem activeSeconds_le_observed {s : SavedSurvey K} :
    activeSeconds q s.frames B ≤ observedSeconds q s.tiles := by
  refine (occupied_le fun _ _ => frameSeconds_nonneg).trans ?_
  rw [SavedSurvey.frames, SavedSurvey.framesOfTiles, observedSeconds, List.map_flatMap, List.flatMap_def, List.sum_flatten,
    List.map_map]
  refine List.sum_le_sum fun t _ => ?_
  rw [Function.comp_apply, framesOf, List.map_map]
  exact sum_frameSeconds_le

end Laws

end OVMesh
