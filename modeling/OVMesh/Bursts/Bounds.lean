import OVMesh.Bursts.Once

/-!
# The extent of a burst

What an emitted burst says about the tiles that it was found in, when the tiles are ordered.

* `Timed`, `stamp_timed`: the times of a component are those of its frames in the window.
* `Side`, `OnSide`: a burst is on one side of the receiver-centre guard.
* `Hull`, `mergePieces_hull`: the band of a component is that of the pieces that it took in.
* `ComponentOk`, `plan_ok`: the components of a tile, before and after the absorption of pieces.
-/

namespace OVMesh

namespace BurstGrouper

open Checked

variable {K : Type} [Field K] [LinearOrder K] [IsStrictOrderedRing K] {t : SpectrumTile K}
  {w : Window K} {b b' : SpectrumBurst K} {f i j n : ℕ} {centerHz : K}

/-! ## Times -/

/-- The frame has a part in the window. -/
structure FrameOk (t : SpectrumTile K) (w : Window K) (f : ℕ) : Prop where
  lt : f < t.frameCount
  before : frameAt t f < w.stop
  behind : w.start < frameAt t (f + 1)

/-- The burst lies in the window, and is active for a part of it. -/
structure Timed (w : Window K) (b : SpectrumBurst K) : Prop where
  start : w.start ≤ b.elapsedStartSeconds
  lt : b.elapsedStartSeconds < b.elapsedEndSeconds
  stop : b.elapsedEndSeconds ≤ w.stop
  active_pos : 0 < b.activeSeconds
  active_le : b.activeSeconds ≤ b.elapsedEndSeconds - b.elapsedStartSeconds

omit [LinearOrder K] [IsStrictOrderedRing K] in
theorem frameAt_succ (f : ℕ) : frameAt t (f + 1) = frameAt t f + frameStep t := by
  unfold frameAt
  push_cast
  ring

omit [IsStrictOrderedRing K] in
/-- The part of a frame that is in the window. -/
theorem FrameOk.clip_lt (h : FrameOk t w f) (hw : w.start < w.stop)
    (hstep : frameAt t f < frameAt t (f + 1)) :
    max w.start (frameAt t f) < min w.stop (frameAt t (f + 1)) :=
  max_lt (lt_min hw h.behind) (lt_min h.before hstep)

/-- The frames behind the first one extend the burst by at most what they add to its end. -/
theorem stamp_started (hw : w.start < w.stop) (hstep : 0 < frameStep t) {l : List ℕ}
    (hsorted : l.Pairwise (· < ·)) (hl : ∀ f ∈ l, FrameOk t w f)
    (hb : ∀ f ∈ l, b.elapsedEndSeconds ≤ frameAt t f) (hstop : b.elapsedEndSeconds ≤ w.stop) :
    let b' := (l.foldl (stampFrame t w) (b, true)).1
    b'.elapsedStartSeconds = b.elapsedStartSeconds ∧ b.elapsedEndSeconds ≤ b'.elapsedEndSeconds ∧
      b'.elapsedEndSeconds ≤ w.stop ∧ b.activeSeconds ≤ b'.activeSeconds ∧
      b'.activeSeconds - b.activeSeconds ≤ b'.elapsedEndSeconds - b.elapsedEndSeconds := by
  induction l generalizing b with
  | nil => exact ⟨rfl, le_refl _, hstop, le_refl _, by simp⟩
  | cons f l ih =>
    obtain ⟨hlt, hsorted⟩ := List.pairwise_cons.mp hsorted
    have hf := hl f List.mem_cons_self
    have hclip := hf.clip_lt hw (by rw [frameAt_succ]; linarith)
    have hend : b.elapsedEndSeconds ≤ max w.start (frameAt t f) :=
      (hb f List.mem_cons_self).trans (le_max_right _ _)
    have hnext : ∀ f' ∈ l, (stampFrame t w (b, true) f).1.elapsedEndSeconds ≤ frameAt t f' :=
      fun f' hf' => (min_le_right _ _).trans
        (monotone_nat_of_le_succ (fun k => by rw [frameAt_succ]; linarith) (hlt f' hf'))
    obtain ⟨h₁, h₂, h₃, h₄, h₅⟩ := ih hsorted (fun f' hf' => hl f' (List.mem_cons_of_mem _ hf'))
      (b := (stampFrame t w (b, true) f).1) hnext (min_le_left _ _)
    have hstart : (stampFrame t w (b, true) f).1.elapsedStartSeconds = b.elapsedStartSeconds := rfl
    have hstop : (stampFrame t w (b, true) f).1.elapsedEndSeconds =
        min w.stop (frameAt t (f + 1)) := rfl
    have hactive : (stampFrame t w (b, true) f).1.activeSeconds = b.activeSeconds +
        (min w.stop (frameAt t (f + 1)) - max w.start (frameAt t f)) := rfl
    rw [hstop] at h₂ h₅
    rw [hactive] at h₄ h₅
    rw [hstart] at h₁
    have hpair : stampFrame t w (b, true) f = ((stampFrame t w (b, true) f).1, true) := rfl
    rw [List.foldl_cons, hpair]
    refine ⟨h₁, ?_, h₃, ?_, ?_⟩
    · exact (hend.trans hclip.le).trans h₂
    · linarith
    · linarith

/-- **The times of a component.** It starts with its first frame. -/
theorem stamp_timed (hw : w.start < w.stop) (hstep : 0 < frameStep t) {frames : Finset ℕ}
    (hne : frames.Nonempty) (hframes : ∀ f ∈ frames, FrameOk t w f) (hb : b.activeSeconds = 0) :
    Timed w (stamp t w frames b) ∧ ∃ m ∈ frames, (∀ f ∈ frames, m ≤ f) ∧
      (stamp t w frames b).elapsedStartSeconds = max w.start (frameAt t m) := by
  have hmem : ∀ f, f ∈ (List.range t.frameCount).filter (· ∈ frames) ↔ f ∈ frames := fun f => by
    rw [List.mem_filter, List.mem_range, decide_eq_true_eq]
    exact and_iff_right_of_imp fun hf => (hframes f hf).lt
  have hsorted : ((List.range t.frameCount).filter (· ∈ frames)).Pairwise (· < ·) :=
    List.pairwise_lt_range.filter _
  unfold stamp
  generalize (List.range t.frameCount).filter (· ∈ frames) = l at hmem hsorted
  -- The frames in order: the first one gives the burst its times, and every later one moves its end.
  cases l with
  | nil =>
    obtain ⟨f, hf⟩ := hne
    exact absurd ((hmem f).mpr hf) List.not_mem_nil
  | cons m l =>
    obtain ⟨hlt, hsorted⟩ := List.pairwise_cons.mp hsorted
    have hm := (hmem m).mp List.mem_cons_self
    have hclip := (hframes m hm).clip_lt hw (by rw [frameAt_succ]; linarith)
    have hmono : Monotone (frameAt t) :=
      monotone_nat_of_le_succ fun k => by rw [frameAt_succ]; linarith
    obtain ⟨h₁, h₂, h₃, h₄, h₅⟩ := stamp_started (b := (stampFrame t w (b, false) m).1) hw hstep
      hsorted (fun f hf => hframes f ((hmem f).mp (List.mem_cons_of_mem _ hf)))
      (fun f hf => (min_le_right _ _).trans (hmono (hlt f hf))) (min_le_left _ _)
    have hstart : (stampFrame t w (b, false) m).1.elapsedStartSeconds =
        max w.start (frameAt t m) := rfl
    have hstop : (stampFrame t w (b, false) m).1.elapsedEndSeconds =
        min w.stop (frameAt t (m + 1)) := rfl
    have hactive : (stampFrame t w (b, false) m).1.activeSeconds = b.activeSeconds +
        (min w.stop (frameAt t (m + 1)) - max w.start (frameAt t m)) := rfl
    rw [hstart] at h₁
    rw [hstop] at h₂ h₅
    rw [hactive, hb, zero_add] at h₄ h₅
    rw [List.foldl_cons]
    change Timed w (l.foldl (stampFrame t w) ((stampFrame t w (b, false) m).1, true)).1 ∧ _
    refine ⟨⟨?_, ?_, h₃, ?_, ?_⟩, m, hm, fun f hf => ?_, h₁⟩
    · rw [h₁]
      exact le_max_left _ _
    · rw [h₁]
      exact hclip.trans_le h₂
    · linarith
    · rw [h₁]
      linarith
    · rcases List.mem_cons.mp ((hmem f).mpr hf) with rfl | hf
      · exact le_refl _
      · exact (hlt f hf).le

/-! ## Sides of the guard -/

/-- Where bins lie with regard to the receiver-centre guard. -/
inductive Side
  | inside | below | above

/-- The half width of the guard, for bins of the width `u`. -/
def guardReach (u : K) : K := 2 * u + 1 / 10 ^ 5

/-- The centres of the outermost bins of a band are on one side of the guard. -/
def Side.Holds (centerHz u : K) (lowerHz upperHz : K) : Side → Prop
  | inside => centerHz - guardReach u ≤ lowerHz + u / 2 ∧ upperHz - u / 2 ≤ centerHz + guardReach u
  | below => upperHz - u / 2 < centerHz - guardReach u
  | above => centerHz + guardReach u < lowerHz + u / 2

/-- The band of a burst is on the side that `center_region` says. -/
def OnSide (centerHz u : K) (s : Side) (b : SpectrumBurst K) : Prop :=
  s.Holds centerHz u b.lowerHz b.upperHz ∧ (b.centerRegion = true ↔ s = .inside)

section Sides

variable {u : K} {s s' : Side} {l l' h h' : K}

omit [IsStrictOrderedRing K] in
/-- Two bands on one side have their hull there. -/
theorem Side.Holds.hull (h₁ : s.Holds centerHz u l h)
    (h₂ : s.Holds centerHz u l' h') : s.Holds centerHz u (min l l') (max h h') := by
  rcases max_choice h h' with hmax | hmax <;> rcases min_choice l l' with hmin | hmin <;>
    rw [hmax, hmin] <;> cases s
  case inl.inl.inside | inl.inl.below | inl.inl.above => exact h₁
  case inr.inr.inside | inr.inr.below | inr.inr.above => exact h₂
  case inl.inr.inside => exact ⟨h₂.1, h₁.2⟩
  case inr.inl.inside => exact ⟨h₁.1, h₂.2⟩
  case inl.inr.below | inr.inl.above => exact h₁
  case inl.inr.above | inr.inl.below => exact h₂

/-- A component that continues a track is on the side of the track. -/
theorem OnSide.continues {track : Track K} (hu : 0 < u) (hs : OnSide centerHz u s track.burst)
    (hs' : OnSide centerHz u s' b) (hlow : track.burst.lowerHz ≤ track.lastLow)
    (hhigh : track.lastHigh ≤ track.burst.upperHz) (h : Continues (guardReach u) b track) :
    s' = s := by
  obtain ⟨hside, hcenter⟩ := hs
  obtain ⟨hside', hcenter'⟩ := hs'
  obtain ⟨-, hregion, hbelow, habove⟩ := h
  have hreach : u < guardReach u := by
    have hpad : (0 : K) < 1 / 10 ^ 5 := by positivity
    unfold guardReach
    linarith
  cases s <;> cases s'
  case inside.inside | below.below | above.above => rfl
  case inside.below | inside.above =>
    rw [hregion, hcenter] at hcenter'
    cases hcenter'.mp rfl
  case below.inside | above.inside =>
    rw [hregion, hcenter] at hcenter'
    cases hcenter'.mpr rfl
  case below.above =>
    simp only [Side.Holds] at hside hside'
    linarith
  case above.below =>
    simp only [Side.Holds] at hside hside'
    linarith

end Sides

/-! ## The components of a tile -/

section Grow

variable {side : ℕ → Bool} {active : ℕ → Finset ℕ} {center : Bool} {low k m : ℕ}

/-- The bins of a run are on one side, and its frames are active in them. -/
structure RunOk (side : ℕ → Bool) (active : ℕ → Finset ℕ) (center : Bool) (low : ℕ) (r : Run) :
    Prop where
  low_le : low ≤ r.high
  side : ∀ b, low ≤ b → b ≤ r.high → side b = center
  frames : ∀ f ∈ r.frames, ∃ b, f ∈ active b
  first : active low ⊆ r.frames

theorem grow_ok {r : Run} (h : RunOk side active center low r) (hk : r.high < k)
    (hside : ∀ b, low ≤ b → b < k → side b = center) :
    RunOk side active center low (grow side active center (List.range' k m) r) := by
  induction m generalizing k r with
  | zero => exact h
  | succ m ih =>
    rw [List.range'_succ, grow]
    split
    · exact h
    rename_i hcenter
    have hside' : ∀ b, low ≤ b → b < k + 1 → side b = center := fun b hb hlt => by
      rcases Nat.lt_succ_iff_lt_or_eq.mp hlt with hlt | rfl
      · exact hside b hb hlt
      · exact not_not.mp hcenter
    split
    · exact h
    split
    · refine ih ⟨?_, fun b hb hle => hside' b hb (Nat.lt_succ_of_le hle), fun f hf => ?_,
        h.first.trans Finset.subset_union_left⟩ (Nat.lt_succ_self k) hside'
      · exact h.low_le.trans hk.le
      · rcases Finset.mem_union.mp hf with hf | hf
        · exact h.frames f hf
        · exact ⟨k, hf⟩
    · exact ih h (Nat.lt_succ_of_lt hk) hside'

end Grow

/-- What the later loops rely on of a component. -/
structure ComponentOk (centerHz : K) (t : SpectrumTile K) (w : Window K) (x : Component K) :
    Prop where
  frames : ∀ f ∈ x.frames, FrameOk t w f
  first : ∃ m ∈ x.frames, (∀ f ∈ x.frames, m ≤ f) ∧
    x.burst.elapsedStartSeconds = max w.start (frameAt t m)
  timed : Timed w x.burst
  side : ∃ s, OnSide centerHz t.binWidthHz s x.burst

omit [IsStrictOrderedRing K] in
theorem mem_activity {bin : ℕ} (h : f ∈ activity t w bin) : FrameOk t w f := by
  unfold activity at h
  rw [Finset.mem_filter, Finset.mem_range] at h
  obtain ⟨hlt, hclip, -⟩ := h
  obtain ⟨hbefore, hbehind⟩ := not_or.mp hclip
  refine ⟨hlt, not_le.mp hbefore, ?_⟩
  rw [frameAt_succ]
  exact not_le.mp hbehind

/-- Bins outside the guard that follow each other are on one side of it. -/
theorem below_of_below {low high : ℕ} (hu : 0 < t.binWidthHz)
    (hside : ∀ b, low ≤ b → b ≤ high → guard centerHz t b = false)
    (hlow : t.firstCenterHz + low * t.binWidthHz < centerHz - guardReach t.binWidthHz)
    {b : ℕ} (hb : low ≤ b) (hle : b ≤ high) :
    t.firstCenterHz + b * t.binWidthHz < centerHz - guardReach t.binWidthHz := by
  induction b, hb using Nat.le_induction with
  | base => exact hlow
  | succ b hb ih =>
    have hprevious := ih (Nat.le_of_succ_le hle)
    have hout := of_decide_eq_false (hside (b + 1) (Nat.le_succ_of_le hb) hle)
    rw [Guarded, abs_le, not_and_or, not_le, not_le] at hout
    have hreach : (0 : K) < 1 / 10 ^ 5 := by positivity
    unfold guardReach at hprevious ⊢
    push_cast at hout ⊢
    rcases hout with hout | hout
    · linarith
    · linarith

/-- The band of a run of bins is on one side of the guard. -/
theorem side_of_bins {low high : ℕ} {center : Bool} (hu : 0 < t.binWidthHz) (hle : low ≤ high)
    (hside : ∀ b, low ≤ b → b ≤ high → guard centerHz t b = center) :
    ∃ s : Side, s.Holds centerHz t.binWidthHz (t.firstCenterHz + (low - 1 / 2) * t.binWidthHz)
        (t.firstCenterHz + (high + 1 / 2) * t.binWidthHz) ∧ (center = true ↔ s = .inside) := by
  have hedge : ∀ x : K, t.firstCenterHz + (low - 1 / 2) * t.binWidthHz + t.binWidthHz / 2 =
      t.firstCenterHz + low * t.binWidthHz ∧ t.firstCenterHz + (high + 1 / 2) * t.binWidthHz -
        t.binWidthHz / 2 = t.firstCenterHz + high * t.binWidthHz := fun _ => by
    constructor <;> ring
  obtain ⟨hfirst, hlast⟩ := hedge 0
  have hlow := hside low le_rfl hle
  cases center with
  | true =>
    have hhigh := hside high hle le_rfl
    have hlow := abs_le.mp (of_decide_eq_true hlow)
    have hhigh := abs_le.mp (of_decide_eq_true hhigh)
    refine ⟨.inside, ⟨?_, ?_⟩, iff_of_true rfl rfl⟩
    · rw [hfirst, guardReach]
      linarith [hlow.1]
    · rw [hlast, guardReach]
      linarith [hhigh.2]
  | false =>
    have hout := of_decide_eq_false hlow
    rw [Guarded, abs_le, not_and_or, not_le, not_le] at hout
    rcases hout with hout | hout
    · refine ⟨.below, ?_, iff_of_false Bool.false_ne_true (fun h => nomatch h)⟩
      unfold Side.Holds
      rw [hlast]
      refine below_of_below hu hside ?_ hle le_rfl
      rw [guardReach]
      linarith
    · refine ⟨.above, ?_, iff_of_false Bool.false_ne_true (fun h => nomatch h)⟩
      unfold Side.Holds
      rw [hfirst, guardReach]
      linarith

/-- A component that the bins of a tile are joined to. -/
theorem component_ok (ht : checkTile t = .ok ()) (hw : w.start < w.stop) {low : ℕ}
    (hlow : 2 ≤ (activity t w low).card) : ComponentOk centerHz t w (component centerHz t w low).1 := by
  have hu : 0 < t.binWidthHz ∧ 0 < frameStep t := by
    unfold checkTile at ht
    rw [reject_eq_ok] at ht
    push Not at ht
    obtain ⟨-, -, hcount, -, -, -, hwidth, hlt⟩ := ht
    exact ⟨hwidth, div_pos (sub_pos.mpr hlt) (Nat.cast_pos.mpr (Nat.pos_of_ne_zero hcount))⟩
  have hrun : RunOk (guard centerHz t) (activity t w) (guard centerHz t low) low
      (componentRun centerHz t w low) :=
    grow_ok ⟨le_rfl, fun b hb hle => by rw [le_antisymm hle hb], fun f hf => ⟨low, hf⟩, subset_rfl⟩
      (Nat.lt_succ_self low) fun b hb hlt => by rw [le_antisymm (Nat.le_of_lt_succ hlt) hb]
  unfold component
  dsimp only
  generalize componentRun centerHz t w low = run at hrun
  have hframes : ∀ f ∈ run.frames, FrameOk t w f := fun f hf => by
    obtain ⟨bin, hbin⟩ := hrun.frames f hf
    exact mem_activity hbin
  have hne : run.frames.Nonempty := by
    obtain ⟨f, hf⟩ := Finset.card_pos.mp (Nat.lt_of_lt_of_le Nat.two_pos hlow)
    exact ⟨f, hrun.first hf⟩
  obtain ⟨htimed, hfirst⟩ := stamp_timed (b := runBurst centerHz t w low run) hw hu.2 hne hframes rfl
  obtain ⟨start, stop, active, heq⟩ := stamp_eq (t := t) (w := w) run.frames
    (runBurst centerHz t w low run)
  refine ⟨hframes, hfirst, ⟨htimed.start, htimed.lt, htimed.stop, htimed.active_pos,
    htimed.active_le⟩, ?_⟩
  obtain ⟨s, hs, hcenter⟩ := side_of_bins hu.1 hrun.low_le hrun.side
  refine ⟨s, ?_⟩
  rw [heq]
  exact ⟨hs, hcenter⟩

/-! ## Absorbed pieces -/

/-- The band of the burst is the hull of the bands of some of the components. -/
def Hull (components : List (Component K)) (b : SpectrumBurst K) : Prop :=
  ∃ pieces : List (Component K), (∀ x ∈ pieces, x ∈ components) ∧
    IsLeast {f | ∃ x ∈ pieces, x.burst.lowerHz = f} b.lowerHz ∧
    IsGreatest {f | ∃ x ∈ pieces, x.burst.upperHz = f} b.upperHz

omit [Field K] [IsStrictOrderedRing K] in
/-- A component is a piece of its own. -/
theorem hull_of_mem {components : List (Component K)} {x : Component K} (hx : x ∈ components) :
    Hull components x.burst := by
  refine ⟨[x], fun y hy => List.mem_singleton.mp hy ▸ hx, ⟨⟨x, List.mem_cons_self, rfl⟩, ?_⟩,
    ⟨⟨x, List.mem_cons_self, rfl⟩, ?_⟩⟩
  · rintro f ⟨y, hy, rfl⟩
    rw [List.mem_singleton.mp hy]
  · rintro f ⟨y, hy, rfl⟩
    rw [List.mem_singleton.mp hy]

omit [Field K] [IsStrictOrderedRing K] in
/-- A burst that takes in the band of another one has the pieces of both. -/
theorem Hull.union {components : List (Component K)} {c : SpectrumBurst K} (hb : Hull components b)
    (hb' : Hull components b') (hlower : c.lowerHz = min b.lowerHz b'.lowerHz)
    (hupper : c.upperHz = max b.upperHz b'.upperHz) : Hull components c := by
  obtain ⟨pieces, hmem, hleast, hgreatest⟩ := hb
  obtain ⟨pieces', hmem', hleast', hgreatest'⟩ := hb'
  have hset : ∀ v : Component K → K, {f | ∃ x ∈ pieces ++ pieces', v x = f} =
      {f | ∃ x ∈ pieces, v x = f} ∪ {f | ∃ x ∈ pieces', v x = f} := fun v => by
    ext f
    simp only [Set.mem_union, Set.mem_ofPred_eq, List.mem_append, or_and_right, exists_or]
  refine ⟨pieces ++ pieces', fun x hx => (List.mem_append.mp hx).elim (hmem x) (hmem' x), ?_, ?_⟩
  · rw [hset, hlower]
    exact hleast.union hleast'
  · rw [hset, hupper]
    exact hgreatest.union hgreatest'

/-- What matching relies on of a track. -/
structure BandOk (centerHz u : K) (track : Track K) : Prop where
  low : track.burst.lowerHz ≤ track.lastLow
  high : track.lastHigh ≤ track.burst.upperHz
  side : ∃ s, OnSide centerHz u s track.burst

/-- The component may be added to every track that it was matched with. -/
def Fits (centerHz u : K) (tracks : List (Track K)) (claimed : List ℕ) (b : SpectrumBurst K) :
    Prop :=
  ∀ j ∈ claimed, ∀ track, tracks[j]? = some track →
    b.elapsedStartSeconds - track.burst.elapsedEndSeconds ≤ maxPause ∧
      b.centerRegion = track.burst.centerRegion ∧
      ∀ s, OnSide centerHz u s track.burst → OnSide centerHz u s b

/-- The components of the absorption loop. -/
def ComponentsOk (centerHz : K) (t : SpectrumTile K) (w : Window K) (tracks : List (Track K))
    (matches' : List (List ℕ)) (components : List (Component K)) : Prop :=
  ∀ i x, components[i]? = some x → ComponentOk centerHz t w x ∧
    Fits centerHz t.binWidthHz tracks (matches'.getD i []) x.burst ∧
    Hull (tileComponents centerHz t w w.last w.first) x.burst

section Absorb

variable {tracks : List (Track K)} {matches' : List (List ℕ)} {a : Absorption K}
  {components : List (Component K)} {s : Side} {l : List ℕ}

omit [LinearOrder K] [IsStrictOrderedRing K] in
theorem mem_addPiece (s : Finset ℕ × Finset ℕ) : f ∈ (l.foldl (addPiece components) s).1 ↔
    f ∈ s.1 ∨ ∃ i ∈ l, f ∈ (components.getD i default).frames :=
  Fold.foldl_or (φ := fun s : Finset ℕ × Finset ℕ => f ∈ s.1) (fun s i => by
    rw [addPiece, Finset.mem_union]) l s

omit [IsStrictOrderedRing K] in
theorem mergePieces_center :
    (l.foldl (mergePiece components) b).centerRegion = b.centerRegion :=
  Fold.foldl_eq (φ := SpectrumBurst.centerRegion) (f := mergePiece components) (fun _ _ => rfl) l b

omit [IsStrictOrderedRing K] in
/-- The hull of pieces on one side is there. -/
theorem mergePieces_side {u : K} (hb : s.Holds centerHz u b.lowerHz b.upperHz)
    (h : ∀ i ∈ l, OnSide centerHz u s (components.getD i default).burst) :
    s.Holds centerHz u (l.foldl (mergePiece components) b).lowerHz
      (l.foldl (mergePiece components) b).upperHz := by
  induction l generalizing b with
  | nil => exact hb
  | cons i l ih =>
    exact ih (hb.hull (h i List.mem_cons_self).1) fun k hk => h k (List.mem_cons_of_mem i hk)

omit [IsStrictOrderedRing K] in
/-- The first piece with the bands of the others. -/
theorem mergePieces_hull {all : List (Component K)} (hb : Hull all b)
    (h : ∀ i ∈ l, Hull all (components.getD i default).burst) :
    Hull all (l.foldl (mergePiece components) b) := by
  induction l generalizing b with
  | nil => exact hb
  | cons i l ih =>
    exact ih (hb.union (h i List.mem_cons_self) rfl rfl) fun k hk => h k (List.mem_cons_of_mem i hk)

/-- One round of the absorption loop. A merged component keeps the start of its first piece, the side
of the track and a band that is the hull of the pieces, so it still continues the track. -/
theorem absorbPieces_ok (hw : w.start < w.stop) (hstep : 0 < frameStep t)
    (htracks : ∀ track ∈ tracks, BandOk centerHz t.binWidthHz track)
    (h : ComponentsOk centerHz t w tracks matches' a.components) :
    ComponentsOk centerHz t w tracks matches' (absorbPieces t w tracks matches' a j).components := by
  unfold absorbPieces
  split
  case isFalse => exact h
  split
  case h_2 => exact h
  rename_i track front rest htrack hpieces
  dsimp only
  split
  case isTrue => exact h
  rename_i hsafe
  have hsafe := not_not.mp (not_or.mp hsafe).1
  have hpiece : ∀ i ∈ front :: rest, ∃ x, a.components[i]? = some x ∧
      a.components.getD i default = x ∧ j ∈ matches'.getD i [] := fun i hi => by
    rw [← hpieces, List.mem_filter, List.mem_range, decide_eq_true_eq] at hi
    refine ⟨a.components.get ⟨i, hi.1⟩, List.getElem?_eq_getElem hi.1, ?_, hi.2⟩
    exact List.getD_eq_getElem _ _ hi.1
  have hside : ∀ s, OnSide centerHz t.binWidthHz s track.burst → ∀ i ∈ front :: rest,
      OnSide centerHz t.binWidthHz s (a.components.getD i default).burst := fun s hs i hi => by
    obtain ⟨x, hx, hgetD, hmem⟩ := hpiece i hi
    rw [hgetD]
    exact ((h i x hx).2.1 j hmem track htrack).2.2 s hs
  obtain ⟨x, hx, hgetD, hmem⟩ := hpiece front List.mem_cons_self
  obtain ⟨hok, hfits, hhull⟩ := h front x hx
  have hfit := hfits j hmem track htrack
  have hmerged : Hull (tileComponents centerHz t w w.last w.first)
      (rest.foldl (mergePiece a.components) x.burst) :=
    mergePieces_hull hhull fun i hi => by
      obtain ⟨y, hy, hgetD, -⟩ := hpiece i (List.mem_cons_of_mem _ hi)
      rw [hgetD]
      exact (h i y hy).2.2
  have hall : ∀ f, f ∈ ((front :: rest).foldl (addPiece a.components) (∅, ∅)).1 ↔
      ∃ i ∈ front :: rest, f ∈ (a.components.getD i default).frames := fun f => by
    rw [mem_addPiece]
    exact or_iff_right (Finset.notMem_empty f)
  -- Only the pieces of the frames matter, not how the loop collects them.
  generalize ((front :: rest).foldl (addPiece a.components) (∅, ∅)).1 = frames at hall
  have hframes : ∀ f ∈ frames, FrameOk t w f := fun f hf => by
    obtain ⟨i, hi, hf⟩ := (hall f).mp hf
    obtain ⟨y, hy, hgetD, -⟩ := hpiece i hi
    exact (h i y hy).1.frames f (hgetD ▸ hf)
  obtain ⟨m, hm, hmin, hstart⟩ := hok.first
  have hmem' : m ∈ frames := (hall m).mpr ⟨front, List.mem_cons_self, hgetD ▸ hm⟩
  rw [hgetD]
  obtain ⟨htimed, m', hm', hmin', hstart'⟩ := stamp_timed
    (b := { rest.foldl (mergePiece a.components) x.burst with ambiguous := true, activeSeconds := 0 })
    hw hstep ⟨m, hmem'⟩ hframes rfl
  obtain ⟨start, stop, active, heq⟩ := stamp_eq (t := t) (w := w) frames
    { rest.foldl (mergePiece a.components) x.burst with ambiguous := true, activeSeconds := 0 }
  have hcenter : (rest.foldl (mergePiece a.components) x.burst).centerRegion =
      x.burst.centerRegion := mergePieces_center
  have honside : ∀ s, OnSide centerHz t.binWidthHz s track.burst → OnSide centerHz t.binWidthHz s
      (stamp t w frames { rest.foldl (mergePiece a.components) x.burst with
        ambiguous := true, activeSeconds := 0 }) := fun s hs => by
    have hfront := hside s hs front List.mem_cons_self
    rw [hgetD] at hfront
    rw [heq]
    refine ⟨mergePieces_side hfront.1 fun i hi => hside s hs i (List.mem_cons_of_mem _ hi), ?_⟩
    show (rest.foldl (mergePiece a.components) x.burst).centerRegion = true ↔ _
    rw [hcenter]
    exact hfront.2
  intro i y hy
  rw [List.getElem?_set] at hy
  split at hy
  case isFalse => exact h i y hy
  rename_i hi
  subst hi
  split at hy
  case isFalse => cases hy
  cases hy
  refine ⟨⟨hframes, ⟨m', hm', hmin', hstart'⟩, htimed, ?_⟩, fun j' hj' track' htrack' => ?_, ?_⟩
  · obtain ⟨s, hs⟩ := (htracks track (List.mem_of_getElem? htrack)).side
    exact ⟨s, honside s hs⟩
  · -- The first piece was matched with this track only.
    have hlen := (hsafe front List.mem_cons_self).1
    obtain ⟨k, hk⟩ := List.length_eq_one_iff.mp hlen
    rw [hk, List.mem_singleton] at hj' hmem
    rw [hj', ← hmem, htrack] at htrack'
    cases htrack'
    refine ⟨?_, ?_, honside⟩
    · have hmono : Monotone (frameAt t) :=
        monotone_nat_of_le_succ fun k => by rw [frameAt_succ]; linarith
      have hle := max_le_max_left w.start (hmono (hmin' m hmem'))
      rw [hstart']
      rw [hstart] at hfit
      exact (sub_le_sub_right hle _).trans hfit.1
    · rw [heq]
      exact hcenter.trans hfit.2.1
  · rw [heq]
    exact hmerged

/-- **The components of a call**, before and after the absorption of pieces. -/
theorem plan_ok (ht : checkTile t = .ok ()) (hw : w.start < w.stop)
    (htracks : ∀ track ∈ tracks, BandOk centerHz t.binWidthHz track) :
    let p := plan centerHz t w tracks
    ComponentsOk centerHz t w tracks p.matches' p.absorption.components := by
  have hpos : 0 < t.binWidthHz ∧ 0 < frameStep t := by
    unfold checkTile at ht
    rw [reject_eq_ok] at ht
    push Not at ht
    obtain ⟨-, -, hcount, -, -, -, hwidth, hlt⟩ := ht
    exact ⟨hwidth, div_pos (sub_pos.mpr hlt) (Nat.cast_pos.mpr (Nat.pos_of_ne_zero hcount))⟩
  have hcomponents : ∀ rounds bin, ∀ x ∈ tileComponents centerHz t w rounds bin,
      ComponentOk centerHz t w x := by
    intro rounds
    induction rounds with
    | zero => exact fun bin x hx => absurd hx List.not_mem_nil
    | succ rounds ih =>
      intro bin x hx
      rw [tileComponents] at hx
      split at hx
      case isFalse => exact absurd hx List.not_mem_nil
      split at hx <;> rename_i hcard
      · exact ih _ x hx
      · rcases List.mem_cons.mp hx with rfl | hx
        · exact component_ok ht hw (not_lt.mp hcard)
        · exact ih _ x hx
  have hinit : ComponentsOk centerHz t w tracks (matched (padding t)
      (tileComponents centerHz t w w.last w.first) tracks)
      (tileComponents centerHz t w w.last w.first) := by
    intro i x hx
    have hok := hcomponents _ _ x (List.mem_of_getElem? hx)
    refine ⟨hok, fun j hj track htrack => ?_, hull_of_mem (List.mem_of_getElem? hx)⟩
    rw [matched, List.getD_eq_getElem?_getD, List.getElem?_map, hx] at hj
    have hcontinues := (List.mem_filter.mp hj).2
    rw [htrack] at hcontinues
    have hcontinues : Continues (padding t) x.burst track := of_decide_eq_true hcontinues
    refine ⟨hcontinues.1, hcontinues.2.1, fun s hs => ?_⟩
    obtain ⟨s', hs'⟩ := hok.side
    have hband := htracks track (List.mem_of_getElem? htrack)
    -- A track and a component that continue each other are on one side of the guard.
    rw [← hs.continues hpos.1 hs' hband.low hband.high hcontinues]
    exact hs'
  unfold plan
  dsimp only
  generalize matched (padding t) (tileComponents centerHz t w w.last w.first) tracks = matches' at hinit
  have hloop : ∀ (l : List ℕ) (a : Absorption K),
      ComponentsOk centerHz t w tracks matches' a.components →
      ComponentsOk centerHz t w tracks matches'
        (l.foldl (absorbPieces t w tracks matches') a).components := by
    intro l
    induction l with
    | nil => exact fun a h => h
    | cons j l ih => exact fun a h => ih _ (absorbPieces_ok hw hpos.2 htracks h)
  exact hloop _ _ hinit

end Absorb

end BurstGrouper

end OVMesh
