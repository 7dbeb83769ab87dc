import OVMesh.Bursts.Bounds

/-!
# The envelope of a burst

The tracks of a burst grouper, when its tiles are ordered in time and do not overlap.

* `Unbroken`: nothing between two calls was left unobserved.
* `TrackOk`: what a track says about its components. `TrackOk.extend`, `TrackOk.fresh`.
* `PlacingInv`, `place_inv`: what the loop over the components keeps.
* `RunInv`, `call_inv`: what every call keeps. `bursts_bounded`: what an emitted burst says.
-/

namespace OVMesh

namespace BurstGrouper

open Checked

variable {K : Type} [Field K] [LinearOrder K] {centerHz : K} {calls : List (Call K)}
  {a b k n : ℕ} {c : Call K} {t : Track K} {burst : SpectrumBurst K} {part : Part K}

/-- The window of call `k + 1` continues that of call `k`, on the same grid. -/
def Joined (calls : List (Call K)) (k : ℕ) : Prop :=
  ∃ c c', calls[k]? = some c ∧ calls[k + 1]? = some c' ∧ ¬ c.window.Empty ∧ ¬ c'.window.Empty ∧
    |c'.window.start - c.window.stop| ≤ 1 / 10 ^ 8 ∧
    c'.tile.meanDbfs.length = c.tile.meanDbfs.length ∧
    c'.tile.firstCenterHz = c.tile.firstCenterHz ∧ c'.tile.binWidthHz = c.tile.binWidthHz

/-- What a component says about its call: it lies in the window, and its band is the hull of the
pieces of the tile that it took in. -/
structure PartOk (centerHz : K) (c : Call K) (b : SpectrumBurst K) : Prop where
  timed : Timed c.window b
  hull : Hull (tileComponents centerHz c.tile c.window c.window.last c.window.first) b

/-- From call `a` to call `b` everything was observed on one grid. -/
def Unbroken (calls : List (Call K)) (a b : ℕ) : Prop := ∀ k, a ≤ k → k < b → Joined calls k

theorem Unbroken.width (h : Unbroken calls a b) (hab : a ≤ b) {c c' : Call K}
    (hc : calls[a]? = some c) (hc' : calls[b]? = some c') :
    c'.tile.binWidthHz = c.tile.binWidthHz := by
  induction b, hab using Nat.le_induction generalizing c' with
  | base =>
    rw [hc] at hc'
    cases hc'
    rfl
  | succ b hab ih =>
    obtain ⟨d, d', hd, hd', -, -, -, -, -, hwidth⟩ := h b hab (Nat.lt_succ_self b)
    rw [hd'] at hc'
    cases hc'
    exact hwidth.trans (ih (fun k hk hlt => h k hk (Nat.lt_succ_of_lt hlt)) hd)

/-- A pause within a burst. -/
def Follows (p p' : Part K) : Prop :=
  p.burst.elapsedEndSeconds ≤ p'.burst.elapsedStartSeconds ∧
    p'.burst.elapsedStartSeconds - p.burst.elapsedEndSeconds ≤ maxPause

/-- What a track says about the components that it was made of. -/
structure TrackOk (centerHz : K) (calls : List (Call K)) (t : Track K) : Prop where
  window : ∀ part ∈ t.parts, ∃ c, calls[part.call]? = some c ∧ PartOk centerHz c part.burst
  unbroken : ∀ p ∈ t.parts, ∀ p' ∈ t.parts, Unbroken calls p.call p'.call
  pauses : t.parts.IsChain Follows
  start : ∃ p, t.parts.head? = some p ∧ t.burst.elapsedStartSeconds = p.burst.elapsedStartSeconds
  stop : ∃ p, t.parts.getLast? = some p ∧ t.burst.elapsedEndSeconds = p.burst.elapsedEndSeconds ∧
    t.lastLow = p.burst.lowerHz ∧ t.lastHigh = p.burst.upperHz
  lower : IsLeast {x | ∃ p ∈ t.parts, x = p.burst.lowerHz} t.burst.lowerHz
  upper : IsGreatest {x | ∃ p ∈ t.parts, x = p.burst.upperHz} t.burst.upperHz
  active : t.burst.activeSeconds = (t.parts.map fun p => p.burst.activeSeconds).sum
  active_pos : 0 < t.burst.activeSeconds
  active_le : t.burst.activeSeconds ≤ t.burst.elapsedEndSeconds - t.burst.elapsedStartSeconds
  center : ∀ p ∈ t.parts, p.burst.centerRegion = t.burst.centerRegion
  side : ∀ p ∈ t.parts, ∀ c, calls[p.call]? = some c →
    ∃ s, OnSide centerHz c.tile.binWidthHz s t.burst
  extent : ∃ p c, t.parts.getLast? = some p ∧ calls[p.call]? = some c ∧
    t.burst.elapsedEndSeconds - t.burst.elapsedStartSeconds <
      10 + maxPause + (c.tile.elapsedEndSeconds - c.tile.elapsedStartSeconds)

theorem TrackOk.iff_core : TrackOk centerHz calls t.core ↔ TrackOk centerHz calls t :=
  ⟨fun h => ⟨h.window, h.unbroken, h.pauses, h.start, h.stop, h.lower, h.upper, h.active,
      h.active_pos, h.active_le, h.center, h.side, h.extent⟩,
    fun h => ⟨h.window, h.unbroken, h.pauses, h.start, h.stop, h.lower, h.upper, h.active,
      h.active_pos, h.active_le, h.center, h.side, h.extent⟩⟩

variable [IsStrictOrderedRing K]

omit [IsStrictOrderedRing K] in
/-- The window of a call lies in its tile. -/
theorem window_le (c : Call K) : c.tile.elapsedStartSeconds ≤ c.window.start ∧
    c.window.stop ≤ c.tile.elapsedEndSeconds := by
  unfold Call.window
  refine ⟨le_max_right _ _, ?_⟩
  dsimp only
  split
  · exact le_refl _
  · exact min_le_right _ _

/-- A component lasts at most as long as its tile. -/
theorem Timed.duration (h : Timed c.window burst) :
    burst.elapsedEndSeconds - burst.elapsedStartSeconds ≤
      c.tile.elapsedEndSeconds - c.tile.elapsedStartSeconds :=
  sub_le_sub (h.stop.trans (window_le c).2) ((window_le c).1.trans h.start)

omit [IsStrictOrderedRing K] in
theorem TrackOk.band (h : TrackOk centerHz calls t) :
    t.burst.lowerHz ≤ t.lastLow ∧ t.lastHigh ≤ t.burst.upperHz := by
  obtain ⟨p, hp, -, hlow, hhigh⟩ := h.stop
  have hmem := List.mem_of_getLast? hp
  rw [hlow, hhigh]
  exact ⟨h.lower.2 ⟨p, hmem, rfl⟩, h.upper.2 ⟨p, hmem, rfl⟩⟩

/-- A track of one component. -/
theorem TrackOk.fresh (part : Part K) (burst : SpectrumBurst K) (seen : K)
    (hc : calls[part.call]? = some c) (hpart : PartOk centerHz c part.burst)
    (hside : ∃ s, OnSide centerHz c.tile.binWidthHz s part.burst)
    (hstart : burst.elapsedStartSeconds = part.burst.elapsedStartSeconds)
    (hstop : burst.elapsedEndSeconds = part.burst.elapsedEndSeconds)
    (hlower : burst.lowerHz = part.burst.lowerHz) (hupper : burst.upperHz = part.burst.upperHz)
    (hactive : burst.activeSeconds = part.burst.activeSeconds)
    (hcenter : burst.centerRegion = part.burst.centerRegion) :
    TrackOk centerHz calls ⟨burst, burst.lowerHz, burst.upperHz, seen, [part]⟩ := by
  -- Every part of the new track is this one.
  have hone : ∀ {p : Part K}, p ∈ [part] → p = part := List.mem_singleton.mp
  refine ⟨fun p hp => ⟨c, hone hp ▸ ⟨hc, hpart⟩⟩, fun p hp p' hp' k hk hlt => ?_,
    .singleton _, ⟨part, rfl, hstart⟩, ⟨part, rfl, hstop, hlower, hupper⟩, ⟨⟨part, ?_, hlower⟩, ?_⟩,
    ⟨⟨part, ?_, hupper⟩, ?_⟩, ?_, hactive ▸ hpart.timed.active_pos, ?_, fun p hp => ?_,
    fun p hp c' hc' => ?_, ⟨part, c, rfl, hc, ?_⟩⟩
  · rw [hone hp] at hk
    rw [hone hp'] at hlt
    omega
  · exact List.mem_singleton_self _
  · rintro x ⟨p, hp, rfl⟩
    rw [hone hp]
    exact hlower.le
  · exact List.mem_singleton_self _
  · rintro x ⟨p, hp, rfl⟩
    rw [hone hp]
    exact hupper.ge
  · rw [List.map_singleton, List.sum_singleton]
    exact hactive
  · show burst.activeSeconds ≤ burst.elapsedEndSeconds - burst.elapsedStartSeconds
    rw [hactive, hstart, hstop]
    exact hpart.timed.active_le
  · rw [hone hp]
    exact hcenter.symm
  · rw [hone hp, hc] at hc'
    cases hc'
    obtain ⟨s, hs⟩ := hside
    refine ⟨s, ?_⟩
    unfold OnSide at hs ⊢
    rw [hlower, hupper, hcenter]
    exact hs
  · show burst.elapsedEndSeconds - burst.elapsedStartSeconds < _
    have hduration := hpart.timed.duration
    have hpause : (0 : K) < 10 + maxPause := by
      unfold maxPause
      positivity
    rw [hstart, hstop]
    linarith

/-- A track takes in a component of a later call. -/
theorem TrackOk.extend (part : Part K) (stop : K) (h : TrackOk centerHz calls t)
    (hc : calls[part.call]? = some c)
    (hpart : PartOk centerHz c part.burst) (hstop : t.burst.elapsedEndSeconds ≤ c.window.start)
    (hshort : t.burst.elapsedEndSeconds - t.burst.elapsedStartSeconds < 10)
    (hpause : part.burst.elapsedStartSeconds - t.burst.elapsedEndSeconds ≤ maxPause)
    (hcenter : part.burst.centerRegion = t.burst.centerRegion)
    (hside : ∀ s, OnSide centerHz c.tile.binWidthHz s t.burst →
      OnSide centerHz c.tile.binWidthHz s part.burst)
    (hcalls : ∀ p ∈ t.parts, p.call ≤ part.call ∧ Unbroken calls p.call part.call) :
    TrackOk centerHz calls (t.extend part.burst stop part) := by
  obtain ⟨first, hfirst, hstart⟩ := h.start
  obtain ⟨last, hlast, hend, -, -⟩ := h.stop
  have hfollows : t.burst.elapsedEndSeconds ≤ part.burst.elapsedStartSeconds :=
    hstop.trans hpart.timed.start
  have hmem : ∀ {p}, p ∈ t.parts ++ [part] → p ∈ t.parts ∨ p = part := fun hp =>
    (List.mem_append.mp hp).imp id List.mem_singleton.mp
  have hne : t.parts ≠ [] := fun hnil => by rw [hnil] at hfirst; cases hfirst
  have hlower : IsLeast {x | ∃ p ∈ t.parts ++ [part], x = p.burst.lowerHz}
      (min t.burst.lowerHz part.burst.lowerHz) := by
    refine ⟨?_, ?_⟩
    · obtain ⟨p, hp, heq⟩ := h.lower.1
      rcases min_choice t.burst.lowerHz part.burst.lowerHz with hmin | hmin
      · exact ⟨p, List.mem_append_left _ hp, hmin.trans heq⟩
      · exact ⟨part, List.mem_append_right _ (List.mem_singleton_self _), hmin⟩
    · rintro x ⟨p, hp, rfl⟩
      rcases hmem hp with hp | rfl
      · exact (min_le_left _ _).trans (h.lower.2 ⟨p, hp, rfl⟩)
      · exact min_le_right _ _
  have hupper : IsGreatest {x | ∃ p ∈ t.parts ++ [part], x = p.burst.upperHz}
      (max t.burst.upperHz part.burst.upperHz) := by
    refine ⟨?_, ?_⟩
    · obtain ⟨p, hp, heq⟩ := h.upper.1
      rcases max_choice t.burst.upperHz part.burst.upperHz with hmax | hmax
      · exact ⟨p, List.mem_append_left _ hp, hmax.trans heq⟩
      · exact ⟨part, List.mem_append_right _ (List.mem_singleton_self _), hmax⟩
    · rintro x ⟨p, hp, rfl⟩
      rcases hmem hp with hp | rfl
      · exact (h.upper.2 ⟨p, hp, rfl⟩).trans (le_max_left _ _)
      · exact le_max_right _ _
  refine ⟨fun p hp => ?_, fun p hp p' hp' => ?_, ?_, ⟨first, ?_, hstart⟩, ⟨part, ?_, rfl, rfl, rfl⟩,
    hlower, hupper, ?_, add_pos h.active_pos hpart.timed.active_pos, ?_, fun p hp => ?_,
    fun p hp c' hc' => ?_, ⟨part, c, ?_, hc, ?_⟩⟩
  · rcases hmem hp with hp | rfl
    · exact h.window p hp
    · exact ⟨c, hc, hpart⟩
  -- Between two of the components, the new one included, every call was joined to the next.
  · rcases hmem hp with hold | rfl <;> rcases hmem hp' with hold' | rfl
    · exact h.unbroken p hold p' hold'
    · exact (hcalls p hold).2
    · intro k hk hlt
      have := (hcalls p' hold').1
      omega
    · intro k hk hlt
      omega
  · refine List.isChain_append.mpr ⟨h.pauses, .singleton _, fun p hp p' hp' => ?_⟩
    rw [hlast] at hp
    cases hp
    cases hp'
    rw [Follows, ← hend]
    exact ⟨hfollows, hpause⟩
  · show (t.parts ++ [part]).head? = _
    rw [List.head?_append_of_ne_nil _ hne, hfirst]
  · exact List.getLast?_concat
  · show t.burst.activeSeconds + part.burst.activeSeconds = ((t.parts ++ [part]).map _).sum
    rw [List.map_append, List.sum_append, ← h.active, List.map_singleton, List.sum_singleton]
  · show t.burst.activeSeconds + part.burst.activeSeconds ≤
      part.burst.elapsedEndSeconds - t.burst.elapsedStartSeconds
    have h₁ := h.active_le
    have h₂ := hpart.timed.active_le
    linarith
  · rcases hmem hp with hp | rfl
    · exact h.center p hp
    · exact hcenter
  · have hwidth : c'.tile.binWidthHz = c.tile.binWidthHz := by
      rcases hmem hp with hp | rfl
      · exact ((hcalls p hp).2.width (hcalls p hp).1 hc' hc).symm
      · rw [hc] at hc'
        cases hc'
        rfl
    rw [hwidth]
    obtain ⟨c₀, hc₀, -⟩ := h.window first (List.mem_of_head? hfirst)
    have hfirst' := hcalls first (List.mem_of_head? hfirst)
    obtain ⟨s, hs⟩ := h.side first (List.mem_of_head? hfirst) c₀ hc₀
    rw [← hfirst'.2.width hfirst'.1 hc₀ hc] at hs
    exact ⟨s, hs.1.hull (hside s hs).1, hs.2⟩
  · exact List.getLast?_concat
  -- The track was shorter than ten seconds before this component.
  · show part.burst.elapsedEndSeconds - t.burst.elapsedStartSeconds < _
    have hduration := hpart.timed.duration
    linarith

/-! ## Placing -/

/-- What a live track says about the call that is placed. -/
structure Reaches (calls : List (Call K)) (n : ℕ) (stop : K) (t : Track K) : Prop where
  stop : t.burst.elapsedEndSeconds ≤ stop
  calls : ∀ p ∈ t.parts, p.call ≤ n ∧ Unbroken calls p.call n

omit [Field K] [LinearOrder K] [IsStrictOrderedRing K] in
theorem doubtAll_core (tracks : List (Track K)) (claimed : List ℕ) :
    (doubtAll tracks claimed).map Track.core = tracks.map Track.core := by
  unfold doubtAll
  refine Fold.foldl_eq (φ := fun l : List (Track K) => l.map Track.core) (fun l j => ?_) claimed _
  refine List.ext_getElem? fun k => ?_
  rw [List.getElem?_map, List.getElem?_map, List.getElem?_modify]
  cases l[k]? with
  | none => rfl
  | some t =>
    show some (Track.core _) = some t.core
    split <;> rfl

/-- The loop over the components of call `n`, in front of component `i`. -/
structure PlacingInv (centerHz : K) (calls : List (Call K)) (n : ℕ) (stop : K)
    (old : List (Track K)) (p : Plan K) (i : ℕ) (s : Placing K) : Prop where
  tracks : ∀ t ∈ s.pool.all, TrackOk centerHz calls t.core
  reaches : ∀ t ∈ s.pool.pending, Reaches calls n stop t.core
  length : old.length ≤ s.pool.pending.length
  untouched : ∀ j < old.length, (∀ k < i, p.absorption.absorbed.getD k false = false →
    extended p.matches' p.absorption.uses k ≠ some j) →
    (s.pool.pending.map Track.core)[j]? = (old.map Track.core)[j]?

section Place

variable {old : List (Track K)} {p : Plan K} {s : Placing K} {i : ℕ} {stop : K}

omit [IsStrictOrderedRing K] in
/-- Between a call and itself nothing was left out. -/
theorem Unbroken.refl (a : ℕ) : Unbroken calls a a := fun _ hk hlt => absurd hlt hk.not_gt

/-- A component opens a track. -/
theorem PlacingInv.open (h : PlacingInv centerHz calls n c.window.stop old p i s)
    (claimed : List ℕ) (hc : calls[n]? = some c) (hburst : PartOk centerHz c burst)
    (hside : ∃ s, OnSide centerHz c.tile.binWidthHz s burst) :
    PlacingInv centerHz calls n c.window.stop old p (i + 1)
      (openTrack s burst c.window.stop claimed { call := n, index := i, burst }) := by
  have hfresh : TrackOk centerHz calls (Track.core ⟨_, _, _, _, _⟩) :=
    TrackOk.iff_core.mpr (.fresh { call := n, index := i, burst } { burst with
      id := s.nextId, ambiguous := burst.ambiguous || !claimed.isEmpty } c.window.stop hc hburst
      hside rfl rfl rfl rfl rfl rfl)
  have hreaches : Reaches calls n c.window.stop (Track.core ⟨{ burst with
      id := s.nextId, ambiguous := burst.ambiguous || !claimed.isEmpty }, burst.lowerHz,
      burst.upperHz, c.window.stop, [{ call := n, index := i, burst }]⟩) := by
    refine ⟨hburst.timed.stop, fun p hp => ?_⟩
    rw [List.mem_singleton.mp hp]
    exact ⟨le_rfl, .refl n⟩
  -- The tracks that the component is ambiguous with only get their flag, which is not in their core.
  have hmoved : Pool.Moved Track.core s.pool _ := moved_doubtAll claimed
  have hold := hmoved.forall h.tracks
  have hpending := hmoved.forall_pending h.reaches
  have hlen : (doubtAll s.pool.pending claimed).length = s.pool.pending.length := by
    simpa only [List.length_map] using congrArg List.length (doubtAll_core s.pool.pending claimed)
  have huntouched : ∀ j < old.length, (∀ k < i + 1, p.absorption.absorbed.getD k false = false →
      extended p.matches' p.absorption.uses k ≠ some j) →
      ((doubtAll s.pool.pending claimed).map Track.core)[j]? = (old.map Track.core)[j]? :=
    fun j hj hne => by
      rw [doubtAll_core]
      exact h.untouched j hj fun k hk => hne k (Nat.lt_succ_of_lt hk)
  unfold openTrack
  dsimp only
  -- The new track is pending, or over the limit one of those that are given up.
  split
  · refine ⟨fun t ht => ?_, fun t ht => ?_, ?_, fun j hj hne => ?_⟩
    · rw [Pool.all, ← List.append_assoc] at ht
      rcases List.mem_append.mp ht with ht | ht
      · exact hold t ht
      · rw [List.mem_singleton.mp ht]
        exact hfresh
    · rcases List.mem_append.mp ht with ht | ht
      · exact hpending t ht
      · rw [List.mem_singleton.mp ht]
        exact hreaches
    · rw [List.length_append, hlen]
      exact h.length.trans (Nat.le_add_right _ _)
    · rw [List.map_append, List.getElem?_append_left]
      · exact huntouched j hj hne
      · rw [List.length_map, hlen]
        exact hj.trans_le h.length
  · refine ⟨fun t ht => ?_, hpending, hlen ▸ h.length, huntouched⟩
    rcases List.mem_append.mp ht with ht | ht
    · rcases List.mem_append.mp ht with ht | ht
      · exact hold t (List.mem_append_left _ ht)
      · rw [List.mem_singleton.mp ht]
        exact hfresh
    · exact hold t (List.mem_append_right _ ht)

/-- What placing relies on of the tracks of the call. -/
structure OldOk (centerHz : K) (calls : List (Call K)) (n : ℕ) (start : K) (t : Track K) : Prop where
  track : TrackOk centerHz calls t
  reaches : Reaches calls n start t
  short : t.burst.elapsedEndSeconds - t.burst.elapsedStartSeconds < 10

/-- One round of the loop over the components. -/
theorem place_inv (hc : calls[n]? = some c) (hold : ∀ t ∈ old, OldOk centerHz calls n c.window.start t.core)
    (hplan : ComponentsOk centerHz c.tile c.window old p.matches' p.absorption.components)
    (hlt : ∀ j ∈ p.matches'.getD i [], j < old.length)
    (hsole : Sole p.matches' p.absorption.absorbed p.absorption.uses)
    (hi : i < p.absorption.components.length)
    (h : PlacingInv centerHz calls n c.window.stop old p i s) :
    PlacingInv centerHz calls n c.window.stop old p (i + 1)
      (place n c.window.stop p.matches' p.absorption s i) := by
  unfold place
  split <;> rename_i habsorbed
  · exact ⟨h.tracks, h.reaches, h.length, fun j hj hne => h.untouched j hj fun k hk =>
      hne k (Nat.lt_succ_of_lt hk)⟩
  have habsorbed := Bool.eq_false_iff.mpr habsorbed
  obtain ⟨hok, hfits, hhull⟩ := hplan i _ (List.getElem?_eq_getElem hi)
  rw [List.getD_eq_getElem _ _ hi]
  generalize p.absorption.components[i] = x at hok hfits hhull
  dsimp only
  split <;> rename_i hextended
  · rename_i j
    obtain ⟨hmatch, huse⟩ := extended_eq_some hextended
    have hj : j ∈ p.matches'.getD i [] := hmatch ▸ List.mem_singleton_self j
    have hjold := hlt j hj
    -- The track was not extended by an earlier component.
    have hkeep := h.untouched j hjold fun k hk hopen hk' => by
      obtain ⟨hmatch', -⟩ := extended_eq_some hk'
      exact hk.ne (hsole k i j hopen habsorbed (hmatch' ▸ List.mem_singleton_self j) hj huse)
    have hjs : j < s.pool.pending.length := hjold.trans_le h.length
    rw [List.getElem?_map, List.getElem?_map, List.getElem?_eq_getElem hjs,
      List.getElem?_eq_getElem hjold, Option.map_some, Option.map_some, Option.some_inj] at hkeep
    have hfit : x.burst.elapsedStartSeconds - old[j].core.burst.elapsedEndSeconds ≤ maxPause ∧
        x.burst.centerRegion = old[j].core.burst.centerRegion ∧
        ∀ s, OnSide centerHz c.tile.binWidthHz s old[j].core.burst →
          OnSide centerHz c.tile.binWidthHz s x.burst :=
      hfits j hj old[j] (List.getElem?_eq_getElem hjold)
    obtain ⟨htrack, hreaches, hshort⟩ := hold _ (List.getElem_mem hjold)
    rw [← hkeep] at hfit htrack hreaches hshort
    have hextend : TrackOk centerHz calls (s.pool.pending[j].extend x.burst c.window.stop
        { call := n, index := i, burst := x.burst }).core :=
      TrackOk.iff_core.mpr ((TrackOk.iff_core.mp htrack).extend
        { call := n, index := i, burst := x.burst } c.window.stop hc ⟨hok.timed, hhull⟩ hreaches.stop hshort
        hfit.1 hfit.2.1 hfit.2.2 hreaches.calls)
    have hreach : Reaches calls n c.window.stop (s.pool.pending[j].extend x.burst
        c.window.stop { call := n, index := i, burst := x.burst }).core := by
      refine ⟨hok.timed.stop, fun p hp => ?_⟩
      rcases List.mem_append.mp hp with hp | hp
      · exact hreaches.calls p hp
      · rw [List.mem_singleton.mp hp]
        exact ⟨le_rfl, .refl n⟩
    refine ⟨fun t ht => ?_, fun t ht => ?_, ?_, fun k hk hne => ?_⟩
    · rcases List.mem_append.mp ht with ht | ht
      · exact h.tracks t (List.mem_append_left _ ht)
      · rcases Pool.mem_modify ht with ht | ⟨_, rfl⟩
        · exact h.tracks t (List.mem_append_right _ ht)
        · exact hextend
    · rcases Pool.mem_modify ht with ht | ⟨_, rfl⟩
      · exact h.reaches t ht
      · exact hreach
    · rw [List.length_modify]
      exact h.length
    · have hjk : j ≠ k := fun heq =>
        hne i (Nat.lt_succ_self i) habsorbed (heq ▸ hextended)
      have hold := h.untouched k hk fun k' hk' => hne k' (Nat.lt_succ_of_lt hk')
      rw [List.getElem?_map] at hold ⊢
      dsimp only
      rw [List.getElem?_modify_ne _ _ hjk]
      exact hold
  · exact h.open _ hc ⟨hok.timed, hhull⟩ hok.side

end Place

/-! ## Runs -/

/-- Tiles that were accepted, in the order of their times, which do not overlap. -/
structure Ordered (calls : List (Call K)) : Prop where
  accepted : ∀ c ∈ calls, checkTile c.tile = .ok ()
  nonneg : ∀ c ∈ calls, 0 ≤ c.tile.elapsedStartSeconds
  disjoint : calls.Pairwise fun c c' => c.tile.elapsedEndSeconds ≤ c'.tile.elapsedStartSeconds

/-- What the state says in front of call `n`. -/
structure RunInv (centerHz : K) (calls : List (Call K)) (n : ℕ) (g : Grouper K) : Prop where
  center : g.centerHz = centerHz
  count : g.calls = n
  tracks : ∀ t ∈ g.pool.all, TrackOk centerHz calls t.core
  short : ∀ t ∈ g.pool.pending,
    t.core.burst.elapsedEndSeconds - t.core.burst.elapsedStartSeconds < 10
  live : g.pool.pending ≠ [] → ∃ k c, n = k + 1 ∧ calls[k]? = some c ∧ ¬ c.window.Empty ∧
    g.previousEnd = c.window.stop ∧ g.gridBins = c.tile.meanDbfs.length ∧
    g.gridFirst = c.tile.firstCenterHz ∧ g.gridWidth = c.tile.binWidthHz ∧
    ∀ t ∈ g.pool.pending, Reaches calls k c.window.stop t.core

section Steps

variable {g : Grouper K}

omit [IsStrictOrderedRing K] in
/-- The tracks that a call is matched with. -/
theorem RunInv.arrive (h : RunInv centerHz calls n g) (hordered : Ordered calls)
    (hc : calls[n]? = some c) (hempty : ¬ c.window.Empty) :
    ∀ t ∈ (g.arrive c).pool.pending, OldOk centerHz calls n c.window.start t.core := by
  intro t ht
  have hall := (moved_arrive c).forall h.tracks t (List.mem_append_right _ ht)
  have hshort := (moved_arrive c).forall_pending
    (P := fun t => t.burst.elapsedEndSeconds - t.burst.elapsedStartSeconds < 10) h.short t ht
  refine ⟨hall, ?_, hshort⟩
  unfold Grouper.arrive at ht
  split at ht
  case isTrue => exact absurd (List.mem_filter.mp ht).1 List.not_mem_nil
  rename_i hbreaks
  have hpending : t ∈ g.pool.pending := (List.mem_filter.mp ht).1
  obtain ⟨k, c', rfl, hc', hempty', hend, hbins, hfirst, hwidth, hreaches⟩ :=
    h.live (List.ne_nil_of_mem hpending)
  obtain ⟨hstop, hcalls⟩ := hreaches t hpending
  have hordered' := List.pairwise_iff_getElem.mp hordered.disjoint k (k + 1)
    (List.getElem?_eq_some_iff.mp hc').1 (List.getElem?_eq_some_iff.mp hc).1 (Nat.lt_succ_self k)
  rw [(List.getElem?_eq_some_iff.mp hc').2, (List.getElem?_eq_some_iff.mp hc).2] at hordered'
  have hjoined : Joined calls k := by
    have hpositive : g.previousEnd ≥ 0 := by
      have hstart := hordered.nonneg c' (List.mem_of_getElem? hc')
      obtain ⟨-, hlt⟩ := not_or.mp hempty'
      rw [hend]
      exact (hstart.trans (window_le c').1).trans (not_le.mp hlt).le
    have hsame := not_and.mp hbreaks hpositive
    push Not at hsame
    rw [hend, hbins, hfirst, hwidth] at hsame
    obtain ⟨habs, hbins, hfirst, hwidth⟩ := hsame
    exact ⟨c', c, hc', hc, hempty', hempty, habs, hbins.symm, hfirst.symm, hwidth.symm⟩
  refine ⟨?_, fun p hp => ?_⟩
  · exact hstop.trans ((window_le c').2.trans (hordered'.trans (window_le c).1))
  · obtain ⟨hle, hunbroken⟩ := hcalls p hp
    refine ⟨Nat.le_succ_of_le hle, fun i hi hlt => ?_⟩
    rcases Nat.lt_succ_iff_lt_or_eq.mp hlt with hlt | rfl
    · exact hunbroken i hi hlt
    · exact hjoined

/-- The loop over the components of a call. -/
theorem placeFirst_inv (hc : calls[n]? = some c) (ht : checkTile c.tile = .ok ())
    (hempty : ¬ c.window.Empty) (hn : g.calls = n)
    (htracks : ∀ t ∈ g.pool.all, TrackOk centerHz calls t.core)
    (hold : ∀ t ∈ g.pool.pending, OldOk centerHz calls n c.window.start t.core) {m : ℕ}
    (hm : m ≤ (plan centerHz c.tile c.window g.pool.pending).absorption.components.length) :
    let p := plan centerHz c.tile c.window g.pool.pending
    PlacingInv centerHz calls n c.window.stop g.pool.pending p m
      (placeFirst g c.window p m) := by
  intro p
  have hband : ∀ t ∈ g.pool.pending, BandOk centerHz c.tile.binWidthHz t := fun t ht => by
    obtain ⟨htrack, hreaches, -⟩ := hold t ht
    obtain ⟨first, hfirst, -⟩ := htrack.start
    have hmem := List.mem_of_head? hfirst
    obtain ⟨c₀, hc₀, -⟩ := htrack.window first hmem
    obtain ⟨hle, hunbroken⟩ := hreaches.calls first hmem
    have hside := htrack.side first hmem c₀ hc₀
    rw [← hunbroken.width hle hc₀ hc] at hside
    exact ⟨htrack.band.1, htrack.band.2, hside⟩
  obtain ⟨-, hlt⟩ := not_or.mp hempty
  have hplan := plan_ok ht (not_le.mp hlt) hband
  obtain ⟨-, hsole⟩ := plan_sole centerHz c.tile c.window g.pool.pending
  induction m with
  | zero =>
    refine ⟨htracks, fun t ht => ?_, le_rfl, fun j _ _ => rfl⟩
    obtain ⟨-, hreaches, -⟩ := hold t ht
    exact ⟨hreaches.stop.trans (not_le.mp hlt).le, hreaches.calls⟩
  | succ m ih =>
    rw [placeFirst, List.range_succ, List.foldl_append, hn]
    have ih := ih (Nat.le_of_succ_le hm)
    rw [placeFirst, hn] at ih
    exact place_inv hc hold hplan (fun j hj => matched_lt hj) hsole hm ih

/-- **One call.** -/
theorem call_inv (hordered : Ordered calls) (hc : calls[n]? = some c)
    (h : RunInv centerHz calls n g) : RunInv centerHz calls (n + 1) (call g c) := by
  have ht := hordered.accepted c (List.mem_of_getElem? hc)
  by_cases hempty : c.window.Empty
  · rw [call_empty ht hempty]
    have hmoved : Pool.Moved Track.core g.pool (finish g).pool := moved_finish true
    exact ⟨h.center, congrArg (· + 1) h.count, hmoved.forall h.tracks,
      fun t ht => absurd ht List.not_mem_nil, fun hne => absurd rfl hne⟩
  rw [call_group ht hempty]
  have hcenter : (g.arrive c).centerHz = centerHz := (arrive_centerHz c).trans h.center
  have hplaced := placeFirst_inv hc ht hempty ((arrive_calls c).trans h.count)
    ((moved_arrive c).forall h.tracks) (h.arrive hordered hc hempty) le_rfl
  have hmoved : Pool.Moved Track.core _ (group (g.arrive c) c.tile c.window).pool :=
    (moved_retireAll _).trans moved_cutLong
  rw [← hcenter] at hplaced
  refine ⟨hcenter, ?_, ?_, fun t ht => ?_, fun _ => ⟨n, c, rfl, hc, hempty, ?_, ?_, ?_, ?_, ?_⟩⟩
  · show (g.arrive c).calls + 1 = n + 1
    rw [arrive_calls, h.count]
  · rw [← hcenter]
    exact hmoved.forall hplaced.tracks
  · have hlong := (List.mem_filter.mp ht).2
    rw [decide_eq_true_eq, not_le] at hlong
    exact hlong
  · unfold group Grouper.arrive
    rfl
  · unfold group Grouper.arrive
    rfl
  · unfold group Grouper.arrive
    rfl
  · unfold group Grouper.arrive
    rfl
  · exact hmoved.forall_pending hplaced.reaches

/-- A run of calls. -/
theorem run_inv (hordered : Ordered calls) {rest : List (Call K)} (hrest : calls.drop n = rest)
    (h : RunInv centerHz calls n g) : RunInv centerHz calls (n + rest.length) (run g rest) := by
  induction rest generalizing n g with
  | nil => exact h
  | cons c rest ih =>
    have hc : calls[n]? = some c := by
      rw [← List.head?_drop, hrest]
      rfl
    have hrest' : calls.drop (n + 1) = rest := by
      rw [← List.tail_drop, hrest]
      rfl
    have hstep := ih hrest' (call_inv hordered hc h)
    rw [List.length_cons, Nat.add_comm rest.length, ← Nat.add_assoc]
    exact hstep

end Steps

/-- What a burst says about the calls that its components were found in. -/
structure Bounded (centerHz : K) (calls : List (Call K)) (t : Track K) : Prop where
  /-- The components are those of their calls, and the burst goes from the first to the last. -/
  window : ∀ part ∈ t.parts, ∃ c, calls[part.call]? = some c ∧ PartOk centerHz c part.burst
  start : ∃ p, t.parts.head? = some p ∧ t.burst.elapsedStartSeconds = p.burst.elapsedStartSeconds
  stop : ∃ p, t.parts.getLast? = some p ∧ t.burst.elapsedEndSeconds = p.burst.elapsedEndSeconds
  /-- No break and no other grid is between two of the calls. -/
  unbroken : ∀ p ∈ t.parts, ∀ p' ∈ t.parts, Unbroken calls p.call p'.call
  /-- All components are on one side of the receiver-centre guard. -/
  side : ∃ s, ∀ p ∈ t.parts, ∀ c, calls[p.call]? = some c →
    OnSide centerHz c.tile.binWidthHz s t.burst ∧ OnSide centerHz c.tile.binWidthHz s p.burst
  pauses : t.parts.IsChain Follows
  extent : ∃ p c, t.parts.getLast? = some p ∧ calls[p.call]? = some c ∧
    t.burst.elapsedEndSeconds - t.burst.elapsedStartSeconds <
      10 + maxPause + (c.tile.elapsedEndSeconds - c.tile.elapsedStartSeconds)
  lower : IsLeast {x | ∃ p ∈ t.parts, x = p.burst.lowerHz} t.burst.lowerHz
  upper : IsGreatest {x | ∃ p ∈ t.parts, x = p.burst.upperHz} t.burst.upperHz
  active_pos : 0 < t.burst.activeSeconds
  active_le : t.burst.activeSeconds ≤ t.burst.elapsedEndSeconds - t.burst.elapsedStartSeconds

/-- A band within another one is on its side. -/
theorem Side.Holds.within {u l l' r r' : K} {s : Side} (h : s.Holds centerHz u l r) (hl : l ≤ l')
    (hr : r' ≤ r) : s.Holds centerHz u l' r' := by
  have hlow : l + u / 2 ≤ l' + u / 2 := by gcongr
  have hhigh : r' - u / 2 ≤ r - u / 2 := by gcongr
  cases s with
  | inside => exact ⟨h.1.trans hlow, hhigh.trans h.2⟩
  | below => exact hhigh.trans_lt h
  | above => exact h.trans_le hlow

theorem TrackOk.bounded (h : TrackOk centerHz calls t) : Bounded centerHz calls t := by
  obtain ⟨last, hlast, hstop, -, -⟩ := h.stop
  refine ⟨h.window, h.start, ⟨last, hlast, hstop⟩, h.unbroken, ?_, h.pauses, h.extent, h.lower,
    h.upper, h.active_pos, h.active_le⟩
  obtain ⟨first, hfirst, -⟩ := h.start
  have hmem := List.mem_of_head? hfirst
  obtain ⟨c₀, hc₀, -⟩ := h.window first hmem
  obtain ⟨s, hs⟩ := h.side first hmem c₀ hc₀
  refine ⟨s, fun p hp c hc => ?_⟩
  have hwidth : c.tile.binWidthHz = c₀.tile.binWidthHz := by
    rcases Nat.le_total first.call p.call with hle | hle
    · exact (h.unbroken first hmem p hp).width hle hc₀ hc
    · exact ((h.unbroken p hp first hmem).width hle hc hc₀).symm
  rw [hwidth]
  refine ⟨hs, hs.1.within (h.lower.2 ⟨p, hp, rfl⟩) (h.upper.2 ⟨p, hp, rfl⟩), ?_⟩
  rw [h.center p hp]
  exact hs.2

/-- A tile of sixteen bins and four frames. -/
def bridgedTile (start : ℚ) (activity : List ℕ) : Call ℚ :=
  { tile :=
      { id := 1, firstSample := 0, endSample := 16384, utcStartSeconds := 1, utcEndSeconds := 2
        elapsedStartSeconds := start, elapsedEndSeconds := start + 2 / 100, powerElapsedStart := start
        powerElapsedEnd := start + 2 / 100, firstCenterHz := 100000000, binWidthHz := 1000
        frameCount := 4, backgroundDbfs := -100, clippedSamples := 0, quality := 0
        meanDbfs := List.replicate 16 (-50), peakDbfs := List.replicate 16 (-40)
        activity }
    first := 0
    last := 16
    start := 0
    stop := -1 }

end BurstGrouper

end OVMesh
