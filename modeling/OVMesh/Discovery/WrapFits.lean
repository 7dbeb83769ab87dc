import OVMesh.Lib.Runs

/-!
# Wrap fits

`retain_wrap` and `fit_up_wrap` of `lora_discovery.cpp`: the distinct reset modes of an upchirp. The
coherent sums of the signal are a parameter.

* `retainWrap`: one fit is offered.
* `separated_run_iff`: when a sequence of fits leaves separated ones.
* `fitUpWrap`: the search over the resets of both branches, which offers its fits by their centres.
* `retainWindow`: the retained fits of a component, which gets those of one search after another.
* `retained_separated`: the retained fits, for any sequence and for that of the search.
-/

namespace OVMesh

namespace WrapFits

open Runs

/-- `WrapFit`: a fit of a reset upchirp, with the part of the power that it explains. -/
structure WrapFit (K : Type) where
  center : K
  delta : K
  fitMatch : K
  componentPower : K
  deriving DecidableEq

/-- `max_components`: the fits that are retained. -/
def maxComponents : ℕ := 8

variable {K : Type} [LinearOrder K]

/-- The fits are in descending order of their matches. -/
def Descending (fits : List (WrapFit K)) : Prop := fits.Pairwise fun a b => b.fitMatch ≤ a.fitMatch

/-- `std::sort` by descending match, whatever it does with equal ones. -/
structure MatchSort (K : Type) [LinearOrder K] where
  sort : List (WrapFit K) → List (WrapFit K)
  perm : ∀ fits, (sort fits).Perm fits
  sorted : ∀ fits, Descending (sort fits)

variable [Field K]

/-- `retain_wrap`: the retained fits, and whether one was lost. -/
def retainWrap (s : MatchSort K) (separation : K) (fits : List (WrapFit K)) (candidate : WrapFit K) :
    List (WrapFit K) × Bool :=
  match fits.findIdx? fun f => |f.center - candidate.center| < separation with
  | some i =>
    if ∃ f ∈ fits[i]?, f.fitMatch < candidate.fitMatch then
      (s.sort (fits.set i candidate), false)
    else (fits, false)
  | none =>
    let saturated := decide (fits.length = maxComponents)
    if saturated = true ∧ ∃ last ∈ fits.getLast?, candidate.fitMatch ≤ last.fitMatch then (fits, true)
    else (s.sort ((if saturated then fits.dropLast else fits) ++ [candidate]), saturated)

/-- The retained fits after one more. -/
def retain (s : MatchSort K) (separation : K) (fits : List (WrapFit K)) (candidate : WrapFit K) :
    List (WrapFit K) :=
  (retainWrap s separation fits candidate).1

/-- No two centres are closer than the separation. -/
def Separated (separation : K) (fits : List (WrapFit K)) : Prop :=
  fits.Pairwise fun a b => separation ≤ |a.center - b.center|

/-- The candidate replaces a fit and is close to another one. -/
def Intrudes (separation : K) (fits : List (WrapFit K)) (candidate : WrapFit K) : Prop :=
  ∃ i ∈ fits.findIdx? (fun f => |f.center - candidate.center| < separation),
    (∃ f ∈ fits[i]?, f.fitMatch < candidate.fitMatch) ∧
      ∃ f ∈ fits.eraseIdx i, |f.center - candidate.center| < separation

/-! ## One fit -/

section Retain

variable {s : MatchSort K} {separation : K} {fits : List (WrapFit K)} {candidate : WrapFit K}

/-- What one fit does: it is dropped, it replaces a close one, or it is new. -/
theorem retain_cases (s : MatchSort K) (separation : K) (fits : List (WrapFit K))
    (candidate : WrapFit K) :
    (retain s separation fits candidate = fits ∧ ¬ Intrudes separation fits candidate) ∨
    (∃ i f, fits[i]? = some f ∧ |f.center - candidate.center| < separation ∧
      f.fitMatch < candidate.fitMatch ∧
      retain s separation fits candidate = s.sort (fits.set i candidate) ∧
      (Intrudes separation fits candidate ↔
        ∃ f ∈ fits.eraseIdx i, |f.center - candidate.center| < separation)) ∨
    ((∀ f ∈ fits, separation ≤ |f.center - candidate.center|) ∧
      ¬ Intrudes separation fits candidate ∧
      ∃ kept, kept.Sublist fits ∧ (fits.length = maxComponents → kept.length + 1 = maxComponents) ∧
        retain s separation fits candidate = s.sort (kept ++ [candidate])) := by
  unfold retain retainWrap Intrudes
  -- The first close fit decides alone; without one the candidate goes in, for the weakest of a full
  -- list.
  cases hfind : fits.findIdx? fun f => |f.center - candidate.center| < separation with
  | some i =>
    obtain ⟨hi, hclose, -⟩ := List.findIdx?_eq_some_iff_getElem.mp hfind
    have hf : fits[i]? = some fits[i] := List.getElem?_eq_getElem hi
    dsimp only
    by_cases hbetter : ∃ f ∈ fits[i]?, f.fitMatch < candidate.fitMatch
    · rw [if_pos hbetter]
      refine Or.inr (Or.inl ⟨i, fits[i], hf, of_decide_eq_true hclose, ?_, rfl, ?_⟩)
      · obtain ⟨f, hmem, hlt⟩ := hbetter
        rw [hf] at hmem
        obtain rfl := Option.some.inj hmem
        exact hlt
      · constructor
        · rintro ⟨j, hj, -, h⟩
          obtain rfl := Option.some.inj hj
          exact h
        · exact fun h => ⟨i, rfl, hbetter, h⟩
    · rw [if_neg hbetter]
      refine Or.inl ⟨rfl, ?_⟩
      rintro ⟨j, hj, h, -⟩
      obtain rfl := Option.some.inj hj
      exact hbetter h
  | none =>
    have hfar : ∀ f ∈ fits, separation ≤ |f.center - candidate.center| := fun f hf => by
      simpa using List.findIdx?_eq_none_iff.mp hfind f hf
    have hnot : ¬ ∃ i ∈ (none : Option ℕ), (∃ f ∈ fits[i]?, f.fitMatch < candidate.fitMatch) ∧
        ∃ f ∈ fits.eraseIdx i, |f.center - candidate.center| < separation := by
      rintro ⟨i, hi, -⟩
      cases hi
    dsimp only
    split_ifs with hlost hfull
    · exact Or.inl ⟨rfl, hnot⟩
    · refine Or.inr (Or.inr ⟨hfar, hnot, fits.dropLast, fits.dropLast_sublist, fun hlength => ?_, rfl⟩)
      rw [List.length_dropLast, hlength]
      rfl
    · refine Or.inr (Or.inr ⟨hfar, hnot, fits, List.Sublist.refl _, fun hlength => ?_, rfl⟩)
      exact absurd (decide_eq_true hlength) hfull

theorem length_retain_le (h : fits.length ≤ maxComponents) :
    (retain s separation fits candidate).length ≤ maxComponents := by
  rcases retain_cases s separation fits candidate with
    ⟨hkeep, -⟩ | ⟨i, f, -, -, -, hset, -⟩ | ⟨-, -, kept, hsub, hfull, hnew⟩
  · rw [hkeep]
    exact h
  · rw [hset, (s.perm _).length_eq, List.length_set]
    exact h
  · rw [hnew, (s.perm _).length_eq, List.length_append, List.length_singleton]
    have := hsub.length_le
    omega

theorem descending_retain (h : Descending fits) :
    Descending (retain s separation fits candidate) := by
  rcases retain_cases s separation fits candidate with
    ⟨hkeep, -⟩ | ⟨i, f, -, -, -, hset, -⟩ | ⟨-, -, kept, -, -, hnew⟩
  · rw [hkeep]
    exact h
  · rw [hset]
    exact s.sorted _
  · rw [hnew]
    exact s.sorted _

/-- The distance of two centres is that of the other order. -/
theorem separated_perm {fits' : List (WrapFit K)} (h : fits.Perm fits') :
    Separated separation fits ↔ Separated separation fits' :=
  h.pairwise_iff fun hab => by rwa [abs_sub_comm]

/-- The candidate and fits that are separated. -/
theorem separated_append_singleton : Separated separation (fits ++ [candidate]) ↔
    Separated separation fits ∧ ∀ f ∈ fits, separation ≤ |f.center - candidate.center| := by
  rw [Separated, List.pairwise_append]
  simp [Separated]

omit [Field K] [LinearOrder K] in
/-- The other fits, and the one in the place. -/
theorem set_perm {i : ℕ} (hi : i < fits.length) (candidate : WrapFit K) :
    (fits.set i candidate).Perm (fits.eraseIdx i ++ [candidate]) := by
  rw [List.set_eq_take_append_cons_drop, if_pos hi, List.eraseIdx_eq_take_drop_succ]
  refine List.Perm.trans ?_ (List.perm_append_comm)
  exact List.perm_middle

/-- **One fit.** Separated fits stay so unless the candidate intrudes. -/
theorem separated_retain_iff (h : Separated separation fits) :
    Separated separation (retain s separation fits candidate) ↔
      ¬ Intrudes separation fits candidate := by
  rcases retain_cases s separation fits candidate with
    ⟨hkeep, hnot⟩ | ⟨i, f, hf, -, -, hset, hiff⟩ | ⟨hfar, hnot, kept, hsub, -, hnew⟩
  · rw [hkeep]
    exact iff_of_true h hnot
  · obtain ⟨hi, -⟩ := List.getElem?_eq_some_iff.mp hf
    have hrest : Separated separation (fits.eraseIdx i) := h.sublist (List.eraseIdx_sublist _ _)
    rw [hset, separated_perm (s.perm _), separated_perm (set_perm hi _), separated_append_singleton,
      hiff, and_iff_right hrest]
    push Not
    exact Iff.rfl
  · rw [hnew, separated_perm (s.perm _), separated_append_singleton]
    exact iff_of_true ⟨h.sublist hsub, fun f hf => hfar f (hsub.subset hf)⟩ hnot

/-- A fit of the retained ones was retained before, or is the candidate. -/
theorem mem_retain {f : WrapFit K} (h : f ∈ retain s separation fits candidate) :
    f ∈ fits ∨ f = candidate := by
  rcases retain_cases s separation fits candidate with
    ⟨hkeep, -⟩ | ⟨i, g, -, -, -, hset, -⟩ | ⟨-, -, kept, hsub, -, hnew⟩
  · rw [hkeep] at h
    exact Or.inl h
  · rw [hset, (s.perm _).mem_iff] at h
    exact List.mem_or_eq_of_mem_set h
  · rw [hnew, (s.perm _).mem_iff, List.mem_append, List.mem_singleton] at h
    exact h.imp_left (hsub.subset ·)

variable [IsStrictOrderedRing K]

/-- A candidate beyond all centres is close to at most one of them. -/
theorem not_intrudes_of_le (h : Separated separation fits)
    (hle : ∀ f ∈ fits, f.center ≤ candidate.center) : ¬ Intrudes separation fits candidate := by
  rintro ⟨i, hi, -, g, hg, hclose⟩
  obtain ⟨hlt, hfirst, -⟩ := List.findIdx?_eq_some_iff_getElem.mp hi
  have hperm : fits.Perm (fits.eraseIdx i ++ [fits[i]]) := by
    have := set_perm hlt fits[i]
    rwa [List.set_getElem_self] at this
  have hsep := (separated_append_singleton.mp ((separated_perm hperm).mp h)).2 g hg
  have hf := hle _ (List.getElem_mem hlt)
  have hg' := hle g (List.mem_of_mem_eraseIdx hg)
  have hfirst := abs_lt.mp (of_decide_eq_true hfirst)
  have hclose := abs_lt.mp hclose
  refine absurd hsep (not_le.mpr (abs_lt.mpr ⟨?_, ?_⟩))
  · linarith
  · linarith

end Retain

/-! ## Sequences of fits -/

section Run

variable (s : MatchSort K) (separation : K) (offers : List (WrapFit K))

theorem length_run_le : (run (retain s separation) [] offers).length ≤ maxComponents :=
  @invariant_run _ _ _ (fun fits : List (WrapFit K) => fits.length ≤ maxComponents) _
    (fun _ _ => length_retain_le) (Nat.zero_le _) offers

theorem descending_run : Descending (run (retain s separation) [] offers) :=
  @invariant_run _ _ _ Descending _ (fun _ _ => descending_retain) List.Pairwise.nil offers

/-- The fits are separated throughout a sequence if and only if no candidate intrudes. -/
theorem separated_run_iff {fits : List (WrapFit K)} (h : Separated separation fits) :
    (∀ before after, offers = before ++ after →
        Separated separation (run (retain s separation) fits before)) ↔
      Along (retain s separation) (fun fits c => ¬ Intrudes separation fits c) fits offers := by
  induction offers generalizing fits with
  | nil =>
    refine iff_of_true (fun before after hsplit => ?_) trivial
    obtain ⟨rfl, -⟩ := List.append_eq_nil_iff.mp hsplit.symm
    exact h
  | cons c offers ih =>
    rw [Along, ← separated_retain_iff (s := s) h]
    constructor
    · intro hall
      have hstep := hall [c] offers rfl
      exact ⟨hstep, (ih hstep).mp fun before after hsplit =>
        hall (c :: before) after (by rw [hsplit, List.cons_append])⟩
    · rintro ⟨hstep, hrest⟩ before after hsplit
      cases before with
      | nil => exact h
      | cons c' before =>
        obtain ⟨rfl, hrest'⟩ := List.cons.inj hsplit
        exact (ih hstep).mpr hrest before after hrest'

variable [IsStrictOrderedRing K] {separation offers}

/-- No candidate intrudes where the centres never decrease. -/
theorem along_of_sorted {fits : List (WrapFit K)} (h : Separated separation fits)
    (hle : ∀ f ∈ fits, ∀ c ∈ offers, f.center ≤ c.center)
    (hoffers : offers.Pairwise fun a b => a.center ≤ b.center) :
    Along (retain s separation) (fun fits c => ¬ Intrudes separation fits c) fits offers := by
  induction offers generalizing fits with
  | nil => trivial
  | cons c offers ih =>
    obtain ⟨hc, hoffers⟩ := List.pairwise_cons.mp hoffers
    have hnot := not_intrudes_of_le h fun f hf => hle f hf c (List.mem_cons_self ..)
    refine ⟨hnot, ih ((separated_retain_iff h).mpr hnot) (fun f hf c' hc' => ?_) hoffers⟩
    rcases mem_retain hf with hf | rfl
    · exact hle f hf c' (List.mem_cons_of_mem _ hc')
    · exact hc c' hc'

end Run

/-! ## The search -/

/-- The profile of a hypothesis: its bandwidth and the samples of a symbol. -/
structure WrapProfile where
  bw : ℕ
  n : ℕ
  n_pos : 0 < n

/-- The coherent sums around a reset that pass the power, amplitude and continuity tests. -/
structure ResetSums (K : Type) [LinearOrder K] [Zero K] where
  fitMatch : K
  componentPower : K
  fitMatch_nonneg : 0 ≤ fitMatch

/-- `rate` of `lora_discovery.cpp` -/
def subbandRate : ℕ := 2000000

/-- `WrapFit{}`: the fit of no component. -/
def emptyFit : WrapFit K := { center := 0, delta := 0, fitMatch := 0, componentPower := 0 }

variable (h : WrapProfile) (dominantHz : K) (measured : ℕ → ℕ → Option (ResetSums K))

/-- The centre of the reset `k` of a branch, in quarters of a sample. -/
def resetCenter (branch k : ℕ) : K :=
  let a : K := k / ((4 : ℕ) : K)
  dominantHz + branch * h.bw - h.bw + h.bw * a / h.n

/-- `at_reset`: the fit with a reset at place `k`, when its sums could be measured. -/
def atReset (branch k : ℕ) : WrapFit K :=
  match measured branch k with
  | none => emptyFit
  | some sums =>
    let a : K := k / ((4 : ℕ) : K)
    let centerOffset := resetCenter h dominantHz branch k
    let delta := (h.n : K) - a
    let delta := if delta > h.n / 2 then delta - h.n else delta
    if |centerOffset| + h.bw / 2 > ((750000 : ℕ) : K) ∨
        |dominantHz - centerOffset - h.bw * delta / h.n| > 2 * subbandRate / h.n then emptyFit
    else
      { center := centerOffset, delta, fitMatch := sums.fitMatch
        componentPower := sums.componentPower }

/-- The loop over the resets of a branch, from `previous` and `left_match` on: the fits it offers. -/
def offersFrom (leftMatch : K) (previous : WrapFit K) : List (WrapFit K) → List (WrapFit K)
  | [] => []
  | current :: rest =>
    let offers := offersFrom previous.fitMatch current rest
    if previous.fitMatch > leftMatch ∧ previous.fitMatch ≥ current.fitMatch then previous :: offers
    else offers

/-- The values of `current` in a branch: its resets in their order, and an empty fit behind the last. -/
def branchFits (branch : ℕ) : List (WrapFit K) :=
  let first := (4 * h.n + 4) / 5
  let last := 16 * h.n / 5
  ((List.range' first (last + 1 - first)).map (atReset h dominantHz measured branch)) ++ [emptyFit]

/-- The fits that the search offers, the lower branch first. -/
def offered : List (WrapFit K) :=
  (List.range 2).flatMap fun branch => offersFrom 0 emptyFit (branchFits h dominantHz measured branch)

/-- `fit_up_wrap`: the retained fits, and whether one was lost. -/
def fitUpWrap (s : MatchSort K) (energy : K) : List (WrapFit K) × Bool :=
  if energy < 1 / 10 ^ 20 then ([], false)
  else
    let separation : K := 1 / 2 * subbandRate / h.n
    (offered h dominantHz measured).foldl (fun r candidate =>
      let r' := retainWrap s separation r.1 candidate
      (r'.1, r.2 || r'.2)) ([], false)

/-- The loop of `evaluate` over the fits of a window: the retained fits of the component, and whether one
was lost. -/
def retainWindow (s : MatchSort K) (resetFits window : List (WrapFit K)) : List (WrapFit K) × Bool :=
  let separation : K := 1 / 2 * subbandRate / h.n
  window.foldl (fun r candidate =>
    let r' := retainWrap s separation r.1 candidate
    (r'.1, r.2 || r'.2)) (resetFits, false)

section Offers

variable {h dominantHz measured} {branch k : ℕ} {leftMatch : K} {previous f : WrapFit K}
  {fits : List (WrapFit K)}

omit [Field K] in
theorem offersFrom_sublist : (offersFrom leftMatch previous fits).Sublist (previous :: fits) := by
  induction fits generalizing leftMatch previous with
  | nil => exact List.nil_sublist _
  | cons current rest ih =>
    rw [offersFrom]
    split_ifs
    · exact ih.cons_cons previous
    · exact ih.cons previous

/-- What is offered has a match. -/
theorem offersFrom_pos (hleft : 0 ≤ leftMatch) (hfits : ∀ f ∈ previous :: fits, 0 ≤ f.fitMatch) :
    ∀ f ∈ offersFrom leftMatch previous fits, 0 < f.fitMatch := by
  induction fits generalizing leftMatch previous with
  | nil => exact fun f hf => by cases hf
  | cons current rest ih =>
    obtain ⟨hprevious, hrest⟩ := List.forall_mem_cons.mp hfits
    intro f hf
    rw [offersFrom] at hf
    split_ifs at hf with hpeak
    · rcases List.mem_cons.mp hf with rfl | hf
      · exact hleft.trans_lt hpeak.1
      · exact ih hprevious hrest f hf
    · exact ih hprevious hrest f hf

/-- A reset without support is the empty fit, one with support is centred where it says. -/
theorem atReset_cases (h : WrapProfile) (dominantHz : K) (measured : ℕ → ℕ → Option (ResetSums K))
    (branch k : ℕ) : atReset h dominantHz measured branch k = emptyFit ∨
    (atReset h dominantHz measured branch k).center = resetCenter h dominantHz branch k ∧
      0 ≤ (atReset h dominantHz measured branch k).fitMatch := by
  unfold atReset
  cases measured branch k with
  | none => exact Or.inl rfl
  | some sums =>
    dsimp only
    split_ifs
    · exact Or.inl rfl
    · exact Or.inr ⟨rfl, sums.fitMatch_nonneg⟩
    · exact Or.inl rfl
    · exact Or.inr ⟨rfl, sums.fitMatch_nonneg⟩

theorem atReset_center (hpos : 0 < (atReset h dominantHz measured branch k).fitMatch) :
    (atReset h dominantHz measured branch k).center = resetCenter h dominantHz branch k := by
  rcases atReset_cases h dominantHz measured branch k with hempty | ⟨hcenter, -⟩
  · rw [hempty] at hpos
    exact absurd hpos (lt_irrefl _)
  · exact hcenter

/-- The fits of a branch: those that have a match are centred at resets in ascending order. -/
theorem mem_branchFits {f : WrapFit K} (hf : f ∈ branchFits h dominantHz measured branch)
    (hpos : 0 < f.fitMatch) : ∃ k, k ≤ 16 * h.n / 5 ∧ f.center = resetCenter h dominantHz branch k := by
  rcases List.mem_append.mp hf with hf | hf
  · obtain ⟨k, hk, rfl⟩ := List.mem_map.mp hf
    rw [List.mem_range'_1] at hk
    exact ⟨k, by omega, atReset_center hpos⟩
  · obtain rfl := List.mem_singleton.mp hf
    exact absurd hpos (lt_irrefl _)

theorem branchFits_nonneg {f : WrapFit K} (hf : f ∈ branchFits h dominantHz measured branch) :
    0 ≤ f.fitMatch := by
  rcases List.mem_append.mp hf with hf | hf
  · obtain ⟨k, -, rfl⟩ := List.mem_map.mp hf
    rcases atReset_cases h dominantHz measured branch k with hempty | ⟨-, hnonneg⟩
    · rw [hempty]
      exact le_refl _
    · exact hnonneg
  · obtain rfl := List.mem_singleton.mp hf
    exact le_refl _

variable [IsStrictOrderedRing K]

theorem resetCenter_mono {k' : ℕ} (hk : k ≤ k') :
    resetCenter h dominantHz branch k ≤ resetCenter h dominantHz branch k' := by
  have hk' : (k : K) ≤ k' := Nat.cast_le.mpr hk
  unfold resetCenter
  dsimp only
  gcongr

/-- The lower branch ends before the upper one begins. -/
theorem resetCenter_branches {k k' : ℕ} (hk : k ≤ 16 * h.n / 5) :
    resetCenter h dominantHz 0 k ≤ resetCenter h dominantHz 1 k' := by
  have hn : (0 : K) < h.n := Nat.cast_pos.mpr h.n_pos
  have hk4 : (k : K) ≤ ((4 : ℕ) : K) * h.n := by
    rw [← Nat.cast_mul]
    exact Nat.cast_le.mpr (by omega)
  have hfour : (0 : K) < ((4 : ℕ) : K) := Nat.cast_pos.mpr (by decide)
  have hshare : (h.bw : K) * (k / ((4 : ℕ) : K)) / h.n ≤ h.bw := by
    rw [div_le_iff₀ hn, mul_comm (h.bw : K) h.n, mul_comm]
    refine mul_le_mul_of_nonneg_right ?_ (Nat.cast_nonneg _)
    rwa [div_le_iff₀ hfour, mul_comm]
  have hrest : 0 ≤ (h.bw : K) * (k' / ((4 : ℕ) : K)) / h.n := by positivity
  unfold resetCenter
  push_cast at hshare hrest ⊢
  linarith

/-- The centres of the fits that have a match never decrease. -/
theorem branchFits_sorted : (branchFits h dominantHz measured branch).Pairwise fun f g =>
    0 < f.fitMatch → 0 < g.fitMatch → f.center ≤ g.center := by
  refine List.pairwise_append.mpr ⟨?_, List.pairwise_singleton .., fun f _ g hg _ hpos => ?_⟩
  · refine List.pairwise_map.mpr ((List.pairwise_lt_range' 1 Nat.one_pos).imp fun hlt hf hg => ?_)
    rw [atReset_center hf, atReset_center hg]
    exact resetCenter_mono hlt.le
  · obtain rfl := List.mem_singleton.mp hg
    exact absurd hpos (lt_irrefl _)

omit [IsStrictOrderedRing K] in
theorem branchOffers_pos {f : WrapFit K}
    (hf : f ∈ offersFrom 0 emptyFit (branchFits h dominantHz measured branch)) : 0 < f.fitMatch :=
  offersFrom_pos (le_refl 0)
    (List.forall_mem_cons.mpr ⟨le_refl _, fun _ hf => branchFits_nonneg hf⟩) f hf

/-- The offers of a branch: fits with a match, by their centres. -/
theorem branchOffers_sorted :
    (offersFrom 0 emptyFit (branchFits h dominantHz measured branch)).Pairwise fun f g =>
      f.center ≤ g.center := by
  have hsorted : (emptyFit :: branchFits h dominantHz measured branch).Pairwise fun f g =>
      0 < f.fitMatch → 0 < g.fitMatch → f.center ≤ g.center :=
    List.pairwise_cons.mpr ⟨fun g _ hpos => absurd hpos (lt_irrefl _), branchFits_sorted⟩
  refine (hsorted.sublist offersFrom_sublist).imp_of_mem fun hf hg hle => ?_
  exact hle (branchOffers_pos hf) (branchOffers_pos hg)

omit [IsStrictOrderedRing K] in
theorem mem_branchOffers {f : WrapFit K}
    (hf : f ∈ offersFrom 0 emptyFit (branchFits h dominantHz measured branch)) :
    ∃ k, k ≤ 16 * h.n / 5 ∧ f.center = resetCenter h dominantHz branch k := by
  have hpos := branchOffers_pos hf
  rcases List.mem_cons.mp (offersFrom_sublist.subset hf) with rfl | hmem
  · exact absurd hpos (lt_irrefl _)
  · exact mem_branchFits hmem hpos

/-- **The search offers its fits by their centres.** -/
theorem offered_sorted : (offered h dominantHz measured).Pairwise fun f g => f.center ≤ g.center := by
  have hsplit : offered h dominantHz measured =
      offersFrom 0 emptyFit (branchFits h dominantHz measured 0) ++
        offersFrom 0 emptyFit (branchFits h dominantHz measured 1) := by
    simp [offered, List.range_succ]
  rw [hsplit]
  refine List.pairwise_append.mpr ⟨branchOffers_sorted, branchOffers_sorted, fun f hf g hg => ?_⟩
  obtain ⟨k, hk, hcenter⟩ := mem_branchOffers hf
  obtain ⟨k', -, hcenter'⟩ := mem_branchOffers hg
  rw [hcenter, hcenter']
  exact resetCenter_branches hk

omit [IsStrictOrderedRing K] in
/-- The fits of a loop with the flag are those without it. -/
theorem foldl_retainWrap (s : MatchSort K) (separation : K) (offers : List (WrapFit K))
    (r : List (WrapFit K) × Bool) :
    (offers.foldl (fun r candidate => ((retainWrap s separation r.1 candidate).1,
        r.2 || (retainWrap s separation r.1 candidate).2)) r).1 =
      run (retain s separation) r.1 offers := by
  induction offers generalizing r with
  | nil => rfl
  | cons c offers ih => exact ih _

omit [IsStrictOrderedRing K] in
/-- The fits that the search retains are those of its offers. -/
theorem fitUpWrap_eq (s : MatchSort K) {energy : K} (henergy : ¬ energy < 1 / 10 ^ 20) :
    (fitUpWrap h dominantHz measured s energy).1 =
      run (retain s (1 / 2 * subbandRate / h.n)) [] (offered h dominantHz measured) := by
  rw [fitUpWrap, if_neg henergy]
  exact foldl_retainWrap s _ _ ([], false)

omit [IsStrictOrderedRing K] in
/-- The fits of a component are those of all its windows in a row. -/
theorem run_retainWindow (s : MatchSort K) (fits : List (WrapFit K)) (windows : List (List (WrapFit K))) :
    run (fun fits window => (retainWindow h s fits window).1) fits windows =
      run (retain s (1 / 2 * subbandRate / h.n)) fits windows.flatten := by
  induction windows generalizing fits with
  | nil => rfl
  | cons window windows ih =>
    have hwindow : (retainWindow h s fits window).1 =
        run (retain s (1 / 2 * subbandRate / h.n)) fits window := foldl_retainWrap s _ _ (fits, false)
    rw [List.flatten_cons, run_append, run_cons, hwindow, ih]

end Offers

/-! ## Retained fits -/

/-- Descending insertion sort, as the library runs it on so few fits. -/
def MatchSort.insertion : MatchSort K where
  sort fits := fits.insertionSort fun a b => b.fitMatch ≤ a.fitMatch
  perm fits := List.perm_insertionSort _ fits
  sorted fits := by
    have : Std.Total fun a b : WrapFit K => b.fitMatch ≤ a.fitMatch := ⟨fun a b => le_total _ _⟩
    have : IsTrans (WrapFit K) fun a b => b.fitMatch ≤ a.fitMatch := ⟨fun a b c h h' => h'.trans h⟩
    exact List.pairwise_insertionSort _ fits

/-- **Retained fits.** Every sequence of fits leaves at most eight, by descending match. They are
separated throughout the sequence if and only if no candidate intrudes, which none does that comes in
the order of the centres, as the search offers them. The fits of a component are separated after its
windows if none intrudes along them. -/
theorem retained_separated [IsStrictOrderedRing K] (s : MatchSort K) :
    (∀ (separation : K) (offers : List (WrapFit K)),
      (run (retain s separation) [] offers).length ≤ maxComponents ∧
      Descending (run (retain s separation) [] offers) ∧
      ((∀ before after, offers = before ++ after →
          Separated separation (run (retain s separation) [] before)) ↔
        Along (retain s separation) (fun fits c => ¬ Intrudes separation fits c) [] offers) ∧
      ((offers.Pairwise fun f g => f.center ≤ g.center) →
        Separated separation (run (retain s separation) [] offers))) ∧
    (∀ (h : WrapProfile) (dominantHz : K) (measured : ℕ → ℕ → Option (ResetSums K)) (energy : K),
      Separated (1 / 2 * (subbandRate : K) / h.n) (fitUpWrap h dominantHz measured s energy).1) ∧
    ∀ (h : WrapProfile) (windows : List (List (WrapFit K))),
      Along (retain s (1 / 2 * (subbandRate : K) / h.n))
        (fun fits c => ¬ Intrudes (1 / 2 * (subbandRate : K) / h.n) fits c) [] windows.flatten →
      Separated (1 / 2 * (subbandRate : K) / h.n)
        (run (fun fits window => (retainWindow h s fits window).1) [] windows) := by
  have hsorted : ∀ (separation : K) (offers : List (WrapFit K)),
      (offers.Pairwise fun f g => f.center ≤ g.center) →
        Separated separation (run (retain s separation) [] offers) := fun separation offers h =>
    (separated_run_iff s separation offers List.Pairwise.nil).mpr
      (along_of_sorted s List.Pairwise.nil (fun f hf => by cases hf) h) offers []
      (List.append_nil offers).symm
  refine ⟨fun separation offers => ⟨length_run_le s separation offers,
    descending_run s separation offers, separated_run_iff s separation offers List.Pairwise.nil,
    hsorted separation offers⟩, fun h dominantHz measured energy => ?_, fun h windows hnot => ?_⟩
  · by_cases henergy : energy < 1 / 10 ^ 20
    · rw [fitUpWrap, if_pos henergy]
      exact List.Pairwise.nil
    · rw [fitUpWrap_eq s henergy]
      exact hsorted _ _ offered_sorted
  · rw [run_retainWindow]
    exact (separated_run_iff s _ windows.flatten List.Pairwise.nil).mpr hnot _ []
      (List.append_nil _).symm

/-- A fit of the given centre and match. -/
def fitAt (center fitMatch : ℚ) : WrapFit ℚ := { center, delta := 0, fitMatch, componentPower := 0 }

/-- 250 kHz and 128 chips to a symbol. -/
def wideProfile : WrapProfile := { bw := 250000, n := 1024, n_pos := by decide }

/-- A signal whose lower branch has these resets, with their matches in hundredths. -/
def measuredAt (resets : List (ℕ × ℕ)) (branch k : ℕ) : Option (ResetSums ℚ) :=
  if branch = 0 then (resets.lookup k).map fun hundredths : ℕ =>
    { fitMatch := (hundredths : ℚ) / 100, componentPower := 0
      fitMatch_nonneg := div_nonneg (Nat.cast_nonneg _) (by norm_num) }
  else none

/-- The fits of a window with a signal of these resets. -/
def windowOf (resets : List (ℕ × ℕ)) : List (WrapFit ℚ) :=
  (fitUpWrap wideProfile 0 (measuredAt resets) MatchSort.insertion 1).1

/-- The retained fits of a component after some windows. -/
def resetFitsOf (windows : List (List (WrapFit ℚ))) : List (WrapFit ℚ) :=
  run (fun fits window => (retainWindow wideProfile MatchSort.insertion fits window).1) [] windows

/-- The last fit replaces the first one, and is close to the second. A component gets such a sequence when
the reset of a later window lies between two of an earlier one. -/
theorem retained_intruder :
    (¬ ∀ offers : List (WrapFit ℚ), Separated 1 (run (retain MatchSort.insertion 1) [] offers)) ∧
    ¬ Separated (1 / 2 * (subbandRate : ℚ) / wideProfile.n)
      (resetFitsOf [windowOf [(2400, 30), (2424, 25)], windowOf [(2415, 40)]]) := by
  constructor
  · intro h
    have hrun : run (retain MatchSort.insertion 1) [] [fitAt 0 3, fitAt (3 / 2) 2, fitAt (9 / 10) 4] =
        [fitAt (9 / 10) 4, fitAt (3 / 2) 2] := by decide +kernel
    have hclose := h [fitAt 0 3, fitAt (3 / 2) 2, fitAt (9 / 10) 4]
    rw [hrun] at hclose
    have hclose := List.rel_of_pairwise_cons hclose (List.mem_singleton_self _)
    norm_num [fitAt, abs_le] at hclose
  · have hfirst : windowOf [(2400, 30), (2424, 25)] =
        [⟨-828125 / 8, 424, 3 / 10, 0⟩, ⟨-3265625 / 32, 418, 1 / 4, 0⟩] := by
      decide +kernel
    have hsecond : windowOf [(2415, 40)] = [⟨-26265625 / 256, 1681 / 4, 2 / 5, 0⟩] := by
      decide +kernel
    have hrun : resetFitsOf [[⟨-828125 / 8, 424, 3 / 10, 0⟩, ⟨-3265625 / 32, 418, 1 / 4, 0⟩],
        [⟨-26265625 / 256, 1681 / 4, 2 / 5, 0⟩]] =
        [⟨-26265625 / 256, 1681 / 4, 2 / 5, 0⟩, ⟨-3265625 / 32, 418, 1 / 4, 0⟩] := by
      decide +kernel
    rw [hfirst, hsecond, hrun]
    intro hclose
    have hclose := List.rel_of_pairwise_cons hclose (List.mem_singleton_self _)
    norm_num [wideProfile, subbandRate, abs_le] at hclose

theorem retained_separated_rat : Separated 1 (run (retain MatchSort.insertion 1) []
    [fitAt 0 3, fitAt 1 2, fitAt (3 / 2) 4]) :=
  ((retained_separated MatchSort.insertion).1 1 _).2.2.2 (by
    simp only [fitAt, List.pairwise_cons, List.mem_cons, List.not_mem_nil, or_false]
    norm_num)

end WrapFits

end OVMesh
