import OVMesh.Store.Analysis
import OVMesh.Store.Measure

/-!
# The grid of an acquisition

`openGrid` of the analysis selects the bins whose extent meets the query, and marks those inside the
receiver-centre guard. When all acquisitions share one grid, the bins of the result are the selected
bins in their order, whichever acquisition opened them.

* `mem_firstBin_lastBin`: the two index loops.
* `GridOk`: what an open grid says. `openGrid_ok`: a new grid satisfies it.
* `BinsOf`: the bins of the result.
-/

namespace OVMesh

namespace Analysis

open Checked

variable {K : Type} [Field K] [LinearOrder K]

/-! ## The selected bins -/

section Selected

variable [IsStrictOrderedRing K] {g : Shape K} {lower upper : K} {b i : ℕ}

theorem half_mono (hw : 0 < g.width) (h : i ≤ b) (x : K) :
    g.firstHz + (i + x) * g.width ≤ g.firstHz + (b + x) * g.width := by
  have hcast : (i : K) + x ≤ b + x := add_le_add_left (Nat.cast_le.mpr h) x
  linarith [mul_le_mul_of_nonneg_right hcast hw.le]

/-- The loops of `openGrid` select the bins whose extent meets the interval. -/
theorem mem_firstBin_lastBin (hw : 0 < g.width) :
    let first := firstBin g.firstHz g.width lower g.count
    (first ≤ b ∧ b < lastBin g.firstHz g.width upper g.count first) ↔ g.Meets lower upper b := by
  intro first
  obtain ⟨-, hcount, hseen, hstop⟩ := Fold.advance_spec
    (fun b : ℕ => g.firstHz + (b + 1 / 2) * g.width ≤ lower) (Nat.zero_le g.count)
  obtain ⟨hge, hlast, hmeets, hend⟩ := Fold.advance_spec
    (fun b : ℕ => g.firstHz + (b - 1 / 2) * g.width < upper) hcount
  constructor
  · rintro ⟨hfirst, hb⟩
    have hlt : first < g.count := by
      have : b < g.count := lt_of_lt_of_le hb hlast
      omega
    refine ⟨lt_of_lt_of_le hb hlast, ?_, hmeets b hfirst hb⟩
    exact (not_le.mp (hstop hlt)).trans_le (half_mono hw hfirst _)
  · rintro ⟨hb, hlower, hupper⟩
    refine ⟨?_, ?_⟩
    · by_contra hlt
      exact absurd (hseen b (Nat.zero_le b) (not_le.mp hlt)) (not_le.mpr hlower)
    · by_contra hle
      have hle := not_lt.mp hle
      refine hend (lt_of_le_of_lt hle hb) (lt_of_le_of_lt ?_ hupper)
      have := half_mono hw hle (-(1 / 2) : K)
      rwa [← sub_eq_add_neg, ← sub_eq_add_neg] at this

omit [IsStrictOrderedRing K] in
theorem firstBin_le_lastBin :
    let first := firstBin g.firstHz g.width lower g.count
    first ≤ lastBin g.firstHz g.width upper g.count first ∧
      lastBin g.firstHz g.width upper g.count first ≤ g.count := by
  have hcount := (Fold.advance_spec
    (fun b : ℕ => g.firstHz + (b + 1 / 2) * g.width ≤ lower) (Nat.zero_le g.count)).2.1
  have hlast := Fold.advance_spec (fun b : ℕ => g.firstHz + (b - 1 / 2) * g.width < upper) hcount
  exact ⟨hlast.1, hlast.2.1⟩

/-- The loops go over the selected bins in their order. -/
theorem selected_eq (hw : 0 < g.width) :
    let first := firstBin g.firstHz g.width lower g.count
    g.selected lower upper =
      List.range' first (lastBin g.firstHz g.width upper g.count first - first) := by
  intro first
  have hle : first ≤ lastBin g.firstHz g.width upper g.count first :=
    firstBin_le_lastBin.1
  refine List.Perm.eq_of_pairwise (fun (a b : ℕ) _ _ (hab : a ≤ b) => Nat.le_antisymm hab) ?_ ?_ ?_
  · exact (List.pairwise_lt_range.imp Nat.le_of_lt).filter _
  · exact (List.pairwise_lt_range' 1).imp Nat.le_of_lt
  · refine (List.perm_ext_iff_of_nodup (List.nodup_range.filter _) List.nodup_range').mpr fun b => ?_
    rw [List.mem_filter, List.mem_range, decide_eq_true_eq, List.mem_range'_1,
      Nat.add_sub_cancel' hle]
    exact (and_iff_right_of_imp (·.1)).trans (mem_firstBin_lastBin hw).symm

end Selected

/-! ## Open grids -/

/-- The grid that an acquisition with configuration `c` opens on the shape `g`. -/
structure GridOk (g : Shape K) (c : ReceiverConfig K) (lower upper : K) (gr : Grid K) : Prop where
  count : gr.count = g.count
  firstHz : gr.firstHz = g.firstHz
  width : gr.width = g.width
  first : gr.first = firstBin g.firstHz g.width lower g.count
  last : gr.last = lastBin g.firstHz g.width upper g.count gr.first
  masks : AreBytes gr.centerMasks
  centers : ∀ b, gr.first ≤ b → b < gr.last →
    (Bitmap.bit gr.centerMasks b = true ↔ Guarded (g.center b) g.width c.centerHz)
  indexes : ∀ b, gr.first ≤ b → b < gr.last → gr.indexes.getD b 0 = b - gr.first

/-- The selected bins of an open grid. -/
theorem GridOk.selected [IsStrictOrderedRing K] {g : Shape K} {c : ReceiverConfig K} {lower upper : K}
    {gr : Grid K} (h : GridOk g c lower upper gr) (hw : 0 < g.width) :
    g.selected lower upper = List.range' gr.first (gr.last - gr.first) := by
  rw [h.last, h.first]
  exact selected_eq hw

/-- The bins of the result, in the order of their frequencies. -/
def BinsOf (g : Shape K) (first last : ℕ) (e : ℕ → BinSum K) (bins : List (BinSum K)) : Prop :=
  bins = Fold.table first (last - first) e ∧ ∀ b, (e b).centerHz = g.center b ∧
    (e b).widthHz = g.width

/-- The sums that no bin is part of. -/
def Sums.seconds (s : Sums K) : Region → K
  | .all => s.busySeconds
  | .center => s.centerBusySeconds
  | .outside => s.outsideCenterBusySeconds

/-- Opening a grid changes neither of the sums. -/
structure SameSums (s s' : Sums K) : Prop where
  observed : s'.observedSeconds = s.observedSeconds
  seconds : ∀ r, s'.seconds r = s.seconds r

omit [Field K] [LinearOrder K] in
theorem SameSums.refl (s : Sums K) : SameSums s s := ⟨rfl, fun _ => rfl⟩

omit [Field K] [LinearOrder K] in
theorem SameSums.trans {a b c : Sums K} (h₁ : SameSums a b) (h₂ : SameSums b c) : SameSums a c :=
  ⟨h₂.observed.trans h₁.observed, fun r => (h₂.seconds r).trans (h₁.seconds r)⟩

section Open

variable {g : Shape K} {c : ReceiverConfig K} {lower upper : K} {s : Sums K} {first last b i : ℕ}
  {e : ℕ → BinSum K} {center width : K} {rest : List (BinSum K)}

theorem emplaceBin_known {i : ℕ}
    (h : (s.bins.findIdx? fun x => x.centerHz = center ∧ x.widthHz = width) = some i) :
    emplaceBin center width s = .ok (i, s) := by
  rw [emplaceBin, h]

/-- A bin that was not met before is the last one. -/
theorem emplaceBin_new (width : K) (hnew : ∀ x ∈ s.bins, x.centerHz ≠ center) (hlen : s.bins.length < 65536) :
    ∃ s', emplaceBin center width s = .ok (s.bins.length, s') ∧ SameSums s s' ∧
      s'.bins = s.bins ++ [{ centerHz := center, widthHz := width, observedSeconds := 0,
                             activeSeconds := 0, power := 0, peak := 0 }] := by
  have hfind : (s.bins.findIdx? fun x => x.centerHz = center ∧ x.widthHz = width) = none := by
    rw [List.findIdx?_eq_none_iff]
    exact fun x hx => decide_eq_false fun h => hnew x hx h.1
  simp only [emplaceBin, hfind, bind_eq_ok, reject_eq_ok]
  by_cases hone : s.bins = []
  · simp only [hone, List.nil_append, List.length_singleton, ↓reduceIte, pure_eq_ok, Prod.mk.injEq]
    exact ⟨_, ⟨(), by simp, rfl, rfl⟩, ⟨rfl, fun r => by cases r <;> rfl⟩, rfl⟩
  · have hpos := List.length_pos_iff.mpr hone
    simp only [List.length_append, List.length_singleton, Nat.add_eq_right, hpos.ne', ↓reduceIte,
      pure_eq_ok, Prod.mk.injEq, Nat.add_sub_cancel]
    exact ⟨_, ⟨(), by omega, trivial, rfl⟩, ⟨rfl, fun r => by cases r <;> rfl⟩, rfl⟩

variable [IsStrictOrderedRing K]

theorem center_injective (hw : 0 < g.width) : Function.Injective g.center := fun _ _ h =>
  Nat.cast_injective (R := K) (mul_right_cancel₀ hw.ne' (add_left_cancel h))

/-- A bin of a full table is found at its place. -/
theorem findIdx_table (hw : 0 < g.width) (hfirst : first ≤ b) (hlast : b < last)
    (h : BinsOf g first last e s.bins) :
    (s.bins.findIdx? fun x => x.centerHz = g.center b ∧ x.widthHz = g.width) = some (b - first) := by
  obtain ⟨hbins, he⟩ := h
  have hlen : b - first < s.bins.length := by
    rw [hbins, Fold.length_table]
    omega
  rw [List.findIdx?_eq_some_iff_getElem]
  refine ⟨hlen, ?_, fun j hj => ?_⟩
  · simp only [hbins, Fold.table, List.getElem_map, List.getElem_range', one_mul,
      Nat.add_sub_cancel' hfirst]
    exact decide_eq_true (he b)
  · simp only [hbins, Fold.table, List.getElem_map, List.getElem_range', one_mul]
    intro hfound
    have := center_injective hw ((he _).1.symm.trans (of_decide_eq_true hfound).1)
    omega

/-- A bin before any tile. -/
def zeroBin (g : Shape K) (b : ℕ) : BinSum K :=
  { centerHz := g.center b, widthHz := g.width, observedSeconds := 0, activeSeconds := 0,
    power := 0, peak := 0 }

/-- The bins after some of the selected bins were opened: new ones, or those that were there. -/
def Opened (g : Shape K) (first last : ℕ) (old : List (BinSum K)) (n : ℕ)
    (bins : List (BinSum K)) : Prop :=
  old = [] ∧ bins = Fold.table first n (zeroBin g) ∨
    (∃ e, BinsOf g first last e old) ∧ bins = old

/-- The place of the next bin. -/
theorem emplaceBin_opened (hw : 0 < g.width) {n : ℕ} {old : List (BinSum K)}
    (hn : n < last - first) (hlast : last ≤ 65536) (h : Opened g first last old n s.bins) :
    ∃ s', emplaceBin (g.center (first + n)) g.width s = .ok (n, s') ∧ SameSums s s' ∧
      Opened g first last old (n + 1) s'.bins := by
  rcases h with ⟨hold, hbins⟩ | ⟨⟨e, he⟩, hbins⟩
  · have hlen : s.bins.length = n := by rw [hbins, Fold.length_table]
    have hnew : ∀ x ∈ s.bins, x.centerHz ≠ g.center (first + n) := fun x hx heq => by
      rw [hbins, Fold.table] at hx
      obtain ⟨i, hi, rfl⟩ := List.mem_map.mp hx
      have := center_injective hw heq
      rw [List.mem_range'_1] at hi
      omega
    obtain ⟨s', hs', hsame, hbins'⟩ := emplaceBin_new g.width hnew (by omega)
    refine ⟨s', hlen ▸ hs', hsame, Or.inl ⟨hold, ?_⟩⟩
    rw [hbins', hbins, Fold.table, Fold.table, List.range'_1_concat, List.map_append]
    rfl
  · have hknown := findIdx_table (b := first + n) hw (by omega) (by omega) (hbins ▸ he)
    rw [Nat.add_sub_cancel_left] at hknown
    exact ⟨s, emplaceBin_known hknown, .refl s, Or.inr ⟨⟨e, he⟩, hbins⟩⟩

/-- What the loop of `openGrid` has built after the bins `seen`. -/
structure Opening (g : Shape K) (c : ReceiverConfig K) (first last : ℕ) (s₀ : Sums K)
    (seen : List ℕ) (gs : Grid K × Sums K) : Prop where
  count : gs.1.count = g.count
  firstHz : gs.1.firstHz = g.firstHz
  width : gs.1.width = g.width
  first_eq : gs.1.first = first
  last_eq : gs.1.last = last
  masks : AreBytes gs.1.centerMasks
  masks_length : gs.1.centerMasks.length = (g.count + 7) / 8
  centers : ∀ b, Bitmap.bit gs.1.centerMasks b = true ↔
    b ∈ seen ∧ Guarded (g.center b) g.width c.centerHz
  indexes_length : gs.1.indexes.length = g.count
  indexes : ∀ b ∈ seen, gs.1.indexes.getD b 0 = b - first
  same : SameSums s₀ gs.2
  bins : Opened g first last s₀.bins seen.length gs.2.bins

/-- One round of the loop of `openGrid`. -/
theorem openBin_ok (hw : 0 < g.width) (hcount : last ≤ g.count) (hbound : g.count ≤ 4096)
    {s₀ : Sums K} {seen rest : List ℕ} {gs : Grid K × Sums K}
    (hseen : seen ++ b :: rest = List.range' first (last - first))
    (h : Opening g c first last s₀ seen gs) :
    ∃ gs', openBin c gs b = .ok gs' ∧ Opening g c first last s₀ (seen ++ [b]) gs' := by
  obtain ⟨gr, s⟩ := gs
  obtain ⟨n, hn, rfl, hrest⟩ := List.range'_eq_append_iff.mp hseen.symm
  have hpos : 0 < last - first - n := by
    by_contra hzero
    rw [Nat.eq_zero_of_not_pos hzero] at hrest
    cases hrest
  -- The bins are opened in their order, so this is the next one.
  obtain ⟨rfl, -⟩ : b = first + n ∧ _ := by
    rw [← Nat.succ_pred_eq_of_pos hpos, List.range'_succ] at hrest
    rw [Nat.mul_one] at hrest
    exact ⟨(List.cons.inj hrest).1, (List.cons.inj hrest).2⟩
  have hopened := h.bins
  rw [List.length_range'] at hopened
  obtain ⟨s', hs', hsame, hbins⟩ := emplaceBin_opened hw (n := n) (by omega) (by omega) hopened
  have hb : first + n < g.count := by omega
  have hindexes : ∀ b ∈ List.range' first n ++ [first + n],
      (gr.indexes.set (first + n) n).getD b 0 = b - first := fun b hmem => by
    rw [List.getD_eq_getElem?_getD, List.getElem?_set]
    rcases List.mem_append.mp hmem with hmem | hmem
    · rw [if_neg (by rw [List.mem_range'_1] at hmem; omega), ← List.getD_eq_getElem?_getD]
      exact h.indexes b hmem
    · rw [List.mem_singleton.mp hmem, if_pos rfl, if_pos (h.indexes_length ▸ hb),
        Option.getD_some, Nat.add_sub_cancel_left]
  have hcenter : gr.firstHz + (first + n : ℕ) * gr.width = g.center (first + n) := by
    rw [h.firstHz, h.width, Shape.center]
  have hlen : (List.range' first n ++ [first + n]).length = n + 1 := by simp
  unfold openBin
  simp only [bind_eq_ok]
  rw [hcenter, h.width]
  -- A bin inside the centre guard is marked, and counted with the centre.
  by_cases hguard : Guarded (g.center (first + n)) g.width c.centerHz
  · refine ⟨_, ⟨_, hs', by rw [if_pos hguard]; rfl⟩, ?_⟩
    refine ⟨h.count, h.firstHz, rfl, h.first_eq, h.last_eq, h.masks.setBit, ?_, fun b => ?_, ?_,
      hindexes, ?_, ?_⟩
    · rw [Bitmap.length_setBit, h.masks_length]
    · rw [Bitmap.bit_setBit (by rw [h.masks_length]; omega), Bool.or_eq_true, h.centers,
        decide_eq_true_eq, List.mem_append, List.mem_singleton]
      constructor
      · rintro (rfl | ⟨hmem, hb⟩)
        · exact ⟨Or.inr rfl, hguard⟩
        · exact ⟨Or.inl hmem, hb⟩
      · rintro ⟨hmem | rfl, hb⟩
        · exact Or.inr ⟨hmem, hb⟩
        · exact Or.inl rfl
    · rw [List.length_set, h.indexes_length]
    · refine h.same.trans (hsame.trans ⟨?_, fun r => ?_⟩)
      · dsimp only
        split <;> rfl
      · cases r <;> dsimp only [Sums.seconds] <;> split <;> rfl
    · rw [hlen]
      dsimp only
      split <;> exact hbins
  · refine ⟨_, ⟨_, hs', by rw [if_neg hguard]; rfl⟩, ?_⟩
    refine ⟨h.count, h.firstHz, rfl, h.first_eq, h.last_eq, h.masks, h.masks_length, fun b => ?_, ?_,
      hindexes, h.same.trans (hsame.trans ⟨rfl, fun r => by cases r <;> rfl⟩), hlen ▸ hbins⟩
    · rw [h.centers, List.mem_append, List.mem_singleton]
      refine and_congr_left fun hb => ⟨Or.inl, fun hmem => hmem.resolve_right ?_⟩
      rintro rfl
      exact hguard hb
    · rw [List.length_set, h.indexes_length]

/-- **Opening a grid.** It returns, selects the bins that meet the query, and adds no measure. -/
theorem openGrid_ok (hw : 0 < g.width) (hbound : g.count ≤ 4096) {t : SpectrumTile K}
    (ht : t.shape = g) :
    let first := firstBin g.firstHz g.width lower g.count
    let last := lastBin g.firstHz g.width upper g.count first
    (s.bins = [] ∨ ∃ e, BinsOf g first last e s.bins) →
      ∃ gr s', openGrid c lower upper t s = .ok (gr, s') ∧ GridOk g c lower upper gr ∧
        SameSums s s' ∧ Opened g first last s.bins (last - first) s'.bins := by
  intro first last hbins
  subst ht
  have hrange : first ≤ last ∧ last ≤ t.shape.count := firstBin_le_lastBin
  obtain ⟨hle, hlast⟩ := hrange
  have hinit : Opening t.shape c first last s []
      ({ count := t.meanDbfs.length
         firstHz := t.firstCenterHz
         width := t.binWidthHz
         first
         last
         centerMasks := List.replicate ((t.meanDbfs.length + 7) / 8) 0
         indexes := List.replicate t.meanDbfs.length 0
         outsideAvailable := false }, s) := by
    refine ⟨rfl, rfl, rfl, rfl, rfl, areBytes_replicate_zero, List.length_replicate, fun b => ?_,
      List.length_replicate, fun b hb => absurd hb List.not_mem_nil, .refl s, ?_⟩
    · simp [Bitmap.bit_replicate_zero]
    · exact hbins.imp (⟨·, by assumption⟩) (⟨·, rfl⟩)
  obtain ⟨gs, hgs, h⟩ := foldlM_ok (f := openBin c) (l := List.range' first (last - first))
    (fun seen b rest gs hseen hP => openBin_ok hw hlast hbound hseen hP) hinit
  have hopened := h.bins
  rw [List.length_range'] at hopened
  refine ⟨gs.1, gs.2, hgs, ?_, h.same, hopened⟩
  have hmem : ∀ b, gs.1.first ≤ b → b < gs.1.last → b ∈ List.range' first (last - first) :=
    fun b hb hb' => by
      rw [h.first_eq] at hb
      rw [h.last_eq] at hb'
      have hlt : b < last := hb'
      exact List.mem_range'_1.mpr ⟨hb, by omega⟩
  refine ⟨h.count, h.firstHz, h.width, h.first_eq, ?_, h.masks, fun b hb hb' => ?_,
    fun b hb hb' => ?_⟩
  · rw [h.last_eq, h.first_eq]
  · rw [h.centers, and_iff_right (hmem b hb hb')]
  · rw [h.indexes b (hmem b hb hb'), h.first_eq]

end Open

end Analysis

end OVMesh
