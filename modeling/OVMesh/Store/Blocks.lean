import OVMesh.Store.Methods
import OVMesh.Store.Valid

/-!
# Power blocks as lists of tiles

The aggregate that `append(SpectrumTile)` keeps in memory, as a function of the tiles of the block.

* `Follows`: a tile continues the one before it.
* `blockOf`: the aggregate of a list of tiles.
* `Aggregates`, `aggregates_blockOf`: its range, its frames, its power sums and its maxima.
-/

namespace OVMesh

open SpectrumProcessor (Libm)

variable {K : Type} [Field K] [LinearOrder K] {m : Libm K}

/-- A tile continues the one before it inside a power block. -/
structure Follows (t u : SpectrumTile K) : Prop where
  sample : t.endSample = u.firstSample
  elapsed : |t.elapsedEndSeconds - u.elapsedStartSeconds| ≤ 1 / 10 ^ 8
  center : t.firstCenterHz = u.firstCenterHz
  width : t.binWidthHz = u.binWidthHz
  bins : t.meanDbfs.length = u.meanDbfs.length

instance (t u : SpectrumTile K) : Decidable (Follows t u) :=
  decidable_of_iff (t.endSample = u.firstSample ∧
      |t.elapsedEndSeconds - u.elapsedStartSeconds| ≤ 1 / 10 ^ 8 ∧
      t.firstCenterHz = u.firstCenterHz ∧ t.binWidthHz = u.binWidthHz ∧
      t.meanDbfs.length = u.meanDbfs.length)
    ⟨fun ⟨h₁, h₂, h₃, h₄, h₅⟩ => ⟨h₁, h₂, h₃, h₄, h₅⟩, fun h => ⟨h.1, h.2, h.3, h.4, h.5⟩⟩

/-- A power block of some tiles takes a further tile: it continues the last one, and the block stays
within a second. -/
def Takes (block : List (SpectrumTile K)) (t : SpectrumTile K) : Prop :=
  ∃ first ∈ block.head?, ∃ last ∈ block.getLast?, Follows last t ∧
    t.elapsedEndSeconds - first.elapsedStartSeconds ≤ 1 + 1 / 10 ^ 8

instance (block : List (SpectrumTile K)) (t : SpectrumTile K) : Decidable (Takes block t) :=
  inferInstanceAs (Decidable (∃ _ ∈ _, _))

/-- The power blocks with one more tile. -/
def growBlocks (blocks : List (List (SpectrumTile K))) (t : SpectrumTile K) :
    List (List (SpectrumTile K)) :=
  match blocks.getLast? with
  | some last => if Takes last t then blocks.dropLast ++ [last ++ [t]] else blocks ++ [[t]]
  | none => [[t]]

/-- The power blocks of tiles that are recorded without a gap or a new acquisition. -/
def powerBlocks (tiles : List (SpectrumTile K)) : List (List (SpectrumTile K)) :=
  tiles.foldl growBlocks []

/-- The aggregate of the tiles of a block. -/
def blockOf (m : Libm K) (id : ℕ) : List (SpectrumTile K) → PowerBlock K
  | [] => PowerBlock.empty id
  | t :: ts => ts.foldl (PowerBlock.add m) ((PowerBlock.start id t).add m t)

@[simp] theorem blockOf_singleton (id : ℕ) (t : SpectrumTile K) :
    blockOf m id [t] = (PowerBlock.start id t).add m t := rfl

theorem blockOf_append {id : ℕ} {ts : List (SpectrumTile K)} (h : ts ≠ []) (u : SpectrumTile K) :
    blockOf m id (ts ++ [u]) = (blockOf m id ts).add m u := by
  cases ts with
  | nil => exact absurd rfl h
  | cons t ts => exact List.foldl_concat _ _ _ _

@[simp] theorem blockOf_id (id : ℕ) (ts : List (SpectrumTile K)) : (blockOf m id ts).id = id := by
  induction ts using List.reverseRecOn with
  | nil => rfl
  | append_singleton ts u ih =>
    by_cases h : ts = []
    · subst h
      rfl
    · rw [blockOf_append h]
      exact ih

theorem endSample_blockOf {id : ℕ} {ts : List (SpectrumTile K)} {t : SpectrumTile K}
    (h : t ∈ ts.getLast?) : (blockOf m id ts).endSample = t.endSample := by
  induction ts using List.reverseRecOn with
  | nil => cases h
  | append_singleton ts u ih =>
    rw [List.getLast?_concat] at h
    cases h
    by_cases hts : ts = []
    · subst hts
      rfl
    · rw [blockOf_append hts]
      rfl

/-- The identifier is the only part of an aggregate that is not of its tiles. -/
theorem blockOf_eq (id id' : ℕ) (ts : List (SpectrumTile K)) :
    blockOf m id ts = { blockOf m id' ts with id } := by
  induction ts using List.reverseRecOn with
  | nil => rfl
  | append_singleton ts u ih =>
    by_cases h : ts = []
    · subst h
      rfl
    · rw [blockOf_append h, blockOf_append h, ih]
      rfl

/-- What the aggregate of the tiles of a block is. -/
structure Aggregates (m : Libm K) (block : List (SpectrumTile K)) (b : PowerBlock K) : Prop where
  frames : b.frames = (block.map (·.frameCount)).sum
  first : ∀ t ∈ block.head?, b.firstSample = t.firstSample ∧ b.utcStart = t.utcStartSeconds ∧
    b.elapsedStart = t.elapsedStartSeconds
  last : ∀ t ∈ block.getLast?, b.endSample = t.endSample ∧ b.utcEnd = t.utcEndSeconds ∧
    b.elapsedEnd = t.elapsedEndSeconds
  grid : ∀ t ∈ block, b.firstCenter = t.firstCenterHz ∧ b.binWidth = t.binWidthHz ∧
    b.powerSum.length = t.meanDbfs.length ∧ b.peak.length = t.meanDbfs.length
  power : ∀ i < b.powerSum.length, b.powerSum.getD i 0 =
    (block.map fun t => m.pow10 (t.meanDbfs.getD i 0 / 10) * t.frameCount).sum
  peak : ∀ i < b.peak.length,
    IsGreatest {x | ∃ t ∈ block, t.peakDbfs.getD i 0 = x} (b.peak.getD i 0)

private theorem getD_zipWith {α β γ : Type} {f : α → β → γ} {xs : List α} {ys : List β} {i : ℕ}
    (hx : i < xs.length) (hy : i < ys.length) (x : α) (y : β) (z : γ) :
    (List.zipWith f xs ys).getD i z = f (xs.getD i x) (ys.getD i y) := by
  have hz : i < (List.zipWith f xs ys).length := by
    rw [List.length_zipWith]
    exact lt_min hx hy
  rw [List.getD_eq_getElem _ _ hz, List.getD_eq_getElem _ _ hx, List.getD_eq_getElem _ _ hy,
    List.getElem_zipWith]

/-- A tile whose levels have the dimensions and the range that the writer has checked. -/
structure Leveled (t : SpectrumTile K) : Prop where
  peaks : t.peakDbfs.length = t.meanDbfs.length
  floor : ∀ i < t.meanDbfs.length, -300 ≤ t.peakDbfs.getD i 0

theorem aggregates_singleton {id : ℕ} {t : SpectrumTile K} (ht : Leveled t) :
    Aggregates m [t] (blockOf m id [t]) := by
  have hpower : (blockOf m id [t]).powerSum.length = t.meanDbfs.length := by
    simp [PowerBlock.add, PowerBlock.start]
  have hpeak : (blockOf m id [t]).peak.length = t.meanDbfs.length := by
    simp [PowerBlock.add, PowerBlock.start, ht.peaks]
  refine ⟨by simp [PowerBlock.add, PowerBlock.start, PowerBlock.empty], ?_, ?_, ?_, ?_, ?_⟩
  · rintro _ ⟨⟩
    exact ⟨rfl, rfl, rfl⟩
  · rintro _ ⟨⟩
    exact ⟨rfl, rfl, rfl⟩
  · intro u hu
    obtain rfl := List.mem_singleton.mp hu
    exact ⟨rfl, rfl, hpower, hpeak⟩
  · intro i hi
    rw [hpower] at hi
    rw [blockOf_singleton, PowerBlock.add, PowerBlock.start]
    rw [getD_zipWith (by rwa [List.length_replicate]) hi 0 0, List.getD_replicate 0 hi]
    simp
  · intro i hi
    rw [hpeak] at hi
    rw [blockOf_singleton, PowerBlock.add, PowerBlock.start]
    rw [getD_zipWith (by rwa [List.length_replicate]) (by rwa [ht.peaks]) (-300) 0,
      List.getD_replicate (-300) hi, max_eq_right (ht.floor i hi)]
    constructor
    · exact ⟨t, List.mem_singleton.mpr rfl, rfl⟩
    · rintro x ⟨u, hu, rfl⟩
      rw [List.mem_singleton.mp hu]

theorem aggregates_add {block : List (SpectrumTile K)} {b : PowerBlock K} {u : SpectrumTile K}
    (hne : block ≠ []) (h : Aggregates m block b) (hu : Leveled u)
    (hgrid : b.firstCenter = u.firstCenterHz ∧ b.binWidth = u.binWidthHz ∧
      b.powerSum.length = u.meanDbfs.length ∧ b.peak.length = u.meanDbfs.length) :
    Aggregates m (block ++ [u]) (b.add m u) := by
  obtain ⟨hcenter, hwidth, hsums, hpeaks⟩ := hgrid
  have hpower : (b.add m u).powerSum.length = u.meanDbfs.length := by
    simp [PowerBlock.add, hsums]
  have hpeak : (b.add m u).peak.length = u.meanDbfs.length := by
    simp [PowerBlock.add, hu.peaks, hpeaks]
  refine ⟨by simp [PowerBlock.add, h.frames], ?_, ?_, ?_, ?_, ?_⟩
  · rw [List.head?_append_of_ne_nil _ hne]
    exact h.first
  · rw [List.getLast?_concat]
    rintro _ ⟨⟩
    exact ⟨rfl, rfl, rfl⟩
  · intro t ht
    rcases List.mem_append.mp ht with ht | ht
    · obtain ⟨hc, hw, hs, hp⟩ := h.grid t ht
      exact ⟨hc, hw, by rw [hpower, ← hsums, hs], by rw [hpeak, ← hpeaks, hp]⟩
    · obtain rfl := List.mem_singleton.mp ht
      exact ⟨hcenter, hwidth, hpower, hpeak⟩
  · intro i hi
    rw [hpower] at hi
    rw [PowerBlock.add, getD_zipWith (by rwa [hsums]) hi 0 0, h.power i (by rwa [hsums])]
    simp
  · intro i hi
    rw [hpeak] at hi
    rw [PowerBlock.add, getD_zipWith (by rwa [hpeaks]) (by rwa [hu.peaks]) 0 0]
    obtain ⟨⟨t, ht, htx⟩, hub⟩ := h.peak i (by rwa [hpeaks])
    constructor
    · rcases max_choice (b.peak.getD i 0) (u.peakDbfs.getD i 0) with hmax | hmax
      · exact ⟨t, List.mem_append_left _ ht, by rw [htx, hmax]⟩
      · exact ⟨u, by simp, hmax.symm⟩
    · rintro x ⟨v, hv, rfl⟩
      rcases List.mem_append.mp hv with hv | hv
      · exact (hub ⟨v, hv, rfl⟩).trans (le_max_left _ _)
      · rw [List.mem_singleton.mp hv]
        exact le_max_right _ _

/-- **The aggregate of a chain of tiles** holds their range, their frames, the sums of their powers
and the maxima of their peaks. -/
theorem aggregates_blockOf {id : ℕ} {block : List (SpectrumTile K)} (hne : block ≠ [])
    (hchain : block.IsChain Follows) (hlevels : ∀ t ∈ block, Leveled t) :
    Aggregates m block (blockOf m id block) := by
  induction block using List.reverseRecOn with
  | nil => exact absurd rfl hne
  | append_singleton ts u ih =>
    by_cases hts : ts = []
    · subst hts
      exact aggregates_singleton (hlevels u (by simp))
    · rw [blockOf_append hts]
      have hagg := ih hts hchain.left_of_append
        fun t ht => hlevels t (List.mem_append_left _ ht)
      refine aggregates_add hts hagg (hlevels u (by simp)) ?_
      obtain ⟨t, ht⟩ := List.getLast?_isSome.mpr hts |> Option.isSome_iff_exists.mp
      have hfollows : Follows t u := (List.isChain_append.mp hchain).2.2 t ht u rfl
      obtain ⟨hc, hw, hs, hp⟩ := hagg.grid t (List.mem_of_mem_getLast? ht)
      exact ⟨by rw [hc, hfollows.center], by rw [hw, hfollows.width], by rw [hs, hfollows.bins],
        by rw [hp, hfollows.bins]⟩

/-- The open block takes a tile exactly when its tiles do. -/
theorem continues_iff_takes {block : List (SpectrumTile K)} {b : PowerBlock K} {t : SpectrumTile K}
    (hne : block ≠ []) (h : Aggregates m block b) (hid : b.id ≠ 0) (hframes : b.frames ≠ 0) :
    b.Continues t ↔ Takes block t := by
  obtain ⟨first, hfirst⟩ := Option.isSome_iff_exists.mp (List.isSome_head?.mpr hne)
  obtain ⟨last, hlast⟩ := Option.isSome_iff_exists.mp (List.getLast?_isSome.mpr hne)
  obtain ⟨-, -, hstart⟩ := h.first first hfirst
  obtain ⟨hend, -, hstop⟩ := h.last last hlast
  obtain ⟨hcenter, hwidth, -, hbins⟩ := h.grid last (List.mem_of_mem_getLast? hlast)
  simp only [PowerBlock.Continues, not_or, not_lt, not_not]
  rw [hstart, hend, hstop, hcenter, hwidth, hbins]
  constructor
  · rintro ⟨-, -, h₁, h₂, h₃, h₄, h₅, hspan⟩
    exact ⟨first, hfirst, last, hlast, ⟨h₁, h₂, h₃, h₄, h₅⟩, hspan⟩
  · rintro ⟨first', hfirst', last', hlast', hfollows, hspan⟩
    cases hfirst.symm.trans hfirst'
    cases hlast.symm.trans hlast'
    exact ⟨hid, hframes, hfollows.sample, hfollows.elapsed, hfollows.center, hfollows.width,
      hfollows.bins, hspan⟩

/-- The sample range of a chain of tiles is the range of its frames. -/
theorem samples_blockOf {id : ℕ} {block : List (SpectrumTile K)} (hne : block ≠ [])
    (hchain : block.IsChain Follows)
    (hsamples : ∀ t ∈ block, t.endSample = t.firstSample + t.frameCount * 4096) :
    (blockOf m id block).endSample =
      (blockOf m id block).firstSample + (blockOf m id block).frames * 4096 := by
  induction block using List.reverseRecOn with
  | nil => exact absurd rfl hne
  | append_singleton ts u ih =>
    have hu := hsamples u (by simp)
    by_cases hts : ts = []
    · subst hts
      simp [PowerBlock.add, PowerBlock.start, PowerBlock.empty, hu]
    · have ih := ih hts hchain.left_of_append fun t ht => hsamples t (List.mem_append_left _ ht)
      obtain ⟨t, ht⟩ := Option.isSome_iff_exists.mp (List.getLast?_isSome.mpr hts)
      have hfollows : Follows t u := (List.isChain_append.mp hchain).2.2 t ht u rfl
      have hend : (blockOf m id ts).endSample = t.endSample := endSample_blockOf ht
      rw [blockOf_append hts, PowerBlock.add]
      simp only
      rw [hu, ← hfollows.sample, ← hend, ih]
      omega

end OVMesh
