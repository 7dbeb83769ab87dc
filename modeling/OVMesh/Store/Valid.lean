import OVMesh.Store.Status
import OVMesh.Store.Codec

/-!
# What the checks of a record say

The checks of `storage.cpp` as propositions with named parts. Each structure is equivalent to the
check that passes.

* `ValidInterval`, `ValidFix`: the identity and the times of a record, and a receiver position.
* `ValidTile`, `validateTile_iff`: a spectrum tile under a configuration.
-/

namespace OVMesh

open Checked

variable {K : Type} [Field K] [LinearOrder K]

/-- `interval` passes. -/
structure ValidInterval (id : ℕ) (utcStart utcEnd elapsedStart elapsedEnd : K) : Prop where
  id_pos : 0 < id
  id_le : id ≤ int64Max
  utcStart_nonneg : 0 ≤ utcStart
  utcEnd_nonneg : 0 ≤ utcEnd
  elapsedStart_nonneg : 0 ≤ elapsedStart
  elapsedEnd_nonneg : 0 ≤ elapsedEnd
  utc : utcStart < utcEnd
  elapsed : elapsedStart < elapsedEnd
  elapsed_le : elapsedEnd ≤ 10 ^ 10
  drift : |(utcEnd - utcStart) - (elapsedEnd - elapsedStart)| ≤ 2 / 1000

theorem interval_iff {id : ℕ} {us ue es ee : K} {u : Unit} :
    interval id us ue es ee = .ok u ↔ ValidInterval id us ue es ee := by
  simp only [interval, nonnegative, bind_eq_ok, reject_eq_ok, forM_eq_ok, List.mem_cons,
    List.not_mem_nil, or_false, forall_eq_or_imp, forall_eq, not_or, not_lt, not_le,
    exists_and_left, exists_const]
  constructor
  · rintro ⟨⟨hid, hle⟩, ⟨hus, hue, hes, hee⟩, hutc, helapsed, hlimit, hdrift⟩
    exact ⟨Nat.pos_of_ne_zero hid, hle, hus, hue, hes, hee, hutc, helapsed, hlimit, hdrift⟩
  · intro h
    exact ⟨⟨h.id_pos.ne', h.id_le⟩, ⟨h.utcStart_nonneg, h.utcEnd_nonneg,
      h.elapsedStart_nonneg, h.elapsedEnd_nonneg⟩,
      h.utc, h.elapsed, h.elapsed_le, h.drift⟩

/-- The dimensions, the timing and the quality of a tile. -/
structure TileDimensions (t : SpectrumTile K) (c : ReceiverConfig K) : Prop where
  fftSize : t.fftSize = 4096
  frames_pos : 0 < t.frameCount
  frames_le : t.frameCount ≤ 128
  bins_pos : 0 < t.meanDbfs.length
  bins_le : t.meanDbfs.length ≤ 4096
  peaks : t.peakDbfs.length = t.meanDbfs.length
  mask : t.activity.length = (t.meanDbfs.length + 7) / 8 * t.frameCount
  first_le : t.firstSample ≤ int64Max
  end_le : t.endSample ≤ int64Max
  first_lt : t.firstSample < t.endSample
  samples : t.endSample - t.firstSample = t.frameCount * 4096
  width : |t.binWidthHz - c.sampleRate / 4096| ≤ 1 / 10 ^ 7
  duration : |(t.elapsedEndSeconds - t.elapsedStartSeconds) -
    ((t.endSample - t.firstSample : ℕ) : K) / c.sampleRate| ≤ 1 / 10 ^ 7
  clipped : t.clippedSamples ≤ t.endSample - t.firstSample
  quality : t.quality ≤ 1023

/-- The position of the first bin of a tile in the grid of the FFT. -/
def gridIndex (firstCenter : K) (c : ReceiverConfig K) : K :=
  (firstCenter - ((c.centerHz : K) - (c.sampleRate : K) / 2)) / (c.sampleRate / 4096)

/-- The grid lies inside the recorded range. -/
structure TileGrid [FloorRing K] (firstCenter : K) (bins : ℕ) (c : ReceiverConfig K) : Prop where
  aligned : |gridIndex firstCenter c - round (gridIndex firstCenter c)| ≤ 1 / 10 ^ 6
  index_nonneg : 0 ≤ gridIndex firstCenter c
  index_le : gridIndex firstCenter c + bins ≤ 4096
  lower : (c.centerHz : K) - (c.surveySpanHz : K) / 2 - 1 / 10 ^ 5 ≤
    firstCenter - c.sampleRate / 4096 / 2
  upper : firstCenter + (bins - 1 / 2) * (c.sampleRate / 4096) ≤
    (c.centerHz : K) + (c.surveySpanHz : K) / 2 + 1 / 10 ^ 5

/-- The levels of one bin. -/
structure BinLevels (mean peak : K) : Prop where
  mean_mem : -300 ≤ mean ∧ mean ≤ 100
  peak_mem : -300 ≤ peak ∧ peak ≤ 100
  mean_le : mean ≤ peak + 11 / 1000

/-- No bit beyond the last bin of a frame is set. -/
def PaddingClear (t : SpectrumTile K) : Prop :=
  t.meanDbfs.length % 8 ≠ 0 → ∀ f < t.frameCount,
    t.activity.getD ((f + 1) * ((t.meanDbfs.length + 7) / 8) - 1) 0 &&&
      (0xff <<< (t.meanDbfs.length % 8)) % 256 = 0

/-- `validate_tile` passes. -/
structure ValidTile [FloorRing K] (t : SpectrumTile K) (c : ReceiverConfig K) : Prop where
  interval : ValidInterval t.id t.utcStartSeconds t.utcEndSeconds t.elapsedStartSeconds
    t.elapsedEndSeconds
  dimensions : TileDimensions t c
  grid : TileGrid t.firstCenterHz t.meanDbfs.length c
  background : -300 ≤ t.backgroundDbfs ∧ t.backgroundDbfs ≤ 100
  levels : ∀ b ∈ t.meanDbfs.zip t.peakDbfs, BinLevels b.1 b.2
  padding : PaddingClear t
  receiverStart : ∀ f ∈ t.receiverStart, validateFix f = .ok ()
  receiverEnd : ∀ f ∈ t.receiverEnd, validateFix f = .ok ()

omit [Field K] [LinearOrder K] in
private theorem padding_iff {t : SpectrumTile K} {rest : Except String Unit}
    {u : Unit} :
    (if t.meanDbfs.length % 8 ≠ 0 then do
      forM (List.range t.frameCount) fun f =>
        reject (t.activity.getD ((f + 1) * ((t.meanDbfs.length + 7) / 8) - 1) 0 &&&
          (0xff <<< (t.meanDbfs.length % 8)) % 256 ≠ 0) "Nonzero spectrum bitmap padding"
      rest
    else rest) = .ok u ↔ PaddingClear t ∧ rest = .ok u := by
  unfold PaddingClear
  split <;> rename_i h
  · simp only [bind_eq_ok, forM_eq_ok, reject_eq_ok, List.mem_range, not_not, exists_and_left,
      exists_const]
    exact and_congr_left fun _ => ⟨fun hp _ => hp, fun hp => hp h⟩
  · exact ⟨fun hr => ⟨fun hne => absurd hne h, hr⟩, fun hr => hr.2⟩

theorem validateTile_iff [FloorRing K] {t : SpectrumTile K} {c : ReceiverConfig K}
    {u : Unit} : validateTile t c = .ok u ↔ ValidTile t c := by
  unfold validateTile
  simp only [padding_iff, bind_eq_ok, interval_iff, reject_eq_ok, forM_eq_ok, level_eq_ok, not_or,
    not_lt, not_le, Option.mem_toList, exists_and_left, exists_const, not_not]
  constructor
  · rintro ⟨hinterval, ⟨hfft, hframes, hframes', hbins, hbins', hpeaks, hmask, hfirst, hend, hlt,
      hsamples, hwidth, hduration, hclipped, hquality⟩, ⟨haligned, hindex, hindex', hlower, hupper⟩,
      hbackground, hlevels, hpadding, hstart, hstop⟩
    exact ⟨hinterval, ⟨hfft, Nat.pos_of_ne_zero hframes, hframes', Nat.pos_of_ne_zero hbins, hbins',
      hpeaks, hmask, hfirst, hend, hlt, hsamples, hwidth, hduration, hclipped, hquality⟩,
      ⟨haligned, hindex, hindex', hlower, hupper⟩, hbackground,
      fun b hb => ⟨(hlevels b hb).1, (hlevels b hb).2.1, (hlevels b hb).2.2⟩, hpadding, hstart, hstop⟩
  · intro h
    have d := h.dimensions
    have g := h.grid
    exact ⟨h.interval, ⟨d.fftSize, d.frames_pos.ne', d.frames_le, d.bins_pos.ne', d.bins_le, d.peaks,
      d.mask, d.first_le, d.end_le, d.first_lt, d.samples, d.width, d.duration, d.clipped,
      d.quality⟩, ⟨g.aligned, g.index_nonneg, g.index_le, g.lower, g.upper⟩, h.background,
      fun b hb => ⟨(h.levels b hb).mean_mem, (h.levels b hb).peak_mem, (h.levels b hb).mean_le⟩, h.padding,
      h.receiverStart, h.receiverEnd⟩

end OVMesh
