import OVMesh.Store.Failures

/-!
# The acquisition history of a recording

What the writer leaves in the tables of the acquisitions, and that `acquisitions` reads it back.

* `Agrees`: the settings that all acquisitions of a recording share.
* `acquisitionConfigAt_inside`, `acquisitionConfigAt_outside`: the acquisition at a time.
* `Recorded`: the tables hold a list of acquisitions.
* `Recorded.acquisitions`: the history that comes back.
* `Recorded.begin`, `Recorded.update`: what the two calls of the writer do to it.
-/

namespace OVMesh

open Checked Keyed
open SessionStore (laneRows)

variable {K : Type} [Field K] [LinearOrder K]

/-! ## Configurations -/

omit [Field K] [LinearOrder K] in
/-- The settings that an acquisition takes over from its recording. -/
structure ReceiverConfig.Agrees (legacy c : ReceiverConfig K) : Prop where
  kind : c.synthetic = legacy.synthetic ∧ c.hardwareReceiver = legacy.hardwareReceiver ∧
    c.compactRecording = legacy.compactRecording
  range : c.Rak → c.centerHz = legacy.centerHz ∧ c.surveySpanHz = legacy.surveySpanHz ∧
    c.tuningOffsetHz = legacy.tuningOffsetHz

section

variable {legacy c d : ReceiverConfig K} {segment : AcquisitionSegment K}

omit [Field K] [LinearOrder K] in
theorem ReceiverConfig.Agrees.refl : c.Agrees c := ⟨⟨rfl, rfl, rfl⟩, fun _ => ⟨rfl, rfl, rfl⟩⟩

omit [Field K] [LinearOrder K] in
theorem ReceiverConfig.Agrees.rak (h : legacy.Agrees c) : c.Rak ↔ legacy.Rak := by
  unfold ReceiverConfig.Rak
  rw [h.kind.1, h.kind.2.1]

omit [Field K] [LinearOrder K] in
theorem ReceiverConfig.Agrees.trans (h : legacy.Agrees c) (hd : c.Agrees d) : legacy.Agrees d := by
  refine ⟨⟨hd.kind.1.trans h.kind.1, hd.kind.2.1.trans h.kind.2.1, hd.kind.2.2.trans h.kind.2.2⟩,
    fun hrak => ?_⟩
  obtain ⟨hcenter, hspan, hoffset⟩ := hd.range hrak
  obtain ⟨hcenter', hspan', hoffset'⟩ := h.range (hd.rak.mp hrak)
  exact ⟨hcenter.trans hcenter', hspan.trans hspan', hoffset.trans hoffset'⟩

theorem ValidAcquisition.agrees (h : ValidAcquisition segment legacy) :
    legacy.Agrees segment.config :=
  ⟨h.kind, fun hrak => (h.rak hrak).2.2.2⟩

/-- Only the shared settings of the other configuration are checked. -/
theorem ValidAcquisition.congr (h : ValidAcquisition segment c) (hc : legacy.Agrees c) :
    ValidAcquisition segment legacy := by
  have hagrees := hc.trans h.agrees
  refine { h with kind := hagrees.kind, rak := fun hrak => ?_ }
  obtain ⟨hrate, hdiscovery, hlanes, -⟩ := h.rak hrak
  exact ⟨hrate, hdiscovery, hlanes, hagrees.range hrak⟩

end

/-! ## The acquisition at a time -/

section

variable {segments : List (AcquisitionSegment K)} {t : K} {i : ℕ} {a : AcquisitionSegment K}

/-- A time within an acquisition, before the tolerance of the next start, finds it. -/
theorem acquisitionConfigAt_inside [IsStrictOrderedRing K] (hne : segments[i]? = some a)
    (hstarts : segments.Pairwise fun a b => a.elapsedStart ≤ b.elapsedStart)
    (hnonneg : 0 ≤ a.elapsedStart) (hstart : a.elapsedStart ≤ t) (hend : t ≤ a.elapsedEnd)
    (hnext : ∀ b ∈ segments[i + 1]?, t + 1 / 10 ^ 8 < b.elapsedStart) :
    acquisitionConfigAt segments t = .ok (some (i, a)) := by
  have heps : (0 : K) < 1 / 10 ^ 8 := by positivity
  obtain ⟨hi, rfl⟩ := List.getElem?_eq_some_iff.mp hne
  have hpairs := List.pairwise_iff_getElem.mp hstarts
  have hbefore : ∀ j (hj : j < segments.length), j ≤ i →
      segments[j].elapsedStart ≤ t + 1 / 10 ^ 8 := by
    intro j hj hji
    rcases Nat.lt_or_eq_of_le hji with hlt | rfl
    · have := hpairs j i hj hi hlt
      linarith
    · linarith
  have hfind : segments.findIdx (fun s => t + 1 / 10 ^ 8 < s.elapsedStart) = i + 1 := by
    by_cases hlast : i + 1 < segments.length
    · rw [List.findIdx_eq hlast]
      refine ⟨?_, fun j hj => ?_⟩
      · exact decide_eq_true (hnext _ (List.getElem?_eq_getElem hlast))
      · simpa using hbefore j (by omega) (by omega)
    · have hlength : segments.length = i + 1 := by omega
      rw [← hlength, List.findIdx_eq_length]
      intro s hs
      obtain ⟨j, hj, rfl⟩ := List.getElem_of_mem hs
      simpa using hbefore j hj (by omega)
  have hnil : segments ≠ [] := List.ne_nil_of_length_pos (by omega)
  simp only [acquisitionConfigAt, if_neg hnil, hfind, hne, bind_eq_ok, reject_eq_ok, pure_eq_ok]
  exact ⟨(), by linarith, (), by linarith, trivial⟩

/-- A time that is after the tolerance of every acquisition that it does not precede is rejected. -/
theorem acquisitionConfigAt_outside (hne : segments ≠ [])
    (h : ∀ a ∈ segments, a.elapsedEnd + 1 / 10 ^ 8 < t ∨ t + 1 / 10 ^ 8 < a.elapsedStart) :
    ∃ message, acquisitionConfigAt segments t = .error message := by
  cases hfound : acquisitionConfigAt segments t with
  | error message => exact ⟨message, rfl⟩
  | ok found =>
    exfalso
    simp only [acquisitionConfigAt, if_neg hne, bind_eq_ok, reject_eq_ok] at hfound
    obtain ⟨_, -, hfound⟩ := hfound
    split at hfound
    · cases hfound
    · rename_i i hi
      split at hfound
      · cases hfound
      · rename_i a ha
        simp only [bind_eq_ok, reject_eq_ok, not_lt] at hfound
        obtain ⟨_, hend, -⟩ := hfound
        obtain ⟨hlt, rfl⟩ := List.getElem?_eq_some_iff.mp ha
        rcases h _ (List.getElem_mem hlt) with hafter | hbefore
        · exact absurd hend (not_le.mpr hafter)
        · have := List.not_of_lt_findIdx (hi ▸ Nat.lt_succ_self i)
          exact of_decide_eq_false this hbefore

end

/-! ## Tables -/

/-- The row of an acquisition. -/
def savedSegment (segment : AcquisitionSegment K) : SegmentRow K :=
  segmentRow segment (segment.config.activityThresholdDbfs.getD 0)

omit [LinearOrder K] in
@[simp] theorem savedSegment_id {segment : AcquisitionSegment K} :
    (savedSegment segment).id = segment.id := rfl

/-- The configuration that is read back. The title, the boards and the paths are not columns of an
acquisition. -/
def ReceiverConfig.restored (legacy c : ReceiverConfig K) : ReceiverConfig K :=
  { c with
    deviceSerial := []
    sessionPath := []
    concentrators := legacy.concentrators
    sessionTitle := legacy.sessionTitle }

/-- The acquisition that is read back. -/
def AcquisitionSegment.restored (legacy : ReceiverConfig K) (segment : AcquisitionSegment K) :
    AcquisitionSegment K :=
  { segment with config := legacy.restored segment.config }

/-- What an acquisition is begun with. -/
def AcquisitionSegment.issue (segment : AcquisitionSegment K) : ℕ × K × ReceiverConfig K :=
  (segment.id, segment.elapsedStart, segment.config)

/-- An acquisition is resumed by another one, up to the tolerance of the store. -/
def Resumes (a b : AcquisitionSegment K) : Prop :=
  a.finalized = true ∧ a.elapsedEnd - 1 / 10 ^ 8 ≤ b.elapsedStart

/-- The tables hold the acquisitions. A decoder row without an acquisition has the identifier
zero, until the first one begins. -/
structure Recorded (legacy : ReceiverConfig K) (db : Database K)
    (segments : List (AcquisitionSegment K)) : Prop where
  segmented : db.segmented = true
  rows : db.segments = segments.map savedSegment
  lanes : db.segmentLanes =
    segments.flatMap fun segment => laneRows segment.id segment.config.lanes.zipIdx
  decoders : (db.automaticDecoder.filter (·.1 ≠ 0)).map (·.1) = segments.map (·.id)
  initial : segments ≠ [] → ∀ d ∈ db.automaticDecoder, d.1 ≠ 0
  statuses : ∀ segment ∈ segments, ∀ d ∈ db.automaticDecoder, d.1 = segment.id →
    validateAutomatic d.2 = .ok () ∧ d.2.enabled = segment.config.automaticDecode
  ids : segments.map (·.id) = List.range' 1 segments.length
  valid : ∀ segment ∈ segments, ValidAcquisition segment legacy
  span : legacy.Rak → legacy.surveySpanHz ≤ 26000000
  chain : segments.IsChain Resumes

/-! ## Reading -/

section

omit [Field K] [LinearOrder K]

theorem readText_ok {text : Text} {bound : ℕ} (hbound : bound ≤ 8192)
    (h : text.length ≤ bound ∧ validUtf8 text = true) : readText text = .ok text := by
  simp only [readText, bind_eq_ok, reject_eq_ok, pure_eq_ok, not_lt, Bool.not_eq_false]
  exact ⟨(), h.1.trans hbound, (), h.2, trivial⟩

theorem supportedLoraBandwidth_le {bandwidth : ℕ} (h : supportedLoraBandwidth bandwidth) :
    bandwidth ≤ 500000 := by
  unfold supportedLoraBandwidth at h
  omega

/-- A lane whose acquisition is valid is read back. -/
theorem readLane_ok {lanes : List LaneConfig} {l : LaneConfig} {id : ℕ}
    (h : validateAcquisitionLane l = .ok ()) (hlanes : lanes.length ≤ 4) :
    readLane lanes (id, lanes.length, l) = .ok (lanes ++ [l]) := by
  simp only [validateAcquisitionLane, reject_eq_ok, not_or, not_lt, Bool.not_eq_false, not_not,
    not_and] at h
  obtain ⟨hlabel, hname, hlabel', hname', hfrequency, hprotocol, hbandwidth, -, hspread, -,
    hrate⟩ := h
  have hprotocols : l.protocol.length ≤ 10 ∧ validUtf8 l.protocol = true := by
    by_cases hmeshtastic : l.protocol = "Meshtastic".toUTF8.toList
    · rw [hmeshtastic]
      decide +kernel
    · rw [hprotocol hmeshtastic]
      decide +kernel
  simp only [readLane, bind_eq_ok, unsignedValue_eq_ok, reject_eq_ok, pure_eq_ok, not_not]
  exact ⟨_, ⟨hlanes, rfl⟩, (), rfl, _, readText_ok (by omega) ⟨hlabel, hlabel'⟩, _,
    readText_ok (by omega) ⟨hname, hname'⟩, _, readText_ok (by omega) hprotocols, _,
    ⟨hfrequency, rfl⟩, _, ⟨supportedLoraBandwidth_le hbandwidth, rfl⟩, _, ⟨hspread, rfl⟩, _,
    ⟨hrate, rfl⟩, rfl⟩

theorem readLanes_ok {id : ℕ} (lanes : List LaneConfig) {rest : List LaneConfig}
    (h : ∀ l ∈ rest, validateAcquisitionLane l = .ok ()) (hcount : lanes.length + rest.length ≤ 4) :
    (laneRows id (rest.zipIdx lanes.length)).foldlM readLane lanes = .ok (lanes ++ rest) := by
  induction rest generalizing lanes with
  | nil => simp [laneRows]
  | cons l rest ih =>
    rw [List.length_cons] at hcount
    have hrest := ih (lanes ++ [l]) (fun k hk => h k (List.mem_cons_of_mem l hk))
      (by rw [List.length_append]; simp only [List.length_singleton]; omega)
    rw [List.length_append, List.length_singleton, List.append_assoc] at hrest
    rw [List.zipIdx_cons, laneRows, List.map_cons, List.foldlM_cons,
      readLane_ok (h l List.mem_cons_self) (by omega)]
    exact hrest

theorem laneRows_sorted {id : ℕ} {lanes : List LaneConfig} :
    (laneRows id lanes.zipIdx).Pairwise fun a b => decide (a.2.1 ≤ b.2.1) = true := by
  have hindices : (laneRows id lanes.zipIdx).map (·.2.1) = List.range' 0 lanes.length := by
    rw [laneRows, List.map_map, ← List.zipIdx_map_snd 0 lanes]
    rfl
  have hsorted : ((laneRows id lanes.zipIdx).map (·.2.1)).Pairwise (· ≤ ·) := by
    rw [hindices]
    exact List.pairwise_le_range'
  exact (List.pairwise_map.mp hsorted).imp decide_eq_true

end

section

variable {legacy : ReceiverConfig K} {db : Database K} {segments : List (AcquisitionSegment K)}
  {segment : AcquisitionSegment K}

/-- The tables hold the acquisitions of every configuration with the shared settings. -/
theorem Recorded.agrees {c : ReceiverConfig K} (h : Recorded c db segments) (hc : legacy.Agrees c) :
    Recorded legacy db segments :=
  { h with
    valid := fun segment hs => (h.valid segment hs).congr hc
    span := fun hrak => by
      have hrak' := hc.rak.mpr hrak
      rw [← (hc.range hrak').2.1]
      exact h.span hrak' }

theorem Recorded.ids_nodup (h : Recorded legacy db segments) : (segments.map (·.id)).Nodup := by
  rw [h.ids]
  exact List.nodup_range'

/-- The lanes of an acquisition, in their order. -/
theorem Recorded.lanesOf (h : Recorded legacy db segments) (hs : segment ∈ segments) :
    db.lanesOf segment.id = laneRows segment.id segment.config.lanes.zipIdx := by
  have hfilter : db.segmentLanes.filter (·.1 = segment.id) =
      laneRows segment.id segment.config.lanes.zipIdx := by
    rw [h.lanes, List.filter_flatMap, ← flatMap_key
      (f := fun s : AcquisitionSegment K => laneRows s.id s.config.lanes.zipIdx) h.ids_nodup hs]
    congr 1
    funext s
    split <;> rename_i hid
    · exact List.filter_eq_self.mpr fun row hrow => by
        obtain ⟨l, -, rfl⟩ := List.mem_map.mp hrow
        exact decide_eq_true hid
    · exact List.filter_eq_nil_iff.mpr fun row hrow => by
        obtain ⟨l, -, rfl⟩ := List.mem_map.mp hrow
        simpa using hid
  have hlength : (laneRows segment.id segment.config.lanes.zipIdx).length ≤ 5 := by
    have := (h.valid segment hs).settings.lanes
    rw [laneRows, List.length_map, List.length_zipIdx]
    omega
  rw [Database.lanesOf, hfilter, List.mergeSort_of_pairwise laneRows_sorted,
    List.take_of_length_le hlength]

/-- The decoder row of an acquisition is found and accepted. -/
theorem Recorded.decoder (h : Recorded legacy db segments) (hs : segment ∈ segments) :
    ∃ d, db.automaticDecoder.find? (·.1 = segment.id) = some d ∧ automaticFrom d = .ok d.2 ∧
      d.2.enabled = segment.config.automaticDecode := by
  have hid : segment.id ∈ (db.automaticDecoder.filter (·.1 ≠ 0)).map (·.1) := by
    rw [h.decoders]
    exact List.mem_map_of_mem hs
  obtain ⟨e, he, heq⟩ := List.mem_map.mp hid
  cases hfind : db.automaticDecoder.find? (·.1 = segment.id) with
  | none =>
    have := List.find?_eq_none.mp hfind e (List.mem_of_mem_filter he)
    simp [heq] at this
  | some d =>
    have hd : d.1 = segment.id := by simpa using List.find?_some hfind
    obtain ⟨hstatus, hmode⟩ := h.statuses segment hs d (List.mem_of_find?_eq_some hfind) hd
    refine ⟨d, rfl, ?_, hmode⟩
    have hbounds := hstatus
    simp only [validateAutomatic, bind_eq_ok, reject_eq_ok, not_or, not_lt, not_exists,
      not_and] at hbounds
    obtain ⟨_, hcounters, hactive, hhistory, -⟩ := hbounds
    simp only [automaticFrom, bind_eq_ok, unsignedValue_eq_ok, forM_eq_ok, pure_eq_ok]
    refine ⟨_, ⟨hd ▸ (h.valid segment hs).id_le, rfl⟩, (), fun n hn => ?_, _, ⟨hactive, rfl⟩, _,
      ⟨hhistory, rfl⟩, (), hstatus, trivial⟩
    rw [unsignedValue_eq_ok.mpr ⟨hcounters n hn, rfl⟩]
    rfl

/-- **An acquisition is read back** as it was saved. -/
theorem Recorded.readSegment (h : Recorded legacy db segments) (hs : segment ∈ segments) :
    readSegment db legacy (savedSegment segment) = .ok (segment.restored legacy) := by
  have hvalid := h.valid segment hs
  have hsettings := hvalid.settings
  have hthreshold : some (segment.config.activityThresholdDbfs.getD 0) =
      segment.config.activityThresholdDbfs := by
    obtain ⟨threshold, hsome, -⟩ := hsettings.threshold
    rw [Option.mem_def.mp hsome, Option.getD_some]
  have hcenter : segment.config.centerHz ≤ 6000000000 := by
    obtain ⟨command, htuned⟩ := hvalid.tuned
    simp only [tunedCenterHz, bind_eq_ok, reject_eq_ok, not_or, not_lt] at htuned
    obtain ⟨_, ⟨-, hle⟩, -⟩ := htuned
    exact hle
  have hgrid : segment.config.sampleRate ≤ 20000000 ∧ segment.config.surveySpanHz ≤ 26000000 := by
    by_cases hrak : segment.config.Rak
    · obtain ⟨hrate, -, -, -, hspan, -⟩ := hvalid.rak hrak
      rw [hrate, hspan]
      exact ⟨Nat.zero_le _, h.span (hvalid.agrees.rak.mp hrak)⟩
    · obtain ⟨-, hrate, -, hspan, -⟩ := hvalid.sampled hrak
      omega
  have hlanes : (db.lanesOf segment.id).foldlM readLane [] = .ok segment.config.lanes := by
    rw [h.lanesOf hs]
    apply readLanes_ok [] hvalid.lanes
    rw [List.length_nil, Nat.zero_add]
    exact hsettings.lanes
  obtain ⟨d, hfind, hdecoder, hmode⟩ := h.decoder hs
  simp only [OVMesh.readSegment, bind_eq_ok, unsignedValue_eq_ok, reject_eq_ok, not_or, not_lt]
  refine ⟨_, ⟨hvalid.id_le, rfl⟩, _, ⟨hcenter, rfl⟩, _, ⟨hgrid.1, rfl⟩, _, ⟨hgrid.2, rfl⟩, _,
    ⟨hsettings.lna.1, rfl⟩, _, ⟨hsettings.vga.1, rfl⟩, (), hsettings.rtlGain, _,
    readText_ok (by decide) hsettings.antenna, _, readText_ok (by decide) hsettings.receiver, _,
    readText_ok (by decide) hsettings.notes, _, hlanes, ?_⟩
  rw [savedSegment_id, hfind]
  simp only [hdecoder, bind_eq_ok, pure_eq_ok]
  exact ⟨d.2, rfl, by simp only [AcquisitionSegment.restored, ReceiverConfig.restored, savedSegment,
    segmentRow, hthreshold, hmode, hvalid.kind.2.2]⟩

/-- What is read of an acquisition passes the checks again. -/
theorem ValidAcquisition.restored (h : ValidAcquisition segment legacy) :
    ValidAcquisition (segment.restored legacy) legacy :=
  ⟨h.start_nonneg, h.end_nonneg, h.id_pos, h.id_le, h.start_le, h.end_le, h.kind, h.tuned,
    h.automatic, h.rak, h.sampled, ⟨h.settings.lna, h.settings.vga, h.settings.threshold,
      h.settings.rtlGain, h.settings.lanes, h.settings.antenna, h.settings.receiver,
      h.settings.notes⟩, h.rtl, h.lanes⟩

theorem Recorded.id_eq (h : Recorded legacy db segments) {before after : List (AcquisitionSegment K)}
    (hsplit : segments = before ++ segment :: after) : segment.id = before.length + 1 := by
  have hlt : before.length < segments.length := by
    rw [hsplit, List.length_append, List.length_cons]
    omega
  have hget : (segments.map (·.id))[before.length]? = some segment.id := by
    rw [hsplit]
    simp
  rw [h.ids, List.getElem?_range' hlt] at hget
  have := Option.some_inj.mp hget
  omega

/-- Every acquisition but the newest one is finalized. -/
theorem Recorded.finalized {before : List (AcquisitionSegment K)} {last : AcquisitionSegment K}
    (h : Recorded legacy db (before ++ [last])) (hs : segment ∈ before) :
    segment.finalized = true := by
  obtain ⟨first, rest, rfl⟩ := List.append_of_mem hs
  have hchain := h.chain
  rw [List.append_assoc, List.cons_append, List.isChain_split] at hchain
  cases rest with
  | nil => exact (List.isChain_cons_cons.mp hchain.2).1.1
  | cons b rest => exact (List.isChain_cons_cons.mp hchain.2).1.1

theorem Recorded.nextSegment (h : Recorded legacy db segments)
    {before after : List (AcquisitionSegment K)} (hsplit : segments = before ++ segment :: after) :
    nextSegment db legacy (before.map (·.restored legacy)) (savedSegment segment) =
      .ok ((before ++ [segment]).map (·.restored legacy)) := by
  have hs : segment ∈ segments := by rw [hsplit]; simp
  have hordered : orderedAfter (before.map (·.restored legacy)) (segment.restored legacy) := by
    refine ⟨?_, fun last hlast => ?_⟩
    · rw [List.length_map, ← h.id_eq hsplit]
      rfl
    · rw [List.getLast?_map] at hlast
      obtain ⟨a, ha, rfl⟩ := Option.mem_map.mp hlast
      have hchain := h.chain
      rw [hsplit, List.isChain_append] at hchain
      exact hchain.2.2 a ha segment rfl
  simp only [OVMesh.nextSegment, bind_eq_ok, h.readSegment hs, reject_eq_ok, not_not, pure_eq_ok]
  exact ⟨_, rfl, (), validateAcquisition_iff.mpr (h.valid segment hs).restored, (), hordered,
    by rw [List.map_append, List.map_singleton]⟩

theorem Recorded.id_mem (h : Recorded legacy db segments) (hs : segment ∈ segments) :
    ∃ row ∈ db.segments, row.id = segment.id := by
  rw [h.rows]
  exact ⟨savedSegment segment, List.mem_map_of_mem hs, rfl⟩

theorem Recorded.length_le (h : Recorded legacy db segments) : segments.length ≤ 2048 := by
  cases hlast : segments.getLast? with
  | none =>
    rw [List.getLast?_eq_none_iff.mp hlast]
    exact Nat.zero_le _
  | some last =>
    obtain ⟨before, rfl⟩ := List.getLast?_eq_some_iff.mp hlast
    have hid : last.id = before.length + 1 := h.id_eq rfl
    have := (h.valid last (by simp)).id_le
    rw [List.length_append, List.length_singleton]
    omega

/-- **The history is accepted**: every acquisition that the tables hold is read back, in order. -/
theorem Recorded.acquisitions (h : Recorded legacy db segments) :
    db.acquisitions legacy = .ok (segments.map (·.restored legacy)) := by
  have hsorted : db.segments.Pairwise fun a b => decide (a.id ≤ b.id) = true := by
    have hids : (db.segments.map (·.id)).Pairwise (· ≤ ·) := by
      rw [h.rows, List.map_map]
      change (segments.map (·.id)).Pairwise (· ≤ ·)
      rw [h.ids]
      exact List.pairwise_le_range'
    exact (List.pairwise_map.mp hids).imp decide_eq_true
  have hlength : db.segments.length ≤ 2049 := by
    have := h.length_le
    rw [h.rows, List.length_map]
    omega
  -- The rows are read in order, each with the ones before it as they were restored.
  have hrows : db.segments.foldlM (OVMesh.nextSegment db legacy) [] =
      .ok (segments.map (·.restored legacy)) := by
    rw [h.rows, List.foldlM_map]
    obtain ⟨result, hresult, heq⟩ := foldlM_ok (l := segments)
      (f := fun result segment => OVMesh.nextSegment db legacy result (savedSegment segment))
      (P := fun seen result => result = seen.map (AcquisitionSegment.restored legacy))
      (fun before segment after result hsplit hresult => by
        subst hresult
        exact ⟨_, h.nextSegment hsplit.symm, rfl⟩) rfl
    rw [heq] at hresult
    exact hresult
  have hdecoders : ¬ ((∃ d ∈ db.automaticDecoder, ∀ a ∈ db.segments, a.id ≠ d.1) ∧
      segments.map (·.restored legacy) ≠ []) := by
    rintro ⟨⟨d, hd, hmissing⟩, hne⟩
    have hsegments : segments ≠ [] := fun hnil => hne (by rw [hnil, List.map_nil])
    have hid : d.1 ∈ (db.automaticDecoder.filter (·.1 ≠ 0)).map (·.1) :=
      List.mem_map_of_mem (List.mem_filter.mpr ⟨hd, by simpa using h.initial hsegments d hd⟩)
    rw [h.decoders] at hid
    obtain ⟨segment, hs, heq⟩ := List.mem_map.mp hid
    obtain ⟨row, hrow, hrowId⟩ := h.id_mem hs
    exact hmissing row hrow (hrowId.trans heq)
  have horphans : ¬ ∃ l ∈ db.segmentLanes, ∀ a ∈ db.segments, a.id ≠ l.1 := by
    rintro ⟨l, hl, hmissing⟩
    rw [h.lanes] at hl
    obtain ⟨segment, hs, hl⟩ := List.mem_flatMap.mp hl
    obtain ⟨lane, -, rfl⟩ := List.mem_map.mp hl
    obtain ⟨row, hrow, hrowId⟩ := h.id_mem hs
    exact hmissing row hrow hrowId
  simp only [Database.acquisitions, h.segmented, Bool.true_eq_false, if_false,
    List.mergeSort_of_pairwise hsorted, List.take_of_length_le hlength, bind_eq_ok, hrows,
    reject_eq_ok, pure_eq_ok]
  exact ⟨_, rfl, (), hdecoders, (), horphans, rfl⟩

end

/-! ## Writing -/

/-- The tables of the acquisitions are the same. -/
structure SameAcquisitions (db db' : Database K) : Prop where
  segmented : db'.segmented = db.segmented
  segments : db'.segments = db.segments
  lanes : db'.segmentLanes = db.segmentLanes
  decoders : db'.automaticDecoder = db.automaticDecoder

section

variable {legacy : ReceiverConfig K} {db db' : Database K} {segments before : List (AcquisitionSegment K)}
  {segment last : AcquisitionSegment K}

theorem Recorded.congr (h : Recorded legacy db segments) (hsame : SameAcquisitions db db') :
    Recorded legacy db' segments := by
  obtain ⟨hsegmented, hsegments, hlanes, hdecoders⟩ := hsame
  exact ⟨hsegmented.trans h.segmented, hsegments.trans h.rows, hlanes.trans h.lanes,
    by rw [hdecoders]; exact h.decoders, by rw [hdecoders]; exact h.initial,
    by rw [hdecoders]; exact h.statuses, h.ids, h.valid, h.span, h.chain⟩

/-- A table with one more acquisition. -/
theorem Recorded.begin (h : Recorded legacy db segments) (hvalid : ValidAcquisition segment legacy)
    (hid : segment.id = segments.length + 1) (hfollows : ∀ last ∈ segments.getLast?, Resumes last segment)
    (hsegmented : db'.segmented = true)
    (hrows : db'.segments = db.segments ++ [savedSegment segment])
    (hlanes : db'.segmentLanes =
      db.segmentLanes ++ laneRows segment.id segment.config.lanes.zipIdx)
    (hdecoders : db'.automaticDecoder =
      (db.automaticDecoder.filter (·.1 ≠ 0)).filter (·.1 ≠ segment.id) ++
        [(segment.id, { available := true, enabled := segment.config.automaticDecode })]) :
    Recorded legacy db' (segments ++ [segment]) := by
  have hlt : ∀ a ∈ segments, a.id ≤ segments.length := by
    intro a ha
    have hmem : a.id ∈ List.range' 1 segments.length := h.ids ▸ List.mem_map_of_mem ha
    rw [List.mem_range'_1] at hmem
    omega
  -- The new identifier is larger than all others, so no counters are replaced.
  have hkept : (db.automaticDecoder.filter (·.1 ≠ 0)).filter (·.1 ≠ segment.id) =
      db.automaticDecoder.filter (·.1 ≠ 0) := by
    apply List.filter_eq_self.mpr
    intro d hd
    have hmem : d.1 ∈ segments.map (·.id) := h.decoders ▸ List.mem_map_of_mem hd
    obtain ⟨a, ha, heq⟩ := List.mem_map.mp hmem
    have := hlt a ha
    exact decide_eq_true (by omega)
  rw [hkept] at hdecoders
  have hne : ∀ d ∈ db'.automaticDecoder, d.1 ≠ 0 := by
    rw [hdecoders]
    intro d hd
    rcases List.mem_append.mp hd with hd | hd
    · exact of_decide_eq_true (List.mem_filter.mp hd).2
    · rw [List.mem_singleton.mp hd, hid]
      exact Nat.succ_ne_zero _
  refine ⟨hsegmented, by rw [hrows, h.rows, List.map_append, List.map_singleton],
    by rw [hlanes, h.lanes, List.flatMap_append, List.flatMap_singleton], ?_, fun _ => hne, ?_, ?_, ?_,
    h.span, ?_⟩
  · rw [List.filter_eq_self.mpr fun d hd => decide_eq_true (hne d hd), hdecoders, List.map_append,
      h.decoders, List.map_append]
    rfl
  · rw [hdecoders]
    intro a ha d hd heq
    rcases List.mem_append.mp ha with ha | ha
    · rcases List.mem_append.mp hd with hd | hd
      · exact h.statuses a ha d (List.mem_of_mem_filter hd) heq
      · rw [List.mem_singleton.mp hd] at heq
        have := hlt a ha
        simp only at heq
        omega
    · rw [List.mem_singleton.mp ha] at heq ⊢
      rcases List.mem_append.mp hd with hd | hd
      · have hmem : d.1 ∈ segments.map (·.id) := h.decoders ▸ List.mem_map_of_mem hd
        obtain ⟨b, hb, hbeq⟩ := List.mem_map.mp hmem
        have := hlt b hb
        omega
      · rw [List.mem_singleton.mp hd]
        exact ⟨by simp [validateAutomatic, AutomaticDecoderStatus.counters, reject, int64Max], rfl⟩
  · rw [List.map_append, h.ids, List.map_singleton, hid, List.length_append, List.length_singleton,
      List.range'_concat]
    simp [Nat.add_comm]
  · intro a ha
    rcases List.mem_append.mp ha with ha | ha
    · exact h.valid a ha
    · rw [List.mem_singleton.mp ha]
      exact hvalid
  · apply List.isChain_append.mpr
    refine ⟨h.chain, List.isChain_singleton segment, fun a ha b hb => ?_⟩
    cases hb
    exact hfollows a ha

/-- The acquisition as a checkpoint saves it. -/
def AcquisitionSegment.ended (segment : AcquisitionSegment K) (stop : K) (final : Bool) :
    AcquisitionSegment K :=
  { segment with elapsedEnd := stop, finalized := final }

theorem ValidAcquisition.ended {stop : K} {final : Bool} (h : ValidAcquisition segment legacy)
    (hstart : segment.elapsedStart ≤ stop) (hstop : stop ≤ 10 ^ 10) :
    ValidAcquisition (segment.ended stop final) legacy :=
  ⟨h.start_nonneg, h.start_nonneg.trans hstart, h.id_pos, h.id_le, hstart, hstop, h.kind, h.tuned,
    h.automatic, h.rak, h.sampled, h.settings, h.rtl, h.lanes⟩

theorem Recorded.id_ne (h : Recorded legacy db (before ++ [last])) (hs : segment ∈ before) :
    segment.id ≠ last.id := by
  have hnodup := h.ids_nodup
  rw [List.map_append, List.nodup_append] at hnodup
  exact hnodup.2.2 _ (List.mem_map_of_mem hs) _ (by simp)

/-- The tables after a checkpoint of the last acquisition. -/
theorem Recorded.update {stop : K} {final : Bool} {status : AutomaticDecoderStatus}
    (h : Recorded legacy db (before ++ [last])) (hstart : last.elapsedStart ≤ stop)
    (hstop : stop ≤ 10 ^ 10) (hstatus : validateAutomatic status = .ok ())
    (hmode : status.enabled = last.config.automaticDecode) (hsegmented : db'.segmented = true)
    (hrows : db'.segments = db.segments.map fun row =>
      if row.id = last.id then { row with elapsedEnd := stop, finalized := final } else row)
    (hlanes : db'.segmentLanes = db.segmentLanes)
    (hdecoders : db'.automaticDecoder =
      db.automaticDecoder.filter (·.1 ≠ last.id) ++ [(last.id, status)]) :
    Recorded legacy db' (before ++ [last.ended stop final]) := by
  have hzero : ∀ d ∈ db.automaticDecoder, d.1 ≠ 0 := h.initial (by simp)
  have hzero' : ∀ d ∈ db'.automaticDecoder, d.1 ≠ 0 := by
    rw [hdecoders]
    intro d hd
    rcases List.mem_append.mp hd with hd | hd
    · exact hzero d (List.mem_of_mem_filter hd)
    · rw [List.mem_singleton.mp hd]
      exact (h.valid last (by simp)).id_pos.ne'
  -- The counters are in the order of the acquisitions, and only those of the last one are replaced.
  have hids : db.automaticDecoder.map (·.1) = before.map (·.id) ++ [last.id] := by
    have := h.decoders
    rwa [List.filter_eq_self.mpr fun d hd => decide_eq_true (hzero d hd), List.map_append] at this
  refine ⟨hsegmented, ?_, ?_, ?_, fun _ => hzero', ?_, ?_, ?_, h.span, ?_⟩
  · rw [hrows, h.rows, List.map_map, List.map_append, List.map_append]
    congr 1
    · apply List.map_congr_left
      intro a ha
      exact if_neg (h.id_ne ha)
    · simp [savedSegment, segmentRow, AcquisitionSegment.ended]
  · rw [hlanes, h.lanes, List.flatMap_append, List.flatMap_append]
    rfl
  · have hfilter : (db.automaticDecoder.filter (·.1 ≠ last.id)).map (·.1) = before.map (·.id) := by
      have hbefore : ∀ n ∈ before.map (·.id), n ≠ last.id := by
        intro n hn
        obtain ⟨a, ha, rfl⟩ := List.mem_map.mp hn
        exact h.id_ne ha
      calc (db.automaticDecoder.filter (·.1 ≠ last.id)).map (·.1)
          = (db.automaticDecoder.map (·.1)).filter (· ≠ last.id) := by rw [List.filter_map]; rfl
        _ = before.map (·.id) := by
          rw [hids, List.filter_append, List.filter_eq_self.mpr fun n hn =>
            decide_eq_true (hbefore n hn)]
          simp
    rw [List.filter_eq_self.mpr fun d hd => decide_eq_true (hzero' d hd), hdecoders,
      List.map_append, hfilter, List.map_append]
    rfl
  · rw [hdecoders]
    intro a ha d hd heq
    rcases List.mem_append.mp ha with ha | ha
    · rcases List.mem_append.mp hd with hd | hd
      · exact h.statuses a (List.mem_append_left _ ha) d (List.mem_of_mem_filter hd) heq
      · rw [List.mem_singleton.mp hd] at heq
        exact absurd heq.symm (h.id_ne ha)
    · rw [List.mem_singleton.mp ha] at heq ⊢
      rcases List.mem_append.mp hd with hd | hd
      · exact absurd heq (of_decide_eq_true (List.mem_filter.mp hd).2)
      · rw [List.mem_singleton.mp hd]
        exact ⟨hstatus, hmode⟩
  · have := h.ids
    rwa [List.map_append, List.length_append] at this ⊢
  · intro a ha
    rcases List.mem_append.mp ha with ha | ha
    · exact h.valid a (List.mem_append_left _ ha)
    · rw [List.mem_singleton.mp ha]
      exact (h.valid last (by simp)).ended hstart hstop
  · have hchain := List.isChain_append.mp h.chain
    apply List.isChain_append.mpr
    refine ⟨hchain.1, List.isChain_singleton _, fun a ha b hb => ?_⟩
    cases hb
    exact hchain.2.2 a ha last rfl

end

/-! ## Calls -/

namespace SessionStore

open SpectrumProcessor (Libm)

variable {m : Libm K} {legacy : ReceiverConfig K} {s s' : SessionStore K} {u : Unit}
  {segments before : List (AcquisitionSegment K)} {segment last : AcquisitionSegment K}

omit [Field K] [LinearOrder K] in
/-- The tables that another connection reads. -/
def onDisk (s : SessionStore K) : Database K := if s.pending = true then s.committed else s.db

/-- A recording whose acquisitions are the given ones. -/
structure History (legacy : ReceiverConfig K) (s : SessionStore K)
    (segments : List (AcquisitionSegment K)) : Prop where
  recorded : Recorded legacy s.db segments
  committed : s.pending = true → SameAcquisitions s.db s.committed
  extended : s.acquisitionExtension = true
  current : s.acquisitionId = segments.length
  config : legacy.Agrees s.recordedConfig
  newest : ∀ last ∈ segments.getLast?, s.recordedConfig = last.config
  version : legacy.Rak → s.schemaVersion = 7
  clean : s.powerBlock.dirty = false

theorem History.onDisk (h : History legacy s segments) : Recorded legacy s.onDisk segments := by
  unfold SessionStore.onDisk
  split <;> rename_i hpending
  · exact h.recorded.congr (h.committed hpending)
  · exact h.recorded

/-- What an append leaves of the acquisitions. -/
structure Appended (s s' : SessionStore K) : Prop where
  tables : SameAcquisitions s.db s'.db
  committed : s'.pending = true → s'.committed = s.batch.committed
  extended : s'.acquisitionExtension = s.acquisitionExtension
  current : s'.acquisitionId = s.acquisitionId
  config : s'.recordedConfig = s.recordedConfig
  version : s'.schemaVersion = s.schemaVersion
  clean : s'.powerBlock.dirty = false

theorem appended_perform [FloorRing K] {call : Call K} (hclean : s.powerBlock.dirty = false)
    (hcall : call.Appends) (h : perform m call s = .ok u s') : Appended s s' := by
  cases call with
  | tile tile =>
    rcases (tile_accepted h).version with h5 | h6
    · obtain ⟨_, _, -, -, -, -, -, -, rfl⟩ := tile_detailed_ok h5 h
      exact ⟨⟨rfl, rfl, rfl, rfl⟩, fun _ => rfl, by simp [guarded], by simp [guarded],
        by simp [guarded], by simp [guarded], by simp [guarded, hclean]⟩
    · obtain ⟨-, -, -, -, rfl⟩ := tile_ok h6 hclean h
      exact ⟨⟨rfl, rfl, rfl, rfl⟩, fun _ => rfl, by simp [guarded], by simp [guarded],
        by simp [guarded], by simp [guarded], rfl⟩
  | event event =>
    obtain ⟨events, rfl⟩ := event_ok h
    exact ⟨⟨rfl, rfl, rfl, rfl⟩, fun _ => rfl, by simp, by simp, by simp, by simp,
      by simp [hclean]⟩
  | gap gap =>
    obtain ⟨-, rfl⟩ := gap_ok hclean h
    refine ⟨⟨rfl, rfl, rfl, rfl⟩, fun _ => rfl, by simp, by simp, by simp, by simp, ?_⟩
    dsimp only
    split
    · rfl
    · exact hclean
  | fix f =>
    by_cases hversion : s.schemaVersion = 5
    · obtain ⟨-, rfl⟩ | ⟨-, -, -, rfl⟩ := fix_detailed_ok hversion h
      · exact ⟨⟨rfl, rfl, rfl, rfl⟩, fun hp => by simp [batch, hp], rfl, rfl, rfl, rfl, hclean⟩
      · exact ⟨⟨rfl, rfl, rfl, rfl⟩, fun _ => rfl, by simp, by simp, by simp, by simp,
          by simp [hclean]⟩
    · obtain ⟨-, rfl⟩ | ⟨-, -, -, rfl⟩ := fix_ok hversion h
      · exact ⟨⟨rfl, rfl, rfl, rfl⟩, fun hp => by simp [batch, hp], rfl, rfl, rfl, rfl, hclean⟩
      · exact ⟨⟨rfl, rfl, rfl, rfl⟩, fun _ => rfl, by simp, by simp, by simp, by simp,
          by simp [hclean]⟩
  | scan scan =>
    obtain ⟨-, -, -, -, rfl⟩ := scan_ok h
    exact ⟨⟨rfl, rfl, rfl, rfl⟩, fun _ => rfl, by simp, by simp, by simp, by simp,
      by simp [hclean]⟩
  | reception reception =>
    obtain ⟨receptions, concentratorPackets, rfl⟩ := reception_ok h
    exact ⟨⟨rfl, rfl, rfl, rfl⟩, fun _ => rfl, by simp, by simp, by simp, by simp,
      by simp [hclean]⟩
  | other checks row =>
    obtain rfl := other_ok h
    exact ⟨⟨by simp, by simp, by simp, by simp⟩, fun _ => rfl, by simp, by simp, by simp, by simp,
      by simp [hclean]⟩
  | refuse refused => exact hcall.elim
  | enableAcquisitions => exact hcall.elim
  | beginAcquisition segment => exact hcall.elim
  | update snapshot final fault => exact hcall.elim

/-- An append keeps the history. -/
theorem History.append (h : History legacy s segments) (hs : Appended s s') :
    History legacy s' segments := by
  refine ⟨h.recorded.congr hs.tables, fun hp => ?_, hs.extended.trans h.extended,
    hs.current.trans h.current, by rw [hs.config]; exact h.config,
    by rw [hs.config]; exact h.newest,
    by rw [hs.version]; exact h.version, hs.clean⟩
  obtain ⟨hsegmented, hsegments, hlanes, hdecoders⟩ := hs.tables
  rw [hs.committed hp, batch_committed]
  split <;> rename_i hpending
  · exact ⟨hsegmented.symm, hsegments.symm, hlanes.symm, hdecoders.symm⟩
  · have hc := h.committed (eq_true_of_ne_false hpending)
    exact ⟨hc.segmented.trans hsegmented.symm, hc.segments.trans hsegments.symm,
      hc.lanes.trans hlanes.symm, hc.decoders.trans hdecoders.symm⟩

/-- An acquisition that begins is the last one. -/
theorem History.begin [FloorRing K] (h : History legacy s segments)
    (hs : beginAcquisition m segment s = .ok u s') : History legacy s' (segments ++ [segment]) ∧
      ValidAcquisition segment legacy := by
  obtain ⟨threshold, hthreshold, hchecks, -, rfl⟩ := begin_ok h.clean hs
  simp only [checkAcquisition, bind_eq_ok, reject_eq_ok, validateAcquisition_iff] at hchecks
  obtain ⟨_, -, _, hvalid, _, hprevious, hfirst⟩ := hchecks
  have hprevious : ∀ last ∈ segments.getLast?, segment.id = last.id + 1 ∧ Resumes last segment := by
    intro last hlast
    have hrow : savedSegment last ∈ s.db.segments.getLast? := by
      rw [h.recorded.rows, List.getLast?_map]
      exact Option.mem_map_of_mem _ hlast
    have hchecked := not_exists.mp hprevious (savedSegment last)
    rw [not_and, not_or, not_or, not_ne_iff, Bool.not_eq_false, not_lt] at hchecked
    exact hchecked hrow
  have hid : segment.id = segments.length + 1 := by
    cases hlast : segments.getLast? with
    | none =>
      rw [List.getLast?_eq_none_iff.mp hlast] at h ⊢
      exact not_ne_iff.mp fun hne => hfirst ⟨h.current, hne⟩
    | some last =>
      obtain ⟨before, rfl⟩ := List.getLast?_eq_some_iff.mp hlast
      rw [(hprevious last hlast).1, h.recorded.id_eq rfl, List.length_append,
        List.length_singleton]
  have hvalid' := hvalid.congr h.config
  have hrow : segmentRow segment threshold = savedSegment segment := by
    rw [savedSegment, hthreshold, Option.getD_some]
  refine ⟨⟨?_, fun hp => absurd hp Bool.false_ne_true, ?_, ?_, hvalid'.agrees, ?_,
    by simpa using h.version, rfl⟩, hvalid'⟩
  · rw [hrow]
    exact h.recorded.begin hvalid' hid (fun last hlast => (hprevious last hlast).2)
      h.recorded.segmented rfl rfl rfl
  · simpa using h.extended
  · rw [List.length_append, List.length_singleton]
    exact hid
  · intro last hlast
    rw [List.getLast?_append_of_ne_nil _ (List.cons_ne_nil segment []), List.getLast?_singleton] at hlast
    cases hlast
    rfl

/-- A checkpoint ends the last acquisition at its time. -/
theorem History.update {snapshot : Snapshot K} {final : Bool} {fault : Option String}
    (h : History legacy s (before ++ [last])) (hs : update snapshot final fault s = .ok u s')
    (hstart : last.elapsedStart ≤ snapshot.elapsedSeconds)
    (hstop : snapshot.elapsedSeconds ≤ 10 ^ 10) :
    History legacy s' (before ++ [last.ended snapshot.elapsedSeconds final]) := by
  obtain ⟨db, hchecks, hrows, rfl⟩ := update_ok hs
  obtain ⟨hstatus, _, _, _, _, _, _, rfl⟩ := updateRows_ok hrows
  simp only [checkUpdate, bind_eq_ok, reject_eq_ok, not_not] at hchecks
  obtain ⟨_, -, _, -, _, -, _, -, _, hmode, -⟩ := hchecks
  have hcurrent : s.acquisitionId = last.id := by
    rw [h.current, h.recorded.id_eq rfl, List.length_append, List.length_singleton]
  have hpos : last.id ≠ 0 := (h.recorded.valid last (by simp)).id_pos.ne'
  have hlast : s.recordedConfig = last.config := h.newest last (by simp)
  refine ⟨?_, fun hp => absurd hp Bool.false_ne_true, by simpa using h.extended, ?_,
    by simpa using h.config, ?_, by simpa using h.version, by simpa using h.clean⟩
  · apply h.recorded.update hstart hstop hstatus (hmode.trans (by rw [hlast]))
    · simpa using h.recorded.segmented
    · simp only [batch_db, batch_acquisitionExtension, batch_acquisitionId, h.extended, hcurrent,
        ne_eq, hpos, not_false_eq_true, and_self, if_true]
    · simp
    · simp [hcurrent]
  · rw [batch_acquisitionId, h.current, List.length_append, List.length_append]
    rfl
  · intro a ha
    rw [List.getLast?_append_of_ne_nil _ (List.cons_ne_nil _ []), List.getLast?_singleton] at ha
    cases ha
    rw [batch_recordedConfig]
    exact hlast

/-- A checkpoint that failed leaves the history as it was saved before. -/
theorem History.rollback {snapshot : Snapshot K} {final : Bool} {fault : Option String} {e : String}
    (h : History legacy s segments) (hs : SessionStore.update snapshot final fault s = .error e s') :
    History legacy s' segments := by
  rcases update_error hs with rfl | ⟨-, rfl⟩
  · exact h
  · have hsame : SameAcquisitions s.db s.batch.committed := by
      rw [batch_committed]
      split <;> rename_i hpending
      · exact ⟨rfl, rfl, rfl, rfl⟩
      · exact h.committed (eq_true_of_ne_false hpending)
    exact ⟨h.recorded.congr hsame, fun hp => absurd hp Bool.false_ne_true, by simpa using h.extended,
      by simpa using h.current, by simpa using h.config, by simpa using h.newest,
      by simpa using h.version, by simpa using h.clean⟩

/-- A recording whose acquisitions are enabled has none yet. -/
theorem history_create {c : ReceiverConfig K} {id : Text} {created : SessionStore K}
    (hcreate : create c id = .ok created) (hs : enableAcquisitions created = .ok u s) :
    History c s [] := by
  obtain ⟨threshold, -, hconfig, rfl⟩ := create_ok hcreate
  obtain ⟨hext, -⟩ | ⟨-, -, rfl⟩ := enable_ok hs
  · cases hext
  refine ⟨⟨rfl, rfl, rfl, rfl, fun hne => absurd rfl hne, by simp, rfl, by simp, fun hrak => ?_,
    .nil⟩, fun hp => absurd hp Bool.false_ne_true, rfl, rfl, .refl, by simp,
    fun hrak => by simp [hrak], rfl⟩
  unfold checkConfig at hconfig
  rw [if_pos hrak] at hconfig
  simp only [validateConcentratorConfig, bind_eq_ok, reject_eq_ok, not_or, not_lt] at hconfig
  obtain ⟨_, ⟨_, -, _, ⟨-, -, -, hspan, -⟩, -⟩, -⟩ := hconfig
  exact hspan

end SessionStore

end OVMesh
