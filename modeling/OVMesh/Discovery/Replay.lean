import OVMesh.Discovery.Balance

/-!
# The samples of the automatic decoders

What a started decoder is given: first from the history, then live, the samples of its segment from
its first one on, each once.

* `Fed`: the receiver of a decoder has been fed its chunks.
* `Tracks`: an active decoder has every sample since its first one.
* `Ended.Ok`: what a decoder had at its end.
* `decoder_samples`: all decoders of a run, and the ring of the history.
-/

namespace OVMesh

namespace Discovery

open Runs

section Replay

variable {K C δ : Type} [Field K] [LinearOrder K] [FloorRing K] [Zero C]
  (config : DecoderConfig K) (machine : Machine C δ)

/-- The samples that a decoder was given. -/
def Active.received (a : Active K C δ) : List C := a.chunks.flatten

/-- The receiver of a decoder is a new one that was fed the chunks. -/
def Fed (a : Active K C δ) : Prop :=
  a.phy = a.chunks.foldl (fun phy chunk => (machine.feed phy chunk).1)
    (Decoder.activeOf config machine a.waveform a.replayStart a.deadline).phy

/-- An active decoder has the samples of its segment from its first one on. -/
structure Tracks (base : ℕ) (stream : List C) (a : Active K C δ) : Prop where
  fed : Fed config machine a
  opened : a.completed = false
  base_le : base ≤ a.replayStart
  le_last : a.replayStart ≤ base + stream.length
  lt_deadline : base + stream.length < a.deadline
  received : a.received = stream.drop (a.replayStart - base)

/-- What a decoder had at its end: when it completed, samples from its first one on; when it timed
out, all up to its deadline; and when it was abandoned, all that there were. -/
structure Ended.Ok (e : Ended K C δ) : Prop where
  fed : Fed config machine e.decoder
  base_le : e.base ≤ e.decoder.replayStart
  completed : e.outcome = .completed →
    e.decoder.received <+: e.stream.drop (e.decoder.replayStart - e.base)
  timedOut : e.outcome = .timedOut → e.decoder.received =
    (e.stream.drop (e.decoder.replayStart - e.base)).take (e.decoder.deadline - e.decoder.replayStart)
  abandoned : e.outcome = .abandoned →
    e.decoder.received = e.stream.drop (e.decoder.replayStart - e.base)

variable {config machine} {d : Decoder K C δ} {decoder a : Active K C δ}
  {actives : List (Active K C δ)} {values stream : List C} {w : Waveform K}
  {first base last position fuel inputAnchor inputStride inputSegment : ℕ}

namespace Decoder

omit [Zero C] in
/-- What a block does for a decoder that has not completed. -/
theorem process_received (values : List C) (hopen : decoder.completed = false)
    (hfed : Fed config machine decoder) :
    ∃ counters frames phy completed, d.process config machine decoder values =
        ({ d with counters := counters, frames := frames },
          { decoder with
            phy := phy, chunks := decoder.chunks ++ [values], completed := completed }) ∧
      counters.started = d.counters.started ∧
      Fed config machine { decoder with
        phy := phy, chunks := decoder.chunks ++ [values], completed := completed } := by
  have hnext : ∀ completed, Fed config machine { decoder with
      phy := (machine.feed decoder.phy values).1, chunks := decoder.chunks ++ [values]
      completed := completed } := by
    intro completed
    rw [Fed] at hfed ⊢
    rw [List.foldl_append, ← hfed]
    rfl
  rcases process_cases config machine values (d := d) hopen with
    hprocess | ⟨crcValid, frames, -, hprocess⟩
  · exact ⟨d.counters, d.frames, _, _, hprocess, rfl, hnext _⟩
  · exact ⟨_, frames, _, true, hprocess, rfl, hnext true⟩

omit [Zero C] in
/-- A block for one decoder, up to its deadline. -/
theorem feedOne_received (values : List C) (hopen : decoder.completed = false)
    (hfed : Fed config machine decoder)
    (hfirst : first < decoder.deadline) :
    ∃ counters frames a, feedOne config machine first values d decoder =
        ({ d with counters := counters, frames := frames }, a) ∧
      counters.started = d.counters.started ∧ Fed config machine a ∧
      a.replayStart = decoder.replayStart ∧ a.deadline = decoder.deadline ∧
      a.received = decoder.received ++ values.take (decoder.deadline - first) := by
  rw [feedOne]
  simp only [if_neg (not_le.mpr hfirst)]
  split_ifs with hsome
  · obtain ⟨counters, frames, phy, completed, hprocess, hstarted, hfed'⟩ :=
      process_received (d := d) (values.take (min values.length (decoder.deadline - first))) hopen hfed
    refine ⟨counters, frames, _, hprocess, hstarted, hfed', rfl, rfl, ?_⟩
    rw [Nat.min_comm, ← List.take_take, List.take_length, Active.received, List.flatten_append,
      List.flatten_singleton]
    rfl
  · have hnil : values = [] := List.length_eq_zero_iff.mp (by omega)
    exact ⟨d.counters, d.frames, decoder, rfl, rfl, hfed, rfl, rfl, by simp [hnil]⟩

omit [Zero C] in
/-- The loop of `feed`, after the block has entered the stream: the decoders that go on track the
longer stream, and the others had what they should. -/
theorem feedActive_received (hlast : d.historyEnd = base + (stream ++ values).length)
    (hbase : d.base = base) (hstream : d.stream = stream ++ values)
    (hactives : ∀ a ∈ actives, Tracks config machine base stream a) :
    ∃ counters frames ended,
      (feedActive config machine (base + stream.length) values d actives).1 =
        { d with counters := counters, frames := frames, ended := d.ended ++ ended } ∧
      counters.started = d.counters.started ∧ (∀ e ∈ ended, e.Ok config machine) ∧
      ended.length + (feedActive config machine (base + stream.length) values d actives).2.length =
        actives.length ∧
      ∀ a ∈ (feedActive config machine (base + stream.length) values d actives).2,
        Tracks config machine base (stream ++ values) a := by
  induction actives generalizing d with
  | nil =>
    exact ⟨d.counters, d.frames, [], by rw [feedActive, List.append_nil], rfl,
      fun e he => absurd he List.not_mem_nil, rfl, fun a ha => absurd ha List.not_mem_nil⟩
  | cons decoder actives ih =>
    obtain ⟨hdecoder, hrest⟩ := List.forall_mem_cons.mp hactives
    obtain ⟨counters, frames, decoder', hone, hstarted, hfed, hstart, hdeadline, hreceived⟩ :=
      feedOne_received (d := d) values hdecoder.opened hdecoder.fed hdecoder.lt_deadline
    have hbase_le := hdecoder.base_le
    have hle_last := hdecoder.le_last
    have hlt := hdecoder.lt_deadline
    have hdrop : (stream ++ values).drop (decoder.replayStart - base) =
        stream.drop (decoder.replayStart - base) ++ values :=
      List.drop_append_of_le_length (by omega)
    rw [hdecoder.received] at hreceived
    rw [feedActive, hone]
    -- the decoder at its end, in each of the two ways
    have hended : ∀ outcome, (outcome = .completed ∨ outcome = .timedOut ∧
        decoder.deadline ≤ base + (stream ++ values).length) →
        Ended.Ok config machine ⟨decoder', outcome, base, stream ++ values⟩ := by
      intro outcome houtcome
      refine ⟨hfed, by rwa [hstart], fun hcompleted => ?_, fun htimedOut => ?_, fun habandoned => ?_⟩
      · rw [hstart, hdrop, hreceived]
        exact (List.prefix_append_right_inj _).mpr (List.take_prefix _ _)
      · have hcount : decoder.deadline - decoder.replayStart =
            (stream.drop (decoder.replayStart - base)).length +
              (decoder.deadline - (base + stream.length)) := by
          rw [List.length_drop]
          omega
        rw [hstart, hdeadline, hdrop, hreceived, hcount, List.take_length_add_append]
      · rcases houtcome with rfl | ⟨rfl, -⟩ <;> cases habandoned
    -- A decoder that completed its frame leaves the list, and so does one whose deadline has passed.
    by_cases hcompleted : decoder'.completed = true
    · simp only [hcompleted, if_true]
      obtain ⟨counters₂, frames₂, ended, hstate, hstarted₂, hok, hlength, htracks⟩ :=
        ih (d := retire { d with counters := counters, frames := frames } decoder' .completed)
          hlast hbase hstream hrest
      refine ⟨counters₂, frames₂, ⟨decoder', .completed, d.base, d.stream⟩ :: ended, ?_,
        hstarted₂.trans hstarted, List.forall_mem_cons.mpr ⟨?_, hok⟩, ?_, htracks⟩
      · rw [hstate]
        simp [retire]
      · rw [hbase, hstream]
        exact hended .completed (.inl rfl)
      · rw [List.length_cons, List.length_cons]
        omega
    have hopen' : decoder'.completed = false := by simpa using hcompleted
    by_cases hlate : d.historyEnd ≥ decoder.deadline
    · simp only [hopen', Bool.false_eq_true, if_false, if_pos hlate]
      obtain ⟨counters₂, frames₂, ended, hstate, hstarted₂, hok, hlength, htracks⟩ :=
        ih (d := timeout (retire { d with counters := counters, frames := frames } decoder' .timedOut))
          hlast hbase hstream hrest
      refine ⟨counters₂, frames₂, ⟨decoder', .timedOut, d.base, d.stream⟩ :: ended, ?_,
        hstarted₂.trans hstarted, List.forall_mem_cons.mpr ⟨?_, hok⟩, ?_, htracks⟩
      · rw [hstate]
        simp [retire, timeout]
      · rw [hbase, hstream]
        exact hended .timedOut (.inr ⟨rfl, by omega⟩)
      · rw [List.length_cons, List.length_cons]
        omega
    · simp only [hopen', Bool.false_eq_true, if_false, if_neg hlate]
      obtain ⟨counters₂, frames₂, ended, hstate, hstarted₂, hok, hlength, htracks⟩ :=
        ih (d := { d with counters := counters, frames := frames }) hlast hbase hstream hrest
      refine ⟨counters₂, frames₂, ended, hstate, hstarted₂.trans hstarted, hok, ?_,
        List.forall_mem_cons.mpr ⟨⟨hfed, hopen', by rwa [hstart], ?_, ?_, ?_⟩, htracks⟩⟩
      · rw [List.length_cons, List.length_cons]
        omega
      · rw [hstart, List.length_append]
        omega
      · rw [hdeadline]
        omega
      · rw [List.length_append] at hlast
        rw [hstart, hdrop, hreceived, List.take_of_length_le (by omega)]

omit [Zero C] in
/-- The whole stream has been replayed. -/
theorem replay_end (hfed : Fed config machine decoder) (hstream : base + stream.length = last)
    (hbase : base ≤ decoder.replayStart) (hstart : decoder.replayStart ≤ position)
    (hposition : last ≤ position) (hreceived : decoder.received =
      (stream.drop (decoder.replayStart - base)).take (position - decoder.replayStart)) :
    ∃ counters frames a, (d, decoder) = ({ d with counters := counters, frames := frames }, a) ∧
      counters.started = d.counters.started ∧ Fed config machine a ∧
      a.replayStart = decoder.replayStart ∧ a.deadline = decoder.deadline ∧
      a.received <+: stream.drop (decoder.replayStart - base) ∧
      (a.completed = false → a.received = stream.drop (decoder.replayStart - base)) := by
  have hall : decoder.received = stream.drop (decoder.replayStart - base) := by
    rw [hreceived, List.take_of_length_le]
    rw [List.length_drop]
    omega
  exact ⟨d.counters, d.frames, decoder, rfl, rfl, hfed, rfl, rfl, by rw [hall], fun _ => hall⟩

omit [Zero C] in
/-- The loop of `observe` over the history. -/
theorem replay_received (hopen : decoder.completed = false) (hfed : Fed config machine decoder)
    (hholds : Ring.Holds d.history stream base first last) (hfirst : first ≤ decoder.replayStart)
    (hstart : decoder.replayStart ≤ position) (hposition : position ≤ last)
    (hfuel : last - position ≤ fuel)
    (hreceived : decoder.received =
      (stream.drop (decoder.replayStart - base)).take (position - decoder.replayStart)) :
    ∃ counters frames a, replay config machine last fuel d decoder position =
        ({ d with counters := counters, frames := frames }, a) ∧
      counters.started = d.counters.started ∧ Fed config machine a ∧
      a.replayStart = decoder.replayStart ∧ a.deadline = decoder.deadline ∧
      a.received <+: stream.drop (decoder.replayStart - base) ∧
      (a.completed = false → a.received = stream.drop (decoder.replayStart - base)) := by
  have hbase := hholds.base_le
  have hlength := hholds.length
  induction fuel generalizing d decoder position with
  | zero => exact replay_end hfed hlength (by omega) hstart (by omega) hreceived
  | succ fuel ih =>
    rw [replay]
    by_cases hmore : position < last ∧ decoder.completed = false
    · rw [if_pos hmore]
      obtain ⟨counters, frames, phy, completed, hprocess, hstarted, hfed'⟩ :=
        process_received (d := d)
          (Ring.read d.history position (min maximumBlock (last - position))) hopen hfed
      have hread : Ring.read d.history position (min maximumBlock (last - position)) =
          (stream.drop (position - base)).take (min maximumBlock (last - position)) :=
        hholds.read (by omega) (by omega)
      -- With the block that is read the decoder has the stream up to the next position.
      have hnext : (decoder.chunks ++ [Ring.read d.history position
          (min maximumBlock (last - position))]).flatten =
          (stream.drop (decoder.replayStart - base)).take
            (position + min maximumBlock (last - position) - decoder.replayStart) := by
        have hsum : position + min maximumBlock (last - position) - decoder.replayStart =
            position - decoder.replayStart + min maximumBlock (last - position) := by omega
        have hindex : decoder.replayStart - base + (position - decoder.replayStart) =
            position - base := by omega
        rw [List.flatten_append, List.flatten_singleton, hread, hsum, List.take_add, List.drop_drop,
          hindex]
        exact congrArg (· ++ _) hreceived
      simp only [hprocess]
      -- A completed frame ends the replay, with the rest of the history unread.
      cases completed with
      | true =>
        rw [replay_completed config machine rfl]
        refine ⟨counters, frames, _, rfl, hstarted, hfed', rfl, rfl, ?_,
          fun hfalse => absurd hfalse Bool.noConfusion⟩
        rw [Active.received, hnext]
        exact List.take_prefix _ _
      | false =>
        have hblock : 0 < maximumBlock := by decide
        obtain ⟨counters₂, frames₂, a, hreplay, hstarted₂, hrest⟩ :=
          @ih { d with counters := counters, frames := frames }
            { decoder with
              phy := phy
              chunks := decoder.chunks ++ [Ring.read d.history position
                (min maximumBlock (last - position))]
              completed := false }
            (position + min maximumBlock (last - position)) rfl hfed' hholds hfirst
            (hstart.trans (Nat.le_add_right _ _)) (by omega) (by omega) hnext
        exact ⟨counters₂, frames₂, a, hreplay, hstarted₂.trans hstarted, hrest⟩
    · rw [if_neg hmore]
      have hend : last ≤ position := by
        by_contra hlt
        exact hmore ⟨not_le.mp hlt, hopen⟩
      exact replay_end hfed hlength (by omega) hstart hend hreceived

/-! ## Calls -/

/-- The history holds the end of the stream, the active decoders track it, and every started decoder
is active or was right at its end. -/
structure Inv (config : DecoderConfig K) (machine : Machine C δ) (d : Decoder K C δ) : Prop where
  holds : Ring.Holds d.history d.stream d.base d.historyBegin d.historyEnd
  length : config.enabled = true → d.history.length = config.capacity
  fresh : d.initialized = false → d.stream = [] ∧ d.active = []
  active : ∀ a ∈ d.active, Tracks config machine d.base d.stream a
  ended : ∀ e ∈ d.ended, e.Ok config machine
  started : d.counters.started < countMax → d.counters.started = d.active.length + d.ended.length

omit [Field K] [LinearOrder K] [FloorRing K] in
theorem reset_ended : d.reset.ended =
      d.ended ++ d.active.map (fun a => ⟨a, .abandoned, d.base, d.stream⟩) ∧
    d.reset.counters.started = d.counters.started ∧
    d.reset.history = Ring.wipe d.history d.historyBegin (d.historyEnd - d.historyBegin) 0 := by
  have hfold : ∀ (actives : List (Active K C δ)) (d : Decoder K C δ), ∃ counters,
      actives.foldl (fun d decoder =>
        { d.retire decoder .abandoned with
          counters := { d.counters with
            abandonedDecoders := increment d.counters.abandonedDecoders } }) d =
        { d with
          counters := counters
          ended := d.ended ++ actives.map (fun a => ⟨a, .abandoned, d.base, d.stream⟩) } ∧
      counters.started = d.counters.started := by
    intro actives
    induction actives with
    | nil => exact fun d => ⟨d.counters, by simp, rfl⟩
    | cons decoder actives ih =>
      intro d
      obtain ⟨counters, hstate, hstarted⟩ := ih { d.retire decoder .abandoned with
        counters := { d.counters with abandonedDecoders := increment d.counters.abandonedDecoders } }
      refine ⟨counters, ?_, hstarted⟩
      rw [List.foldl_cons, hstate]
      simp [retire]
  obtain ⟨counters, hstate, hstarted⟩ := hfold d.active { d with counters := { d.counters with
    resets := if d.initialized then increment d.counters.resets else d.counters.resets } }
  rw [reset]
  simp only [hstate]
  exact ⟨trivial, hstarted, trivial⟩

theorem inv_reset (h : d.Inv config machine) : d.reset.Inv config machine := by
  obtain ⟨hended, hstarted, hhistory⟩ := reset_ended (d := d)
  refine ⟨Ring.holds_nil 0, fun henabled => ?_, fun _ => ⟨rfl, rfl⟩,
    fun a ha => absurd ha List.not_mem_nil, fun e he => ?_, fun hmax => ?_⟩
  · rw [hhistory, Ring.length_wipe]
    exact h.length henabled
  · rw [hended] at he
    rcases List.mem_append.mp he with he | he
    · exact h.ended e he
    · obtain ⟨a, ha, rfl⟩ := List.mem_map.mp he
      have htracks := h.active a ha
      refine ⟨htracks.fed, htracks.base_le, fun houtcome => ?_, fun houtcome => ?_,
        fun _ => htracks.received⟩
      · cases houtcome
      · cases houtcome
  · rw [hstarted] at hmax
    rw [hstarted, h.started hmax, hended, reset_active, List.length_append, List.length_map,
      List.length_nil]
    omega

omit [Zero C] in
/-- A segment begins with an empty stream. -/
theorem inv_begin (h : d.Inv config machine) (hfresh : d.initialized = false) :
    Inv config machine { d with
      historyBegin := first, historyEnd := first, anchor := inputAnchor, stride := inputStride
      segment := inputSegment, initialized := true, base := first } := by
  obtain ⟨hstream, hactive⟩ := h.fresh hfresh
  refine ⟨?_, h.length, fun h => absurd h Bool.noConfusion, fun a ha => ?_, h.ended, h.started⟩
  · rw [hstream]
    exact Ring.holds_nil first
  · rw [hactive] at ha
    exact absurd ha List.not_mem_nil

theorem inv_enterSegment (h : d.Inv config machine) :
    (d.enterSegment first inputAnchor inputStride inputSegment).Inv config machine ∧
      (d.enterSegment first inputAnchor inputStride inputSegment).historyEnd = first ∧
      (d.enterSegment first inputAnchor inputStride inputSegment).initialized = true := by
  simp only [enterSegment]
  split_ifs with hbreak hreset hinitialized
  · exact absurd hreset Bool.noConfusion
  · exact ⟨inv_begin (inv_reset h) rfl, rfl, rfl⟩
  · refine ⟨h, ?_, hinitialized⟩
    by_contra hne
    exact hbreak ⟨hinitialized, .inl (Ne.symm hne)⟩
  · exact ⟨inv_begin h (by simpa using hinitialized), rfl, rfl⟩

omit [Zero C] in
/-- The samples of a block enter the history and the stream. -/
theorem holds_record (henabled : config.enabled = true) (h : d.Inv config machine) :
    Ring.Holds (d.record values).history (d.record values).stream d.base
      (d.record values).historyBegin (d.record values).historyEnd ∧
    (d.record values).history.length = config.capacity := by
  have hlength := h.length henabled
  have hpos : 0 < d.history.length := by
    have hcapacity := config.capacity_ge
    have hblock : 0 < maximumBlock := by decide
    omega
  have hwrite := h.holds.write hpos values
  have hfirst := h.holds.first_le
  refine ⟨?_, by rw [record, Ring.length_write, hlength]⟩
  simp only [record]
  have hbegin : (if d.historyEnd + values.length - d.historyBegin > d.history.length then
      d.historyEnd + values.length - d.history.length else d.historyBegin) =
      max d.historyBegin (d.historyEnd + values.length - d.history.length) := by
    split_ifs <;> omega
  rw [hbegin]
  exact hwrite

theorem inv_feedValues (henabled : config.enabled = true) (h : d.Inv config machine) :
    (d.feedValues config machine values first inputAnchor inputStride inputSegment).Inv config
      machine := by
  rw [feedValues]
  obtain ⟨henter, hfirst, hinitialized⟩ :=
    @inv_enterSegment _ _ _ _ _ _ _ _ _ d first inputAnchor inputStride inputSegment h
  generalize d.enterSegment first inputAnchor inputStride inputSegment = d₁
    at henter hfirst hinitialized
  have hrecord : Ring.Holds (d₁.record values).history (d₁.record values).stream d₁.base
      (d₁.record values).historyBegin (d₁.record values).historyEnd ∧
      (d₁.record values).history.length = config.capacity := holds_record henabled henter
  obtain ⟨hholds, hlength⟩ := hrecord
  have hend : d₁.base + d₁.stream.length = first := henter.holds.length.trans hfirst
  obtain ⟨counters, frames, ended, hstate, hstarted, hok, hcount, htracks⟩ :=
    @feedActive_received _ _ _ _ _ _ config machine { d₁.record values with active := [] } d₁.active
      values d₁.stream d₁.base hholds.length.symm rfl rfl henter.active
  rw [hend] at hstate hcount htracks
  change Inv config machine
    { (feedActive config machine first values { d₁.record values with active := [] } d₁.active).1 with
      active := (feedActive config machine first values { d₁.record values with active := [] }
        d₁.active).2 }
  generalize feedActive config machine first values _ d₁.active = fed at hstate hcount htracks ⊢
  obtain ⟨d₂, kept⟩ := fed
  simp only at hstate hcount htracks ⊢
  subst hstate
  refine ⟨hholds, fun _ => hlength, fun hfresh => ?_, htracks, fun e he => ?_, fun hmax => ?_⟩
  · exact absurd (hinitialized.symm.trans hfresh) Bool.noConfusion
  · rcases List.mem_append.mp he with he | he
    · exact henter.ended e he
    · exact hok e he
  · have hstarted' : counters.started = d₁.counters.started := hstarted
    have htotal := henter.started (by rw [← hstarted']; exact hmax)
    change counters.started = kept.length + (d₁.ended ++ ended).length
    rw [List.length_append]
    omega

omit [Zero C] in
theorem inv_launch {deadline : ℕ} (h : d.Inv config machine) (hinitialized : d.initialized = true)
    (hbegin : d.historyBegin ≤ position) (hlast : position ≤ d.historyEnd)
    (hdeadline : d.historyEnd < deadline) :
    (d.launch config machine w position deadline).Inv config machine := by
  have hnone : (activeOf config machine w position deadline).received =
      (d.stream.drop (position - d.base)).take (position - position) := by
    rw [Nat.sub_self]
    rfl
  obtain ⟨counters, frames, a, hreplay, hstarted, hfed, hstart, hdeadline', hprefix, hall⟩ :=
    @replay_received _ _ _ _ _ _ config machine (d.start w)
      (activeOf config machine w position deadline) d.stream d.historyBegin d.base d.historyEnd position
      (d.historyEnd - position) rfl rfl h.holds hbegin le_rfl hlast le_rfl hnone
  have hbase := h.holds.base_le.trans hbegin
  -- The counter is exact until it saturates, and what came before was exact as well.
  have htotal : counters.started < countMax →
      counters.started = d.active.length + 1 + d.ended.length := by
    intro hmax
    rw [hstarted] at hmax ⊢
    change increment d.counters.started < countMax at hmax
    change increment d.counters.started = _
    have hlt := (le_increment _).trans_lt hmax
    rw [increment_eq hlt, h.started hlt]
    omega
  rw [launch, hreplay]
  -- A decoder that ends within the history joins the ended ones at once; any other one stays active.
  cases hcompleted : a.completed with
  | true =>
    simp only [if_true]
    refine ⟨h.holds, h.length, fun hfresh => ?_, h.active, fun e he => ?_, fun hmax => ?_⟩
    · exact absurd (hinitialized.symm.trans hfresh) Bool.noConfusion
    · rcases List.mem_append.mp he with he | he
      · exact h.ended e he
      · rw [List.mem_singleton.mp he]
        refine ⟨hfed, ?_, fun _ => ?_, fun houtcome => ?_, fun houtcome => ?_⟩
        · rwa [hstart]
        · rw [hstart]
          exact hprefix
        · cases houtcome
        · cases houtcome
    · change counters.started = d.active.length + (d.ended ++ [_]).length
      rw [htotal hmax, List.length_append, List.length_singleton]
      omega
  | false =>
    simp only [Bool.false_eq_true, if_false]
    refine ⟨h.holds, h.length, fun hfresh => ?_, fun b hb => ?_, h.ended, fun hmax => ?_⟩
    · exact absurd (hinitialized.symm.trans hfresh) Bool.noConfusion
    · rcases List.mem_append.mp hb with hb | hb
      · exact h.active b hb
      · rw [List.mem_singleton.mp hb]
        have hend := h.holds.length
        refine ⟨hfed, hcompleted, ?_, ?_, ?_, ?_⟩
        · rwa [hstart]
        · rw [hstart]
          exact hlast.trans hend.symm.le
        · rw [hdeadline']
          exact hend.le.trans_lt hdeadline
        · rw [hstart]
          exact hall hcompleted
    · change counters.started = (d.active ++ [a]).length + d.ended.length
      rw [htotal hmax, List.length_append, List.length_singleton]

omit [Zero C] in
theorem inv_refuse {refusal : Refusal} (h : d.Inv config machine) :
    (d.refuse refusal).Inv config machine := by
  refine ⟨h.holds, h.length, h.fresh, h.active, h.ended, ?_⟩
  cases refusal <;> exact h.started

omit [Zero C] in
theorem inv_consider (h : d.Inv config machine) (hinitialized : d.initialized = true) :
    (d.consider config machine w).Inv config machine := by
  rw [consider]
  split
  · exact inv_refuse h
  · split_ifs with hrange howner hexcluded hrecent hfull hlate hmiss
    · exact inv_refuse h
    · exact inv_refuse h
    · exact inv_refuse h
    · exact inv_refuse h
    · exact inv_refuse h
    · exact inv_refuse h
    · exact inv_refuse h
    · simp only [not_or, not_lt] at hmiss
      exact inv_launch h hinitialized hmiss.1 hmiss.2.1 (not_le.mp hlate)

omit [FloorRing K] [Zero C] in
/-- A waveform is supported in a segment only. -/
theorem supported_initialized {found : LoRaDiscovery K} (h : d.supported found = some w) :
    d.initialized = true := by
  rw [supported] at h
  cases hwaveform : found.waveform with
  | none => simp [hwaveform] at h
  | some w' =>
    simp only [hwaveform, Option.bind_eq_bind, Option.bind_some] at h
    split_ifs at h with hchecks
    simp only [not_or] at hchecks
    simpa using hchecks.1

omit [Zero C] in
theorem inv_observe {found : LoRaDiscovery K} (h : d.Inv config machine) :
    (d.observe config machine found).Inv config machine := by
  have hcandidate : Inv config machine
      { d with counters := { d.counters with candidates := increment d.counters.candidates } } :=
    ⟨h.holds, h.length, h.fresh, h.active, h.ended, h.started⟩
  rw [observe]
  split_ifs
  · exact h
  · simp only
    split
    · exact inv_refuse hcandidate
    · exact inv_consider hcandidate (supported_initialized ‹_›)

theorem inv_feed (h : d.Inv config machine) :
    (d.feed config machine values first inputAnchor inputStride inputSegment).1.Inv config
      machine := by
  rw [feed]
  split_ifs with henabled
  · exact h
  · exact h
  · exact inv_reset h
  · exact inv_feedValues (by simpa using henabled) h

theorem inv_step (call : Call K C) (h : d.Inv config machine) :
    (d.step config machine call).Inv config machine := by
  cases call with
  | feed values first inputAnchor inputStride inputSegment => exact inv_feed h
  | observe found => exact inv_observe h
  | reset => exact inv_reset h

theorem inv_initial : (initial config : Decoder K C δ).Inv config machine := by
  refine ⟨Ring.holds_nil 0, fun henabled => ?_, fun _ => ⟨rfl, rfl⟩,
    fun a ha => absurd ha List.not_mem_nil, fun e he => absurd he List.not_mem_nil, fun _ => rfl⟩
  rw [initial, if_pos henabled, List.length_replicate]

end Decoder

/-- After any calls, a started decoder is active or ended. An active one has got the samples of its
segment from its first one on, in order and each once; so had one that was abandoned; one that timed
out had got them up to its deadline, and one that completed as many as it was given. The history has
sample `k` at `k` modulo its capacity. -/
theorem decoder_samples (calls : List (Call K C)) :
    let d := run (Decoder.step config machine) (Decoder.initial config) calls
    (∀ a ∈ d.active, a.replayStart ≤ d.historyEnd ∧ Fed config machine a ∧
      a.received = d.stream.drop (a.replayStart - d.base)) ∧
    (∀ e ∈ d.ended, Ended.Ok config machine e) ∧
    (d.counters.started < countMax → d.counters.started = d.active.length + d.ended.length) ∧
    (config.enabled = true → d.history.length = config.capacity ∧
      ∀ k, d.historyBegin ≤ k → k < d.historyEnd →
        k - d.base < d.stream.length ∧
          d.history[k % config.capacity]? = d.stream[k - d.base]?) := by
  intro d
  have hinv : d.Inv config machine :=
    @invariant_run _ _ (Decoder.step config machine) (Decoder.Inv config machine) _
      (fun _ call h => Decoder.inv_step call h) Decoder.inv_initial calls
  have hlast := hinv.holds.length
  have hbase := hinv.holds.base_le
  refine ⟨fun a ha => ?_, hinv.ended, hinv.started, fun henabled => ⟨hinv.length henabled, ?_⟩⟩
  · have htracks := hinv.active a ha
    exact ⟨htracks.le_last.trans hlast.le, htracks.fed, htracks.received⟩
  · intro k hfirst hk
    refine ⟨by omega, ?_⟩
    rw [← hinv.length henabled]
    exact hinv.holds.get k hfirst hk

end Replay

end Discovery

end OVMesh
