import OVMesh.Discovery.Channelizer

/-!
# The producer of the discovery worker

`produce`: the blocks of the source go through the channelizer, and the outputs of each subband are
staged and queued for the detectors in batches. The queue of a detector may be given up at any job, and
a producer that has thrown does nothing more.

* `Producer.step`: a block, or the end of the source.
* `JobOk`: a job has the outputs of its segment at their coordinates.
* `channelizer_coordinates`: the blocks of any chunking, and the jobs of any run.
-/

namespace OVMesh

namespace Discovery

open Runs Channelizer

/-- The samples that are collected for a detector job. -/
def detectorBatch : ℕ := 4096

/-- What the producer throws when the channelizer reports a discontinuity that it did not announce. -/
def channelizerDiscontinuity : String := "Unexpected experimental channelizer discontinuity"
/-- What the producer throws when discovery was stopped while it waited. -/
def discoveryStopped : String := "Experimental discovery stopped"

/-- `Staging`, with the values up to its count. -/
structure Staging (C : Type) where
  values : List C := []
  nextLocal : ℕ := 0
  anchor : ℕ := 0
  stride : ℕ := 0
  anchored : Bool := false

/-- `Job`: samples of one subband and segment for a detector, or the notice that the subband starts a new
segment. -/
structure Job (C : Type) where
  reset : Bool
  subband : ℕ
  segment : ℕ
  firstLocal : ℕ
  anchor : ℕ
  stride : ℕ
  values : List C

/-- The first block of a segment anchors the staging of its subband. -/
def Staging.anchorAt {C : Type} (pending : Staging C) (block : Samples C) : Staging C :=
  if pending.anchored then pending
  else { pending with
    anchor := block.firstInputSample, stride := block.inputSampleStride, anchored := true }

/-- What the producer owns. `jobs` are all that were queued, and `stretches` the first sample and the
samples of each segment, none of segment 0. -/
structure Producer (C : Type) where
  bank : Channelizer C
  staging : List (Staging C)
  jobs : List (Job C) := []
  segment : ℕ := 0
  expectedSource : ℕ := 0
  sourceInitialized : Bool := false
  error : Option String := none
  stretches : List (ℕ × List C) := [(0, [])]

/-- What reaches the producer: a block of samples, or the end of the input. -/
inductive ProducerEvent (C : Type)
  | block (values : List C) (first : ℕ)
  | close

section Producer

variable {C : Type} [Zero C] (config : ChannelizerConfig) (filter : FilterBank C)
  (stopped : ℕ → Bool)

namespace Producer

/-- A producer before its first block. -/
def initial : Producer C :=
  { bank := Channelizer.initial config, staging := List.replicate config.subbands {} }

/-- The staged samples of a subband become a job, or a reset does. -/
def enqueue (p : Producer C) (band : ℕ) (reset : Bool) : Producer C :=
  if p.error.isSome then p
  else if stopped p.jobs.length then { p with error := some discoveryStopped }
  else
    let pending := p.staging.getD band {}
    let job : Job C :=
      { reset := reset
        subband := band
        segment := p.segment
        firstLocal := pending.nextLocal
        anchor := pending.anchor
        stride := pending.stride
        values := if reset then [] else pending.values }
    { p with
      jobs := p.jobs ++ [job]
      staging :=
        if reset then p.staging
        else p.staging.set band
          { pending with nextLocal := pending.nextLocal + pending.values.length, values := [] } }

/-- The collected samples of every subband are queued. -/
def flushStaging (p : Producer C) : Producer C :=
  (List.range p.staging.length).foldl (fun p band =>
    if (p.staging.getD band {}).values.isEmpty then p else p.enqueue stopped band false) p

/-- The staging of a subband begins again. -/
def restage (p : Producer C) (band : ℕ) : Producer C :=
  if p.error.isSome then p
  else { p with staging := p.staging.set band {} }.enqueue stopped band true

/-- A new segment: what was collected is queued, the bank is reset, and every subband is told. -/
def newSegment (p : Producer C) (first : ℕ) : Producer C :=
  let p := p.flushStaging stopped
  if p.error.isSome then p
  else
    (List.range p.staging.length).foldl (restage stopped) { p with
      bank := p.bank.reset, sourceInitialized := true, expectedSource := first
      segment := p.segment + 1, stretches := p.stretches ++ [(first, [])] }

/-- The loop of `append`, with as much fuel as there are values. -/
def appendValues (band : ℕ) : ℕ → Producer C → List C → Producer C
  | 0, p, _ => p
  | fuel + 1, p, values =>
    if values.isEmpty ∨ p.error.isSome then p
    else
      let pending := p.staging.getD band {}
      let count := min values.length (detectorBatch - pending.values.length)
      let pending := { pending with values := pending.values ++ values.take count }
      let p := { p with staging := p.staging.set band pending }
      let p := if pending.values.length = detectorBatch then p.enqueue stopped band false else p
      appendValues band fuel p (values.drop count)

/-- `append`: the samples of a subband are collected, and a full batch is queued. -/
def append (p : Producer C) (block : Samples C) : Producer C :=
  if p.error.isSome then p
  else
    let pending := (p.staging.getD block.subbandIndex {}).anchorAt block
    let p := { p with staging := p.staging.set block.subbandIndex pending }
    let expected :=
      (pending.anchor + (pending.nextLocal + pending.values.length) * pending.stride) % 2 ^ 64
    if block.firstInputSample ≠ expected ∨ block.inputSampleStride ≠ pending.stride then
      { p with error := some channelizerDiscontinuity }
    else appendValues stopped block.subbandIndex block.values.length p block.values

/-- The samples of a block belong to the newest segment. -/
def extendStretch (p : Producer C) (values : List C) : Producer C :=
  { p with stretches :=
    p.stretches.modify p.segment fun stretch => (stretch.1, stretch.2 ++ values) }

/-- The loop of `produce`: one block of the source. -/
def produce (p : Producer C) (values : List C) (first : ℕ) : Producer C :=
  if p.error.isSome then p
  else
    let p :=
      if p.sourceInitialized = false ∨ first ≠ p.expectedSource then p.newSegment stopped first else p
    if p.error.isSome then p
    else
      let fed := feed config filter p.bank values first
      let p := fed.delivered.foldl (append stopped) { p.extendStretch values with bank := fed.bank }
      if p.error.isSome then p
      else
        match fed.error with
        | some error => { p with error := some error }
        | none => { p with expectedSource := first + values.length }

/-- One event of the producer. -/
def step (p : Producer C) : ProducerEvent C → Producer C
  | .block values first => p.produce config filter stopped values first
  | .close => if p.error.isSome then p else p.flushStaging stopped

end Producer

/-! ## Jobs -/

/-- A job has the outputs of its segment and its subband from its first local sample on, and its
coordinates are those of the segment. -/
def JobOk (stretches : List (ℕ × List C)) (job : Job C) : Prop :=
  ∃ first stretch, stretches[job.segment]? = some (first, stretch) ∧
    job.anchor = coordinate config first 0 ∧ job.stride = config.stride ∧
    job.values = ((outputsOf config filter stretch job.subband).drop job.firstLocal).take
      job.values.length ∧
    job.firstLocal + job.values.length ≤ outputCount config stretch.length

/-- The staging of a subband, after some outputs of its segment. -/
structure StageOk (first : ℕ) (got : List C) (pending : Staging C) : Prop where
  total : pending.nextLocal + pending.values.length = got.length
  values : pending.values = got.drop pending.nextLocal
  anchor : pending.anchored = true →
    pending.anchor = coordinate config first 0 ∧ pending.stride = config.stride
  fresh : pending.anchored = false → got = []

/-- The producer has staged or queued some outputs of its newest segment. -/
structure Staged (first : ℕ) (stretch : List C) (got : ℕ → List C) (p : Producer C) : Prop where
  length : p.staging.length = config.subbands
  segments : p.stretches.length = p.segment + 1
  last : p.stretches[p.segment]? = some (first, stretch)
  band : ∀ i, StageOk config first (got i) (p.staging.getD i {})
  early : ∀ i, got i <+: outputsOf config filter stretch i

/-- Every job with samples holds a stretch of what its subband's filter gave. -/
def JobsOk (p : Producer C) : Prop :=
  ∀ job ∈ p.jobs, job.reset = false → JobOk config filter p.stretches job

/-- No batch waits. -/
def Short (p : Producer C) : Prop := ∀ i, (p.staging.getD i {}).values.length < detectorBatch

/-- What queueing changes: jobs and staging, or the queue is given up. -/
structure Kept (first : ℕ) (stretch : List C) (got : ℕ → List C) (p q : Producer C) : Prop where
  same : ∃ jobs staging error, q = { p with jobs := jobs, staging := staging, error := error }
  jobs : JobsOk config filter q
  ended : q.error = none ∧ Staged config filter first stretch got q ∧ Short q ∨
    q.error = some discoveryStopped

variable {config filter stopped} {p q r : Producer C} {pending : Staging C} {block : Samples C}
  {stretch full values more : List C} {got got' : ℕ → List C} {first band j : ℕ}

/-- The coordinates of a stretch are an arithmetic progression. -/
theorem coordinate_eq : coordinate config first j = coordinate config first 0 + j * config.stride := by
  rw [← coordinate_add, Nat.zero_add]

omit [Zero C] in
/-- The coordinate of an output is before the end of its samples. -/
theorem coordinate_lt (h : j < outputCount config stretch.length) :
    coordinate config first j < first + stretch.length := by
  have hle := samplesTo_le h
  have hpos := config.stride_pos
  have hmul : (tapsPerPhase + 1 + j) * config.stride ≤ (2 * tapsPerPhase + 1 + j) * config.stride :=
    Nat.mul_le_mul_right _ (by omega)
  have hone : config.stride ≤ (tapsPerPhase + 1 + j) * config.stride :=
    Nat.le_mul_of_pos_left _ (by omega)
  rw [samplesTo] at hle
  rw [coordinate]
  omega

theorem getD_set {α : Type} {l : List α} {i j : ℕ} {x d : α} (hi : i < l.length) :
    (l.set i x).getD j d = if j = i then x else l.getD j d := by
  rw [List.getD_eq_getElem?_getD, List.getD_eq_getElem?_getD]
  split_ifs with hj
  · subst hj
    rw [List.getElem?_set_self hi]
    rfl
  · rw [List.getElem?_set_ne (Ne.symm hj)]

omit [Zero C] in
theorem StageOk.extend (h : StageOk config first stretch pending) (hanchored : pending.anchored = true) :
    StageOk config first (stretch ++ more) { pending with values := pending.values ++ more } := by
  have htotal := h.total
  refine ⟨?_, ?_, h.anchor, fun hfresh => ?_⟩
  · change pending.nextLocal + (pending.values ++ more).length = (stretch ++ more).length
    rw [List.length_append, List.length_append]
    omega
  · change pending.values ++ more = (stretch ++ more).drop pending.nextLocal
    rw [List.drop_append_of_le_length (by omega), ← h.values]
  · exact absurd (hanchored.symm.trans hfresh) Bool.noConfusion

omit [Zero C] in
theorem StageOk.queued (h : StageOk config first stretch pending) :
    StageOk config first stretch
      { pending with nextLocal := pending.nextLocal + pending.values.length, values := [] } := by
  refine ⟨h.total, ?_, h.anchor, h.fresh⟩
  exact (List.drop_eq_nil_of_le h.total.ge).symm

omit [Zero C] in
theorem StageOk.anchored (h : StageOk config first stretch pending) (hne : stretch ≠ []) :
    pending.anchored = true := by
  cases hanchored : pending.anchored with
  | true => rfl
  | false => exact absurd (h.fresh hanchored) hne

omit [Zero C] in
/-- Staged samples are a job of their segment. -/
theorem StageOk.job {stretches : List (ℕ × List C)} {segment : ℕ}
    (h : StageOk config first stretch pending) (hvalues : pending.values ≠ [])
    (hlast : stretches[segment]? = some (first, full))
    (hearly : stretch <+: outputsOf config filter full band) :
    JobOk config filter stretches
      ⟨false, band, segment, pending.nextLocal, pending.anchor, pending.stride, pending.values⟩ := by
  have htotal := h.total
  have hne : stretch ≠ [] := by
    intro hnil
    have hnone := h.values
    rw [hnil, List.drop_nil] at hnone
    exact hvalues hnone
  obtain ⟨hanchor, hstride⟩ := h.anchor (h.anchored hne)
  obtain ⟨rest, hrest⟩ := hearly
  refine ⟨first, full, hlast, hanchor, hstride, ?_, ?_⟩
  · change pending.values = ((outputsOf config filter full band).drop pending.nextLocal).take
      pending.values.length
    rw [← hrest, List.drop_append_of_le_length (by omega), ← h.values, List.take_left]
  · rw [← @length_outputsOf _ config filter full band, ← hrest, List.length_append]
    change pending.nextLocal + pending.values.length ≤ _
    omega

/-! ## Queueing -/

namespace Producer

omit [Zero C] in
theorem kept_of_same (h : ∃ jobs staging error,
      q = { p with jobs := jobs, staging := staging, error := error })
    (h' : Kept config filter first full got q r) : Kept config filter first full got p r := by
  obtain ⟨jobs, staging, error, rfl⟩ := h
  obtain ⟨jobs', staging', error', rfl⟩ := h'.same
  exact ⟨⟨jobs', staging', error', rfl⟩, h'.jobs, h'.ended⟩

omit [Zero C] in
/-- A batch is queued: it is a job, and nothing is staged any more. -/
theorem enqueue_kept (hjobs : JobsOk config filter p) (hstaged : Staged config filter first full got p)
    (herror : p.error = none) (hband : band < config.subbands)
    (hvalues : (p.staging.getD band {}).values ≠ [])
    (hshort : ∀ i, i ≠ band → (p.staging.getD i {}).values.length < detectorBatch) :
    Kept config filter first full got p (p.enqueue stopped band false) := by
  rw [enqueue, herror]
  simp only [Option.isSome_none, Bool.false_eq_true, if_false]
  split_ifs with hstop
  · exact ⟨⟨p.jobs, p.staging, _, rfl⟩, hjobs, .inr rfl⟩
  have hlt : band < p.staging.length := by rwa [hstaged.length]
  refine ⟨⟨_, _, none, rfl⟩, fun job hjob hreset => ?_, .inl ⟨rfl, ?_, fun i => ?_⟩⟩
  · rcases List.mem_append.mp hjob with hjob | hjob
    · exact hjobs job hjob hreset
    · rw [List.mem_singleton.mp hjob]
      exact (hstaged.band band).job hvalues hstaged.last (hstaged.early band)
  · refine ⟨by rw [List.length_set, hstaged.length], hstaged.segments, hstaged.last, fun i => ?_,
      hstaged.early⟩
    rw [getD_set hlt]
    split_ifs with hi
    · subst hi
      exact (hstaged.band i).queued
    · exact hstaged.band i
  · simp only
    rw [getD_set hlt]
    split_ifs with hi
    · exact Nat.zero_lt_succ _
    · exact hshort i hi

omit [Zero C] in
/-- A loop over the subbands. -/
theorem foldl_kept {f : Producer C → ℕ → Producer C} {bands : List ℕ}
    (hstep : ∀ q band, q.error = none → JobsOk config filter q →
      Staged config filter first full got q → Short q → band ∈ bands →
      Kept config filter first full got q (f q band))
    (hstopped : ∀ q band, q.error = some discoveryStopped → f q band = q)
    (h : Kept config filter first full got p q) :
    Kept config filter first full got p (bands.foldl f q) := by
  induction bands generalizing q with
  | nil => exact h
  | cons band bands ih =>
    refine ih (fun q band herror hjobs hstaged hshort hmem =>
      hstep q band herror hjobs hstaged hshort (List.mem_cons_of_mem _ hmem)) ?_
    rcases h.ended with ⟨herror, hstaged, hshort⟩ | herror
    · exact kept_of_same h.same (hstep q band herror h.jobs hstaged hshort List.mem_cons_self)
    · rw [hstopped q band herror]
      exact h

variable (stopped) in
omit [Zero C] in
theorem flushStaging_kept (hjobs : JobsOk config filter p)
    (hstaged : Staged config filter first full got p) (hshort : Short p) (herror : p.error = none) :
    Kept config filter first full got p (p.flushStaging stopped) := by
  refine foldl_kept (fun q band hnone hq hstagedq hshortq hmem => ?_) (fun q band hstop => ?_)
    ⟨⟨p.jobs, p.staging, p.error, rfl⟩, hjobs, .inl ⟨herror, hstaged, hshort⟩⟩
  · rw [List.mem_range, hstaged.length] at hmem
    cases hempty : (q.staging.getD band {}).values.isEmpty with
    | true =>
      rw [if_pos rfl]
      exact ⟨⟨q.jobs, q.staging, q.error, rfl⟩, hq, .inl ⟨hnone, hstagedq, hshortq⟩⟩
    | false =>
      rw [if_neg Bool.false_ne_true]
      exact enqueue_kept hq hstagedq hnone hmem (List.isEmpty_eq_false_iff.mp hempty)
        fun i _ => hshortq i
  · rw [enqueue, hstop]
    simp

omit [Zero C] in
theorem appendValues_stopped {fuel : ℕ} (h : p.error = some discoveryStopped) :
    p.appendValues stopped band fuel values = p := by
  cases fuel with
  | zero => rfl
  | succ fuel => rw [appendValues, if_pos (.inr (by rw [h]; rfl))]

variable (stopped) in
omit [Zero C] in
/-- Some values are staged, and queued when they are a batch. -/
theorem batch_kept (hjobs : JobsOk config filter p) (hstaged : Staged config filter first full got p)
    (hshort : Short p) (herror : p.error = none) (hband : band < config.subbands)
    (hanchored : (p.staging.getD band {}).anchored = true)
    (hearly : got band ++ values <+: outputsOf config filter full band)
    (hroom : (p.staging.getD band {}).values.length + values.length ≤ detectorBatch) :
    let pending := { p.staging.getD band {} with
      values := (p.staging.getD band {}).values ++ values }
    let p₁ := { p with staging := p.staging.set band pending }
    Kept config filter first full (Function.update got band (got band ++ values)) p
      (if pending.values.length = detectorBatch then p₁.enqueue stopped band false else p₁) := by
  intro pending p₁
  have hlt : band < p.staging.length := by rwa [hstaged.length]
  have hstage : ∀ i, p₁.staging.getD i {} = if i = band then pending else p.staging.getD i {} :=
    fun i => getD_set hlt
  have hlength : pending.values.length = (p.staging.getD band {}).values.length + values.length :=
    List.length_append
  have hstaged₁ : Staged config filter first full
      (Function.update got band (got band ++ values)) p₁ := by
    refine ⟨List.length_set.trans hstaged.length, hstaged.segments, hstaged.last, fun i => ?_,
      fun i => ?_⟩
    · rw [hstage]
      split_ifs with hi
      · subst hi
        rw [Function.update_self]
        exact (hstaged.band i).extend hanchored
      · rw [Function.update_of_ne hi]
        exact hstaged.band i
    · by_cases hi : i = band
      · subst hi
        rwa [Function.update_self]
      · rw [Function.update_of_ne hi]
        exact hstaged.early i
  have hshort₁ : ∀ i, i ≠ band → (p₁.staging.getD i {}).values.length < detectorBatch := by
    intro i hi
    rw [hstage, if_neg hi]
    exact hshort i
  refine kept_of_same ⟨p.jobs, p₁.staging, p.error, rfl⟩ ?_
  -- A full batch becomes a job, and a shorter one stays staged.
  by_cases hfull : pending.values.length = detectorBatch
  · rw [if_pos hfull]
    refine enqueue_kept hjobs hstaged₁ herror hband ?_ hshort₁
    rw [hstage, if_pos rfl]
    exact List.length_pos_iff.mp (hfull ▸ Nat.zero_lt_succ _)
  · rw [if_neg hfull]
    refine ⟨⟨p.jobs, p₁.staging, p.error, rfl⟩, hjobs, .inl ⟨herror, hstaged₁, fun i => ?_⟩⟩
    by_cases hi : i = band
    · rw [hstage, if_pos hi]
      omega
    · exact hshort₁ i hi

omit [Zero C] in
/-- The values of a block are staged and queued in batches. -/
theorem appendValues_kept {fuel : ℕ} (hjobs : JobsOk config filter p)
    (hstaged : Staged config filter first full got p) (hshort : Short p) (herror : p.error = none)
    (hband : band < config.subbands) (hanchored : (p.staging.getD band {}).anchored = true)
    (hearly : got band ++ values <+: outputsOf config filter full band)
    (hfuel : values.length ≤ fuel) :
    Kept config filter first full (Function.update got band (got band ++ values)) p
      (p.appendValues stopped band fuel values) := by
  have hnone : Kept config filter first full (Function.update got band (got band ++ [])) p p := by
    rw [List.append_nil, Function.update_eq_self]
    exact ⟨⟨p.jobs, p.staging, p.error, rfl⟩, hjobs, .inl ⟨herror, hstaged, hshort⟩⟩
  induction fuel generalizing p got values with
  | zero =>
    obtain rfl := List.length_eq_zero_iff.mp (Nat.le_zero.mp hfuel)
    exact hnone
  | succ fuel ih =>
    rw [appendValues]
    by_cases hempty : values = []
    · subst hempty
      rw [if_pos (.inl rfl)]
      exact hnone
    rw [if_neg (by simp [hempty, herror])]
    have hshortBand := hshort band
    have hpos := List.length_pos_iff.mpr hempty
    have hsplit := List.take_append_drop
      (min values.length (detectorBatch - (p.staging.getD band {}).values.length)) values
    generalize hcount : min values.length (detectorBatch - (p.staging.getD band {}).values.length) =
      count at hsplit
    have htake : (values.take count).length = count := by
      rw [List.length_take]
      omega
    have hpart : got band ++ values.take count <+: outputsOf config filter full band :=
      ((List.prefix_append_right_inj _).mpr (List.take_prefix _ _)).trans hearly
    -- One round moves as many values as the batch has room for; the rest is the induction hypothesis at
    -- the taken prefix, unless the producer stopped on a full queue.
    have hbatch := batch_kept stopped hjobs hstaged hshort herror hband hanchored hpart
      (by rw [htake]; omega)
    have hgot : Function.update got band (got band ++ values.take count) band =
        got band ++ values.take count := Function.update_self _ _ _
    simp only at hbatch ⊢
    rw [hcount]
    generalize (if _ = detectorBatch then _ else _ : Producer C) = p₂ at hbatch ⊢
    have hnext : Function.update (Function.update got band (got band ++ values.take count)) band
        (Function.update got band (got band ++ values.take count) band ++ values.drop count) =
        Function.update got band (got band ++ values) := by
      rw [hgot, Function.update_idem, List.append_assoc, hsplit]
    rw [← hnext]
    rcases hbatch.ended with ⟨herror₂, hstaged₂, hshort₂⟩ | herror₂
    · have hstage₂ := hstaged₂.band band
      rw [hgot] at hstage₂
      have hne : got band ++ values.take count ≠ [] := by
        refine List.length_pos_iff.mp ?_
        rw [List.length_append, htake]
        omega
      refine kept_of_same hbatch.same (ih hbatch.jobs hstaged₂ hshort₂ herror₂ (hstage₂.anchored hne)
        ?_ ?_ ?_)
      · rw [hgot, List.append_assoc, hsplit]
        exact hearly
      · rw [List.length_drop]
        omega
      · rw [List.append_nil, Function.update_eq_self]
        exact ⟨⟨p₂.jobs, p₂.staging, p₂.error, rfl⟩, hbatch.jobs,
          .inl ⟨herror₂, hstaged₂, hshort₂⟩⟩
    · rw [appendValues_stopped herror₂]
      exact ⟨hbatch.same, hbatch.jobs, .inr herror₂⟩

omit [Zero C] in
/-- A block of the channelizer is where its staging goes on. -/
theorem append_kept (hjobs : JobsOk config filter p) (hstaged : Staged config filter first full got p)
    (hshort : Short p) (herror : p.error = none)
    (htime : OnTime config filter first full got block) (hlast : first + full.length ≤ 2 ^ 64 - 1) :
    Kept config filter first full (receive got block) p (p.append stopped block) := by
  have hlt : block.subbandIndex < p.staging.length := by
    rw [hstaged.length]
    exact htime.subband
  have hstage := hstaged.band block.subbandIndex
  rw [append, if_neg (by simp [herror])]
  generalize hpending : (p.staging.getD block.subbandIndex {}).anchorAt block = pending
  rw [Staging.anchorAt] at hpending
  have hanchored : pending.anchored = true := by
    rw [← hpending]
    split_ifs with h
    · exact h
    · rfl
  -- A batch that is empty takes its anchor from the block; any other has the anchor of its first
  -- sample.
  have hok : StageOk config first (got block.subbandIndex) pending := by
    rw [← hpending]
    split_ifs with h
    · exact hstage
    · have hnone := hstage.fresh (by simpa using h)
      refine ⟨hstage.total, hstage.values, fun _ => ⟨?_, htime.stride⟩, fun h => ?_⟩
      · change block.firstInputSample = _
        rw [htime.first, hnone]
        rfl
      · exact absurd h Bool.noConfusion
  have hvalues : pending.values = (p.staging.getD block.subbandIndex {}).values := by
    rw [← hpending]
    split_ifs <;> rfl
  obtain ⟨hanchor, hstride⟩ := hok.anchor hanchored
  -- The block begins where the batch ends, so the test for a discontinuity passes.
  have hexpected : pending.anchor + (pending.nextLocal + pending.values.length) * pending.stride =
      block.firstInputSample := by
    rw [htime.first, hok.total, hanchor, hstride, ← coordinate_eq]
  have hbound : block.firstInputSample < 2 ^ 64 := by
    have hcount := htime.next.length_le
    have hpos := List.length_pos_iff.mpr htime.values
    rw [List.length_append, length_outputsOf] at hcount
    have hlt : coordinate config first (got block.subbandIndex).length < first + full.length :=
      coordinate_lt (by omega)
    rw [htime.first]
    omega
  have hnot : ¬ (block.firstInputSample ≠
      (pending.anchor + (pending.nextLocal + pending.values.length) * pending.stride) % 2 ^ 64 ∨
      block.inputSampleStride ≠ pending.stride) := by
    rw [hexpected, Nat.mod_eq_of_lt hbound, htime.stride, hstride]
    simp
  simp only [if_neg hnot]
  have hset : ∀ i, (p.staging.set block.subbandIndex pending).getD i {} =
      if i = block.subbandIndex then pending else p.staging.getD i {} := fun i => getD_set hlt
  refine kept_of_same ⟨p.jobs, _, p.error, rfl⟩ (appendValues_kept hjobs ?_ (fun i => ?_) herror
    htime.subband ?_ htime.next le_rfl)
  · refine ⟨List.length_set.trans hstaged.length, hstaged.segments, hstaged.last, fun i => ?_,
      hstaged.early⟩
    rw [hset]
    split_ifs with hi
    · rwa [hi]
    · exact hstaged.band i
  · simp only [hset]
    split_ifs with hi
    · rw [hvalues]
      exact hshort _
    · exact hshort i
  · rw [hset, if_pos rfl]
    exact hanchored

omit [Zero C] in
/-- What a call of the channelizer delivers. -/
theorem foldl_append_kept {blocks : List (Samples C)}
    (halong : Along receive (OnTime config filter first full) got blocks)
    (hlast : first + full.length ≤ 2 ^ 64 - 1) (h : Kept config filter first full got p q) :
    Kept config filter first full (run receive got blocks) p (blocks.foldl (append stopped) q) := by
  induction blocks generalizing got q with
  | nil => exact h
  | cons block blocks ih =>
    refine ih halong.2 ?_
    rcases h.ended with ⟨herror, hstaged, hshort⟩ | herror
    · exact kept_of_same h.same (append_kept h.jobs hstaged hshort herror halong.1 hlast)
    · rw [append, if_pos (by rw [herror]; rfl)]
      exact ⟨h.same, h.jobs, .inr herror⟩

/-! ## Segments -/

omit [Zero C] in
/-- The jobs of the segments so far stay right when a segment goes on or one is added. -/
theorem jobsOk_mono {stretches : List (ℕ × List C)} (h : JobsOk config filter p)
    (hgrow : ∀ (segment first : ℕ) (stretch : List C), p.stretches[segment]? = some (first, stretch) →
      ∃ more, stretches[segment]? = some (first, stretch ++ more)) :
    JobsOk config filter { p with stretches := stretches } := by
  intro job hjob hreset
  obtain ⟨first, stretch, hstretch, hanchor, hstride, hvalues, hlength⟩ := h job hjob hreset
  obtain ⟨more, hmore⟩ := hgrow job.segment first stretch hstretch
  refine ⟨first, stretch ++ more, hmore, hanchor, hstride, ?_, hlength.trans (outputCount_mono ?_)⟩
  · obtain ⟨rest, hrest⟩ := @outputsOf_grows _ config filter stretch more job.subband
    have htotal := @length_outputsOf _ config filter stretch job.subband
    rw [← hrest, List.drop_append_of_le_length (by omega),
      List.take_append_of_le_length (by rw [List.length_drop]; omega)]
    exact hvalues
  · rw [List.length_append]
    omega

variable (values) in
omit [Zero C] in
/-- The newest segment goes on. -/
theorem extendStretch_spec (hjobs : JobsOk config filter p)
    (hstaged : Staged config filter first stretch got p) :
    JobsOk config filter (p.extendStretch values) ∧
      Staged config filter first (stretch ++ values) got (p.extendStretch values) := by
  have hget : ∀ i, (p.extendStretch values).stretches[i]? =
      if p.segment = i then (p.stretches[i]?).map fun stretch => (stretch.1, stretch.2 ++ values)
      else p.stretches[i]? := by
    intro i
    rw [extendStretch]
    simp only [List.getElem?_modify]
    split_ifs
    · rfl
    · exact Option.map_id'
  refine ⟨jobsOk_mono hjobs fun i first stretch hi => ?_, hstaged.length, ?_, ?_, hstaged.band,
    fun i => (hstaged.early i).trans outputsOf_grows⟩
  · have hgrown := hget i
    rw [hi] at hgrown
    split_ifs at hgrown with heq
    · exact ⟨values, hgrown⟩
    · exact ⟨[], by rw [List.append_nil]; exact hgrown⟩
  · rw [extendStretch, List.length_modify]
    exact hstaged.segments
  · have hgrown := hget p.segment
    rw [if_pos rfl, hstaged.last] at hgrown
    exact hgrown

variable (stopped) in
omit [Zero C] in
theorem restage_cases (herror : p.error = none) (hband : band < p.staging.length) :
    p.restage stopped band =
        { p with staging := p.staging.set band {}, error := some discoveryStopped } ∨
    p.restage stopped band = { p with
      jobs := p.jobs ++ [⟨true, band, p.segment, 0, 0, 0, []⟩], staging := p.staging.set band {} } := by
  have hget : (p.staging.set band ({} : Staging C)).getD band {} = {} := by
    rw [getD_set hband, if_pos rfl]
  rw [restage, if_neg (by simp [herror]), enqueue, if_neg (by simp [herror])]
  split_ifs with hstop
  · exact .inl rfl
  · simp only [hget]
    exact .inr trivial
  · exact absurd rfl ‹¬ true = true›

omit [Zero C] in
theorem restage_stopped (h : p.error = some discoveryStopped) : p.restage stopped band = p := by
  rw [restage, if_pos (by rw [h]; rfl)]

variable (stopped) in
omit [Zero C] in
/-- The reset jobs of a new segment: the staging of each subband begins again. -/
theorem restage_spec {bands : List ℕ} (hjobs : JobsOk config filter p) (herror : p.error = none)
    (hbands : ∀ band ∈ bands, band < p.staging.length) :
    ∃ jobs staging error, bands.foldl (restage stopped) p =
        { p with jobs := jobs, staging := staging, error := error } ∧
      JobsOk config filter (bands.foldl (restage stopped) p) ∧
      (error = some discoveryStopped ∨ error = none ∧ staging.length = p.staging.length ∧
        ∀ i, staging.getD i {} = if i ∈ bands then {} else p.staging.getD i {}) := by
  induction bands generalizing p with
  | nil => exact ⟨p.jobs, p.staging, p.error, rfl, hjobs, .inr ⟨herror, rfl, fun i => by simp⟩⟩
  | cons band bands ih =>
    obtain ⟨hband, hrest⟩ := List.forall_mem_cons.mp hbands
    rw [List.foldl_cons]
    rcases restage_cases stopped herror hband with hstep | hstep
    · have hkeep : ∀ q : Producer C, q.error = some discoveryStopped →
          bands.foldl (restage stopped) q = q := by
        intro q hq
        clear ih hbands hrest
        induction bands with
        | nil => rfl
        | cons band bands ih => rw [List.foldl_cons, restage_stopped hq, ih]
      rw [hstep, hkeep _ rfl]
      exact ⟨_, _, _, rfl, hjobs, .inl rfl⟩
    · rw [hstep]
      have hjobs' : JobsOk config filter { p with
          jobs := p.jobs ++ [⟨true, band, p.segment, 0, 0, 0, []⟩]
          staging := p.staging.set band {} } := by
        intro job hjob hreset
        rcases List.mem_append.mp hjob with hjob | hjob
        · exact hjobs job hjob hreset
        · rw [List.mem_singleton.mp hjob] at hreset
          cases hreset
      obtain ⟨jobs, staging, error, hfold, hok, hended⟩ := ih hjobs' herror fun i hi => by
        rw [List.length_set]
        exact hrest i hi
      refine ⟨jobs, staging, error, hfold, hok, hended.imp_right fun hnone => ?_⟩
      obtain ⟨hnone, hlength, hstaging⟩ := hnone
      refine ⟨hnone, hlength.trans List.length_set, fun i => ?_⟩
      rw [hstaging, getD_set hband]
      simp only [List.mem_cons]
      by_cases hi : i ∈ bands
      · rw [if_pos hi, if_pos (.inr hi)]
      · simp [hi]

variable (stopped) in
/-- A new segment has nothing staged. -/
theorem newSegment_spec (start : ℕ) (hjobs : JobsOk config filter p)
    (hstaged : Staged config filter first full got p) (hshort : Short p) (herror : p.error = none) :
    JobsOk config filter (p.newSegment stopped start) ∧
    ((p.newSegment stopped start).error = some discoveryStopped ∨
      (p.newSegment stopped start).error = none ∧
      Staged config filter start [] (fun _ => []) (p.newSegment stopped start) ∧
      Short (p.newSegment stopped start) ∧
      (p.newSegment stopped start).bank = p.bank.reset ∧
      (p.newSegment stopped start).sourceInitialized = true ∧
      (p.newSegment stopped start).expectedSource = start) := by
  have hflush := flushStaging_kept stopped hjobs hstaged hshort herror
  obtain ⟨jobs, staging, error, hsame⟩ := hflush.same
  rw [newSegment]
  generalize hq : p.flushStaging stopped = q at hflush hsame
  have hbank : q.bank = p.bank := by rw [hsame]
  rcases hflush.ended with ⟨hnone, hstaged', -⟩ | hstopped
  · have hnot : ¬ q.error.isSome = true := by simp [hnone]
    simp only [if_neg hnot]
    -- A new stretch at the end of the list leaves every job's stretch where it was.
    have hgrown : JobsOk config filter { q with stretches := q.stretches ++ [(start, [])] } := by
      refine jobsOk_mono hflush.jobs fun i first stretch hi => ⟨[], ?_⟩
      rw [List.append_nil, List.getElem?_append_left (List.getElem?_eq_some_iff.mp hi).1, hi]
    have hnew : JobsOk config filter { q with
        bank := q.bank.reset, sourceInitialized := true, expectedSource := start
        segment := q.segment + 1, stretches := q.stretches ++ [(start, [])] } := hgrown
    obtain ⟨jobs₂, staging₂, error₂, hfold, hok, hended⟩ := restage_spec stopped hnew hnone
      fun band hband => List.mem_range.mp hband
    refine ⟨hok, ?_⟩
    rw [hfold]
    rcases hended with hstop | ⟨hnone₂, hlength, hstaging⟩
    · exact .inl hstop
    · have hempty : ∀ i, staging₂.getD i {} = {} := by
        intro i
        rw [hstaging]
        split_ifs with hi
        · rfl
        · rw [List.mem_range, not_lt] at hi
          rw [List.getD_eq_getElem?_getD, List.getElem?_eq_none hi]
          rfl
      refine .inr ⟨hnone₂, ⟨hlength.trans hstaged'.length, ?_, ?_, fun i => ?_, fun i => ?_⟩,
        fun i => ?_, by rw [hbank], rfl, rfl⟩
      · change (q.stretches ++ [(start, [])]).length = _
        rw [List.length_append, hstaged'.segments]
        rfl
      · change (q.stretches ++ [(start, [])])[q.segment + 1]? = _
        rw [← hstaged'.segments, List.getElem?_concat_length]
      · change StageOk config start [] (staging₂.getD i {})
        rw [hempty]
        exact ⟨rfl, rfl, fun h => absurd h Bool.noConfusion, fun _ => rfl⟩
      · exact List.nil_prefix
      · change (staging₂.getD i {}).values.length < _
        rw [hempty]
        exact Nat.zero_lt_succ _
  · simp only [hstopped, Option.isSome_some, if_true]
    exact ⟨hflush.jobs, .inl trivial⟩

/-! ## Runs -/

variable (config filter) in
/-- The jobs are right, and a producer that has thrown nothing goes on with its newest segment. -/
structure Inv (p : Producer C) : Prop where
  jobs : JobsOk config filter p
  error : p.error ≠ some channelizerDiscontinuity
  working : p.error = none → ∃ first stretch,
    Staged config filter first stretch (received config filter stretch) p ∧ Short p ∧
    Ready config filter p.bank first stretch ∧
    (p.sourceInitialized = true → p.expectedSource = first + stretch.length)

theorem ready_reset {b : Channelizer C} (h : Ready config filter b first stretch) :
    b.reset = Channelizer.initial config := by
  rcases h with h | ⟨rfl, -⟩
  · exact h.reset
  · simp [Channelizer.reset, Channelizer.initial]

omit [Zero C] in
theorem received_nil : received config filter ([] : List C) = fun _ => [] := by
  funext i
  rw [received, outputsOf, List.length_nil, outputCount, Nat.zero_div, Nat.zero_sub]
  simp

/-- A producer that has thrown. -/
theorem inv_of_error {text : String} (hjobs : JobsOk config filter p) (herror : p.error = some text)
    (htext : text ≠ channelizerDiscontinuity) : p.Inv config filter := by
  refine ⟨hjobs, fun h => htext ?_, fun h => ?_⟩
  · exact Option.some.inj (herror.symm.trans h)
  · rw [herror] at h
    cases h

/-- Beyond the coordinates nothing is delivered. -/
theorem feed_delivered_nil {b : Channelizer C} (h : 2 ^ 64 - 1 < first + values.length) :
    (Channelizer.feed config filter b values first).delivered = [] := by
  rw [feed]
  split_ifs with hover
  · rfl
  · rfl
  · obtain rfl := List.length_eq_zero_iff.mp (show values.length = 0 by omega)
    rfl
  · obtain rfl := List.length_eq_zero_iff.mp (show values.length = 0 by omega)
    rfl

/-- A block that follows the newest segment. -/
theorem inv_feed (hjobs : JobsOk config filter p)
    (hstaged : Staged config filter first stretch (received config filter stretch) p)
    (hshort : Short p) (hready : Ready config filter p.bank first stretch) (herror : p.error = none) :
    let fed := Channelizer.feed config filter p.bank values (first + stretch.length)
    let q := fed.delivered.foldl (append stopped) { p.extendStretch values with bank := fed.bank }
    Inv config filter
      (if q.error.isSome then q
      else match fed.error with
        | some error => { q with error := some error }
        | none => { q with expectedSource := first + stretch.length + values.length }) := by
  intro fed q
  obtain ⟨hjobs', hstaged'⟩ := extendStretch_spec values hjobs hstaged
  have hstart : Kept config filter first (stretch ++ values) (received config filter stretch)
      { p.extendStretch values with bank := fed.bank }
      { p.extendStretch values with bank := fed.bank } :=
    ⟨⟨p.jobs, p.staging, p.error, rfl⟩, hjobs', .inl ⟨herror, ⟨hstaged'.length, hstaged'.segments,
      hstaged'.last, hstaged'.band, hstaged'.early⟩, hshort⟩⟩
  have hfeed : Delivers config filter first stretch values fed := feed_spec hready
  have hkept : Kept config filter first (stretch ++ values)
      (run receive (received config filter stretch) fed.delivered)
      { p.extendStretch values with bank := fed.bank } q := by
    -- A block behind the largest coordinate is refused before anything is delivered.
    by_cases hlast : first + (stretch ++ values).length ≤ 2 ^ 64 - 1
    · exact foldl_append_kept hfeed.onTime hlast hstart
    · have hnil : fed.delivered = [] := by
        rw [List.length_append] at hlast
        exact feed_delivered_nil (by omega)
      have hq : q = { p.extendStretch values with bank := fed.bank } := by
        change fed.delivered.foldl _ _ = _
        rw [hnil]
        rfl
      rw [hnil, hq]
      exact hstart
  obtain ⟨jobs, staging, error, hsame⟩ := hkept.same
  rcases hkept.ended with ⟨hnone, hq, hshort'⟩ | hstopped
  · rw [if_neg (by simp [hnone])]
    -- The channelizer took the block, or it failed, and then the producer keeps its error.
    rcases hfeed.ended with ⟨hend, -, hready', hrun⟩ | ⟨hend, -⟩ | ⟨hend, -⟩
    · rw [hend]
      rw [hrun] at hq
      refine ⟨hkept.jobs, fun h => ?_, fun _ => ⟨first, stretch ++ values, ?_, hshort', ?_, fun _ => ?_⟩⟩
      · exact absurd (hnone.symm.trans h) (Option.some_ne_none _).symm
      · exact ⟨hq.length, hq.segments, hq.last, hq.band, hq.early⟩
      · have hbank : q.bank = fed.bank := by rw [hsame]
        change Ready config filter q.bank first (stretch ++ values)
        rwa [hbank]
      · rw [List.length_append]
        exact Nat.add_assoc _ _ _
    · rw [hend]
      exact inv_of_error hkept.jobs rfl (by decide)
    · rw [hend]
      exact inv_of_error hkept.jobs rfl (by decide)
  · rw [if_pos (by rw [hstopped]; rfl)]
    exact inv_of_error hkept.jobs hstopped (by decide)

theorem inv_produce {start : ℕ} (h : p.Inv config filter) :
    (p.produce config filter stopped values start).Inv config filter := by
  rw [produce]
  cases herror : p.error with
  | some error =>
    rw [if_pos Option.isSome_some]
    exact h
  | none =>
    rw [if_neg (by simp)]
    obtain ⟨first, stretch, hstaged, hshort, hready, hexpected⟩ := h.working herror
    by_cases hnew : p.sourceInitialized = false ∨ start ≠ p.expectedSource
    · obtain ⟨hjobs, hstopped | ⟨hnone, hstaged', hshort', hbank, -⟩⟩ :=
        newSegment_spec stopped start h.jobs hstaged hshort herror
      · simp only [if_pos hnew]
        rw [if_pos (by rw [hstopped]; rfl)]
        exact inv_of_error hjobs hstopped (by decide)
      · simp only [if_pos hnew]
        rw [if_neg (by simp [hnone])]
        rw [ready_reset hready] at hbank
        rw [← @received_nil _ config filter] at hstaged'
        exact inv_feed hjobs hstaged' hshort' (.inr ⟨hbank, rfl⟩) hnone
    · simp only [if_neg hnew]
      rw [if_neg (by simp [herror])]
      simp only [not_or, Bool.not_eq_false, not_not] at hnew
      rw [hnew.2, hexpected hnew.1]
      exact inv_feed h.jobs hstaged hshort hready herror

theorem inv_step (event : ProducerEvent C) (h : p.Inv config filter) :
    (p.step config filter stopped event).Inv config filter := by
  cases event with
  | block values first => exact inv_produce h
  | close =>
    rw [step]
    cases herror : p.error with
    | some error =>
      rw [if_pos Option.isSome_some]
      exact h
    | none =>
      rw [if_neg (by simp)]
      obtain ⟨first, stretch, hstaged, hshort, hready, hexpected⟩ := h.working herror
      have hflush := flushStaging_kept stopped h.jobs hstaged hshort herror
      obtain ⟨jobs, staging, error, hsame⟩ := hflush.same
      rcases hflush.ended with ⟨hnone, hstaged', hshort'⟩ | hstopped
      · refine ⟨hflush.jobs, fun h => ?_, fun _ => ⟨first, stretch, hstaged', hshort', ?_, ?_⟩⟩
        · exact absurd (hnone.symm.trans h) (Option.some_ne_none _).symm
        · rw [hsame]
          exact hready
        · rw [hsame]
          exact hexpected
      · exact inv_of_error hflush.jobs hstopped (by decide)

theorem inv_initial : (initial config : Producer C).Inv config filter := by
  have hstage : ∀ i, (List.replicate config.subbands ({} : Staging C)).getD i {} = {} := by
    intro i
    rw [List.getD_eq_getElem?_getD, List.getElem?_replicate]
    split_ifs <;> rfl
  refine ⟨fun job hjob => absurd hjob List.not_mem_nil, (Option.some_ne_none _).symm, fun _ =>
    ⟨0, [], ⟨List.length_replicate, rfl, rfl, fun i => ?_, fun i => ?_⟩, fun i => ?_, .inr ⟨rfl, rfl⟩,
      fun h => absurd h Bool.noConfusion⟩⟩
  · rw [received_nil]
    change StageOk config 0 [] ((List.replicate config.subbands ({} : Staging C)).getD i {})
    rw [hstage]
    exact ⟨rfl, rfl, fun h => absurd h Bool.noConfusion, fun _ => rfl⟩
  · rw [received_nil]
    exact List.nil_prefix
  · change ((List.replicate config.subbands ({} : Staging C)).getD i {}).values.length < _
    rw [hstage]
    exact Nat.zero_lt_succ _

end Producer

variable (config filter stopped) in
/-- **The coordinates of the channelizer.** A stretch of samples that follow each other is delivered, for
every subband and in any chunks, as the same outputs, each block at the coordinate of its first output,
and the coordinates advance by the stride from that of the first output. The producer of the worker finds
no discontinuity in any run, and its jobs have the outputs of their segment at the coordinates of the
segment. -/
theorem channelizer_coordinates :
    (∀ (first : ℕ) (chunks : List (List C)),
      let fed := feedAll config filter (Channelizer.initial config) first chunks
      (first + chunks.flatten.length ≤ 2 ^ 64 - 1 → (∀ x ∈ chunks.flatten, filter.finite x = true) →
        fed.error = none) ∧
      (∀ before block after, fed.delivered = before ++ block :: after →
        OnTime config filter first chunks.flatten (run receive (fun _ => []) before) block) ∧
      (fed.error = none → ∀ subband < config.subbands, run receive (fun _ => []) fed.delivered subband =
        outputsOf config filter chunks.flatten subband)) ∧
    (∀ first j, coordinate config first j = coordinate config first 0 + j * config.stride) ∧
    ∀ events, let p := run (Producer.step config filter stopped) (Producer.initial config) events
      p.error ≠ some channelizerDiscontinuity ∧
      ∀ job ∈ p.jobs, job.reset = false → JobOk config filter p.stretches job := by
  refine ⟨fun first chunks => ?_, fun first j => coordinate_eq, fun events => ?_⟩
  · intro fed
    have hfed : Delivers config filter first [] chunks.flatten fed :=
      feedAll_spec (.inr ⟨rfl, rfl⟩)
    have htime := hfed.onTime
    rw [Producer.received_nil, List.nil_append] at htime
    refine ⟨fun hfit hfinite => ?_, along_iff_forall.mp htime, fun hnone subband hsubband => ?_⟩
    · rcases hfed.ended with ⟨hnone, -⟩ | ⟨-, x, hx, hfalse⟩ | ⟨-, hover⟩
      · exact hnone
      · exact absurd ((hfinite x hx).symm.trans hfalse) Bool.noConfusion
      · rw [List.nil_append] at hover
        omega
    · rcases hfed.ended with ⟨-, -, -, hrun⟩ | ⟨hsome, -⟩ | ⟨hsome, -⟩
      · rw [Producer.received_nil, List.nil_append] at hrun
        rw [hrun, received, if_pos hsubband]
      · rw [hnone] at hsome
        cases hsome
      · rw [hnone] at hsome
        cases hsome
  · intro p
    have hinv : p.Inv config filter :=
      @invariant_run _ _ (Producer.step config filter stopped) (Producer.Inv config filter) _
        (fun _ event h => Producer.inv_step event h) Producer.inv_initial events
    exact ⟨hinv.error, hinv.jobs⟩

end Producer

end Discovery

end OVMesh
