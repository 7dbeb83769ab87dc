import OVMesh.Discovery.DetectorQueue

/-!
# The scheduler of the detector threads

The producer and the detector threads around the queues: `enqueue`, `consume` with
`eligible_detector_job`, and `discard_detector_jobs`. A step is one critical section of one thread.

* `Scheduler.step`: the producer and the detector threads, in any order, and failures.
* `Ok`: who has which slot and which subband, and what became of the jobs.
* `ThreadStep`: what a thread can do.
* `detector_order`: the jobs of a subband are processed in the order they were queued, each once.
* `detector_progress`: from any reachable state the threads go on until they wait or have ended.
-/

namespace OVMesh

namespace Discovery

open Runs Function

/-- Where a detector thread is in `consume`, with the queue and the slot of its job. -/
inductive DetectorThread
  | waiting
  | processing (queue slot : ℕ)
  /-- After `fail`. -/
  | failing (queue slot : ℕ)
  | finishing (queue slot : ℕ)
  | leaving
  | ended
deriving DecidableEq

namespace DetectorThread

/-- The slot that the thread has. -/
def held : DetectorThread → Option (ℕ × ℕ)
  | processing queue slot => some (queue, slot)
  | failing queue slot => some (queue, slot)
  | finishing queue slot => some (queue, slot)
  | _ => none

/-- The slot of a job that is not done yet. -/
def running : DetectorThread → Option (ℕ × ℕ)
  | processing queue slot => some (queue, slot)
  | failing queue slot => some (queue, slot)
  | _ => none

/-- How many steps the thread has before it at most, if no job is added. -/
def weight : DetectorThread → ℕ
  | waiting => 2
  | processing _ _ => 5
  | failing _ _ => 4
  | finishing _ _ => 3
  | leaving => 1
  | ended => 0

end DetectorThread

/-- What the mutex of the detectors guards, and where the threads are. `enqueued`, `started`,
`finished` and `discarded` are all the jobs to which this has happened, and a finished job was
processed or has thrown. -/
structure Scheduler (C : Type) where
  queues : ℕ → DetectorQueue C := fun _ => {}
  busy : ℕ → Bool := fun _ => false
  nextQueue : ℕ := 0
  pendingJobs : ℕ := 0
  failed : Bool := false
  producerDone : Bool := false
  threads : Fin detectorWorkers → DetectorThread := fun _ => .waiting
  enqueued : List (Job C) := []
  started : List (Job C) := []
  finished : List (Job C × Bool) := []
  discarded : List (Job C) := []

/-- A step of a thread. -/
inductive SchedulerEvent (C : Type)
  | enqueue (job : Job C)
  | fail
  | producerEnds
  | claim (t : Fin detectorWorkers)
  | complete (t : Fin detectorWorkers)
  | throw (t : Fin detectorWorkers)
  | abandon (t : Fin detectorWorkers)
  | release (t : Fin detectorWorkers)
  | leave (t : Fin detectorWorkers)
  | finish (t : Fin detectorWorkers)

/-- The detector thread that takes the step. -/
def SchedulerEvent.thread {C : Type} : SchedulerEvent C → Option (Fin detectorWorkers)
  | enqueue _ | fail | producerEnds => none
  | claim t | complete t | throw t | abandon t | release t | leave t | finish t => some t

namespace Scheduler

variable {C : Type}

/-- The job in a slot of a queue. -/
def jobAt (s : Scheduler C) (place : ℕ × ℕ) : Job C := (s.queues place.1).jobs place.2

/-- The job takes a free slot of the queue of its subband. -/
def put (s : Scheduler C) (slot : ℕ) (job : Job C) : Scheduler C :=
  let index := job.subband % detectorWorkers
  { s with
    queues := update s.queues index ((s.queues index).put slot job)
    pendingJobs := s.pendingJobs + 1
    enqueued := s.enqueued ++ [job] }

/-- `enqueue`, which waits while all slots are occupied and throws after a failure. -/
def enqueue (s : Scheduler C) (job : Job C) : Scheduler C :=
  let q := s.queues (job.subband % detectorWorkers)
  if s.failed = true ∨ s.producerDone = true then s
  else if q.occupiedCount < detectorQueueCapacity then
    match q.freeSlot with
    | some slot => s.put slot job
    | none => { s with failed := true }
  else s

/-- The oldest job of a queue whose subband is not busy. -/
def eligibleIn (s : Scheduler C) (index : ℕ) : Option ℕ :=
  let q := s.queues index
  (List.range q.ready.count).find? fun offset => !s.busy (q.jobs (q.ready.get 0 offset)).subband

/-- `eligible_detector_job`: the first queue, from the next one on, with a ready job of an idle subband.
-/
def eligible (s : Scheduler C) : Option (ℕ × ℕ) :=
  (List.range detectorWorkers).findSome? fun offset =>
    let index := (s.nextQueue + offset) % detectorWorkers
    (s.eligibleIn index).map fun pending => (index, pending)

/-- A thread takes a ready job, and its subband is busy until the thread is done with it. -/
def claim (s : Scheduler C) (t : Fin detectorWorkers) (index offset : ℕ) : Scheduler C :=
  let q := s.queues index
  let slot := q.ready.get 0 offset
  { s with
    queues := update s.queues index (q.take offset)
    busy := update s.busy (q.jobs slot).subband true
    nextQueue := (index + 1) % detectorWorkers
    pendingJobs := s.pendingJobs - 1
    threads := update s.threads t (.processing index slot)
    started := s.started ++ [q.jobs slot] }

/-- The job of a thread is done. -/
def conclude (s : Scheduler C) (t : Fin detectorWorkers) (index slot : ℕ) (processed : Bool) :
    Scheduler C :=
  { s with
    threads := update s.threads t (.finishing index slot)
    finished := s.finished ++ [(s.jobAt (index, slot), processed)] }

/-- A thread leaves its slot and its subband. -/
def release (s : Scheduler C) (t : Fin detectorWorkers) (index slot : ℕ) : Scheduler C :=
  { s with
    queues := update s.queues index ((s.queues index).clear slot)
    busy := update s.busy (s.jobAt (index, slot)).subband false
    threads := update s.threads t .waiting }

/-- The oldest job of a queue is given up. -/
def discardOldest (index : ℕ) (s : Scheduler C) : Scheduler C :=
  let q := s.queues index
  { s with
    queues := update s.queues index q.drop
    pendingJobs := s.pendingJobs - 1
    discarded := s.discarded ++ [q.jobs (q.ready.get 0 0)] }

/-- Every ready job of a queue is discarded, from the oldest on. -/
def discardQueue (s : Scheduler C) (index : ℕ) : Scheduler C :=
  (discardOldest index)^[(s.queues index).ready.count] s

/-- `discard_detector_jobs`: the ready jobs of every queue. -/
def discardJobs (s : Scheduler C) : Scheduler C := (List.range detectorWorkers).foldl discardQueue s

/-- One critical section of the producer or of a detector thread. A step that the state does not admit
changes nothing. -/
def step (s : Scheduler C) : SchedulerEvent C → Scheduler C
  | .enqueue job => s.enqueue job
  | .fail => { s with failed := true }
  | .producerEnds => { s with producerDone := true }
  | .claim t =>
    match s.threads t, s.eligible with
    | .waiting, some (index, offset) => if s.failed then s else s.claim t index offset
    | _, _ => s
  | .complete t =>
    match s.threads t with
    | .processing index slot => s.conclude t index slot true
    | _ => s
  | .throw t =>
    match s.threads t with
    | .processing index slot =>
      { s with failed := true, threads := update s.threads t (.failing index slot) }
    | _ => s
  | .abandon t =>
    match s.threads t with
    | .failing index slot => s.conclude t index slot false
    | _ => s
  | .release t =>
    match s.threads t with
    | .finishing index slot => s.release t index slot
    | _ => s
  | .leave t =>
    match s.threads t with
    | .waiting =>
      if s.failed = true ∨ s.eligible = none ∧ s.producerDone = true ∧ s.pendingJobs = 0 then
        { s with threads := update s.threads t .leaving }
      else s
    | _ => s
  | .finish t =>
    match s.threads t with
    | .leaving =>
      let s := if s.failed then s.discardJobs else s
      { s with threads := update s.threads t .ended }
    | _ => s

end Scheduler

variable {C : Type} {index slot offset b : ℕ}

/-! ## The choice of a job -/

namespace Scheduler

variable {s s' : Scheduler C} {t t' : Fin detectorWorkers} {place : ℕ × ℕ} {e : SchedulerEvent C}

/-- The job at an offset of a queue. -/
def waitingAt (s : Scheduler C) (index offset : ℕ) : Job C :=
  (s.queues index).jobs ((s.queues index).ready.get 0 offset)

theorem waitingAt_eq : s.waitingAt index offset =
    (s.queues index).jobs ((s.queues index).ready.get 0 offset) := rfl

theorem eligibleIn_some (h : s.eligibleIn index = some offset) :
    offset < (s.queues index).ready.count ∧ s.busy (s.waitingAt index offset).subband = false ∧
      ∀ j < offset, s.busy (s.waitingAt index j).subband = true := by
  obtain ⟨hfree, hoffset, hbefore⟩ := List.find?_range_eq_some.mp h
  exact ⟨List.mem_range.mp hoffset, by simpa [waitingAt] using hfree, fun j hj => by
    simpa [waitingAt] using hbefore j hj⟩

/-- The job that is chosen is the oldest one of its subband, which is not busy. -/
theorem eligible_some (h : s.eligible = some (index, offset)) :
    index < detectorWorkers ∧ offset < (s.queues index).ready.count ∧
      s.busy (s.waitingAt index offset).subband = false ∧
      ∀ j < offset, s.busy (s.waitingAt index j).subband = true := by
  obtain ⟨k, -, hk⟩ := List.exists_of_findSome?_eq_some h
  obtain ⟨pending, hpending, heq⟩ := Option.map_eq_some_iff.mp hk
  obtain ⟨rfl, rfl⟩ := Prod.mk.inj heq
  exact ⟨Nat.mod_lt _ (by decide), eligibleIn_some hpending⟩

/-- If no job is chosen, the subbands of all jobs that wait are busy. -/
theorem eligible_none (h : s.eligible = none) (hindex : index < detectorWorkers)
    (ho : offset < (s.queues index).ready.count) : s.busy (s.waitingAt index offset).subband = true := by
  obtain ⟨k, hk, hindex⟩ : ∃ k < detectorWorkers, (s.nextQueue + k) % detectorWorkers = index := by
    refine ⟨(index + (detectorWorkers - s.nextQueue % detectorWorkers)) % detectorWorkers,
      Nat.mod_lt _ (by decide), ?_⟩
    simp only [detectorWorkers] at hindex ⊢
    omega
  have hnone := List.findSome?_eq_none_iff.mp h k (List.mem_range.mpr hk)
  rw [Option.map_eq_none_iff, hindex] at hnone
  simpa [waitingAt] using List.find?_range_eq_none.mp hnone offset ho

/-! ## The slots -/

/-- The slots of a queue that threads have. -/
def heldIn (s : Scheduler C) (index slot : ℕ) : Prop := ∃ t, (s.threads t).held = some (index, slot)

/-- A thread has its slot and its subband to itself. -/
structure SlotsOk (s : Scheduler C) : Prop where
  queue : ∀ index, QueueOk index (s.heldIn index) (s.queues index)
  alone : ∀ t t' place place', (s.threads t).held = some place → (s.threads t').held = some place' →
    (s.jobAt place).subband = (s.jobAt place').subband → t = t'
  busy : ∀ b, s.busy b = true ↔ ∃ t place, (s.threads t).held = some place ∧ (s.jobAt place).subband = b
  pendingJobs : s.pendingJobs = ∑ index ∈ Finset.range detectorWorkers, (s.queues index).ready.count

/-- What the jobs of the threads and the queues rest on. -/
theorem SlotsOk.congr (h : SlotsOk s) (hqueues : s'.queues = s.queues) (hbusy : s'.busy = s.busy)
    (hpending : s'.pendingJobs = s.pendingJobs) (hheld : ∀ t, (s'.threads t).held = (s.threads t).held) :
    SlotsOk s' := by
  have hin : ∀ index, s'.heldIn index = s.heldIn index := fun index => by
    funext slot
    simp only [heldIn, hheld]
  have hjob : ∀ place, s'.jobAt place = s.jobAt place := fun place => by rw [jobAt, jobAt, hqueues]
  refine ⟨fun index => ?_, fun t t' place place' ht ht' => ?_, fun b => ?_, ?_⟩
  · rw [hin, hqueues]
    exact h.queue index
  · rw [hheld] at ht ht'
    rw [hjob, hjob]
    exact h.alone t t' place place' ht ht'
  · simp only [hbusy, hheld, hjob]
    exact h.busy b
  · rw [hpending, hqueues]
    exact h.pendingJobs

theorem held_update {x : DetectorThread} (t' : Fin detectorWorkers) :
    (update s.threads t x t').held = if t' = t then x.held else (s.threads t').held := by
  rw [update_apply]
  split_ifs <;> rfl

/-- The jobs that wait, after one queue has changed. -/
theorem sum_count {q : DetectorQueue C} {n : ℕ} (hindex : index < n) :
    ∑ i ∈ Finset.range n, (update s.queues index q i).ready.count + (s.queues index).ready.count =
      ∑ i ∈ Finset.range n, (s.queues i).ready.count + q.ready.count :=
  sum_update (g := fun q : DetectorQueue C => q.ready.count) (Finset.mem_range.mpr hindex)

theorem jobAt_update {q : DetectorQueue C}
    (hjobs : ∀ slot, s.heldIn index slot → q.jobs slot = (s.queues index).jobs slot)
    (hqueues : s'.queues = update s.queues index q) (hheld : (s.threads t).held = some place) :
    s'.jobAt place = s.jobAt place := by
  obtain ⟨i, slot⟩ := place
  rw [jobAt, jobAt, hqueues]
  by_cases hi : i = index
  · subst hi
    rw [update_self]
    exact hjobs slot ⟨t, hheld⟩
  · rw [update_of_ne hi]

/-- A queue changes, and the jobs that threads have are those they had. -/
theorem SlotsOk.update (h : SlotsOk s) {q : DetectorQueue C} (hindex : index < detectorWorkers)
    (hq : QueueOk index (s.heldIn index) q)
    (hjobs : ∀ slot, s.heldIn index slot → q.jobs slot = (s.queues index).jobs slot)
    (hqueues : s'.queues = Function.update s.queues index q) (hbusy : s'.busy = s.busy)
    (hthreads : s'.threads = s.threads)
    (hpending : s'.pendingJobs + (s.queues index).ready.count = s.pendingJobs + q.ready.count) :
    SlotsOk s' := by
  have hjob : ∀ t place, (s.threads t).held = some place → s'.jobAt place = s.jobAt place :=
    fun t place hheld => jobAt_update hjobs hqueues hheld
  have hin : ∀ i, s'.heldIn i = s.heldIn i := fun i => by
    funext slot
    simp only [heldIn, hthreads]
  refine ⟨fun i => ?_, fun t t' place place' ht ht' hsame => ?_, fun b => ?_, ?_⟩
  · rw [hin, hqueues]
    by_cases hi : i = index
    · subst hi
      rwa [update_self]
    · rw [update_of_ne hi]
      exact h.queue i
  · rw [hthreads] at ht ht'
    rw [hjob t place ht, hjob t' place' ht'] at hsame
    exact h.alone t t' place place' ht ht' hsame
  · rw [hbusy, h.busy b, hthreads]
    refine exists_congr fun t => exists_congr fun place => and_congr_right fun ht => ?_
    rw [hjob t place ht]
  · have hsum := sum_count (s := s) (q := q) hindex
    have hold := h.pendingJobs
    rw [hqueues]
    omega

theorem SlotsOk.lt (h : SlotsOk s) (hheld : (s.threads t).held = some place) :
    place.1 < detectorWorkers := by
  have hocc := ((h.queue place.1).occupied place.2).mpr (.inr ⟨t, hheld⟩)
  exact (h.queue place.1).home _ hocc ▸ Nat.mod_lt _ (by decide)

/-- A job enters a free slot of its queue. -/
theorem SlotsOk.put (h : SlotsOk s) {job : Job C}
    (hfree : (s.queues (job.subband % detectorWorkers)).freeSlot = some slot) :
    SlotsOk (s.put slot job) := by
  have hqueue := h.queue (job.subband % detectorWorkers)
  refine h.update (Nat.mod_lt _ (by decide)) (hqueue.put hfree rfl).1
    (fun x hx => hqueue.jobs_put hfree hx) rfl rfl rfl ?_
  change s.pendingJobs + 1 + _ = s.pendingJobs + (_ + 1)
  omega

/-- The oldest job of a queue is given up. -/
theorem SlotsOk.discardOldest (h : SlotsOk s) (hindex : index < detectorWorkers)
    (hpos : 0 < (s.queues index).ready.count) : SlotsOk (discardOldest index s) := by
  have hqueue := h.queue index
  refine h.update hindex (hqueue.drop hpos).1 (fun x hx => hqueue.jobs_drop hpos hx) rfl rfl rfl ?_
  have hsum := Finset.single_le_sum (f := fun i => (s.queues i).ready.count)
    (fun _ _ => Nat.zero_le _) (Finset.mem_range.mpr hindex)
  have hold := h.pendingJobs
  change s.pendingJobs - 1 + _ = s.pendingJobs + (_ - 1)
  omega

/-- A thread takes a job of a subband that is not busy. -/
theorem SlotsOk.claim (h : SlotsOk s) (ht : s.threads t = .waiting) (hindex : index < detectorWorkers)
    (ho : offset < (s.queues index).ready.count)
    (hbusy : s.busy (s.waitingAt index offset).subband = false) : SlotsOk (s.claim t index offset) := by
  have hnone : (s.threads t).held = none := by
    rw [ht]
    rfl
  have hfree : ∀ t' place, (s.threads t').held = some place →
      (s.jobAt place).subband ≠ (s.waitingAt index offset).subband := fun t' place ht' heq => by
    have hset := (h.busy _).mpr ⟨t', place, ht', heq⟩
    rw [hbusy] at hset
    cases hset
  -- A claim moves a slot from the ready ones to the thread and leaves the jobs in their slots.
  have hjob : ∀ place, (s.claim t index offset).jobAt place = s.jobAt place := by
    rintro ⟨i, x⟩
    change (Function.update s.queues index _ i).jobs x = (s.queues i).jobs x
    by_cases hi : i = index
    · subst hi
      rw [update_self]
      rfl
    · rw [update_of_ne hi]
  have hheld : ∀ t', ((s.claim t index offset).threads t').held =
      if t' = t then some (index, (s.queues index).ready.get 0 offset) else (s.threads t').held :=
    fun t' => held_update t'
  refine ⟨fun i => ?_, fun t₁ t₂ place₁ place₂ h₁ h₂ hsame => ?_, fun b => ?_, ?_⟩
  · have hqueues : (s.claim t index offset).queues i =
        Function.update s.queues index ((s.queues index).take offset) i := rfl
    rw [hqueues]
    by_cases hi : i = index
    · subst hi
      rw [update_self]
      refine ((h.queue i).take ho).congr fun x => ?_
      simp only [heldIn, hheld]
      constructor
      · rintro ⟨t', ht'⟩
        by_cases heq : t' = t
        · rw [if_pos heq, Option.some.injEq, Prod.mk.injEq] at ht'
          exact .inr ht'.2.symm
        · rw [if_neg heq] at ht'
          exact .inl ⟨t', ht'⟩
      · rintro (⟨t', ht'⟩ | rfl)
        · have hne : t' ≠ t := fun heq => by rw [heq, hnone] at ht'; cases ht'
          exact ⟨t', by rw [if_neg hne, ht']⟩
        · exact ⟨t, by rw [if_pos rfl]⟩
    · rw [update_of_ne hi]
      refine (h.queue i).congr fun x => ?_
      simp only [heldIn, hheld]
      refine exists_congr fun t' => ?_
      by_cases heq : t' = t
      · rw [if_pos heq, heq, hnone]
        simp [Ne.symm hi]
      · rw [if_neg heq]
  · rw [hheld] at h₁ h₂
    rw [hjob, hjob] at hsame
    -- The subband of the new job was idle, so no other thread has a job of it.
    by_cases h₁t : t₁ = t <;> by_cases h₂t : t₂ = t
    · rw [h₁t, h₂t]
    · rw [if_pos h₁t, Option.some.injEq] at h₁
      rw [if_neg h₂t] at h₂
      rw [← h₁] at hsame
      exact absurd hsame.symm (hfree t₂ place₂ h₂)
    · rw [if_neg h₁t] at h₁
      rw [if_pos h₂t, Option.some.injEq] at h₂
      rw [← h₂] at hsame
      exact absurd hsame (hfree t₁ place₁ h₁)
    · rw [if_neg h₁t] at h₁
      rw [if_neg h₂t] at h₂
      exact h.alone t₁ t₂ place₁ place₂ h₁ h₂ hsame
  · have hset : (s.claim t index offset).busy b =
        Function.update s.busy (s.waitingAt index offset).subband true b := rfl
    simp only [hset, hheld, hjob]
    by_cases hb : b = (s.waitingAt index offset).subband
    · subst hb
      rw [update_self]
      exact ⟨fun _ => ⟨t, _, if_pos rfl, rfl⟩, fun _ => rfl⟩
    · rw [update_of_ne hb, h.busy b]
      refine exists_congr fun t' => exists_congr fun place => ?_
      by_cases heq : t' = t
      · rw [if_pos heq, heq, hnone]
        constructor
        · rintro ⟨hcontra, -⟩
          cases hcontra
        · rintro ⟨hplace, hband⟩
          rw [← Option.some.inj hplace] at hband
          exact absurd hband.symm hb
      · rw [if_neg heq]
  · have hsum := sum_count (s := s) (q := (s.queues index).take offset) hindex
    have hold := h.pendingJobs
    have hcount : ((s.queues index).take offset).ready.count = (s.queues index).ready.count - 1 :=
      RingQueue.count_removeAt
    change s.pendingJobs - 1 = ∑ i ∈ Finset.range detectorWorkers,
      (Function.update s.queues index ((s.queues index).take offset) i).ready.count
    omega

/-- A thread gives its slot and its subband back. -/
theorem SlotsOk.release (h : SlotsOk s) (ht : (s.threads t).held = some (index, slot)) :
    SlotsOk (s.release t index slot) := by
  have hindex : index < detectorWorkers := h.lt ht
  have hheld : ∀ t', ((s.release t index slot).threads t').held =
      if t' = t then none else (s.threads t').held := fun t' => held_update t'
  have hother : ∀ t' place, (s.threads t').held = some place → t' ≠ t → place ≠ (index, slot) :=
    fun t' place ht' hne heq => hne (h.alone t' t place (index, slot) ht' ht (by rw [heq]))
  -- Only the slot of the thread is cleared.
  have hjob : ∀ place, place ≠ (index, slot) → (s.release t index slot).jobAt place = s.jobAt place := by
    rintro ⟨i, x⟩ hne
    change (Function.update s.queues index ((s.queues index).clear slot) i).jobs x = (s.queues i).jobs x
    by_cases hi : i = index
    · subst hi
      have hx : x ≠ slot := fun heq => hne (by rw [heq])
      rw [update_self]
      simp [DetectorQueue.clear, hx]
    · rw [update_of_ne hi]
  refine ⟨fun i => ?_, fun t₁ t₂ place₁ place₂ h₁ h₂ hsame => ?_, fun b => ?_, ?_⟩
  · have hqueues : (s.release t index slot).queues i =
        Function.update s.queues index ((s.queues index).clear slot) i := rfl
    rw [hqueues]
    by_cases hi : i = index
    · subst hi
      rw [update_self]
      refine ((h.queue i).clear ⟨t, ht⟩).1.congr fun x => ?_
      simp only [heldIn, hheld]
      constructor
      · rintro ⟨t', ht'⟩
        split_ifs at ht' with heq
        exact ⟨⟨t', ht'⟩, fun hx => hother t' _ ht' heq (by rw [hx])⟩
      · rintro ⟨⟨t', ht'⟩, hx⟩
        have hne : t' ≠ t := fun heq => by
          rw [heq, ht] at ht'
          exact hx (Prod.mk.inj (Option.some.inj ht')).2.symm
        exact ⟨t', by rw [if_neg hne, ht']⟩
    · rw [update_of_ne hi]
      refine (h.queue i).congr fun x => ?_
      simp only [heldIn, hheld]
      refine exists_congr fun t' => ?_
      by_cases heq : t' = t
      · rw [if_pos heq, heq, ht]
        simp [Ne.symm hi]
      · rw [if_neg heq]
  · rw [hheld] at h₁ h₂
    split_ifs at h₁ h₂ with h₁t h₂t
    rw [hjob _ (hother _ _ h₁ h₁t), hjob _ (hother _ _ h₂ h₂t)] at hsame
    exact h.alone t₁ t₂ place₁ place₂ h₁ h₂ hsame
  · have hset : (s.release t index slot).busy b =
        Function.update s.busy (s.jobAt (index, slot)).subband false b := rfl
    simp only [hset, hheld]
    by_cases hb : b = (s.jobAt (index, slot)).subband
    · subst hb
      rw [update_self]
      refine ⟨fun hcontra => (by cases hcontra), ?_⟩
      rintro ⟨t', place, ht', hband⟩
      split_ifs at ht' with heq
      rw [hjob _ (hother _ _ ht' heq)] at hband
      exact absurd (h.alone t' t place (index, slot) ht' ht hband) heq
    · rw [update_of_ne hb, h.busy b]
      refine exists_congr fun t' => exists_congr fun place => ?_
      by_cases heq : t' = t
      · rw [if_pos heq, heq, ht]
        constructor
        · rintro ⟨hplace, hband⟩
          rw [← Option.some.inj hplace] at hband
          exact absurd hband.symm hb
        · rintro ⟨hcontra, -⟩
          cases hcontra
      · rw [if_neg heq]
        refine and_congr_right fun ht' => ?_
        rw [hjob _ (hother _ _ ht' heq)]
  · have hsum := sum_count (s := s) (q := (s.queues index).clear slot) hindex
    have hold := h.pendingJobs
    have hcount : ((s.queues index).clear slot).ready.count = (s.queues index).ready.count := rfl
    change s.pendingJobs = ∑ i ∈ Finset.range detectorWorkers,
      (Function.update s.queues index ((s.queues index).clear slot) i).ready.count
    omega

/-! ## What becomes of the jobs -/

/-- The jobs of a subband, through the queue, the threads and out. -/
structure HistoryOk (s : Scheduler C) : Prop where
  queued : ∀ b, ofBand b s.enqueued =
    ofBand b s.started ++ ofBand b s.discarded ++ ofBand b (s.queues (b % detectorWorkers)).waiting
  active : ∀ t place, (s.threads t).running = some place →
    ofBand (s.jobAt place).subband s.started =
      ofBand (s.jobAt place).subband (s.finished.map Prod.fst) ++ [s.jobAt place]
  idle : ∀ b, (∀ t place, (s.threads t).running = some place → (s.jobAt place).subband ≠ b) →
    ofBand b s.started = ofBand b (s.finished.map Prod.fst)
  failing : ∀ t index slot, s.threads t = .failing index slot → s.failed = true
  clean : s.failed = false → s.discarded = [] ∧ ∀ done ∈ s.finished, done.2 = true

theorem held_of_running {x : DetectorThread} (h : x.running = some place) : x.held = some place := by
  cases x with
  | processing queue slot => exact h
  | failing queue slot => exact h
  | waiting | finishing | leaving | ended => cases h

theorem HistoryOk.congr (h : HistoryOk s) (hwaiting : ∀ i, (s'.queues i).waiting = (s.queues i).waiting)
    (henqueued : s'.enqueued = s.enqueued) (hstarted : s'.started = s.started)
    (hfinished : s'.finished = s.finished) (hdiscarded : s'.discarded = s.discarded)
    (hrunning : ∀ t, (s'.threads t).running = (s.threads t).running)
    (hjob : ∀ t place, (s.threads t).running = some place → s'.jobAt place = s.jobAt place)
    (hfailing : ∀ t index slot, s'.threads t = .failing index slot → s'.failed = true)
    (hclean : s'.failed = false → s.failed = false) : HistoryOk s' := by
  refine ⟨fun b => ?_, fun t place ht => ?_, fun b hidle => ?_, hfailing, fun hok => ?_⟩
  · rw [henqueued, hstarted, hdiscarded, hwaiting]
    exact h.queued b
  · rw [hrunning] at ht
    rw [hjob t place ht, hstarted, hfinished]
    exact h.active t place ht
  · rw [hstarted, hfinished]
    refine h.idle b fun t place ht => ?_
    rw [← hjob t place ht]
    exact hidle t place (by rw [hrunning, ht])
  · rw [hdiscarded, hfinished]
    exact h.clean (hclean hok)

theorem HistoryOk.put (h : HistoryOk s) (hs : SlotsOk s) {job : Job C}
    (hfree : (s.queues (job.subband % detectorWorkers)).freeSlot = some slot) :
    HistoryOk (s.put slot job) := by
  have hqueue := hs.queue (job.subband % detectorWorkers)
  have hjob : ∀ t place, (s.threads t).running = some place →
      (s.put slot job).jobAt place = s.jobAt place := fun t place ht =>
    jobAt_update (fun x hx => hqueue.jobs_put hfree hx) rfl (held_of_running ht)
  refine ⟨fun b => ?_, fun t place ht => ?_, fun b hidle => ?_, h.failing, h.clean⟩
  · have hqueues : (s.put slot job).queues = update s.queues (job.subband % detectorWorkers)
        ((s.queues (job.subband % detectorWorkers)).put slot job) := rfl
    change ofBand b (s.enqueued ++ [job]) = ofBand b s.started ++ ofBand b s.discarded ++ _
    rw [ofBand_append, h.queued b, hqueues]
    by_cases hi : b % detectorWorkers = job.subband % detectorWorkers
    · rw [hi, update_self, (hqueue.put hfree rfl).2, ofBand_append]
      simp only [List.append_assoc]
    · have hne : job.subband ≠ b := fun heq => hi (by rw [heq])
      rw [update_of_ne hi, ofBand_singleton, if_neg hne, List.append_nil]
  · rw [hjob t place ht]
    exact h.active t place ht
  · refine h.idle b fun t place ht => ?_
    rw [← hjob t place ht]
    exact hidle t place ht

theorem HistoryOk.discardOldest (h : HistoryOk s) (hs : SlotsOk s) (hfailed : s.failed = true)
    (hpos : 0 < (s.queues index).ready.count) : HistoryOk (discardOldest index s) := by
  have hqueue := hs.queue index
  have hjob : ∀ t place, (s.threads t).running = some place →
      (Scheduler.discardOldest index s).jobAt place = s.jobAt place := fun t place ht =>
    jobAt_update (fun x hx => hqueue.jobs_drop hpos hx) rfl (held_of_running ht)
  obtain ⟨-, hwaiting⟩ := hqueue.drop hpos
  refine ⟨fun b => ?_, fun t place ht => ?_, fun b hidle => ?_, h.failing, fun hok => ?_⟩
  · have hqueues : (Scheduler.discardOldest index s).queues =
        update s.queues index (s.queues index).drop := rfl
    change ofBand b s.enqueued = ofBand b s.started ++ ofBand b (s.discarded ++ [_]) ++ _
    rw [h.queued b, hqueues, ofBand_append]
    by_cases hi : b % detectorWorkers = index
    · subst hi
      rw [update_self, hwaiting, ← List.singleton_append (l := (s.queues _).drop.waiting), ofBand_append]
      simp only [List.append_assoc]
    · have hin : s.waitingAt index 0 ∈ (s.queues index).waiting := by
        rw [hwaiting]
        exact List.mem_cons_self
      have hhome := hqueue.waiting_home hin
      rw [waitingAt_eq] at hhome
      have hne : ((s.queues index).jobs ((s.queues index).ready.get 0 0)).subband ≠ b := fun heq =>
        hi (by rw [← heq, hhome])
      rw [update_of_ne hi, ofBand_singleton, if_neg hne, List.append_nil]
  · rw [hjob t place ht]
    exact h.active t place ht
  · refine h.idle b fun t place ht => ?_
    rw [← hjob t place ht]
    exact hidle t place ht
  · rw [show (Scheduler.discardOldest index s).failed = s.failed from rfl, hfailed] at hok
    cases hok

theorem HistoryOk.claim (h : HistoryOk s) (hs : SlotsOk s) (hok : s.failed = false)
    (ht : s.threads t = .waiting) (hindex : index < detectorWorkers)
    (ho : offset < (s.queues index).ready.count)
    (hbusy : s.busy (s.waitingAt index offset).subband = false)
    (hbefore : ∀ j < offset, s.busy (s.waitingAt index j).subband = true) :
    HistoryOk (s.claim t index offset) := by
  have hjob : ∀ place, (s.claim t index offset).jobAt place = s.jobAt place := by
    rintro ⟨i, x⟩
    change (update s.queues index _ i).jobs x = (s.queues i).jobs x
    by_cases hi : i = index
    · subst hi
      rw [update_self]
      rfl
    · rw [update_of_ne hi]
  have hrunning : ∀ t', ((s.claim t index offset).threads t').running =
      if t' = t then some (index, (s.queues index).ready.get 0 offset) else (s.threads t').running := by
    intro t'
    change (update s.threads t _ t').running = _
    rw [update_apply]
    split_ifs <;> rfl
  have hfree : ∀ t' place, (s.threads t').running = some place →
      (s.jobAt place).subband ≠ (s.waitingAt index offset).subband := fun t' place ht' heq => by
    have hset := (hs.busy _).mpr ⟨t', place, held_of_running ht', heq⟩
    rw [hbusy] at hset
    cases hset
  have hstarted : (s.claim t index offset).started = s.started ++ [s.waitingAt index offset] := rfl
  have hother : ∀ b, (s.waitingAt index offset).subband ≠ b →
      ofBand b (s.started ++ [s.waitingAt index offset]) = ofBand b s.started := fun b hb => by
    rw [ofBand_append, ofBand_singleton, if_neg hb, List.append_nil]
  refine ⟨fun b => ?_, fun t' place ht' => ?_, fun b hidle => ?_, fun t' i x ht' => ?_, h.clean⟩
  · obtain ⟨before, after, hwaiting, htaken, hin⟩ := (hs.queue index).take_waiting ho
    have hdiscarded := (h.clean hok).1
    have hqueues : (s.claim t index offset).queues =
        update s.queues index ((s.queues index).take offset) := rfl
    change ofBand b s.enqueued = ofBand b (s.started ++ [s.waitingAt index offset]) ++ ofBand b s.discarded ++ _
    rw [h.queued b, hdiscarded, hqueues]
    by_cases hi : b % detectorWorkers = index
    · subst hi
      rw [update_self, hwaiting, htaken]
      by_cases hb : (s.waitingAt (b % detectorWorkers) offset).subband = b
      · -- The jobs before it are of busy subbands, so none of them is of this one.
        have hnil : ofBand b before = [] := ofBand_eq_nil fun job hjob heq => by
          obtain ⟨j, hj, rfl⟩ := hin job hjob
          have hset := hbefore j hj
          rw [waitingAt_eq, heq, ← hb, hbusy] at hset
          cases hset
        rw [← waitingAt_eq, ← List.singleton_append (l := after)]
        simp only [ofBand_append, hnil, List.nil_append, List.append_assoc]
        simp [ofBand]
      · rw [← waitingAt_eq, hother b hb, ← List.singleton_append (l := after)]
        simp only [ofBand_append, ofBand_singleton, if_neg hb, List.nil_append]
    · have hin : s.waitingAt index offset ∈ (s.queues index).waiting := by
        rw [hwaiting]
        exact List.mem_append_right _ List.mem_cons_self
      have hhome := (hs.queue index).waiting_home hin
      have hne : (s.waitingAt index offset).subband ≠ b := fun heq => hi (by rw [← heq, hhome])
      rw [update_of_ne hi, hother b hne]
  · rw [hrunning] at ht'
    rw [hjob, hstarted]
    split_ifs at ht' with heq
    · obtain rfl := Option.some.inj ht'
      have hsame : s.jobAt (index, (s.queues index).ready.get 0 offset) = s.waitingAt index offset := rfl
      have hfinished : (s.claim t index offset).finished = s.finished := rfl
      rw [hsame, hfinished, ofBand_append, h.idle _ hfree, ofBand_singleton, if_pos rfl]
    · rw [hother _ (hfree t' place ht').symm]
      exact h.active t' place ht'
  · have hne : (s.waitingAt index offset).subband ≠ b := by
      have := hidle t _ (by rw [hrunning, if_pos rfl])
      rwa [hjob] at this
    rw [hstarted, hother b hne]
    refine h.idle b fun t' place ht' => ?_
    have htne : t' ≠ t := fun heq => by
      rw [heq, ht] at ht'
      cases ht'
    have := hidle t' place (by rw [hrunning, if_neg htne, ht'])
    rwa [hjob] at this
  · refine h.failing t' i x ?_
    change update s.threads t _ t' = _ at ht'
    rw [update_apply] at ht'
    split_ifs at ht'
    exact ht'

/-- The job of a thread is done. -/
theorem HistoryOk.conclude (h : HistoryOk s) (hs : SlotsOk s) {processed : Bool}
    (ht : (s.threads t).running = some (index, slot)) (hprocessed : s.failed = false → processed = true) :
    HistoryOk (s.conclude t index slot processed) := by
  have hrunning : ∀ t', ((s.conclude t index slot processed).threads t').running =
      if t' = t then none else (s.threads t').running := by
    intro t'
    change (update s.threads t _ t').running = _
    rw [update_apply]
    split_ifs <;> rfl
  have hjob : ∀ place, (s.conclude t index slot processed).jobAt place = s.jobAt place := fun _ => rfl
  have hfinished : (s.conclude t index slot processed).finished.map Prod.fst =
      s.finished.map Prod.fst ++ [s.jobAt (index, slot)] := List.map_append
  have hstarted : (s.conclude t index slot processed).started = s.started := rfl
  have hother : ∀ b, (s.jobAt (index, slot)).subband ≠ b →
      ofBand b (s.finished.map Prod.fst ++ [s.jobAt (index, slot)]) = ofBand b (s.finished.map Prod.fst) :=
    fun b hb => by rw [ofBand_append, ofBand_singleton, if_neg hb, List.append_nil]
  refine ⟨h.queued, fun t' place ht' => ?_, fun b hidle => ?_, fun t' i x ht' => ?_, fun hok => ?_⟩
  · rw [hrunning] at ht'
    split_ifs at ht' with heq
    have hne : (s.jobAt (index, slot)).subband ≠ (s.jobAt place).subband := fun hsame =>
      heq (hs.alone t t' _ _ (held_of_running ht) (held_of_running ht') hsame).symm
    rw [hjob, hfinished, hother _ hne]
    exact h.active t' place ht'
  · rw [hfinished, hstarted]
    -- The job was the last one started of its subband; the others see no change.
    by_cases hb : (s.jobAt (index, slot)).subband = b
    · subst hb
      rw [h.active t _ ht, ofBand_append, ofBand_singleton, if_pos rfl]
    · rw [hother b hb]
      refine h.idle b fun t' place ht' => ?_
      by_cases heq : t' = t
      · rw [heq, ht] at ht'
        rwa [← Option.some.inj ht']
      · exact hidle t' place (by rw [hrunning, if_neg heq, ht'])
  · refine h.failing t' i x ?_
    change update s.threads t _ t' = _ at ht'
    rw [update_apply] at ht'
    split_ifs at ht'
    exact ht'
  · obtain ⟨hdiscarded, hdone⟩ := h.clean hok
    refine ⟨hdiscarded, fun done hin => ?_⟩
    rcases List.mem_append.mp hin with hin | hin
    · exact hdone done hin
    · rw [List.mem_singleton.mp hin]
      exact hprocessed hok

theorem HistoryOk.release (h : HistoryOk s) (hs : SlotsOk s) (ht : s.threads t = .finishing index slot) :
    HistoryOk (s.release t index slot) := by
  have hheld : (s.threads t).held = some (index, slot) := by
    rw [ht]
    rfl
  have hthreads : ∀ t', (s.release t index slot).threads t' =
      if t' = t then .waiting else s.threads t' := fun t' => update_apply ..
  refine h.congr (fun i => ?_) rfl rfl rfl rfl (fun t' => ?_) (fun t' place ht' => ?_)
    (fun t' i x ht' => ?_) id
  · change (update s.queues index ((s.queues index).clear slot) i).waiting = _
    by_cases hi : i = index
    · subst hi
      rw [update_self]
      exact ((hs.queue i).clear ⟨t, hheld⟩).2
    · rw [update_of_ne hi]
  · rw [hthreads]
    split_ifs with heq
    · rw [heq, ht]
      rfl
    · rfl
  · have hne : place ≠ (index, slot) := fun heq => by
      have := hs.alone t' t _ _ (held_of_running ht') hheld (by rw [heq])
      rw [this, ht] at ht'
      cases ht'
    obtain ⟨i, x⟩ := place
    change (update s.queues index ((s.queues index).clear slot) i).jobs x = (s.queues i).jobs x
    by_cases hi : i = index
    · subst hi
      have hx : x ≠ slot := fun heq => hne (by rw [heq])
      rw [update_self]
      simp [DetectorQueue.clear, hx]
    · rw [update_of_ne hi]
  · rw [hthreads] at ht'
    split_ifs at ht'
    exact h.failing t' i x ht'

/-! ## Every step -/

/-- The threads that go, and what they leave behind. -/
structure EndOk (s : Scheduler C) : Prop where
  leaving : ∀ t, s.threads t = .leaving → s.failed = true ∨ s.producerDone = true ∧ s.pendingJobs = 0
  ended : ∀ t, s.threads t = .ended → (s.failed = true ∨ s.producerDone = true) ∧ s.pendingJobs = 0

/-- What holds of every state. -/
structure Ok (s : Scheduler C) : Prop where
  slots : SlotsOk s
  history : HistoryOk s
  ends : EndOk s

theorem Ok.initial : Ok ({} : Scheduler C) where
  slots :=
    { queue := fun _ => QueueOk.empty.congr fun _ =>
        ⟨fun ⟨_, ht⟩ => Option.some_ne_none _ ht.symm, False.elim⟩
      alone := fun _ _ _ _ ht => absurd ht.symm (Option.some_ne_none _)
      busy := fun _ => ⟨fun hset => Bool.noConfusion hset, fun ⟨_, _, ht, _⟩ =>
        absurd ht.symm (Option.some_ne_none _)⟩
      pendingJobs := (Finset.sum_eq_zero fun _ _ => rfl).symm }
  history :=
    { queued := fun _ => rfl
      active := fun _ _ ht => absurd ht.symm (Option.some_ne_none _)
      idle := fun _ _ => rfl
      failing := fun _ _ _ ht => DetectorThread.noConfusion ht
      clean := fun _ => ⟨rfl, fun _ hin => absurd hin List.not_mem_nil⟩ }
  ends := ⟨fun _ ht => DetectorThread.noConfusion ht, fun _ ht => DetectorThread.noConfusion ht⟩

/-- What a discarded job leaves unchanged. -/
structure Discards (s s' : Scheduler C) : Prop where
  slots : SlotsOk s'
  history : HistoryOk s'
  failed : s'.failed = true
  threads : s'.threads = s.threads
  producerDone : s'.producerDone = s.producerDone
  count : ∀ i, (s'.queues i).ready.count ≤ (s.queues i).ready.count

theorem Discards.trans {s'' : Scheduler C} (h : Discards s s') (h' : Discards s' s'') : Discards s s'' :=
  ⟨h'.slots, h'.history, h'.failed, h'.threads.trans h.threads, h'.producerDone.trans h.producerDone,
    fun i => (h'.count i).trans (h.count i)⟩

theorem discards_queue (h : Discards s s) (hindex : index < detectorWorkers) :
    Discards s (s.discardQueue index) ∧ ((s.discardQueue index).queues index).ready.count = 0 := by
  have hloop : ∀ n ≤ (s.queues index).ready.count, Discards s ((discardOldest index)^[n] s) ∧
      (((discardOldest index)^[n] s).queues index).ready.count = (s.queues index).ready.count - n := by
    intro n
    induction n with
    | zero => exact fun _ => ⟨h, rfl⟩
    | succ n ih =>
      intro hn
      obtain ⟨hkept, hcount⟩ := ih (by omega)
      rw [iterate_succ_apply']
      generalize (discardOldest index)^[n] s = m at hkept hcount
      have hdrop : (discardOldest index m).queues = update m.queues index (m.queues index).drop := rfl
      have hless : (m.queues index).drop.ready.count = (m.queues index).ready.count - 1 := rfl
      refine ⟨hkept.trans ⟨hkept.slots.discardOldest hindex (by omega),
        hkept.history.discardOldest hkept.slots hkept.failed (by omega), hkept.failed, rfl, rfl,
        fun i => ?_⟩, ?_⟩
      · rw [hdrop]
        by_cases hi : i = index
        · rw [hi, update_self]
          omega
        · rw [update_of_ne hi]
      · rw [hdrop, update_self]
        omega
  obtain ⟨hkept, hcount⟩ := hloop _ le_rfl
  exact ⟨hkept, by rw [discardQueue, hcount, Nat.sub_self]⟩

/-- All jobs that wait are given up. -/
theorem discards_jobs (h : Discards s s) : Discards s s.discardJobs ∧ s.discardJobs.pendingJobs = 0 := by
  have hloop : ∀ n ≤ detectorWorkers, Discards s ((List.range n).foldl discardQueue s) ∧
      ∀ i < n, (((List.range n).foldl discardQueue s).queues i).ready.count = 0 := by
    intro n
    induction n with
    | zero => exact fun _ => ⟨h, fun i hi => absurd hi (Nat.not_lt_zero i)⟩
    | succ n ih =>
      intro hn
      obtain ⟨hkept, hcount⟩ := ih (by omega)
      rw [List.range_succ, List.foldl_append, List.foldl_cons, List.foldl_nil]
      generalize (List.range n).foldl discardQueue s = m at hkept hcount
      obtain ⟨hqueue, hzero⟩ := discards_queue
        (s := m) ⟨hkept.slots, hkept.history, hkept.failed, rfl, rfl, fun i => le_rfl⟩ hn
      refine ⟨hkept.trans hqueue, fun i hi => ?_⟩
      by_cases heq : i = n
      · rw [heq, hzero]
      · have := hqueue.count i
        rw [hcount i (by omega)] at this
        omega
  obtain ⟨hkept, hcount⟩ := hloop detectorWorkers le_rfl
  refine ⟨hkept, hkept.slots.pendingJobs.trans ?_⟩
  exact Finset.sum_eq_zero fun i hi => hcount i (Finset.mem_range.mp hi)

theorem EndOk.keep (h : EndOk s) (hfailed : s.failed = true → s'.failed = true)
    (hdone : s.producerDone = true → s'.producerDone = true) (hpending : s'.pendingJobs ≤ s.pendingJobs)
    (hleaving : ∀ t, s'.threads t = .leaving → s.threads t = .leaving)
    (hended : ∀ t, s'.threads t = .ended → s.threads t = .ended) : EndOk s' := by
  refine ⟨fun t ht => ?_, fun t ht => ?_⟩
  · rcases h.leaving t (hleaving t ht) with hf | ⟨hd, hp⟩
    · exact .inl (hfailed hf)
    · exact .inr ⟨hdone hd, by omega⟩
  · obtain ⟨hstop, hp⟩ := h.ended t (hended t ht)
    exact ⟨hstop.imp hfailed hdone, by omega⟩

/-- A thread that goes neither now nor before. -/
theorem of_update {x y : DetectorThread} (hne : x ≠ y) (h : update s.threads t x t' = y) :
    s.threads t' = y := by
  rw [update_apply] at h
  split_ifs at h
  · exact absurd h hne
  · exact h

theorem Ok.fails (h : Ok s) : Ok { s with failed := true } where
  slots := h.slots.congr rfl rfl rfl fun _ => rfl
  history := h.history.congr (fun _ => rfl) rfl rfl rfl rfl (fun _ => rfl) (fun _ _ _ => rfl)
    (fun _ _ _ _ => rfl) Bool.noConfusion
  ends := h.ends.keep (fun _ => rfl) id le_rfl (fun _ => id) fun _ => id

/-- **A job is never queued into a slot in use**, and the slots are never found short. -/
theorem Ok.enqueue_cases (h : Ok s) (job : Job C) : s.enqueue job = s ∨
    s.failed = false ∧ s.producerDone = false ∧ ∃ slot,
      (s.queues (job.subband % detectorWorkers)).freeSlot = some slot ∧ s.enqueue job = s.put slot job := by
  unfold Scheduler.enqueue
  by_cases hstop : s.failed = true ∨ s.producerDone = true
  · exact .inl (by simp only [if_pos hstop])
  by_cases hroom : (s.queues (job.subband % detectorWorkers)).occupiedCount < detectorQueueCapacity
  · obtain ⟨slot, hslot⟩ := (h.slots.queue _).exists_free hroom
    simp only [not_or, Bool.not_eq_true] at hstop
    exact .inr ⟨hstop.1, hstop.2, slot, hslot, by simp [hstop.1, hstop.2, hroom, hslot]⟩
  · exact .inl (by simp only [if_neg hstop, if_neg hroom])

theorem Ok.enqueue (h : Ok s) (job : Job C) : Ok (s.enqueue job) := by
  rcases h.enqueue_cases job with heq | ⟨hok, hopen, slot, hslot, heq⟩
  · rwa [heq]
  · rw [heq]
    refine ⟨h.slots.put hslot, h.history.put h.slots hslot, fun t ht => ?_, fun t ht => ?_⟩
    · rcases h.ends.leaving t ht with hstop | ⟨hstop, -⟩
      · rw [hok] at hstop
        cases hstop
      · rw [hopen] at hstop
        cases hstop
    · rcases (h.ends.ended t ht).1 with hstop | hstop
      · rw [hok] at hstop
        cases hstop
      · rw [hopen] at hstop
        cases hstop

theorem Ok.claim (h : Ok s) (ht : s.threads t = .waiting) (hok : s.failed = false)
    (heligible : s.eligible = some (index, offset)) : Ok (s.claim t index offset) := by
  obtain ⟨hindex, ho, hbusy, hbefore⟩ := eligible_some heligible
  refine ⟨h.slots.claim ht hindex ho hbusy, h.history.claim h.slots hok ht hindex ho hbusy hbefore,
    h.ends.keep id id (Nat.sub_le _ _) (fun t' ht' => ?_) fun t' ht' => ?_⟩
  · exact of_update (by simp) ht'
  · exact of_update (by simp) ht'

theorem Ok.conclude (h : Ok s) {processed : Bool} (ht : (s.threads t).running = some (index, slot))
    (hprocessed : s.failed = false → processed = true) : Ok (s.conclude t index slot processed) := by
  refine ⟨h.slots.congr rfl rfl rfl fun t' => ?_, h.history.conclude h.slots ht hprocessed,
    h.ends.keep id id le_rfl (fun t' ht' => of_update (by simp) ht') fun t' ht' => of_update (by simp) ht'⟩
  refine (held_update t').trans ?_
  split_ifs with heq
  · rw [heq, held_of_running ht]
    rfl
  · rfl

theorem Ok.release (h : Ok s) (ht : s.threads t = .finishing index slot) :
    Ok (s.release t index slot) := by
  refine ⟨h.slots.release (by rw [ht]; rfl), h.history.release h.slots ht,
    h.ends.keep id id le_rfl (fun t' ht' => of_update (by simp) ht') fun t' ht' => of_update (by simp) ht'⟩

/-- A thread throws, and fails the worker. -/
theorem Ok.throws (h : Ok s) (ht : s.threads t = .processing index slot) :
    Ok { s with failed := true, threads := update s.threads t (.failing index slot) } := by
  have hsame : ∀ t', (update s.threads t (.failing index slot) t').held = (s.threads t').held ∧
      (update s.threads t (.failing index slot) t').running = (s.threads t').running := by
    intro t'
    rw [update_apply]
    split_ifs with heq
    · rw [heq, ht]
      exact ⟨rfl, rfl⟩
    · exact ⟨rfl, rfl⟩
  exact ⟨h.slots.congr rfl rfl rfl fun t' => (hsame t').1,
    h.history.congr (fun _ => rfl) rfl rfl rfl rfl (fun t' => (hsame t').2) (fun _ _ _ => rfl)
      (fun _ _ _ _ => rfl) Bool.noConfusion,
    h.ends.keep (fun _ => rfl) id le_rfl (fun t' ht' => of_update (by simp) ht') fun t' ht' =>
      of_update (by simp) ht'⟩

/-- A thread that has no slot goes on. -/
theorem Ok.goes (h : Ok s) {x : DetectorThread} (ht : (s.threads t).held = none) (hx : x.held = none)
    (hleaving : x = .leaving → s.failed = true ∨ s.producerDone = true ∧ s.pendingJobs = 0)
    (hended : x = .ended → (s.failed = true ∨ s.producerDone = true) ∧ s.pendingJobs = 0) :
    Ok { s with threads := update s.threads t x } := by
  have hnone : ∀ y : DetectorThread, y.held = none → y.running = none := fun y hy => by
    cases y with
    | processing queue slot => cases hy
    | failing queue slot => cases hy
    | waiting | finishing | leaving | ended => rfl
  have hsame : ∀ t', (update s.threads t x t').held = (s.threads t').held ∧
      (update s.threads t x t').running = (s.threads t').running := by
    intro t'
    rw [update_apply]
    split_ifs with heq
    · rw [heq, ht, hx, hnone _ ht, hnone _ hx]
      exact ⟨rfl, rfl⟩
    · exact ⟨rfl, rfl⟩
  refine ⟨h.slots.congr rfl rfl rfl fun t' => (hsame t').1,
    h.history.congr (fun _ => rfl) rfl rfl rfl rfl (fun t' => (hsame t').2) (fun _ _ _ => rfl)
      (fun t' i slot ht' => ?_) id, fun t' ht' => ?_, fun t' ht' => ?_⟩
  · refine h.history.failing t' i slot (of_update (fun hxf => ?_) ht')
    rw [hxf] at hx
    cases hx
  · change update s.threads t x t' = _ at ht'
    rw [update_apply] at ht'
    split_ifs at ht'
    · exact hleaving ht'
    · exact h.ends.leaving t' ht'
  · change update s.threads t x t' = _ at ht'
    rw [update_apply] at ht'
    split_ifs at ht'
    · exact hended ht'
    · exact h.ends.ended t' ht'

theorem Ok.discards (h : Ok s) (hfailed : s.failed = true) :
    Ok s.discardJobs ∧ s.discardJobs.pendingJobs = 0 ∧ s.discardJobs.failed = true ∧
      s.discardJobs.threads = s.threads := by
  obtain ⟨hkept, hzero⟩ := discards_jobs ⟨h.slots, h.history, hfailed, rfl, rfl, fun _ => le_rfl⟩
  refine ⟨⟨hkept.slots, hkept.history, h.ends.keep (fun _ => hkept.failed) (fun hd => ?_) (by omega)
    (fun t ht => ?_) fun t ht => ?_⟩, hzero, hkept.failed, hkept.threads⟩
  · rw [hkept.producerDone, hd]
  · rwa [hkept.threads] at ht
  · rwa [hkept.threads] at ht

/-- The steps of a thread. -/
inductive ThreadStep (s : Scheduler C) : Scheduler C → Prop
  | stays : ThreadStep s s
  | claims {t : Fin detectorWorkers} {index offset : ℕ} (ht : s.threads t = .waiting)
      (hok : s.failed = false) (heligible : s.eligible = some (index, offset)) :
      ThreadStep s (s.claim t index offset)
  | completes {t : Fin detectorWorkers} {index slot : ℕ} (ht : s.threads t = .processing index slot) :
      ThreadStep s (s.conclude t index slot true)
  | throws {t : Fin detectorWorkers} {index slot : ℕ} (ht : s.threads t = .processing index slot) :
      ThreadStep s { s with failed := true, threads := update s.threads t (.failing index slot) }
  | abandons {t : Fin detectorWorkers} {index slot : ℕ} (ht : s.threads t = .failing index slot) :
      ThreadStep s (s.conclude t index slot false)
  | releases {t : Fin detectorWorkers} {index slot : ℕ} (ht : s.threads t = .finishing index slot) :
      ThreadStep s (s.release t index slot)
  | leaves {t : Fin detectorWorkers} (ht : s.threads t = .waiting)
      (hgo : s.failed = true ∨ s.eligible = none ∧ s.producerDone = true ∧ s.pendingJobs = 0) :
      ThreadStep s { s with threads := update s.threads t .leaving }
  | discards {t : Fin detectorWorkers} (ht : s.threads t = .leaving) (hfailed : s.failed = true) :
      ThreadStep s { s.discardJobs with threads := update s.threads t .ended }
  | ends {t : Fin detectorWorkers} (ht : s.threads t = .leaving) (hok : s.failed = false) :
      ThreadStep s { s with threads := update s.threads t .ended }

theorem Ok.threadStep (h : Ok s) (ht : e.thread.isSome) : ThreadStep s (s.step e) := by
  -- A step whose guard fails stays; otherwise the constructor is that of the event.
  cases e with
  | enqueue | fail | producerEnds => cases ht
  | claim t =>
    simp only [Scheduler.step]
    split
    next index offset ht heligible =>
      split_ifs with hfailed
      · exact .stays
      · exact .claims ht (by simpa using hfailed) heligible
    next => exact .stays
  | complete t =>
    simp only [Scheduler.step]
    split
    next index slot ht => exact .completes ht
    next => exact .stays
  | throw t =>
    simp only [Scheduler.step]
    split
    next index slot ht => exact .throws ht
    next => exact .stays
  | abandon t =>
    simp only [Scheduler.step]
    split
    next index slot ht => exact .abandons ht
    next => exact .stays
  | release t =>
    simp only [Scheduler.step]
    split
    next index slot ht => exact .releases ht
    next => exact .stays
  | leave t =>
    simp only [Scheduler.step]
    split
    next ht =>
      split_ifs with hgo
      · exact .leaves ht hgo
      · exact .stays
    next => exact .stays
  | finish t =>
    simp only [Scheduler.step]
    split
    next ht =>
      by_cases hfailed : s.failed = true
      · simp only [if_pos hfailed]
        have hthreads := (h.discards hfailed).2.2.2
        rw [hthreads]
        exact .discards ht hfailed
      · simp only [if_neg hfailed]
        exact .ends ht (by simpa using hfailed)
    next => exact .stays

theorem Ok.thread (h : Ok s) (hstep : ThreadStep s s') : Ok s' := by
  cases hstep with
  | stays => exact h
  | claims ht hok heligible => exact h.claim ht hok heligible
  | completes ht => exact h.conclude (by rw [ht]; rfl) fun _ => rfl
  | throws ht => exact h.throws ht
  | abandons ht =>
    refine h.conclude (by rw [ht]; rfl) fun hok => ?_
    rw [h.history.failing _ _ _ ht] at hok
    cases hok
  | releases ht => exact h.release ht
  | leaves ht hgo => exact h.goes (by rw [ht]; rfl) rfl (fun _ => hgo.imp id And.right) (nomatch ·)
  | discards ht hfailed =>
    obtain ⟨hok, hzero, hfails, hthreads⟩ := h.discards hfailed
    have hleaving := hok.goes (t := _) (x := .ended) (by rw [hthreads, ht]; rfl) rfl (nomatch ·)
      fun _ => ⟨.inl hfails, hzero⟩
    rwa [hthreads] at hleaving
  | ends ht hok =>
    have hgone := (h.ends.leaving _ ht).resolve_left (by simp [hok])
    exact h.goes (by rw [ht]; rfl) rfl (nomatch ·) fun _ => ⟨.inr hgone.1, hgone.2⟩

/-- **Every step keeps it.** -/
theorem Ok.step (h : Ok s) (e : SchedulerEvent C) : Ok (s.step e) := by
  by_cases ht : e.thread.isSome
  · exact h.thread (h.threadStep ht)
  cases e with
  | enqueue job => exact h.enqueue job
  | fail => exact h.fails
  | producerEnds =>
    exact ⟨h.slots.congr rfl rfl rfl fun _ => rfl, h.history.congr (fun _ => rfl) rfl rfl rfl rfl
      (fun _ => rfl) (fun _ _ _ => rfl) h.history.failing id,
      h.ends.keep id (fun _ => rfl) le_rfl (fun _ => id) fun _ => id⟩
  | claim | complete | throw | abandon | release | leave | finish => exact absurd rfl ht

theorem Ok.run (events : List (SchedulerEvent C)) : Ok (run Scheduler.step {} events) :=
  invariant_run (fun _ e h => h.step e) Ok.initial events

/-! ## The order of the jobs -/

/-- **The jobs of a subband go through its detector in the order they were queued, each once**, in
whatever order the threads take their steps: one thread at a time has one of its jobs, and without a
failure all are processed. -/
theorem detector_order (events : List (SchedulerEvent C)) (b : ℕ) :
    let s := run Scheduler.step {} events
    let finished := ofBand b (s.finished.map Prod.fst)
    ofBand b s.enqueued = ofBand b s.started ++ ofBand b s.discarded ++
        ofBand b (s.queues (b % detectorWorkers)).waiting ∧
      (ofBand b s.started = finished ∨ ∃ t place, (s.threads t).running = some place ∧
        (s.jobAt place).subband = b ∧ ofBand b s.started = finished ++ [s.jobAt place]) ∧
      (∀ t t' place place', (s.threads t).held = some place → (s.threads t').held = some place' →
        (s.jobAt place).subband = (s.jobAt place').subband → t = t') ∧
      (s.failed = false → s.discarded = [] ∧ ∀ done ∈ s.finished, done.2 = true) ∧
      ((∀ t, s.threads t = .ended) →
        ofBand b s.enqueued = finished ++ ofBand b s.discarded ∧ s.pendingJobs = 0 ∧
          ∀ index, (s.queues index).occupiedCount = 0 ∧ ∀ slot, (s.queues index).occupied slot = false) := by
  intro s finished
  have hok : Ok s := Ok.run events
  clear_value s
  have hstarted : ofBand b s.started = finished ∨ ∃ t place, (s.threads t).running = some place ∧
      (s.jobAt place).subband = b ∧ ofBand b s.started = finished ++ [s.jobAt place] := by
    by_cases hrunning : ∃ t place, (s.threads t).running = some place ∧ (s.jobAt place).subband = b
    · obtain ⟨t, place, ht, rfl⟩ := hrunning
      exact .inr ⟨t, place, ht, rfl, hok.history.active t place ht⟩
    · exact .inl (hok.history.idle b fun t place ht hb => hrunning ⟨t, place, ht, hb⟩)
  refine ⟨hok.history.queued b, hstarted, hok.slots.alone, hok.history.clean, fun hended => ?_⟩
  -- Once all threads have ended no slot is held, so what is occupied would be pending, and nothing is.
  have hnone : ∀ t, (s.threads t).running = none ∧ (s.threads t).held = none := fun t => by
    rw [hended t]
    exact ⟨rfl, rfl⟩
  have hzero : s.pendingJobs = 0 := (hok.ends.ended ⟨0, by decide⟩ (hended _)).2
  have hempty : ∀ index < detectorWorkers, (s.queues index).pending = [] := fun index hindex => by
    have hsum := hok.slots.pendingJobs
    rw [hzero] at hsum
    have hcount := Finset.sum_eq_zero_iff.mp hsum.symm index (Finset.mem_range.mpr hindex)
    rw [DetectorQueue.pending, RingQueue.entries, hcount, List.range_zero, List.map_nil]
  have hfree : ∀ index slot, (s.queues index).occupied slot = false := fun index slot => by
    by_contra hset
    have hset : (s.queues index).occupied slot = true := by simpa using hset
    have hindex : index < detectorWorkers :=
      (hok.slots.queue index).home slot hset ▸ Nat.mod_lt _ (by decide)
    rcases ((hok.slots.queue index).occupied slot).mp hset with hin | ⟨t, ht⟩
    · rw [hempty index hindex] at hin
      cases hin
    · rw [(hnone t).2] at ht
      cases ht
  refine ⟨?_, hzero, fun index => ⟨?_, hfree index⟩⟩
  · have hidle : ofBand b s.started = finished := hok.history.idle b fun t place ht => by
      rw [(hnone t).1] at ht
      cases ht
    rw [hok.history.queued b, hidle, DetectorQueue.waiting, hempty _ (Nat.mod_lt _ (by decide)),
      List.map_nil]
    exact List.append_nil _
  · rw [(hok.slots.queue index).count]
    simp [hfree index]

/-! ## Progress -/

/-- How many steps the threads have before them at most, if no job is added. -/
def work (s : Scheduler C) : ℕ := 4 * s.pendingJobs + ∑ t, (s.threads t).weight

theorem work_update (pending : ℕ) {x : DetectorThread} (hthreads : s'.threads = update s.threads t x)
    (hpending : s'.pendingJobs + pending = s.pendingJobs) :
    s'.work + 4 * pending + (s.threads t).weight = s.work + x.weight := by
  have hsum := sum_update (f := s.threads) (g := DetectorThread.weight) (x := x) (Finset.mem_univ t)
  rw [work, work, hthreads]
  omega

/-- A thread goes on to where it has fewer steps before it. -/
theorem work_lt_of_weight {x : DetectorThread} (hthreads : s'.threads = update s.threads t x)
    (hpending : s'.pendingJobs ≤ s.pendingJobs) (hx : x.weight < (s.threads t).weight) :
    s'.work < s.work := by
  have hless := work_update (s.pendingJobs - s'.pendingJobs) hthreads (by omega)
  omega

/-- A step of a thread that does something leaves less work. -/
theorem Ok.work_lt (h : Ok s) (hstep : ThreadStep s s') (hne : s' ≠ s) : s'.work < s.work := by
  cases hstep with
  | stays => exact absurd rfl hne
  | @claims t index offset ht hok heligible =>
    obtain ⟨hindex, ho, -⟩ := eligible_some heligible
    have hpos : 1 ≤ s.pendingJobs := by
      rw [h.slots.pendingJobs]
      exact le_trans (by omega) (Finset.single_le_sum (f := fun i => (s.queues i).ready.count)
        (fun _ _ => Nat.zero_le _) (Finset.mem_range.mpr hindex))
    have hpending : (s.claim t index offset).pendingJobs + 1 = s.pendingJobs := Nat.sub_add_cancel hpos
    have hless := work_update 1 rfl hpending
    rw [ht] at hless
    simp only [DetectorThread.weight] at hless
    omega
  | completes ht | throws ht | abandons ht | releases ht | leaves ht hgo | ends ht hok =>
    exact work_lt_of_weight rfl le_rfl (by simp [ht, DetectorThread.weight])
  | discards ht hfailed =>
    obtain ⟨-, hzero, -, hthreads⟩ := h.discards hfailed
    exact work_lt_of_weight rfl (hzero.trans_le (Nat.zero_le _)) (by simp [ht, DetectorThread.weight])

/-- What keeps the threads waiting, if nothing else does. -/
def Awaits (s : Scheduler C) : Prop :=
  s.failed = false ∧ s.producerDone = false ∧ s.pendingJobs = 0 ∧ (∀ t, s.threads t = .waiting) ∧
    ∀ job, (s.step (.enqueue job)).enqueued = s.enqueued ++ [job]

theorem step_ne (t : Fin detectorWorkers) {x : DetectorThread} (hx : (s.step e).threads t = x) (hne : s.threads t ≠ x) :
    s.step e ≠ s := fun heq => hne (by rw [← hx, heq])

theorem Ok.goes_on (h : Ok s) :
    (∃ e : SchedulerEvent C, e.thread.isSome ∧ s.step e ≠ s) ∨ (∀ t, s.threads t = .ended) ∨ s.Awaits := by
  by_cases hmove : ∃ e : SchedulerEvent C, e.thread.isSome ∧ s.step e ≠ s
  · exact .inl hmove
  refine .inr ?_
  have hstuck : ∀ e : SchedulerEvent C, e.thread.isSome → s.step e = s := fun e he => by
    by_contra hne
    exact hmove ⟨e, he, hne⟩
  -- A thread that has a slot, or leaves, has its next step.
  have hrest : ∀ t, s.threads t = .waiting ∨ s.threads t = .ended := by
    intro t
    cases ht : s.threads t with
    | waiting => exact .inl rfl
    | ended => exact .inr rfl
    | processing index slot =>
      refine absurd (hstuck (.complete t) rfl) (step_ne t (x := .finishing index slot) ?_ (by simp [ht]))
      simp [Scheduler.step, ht, Scheduler.conclude]
    | failing index slot =>
      refine absurd (hstuck (.abandon t) rfl) (step_ne t (x := .finishing index slot) ?_ (by simp [ht]))
      simp [Scheduler.step, ht, Scheduler.conclude]
    | finishing index slot =>
      refine absurd (hstuck (.release t) rfl) (step_ne t (x := .waiting) ?_ (by simp [ht]))
      simp [Scheduler.step, ht, Scheduler.release]
    | leaving =>
      refine absurd (hstuck (.finish t) rfl) (step_ne t (x := .ended) ?_ (by simp [ht]))
      simp [Scheduler.step, ht]
  have hnone : ∀ t, (s.threads t).held = none := fun t => by
    rcases hrest t with ht | ht <;> rw [ht] <;> rfl
  have hfree : ∀ b, s.busy b = false := fun b => by
    by_contra hset
    obtain ⟨t, place, ht, -⟩ := (h.slots.busy b).mp (by simpa using hset)
    rw [hnone] at ht
    cases ht
  by_cases hended : ∀ t, s.threads t = .ended
  · exact .inl hended
  obtain ⟨t, ht⟩ := not_forall.mp hended
  have ht : s.threads t = .waiting := (hrest t).resolve_right ht
  have hgo : ¬ (s.failed = true ∨ s.eligible = none ∧ s.producerDone = true ∧ s.pendingJobs = 0) :=
    fun hgo => by
      refine absurd (hstuck (.leave t) rfl) (step_ne t (x := .leaving) ?_ (by simp [ht]))
      simp [Scheduler.step, ht, hgo]
  obtain ⟨hok, hgo⟩ := not_or.mp hgo
  have hok : s.failed = false := by simpa using hok
  have heligible : s.eligible = none := by
    by_contra hsome
    obtain ⟨⟨index, offset⟩, hsome⟩ := Option.ne_none_iff_exists'.mp hsome
    refine absurd (hstuck (.claim t) rfl) (step_ne t
      (x := .processing index ((s.queues index).ready.get 0 offset)) ?_ (by simp [ht]))
    simp [Scheduler.step, ht, hsome, hok, Scheduler.claim]
  -- The jobs that wait are of subbands that a thread has, and no thread has one.
  have hempty : ∀ index < detectorWorkers, (s.queues index).ready.count = 0 := fun index hindex => by
    by_contra hpos
    have hset := eligible_none heligible hindex (Nat.pos_of_ne_zero hpos)
    rw [hfree] at hset
    cases hset
  have hzero : s.pendingJobs = 0 :=
    h.slots.pendingJobs.trans (Finset.sum_eq_zero fun i hi => hempty i (Finset.mem_range.mp hi))
  have hopen : s.producerDone = false := by
    by_contra hdone
    exact hgo ⟨heligible, by simpa using hdone, hzero⟩
  refine .inr ⟨hok, hopen, hzero, fun t' => (hrest t').resolve_right fun hend => ?_, fun job => ?_⟩
  · rcases (h.ends.ended t' hend).1 with hstop | hstop
    · rw [hok] at hstop
      cases hstop
    · rw [hopen] at hstop
      cases hstop
  · have hindex : job.subband % detectorWorkers < detectorWorkers := Nat.mod_lt _ (by decide)
    have hqueue := h.slots.queue (job.subband % detectorWorkers)
    have hclear : ∀ slot, (s.queues (job.subband % detectorWorkers)).occupied slot = false := by
      intro slot
      by_contra hset
      rcases (hqueue.occupied slot).mp (by simpa using hset) with hin | ⟨t', ht'⟩
      · rw [DetectorQueue.pending, RingQueue.entries, hempty _ hindex] at hin
        cases hin
      · rw [hnone] at ht'
        cases ht'
    have hcount : (s.queues (job.subband % detectorWorkers)).occupiedCount = 0 := by
      rw [hqueue.count]
      simp [hclear]
    obtain ⟨slot, hslot⟩ := hqueue.exists_free (by rw [hcount]; decide)
    have hput : s.step (.enqueue job) = s.put slot job := by
      have hroom : 0 < detectorQueueCapacity := by decide
      simp [Scheduler.step, Scheduler.enqueue, hok, hopen, hcount, hslot, hroom]
    rw [hput]
    rfl

/-- **The threads go on until all have ended**: while no job is queued, each step that one of the threads
takes leaves less work, and where no thread has a step they have all ended, or they all wait for a job
and there is room for it. -/
theorem detector_progress (events more : List (SchedulerEvent C))
    (hmore : Along Scheduler.step (fun s e => e.thread.isSome ∧ s.step e ≠ s)
      (run Scheduler.step {} events) more) :
    let s := run Scheduler.step {} events
    let s' := run Scheduler.step s more
    more.length + s'.work ≤ s.work ∧
      ((∃ e : SchedulerEvent C, e.thread.isSome ∧ s'.step e ≠ s') ∨ (∀ t, s'.threads t = .ended) ∨
        s'.Awaits) := by
  intro s s'
  have hs : Ok s := Ok.run events
  have hsteps : ∀ (more : List (SchedulerEvent C)) (s : Scheduler C), Ok s →
      Along Scheduler.step (fun s e => e.thread.isSome ∧ s.step e ≠ s) s more →
      more.length + (run Scheduler.step s more).work ≤ s.work ∧ Ok (run Scheduler.step s more) := by
    intro more
    induction more with
    | nil => exact fun s hs _ => ⟨by simp, hs⟩
    | cons e more ih =>
      rintro s hs ⟨⟨he, hne⟩, hrest⟩
      have hless := hs.work_lt (hs.threadStep he) hne
      obtain ⟨hwork, hok⟩ := ih (s.step e) (hs.step e) hrest
      rw [run_cons, List.length_cons]
      exact ⟨by omega, hok⟩
  obtain ⟨hwork, hs'⟩ := hsteps more s hs hmore
  exact ⟨hwork, hs'.goes_on⟩

theorem detector_progress_claim :
    let s : Scheduler ℕ := run Scheduler.step {} [.enqueue .blank]
    let t : Fin detectorWorkers := ⟨0, by decide⟩
    let s' := run Scheduler.step s [.claim t, .complete t, .release t]
    s.work = 10 ∧ 3 + s'.work ≤ s.work := by
  intro s t s'
  have hmore : Along Scheduler.step (fun s e => e.thread.isSome ∧ s.step e ≠ s) s
      [.claim t, .complete t, .release t] :=
    ⟨⟨rfl, step_ne t (x := .processing 0 0) rfl (by decide)⟩,
      ⟨rfl, step_ne t (x := .finishing 0 0) rfl (by decide)⟩,
      ⟨rfl, step_ne t (x := .waiting) rfl (by decide)⟩, trivial⟩
  obtain ⟨hwork, -⟩ := detector_progress [.enqueue .blank] _ hmore
  exact ⟨by decide, hwork⟩

end Scheduler

end Discovery

end OVMesh
