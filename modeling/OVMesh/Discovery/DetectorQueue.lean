import OVMesh.Discovery.Producer
import OVMesh.Lib.RingQueue

/-!
# The queues of the detectors

`Worker`: a queue of jobs with a slot for each. A job has its slot from when it is queued until the
thread that took it has released it.

* `DetectorQueue`: the slots, the ring of those that wait, and the operations of the critical sections.
* `QueueOk`: a slot waits, or a thread has it, or it is free.
* `QueueOk.put`, `QueueOk.take`, `QueueOk.clear`, `QueueOk.drop`: the operations keep it.
-/

namespace OVMesh

namespace Discovery

open Function

/-- The detector threads. -/
def detectorWorkers : ℕ := 3
/-- The jobs that a queue of a detector thread has slots for. -/
def detectorQueueCapacity : ℕ := 16

/-- A job without samples. -/
def Job.blank {C : Type} : Job C :=
  { reset := false, subband := 0, segment := 0, firstLocal := 0, anchor := 0, stride := 0, values := [] }

/-- `Worker`: a queue with its slots. -/
structure DetectorQueue (C : Type) where
  jobs : ℕ → Job C := fun _ => .blank
  ready : RingQueue ℕ := { slots := List.replicate detectorQueueCapacity 0 }
  occupied : ℕ → Bool := fun _ => false
  occupiedCount : ℕ := 0

namespace DetectorQueue

variable {C : Type} (q : DetectorQueue C)

/-- The slots of the jobs that wait, oldest first. -/
def pending : List ℕ := q.ready.entries 0

/-- The jobs that wait. -/
def waiting : List (Job C) := q.pending.map q.jobs

/-- `free` of `enqueue` -/
def freeSlot : Option ℕ := (List.range detectorQueueCapacity).find? fun slot => !q.occupied slot

/-- The job goes to a free slot, which becomes the last of the ready ones. -/
def put (slot : ℕ) (job : Job C) : DetectorQueue C :=
  { jobs := update q.jobs slot job
    ready := q.ready.push slot
    occupied := update q.occupied slot true
    occupiedCount := q.occupiedCount + 1 }

/-- A thread takes a waiting job, which keeps its slot. -/
def take (offset : ℕ) : DetectorQueue C := { q with ready := q.ready.removeAt 0 offset }

/-- A slot is given back, its samples cleared. -/
def clear (slot : ℕ) : DetectorQueue C :=
  { q with
    jobs := update q.jobs slot { q.jobs slot with values := [] }
    occupied := update q.occupied slot false
    occupiedCount := q.occupiedCount - 1 }

/-- The oldest job is given up. -/
def drop : DetectorQueue C := { q.clear (q.ready.get 0 0) with ready := q.ready.pop }

end DetectorQueue

/-! ## One queue -/

/-- The jobs of a subband. -/
def ofBand {C : Type} (b : ℕ) (jobs : List (Job C)) : List (Job C) := jobs.filter (·.subband = b)

/-- A queue, and the slots of it that threads have. -/
structure QueueOk {C : Type} (index : ℕ) (held : ℕ → Prop) (q : DetectorQueue C) : Prop where
  sound : q.ready.Sound
  length : q.ready.slots.length = detectorQueueCapacity
  nodup : q.pending.Nodup
  apart : ∀ slot, held slot → slot ∉ q.pending
  occupied : ∀ slot, q.occupied slot = true ↔ slot ∈ q.pending ∨ held slot
  bound : ∀ slot, q.occupied slot = true → slot < detectorQueueCapacity
  home : ∀ slot, q.occupied slot = true → (q.jobs slot).subband % detectorWorkers = index
  count : q.occupiedCount =
    ((Finset.range detectorQueueCapacity).filter fun slot => q.occupied slot = true).card

variable {C : Type} {index slot offset b : ℕ} {held held' : ℕ → Prop} {q : DetectorQueue C} {job : Job C}

@[simp] theorem ofBand_append {l l' : List (Job C)} : ofBand b (l ++ l') = ofBand b l ++ ofBand b l' :=
  List.filter_append ..

theorem ofBand_singleton : ofBand b [job] = if job.subband = b then [job] else [] := by
  simp [ofBand, List.filter_singleton]

theorem card_occupy {f : ℕ → Bool} {n : ℕ} (hslot : slot < n) (hfree : f slot = false) :
    ((Finset.range n).filter fun x => update f slot true x = true).card =
      ((Finset.range n).filter fun x => f x = true).card + 1 := by
  have hinsert : ((Finset.range n).filter fun x => update f slot true x = true) =
      insert slot ((Finset.range n).filter fun x => f x = true) := by
    ext x
    by_cases hx : x = slot
    · simp [hx, hslot]
    · simp [hx]
  rw [hinsert, Finset.card_insert_of_notMem (by simp [hfree])]

theorem card_clear {f : ℕ → Bool} {n : ℕ} (hslot : slot < n) (hset : f slot = true) :
    ((Finset.range n).filter fun x => update f slot false x = true).card =
      ((Finset.range n).filter fun x => f x = true).card - 1 := by
  have herase : ((Finset.range n).filter fun x => update f slot false x = true) =
      ((Finset.range n).filter fun x => f x = true).erase slot := by
    ext x
    by_cases hx : x = slot
    · simp [hx]
    · simp [hx]
  rw [herase, Finset.card_erase_of_mem (by simp [hslot, hset])]

/-- A sum in which one member has changed. -/
theorem sum_update {ι β : Type} [DecidableEq ι] {S : Finset ι} {f : ι → β} {g : β → ℕ} {a : ι} {x : β}
    (ha : a ∈ S) : ∑ i ∈ S, g (update f a x i) + g (f a) = ∑ i ∈ S, g (f i) + g x := by
  have hrest : ∑ i ∈ S.erase a, g (update f a x i) = ∑ i ∈ S.erase a, g (f i) :=
    Finset.sum_congr rfl fun i hi => by rw [update_of_ne (Finset.ne_of_mem_erase hi)]
  rw [← Finset.add_sum_erase _ _ ha, ← Finset.add_sum_erase _ (fun i => g (f i)) ha, update_self, hrest]
  omega

theorem ofBand_eq_nil {l : List (Job C)} (h : ∀ job ∈ l, job.subband ≠ b) : ofBand b l = [] := by
  simpa [ofBand] using h

namespace QueueOk

theorem congr (h : QueueOk index held q) (hiff : ∀ slot, held' slot ↔ held slot) :
    QueueOk index held' q := by
  have heq : held' = held := funext fun slot => propext (hiff slot)
  rwa [heq]

theorem empty : QueueOk index (fun _ => False) ({} : DetectorQueue C) where
  sound := ⟨by simp [detectorQueueCapacity], rfl, Nat.zero_le _⟩
  length := List.length_replicate
  nodup := List.nodup_nil
  apart := fun _ h => h.elim
  occupied := by simp [DetectorQueue.pending, RingQueue.entries]
  bound := fun _ h => by cases h
  home := fun _ h => by cases h
  count := by simp

theorem free (hfree : q.freeSlot = some slot) :
    slot < detectorQueueCapacity ∧ q.occupied slot = false :=
  ⟨List.mem_range.mp (List.mem_of_find?_eq_some hfree), by simpa using List.find?_some hfree⟩

/-- While fewer slots are occupied than there are, one is free. -/
theorem exists_free (h : QueueOk index held q) (hlt : q.occupiedCount < detectorQueueCapacity) :
    ∃ slot, q.freeSlot = some slot := by
  rw [← Option.isSome_iff_exists]
  by_contra hnone
  have hall : ∀ slot < detectorQueueCapacity, q.occupied slot = true := by
    simpa [DetectorQueue.freeSlot] using hnone
  rw [h.count, Finset.filter_true_of_mem fun slot hslot => hall slot (Finset.mem_range.mp hslot),
    Finset.card_range] at hlt
  exact absurd hlt (lt_irrefl _)

theorem pending_le (h : QueueOk index held q) (hfree : q.freeSlot = some slot) :
    q.ready.count < q.ready.slots.length := by
  obtain ⟨hslot, hfree⟩ := free hfree
  have hsub : slot :: q.pending ⊆ List.range detectorQueueCapacity := by
    refine List.cons_subset.mpr ⟨List.mem_range.mpr hslot, fun x hx => ?_⟩
    exact List.mem_range.mpr (h.bound x ((h.occupied x).mpr (.inl hx)))
  have hnotin : slot ∉ q.pending := fun hin => by
    have := (h.occupied slot).mpr (.inl hin)
    rw [hfree] at this
    cases this
  have hlength := ((h.nodup.cons hnotin).subperm hsub).length_le
  rw [List.length_cons, DetectorQueue.pending, RingQueue.length_entries, List.length_range] at hlength
  rw [h.length]
  omega

/-- A job enters a free slot. -/
theorem put (h : QueueOk index held q) (hfree : q.freeSlot = some slot)
    (hhome : job.subband % detectorWorkers = index) :
    QueueOk index held (q.put slot job) ∧ (q.put slot job).waiting = q.waiting ++ [job] := by
  have hroom := h.pending_le hfree
  obtain ⟨hslot, hfree⟩ := free hfree
  have hnotin : slot ∉ q.pending := fun hin => by
    simpa [hfree] using (h.occupied slot).mpr (.inl hin)
  have hnotheld : ¬ held slot := fun hin => by
    simpa [hfree] using (h.occupied slot).mpr (.inr hin)
  have hpending : (q.put slot job).pending = q.pending ++ [slot] := h.sound.entries_push hroom slot
  refine ⟨⟨h.sound.push hroom slot, ?_, ?_, ?_, ?_, ?_, ?_, ?_⟩, ?_⟩
  · simpa [DetectorQueue.put, RingQueue.push] using h.length
  · rw [hpending]
    exact List.nodup_append.mpr ⟨h.nodup, List.nodup_singleton _, fun x hx y hy => by
      rintro rfl
      exact hnotin (List.mem_singleton.mp hy ▸ hx)⟩
  · intro x hx
    rw [hpending, List.mem_append, List.mem_singleton, not_or]
    exact ⟨h.apart x hx, fun heq => hnotheld (heq ▸ hx)⟩
  · intro x
    rw [hpending, List.mem_append, List.mem_singleton]
    by_cases hx : x = slot
    · subst hx
      simp [DetectorQueue.put]
    · simp [DetectorQueue.put, hx, h.occupied x]
  · intro x hx
    by_cases hxs : x = slot
    · rwa [hxs]
    · exact h.bound x (by simpa [DetectorQueue.put, hxs] using hx)
  · intro x hx
    by_cases hxs : x = slot
    · subst hxs
      simpa [DetectorQueue.put] using hhome
    · simpa [DetectorQueue.put, hxs] using h.home x (by simpa [DetectorQueue.put, hxs] using hx)
  · exact (congrArg (· + 1) h.count).trans (card_occupy hslot hfree).symm
  · rw [DetectorQueue.waiting, hpending, List.map_append, List.map_singleton]
    congr 1
    · refine List.map_congr_left fun x hx => ?_
      have hne : x ≠ slot := fun heq => hnotin (heq ▸ hx)
      simp [DetectorQueue.put, hne]
    · simp [DetectorQueue.put]

/-- The slots of a queue, around the one that is taken. -/
theorem take_pending (h : QueueOk index held q) (ho : offset < q.ready.count) :
    ∃ before after, before.length = offset ∧
      q.pending = before ++ q.ready.get 0 offset :: after ∧
      (q.take offset).pending = before ++ after := by
  have hlength : q.pending.length = q.ready.count := RingQueue.length_entries
  have hlt : offset < q.pending.length := by omega
  have hget : q.pending[offset] = q.ready.get 0 offset := by
    have hsome : q.pending[offset]? = some (q.ready.get 0 offset) := RingQueue.getElem?_entries ho
    rwa [List.getElem?_eq_getElem hlt, Option.some.injEq] at hsome
  have htaken : (q.take offset).pending = q.pending.eraseIdx offset := h.sound.entries_removeAt ho
  refine ⟨q.pending.take offset, q.pending.drop (offset + 1), ?_, ?_, ?_⟩
  · rw [List.length_take]
    omega
  · conv_lhs => rw [← List.take_append_drop offset q.pending]
    rw [List.drop_eq_getElem_cons hlt, hget]
  · rw [htaken, List.eraseIdx_eq_take_drop_succ]

/-- A thread takes a job. -/
theorem take (h : QueueOk index held q) (ho : offset < q.ready.count) :
    QueueOk index (fun x => held x ∨ x = q.ready.get 0 offset) (q.take offset) := by
  obtain ⟨before, after, -, hpending, htaken⟩ := h.take_pending ho
  have hnodup := h.nodup
  rw [hpending, List.nodup_middle, List.nodup_cons] at hnodup
  refine ⟨h.sound.removeAt ho, ?_, ?_, ?_, ?_, h.bound, h.home, h.count⟩
  · exact (h.sound.length_removeAt ho).trans h.length
  · rw [htaken]
    exact hnodup.2
  · rintro x (hx | rfl)
    · have := h.apart x hx
      rw [hpending] at this
      rw [htaken]
      simp only [List.mem_append, List.mem_cons, not_or] at this ⊢
      exact ⟨this.1, this.2.2⟩
    · rw [htaken]
      exact hnodup.1
  · intro x
    have hx : (q.take offset).occupied x = q.occupied x := rfl
    rw [hx, h.occupied x, hpending, htaken]
    simp only [List.mem_append, List.mem_cons]
    tauto

/-- A thread gives its slot back. -/
theorem clear (h : QueueOk index held q) (hheld : held slot) :
    QueueOk index (fun x => held x ∧ x ≠ slot) (q.clear slot) ∧ (q.clear slot).waiting = q.waiting := by
  have hnotin := h.apart slot hheld
  have hslot := h.bound slot ((h.occupied slot).mpr (.inr hheld))
  have hoccupied := (h.occupied slot).mpr (.inr hheld)
  have hpending : (q.clear slot).pending = q.pending := rfl
  refine ⟨⟨h.sound, h.length, h.nodup, fun x hx => h.apart x hx.1, ?_, ?_, ?_, ?_⟩, ?_⟩
  · intro x
    by_cases hx : x = slot
    · subst hx
      rw [hpending]
      simp [DetectorQueue.clear, hnotin]
    · have hkept : (q.clear slot).occupied x = q.occupied x := by simp [DetectorQueue.clear, hx]
      rw [hkept, h.occupied x, hpending]
      simp [hx]
  · intro x hx
    by_cases hxs : x = slot
    · rwa [hxs]
    · exact h.bound x (by simpa [DetectorQueue.clear, hxs] using hx)
  · intro x hx
    by_cases hxs : x = slot
    · subst hxs
      simp [DetectorQueue.clear] at hx
    · simpa [DetectorQueue.clear, hxs] using h.home x (by simpa [DetectorQueue.clear, hxs] using hx)
  · exact (congrArg (· - 1) h.count).trans (card_clear hslot hoccupied).symm
  · refine List.map_congr_left fun x hx => ?_
    have hne : x ≠ slot := fun heq => hnotin (heq ▸ hx)
    simp [DetectorQueue.clear, hne]

/-- The jobs of a queue, around the one that is taken. -/
theorem take_waiting (h : QueueOk index held q) (ho : offset < q.ready.count) :
    ∃ before after, q.waiting = before ++ q.jobs (q.ready.get 0 offset) :: after ∧
      (q.take offset).waiting = before ++ after ∧
      ∀ job ∈ before, ∃ j < offset, job = q.jobs (q.ready.get 0 j) := by
  obtain ⟨before, after, hlength, hpending, htaken⟩ := h.take_pending ho
  refine ⟨before.map q.jobs, after.map q.jobs, ?_, ?_, fun job hjob => ?_⟩
  · rw [DetectorQueue.waiting, hpending, List.map_append, List.map_cons]
  · rw [DetectorQueue.waiting, htaken, List.map_append]
    rfl
  · obtain ⟨slot, hslot, rfl⟩ := List.mem_map.mp hjob
    obtain ⟨j, hj, rfl⟩ := List.getElem_of_mem hslot
    have hget : q.pending[j]? = some (q.ready.get 0 j) := RingQueue.getElem?_entries (by omega)
    rw [hpending, List.getElem?_append_left hj, List.getElem?_eq_getElem hj, Option.some.injEq] at hget
    exact ⟨j, hlength ▸ hj, by rw [hget]⟩

theorem waiting_home (h : QueueOk index held q) (hjob : job ∈ q.waiting) :
    job.subband % detectorWorkers = index := by
  obtain ⟨slot, hslot, rfl⟩ := List.mem_map.mp hjob
  exact h.home slot ((h.occupied slot).mpr (.inl hslot))

/-- The oldest job is given up. -/
theorem drop (h : QueueOk index held q) (hpos : 0 < q.ready.count) :
    QueueOk index held q.drop ∧ q.waiting = q.jobs (q.ready.get 0 0) :: q.drop.waiting := by
  obtain ⟨before, after, hlength, hpending, -⟩ := h.take_pending hpos
  obtain rfl := List.length_eq_zero_iff.mp hlength
  rw [List.nil_append] at hpending
  generalize hslot : q.ready.get 0 0 = slot at hpending ⊢
  have hdropped : q.drop.pending = after := by
    have htail : q.drop.pending = q.pending.tail := RingQueue.entries_pop
    rw [htail, hpending, List.tail_cons]
  have hnotin : slot ∉ after ∧ after.Nodup := List.nodup_cons.mp (hpending ▸ h.nodup)
  have hwaits : slot ∈ q.pending := hpending ▸ List.mem_cons_self
  have hnotheld : ¬ held slot := fun hheld => h.apart slot hheld hwaits
  have hheld : QueueOk index (fun x => held x ∨ x = slot) (q.take 0) := hslot ▸ h.take hpos
  have hoccupied : q.drop.occupied = ((q.take 0).clear slot).occupied := by
    rw [DetectorQueue.drop, hslot]
    rfl
  -- Dropping is taking the oldest job and releasing its slot at once, so the slots are those of the pair.
  obtain ⟨hcleared, -⟩ := hheld.clear (.inr rfl)
  refine ⟨⟨h.sound.pop hpos, h.length, ?_, ?_, ?_, ?_, ?_, ?_⟩, ?_⟩
  · rw [hdropped]
    exact hnotin.2
  · intro x hx
    rw [hdropped]
    exact fun hin => h.apart x hx (hpending ▸ List.mem_cons_of_mem _ hin)
  · intro x
    have htaken : ((q.take 0).clear slot).pending = after := by
      have herased : ((q.take 0).clear slot).pending = q.pending.eraseIdx 0 :=
        h.sound.entries_removeAt hpos
      rw [herased, hpending, List.eraseIdx_zero, List.tail_cons]
    rw [hoccupied, hcleared.occupied x, htaken, hdropped]
    constructor
    · rintro (hx | ⟨hx | hx, hne⟩)
      · exact .inl hx
      · exact .inr hx
      · exact absurd hx hne
    · rintro (hx | hx)
      · exact .inl hx
      · exact .inr ⟨.inl hx, fun heq => hnotheld (heq ▸ hx)⟩
  · intro x hx
    exact hcleared.bound x (hoccupied ▸ hx)
  · intro x hx
    have hhome := hcleared.home x (hoccupied ▸ hx)
    rw [DetectorQueue.drop, hslot]
    exact hhome
  · rw [hoccupied, ← hcleared.count, DetectorQueue.drop, hslot]
    rfl
  · rw [DetectorQueue.waiting, hpending, List.map_cons, DetectorQueue.waiting, hdropped]
    congr 1
    refine List.map_congr_left fun x hx => ?_
    have hne : x ≠ slot := fun heq => hnotin.1 (heq ▸ hx)
    simp [DetectorQueue.drop, DetectorQueue.clear, hslot, hne]

theorem jobs_put (h : QueueOk index held q) (hfree : q.freeSlot = some slot) {x : ℕ} (hx : held x) :
    (q.put slot job).jobs x = q.jobs x := by
  have hocc := (h.occupied x).mpr (.inr hx)
  have hne : x ≠ slot := fun heq => by
    rw [heq, (free hfree).2] at hocc
    cases hocc
  simp [DetectorQueue.put, hne]

theorem jobs_drop (h : QueueOk index held q) (hpos : 0 < q.ready.count) {x : ℕ} (hx : held x) :
    q.drop.jobs x = q.jobs x := by
  obtain ⟨before, after, -, hpending, -⟩ := h.take_pending hpos
  have hnotin := h.apart x hx
  have hne : x ≠ q.ready.get 0 0 := fun heq => by
    rw [hpending] at hnotin
    exact hnotin (heq ▸ List.mem_append_right _ List.mem_cons_self)
  simp [DetectorQueue.drop, DetectorQueue.clear, hne]

end QueueOk

end Discovery

end OVMesh
