import OVMesh.Lib.Numerals

/-!
# Queues in a ring

A bounded queue in a list of fixed length: the place of its oldest entry, the place behind its newest
one, and their number. An entry may also leave from the middle, and the ones behind it move up.

* `push`, `pop`, `removeAt`: the operations on the places.
* `entries`: the queue, oldest first. `Sound`: the members fit together.
* `entries_push`, `entries_pop`, `entries_removeAt`: the operations are those of the queue.
-/

namespace OVMesh

/-- A queue of a fixed capacity in the slots of a ring. -/
structure RingQueue (α : Type) where
  slots : List α
  head : ℕ := 0
  tail : ℕ := 0
  count : ℕ := 0

namespace RingQueue

variable {α : Type} {q : RingQueue α} {blank x : α} {i k offset : ℕ}

/-- The place of an entry. -/
def place (q : RingQueue α) (i : ℕ) : ℕ := (q.head + i) % q.slots.length

/-- Element `i`, counted from the oldest one. -/
def get (q : RingQueue α) (blank : α) (i : ℕ) : α := q.slots.getD (q.place i) blank

/-- The queue, oldest entry first. -/
def entries (q : RingQueue α) (blank : α) : List α := (List.range q.count).map (q.get blank)

/-- An element behind the newest one, for a queue that is not full. -/
def push (q : RingQueue α) (x : α) : RingQueue α :=
  { q with
    slots := q.slots.set q.tail x
    tail := (q.tail + 1) % q.slots.length
    count := q.count + 1 }

/-- The oldest entry leaves. -/
def pop (q : RingQueue α) : RingQueue α :=
  { q with head := (q.head + 1) % q.slots.length, count := q.count - 1 }

/-- The entry behind one takes its place. -/
def moveUp (blank : α) (q : RingQueue α) (i : ℕ) : RingQueue α :=
  { q with slots := q.slots.set (q.place i) (q.get blank (i + 1)) }

/-- An entry leaves, and a blank is left behind. -/
def removeAt (q : RingQueue α) (blank : α) (offset : ℕ) : RingQueue α :=
  if offset = 0 then { q.pop with slots := q.slots.set q.head blank }
  else
    let moved := (List.range' offset (q.count - 1 - offset)).foldl (moveUp blank) q
    let tail := (q.tail + q.slots.length - 1) % q.slots.length
    { moved with slots := moved.slots.set tail blank, tail := tail, count := q.count - 1 }

/-- The members fit together. -/
structure Sound (q : RingQueue α) : Prop where
  head_lt : q.head < q.slots.length
  tail_eq : q.tail = (q.head + q.count) % q.slots.length
  count_le : q.count ≤ q.slots.length

@[simp] theorem length_entries : (q.entries blank).length = q.count := by simp [entries]

theorem getElem?_entries (hi : i < q.count) : (q.entries blank)[i]? = some (q.get blank i) := by
  simp [entries, hi]

theorem Sound.place_lt (h : q.Sound) : q.place i < q.slots.length :=
  Nat.mod_lt _ (by have := h.head_lt; omega)

/-- Two entries have different places. -/
theorem Sound.place_inj (h : q.Sound) (hi : i < q.slots.length) (hk : k < q.slots.length)
    (heq : q.place i = q.place k) : i = k := by
  have hhead := h.head_lt
  unfold place at heq
  have hmod : ∀ j < q.slots.length, (q.head + j) % q.slots.length =
      if q.head + j < q.slots.length then q.head + j else q.head + j - q.slots.length := by
    intro j hj
    split_ifs with hlt
    · exact Nat.mod_eq_of_lt hlt
    · rw [Nat.mod_eq_sub_mod (by omega), Nat.mod_eq_of_lt (by omega)]
  rw [hmod i hi, hmod k hk] at heq
  split_ifs at heq <;> omega

/-- The place before the tail is that of the newest entry. -/
theorem Sound.newest_place (h : q.Sound) (hpos : 0 < q.count) :
    (q.tail + q.slots.length - 1) % q.slots.length = q.place (q.count - 1) := by
  have hhead := h.head_lt
  have hone : (q.head + q.count) % q.slots.length + q.slots.length - 1 =
      (q.head + q.count) % q.slots.length + (q.slots.length - 1) := by omega
  have hsum : q.head + q.count + (q.slots.length - 1) =
      q.head + (q.count - 1) + q.slots.length := by omega
  rw [h.tail_eq, hone, Nat.mod_add_mod, hsum, Nat.add_mod_right, place]

/-! ## The ends -/

theorem Sound.push (h : q.Sound) (hlt : q.count < q.slots.length) (x : α) : (q.push x).Sound := by
  refine ⟨?_, ?_, ?_⟩
  · simpa [RingQueue.push] using h.head_lt
  · simp only [RingQueue.push, List.length_set]
    rw [h.tail_eq, Nat.mod_add_mod, Nat.add_assoc]
  · simpa [RingQueue.push] using hlt

theorem Sound.entries_push (h : q.Sound) (hlt : q.count < q.slots.length) (x : α) :
    (q.push x).entries blank = q.entries blank ++ [x] := by
  have htail : q.tail = q.place q.count := h.tail_eq
  have hplace : ∀ i, (q.push x).place i = q.place i := fun i => by
    simp only [place, RingQueue.push, List.length_set]
  have hget : ∀ i, (q.push x).get blank i = (q.slots.set q.tail x).getD (q.place i) blank := fun i => by
    rw [get, hplace]
    rfl
  have hcount : (q.push x).count = q.count + 1 := rfl
  rw [entries, hcount, List.range_succ, List.map_append, List.map_singleton]
  congr 1
  · refine List.map_congr_left fun i hi => ?_
    have hi := List.mem_range.mp hi
    have hne : q.tail ≠ q.place i := fun heq =>
      absurd (h.place_inj hlt (hi.trans hlt) (htail ▸ heq)) (by omega)
    rw [hget, get, List.getD_eq_getElem?_getD, List.getElem?_set_ne hne, List.getD_eq_getElem?_getD]
  · rw [hget, ← htail, List.getD_eq_getElem?_getD, List.getElem?_set_self (htail ▸ h.place_lt)]
    rfl

theorem Sound.pop (h : q.Sound) (hpos : 0 < q.count) : q.pop.Sound := by
  refine ⟨Nat.mod_lt _ (by have := h.head_lt; omega), ?_, ?_⟩
  · have hsum : q.head + 1 + (q.count - 1) = q.head + q.count := by omega
    simp only [RingQueue.pop]
    rw [Nat.mod_add_mod, hsum, h.tail_eq]
  · have := h.count_le
    simp only [RingQueue.pop]
    omega

theorem get_pop : q.pop.get blank i = q.get blank (i + 1) := by
  have hsum : q.head + 1 + i = q.head + (i + 1) := by omega
  simp only [get, place, pop]
  rw [Nat.mod_add_mod, hsum]

theorem entries_pop : q.pop.entries blank = (q.entries blank).tail := by
  apply List.ext_getElem?
  intro i
  rw [List.getElem?_tail]
  by_cases hi : i + 1 < q.count
  · have hpop : i < q.pop.count := by
      simp only [pop]
      omega
    rw [getElem?_entries hpop, getElem?_entries hi, get_pop]
  · have hpop : q.pop.count ≤ i := by
      simp only [pop]
      omega
    rw [List.getElem?_eq_none (by rwa [length_entries]),
      List.getElem?_eq_none (by rw [length_entries]; omega)]

/-! ## The middle -/

/-- What the loop has moved up. -/
theorem foldl_moveUp (h : q.Sound) (blank : α) (offset : ℕ) {n : ℕ} (hn : offset + n < q.count) :
    let moved := (List.range' offset n).foldl (moveUp blank) q
    moved.head = q.head ∧ moved.slots.length = q.slots.length ∧ moved.count = q.count ∧
      ∀ i < q.count, moved.get blank i =
        if offset ≤ i ∧ i < offset + n then q.get blank (i + 1) else q.get blank i := by
  induction n with
  | zero =>
    refine ⟨rfl, rfl, rfl, fun i hi => ?_⟩
    rw [if_neg (by omega)]
    rfl
  | succ n ih =>
    obtain ⟨hhead, hlength, hcount, hget⟩ := ih (by omega)
    have hle := h.count_le
    rw [List.range'_1_concat, List.foldl_append, List.foldl_cons, List.foldl_nil]
    generalize (List.range' offset n).foldl (moveUp blank) q = moved at hhead hlength hcount hget
    have hplace : ∀ i, moved.place i = q.place i := fun i => by rw [place, place, hhead, hlength]
    refine ⟨hhead, by simpa [moveUp] using hlength, hcount, fun i hi => ?_⟩
    have hmove : (moveUp blank moved (offset + n)).get blank i =
        (moved.slots.set (q.place (offset + n)) (moved.get blank (offset + n + 1))).getD
          (q.place i) blank := by
      rw [← hplace, ← hplace]
      simp only [get, place, moveUp, List.length_set]
    rw [hmove, List.getD_eq_getElem?_getD]
    by_cases heq : i = offset + n
    · subst heq
      rw [List.getElem?_set_self (hlength ▸ h.place_lt), Option.getD_some, hget _ (by omega),
        if_neg (by omega), if_pos (by omega)]
    · have hne : q.place (offset + n) ≠ q.place i := fun hplace =>
        heq (h.place_inj (by omega) (by omega) hplace).symm
      have hkept : moved.slots.getD (q.place i) blank = moved.get blank i := by rw [get, hplace]
      rw [List.getElem?_set_ne hne, ← List.getD_eq_getElem?_getD, hkept, hget i hi]
      congr 1
      exact propext (by omega)

theorem Sound.length_removeAt (h : q.Sound) (ho : offset < q.count) :
    (q.removeAt blank offset).slots.length = q.slots.length := by
  unfold RingQueue.removeAt
  split_ifs
  · exact List.length_set
  · rw [List.length_set]
    exact (foldl_moveUp h blank offset (by omega)).2.1

theorem count_removeAt : (q.removeAt blank offset).count = q.count - 1 := by
  unfold RingQueue.removeAt
  split_ifs <;> rfl

theorem Sound.removeAt (h : q.Sound) (ho : offset < q.count) : (q.removeAt blank offset).Sound := by
  have hhead := h.head_lt
  have hle := h.count_le
  unfold RingQueue.removeAt
  split_ifs with hzero
  · have hpop := h.pop (by omega)
    exact ⟨by simpa [RingQueue.pop] using hpop.head_lt, by simpa [RingQueue.pop] using hpop.tail_eq,
      by simpa [RingQueue.pop] using hpop.count_le⟩
  · obtain ⟨hhead', hlength, -, -⟩ := foldl_moveUp h blank offset
      (n := q.count - 1 - offset) (by omega)
    refine ⟨?_, ?_, ?_⟩
    · simpa [hhead', hlength] using hhead
    · simp only [List.length_set, hhead', hlength]
      exact h.newest_place (by omega)
    · simp only [List.length_set, hlength]
      omega

/-- **An entry leaves** from any place of the queue, and the others stay in order. -/
theorem Sound.entries_removeAt (h : q.Sound) (ho : offset < q.count) :
    (q.removeAt blank offset).entries blank = (q.entries blank).eraseIdx offset := by
  have hle := h.count_le
  have hcount : (q.removeAt blank offset).count = q.count - 1 := count_removeAt
  apply List.ext_getElem?
  intro i
  rw [List.getElem?_eraseIdx]
  by_cases hi : i < q.count - 1
  · rw [getElem?_entries (hcount ▸ hi)]
    have hget : (q.removeAt blank offset).get blank i =
        if i < offset then q.get blank i else q.get blank (i + 1) := by
      unfold RingQueue.removeAt
      split_ifs with hzero hbefore hbefore
      · omega
      · -- The oldest entry: its place is behind the queue now.
        have hhead : q.head = q.place 0 := by
          rw [place, Nat.add_zero, Nat.mod_eq_of_lt h.head_lt]
        have hne : q.head ≠ q.place (i + 1) := fun heq =>
          absurd (h.place_inj (by omega) (by omega) (hhead ▸ heq)) (by omega)
        have hplace : RingQueue.place { q.pop with slots := q.slots.set q.head blank } i =
            q.place (i + 1) := by
          have hsum : q.head + 1 + i = q.head + (i + 1) := by omega
          simp only [place, RingQueue.pop, List.length_set]
          rw [Nat.mod_add_mod, hsum]
        rw [get, hplace, get, List.getD_eq_getElem?_getD, List.getElem?_set_ne hne,
          List.getD_eq_getElem?_getD]
      all_goals
        obtain ⟨hhead, hlength, -, hmoved⟩ := foldl_moveUp h blank offset
          (n := q.count - 1 - offset) (by omega)
        generalize (List.range' offset (q.count - 1 - offset)).foldl (moveUp blank) q = moved at *
        have hplace : ∀ j, moved.place j = q.place j := fun j => by rw [place, place, hhead, hlength]
        have htail := h.newest_place (by omega)
        have hne : q.place (q.count - 1) ≠ q.place i := fun heq =>
          absurd (h.place_inj (by omega) (by omega) heq) (by omega)
        have hleft : RingQueue.get { moved with
              slots := moved.slots.set ((q.tail + q.slots.length - 1) % q.slots.length) blank
              tail := (q.tail + q.slots.length - 1) % q.slots.length
              count := q.count - 1 } blank i = moved.get blank i := by
          simp only [get, place, List.length_set]
          rw [htail]
          have hindex : (moved.head + i) % moved.slots.length = q.place i := hplace i
          rw [hindex, List.getD_eq_getElem?_getD, List.getElem?_set_ne hne, List.getD_eq_getElem?_getD]
        rw [hleft, hmoved i (by omega)]
      · rw [if_neg (by omega)]
      · rw [if_pos (by omega)]
    rw [hget]
    split_ifs with hbefore
    · rw [getElem?_entries (by omega)]
    · rw [getElem?_entries (by omega)]
  · rw [List.getElem?_eq_none (by rw [length_entries, hcount]; omega)]
    split_ifs with hbefore
    · omega
    · rw [List.getElem?_eq_none (by rw [length_entries]; omega)]

end RingQueue

end OVMesh
