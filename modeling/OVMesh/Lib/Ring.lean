import OVMesh.Lib.Numerals

/-!
# Rings

A list of fixed length that is written and read at positions modulo its length, so that it keeps the
end of a stream.

* `write`, `read`: values at consecutive positions.
* `wipe`: the clearing of a range of positions.
* `Holds`: the ring has the values of a stream over a range of positions. `Holds.write` says what it
  has after a write, and `Holds.read` what a read gives.
* `Filled`: all of the ring, with zero where nothing was written. `Filled.set`, `Filled.wipe`.
* `Written`: the same, whatever the values.
* `succ_div_mod`: the quotient and the remainder of the next number.
-/

namespace OVMesh

namespace Ring

variable {α : Type} {ring stream values : List α} {base first last position count k : ℕ} {x : α}

/-- Writes the values at consecutive positions. -/
def write (ring : List α) (position : ℕ) : List α → List α
  | [] => ring
  | x :: values => write (ring.set (position % ring.length) x) (position + 1) values

/-- Reads consecutive positions. -/
def read (ring : List α) (position count : ℕ) : List α :=
  (List.range count).filterMap fun i => ring[(position + i) % ring.length]?

/-- Fills `count` places from a place on. -/
def fill (ring : List α) (place count : ℕ) (x : α) : List α :=
  ring.mapIdx fun i y => if place ≤ i ∧ i < place + count then x else y

/-- Clears the places of `count` positions, at most two ranges of places. -/
def wipe (ring : List α) (position count : ℕ) (x : α) : List α :=
  if ring = [] ∨ count = 0 then ring
  else
    let count := min count ring.length
    let place := position % ring.length
    let initial := min count (ring.length - place)
    fill (fill ring place initial x) 0 (count - initial) x

@[simp] theorem length_write : (write ring position values).length = ring.length := by
  induction values generalizing ring position with
  | nil => rfl
  | cons x values ih => rw [write, ih, List.length_set]

@[simp] theorem length_fill : (fill ring position count x).length = ring.length := by
  rw [fill, List.length_mapIdx]

@[simp] theorem length_wipe : (wipe ring position count x).length = ring.length := by
  rw [wipe]
  split_ifs
  · rfl
  · rw [length_fill, length_fill]

/-- The ring has the values of the stream, which begins at `base`, from `first` up to its end. -/
structure Holds (ring stream : List α) (base first last : ℕ) : Prop where
  base_le : base ≤ first
  first_le : first ≤ last
  length : base + stream.length = last
  get : ∀ k, first ≤ k → k < last → ring[k % ring.length]? = stream[k - base]?

/-- An empty stream is held. -/
theorem holds_nil (base : ℕ) : Holds ring [] base base base :=
  ⟨le_rfl, le_rfl, rfl, fun _ h₁ h₂ => absurd h₁ (not_le.mpr h₂)⟩

/-- Two positions less than a length apart have different places. -/
theorem mod_ne {n : ℕ} (hlt : k < last) (hnear : last < k + n) : k % n ≠ last % n := by
  intro heq
  have hdvd : n ∣ last - k := Nat.dvd_of_mod_eq_zero (Nat.sub_mod_eq_zero_of_mod_eq heq.symm)
  have hle := Nat.le_of_dvd (by omega) hdvd
  omega

theorem Holds.set (h : Holds ring stream base first last) (hpos : 0 < ring.length) (x : α) :
    Holds (ring.set (last % ring.length) x) (stream ++ [x]) base
      (max first (last + 1 - ring.length)) (last + 1) := by
  have hbase := h.base_le
  have hfirst := h.first_le
  have hlength := h.length
  refine ⟨by omega, by omega, by rw [List.length_append, List.length_singleton]; omega,
    fun k h₁ h₂ => ?_⟩
  rw [List.length_set]
  by_cases hk : k = last
  · subst hk
    rw [List.getElem?_set_self (Nat.mod_lt _ hpos),
      List.getElem?_append_right (by omega)]
    have hzero : k - base - stream.length = 0 := by omega
    rw [hzero]
    rfl
  · have hne := @mod_ne last k ring.length (by omega) (by omega)
    rw [List.getElem?_set_ne (Ne.symm hne), h.get k (by omega) (by omega),
      List.getElem?_append_left (by omega)]

/-- A write at the end of the stream: the ring then has the end of the longer stream, as far as it
reaches back. -/
theorem Holds.write (h : Holds ring stream base first last) (hpos : 0 < ring.length)
    (values : List α) : Holds (write ring last values) (stream ++ values) base
      (max first (last + values.length - ring.length)) (last + values.length) := by
  induction values generalizing ring stream first last with
  | nil =>
    rw [Ring.write, List.append_nil, List.length_nil, Nat.add_zero]
    exact ⟨h.base_le.trans (le_max_left _ _), max_le h.first_le (Nat.sub_le _ _), h.length,
      fun k h₁ h₂ => h.get k ((le_max_left _ _).trans h₁) h₂⟩
  | cons x values ih =>
    have hset := ih (h.set hpos x) (by rwa [List.length_set])
    rw [List.length_set, List.append_assoc, List.singleton_append] at hset
    have hfirst : max (max first (last + 1 - ring.length)) (last + 1 + values.length - ring.length) =
        max first (last + (x :: values).length - ring.length) := by
      rw [List.length_cons]
      omega
    have hlast : last + 1 + values.length = last + (x :: values).length := by
      rw [List.length_cons]
      omega
    rw [hfirst, hlast] at hset
    rw [Ring.write]
    exact hset

/-- A read within the range gives the values of the stream. -/
theorem Holds.read (h : Holds ring stream base first last) (h₁ : first ≤ position)
    (h₂ : position + count ≤ last) :
    read ring position count = (stream.drop (position - base)).take count := by
  have hbase := h.base_le
  have hlength := h.length
  induction count with
  | zero => simp [Ring.read]
  | succ count ih =>
    have hget := h.get (position + count) (by omega) (by omega)
    have hindex : position + count - base = position - base + count := by omega
    have hlt : position - base + count < stream.length := by omega
    have hsucc := ih (by omega)
    rw [Ring.read] at hsucc
    rw [Ring.read, List.range_succ, List.filterMap_append, hsucc, List.take_add_one, List.getElem?_drop,
      List.filterMap_cons, hget, hindex, List.getElem?_eq_getElem hlt]
    rfl

/-! ## The whole ring -/

/-- All of the ring: it has the values of a sequence from `first` up to `last`, as far as it reaches back,
and `zero` in the places where none was written. -/
structure Filled (ring : List α) (zero : α) (value : ℕ → α) (first last : ℕ) : Prop where
  le : first ≤ last
  get : ∀ back, 0 < back → back ≤ ring.length → ring[(last + ring.length - back) % ring.length]? =
    some (if first + back ≤ last then value (last - back) else zero)

variable {zero : α} {value : ℕ → α}

theorem filled_replicate {n : ℕ} : Filled (List.replicate n zero) zero value first first := by
  refine ⟨le_rfl, fun back hpos hle => ?_⟩
  rw [List.length_replicate] at hle ⊢
  rw [if_neg (by omega), List.getElem?_replicate_of_lt (Nat.mod_lt _ (by omega))]

/-- The sequence goes on by a value. -/
theorem Filled.set (h : Filled ring zero value first last) (hpos : 0 < ring.length) :
    Filled (ring.set (last % ring.length) (value last)) zero value first (last + 1) := by
  have hfirst := h.le
  refine ⟨by omega, fun back hback hle => ?_⟩
  rw [List.length_set] at hle ⊢
  by_cases hone : back = 1
  · subst hone
    rw [Nat.add_right_comm, Nat.add_sub_cancel, Nat.add_mod_right,
      List.getElem?_set_self (Nat.mod_lt _ hpos), if_pos (by omega), Nat.add_sub_cancel]
  · have hindex : last + 1 + ring.length - back = last + ring.length - (back - 1) := by omega
    have hne := @mod_ne (last + ring.length) (last + ring.length - (back - 1)) ring.length (by omega)
      (by omega)
    rw [Nat.add_mod_right] at hne
    rw [hindex, List.getElem?_set_ne (Ne.symm hne), h.get (back - 1) (by omega) (by omega)]
    have hvalue : last + 1 - back = last - (back - 1) := by omega
    rw [hvalue]
    congr 2
    exact propext ⟨fun h => by omega, fun h => by omega⟩

/-- Where the values agree. -/
theorem Filled.congr {value' : ℕ → α} (h : Filled ring zero value first last)
    (hvalue : ∀ k, first ≤ k → k < last → value k = value' k) : Filled ring zero value' first last := by
  refine ⟨h.le, fun back hback hle => ?_⟩
  rw [h.get back hback hle]
  split_ifs with hwritten
  · rw [hvalue _ (by omega) (by omega)]
  · rfl

/-- What the ring no longer reaches does not matter. -/
theorem Filled.mono (h : Filled ring zero value first last) :
    Filled ring zero value (max first (last - ring.length)) last := by
  have hfirst := h.le
  refine ⟨by omega, fun back hback hle => ?_⟩
  rw [h.get back hback hle]
  congr 2
  exact propext ⟨fun h => by omega, fun h => by omega⟩

/-- Every place is so far back from the end. -/
theorem exists_back (last : ℕ) {n i : ℕ} (hi : i < n) : ∃ back, 0 < back ∧ back ≤ n ∧ (last + n - back) % n = i := by
  have hdiv := Nat.div_add_mod last n
  have hmod := Nat.mod_lt last (show 0 < n by omega)
  by_cases hlt : i < last % n
  · refine ⟨last % n - i, by omega, by omega, ?_⟩
    have hsum : last + n - (last % n - i) = n * (last / n + 1) + i := by
      rw [Nat.mul_add, Nat.mul_one]
      omega
    rw [hsum, Nat.mul_add_mod, Nat.mod_eq_of_lt hi]
  · refine ⟨last % n + n - i, by omega, by omega, ?_⟩
    have hsum : last + n - (last % n + n - i) = n * (last / n) + i := by omega
    rw [hsum, Nat.mul_add_mod, Nat.mod_eq_of_lt hi]

/-- What a wipe leaves at a place. -/
theorem getElem?_wipe {i : ℕ} (hi : i < ring.length) (hcount : 0 < count) :
    (wipe ring position count zero)[i]? =
      if i < min count ring.length - min (min count ring.length) (ring.length - position % ring.length) ∨
        (position % ring.length ≤ i ∧ i < position % ring.length +
          min (min count ring.length) (ring.length - position % ring.length)) then some zero else ring[i]? := by
  have hne : ¬ (ring = [] ∨ count = 0) := by
    rintro (rfl | rfl)
    · exact absurd hi (Nat.not_lt_zero _)
    · exact absurd hcount (lt_irrefl _)
  rw [wipe, if_neg hne]
  simp only [fill, List.getElem?_mapIdx, List.getElem?_eq_getElem hi, Option.map_some, Nat.zero_le,
    true_and, Nat.zero_add]
  generalize min count ring.length - min (min count ring.length) (ring.length - position % ring.length) = a
  generalize position % ring.length + min (min count ring.length) (ring.length - position % ring.length) = b
  by_cases hlow : i < a
  · simp [hlow]
  · by_cases hhigh : position % ring.length ≤ i ∧ i < b <;> simp [hlow, hhigh]

/-- **The wipe.** The range of what was written covers every place that is not zero. -/
theorem Filled.wipe (h : Filled ring zero value first last) :
    wipe ring first (last - first) zero = List.replicate ring.length zero := by
  have hfirst := h.le
  refine List.ext_getElem? fun i => ?_
  by_cases hi : i < ring.length
  · rw [List.getElem?_replicate_of_lt hi]
    obtain ⟨back, hback, hle, hplace⟩ := exists_back last hi
    have hget := h.get back hback hle
    rw [hplace] at hget
    by_cases hnone : last - first = 0
    · rw [Ring.wipe, if_pos (.inr hnone), hget, if_neg (by omega)]
    · rw [getElem?_wipe hi (by omega), hget]
      split_ifs with hcleared hwritten
      · rfl
      · -- a place that was written is in the range that is cleared
        exfalso
        have hlt := Nat.mod_lt first (show 0 < ring.length by omega)
        obtain ⟨d, hd⟩ : ∃ d, last = first + d + back := ⟨last - first - back, by omega⟩
        have hsum : last + ring.length - back = first + d + ring.length := by omega
        rw [hsum, Nat.add_mod_right, ← Nat.mod_add_mod] at hplace
        by_cases hwrap : first % ring.length + d < ring.length
        · rw [Nat.mod_eq_of_lt hwrap] at hplace
          omega
        · by_cases hlong : ring.length ≤ last - first
          · omega
          · rw [Nat.mod_eq_sub_mod (by omega), Nat.mod_eq_of_lt (by omega)] at hplace
            omega
      · rfl
  · rw [List.getElem?_eq_none (by rw [length_wipe]; omega),
      List.getElem?_eq_none (by rw [List.length_replicate]; omega)]

/-- All of the ring, whatever the values. -/
def Written (ring : List α) (zero : α) (first last : ℕ) : Prop := ∃ value, Filled ring zero value first last

theorem written_replicate {n : ℕ} : Written (List.replicate n zero) zero first first :=
  ⟨fun _ => zero, filled_replicate⟩

theorem Written.set (h : Written ring zero first last) (hpos : 0 < ring.length) (x : α) :
    Written (ring.set (last % ring.length) x) zero first (last + 1) := by
  obtain ⟨value, hfilled⟩ := h
  have hupdate : Filled ring zero (Function.update value last x) first last :=
    hfilled.congr fun k _ hk => (Function.update_of_ne (by omega) _ _).symm
  have hset := hupdate.set hpos
  rw [Function.update_self] at hset
  exact ⟨_, hset⟩

theorem Written.write (h : Written ring zero first last) (hpos : 0 < ring.length) (values : List α) :
    Written (write ring last values) zero first (last + values.length) := by
  induction values generalizing ring last with
  | nil => exact h
  | cons x values ih =>
    have hrest := ih (h.set hpos x) (by rwa [List.length_set])
    have hlast : last + 1 + values.length = last + (x :: values).length := by
      rw [List.length_cons]
      omega
    rw [hlast] at hrest
    exact hrest

theorem Written.mono (h : Written ring zero first last) :
    Written ring zero (max first (last - ring.length)) last := by
  obtain ⟨value, hfilled⟩ := h
  exact ⟨value, hfilled.mono⟩

/-- **The wipe**, of what was written. -/
theorem Written.wipe (h : Written ring zero first last) :
    Ring.wipe ring first (last - first) zero = List.replicate ring.length zero := by
  obtain ⟨value, hfilled⟩ := h
  exact hfilled.wipe

/-- The quotient and the remainder of the next number. -/
theorem succ_div_mod {n s : ℕ} (hs : 0 < s) :
    (n % s + 1 < s → (n + 1) / s = n / s ∧ (n + 1) % s = n % s + 1) ∧
    (¬ n % s + 1 < s → (n + 1) / s = n / s + 1 ∧ (n + 1) % s = 0 ∧ (n / s + 1) * s = n + 1) := by
  have hmod := Nat.mod_lt n hs
  have hdiv := Nat.div_add_mod n s
  constructor
  · intro hlt
    have hsum : n + 1 = (n % s + 1) + s * (n / s) := by omega
    rw [hsum, Nat.add_mul_div_left _ _ hs, Nat.add_mul_mod_self_left, Nat.div_eq_of_lt hlt,
      Nat.mod_eq_of_lt hlt, Nat.zero_add]
    exact ⟨rfl, rfl⟩
  · intro hge
    have hsum : n + 1 = s * (n / s + 1) := by
      rw [Nat.mul_succ]
      omega
    rw [hsum, Nat.mul_div_cancel_left _ hs, Nat.mul_mod_right]
    exact ⟨rfl, rfl, Nat.mul_comm _ _⟩

end Ring

end OVMesh
