import OVMesh.Lib.Numerals

/-!
# Mirrored delay lines

A list of `2 * n` places that is written backwards, each value at two places, so that the newest `n`
values stand side by side, newest first.

* `write`, `back`: a value is written, and the place moves back.
* `span`: the newest values.
* `Holds`: the line has the newest of some values. `Holds.write` keeps it, and `Holds.span` reads them.
-/

namespace OVMesh

namespace DelayLine

variable {α : Type} {buffer recent : List α} {n position : ℕ} {x : α}

/-- Writes a value at a place and at its mirror. -/
def write (buffer : List α) (n position : ℕ) (x : α) : List α :=
  (buffer.set position x).set (position + n) x

/-- The next place. -/
def back (n position : ℕ) : ℕ := (if position = 0 then n else position) - 1

/-- The newest values. -/
def span (buffer : List α) (n position : ℕ) : List α := (buffer.drop (position + 1)).take n

/-- The line has the values, newest first, as far as they fit. -/
structure Holds (buffer : List α) (n position : ℕ) (recent : List α) : Prop where
  length : buffer.length = 2 * n
  lt : position < n
  mirror : ∀ i, i < n → buffer[i + n]? = buffer[i]?
  get : ∀ i, i < n → i < recent.length → buffer[position + 1 + i]? = recent[i]?

/-- A line with no values. -/
theorem holds_replicate (hpos : 0 < n) (x : α) : Holds (List.replicate (2 * n) x) n 0 [] := by
  refine ⟨List.length_replicate, hpos, fun i hi => ?_, fun i _ hi => absurd hi (Nat.not_lt_zero i)⟩
  rw [List.getElem?_replicate, List.getElem?_replicate, if_pos (by omega), if_pos (by omega)]

theorem Holds.write_mirror (h : Holds buffer n position recent) (x : α) (i : ℕ) (hi : i < n) :
    (write buffer n position x)[i + n]? = (write buffer n position x)[i]? := by
  have hlength := h.length
  have hlt := h.lt
  rw [DelayLine.write]
  by_cases heq : i = position
  · subst heq
    rw [List.getElem?_set_self (by rw [List.length_set]; omega),
      List.getElem?_set_ne (by omega), List.getElem?_set_self (by omega)]
  · rw [List.getElem?_set_ne (by omega), List.getElem?_set_ne (by omega),
      List.getElem?_set_ne (by omega), List.getElem?_set_ne (by omega), h.mirror i hi]

/-- A value is written: it is the newest. -/
theorem Holds.write (h : Holds buffer n position recent) (x : α) :
    Holds (write buffer n position x) n (back n position) (x :: recent) := by
  have hlength := h.length
  have hlt := h.lt
  refine ⟨?_, ?_, h.write_mirror x, fun i hi hrecent => ?_⟩
  · rw [DelayLine.write, List.length_set, List.length_set, hlength]
  · rw [back]
    split_ifs <;> omega
  -- at the first place the values go on at the mirror of the last
  have hplace : (DelayLine.write buffer n position x)[back n position + 1 + i]? =
      (DelayLine.write buffer n position x)[position + i]? := by
    rw [back]
    split_ifs with hzero
    · subst hzero
      have hindex : n - 1 + 1 + i = i + n := by omega
      rw [hindex, Nat.zero_add, h.write_mirror x i hi]
    · have hindex : position - 1 + 1 + i = position + i := by omega
      rw [hindex]
  rw [hplace, DelayLine.write]
  cases i with
  | zero =>
    rw [Nat.add_zero, List.getElem?_set_ne (by omega), List.getElem?_set_self (by omega)]
    rfl
  | succ i =>
    have hget := h.get i (by omega) (by simpa using hrecent)
    have hindex : position + (i + 1) = position + 1 + i := by omega
    rw [List.getElem?_set_ne (by omega), List.getElem?_set_ne (by omega), hindex, hget]
    rfl

/-- With as many values as fit, the span has the newest. -/
theorem Holds.span (h : Holds buffer n position recent) (hfull : n ≤ recent.length) :
    span buffer n position = recent.take n := by
  refine List.ext_getElem? fun i => ?_
  rw [DelayLine.span, List.getElem?_take, List.getElem?_take]
  split_ifs with hi
  · rw [List.getElem?_drop, h.get i hi (by omega)]
  · rfl

end DelayLine

end OVMesh
