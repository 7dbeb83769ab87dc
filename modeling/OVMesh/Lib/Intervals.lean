import OVMesh.Lib.Numerals

/-!
# Intervals

Half-open intervals of natural numbers, and lists of them.

* `Covers`: a number lies in one of the intervals.
* `Ordered`: the intervals are in order and apart. `Ordered.disjoint`.
* `Tiles`: the intervals follow on each other from one number to another, so that every number between
  lies in exactly one of them.
* `marked`: the intervals of a list with marks that have one of the two.
-/

namespace OVMesh

namespace Intervals

/-- The numbers from `first` up to but not including `last`. -/
structure Span where
  first : ℕ
  last : ℕ
deriving DecidableEq

variable {i j : Span} {l l' : List Span} {x origin m last : ℕ}

/-- The numbers in an interval. -/
def Span.length (i : Span) : ℕ := i.last - i.first

/-- The interval has the number. -/
def Span.Has (i : Span) (x : ℕ) : Prop := i.first ≤ x ∧ x < i.last

/-- Some interval of the list has the number. -/
def Covers (l : List Span) (x : ℕ) : Prop := ∃ i ∈ l, i.Has x

/-- The intervals are in order and apart. -/
def Ordered (l : List Span) : Prop := l.Pairwise fun i j => i.last ≤ j.first

/-- The intervals follow on each other from `origin` to `last`. -/
def Tiles : ℕ → List Span → ℕ → Prop
  | origin, [], last => origin = last
  | origin, i :: l, last => i.first = origin ∧ i.first < i.last ∧ Tiles i.last l last

theorem covers_append : Covers (l ++ l') x ↔ Covers l x ∨ Covers l' x := by
  simp only [Covers, List.mem_append, or_and_right, exists_or]

theorem covers_singleton : Covers [i] x ↔ i.Has x := by
  simp only [Covers, List.mem_singleton, exists_eq_left]

theorem ordered_concat : Ordered (l ++ [i]) ↔ Ordered l ∧ ∀ j ∈ l, j.last ≤ i.first := by
  rw [Ordered, List.pairwise_append]
  simp only [List.pairwise_singleton, List.mem_singleton, forall_eq, true_and]
  rfl

/-- No number lies in two of the intervals. -/
theorem Ordered.disjoint (h : Ordered l) : l.Pairwise fun i j => ∀ x, ¬ (i.Has x ∧ j.Has x) :=
  h.imp fun hle _ hx => absurd (hx.1.2.trans_le hle) (not_lt.mpr hx.2.1)

theorem tiles_concat (h : Tiles origin l m) (hfirst : i.first = m) (hlt : i.first < i.last) :
    Tiles origin (l ++ [i]) i.last := by
  induction l generalizing origin with
  | nil => exact ⟨hfirst.trans h.symm, hlt, rfl⟩
  | cons j l ih => exact ⟨h.1, h.2.1, ih h.2.2⟩

theorem Tiles.sum_length (h : Tiles origin l last) :
    origin + (l.map Span.length).sum = last := by
  induction l generalizing origin with
  | nil => exact h
  | cons i l ih =>
    obtain ⟨hfirst, hlt, hrest⟩ := h
    have hsum := ih hrest
    rw [List.map_cons, List.sum_cons, Span.length]
    omega

/-! ## Marks -/

/-- The intervals with a mark. -/
def marked (mark : Bool) (l : List (Bool × Span)) : List Span := (l.filter (·.1 == mark)).map Prod.snd

variable {mark : Bool} {t : List (Bool × Span)}

@[simp] theorem marked_nil : marked mark [] = [] := rfl

@[simp] theorem marked_concat_same : marked mark (t ++ [(mark, i)]) = marked mark t ++ [i] := by
  simp [marked]

@[simp] theorem marked_concat_not : marked mark (t ++ [(!mark, i)]) = marked mark t := by
  simp [marked]

/-- The intervals of both marks have the length of all. -/
theorem sum_marked : ((marked true t).map Span.length).sum + ((marked false t).map Span.length).sum =
    ((t.map Prod.snd).map Span.length).sum := by
  induction t with
  | nil => rfl
  | cons a t ih =>
    obtain ⟨mark, i⟩ := a
    cases mark
    · simp only [marked, List.filter_cons, List.map_cons, List.sum_cons, beq_iff_eq] at ih ⊢
      simp only [Bool.false_eq_true, if_false, if_true, List.map_cons, List.sum_cons]
      omega
    · simp only [marked, List.filter_cons, List.map_cons, List.sum_cons, beq_iff_eq] at ih ⊢
      simp only [Bool.true_eq_false, if_false, if_true, List.map_cons, List.sum_cons]
      omega

end Intervals

end OVMesh
