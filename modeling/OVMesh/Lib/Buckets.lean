import OVMesh.Lib.Numerals

/-!
# Buckets

Half-open buckets between increasing edges, numbered from zero.

* `Has`: the bucket of a value. `exists_has`: there is one, between the first edge and a later one.
* `Meets`: a bucket meets an interval. `meets_range_iff`: the numbers of these are a range.
* `Chain`: consecutive pieces of an interval, each inside its bucket. `Chain.meets`: these buckets meet it.
-/

namespace OVMesh

namespace Buckets

variable {α : Type} [LinearOrder α]

section Edges

variable (edge : ℕ → α)

/-- The bucket has the value. -/
structure Has (b : ℕ) (x : α) : Prop where
  le : edge b ≤ x
  lt : x < edge (b + 1)

/-- The bucket meets the interval from `lo` to `hi`. -/
def Meets (lo hi : α) (b : ℕ) : Prop := edge b < hi ∧ lo < edge (b + 1)

/-- A piece of an interval, and its bucket. -/
structure Piece (α : Type) where
  bucket : ℕ
  lower : α
  upper : α

/-- The pieces are not empty, follow one another from `lo` to `hi`, and are inside their buckets. -/
def Chain : α → α → List (Piece α) → Prop
  | lo, hi, [] => lo = hi
  | lo, hi, p :: pieces =>
    p.lower = lo ∧ lo < p.upper ∧ edge p.bucket ≤ lo ∧ p.upper ≤ edge (p.bucket + 1) ∧ Chain p.upper hi pieces

end Edges

variable {edge : ℕ → α} {b n first last : ℕ} {x lo hi : α}

theorem exists_has (h0 : edge 0 ≤ x) (hn : x < edge n) : ∃ b < n, Has edge b x := by
  induction n with
  | zero => exact absurd (h0.trans_lt hn) (lt_irrefl _)
  | succ n ih =>
    by_cases hlt : x < edge n
    · obtain ⟨b, hb, hhas⟩ := ih hlt
      exact ⟨b, hb.trans n.lt_succ_self, hhas⟩
    · exact ⟨n, n.lt_succ_self, not_lt.mp hlt, hn⟩

theorem Has.le_iff (hmono : Monotone edge) (h : Has edge b x) : n ≤ b ↔ edge n ≤ x := by
  refine ⟨fun hle => (hmono hle).trans h.le, fun hle => ?_⟩
  by_contra hlt
  have hnext : edge (b + 1) ≤ edge n := hmono (not_le.mp hlt)
  exact absurd (hnext.trans hle) (not_le.mpr h.lt)

theorem Meets.mono {lo' hi' : α} (h : Meets edge lo hi b) (hlo : lo' ≤ lo) (hhi : hi ≤ hi') : Meets edge lo' hi' b :=
  ⟨h.1.trans_le hhi, hlo.trans_lt h.2⟩

/-- The buckets of the pieces meet the interval. -/
theorem Chain.meets {pieces : List (Piece α)} (h : Chain edge lo hi pieces) :
    lo ≤ hi ∧ ∀ p ∈ pieces, Meets edge lo hi p.bucket := by
  induction pieces generalizing lo with
  | nil => exact ⟨le_of_eq h, fun p hp => absurd hp List.not_mem_nil⟩
  | cons p pieces ih =>
    obtain ⟨-, hlt, hle, hupper, hrest⟩ := h
    obtain ⟨hend, hmeets⟩ := ih hrest
    refine ⟨hlt.le.trans hend, List.forall_mem_cons.mpr ⟨?_, fun q hq => (hmeets q hq).mono hlt.le le_rfl⟩⟩
    exact ⟨hle.trans_lt (hlt.trans_le hend), hlt.trans_le hupper⟩

/-- The last bucket before a value. -/
theorem exists_before (hmono : Monotone edge) (h0 : edge 0 < x) (hn : x ≤ edge n) :
    ∃ b, ∀ m, m ≤ b ↔ edge m < x := by
  induction n with
  | zero => exact absurd (h0.trans_le hn) (lt_irrefl _)
  | succ n ih =>
    by_cases hle : x ≤ edge n
    · exact ih hle
    · refine ⟨n, fun m => ⟨fun hm => (hmono hm).trans_lt (not_le.mp hle), fun hm => ?_⟩⟩
      by_contra hlt
      have hnext : edge (n + 1) ≤ edge m := hmono (not_le.mp hlt)
      exact absurd (hn.trans hnext) (not_le.mpr hm)

/-- The buckets that meet an interval are the ones from the bucket of its beginning to the last one
before its end. -/
theorem meets_range_iff (hmono : Monotone edge) (h0 : edge 0 ≤ lo) (hlt : lo < hi) (hn : hi ≤ edge n) :
    (∀ b, first ≤ b ∧ b ≤ last ↔ Meets edge lo hi b) ↔
      (∀ m, m ≤ first ↔ edge m ≤ lo) ∧ ∀ m, m ≤ last ↔ edge m < hi := by
  constructor
  · intro hrange
    obtain ⟨f, -, hf⟩ := exists_has h0 (hlt.trans_le hn)
    obtain ⟨l, hl⟩ := exists_before hmono (h0.trans_lt hlt) hn
    have hfl : f ≤ l := (hl f).mpr (hf.le.trans_lt hlt)
    have hmeets : ∀ b, Meets edge lo hi b ↔ f ≤ b ∧ b ≤ l := by
      intro b
      have hnext := (hf.le_iff hmono (n := b + 1)).not
      rw [Meets, ← hl b, ← not_le, ← hnext, and_comm, not_le, Nat.lt_succ_iff]
    have hfirst := (hrange f).mpr ((hmeets f).mpr ⟨le_rfl, hfl⟩)
    have hlast := (hrange l).mpr ((hmeets l).mpr ⟨hfl, le_rfl⟩)
    have hfirst' := (hmeets first).mp ((hrange first).mp ⟨le_rfl, hfirst.1.trans hfirst.2⟩)
    have hlast' := (hmeets last).mp ((hrange last).mp ⟨hfirst.1.trans hfirst.2, le_rfl⟩)
    obtain rfl : first = f := le_antisymm hfirst.1 hfirst'.1
    obtain rfl : last = l := le_antisymm hlast'.2 hlast.2
    exact ⟨fun m => hf.le_iff hmono, hl⟩
  · rintro ⟨hfirst, hlast⟩ b
    have hnext := (hfirst (b + 1)).not
    rw [Meets, ← hlast b, ← not_le, ← hnext, and_comm, not_le, Nat.lt_succ_iff, and_comm]

end Buckets

end OVMesh
