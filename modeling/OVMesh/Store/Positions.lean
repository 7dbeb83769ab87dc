import OVMesh.Store.Methods

/-!
# Receiver positions of a recording

The table of the positions and the entries that `ensure_fix` keeps in memory. While nothing is
rolled back, every entry is a row, so a reference names a row that holds the position itself.

* `SavedFixes`: the invariant of the table and the entries.
* `Refers`: a reference to a position.
* `fixPlaced_ok`, `referencePlaced_ok`, `scanPlaced_ok`: what placing a position keeps.
-/

namespace OVMesh

namespace SessionStore

open Keyed

variable {K : Type} [Field K] [LinearOrder K] {positions recent : List (SavedFix K)}
  {f : PositionFix K}

/-- A position that a row holds: it was checked, and its text was bound. -/
structure Storable (f : PositionFix K) : Prop where
  valid : f.valid = true
  checked : validateFix f = .ok ()
  bound : bindText f.source = .ok ()

/-- The rows have identifiers of their own and hold checked positions, and the entries are rows. -/
structure SavedFixes (positions recent : List (SavedFix K)) : Prop where
  unique : (positions.map (·.id)).Nodup
  valid : ∀ row ∈ positions, Storable row.fix
  recent : ∀ e ∈ recent, e ∈ positions

/-- A reference names a row that holds the position, and there is none without a position. -/
inductive Refers (positions : List (SavedFix K)) : Option (PositionFix K) → Option ℕ → Prop
  | none : Refers positions none none
  | row {f : PositionFix K} {id : ℕ} (h : ⟨f, id⟩ ∈ positions) : Refers positions (some f) (some id)

omit [Field K] [LinearOrder K] in
theorem Refers.mono {positions' : List (SavedFix K)} (hsub : positions ⊆ positions')
    {position : Option (PositionFix K)} {reference : Option ℕ}
    (h : Refers positions position reference) : Refers positions' position reference := by
  cases h with
  | none => exact .none
  | row h => exact .row (hsub h)

omit [Field K] [LinearOrder K] in
/-- Valid positions that agree are equal. -/
theorem eq_of_sameFix {a b : PositionFix K} (ha : a.valid = true) (hb : b.valid = true)
    (h : SameFix a b) : a = b := by
  obtain ⟨h₁, h₂, h₃, h₄, h₅, h₆, h₇, h₈, h₉⟩ := h
  cases a
  cases b
  simp_all

omit [Field K] in
/-- A found row holds the position. -/
private theorem eq_of_find {rows : List (SavedFix K)} {row : SavedFix K}
    (hrows : ∀ r ∈ rows, r.fix.valid = true) (hf : f.valid = true)
    (h : rows.find? (fun r => SameFix r.fix f) = some row) : row ∈ rows ∧ row.fix = f := by
  have hmem := List.mem_of_find?_eq_some h
  have hsame := List.find?_some h
  exact ⟨hmem, eq_of_sameFix (hrows row hmem) hf (of_decide_eq_true hsame)⟩

omit [Field K] [LinearOrder K] in
theorem mem_pushRecent {e saved : SavedFix K} (h : e ∈ pushRecent recent saved) :
    e ∈ recent ∨ e = saved := by
  have hmem : e ∈ recent ++ [saved] := by
    unfold pushRecent at h
    simp only at h
    split at h
    · exact List.mem_of_mem_tail h
    · exact h
  simpa using hmem

/-- A new row for a position. -/
theorem savedFixes_append (h : SavedFixes positions recent) (hf : Storable f) :
    SavedFixes (positions ++ [⟨f, nextRowid (positions.map (·.id))⟩]) recent := by
  refine ⟨?_, fun row hrow => ?_, fun e he => List.mem_append_left _ (h.recent e he)⟩
  · rw [List.map_append, List.nodup_append]
    refine ⟨h.unique, List.nodup_singleton _, fun id hid id' hid' heq => ?_⟩
    rw [List.map_singleton, List.mem_singleton] at hid'
    subst heq
    exact absurd (lt_nextRowid hid) (by rw [hid']; exact lt_irrefl _)
  · rcases List.mem_append.mp hrow with hrow | hrow
    · exact h.valid row hrow
    · rw [List.mem_singleton.mp hrow]
      exact hf

/-- A row becomes an entry. -/
theorem savedFixes_push (h : SavedFixes positions recent) {row : SavedFix K}
    (hrow : row ∈ positions) : SavedFixes positions (pushRecent recent row) := by
  refine ⟨h.unique, h.valid, fun e he => ?_⟩
  rcases mem_pushRecent he with he | rfl
  · exact h.recent e he
  · exact hrow

omit [Field K] in
theorem fixPlaced_subset : positions ⊆ (fixPlaced positions recent f).2.1 := by
  unfold fixPlaced
  split
  · exact fun _ hx => hx
  · unfold placeFix
    split
    · exact fun _ hx => hx
    · exact fun _ hx => List.mem_append_left _ hx

/-- A bound position is one of the entries, or its text was bound. -/
theorem storable_of_bound (h : SavedFixes positions recent) (hf : f.valid = true)
    (hvalid : validateFix f = .ok ()) (hbound : Bound recent f) : Storable f := by
  cases hrecent : recent.find? fun saved => SameFix saved.fix f with
  | none => exact ⟨hf, hvalid, hbound hrecent⟩
  | some saved =>
    obtain ⟨hmem, rfl⟩ := eq_of_find (fun e he => (h.valid e (h.recent e he)).valid) hf hrecent
    exact h.valid saved (h.recent saved hmem)

/-- Placing a position leaves the rows and adds at most its own. -/
theorem fixPlaced_ok (h : SavedFixes positions recent) (hf : Storable f) : let placed := fixPlaced positions recent f
    SavedFixes placed.2.1 placed.2.2 ∧ positions ⊆ placed.2.1 ∧ ⟨f, placed.1⟩ ∈ placed.2.1 := by
  have hrows : ∀ row ∈ positions, row.fix.valid = true := fun row hrow => (h.valid row hrow).valid
  unfold fixPlaced
  cases hrecent : recent.find? fun saved => SameFix saved.fix f with
  | some saved =>
    obtain ⟨hmem, rfl⟩ := eq_of_find (fun e he => hrows e (h.recent e he)) hf.valid hrecent
    exact ⟨h, fun _ hx => hx, h.recent saved hmem⟩
  | none =>
    unfold placeFix
    cases hfound : positions.find? fun row => SameFix row.fix f with
    | some row =>
      obtain ⟨hmem, rfl⟩ := eq_of_find hrows hf.valid hfound
      exact ⟨savedFixes_push h hmem, fun _ hx => hx, hmem⟩
    | none =>
      have hnew : (⟨f, nextRowid (positions.map (·.id))⟩ : SavedFix K) ∈
          positions ++ [⟨f, nextRowid (positions.map (·.id))⟩] :=
        List.mem_append_right _ (List.mem_singleton.mpr rfl)
      exact ⟨savedFixes_push (savedFixes_append h hf) hnew,
        fun _ hx => List.mem_append_left _ hx, hnew⟩

/-- The position that a compact tile refers to: a valid one. -/
def validFix (position : Option (PositionFix K)) : Option (PositionFix K) := position.filter (·.valid)

/-- Placing the position of a tile gives a reference to it. -/
theorem referencePlaced_ok (h : SavedFixes positions recent) {position : Option (PositionFix K)}
    (hvalid : ∀ f ∈ position, validateFix f = .ok ())
    (hbound : ∀ f ∈ position, f.valid = true → Bound recent f) :
    let placed := referencePlaced positions recent position
    SavedFixes placed.2.1 placed.2.2 ∧ positions ⊆ placed.2.1 ∧
      Refers placed.2.1 (validFix position) placed.1 := by
  cases position with
  | none => exact ⟨h, fun _ hx => hx, .none⟩
  | some f =>
    unfold referencePlaced validFix
    by_cases hf : f.valid = true
    · obtain ⟨hsaved, hsub, hmem⟩ :=
        fixPlaced_ok h (storable_of_bound h hf (hvalid f rfl) (hbound f rfl hf))
      simp only [hf, if_true, Option.filter_some]
      exact ⟨hsaved, hsub, .row hmem⟩
    · simp only [hf, Option.filter_some]
      exact ⟨h, fun _ hx => hx, .none⟩

/-- Placing the position of a scan gives a reference to it. -/
theorem scanPlaced_ok (h : SavedFixes positions recent) {position : Option (PositionFix K)}
    (hvalid : ∀ f ∈ position, f.valid = true ∧ validateFix f = .ok ())
    (hbound : ∀ f ∈ position, Bound recent f) :
    let placed := scanPlaced positions recent position
    SavedFixes placed.2.1 placed.2.2 ∧ positions ⊆ placed.2.1 ∧
      Refers placed.2.1 position placed.1 := by
  cases position with
  | none => exact ⟨h, fun _ hx => hx, .none⟩
  | some f =>
    obtain ⟨hf, hfix⟩ := hvalid f rfl
    obtain ⟨hsaved, hsub, hmem⟩ := fixPlaced_ok h (storable_of_bound h hf hfix (hbound f rfl))
    exact ⟨hsaved, hsub, .row hmem⟩

/-- A position that a reference names is storable. -/
theorem storable_of_refers (h : SavedFixes positions recent) {position : Option (PositionFix K)}
    {reference : Option ℕ} (hrefers : Refers positions position reference) :
    ∀ f ∈ position, Storable f := by
  cases hrefers with
  | none => exact fun f hf => absurd hf (by simp)
  | row hmem =>
    rintro _ ⟨⟩
    exact h.valid _ hmem

omit [Field K] [LinearOrder K] in
/-- A reference joins the row of its position. -/
theorem position_of_refers {db : Database K} (hunique : (db.positions.map (·.id)).Nodup)
    {position : Option (PositionFix K)} {reference : Option ℕ}
    (h : Refers db.positions position reference) :
    (db.position reference).map (·.fix) = position ∧
      ¬ (reference.isSome ∧ (db.position reference).isNone) := by
  cases h with
  | none => simp [Database.position]
  | @row f id hmem =>
    have hfind : db.positions.find? (fun row => row.id = id) = some ⟨f, id⟩ :=
      find?_key hunique hmem rfl
    simp [Database.position, hfind]

end SessionStore

end OVMesh
