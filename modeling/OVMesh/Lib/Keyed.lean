import OVMesh.Lib.Numerals

/-!
# Tables with a key

Lists whose elements have a key, as the rows of a table.

* `upsert`: insert a row, or put it in the place of the one with its key.
* `upsert_new`, `upsert_last`: the two cases of a table that grows at its end.
* `find?_key`, `flatMap_key`: with unique keys a lookup finds the row itself.
-/

namespace OVMesh

namespace Keyed

variable {α κ : Type} [DecidableEq κ] {key : α → κ} {rows : List α} {row last : α}

/-- Insert a row, or put it in the place of the rows with its key. -/
def upsert (key : α → κ) (rows : List α) (row : α) : List α :=
  if rows.any (fun r => key r = key row) then rows.map fun r => if key r = key row then row else r
  else rows ++ [row]

/-- A row with a new key is inserted. -/
theorem upsert_new (h : ∀ r ∈ rows, key r ≠ key row) : upsert key rows row = rows ++ [row] := by
  rw [upsert, if_neg]
  rw [List.any_eq_true]
  rintro ⟨r, hr, hkey⟩
  exact h r hr (of_decide_eq_true hkey)

/-- A row with the key of the last one takes its place. -/
theorem upsert_last (h : ∀ r ∈ rows, key r ≠ key row) (hlast : key last = key row) :
    upsert key (rows ++ [last]) row = rows ++ [row] := by
  rw [upsert, if_pos (by simp [hlast]), List.map_append]
  congr 1
  · conv_rhs => rw [← List.map_id rows]
    exact List.map_congr_left fun r hr => if_neg (h r hr)
  · simp [hlast]

/-- A row is in the table after its upsert. -/
theorem mem_upsert : row ∈ upsert key rows row := by
  unfold upsert
  split <;> rename_i h
  · obtain ⟨r, hr, hkey⟩ := List.any_eq_true.mp h
    exact List.mem_map.mpr ⟨r, hr, if_pos (of_decide_eq_true hkey)⟩
  · exact List.mem_append_right _ (List.mem_singleton.mpr rfl)

/-- With unique keys a lookup finds the row itself. -/
theorem find?_key (hunique : (rows.map key).Nodup) (h : row ∈ rows) {k : κ} (hk : key row = k) :
    rows.find? (fun r => key r = k) = some row := by
  cases hfound : rows.find? (fun r => key r = k) with
  | none =>
    have := List.find?_eq_none.mp hfound row h
    simp [hk] at this
  | some r =>
    have hkey : key r = k := by simpa using List.find?_some hfound
    rw [List.inj_on_of_nodup_map hunique (List.mem_of_find?_eq_some hfound) h (hkey.trans hk.symm)]

/-- With unique keys, what is made of the rows with the key of a row is made of that row. -/
theorem flatMap_key {β : Type} {f : α → List β} (hunique : (rows.map key).Nodup) (h : row ∈ rows) :
    rows.flatMap (fun r => if key r = key row then f r else []) = f row := by
  induction rows with
  | nil => cases h
  | cons r rows ih =>
    rw [List.map_cons, List.nodup_cons] at hunique
    rw [List.flatMap_cons]
    rcases List.mem_cons.mp h with rfl | h
    · have hrest : rows.flatMap (fun s => if key s = key row then f s else []) = [] := by
        apply List.flatMap_eq_nil_iff.mpr
        intro s hs
        exact if_neg fun hkey => hunique.1 (List.mem_map.mpr ⟨s, hs, hkey⟩)
      rw [if_pos rfl, hrest, List.append_nil]
    · rw [if_neg fun hkey => hunique.1 (List.mem_map.mpr ⟨row, h, hkey.symm⟩), List.nil_append,
        ih hunique.2 h]

end Keyed

end OVMesh
