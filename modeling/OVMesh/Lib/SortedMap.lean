import OVMesh.Lib.Numerals

/-!
# Sorted maps

A map as the list of its entries, by increasing keys.

* `adjust`: the value of a key is changed, or a fresh one when it has none.
* `find`: the value of a key.
* `adjust_sum`: what a sum over the values gains.
* `Sorted.adjust`: the keys stay sorted. `Sorted.find_sum`: a sum over the keys that may have a value.
-/

namespace OVMesh

namespace SortedMap

variable {κ β M : Type} [LinearOrder κ] {entries : List (κ × β)} {key : κ} {f : β → β} {fresh : β}

/-- The value of a key. -/
def find (entries : List (κ × β)) (key : κ) : Option β := (entries.find? fun e => e.1 = key).map Prod.snd

/-- Changes the value of a key, or a fresh one in its place among the keys. -/
def adjust (entries : List (κ × β)) (key : κ) (f : β → β) (fresh : β) : List (κ × β) :=
  match entries with
  | [] => [(key, f fresh)]
  | e :: rest =>
    if e.1 = key then (key, f e.2) :: rest
    else if key < e.1 then (key, f fresh) :: e :: rest
    else e :: adjust rest key f fresh

/-- The keys increase. -/
def Sorted (entries : List (κ × β)) : Prop := entries.Pairwise fun a b => a.1 < b.1

/-- The keys of a changed map. -/
theorem adjust_keys {P : κ → Prop} (hkey : P key) (h : ∀ e ∈ entries, P e.1) :
    ∀ e ∈ adjust entries key f fresh, P e.1 := by
  induction entries with
  | nil =>
    intro e he
    rw [List.mem_singleton.mp he]
    exact hkey
  | cons d rest ih =>
    obtain ⟨hd, hrest⟩ := List.forall_mem_cons.mp h
    rw [adjust]
    split_ifs
    · exact List.forall_mem_cons.mpr ⟨hkey, hrest⟩
    · exact List.forall_mem_cons.mpr ⟨hkey, h⟩
    · exact List.forall_mem_cons.mpr ⟨hd, ih hrest⟩

theorem Sorted.adjust (h : Sorted entries) : Sorted (adjust entries key f fresh) := by
  induction entries with
  | nil => exact List.pairwise_singleton _ _
  | cons d rest ih =>
    obtain ⟨hd, hrest⟩ := List.pairwise_cons.mp h
    rw [SortedMap.adjust]
    split_ifs with heq hlt
    · exact List.pairwise_cons.mpr ⟨fun e he => heq ▸ hd e he, hrest⟩
    · exact List.pairwise_cons.mpr
        ⟨List.forall_mem_cons.mpr ⟨hlt, fun e he => hlt.trans (hd e he)⟩, h⟩
    · have hafter : d.1 < key := lt_of_le_of_ne (not_lt.mp hlt) heq
      exact List.pairwise_cons.mpr ⟨adjust_keys hafter hd, ih hrest⟩

theorem find_cons {e : κ × β} : find (e :: entries) key = if e.1 = key then some e.2 else find entries key := by
  rw [find, List.find?_cons]
  split_ifs with h
  · rw [decide_eq_true h]
    rfl
  · rw [decide_eq_false h]
    rfl

/-- A sum over keys that include those of the map. -/
theorem Sorted.find_sum [AddCommMonoid M] (h : Sorted entries) {φ : Option β → M} (hnone : φ none = 0)
    {keys : List κ} (hnodup : keys.Nodup) (hkeys : ∀ e ∈ entries, e.1 ∈ keys) :
    (keys.map fun k => φ (find entries k)).sum = (entries.map fun e => φ (some e.2)).sum := by
  induction entries generalizing keys with
  | nil =>
    refine List.sum_eq_zero fun x hx => ?_
    obtain ⟨k, -, rfl⟩ := List.mem_map.mp hx
    exact hnone
  | cons e rest ih =>
    obtain ⟨he, hrest⟩ := List.pairwise_cons.mp h
    obtain ⟨hkey, hkeys⟩ := List.forall_mem_cons.mp hkeys
    -- The key of the first entry is taken out of the keys.
    have hothers : ∀ d ∈ rest, d.1 ∈ keys.erase e.1 := fun d hd =>
      (List.mem_erase_of_ne (he d hd).ne').mpr (hkeys d hd)
    have hfound : ∀ k ∈ keys.erase e.1, φ (find (e :: rest) k) = φ (find rest k) := fun k hk => by
      rw [find_cons, if_neg fun heq => (hnodup.mem_erase_iff.mp hk).1 heq.symm]
    rw [((List.perm_cons_erase hkey).map _).sum_eq, List.map_cons, List.sum_cons, List.map_congr_left hfound,
      ih hrest (hnodup.erase _) hothers, find_cons, if_pos rfl, List.map_cons, List.sum_cons]

/-- A sum over the values gains what the change adds to a value. -/
theorem adjust_sum [AddCommMonoid M] {φ : β → M} {x : M} (hf : ∀ b, φ (f b) = φ b + x) (hfresh : φ fresh = 0) :
    ((adjust entries key f fresh).map fun e => φ e.2).sum = (entries.map fun e => φ e.2).sum + x := by
  induction entries with
  | nil => simp [adjust, hf, hfresh]
  | cons e rest ih =>
    rw [adjust]
    split_ifs
    · simp only [List.map_cons, List.sum_cons, hf]
      rw [add_right_comm]
    · simp only [List.map_cons, List.sum_cons, hf, hfresh, zero_add]
      rw [add_comm]
    · rw [List.map_cons, List.sum_cons, ih, List.map_cons, List.sum_cons, add_assoc]

end SortedMap

end OVMesh
