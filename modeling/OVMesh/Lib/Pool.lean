import OVMesh.Lib.Numerals

/-!
# Pending and emitted elements

A pool holds pending elements and the log of those that were emitted. An operation that only emits
moves elements from the one to the other, and may change what a `key` does not see of them.

* `Pool.flush`, `Pool.sweep`, `Pool.emitAt`: emit all, those with a property, the one at an index.
* `Pool.Moved`: the keys of all elements are the same, and no key became pending.
-/

namespace OVMesh

/-- Pending elements, and the emitted ones in their order. -/
structure Pool (α : Type) where
  emitted : List α
  pending : List α

namespace Pool

variable {α β : Type}

/-- All elements, the emitted ones first. -/
def all (p : Pool α) : List α := p.emitted ++ p.pending

/-- Emit every element, changed by `f`. -/
def flush (f : α → α) (p : Pool α) : Pool α :=
  { emitted := p.emitted ++ p.pending.map f, pending := [] }

/-- Emit the elements with a property, changed by `f`, in their order. -/
def sweep (out : α → Prop) [DecidablePred out] (f : α → α) (p : Pool α) : Pool α :=
  { emitted := p.emitted ++ (p.pending.filter out).map f
    pending := p.pending.filter (¬ out ·) }

/-- Emit the element at an index. -/
def emitAt (i : ℕ) (p : Pool α) : Pool α :=
  { emitted := p.emitted ++ p.pending[i]?.toList, pending := p.pending.eraseIdx i }

/-- The keys of all elements are the same, and no key became pending. -/
structure Moved (key : α → β) (p p' : Pool α) : Prop where
  perm : (p'.all.map key).Perm (p.all.map key)
  pending : (p'.pending.map key).Sublist (p.pending.map key)

variable {key : α → β} {p p' p'' : Pool α} {f : α → α} {a : α} {i : ℕ}

theorem Moved.refl (p : Pool α) : Moved key p p := ⟨.refl _, .refl _⟩

theorem Moved.trans (h : Moved key p p') (h' : Moved key p' p'') : Moved key p p'' :=
  ⟨h'.perm.trans h.perm, h'.pending.trans h.pending⟩

theorem Moved.length_le (h : Moved key p p') : p'.pending.length ≤ p.pending.length := by
  have hlen := h.pending.length_le
  rwa [List.length_map, List.length_map] at hlen

/-- What holds of all keys holds of them after a move. -/
theorem Moved.forall {P : β → Prop} (h : Moved key p p') (hp : ∀ a ∈ p.all, P (key a)) :
    ∀ a ∈ p'.all, P (key a) := fun a ha => by
  obtain ⟨b, hb, heq⟩ := List.mem_map.mp (h.perm.mem_iff.mp (List.mem_map_of_mem ha))
  exact heq ▸ hp b hb

theorem Moved.forall_pending {P : β → Prop} (h : Moved key p p')
    (hp : ∀ a ∈ p.pending, P (key a)) : ∀ a ∈ p'.pending, P (key a) := fun a ha => by
  obtain ⟨b, hb, heq⟩ := List.mem_map.mp (h.pending.subset (List.mem_map_of_mem ha))
  exact heq ▸ hp b hb

theorem Moved.map {γ : Type} (φ : β → γ) (h : Moved key p p') :
    (p'.all.map fun a => φ (key a)).Perm (p.all.map fun a => φ (key a)) := by
  have hperm := h.perm.map φ
  rwa [List.map_map, List.map_map] at hperm

theorem Moved.flatMap {γ : Type} (φ : β → List γ) (h : Moved key p p') :
    (p'.all.flatMap fun a => φ (key a)).Perm (p.all.flatMap fun a => φ (key a)) := by
  have hperm := h.perm.flatMap_right φ
  rwa [List.flatMap_map, List.flatMap_map] at hperm

theorem moved_flush (hf : ∀ a, key (f a) = key a) : Moved key p (p.flush f) := by
  refine ⟨?_, List.nil_sublist _⟩
  have hkey : key ∘ f = key := funext hf
  rw [all, all, flush, List.append_nil, List.map_append, List.map_append, List.map_map, hkey]

theorem moved_sweep {out : α → Prop} [DecidablePred out] (hf : ∀ a, key (f a) = key a) :
    Moved key p (p.sweep out f) := by
  refine ⟨?_, List.filter_sublist.map key⟩
  have hkey : key ∘ f = key := funext hf
  rw [all, all, sweep, List.append_assoc, List.map_append, List.map_append, List.map_append,
    List.map_map, hkey, ← List.map_append]
  refine List.Perm.append_left _ (List.Perm.map key ?_)
  have hperm := List.filter_append_perm (fun a => decide (out a)) p.pending
  simpa only [decide_not] using hperm

theorem moved_emitAt : Moved key p (p.emitAt i) := by
  refine ⟨List.Perm.map key ?_, (List.eraseIdx_sublist _ _).map key⟩
  rw [all, all, emitAt, List.append_assoc]
  refine List.Perm.append_left _ ?_
  by_cases hi : i < p.pending.length
  · rw [List.getElem?_eq_getElem hi]
    exact List.getElem_cons_eraseIdx_perm hi
  · rw [List.getElem?_eq_none (Nat.not_lt.mp hi), List.eraseIdx_of_length_le (Nat.not_lt.mp hi)]
    exact .refl _

/-- Changing pending elements where the key does not look. -/
theorem moved_modify (hf : ∀ a, key (f a) = key a) :
    Moved key p { p with pending := p.pending.modify i f } := by
  have hmap : (p.pending.modify i f).map key = p.pending.map key := by
    refine List.ext_getElem? fun j => ?_
    rw [List.getElem?_map, List.getElem?_map, List.getElem?_modify]
    cases p.pending[j]? with
    | none => rfl
    | some a =>
      show some (key _) = some (key a)
      split
      · rw [hf]
      · rfl
  refine ⟨?_, by rw [hmap]⟩
  rw [all, all, List.map_append, List.map_append, hmap]

/-- An element after one was changed. -/
theorem mem_modify {l : List α} (h : a ∈ l.modify i f) :
    a ∈ l ∨ ∃ hi : i < l.length, a = f l[i] := by
  obtain ⟨j, hj⟩ := List.mem_iff_getElem?.mp h
  rw [List.getElem?_modify] at hj
  obtain ⟨b, hb, rfl⟩ := Option.map_eq_some_iff.mp hj
  split <;> rename_i hij
  · subst hij
    obtain ⟨hlt, rfl⟩ := List.getElem?_eq_some_iff.mp hb
    exact Or.inr ⟨hlt, rfl⟩
  · exact Or.inl (List.mem_of_getElem? hb)

/-- Changing one pending element. -/
theorem exists_modify (hi : i < p.pending.length) (f : α → α) :
    ∃ rest, p.all.Perm (p.pending[i] :: rest) ∧
      ({ p with pending := p.pending.modify i f } : Pool α).all.Perm (f p.pending[i] :: rest) := by
  refine ⟨p.emitted ++ p.pending.eraseIdx i, ?_, ?_⟩
  · exact ((List.getElem_cons_eraseIdx_perm hi).symm.append_left _).trans List.perm_middle
  · rw [all, List.modify_eq_set_getElem?, List.getElem?_eq_getElem hi]
    exact ((List.set_perm_cons_eraseIdx hi _).append_left _).trans List.perm_middle

theorem moved_foldr {ι : Type} {g : ι → Pool α → Pool α} (h : ∀ i p, Moved key p (g i p))
    (l : List ι) (p : Pool α) : Moved key p (l.foldr g p) := by
  induction l with
  | nil => exact .refl p
  | cons i l ih => exact ih.trans (h i _)

end Pool

end OVMesh
