import OVMesh.Lib.Numerals

/-!
# Components of a layered graph, layer by layer

The nodes `(n, b)` of layer `n` are the `b ∈ L n`. A node of layer `n + 1` is joined with a component
of the layers up to `n` when `adj` holds of it and of the nodes that the component has in layer `n`.

* `Comp L adj n`: the components of the layers below `n`. `Comp.mem`: two different nodes of one
  component lie in these layers. `Comp.congr`: the layers from `n` on do not matter.
* `sup_eqvGen_iff`: joining the classes of an equivalence along the edges of a quotient graph.
-/

namespace OVMesh

namespace Layers

/-! ## Joining classes -/

variable {α ι : Type}

/-- Classes `cell a` of `C` are joined where `E` relates their elements: two elements end up in one
class when they were in one before, or lie in cells that a path of edges connects. -/
theorem sup_eqvGen_iff {C : Setoid α} {E : α → α → Prop} {cell : ι → Set α} {edge : ι → ι → Prop}
    (hclass : ∀ {a x y}, x ∈ cell a → (y ∈ cell a ↔ C x y))
    (hdisj : ∀ {a b x}, x ∈ cell a → x ∈ cell b → a = b)
    (hE : ∀ {x y}, E x y → ∃ a b, x ∈ cell a ∧ y ∈ cell b ∧ edge a b)
    (hedge : ∀ {a b}, edge a b → ∃ x ∈ cell a, ∃ y ∈ cell b, E x y) {x y : α} :
    (C ⊔ Relation.EqvGen.setoid E) x y ↔
      C x y ∨ ∃ a b, x ∈ cell a ∧ y ∈ cell b ∧ Relation.EqvGen edge a b := by
  constructor
  -- The right side is an equivalence above both parts, so it is above their join.
  · let S : Setoid α :=
      { r := fun x y => C x y ∨ ∃ a b, x ∈ cell a ∧ y ∈ cell b ∧ Relation.EqvGen edge a b
        iseqv :=
          { refl := fun x => .inl (C.refl' x)
            symm := fun h => by
              rcases h with h | ⟨a, b, hx, hy, h⟩
              · exact .inl (C.symm' h)
              · exact .inr ⟨b, a, hy, hx, .symm _ _ h⟩
            trans := fun {x y z} hxy hyz => by
              rcases hxy with hxy | ⟨a, b, hx, hy, h⟩ <;> rcases hyz with hyz | ⟨a', b', hy', hz, h'⟩
              · exact .inl (C.trans' hxy hyz)
              · exact .inr ⟨a', b', (hclass hy').mpr (C.symm' hxy), hz, h'⟩
              · exact .inr ⟨a, b, hx, (hclass hy).mpr hyz, h⟩
              · obtain rfl := hdisj hy hy'
                exact .inr ⟨a, b', hx, hz, .trans _ _ _ h h'⟩ } }
    have hle : C ⊔ Relation.EqvGen.setoid E ≤ S := by
      refine sup_le (Setoid.le_def.mpr fun h => .inl h) (Setoid.eqvGen_le fun x y h => ?_)
      obtain ⟨a, b, hx, hy, hab⟩ := hE h
      exact .inr ⟨a, b, hx, hy, .rel _ _ hab⟩
    exact fun h => Setoid.le_def.mp hle h
  -- A path of cells joins all their elements, and an empty cell is on no path to another one.
  · have hpath : ∀ {a b}, Relation.EqvGen edge a b → ((cell a).Nonempty ↔ (cell b).Nonempty) ∧
        ∀ x ∈ cell a, ∀ y ∈ cell b, (C ⊔ Relation.EqvGen.setoid E) x y := by
      have hC : ∀ {x y}, C x y → (C ⊔ Relation.EqvGen.setoid E) x y :=
        fun h => Setoid.le_def.mp le_sup_left h
      intro a b h
      induction h with
      | rel a b h =>
        obtain ⟨x₀, hx₀, y₀, hy₀, he⟩ := hedge h
        refine ⟨⟨fun _ => ⟨y₀, hy₀⟩, fun _ => ⟨x₀, hx₀⟩⟩, fun x hx y hy => ?_⟩
        have hjoin : (C ⊔ Relation.EqvGen.setoid E) x₀ y₀ :=
          Setoid.le_def.mp le_sup_right (.rel _ _ he)
        exact Setoid.trans' _ (hC ((hclass hx).mp hx₀)) (Setoid.trans' _ hjoin (hC ((hclass hy₀).mp hy)))
      | refl a => exact ⟨Iff.rfl, fun x hx y hy => hC ((hclass hx).mp hy)⟩
      | symm a b _ ih => exact ⟨ih.1.symm, fun x hx y hy => Setoid.symm' _ (ih.2 y hy x hx)⟩
      | trans a b c _ _ ih ih' =>
        refine ⟨ih.1.trans ih'.1, fun x hx z hz => ?_⟩
        obtain ⟨y, hy⟩ := ih.1.mp ⟨x, hx⟩
        exact Setoid.trans' _ (ih.2 x hx y hy) (ih'.2 y hy z hz)
    rintro (h | ⟨a, b, hx, hy, h⟩)
    · exact Setoid.le_def.mp le_sup_left h
    · exact (hpath h).2 x hx y hy

/-! ## Components -/

variable {β : Type} (L : ℕ → Set β) (adj : Set β → β → Prop)

/-- A node of layer `n` touches the nodes that the component of a node of the layer before has
there. -/
def Joined (C : Setoid (ℕ × β)) (n : ℕ) (x y : ℕ × β) : Prop :=
  x.1 + 1 = n ∧ x.2 ∈ L x.1 ∧ y.1 = n ∧ y.2 ∈ L n ∧ adj {b | b ∈ L x.1 ∧ C x (x.1, b)} y.2

/-- The components of the layers below `n`. -/
def Comp : ℕ → Setoid (ℕ × β)
  | 0 => ⊥
  | n + 1 => Comp n ⊔ Relation.EqvGen.setoid (Joined L adj (Comp n) n)

variable {L adj} {n m : ℕ} {x y : ℕ × β}

theorem Comp.mono (h : n ≤ m) (hxy : Comp L adj n x y) : Comp L adj m x y := by
  induction m with
  | zero =>
    obtain rfl : n = 0 := by omega
    exact hxy
  | succ m ih =>
    rcases Nat.lt_or_ge m n with hlt | hle
    · obtain rfl : n = m + 1 := by omega
      exact hxy
    · exact Setoid.le_def.mp le_sup_left (ih hle)

/-- The nodes of one component lie in the layers that it was built from. -/
theorem Comp.mem (h : Comp L adj n x y) :
    x = y ∨ (x.1 < n ∧ x.2 ∈ L x.1) ∧ y.1 < n ∧ y.2 ∈ L y.1 := by
  induction n generalizing x y with
  | zero => exact .inl h
  | succ n ih =>
    let S : Setoid (ℕ × β) :=
      { r := fun x y => x = y ∨ (x.1 < n + 1 ∧ x.2 ∈ L x.1) ∧ y.1 < n + 1 ∧ y.2 ∈ L y.1
        iseqv :=
          { refl := fun _ => .inl rfl
            symm := fun h => h.elim (fun h => .inl h.symm) fun ⟨h, h'⟩ => .inr ⟨h', h⟩
            trans := fun {x y z} hxy hyz => by
              rcases hxy with rfl | ⟨hx, hy⟩
              · exact hyz
              · rcases hyz with rfl | ⟨-, hz⟩
                · exact .inr ⟨hx, hy⟩
                · exact .inr ⟨hx, hz⟩ } }
    have hle : Comp L adj (n + 1) ≤ S := by
      refine sup_le (Setoid.le_def.mpr fun h => ?_) (Setoid.eqvGen_le fun x y h => ?_)
      · rcases ih h with h | ⟨⟨hx, hx'⟩, hy, hy'⟩
        · exact .inl h
        · exact .inr ⟨⟨by omega, hx'⟩, by omega, hy'⟩
      · obtain ⟨hx, hx', hy, hy', -⟩ := h
        exact .inr ⟨⟨by omega, hx'⟩, by omega, hy ▸ hy'⟩
    exact Setoid.le_def.mp hle h

theorem Comp.congr {L' : ℕ → Set β} (h : ∀ i < n, L i = L' i) : Comp L adj n = Comp L' adj n := by
  induction n with
  | zero => rfl
  | succ n ih =>
    have hC := ih fun i hi => h i (by omega)
    have hJ : Joined L adj (Comp L adj n) n = Joined L' adj (Comp L' adj n) n := by
      rw [hC]
      funext x y
      by_cases hx : x.1 + 1 = n
      · simp only [Joined, h n (by omega), h x.1 (by omega)]
      · simp only [Joined, hx, false_and]
    rw [Comp, Comp, hJ, hC]

end Layers

end OVMesh
