import OVMesh.Lib.Numerals

/-!
# Union-find with path halving

A parent table `p : ι → ι` in which a root is its own parent. `find` follows the parents of a node
and halves the path it walks; `link` makes the root of one node the parent of the root of another.

* `Leads p n x r`: `x` reaches the root `r` in at most `n` parent steps.
* `Forest S p`: the table maps the nodes `S` to `S` and has no cycle. `Forest.leads`: every node of
  `S` then reaches a root within `S.card` steps, so `find` with that much fuel never stops early.
* `Agree S p q`: `q` is a forest with the roots of `p`. `find_spec`: `find` returns the root and
  leaves a table that agrees with the one it started from. `link_spec`: `link` merges two classes.
* `classes S n p`: the equivalence of the nodes with one root. `Joins S n c E`: the computation `c`
  joins the classes that `E` relates and no others. A program of `link` calls that starts from the
  table of `Forest.id` leaves the equivalence closure of its links (`Joins.classes_eq`).
* `Observes S p m a`: from every table that agrees with `p`, the computation `m` returns `a` and
  leaves such a table. A program of `find` calls is read off with `Observes.bind` and its companions.
-/

namespace OVMesh

namespace UnionFind

variable {ι : Type}

/-! ## Roots -/

/-- `x` reaches the root `r` in at most `n` parent steps. -/
inductive Leads (p : ι → ι) : ℕ → ι → ι → Prop
  | root {n : ℕ} {r : ι} : p r = r → Leads p n r r
  | step {n : ℕ} {x r : ι} : p x ≠ x → Leads p n (p x) r → Leads p (n + 1) x r

variable {p q : ι → ι} {S : Finset ι} {n m : ℕ} {x y r s : ι}

theorem Leads.isRoot (h : Leads p n x r) : p r = r := by
  induction h with
  | root h => exact h
  | step _ _ ih => exact ih

theorem Leads.mono (h : Leads p n x r) (hnm : n ≤ m) : Leads p m x r := by
  induction h generalizing m with
  | root h => exact .root h
  | step hx _ ih =>
    obtain ⟨k, rfl⟩ : ∃ k, m = k + 1 := ⟨m - 1, by omega⟩
    exact .step hx (ih (by omega))

theorem Leads.unique (h : Leads p n x r) (h' : Leads p m x s) : r = s := by
  induction h generalizing m with
  | root hr =>
    cases h' with
    | root _ => rfl
    | step hx _ => exact absurd hr hx
  | step hx _ ih =>
    cases h' with
    | root hs => exact absurd hs hx
    | step _ h' => exact ih h'

/-- The table maps the nodes of `S` to nodes of `S`, and every parent step goes down in rank. -/
structure Forest (S : Finset ι) (p : ι → ι) : Prop where
  closed : ∀ x ∈ S, p x ∈ S
  ranked : ∃ rank : ι → ℕ, ∀ x, p x ≠ x → rank (p x) < rank x

/-- Every node is its own root: the table of `std::iota`. -/
theorem Forest.id (S : Finset ι) : Forest S (fun x => x) :=
  ⟨fun _ h => h, fun _ => 0, fun _ h => absurd rfl h⟩

theorem Leads.mem (hf : Forest S p) (h : Leads p n x r) (hx : x ∈ S) : r ∈ S := by
  induction h with
  | root _ => exact hx
  | step _ _ ih => exact ih (hf.closed _ hx)

/-- A walk that meets no root in `n` steps goes down in rank at each of them. -/
private theorem rank_iterate_lt {rank : ι → ℕ} (hr : ∀ x, p x ≠ x → rank (p x) < rank x)
    (hx : ∀ k < n, p (p^[k] x) ≠ p^[k] x) {i j : ℕ} (hij : i < j) (hj : j ≤ n) :
    rank (p^[j] x) < rank (p^[i] x) := by
  induction j with
  | zero => omega
  | succ j ih =>
    have hstep : rank (p^[j + 1] x) < rank (p^[j] x) := by
      rw [Function.iterate_succ_apply']
      exact hr _ (hx j (by omega))
    rcases Nat.lt_or_ge i j with h | h
    · exact Nat.lt_trans hstep (ih h (by omega))
    · obtain rfl : i = j := by omega
      exact hstep

theorem leads_of_iterate (h : p (p^[n] x) = p^[n] x) : ∃ r, Leads p n x r := by
  induction n generalizing x with
  | zero => exact ⟨x, .root h⟩
  | succ n ih =>
    by_cases hx : p x = x
    · exact ⟨x, .root hx⟩
    · obtain ⟨r, hr⟩ := ih (x := p x) h
      exact ⟨r, .step hx hr⟩

/-- Every node of a forest reaches a root within as many steps as there are nodes. -/
theorem Forest.leads (hf : Forest S p) (hx : x ∈ S) : ∃ r, Leads p S.card x r := by
  obtain ⟨rank, hr⟩ := hf.ranked
  by_contra hno
  -- Otherwise the first `S.card + 1` nodes of the walk are distinct nodes of `S`.
  have hne : ∀ k < S.card + 1, p (p^[k] x) ≠ p^[k] x := fun k hk h => by
    obtain ⟨r, hr⟩ := leads_of_iterate h
    exact hno ⟨r, hr.mono (by omega)⟩
  have hmem : ∀ k, p^[k] x ∈ S := fun k => by
    induction k with
    | zero => exact hx
    | succ k ih =>
      rw [Function.iterate_succ_apply']
      exact hf.closed _ ih
  have hinj : Set.InjOn (fun k => p^[k] x) (Finset.range (S.card + 1) : Set ℕ) := by
    intro i hi j hj hij
    simp only [Finset.coe_range, Set.mem_Iio] at hi hj
    rcases Nat.lt_trichotomy i j with h | h | h
    · have := rank_iterate_lt hr hne h (by omega)
      rw [show p^[i] x = p^[j] x from hij] at this
      exact absurd this (Nat.lt_irrefl _)
    · exact h
    · have := rank_iterate_lt hr hne h (by omega)
      rw [show p^[i] x = p^[j] x from hij] at this
      exact absurd this (Nat.lt_irrefl _)
  have hcard := Finset.card_le_card_of_injOn (fun k => p^[k] x) (fun k _ => hmem k) hinj
  simp only [Finset.card_range] at hcard
  omega

/-! ## Programs that keep the roots -/

/-- `q` is a forest in which every node has the root it has in `p`. -/
structure Agree (S : Finset ι) (p q : ι → ι) : Prop where
  forest : Forest S q
  leads : ∀ {n x r}, Leads p n x r → Leads q n x r

theorem Agree.refl (hf : Forest S p) : Agree S p p := ⟨hf, fun h => h⟩

theorem Agree.trans {q' : ι → ι} (h : Agree S p q) (h' : Agree S q q') : Agree S p q' :=
  ⟨h'.forest, fun hl => h'.leads (h.leads hl)⟩

/-- From every table that agrees with `p`, the computation returns `a` and leaves such a table. -/
def Observes {α : Type} (S : Finset ι) (p : ι → ι) (c : StateM (ι → ι) α) (a : α) : Prop :=
  ∀ q, Agree S p q → ∃ q', c q = (a, q') ∧ Agree S p q'

namespace Observes

variable {α β : Type} {c : StateM (ι → ι) α} {a : α}

theorem pure (a : α) : Observes S p (Pure.pure a : StateM (ι → ι) α) a :=
  fun q hq => ⟨q, rfl, hq⟩

theorem bind {f : α → StateM (ι → ι) β} {b : β} (hc : Observes S p c a)
    (hf : Observes S p (f a) b) : Observes S p (c >>= f) b := fun q hq => by
  obtain ⟨q₁, h₁, hq₁⟩ := hc q hq
  obtain ⟨q₂, h₂, hq₂⟩ := hf q₁ hq₁
  refine ⟨q₂, ?_, hq₂⟩
  show StateT.bind c f q = _
  simp only [StateT.bind, h₁]
  exact h₂

theorem anyM {xs : List β} {f : β → StateM (ι → ι) Bool} {g : β → Bool}
    (h : ∀ b ∈ xs, Observes S p (f b) (g b)) : Observes S p (xs.anyM f) (xs.any g) := by
  induction xs with
  | nil => exact .pure _
  | cons b bs ih =>
    rw [List.any_cons]
    refine (h b (by simp)).bind ?_
    cases hg : g b with
    | true => exact .pure _
    | false => exact ih fun b hb => h b (by simp [hb])

private theorem filterAuxM {xs : List β} {f : β → StateM (ι → ι) Bool} {g : β → Bool}
    (h : ∀ b ∈ xs, Observes S p (f b) (g b)) (acc : List β) :
    Observes S p (xs.filterAuxM f acc) ((xs.filter g).reverse ++ acc) := by
  induction xs generalizing acc with
  | nil => exact .pure _
  | cons b bs ih =>
    refine (h b (by simp)).bind ?_
    have ih' := fun acc => ih (fun b hb => h b (by simp [hb])) acc
    cases hg : g b with
    | true => simpa [List.filter_cons, hg] using ih' (b :: acc)
    | false => simpa [List.filter_cons, hg] using ih' acc

theorem filterM {xs : List β} {f : β → StateM (ι → ι) Bool} {g : β → Bool}
    (h : ∀ b ∈ xs, Observes S p (f b) (g b)) : Observes S p (xs.filterM f) (xs.filter g) := by
  refine (filterAuxM h []).bind ?_
  simp only [List.append_nil, List.reverse_reverse]
  exact .pure _

theorem filterMapM {xs : List β} {f : β → StateM (ι → ι) (Option α)} {g : β → Option α}
    (h : ∀ b ∈ xs, Observes S p (f b) (g b)) : Observes S p (xs.filterMapM f) (xs.filterMap g) := by
  suffices haux : ∀ acc, Observes S p (List.filterMapM.loop f xs acc)
      (acc.reverse ++ xs.filterMap g) from haux []
  induction xs with
  | nil =>
    intro acc
    rw [List.filterMap_nil, List.append_nil]
    exact .pure _
  | cons b bs ih =>
    intro acc
    refine (h b (by simp)).bind ?_
    have ih' := fun acc => ih (fun b hb => h b (by simp [hb])) acc
    cases hg : g b with
    | none => simpa [List.filterMap_cons, hg] using ih' acc
    | some v => simpa [List.filterMap_cons, hg] using ih' (v :: acc)

end Observes

/-! ## Path halving -/

private theorem parent_parent_ne {rank : ι → ℕ} (hr : ∀ x, p x ≠ x → rank (p x) < rank x)
    (hx : p x ≠ x) : p (p x) ≠ x := fun h => by
  have h1 := hr x hx
  have h2 := hr (p x) (by rw [h]; exact fun h' => hx h'.symm)
  rw [h] at h2
  omega

variable [DecidableEq ι]

/-- The parent table after one halving step at `x`: `parent[x] = parent[parent[x]]`. -/
def halve (p : ι → ι) (x : ι) : ι → ι := Function.update p x (p (p x))

/-- The root of a node, halving the path on the way. It walks at most `n` nodes. -/
def find : ℕ → ι → StateM (ι → ι) ι
  | 0, x, p => (x, p)
  | n + 1, x, p => if p x = x then (x, p) else find n (halve p x x) (halve p x)

/-- `parent[root(a)] = root(b)`. The right operand is evaluated first. -/
def link (n : ℕ) (a b : ι) : StateM (ι → ι) Unit := do
  let rb ← find n b
  let ra ← find n a
  modify fun p => Function.update p ra rb

theorem Forest.halve (hf : Forest S p) (hx : x ∈ S) : Forest S (halve p x) := by
  obtain ⟨rank, hr⟩ := hf.ranked
  refine ⟨fun y hy => ?_, rank, fun y hy => ?_⟩
  · unfold UnionFind.halve
    by_cases hyx : y = x
    · subst hyx
      rw [Function.update_self]
      exact hf.closed _ (hf.closed _ hy)
    · rw [Function.update_of_ne hyx]
      exact hf.closed _ hy
  · unfold UnionFind.halve at hy ⊢
    by_cases hyx : y = x
    · subst hyx
      rw [Function.update_self] at hy ⊢
      have hne : p y ≠ y := fun h => hy (by rw [h, h])
      by_cases hpp : p (p y) = p y
      · rw [hpp]; exact hr y hne
      · exact Nat.lt_trans (hr _ hpp) (hr y hne)
    · rw [Function.update_of_ne hyx] at hy ⊢
      exact hr y hy

/-- Halving keeps every root and lengthens no path. -/
theorem Leads.halve (hf : Forest S p) (h : Leads p n y r) : Leads (halve p x) n y r := by
  obtain ⟨rank, hr⟩ := hf.ranked
  induction h with
  | @root n r h =>
    refine .root ?_
    by_cases hrx : r = x
    · subst hrx; simp [UnionFind.halve, h]
    · simp [UnionFind.halve, hrx, h]
  | @step n y r hy _ ih =>
    by_cases hyx : y = x
    · subst hyx
      have he : UnionFind.halve p y y = p (p y) := by simp [UnionFind.halve]
      refine .step (by rw [he]; exact parent_parent_ne hr hy) ?_
      rw [he]
      by_cases hpp : p (p y) = p y
      · rw [hpp]; exact ih
      · have hep : UnionFind.halve p y (p y) = p (p y) := by
          simp [UnionFind.halve, Function.update_of_ne hy]
        cases ih with
        | root h => exact absurd (hep.symm.trans h) hpp
        | step _ h => rw [hep] at h; exact h.mono (by omega)
    · have he : UnionFind.halve p x y = p y := by simp [UnionFind.halve, hyx]
      exact .step (by rw [he]; exact hy) (by rw [he]; exact ih)

/-- From a node that is no root, a halving step leaves a walk that is shorter by one. -/
theorem Leads.halve_step (hf : Forest S p) (hx : p x ≠ x) (h : Leads p (n + 1) x r) :
    Leads (UnionFind.halve p x) n (UnionFind.halve p x x) r := by
  have he : UnionFind.halve p x x = p (p x) := by simp [UnionFind.halve]
  rw [he]
  cases h with
  | root h => exact absurd h hx
  | step _ h =>
    have hh := h.halve (x := x) hf
    cases h with
    | root h => rw [h]; exact hh
    | step _ h => exact (h.halve hf).mono (by omega)

/-! ## `find` and `link` -/

/-- `find` returns the root, and the table it leaves agrees with the one it started from. -/
theorem find_spec (hf : Forest S p) (hx : x ∈ S) (h : Leads p n x r) :
    ∃ q, find (n + 1) x p = (r, q) ∧ Agree S p q := by
  induction n generalizing p x with
  | zero =>
    cases h with
    | root h => exact ⟨p, by simp [find, h], .refl hf⟩
  | succ n ih =>
    by_cases hx' : p x = x
    · have : x = r := (Leads.root (n := 0) hx').unique h
      subst this
      exact ⟨p, by simp [find, hx'], .refl hf⟩
    · have hmem : halve p x x ∈ S := by
        simpa [UnionFind.halve] using hf.closed _ (hf.closed _ hx)
      obtain ⟨q, hq, ha⟩ := ih (hf.halve hx) hmem (h.halve_step hf hx')
      refine ⟨q, ?_, Agree.trans ⟨hf.halve hx, fun hl => hl.halve hf⟩ ha⟩
      rw [find, ite_cond_eq_false _ _ (eq_false hx')]
      exact hq

/-- The root of `x`, as `find` computes it with the fuel that `n` nodes need. -/
def rootOf (n : ℕ) (p : ι → ι) (x : ι) : ι := (find (n + 1) x p).1

theorem Forest.leads_rootOf (hf : Forest S p) (hn : S.card ≤ n) (hx : x ∈ S) :
    Leads p n x (rootOf n p x) := by
  obtain ⟨r, hr⟩ := hf.leads hx
  obtain ⟨q, hq, -⟩ := find_spec hf hx (hr.mono hn)
  rw [rootOf, hq]
  exact hr.mono hn

theorem Agree.rootOf_eq (hp : Forest S p) (h : Agree S p q) (hn : S.card ≤ n) (hx : x ∈ S) :
    rootOf n q x = rootOf n p x :=
  (h.forest.leads_rootOf hn hx).unique (h.leads (hp.leads_rootOf hn hx))

theorem Forest.rootOf_mem (hf : Forest S p) (hn : S.card ≤ n) (hx : x ∈ S) : rootOf n p x ∈ S :=
  (hf.leads_rootOf hn hx).mem hf hx

theorem rootOf_root (h : p x = x) : rootOf n p x = x := by
  simp [rootOf, find, h]

/-- The table in which the root `a` hangs under the root `b`. -/
private theorem leads_update {a b : ι} (ha : p a = a) (hb : p b = b) (h : Leads p n y r) :
    if r = a ∧ a ≠ b then Leads (Function.update p a b) (n + 1) y b
    else Leads (Function.update p a b) n y r := by
  induction h with
  | @root n r h =>
    by_cases hr : r = a ∧ a ≠ b
    · obtain ⟨rfl, hne⟩ := hr
      rw [if_pos ⟨rfl, hne⟩]
      refine .step (by simpa using hne.symm) ?_
      rw [Function.update_self]
      exact .root (by rw [Function.update_of_ne hne.symm, hb])
    · rw [if_neg hr]
      refine .root ?_
      by_cases hra : r = a
      · subst hra
        have : r = b := by_contra fun hne => hr ⟨rfl, hne⟩
        rw [Function.update_self, ← this]
      · rw [Function.update_of_ne hra, h]
  | @step n y r hy _ ih =>
    have hya : y ≠ a := fun h => hy (by rw [h, ha])
    have he : Function.update p a b y = p y := Function.update_of_ne hya _ _
    split at ih <;> rename_i hr
    · rw [if_pos hr]
      exact .step (by rw [he]; exact hy) (by rw [he]; exact ih)
    · rw [if_neg hr]
      exact .step (by rw [he]; exact hy) (by rw [he]; exact ih)

open Classical in
private theorem Forest.update {a b : ι} (hf : Forest S p) (ha : p a = a) (hb : p b = b)
    (hbS : b ∈ S) : Forest S (Function.update p a b) := by
  obtain ⟨rank, hr⟩ := hf.ranked
  refine ⟨fun y hy => ?_, fun y => if ∃ n, Leads p n y a then rank y + rank b + 1 else rank y,
    fun y hy => ?_⟩
  · by_cases hya : y = a
    · subst hya; simpa using hbS
    · rw [Function.update_of_ne hya]; exact hf.closed _ hy
  · by_cases hya : y = a
    · subst hya
      rw [Function.update_self] at hy ⊢
      have h1 : ¬ ∃ n, Leads p n b y := fun ⟨n, h⟩ => hy ((Leads.root (n := 0) hb).unique h)
      have h2 : ∃ n, Leads p n y y := ⟨0, .root ha⟩
      simp only [h1, h2, ↓reduceIte]
      omega
    · rw [Function.update_of_ne hya] at hy ⊢
      have hiff : (∃ n, Leads p n (p y) a) ↔ ∃ n, Leads p n y a :=
        ⟨fun ⟨n, h⟩ => ⟨n + 1, .step hy h⟩, fun ⟨n, h⟩ => by
          cases h with
          | root h => exact absurd h hy
          | step _ h => exact ⟨_, h⟩⟩
      have := hr y hy
      by_cases hl : ∃ n, Leads p n y a
      · simp only [hl, hiff.mpr hl, ↓reduceIte]; omega
      · simp only [hl, mt hiff.mp hl, ↓reduceIte]; omega

/-- `link` merges the classes of its two nodes and keeps every other root. -/
theorem link_spec {a b : ι} (hf : Forest S p) (hn : S.card ≤ n) (ha : a ∈ S) (hb : b ∈ S) :
    ∃ q, link (n + 1) a b p = ((), q) ∧ Forest S q ∧ ∀ y ∈ S, rootOf n q y =
      if rootOf n p y = rootOf n p a then rootOf n p b else rootOf n p y := by
  obtain ⟨p₁, h₁, a₁⟩ := find_spec hf hb (hf.leads_rootOf hn hb)
  have a₁a := (a₁.rootOf_eq hf hn ha)
  obtain ⟨p₂, h₂, a₂⟩ := find_spec a₁.forest ha (a₁.forest.leads_rootOf hn ha)
  rw [a₁a] at h₂
  have ag := a₁.trans a₂
  have hra := (ag.leads (hf.leads_rootOf hn ha)).isRoot
  have hrb := (ag.leads (hf.leads_rootOf hn hb)).isRoot
  have hf' := ag.forest.update hra hrb (hf.rootOf_mem hn hb)
  refine ⟨Function.update p₂ (rootOf n p a) (rootOf n p b), ?_, hf', fun y hy => ?_⟩
  · show (do let rb ← find (n + 1) b; let ra ← find (n + 1) a
             modify fun p => Function.update p ra rb : StateM (ι → ι) Unit) p = _
    simp only [bind, StateT.bind, h₁, h₂]
    rfl
  · have hl := leads_update hra hrb (ag.leads (hf.leads_rootOf hn hy))
    have hl' := hf'.leads_rootOf hn hy
    split at hl <;> rename_i hc
    · rw [if_pos hc.1]
      exact hl'.unique hl
    · split <;> rename_i he
      · have hab : rootOf n p a = rootOf n p b := by_contra fun h => hc ⟨he, h⟩
        exact (hl'.unique hl).trans (he.trans hab)
      · exact hl'.unique hl

theorem Observes.find (hp : Forest S p) (hn : S.card ≤ n) (hx : x ∈ S) :
    Observes S p (UnionFind.find (n + 1) x) (rootOf n p x) := fun q hq => by
  obtain ⟨q', h, ha⟩ := find_spec hq.forest hx (hq.forest.leads_rootOf hn hx)
  exact ⟨q', by rw [h, hq.rootOf_eq hp hn hx], hq.trans ha⟩

/-! ## Classes -/

/-- Two nodes are in one class when they have one root. A node outside `S` is alone. -/
def classes (S : Finset ι) (n : ℕ) (p : ι → ι) : Setoid ι where
  r x y := x = y ∨ x ∈ S ∧ y ∈ S ∧ rootOf n p x = rootOf n p y
  iseqv :=
    { refl := fun _ => .inl rfl
      symm := fun h => h.elim (fun h => .inl h.symm) fun ⟨hx, hy, h⟩ => .inr ⟨hy, hx, h.symm⟩
      trans := fun {x y z} hxy hyz => by
        rcases hxy with rfl | ⟨hx, hy, h⟩
        · exact hyz
        · rcases hyz with rfl | ⟨_, hz, h'⟩
          · exact .inr ⟨hx, hy, h⟩
          · exact .inr ⟨hx, hz, h.trans h'⟩ }

theorem classes_iff (hx : x ∈ S) (hy : y ∈ S) :
    classes S n p x y ↔ rootOf n p x = rootOf n p y :=
  ⟨fun h => h.elim (fun h => by rw [h]) fun h => h.2.2, fun h => .inr ⟨hx, hy, h⟩⟩

theorem classes_id : classes S n (fun x => x) = ⊥ := by
  refine le_antisymm (Setoid.le_def.mpr fun {x y} h => ?_) bot_le
  rcases h with h | ⟨-, -, h⟩
  · exact h
  · rwa [rootOf_root rfl, rootOf_root rfl] at h

/-- The computation joins the classes of the nodes that `E` relates, and keeps a forest. -/
def Joins (S : Finset ι) (n : ℕ) (c : StateM (ι → ι) Unit) (E : ι → ι → Prop) : Prop :=
  ∀ p, Forest S p → ∃ q, c p = ((), q) ∧ Forest S q ∧
    classes S n q = classes S n p ⊔ Relation.EqvGen.setoid E

namespace Joins

variable {c d : StateM (ι → ι) Unit} {E F : ι → ι → Prop}

theorem congr (h : Joins S n c E) (hEF : ∀ x y, E x y ↔ F x y) : Joins S n c F := by
  have : E = F := by funext x y; exact propext (hEF x y)
  exact this ▸ h

theorem pure : Joins S n (Pure.pure () : StateM (ι → ι) Unit) (fun _ _ => False) := fun p hp =>
  ⟨p, rfl, hp, (sup_eq_left.mpr (Setoid.eqvGen_le fun _ _ h => h.elim)).symm⟩

theorem seq (hc : Joins S n c E) (hd : Joins S n d F) :
    Joins S n (c >>= fun _ => d) (fun x y => E x y ∨ F x y) := fun p hp => by
  obtain ⟨p₁, h₁, hp₁, e₁⟩ := hc p hp
  obtain ⟨p₂, h₂, hp₂, e₂⟩ := hd p₁ hp₁
  refine ⟨p₂, ?_, hp₂, ?_⟩
  · show StateT.bind c (fun _ => d) p = _
    simp only [StateT.bind, h₁]
    exact h₂
  · rw [e₂, e₁, sup_assoc]
    congr 1
    exact (GaloisConnection.l_sup Setoid.gi.gc).symm

theorem link {a b : ι} (hn : S.card ≤ n) (ha : a ∈ S) (hb : b ∈ S) :
    Joins S n (link (n + 1) a b) (fun x y => x = a ∧ y = b) := fun p hp => by
  obtain ⟨q, hq, hfq, hroot⟩ := link_spec hp hn ha hb
  refine ⟨q, hq, hfq, le_antisymm ?_ (sup_le ?_ (Setoid.eqvGen_le ?_))⟩
  · refine Setoid.le_def.mpr fun {x y} h => ?_
    rcases h with rfl | ⟨hx, hy, h⟩
    · exact Setoid.refl' _ _
    rw [hroot x hx, hroot y hy] at h
    -- Every node keeps its root, or has the root of `a` and moves to the root of `b`.
    have hsup : ∀ {u v}, classes S n p u v →
        (classes S n p ⊔ Relation.EqvGen.setoid fun x y => x = a ∧ y = b) u v :=
      fun h => Setoid.le_def.mp le_sup_left h
    have hab : (classes S n p ⊔ Relation.EqvGen.setoid fun x y => x = a ∧ y = b) a b :=
      Setoid.le_def.mp le_sup_right (.rel _ _ ⟨rfl, rfl⟩)
    split at h <;> rename_i hxa <;> split at h <;> rename_i hya
    · exact hsup (.inr ⟨hx, hy, hxa.trans hya.symm⟩)
    · exact Setoid.trans' _ (hsup (.inr ⟨hx, ha, hxa⟩))
        (Setoid.trans' _ hab (hsup (.inr ⟨hb, hy, h⟩)))
    · exact Setoid.trans' _ (hsup (.inr ⟨hx, hb, h⟩))
        (Setoid.trans' _ (Setoid.symm' _ hab) (hsup (.inr ⟨ha, hy, hya.symm⟩)))
    · exact hsup (.inr ⟨hx, hy, h⟩)
  · refine Setoid.le_def.mpr fun {x y} h => ?_
    rcases h with rfl | ⟨hx, hy, h⟩
    · exact Setoid.refl' _ _
    · exact .inr ⟨hx, hy, by rw [hroot x hx, hroot y hy, h]⟩
  · rintro x y ⟨rfl, rfl⟩
    refine .inr ⟨ha, hb, ?_⟩
    rw [hroot x ha, hroot y hb, if_pos rfl]
    split <;> rfl

theorem forM {β : Type} {xs : List β} {f : β → StateM (ι → ι) Unit} {E : β → ι → ι → Prop}
    (h : ∀ b ∈ xs, Joins S n (f b) (E b)) :
    Joins S n (xs.forM f) (fun x y => ∃ b ∈ xs, E b x y) := by
  induction xs with
  | nil => exact pure.congr (by simp)
  | cons b bs ih =>
    exact ((h b (by simp)).seq (ih fun b hb => h b (by simp [hb]))).congr (by simp)

/-- From the table in which every node is its own root: the classes are those of the links. -/
theorem classes_eq (h : Joins S n c E) : ∃ q, c (fun x => x) = ((), q) ∧ Forest S q ∧
    classes S n q = Relation.EqvGen.setoid E := by
  obtain ⟨q, hq, hf, hc⟩ := h _ (.id S)
  exact ⟨q, hq, hf, by rw [hc, classes_id, bot_sup_eq]⟩

end Joins

end UnionFind

end OVMesh
