import OVMesh.Bursts.Grouper
import OVMesh.Lib.Fold

/-!
# Every burst is emitted once

What the calls of a burst grouper keep, whatever they are called with.

* `Track.core`: a track without its flags. The loops that emit tracks only move cores.
* `Sole`: what the absorption of pieces guarantees about the tracks that are used once.
* `Ledger`, `call_ledger`: identifiers and components are in one track each.
* `emitted_once`: every identifier and every component is emitted in one burst.
-/

namespace OVMesh

namespace BurstGrouper

open Checked

variable {K : Type} [Field K] [LinearOrder K] {g : Grouper K} {p p' : Pool (Track K)}
  {t : SpectrumTile K} {w : Window K} {c : Call K} {i j n : ℕ}

/-! ## Emitting -/

/-- A track without the flags that are set when it is emitted. -/
def Track.core (t : Track K) : Track K :=
  { t with burst := { t.burst with ambiguous := false, limited := false } }

omit [Field K] [LinearOrder K] in
@[simp] theorem core_limit (t : Track K) (b : Bool) : (t.limit b).core = t.core := rfl

omit [Field K] [LinearOrder K] in
@[simp] theorem core_doubt (t : Track K) : t.doubt.core = t.core := rfl

omit [LinearOrder K] in
theorem moved_finish (b : Bool) : Pool.Moved Track.core g.pool (finish g b).pool :=
  Pool.moved_flush fun t => core_limit t b

theorem moved_expire (start : K) : Pool.Moved Track.core p (expire start p) :=
  Pool.moved_sweep fun _ => rfl

omit [Field K] [LinearOrder K] in
theorem moved_retireAll (retire : List Bool) : Pool.Moved Track.core p (retireAll retire p) := by
  refine Pool.moved_foldr (fun j p => ?_) _ p
  split
  · exact Pool.moved_emitAt
  · exact .refl p

theorem moved_cutLong : Pool.Moved Track.core p (cutLong p) :=
  Pool.moved_sweep fun t => core_limit t true

omit [Field K] [LinearOrder K] in
theorem moved_doubtAll (claimed : List ℕ) :
    Pool.Moved Track.core p { p with pending := doubtAll p.pending claimed } := by
  induction claimed generalizing p with
  | nil => exact .refl p
  | cons j claimed ih => exact (Pool.moved_modify core_doubt).trans ih

/-- The state of a call before its components are placed: nothing but emissions happened. -/
theorem moved_arrive (c : Call K) : Pool.Moved Track.core g.pool (g.arrive c).pool := by
  unfold Grouper.arrive Grouper.moveTo
  refine Pool.Moved.trans ?_ (moved_expire _)
  split
  · exact moved_finish true
  · exact .refl _

@[simp] theorem arrive_nextId (c : Call K) : (g.arrive c).nextId = g.nextId := by
  unfold Grouper.arrive
  split <;> rfl

@[simp] theorem arrive_calls (c : Call K) : (g.arrive c).calls = g.calls := by
  unfold Grouper.arrive
  split <;> rfl

@[simp] theorem arrive_centerHz (c : Call K) : (g.arrive c).centerHz = g.centerHz := by
  unfold Grouper.arrive
  split <;> rfl

/-! ## Matching -/

/-- A track that is used once continues in one component only. -/
def Sole (matches' : List (List ℕ)) (absorbed : List Bool) (uses : List ℕ) : Prop :=
  ∀ i i' j, absorbed.getD i false = false → absorbed.getD i' false = false →
    j ∈ matches'.getD i [] → j ∈ matches'.getD i' [] → uses.getD j 0 = 1 → i = i'

/-- Two places with a property make two elements with it. -/
theorem two_le_countP {α : Type} {q : α → Bool} {l : List α} {a b : α} (hij : i < j)
    (hi : l[i]? = some a) (hj : l[j]? = some b) (ha : q a = true) (hb : q b = true) :
    2 ≤ l.countP q := by
  rw [← List.take_append_drop j l, List.countP_append]
  have hleft : 0 < (l.take j).countP q :=
    List.countP_pos_iff.mpr ⟨a, List.mem_of_getElem? (by rwa [List.getElem?_take_of_lt hij]), ha⟩
  have hright : 0 < (l.drop j).countP q :=
    List.countP_pos_iff.mpr ⟨b, List.mem_of_getElem? (i := 0) (by rwa [List.getElem?_drop, Nat.add_zero]), hb⟩
  omega

theorem mem_getD_nil {l : List (List ℕ)} (h : j ∈ l.getD i []) :
    ∃ js, l[i]? = some js ∧ j ∈ js := by
  rw [List.getD_eq_getElem?_getD] at h
  cases hi : l[i]? with
  | none =>
    rw [hi] at h
    cases h
  | some js =>
    rw [hi] at h
    exact ⟨js, rfl, h⟩

theorem sole_uses (matches' : List (List ℕ)) (absorbed : List Bool) (count : ℕ) :
    Sole matches' absorbed (uses matches' count) := by
  intro i i' j _ _ hi hi' huse
  obtain ⟨js, hjs, hmem⟩ := mem_getD_nil hi
  obtain ⟨js', hjs', hmem'⟩ := mem_getD_nil hi'
  have hcount : matches'.countP (j ∈ ·) = 1 := by
    unfold uses at huse
    rw [List.getD_eq_getElem?_getD, List.getElem?_map] at huse
    cases hj : (List.range count)[j]? with
    | none =>
      rw [hj] at huse
      cases huse
    | some x =>
      rw [hj] at huse
      obtain ⟨hlt, hx⟩ := List.getElem?_eq_some_iff.mp hj
      rw [List.getElem_range] at hx
      rw [hx]
      exact huse
  have htwo : ∀ {a b : ℕ} {x y : List ℕ}, a < b → matches'[a]? = some x → matches'[b]? = some y →
      j ∈ x → j ∈ y → 2 ≤ matches'.countP (j ∈ ·) := fun hlt hx hy hjx hjy =>
    two_le_countP hlt hx hy (decide_eq_true hjx) (decide_eq_true hjy)
  rcases Nat.lt_trichotomy i i' with hlt | heq | hlt
  · have := htwo hlt hjs hjs' hmem hmem'
    omega
  · exact heq
  · have := htwo hlt hjs' hjs hmem' hmem
    omega

/-- The lists of the absorption keep their lengths. -/
structure Absorption.Sized (a : Absorption K) (n count : ℕ) : Prop where
  components : a.components.length = n
  absorbed : a.absorbed.length = n
  uses : a.uses.length = count

theorem getD_setAll (rest : List ℕ) (absorbed : List Bool) :
    (rest.foldl (fun absorbed i => absorbed.set i true) absorbed).length = absorbed.length ∧
      ∀ i, (rest.foldl (fun absorbed i => absorbed.set i true) absorbed).getD i false = true ↔
        absorbed.getD i false = true ∨ i ∈ rest ∧ i < absorbed.length := by
  induction rest generalizing absorbed with
  | nil => exact ⟨rfl, fun i => by simp⟩
  | cons a rest ih =>
    obtain ⟨hlen, hmem⟩ := ih (absorbed.set a true)
    rw [List.length_set] at hlen
    refine ⟨hlen, fun i => ?_⟩
    rw [List.foldl_cons, hmem, List.length_set, List.getD_eq_getElem?_getD, List.getElem?_set,
      List.getD_eq_getElem?_getD, List.mem_cons]
    by_cases hia : a = i
    · subst hia
      by_cases ha : a < absorbed.length
      · simp [ha]
      · simp [ha]
    · have hne : i ≠ a := fun h => hia h.symm
      rw [if_neg hia, or_iff_right hne]

/-- What one round of the absorption loop keeps. -/
theorem absorbPieces_sole (t : SpectrumTile K) (w : Window K) (tracks : List (Track K)) (j : ℕ)
    {matches' : List (List ℕ)} {a : Absorption K} {count : ℕ} (hsized : a.Sized matches'.length count)
    (h : Sole matches' a.absorbed a.uses) :
    (absorbPieces t w tracks matches' a j).Sized matches'.length count ∧
      Sole matches' (absorbPieces t w tracks matches' a j).absorbed
        (absorbPieces t w tracks matches' a j).uses := by
  unfold absorbPieces
  split
  case isFalse => exact ⟨hsized, h⟩
  split
  case h_2 => exact ⟨hsized, h⟩
  rename_i track front rest htrack hpieces
  dsimp only
  split
  case isTrue => exact ⟨hsized, h⟩
  obtain ⟨hlen, hset⟩ := getD_setAll rest a.absorbed
  refine ⟨⟨?_, hlen.trans hsized.absorbed, ?_⟩, ?_⟩
  · rw [List.length_set, hsized.components]
  · rw [List.length_set, hsized.uses]
  · -- The pieces of track `j` are absorbed, but for the first one.
    intro i i' j' hi hi' hmem hmem' huse
    have hold : ∀ i, (rest.foldl (fun absorbed i => absorbed.set i true) a.absorbed).getD i false =
        false → a.absorbed.getD i false = false ∧ (i ∈ rest → ¬ i < a.absorbed.length) := fun i hi => by
      have hnot := mt (hset i).mpr (by rw [hi]; exact Bool.false_ne_true)
      obtain ⟨h₁, h₂⟩ := not_or.mp hnot
      exact ⟨Bool.not_eq_true _ ▸ h₁, fun hrest hlt => h₂ ⟨hrest, hlt⟩⟩
    by_cases hj : j' = j
    · subst hj
      have hfront : ∀ i, (rest.foldl (fun absorbed i => absorbed.set i true) a.absorbed).getD i
          false = false → j' ∈ matches'.getD i [] → i = front := fun i hi hmem => by
        obtain ⟨js, hjs, -⟩ := mem_getD_nil hmem
        have hlt : i < matches'.length := (List.getElem?_eq_some_iff.mp hjs).1
        have hpiece : i ∈ front :: rest := by
          rw [← hpieces, List.mem_filter, List.mem_range, hsized.components]
          exact ⟨hlt, decide_eq_true hmem⟩
        rcases List.mem_cons.mp hpiece with heq | hrest
        · exact heq
        · exact absurd (hsized.absorbed ▸ hlt) ((hold i hi).2 hrest)
      rw [hfront i hi hmem, hfront i' hi' hmem']
    · rw [List.getD_eq_getElem?_getD, List.getElem?_set, if_neg (fun h => hj h.symm),
        ← List.getD_eq_getElem?_getD] at huse
      exact h i i' j' (hold i hi).1 (hold i' hi').1 hmem hmem' huse

/-- A plan: the tracks that are used once continue in one component that is not absorbed. -/
theorem plan_sole (centerHz : K) (t : SpectrumTile K) (w : Window K) (tracks : List (Track K)) :
    let p := plan centerHz t w tracks
    p.absorption.Sized p.matches'.length tracks.length ∧
      Sole p.matches' p.absorption.absorbed p.absorption.uses := by
  intro p
  have hlen : (matched (padding t) (tileComponents centerHz t w w.last w.first) tracks).length =
      (tileComponents centerHz t w w.last w.first).length := List.length_map _
  have hinit : ∀ (l : List ℕ) (a : Absorption K), a.Sized p.matches'.length tracks.length →
      Sole p.matches' a.absorbed a.uses →
      (l.foldl (absorbPieces t w tracks p.matches') a).Sized p.matches'.length tracks.length ∧
        Sole p.matches' (l.foldl (absorbPieces t w tracks p.matches') a).absorbed
          (l.foldl (absorbPieces t w tracks p.matches') a).uses := by
    intro l
    induction l with
    | nil => exact fun a hsized hsole => ⟨hsized, hsole⟩
    | cons j l ih =>
      intro a hsized hsole
      obtain ⟨hsized, hsole⟩ := absorbPieces_sole t w tracks j hsized hsole
      exact ih _ hsized hsole
  refine hinit _ _ ⟨hlen.symm, ?_, ?_⟩ (sole_uses _ _ _)
  · rw [List.length_replicate]
    exact hlen.symm
  · rw [uses, List.length_map, List.length_range]

/-- The tracks that a component may continue are among the old ones. -/
theorem matched_lt {pad : K} {components : List (Component K)} {tracks : List (Track K)}
    (h : j ∈ (matched pad components tracks).getD i []) : j < tracks.length := by
  obtain ⟨js, hjs, hmem⟩ := mem_getD_nil h
  rw [matched, List.getElem?_map] at hjs
  obtain ⟨c, -, rfl⟩ := Option.map_eq_some_iff.mp hjs
  exact List.mem_range.mp (List.mem_filter.mp hmem).1

/-! ## The ledger -/

/-- The components that were not absorbed, among the first `n`. -/
def partsOf (call : ℕ) (a : Absorption K) (n : ℕ) : List (Part K) :=
  ((List.range n).filter fun i => !a.absorbed.getD i false).map fun i =>
    { call, index := i, burst := (a.components.getD i default).burst }

/-- Every identifier that was handed out is in one track, and so is every component of `found`. -/
structure Ledger (p : Pool (Track K)) (nextId : ℕ) (found : List (Part K)) : Prop where
  pos : 0 < nextId
  ids : (p.all.map fun t => t.burst.id).Perm (List.range' 1 (nextId - 1))
  parts : (p.all.flatMap fun t => t.parts).Perm found
  components : ∀ t ∈ p.all, t.burst.components = t.parts.length
  pending : p.pending.length ≤ 128

section Ledger

variable {found : List (Part K)} {nextId : ℕ}

omit [Field K] [LinearOrder K] in
theorem Ledger.moved (h : Ledger p nextId found) (hmoved : Pool.Moved Track.core p p') :
    Ledger p' nextId found where
  pos := h.pos
  ids := (hmoved.map fun t => t.burst.id).trans h.ids
  parts := (hmoved.flatMap fun t => t.parts).trans h.parts
  components := hmoved.forall (P := fun t => t.burst.components = t.parts.length) h.components
  pending := hmoved.length_le.trans h.pending

/-- A track takes in a component. -/
theorem Ledger.extend (h : Ledger p nextId found) (hj : j < p.pending.length)
    (b : SpectrumBurst K) (stop : K) (part : Part K) :
    Ledger { p with pending := p.pending.modify j fun t => t.extend b stop part } nextId
      (found ++ [part]) := by
  obtain ⟨rest, hall, hall'⟩ := Pool.exists_modify hj fun t => t.extend b stop part
  refine ⟨h.pos, ?_, ?_, fun t ht => ?_, ?_⟩
  · exact (hall'.map _).trans ((hall.map fun t => t.burst.id).symm.trans h.ids)
  · refine (hall'.flatMap_right _).trans ?_
    have hparts := (hall.flatMap_right fun t => t.parts).symm.trans h.parts
    rw [List.flatMap_cons] at hparts ⊢
    have hmiddle : ((p.pending[j].parts ++ [part]) ++ rest.flatMap fun t => t.parts).Perm
        ((p.pending[j].parts ++ rest.flatMap fun t => t.parts) ++ [part]) := by
      rw [List.append_assoc, List.append_assoc]
      exact List.perm_append_comm.append_left _
    exact hmiddle.trans (hparts.append_right _)
  · rcases List.mem_cons.mp (hall'.mem_iff.mp ht) with rfl | hrest
    · have hold := h.components _ (hall.mem_iff.mpr List.mem_cons_self)
      simp [Track.extend, hold]
    · exact h.components t (hall.mem_iff.mpr (List.mem_cons_of_mem _ hrest))
  · rw [List.length_modify]
    exact h.pending

omit [Field K] [LinearOrder K] in
/-- A component gets an identifier and a track of its own. -/
theorem Ledger.open (h : Ledger p nextId found) {track : Track K} {part : Part K}
    (hall : p'.all.Perm (p.all ++ [track])) (hid : track.burst.id = nextId)
    (hcomponents : track.burst.components = 1) (hparts : track.parts = [part])
    (hpending : p'.pending.length ≤ 128) : Ledger p' (nextId + 1) (found ++ [part]) := by
  refine ⟨Nat.succ_pos _, ?_, ?_, fun t ht => ?_, hpending⟩
  · have hids := (hall.map fun t => t.burst.id)
    rw [List.map_append, List.map_singleton, hid] at hids
    refine hids.trans ((h.ids.append_right _).trans ?_)
    have hpos := h.pos
    rw [show nextId + 1 - 1 = nextId - 1 + 1 by omega, List.range'_1_concat,
      show 1 + (nextId - 1) = nextId by omega]
  · have hflat := hall.flatMap_right fun t => t.parts
    rw [List.flatMap_append, List.flatMap_singleton, hparts] at hflat
    exact hflat.trans (h.parts.append_right _)
  · rcases List.mem_append.mp (hall.mem_iff.mp ht) with ht | ht
    · exact h.components t ht
    · rw [List.mem_singleton.mp ht, hcomponents, hparts]
      rfl

omit [Field K] [LinearOrder K] in
/-- What a component that opens a track does. -/
theorem openTrack_ledger {s : Placing K} (h : Ledger s.pool s.nextId found)
    {b : SpectrumBurst K} (hb : b.components = 1) (stop : K) (claimed : List ℕ) (part : Part K) :
    Ledger (openTrack s b stop claimed part).pool (openTrack s b stop claimed part).nextId
        (found ++ [part]) ∧
      s.pool.pending.length ≤ (openTrack s b stop claimed part).pool.pending.length := by
  have hdoubt := h.moved (moved_doubtAll claimed)
  have hlen : (doubtAll s.pool.pending claimed).length = s.pool.pending.length := by
    unfold doubtAll
    exact Fold.foldl_eq (φ := List.length) (fun l j => List.length_modify ..) claimed _
  unfold openTrack
  dsimp only
  split <;> rename_i hroom
  · refine ⟨hdoubt.open (.of_eq (List.append_assoc s.pool.emitted _ [_]).symm) rfl hb rfl ?_, ?_⟩
    · rw [List.length_append, List.length_singleton]
      exact hroom
    · rw [List.length_append, hlen]
      exact Nat.le_add_right _ _
  · have hperm : ∀ x : Track K, ((s.pool.emitted ++ [x]) ++ doubtAll s.pool.pending claimed).Perm
        ((s.pool.emitted ++ doubtAll s.pool.pending claimed) ++ [x]) := fun x => by
      rw [List.append_assoc, List.append_assoc]
      exact List.perm_append_comm.append_left _
    exact ⟨hdoubt.open (hperm _) rfl hb rfl hdoubt.pending, hlen.ge⟩

/-- One round of the loop over the components. -/
theorem place_ledger {matches' : List (List ℕ)} {a : Absorption K} {s : Placing K} (call : ℕ)
    (stop : K) (h : Ledger s.pool s.nextId found)
    (hlt : ∀ j ∈ matches'.getD i [], j < s.pool.pending.length)
    (hone : (a.components.getD i default).burst.components = 1 ∨ a.absorbed.getD i false = true) :
    Ledger (place call stop matches' a s i).pool (place call stop matches' a s i).nextId
        (found ++ ([i].filter fun i => !a.absorbed.getD i false).map fun i =>
          { call, index := i, burst := (a.components.getD i default).burst }) ∧
      s.pool.pending.length ≤ (place call stop matches' a s i).pool.pending.length := by
  unfold place
  split <;> rename_i habsorbed
  · rw [List.filter_singleton, habsorbed]
    exact ⟨(List.append_nil found).symm ▸ h, le_rfl⟩
  · have hone := hone.resolve_right habsorbed
    rw [List.filter_singleton, Bool.eq_false_iff.mpr habsorbed]
    dsimp only
    split <;> rename_i hextended
    · have hmem : ∀ j, extended matches' a.uses i = some j → j ∈ matches'.getD i [] := fun j hj => by
        unfold extended at hj
        split at hj
        · rename_i heq
          split at hj
          · cases hj
            rw [heq]
            exact List.mem_singleton_self _
          · cases hj
        · cases hj
      refine ⟨h.extend (hlt _ (hmem _ hextended)) _ stop _, ?_⟩
      rw [List.length_modify]
    · exact openTrack_ledger h hone stop _ _

end Ledger

/-! ## The components of a plan -/

/-- What is changed of a burst when its times are set. -/
theorem stamp_eq (frames : Finset ℕ) (b : SpectrumBurst K) : ∃ start stop active,
    stamp t w frames b = { b with
      elapsedStartSeconds := start, elapsedEndSeconds := stop, activeSeconds := active } := by
  unfold stamp
  generalize (List.range t.frameCount).filter (· ∈ frames) = l
  generalize false = started
  induction l generalizing b started with
  | nil => exact ⟨_, _, _, rfl⟩
  | cons f l ih =>
    rw [List.foldl_cons]
    obtain ⟨start, stop, active, heq⟩ := ih (stampFrame t w (b, started) f).1
      (stampFrame t w (b, started) f).2
    refine ⟨start, stop, active, heq.trans ?_⟩
    unfold stampFrame
    dsimp only
    split <;> rfl

theorem mergePiece_components (components : List (Component K)) (b : SpectrumBurst K) (i : ℕ) :
    (mergePiece components b i).components = b.components := rfl

theorem component_components (centerHz : K) (low : ℕ) :
    (component centerHz t w low).1.burst.components = 1 := by
  unfold component
  dsimp only
  obtain ⟨start, stop, active, heq⟩ := stamp_eq (t := t) (w := w)
    (componentRun centerHz t w low).frames
    (runBurst centerHz t w low (componentRun centerHz t w low))
  rw [heq]
  rfl

theorem tileComponents_components {centerHz : K} {rounds b : ℕ} :
    ∀ x ∈ tileComponents centerHz t w rounds b, x.burst.components = 1 := by
  induction rounds generalizing b with
  | zero => exact fun x hx => absurd hx List.not_mem_nil
  | succ rounds ih =>
    intro x hx
    rw [tileComponents] at hx
    split at hx
    · split at hx
      · exact ih x hx
      · rcases List.mem_cons.mp hx with rfl | hx
        · exact component_components centerHz b
        · exact ih x hx
    · exact absurd hx List.not_mem_nil

theorem absorbPieces_components {tracks : List (Track K)} {matches' : List (List ℕ)}
    {a : Absorption K} (h : ∀ x ∈ a.components, x.burst.components = 1) :
    ∀ x ∈ (absorbPieces t w tracks matches' a j).components, x.burst.components = 1 := by
  unfold absorbPieces
  split
  case isFalse => exact h
  split
  case h_2 => exact h
  rename_i track front rest htrack hpieces
  dsimp only
  split
  case isTrue => exact h
  intro x hx
  rcases List.mem_or_eq_of_mem_set hx with hx | rfl
  · exact h x hx
  · obtain ⟨start, stop, active, heq⟩ := stamp_eq (t := t) (w := w) _ _
    rw [heq]
    have hfront : front ∈ (List.range a.components.length).filter
        (fun i => j ∈ matches'.getD i []) := hpieces ▸ List.mem_cons_self
    have hlt := List.mem_range.mp (List.mem_filter.mp hfront).1
    show (rest.foldl (mergePiece a.components) (a.components.getD front default).burst).components = 1
    rw [Fold.foldl_eq (mergePiece_components a.components), List.getD_eq_getElem _ _ hlt]
    exact h _ (List.getElem_mem hlt)

theorem plan_components (centerHz : K) (t : SpectrumTile K) (w : Window K)
    (tracks : List (Track K)) :
    ∀ x ∈ (plan centerHz t w tracks).absorption.components, x.burst.components = 1 := by
  unfold plan
  dsimp only
  have hinit : ∀ (l : List ℕ) (a : Absorption K), (∀ x ∈ a.components, x.burst.components = 1) →
      ∀ x ∈ (l.foldl (absorbPieces t w tracks (matched (padding t)
        (tileComponents centerHz t w w.last w.first) tracks)) a).components,
        x.burst.components = 1 := by
    intro l
    induction l with
    | nil => exact fun a h => h
    | cons j l ih => exact fun a h => ih _ (absorbPieces_components h)
  exact hinit _ _ tileComponents_components

/-! ## Runs -/

/-- The components that a call counts. -/
def foundIn (g : Grouper K) (c : Call K) : List (Part K) :=
  match checkTile c.tile with
  | .error _ => []
  | .ok _ =>
    if c.window.Empty then []
    else
      let a := (plan g.centerHz c.tile c.window (g.arrive c).pool.pending).absorption
      partsOf g.calls a a.components.length

/-- The components that a sequence of calls counts. -/
def found (g : Grouper K) : List (Call K) → List (Part K)
  | [] => []
  | c :: calls => foundIn g c ++ found (call g c) calls

section Runs

variable {old : List (Part K)} {nextId : ℕ}

/-- The loop over the components. -/
theorem placeFirst_ledger (h : Ledger g.pool g.nextId old) (t : SpectrumTile K) (w : Window K)
    (hn : n ≤ (plan g.centerHz t w g.pool.pending).absorption.components.length) :
    let p := plan g.centerHz t w g.pool.pending
    let s := placeFirst g w p n
    Ledger s.pool s.nextId (old ++ partsOf g.calls p.absorption n) ∧
      g.pool.pending.length ≤ s.pool.pending.length := by
  intro p
  induction n with
  | zero =>
    refine ⟨?_, le_rfl⟩
    rw [partsOf, List.range_zero, List.filter_nil, List.map_nil, List.append_nil]
    exact h
  | succ n ih =>
    obtain ⟨hledger, hlen⟩ := ih (Nat.le_of_succ_le hn)
    have hone : (p.absorption.components.getD n default).burst.components = 1 := by
      rw [List.getD_eq_getElem _ _ hn]
      exact plan_components _ _ _ _ _ (List.getElem_mem hn)
    obtain ⟨hplace, hgrow⟩ := place_ledger g.calls w.stop hledger
      (fun j hj => (matched_lt hj).trans_le hlen) (Or.inl hone)
    intro s
    have hs : s = place g.calls w.stop p.matches' p.absorption (placeFirst g w p n) n := by
      show placeFirst g w p (n + 1) = _
      rw [placeFirst, List.range_succ, List.foldl_append]
      rfl
    rw [hs]
    refine ⟨?_, hlen.trans hgrow⟩
    rw [partsOf, List.range_succ, List.filter_append, List.map_append, ← List.append_assoc]
    exact hplace

theorem group_ledger (h : Ledger g.pool g.nextId old) (t : SpectrumTile K) (w : Window K) :
    let a := (plan g.centerHz t w g.pool.pending).absorption
    Ledger (group g t w).pool (group g t w).nextId
      (old ++ partsOf g.calls a a.components.length) := by
  obtain ⟨hplaced, -⟩ := placeFirst_ledger h t w le_rfl
  exact (hplaced.moved (moved_retireAll _)).moved moved_cutLong

omit [LinearOrder K] in
theorem finish_ledger (h : Ledger g.pool g.nextId old) (b : Bool) :
    Ledger (finish g b).pool (finish g b).nextId old :=
  h.moved (moved_finish b)

/-- **One call.** It counts each of its components in one track. -/
theorem call_ledger (h : Ledger g.pool g.nextId old) (c : Call K) :
    Ledger (call g c).pool (call g c).nextId (old ++ foundIn g c) ∧
      (call g c).calls = g.calls + 1 := by
  unfold foundIn
  cases hcheck : checkTile c.tile with
  | error e =>
    rw [call_error hcheck, List.append_nil]
    exact ⟨h, rfl⟩
  | ok u =>
    dsimp only
    split <;> rename_i hempty
    · rw [call_empty hcheck hempty, List.append_nil]
      exact ⟨finish_ledger h true, rfl⟩
    · rw [call_group hcheck hempty]
      have harrive : Ledger (g.arrive c).pool (g.arrive c).nextId old := by
        rw [arrive_nextId]
        exact h.moved (moved_arrive c)
      have hgroup := group_ledger harrive c.tile c.window
      dsimp only at hgroup
      rw [arrive_calls, arrive_centerHz] at hgroup
      exact ⟨hgroup, congrArg (· + 1) (arrive_calls c)⟩

theorem run_ledger (h : Ledger g.pool g.nextId old) (calls : List (Call K)) :
    Ledger (run g calls).pool (run g calls).nextId (old ++ found g calls) := by
  induction calls generalizing g old with
  | nil => exact (List.append_nil old).symm ▸ h
  | cons c calls ih =>
    rw [found, ← List.append_assoc]
    exact ih (call_ledger h c).1

/-- The components of a call carry its number. -/
theorem foundIn_nodup (g : Grouper K) (c : Call K) :
    (foundIn g c).Nodup ∧ ∀ part ∈ foundIn g c, part.call = g.calls := by
  unfold foundIn
  split
  · exact ⟨List.nodup_nil, fun part h => absurd h List.not_mem_nil⟩
  · split
    · exact ⟨List.nodup_nil, fun part h => absurd h List.not_mem_nil⟩
    · refine ⟨(List.nodup_range.filter _).map fun i j hij => congrArg Part.index hij, ?_⟩
      intro part hpart
      obtain ⟨i, -, rfl⟩ := List.mem_map.mp hpart
      rfl

theorem calls_call (g : Grouper K) (c : Call K) : (call g c).calls = g.calls + 1 := by
  cases hcheck : checkTile c.tile with
  | error e => rw [call_error hcheck]
  | ok u =>
    by_cases hempty : c.window.Empty
    · rw [call_empty hcheck hempty]
    · rw [call_group hcheck hempty]
      exact congrArg (· + 1) (arrive_calls c)

/-- No component is counted in two calls. -/
theorem found_nodup (g : Grouper K) (calls : List (Call K)) :
    (found g calls).Nodup ∧ ∀ part ∈ found g calls, g.calls ≤ part.call := by
  induction calls generalizing g with
  | nil => exact ⟨List.nodup_nil, fun part h => absurd h List.not_mem_nil⟩
  | cons c calls ih =>
    obtain ⟨hnodup, hcall⟩ := foundIn_nodup g c
    obtain ⟨hrest, hle⟩ := ih (call g c)
    rw [calls_call] at hle
    refine ⟨List.nodup_append.mpr ⟨hnodup, hrest, fun a ha b hb hab => ?_⟩, fun part hpart => ?_⟩
    · have h₁ := hcall a ha
      have h₂ := hle b hb
      rw [← hab] at h₂
      omega
    · rcases List.mem_append.mp hpart with h | h
      · exact (hcall part h).ge
      · exact (Nat.le_succ _).trans (hle part h)

end Runs

/-! ## Retiring -/

section Retire

variable {matches' : List (List ℕ)} {a : Absorption K} {s : Placing K} {call : ℕ} {stop : K}

/-- The track that a component extends is the only one that it was matched with. -/
theorem extended_eq_some {uses : List ℕ} (h : extended matches' uses i = some j) :
    matches'.getD i [] = [j] ∧ uses.getD j 0 = 1 := by
  unfold extended at h
  split at h
  · rename_i heq
    split at h <;> rename_i huse
    · cases h
      exact ⟨heq, huse⟩
    · cases h
  · cases h

/-- A track is retired by a component that opens another one. -/
theorem place_retire (h : (place call stop matches' a s i).retire.getD j false = true) :
    s.retire.getD j false = true ∨ a.absorbed.getD i false = false ∧
      extended matches' a.uses i = none ∧ j ∈ matches'.getD i [] := by
  unfold place at h
  split at h <;> rename_i habsorbed
  · exact Or.inl h
  · dsimp only at h
    split at h <;> rename_i hextended
    · exact Or.inl h
    · have hretire : ((matches'.getD i []).foldl (fun retire j => retire.set j true)
          s.retire).getD j false = true := by
        unfold openTrack at h
        dsimp only at h
        split at h <;> exact h
      rcases ((getD_setAll _ _).2 j).mp hretire with h | ⟨hmem, -⟩
      · exact Or.inl h
      · exact Or.inr ⟨Bool.eq_false_iff.mpr habsorbed, hextended, hmem⟩

/-- **No track is both extended and retired.** -/
theorem extended_not_retired (g : Grouper K) (t : SpectrumTile K) (w : Window K) (n i j : ℕ) :
    let p := plan g.centerHz t w g.pool.pending
    p.absorption.absorbed.getD i false = false →
      extended p.matches' p.absorption.uses i = some j →
      ¬ (placeFirst g w p n).retire.getD j false = true := by
  intro p habsorbed hextended
  obtain ⟨-, hsole⟩ := plan_sole g.centerHz t w g.pool.pending
  obtain ⟨hmatch, huse⟩ := extended_eq_some hextended
  induction n with
  | zero =>
    rw [placeFirst, List.range_zero, List.foldl_nil, List.getD_eq_getElem?_getD,
      List.getElem?_replicate]
    split <;> exact Bool.false_ne_true
  | succ n ih =>
    intro hretire
    rw [placeFirst, List.range_succ, List.foldl_append] at hretire
    rcases place_retire hretire with h | ⟨hopen, hnone, hmem⟩
    · exact ih h
    · have hi : i = n := hsole i n j habsorbed hopen (hmatch ▸ List.mem_singleton_self j) hmem huse
      rw [← hi, hextended] at hnone
      cases hnone

end Retire

/-- **Every burst is emitted once.** After `finish`, the emitted bursts carry the identifiers that
were handed out and the components that were found, each exactly once. In every call the loop over
the components keeps at most 128 tracks, and no track is both extended and retired. -/
theorem emitted_once (centerHz : K) (calls : List (Call K)) :
    let g := run (create centerHz) calls
    let out := (finish g).pool.emitted
    (out.map fun t => t.burst.id).Perm (List.range' 1 (g.nextId - 1)) ∧
      (found (create centerHz) calls).Nodup ∧
      (out.flatMap fun t => t.parts).Perm (found (create centerHz) calls) ∧
      (∀ t ∈ out, t.burst.components = t.parts.length) ∧
      g.pool.pending.length ≤ 128 ∧
      ∀ c : Call K, let p := plan g.centerHz c.tile c.window (g.arrive c).pool.pending
        (∀ n ≤ p.absorption.components.length,
          (placeFirst (g.arrive c) c.window p n).pool.pending.length ≤ 128) ∧
        ∀ n i j, p.absorption.absorbed.getD i false = false →
          extended p.matches' p.absorption.uses i = some j →
          ¬ (placeFirst (g.arrive c) c.window p n).retire.getD j false = true := by
  intro g out
  have hinit : Ledger (create centerHz).pool (create centerHz).nextId [] :=
    ⟨Nat.one_pos, .refl _, .refl _, fun t ht => absurd ht List.not_mem_nil, Nat.zero_le _⟩
  have hrun := run_ledger hinit calls
  have hfinish := finish_ledger hrun true
  have hall : (finish g).pool.all = out := List.append_nil _
  refine ⟨hall ▸ hfinish.ids, (found_nodup _ calls).1, hall ▸ hfinish.parts,
    hall ▸ hfinish.components, hrun.pending, fun c => ?_⟩
  have harrive : Ledger (g.arrive c).pool (g.arrive c).nextId (found (create centerHz) calls) := by
    rw [arrive_nextId]
    exact hrun.moved (moved_arrive c)
  refine ⟨fun n hn => ?_, fun n i j => ?_⟩
  · rw [← arrive_centerHz c] at hn ⊢
    exact (placeFirst_ledger harrive c.tile c.window hn).1.pending
  · rw [← arrive_centerHz c]
    exact extended_not_retired (g.arrive c) c.tile c.window n i j

end BurstGrouper

end OVMesh
