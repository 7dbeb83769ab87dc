import OVMesh.Lib.Checked

/-!
# Settings files

Texts of lines `name=value`, each name once.

* `print`: the text of some fields. `readFields`: the fields of a text.
* `readFields_eq_ok`: a text is read if and only if it is the text of legal fields, which are the result.
* `lookup_of_mem`, `perm_of_lookup`: fields by their name, in any order.
-/

namespace OVMesh

namespace Settings

variable {ε : Type}

/-- A name and its value. -/
abbrev Field := List UInt8 × List UInt8

/-- A line, with the `=` and the line feed. -/
def line (field : Field) : List UInt8 := field.1 ++ 61 :: (field.2 ++ [10])

/-- The names of the fields, in their order. -/
def names (fields : List Field) : List (List UInt8) := fields.map Prod.fst

/-- The fields, one line each. -/
def print (fields : List Field) : List UInt8 := fields.flatMap line

/-- What stands before the first separator, and what behind it. -/
def cut (separator : UInt8) : List UInt8 → Option (List UInt8 × List UInt8)
  | [] => none
  | b :: rest =>
    if b = separator then some ([], rest)
    else (cut separator rest).map fun parts => (b :: parts.1, parts.2)

theorem cut_eq_some {separator : UInt8} {text a b : List UInt8} :
    cut separator text = some (a, b) ↔ text = a ++ separator :: b ∧ separator ∉ a := by
  induction text generalizing a with
  | nil => simp [cut]
  | cons c rest ih =>
    rw [cut]
    split_ifs with hc
    · subst hc
      constructor
      · intro h
        obtain ⟨rfl, rfl⟩ := Prod.mk.inj (Option.some.inj h)
        simp
      · rintro ⟨htext, hnot⟩
        cases a with
        | nil => simpa using htext
        | cons d a =>
          rw [List.cons_append, List.cons.injEq] at htext
          exact absurd (htext.1 ▸ List.mem_cons_self) hnot
    · rw [Option.map_eq_some_iff]
      constructor
      · rintro ⟨⟨a', b'⟩, hcut, heq⟩
        obtain ⟨rfl, rfl⟩ := Prod.mk.inj heq
        obtain ⟨rfl, hnot⟩ := ih.mp hcut
        refine ⟨rfl, fun hmem => ?_⟩
        rcases List.mem_cons.mp hmem with h | h
        · exact hc h.symm
        · exact hnot h
      · rintro ⟨htext, hnot⟩
        cases a with
        | nil =>
          rw [List.nil_append, List.cons.injEq] at htext
          exact absurd htext.1 hc
        | cons d a =>
          rw [List.cons_append, List.cons.injEq] at htext
          obtain ⟨rfl, rfl⟩ := htext
          exact ⟨(a, b), ih.mpr ⟨rfl, fun h => hnot (List.mem_cons_of_mem _ h)⟩, rfl⟩

theorem length_cut {separator : UInt8} {text a b : List UInt8} (h : cut separator text = some (a, b)) :
    b.length < text.length := by
  rw [(cut_eq_some.mp h).1, List.length_append, List.length_cons]
  omega

section

variable (limit : ℕ) (malformed duplicate : ε)

/-- The fields of a text, behind those of the lines before. -/
def readFields (fields : List Field) (text : List UInt8) : Except ε (List Field) :=
  if text = [] then .ok fields
  else match _h : cut 10 text with
    | none => .error malformed
    | some (line, rest) =>
      match cut 61 line with
      | none => .error malformed
      | some (name, value) =>
        if name = [] ∨ fields.length ≥ limit then .error malformed
        else if (names fields).contains name then .error duplicate
        else readFields (fields ++ [(name, value)]) rest
termination_by text.length
decreasing_by exact length_cut _h

end

/-- A field that a line can hold. -/
structure Legal (field : Field) : Prop where
  name : field.1 ≠ []
  equals : (61 : UInt8) ∉ field.1
  nameLine : (10 : UInt8) ∉ field.1
  valueLine : (10 : UInt8) ∉ field.2

variable {limit : ℕ} {malformed duplicate : ε} {fields out more : List Field} {field : Field}
  {text : List UInt8}

theorem nodup_concat : (names (fields ++ [field])).Nodup ↔ (names fields).Nodup ∧ field.1 ∉ names fields := by
  rw [names, List.map_append, List.map_singleton, ← List.concat_eq_append, List.nodup_concat, and_comm]
  rfl

/-- One line. -/
theorem readFields_line (h : Legal field) (hlimit : fields.length < limit)
    (hnew : field.1 ∉ names fields) :
    readFields limit malformed duplicate fields (line field ++ text) =
      readFields limit malformed duplicate (fields ++ [field]) text := by
  have hline : cut 10 (line field ++ text) = some (field.1 ++ 61 :: field.2, text) := by
    rw [cut_eq_some]
    refine ⟨by simp [line], fun hmem => ?_⟩
    rcases List.mem_append.mp hmem with hmem | hmem
    · exact h.nameLine hmem
    · rcases List.mem_cons.mp hmem with hmem | hmem
      · exact absurd hmem (by decide)
      · exact h.valueLine hmem
  have hfield : cut 61 (field.1 ++ 61 :: field.2) = some (field.1, field.2) :=
    cut_eq_some.mpr ⟨rfl, h.equals⟩
  rw [readFields, if_neg (by simp [line])]
  split
  · rename_i hnone
    rw [hline] at hnone
    cases hnone
  · rename_i line' rest hsome
    rw [hline] at hsome
    obtain ⟨rfl, rfl⟩ := Prod.mk.inj (Option.some.inj hsome)
    simp only [hfield]
    rw [if_neg (by rw [not_or]; exact ⟨h.name, by omega⟩), if_neg (by rwa [List.contains_iff_mem])]

/-- **The texts that are read**, behind some fields. -/
theorem readFields_append (hnodup : (names fields).Nodup) (hlimit : fields.length ≤ limit) :
    readFields limit malformed duplicate fields text = .ok out ↔
      ∃ more, out = fields ++ more ∧ text = print more ∧ (∀ field ∈ more, Legal field) ∧
        (names out).Nodup ∧ out.length ≤ limit := by
  constructor
  · intro h
    fun_induction readFields limit malformed duplicate fields text with
    | case1 fields =>
      cases h
      exact ⟨[], by simp, rfl, by simp, hnodup, hlimit⟩
    | case2 => cases h
    | case3 => cases h
    | case4 => cases h
    | case5 => cases h
    | case6 fields text hne line' rest hline name value hfield hbad hnew ih =>
      rw [not_or, not_le] at hbad
      have hnodup' : (names (fields ++ [(name, value)])).Nodup :=
        nodup_concat.mpr ⟨hnodup, fun h => hnew (List.contains_iff_mem.mpr h)⟩
      obtain ⟨more, rfl, rfl, hlegal, hout, hlength⟩ := ih hnodup' (by simp; omega) h
      obtain ⟨htext, hfeed⟩ := cut_eq_some.mp hline
      obtain ⟨rfl, hequals⟩ := cut_eq_some.mp hfield
      rw [List.mem_append, List.mem_cons, not_or, not_or] at hfeed
      refine ⟨(name, value) :: more, by simp, ?_, ?_, hout, hlength⟩
      · rw [htext]
        simp [print, line]
      · rw [List.forall_mem_cons]
        exact ⟨⟨hbad.1, hequals, hfeed.1, hfeed.2.2⟩, hlegal⟩
  · rintro ⟨more, rfl, rfl, hlegal, hout, hlength⟩
    induction more generalizing fields with
    | nil => simp [print, readFields]
    | cons field more ih =>
      obtain ⟨hfield, hlegal⟩ := List.forall_mem_cons.mp hlegal
      rw [List.append_cons] at hout hlength ⊢
      have hnodup' : (names (fields ++ [field])).Nodup := by
        rw [names, List.map_append] at hout
        exact hout.of_append_left
      have hnew : field.1 ∉ names fields := (nodup_concat.mp hnodup').2
      have hlength' : (fields ++ [field]).length ≤ limit := by
        simp only [List.length_append] at hlength ⊢
        omega
      rw [print, List.flatMap_cons, readFields_line hfield (by simp at hlength'; omega) hnew]
      exact ih hnodup' hlength' hlegal hout hlength

/-- **The texts that are read.** -/
theorem readFields_eq_ok : readFields limit malformed duplicate [] text = .ok fields ↔
    text = print fields ∧ (∀ field ∈ fields, Legal field) ∧ (names fields).Nodup ∧
      fields.length ≤ limit := by
  have hnodup : (names []).Nodup := List.nodup_nil
  rw [readFields_append hnodup (Nat.zero_le _)]
  simp

/-! ## Fields by name -/

theorem lookup_of_mem (hnodup : (names fields).Nodup) {name value : List UInt8}
    (h : (name, value) ∈ fields) : fields.lookup name = some value := by
  induction fields with
  | nil => cases h
  | cons field fields ih =>
    rw [names, List.map_cons, List.nodup_cons] at hnodup
    rw [List.lookup_cons]
    rcases List.mem_cons.mp h with rfl | h
    · simp
    · have hne : name ≠ field.1 := fun heq =>
        hnodup.1 (heq ▸ List.mem_map.mpr ⟨(name, value), h, rfl⟩)
      rw [beq_false_of_ne hne]
      exact ih hnodup.2 h

theorem mem_of_lookup {name value : List UInt8} (h : fields.lookup name = some value) :
    (name, value) ∈ fields := by
  induction fields with
  | nil => cases h
  | cons field fields ih =>
    rw [List.lookup_cons] at h
    split at h
    · rename_i hname
      rw [beq_iff_eq.mp hname, ← Option.some.inj h]
      exact List.mem_cons_self
    · exact List.mem_cons_of_mem _ (ih h)

/-- Fields that have the names of others, and their values, and are no more, are these in some order. -/
theorem perm_of_lookup {expected : List Field} (hnodup : (names expected).Nodup)
    (hlength : fields.length = expected.length)
    (h : ∀ field ∈ expected, fields.lookup field.1 = some field.2) : fields.Perm expected := by
  have hsub : expected.Subperm fields :=
    List.subperm_of_subset hnodup.of_map fun field hfield => mem_of_lookup (h field hfield)
  exact (hsub.perm_of_length_le hlength.le).symm

theorem lookup_of_perm {expected : List Field} (hnodup : (names expected).Nodup)
    (h : fields.Perm expected) : ∀ field ∈ expected, fields.lookup field.1 = some field.2 :=
  fun _ hfield => lookup_of_mem ((h.map Prod.fst).nodup_iff.mpr hnodup) (h.mem_iff.mpr hfield)

end Settings

end OVMesh
