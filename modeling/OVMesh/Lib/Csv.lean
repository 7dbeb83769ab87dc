import OVMesh.Lib.Numerals

/-!
# Comma-separated values

The records of RFC 4180 over bytes, where a line feed alone ends a record too. A field is quoted,
with its quotes doubled, or has no comma, quote or line break. A reader takes one byte after the
other.

* `records`: the reader, from some point within a record.
* `quoted`, `Encodes`: a quoted field, and the texts that stand for a value.
* `records_encodes`: what is read where a field was written.
* `join`, `records_line`: the fields of a line.
-/

namespace OVMesh

namespace Csv

/-- A byte with no meaning of its own: not a quote, a comma or of a line break. -/
def isPlain (b : UInt8) : Bool := b != 34 && b != 44 && b != 13 && b != 10

/-- Where a reader is: before a field, within one, behind a quote of a quoted one, or behind a
carriage return. -/
inductive Mode
  | start | plain | quoted | closed | returned
  deriving DecidableEq

/-- The records of a text, from a point where `field` was read of the current field and `row` is
what comes before it in the record. -/
def records (mode : Mode) (field : List UInt8) (row : List (List UInt8)) :
    List UInt8 → Option (List (List (List UInt8)))
  | [] => match mode with
    | .start => if row = [] then some [] else some [row ++ [field]]
    | .plain | .closed => some [row ++ [field]]
    | .quoted | .returned => none
  | b :: rest =>
    if mode = .quoted then
      if b = 34 then records .closed field row rest else records .quoted (field ++ [b]) row rest
    else if b = 10 then (records .start [] [] rest).map ((row ++ [field]) :: ·)
    else if mode = .returned then none
    else if b = 13 then records .returned field row rest
    else if b = 44 then records .start [] (row ++ [field]) rest
    else if b = 34 then
      if mode = .start then records .quoted field row rest
      else if mode = .closed then records .quoted (field ++ [34]) row rest
      else none
    else if mode = .closed then none
    else records .plain (field ++ [b]) row rest

/-- The records of a text. -/
def parse (text : List UInt8) : Option (List (List (List UInt8))) := records .start [] [] text

/-- A field in quotes. -/
def quoted (value : List UInt8) : List UInt8 :=
  34 :: value.flatMap (fun b => if b = 34 then [34, 34] else [b]) ++ [34]

/-- The texts of a field with the given value. -/
def Encodes (text value : List UInt8) : Prop :=
  text = quoted value ∨ text = value ∧ ∀ b ∈ value, isPlain b = true

/-- Some fields with commas between them. -/
def join (fields : List (List UInt8)) : List UInt8 := List.intercalate [44] fields

variable {mode : Mode} {field value text rest : List UInt8} {row : List (List UInt8)}

/-- The reader is behind a field, of which nothing is open. -/
def Mode.Behind (mode : Mode) : Prop := mode = .start ∨ mode = .plain ∨ mode = .closed

@[simp] theorem parse_nil : parse [] = some [] := rfl

theorem records_comma (h : mode.Behind) :
    records mode field row (44 :: rest) = records .start [] (row ++ [field]) rest := by
  rcases h with rfl | rfl | rfl <;> simp [records]

theorem records_feed (h : mode.Behind) :
    records mode field row (10 :: rest) = (parse rest).map ((row ++ [field]) :: ·) := by
  rcases h with rfl | rfl | rfl <;> simp [records, parse]

/-- The doubled quotes of a quoted field are read as single ones. -/
theorem records_doubled :
    records .quoted field row
        (value.flatMap (fun b => if b = 34 then [34, 34] else [b]) ++ rest) =
      records .quoted (field ++ value) row rest := by
  induction value generalizing field with
  | nil => simp
  | cons b value ih =>
    rw [List.flatMap_cons, List.append_assoc]
    by_cases hb : b = 34
    · subst hb
      simp [records, ih]
    · simp [records, hb, ih]

theorem records_quoted :
    records .start [] row (quoted value ++ rest) = records .closed value row rest := by
  have hopen : ∀ l, records .start [] row (34 :: l) = records .quoted [] row l := by
    intro l
    simp [records]
  rw [quoted, List.append_assoc, List.cons_append, hopen, records_doubled]
  simp [records]

variable (field) in
theorem records_plain (h : ∀ b ∈ value, isPlain b = true) :
    records .plain field row (value ++ rest) = records .plain (field ++ value) row rest := by
  induction value generalizing field with
  | nil => simp
  | cons b value ih =>
    obtain ⟨hb, hvalue⟩ := List.forall_mem_cons.mp h
    simp only [isPlain, Bool.and_eq_true, bne_iff_ne] at hb
    obtain ⟨⟨⟨hquote, hcomma⟩, hreturn⟩, hfeed⟩ := hb
    rw [List.cons_append, records]
    simp only [reduceCtorEq, if_false, hquote, hcomma, hreturn, hfeed]
    rw [ih _ hvalue, List.append_assoc]
    rfl

variable (row rest) in
/-- **What is read where a field was written:** its value, and then what follows. -/
theorem records_encodes (h : Encodes text value) :
    ∃ mode : Mode, mode.Behind ∧
      records .start [] row (text ++ rest) = records mode value row rest := by
  obtain rfl | ⟨rfl, h⟩ := h
  · exact ⟨.closed, .inr (.inr rfl), records_quoted⟩
  cases text with
  | nil => exact ⟨.start, .inl rfl, rfl⟩
  | cons b text =>
    refine ⟨.plain, .inr (.inl rfl), ?_⟩
    rw [← List.nil_append (b :: text), ← records_plain [] h]
    obtain ⟨hb, -⟩ := List.forall_mem_cons.mp h
    simp only [isPlain, Bool.and_eq_true, bne_iff_ne] at hb
    obtain ⟨⟨⟨hquote, hcomma⟩, hreturn⟩, hfeed⟩ := hb
    simp [records, hquote, hcomma, hreturn, hfeed]

theorem join_cons_cons (a b : List UInt8) (l : List (List UInt8)) :
    join (a :: b :: l) = a ++ 44 :: join (b :: l) := by
  simp [join, List.intercalate]

theorem join_cons (a : List UInt8) (l : List (List UInt8)) :
    join (a :: l) = a ++ l.flatMap (44 :: ·) := by
  induction l generalizing a with
  | nil => simp [join, List.intercalate]
  | cons b l ih => rw [join_cons_cons, ih, List.flatMap_cons, List.cons_append]

/-- The fields of a line that is read behind the fields of `row`. -/
theorem records_join {texts values : List (List UInt8)} (h : List.Forall₂ Encodes texts values)
    (hne : texts ≠ []) :
    records .start [] row (join texts ++ 10 :: rest) =
      (parse rest).map ((row ++ values) :: ·) := by
  induction h generalizing row with
  | nil => exact absurd rfl hne
  | @cons text value texts values htext htexts ih =>
    cases htexts with
    | nil =>
      obtain ⟨mode, hmode, hread⟩ := records_encodes (10 :: rest) row htext
      rw [show join [text] = text by simp [join, List.intercalate], hread, records_feed hmode]
    | @cons text' value' texts values htext' htexts =>
      obtain ⟨mode, hmode, hread⟩ :=
        records_encodes (44 :: (join (text' :: texts) ++ 10 :: rest)) row htext
      rw [join_cons_cons, List.append_assoc, List.cons_append, hread, records_comma hmode,
        ih (List.cons_ne_nil _ _), List.append_assoc]
      rfl

/-- **The fields of a line.** -/
theorem parse_line {texts values : List (List UInt8)} (h : List.Forall₂ Encodes texts values)
    (hne : texts ≠ []) : parse (join texts ++ [10]) = some [values] := by
  rw [parse, records_join h hne, parse_nil, Option.map_some, List.nil_append]

end Csv

end OVMesh
