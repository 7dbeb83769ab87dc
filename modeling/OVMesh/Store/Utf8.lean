import OVMesh.Lib.Hex
import OVMesh.Store.Columns

/-!
# UTF-8 texts

`valid_utf8` of `storage.cpp` as it reads its argument, byte by byte.

* `leadByte`, `readContinuations`, `readSequence`, `readUtf8`: the loops of the source. A read past
  the end has no result.
* `readUtf8_eq`: they never read past the end, and accept the texts that `validUtf8` accepts.
* `validUtf8_iff`: these are the encodings of sequences of Unicode scalar values.
-/

namespace OVMesh

/-! ## The loops -/

/-- The first byte of a longer sequence: its bits of the value, the number of other bytes and the least
value. -/
def leadByte (first : ℕ) : Option (ℕ × ℕ × ℕ) :=
  if 0xc2 ≤ first ∧ first ≤ 0xdf then some (first &&& 0x1f, 1, 0x80)
  else if 0xe0 ≤ first ∧ first ≤ 0xef then some (first &&& 0x0f, 2, 0x800)
  else if 0xf0 ≤ first ∧ first ≤ 0xf4 then some (first &&& 7, 3, 0x10000)
  else none

/-- The loop over the other bytes, from an index on: the value, `none` where a byte continues nothing. -/
def readContinuations (text : Text) : ℕ → ℕ → ℕ → Option (Option ℕ)
  | _, value, 0 => some (some value)
  | i, value, remaining + 1 => do
    let next ← text[i]?
    if next.toNat &&& 0xc0 ≠ 0x80 then return none
    readContinuations text (i + 1) ((value <<< 6) ||| (next.toNat &&& 0x3f)) remaining

/-- One turn of the loop over the text: the index after the sequence, `none` where it is refused. -/
def readSequence (text : Text) (i : ℕ) : Option (Option ℕ) := do
  let first ← text[i]?
  if first.toNat < 0x80 then return some (i + 1)
  match leadByte first.toNat with
  | none => return none
  | some (value, remaining, minimum) =>
    if i + 1 + remaining > text.length then return none
    match ← readContinuations text (i + 1) value remaining with
    | none => return none
    | some value =>
      if value < minimum ∨ value > 0x10ffff ∨ 0xd800 ≤ value ∧ value ≤ 0xdfff then return none
      return some (i + 1 + remaining)

/-- The loop over the text from an index on. It has as many turns left as the fuel. -/
def readUtf8 (text : Text) : ℕ → ℕ → Option Bool
  | 0, i => if i < text.length then none else some true
  | turns + 1, i =>
    if i < text.length then do
      match ← readSequence text i with
      | none => return false
      | some next => readUtf8 text turns next
    else some true

/-! ## Sequences -/

variable {text rest : Text} {i n value turns : ℕ}

theorem continuation_iff (b : UInt8) : b.toNat &&& 0xc0 = 0x80 ↔ b.toNat / 64 = 2 :=
  Hex.forall_byte (P := fun b => b.toNat &&& 0xc0 = 0x80 ↔ b.toNat / 64 = 2) (by decide +kernel) b

/-- The bits of a byte are put behind a value. -/
theorem shift_or (value : ℕ) (b : UInt8) :
    (value <<< 6) ||| (b.toNat &&& 0x3f) = value * 64 + b.toNat % 64 := by
  have hmod : b.toNat &&& 0x3f = b.toNat % 64 := Nat.and_two_pow_sub_one_eq_mod b.toNat 6
  rw [hmod, ← Nat.shiftLeft_add_eq_or_of_lt (i := 6) (Nat.mod_lt _ (by decide)), Nat.shiftLeft_eq]

/-- The loop over the other bytes reads what is there. -/
theorem readContinuations_eq (h : i + n ≤ text.length) :
    readContinuations text i value n =
      some (if ((text.drop i).take n).all fun b => b.toNat / 64 = 2 then
        some (((text.drop i).take n).foldl (fun v b => v * 64 + b.toNat % 64) value) else none) := by
  induction n generalizing i value with
  | zero => simp [readContinuations]
  | succ n ih =>
    have hi : i < text.length := by omega
    rw [readContinuations, List.getElem?_eq_getElem hi, List.drop_eq_getElem_cons hi,
      List.take_succ_cons, List.all_cons, List.foldl_cons, ← shift_or]
    by_cases hb : text[i].toNat / 64 = 2
    · have hcont := (continuation_iff text[i]).mpr hb
      simp only [hcont, hb, Option.bind_eq_bind, Option.bind_some, decide_true, Bool.true_and, ne_eq,
        not_true_eq_false, if_false]
      exact ih (by omega)
    · have hcont := mt (continuation_iff text[i]).mp hb
      simp [hcont, hb]

/-- The turns of `validUtf8`, with the lead byte read as the source reads it. -/
theorem validUtf8_cons (first : UInt8) (text : Text) : validUtf8 (first :: text) =
    if first.toNat < 0x80 then validUtf8 text
    else match leadByte first.toNat with
      | none => false
      | some (value, remaining, minimum) =>
        if text.length < remaining then false
        else validSequence value minimum (text.take remaining) && validUtf8 (text.drop remaining) := by
  have h5 : first.toNat &&& 0x1f = first.toNat % 32 := Nat.and_two_pow_sub_one_eq_mod first.toNat 5
  have h4 : first.toNat &&& 0x0f = first.toNat % 16 := Nat.and_two_pow_sub_one_eq_mod first.toNat 4
  have h3 : first.toNat &&& 7 = first.toNat % 8 := Nat.and_two_pow_sub_one_eq_mod first.toNat 3
  conv_lhs => unfold validUtf8
  simp only [leadByte, UInt8.lt_iff_toNat_lt, UInt8.le_iff_toNat_le, UInt8.reduceToNat, h5, h4, h3]
  split_ifs
  · rfl
  · rcases text with _ | ⟨a, text⟩ <;> simp
  · rcases text with _ | ⟨a, _ | ⟨b, text⟩⟩ <;> simp
  · rcases text with _ | ⟨a, _ | ⟨b, _ | ⟨c, text⟩⟩⟩ <;> simp
  · rfl

/-- **The loops.** No byte is read past the end, and with a turn for each byte the outcome is that of
`validUtf8`. -/
theorem readUtf8_eq (h : text.length ≤ i + turns) :
    readUtf8 text turns i = some (validUtf8 (text.drop i)) := by
  induction turns generalizing i with
  | zero => 
    rw [readUtf8, if_neg (by omega), List.drop_eq_nil_of_le (by omega), validUtf8]
  | succ turns ih =>
    rw [readUtf8]
    split_ifs with hi
    · rw [List.drop_eq_getElem_cons hi, validUtf8_cons, readSequence, List.getElem?_eq_getElem hi]
      simp only [Option.bind_eq_bind, Option.bind_some]
      split_ifs with hfirst
      · exact ih (by omega)
      · cases hlead : leadByte text[i].toNat with
        | none => rfl
        | some lead =>
          obtain ⟨value, remaining, minimum⟩ := lead
          simp only [List.length_drop]
          by_cases hlength : i + 1 + remaining > text.length
          · rw [if_pos hlength, if_pos (by omega)]
            rfl
          · rw [if_neg hlength, if_neg (by omega), readContinuations_eq (by omega), validSequence]
            simp only [List.drop_drop, Option.bind_some]
            cases hall : ((text.drop (i + 1)).take remaining).all fun b => b.toNat / 64 = 2 with
            | false => simp
            | true =>
              simp only [if_true]
              split_ifs with hrange
              · simp
                omega
              · have hnext := @ih (i + 1 + remaining) (by omega)
                simp only [Option.pure_def, Option.bind_some, hnext]
                simp
                omega
    · rw [List.drop_eq_nil_of_le (by omega), validUtf8]

/-! ## Characters -/

/-- A scalar value is that of a character. -/
theorem exists_char {v : ℕ} (h : v ≤ 0x10ffff) (hsurrogate : ¬ (0xd800 ≤ v ∧ v ≤ 0xdfff)) :
    ∃ c : Char, c.val.toNat = v := by
  have hvalid : v.isValidChar := by
    rw [Nat.isValidChar]
    omega
  exact ⟨Char.ofNatAux v hvalid, by simp [Char.ofNatAux]⟩

/-- An accepted sequence is the encoding of its value. -/
theorem validSequence_encode {first : UInt8} {remaining minimum : ℕ} {bytes : Text}
    (hlead : leadByte first.toNat = some (value, remaining, minimum)) (hlength : bytes.length = remaining)
    (h : validSequence value minimum bytes = true) :
    ∃ c : Char, String.utf8EncodeChar c = first :: bytes := by
  have hbyte : ∀ (b : UInt8) (n : ℕ), n = b.toNat → UInt8.ofNat n = b := by
    rintro b n rfl
    exact UInt8.ofNat_toNat
  have h5 : first.toNat &&& 0x1f = first.toNat % 32 := Nat.and_two_pow_sub_one_eq_mod first.toNat 5
  have h4 : first.toNat &&& 0x0f = first.toNat % 16 := Nat.and_two_pow_sub_one_eq_mod first.toNat 4
  have h3 : first.toNat &&& 7 = first.toNat % 8 := Nat.and_two_pow_sub_one_eq_mod first.toNat 3
  simp only [validSequence, Bool.and_eq_true, Bool.not_eq_true', Bool.and_eq_false_iff,
    decide_eq_true_eq, decide_eq_false_iff_not, List.all_eq_true] at h
  obtain ⟨⟨⟨hall, hminimum⟩, hmaximum⟩, hsurrogate⟩ := h
  obtain ⟨c, hc⟩ := exists_char hmaximum (by omega)
  refine ⟨c, ?_⟩
  unfold String.utf8EncodeChar
  generalize c.val.toNat = v at hc
  simp only
  rw [leadByte, h5, h4, h3] at hlead
  split_ifs at hlead with htwo hthree hfour <;> cases hlead
  · obtain ⟨a, rfl⟩ := List.length_eq_one_iff.mp hlength
    simp only [List.forall_mem_cons, List.foldl_cons, List.foldl_nil] at *
    rw [if_neg (by omega), if_pos (by omega), hbyte first _ (by omega), hbyte a _ (by omega)]
  · obtain ⟨a, b, rfl⟩ := List.length_eq_two.mp hlength
    simp only [List.forall_mem_cons, List.foldl_cons, List.foldl_nil] at *
    rw [if_neg (by omega), if_neg (by omega), if_pos (by omega), hbyte first _ (by omega),
      hbyte a _ (by omega), hbyte b _ (by omega)]
  · obtain ⟨a, b, c, rfl⟩ := List.length_eq_three.mp hlength
    simp only [List.forall_mem_cons, List.foldl_cons, List.foldl_nil] at *
    rw [if_neg (by omega), if_neg (by omega), if_neg (by omega), hbyte first _ (by omega),
      hbyte a _ (by omega), hbyte b _ (by omega), hbyte c _ (by omega)]

/-- The encoding of some characters. -/
theorem validUtf8_flatMap (chars : List Char) :
    validUtf8 (chars.flatMap String.utf8EncodeChar) = true := by
  induction chars with
  | nil => rfl
  | cons c chars ih => rw [List.flatMap_cons, validUtf8_utf8EncodeChar, ih]

/-- An accepted text is the encoding of some characters. -/
theorem exists_chars (h : validUtf8 text = true) :
    ∃ chars : List Char, text = chars.flatMap String.utf8EncodeChar := by
  induction hn : text.length using Nat.strong_induction_on generalizing text with
  | _ n ih =>
    cases text with
    | nil => exact ⟨[], rfl⟩
    | cons first text =>
      subst hn
      rw [validUtf8_cons] at h
      split_ifs at h with hfirst
      · obtain ⟨chars, hchars⟩ := ih text.length (Nat.lt_succ_self _) h rfl
        obtain ⟨c, hc⟩ := exists_char (v := first.toNat) (by omega) (by omega)
        have hencode : String.utf8EncodeChar c = [first] := by
          unfold String.utf8EncodeChar
          simp only [hc]
          rw [if_pos (by omega), UInt8.ofNat_toNat]
        exact ⟨c :: chars, by rw [List.flatMap_cons, hencode, hchars, List.singleton_append]⟩
      · cases hlead : leadByte first.toNat with
        | none => simp [hlead] at h
        | some lead =>
          obtain ⟨value, remaining, minimum⟩ := lead
          simp only [hlead] at h
          split_ifs at h with hlength
          obtain ⟨hsequence, hrest⟩ := Bool.and_eq_true_iff.mp h
          obtain ⟨chars, hchars⟩ := ih (text.drop remaining).length
            (by rw [List.length_drop, List.length_cons]; omega) hrest rfl
          obtain ⟨c, hc⟩ := validSequence_encode hlead (by rw [List.length_take]; omega) hsequence
          refine ⟨c :: chars, ?_⟩
          rw [List.flatMap_cons, hc, ← hchars, List.cons_append, List.take_append_drop]

/-- The accepted texts are the encodings of sequences of Unicode scalar values. -/
theorem validUtf8_iff : validUtf8 text = true ↔
    ∃ chars : List Char, text = chars.flatMap String.utf8EncodeChar := by
  refine ⟨exists_chars, ?_⟩
  rintro ⟨chars, rfl⟩
  exact validUtf8_flatMap chars

/-- **`valid_utf8`.** For every text the loops end without a read past the end, and they accept it if
and only if it is well-formed UTF-8. -/
theorem readUtf8_wellFormed (text : Text) : ∃ accepted, readUtf8 text text.length 0 = some accepted ∧
    (accepted = true ↔ ByteArray.IsValidUTF8 text.toByteArray) := by
  refine ⟨validUtf8 text, readUtf8_eq (by omega), validUtf8_iff.trans ⟨?_, ?_⟩⟩
  · rintro ⟨chars, rfl⟩
    exact ⟨chars, rfl⟩
  · rintro ⟨chars, hchars⟩
    refine ⟨chars, ?_⟩
    have hbytes := congrArg (fun bytes => bytes.data.toList) hchars
    simpa [List.utf8Encode, List.data_toByteArray] using hbytes

end OVMesh
