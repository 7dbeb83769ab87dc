import OVMesh.Lib.Varint
import OVMesh.Protocol.Envelope

/-!
# The wire reader

`WireReader` of `protobuf_guard.hpp` with its position. A read behind the end of the input has no
result.

* `Field.encode`, `Field.Canonical`: the fields of a message, and the only text of each.
* `next_eq_some`, `next_encode`: what is read of a text, and what is read where a field stands.
* `Reader`: the members of a reader, and `varint`, `next` and `good` on them.
* `fields`: the loop over `next`, from any state of a reader.
* `fields_before`: what the loop returns.
-/

namespace OVMesh

namespace Protocol

namespace WireReader

/-! ## Fields -/

/-- The text of a field behind its tag. -/
def Field.body (f : Field) : List UInt8 :=
  match f.wire with
  | 0 => Varint.encode f.value
  | 1 => LittleEndian.encode 8 f.value
  | 5 => LittleEndian.encode 4 f.value
  | _ => Varint.encode f.bytes.length ++ f.bytes

/-- The text of a field: its tag in the shortest form, and then a number in the shortest form, a
number of fixed width, or some bytes behind their number. -/
def Field.encode (f : Field) : List UInt8 := Varint.encode (8 * f.tag + f.wire) ++ f.body

/-- The wire types, and what the text of each holds. -/
def Field.Form (f : Field) : Prop :=
  f.wire = 0 ∧ f.value < 2 ^ 64 ∧ f.bytes = [] ∨ f.wire = 1 ∧ f.value < 2 ^ 64 ∧ f.bytes = [] ∨
    f.wire = 5 ∧ f.value < 2 ^ 32 ∧ f.bytes = [] ∨
    f.wire = 2 ∧ f.value = 0 ∧ f.bytes.length < 2 ^ 64

/-- A field that a message may have. -/
structure Field.Canonical (f : Field) : Prop where
  tag_pos : f.tag ≠ 0
  tag_le : 8 * f.tag + f.wire ≤ 2 ^ 32 - 1
  form : f.Form

/-- The text is that of some fields in a row. -/
def Message (fs : List Field) (text : List UInt8) : Prop :=
  (∀ f ∈ fs, f.Canonical) ∧ text = fs.flatMap Field.encode

variable {i value v w : ℕ} {input rest : List UInt8} {f : Field}

theorem pow_shift {i : ℕ} (h : i < 9) : 2 ^ (64 - 7 * i) = 128 * 2 ^ (64 - 7 * (i + 1)) := by
  rw [show 64 - 7 * i = 64 - 7 * (i + 1) + 7 by omega, Nat.pow_add, Nat.mul_comm]

/-- Only the shortest form of a number below `2 ^ 64` is read. -/
theorem varintFrom_eq_some (h : varintFrom i value input = some (v, rest)) :
    ∃ w, v = value + w * 2 ^ (7 * i) ∧ (i = 0 ∨ w ≠ 0) ∧ i ≤ 9 ∧ w < 2 ^ (64 - 7 * i) ∧
      input = Varint.encode w ++ rest := by
  fun_induction varintFrom i value input with
  | case1 => cases h
  | case2 => cases h
  -- The last byte of the number, and below one with more to follow.
  | case3 i start byte rest' hin value' hlt hmin =>
    obtain ⟨rfl, rfl⟩ : value' = v ∧ rest' = rest := by simpa using h
    have hsmall : byte.toNat < 2 ^ (64 - 7 * i) := by
      rcases Nat.lt_or_ge i 9 with hi | hi
      · have := Nat.one_le_two_pow (n := 64 - 7 * (i + 1))
        rw [pow_shift hi]
        omega
      · have hnine : i = 9 := by omega
        subst hnine
        have hbyte : ¬ byte > 1 := fun hgt => hin (.inr ⟨rfl, hgt⟩)
        have hle := UInt8.le_iff_toNat_le.mp (UInt8.not_lt.mp hbyte)
        exact lt_of_le_of_lt hle (by decide)
    refine ⟨byte.toNat, ?_, ?_, by omega, hsmall, ?_⟩
    · rw [show value' = start + byte.toNat % 128 * 2 ^ (7 * i) from rfl, Nat.mod_eq_of_lt hlt]
    · exact hmin.imp_right fun hbyte hzero => hbyte (UInt8.toNat_inj.mp hzero)
    · rw [Varint.encode_of_lt hlt, UInt8.ofNat_toNat]
      rfl
  | case4 => cases h
  | case5 i start byte rest' hin value' hge ih =>
    have hbyte := byte.toNat_lt
    have hi : i < 9 := by
      by_contra hi
      have hnine : i = 9 := by omega
      have hgt : byte > 1 := UInt8.lt_iff_toNat_lt.mpr (show 1 < byte.toNat by omega)
      exact hin (.inr ⟨hnine, hgt⟩)
    obtain ⟨w, rfl, hw, -, hlt, rfl⟩ := ih h
    have hw : w ≠ 0 := hw.resolve_left (Nat.succ_ne_zero i)
    refine ⟨byte.toNat % 128 + 128 * w, ?_, .inr (by omega), by omega, ?_, ?_⟩
    · rw [show value' = start + byte.toNat % 128 * 2 ^ (7 * i) from rfl, Nat.mul_succ, Nat.pow_add]
      ring
    · rw [pow_shift hi]
      omega
    · have hdigit : (byte.toNat % 128 + 128 * w) % 128 + 128 = byte.toNat := by omega
      have hdiv : (byte.toNat % 128 + 128 * w) / 128 = w := by omega
      have hencode : Varint.encode (byte.toNat % 128 + 128 * w) = byte :: Varint.encode w := by
        rw [Varint.encode_of_le (by omega), hdigit, hdiv, UInt8.ofNat_toNat]
      rw [hencode, List.cons_append]

/-- The shortest form of a number is read. -/
theorem varintFrom_encode (hi : i ≤ 9) (hw : w < 2 ^ (64 - 7 * i)) (h0 : i = 0 ∨ w ≠ 0) :
    varintFrom i value (Varint.encode w ++ rest) = some (value + w * 2 ^ (7 * i), rest) := by
  -- Strong induction, as every byte takes seven bits off the value.
  induction w using Nat.strong_induction_on generalizing i value with
  | _ w ih =>
  rcases Nat.lt_or_ge w 128 with hlt | hge
  · have hbyte : (UInt8.ofNat w).toNat = w := by
      rw [UInt8.toNat_ofNat']
      omega
    have hin : ¬ (i ≥ 10 ∨ (i = 9 ∧ UInt8.ofNat w > 1)) := by
      rintro (h | ⟨rfl, h⟩)
      · omega
      · have hgt := UInt8.lt_iff_toNat_lt.mp h
        rw [hbyte] at hgt
        have : w < 2 := hw
        have : (1 : UInt8).toNat = 1 := rfl
        omega
    have hmin : i = 0 ∨ UInt8.ofNat w ≠ 0 := by
      refine h0.imp_right fun h heq => h ?_
      rw [← hbyte, heq]
      rfl
    rw [Varint.encode_of_lt hlt, List.singleton_append, varintFrom, if_neg hin]
    simp only [hbyte, if_pos hlt, if_pos hmin, Nat.mod_eq_of_lt hlt]
  · have hi : i < 9 := by
      by_contra hi
      have hnine : i = 9 := by omega
      subst hnine
      have : w < 2 := hw
      omega
    have hbyte : (UInt8.ofNat (w % 128 + 128)).toNat = w % 128 + 128 := by
      rw [UInt8.toNat_ofNat']
      omega
    have hdiv : w / 128 < 2 ^ (64 - 7 * (i + 1)) := by
      rw [Nat.div_lt_iff_lt_mul (by decide), Nat.mul_comm, ← pow_shift hi]
      exact hw
    have hin : ¬ (i ≥ 10 ∨ (i = 9 ∧ UInt8.ofNat (w % 128 + 128) > 1)) := by omega
    have hnext := @ih (w / 128) (by omega) (i + 1)
      (value + (w % 128 + 128) % 128 * 2 ^ (7 * i)) (by omega) hdiv (.inr (by omega))
    have hmod : (w % 128 + 128) % 128 = w % 128 := by omega
    have hsplit : w = w % 128 + 128 * (w / 128) := (Nat.mod_add_div w 128).symm
    rw [Varint.encode_of_le hge, List.cons_append, varintFrom, if_neg hin]
    simp only [hbyte, if_neg (show ¬ w % 128 + 128 < 128 by omega)]
    rw [hnext, hmod]
    congr 2
    conv_rhs => rw [hsplit]
    rw [Nat.mul_succ, Nat.pow_add]
    ring

theorem varint_eq_some (h : varint input = some (v, rest)) :
    v < 2 ^ 64 ∧ input = Varint.encode v ++ rest := by
  obtain ⟨w, rfl, -, -, hlt, rfl⟩ := varintFrom_eq_some h
  rw [Nat.mul_zero, Nat.pow_zero, Nat.mul_one, Nat.zero_add]
  exact ⟨hlt, rfl⟩

theorem varint_encode (h : v < 2 ^ 64) : varint (Varint.encode v ++ rest) = some (v, rest) := by
  rw [varint, varintFrom_encode (Nat.zero_le 9) h (.inl rfl)]
  simp

/-- The part of `next` behind the tag. -/
def nextBody (field : Field) (rest : List UInt8) : Option (Field × List UInt8) :=
  match field.wire with
  | 0 => (varint rest).bind fun p => some ({ field with value := p.1 }, p.2)
  | 1 =>
    if rest.length < 8 then none
    else some ({ field with value := fixed (rest.take 8) }, rest.drop 8)
  | 5 =>
    if rest.length < 4 then none
    else some ({ field with value := fixed (rest.take 4) }, rest.drop 4)
  | 2 => (varint rest).bind fun p =>
    if p.1 > p.2.length then none
    else some ({ field with bytes := p.2.take p.1 }, p.2.drop p.1)
  | _ => none

theorem next_eq : next input = (varint input).bind fun p =>
    if p.1 > 0xffffffff ∨ p.1 / 8 = 0 then none
    else nextBody { tag := p.1 / 8, wire := p.1 % 8 } p.2 := rfl

theorem fixed_take {k : ℕ} (h : ¬ rest.length < k) :
    fixed (rest.take k) < 256 ^ k ∧
      LittleEndian.encode k (fixed (rest.take k)) = rest.take k := by
  have hlength : (rest.take k).length = k := by
    rw [List.length_take]
    omega
  have hlt := LittleEndian.value_lt (rest.take k)
  have hencode := LittleEndian.encode_value (rest.take k)
  rw [hlength] at hlt hencode
  exact ⟨hlt, hencode⟩

theorem nextBody_eq_some {tag wire : ℕ} (h : nextBody { tag, wire } input = some (f, rest)) :
    f.tag = tag ∧ f.wire = wire ∧ f.Form ∧ input = f.body ++ rest := by
  unfold nextBody at h
  split at h <;> rename_i hwire
  · obtain rfl : wire = 0 := hwire
    obtain ⟨⟨value, behind⟩, hvalue, hfield⟩ := Option.bind_eq_some_iff.mp h
    obtain ⟨hlt, rfl⟩ := varint_eq_some hvalue
    obtain ⟨rfl, rfl⟩ := Prod.mk.inj (Option.some.inj hfield)
    exact ⟨rfl, rfl, .inl ⟨rfl, hlt, rfl⟩, rfl⟩
  · obtain rfl : wire = 1 := hwire
    split at h <;> rename_i hshort
    · cases h
    obtain ⟨rfl, rfl⟩ := Prod.mk.inj (Option.some.inj h)
    obtain ⟨hlt, hencode⟩ := fixed_take hshort
    refine ⟨rfl, rfl, .inr (.inl ⟨rfl, hlt, rfl⟩), ?_⟩
    show input = LittleEndian.encode 8 (fixed (input.take 8)) ++ input.drop 8
    rw [hencode, List.take_append_drop]
  · obtain rfl : wire = 5 := hwire
    split at h <;> rename_i hshort
    · cases h
    obtain ⟨rfl, rfl⟩ := Prod.mk.inj (Option.some.inj h)
    obtain ⟨hlt, hencode⟩ := fixed_take hshort
    refine ⟨rfl, rfl, .inr (.inr (.inl ⟨rfl, hlt, rfl⟩)), ?_⟩
    show input = LittleEndian.encode 4 (fixed (input.take 4)) ++ input.drop 4
    rw [hencode, List.take_append_drop]
  · obtain rfl : wire = 2 := hwire
    obtain ⟨⟨count, behind⟩, hcount, hfield⟩ := Option.bind_eq_some_iff.mp h
    obtain ⟨hlt, rfl⟩ := varint_eq_some hcount
    simp only at hfield
    split at hfield <;> rename_i hshort
    · cases hfield
    obtain ⟨rfl, rfl⟩ := Prod.mk.inj (Option.some.inj hfield)
    have hlength : (behind.take count).length = count := by
      rw [List.length_take]
      omega
    refine ⟨rfl, rfl, .inr (.inr (.inr ⟨rfl, rfl, hlength.trans_lt hlt⟩)), ?_⟩
    show _ = Varint.encode (behind.take count).length ++ behind.take count ++ behind.drop count
    rw [hlength, List.append_assoc, List.take_append_drop]
  · cases h

theorem nextBody_body (h : f.Form) :
    nextBody { tag := f.tag, wire := f.wire } (f.body ++ rest) = some (f, rest) := by
  obtain ⟨tag, wire, value, bytes⟩ := f
  rcases h with ⟨rfl, hlt, rfl⟩ | ⟨rfl, hlt, rfl⟩ | ⟨rfl, hlt, rfl⟩ | ⟨rfl, rfl, hlt⟩
  · simp only [nextBody, Field.body]
    rw [varint_encode hlt]
    rfl
  · have hfixed : fixed (LittleEndian.encode 8 value) = value := LittleEndian.value_encode hlt
    have hlength := LittleEndian.length_encode 8 value
    simp only [nextBody, Field.body]
    rw [if_neg (by rw [List.length_append]; omega), List.take_left' hlength, hfixed,
      List.drop_left' hlength]
  · have hfixed : fixed (LittleEndian.encode 4 value) = value := LittleEndian.value_encode hlt
    have hlength := LittleEndian.length_encode 4 value
    simp only [nextBody, Field.body]
    rw [if_neg (by rw [List.length_append]; omega), List.take_left' hlength, hfixed,
      List.drop_left' hlength]
  · simp only at hlt
    simp only [nextBody, Field.body]
    rw [List.append_assoc, varint_encode hlt, Option.bind_some,
      if_neg (by rw [List.length_append]; omega), List.take_left, List.drop_left]

/-- What is read is a field, and its text is what was read. -/
theorem next_eq_some (h : next input = some (f, rest)) :
    f.Canonical ∧ input = f.encode ++ rest := by
  rw [next_eq] at h
  obtain ⟨⟨tag, behind⟩, htag, hbody⟩ := Option.bind_eq_some_iff.mp h
  obtain ⟨-, rfl⟩ := varint_eq_some htag
  split at hbody <;> rename_i hbad
  · cases hbody
  obtain ⟨hle, hpos⟩ := not_or.mp hbad
  have hsplit : 8 * (tag / 8) + tag % 8 = tag := Nat.div_add_mod tag 8
  obtain ⟨htag', hwire, hform, rfl⟩ := nextBody_eq_some hbody
  refine ⟨⟨by rwa [htag'], ?_, hform⟩, ?_⟩
  · rw [htag', hwire, hsplit]
    exact not_lt.mp hle
  · rw [Field.encode, htag', hwire, hsplit, List.append_assoc]

/-- A field that a message may have is read where it stands. -/
theorem next_encode (h : f.Canonical) : next (f.encode ++ rest) = some (f, rest) := by
  have hwire : f.wire < 8 := by
    rcases h.form with ⟨hwire, -⟩ | ⟨hwire, -⟩ | ⟨hwire, -⟩ | ⟨hwire, -⟩ <;> omega
  have hle := h.tag_le
  have hpos := h.tag_pos
  have hdiv : (8 * f.tag + f.wire) / 8 = f.tag := by omega
  have hmod : (8 * f.tag + f.wire) % 8 = f.wire := by omega
  rw [Field.encode, List.append_assoc, next_eq, varint_encode (by omega), Option.bind_some,
    if_neg (by simp only [hdiv]; omega)]
  simp only [hdiv, hmod]
  exact nextBody_body h.form

/-- Every field takes a byte. -/
theorem length_encode_pos (f : Field) : 0 < f.encode.length := by
  have := List.length_pos_iff.mpr (Varint.encode_ne_nil (8 * f.tag + f.wire))
  rw [Field.encode, List.length_append]
  omega

theorem length_next (h : next input = some (f, rest)) : rest.length < input.length := by
  obtain ⟨-, rfl⟩ := next_eq_some h
  have := length_encode_pos f
  rw [List.length_append]
  omega

/-! ## Readers -/

/-- `position_` and `good_`. -/
structure Reader where
  position : ℕ := 0
  good : Bool := true
  deriving DecidableEq

namespace Reader

section Members

variable (input : List UInt8) (r : Reader)

/-- `done`: the reader is at the end. -/
def done : Bool := r.position = input.length

/-- `good`: the reader is at the end, and nothing went wrong. -/
def isGood : Bool := r.good && r.done input

/-- The reader behind `fail`. -/
def fail : Reader := { position := input.length, good := false }

/-- `input_[position_++]`: the next byte. Behind the end the source would read outside its input, so there
is no result. -/
def byte : Option (UInt8 × Reader) := do
  let b ← input[r.position]?
  some (b, { r with position := r.position + 1 })

/-- `input_.subspan(position_, count)`, and the position behind it. -/
def subspan (count : ℕ) : Option (List UInt8 × Reader) :=
  if r.position + count > input.length then none
  else some ((input.drop r.position).take count, { r with position := r.position + count })

/-- The loop of `varint`, with `turns` turns left. -/
def varintLoop : ℕ → ℕ → Reader → Option (Option ℕ × Reader)
  | 0, _, _ => some (none, fail input)
  | turns + 1, value, r =>
    if r.done input then some (none, fail input)
    else do
      let i := 9 - turns
      let (b, r) ← r.byte input
      if i = 9 ∧ b > 1 then some (none, fail input)
      else
        let value := value + b.toNat % 128 * 2 ^ (7 * i)
        if b.toNat < 128 then
          if i = 0 ∨ b ≠ 0 then some (some value, r) else some (none, fail input)
        else varintLoop turns value r

/-- `varint`: a number of at most ten bytes. -/
def varint : Option (Option ℕ × Reader) := varintLoop input 10 0 r

/-- The loop of `next` over the bytes of a number of fixed width, from its byte `i` on. -/
def fixedLoop : ℕ → ℕ → ℕ → Reader → Option (ℕ × Reader)
  | 0, _, value, r => some (value, r)
  | turns + 1, i, value, r => do
    let (b, r) ← r.byte input
    fixedLoop turns (i + 1) (value + b.toNat * 2 ^ (8 * i)) r

/-- The part of `next` behind the tag. -/
def body (field : Field) : Option (Option Field × Reader) :=
  if field.wire = 0 then do
    let (value, r) ← r.varint input
    some (value.map fun value => { field with value }, r)
  else if field.wire = 1 ∨ field.wire = 5 then
    let count := if field.wire = 1 then 8 else 4
    if input.length - r.position < count then some (none, fail input)
    else do
      let (value, r) ← fixedLoop input count 0 0 r
      some (some { field with value }, r)
  else if field.wire = 2 then do
    let (count, r) ← r.varint input
    match count with
    | none => some (none, fail input)
    | some count =>
      if count > input.length - r.position then some (none, fail input)
      else do
        let (bytes, r) ← r.subspan input count
        some (some { field with bytes }, r)
  else some (none, fail input)

/-- `next`: the next field, or none at the end or after a failure. -/
def next : Option (Option Field × Reader) :=
  if r.done input then some (none, r)
  else do
    let (tag, r) ← r.varint input
    match tag with
    | none => some (none, fail input)
    | some tag =>
      if tag > 0xffffffff ∨ tag / 8 = 0 then some (none, fail input)
      else r.body input { tag := tag / 8, wire := tag % 8 }

/-- The loop over `next` until it returns false, for so many turns: the fields, and the reader it
leaves. -/
def fields : ℕ → Reader → Option (List Field × Reader)
  | 0, _ => none
  | turns + 1, r => do
    let (field, r) ← r.next input
    match field with
    | none => some ([], r)
    | some field =>
      let (fs, r) ← fields turns r
      some (field :: fs, r)

end Members

/-- The reader before `rest`, which is what is left of the input. -/
def before (input rest : List UInt8) (good : Bool) : Reader :=
  { position := input.length - rest.length, good }

/-- What a step returns, from the value that the model of lists returns. -/
def result {α : Type} (input : List UInt8) (good : Bool) :
    Option (α × List UInt8) → Option α × Reader
  | none => (none, fail input)
  | some (a, rest) => (some a, before input rest good)

variable {good : Bool}

variable (input) in
theorem before_self : before input input true = {} := by
  rw [before, Nat.sub_self]

theorem getElem_before (h : rest <:+ input) :
    input[input.length - rest.length]? = rest[0]? := by
  obtain ⟨front, rfl⟩ := h
  rw [List.length_append, Nat.add_sub_cancel, List.getElem?_append_right le_rfl, Nat.sub_self]

theorem drop_before (h : rest <:+ input) : input.drop (input.length - rest.length) = rest := by
  obtain ⟨front, rfl⟩ := h
  rw [List.length_append, Nat.add_sub_cancel, List.drop_left]

theorem done_before (h : rest <:+ input) :
    (before input rest good).done input = true ↔ rest = [] := by
  have hle := h.length_le
  rw [done, decide_eq_true_eq, before, ← List.length_eq_zero_iff]
  simp only
  omega

theorem byte_before {b : UInt8} (h : b :: rest <:+ input) :
    (before input (b :: rest) good).byte input = some (b, before input rest good) := by
  have hle := h.length_le
  have hget := getElem_before h
  have hposition : input.length - (b :: rest).length + 1 = input.length - rest.length := by
    rw [List.length_cons] at hle ⊢
    omega
  simp only [byte, before, hget, hposition]
  rfl

theorem varintLoop_before {turns : ℕ} (hturns : turns ≤ 10) (h : rest <:+ input) :
    varintLoop input turns value (before input rest good) =
      some (result input good (varintFrom (10 - turns) value rest)) := by
  induction turns generalizing value rest with
  | zero =>
    have hnone : varintFrom 10 value rest = none := by
      cases rest with
      | nil => rfl
      | cons b rest => rw [varintFrom, if_pos (.inl le_rfl)]
    rw [varintLoop, Nat.sub_zero, hnone]
    rfl
  | succ turns ih =>
    cases rest with
    | nil =>
      rw [varintLoop, if_pos ((done_before h).mpr rfl), varintFrom]
      rfl
    | cons b rest =>
      have hi : 10 - (turns + 1) = 9 - turns := by omega
      have hnext : 9 - turns + 1 = 10 - turns := by omega
      rw [varintLoop, if_neg (fun hdone => List.cons_ne_nil _ _ ((done_before h).mp hdone)),
        byte_before h, hi, varintFrom]
      simp only [Option.bind_eq_bind, Option.bind_some]
      have hrest : rest <:+ input := (List.suffix_cons b rest).trans h
      by_cases hbad : 9 - turns = 9 ∧ b > 1
      · rw [if_pos hbad, if_pos (.inr hbad)]
        rfl
      · have hin : ¬ (9 - turns ≥ 10 ∨ 9 - turns = 9 ∧ b > 1) := by
          rintro (hlarge | hlarge)
          · omega
          · exact hbad hlarge
        rw [if_neg hbad, if_neg hin]
        by_cases hlast : b.toNat < 128
        · rw [if_pos hlast, if_pos hlast]
          split
          · rfl
          · rfl
        · rw [if_neg hlast, if_neg hlast, hnext]
          exact ih (by omega) hrest

theorem varint_before (h : rest <:+ input) :
    (before input rest good).varint input = some (result input good (WireReader.varint rest)) :=
  varintLoop_before le_rfl h

theorem fixedLoop_before {i : ℕ} {bytes : List UInt8} (h : bytes ++ rest <:+ input) :
    fixedLoop input bytes.length i value (before input (bytes ++ rest) good) =
      some (value + fixed bytes * 2 ^ (8 * i), before input rest good) := by
  induction bytes generalizing i value with
  | nil =>
    rw [List.length_nil, fixedLoop, show fixed [] = 0 from rfl, Nat.zero_mul]
    rfl
  | cons b bytes ih =>
    have h : b :: (bytes ++ rest) <:+ input := h
    have hrest : bytes ++ rest <:+ input := (List.suffix_cons b (bytes ++ rest)).trans h
    have hfixed : fixed (b :: bytes) = b.toNat + 256 * fixed bytes := rfl
    rw [List.length_cons, fixedLoop, List.cons_append, byte_before h]
    simp only [Option.bind_eq_bind, Option.bind_some]
    rw [ih hrest, hfixed, Nat.mul_succ, Nat.pow_add]
    congr 2
    ring

theorem subspan_before {count : ℕ} (h : rest <:+ input) (hcount : count ≤ rest.length) :
    (before input rest good).subspan input count =
      some (rest.take count, before input (rest.drop count) good) := by
  have hle := h.length_le
  rw [subspan, if_neg (by simp only [before]; omega)]
  simp only [before, drop_before h, List.length_drop]
  congr 3
  omega

theorem fixed_before {k : ℕ} (h : rest <:+ input) (hk : ¬ rest.length < k) :
    fixedLoop input k 0 0 (before input rest good) =
      some (fixed (rest.take k), before input (rest.drop k) good) := by
  have hlength : (rest.take k).length = k := by
    rw [List.length_take]
    omega
  have hread : fixedLoop input (rest.take k).length 0 0
      (before input (rest.take k ++ rest.drop k) good) = _ :=
    fixedLoop_before (by rwa [List.take_append_drop])
  rw [hlength, List.take_append_drop] at hread
  rw [hread]
  simp

theorem left_before (h : rest <:+ input) :
    input.length - (before input rest good).position = rest.length := by
  have hle := h.length_le
  simp only [before]
  omega

theorem body_before (h : rest <:+ input) (field : Field) :
    (before input rest good).body input field =
      some (result input good (nextBody field rest)) := by
  rw [body, left_before h, varint_before h]
  simp only [Option.bind_eq_bind, Option.bind_some]
  -- One case for each wire type, as in the source; the reader stands at the rest of the input in all of
  -- them.
  by_cases hvarint : field.wire = 0
  · rw [if_pos hvarint]
    simp only [nextBody, hvarint]
    cases WireReader.varint rest with
    | none => rfl
    | some p => rfl
  rw [if_neg hvarint]
  by_cases hfixed : field.wire = 1 ∨ field.wire = 5
  · rw [if_pos hfixed]
    rcases hfixed with hwire | hwire
    · simp only [nextBody, hwire]
      by_cases hshort : rest.length < 8
      · simp [hshort, result]
      · simp [hshort, result, fixed_before h hshort]
    · simp only [nextBody, hwire]
      by_cases hshort : rest.length < 4
      · simp [hshort, result]
      · simp [hshort, result, fixed_before h hshort]
  rw [if_neg hfixed]
  by_cases hbytes : field.wire = 2
  · rw [if_pos hbytes]
    simp only [nextBody, hbytes]
    cases hcount : WireReader.varint rest with
    | none => rfl
    | some p =>
      obtain ⟨count, behind⟩ := p
      obtain ⟨-, rfl⟩ := varint_eq_some hcount
      have hbehind : behind <:+ input := (List.suffix_append _ behind).trans h
      simp only [result, Option.bind_some, left_before hbehind]
      by_cases hshort : count > behind.length
      · rw [if_pos hshort, if_pos hshort]
      · rw [if_neg hshort, if_neg hshort, subspan_before hbehind (not_lt.mp hshort)]
        rfl
  rw [if_neg hbytes]
  obtain ⟨tag, wire, value, bytes⟩ := field
  simp only at hvarint hfixed hbytes
  have hnone : nextBody { tag, wire, value, bytes } rest = none := by
    unfold nextBody
    split
    · exact absurd ‹_› hvarint
    · exact absurd (.inl ‹_›) hfixed
    · exact absurd (.inr ‹_›) hfixed
    · exact absurd ‹_› hbytes
    · rfl
  rw [hnone]
  rfl

/-- **A reader before some text returns what is read of the text,** and stands behind it. -/
theorem next_before (h : rest <:+ input) (hne : rest ≠ []) :
    (before input rest good).next input = some (result input good (WireReader.next rest)) := by
  rw [next, if_neg fun hdone => hne ((done_before h).mp hdone), varint_before h, next_eq]
  simp only [Option.bind_eq_bind, Option.bind_some]
  cases htag : WireReader.varint rest with
  | none => rfl
  | some p =>
    obtain ⟨tag, behind⟩ := p
    obtain ⟨-, rfl⟩ := varint_eq_some htag
    have hbehind : behind <:+ input := (List.suffix_append _ behind).trans h
    simp only [result, Option.bind_some]
    by_cases hbad : tag > 0xffffffff ∨ tag / 8 = 0
    · rw [if_pos hbad, if_pos hbad]
    · rw [if_neg hbad, if_neg hbad]
      exact body_before hbehind _

theorem next_done (h : rest <:+ input) (hnil : rest = []) :
    (before input rest good).next input = some (none, before input rest good) := by
  rw [next, if_pos ((done_before h).mpr hnil)]

/-- More turns return the same. -/
theorem fields_mono {turns more : ℕ} {r : Reader} {x : List Field × Reader} (hle : turns ≤ more)
    (h : fields input turns r = some x) : fields input more r = some x := by
  induction turns generalizing more r x with
  | zero => cases h
  | succ turns ih =>
    obtain ⟨more, rfl⟩ := Nat.exists_eq_add_of_le' (Nat.one_le_of_lt hle)
    rw [fields] at h ⊢
    obtain ⟨⟨field, r'⟩, hnext, hrest⟩ := Option.bind_eq_some_iff.mp h
    refine Option.bind_eq_some_iff.mpr ⟨(field, r'), hnext, ?_⟩
    cases field with
    | none => exact hrest
    | some field =>
      obtain ⟨⟨fs, r''⟩, hfields, hcons⟩ := Option.bind_eq_some_iff.mp hrest
      exact Option.bind_eq_some_iff.mpr ⟨(fs, r''), ih (by omega) hfields, hcons⟩

theorem message_nil {gs : List Field} : Message gs [] ↔ gs = [] := by
  constructor
  · rintro ⟨-, htext⟩
    cases gs with
    | nil => rfl
    | cons g gs =>
      have := length_encode_pos g
      rw [List.flatMap_cons] at htext
      have hlength := congrArg List.length htext
      rw [List.length_append, List.length_nil] at hlength
      omega
  · rintro rfl
    exact ⟨fun f hf => absurd hf List.not_mem_nil, rfl⟩

/-- The first field of a message is what is read first. -/
theorem message_next {gs : List Field} (h : Message gs rest) (hne : rest ≠ []) :
    ∃ g gs' behind, gs = g :: gs' ∧ WireReader.next rest = some (g, behind) ∧ Message gs' behind := by
  obtain ⟨hcanonical, rfl⟩ := h
  cases gs with
  | nil => exact absurd rfl hne
  | cons g gs =>
    obtain ⟨hg, hgs⟩ := List.forall_mem_cons.mp hcanonical
    exact ⟨g, gs, gs.flatMap Field.encode, rfl, next_encode hg, hgs, rfl⟩

theorem message_cons {fs : List Field} (hnext : WireReader.next input = some (f, rest))
    (h : Message fs rest) : Message (f :: fs) input := by
  obtain ⟨hf, rfl⟩ := next_eq_some hnext
  obtain ⟨hfs, rfl⟩ := h
  exact ⟨List.forall_mem_cons.mpr ⟨hf, hfs⟩, rfl⟩

theorem fields_before {turns : ℕ} (h : rest <:+ input) (hturns : rest.length < turns) :
    ∃ fs r, fields input turns (before input rest true) = some (fs, r) ∧
      (r.isGood input = true → Message fs rest) ∧
      ∀ gs, Message gs rest → fs = gs ∧ r.isGood input = true := by
  induction turns generalizing rest with
  | zero => omega
  | succ turns ih =>
    rw [fields]
    by_cases hnil : rest = []
    · have hgood : (before input rest true).isGood input = true := by
        rw [isGood, (done_before h).mpr hnil]
        rfl
      rw [next_done h hnil]
      subst hnil
      refine ⟨[], _, rfl, fun _ => message_nil.mpr rfl, fun gs hgs => ?_⟩
      exact ⟨(message_nil.mp hgs).symm, hgood⟩
    rw [next_before h hnil]
    cases hnext : WireReader.next rest with
    | none =>
      refine ⟨[], fail input, rfl, fun hgood => ?_, fun gs hgs => ?_⟩
      · simp [isGood, fail] at hgood
      · obtain ⟨g, gs', behind, -, hread, -⟩ := message_next hgs hnil
        cases hnext.symm.trans hread
    | some p =>
      obtain ⟨f, behind⟩ := p
      have hlength := length_next hnext
      have hbehind : behind <:+ input := by
        obtain ⟨-, rfl⟩ := next_eq_some hnext
        exact (List.suffix_append _ behind).trans h
      obtain ⟨fs, r, hfields, hsound, hcomplete⟩ := ih hbehind (by omega)
      refine ⟨f :: fs, r, ?_, fun hgood => message_cons hnext (hsound hgood), fun gs hgs => ?_⟩
      · simp only [result, Option.bind_eq_bind, Option.bind_some]
        rw [hfields]
        rfl
      · obtain ⟨g, gs', behind', rfl, hread, hgs'⟩ := message_next hgs hnil
        obtain ⟨rfl, rfl⟩ := Prod.mk.inj (Option.some.inj (hnext.symm.trans hread))
        obtain ⟨rfl, hgood⟩ := hcomplete gs' hgs'
        exact ⟨rfl, hgood⟩

end Reader

end WireReader

end Protocol

end OVMesh
