import OVMesh.Protocol.Wire

/-!
# The wire guard

`scalar_fits` and `validate_wire` of `protobuf_guard.hpp`. The generated descriptors are a parameter,
where the lookup of a tag finds its declared field.

* `scalarFits_iff`: the values that fit a field.
* `validateWire`: the guard, a level of nesting after the other.
* `WireMessage`: what the guard promises about a message and all that is nested in it.
* `wire_guard`: the reader returns the fields of a message, and the guard keeps its promise.
-/

namespace OVMesh

namespace Protocol

open WireReader

/-- `PB_LTYPE`: how the data of a field are laid out. -/
inductive LType
  | bool | varint | uvarint | svarint | fixed32 | fixed64 | bytes | string | submessage
  | submsgWithCb | extension | fixedLengthBytes
  deriving DecidableEq

/-- `PB_HTYPE`: how often a field may occur. -/
inductive HType
  | required | optional | repeated | oneof
  deriving DecidableEq

/-- The members of `pb_field_iter_t` that are read. -/
structure FieldIter (D : Type) where
  ltype : LType
  htype : HType
  dataSize : ℕ
  submsgDesc : Option D

/-- What is read of the generated descriptors: `pb_field_iter_begin` and `pb_field_iter_find`. -/
structure Descriptors (D : Type) where
  iterBegin : D → Bool
  iterFind : D → ℕ → Option (FieldIter D)

variable {D : Type}

/-- The declared field of a tag. -/
def Descriptors.known (descriptors : Descriptors D) (schema : D) (tag : ℕ) :
    Option (FieldIter D) :=
  if descriptors.iterBegin schema then descriptors.iterFind schema tag else none

/-! ## Scalars -/

/-- `scalar_fits`: the number fits the field of the decoded structure. -/
def scalarFits (field : FieldIter D) (value : ℕ) : Bool :=
  if field.ltype = .bool then value ≤ 1
  else if field.dataSize = 0 ∨ field.dataSize > 8 then false
  else if field.dataSize = 8 then true
  else
    let bits := field.dataSize * 8
    if field.ltype = .varint then
      let positive := 2 ^ (bits - 1) - 1
      value ≤ positive || value ≥ 2 ^ 64 - 1 - positive
    else value ≤ 2 ^ bits - 1

/-- The `int64_t` of some bits. -/
def int64 (value : ℕ) : ℤ := if value < 2 ^ 63 then value else value - 2 ^ 64

/-- The number of some bits of a `sint` field. -/
def zigzag (value : ℕ) : ℤ := if value % 2 = 0 then value / 2 else -(value / 2) - 1

/-- The number that the bits stand for is one of the type of the field. -/
def FieldIter.Fits (field : FieldIter D) (value : ℕ) : Prop :=
  if field.ltype = .bool then value = 0 ∨ value = 1
  else (1 ≤ field.dataSize ∧ field.dataSize ≤ 8) ∧
    if field.ltype = .varint then
      -2 ^ (8 * field.dataSize - 1) ≤ int64 value ∧ int64 value < 2 ^ (8 * field.dataSize - 1)
    else if field.ltype = .svarint then
      -2 ^ (8 * field.dataSize - 1) ≤ zigzag value ∧ zigzag value < 2 ^ (8 * field.dataSize - 1)
    else value < 2 ^ (8 * field.dataSize)

/-- Half of the values of `size` bytes, and all of them where these are eight. -/
theorem half_values {size : ℕ} (hone : 1 ≤ size) (hle : size ≤ 8) :
    2 ^ (8 * size) = 2 * 2 ^ (8 * size - 1) ∧ 2 ^ (8 * size - 1) ≤ 2 ^ 63 ∧
      (size = 8 → 2 ^ (8 * size - 1) = 2 ^ 63) := by
  refine ⟨?_, Nat.pow_le_pow_right (by decide) (by omega), fun heq => by rw [heq]⟩
  rw [← Nat.pow_succ']
  congr 1
  omega

theorem scalarFits_sized {field : FieldIter D} {value : ℕ} (hkind : field.ltype ≠ .bool) :
    scalarFits field value = true ↔ (1 ≤ field.dataSize ∧ field.dataSize ≤ 8) ∧
      (field.dataSize = 8 ∨
        if field.ltype = .varint then
          value ≤ 2 ^ (8 * field.dataSize - 1) - 1 ∨
            value ≥ 2 ^ 64 - 1 - (2 ^ (8 * field.dataSize - 1) - 1)
        else value ≤ 2 ^ (8 * field.dataSize) - 1) := by
  rw [scalarFits, if_neg hkind, Nat.mul_comm field.dataSize 8]
  by_cases hbad : field.dataSize = 0 ∨ field.dataSize > 8
  · rw [if_pos hbad]
    refine iff_of_false Bool.false_ne_true ?_
    rintro ⟨hsize, -⟩
    omega
  rw [if_neg hbad]
  have hsize : 1 ≤ field.dataSize ∧ field.dataSize ≤ 8 := by omega
  by_cases height : field.dataSize = 8
  · rw [if_pos height]
    exact iff_of_true rfl ⟨hsize, .inl height⟩
  rw [if_neg height, and_iff_right hsize, or_iff_right height]
  split <;> simp only [Bool.or_eq_true, decide_eq_true_eq]

/-- **The values that fit a field** are those of its type. -/
theorem scalarFits_iff {field : FieldIter D} {value : ℕ} (hvalue : value < 2 ^ 64) :
    scalarFits field value = true ↔ field.Fits value := by
  by_cases hbool : field.ltype = .bool
  · rw [scalarFits, if_pos hbool, FieldIter.Fits, if_pos hbool, decide_eq_true_eq]
    omega
  rw [scalarFits_sized hbool, FieldIter.Fits, if_neg hbool]
  refine and_congr_right fun hsize => ?_
  obtain ⟨hall, hle, height⟩ := half_values hsize.1 hsize.2
  have hpos : 0 < 2 ^ (8 * field.dataSize - 1) := Nat.two_pow_pos _
  have hcast : (2 : ℤ) ^ (8 * field.dataSize - 1) = ((2 ^ (8 * field.dataSize - 1) : ℕ) : ℤ) := by
    push_cast
    rfl
  have hfull : field.dataSize = 8 ∨ 2 ^ (8 * field.dataSize - 1) < 2 ^ 63 := by
    by_cases heq : field.dataSize = 8
    · exact .inl heq
    · exact .inr (Nat.pow_lt_pow_right (by decide) (by omega))
  rw [hcast, hall]
  generalize 2 ^ (8 * field.dataSize - 1) = half at *
  by_cases hvarint : field.ltype = .varint
  · rw [if_pos hvarint, if_pos hvarint, int64]
    split <;> omega
  rw [if_neg hvarint, if_neg hvarint]
  by_cases hsvarint : field.ltype = .svarint
  · rw [if_pos hsvarint, zigzag]
    split <;> omega
  · rw [if_neg hsvarint]
    omega

/-! ## Messages -/

/-- `kind` takes a number of variable width. -/
def LType.Integer (kind : LType) : Prop :=
  kind = .bool ∨ kind = .varint ∨ kind = .uvarint ∨ kind = .svarint

instance (kind : LType) : Decidable kind.Integer := inferInstanceAs (Decidable (_ ∨ _))

/-- The loop over packed numbers, for so many turns. -/
def packedFits (input : List UInt8) (field : FieldIter D) : ℕ → Reader → Option Bool
  | 0, _ => none
  | turns + 1, packed =>
    if packed.done input then some (packed.isGood input)
    else do
      let (value, packed) ← packed.varint input
      match value with
      | none => some false
      | some value =>
        if scalarFits field value then packedFits input field turns packed else some false

/-- The switch over the kind of a field. -/
def checkKind (nested : List UInt8 → D → Option Bool) (field : FieldIter D) (wire : Field) :
    Option Bool :=
  let repeated := field.htype = .repeated
  match field.ltype with
  | .bool | .varint | .uvarint | .svarint =>
    if wire.wire = 0 then some (scalarFits field wire.value)
    else if wire.wire = 2 ∧ repeated then packedFits wire.bytes field (wire.bytes.length + 1) {}
    else some false
  | .fixed32 =>
    some (wire.wire = 5 ∨ repeated ∧ wire.wire = 2 ∧ wire.bytes.length % 4 = 0)
  | .fixed64 =>
    some (wire.wire = 1 ∨ repeated ∧ wire.wire = 2 ∧ wire.bytes.length % 8 = 0)
  | .string => some (wire.wire = 2 ∧ 0 ∉ wire.bytes)
  | .bytes | .fixedLengthBytes => some (wire.wire = 2)
  | .submessage | .submsgWithCb =>
    if wire.wire ≠ 2 then some false
    else match field.submsgDesc with
      | none => some true
      | some schema => nested wire.bytes schema
  | .extension => some false

/-- `singular` and `oneof_seen`. -/
structure Seen where
  singular : List ℕ := []
  oneof : Bool := false

/-- What is kept of a field that is no repetition. -/
def Seen.note (seen : Seen) (field : FieldIter D) (tag : ℕ) : Option Seen :=
  if field.htype ≠ .repeated ∧ (tag ∈ seen.singular ∨ seen.singular.length = 128) then none
  else
    let singular := if field.htype ≠ .repeated then seen.singular ++ [tag] else seen.singular
    if field.htype = .oneof then
      if seen.oneof then none else some { singular, oneof := true }
    else some { seen with singular }

/-- The loop of `validate_wire`, for so many turns. -/
def validateFields (descriptors : Descriptors D) (nested : List UInt8 → D → Option Bool)
    (schema : D) (input : List UInt8) : ℕ → Reader → Seen → Option Bool
  | 0, _, _ => none
  | turns + 1, reader, seen => do
    let (wire, reader) ← reader.next input
    match wire with
    | none => some (reader.isGood input)
    | some wire =>
      match descriptors.known schema wire.tag with
      | none => validateFields descriptors nested schema input turns reader seen
      | some field =>
        match seen.note field wire.tag with
        | none => some false
        | some seen =>
          if ← checkKind nested field wire then
            validateFields descriptors nested schema input turns reader seen
          else some false

/-- `validate_wire` at the depth that leaves so many levels. -/
def validateLevels (descriptors : Descriptors D) : ℕ → List UInt8 → Option D → Option Bool
  | 0, _, _ => some false
  | levels + 1, bytes, schema =>
    match schema with
    | none => some false
    | some schema =>
      if bytes.length > 239 then some false
      else validateFields descriptors
        (fun bytes schema => validateLevels descriptors levels bytes (some schema)) schema bytes
        (bytes.length + 1) {} {}

/-- `validate_wire`: the message and those inside it are well formed, up to the deepest level. -/
def validateWire (descriptors : Descriptors D) (bytes : List UInt8) (schema : Option D) :
    Option Bool :=
  validateLevels descriptors 9 bytes schema

/-- The field has a wire type that is declared for it, and its values fit. -/
def FieldIter.Admits (nested : List UInt8 → D → Prop) (field : FieldIter D) (wire : Field) : Prop :=
  if field.ltype.Integer then
    wire.wire = 0 ∧ field.Fits wire.value ∨
      field.htype = .repeated ∧ wire.wire = 2 ∧ ∃ values : List ℕ,
        (∀ value ∈ values, value < 2 ^ 64 ∧ field.Fits value) ∧
        wire.bytes = values.flatMap Varint.encode
  else if field.ltype = .fixed32 then
    wire.wire = 5 ∨ field.htype = .repeated ∧ wire.wire = 2 ∧ 4 ∣ wire.bytes.length
  else if field.ltype = .fixed64 then
    wire.wire = 1 ∨ field.htype = .repeated ∧ wire.wire = 2 ∧ 8 ∣ wire.bytes.length
  else if field.ltype = .submessage ∨ field.ltype = .submsgWithCb then
    wire.wire = 2 ∧ ∀ schema ∈ field.submsgDesc, nested wire.bytes schema
  else wire.wire = 2

/-- A message of a schema with at most so many levels of nesting: its text is that of some fields,
every known one is as it was declared, a known singular one occurs once, and one member of the oneof
is present, at every level. -/
def WireMessage (descriptors : Descriptors D) : ℕ → List UInt8 → D → Prop
  | 0, _, _ => False
  | levels + 1, bytes, schema => ∃ fs, Message fs bytes ∧
    (∀ f ∈ fs, ∀ field ∈ descriptors.known schema f.tag,
      field.Admits (WireMessage descriptors levels) f) ∧
    (∀ tag, ∀ field ∈ descriptors.known schema tag, field.htype ≠ .repeated →
      (fs.map Field.tag).count tag ≤ 1) ∧
    (fs.filter fun f =>
      (descriptors.known schema f.tag).any fun field => field.htype = .oneof).length ≤ 1

/-! ## The guard -/

open Reader

theorem packedFits_before (field : FieldIter D) {input rest : List UInt8} {turns : ℕ}
    (h : rest <:+ input) (hturns : rest.length < turns) :
    ∃ accepted, packedFits input field turns (before input rest true) = some accepted ∧
      (accepted = true → ∃ values : List ℕ,
        (∀ value ∈ values, value < 2 ^ 64 ∧ field.Fits value) ∧
        rest = values.flatMap Varint.encode) := by
  induction turns generalizing rest with
  | zero => omega
  | succ turns ih =>
    rw [packedFits]
    by_cases hnil : rest = []
    · rw [if_pos ((done_before h).mpr hnil)]
      exact ⟨_, rfl, fun _ => ⟨[], fun value hvalue => absurd hvalue List.not_mem_nil, hnil⟩⟩
    rw [if_neg fun hdone => hnil ((done_before h).mp hdone), varint_before h]
    simp only [Option.bind_eq_bind, Option.bind_some]
    cases hread : WireReader.varint rest with
    | none => exact ⟨false, rfl, fun hfalse => absurd hfalse Bool.false_ne_true⟩
    | some p =>
      obtain ⟨value, behind⟩ := p
      obtain ⟨hlt, rfl⟩ := varint_eq_some hread
      have hbehind : behind <:+ input := (List.suffix_append _ behind).trans h
      have hlength := List.length_pos_iff.mpr (Varint.encode_ne_nil value)
      rw [List.length_append] at hturns
      simp only [result]
      by_cases hfits : scalarFits field value = true
      · rw [if_pos hfits]
        obtain ⟨accepted, haccepted, hvalues⟩ := ih hbehind (by omega)
        refine ⟨accepted, haccepted, fun htrue => ?_⟩
        obtain ⟨values, hall, rfl⟩ := hvalues htrue
        exact ⟨value :: values,
          List.forall_mem_cons.mpr ⟨⟨hlt, (scalarFits_iff hlt).mp hfits⟩, hall⟩, rfl⟩
      · rw [if_neg hfits]
        exact ⟨false, rfl, fun hfalse => absurd hfalse Bool.false_ne_true⟩

section Fields

variable {nested : List UInt8 → D → Option Bool} {Nested : List UInt8 → D → Prop}

/-- The values of a canonical field are below `2 ^ 64`. -/
theorem value_lt {f : Field} (h : f.Canonical) : f.value < 2 ^ 64 := by
  rcases h.form with ⟨-, hlt, -⟩ | ⟨-, hlt, -⟩ | ⟨-, hlt, -⟩ | ⟨-, hzero, -⟩ <;> omega

/-- What the switch accepts. -/
theorem checkKind_admits (hnested : ∀ bytes schema, ∃ accepted,
      nested bytes schema = some accepted ∧ (accepted = true → Nested bytes schema))
    (field : FieldIter D) {wire : Field} (hwire : wire.Canonical) :
    ∃ accepted, checkKind nested field wire = some accepted ∧
      (accepted = true → field.Admits Nested wire) := by
  obtain ⟨kind, htype, size, submsg⟩ := field
  -- An integer comes alone, or packed with others in the bytes of a repeated field.
  have hinteger : kind.Integer → ∃ accepted,
      (if wire.wire = 0 then some (scalarFits ⟨kind, htype, size, submsg⟩ wire.value)
        else if wire.wire = 2 ∧ htype = .repeated then
          packedFits wire.bytes ⟨kind, htype, size, submsg⟩ (wire.bytes.length + 1) {}
        else some false) = some accepted ∧
      (accepted = true → FieldIter.Admits Nested ⟨kind, htype, size, submsg⟩ wire) := by
    intro hkind
    rw [FieldIter.Admits, if_pos hkind]
    by_cases hvarint : wire.wire = 0
    · rw [if_pos hvarint]
      exact ⟨_, rfl, fun htrue => .inl ⟨hvarint, (scalarFits_iff (value_lt hwire)).mp htrue⟩⟩
    rw [if_neg hvarint]
    by_cases hpacked : wire.wire = 2 ∧ htype = .repeated
    · rw [if_pos hpacked, ← before_self wire.bytes]
      obtain ⟨accepted, haccepted, hvalues⟩ := packedFits_before
        ⟨kind, htype, size, submsg⟩ (List.suffix_refl wire.bytes) (Nat.lt_succ_self _)
      exact ⟨accepted, haccepted, fun htrue => .inr ⟨hpacked.2, hpacked.1, hvalues htrue⟩⟩
    · rw [if_neg hpacked]
      exact ⟨false, rfl, fun hfalse => absurd hfalse Bool.false_ne_true⟩
  -- A message without a descriptor is not looked into.
  have hsubmessage : kind = .submessage ∨ kind = .submsgWithCb → ∃ accepted,
      (if wire.wire ≠ 2 then some false
        else match submsg with
          | none => some true
          | some schema => nested wire.bytes schema) = some accepted ∧
      (accepted = true → wire.wire = 2 ∧ ∀ schema ∈ submsg, Nested wire.bytes schema) := by
    intro hkind
    by_cases hbytes : wire.wire = 2
    · rw [if_neg (not_not.mpr hbytes)]
      cases submsg with
      | none => exact ⟨true, rfl, fun _ => ⟨hbytes, fun schema hschema => by cases hschema⟩⟩
      | some schema =>
        obtain ⟨accepted, haccepted, hschema⟩ := hnested wire.bytes schema
        refine ⟨accepted, haccepted, fun htrue => ⟨hbytes, fun schema' hschema' => ?_⟩⟩
        obtain rfl := Option.mem_some.mp hschema'
        exact hschema htrue
    · rw [if_pos hbytes]
      exact ⟨false, rfl, fun hfalse => absurd hfalse Bool.false_ne_true⟩
  cases kind with
  | bool => exact hinteger (.inl rfl)
  | varint => exact hinteger (.inr (.inl rfl))
  | uvarint => exact hinteger (.inr (.inr (.inl rfl)))
  | svarint => exact hinteger (.inr (.inr (.inr rfl)))
  | submessage => exact hsubmessage (.inl rfl)
  | submsgWithCb => exact hsubmessage (.inr rfl)
  | extension => exact ⟨false, rfl, fun hfalse => absurd hfalse Bool.false_ne_true⟩
  | fixed32 =>
    refine ⟨_, rfl, fun htrue => ?_⟩
    exact (of_decide_eq_true htrue).imp_right fun h => ⟨h.1, h.2.1, Nat.dvd_of_mod_eq_zero h.2.2⟩
  | fixed64 =>
    refine ⟨_, rfl, fun htrue => ?_⟩
    exact (of_decide_eq_true htrue).imp_right fun h => ⟨h.1, h.2.1, Nat.dvd_of_mod_eq_zero h.2.2⟩
  | string =>
    refine ⟨_, rfl, fun htrue => ?_⟩
    exact (of_decide_eq_true htrue).1
  | bytes =>
    refine ⟨_, rfl, fun htrue => ?_⟩
    have hbytes : wire.wire = 2 := of_decide_eq_true htrue
    exact hbytes
  | fixedLengthBytes =>
    refine ⟨_, rfl, fun htrue => ?_⟩
    have hbytes : wire.wire = 2 := of_decide_eq_true htrue
    exact hbytes

/-- What is kept of a field that passes. -/
theorem note_eq_some {seen seen' : Seen} {field : FieldIter D} {tag : ℕ}
    (h : seen.note field tag = some seen') :
    (if field.htype ≠ .repeated then
      tag ∉ seen.singular ∧ seen'.singular = seen.singular ++ [tag]
    else seen'.singular = seen.singular) ∧
    if field.htype = .oneof then seen.oneof = false ∧ seen'.oneof = true
    else seen'.oneof = seen.oneof := by
  unfold Seen.note at h
  split at h <;> rename_i hbad
  · cases h
  have htag : field.htype ≠ .repeated → tag ∉ seen.singular := fun hsingular hmem =>
    hbad ⟨hsingular, .inl hmem⟩
  by_cases honeof : field.htype = .oneof
  · have hsingular : field.htype ≠ .repeated := by
      rw [honeof]
      decide
    rw [if_pos honeof] at h ⊢
    rw [if_pos hsingular] at h ⊢
    split at h <;> rename_i hmember
    · cases h
    obtain rfl := Option.some.inj h
    exact ⟨⟨htag hsingular, rfl⟩, Bool.eq_false_iff.mpr hmember, rfl⟩
  · rw [if_neg honeof] at h ⊢
    obtain rfl := Option.some.inj h
    by_cases hsingular : field.htype ≠ .repeated
    · rw [if_pos hsingular]
      exact ⟨⟨htag hsingular, if_pos hsingular⟩, rfl⟩
    · rw [if_neg hsingular]
      exact ⟨if_neg hsingular, rfl⟩

variable (descriptors : Descriptors D) (schema : D)

/-- The tags of the known singular fields. -/
def singularTags (fs : List Field) : List ℕ :=
  (fs.map Field.tag).filter fun tag =>
    (descriptors.known schema tag).any fun field => field.htype ≠ .repeated

/-- The members of the oneof. -/
def oneofMembers (fs : List Field) : List Field :=
  fs.filter fun f => (descriptors.known schema f.tag).any fun field => field.htype = .oneof

variable {descriptors schema}

/-- What is kept of a field stands for the field in what comes after it. -/
theorem note_fields {seen seen' : Seen} {field : FieldIter D} {f : Field} (fs : List Field)
    (hnote : seen.note field f.tag = some seen')
    (hknown : descriptors.known schema f.tag = some field) :
    (seen.singular.Nodup → seen'.singular.Nodup) ∧
    ((seen'.singular ++ singularTags descriptors schema fs).Nodup →
      (seen.singular ++ singularTags descriptors schema (f :: fs)).Nodup) ∧
    ((oneofMembers descriptors schema fs).length ≤ (if seen'.oneof then 0 else 1) →
      (oneofMembers descriptors schema (f :: fs)).length ≤ if seen.oneof then 0 else 1) := by
  obtain ⟨hsingular, honeof⟩ := note_eq_some hnote
  have hmembers : (oneofMembers descriptors schema fs).length ≤ (if seen'.oneof then 0 else 1) →
      (oneofMembers descriptors schema (f :: fs)).length ≤ if seen.oneof then 0 else 1 := by
    intro hle
    by_cases hmember : field.htype = .oneof
    · rw [if_pos hmember] at honeof
      rw [honeof.2, if_pos rfl] at hle
      rw [honeof.1, oneofMembers, List.filter_cons_of_pos (by simp [hknown, hmember])]
      exact Nat.succ_le_succ hle
    · rw [if_neg hmember] at honeof
      rw [honeof] at hle
      rwa [oneofMembers, List.filter_cons_of_neg (by simp [hknown, hmember])]
  by_cases hrepeated : field.htype = .repeated
  · rw [if_neg (not_not.mpr hrepeated)] at hsingular
    have htags : singularTags descriptors schema (f :: fs) = singularTags descriptors schema fs := by
      rw [singularTags, List.map_cons, List.filter_cons_of_neg (by simp [hknown, hrepeated])]
      rfl
    rw [hsingular, htags]
    exact ⟨id, id, hmembers⟩
  · rw [if_pos hrepeated] at hsingular
    have htags : singularTags descriptors schema (f :: fs) =
        f.tag :: singularTags descriptors schema fs := by
      rw [singularTags, List.map_cons, List.filter_cons_of_pos (by simp [hknown, hrepeated])]
      rfl
    rw [hsingular.2, htags, List.append_assoc]
    refine ⟨fun hnodup => ?_, id, hmembers⟩
    rw [List.nodup_append_comm]
    exact List.nodup_cons.mpr ⟨hsingular.1, hnodup⟩

variable (descriptors schema) in
theorem validateFields_before (hnested : ∀ bytes schema, ∃ accepted,
      nested bytes schema = some accepted ∧ (accepted = true → Nested bytes schema))
    {input rest : List UInt8} {turns : ℕ} (h : rest <:+ input) (hturns : rest.length < turns)
    {seen : Seen} (hseen : seen.singular.Nodup) :
    ∃ accepted, validateFields descriptors nested schema input turns (before input rest true) seen =
        some accepted ∧
      (accepted = true → ∃ fs, Message fs rest ∧
        (∀ f ∈ fs, ∀ field ∈ descriptors.known schema f.tag, field.Admits Nested f) ∧
        (seen.singular ++ singularTags descriptors schema fs).Nodup ∧
        (oneofMembers descriptors schema fs).length ≤ if seen.oneof then 0 else 1) := by
  induction turns generalizing rest seen with
  | zero => omega
  | succ turns ih =>
    rw [validateFields]
    by_cases hnil : rest = []
    · rw [next_done h hnil]
      refine ⟨_, rfl, fun _ => ⟨[], message_nil.mpr rfl |> fun hmessage => hnil ▸ hmessage, ?_, ?_, ?_⟩⟩
      · exact fun f hf => absurd hf List.not_mem_nil
      · simpa [singularTags] using hseen
      · exact Nat.zero_le _
    rw [next_before h hnil]
    cases hnext : WireReader.next rest with
    | none =>
      refine ⟨_, rfl, fun hgood => ?_⟩
      simp [isGood, fail] at hgood
    | some p =>
      obtain ⟨f, behind⟩ := p
      have hlength := length_next hnext
      obtain ⟨hcanonical, htext⟩ := next_eq_some hnext
      have hbehind : behind <:+ input := by
        rw [htext] at h
        exact (List.suffix_append _ behind).trans h
      simp only [result, Option.bind_eq_bind, Option.bind_some]
      -- A field that the schema does not know is passed over.
      cases hknown : descriptors.known schema f.tag with
      | none =>
        obtain ⟨accepted, haccepted, hfields⟩ := ih hbehind (by omega) hseen
        refine ⟨accepted, haccepted, fun htrue => ?_⟩
        obtain ⟨fs, hmessage, hadmits, hnodup, honeof⟩ := hfields htrue
        refine ⟨f :: fs, message_cons hnext hmessage, ?_, ?_, ?_⟩
        · refine List.forall_mem_cons.mpr ⟨fun field hfield => ?_, hadmits⟩
          rw [hknown] at hfield
          cases hfield
        · simpa [singularTags, hknown] using hnodup
        · simpa [oneofMembers, hknown] using honeof
      | some field =>
        simp only
        -- A second singular field, or a second member of a choice, ends the loop.
        cases hnote : seen.note field f.tag with
        | none => exact ⟨false, rfl, fun hfalse => absurd hfalse Bool.false_ne_true⟩
        | some seen' =>
          obtain ⟨admitted, hkind, hadmitted⟩ := checkKind_admits hnested field hcanonical
          simp only [hkind, Option.bind_some]
          cases admitted with
          | false => exact ⟨false, rfl, fun hfalse => absurd hfalse Bool.false_ne_true⟩
          | true =>
            have hseen' := (note_fields [] hnote hknown).1 hseen
            obtain ⟨accepted, haccepted, hfields⟩ := ih hbehind (by omega) hseen'
            refine ⟨accepted, haccepted, fun htrue => ?_⟩
            obtain ⟨fs, hmessage, hadmits, hnodup, honeof⟩ := hfields htrue
            obtain ⟨-, htags, hmembers⟩ := note_fields fs hnote hknown
            refine ⟨f :: fs, message_cons hnext hmessage, ?_, htags hnodup, hmembers honeof⟩
            refine List.forall_mem_cons.mpr ⟨fun field' hfield' => ?_, hadmits⟩
            obtain rfl := Option.some.inj (hknown.symm.trans hfield')
            exact hadmitted rfl

end Fields

variable {descriptors : Descriptors D}

/-- Tags without repetition occur once each. -/
theorem count_singular {schema : D} {fs : List Field} {tag : ℕ} {field : FieldIter D}
    (h : (singularTags descriptors schema fs).Nodup)
    (hknown : descriptors.known schema tag = some field) (hsingular : field.htype ≠ .repeated) :
    (fs.map Field.tag).count tag ≤ 1 := by
  have hcount := List.nodup_iff_count_le_one.mp h tag
  rwa [singularTags, List.count_filter (by simp [hknown, hsingular])] at hcount

/-- **The guard at every depth:** it answers, and it accepts only messages of the schema. -/
theorem validateLevels_sound (levels : ℕ) (bytes : List UInt8) (schema : Option D) :
    ∃ accepted, validateLevels descriptors levels bytes schema = some accepted ∧
      (accepted = true → ∃ d ∈ schema, WireMessage descriptors levels bytes d) := by
  induction levels generalizing bytes schema with
  | zero => exact ⟨false, rfl, fun hfalse => absurd hfalse Bool.false_ne_true⟩
  | succ levels ih =>
    cases schema with
    | none => exact ⟨false, rfl, fun hfalse => absurd hfalse Bool.false_ne_true⟩
    | some schema =>
      rw [validateLevels]
      by_cases hlong : bytes.length > 239
      · simp only [if_pos hlong]
        exact ⟨false, rfl, fun hfalse => absurd hfalse Bool.false_ne_true⟩
      simp only [if_neg hlong]
      have hnested : ∀ bytes schema, ∃ accepted,
          validateLevels descriptors levels bytes (some schema) = some accepted ∧
            (accepted = true → WireMessage descriptors levels bytes schema) := by
        intro bytes schema
        obtain ⟨accepted, haccepted, hmessage⟩ := ih bytes (some schema)
        refine ⟨accepted, haccepted, fun htrue => ?_⟩
        obtain ⟨d, hd, hd'⟩ := hmessage htrue
        obtain rfl := Option.mem_some.mp hd
        exact hd'
      obtain ⟨accepted, haccepted, hfields⟩ := validateFields_before descriptors schema hnested
        (List.suffix_refl bytes) (Nat.lt_succ_self _)
        (show (show Seen from {}).singular.Nodup from List.nodup_nil)
      rw [before_self] at haccepted
      refine ⟨accepted, haccepted, fun htrue => ⟨schema, rfl, ?_⟩⟩
      obtain ⟨fs, hmessage, hadmits, hnodup, honeof⟩ := hfields htrue
      exact ⟨fs, hmessage, hadmits, fun tag field hknown hsingular =>
        count_singular hnodup hknown hsingular, honeof⟩

/-- **The wire format, and the guard before the decoder.** The reader stops in bounds on every text,
it is good exactly where the text is that of some fields, and these are what it returned. The guard
answers without a read behind the end of its text, and accepts only messages of its schema. -/
theorem wire_guard :
    (∀ input, ∃ fs r, (∀ turns, input.length < turns → fields input turns {} = some (fs, r)) ∧
      (r.isGood input = true ↔ ∃ gs, Message gs input) ∧ ∀ gs, Message gs input → gs = fs) ∧
    ∀ (D : Type) (descriptors : Descriptors D) (bytes : List UInt8) (schema : Option D),
      ∃ accepted, validateWire descriptors bytes schema = some accepted ∧
        (accepted = true → ∃ d ∈ schema, WireMessage descriptors 9 bytes d) := by
  refine ⟨fun input => ?_, fun D descriptors bytes schema => validateLevels_sound 9 bytes schema⟩
  obtain ⟨fs, r, hfields, hsound, hcomplete⟩ := fields_before (List.suffix_refl input)
    (Nat.lt_succ_self _)
  refine ⟨fs, r, fun turns hturns => ?_, ⟨fun hgood => ⟨fs, hsound hgood⟩, ?_⟩, ?_⟩
  · rw [← before_self input]
    exact fields_mono hturns hfields
  · rintro ⟨gs, hgs⟩
    exact (hcomplete gs hgs).2
  · exact fun gs hgs => (hcomplete gs hgs).1.symm

end Protocol

end OVMesh
