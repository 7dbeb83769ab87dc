import OVMesh.Lib.Decimal

/-!
# Hexadecimal texts

Bytes as pairs of hexadecimal digits, the high half first.

* `digitOf`, `encode`: the lower-case digits of a half byte, and of some bytes.
* `isDigit`, `isLower`, `value`: the digits of a text, of either case.
* `bytes`: the bytes of the pairs of a text.
* `bytes_encode`, `encode_bytes`: a lower-case text is the encoding of its bytes, and no other text is.
-/

namespace OVMesh

namespace Hex

/-- The character of a hexadecimal digit, in lower case. -/
def digitOf (n : ℕ) : UInt8 := if n < 10 then Decimal.digit n else UInt8.ofNat (87 + n)

/-- Two characters for each byte. -/
def encode (l : List UInt8) : List UInt8 :=
  l.flatMap fun b => [digitOf (b.toNat / 16), digitOf (b.toNat % 16)]

/-- The character is a hexadecimal digit as `encode` writes it. -/
def isLower (c : UInt8) : Bool := Decimal.isDigit c || (97 ≤ c && c ≤ 102)

/-- The character is a hexadecimal digit of either case. -/
def isDigit (c : UInt8) : Bool := isLower c || (65 ≤ c && c ≤ 70)

/-- The value of a digit. -/
def value (c : UInt8) : ℕ :=
  if Decimal.isDigit c then c.toNat - 48 else if 97 ≤ c then c.toNat - 87 else c.toNat - 55

/-- The bytes of the pairs of a text. -/
def bytes : List UInt8 → List UInt8
  | high :: low :: rest => UInt8.ofNat (16 * value high + value low) :: bytes rest
  | _ => []

variable {n : ℕ} {c : UInt8} {l text : List UInt8}

/-- What holds of the numbers below 256 holds of the bytes. -/
theorem forall_byte {P : UInt8 → Prop} (h : ∀ n < 256, P (UInt8.ofNat n)) (c : UInt8) : P c := by
  have := h c.toNat c.toNat_lt
  rwa [UInt8.ofNat_toNat] at this

theorem decimal_iff : Decimal.isDigit c = true ↔ 48 ≤ c.toNat ∧ c.toNat ≤ 57 := by
  rw [Decimal.isDigit, Bool.and_eq_true, decide_eq_true_eq, decide_eq_true_eq,
    UInt8.le_iff_toNat_le, UInt8.le_iff_toNat_le]
  rfl

theorem isLower_iff : isLower c = true ↔
    48 ≤ c.toNat ∧ c.toNat ≤ 57 ∨ 97 ≤ c.toNat ∧ c.toNat ≤ 102 := by
  rw [isLower, Bool.or_eq_true, decimal_iff, Bool.and_eq_true, decide_eq_true_eq, decide_eq_true_eq,
    UInt8.le_iff_toNat_le, UInt8.le_iff_toNat_le]
  rfl

theorem isDigit_iff : isDigit c = true ↔
    (48 ≤ c.toNat ∧ c.toNat ≤ 57 ∨ 97 ≤ c.toNat ∧ c.toNat ≤ 102) ∨
      65 ≤ c.toNat ∧ c.toNat ≤ 70 := by
  rw [isDigit, Bool.or_eq_true, isLower_iff, Bool.and_eq_true, decide_eq_true_eq, decide_eq_true_eq,
    UInt8.le_iff_toNat_le, UInt8.le_iff_toNat_le]
  rfl

theorem value_eq : value c = if 48 ≤ c.toNat ∧ c.toNat ≤ 57 then c.toNat - 48
    else if 97 ≤ c.toNat then c.toNat - 87 else c.toNat - 55 := by
  simp only [value, decimal_iff, UInt8.le_iff_toNat_le]
  rfl

theorem value_lt (h : isDigit c = true) : value c < 16 := by
  rw [isDigit_iff] at h
  rw [value_eq]
  split_ifs <;> omega

theorem value_digitOf (h : n < 16) : value (digitOf n) = n := by
  interval_cases n <;> rfl

theorem isLower_digitOf (h : n < 16) : isLower (digitOf n) = true := by
  interval_cases n <;> rfl

/-- A lower-case digit is the digit of its value. -/
theorem digitOf_value (h : isLower c = true) : digitOf (value c) = c := by
  rw [isLower_iff] at h
  rw [value_eq, ← UInt8.toNat_inj, digitOf, Decimal.digit]
  split_ifs <;> rw [UInt8.toNat_ofNat'] <;> omega

theorem isDigit_of_isLower (h : isLower c = true) : isDigit c = true := by
  rw [isDigit, h, Bool.true_or]

@[simp] theorem length_encode : (encode l).length = 2 * l.length := by
  simp [encode, Nat.mul_comm]

theorem isLower_encode : ∀ c ∈ encode l, isLower c = true := by
  intro c hc
  obtain ⟨b, -, hc⟩ := List.mem_flatMap.mp hc
  have hb := b.toNat_lt
  rcases List.mem_pair.mp hc with rfl | rfl
  · exact isLower_digitOf (by omega)
  · exact isLower_digitOf (by omega)

theorem encode_cons (b : UInt8) :
    encode (b :: l) = digitOf (b.toNat / 16) :: digitOf (b.toNat % 16) :: encode l := rfl

/-- **The bytes of an encoding.** -/
@[simp] theorem bytes_encode : bytes (encode l) = l := by
  induction l with
  | nil => rfl
  | cons b l ih =>
    have hb := b.toNat_lt
    rw [encode_cons, bytes, ih, value_digitOf (by omega), value_digitOf (by omega),
      Nat.div_add_mod, UInt8.ofNat_toNat]

/-- **A lower-case text of pairs is the encoding of its bytes.** -/
theorem encode_bytes (heven : text.length % 2 = 0) (h : ∀ c ∈ text, isLower c = true) :
    encode (bytes text) = text := by
  fun_induction bytes text with
  | case1 high low rest ih =>
    obtain ⟨hhigh, hrest⟩ := List.forall_mem_cons.mp h
    obtain ⟨hlow, hrest⟩ := List.forall_mem_cons.mp hrest
    have hhigh' := value_lt (isDigit_of_isLower hhigh)
    have hlow' := value_lt (isDigit_of_isLower hlow)
    have hbyte : (UInt8.ofNat (16 * value high + value low)).toNat =
        16 * value high + value low := by
      rw [UInt8.toNat_ofNat']
      omega
    have hdiv : (16 * value high + value low) / 16 = value high := by omega
    have hmod : (16 * value high + value low) % 16 = value low := by omega
    simp only [List.length_cons] at heven
    rw [encode_cons, hbyte, hdiv, hmod, digitOf_value hhigh, digitOf_value hlow,
      ih (by omega) hrest]
  | case2 text hshort =>
    rcases text with _ | ⟨high, _ | ⟨low, rest⟩⟩
    · rfl
    · simp at heven
    · exact absurd rfl (hshort high low rest)

end Hex

end OVMesh
