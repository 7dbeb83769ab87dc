import OVMesh.Lib.Numerals

/-!
# Decimal texts

Numbers as texts of bytes: the decimal digits of a natural number, the fixed number of decimals of a
`printf` format, and the decimal floating-point grammar of `strtod`.

* `decimal`, `value`: the digits of a natural number, and the number of some digits.
* `padded`, `fixed`: a number of digits with leading zeros, and a number with decimals.
* `readDecimal`: the value of a decimal text.
* `readDecimal_fixed`: the number with decimals is read back.
-/

namespace OVMesh

namespace Decimal

/-! ## Digits -/

/-- The character of a digit. -/
def digit (d : ℕ) : UInt8 := UInt8.ofNat (48 + d)

/-- The character is a digit. -/
def isDigit (b : UInt8) : Bool := 48 ≤ b && b ≤ 57

/-- The number of some decimal digits. -/
def value (digits : List UInt8) : ℕ := digits.foldl (fun n b => 10 * n + (b.toNat - 48)) 0

/-- The decimal digits of a number. -/
def decimal (n : ℕ) : List UInt8 :=
  if n = 0 then [digit 0] else (Nat.digits 10 n).reverse.map digit

/-- The last digits of a number, with leading zeros. -/
def padded : ℕ → ℕ → List UInt8
  | 0, _ => []
  | k + 1, n => padded k (n / 10) ++ [digit (n % 10)]

theorem toNat_digit {d : ℕ} (h : d < 10) : (digit d).toNat = 48 + d := by
  rw [digit, UInt8.toNat_ofNat']
  omega

theorem isDigit_digit {d : ℕ} (h : d < 10) : isDigit (digit d) = true := by
  have := toNat_digit h
  simp only [isDigit, Bool.and_eq_true, decide_eq_true_eq, UInt8.le_iff_toNat_le]
  rw [this]
  exact ⟨by simp, by simp; omega⟩

@[simp] theorem value_nil : value [] = 0 := rfl

theorem value_concat (digits : List UInt8) (b : UInt8) :
    value (digits ++ [b]) = 10 * value digits + (b.toNat - 48) := by
  rw [value, List.foldl_append]
  rfl

theorem value_append (a b : List UInt8) :
    value (a ++ b) = value a * 10 ^ b.length + value b := by
  induction b using List.reverseRecOn with
  | nil => simp
  | append_singleton b d ih =>
    rw [← List.append_assoc, value_concat, ih, value_concat, List.length_append,
      List.length_singleton, pow_succ]
    ring

theorem value_cons (b : UInt8) (rest : List UInt8) :
    value (b :: rest) = (b.toNat - 48) * 10 ^ rest.length + value rest := by
  rw [← List.singleton_append, value_append]
  simp [value]

/-- A number of so many digits. -/
theorem value_lt {digits : List UInt8} (h : digits.all isDigit = true) :
    value digits < 10 ^ digits.length := by
  induction digits using List.reverseRecOn with
  | nil => exact Nat.one_pos
  | append_singleton digits b ih =>
    rw [List.all_append, Bool.and_eq_true] at h
    have hb : b.toNat - 48 < 10 := by
      have hdigit : 48 ≤ b ∧ b ≤ 57 := by simpa [isDigit] using h.2
      have := UInt8.le_iff_toNat_le.mp hdigit.2
      simp only [UInt8.reduceToNat] at this
      omega
    have := ih h.1
    rw [value_concat, List.length_append, List.length_singleton, pow_succ]
    omega

theorem value_digits {l : List ℕ} (h : ∀ d ∈ l, d < 10) :
    value (l.reverse.map digit) = Nat.ofDigits 10 l := by
  induction l with
  | nil => rfl
  | cons d l ih =>
    obtain ⟨hd, hl⟩ := List.forall_mem_cons.mp h
    rw [List.reverse_cons, List.map_append, List.map_singleton, value_concat, ih hl,
      toNat_digit hd, Nat.ofDigits_cons, Nat.add_sub_cancel_left, Nat.add_comm]

/-- The digits of a number give it back. -/
@[simp] theorem value_decimal (n : ℕ) : value (decimal n) = n := by
  unfold decimal
  split <;> rename_i h
  · rw [h]
    rfl
  · rw [value_digits fun d hd => Nat.digits_lt_base (by norm_num) hd, Nat.ofDigits_digits]

theorem isDigit_decimal {n : ℕ} : ∀ b ∈ decimal n, isDigit b = true := by
  unfold decimal
  intro b hb
  split at hb
  · rw [List.mem_singleton.mp hb]
    decide
  · obtain ⟨d, hd, rfl⟩ := List.mem_map.mp hb
    exact isDigit_digit (Nat.digits_lt_base (by norm_num) (List.mem_reverse.mp hd))

theorem decimal_ne_nil (n : ℕ) : decimal n ≠ [] := by
  unfold decimal
  split <;> rename_i h
  · simp
  · simp [Nat.digits_ne_nil_iff_ne_zero.mpr h]

theorem length_decimal_le {n k : ℕ} (hk : 0 < k) (h : n < 10 ^ k) : (decimal n).length ≤ k := by
  unfold decimal
  split
  · exact hk
  · rw [List.length_map, List.length_reverse]
    exact (Nat.digits_length_le_iff (by norm_num) n).mpr h

@[simp] theorem length_padded (k n : ℕ) : (padded k n).length = k := by
  induction k generalizing n with
  | zero => rfl
  | succ k ih => rw [padded, List.length_append, ih, List.length_singleton]

theorem isDigit_padded {k n : ℕ} : ∀ b ∈ padded k n, isDigit b = true := by
  induction k generalizing n with
  | zero => exact fun b hb => absurd hb List.not_mem_nil
  | succ k ih =>
    intro b hb
    rcases List.mem_append.mp hb with hb | hb
    · exact ih b hb
    · rw [List.mem_singleton.mp hb]
      exact isDigit_digit (Nat.mod_lt _ (by norm_num))

theorem value_padded {k n : ℕ} (h : n < 10 ^ k) : value (padded k n) = n := by
  induction k generalizing n with
  | zero =>
    have : n = 0 := by simpa using h
    rw [this]
    rfl
  | succ k ih =>
    have hn : n / 10 < 10 ^ k := Nat.div_lt_of_lt_mul (by rwa [← pow_succ'])
    rw [padded, value_concat, ih hn, toNat_digit (Nat.mod_lt _ (by norm_num))]
    omega

/-! ## Decimals -/

/-- The sign of a text, and what follows it. -/
def readSign : List UInt8 → Bool × List UInt8
  | [] => (false, [])
  | b :: rest => if b = 45 then (true, rest) else if b = 43 then (false, rest) else (false, b :: rest)

/-- The exponent behind the decimals. -/
def readExponent : List UInt8 → Option ℤ
  | [] => some 0
  | b :: rest =>
    let (negative, digits) := readSign rest
    if (b = 101 ∨ b = 69) ∧ digits ≠ [] ∧ digits.all isDigit then
      some (if negative then -(value digits : ℤ) else value digits)
    else none

/-- The digits behind the decimal point, and what follows them. -/
def readFraction : List UInt8 → List UInt8 × List UInt8
  | [] => ([], [])
  | b :: rest => if b = 46 then rest.span isDigit else ([], b :: rest)

/-- The exact value of a decimal text. -/
def readDecimal (text : List UInt8) : Option ℚ := do
  let (negative, rest) := readSign text
  let (whole, rest) := rest.span isDigit
  let (fraction, rest) := readFraction rest
  let exponent ← readExponent rest
  if whole = [] ∧ fraction = [] then none
  else
    let magnitude : ℚ := value (whole ++ fraction) * 10 ^ (exponent - fraction.length)
    some (if negative then -magnitude else magnitude)

/-- `%.kf` of a multiple of `10 ^ -k`. -/
def fixed (k : ℕ) (negative : Bool) (n : ℕ) : List UInt8 :=
  (if negative then [45] else []) ++ decimal (n / 10 ^ k) ++ [46] ++ padded k (n % 10 ^ k)

theorem span_digits {digits rest : List UInt8} (h : ∀ b ∈ digits, isDigit b = true)
    (hrest : ∀ b ∈ rest.head?, isDigit b = false) :
    (digits ++ rest).span isDigit = (digits, rest) := by
  rw [List.span_eq_takeWhile_dropWhile, List.takeWhile_append_of_pos h,
    List.dropWhile_append_of_pos h]
  cases rest with
  | nil => simp
  | cons b rest =>
    have hb : isDigit b = false := hrest b rfl
    simp [hb]

theorem readSign_digits {text : List UInt8} (h : ∀ b ∈ text.head?, isDigit b = true) :
    readSign text = (false, text) := by
  cases text with
  | nil => rfl
  | cons b rest =>
    have hb := h b rfl
    have h45 : b ≠ 45 := by rintro rfl; exact absurd hb (by decide)
    have h43 : b ≠ 43 := by rintro rfl; exact absurd hb (by decide)
    rw [readSign, if_neg h45, if_neg h43]

/-- The number with decimals is read back. -/
theorem readDecimal_fixed (k : ℕ) (negative : Bool) (n : ℕ) :
    readDecimal (fixed k negative n) =
      some (if negative then -(n / 10 ^ k : ℚ) else n / 10 ^ k) := by
  let whole := decimal (n / 10 ^ k)
  let fraction := padded k (n % 10 ^ k)
  have hsign : readSign (fixed k negative n) = (negative, whole ++ ([46] ++ fraction)) := by
    cases negative with
    | true => simp [fixed, readSign, whole, fraction]
    | false =>
      have : fixed k false n = whole ++ ([46] ++ fraction) := by simp [fixed, whole, fraction]
      rw [this]
      refine readSign_digits fun b hb => ?_
      rw [List.head?_append_of_ne_nil _ (decimal_ne_nil _)] at hb
      exact isDigit_decimal b (List.mem_of_mem_head? hb)
  have hspan : (whole ++ ([46] ++ fraction)).span isDigit = (whole, [46] ++ fraction) :=
    span_digits isDigit_decimal (by simp; decide)
  have hfraction : readFraction ([46] ++ fraction) = (fraction, []) := by
    have := span_digits (isDigit_padded (k := k) (n := n % 10 ^ k))
      (show ∀ b ∈ ([] : List UInt8).head?, isDigit b = false by simp)
    rw [List.append_nil] at this
    exact this
  have hne : ¬ (whole = [] ∧ fraction = []) := fun h => decimal_ne_nil _ h.1
  have hvalue : value (whole ++ fraction) = n := by
    rw [value_append, value_decimal, length_padded, value_padded (Nat.mod_lt _ (by positivity)),
      Nat.div_add_mod']
  unfold readDecimal
  rw [hsign]
  simp only []
  rw [hspan]
  simp only []
  rw [hfraction]
  simp only [readExponent, Option.bind_eq_bind, Option.bind_some]
  rw [if_neg hne, hvalue]
  have hlength : fraction.length = k := length_padded _ _
  rw [hlength, zero_sub, zpow_neg, zpow_natCast, ← div_eq_mul_inv]

theorem length_fixed_le {k j n : ℕ} (negative : Bool) (hj : 0 < j) (h : n / 10 ^ k < 10 ^ j) :
    (fixed k negative n).length ≤ 1 + j + 1 + k := by
  have := length_decimal_le hj h
  unfold fixed
  cases negative <;> simp <;> omega

/-- The bytes of a number with decimals. -/
theorem mem_fixed {k n : ℕ} {negative : Bool} {b : UInt8} (h : b ∈ fixed k negative n) :
    b = 45 ∨ b = 46 ∨ isDigit b = true := by
  simp only [fixed, List.mem_append, List.mem_singleton] at h
  rcases h with ((h | h) | h) | h
  · cases negative with
    | true => exact .inl (List.mem_singleton.mp h)
    | false => exact absurd h List.not_mem_nil
  · exact .inr (.inr (isDigit_decimal b h))
  · exact .inr (.inl h)
  · exact .inr (.inr (isDigit_padded b h))

end Decimal

end OVMesh
