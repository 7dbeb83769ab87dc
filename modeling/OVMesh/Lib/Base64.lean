import OVMesh.Lib.Numerals

/-!
# Base64

The standard encoding of bytes: groups of three bytes as four digits of six bits, the last group
filled with zero bits and padded.

* `charOf`, `sextets`, `encode`: the alphabet, the digits of some bytes, and their text.
* `ofSextets`, `spare`: the bytes of some digits, and the bits behind the last whole byte.
* `sextets_ofSextets`: digits without spare bits are those of their bytes.
-/

namespace OVMesh

namespace Base64

/-- The alphabet, a byte for each digit. -/
def charOf (n : ℕ) : UInt8 :=
  if n < 26 then UInt8.ofNat (65 + n)
  else if n < 52 then UInt8.ofNat (71 + n)
  else if n < 62 then UInt8.ofNat (n - 4)
  else if n = 62 then 43
  else 47

/-- The bytes as numbers of six bits, the last one filled up with zeros. -/
def sextets : List UInt8 → List ℕ
  | a :: b :: c :: rest =>
    a.toNat / 4 :: (a.toNat % 4 * 16 + b.toNat / 16) :: (b.toNat % 16 * 4 + c.toNat / 64) ::
      c.toNat % 64 :: sextets rest
  | [a, b] => [a.toNat / 4, a.toNat % 4 * 16 + b.toNat / 16, b.toNat % 16 * 4]
  | [a] => [a.toNat / 4, a.toNat % 4 * 16]
  | [] => []

/-- The text of the bytes, padded to a multiple of four characters. -/
def encode (l : List UInt8) : List UInt8 :=
  (sextets l).map charOf ++ List.replicate ((3 - l.length % 3) % 3) 61

/-- The whole bytes of some digits. -/
def ofSextets : List ℕ → List UInt8
  | a :: b :: c :: d :: rest =>
    UInt8.ofNat (a * 4 + b / 16) :: UInt8.ofNat (b % 16 * 16 + c / 4) :: UInt8.ofNat (c % 4 * 64 + d) ::
      ofSextets rest
  | [a, b, c] => [UInt8.ofNat (a * 4 + b / 16), UInt8.ofNat (b % 16 * 16 + c / 4)]
  | [a, b] => [UInt8.ofNat (a * 4 + b / 16)]
  | _ => []

/-- The bits behind the last whole byte of some digits. -/
def spare : List ℕ → ℕ
  | _ :: _ :: _ :: _ :: rest => spare rest
  | [_, _, c] => c % 4
  | [_, b] => b % 16
  | [a] => a
  | [] => 0

variable {l : List UInt8} {digits : List ℕ}

theorem toNat_ofNat {n : ℕ} (h : n < 256) : (UInt8.ofNat n).toNat = n := by
  rw [UInt8.toNat_ofNat']
  omega

theorem eq_ofNat {b : UInt8} {n : ℕ} (h : n = b.toNat) : UInt8.ofNat n = b := by
  rw [h, UInt8.ofNat_toNat]

theorem sextets_lt : ∀ d ∈ sextets l, d < 64 := by
  fun_induction sextets l with
  | case1 a b c rest ih =>
    have ha := a.toNat_lt
    have hb := b.toNat_lt
    have hc := c.toNat_lt
    simp only [List.forall_mem_cons]
    exact ⟨by omega, by omega, by omega, by omega, ih⟩
  | case2 a b =>
    have ha := a.toNat_lt
    have hb := b.toNat_lt
    simp only [List.forall_mem_cons]
    exact ⟨by omega, by omega, by omega, fun d hd => by cases hd⟩
  | case3 a =>
    have ha := a.toNat_lt
    simp only [List.forall_mem_cons]
    exact ⟨by omega, by omega, fun d hd => by cases hd⟩
  | case4 => exact fun d hd => by cases hd

theorem length_sextets : (sextets l).length = (4 * l.length + 2) / 3 := by
  fun_induction sextets l with
  | case1 a b c rest ih =>
    simp only [List.length_cons, ih]
    omega
  | case2 a b => simp
  | case3 a => simp
  | case4 => rfl

/-- **The bytes of their digits.** -/
theorem ofSextets_sextets : ofSextets (sextets l) = l ∧ spare (sextets l) = 0 := by
  fun_induction sextets l with
  | case1 a b c rest ih =>
    have hb := b.toNat_lt
    have hc := c.toNat_lt
    refine ⟨?_, ih.2⟩
    rw [ofSextets, ih.1, eq_ofNat (b := a) (by omega), eq_ofNat (b := b) (by omega),
      eq_ofNat (b := c) (by omega)]
  | case2 a b =>
    have hb := b.toNat_lt
    refine ⟨?_, by simp only [spare]; omega⟩
    rw [ofSextets, eq_ofNat (b := a) (by omega), eq_ofNat (b := b) (by omega)]
  | case3 a =>
    refine ⟨?_, by simp only [spare]; omega⟩
    rw [ofSextets, eq_ofNat (b := a) (by omega)]
  | case4 => exact ⟨rfl, rfl⟩

/-- **The digits of their bytes**, where no bit is spare. -/
theorem sextets_ofSextets (hlt : ∀ d ∈ digits, d < 64) (hlength : digits.length % 4 ≠ 1)
    (hspare : spare digits = 0) : sextets (ofSextets digits) = digits := by
  fun_induction ofSextets digits with
  | case1 a b c d rest ih =>
    simp only [List.forall_mem_cons] at hlt
    obtain ⟨ha, hb, hc, hd, hrest⟩ := hlt
    simp only [List.length_cons] at hlength
    rw [sextets, toNat_ofNat (by omega), toNat_ofNat (by omega), toNat_ofNat (by omega),
      ih hrest (by omega) hspare]
    simp only [List.cons.injEq, and_true]
    omega
  | case2 a b c =>
    simp only [List.forall_mem_cons] at hlt
    obtain ⟨ha, hb, hc, -⟩ := hlt
    simp only [spare] at hspare
    rw [sextets, toNat_ofNat (by omega), toNat_ofNat (by omega)]
    simp only [List.cons.injEq, and_true]
    omega
  | case3 a b =>
    simp only [List.forall_mem_cons] at hlt
    obtain ⟨ha, hb, -⟩ := hlt
    simp only [spare] at hspare
    rw [sextets, toNat_ofNat (by omega)]
    simp only [List.cons.injEq, and_true]
    omega
  | case4 digits h1 h2 h3 =>
    rcases digits with _ | ⟨a, _ | ⟨b, _ | ⟨c, _ | ⟨d, rest⟩⟩⟩⟩
    · rfl
    · exact absurd rfl hlength
    · exact absurd rfl (h3 a b)
    · exact absurd rfl (h2 a b c)
    · exact absurd rfl (h1 a b c d rest)

end Base64

end OVMesh
