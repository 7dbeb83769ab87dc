import OVMesh.Lib.Scatter
import OVMesh.Lib.XorShift

/-!
# The LoRa symbol code

`third_party/sdrangel/lora_codec.hpp`: Hamming codewords, whitening, the diagonal interleaver and
the explicit header. A byte is a `BitVec 8` and a symbol a `BitVec 16`.

* `decodeNibble_encodeNibble`, `decodeNibble_flip`: a codeword is decoded, with one bit flipped
  when the code has four or three parity bits.
* `diagonal`: the codeword of a symbol bit, which is its own inverse in the bit.
* `getLsbD_deinterleave`, `getLsbD_interleave`: where the bits go.
* `whiten_whiten`: whitening twice changes nothing.
-/

namespace OVMesh

namespace LoraDetail

open Scatter

/-! ## Codewords -/

/-- `codeword84`: the codewords of the nibbles for four parity bits. -/
def codeword84 : List (BitVec 8) :=
  [0, 23, 45, 58, 78, 89, 99, 116, 139, 156, 166, 177, 197, 210, 232, 255]

/-- `codeword45`: the codewords of the nibbles for one parity bit, before they are shifted. -/
def codeword45 : List (BitVec 8) :=
  [0, 24, 40, 48, 72, 80, 96, 120, 136, 144, 160, 184, 192, 216, 232, 240]

/-- `reverse4`: the four bits in the opposite order. -/
def reverse4 (v : BitVec 8) : BitVec 8 :=
  (v &&& 1) <<< 3 ||| (v &&& 2) <<< 1 ||| (v &&& 4) >>> 1 ||| (v &&& 8) >>> 3

/-- `encode_nibble`: the codeword of a nibble, cut to its parity bits. -/
def encodeNibble (nibble : BitVec 8) (parity : ℕ) : BitVec 8 :=
  (if parity = 1 then codeword45 else codeword84).getD (reverse4 (nibble &&& 15)).toNat 0 >>>
    (4 - parity)

/-- `Nibble`: a decoded nibble, whether a bit was corrected, and whether the codeword was too far from all
others. -/
structure Nibble where
  value : BitVec 8 := 0
  corrected : Bool := false
  invalid : Bool := false
  deriving DecidableEq

/-- The search of `decode_nibble`: the least distance, how many codewords have it, and the last of
them that was nearer than all before it. -/
structure Nearest where
  best : ℕ
  ties : ℕ
  result : BitVec 8

/-- The body of the loop of `decode_nibble`: the nearest codeword so far, and how many are as near. -/
def Nearest.visit (cw : BitVec 8) (parity : ℕ) (s : Nearest) (n : ℕ) : Nearest :=
  let candidate := encodeNibble (BitVec.ofNat 8 n) parity
  let distance := (cw ^^^ candidate).cpop.toNat
  if distance < s.best then ⟨distance, 1, BitVec.ofNat 8 n⟩
  else if distance = s.best then { s with ties := s.ties + 1 }
  else s

/-- `decode_nibble`: the nibble of the nearest codeword; it is invalid when two are as near. -/
def decodeNibble (cw : BitVec 8) (parity : ℕ) : Nibble :=
  if parity < 1 ∨ parity > 4 then { invalid := true }
  else
    let s := (List.range 16).foldl (Nearest.visit cw parity) ⟨9, 0, 0⟩
    { value := s.result
      corrected := s.best ≠ 0
      invalid := s.ties ≠ 1 ∨ s.best > if parity ≥ 3 then 1 else 0 }

/-- The ones of a byte, from those of its halves. -/
def ones (x : BitVec 8) : ℕ :=
  let halves := [0, 1, 1, 2, 1, 2, 2, 3, 1, 2, 2, 3, 2, 3, 3, 4]
  halves.getD (x.toNat / 16) 0 + halves.getD (x.toNat % 16) 0

private theorem cpop_ofNat : ∀ n < 256,
    (BitVec.ofNat 8 n).cpop.toNat = ones (BitVec.ofNat 8 n) := by
  decide +kernel

theorem visit_eq (cw : BitVec 8) (parity : ℕ) : Nearest.visit cw parity = fun s n =>
    let distance := ones (cw ^^^ encodeNibble (BitVec.ofNat 8 n) parity)
    if distance < s.best then ⟨distance, 1, BitVec.ofNat 8 n⟩
    else if distance = s.best then { s with ties := s.ties + 1 }
    else s := by
  have hones : ∀ x : BitVec 8, x.cpop.toNat = ones x := fun x => by
    simpa using cpop_ofNat x.toNat x.isLt
  funext s n
  rw [Nearest.visit, hones]

private theorem decode_words : ∀ n < 16, ∀ parity < 5, 1 ≤ parity →
    decodeNibble (encodeNibble (BitVec.ofNat 8 n) parity) parity =
      { value := BitVec.ofNat 8 n } := by
  simp only [decodeNibble, visit_eq]
  decide +kernel

private theorem decode_flipped : ∀ n < 16, ∀ parity < 5, 3 ≤ parity → ∀ k < 4 + parity,
    decodeNibble (encodeNibble (BitVec.ofNat 8 n) parity ^^^ BitVec.twoPow 8 k) parity =
      { value := BitVec.ofNat 8 n, corrected := true } := by
  simp only [decodeNibble, visit_eq]
  decide +kernel

variable {nibble : BitVec 8} {parity width : ℕ}

theorem decodeNibble_encodeNibble (hn : nibble.toNat < 16) (h1 : 1 ≤ parity) (h4 : parity ≤ 4) :
    decodeNibble (encodeNibble nibble parity) parity = { value := nibble } := by
  simpa using decode_words nibble.toNat hn parity (by omega) h1

/-- The codes with four and three parity bits correct one bit. -/
theorem decodeNibble_flip (hn : nibble.toNat < 16) (h3 : 3 ≤ parity) (h4 : parity ≤ 4) {k : ℕ}
    (hk : k < 4 + parity) :
    decodeNibble (encodeNibble nibble parity ^^^ BitVec.twoPow 8 k) parity =
      { value := nibble, corrected := true } := by
  simpa using decode_flipped nibble.toNat hn parity (by omega) h3 k hk

/-! ## Checks and whitening -/

/-- `header_checksum`: the five check bits of a header, over its length and its flags. -/
def headerChecksum (length flags : BitVec 8) : BitVec 8 :=
  let a0 := length >>> 4 &&& 1
  let a1 := length >>> 5 &&& 1
  let a2 := length >>> 6 &&& 1
  let a3 := length >>> 7 &&& 1
  let b0 := length &&& 1
  let b1 := length >>> 1 &&& 1
  let b2 := length >>> 2 &&& 1
  let b3 := length >>> 3 &&& 1
  let c0 := flags &&& 1
  let c1 := flags >>> 1 &&& 1
  let c2 := flags >>> 2 &&& 1
  let c3 := flags >>> 3 &&& 1
  (a0 ^^^ a1 ^^^ a2 ^^^ a3) <<< 4 ||| (a3 ^^^ b1 ^^^ b2 ^^^ b3 ^^^ c0) <<< 3 |||
    (a2 ^^^ b0 ^^^ b3 ^^^ c1 ^^^ c3) <<< 2 ||| (a1 ^^^ b0 ^^^ b2 ^^^ c0 ^^^ c1 ^^^ c2) <<< 1 |||
    (a0 ^^^ b1 ^^^ c0 ^^^ c1 ^^^ c2 ^^^ c3)

/-- The body of the loop of `crc_ccitt` over the bits of a byte. -/
def crcBit (crc : BitVec 16) : BitVec 16 :=
  crc <<< 1 ^^^ if crc &&& 0x8000 ≠ 0 then 0x1021 else 0

/-- The body of the loop over the bytes. -/
def crcByte (crc : BitVec 16) (b : BitVec 8) : BitVec 16 :=
  let word : BitVec 16 := b.setWidth 16
  (List.range 8).foldl (fun crc _ => crcBit crc) (crc ^^^ word <<< 8)

/-- `crc_ccitt`: the checksum of the bytes, one after the other. -/
def crcCcitt (bytes : List (BitVec 8)) : BitVec 16 := bytes.foldl crcByte 0

/-- `payload_crc`: the checksum of a payload, whose last two bytes enter as they are. -/
def payloadCrc (bytes : List (BitVec 8)) : BitVec 16 :=
  if bytes.length < 2 then 0
  else crcCcitt (bytes.take (bytes.length - 2)) ^^^
    (bytes.getD (bytes.length - 1) 0).setWidth 16 ^^^
    (bytes.getD (bytes.length - 2) 0).setWidth 16 <<< 8

/-- The register of `whiten`, after a byte. -/
def lfsr (state : BitVec 8) : BitVec 8 :=
  state <<< 1 ||| ((state >>> 7 ^^^ state >>> 5 ^^^ state >>> 4 ^^^ state >>> 3) &&& 1)

/-- The loop of `whiten` from a register. -/
def whitenFrom (state : BitVec 8) : List (BitVec 8) → List (BitVec 8)
  | [] => []
  | b :: bytes => (b ^^^ state) :: whitenFrom (lfsr state) bytes

/-- `whiten`: the bytes with the whitening sequence. -/
def whiten (bytes : List (BitVec 8)) : List (BitVec 8) := whitenFrom 0xff bytes

@[simp] theorem length_whiten (bytes : List (BitVec 8)) : (whiten bytes).length = bytes.length := by
  suffices h : ∀ state, (whitenFrom state bytes).length = bytes.length from h _
  induction bytes with
  | nil => intro _; rfl
  | cons b bytes ih => intro state; simp [whitenFrom, ih]

@[simp] theorem whiten_whiten (bytes : List (BitVec 8)) : whiten (whiten bytes) = bytes := by
  suffices h : ∀ state, whitenFrom state (whitenFrom state bytes) = bytes from h _
  induction bytes with
  | nil => intro _; rfl
  | cons b bytes ih =>
    intro state
    rw [whitenFrom, whitenFrom, ih, BitVec.xor_assoc, BitVec.xor_self, BitVec.xor_zero]

/-! ## Interleaving -/

/-- `(i + 2 * width - j - 1) % width`: the codeword that has a bit in column `j` of symbol `i`. -/
def diagonal (width i j : ℕ) : ℕ := (i + 2 * width - j - 1) % width

/-- The loops over the symbols and over their columns. -/
def places (length width : ℕ) : List (ℕ × ℕ) := List.range length ×ˢ List.range width

/-- `deinterleave`: the codewords of a block of symbols, or nothing for a block of the wrong shape. -/
def deinterleave (symbols : List (BitVec 16)) (width parity : ℕ) : List (BitVec 8) :=
  if width < 5 ∨ width > 12 ∨ parity < 1 ∨ parity > 4 ∨ symbols.length ≠ 4 + parity then []
  else
    let length := 4 + parity
    scatter (fun p => diagonal width p.1 p.2)
      (fun p => (((symbols.getD p.1 0 >>> (width - 1 - p.2)) &&& 1#16) <<<
        (length - 1 - p.1)).setWidth 8)
      (places length width) (List.replicate width 0)

/-- `interleave`: the symbols of a block of nibbles. -/
def interleave (nibbles : List (BitVec 8)) (width parity : ℕ) : List (BitVec 16) :=
  let length := 4 + parity
  scatter Prod.fst
    (fun p =>
      let cw := encodeNibble (nibbles.getD (diagonal width p.1 p.2) 0) parity
      ((cw.setWidth 16 >>> (length - 1 - p.1)) &&& 1#16) <<< (width - 1 - p.2))
    (places length width) (List.replicate length 0)

theorem mem_places {length i j : ℕ} : (i, j) ∈ places length width ↔ i < length ∧ j < width := by
  simp [places]

theorem diagonal_lt (h : 0 < width) (i j : ℕ) : diagonal width i j < width := Nat.mod_lt _ h

/-- A diagonal is its own inverse. -/
theorem diagonal_diagonal {i j : ℕ} (hj : j < width) :
    diagonal width i (diagonal width i j) = j := by
  have hlt : diagonal width i j < width := diagonal_lt (by omega) i j
  have hdiv := Nat.div_add_mod (i + 2 * width - j - 1) width
  have hq : (i + 2 * width - j - 1) / width ≤ (i + 2 * width) / width :=
    Nat.div_le_div_right (by omega)
  change width * _ + diagonal width i j = _ at hdiv
  have hcalc : i + 2 * width - diagonal width i j - 1 =
      j + width * ((i + 2 * width - j - 1) / width) := by omega
  rw [diagonal, hcalc, Nat.add_mul_mod_self_left, Nat.mod_eq_of_lt hj]

theorem length_deinterleave {symbols : List (BitVec 16)} (h5 : 5 ≤ width) (h12 : width ≤ 12)
    (h1 : 1 ≤ parity) (h4 : parity ≤ 4) (hlength : symbols.length = 4 + parity) :
    (deinterleave symbols width parity).length = width := by
  rw [deinterleave, if_neg (by omega), length_scatter, List.length_replicate]

@[simp] theorem length_interleave (nibbles : List (BitVec 8)) :
    (interleave nibbles width parity).length = 4 + parity := by
  simp [interleave]

/-- Bit `k` of a codeword is the bit of symbol `3 + parity - k` on its diagonal. -/
theorem getLsbD_deinterleave {symbols : List (BitVec 16)} (h5 : 5 ≤ width) (h12 : width ≤ 12)
    (h1 : 1 ≤ parity) (h4 : parity ≤ 4) (hlength : symbols.length = 4 + parity) {r i : ℕ}
    (hr : r < width) (hi : i < 4 + parity) :
    ((deinterleave symbols width parity).getD r 0).getLsbD (3 + parity - i) =
      (symbols.getD i 0).getLsbD (width - 1 - diagonal width i r) := by
  have hd : diagonal width i r < width := diagonal_lt (by omega) i r
  rw [deinterleave, if_neg (by omega),
    getLsbD_scatter_of_unique (p := (i, diagonal width i r)) (by simpa using hr)
      (mem_places.mpr ⟨hi, hd⟩) (diagonal_diagonal hr),
    getLsbD_bitMask _ (by omega) (by omega)]
  · simp [hr, show 3 + parity - i = 4 + parity - 1 - i by omega]
  · rintro ⟨i', j'⟩ hp hcell hset
    obtain ⟨hi', hj'⟩ := mem_places.mp hp
    rw [getLsbD_bitMask _ (by omega) (by omega)] at hset
    simp only [Bool.and_eq_true, decide_eq_true_eq] at hset
    obtain rfl : i' = i := by omega
    rw [← hcell, diagonal_diagonal hj']

/-- A codeword has no bit behind its length. -/
theorem getLsbD_deinterleave_of_le {symbols : List (BitVec 16)} (h5 : 5 ≤ width) (h12 : width ≤ 12)
    (h1 : 1 ≤ parity) (h4 : parity ≤ 4) (hlength : symbols.length = 4 + parity) {r k : ℕ}
    (hr : r < width) (hk : 4 + parity ≤ k) :
    ((deinterleave symbols width parity).getD r 0).getLsbD k = false := by
  rw [deinterleave, if_neg (by omega), getLsbD_scatter _ (by simpa using hr), Bool.or_eq_false_iff]
  refine ⟨by simp [hr], List.any_eq_false.mpr ?_⟩
  rintro ⟨i, j⟩ -
  rw [getLsbD_bitMask _ (by omega) (by omega)]
  simp
  omega

/-- The bit of symbol `i` in column `j` is the bit of the codeword on its diagonal. -/
theorem getLsbD_interleave {nibbles : List (BitVec 8)} (h12 : width ≤ 12) (h4 : parity ≤ 4)
    {i j : ℕ} (hi : i < 4 + parity) (hj : j < width) :
    ((interleave nibbles width parity).getD i 0).getLsbD (width - 1 - j) =
      (encodeNibble (nibbles.getD (diagonal width i j) 0) parity).getLsbD (3 + parity - i) := by
  have hbit : ∀ (x : BitVec 16) (a b k : ℕ), b < 16 →
      (((x >>> a) &&& 1#16) <<< b).getLsbD k = (decide (k = b) && x.getLsbD a) := by
    intro x a b k hb
    simpa using getLsbD_bitMask (v := 16) x (i := a) (k := k) hb le_rfl
  rw [interleave, getLsbD_scatter_of_unique (p := (i, j)) (by simpa using hi)
    (mem_places.mpr ⟨hi, hj⟩) rfl, hbit _ _ _ _ (by omega)]
  · rw [BitVec.getLsbD_setWidth, show 4 + parity - 1 - i = 3 + parity - i by omega]
    simp [hi, show 3 + parity - i < 16 by omega]
  · rintro ⟨i', j'⟩ hp hcell hset
    obtain ⟨-, hj'⟩ := mem_places.mp hp
    rw [hbit _ _ _ _ (by omega)] at hset
    simp only [Bool.and_eq_true, decide_eq_true_eq] at hset
    obtain rfl : i' = i := hcell
    obtain rfl : j' = j := by omega
    rfl

/-- A symbol has no bit behind its width. -/
theorem toNat_interleave_lt {nibbles : List (BitVec 8)} (h12 : width ≤ 12) {i : ℕ}
    (hi : i < 4 + parity) : ((interleave nibbles width parity).getD i 0).toNat < 2 ^ width := by
  apply Nat.lt_pow_two_of_testBit
  intro k hk
  rw [BitVec.testBit_toNat, interleave, getLsbD_scatter _ (by simpa using hi),
    Bool.or_eq_false_iff]
  refine ⟨by simp [hi], List.any_eq_false.mpr ?_⟩
  rintro ⟨i', j⟩ hp
  obtain ⟨-, hj⟩ := mem_places.mp hp
  have hbit := getLsbD_bitMask (v := 16)
    ((encodeNibble (nibbles.getD (diagonal width i' j) 0) parity).setWidth 16)
    (i := 4 + parity - 1 - i') (j := width - 1 - j) (k := k) (by omega) le_rfl
  rw [BitVec.setWidth_eq] at hbit
  rw [hbit]
  simp
  omega

/-! ## Headers -/

/-- A decoded header that is valid. -/
structure Header where
  length : ℕ
  parity : ℕ
  symbols : ℕ
  crc : Bool
  corrected : Bool

/-- `ldro`: the symbols are so long that the low data rate optimisation is on. -/
def ldro (sf bandwidth : ℕ) : Prop := 2 ^ sf * 1000 > 16 * bandwidth

instance (sf bandwidth : ℕ) : Decidable (ldro sf bandwidth) := inferInstanceAs (Decidable (_ > _))

/-- The symbol of a peak: the inverse of the peak's offset and of the Gray mapping. -/
def demap (sf div : ℕ) (bin : BitVec 16) : Option (BitVec 16) :=
  let n := 2 ^ sf
  if bin.toNat ≥ n then none
  else some (XorShift.xorShift 1 (BitVec.ofNat 16 ((bin.toNat + n - 1) % n / div)))

/-- The value of a codeword that has one. -/
def validNibble (cw : BitVec 8) : Option Nibble :=
  let d := decodeNibble cw 4
  if d.invalid then none else some d

/-- The end of `decode_header`: the fields of the five nibbles. -/
def headerFields (sf bandwidth : ℕ) (nib : ℕ → BitVec 8) (corrected : Bool) : Option Header :=
  let length := (nib 0).toNat <<< 4 ||| (nib 1).toNat
  let parity := (nib 2).toNat >>> 1
  let crc := nib 2 &&& 1 != 0
  let check := (nib 3).toNat <<< 4 ||| (nib 4).toNat
  if length = 0 ∨ parity < 1 ∨ parity > 4 ∨
      check ≠ (headerChecksum (BitVec.ofNat 8 length) (nib 2)).toNat then none
  else
    let payloadWidth := sf - if ldro sf bandwidth then 2 else 0
    let nibbles := 2 * (length + if crc then 2 else 0)
    let carried := sf - 7
    let remaining := if nibbles > carried then nibbles - carried else 0
    let symbols := 8 + (remaining + payloadWidth - 1) / payloadWidth * (4 + parity)
    some { length, parity, symbols, crc, corrected }

/-- `decode_header`; a header that is not valid is `none`. -/
def decodeHeader (bins : List (BitVec 16)) (sf bandwidth : ℕ) : Option Header :=
  if sf < 7 ∨ sf > 12 ∨ bins.length < 8 ∨ bandwidth = 0 then none
  else do
    let symbols ← (bins.take 8).mapM (demap sf 4)
    let nibs ← ((deinterleave symbols (sf - 2) 4).take 5).mapM validNibble
    headerFields sf bandwidth (fun i => (nibs.getD i {}).value) (nibs.any Nibble.corrected)

end LoraDetail

end OVMesh
