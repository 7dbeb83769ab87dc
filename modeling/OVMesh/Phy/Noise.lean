import OVMesh.Phy.Codec

/-!
# Symbols with errors

Bits that are flipped between the interleaver and the Gray mapping, and what the decoder makes of
the blocks when every codeword has at most one of them.

* `Flips`: which bits are flipped, by block, symbol and column. `received`: the peaks then.
* `demap_tone`: the peak of a symbol is read back.
* `getD_deinterleave_flipped`: a codeword with its flipped bits.
* `rows_flipped`: the rows of a block are decoded.
-/

namespace OVMesh

namespace Phy

open LoraDetail

/-- The flipped bits, by block, symbol and column. -/
abbrev Flips := ℕ → ℕ → ℕ → Bool

/-- A symbol whose flipped columns are inverted. -/
def flipSymbol (width : ℕ) (flip : ℕ → Bool) (s : BitVec 16) : BitVec 16 :=
  s ^^^ BitVec.ofFnLE fun k => decide (k.val < width) && flip (width - 1 - k.val)

/-- A block of which some bits were flipped on the way. -/
def Block.flipped (flip : ℕ → ℕ → Bool) (b : Block) : Block :=
  { b with symbols := b.symbols.mapIdx fun i s => flipSymbol b.width (flip i) s }

/-- The peaks of numbered blocks, with the flipped bits. -/
def received (flip : Flips) (sf : ℕ) (blocks : List (Block × ℕ)) : List (BitVec 16) :=
  blocks.flatMap fun b => (b.1.flipped (flip b.2)).tones sf

/-- At most one bit of every codeword of the block is flipped. -/
def Block.Once (flip : ℕ → ℕ → Bool) (b : Block) : Prop :=
  ∀ i < 4 + b.parity, ∀ j < b.width, ∀ i' < 4 + b.parity, ∀ j' < b.width,
    flip i j = true → flip i' j' = true → diagonal b.width i j = diagonal b.width i' j' →
      i = i' ∧ j = j'

/-- A bit of the block is flipped. -/
def Block.Hit (flip : ℕ → ℕ → Bool) (b : Block) : Prop :=
  ∃ i < 4 + b.parity, ∃ j < b.width, flip i j = true

/-! ## Peaks -/

/-- The peak of a symbol that fits its divisor is read back. -/
theorem demap_tone {sf div k : ℕ} {gray : BitVec 16} (hsf : sf ≤ 16) (hdiv : 0 < div)
    (hk : 2 ^ k * div = 2 ^ sf) (hgray : gray.toNat < 2 ^ k) :
    demap sf div (tone sf div gray) = some gray := by
  have hbinary : (XorShift.doubling 4 gray).toNat < 2 ^ k := XorShift.toNat_doubling_lt hgray
  have hpow : (2 : ℕ) ^ sf ≤ 2 ^ 16 := Nat.pow_le_pow_right (by decide) hsf
  generalize hb : XorShift.doubling 4 gray = binary at hbinary
  have hlt : binary.toNat * div + 1 ≤ 2 ^ sf := by
    rw [← hk]
    have := Nat.mul_le_mul_right div (Nat.succ_le_of_lt hbinary)
    rw [Nat.succ_mul] at this
    omega
  have hmod : (binary.toNat * div + 1) % 2 ^ sf < 2 ^ sf := Nat.mod_lt _ (Nat.two_pow_pos sf)
  have htone : (tone sf div gray).toNat = (binary.toNat * div + 1) % 2 ^ sf := by
    rw [tone, hb, BitVec.toNat_ofNat, Nat.mod_eq_of_lt (by omega)]
  have hpeak : ((binary.toNat * div + 1) % 2 ^ sf + 2 ^ sf - 1) % 2 ^ sf = binary.toNat * div := by
    rcases Nat.eq_or_lt_of_le hlt with heq | hlt
    · rw [heq, Nat.mod_self, Nat.zero_add, Nat.mod_eq_of_lt (by omega)]
      omega
    · rw [Nat.mod_eq_of_lt hlt, show binary.toNat * div + 1 + 2 ^ sf - 1 =
        binary.toNat * div + 2 ^ sf by omega, Nat.add_mod_right, Nat.mod_eq_of_lt (by omega)]
  rw [demap, htone, if_neg (by omega), hpeak, Nat.mul_div_cancel _ hdiv, BitVec.ofNat_toNat,
    BitVec.setWidth_eq, ← hb, XorShift.xorShift_one_doubling (by decide)]

theorem toNat_flipSymbol_lt {width : ℕ} {flip : ℕ → Bool} {s : BitVec 16}
    (h : s.toNat < 2 ^ width) : (flipSymbol width flip s).toNat < 2 ^ width := by
  rw [flipSymbol, BitVec.toNat_xor]
  apply Nat.xor_lt_two_pow h
  apply Nat.lt_pow_two_of_testBit
  intro k hk
  rw [BitVec.testBit_toNat, BitVec.getLsbD_ofFnLE]
  simp only [dite_eq_right_iff]
  intro _
  simp [Nat.not_lt.mpr hk]

/-- The columns of a symbol with flipped bits. -/
theorem getLsbD_flipSymbol {width j : ℕ} {flip : ℕ → Bool} {s : BitVec 16} (hw : width ≤ 16)
    (hj : j < width) : (flipSymbol width flip s).getLsbD (width - 1 - j) =
      (s.getLsbD (width - 1 - j) ^^ flip j) := by
  rw [flipSymbol, BitVec.getLsbD_xor, BitVec.getLsbD_ofFnLE, dif_pos (by omega)]
  simp [show width - 1 - j < width by omega, show width - 1 - (width - 1 - j) = j by omega]

/-! ## Blocks -/

section Blocks

variable {flip : ℕ → ℕ → Bool} {nibbles : List (BitVec 8)} {parity div width r : ℕ}

/-- A loop that reads what another one wrote. -/
theorem mapM_map {α β γ : Type} {f : β → Option γ} {g : α → β} {k : α → γ} {l : List α}
    (h : ∀ a ∈ l, f (g a) = some (k a)) : (l.map g).mapM f = some (l.map k) := by
  induction l with
  | nil => rfl
  | cons a l ih =>
    rw [List.map_cons, List.mapM_cons, h a List.mem_cons_self,
      ih fun b hb => h b (List.mem_cons_of_mem a hb)]
    rfl

theorem getD_mapIdx {α : Type} {f : ℕ → α → α} {l : List α} {i : ℕ} {d : α} (h : i < l.length) :
    (l.mapIdx f).getD i d = f i (l.getD i d) := by
  simp [h]

/-- The flipped bits of a codeword. -/
def errorWord (flip : ℕ → ℕ → Bool) (parity width r : ℕ) : BitVec 8 :=
  BitVec.ofFnLE fun k => decide (k.val < 4 + parity) &&
    flip (3 + parity - k.val) (diagonal width (3 + parity - k.val) r)

/-- A codeword with its flipped bits. -/
theorem getD_deinterleave_flipped (h5 : 5 ≤ width) (h12 : width ≤ 12) (h1 : 1 ≤ parity)
    (h4 : parity ≤ 4) (hr : r < width) :
    (deinterleave ((Block.ofNibbles parity div width nibbles).flipped flip).symbols
      width parity).getD r 0 =
      encodeNibble (nibbles.getD r 0) parity ^^^ errorWord flip parity width r := by
  have hlength : ((Block.ofNibbles parity div width nibbles).flipped flip).symbols.length =
      4 + parity := by
    simp [Block.flipped, Block.ofNibbles]
  apply BitVec.eq_of_getLsbD_eq
  intro k hk
  rw [BitVec.getLsbD_xor, errorWord, BitVec.getLsbD_ofFnLE, dif_pos hk]
  by_cases hk4 : k < 4 + parity
  · have hi : 3 + parity - k < 4 + parity := by omega
    have hd : diagonal width (3 + parity - k) r < width := diagonal_lt (by omega) _ _
    have hbit := getLsbD_deinterleave h5 h12 h1 h4 hlength hr hi
    rw [show 3 + parity - (3 + parity - k) = k by omega] at hbit
    rw [hbit]
    simp only [Block.flipped, Block.ofNibbles]
    rw [getD_mapIdx (by simpa using hi), getLsbD_flipSymbol (by omega) hd,
      getLsbD_interleave h12 h4 hi hd, diagonal_diagonal hr,
      show 3 + parity - (3 + parity - k) = k by omega]
    simp [hk4]
  · rw [getLsbD_deinterleave_of_le h5 h12 h1 h4 hlength hr (by omega)]
    simp only [hk4, decide_false, Bool.false_and, Bool.xor_false]
    rw [encodeNibble, BitVec.getLsbD_ushiftRight, BitVec.getLsbD_of_ge _ _ (by omega)]

/-- The flipped bits of a codeword, when there is at most one. -/
theorem errorWord_eq (h : (Block.ofNibbles parity div width nibbles).Once flip) (h4 : parity ≤ 4)
    (hr : r < width) :
    errorWord flip parity width r = 0#8 ∧
        (∀ i < 4 + parity, flip i (diagonal width i r) = false) ∨
      ∃ k < 4 + parity, errorWord flip parity width r = BitVec.twoPow 8 k ∧
        flip (3 + parity - k) (diagonal width (3 + parity - k) r) = true := by
  have hw : 0 < width := by omega
  by_cases hnone : ∀ i < 4 + parity, flip i (diagonal width i r) = false
  · refine .inl ⟨?_, hnone⟩
    apply BitVec.eq_of_getLsbD_eq
    intro k hk
    rw [errorWord, BitVec.getLsbD_ofFnLE, dif_pos hk]
    by_cases hk4 : k < 4 + parity
    · simp [hnone (3 + parity - k) (by omega)]
    · simp [hk4]
  · right
    push Not at hnone
    obtain ⟨i, hi, hflip⟩ := hnone
    rw [Bool.ne_false_iff] at hflip
    refine ⟨3 + parity - i, by omega, ?_, by rwa [show 3 + parity - (3 + parity - i) = i by omega]⟩
    apply BitVec.eq_of_getLsbD_eq
    intro k hk
    rw [errorWord, BitVec.getLsbD_ofFnLE, dif_pos hk, BitVec.getLsbD_twoPow, Bool.eq_iff_iff]
    simp only [Bool.and_eq_true, decide_eq_true_eq]
    constructor
    · rintro ⟨hk4, hset⟩
      have hi' : 3 + parity - k < 4 + parity := by omega
      have := (h i hi _ (diagonal_lt hw i r) _ hi' _ (diagonal_lt hw _ r) hflip hset
        (by rw [Block.ofNibbles, diagonal_diagonal hr, diagonal_diagonal hr])).1
      omega
    · rintro ⟨-, rfl⟩
      refine ⟨by omega, ?_⟩
      rwa [show 3 + parity - (3 + parity - i) = i by omega]

/-- A bit of the codeword is flipped. -/
def hit (flip : ℕ → ℕ → Bool) (parity width r : ℕ) : Bool :=
  (List.range (4 + parity)).any fun i => flip i (diagonal width i r)

/-- The code corrects what is flipped in the block. -/
def Block.Correctable (flip : ℕ → ℕ → Bool) (b : Block) : Prop :=
  b.Once flip ∧ (b.parity < 3 → ¬ b.Hit flip)

/-- Every row of the block is decoded. -/
theorem decodeNibble_flipped (h5 : 5 ≤ width) (h12 : width ≤ 12) (h1 : 1 ≤ parity)
    (h4 : parity ≤ 4) (hr : r < width) (hn : (nibbles.getD r 0).toNat < 16)
    (h : (Block.ofNibbles parity div width nibbles).Correctable flip) :
    decodeNibble ((deinterleave ((Block.ofNibbles parity div width nibbles).flipped flip).symbols
      width parity).getD r 0) parity =
      { value := nibbles.getD r 0, corrected := hit flip parity width r } := by
  rw [getD_deinterleave_flipped h5 h12 h1 h4 hr]
  rcases errorWord_eq h.1 h4 hr with ⟨hzero, hnone⟩ | ⟨k, hk, herror, hflip⟩
  · have hhit : hit flip parity width r = false := by
      rw [hit, List.any_eq_false]
      intro i hi
      simp [hnone i (List.mem_range.mp hi)]
    rw [hzero, BitVec.xor_zero, decodeNibble_encodeNibble hn h1 h4, hhit]
  · have hi : 3 + parity - k < 4 + parity := by omega
    have h3 : 3 ≤ parity := by
      by_contra hlt
      exact h.2 (Nat.lt_of_not_le hlt)
        ⟨_, hi, _, diagonal_lt (show 0 < width by omega) _ r, hflip⟩
    have hhit : hit flip parity width r = true :=
      List.any_eq_true.mpr ⟨_, List.mem_range.mpr hi, hflip⟩
    rw [herror, decodeNibble_flip hn h3 h4 hk, hhit]

/-- A block has a flipped bit when one of its codewords has. -/
theorem hit_iff (hw : 0 < width) :
    (Block.ofNibbles parity div width nibbles).Hit flip ↔
      ∃ r < width, hit flip parity width r = true := by
  simp only [hit, List.any_eq_true, List.mem_range]
  constructor
  · rintro ⟨i, hi, j, hj, hflip⟩
    have hback : diagonal width i (diagonal width i j) = j := diagonal_diagonal hj
    exact ⟨diagonal width i j, diagonal_lt hw i j, i, hi, by rwa [hback]⟩
  · rintro ⟨r, hr, i, hi, hflip⟩
    exact ⟨i, hi, diagonal width i r, diagonal_lt hw i r, hflip⟩

/-- The rows of a block, padded to its width. -/
theorem rows_flipped (h5 : 5 ≤ width) (h12 : width ≤ 12) (h1 : 1 ≤ parity) (h4 : parity ≤ 4)
    (hn : ∀ n ∈ nibbles, n.toNat < 16)
    (h : (Block.ofNibbles parity div width nibbles).Correctable flip) :
    (deinterleave ((Block.ofNibbles parity div width nibbles).flipped flip).symbols
      width parity).map (readNibble parity) =
      (List.range width).map fun r => (nibbles.getD r 0, hit flip parity width r) := by
  have hlength : (deinterleave ((Block.ofNibbles parity div width nibbles).flipped flip).symbols
      width parity).length = width :=
    length_deinterleave h5 h12 h1 h4 (by simp [Block.flipped, Block.ofNibbles])
  refine List.ext_getElem (by simpa using hlength) fun r hr hr' => ?_
  have hr : r < width := by simpa using hr'
  have hvalue : (nibbles.getD r 0).toNat < 16 := by
    by_cases hlt : r < nibbles.length
    · rw [List.getD_eq_getElem _ _ hlt]
      exact hn _ (List.getElem_mem hlt)
    · rw [List.getD_eq_default _ _ (by omega)]
      decide
  have hdecode := decodeNibble_flipped h5 h12 h1 h4 hr hvalue h
  rw [List.getD_eq_getElem _ _ (by omega)] at hdecode
  rw [List.getElem_map, List.getElem_map, List.getElem_range, readNibble, hdecode]
  rfl

/-- The symbols of a block are read back from its peaks. -/
theorem demap_tones {sf : ℕ} (hsf : sf ≤ 16) (hdiv : 0 < div) (hk : 2 ^ width * div = 2 ^ sf)
    (h12 : width ≤ 12) :
    (((Block.ofNibbles parity div width nibbles).flipped flip).tones sf).mapM (demap sf div) =
      some ((Block.ofNibbles parity div width nibbles).flipped flip).symbols := by
  rw [Block.tones, mapM_map (k := id), List.map_id]
  intro s hs
  obtain ⟨i, hi, rfl⟩ := List.mem_iff_getElem.mp hs
  have hi : i < 4 + parity := by simpa [Block.flipped, Block.ofNibbles] using hi
  apply demap_tone hsf hdiv hk
  have hlt : ((interleave nibbles width parity).getD i 0).toNat < 2 ^ width :=
    toNat_interleave_lt h12 hi
  rw [List.getD_eq_getElem _ _ (by simpa using hi)] at hlt
  simp only [Block.flipped, Block.ofNibbles, List.getElem_mapIdx]
  exact toNat_flipSymbol_lt hlt

end Blocks

end Phy

end OVMesh
