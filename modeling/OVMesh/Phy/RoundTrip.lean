import OVMesh.Phy.Noise

/-!
# The round trip of the symbol codec

A frame that was encoded is decoded, with further symbols behind it and with the bit errors that
the codes correct.

* `decodeBlocks_received`: the loop of the decoder over the blocks of the encoder.
* `decodeHeader_received`: the header and the number of symbols that it announces.
* `bytes_of_nibbles`: the bytes behind the header.
* `symbols_roundTrip`: the round trip.
-/

namespace OVMesh

namespace Phy

open LoraDetail

variable {c : Profile} {flip : Flips} {extra : List (BitVec 16)}

/-! ## Blocks -/

theorem Profile.div_pos (first : Bool) : 0 < c.div first := by
  unfold div
  split <;> decide

theorem Profile.two_pow_width (first : Bool) :
    2 ^ c.width first * c.div first = 2 ^ c.spreadingFactor := by
  have hbounds := c.width_bounds first
  unfold width at hbounds ⊢
  by_cases h : c.div first = 4
  · rw [if_pos h] at hbounds ⊢
    rw [h, show (4 : ℕ) = 2 ^ 2 from rfl, ← pow_add, Nat.sub_add_cancel (by omega)]
  · have h1 : c.div first = 1 := by
      unfold div at h ⊢
      split at h <;> simp_all
    rw [if_neg h, h1, Nat.sub_zero, Nat.mul_one]

theorem Profile.spreadingFactor_bounds (c : Profile) :
    7 ≤ c.spreadingFactor ∧ c.spreadingFactor ≤ 12 := by
  have h := c.supported
  unfold PhyConfig.Supported at h
  omega

theorem Profile.codingRate_bounds (c : Profile) : 5 ≤ c.codingRate ∧ c.codingRate ≤ 8 := by
  have h := c.supported
  unfold PhyConfig.Supported at h
  omega

/-- The number of symbols of some blocks. -/
def symbolCount (blocks : List Block) : ℕ := (blocks.map fun b => 4 + b.parity).sum

theorem length_tones {sf n : ℕ} (b : Block) (flip : ℕ → ℕ → Bool) (h : b.symbols.length = n) :
    ((b.flipped flip).tones sf).length = n := by
  simp [Block.tones, Block.flipped, h]

private theorem map_getD_range {α : Type} (l : List α) (d : α) {n : ℕ} (h : l.length ≤ n) :
    (List.range n).map (fun i => l.getD i d) = l ++ List.replicate (n - l.length) d := by
  refine List.ext_getElem (by simp; omega) fun i hi hi' => ?_
  rw [List.getElem_map, List.getElem_range, List.getElem_append]
  split <;> rename_i hlt
  · rw [List.getD_eq_getElem _ _ hlt]
  · rw [List.getD_eq_default _ _ (by omega), List.getElem_replicate]

/-- One turn of the loop of the decoder, at the start of a block. -/
theorem decodeBlocks_block {h : Header} {first : Bool} {pre : List (BitVec 16)}
    (rest : List (BitVec 16)) {parity : ℕ} {nibbles : List (BitVec 8)} {flip : ℕ → ℕ → Bool}
    (hfirst : first = true ↔ pre = []) (hparity : parity = if first then 4 else h.parity)
    (h1 : 1 ≤ parity) (h4 : parity ≤ 4) (hn : ∀ nib ∈ nibbles, nib.toNat < 16)
    (hmore : pre.length < h.symbols)
    (hblock : (Block.ofNibbles parity (c.div first) (c.width first) nibbles).Correctable flip) :
    let b := Block.ofNibbles parity (c.div first) (c.width first) nibbles
    let peaks := (b.flipped flip).tones c.spreadingFactor
    decodeBlocks c h (pre ++ (peaks ++ rest)) pre.length =
      (decodeBlocks c h (pre ++ peaks ++ rest) (pre ++ peaks).length).map
        (((List.range (c.width first)).map fun r =>
          (nibbles.getD r 0, hit flip parity (c.width first) r)) ++ ·) := by
  intro b peaks
  obtain ⟨h5, h12⟩ := c.width_bounds first
  have hsf := c.spreadingFactor_bounds
  have hlength : peaks.length = 4 + parity := length_tones _ _ (by simp [b, Block.ofNibbles])
  have hoffset : (pre.length == 0) = first := by
    rw [Bool.eq_iff_iff, beq_iff_eq, List.length_eq_zero_iff, hfirst]
  have htake : ((pre ++ (peaks ++ rest)).drop pre.length).take (4 + parity) = peaks := by
    rw [List.drop_left, ← hlength, List.take_left]
  have hsymbols : peaks.mapM (demap c.spreadingFactor (c.div first)) =
      some (b.flipped flip).symbols :=
    demap_tones (by omega) (Profile.div_pos first) (Profile.two_pow_width first) h12
  rw [decodeBlocks, if_pos hmore, hoffset]
  simp only []
  rw [← hparity, htake, hsymbols]
  show (decodeBlocks c h _ _ >>= fun tail => some (List.map (readNibble parity) _ ++ tail)) = _
  rw [rows_flipped h5 h12 h1 h4 hn hblock, List.append_assoc, List.length_append, hlength]
  cases decodeBlocks c h (pre ++ (peaks ++ rest)) (pre.length + (4 + parity)) <;> rfl

variable (flip extra) in
/-- The decoder reads the nibbles of the encoder, padded by the last block. -/
theorem decodeBlocks_received (h : Header) (hparity : h.parity = c.codingRate - 4) (first : Bool)
    (nibbles : List (BitVec 8)) (n : ℕ) (pre : List (BitVec 16)) (hfirst : first = true ↔ pre = [])
    (hn : ∀ nib ∈ nibbles, nib.toNat < 16)
    (hcorrectable : ∀ b ∈ (encodeBlocks c first nibbles).zipIdx n, b.1.Correctable (flip b.2))
    (hsymbols : h.symbols = pre.length + symbolCount (encodeBlocks c first nibbles)) :
    ∃ rows p, decodeBlocks c h (pre ++ (received flip c.spreadingFactor
        ((encodeBlocks c first nibbles).zipIdx n) ++ extra)) pre.length = some rows ∧
      rows.map Prod.fst = nibbles ++ List.replicate p 0 ∧
      (rows.any Prod.snd = true ↔
        ∃ b ∈ (encodeBlocks c first nibbles).zipIdx n, b.1.Hit (flip b.2)) := by
  fun_induction encodeBlocks c first nibbles generalizing n pre with
  | case1 first =>
    refine ⟨[], 0, ?_, by simp, by simp⟩
    rw [decodeBlocks, if_neg (by rw [hsymbols]; simp [symbolCount])]
  | case2 first nibbles hne parity width ih =>
    have hcr := c.codingRate_bounds
    obtain ⟨h5, h12⟩ := c.width_bounds first
    have hif : parity = if first then 4 else h.parity := by
      cases first <;> simp [parity, hparity]
    have hbounds : 1 ≤ parity ∧ parity ≤ 4 := by
      cases first <;> simp [parity]
      omega
    let b := Block.ofNibbles parity (c.div first) width (nibbles.take width)
    let peaks := (b.flipped (flip n)).tones c.spreadingFactor
    have hlength : peaks.length = 4 + parity := length_tones _ _ (by simp [b, Block.ofNibbles])
    rw [symbolCount, List.map_cons, List.sum_cons, ← symbolCount] at hsymbols
    have hcount : (4 + (Block.ofNibbles parity (c.div first) width (nibbles.take width)).parity) =
        peaks.length := hlength.symm
    rw [hcount] at hsymbols
    rw [List.zipIdx_cons] at hcorrectable ⊢
    obtain ⟨hblock, hrest⟩ := List.forall_mem_cons.mp hcorrectable
    have hstep := decodeBlocks_block (received flip c.spreadingFactor
      ((encodeBlocks c false (nibbles.drop width)).zipIdx (n + 1)) ++ extra) hfirst hif hbounds.1
      hbounds.2 (fun nib hnib => hn nib (List.mem_of_mem_take hnib)) (by omega) hblock
    obtain ⟨rows, p, hdecode, hfst, hsnd⟩ := ih (n + 1) (pre ++ peaks)
      (by
        refine ⟨fun hfalse => absurd hfalse (by decide), fun hnil => ?_⟩
        have := congrArg List.length hnil
        rw [List.length_append, hlength, List.length_nil] at this
        omega)
      (fun nib hnib => hn nib (List.mem_of_mem_drop hnib)) hrest
      (by rw [hsymbols, List.length_append, Nat.add_assoc])
    rw [received, List.flatMap_cons, ← received, List.append_assoc]
    refine ⟨_, width - (nibbles.take width).length + p, hstep.trans (by rw [hdecode]; rfl), ?_, ?_⟩
    · rw [List.map_append, hfst, List.map_map]
      have hvalues := map_getD_range (nibbles.take width) 0 (List.length_take_le width nibbles)
      show List.map (fun r => (nibbles.take width).getD r 0) _ ++ _ = _
      rw [hvalues, List.replicate_add]
      -- Only the last block is padded.
      rcases Nat.lt_or_ge width nibbles.length with hlt | hle
      · have hfull : width - (nibbles.take width).length = 0 := by
          rw [List.length_take]
          omega
        rw [hfull, List.replicate_zero, List.append_nil, List.nil_append, ← List.append_assoc,
          List.take_append_drop]
      · rw [List.drop_eq_nil_of_le hle, List.nil_append, List.take_of_length_le hle,
          List.append_assoc]
    · rw [List.any_append, Bool.or_eq_true, hsnd, List.exists_mem_cons_iff, List.any_map]
      refine or_congr ?_ Iff.rfl
      rw [hit_iff (by omega)]
      simp only [List.any_eq_true, List.mem_range, Function.comp_def]
      exact Iff.rfl

/-! ## Headers -/

private theorem join_nibbles (n : ℕ) : n >>> 4 <<< 4 ||| n &&& 15 = n := by
  have hlow : n &&& 15 = n % 2 ^ 4 := Nat.and_two_pow_sub_one_eq_mod n 4
  rw [hlow, Nat.shiftRight_eq_div_pow, Nat.shiftLeft_eq, Nat.mul_comm,
    ← Nat.two_pow_add_eq_or_of_lt (Nat.mod_lt _ (by decide)), Nat.div_add_mod]

theorem frameNibbles_lt {payload : List (BitVec 8)} (h255 : payload.length ≤ 255) :
    ∀ nib ∈ frameNibbles payload c.codingRate, nib.toNat < 16 := by
  have hcr := c.codingRate_bounds
  have hlow : ∀ b : BitVec 8, (b &&& 15).toNat < 16 := by decide
  have hhigh : ∀ b : BitVec 8, (b >>> 4).toNat < 16 := by decide
  have hflags : (BitVec.ofNat 8 ((c.codingRate - 4) <<< 1 ||| 1)).toNat < 16 := by
    generalize c.codingRate = cr at hcr
    obtain ⟨h5, h8⟩ := hcr
    interval_cases cr <;> decide
  have hlength : (BitVec.ofNat 8 (payload.length >>> 4)).toNat < 16 := by
    rw [BitVec.toNat_ofNat, Nat.shiftRight_eq_div_pow]
    omega
  have hrest : (BitVec.ofNat 8 (payload.length &&& 15)).toNat < 16 := by
    have := Nat.and_le_right (n := payload.length) (m := 15)
    rw [BitVec.toNat_ofNat]
    omega
  intro nib hnib
  simp only [frameNibbles, List.mem_append, List.mem_cons, List.not_mem_nil, or_false,
    List.mem_flatMap, splitByte] at hnib
  rcases hnib with (rfl | rfl | rfl | rfl | rfl) | ⟨b, -, rfl | rfl⟩
  · exact hlength
  · exact hrest
  · exact hflags
  · exact hhigh _
  · exact hlow _
  · exact hlow _
  · exact hhigh _

@[simp] theorem length_frameNibbles (payload : List (BitVec 8)) (codingRate : ℕ) :
    (frameNibbles payload codingRate).length = 5 + 2 * (payload.length + 2) := by
  have hsplit : ∀ bytes : List (BitVec 8), (bytes.flatMap splitByte).length = 2 * bytes.length := by
    intro bytes
    induction bytes with
    | nil => rfl
    | cons b bytes ih =>
      rw [List.flatMap_cons, List.length_append, ih, splitByte, List.length_cons]
      simp
      omega
  simp only [frameNibbles, List.length_append, hsplit, length_whiten, List.length_cons,
    List.length_nil]

/-- The symbols behind the header. -/
theorem symbolCount_encodeBlocks (nibbles : List (BitVec 8)) :
    symbolCount (encodeBlocks c false nibbles) =
      (nibbles.length + c.width false - 1) / c.width false * (4 + (c.codingRate - 4)) := by
  generalize hfirst : false = first
  have hw := c.width_bounds false
  fun_induction encodeBlocks c first nibbles with
  | case1 first =>
    subst hfirst
    have : (0 + c.width false - 1) / c.width false = 0 := Nat.div_eq_of_lt (by omega)
    rw [List.length_nil, this]
    simp [symbolCount]
  | case2 first nibbles hne parity width ih =>
    subst hfirst
    have hpos := List.length_pos_iff.mpr hne
    have hdrop : (nibbles.length - width + width - 1) / width = (nibbles.length - 1) / width := by
      rcases Nat.lt_or_ge nibbles.length width with hlt | hle
      · rw [Nat.div_eq_of_lt (by omega), Nat.div_eq_of_lt (by omega)]
      · rw [Nat.sub_add_cancel hle]
    have hadd : (nibbles.length + width - 1) / width = (nibbles.length - 1) / width + 1 := by
      rw [show nibbles.length + width - 1 = nibbles.length - 1 + width by omega,
        Nat.add_div_right _ (by omega)]
    rw [symbolCount, List.map_cons, List.sum_cons, ← symbolCount, ih rfl, List.length_drop, hadd]
    show 4 + (c.codingRate - 4) + (_ - width + width - 1) / width * _ = _
    rw [hdrop, Nat.succ_mul, Nat.add_comm]

/-- The header of a frame of the encoder. -/
def frameHeader (c : Profile) (payload : List (BitVec 8)) (corrected : Bool) : Header where
  length := payload.length
  parity := c.codingRate - 4
  symbols := symbolCount (frameBlocks payload c)
  crc := true
  corrected := corrected

/-- The first block carries the header, at the reduced rate. -/
theorem frameBlocks_eq (payload : List (BitVec 8)) :
    frameBlocks payload c =
      Block.ofNibbles 4 4 (c.spreadingFactor - 2)
          ((frameNibbles payload c.codingRate).take (c.spreadingFactor - 2)) ::
        encodeBlocks c false ((frameNibbles payload c.codingRate).drop (c.spreadingFactor - 2)) := by
  have hne : frameNibbles payload c.codingRate ≠ [] := by
    intro hnil
    have := congrArg List.length hnil
    simp at this
  rw [frameBlocks, encodeBlocks, dif_neg hne]
  rfl

/-- The decoder computes the number of symbols of the encoder. -/
theorem symbolCount_frameBlocks {payload : List (BitVec 8)} :
    symbolCount (frameBlocks payload c) =
      8 + (2 * (payload.length + 2) - (c.spreadingFactor - 7) + c.width false - 1) /
        c.width false * (4 + (c.codingRate - 4)) := by
  have hsf := c.spreadingFactor_bounds
  rw [frameBlocks_eq, symbolCount, List.map_cons, List.sum_cons, ← symbolCount,
    symbolCount_encodeBlocks, List.length_drop, length_frameNibbles,
    show 5 + 2 * (payload.length + 2) - (c.spreadingFactor - 2) =
      2 * (payload.length + 2) - (c.spreadingFactor - 7) by omega]
  rfl

private theorem take_getD {α : Type} (l : List α) (d : α) {n : ℕ} (h : n ≤ l.length) :
    l.take n = (List.range n).map fun i => l.getD i d := by
  refine List.ext_getElem (by simpa using h) fun i hi hi' => ?_
  have hlt : i < l.length := by
    rw [List.length_take] at hi
    omega
  simp [hlt]

/-- The fields of the header of a frame. -/
theorem headerFields_frame {payload : List (BitVec 8)} (h0 : payload ≠ [])
    (h255 : payload.length ≤ 255) (corrected : Bool) (nib : ℕ → BitVec 8)
    (hnib : ∀ r < 5, nib r = (frameNibbles payload c.codingRate).getD r 0) :
    headerFields c.spreadingFactor c.bandwidthHz nib corrected =
      some (frameHeader c payload corrected) := by
  have hsf := c.spreadingFactor_bounds
  have hpos := List.length_pos_iff.mpr h0
  obtain ⟨flags, hflags, hparity, hcrc⟩ : ∃ flags : BitVec 8,
      flags = BitVec.ofNat 8 ((c.codingRate - 4) <<< 1 ||| 1) ∧
        flags.toNat >>> 1 = c.codingRate - 4 ∧ (flags &&& 1 != 0) = true := by
    have hcr := c.codingRate_bounds
    generalize c.codingRate = cr at hcr
    obtain ⟨h5, h8⟩ := hcr
    interval_cases cr <;> exact ⟨_, rfl, by decide, by decide⟩
  -- The five nibbles: the length in two, the flags, and the checksum in two.
  have hlength : (nib 0).toNat <<< 4 ||| (nib 1).toNat = payload.length := by
    have hhigh : payload.length >>> 4 < 256 := by
      rw [Nat.shiftRight_eq_div_pow]
      omega
    have hlow : payload.length &&& 15 < 256 := by
      have := Nat.and_le_right (n := payload.length) (m := 15)
      omega
    rw [hnib 0 (by decide), hnib 1 (by decide)]
    show (BitVec.ofNat 8 (payload.length >>> 4)).toNat <<< 4 |||
      (BitVec.ofNat 8 (payload.length &&& 15)).toNat = _
    rw [BitVec.toNat_ofNat, BitVec.toNat_ofNat, Nat.mod_eq_of_lt hhigh, Nat.mod_eq_of_lt hlow,
      join_nibbles]
  have hnib2 : nib 2 = flags := by rw [hnib 2 (by decide), hflags]; rfl
  have hnib3 : nib 3 = headerChecksum (BitVec.ofNat 8 payload.length) flags >>> 4 := by
    rw [hnib 3 (by decide), hflags, frameNibbles]
    rfl
  have hnib4 : nib 4 = headerChecksum (BitVec.ofNat 8 payload.length) flags &&& 15 := by
    rw [hnib 4 (by decide), hflags, frameNibbles]
    rfl
  have hcheck : (nib 3).toNat <<< 4 ||| (nib 4).toNat =
      (headerChecksum (BitVec.ofNat 8 payload.length) flags).toNat := by
    rw [hnib3, hnib4, BitVec.toNat_ushiftRight, BitVec.toNat_and]
    exact join_nibbles _
  have hcrcs := c.codingRate_bounds
  have hwidth : c.spreadingFactor - (if ldro c.spreadingFactor c.bandwidthHz then 2 else 0) =
      c.width false := by
    by_cases h : ldro c.spreadingFactor c.bandwidthHz <;> simp [Profile.width, Profile.div, h]
  have hvalid : ¬ (payload.length = 0 ∨ c.codingRate - 4 < 1 ∨ c.codingRate - 4 > 4 ∨
      (headerChecksum (BitVec.ofNat 8 payload.length) flags).toNat ≠
        (headerChecksum (BitVec.ofNat 8 payload.length) flags).toNat) := by
    rintro (h | h | h | h)
    · omega
    · omega
    · omega
    · exact h rfl
  unfold headerFields
  rw [hlength, hnib2, hparity, hcrc, hcheck, hwidth, if_neg hvalid]
  simp only [if_true]
  rw [if_pos (by omega), frameHeader, symbolCount_frameBlocks]

variable (flip extra) in
/-- The header is decoded, with at most one flipped bit in each of its codewords. -/
theorem decodeHeader_received {payload : List (BitVec 8)} (h0 : payload ≠ [])
    (h255 : payload.length ≤ 255)
    (hcorrectable : ∀ b ∈ (frameBlocks payload c).zipIdx, b.1.Correctable (flip b.2)) :
    decodeHeader (received flip c.spreadingFactor (frameBlocks payload c).zipIdx ++ extra)
      c.spreadingFactor c.bandwidthHz =
      some (frameHeader c payload
        ((List.range 5).any (hit (flip 0) 4 (c.spreadingFactor - 2)))) := by
  have hsf := c.spreadingFactor_bounds
  have hcr := c.codingRate_bounds
  have hbandwidth : c.bandwidthHz ≠ 0 := by
    have h := c.supported
    unfold PhyConfig.Supported supportedLoraBandwidth at h
    omega
  rw [frameBlocks_eq, List.zipIdx_cons] at hcorrectable ⊢
  obtain ⟨hblock, -⟩ := List.forall_mem_cons.mp hcorrectable
  let nibbles := frameNibbles payload c.codingRate
  let b := Block.ofNibbles 4 4 (c.spreadingFactor - 2) (nibbles.take (c.spreadingFactor - 2))
  let peaks := (b.flipped (flip 0)).tones c.spreadingFactor
  have hlength : peaks.length = 8 := length_tones _ _ (by simp [b, Block.ofNibbles])
  rw [received, List.flatMap_cons, List.append_assoc, ← received]
  have htake : ∀ rest, (peaks ++ rest).take 8 = peaks := fun rest => by
    rw [← hlength, List.take_left]
  have hdemap : peaks.mapM (demap c.spreadingFactor 4) = some (b.flipped (flip 0)).symbols := by
    refine demap_tones (by omega) (by decide) ?_ (by omega)
    rw [show (4 : ℕ) = 2 ^ 2 from rfl, ← pow_add, Nat.sub_add_cancel (by omega)]
  -- The five codewords of the header.
  have hrow : ∀ r ∈ List.range 5, validNibble ((deinterleave (b.flipped (flip 0)).symbols
      (c.spreadingFactor - 2) 4).getD r 0) = some { 
        value := nibbles.getD r 0, corrected := hit (flip 0) 4 (c.spreadingFactor - 2) r } := by
    intro r hr
    have hr5 := List.mem_range.mp hr
    have hvalue : (nibbles.take (c.spreadingFactor - 2)).getD r 0 = nibbles.getD r 0 := by
      rw [List.getD_eq_getElem?_getD, List.getElem?_take_of_lt (by omega),
        List.getD_eq_getElem?_getD]
    have hlt : (nibbles.getD r 0).toNat < 16 := by
      rw [List.getD_eq_getElem _ _ (by simp [nibbles]; omega)]
      exact frameNibbles_lt h255 _ (List.getElem_mem _)
    have hdecode := decodeNibble_flipped (r := r) (by omega) (by omega) (by decide) (by decide)
      (by omega) (by rwa [hvalue]) hblock
    rw [hvalue] at hdecode
    rw [validNibble, hdecode]
    rfl
  have hnibs : ((deinterleave (b.flipped (flip 0)).symbols (c.spreadingFactor - 2) 4).take 5).mapM
      validNibble = some ((List.range 5).map fun r => { 
        value := nibbles.getD r 0, corrected := hit (flip 0) 4 (c.spreadingFactor - 2) r }) := by
    rw [take_getD _ 0 (by
      rw [length_deinterleave (by omega) (by omega) (by decide) (by decide)
        (by simp [b, Block.flipped, Block.ofNibbles])]
      omega)]
    exact mapM_map hrow
  have hlong : ¬ (c.spreadingFactor < 7 ∨ c.spreadingFactor > 12 ∨
      (peaks ++ (received flip c.spreadingFactor ((encodeBlocks c false
        (nibbles.drop (c.spreadingFactor - 2))).zipIdx 1) ++ extra)).length < 8 ∨
      c.bandwidthHz = 0) := by
    rw [List.length_append, hlength]
    omega
  rw [decodeHeader, if_neg hlong, htake, hdemap, Option.bind_eq_bind, Option.bind_some, hnibs,
    Option.bind_eq_bind, Option.bind_some, List.any_map]
  have hfields := headerFields_frame (c := c) h0 h255
    ((List.range 5).any (hit (flip 0) 4 (c.spreadingFactor - 2)))
    (fun i => (((List.range 5).map fun r => ({
        value := nibbles.getD r 0, corrected := hit (flip 0) 4 (c.spreadingFactor - 2) r } :
        Nibble)).getD i {}).value) ?_
  · exact hfields
  · intro r hr
    simp [hr]
    rfl

/-! ## Bytes -/

private theorem join_byte : ∀ b : BitVec 8, b &&& 15 ||| (b >>> 4) <<< 4 = b := by
  decide

/-- The bytes of a list of nibbles. -/
theorem bytes_of_nibbles (bytes rest : List (BitVec 8)) :
    ((List.range bytes.length).map fun i =>
      (bytes.flatMap splitByte ++ rest).getD (2 * i) 0 |||
        (bytes.flatMap splitByte ++ rest).getD (2 * i + 1) 0 <<< 4) = bytes := by
  induction bytes with
  | nil => rfl
  | cons b bytes ih =>
    rw [List.length_cons, List.range_succ_eq_map, List.map_cons, List.map_map]
    congr 1
    · exact join_byte b

theorem join_crc (crc : BitVec 16) :
    (crc.setWidth 8).setWidth 16 ||| ((crc >>> 8).setWidth 8).setWidth 16 <<< 8 = crc := by
  apply BitVec.eq_of_getLsbD_eq
  intro k hk
  rw [BitVec.getLsbD_or, BitVec.getLsbD_shiftLeft]
  simp only [BitVec.getLsbD_setWidth, BitVec.getLsbD_ushiftRight]
  by_cases h : k < 8
  · simp [h, hk]
  · simp [h, hk, show 8 + (k - 8) = k by omega, show k - 8 < 16 by omega, show k - 8 < 8 by omega]

/-! ## Frames -/

/-- The frame that the decoder returns. -/
def frameOf (payload : List (BitVec 8)) (codingRate : ℕ) (fecCorrected : Bool) : PhyFrame where
  bytes := payload
  headerValid := true
  payloadCrcValid := true
  payloadCrcPresent := true
  fecCorrected := fecCorrected
  codingRate := codingRate

theorem length_received {blocks : List (Block × ℕ)}
    (h : ∀ b ∈ blocks, b.1.symbols.length = 4 + b.1.parity) :
    (received flip c.spreadingFactor blocks).length = symbolCount (blocks.map Prod.fst) := by
  induction blocks with
  | nil => rfl
  | cons b blocks ih =>
    obtain ⟨hb, hblocks⟩ := List.forall_mem_cons.mp h
    rw [received, List.flatMap_cons, List.length_append, ← received, ih hblocks,
      length_tones _ _ hb]
    rfl

theorem length_symbols {first : Bool} {nibbles : List (BitVec 8)} :
    ∀ b ∈ encodeBlocks c first nibbles, b.symbols.length = 4 + b.parity := by
  fun_induction encodeBlocks c first nibbles with
  | case1 first => exact fun b hb => absurd hb List.not_mem_nil
  | case2 first nibbles hne parity width ih =>
    exact List.forall_mem_cons.mpr ⟨length_interleave _, ih⟩

/-- The frame of the decoded rows. -/
theorem assemble_frame {payload : List (BitVec 8)} {rows : List (BitVec 8 × Bool)} {p : ℕ}
    {corrected : Bool} (h2 : 2 ≤ payload.length)
    (hrows : rows.map Prod.fst = frameNibbles payload c.codingRate ++ List.replicate p 0) :
    assemble (frameHeader c payload corrected) rows =
      some (frameOf payload c.codingRate (corrected || rows.any Prod.snd)) := by
  have hcr := c.codingRate_bounds
  let crc := payloadCrc payload
  let bytes := whiten payload ++ [crc.setWidth 8, (crc >>> 8).setWidth 8]
  have hlength : bytes.length = payload.length + 2 := by simp [bytes]
  obtain ⟨header, hheader, hnibbles⟩ : ∃ header : List (BitVec 8), header.length = 5 ∧
      frameNibbles payload c.codingRate = header ++ bytes.flatMap splitByte := ⟨_, rfl, rfl⟩
  -- Behind the five nibbles of the header.
  have hget : ∀ i, (rows.map Prod.fst).getD (5 + i) 0 =
      (bytes.flatMap splitByte ++ List.replicate p 0).getD i 0 := by
    intro i
    rw [hrows, hnibbles, List.append_assoc, ← hheader, List.getD_append_right _ _ _ _ (by omega),
      Nat.add_sub_cancel_left]
  have hbytes : ((List.range (payload.length + 2)).map fun i =>
      (rows.map Prod.fst).getD (5 + 2 * i) 0 ||| (rows.map Prod.fst).getD (6 + 2 * i) 0 <<< 4) =
      bytes := by
    rw [← hlength]
    refine Eq.trans (List.map_congr_left fun i _ => ?_)
      (bytes_of_nibbles bytes (List.replicate p 0))
    rw [hget, show 6 + 2 * i = 5 + (2 * i + 1) by omega, hget]
  have hlong : ¬ (rows.map Prod.fst).length < 5 + 2 * (payload.length + 2) := by
    rw [hrows, List.length_append, length_frameNibbles]
    omega
  have hfirst : bytes.getD payload.length 0 = crc.setWidth 8 := by
    simp [bytes]
  have hsecond : bytes.getD (payload.length + 1) 0 = (crc >>> 8).setWidth 8 := by
    simp [bytes]
  have htake : bytes.take payload.length = whiten payload := by
    rw [← length_whiten payload, List.take_left]
  unfold assemble frameHeader frameOf
  simp only [if_true]
  rw [if_neg hlong, hbytes, htake, whiten_whiten, hfirst, hsecond, join_crc]
  simp [crc, h2]
  omega

variable (flip extra) in
/-- The frame is decoded, with the errors that the codes correct. -/
theorem decode_received {payload : List (BitVec 8)} (h2 : 2 ≤ payload.length)
    (h255 : payload.length ≤ 255)
    (hcorrectable : ∀ b ∈ (frameBlocks payload c).zipIdx, b.1.Correctable (flip b.2)) :
    ∃ corrected, decodeFrame (received flip c.spreadingFactor
        (frameBlocks payload c).zipIdx ++ extra) c =
          some (frameOf payload c.codingRate corrected) ∧
      (corrected = true ↔ ∃ b ∈ (frameBlocks payload c).zipIdx, b.1.Hit (flip b.2)) := by
  have hne : payload ≠ [] := by
    rintro rfl
    simp at h2
  have hsf := c.spreadingFactor_bounds
  have hheader := decodeHeader_received flip extra hne h255 hcorrectable
  generalize hcorrected : (List.range 5).any (hit (flip 0) 4 (c.spreadingFactor - 2)) = corrected
    at hheader
  obtain ⟨rows, p, hrows, hfst, hsnd⟩ := decodeBlocks_received (c := c) flip extra
    (frameHeader c payload corrected) rfl true
    (frameNibbles payload c.codingRate) 0 [] (by simp) (frameNibbles_lt h255) hcorrectable
    (by simp [frameHeader, frameBlocks])
  have hlong : ¬ (received flip c.spreadingFactor (frameBlocks payload c).zipIdx ++
      extra).length < (frameHeader c payload corrected).symbols := by
    rw [List.length_append, length_received, List.zipIdx_map_fst]
    · show ¬ _ + _ < symbolCount _
      omega
    · rintro ⟨b, n⟩ hb
      exact length_symbols b (List.fst_mem_of_mem_zipIdx hb)
  refine ⟨corrected || rows.any Prod.snd, ?_, ?_⟩
  · rw [decodeFrame, hheader, Option.bind_eq_bind, Option.bind_some, if_neg hlong]
    have hblocks : decodeBlocks c (frameHeader c payload corrected)
        (received flip c.spreadingFactor (frameBlocks payload c).zipIdx ++ extra) 0 = some rows :=
      hrows
    rw [hblocks]
    exact assemble_frame h2 hfst
  · rw [Bool.or_eq_true, hsnd]
    refine ⟨fun h => h.elim (fun hheader => ?_) id, Or.inr⟩
    rw [← hcorrected, List.any_eq_true] at hheader
    obtain ⟨r, hr, hhit⟩ := hheader
    have hr5 := List.mem_range.mp hr
    rw [frameBlocks_eq, List.zipIdx_cons]
    refine ⟨_, List.mem_cons_self, (hit_iff (by omega)).mpr ⟨r, by omega, hhit⟩⟩

theorem received_none (blocks : List Block) (n : ℕ) {sf : ℕ} :
    received (fun _ _ _ => false) sf (blocks.zipIdx n) = blocks.flatMap (Block.tones sf) := by
  have hsymbol : ∀ width s, flipSymbol width (fun _ => false) s = s := by
    intro width s
    have hzero : (BitVec.ofFnLE fun k : Fin 16 => decide (k.val < width) && false) = 0#16 := by
      simp only [Bool.and_false]
      rfl
    rw [flipSymbol, hzero, BitVec.xor_zero]
  induction blocks generalizing n with
  | nil => rfl
  | cons b blocks ih =>
    have htones : (b.flipped fun _ _ => false).tones sf = b.tones sf := by
      simp only [Block.flipped, hsymbol]
      simp [Block.tones, List.mapIdx_eq_zipIdx_map]
    rw [List.zipIdx_cons, List.flatMap_cons, ← ih (n + 1), ← htones]
    rfl

/-- **The symbol codec round trip.** A frame of 2 to 255 bytes is decoded from the symbols of the
encoder and from the symbols with at most one flipped bit in each codeword of the blocks whose code
corrects it. The correction is reported when a bit of a transmitted codeword was flipped. -/
theorem symbols_roundTrip {payload : List (BitVec 8)} {c : PhyConfig} (h2 : 2 ≤ payload.length)
    (h255 : payload.length ≤ 255) (hc : c.Supported) :
    let blocks := (frameBlocks payload ⟨c, hc⟩).zipIdx
    let symbols := received (fun _ _ _ => false) c.spreadingFactor blocks
    encodeLoraSymbols payload c = .ok symbols ∧
    (∀ extra, decodeLoraSymbols (symbols ++ extra) c =
      .ok (some (frameOf payload c.codingRate false))) ∧
    ∀ (flip : Flips) (extra : List (BitVec 16)), (∀ b ∈ blocks, b.1.Correctable (flip b.2)) →
      ∃ corrected, decodeLoraSymbols (received flip c.spreadingFactor blocks ++ extra) c =
          .ok (some (frameOf payload c.codingRate corrected)) ∧
        (corrected = true ↔ ∃ b ∈ blocks, b.1.Hit (flip b.2)) := by
  intro blocks symbols
  have hvalidate : validate c = .ok ⟨c, hc⟩ := dif_pos hc
  have hdecode : ∀ bins, decodeLoraSymbols bins c = .ok (decodeFrame bins ⟨c, hc⟩) := by
    intro bins
    rw [decodeLoraSymbols, hvalidate]
    rfl
  have hnone : ∀ b : Block, ¬ b.Hit fun _ _ => false := by
    rintro b ⟨i, -, j, -, h⟩
    cases h
  refine ⟨?_, fun extra => ?_, fun flip extra hcorrectable => ?_⟩
  · rw [encodeLoraSymbols, hvalidate, show symbols = _ from received_none _ 0]
    show (if payload.length < 2 ∨ payload.length > 255 then _ else _) = _
    rw [if_neg (by omega)]
    rfl
  · obtain ⟨corrected, hframe, hhit⟩ := decode_received (c := ⟨c, hc⟩)
      (fun _ _ _ => false) extra h2 h255 fun b _ =>
        ⟨fun i _ j _ i' _ j' _ h => Bool.noConfusion h, fun _ => hnone b.1⟩
    have hfalse : corrected = false := by
      rw [Bool.eq_false_iff]
      intro h
      obtain ⟨b, -, hb⟩ := hhit.mp h
      exact hnone b.1 hb
    rw [hdecode, hframe, hfalse]
  · obtain ⟨corrected, hframe, hhit⟩ := decode_received (c := ⟨c, hc⟩) flip extra h2 h255
      hcorrectable
    exact ⟨corrected, by rw [hdecode, hframe], hhit⟩

/-- A single flipped bit, in the header of a frame of rate 4/5. -/
theorem header_bit_corrected :
    let c : PhyConfig := { bandwidthHz := 250000, spreadingFactor := 11, codingRate := 5 }
    let flip : Flips := fun b i j => b == 0 && i == 0 && j == 0
    let blocks := (frameBlocks [0x48, 0x69] ⟨c, by decide⟩).zipIdx
    ∃ corrected, decodeLoraSymbols (received flip 11 blocks ++ []) c =
      .ok (some (frameOf [0x48, 0x69] 5 corrected)) := by
  intro c flip blocks
  have hcorrectable : ∀ b ∈ blocks, b.1.Correctable (flip b.2) := by
    have honce : ∀ (b : Block) (n : ℕ), b.Once (flip n) := by
      rintro b n i - j - i' - j' - h h' -
      simp only [flip, Bool.and_eq_true, beq_iff_eq] at h h'
      omega
    show ∀ b ∈ (frameBlocks _ _).zipIdx, _
    rw [frameBlocks_eq, List.zipIdx_cons]
    refine List.forall_mem_cons.mpr ⟨⟨honce _ _, fun h => absurd h (by decide)⟩, ?_⟩
    rintro ⟨b, n⟩ hb
    refine ⟨honce _ _, ?_⟩
    rintro - ⟨i, -, j, -, h⟩
    have hn := List.le_snd_of_mem_zipIdx hb
    simp only [flip, Bool.and_eq_true, beq_iff_eq] at h
    omega
  obtain ⟨corrected, h, -⟩ := (@symbols_roundTrip [0x48, 0x69] c (by decide) (by decide)
    (by decide)).2.2 flip [] hcorrectable
  exact ⟨corrected, h⟩

end Phy

end OVMesh
