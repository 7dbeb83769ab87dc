import OVMesh.Engine.Config
import OVMesh.Phy.LoraDetail

/-!
# The symbol codec

`decode_lora_symbols` and `encode_lora_symbols` of `phy_codec.cpp`. A peak is an unshifted
dechirped FFT bin below `2 ^ SF`.

* `Profile`: a configuration that `validate` accepts.
* `decodeLoraSymbols`, `encodeLoraSymbols`: the codec.
* `Block`: the symbols of one interleaver block, before the Gray mapping.
-/

namespace OVMesh

namespace Phy

open LoraDetail

/-- `PhyConfig`: the parameters of a transmission. -/
structure PhyConfig where
  bandwidthHz : ℕ
  spreadingFactor : ℕ
  codingRate : ℕ

/-- A frame, without its place in the sample stream. -/
structure PhyFrame where
  bytes : List (BitVec 8)
  headerValid : Bool
  payloadCrcValid : Bool
  payloadCrcPresent : Bool
  fecCorrected : Bool
  codingRate : ℕ
  deriving DecidableEq

/-- The parameters that the receiver decodes. -/
def PhyConfig.Supported (c : PhyConfig) : Prop :=
  ¬ (c.spreadingFactor < 7 ∨ c.spreadingFactor > 12 ∨ c.codingRate < 5 ∨ c.codingRate > 8 ∨
    ¬ supportedLoraBandwidth c.bandwidthHz)

instance (c : PhyConfig) : Decidable c.Supported := inferInstanceAs (Decidable (¬ _))

/-- A supported LoRa profile. -/
structure Profile extends PhyConfig where
  supported : toPhyConfig.Supported

/-- `validate`: parameters that are supported become a profile, others are refused. -/
def validate (c : PhyConfig) : Except String Profile :=
  if h : c.Supported then .ok ⟨c, h⟩ else .error "Unsupported LoRa profile"

namespace Profile

variable (c : Profile)

/-- The divisor of the peaks of a block: the reduced rate carries two bits less. -/
def div (first : Bool) : ℕ :=
  if first ∨ ldro c.spreadingFactor c.bandwidthHz then 4 else 1

/-- The number of codewords of a block. -/
def width (first : Bool) : ℕ := c.spreadingFactor - if c.div first = 4 then 2 else 0

theorem width_bounds (first : Bool) : 5 ≤ c.width first ∧ c.width first ≤ 12 := by
  have h := c.supported
  unfold PhyConfig.Supported at h
  unfold width
  split <;> omega

end Profile

/-! ## Decoding -/

/-- A row of a block: an uncorrectable codeword keeps its systematic nibble. -/
def readNibble (parity : ℕ) (cw : BitVec 8) : BitVec 8 × Bool :=
  let decoded := decodeNibble cw parity
  if decoded.invalid then (reverse4 (cw >>> parity), false)
  else (decoded.value, decoded.corrected)

/-- The loop over the blocks, from a symbol on: the nibbles, and whether each was corrected. -/
def decodeBlocks (c : Profile) (h : Header) (bins : List (BitVec 16)) (offset : ℕ) :
    Option (List (BitVec 8 × Bool)) :=
  if offset < h.symbols then do
    let first := offset == 0
    let parity := if first then 4 else h.parity
    let symbols ← ((bins.drop offset).take (4 + parity)).mapM
      (demap c.spreadingFactor (c.div first))
    let rows := (deinterleave symbols (c.width first) parity).map (readNibble parity)
    let rest ← decodeBlocks c h bins (offset + (4 + parity))
    return rows ++ rest
  else some []
termination_by h.symbols - offset

/-- The end of the decoder: the bytes of the rows behind the header. -/
def assemble (h : Header) (rows : List (BitVec 8 × Bool)) : Option PhyFrame :=
  let nibbles := rows.map Prod.fst
  let count := h.length + if h.crc then 2 else 0
  if nibbles.length < 5 + 2 * count then none
  else
    let bytes := (List.range count).map fun i =>
      nibbles.getD (5 + 2 * i) 0 ||| nibbles.getD (6 + 2 * i) 0 <<< 4
    let payload := whiten (bytes.take h.length)
    let received := (bytes.getD h.length 0).setWidth 16 |||
      (bytes.getD (h.length + 1) 0).setWidth 16 <<< 8
    some {
      bytes := payload
      headerValid := true
      payloadCrcPresent := h.crc
      payloadCrcValid := h.crc ∧ h.length ≥ 2 ∧ received = payloadCrc payload
      fecCorrected := h.corrected || rows.any Prod.snd
      codingRate := 4 + h.parity }

/-- The frame of a list of symbols: its header, which says how many symbols it has, and the blocks of its
payload. -/
def decodeFrame (bins : List (BitVec 16)) (c : Profile) : Option PhyFrame := do
  let h ← decodeHeader bins c.spreadingFactor c.bandwidthHz
  if bins.length < h.symbols then none
  else
    let rows ← decodeBlocks c h bins 0
    assemble h rows

/-- `decode_lora_symbols`: the frame of the symbols, for supported parameters. -/
def decodeLoraSymbols (bins : List (BitVec 16)) (c : PhyConfig) :
    Except String (Option PhyFrame) := do
  let c ← validate c
  return decodeFrame bins c

/-! ## Encoding -/

/-- The nibbles of a byte. -/
def splitByte (b : BitVec 8) : List (BitVec 8) := [b &&& 15, b >>> 4]

/-- The nibbles of a frame: the header, the whitened payload and its checksum. -/
def frameNibbles (payload : List (BitVec 8)) (codingRate : ℕ) : List (BitVec 8) :=
  let flags : BitVec 8 := BitVec.ofNat 8 ((codingRate - 4) <<< 1 ||| 1)
  let length : BitVec 8 := BitVec.ofNat 8 payload.length
  let check := headerChecksum length flags
  let crc := payloadCrc payload
  let bytes := whiten payload ++ [crc.setWidth 8, (crc >>> 8).setWidth 8]
  [BitVec.ofNat 8 (payload.length >>> 4), BitVec.ofNat 8 (payload.length &&& 15), flags,
    check >>> 4, check &&& 15] ++ bytes.flatMap splitByte

/-- The symbols of one interleaver block. -/
structure Block where
  parity : ℕ
  div : ℕ
  width : ℕ
  symbols : List (BitVec 16)

/-- The block of some nibbles. -/
def Block.ofNibbles (parity div width : ℕ) (nibbles : List (BitVec 8)) : Block where
  parity := parity
  div := div
  width := width
  symbols := interleave nibbles width parity

/-- The loop over the nibbles. -/
def encodeBlocks (c : Profile) (first : Bool) (nibbles : List (BitVec 8)) : List Block :=
  if h : nibbles = [] then []
  else
    let parity := if first then 4 else c.codingRate - 4
    let width := c.width first
    Block.ofNibbles parity (c.div first) width (nibbles.take width) ::
      encodeBlocks c false (nibbles.drop width)
termination_by nibbles.length
decreasing_by
  have := c.width_bounds first
  have := List.length_pos_iff.mpr h
  rw [List.length_drop]
  omega

/-- The peak of a symbol: the Gray mapping, the divisor and an offset of one. -/
def tone (sf div : ℕ) (gray : BitVec 16) : BitVec 16 :=
  let binary := XorShift.doubling 4 gray
  BitVec.ofNat 16 ((binary.toNat * div + 1) % 2 ^ sf)

/-- The tones of a block, as the modulator sends them. -/
def Block.tones (sf : ℕ) (b : Block) : List (BitVec 16) := b.symbols.map (tone sf b.div)

/-- The blocks of a frame. -/
def frameBlocks (payload : List (BitVec 8)) (c : Profile) : List Block :=
  encodeBlocks c true (frameNibbles payload c.codingRate)

/-- `encode_lora_symbols`: the tones of a frame with this payload. -/
def encodeLoraSymbols (payload : List (BitVec 8)) (c : PhyConfig) :
    Except String (List (BitVec 16)) := do
  let c ← validate c
  if payload.length < 2 ∨ payload.length > 255 then
    throw "LoRa fixture payload length must be 2..255"
  return (frameBlocks payload c).flatMap (Block.tones c.spreadingFactor)

end Phy

end OVMesh
