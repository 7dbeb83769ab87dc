import OVMesh.Engine.Config

/-!
# Envelopes

The keys, profiles and envelopes of `protocol.cpp`, with `WireReader` of `protobuf_guard.hpp`. The
cipher of libcrypto and the decoder of the generated `Data` message are parameters.

* `ChannelKey`, `Profile`: a keyring, and the structural checks of a profile.
* `WireReader.varint`, `WireReader.next`, `hasWireField`: the fields of a message.
* `parseData`: the bounded envelope of a plaintext.
* `crypt`: the AES-CTR of a frame.
-/

namespace OVMesh

namespace Protocol

/-! ## Keyrings -/

/-- The bytes of a key, of which at most 32 are held. -/
structure ChannelKey where
  bytes : List UInt8
  length_le : bytes.length ≤ 32
  deriving DecidableEq

/-- `Profile`: a name and the keys that a frame is tried with. -/
structure Profile where
  id : Text
  label : Text
  channelName : Text
  keys : List ChannelKey
  restrictChannelName : Bool := true
  deriving DecidableEq

/-- `max_keyring_profiles`: the largest key ring. -/
def maxKeyringProfiles : ℕ := 17

/-- `max_profile_keys`: the keys of a profile. -/
def maxProfileKeys : ℕ := 16

/-- The size of an AES key. -/
def ChannelKey.Sized (key : ChannelKey) : Prop := key.bytes.length = 16 ∨ key.bytes.length = 32

instance (key : ChannelKey) : Decidable key.Sized := inferInstanceAs (Decidable (_ ∨ _))

/-- The checks of one profile before any key is tried. -/
def Profile.Valid (p : Profile) : Prop :=
  ¬ ((p.restrictChannelName = true ∧ p.channelName = []) ∨ p.channelName.length > 32 ∨ p.id = [] ∨
    p.id.length > 128 ∨ p.keys.length > maxProfileKeys) ∧ p.keys.all (·.Sized) = true

instance (p : Profile) : Decidable p.Valid := inferInstanceAs (Decidable (_ ∧ _))

/-- `channel_hash`: the exclusive or of the name and the key. -/
def channelHash (name : Text) (key : ChannelKey) : UInt8 :=
  key.bytes.foldl (· ^^^ ·) (name.foldl (· ^^^ ·) 0)

/-! ## Wire format -/

namespace WireReader

/-- `Field`: a field of an encoded message, with its number or its bytes. -/
structure Field where
  tag : ℕ
  wire : ℕ
  value : ℕ := 0
  bytes : List UInt8 := []

/-- The loop of `varint` from its byte `i` on. -/
def varintFrom (i value : ℕ) : List UInt8 → Option (ℕ × List UInt8)
  | [] => none
  | byte :: rest =>
    if i ≥ 10 ∨ (i = 9 ∧ byte > 1) then none
    else
      let value := value + byte.toNat % 128 * 2 ^ (7 * i)
      if byte.toNat < 128 then if i = 0 ∨ byte ≠ 0 then some (value, rest) else none
      else varintFrom (i + 1) value rest

/-- `varint`: the value and the bytes behind it. -/
def varint : List UInt8 → Option (ℕ × List UInt8) := varintFrom 0 0

/-- The bytes of a fixed field, little-endian. -/
def fixed (bytes : List UInt8) : ℕ := bytes.foldr (fun b n => b.toNat + 256 * n) 0

/-- `next`: a field and the bytes behind it, and `none` at the end or where it fails. -/
def next (input : List UInt8) : Option (Field × List UInt8) := do
  let (tag, rest) ← varint input
  if tag > 0xffffffff ∨ tag / 8 = 0 then none
  else
    let field : Field := { tag := tag / 8, wire := tag % 8 }
    match field.wire with
    | 0 =>
      let (value, rest) ← varint rest
      some ({ field with value }, rest)
    | 1 =>
      if rest.length < 8 then none
      else some ({ field with value := fixed (rest.take 8) }, rest.drop 8)
    | 5 =>
      if rest.length < 4 then none
      else some ({ field with value := fixed (rest.take 4) }, rest.drop 4)
    | 2 =>
      let (count, rest) ← varint rest
      if count > rest.length then none
      else some ({ field with bytes := rest.take count }, rest.drop count)
    | _ => none

end WireReader

/-- The loop of `has_wire_field`. Every turn consumes a byte. -/
def hasWireFieldFrom (tag : ℕ) : ℕ → List UInt8 → Bool
  | 0, _ => false
  | turns + 1, input =>
    match WireReader.next input with
    | none => false
    | some (field, rest) => field.tag == tag || hasWireFieldFrom tag turns rest

/-- `has_wire_field`: the message has a field with this tag. -/
def hasWireField (bytes : List UInt8) (tag : ℕ) : Bool := hasWireFieldFrom tag bytes.length bytes

/-! ## Envelopes -/

/-- `EnvelopeEvidence`: what is kept of a decrypted envelope. -/
structure EnvelopeEvidence where
  port : ℕ
  signaturePresent : Bool
  deriving DecidableEq

/-- The fields of the generated `Data` message that are read, the port as a `uint32_t`. -/
structure Data where
  portnum : ℕ
  payloadSize : ℕ
  signatureSize : ℕ

/-- What `protocol.cpp` calls: AES-CTR of libcrypto under a key and a nonce, and `decode_message`
of the generated `Data` message. -/
structure Library where
  aesCtr : List UInt8 → List UInt8 → List UInt8 → Option (List UInt8)
  decodeData : List UInt8 → Option Data

/-- The cipher does not fail. -/
def Library.Total (library : Library) : Prop :=
  ∀ key nonce input, key.length = 16 ∨ key.length = 32 →
    ∃ output, library.aesCtr key nonce input = some output ∧ output.length = input.length

/-- `meshtastic_PortNum_TRACEROUTE_APP`: the port of a traceroute. -/
def tracerouteApp : ℕ := 70

/-- `parse_data`: the evidence of a decrypted message, when its port and its sizes are in range. -/
def parseData (library : Library) (bytes : List UInt8) : Option EnvelopeEvidence := do
  let value ← library.decodeData bytes
  let port := value.portnum
  if port = 0 ∨ port > 65535 ∨ value.payloadSize > 233 ∨
      (value.signatureSize ≠ 0 ∧ value.signatureSize ≠ 64) then none
  else if hasWireField bytes 2 = false ∧ port ≠ tracerouteApp then none
  else some { port, signaturePresent := value.signatureSize ≠ 0 }

/-- `recognized_port`: text, position, node information, routing, telemetry and traceroute. -/
def recognizedPort (port : ℕ) : Bool := [1, 3, 4, 5, 67, tracerouteApp].contains port

theorem parseData_port {library : Library} {bytes : List UInt8} {evidence : EnvelopeEvidence}
    (h : parseData library bytes = some evidence) : 0 < evidence.port ∧ evidence.port ≤ 65535 := by
  obtain ⟨value, -, h⟩ := Option.bind_eq_some_iff.mp h
  simp only at h
  split at h
  · cases h
  · rename_i hbad
    split at h
    · cases h
    · cases h
      simp only
      omega

/-! ## Frames -/

/-- `max_frame`: the longest frame. -/
def maxFrame : ℕ := 255

/-- `le32` of the bytes from an index on. -/
def le32 (frame : List UInt8) (i : ℕ) : ℕ := WireReader.fixed ((frame.drop i).take 4)

/-- `put32`: the four bytes of a number, from the lowest one on. -/
def put32 (value : ℕ) : List UInt8 := (List.range 4).map fun i => UInt8.ofNat (value / 256 ^ i)

/-- `meshtastic_nonce`: the nonce of a packet of a sender. -/
def meshtasticNonce (sender packetId : ℕ) : List UInt8 :=
  put32 packetId ++ List.replicate 4 0 ++ put32 sender ++ List.replicate 4 0

/-- `crypt`: the plaintext, when the cipher returns as many bytes as it was given. -/
def crypt (library : Library) (input : List UInt8) (key : ChannelKey) (nonce : List UInt8) :
    Option (List UInt8) :=
  if input.length > maxFrame ∨ ¬ key.Sized then none
  else (library.aesCtr key.bytes nonce input).filter (·.length = input.length)

theorem crypt_total {library : Library} (h : library.Total) {input nonce : List UInt8}
    {key : ChannelKey} (hinput : input.length ≤ maxFrame) (hkey : key.Sized) :
    ∃ output, crypt library input key nonce = some output := by
  obtain ⟨output, houtput, hlength⟩ := h key.bytes nonce input hkey
  refine ⟨output, ?_⟩
  rw [crypt, if_neg (not_or.mpr ⟨by omega, not_not.mpr hkey⟩), houtput]
  exact Option.filter_eq_some_iff.mpr ⟨rfl, by simpa using hlength⟩

end Protocol

end OVMesh
