import OVMesh.Lib.Base64
import OVMesh.Lib.Hex
import OVMesh.Protocol.Envelope

/-!
# Keys of a user

`ChannelKey::from_hex` and `ChannelKey::from_user_input` of `protocol.cpp`.

* `fromHex`, `fromBase64`, `fromUserInput`: the key of a text.
* `fromUserInput_accepts`: the texts that are accepted, and their keys.
-/

namespace OVMesh

namespace Protocol

namespace ChannelKey

/-- A key of some bytes, where they fit. -/
def ofBytes (bytes : List UInt8) : Option ChannelKey :=
  if h : bytes.length ≤ 32 then some ⟨bytes, h⟩ else none

/-- `digit` of `from_hex`. -/
def hexDigit (c : UInt8) : Option ℕ :=
  if 48 ≤ c ∧ c ≤ 57 then some (c.toNat - 48)
  else if 97 ≤ c ∧ c ≤ 102 then some (c.toNat - 97 + 10)
  else if 65 ≤ c ∧ c ≤ 70 then some (c.toNat - 65 + 10)
  else none

/-- The loop of `from_hex`. -/
def hexPairs : Text → Option (List UInt8)
  | high :: low :: rest => do
    let a ← hexDigit high
    let b ← hexDigit low
    let bytes ← hexPairs rest
    some (UInt8.ofNat (a <<< 4 ||| b) :: bytes)
  | _ => some []

/-- `from_hex`: the key of 32 or 64 hexadecimal digits. -/
def fromHex (hex : Text) : Option ChannelKey :=
  if hex.length ≠ 32 ∧ hex.length ≠ 64 then none else (hexPairs hex).bind ofBytes

/-- `digit` of `from_user_input`. -/
def base64Digit (c : UInt8) : Option ℕ :=
  if 65 ≤ c ∧ c ≤ 90 then some (c.toNat - 65)
  else if 97 ≤ c ∧ c ≤ 122 then some (c.toNat - 97 + 26)
  else if 48 ≤ c ∧ c ≤ 57 then some (c.toNat - 48 + 52)
  else if c = 43 then some 62
  else if c = 47 then some 63
  else none

/-- The variables of the loop over the digits: a `uint32_t`, the number of its low bits that no byte
has taken, and the bytes. -/
structure Accumulator where
  value : ℕ := 0
  bits : ℕ := 0
  bytes : List UInt8 := []

/-- One turn of the loop. -/
def Accumulator.feed (a : Accumulator) (digit : ℕ) : Accumulator :=
  let value := (a.value <<< 6 ||| digit) % 2 ^ 32
  let bits := a.bits + 6
  if bits ≥ 8 then
    { value, bits := bits - 8, bytes := a.bytes ++ [UInt8.ofNat (value >>> (bits - 8))] }
  else { value, bits, bytes := a.bytes }

/-- The part of `from_user_input` behind the padding. -/
def fromBase64 (data : Text) : Option ChannelKey := do
  let digits ← data.mapM base64Digit
  let a := digits.foldl Accumulator.feed {}
  if a.value &&& (1 <<< a.bits - 1) ≠ 0 then none else ofBytes a.bytes

/-- The key that the shorthand of the public channel stands for. -/
def publicKeyHex : Text := ascii "d4f1bb3a20290759f0bcffabcf4e6901"

/-- `from_user_input`: a key in hexadecimal digits or in base 64, or the short name of the public one. -/
def fromUserInput (input : Text) : Option ChannelKey :=
  if input.length = 32 ∨ input.length = 64 then fromHex input
  else if input = ascii "AQ==" then fromHex publicKeyHex
  else
    let aes128 := decide (input.length = 24)
    if aes128 = false ∧ input.length ≠ 44 then none
    else
      let dataChars := if aes128 then 22 else 43
      if input.drop dataChars ≠ (if aes128 then ascii "==" else ascii "=") then none
      else fromBase64 (input.take dataChars)

/-! ## Hexadecimal keys -/

variable {c : UInt8} {hex : Text} {key : ChannelKey} {n : ℕ}

theorem ofBytes_eq_some {bytes : List UInt8} :
    ofBytes bytes = some key ↔ bytes = key.bytes := by
  unfold ofBytes
  constructor
  · intro h
    split at h
    · rw [← Option.some.inj h]
    · cases h
  · rintro rfl
    rw [dif_pos key.length_le]

theorem hexDigit_eq :
    hexDigit c = if Hex.isDigit c = true then some (Hex.value c) else none := by
  simp only [hexDigit, Hex.isDigit_iff, Hex.value_eq, UInt8.le_iff_toNat_le, UInt8.reduceToNat]
  split_ifs <;> first | rfl | omega | (congr 1; omega)

/-- The pairs of hexadecimal digits. -/
theorem hexPairs_eq_some {bytes : List UInt8} (heven : hex.length % 2 = 0) :
    hexPairs hex = some bytes ↔ (∀ c ∈ hex, Hex.isDigit c = true) ∧ bytes = Hex.bytes hex := by
  induction hex using Hex.bytes.induct generalizing bytes with
  | case1 high low rest ih =>
    simp only [List.length_cons] at heven
    rw [hexPairs, Hex.bytes, hexDigit_eq, hexDigit_eq]
    simp only [List.forall_mem_cons]
    by_cases hhigh : Hex.isDigit high = true
    · by_cases hlow : Hex.isDigit low = true
      · have hbyte : Hex.value high <<< 4 ||| Hex.value low =
            16 * Hex.value high + Hex.value low := by
          rw [Nat.shiftLeft_eq, Nat.mul_comm, ← Nat.two_pow_add_eq_or_of_lt
            (i := 4) (Hex.value_lt hlow)]
        simp only [if_pos hhigh, if_pos hlow, Option.bind_eq_bind, Option.bind_some, hbyte]
        constructor
        · intro h
          obtain ⟨more, hmore, h⟩ := Option.bind_eq_some_iff.mp h
          obtain ⟨hrest, rfl⟩ := (ih (by omega)).mp hmore
          exact ⟨⟨hhigh, hlow, hrest⟩, (Option.some.inj h).symm⟩
        · rintro ⟨⟨-, -, hrest⟩, rfl⟩
          exact Option.bind_eq_some_iff.mpr ⟨_, (ih (by omega)).mpr ⟨hrest, rfl⟩, rfl⟩
      · rw [if_pos hhigh, if_neg hlow]
        exact iff_of_false (fun h => by cases h) fun h => hlow h.1.2.1
    · rw [if_neg hhigh]
      exact iff_of_false (fun h => by cases h) fun h => hhigh h.1.1
  | case2 hex hshort =>
    rcases hex with _ | ⟨high, _ | ⟨low, rest⟩⟩
    · rw [hexPairs, Hex.bytes, Option.some_inj, eq_comm]
      · exact (and_iff_right fun c hc => by cases hc).symm
      · exact hshort
      · exact hshort
    · simp at heven
    · exact absurd rfl (hshort high low rest)

theorem fromHex_eq_some : fromHex hex = some key ↔ (hex.length = 32 ∨ hex.length = 64) ∧
    (∀ c ∈ hex, Hex.isDigit c = true) ∧ key.bytes = Hex.bytes hex := by
  unfold fromHex
  by_cases hlength : hex.length = 32 ∨ hex.length = 64
  · rw [if_neg (by omega), and_iff_right hlength]
    constructor
    · intro h
      obtain ⟨bytes, hbytes, hkey⟩ := Option.bind_eq_some_iff.mp h
      obtain rfl := ofBytes_eq_some.mp hkey
      exact (hexPairs_eq_some (by omega)).mp hbytes
    · intro h
      exact Option.bind_eq_some_iff.mpr
        ⟨_, (hexPairs_eq_some (by omega)).mpr h, ofBytes_eq_some.mpr rfl⟩
  · rw [if_pos (by omega)]
    exact iff_of_false (fun h => by cases h) fun h => hlength h.1

/-! ## Base64 keys -/

theorem eq_charOf_iff (hn : n < 64) : c = Base64.charOf n ↔ c.toNat =
    if n < 26 then 65 + n else if n < 52 then 71 + n else if n < 62 then n - 4
    else if n = 62 then 43 else 47 := by
  rw [← UInt8.toNat_inj, Base64.charOf]
  split_ifs <;> first | rfl | rw [UInt8.toNat_ofNat', Nat.mod_eq_of_lt (by omega)]

theorem base64Digit_lt (h : base64Digit c = some n) : n < 64 := by
  have hc := c.toNat_lt
  simp only [base64Digit, UInt8.le_iff_toNat_le, UInt8.reduceToNat] at h
  split_ifs at h <;> simp only [Option.some.injEq] at h <;> omega

theorem base64Digit_eq_some : base64Digit c = some n ↔ n < 64 ∧ c = Base64.charOf n := by
  constructor
  · intro h
    have hn := base64Digit_lt h
    refine ⟨hn, (eq_charOf_iff hn).mpr ?_⟩
    simp only [base64Digit, UInt8.le_iff_toNat_le, UInt8.reduceToNat, ← UInt8.toNat_inj] at h
    split_ifs at h <;> simp only [Option.some.injEq] at h <;> split_ifs <;> omega
  · rintro ⟨hn, hc⟩
    rw [eq_charOf_iff hn] at hc
    simp only [base64Digit, UInt8.le_iff_toNat_le, UInt8.reduceToNat, ← UInt8.toNat_inj]
    split_ifs at hc <;> split_ifs <;> first | omega | (congr 1; omega)

/-- The digits of a text. -/
theorem mapM_base64Digit {data : Text} {digits : List ℕ} : data.mapM base64Digit = some digits ↔
    (∀ d ∈ digits, d < 64) ∧ data = digits.map Base64.charOf := by
  induction data generalizing digits with
  | nil =>
    rw [List.mapM_nil]
    constructor
    · rintro h
      obtain rfl := Option.some.inj h
      exact ⟨fun d hd => (by cases hd), rfl⟩
    · rintro ⟨-, h⟩
      rw [List.map_eq_nil_iff.mp h.symm]
      rfl
  | cons c data ih =>
    rw [List.mapM_cons]
    constructor
    · intro h
      obtain ⟨d, hd, h⟩ := Option.bind_eq_some_iff.mp h
      obtain ⟨ds, hds, h⟩ := Option.bind_eq_some_iff.mp h
      obtain rfl := Option.some.inj h
      obtain ⟨hlt, rfl⟩ := base64Digit_eq_some.mp hd
      obtain ⟨hall, rfl⟩ := ih.mp hds
      exact ⟨List.forall_mem_cons.mpr ⟨hlt, hall⟩, rfl⟩
    · rintro ⟨hlt, h⟩
      cases digits with
      | nil => cases h
      | cons d ds =>
        obtain ⟨rfl, rfl⟩ := List.cons.inj h
        obtain ⟨hd, hds⟩ := List.forall_mem_cons.mp hlt
        exact Option.bind_eq_some_iff.mpr ⟨d, base64Digit_eq_some.mpr ⟨hd, rfl⟩,
          Option.bind_eq_some_iff.mpr ⟨ds, ih.mpr ⟨hds, rfl⟩, rfl⟩⟩

/-- A digit below 64 fills the low bits. -/
theorem shiftLeft_or {v d : ℕ} (h : d < 64) : v <<< 6 ||| d = 64 * v + d := by
  rw [Nat.shiftLeft_eq, Nat.mul_comm, ← Nat.two_pow_add_eq_or_of_lt (i := 6) h]

/-- A turn that has too few bits for a byte. -/
theorem feed_zero {v d : ℕ} {bytes : List UInt8} (hd : d < 64) :
    Accumulator.feed ⟨v, 0, bytes⟩ d = ⟨(64 * v + d) % 2 ^ 32, 6, bytes⟩ := by
  rw [Accumulator.feed, shiftLeft_or hd]
  rfl

/-- A turn that takes a byte and leaves `k` bits. -/
theorem feed_byte {v d k : ℕ} {bytes : List UInt8} (hd : d < 64) (hk : k ≤ 4) :
    Accumulator.feed ⟨v, k + 2, bytes⟩ d =
      ⟨(64 * v + d) % 2 ^ 32, k, bytes ++ [UInt8.ofNat ((64 * v + d) / 2 ^ k)]⟩ := by
  have hbyte : UInt8.ofNat (((64 * v + d) % 2 ^ 32) >>> k) =
      UInt8.ofNat ((64 * v + d) / 2 ^ k) := by
    rw [Nat.shiftRight_eq_div_pow]
    apply UInt8.toNat_inj.mp
    rw [UInt8.toNat_ofNat', UInt8.toNat_ofNat']
    interval_cases k <;> omega
  have hbits : k + 2 + 6 - 8 = k := by omega
  rw [Accumulator.feed, shiftLeft_or hd]
  dsimp only
  rw [if_pos (by omega), hbits, hbyte]

/-- Bytes are equal when their numbers agree below 256. -/
theorem ofNat_congr {m n : ℕ} (h : m % 256 = n % 256) : UInt8.ofNat m = UInt8.ofNat n := by
  apply UInt8.toNat_inj.mp
  rw [UInt8.toNat_ofNat', UInt8.toNat_ofNat']
  exact h

/-- The byte that two turns take, whatever was there before. -/
theorem ofNat_digits {v a b k n : ℕ} (hk : k ≤ 4)
    (hn : (64 * a + b) / 2 ^ k % 256 = n % 256) :
    UInt8.ofNat ((64 * ((64 * v + a) % 2 ^ 32) + b) / 2 ^ k) = UInt8.ofNat n := by
  refine ofNat_congr (Eq.trans ?_ hn)
  interval_cases k <;> omega

/-- **The loop** takes the whole bytes of its digits, and leaves the spare bits. -/
theorem feed_digits {digits : List ℕ} (hlt : ∀ d ∈ digits, d < 64) (hlength : digits.length % 4 ≠ 1)
    (v : ℕ) (bytes : List UInt8) :
    (digits.foldl Accumulator.feed ⟨v, 0, bytes⟩).bytes = bytes ++ Base64.ofSextets digits ∧
      (digits.foldl Accumulator.feed ⟨v, 0, bytes⟩).value %
        2 ^ (digits.foldl Accumulator.feed ⟨v, 0, bytes⟩).bits = Base64.spare digits := by
  induction digits using Base64.ofSextets.induct generalizing v bytes with
  | case1 a b c d rest ih =>
    simp only [List.forall_mem_cons] at hlt
    obtain ⟨ha, hb, hc, hd, hrest⟩ := hlt
    simp only [List.length_cons] at hlength
    simp only [List.foldl_cons, feed_zero ha, feed_byte hb (show 4 ≤ 4 by omega),
      feed_byte hc (show 2 ≤ 4 by omega), feed_byte hd (show 0 ≤ 4 by omega)]
    obtain ⟨hbytes, hspare⟩ := ih hrest (by omega) _ _
    refine ⟨?_, hspare⟩
    rw [hbytes, Base64.ofSextets]
    simp only [List.append_assoc, List.cons_append, List.nil_append]
    rw [ofNat_digits (n := a * 4 + b / 16) (by omega) (by omega),
      ofNat_digits (n := b % 16 * 16 + c / 4) (by omega) (by omega),
      ofNat_digits (n := c % 4 * 64 + d) (by omega) (by omega)]
  | case2 a b c =>
    simp only [List.forall_mem_cons] at hlt
    obtain ⟨ha, hb, hc, -⟩ := hlt
    simp only [List.foldl_cons, List.foldl_nil, feed_zero ha, feed_byte hb (show 4 ≤ 4 by omega),
      feed_byte hc (show 2 ≤ 4 by omega)]
    refine ⟨?_, by simp only [Base64.spare]; omega⟩
    rw [Base64.ofSextets, List.append_assoc, List.singleton_append,
      ofNat_digits (n := a * 4 + b / 16) (by omega) (by omega),
      ofNat_digits (n := b % 16 * 16 + c / 4) (by omega) (by omega)]
  | case3 a b =>
    simp only [List.forall_mem_cons] at hlt
    obtain ⟨ha, hb, -⟩ := hlt
    simp only [List.foldl_cons, List.foldl_nil, feed_zero ha, feed_byte hb (show 4 ≤ 4 by omega)]
    refine ⟨?_, by simp only [Base64.spare]; omega⟩
    rw [Base64.ofSextets, ofNat_digits (n := a * 4 + b / 16) (by omega) (by omega)]
  | case4 digits h1 h2 h3 =>
    rcases digits with _ | ⟨a, _ | ⟨b, _ | ⟨c, _ | ⟨d, rest⟩⟩⟩⟩
    · exact ⟨(List.append_nil _).symm, Nat.mod_one v⟩
    · exact absurd rfl hlength
    · exact absurd rfl (h3 a b)
    · exact absurd rfl (h2 a b c)
    · exact absurd rfl (h1 a b c d rest)

theorem fromBase64_eq_some {data : Text} (hlength : data.length % 4 ≠ 1) :
    fromBase64 data = some key ↔ data = (Base64.sextets key.bytes).map Base64.charOf := by
  unfold fromBase64
  constructor
  · intro h
    obtain ⟨digits, hdigits, hkey⟩ := Option.bind_eq_some_iff.mp h
    obtain ⟨hlt, rfl⟩ := mapM_base64Digit.mp hdigits
    rw [List.length_map] at hlength
    obtain ⟨hbytes, hspare⟩ := feed_digits hlt hlength 0 []
    dsimp only at hkey
    split_ifs at hkey with hcanonical
    rw [Nat.one_shiftLeft, Nat.and_two_pow_sub_one_eq_mod] at hcanonical
    rw [← ofBytes_eq_some.mp hkey, hbytes, List.nil_append,
      Base64.sextets_ofSextets hlt hlength (hspare.symm.trans (not_not.mp hcanonical))]
  · intro hdata
    have hlength' : (Base64.sextets key.bytes).length % 4 ≠ 1 := by
      rwa [hdata, List.length_map] at hlength
    obtain ⟨hbytes, hspare⟩ := feed_digits Base64.sextets_lt hlength' 0 []
    rw [Base64.ofSextets_sextets.1, List.nil_append] at hbytes
    rw [Base64.ofSextets_sextets.2] at hspare
    refine Option.bind_eq_some_iff.mpr ⟨Base64.sextets key.bytes,
      mapM_base64Digit.mpr ⟨Base64.sextets_lt, hdata⟩, ?_⟩
    dsimp only
    rw [if_neg, hbytes]
    · exact ofBytes_eq_some.mpr rfl
    · rw [Nat.one_shiftLeft, Nat.and_two_pow_sub_one_eq_mod]
      exact not_not.mpr hspare

/-! ## Keys of a user -/

/-- The text is the padded Base64 of 16 or 32 bytes. -/
def IsBase64Key (input : Text) (bytes : List UInt8) : Prop :=
  (bytes.length = 16 ∨ bytes.length = 32) ∧ input = Base64.encode bytes

/-- A text is that of some bytes when its digits and its padding are. -/
theorem eq_encode_iff {input : Text} {bytes : List UInt8} : input = Base64.encode bytes ↔
    input.take (Base64.sextets bytes).length = (Base64.sextets bytes).map Base64.charOf ∧
      input.drop (Base64.sextets bytes).length =
        List.replicate ((3 - bytes.length % 3) % 3) 61 := by
  constructor
  · rintro rfl
    rw [Base64.encode]
    exact ⟨List.take_left' (by simp), List.drop_left' (by simp)⟩
  · rintro ⟨htake, hdrop⟩
    rw [Base64.encode, ← htake, ← hdrop, List.take_append_drop]

/-- The texts of 16 and of 32 bytes, by their digits and their padding. -/
theorem isBase64Key_iff {input : Text} {bytes : List UInt8} : IsBase64Key input bytes ↔
    (input.take 22 = (Base64.sextets bytes).map Base64.charOf ∧ input.drop 22 = ascii "==" ∧
      input.length = 24) ∨
    (input.take 43 = (Base64.sextets bytes).map Base64.charOf ∧ input.drop 43 = ascii "=" ∧
      input.length = 44) := by
  have hsextets := Base64.length_sextets (l := bytes)
  constructor
  · rintro ⟨hlength | hlength, h⟩
    · obtain ⟨htake, hdrop⟩ := eq_encode_iff.mp h
      rw [hsextets, hlength] at htake hdrop
      refine Or.inl ⟨htake, hdrop, ?_⟩
      have := congrArg List.length htake
      have hrest := congrArg List.length hdrop
      rw [List.length_map, hsextets, hlength, List.length_take] at this
      rw [List.length_drop, List.length_replicate] at hrest
      omega
    · obtain ⟨htake, hdrop⟩ := eq_encode_iff.mp h
      rw [hsextets, hlength] at htake hdrop
      refine Or.inr ⟨htake, hdrop, ?_⟩
      have := congrArg List.length htake
      have hrest := congrArg List.length hdrop
      rw [List.length_map, hsextets, hlength, List.length_take] at this
      rw [List.length_drop, List.length_replicate] at hrest
      omega
  · rintro (⟨htake, hdrop, hlength⟩ | ⟨htake, hdrop, hlength⟩)
    · have hcount := congrArg List.length htake
      rw [List.length_take, List.length_map, hlength] at hcount
      have hbytes : bytes.length = 16 := by omega
      refine ⟨Or.inl hbytes, eq_encode_iff.mpr ?_⟩
      rw [← hcount, hbytes]
      exact ⟨htake, hdrop⟩
    · have hcount := congrArg List.length htake
      rw [List.length_take, List.length_map, hlength] at hcount
      have hbytes : bytes.length = 32 := by omega
      refine ⟨Or.inr hbytes, eq_encode_iff.mpr ?_⟩
      rw [← hcount, hbytes]
      exact ⟨htake, hdrop⟩

theorem length_publicKeyHex : publicKeyHex.length = 32 ∧
    ∀ c ∈ publicKeyHex, Hex.isDigit c = true := by
  rw [publicKeyHex, ascii, String.toList_ofList]
  refine ⟨rfl, ?_⟩
  simp [Hex.isDigit_iff]

/-- The part of `from_user_input` that reads Base64. -/
theorem readBase64_eq_some {input : Text} : (
    let aes128 := decide (input.length = 24)
    if aes128 = false ∧ input.length ≠ 44 then none
    else
      let dataChars := if aes128 then 22 else 43
      if input.drop dataChars ≠ (if aes128 then ascii "==" else ascii "=") then none
      else fromBase64 (input.take dataChars)) = some key ↔ IsBase64Key input key.bytes := by
  rw [isBase64Key_iff]
  have hread {n : ℕ} (pad : Text) (hn : n % 4 ≠ 1) (hlength : n ≤ input.length) :
      (if input.drop n ≠ pad then none else fromBase64 (input.take n)) = some key ↔
        input.take n = (Base64.sextets key.bytes).map Base64.charOf ∧ input.drop n = pad := by
    have htake : (input.take n).length % 4 ≠ 1 := by
      rwa [List.length_take, Nat.min_eq_left hlength]
    by_cases hpad : input.drop n = pad
    · rw [if_neg (not_not.mpr hpad), fromBase64_eq_some htake, and_iff_left hpad]
    · rw [if_pos hpad]
      exact iff_of_false (fun h => by cases h) fun h => hpad h.2
  by_cases h24 : input.length = 24
  · simp only [h24, decide_true, Bool.true_eq_false, false_and, if_false, if_true]
    rw [hread _ (by decide) (by omega)]
    constructor
    · rintro ⟨htake, hdrop⟩
      exact Or.inl ⟨htake, hdrop, trivial⟩
    · rintro (⟨htake, hdrop, -⟩ | ⟨-, -, h⟩)
      · exact ⟨htake, hdrop⟩
      · omega
  · simp only [h24, decide_false, true_and, Bool.false_eq_true, if_false, and_false, false_or]
    by_cases h44 : input.length = 44
    · rw [if_neg (not_not.mpr h44), hread _ (by decide) (by omega)]
      exact ⟨fun h => ⟨h.1, h.2, h44⟩, fun h => ⟨h.1, h.2.1⟩⟩
    · rw [if_pos h44]
      exact iff_of_false (fun h => by cases h) fun h => h44 h.2.2

/-- The key of an accepted text. -/
theorem fromUserInput_eq_some {input : Text} : fromUserInput input = some key ↔
    ((input.length = 32 ∨ input.length = 64) ∧ (∀ c ∈ input, Hex.isDigit c = true) ∧
      key.bytes = Hex.bytes input) ∨
    (input = ascii "AQ==" ∧ key.bytes = Hex.bytes publicKeyHex) ∨ IsBase64Key input key.bytes := by
  have hshort : (ascii "AQ==").length = 4 := by decide
  have hlength : IsBase64Key input key.bytes → input.length = 24 ∨ input.length = 44 := fun h =>
    (isBase64Key_iff.mp h).imp (fun h => h.2.2) fun h => h.2.2
  unfold fromUserInput
  by_cases hhex : input.length = 32 ∨ input.length = 64
  · rw [if_pos hhex, fromHex_eq_some]
    refine ⟨Or.inl, ?_⟩
    rintro (h | ⟨rfl, -⟩ | h)
    · exact h
    · omega
    · have := hlength h
      omega
  · rw [if_neg hhex, or_iff_right fun h => hhex h.1]
    by_cases hpublic : input = ascii "AQ=="
    · rw [if_pos hpublic, fromHex_eq_some]
      constructor
      · rintro ⟨-, -, h⟩
        exact Or.inl ⟨hpublic, h⟩
      · rintro (⟨-, h⟩ | h)
        · exact ⟨Or.inl length_publicKeyHex.1, length_publicKeyHex.2, h⟩
        · have := hlength h
          rw [hpublic] at this
          omega
    · rw [if_neg hpublic, or_iff_right fun h => hpublic h.1]
      exact readBase64_eq_some

/-- **The keys of a user.** The accepted texts are 32 or 64 hexadecimal digits, the shorthand, and
the padded Base64 of 16 or 32 bytes, each with the bytes it stands for; and no two Base64 texts give
the same key. -/
theorem fromUserInput_accepts :
    (∀ (input : Text) (key : ChannelKey), fromUserInput input = some key ↔
      ((input.length = 32 ∨ input.length = 64) ∧ (∀ c ∈ input, Hex.isDigit c = true) ∧
        key.bytes = Hex.bytes input) ∨
      (input = ascii "AQ==" ∧ key.bytes = Hex.bytes publicKeyHex) ∨
      IsBase64Key input key.bytes) ∧
    ∀ (input input' : Text) (bytes bytes' : List UInt8), IsBase64Key input bytes →
      IsBase64Key input' bytes' → fromUserInput input = fromUserInput input' → input = input' := by
  refine ⟨fun input key => fromUserInput_eq_some, fun input input' bytes bytes' h h' heq => ?_⟩
  have hkey : fromUserInput input = some ⟨bytes, by rcases h.1 with h | h <;> omega⟩ :=
    fromUserInput_eq_some.mpr (Or.inr (Or.inr h))
  have hkey' : fromUserInput input' = some ⟨bytes', by rcases h'.1 with h | h <;> omega⟩ :=
    fromUserInput_eq_some.mpr (Or.inr (Or.inr h'))
  rw [hkey, hkey', Option.some_inj, ChannelKey.mk.injEq] at heq
  rw [h.2, h'.2, heq]

end ChannelKey

end Protocol

end OVMesh
