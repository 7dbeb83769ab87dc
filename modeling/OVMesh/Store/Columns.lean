import OVMesh.Store.Status

/-!
# Saved values

What `Statement` of `storage.cpp` binds and reads. A measurement is finite, being a value of `K`.

* `Value`, `Value.bind`: a value, and the checks of the writer.
* `Value.integer`, `Value.real`, `Value.text`, `Value.unsigned`, `Value.boolean`: the typed reads.
* `validUtf8_utf8EncodeChar`: `valid_utf8` takes the encoding of a character.
* `ReceptionColumn`, `receptionColumns`: the columns of a reception, and the lists of them.
* `rowOf`, `select`: a row that was inserted, and what a statement selects of it.
-/

namespace OVMesh

open Checked

/-! ## Characters -/

/-- The encoding of a character is one sequence of `valid_utf8`. -/
theorem validUtf8_utf8EncodeChar (c : Char) (text : Text) :
    validUtf8 (String.utf8EncodeChar c ++ text) = validUtf8 text := by
  have hc : c.val.toNat < 0xd800 ∨ 0xdfff < c.val.toNat ∧ c.val.toNat < 0x110000 := c.valid
  have hbyte : ∀ n : ℕ, n < 256 → (UInt8.ofNat n).toNat = n := fun n hn => by
    rw [UInt8.toNat_ofNat', Nat.mod_eq_of_lt (by simpa using hn)]
  unfold String.utf8EncodeChar
  generalize c.val.toNat = v at hc
  simp only
  -- One case for each length of a sequence.
  split_ifs with h1 h2 h3
  · rw [List.singleton_append]
    conv_lhs => unfold validUtf8
    rw [if_pos]
    rw [UInt8.lt_iff_toNat_lt, hbyte v (by omega)]
    exact Nat.lt_succ_of_le h1
  · have hfirst := hbyte (v / 64 % 0x20 + 0xc0) (by omega)
    have hsecond := hbyte (v % 0x40 + 0x80) (by omega)
    conv_lhs => unfold validUtf8
    simp only [List.cons_append, List.nil_append, validSequence, UInt8.lt_iff_toNat_lt,
      UInt8.le_iff_toNat_le, UInt8.reduceToNat, List.foldl_cons, List.foldl_nil, List.all_cons,
      List.all_nil, hfirst, hsecond]
    rw [if_neg (by omega), if_pos (by omega)]
    simp
    omega
  · have hfirst := hbyte (v / 4096 % 0x10 + 0xe0) (by omega)
    have hsecond := hbyte (v / 64 % 0x40 + 0x80) (by omega)
    have hthird := hbyte (v % 0x40 + 0x80) (by omega)
    conv_lhs => unfold validUtf8
    simp only [List.cons_append, List.nil_append, validSequence, UInt8.lt_iff_toNat_lt,
      UInt8.le_iff_toNat_le, UInt8.reduceToNat, List.foldl_cons, List.foldl_nil, List.all_cons,
      List.all_nil, hfirst, hsecond, hthird]
    rw [if_neg (by omega), if_neg (by omega), if_pos (by omega)]
    simp
    omega
  · have hfirst := hbyte (v / 262144 % 0x08 + 0xf0) (by omega)
    have hsecond := hbyte (v / 4096 % 0x40 + 0x80) (by omega)
    have hthird := hbyte (v / 64 % 0x40 + 0x80) (by omega)
    have hfourth := hbyte (v % 0x40 + 0x80) (by omega)
    conv_lhs => unfold validUtf8
    simp only [List.cons_append, List.nil_append, validSequence, UInt8.lt_iff_toNat_lt,
      UInt8.le_iff_toNat_le, UInt8.reduceToNat, List.foldl_cons, List.foldl_nil, List.all_cons,
      List.all_nil, hfirst, hsecond, hthird, hfourth]
    rw [if_neg (by omega), if_neg (by omega), if_neg (by omega), if_pos (by omega)]
    simp
    omega

/-! ## Values -/

/-- A value of a column. -/
inductive Value (K : Type)
  | null
  | integer (value : ℤ)
  | real (value : K)
  | text (value : Text)
  | blob (value : List UInt8)
  deriving DecidableEq

namespace Value

variable {K : Type}

/-- `Statement::bind`: a text must be UTF-8 and a blob neither empty nor too long; the rest is bound as it
is. -/
def bind : Value K → Except String Unit
  | text value => bindText value
  | blob value => reject (value = [] ∨ value.length > 65537) "Invalid spectrum blob length"
  | _ => pure ()

/-- `number`: a number that is absent is stored as null. -/
def number : Option K → Value K
  | some value => real value
  | none => null

/-- The conversion of a flag to `int64_t`. -/
def flag (b : Bool) : Value K := integer (if b then 1 else 0)

/-- `Statement::null`: the column is null. -/
def isNull : Value K → Bool
  | null => true
  | _ => false

/-- `Statement::integer`: the integer of a column. -/
def readInteger : Value K → Except String ℤ
  | integer value => return value
  | _ => throw "Invalid saved integer"

/-- `Statement::real`: the number of a column, which may have been stored as an integer. -/
def readReal [IntCast K] : Value K → Except String K
  | real value => return value
  | integer value => return value
  | _ => throw "Invalid saved measurement type"

/-- `Statement::text`: the text of a column, which is empty for null. -/
def readText : Value K → Except String Text
  | null => return []
  | text value => do
    reject (value.length > 8192) "Saved field exceeds supported size"
    reject (validUtf8 value = false) "Saved text is not valid UTF-8"
    return value
  | _ => throw "Invalid saved text field"

/-- `unsigned_value`: an integer of a column, up to a maximum. -/
def readUnsigned (value : Value K) (maximum : ℕ) : Except String ℕ := do
  let value ← value.readInteger
  reject (value < 0 ∨ value.toNat > maximum) "Saved integer is outside its allowed range"
  return value.toNat

/-- `boolean`: a column that is zero or one. -/
def readBoolean (value : Value K) : Except String Bool := do
  return (← value.readUnsigned 1) ≠ 0

/-! ### Values that were bound -/

@[simp] theorem readReal_real [IntCast K] (x : K) : (real x).readReal = .ok x := rfl

@[simp] theorem readInteger_integer (n : ℤ) : (integer n : Value K).readInteger = .ok n := rfl

theorem readText_text {t : Text} (h : bindText t = .ok ()) : (text t : Value K).readText = .ok t := by
  rw [bindText, reject_eq_ok, not_or] at h
  simp only [readText, bind_eq_ok, reject_eq_ok, pure_eq_ok]
  exact ⟨(), h.1, (), h.2, trivial⟩

theorem readUnsigned_integer {n maximum : ℕ} (h : n ≤ maximum) :
    (integer n : Value K).readUnsigned maximum = .ok n := by
  simp only [readUnsigned, readInteger, bind_eq_ok, reject_eq_ok, pure_eq_ok]
  exact ⟨n, rfl, (), by omega, rfl⟩

@[simp] theorem readBoolean_flag (b : Bool) : (flag b : Value K).readBoolean = .ok b := by
  cases b <;> rfl

end Value

/-! ## Receptions -/

/-- The columns of the receptions. The columns from the profile to the routing error, and the last
four, are reserved. -/
inductive ReceptionColumn
  | id | utc | elapsed | frequency | bw | sf | cr | duration | snr | cfo | headerOk | crcOk | lane
  | status | classification | authentication | profile | origin | destination | packetId | port
  | hopLimit | hopStart | channelHash | nextHop | relayNode | wantAck | viaMqtt | wantResponse | kind
  | text | nodeId | longName | shortName | latitude | longitude | altitude | voltage | temperature
  | humidity | battery | channelUtilization | airUtilTx | reportedTime | hardwareModel | role
  | routingError | receiverLatitude | receiverLongitude | receiverAltitude | receiverManual
  | receiverUtc | receiverMonotonic | receiverSource | receiverHdop | receiverSatellites
  | evidencePort | evidenceSignaturePresent | requestId | replyId | signaturePresent
  | routingVariant
  deriving DecidableEq

open ReceptionColumn in
/-- The columns of the first version that are not reserved and come before the reserved ones. -/
def leadingColumns : List ReceptionColumn :=
  [id, utc, elapsed, frequency, bw, sf, cr, duration, snr, cfo, headerOk, crcOk, lane, status,
    classification, authentication]

open ReceptionColumn in
/-- The reserved columns of the first version. -/
def semanticColumns : List ReceptionColumn :=
  [profile, origin, destination, packetId, port, hopLimit, hopStart, channelHash, nextHop, relayNode,
    wantAck, viaMqtt, wantResponse, kind, text, nodeId, longName, shortName, latitude, longitude,
    altitude, voltage, temperature, humidity, battery, channelUtilization, airUtilTx, reportedTime,
    hardwareModel, role, routingError]

open ReceptionColumn in
/-- The columns of the receiver position. -/
def positionColumns : List ReceptionColumn :=
  [receiverLatitude, receiverLongitude, receiverAltitude, receiverManual, receiverUtc,
    receiverMonotonic, receiverSource, receiverHdop, receiverSatellites]

/-- `reception_columns`: the columns of every version. -/
def receptionColumns : List ReceptionColumn := leadingColumns ++ semanticColumns ++ positionColumns

open ReceptionColumn in
/-- `reception_columns_for`: version 3 adds the evidence and four places that stay empty. -/
def receptionColumnsFor (version : ℕ) : List ReceptionColumn :=
  receptionColumns ++ if version ≥ 3 then
    [evidencePort, evidenceSignaturePresent, requestId, replyId, signaturePresent, routingVariant]
  else []

open ReceptionColumn in
/-- `reception_metadata_columns`: the reserved columns keep their positions as `NULL`. -/
def receptionMetadataColumns (version : ℕ) : List (Option ReceptionColumn) :=
  leadingColumns.map some ++ List.replicate 31 none ++ positionColumns.map some ++
    if version ≥ 3 then
      [some evidencePort, some evidenceSignaturePresent, none, none, none, none]
    else []

/-- A row of the receptions. -/
abbrev ReceptionRow (K : Type) := ReceptionColumn → Value K

variable {K : Type}

/-- `insert`: the row that takes the values in the order of the columns. -/
def rowOf (columns : List ReceptionColumn) (values : List (Value K)) : ReceptionRow K :=
  fun column => ((columns.zip values).lookup column).getD .null

/-- What a statement selects of a row. -/
def select (columns : List (Option ReceptionColumn)) (row : ReceptionRow K) : List (Value K) :=
  columns.map fun column => column.elim .null row

end OVMesh
