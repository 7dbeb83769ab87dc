import OVMesh.Desktop.Preferences

/-!
# The fields of desktop settings

What the readers of `parse` accept: each field on its own, and the boards.

* `boolean_ok`, `integer_ok`, `unsigned_ok`, `hexField_ok`, `sourceField_ok`: a field is read if and only
  if it has the text that its value is written as.
* `boards_ok`, `concentratorFields_ok`: the same for the boards and the concentrators.
-/

namespace OVMesh

namespace Desktop

open Checked Settings Decimal Rak

/-! ## Single fields -/

variable {fields : List Field} {name : Text} {version : ℕ}

theorem fieldAt_ok {v : Text} : fieldAt fields name = .ok v ↔ fields.lookup name = some v := by
  unfold fieldAt
  cases fields.lookup name with
  | none => simp
  | some w => simp

theorem boolean_ok {b : Bool} : boolean fields name = .ok b ↔ fields.lookup name = some (switch b) := by
  simp only [boolean, bind_eq_ok, fieldAt_ok, reject_eq_ok, pure_eq_ok]
  constructor
  · rintro ⟨v, hv, _, hswitch, rfl⟩
    rw [hv]
    by_cases h1 : v = ascii "1"
    · rw [h1]
      rfl
    · have h0 : v = ascii "0" := by
        by_contra h0
        exact hswitch ⟨h0, h1⟩
      rw [h0]
      rfl
  · intro h
    refine ⟨switch b, h, (), ?_, ?_⟩ <;> cases b <;> decide

theorem all_decimal (n : ℕ) : (decimal n).all isDigit = true :=
  List.all_eq_true.mpr isDigit_decimal

theorem head_decimal (n : ℕ) : (decimal n).head? ≠ some 45 := by
  intro h
  have hmem : (45 : UInt8) ∈ decimal n := List.mem_of_head? h
  exact absurd (isDigit_decimal 45 hmem) (by decide)

/-- The text of a number of the type is read back. -/
theorem fromChars_decimalInt {lower upper n : ℤ} (hlower : lower ≤ n) (hupper : n ≤ upper) :
    fromChars lower upper (decimalInt n) = some n := by
  unfold decimalInt
  split_ifs with hn
  · have hneg : lower < 0 ∧ (45 :: decimal n.natAbs : Text).head? = some 45 := ⟨by omega, rfl⟩
    simp only [fromChars, if_pos hneg, List.tail_cons, all_decimal, decimal_ne_nil, value_decimal]
    rw [if_neg (by simp), if_pos (by omega)]
    congr 1
    omega
  · have hneg : ¬ (lower < 0 ∧ (decimal n.natAbs).head? = some 45) := fun h => head_decimal _ h.2
    simp only [fromChars, if_neg hneg, all_decimal, decimal_ne_nil, value_decimal]
    rw [if_neg (by simp), if_pos (by omega)]
    congr 1
    omega

theorem fromChars_bounds {lower upper n : ℤ} {text : Text} (h : fromChars lower upper text = some n) :
    lower ≤ n ∧ n ≤ upper := by
  simp only [fromChars, Option.ite_none_left_eq_some, Option.ite_none_right_eq_some] at h
  obtain ⟨-, hbounds, hn⟩ := h
  rwa [Option.some.inj hn] at hbounds

theorem integer_ok {lower upper n : ℤ} : integer lower upper fields name = .ok n ↔
    fields.lookup name = some (decimalInt n) ∧ lower ≤ n ∧ n ≤ upper := by
  simp only [integer, bind_eq_ok, fieldAt_ok]
  constructor
  · rintro ⟨v, hv, h⟩
    split at h
    · cases h
    · rename_i m hm
      simp only [bind_eq_ok, reject_eq_ok, pure_eq_ok, not_not] at h
      obtain ⟨_, rfl, rfl⟩ := h
      exact ⟨hv, fromChars_bounds hm⟩
  · rintro ⟨hlookup, hlower, hupper⟩
    refine ⟨decimalInt n, hlookup, ?_⟩
    rw [fromChars_decimalInt hlower hupper]
    simp only [bind_eq_ok, reject_eq_ok]
    exact ⟨(), not_not.mpr rfl, rfl⟩

theorem unsigned_ok {bits n : ℕ} : unsigned bits fields name = .ok n ↔
    fields.lookup name = some (decimalInt n) ∧ n < 2 ^ bits := by
  have hpow : (0 : ℤ) < 2 ^ bits := by positivity
  have hcast : ((2 ^ bits : ℕ) : ℤ) = 2 ^ bits := by push_cast; rfl
  simp only [unsigned, bind_eq_ok, integer_ok, pure_eq_ok]
  constructor
  · rintro ⟨m, ⟨hlookup, hlower, hupper⟩, rfl⟩
    rw [Int.toNat_of_nonneg hlower]
    exact ⟨hlookup, by omega⟩
  · rintro ⟨hlookup, hlt⟩
    exact ⟨n, ⟨hlookup, by omega, by omega⟩, Int.toNat_natCast n⟩

theorem hexField_ok {limit : ℕ} {t : Text} : hexField limit fields name = .ok t ↔
    fields.lookup name = some (Hex.encode t) ∧ validText t limit = true := by
  simp only [hexField, hexDecode, bind_eq_ok, fieldAt_ok, reject_eq_ok, pure_eq_ok, not_or, not_not,
    Bool.not_eq_false]
  constructor
  · rintro ⟨v, hv, _, ⟨-, heven⟩, _, hlower, _, hvalid, rfl⟩
    rw [Hex.encode_bytes heven (List.all_eq_true.mp hlower)]
    exact ⟨hv, hvalid⟩
  · rintro ⟨hlookup, hvalid⟩
    have hlength : t.length ≤ limit := by
      rw [validText, Bool.and_eq_true, decide_eq_true_eq] at hvalid
      exact hvalid.1
    refine ⟨Hex.encode t, hlookup, (), ?_, (), List.all_eq_true.mpr Hex.isLower_encode, (), ?_, ?_⟩
    · rw [Hex.length_encode]
      omega
    · rwa [Hex.bytes_encode]
    · exact Hex.bytes_encode

/-- A text of digits without a leading zero is the text of its number. -/
theorem decimal_value {text : Text} (hne : text ≠ []) (hdigits : text.all isDigit = true)
    (hhead : text.head? ≠ some 48) : decimal (value text) = text := by
  have hbounds : ∀ b ∈ text, 48 ≤ b.toNat ∧ b.toNat ≤ 57 := fun b hb =>
    Hex.decimal_iff.mp (List.all_eq_true.mp hdigits b hb)
  -- The digits, the last one first.
  let l := (text.map fun b => b.toNat - 48).reverse
  have htext : l.reverse.map digit = text := by
    simp only [l, List.reverse_reverse, List.map_map]
    conv_rhs => rw [← List.map_id text]
    refine List.map_congr_left fun b hb => ?_
    have hb := hbounds b hb
    rw [Function.comp_apply, digit, ← UInt8.toNat_inj, UInt8.toNat_ofNat']
    simp only [id_eq]
    omega
  have hl : ∀ d ∈ l, d < 10 := by
    intro d hd
    obtain ⟨b, hb, rfl⟩ := List.mem_map.mp (List.mem_reverse.mp hd)
    have := hbounds b hb
    omega
  have hlast : ∀ h : l ≠ [], l.getLast h ≠ 0 := by
    intro h
    cases text with
    | nil => exact absurd rfl hne
    | cons b rest =>
      have hb := hbounds b List.mem_cons_self
      have h48 : b.toNat ≠ 48 := fun heq => hhead (congrArg some (UInt8.toNat_inj.mp heq))
      simp only [l, List.map_cons, List.reverse_cons, List.getLast_append_singleton]
      omega
  have hvalue : value text = Nat.ofDigits 10 l := by
    rw [← htext]
    exact value_digits hl
  have hdigits' : Nat.digits 10 (value text) = l := by
    rw [hvalue]
    exact Nat.digits_ofDigits 10 (by decide) l hl hlast
  have hpos : value text ≠ 0 := by
    intro h0
    rw [h0, Nat.digits_zero] at hdigits'
    rw [← htext, ← hdigits'] at hne
    exact hne rfl
  rw [decimal, if_neg hpos, hdigits', htext]

/-- Numbers that `gps_baud` can be read back for. -/
def BaudTyped (n : ℕ) : Prop := (decimal n).head? ≠ some 48 ∧ n < 10 ^ 6

theorem baudField_lookup {n : ℕ} (h : baudField fields = .ok n) :
    fields.lookup (ascii "gps_baud") = some (decimal n) := by
  simp only [baudField, bind_eq_ok, fieldAt_ok, reject_eq_ok, pure_eq_ok, not_or, Bool.not_eq_false] at h
  obtain ⟨v, hv, _, ⟨hne, -, hhead⟩, _, hdigits, rfl⟩ := h
  rw [decimal_value hne hdigits hhead]
  exact hv

theorem baudField_ok {n : ℕ} (hn : BaudTyped n)
    (h : fields.lookup (ascii "gps_baud") = some (decimal n)) : baudField fields = .ok n := by
  simp only [baudField, bind_eq_ok, fieldAt_ok, reject_eq_ok, pure_eq_ok, not_or, Bool.not_eq_false]
  refine ⟨decimal n, h, (), ⟨decimal_ne_nil n, ?_, hn.1⟩, (), all_decimal n, value_decimal n⟩
  have := length_decimal_le (by decide) hn.2
  omega

theorem sourceField_ok {source : DesktopReceiver} : sourceField version fields = .ok source ↔
    fields.lookup (ascii "receiver_source") = some (sourceText source) ∧
      (source = .rtlSdr → 6 ≤ version) ∧ (source = .rak5146 → 7 ≤ version) := by
  simp only [sourceField, bind_eq_ok, fieldAt_ok, reject_eq_ok, pure_eq_ok]
  constructor
  · rintro ⟨v, hv, _, hsource, rfl⟩
    rw [hv]
    by_cases hhack : v = ascii "hackrf"
    · simp [hhack, sourceText]
    · by_cases hrtl : v = ascii "rtl_sdr"
      · subst hrtl
        rw [if_neg (by decide), if_pos rfl]
        refine ⟨rfl, fun _ => ?_, by simp⟩
        by_contra hversion
        exact hsource ⟨by decide, by decide, fun h => hversion h.1, fun h => absurd h.2 (by decide)⟩
      · by_cases hrak : v = ascii "rak5146"
        · subst hrak
          rw [if_neg (by decide), if_neg (by decide), if_pos rfl]
          refine ⟨rfl, by simp, fun _ => ?_⟩
          by_contra hversion
          exact hsource ⟨by decide, by decide, fun h => absurd h.2 (by decide), fun h => hversion h.1⟩
        · have hsynthetic : v = ascii "synthetic" := by
            by_contra hsynthetic
            exact hsource ⟨hsynthetic, hhack, fun h => hrtl h.2, fun h => hrak h.2⟩
          rw [if_neg hhack, if_neg hrtl, if_neg hrak, hsynthetic]
          simp [sourceText]
  · rintro ⟨hlookup, hrtl, hrak⟩
    refine ⟨sourceText source, hlookup, (), ?_, ?_⟩
    · cases source <;> simp_all [sourceText]
    · cases source <;> rfl

theorem since_ok {α : Type} {first : ℕ} {default a : α} {read : Except String α} :
    since first version default read = .ok a ↔
      (first ≤ version → read = .ok a) ∧ (version < first → a = default) := by
  unfold since
  split_ifs with h
  · simp [h, Nat.not_lt.mpr h]
  · simp [pure, Except.pure, h, Nat.not_le.mp h, eq_comm]

/-! ## Boards -/

/-- The fields have the expected values. -/
def Holds (fields expected : List Field) : Prop :=
  ∀ field ∈ expected, fields.lookup field.1 = some field.2

/-- The numbers of a board are values of their types, and its texts are valid. -/
structure BoardTyped (b : ConcentratorBoardConfig) : Prop where
  path : validText b.devicePath 1024 = true
  id : validText b.deviceId 2048 = true
  frequency : b.frequencyHz < 2 ^ 64
  bandwidth : b.bandwidthHz < 2 ^ 32
  spreading : b.spreadingFactor < 2 ^ 32
  sync : b.syncWord < 2 ^ 32

theorem boardAt_ok {i : ℕ} {b : ConcentratorBoardConfig} :
    boardAt fields i = .ok b ↔ Holds fields (boardFields i b) ∧ BoardTyped b := by
  simp only [boardAt, bind_eq_ok, hexField_ok, boolean_ok, unsigned_ok, pure_eq_ok, Holds, boardFields,
    List.forall_mem_cons, List.not_mem_nil, IsEmpty.forall_iff, implies_true, and_true]
  constructor
  · rintro ⟨_, ⟨h1, t1⟩, _, ⟨h2, t2⟩, _, h3, _, ⟨h4, t4⟩, _, ⟨h5, t5⟩, _, ⟨h6, t6⟩, _, ⟨h7, t7⟩, rfl⟩
    exact ⟨⟨h1, h2, h3, h4, h5, h6, h7⟩, ⟨t1, t2, t4, t5, t6, t7⟩⟩
  · rintro ⟨⟨h1, h2, h3, h4, h5, h6, h7⟩, ⟨t1, t2, t4, t5, t6, t7⟩⟩
    exact ⟨_, ⟨h1, t1⟩, _, ⟨h2, t2⟩, _, h3, _, ⟨h4, t4⟩, _, ⟨h5, t5⟩, _, ⟨h6, t6⟩, _, ⟨h7, t7⟩, rfl⟩

theorem boards_from {first n : ℕ} {boards : List ConcentratorBoardConfig} :
    (List.range' first n).mapM (boardAt fields) = .ok boards ↔ boards.length = n ∧
      Holds fields ((boards.zipIdx first).flatMap fun (b, i) => boardFields i b) ∧
        ∀ b ∈ boards, BoardTyped b := by
  induction n generalizing first boards with
  | zero =>
    rw [List.length_eq_zero_iff]
    constructor
    · intro h
      obtain rfl := pure_eq_ok.mp h
      simp [Holds]
    · rintro ⟨rfl, -⟩
      rfl
  | succ n ih =>
    simp only [List.range'_succ, List.mapM_cons, bind_eq_ok, boardAt_ok, ih, pure_eq_ok]
    constructor
    · rintro ⟨b, ⟨hb, htyped⟩, rest, ⟨rfl, hrest, hall⟩, rfl⟩
      refine ⟨rfl, ?_, List.forall_mem_cons.mpr ⟨htyped, hall⟩⟩
      rw [List.zipIdx_cons, List.flatMap_cons]
      exact List.forall_mem_append.mpr ⟨hb, hrest⟩
    · rintro ⟨hlength, hfields, hall⟩
      cases boards with
      | nil => cases hlength
      | cons b rest =>
        rw [List.zipIdx_cons, List.flatMap_cons] at hfields
        obtain ⟨hb, hrest⟩ := List.forall_mem_append.mp hfields
        obtain ⟨htyped, hall⟩ := List.forall_mem_cons.mp hall
        exact ⟨b, ⟨hb, htyped⟩, rest, ⟨Nat.succ.inj hlength, hrest, hall⟩, rfl⟩

theorem boards_ok {n : ℕ} {boards : List ConcentratorBoardConfig} :
    (List.range n).mapM (boardAt fields) = .ok boards ↔
      boards.length = n ∧ Holds fields (boardsFields boards) ∧ ∀ b ∈ boards, BoardTyped b := by
  rw [List.range_eq_range']
  exact boards_from

/-- The numbers of the concentrator settings are values of their types. -/
structure ConcentratorsTyped (c : ConcentratorConfig) : Prop where
  count : c.boards.length = 1 ∨ c.boards.length = 2
  step : c.scanStepHz < 2 ^ 32
  samples : c.scanSamples < 2 ^ 32
  boards : ∀ b ∈ c.boards, BoardTyped b

theorem concentratorFields_ok {c : ConcentratorConfig} :
    concentratorFields version fields = .ok c ↔ Holds fields (concentratorSettings c) ∧
      ConcentratorsTyped c ∧ fields.length = (if version = 8 then 28 else 27) + c.boards.length * 7 := by
  simp only [concentratorFields, bind_eq_ok, unsigned_ok, reject_eq_ok, boolean_ok, boards_ok, pure_eq_ok,
    concentratorSettings]
  constructor
  · rintro ⟨n, ⟨h1, t1⟩, _, hcount, _, h2, _, h3, _, ⟨h4, t4⟩, _, ⟨h5, t5⟩, boards, ⟨rfl, h6, t6⟩, rfl⟩
    rw [not_or, not_or, not_not] at hcount
    refine ⟨?_, ⟨by simp only; omega, t4, t5, t6⟩, hcount.2.2⟩
    exact List.forall_mem_append.mpr ⟨by simp [h1, h2, h3, h4, h5], h6⟩
  · rintro ⟨hfields, ⟨hcount, t4, t5, t6⟩, hlength⟩
    obtain ⟨hsettings, h6⟩ := List.forall_mem_append.mp hfields
    simp only [List.forall_mem_cons, List.not_mem_nil, IsEmpty.forall_iff, implies_true, and_true] at hsettings
    obtain ⟨h1, h2, h3, h4, h5⟩ := hsettings
    exact ⟨_, ⟨h1, by omega⟩, (), by omega, _, h2, _, h3, _, ⟨h4, t4⟩, _, ⟨h5, t5⟩, _, ⟨rfl, h6, t6⟩, rfl⟩

end Desktop

end OVMesh
