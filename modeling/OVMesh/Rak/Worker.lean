import OVMesh.Rak.Process

/-!
# The records of the worker

`packet_line` and the scan record of `rak_worker.c`, and how the host reads them.

* `packetLine`, `scanLine`: the lines that the worker writes.
* `numericDouble_printFixed`, `hexBytes_hexText`: the fields are read back.
* `packetLine_read`, `scanLine_read`: the records are read back.
-/

namespace OVMesh

namespace Rak

open Checked Decimal Binary64
open BinaryFormat (roundEven roundEven_mono roundEven_intCast roundEven_eq)

/-! ## Fields -/

/-- The number of units of a value in its last printed decimal. -/
def units (k : ℕ) (v : ℚ) : ℕ := (roundEven (|v| * 10 ^ k)).toNat

/-- A value rounded to some decimals. -/
def rounded (k : ℕ) (v : ℚ) : ℚ := if v < 0 then -(units k v / 10 ^ k : ℚ) else units k v / 10 ^ k

/-- `%.kf` of a finite value. A negative zero is printed like zero. -/
def printFixed (k : ℕ) (v : ℚ) : Text := fixed k (decide (v < 0)) (units k v)

/-- The table `hex`. -/
def hexChar (n : ℕ) : UInt8 := if n < 10 then digit n else UInt8.ofNat (87 + n)

/-- The bytes in hexadecimal digits, as the worker prints them. -/
def hexText (bytes : List UInt8) : Text :=
  bytes.flatMap fun b => [hexChar (b.toNat / 16), hexChar (b.toNat % 16)]

/-- The fields between spaces. -/
def words (fields : List Text) : Text := [32].intercalate fields

/-! ## Lines -/

/-- The longest line of the worker. -/
def rakLineMax : ℕ := 1024

/-- The fields of `lgw_pkt_rx_s` that the worker reads. The payload is the bytes that `size` counts,
and a floating-point field that is not finite is `none`. -/
structure LgwPktRx where
  freqHz : UInt32
  status : UInt8
  countUs : UInt32
  modulation : UInt8
  bandwidth : UInt8
  datarate : UInt32
  coderate : UInt8
  rssis : Option ℚ
  snr : Option ℚ
  payload : List UInt8

/-- `STAT_CRC_OK`: the checksum of the packet is right. -/
def LgwPktRx.valid (p : LgwPktRx) : Bool := p.status == 0x10

/-- `bandwidth_hz`: the bandwidth that a code of the concentrator stands for, or zero. -/
def bandwidthHz (value : UInt8) : ℕ :=
  if value = 0x04 then 125000 else if value = 0x05 then 250000 else if value = 0x06 then 500000 else 0

/-- The first check of `packet_line`, without the floating-point fields. -/
def LgwPktRx.Supported (p : LgwPktRx) : Prop :=
  p.modulation = 0x10 ∧ bandwidthHz p.bandwidth ≠ 0 ∧ 7 ≤ p.datarate.toNat ∧ p.datarate.toNat ≤ 12 ∧
    1 ≤ p.coderate.toNat ∧ p.coderate.toNat ≤ 4 ∧ p.payload.length ≤ 255

instance (p : LgwPktRx) : Decidable p.Supported := inferInstanceAs (Decidable (_ ∧ _))

/-- The fields of a packet record before the payload. -/
def packetFields (p : LgwPktRx) (rssis snr : ℚ) : List Text :=
  [ascii "PACKET", decimal p.freqHz.toNat, decimal (bandwidthHz p.bandwidth),
    decimal p.datarate.toNat, decimal (p.coderate.toNat + 4), printFixed 3 rssis,
    printFixed 3 snr, decimal (if p.valid then 1 else 0), decimal p.countUs.toNat]

/-- `packet_line`: the line of a packet that the worker supports. -/
def packetLine (p : LgwPktRx) : Option Text :=
  match p.rssis, p.snr with
  | some rssis, some snr =>
    if ¬ p.Supported then none
    else
      let head := words (packetFields p rssis snr) ++ [32]
      if head.length + 2 * p.payload.length + 3 ≥ rakLineMax then none
      else
        some (head ++ (if p.valid = false ∨ p.payload = [] then ascii "-" else hexText p.payload) ++
          [10])
  | _, _ => none

/-- A reading of the monotonic clock. -/
structure Timespec where
  sec : ℕ
  nsec : ℕ
  sec_lt : sec < 2 ^ 63 := by decide
  nsec_lt : nsec < 1000000000 := by decide

/-- A time in nanoseconds. -/
def Timespec.nanoseconds (t : Timespec) : ℕ := t.sec * 1000000000 + t.nsec

/-- `monotonic_now`: the time in seconds, rounded as the sum of two doubles. -/
def monotonicNow (t : Timespec) : ℚ := nearest (nearest t.sec + nearest (t.nsec / 1000000000))

/-- The scan record of `main`. -/
def scanLine (frequency : ℕ) (start finish : ℚ) (counts : List ℕ) : Option Text :=
  let line := words (ascii "SCAN" :: decimal frequency :: printFixed 9 start ::
    printFixed 9 finish :: counts.map decimal)
  if line.length + 2 ≥ rakLineMax then none else some (line ++ [10])

/-! ## Reading the fields -/

theorem numeric_decimal {bits n : ℕ} (h : n < 2 ^ bits) : numeric bits (decimal n) = .ok n := by
  have hdigits : (decimal n).all isDigit = true := List.all_eq_true.mpr isDigit_decimal
  simp only [numeric, bind_eq_ok, reject_eq_ok, pure_eq_ok]
  exact ⟨(), by simp [decimal_ne_nil, hdigits, h], value_decimal n⟩

theorem numericDouble_printFixed {k : ℕ} {v : ℚ} (hlength : (printFixed k v).length ≤ 40)
    (hfinite : |rounded k v| ≤ 2 ^ (1023 : ℤ)) :
    numericDouble (printFixed k v) = .ok (nearest (rounded k v)) := by
  have hread : readDecimal (printFixed k v) = some (rounded k v) := by
    rw [printFixed, readDecimal_fixed, rounded]
    by_cases h : v < 0 <;> simp [h]
  have hoverflow : ¬ |nearest (rounded k v)| ≥ overflow := by
    refine not_le.mpr ((abs_nearest_le (by norm_num) hfinite).trans_lt ?_)
    rw [overflow, ← zpow_natCast]
    exact zpow_lt_zpow_right₀ (by norm_num) (by norm_num)
  simp only [numericDouble, hread, bind_eq_ok, reject_eq_ok, pure_eq_ok]
  exact ⟨(), not_lt.mpr hlength, (), hoverflow, trivial⟩

theorem hexDigit_hexChar {n : ℕ} (h : n < 16) : hexDigit (hexChar n) = .ok n := by
  interval_cases n <;> rfl

theorem hexBytes_hexText (bytes : List UInt8) : hexBytes (hexText bytes) = .ok bytes := by
  induction bytes with
  | nil => simp [hexText, hexBytes, pure, Except.pure]
  | cons b bytes ih =>
    have hb := b.toNat_lt
    have hbyte : UInt8.ofNat (b.toNat / 16 * 16 + b.toNat % 16) = b := by
      rw [Nat.div_add_mod', UInt8.ofNat_toNat]
    show hexBytes (hexChar _ :: hexChar _ :: hexText bytes) = _
    simp only [hexBytes, bind_eq_ok, pure_eq_ok]
    exact ⟨_, hexDigit_hexChar (by omega), _, hexDigit_hexChar (by omega), _, ih, by rw [hbyte]⟩

/-! ## Reading the fields of a line -/

/-- A text that can stand between spaces. -/
def Visible (field : Text) : Prop := field ≠ [] ∧ ∀ b ∈ field, 33 ≤ b ∧ b ≤ 126

instance (field : Text) : Decidable (Visible field) :=
  @instDecidableAnd _ _ _ (List.decidableBAll _ field)

theorem visible_digit {b : UInt8} (h : isDigit b = true) : 33 ≤ b ∧ b ≤ 126 := by
  simp only [isDigit, Bool.and_eq_true, decide_eq_true_eq, UInt8.le_iff_toNat_le] at h ⊢
  simp at h ⊢
  omega

theorem visible_decimal (n : ℕ) : Visible (decimal n) :=
  ⟨decimal_ne_nil n, fun b hb => visible_digit (isDigit_decimal b hb)⟩

theorem visible_printFixed (k : ℕ) (v : ℚ) : Visible (printFixed k v) := by
  refine ⟨by simp [printFixed, fixed], fun b hb => ?_⟩
  obtain rfl | rfl | hdigit := mem_fixed hb
  · decide
  · decide
  · exact visible_digit hdigit

theorem visible_hexText {bytes : List UInt8} (hne : bytes ≠ []) : Visible (hexText bytes) := by
  have hchar : ∀ n < 16, 33 ≤ hexChar n ∧ hexChar n ≤ 126 := by
    decide
  refine ⟨?_, fun c hc => ?_⟩
  · cases bytes with
    | nil => exact absurd rfl hne
    | cons b bytes => exact List.cons_ne_nil _ _
  · obtain ⟨b, -, hb⟩ := List.mem_flatMap.mp hc
    have hlt := b.toNat_lt
    rcases List.mem_pair.mp hb with rfl | rfl
    · exact hchar _ (by omega)
    · exact hchar _ (by omega)

/-- The fields of a line are found at its spaces. -/
theorem splitOn_words {fields : List Text} (hne : fields ≠ [])
    (h : ∀ field ∈ fields, Visible field) : (words fields).splitOn 32 = fields :=
  List.splitOn_intercalate 32 (fun field hfield hspace =>
    absurd ((h field hfield).2 32 hspace).1 (by decide)) hne

@[simp] theorem words_singleton (field : Text) : words [field] = field := by
  simp [words, List.intercalate]

@[simp] theorem words_cons (a b : Text) (fields : List Text) :
    words (a :: b :: fields) = a ++ 32 :: words (b :: fields) := by
  simp [words, List.intercalate]

theorem printable_words {fields : List Text} (h : ∀ field ∈ fields, Visible field) :
    ∀ b ∈ words fields, 32 ≤ b ∧ b ≤ 126 := by
  have hwider : ∀ b : UInt8, 33 ≤ b ∧ b ≤ 126 → 32 ≤ b ∧ b ≤ 126 :=
    fun b hb => ⟨UInt8.le_trans (by decide) hb.1, hb.2⟩
  induction fields with
  | nil => exact fun b hb => absurd hb List.not_mem_nil
  | cons a fields ih =>
    obtain ⟨ha, hfields⟩ := List.forall_mem_cons.mp h
    cases fields with
    | nil =>
      rw [words_singleton]
      exact fun b hb => hwider b (ha.2 b hb)
    | cons a' fields =>
      intro b hb
      rw [words_cons, List.mem_append, List.mem_cons] at hb
      obtain hb | rfl | hb := hb
      · exact hwider b (ha.2 b hb)
      · decide
      · exact ih hfields b hb

theorem length_words {fields : List Text} (hne : fields ≠ []) :
    (words fields).length + 1 = (fields.map fun field => field.length + 1).sum := by
  induction fields with
  | nil => exact absurd rfl hne
  | cons a fields ih =>
    cases fields with
    | nil => simp
    | cons a' fields =>
      have := ih (List.cons_ne_nil _ _)
      rw [words_cons, List.length_append, List.length_cons, List.map_cons, List.sum_cons]
      omega

/-- A line of visible fields is accepted by the host as its fields are. -/
theorem line_words (kind : Text) (arguments : List Text)
    (hvisible : ∀ field ∈ kind :: arguments, Visible field) (hcount : arguments.length < 48)
    (hlength : (words (kind :: arguments)).length ≤ 2048) :
    parseRakMessage (words (kind :: arguments)) = parseFields kind arguments ∧
      ∀ b ∈ words (kind :: arguments), 32 ≤ b ∧ b ≤ 126 := by
  have hsplit := splitOn_words (List.cons_ne_nil kind arguments) hvisible
  have hne : [] ∉ kind :: arguments := fun hmem => (hvisible [] hmem).1 rfl
  have hnil : words (kind :: arguments) ≠ [] := by
    intro hnil
    rw [hnil] at hsplit
    obtain ⟨rfl, -⟩ := List.cons.inj hsplit
    exact hne List.mem_cons_self
  have hbad : ¬ (words (kind :: arguments) = [] ∨ (words (kind :: arguments)).length > 2048 ∨
      (kind :: arguments).length > 48 ∨ [] ∈ kind :: arguments) := by
    rintro (h | h | h | h)
    · exact hnil h
    · omega
    · rw [List.length_cons] at h
      omega
    · exact hne h
  refine ⟨?_, printable_words hvisible⟩
  rw [parseRakMessage, hsplit]
  simp only [reject, if_neg hbad]
  rfl

theorem words_concat {fields : List Text} (hne : fields ≠ []) (field : Text) :
    words (fields ++ [field]) = words fields ++ 32 :: field := by
  induction fields with
  | nil => exact absurd rfl hne
  | cons a fields ih =>
    cases fields with
    | nil => simp
    | cons a' fields =>
      have := ih (List.cons_ne_nil _ _)
      rw [List.cons_append] at this
      rw [List.cons_append, List.cons_append, words_cons, this, words_cons, List.append_assoc]
      rfl

/-! ## Rounded values -/

theorem units_le {k n : ℕ} {v : ℚ} (h : |v| ≤ n) : units k v ≤ n * 10 ^ k := by
  have hle : |v| * 10 ^ k ≤ ((n * 10 ^ k : ℕ) : ℤ) := by
    push_cast
    exact mul_le_mul_of_nonneg_right h (by positivity)
  have := roundEven_mono hle
  rw [roundEven_intCast] at this
  unfold units
  omega

/-- Bounds of whole units survive the printed decimals. -/
theorem rounded_mem {k : ℕ} {v : ℚ} (low high : ℕ) (hlow : -(low : ℚ) ≤ v) (hhigh : v ≤ high) :
    -(low : ℚ) ≤ rounded k v ∧ rounded k v ≤ high := by
  have hpow : (0 : ℚ) < 10 ^ k := by positivity
  have hdiv : ∀ n : ℕ, |v| ≤ n → (units k v / 10 ^ k : ℚ) ≤ n := by
    intro n hn
    rw [div_le_iff₀ hpow]
    exact_mod_cast units_le hn
  have h0 : (0 : ℚ) ≤ units k v / 10 ^ k := by positivity
  unfold rounded
  split <;> rename_i hv
  · have := hdiv low (by rw [abs_of_neg hv]; linarith)
    have : (0 : ℚ) ≤ high := Nat.cast_nonneg _
    constructor <;> linarith
  · have := hdiv high (by rwa [abs_of_nonneg (not_lt.mp hv)])
    have : (0 : ℚ) ≤ low := Nat.cast_nonneg _
    constructor <;> linarith

theorem length_printFixed {k n j : ℕ} {v : ℚ} (hj : 0 < j) (hv : |v| ≤ n) (hn : n < 10 ^ j) :
    (printFixed k v).length ≤ j + k + 2 := by
  have hle : units k v / 10 ^ k < 10 ^ j := by
    refine (Nat.div_le_of_le_mul ?_).trans_lt hn
    rw [Nat.mul_comm]
    exact units_le hv
  have := length_fixed_le (decide (v < 0)) hj hle
  unfold printFixed
  omega

/-- A printed value is read back when its magnitude is printed with at most 28 digits. -/
theorem numericDouble_rounded {k n j : ℕ} {v : ℚ} (hj : 0 < j) (hjk : j + k ≤ 38) (hv : |v| ≤ n)
    (hn : n < 10 ^ j) : numericDouble (printFixed k v) = .ok (nearest (rounded k v)) := by
  have hlength := length_printFixed (k := k) hj hv hn
  refine numericDouble_printFixed (by omega) ?_
  obtain ⟨hlow, hhigh⟩ := abs_le.mp hv
  have hmem := rounded_mem (k := k) _ _ hlow hhigh
  have hnat : (n : ℚ) ≤ 2 ^ (1023 : ℤ) := by
    have h1 : (n : ℚ) ≤ 10 ^ 38 := by
      have : n ≤ 10 ^ 38 := hn.le.trans (Nat.pow_le_pow_right (by norm_num) (by omega))
      exact_mod_cast this
    refine h1.trans ?_
    have : (10 : ℚ) ^ 38 ≤ 2 ^ (200 : ℤ) := by norm_num
    exact this.trans (zpow_le_zpow_right₀ (by norm_num) (by norm_num))
  exact (abs_le.mpr hmem).trans hnat

/-! ## Packets -/

/-- The packet that the host reads. -/
def LgwPktRx.record (p : LgwPktRx) (rssis snr : ℚ) : PacketRecord where
  frequencyHz := p.freqHz.toNat
  bandwidthHz := bandwidthHz p.bandwidth
  spreadingFactor := p.datarate.toNat
  codingRate := p.coderate.toNat + 4
  rssiDbm := nearest (rounded 3 rssis)
  snrDb := nearest (rounded 3 snr)
  crcValid := p.valid
  hardwareTimestampUs := p.countUs.toNat
  payload := if p.valid then p.payload else []

/-- The payload field. -/
def payloadField (p : LgwPktRx) : Text :=
  if p.valid = false ∨ p.payload = [] then ascii "-" else hexText p.payload

theorem length_hexText (bytes : List UInt8) : (hexText bytes).length = 2 * bytes.length := by
  simp [hexText, Nat.mul_comm]

theorem parsePayload_payloadField {p : LgwPktRx} (hsize : p.payload.length ≤ 255) :
    parsePayload p.valid (payloadField p) = .ok (if p.valid then p.payload else []) := by
  unfold payloadField
  split <;> rename_i h
  · rcases h with h | h
    · simp [parsePayload, h, pure, Except.pure]
    · simp [parsePayload, h, pure, Except.pure]
  · obtain ⟨hvalid, hne⟩ := not_or.mp h
    have hdash : hexText p.payload ≠ ascii "-" := by
      intro heq
      have := congrArg List.length heq
      rw [length_hexText] at this
      have h1 : (ascii "-").length = 1 := rfl
      omega
    have htrue : p.valid = true := by simpa using hvalid
    have hlength := length_hexText p.payload
    simp only [parsePayload, if_neg hdash, bind_eq_ok, reject_eq_ok, htrue, if_true]
    refine ⟨(), ?_, hexBytes_hexText p.payload⟩
    simp only [Bool.true_eq_false, false_or, hlength]
    omega

theorem parsePacket_packetFields {p : LgwPktRx} {rssis snr : ℚ} (hp : p.Supported)
    (hf : 902000000 ≤ p.freqHz.toNat ∧ p.freqHz.toNat ≤ 928000000)
    (hrssi : -250 ≤ rssis ∧ rssis ≤ 100) (hsnr : -100 ≤ snr ∧ snr ≤ 100) :
    parsePacket ((packetFields p rssis snr).tail ++ [payloadField p]) =
      .ok (.packet (p.record rssis snr)) := by
  obtain ⟨-, hbw, hsf, hsf', hcr, hcr', hsize⟩ := hp
  have hbandwidth : bandwidthHz p.bandwidth = 125000 ∨ bandwidthHz p.bandwidth = 250000 ∨
      bandwidthHz p.bandwidth = 500000 := by
    unfold bandwidthHz at hbw ⊢
    split_ifs at hbw ⊢ <;> simp at hbw ⊢
  have hcount := p.countUs.toNat_lt
  have hr := rounded_mem (k := 3) 250 100 (by exact_mod_cast hrssi.1)
    (by exact_mod_cast hrssi.2)
  have hs := rounded_mem (k := 3) 100 100 (by exact_mod_cast hsnr.1)
    (by exact_mod_cast hsnr.2)
  have hr1 := intCast_le_nearest (n := -250) (by norm_num) (by exact_mod_cast hr.1)
  have hr2 := nearest_le_intCast (n := 100) (by norm_num) (by exact_mod_cast hr.2)
  have hs1 := intCast_le_nearest (n := -100) (by norm_num) (by exact_mod_cast hs.1)
  have hs2 := nearest_le_intCast (n := 100) (by norm_num) (by exact_mod_cast hs.2)
  push_cast at hr1 hr2 hs1 hs2
  have hcrc : ∀ b : Bool, ((if b then 1 else 0 : ℕ) == 1) = b := by decide
  have hpayload := parsePayload_payloadField hsize
  simp only [packetFields, List.tail_cons, List.cons_append, List.nil_append, parsePacket,
    bind_eq_ok, reject_eq_ok, pure_eq_ok]
  refine ⟨_, numeric_decimal (by omega), _, numeric_decimal (by omega), _,
    numeric_decimal (by omega), _, numeric_decimal (by omega), _,
    numericDouble_rounded (n := 250) (j := 3) (by norm_num) (by norm_num) ?_ (by norm_num), _,
    numericDouble_rounded (n := 100) (j := 3) (by norm_num) (by norm_num) ?_ (by norm_num), _,
    numeric_decimal (n := if p.valid then 1 else 0) (by split <;> norm_num), _,
    numeric_decimal (by omega), (), ?_, _, by rw [hcrc]; exact hpayload, ?_⟩
  · rw [abs_le]
    constructor <;> push_cast <;> linarith [hrssi.1, hrssi.2]
  · rw [abs_le]
    constructor <;> push_cast <;> linarith [hsnr.1, hsnr.2]
  · have hone : (if p.valid then 1 else 0 : ℕ) ≤ 1 := by split <;> norm_num
    simp only [not_or, not_lt, gt_iff_lt, not_and, not_not]
    exact ⟨hf.1, hf.2, by omega, hsf, hsf', by omega, by omega, hone, hr1, hr2, hs1, hs2⟩
  · rw [hcrc]
    rfl

/-- A packet in range is written and read. -/
theorem packetLine_read {p : LgwPktRx} {rssis snr : ℚ} (hp : p.Supported)
    (hrssis : p.rssis = some rssis) (hsnrs : p.snr = some snr)
    (hf : 902000000 ≤ p.freqHz.toNat ∧ p.freqHz.toNat ≤ 928000000)
    (hrssi : -250 ≤ rssis ∧ rssis ≤ 100) (hsnr : -100 ≤ snr ∧ snr ≤ 100) :
    ∃ line, packetLine p = some (line ++ [10]) ∧ (line ++ [10]).length < rakLineMax ∧
      Line line (.packet (p.record rssis snr)) := by
  have hsize := hp.2.2.2.2.2.2
  let fields := packetFields p rssis snr
  -- The longest spelling of each field, with the blanks between them.
  have hhead : (words fields).length ≤ 59 := by
    have hcount := p.countUs.toNat_lt
    have hcode := p.coderate.toNat_lt
    have hdata := hp.2.2.2.1
    have hbw : bandwidthHz p.bandwidth < 10 ^ 6 := by
      unfold bandwidthHz
      split_ifs <;> norm_num
    have h1 := length_decimal_le (n := p.freqHz.toNat) (k := 9) (by norm_num) (by omega)
    have h2 := length_decimal_le (k := 6) (by norm_num) hbw
    have h3 := length_decimal_le (n := p.datarate.toNat) (k := 2) (by norm_num) (by omega)
    have h4 := length_decimal_le (n := p.coderate.toNat + 4) (k := 1) (by norm_num) (by
      have := hp.2.2.2.2.2.1
      omega)
    have h5 := length_printFixed (k := 3) (j := 3) (n := 250) (v := rssis) (by norm_num)
      (by rw [abs_le]; constructor <;> push_cast <;> linarith [hrssi.1, hrssi.2]) (by norm_num)
    have h6 := length_printFixed (k := 3) (j := 3) (n := 100) (v := snr) (by norm_num)
      (by rw [abs_le]; constructor <;> push_cast <;> linarith [hsnr.1, hsnr.2]) (by norm_num)
    have h7 := length_decimal_le (n := if p.valid then 1 else 0) (k := 1) (by norm_num)
      (by split <;> norm_num)
    have h8 := length_decimal_le (n := p.countUs.toNat) (k := 10) (by norm_num) (by omega)
    have hkind : (ascii "PACKET").length = 6 := rfl
    have hsum := length_words (show fields ≠ [] from List.cons_ne_nil _ _)
    simp only [fields, packetFields, List.map_cons, List.map_nil, List.sum_cons, List.sum_nil] at *
    omega
  have hfield : (payloadField p).length ≤ 510 ∧ (payloadField p).length ≤ 2 * p.payload.length + 1 := by
    have := length_hexText p.payload
    unfold payloadField
    split
    · exact ⟨by decide, by simp [ascii]⟩
    · omega
  have hline : words (fields ++ [payloadField p]) = words fields ++ 32 :: payloadField p :=
    words_concat (List.cons_ne_nil _ _) _
  have hlength : (words (fields ++ [payloadField p])).length ≤ 570 := by
    rw [hline, List.length_append, List.length_cons]
    omega
  refine ⟨words (fields ++ [payloadField p]), ?_, ?_, ?_⟩
  · have hroom : ¬ (words fields ++ [32]).length + 2 * p.payload.length + 3 ≥ rakLineMax := by
      rw [List.length_append, List.length_singleton, rakLineMax]
      omega
    rw [packetLine, hrssis, hsnrs]
    simp only []
    rw [if_neg (not_not.mpr hp), if_neg hroom, hline]
    simp [fields, payloadField]
  · rw [List.length_append, List.length_singleton, rakLineMax]
    omega
  · have hvisible : ∀ field ∈ fields ++ [payloadField p], Visible field := by
      intro field hmem
      simp only [fields, packetFields, List.cons_append, List.nil_append, List.mem_cons,
        List.not_mem_nil, or_false] at hmem
      rcases hmem with rfl | rfl | rfl | rfl | rfl | rfl | rfl | rfl | rfl | rfl
      · decide
      · exact visible_decimal _
      · exact visible_decimal _
      · exact visible_decimal _
      · exact visible_decimal _
      · exact visible_printFixed _ _
      · exact visible_printFixed _ _
      · exact visible_decimal _
      · exact visible_decimal _
      · unfold payloadField
        split <;> rename_i h
        · decide
        · exact visible_hexText (not_or.mp h).2
    obtain ⟨hparse, hprintable⟩ := line_words (ascii "PACKET")
      (fields.tail ++ [payloadField p]) hvisible (by simp [fields, packetFields])
      (hlength.trans (by norm_num))
    refine ⟨hlength.trans (by norm_num), hprintable, hparse.trans ?_⟩
    -- The host tells a packet from the other records by its first word.
    have hkinds : ascii "PACKET" ≠ ascii "ERROR" ∧ ascii "PACKET" ≠ ascii "READY" ∧
        ascii "PACKET" ≠ ascii "HEARTBEAT" ∧ ascii "PACKET" ≠ ascii "END" ∧
        ascii "PACKET" ≠ ascii "SCAN" := by decide
    have hcount : (fields.tail ++ [payloadField p]).length = 9 := rfl
    simp only [parseFields, hkinds, hcount, false_and, if_false, and_self, if_true]
    exact parsePacket_packetFields hp hf hrssi hsnr

/-! ## Times -/

/-- The time that the host reads. -/
def hostTime (t : Timespec) : ℚ := nearest (rounded 9 (monotonicNow t))

theorem monotonicNow_nonneg (t : Timespec) : 0 ≤ monotonicNow t :=
  nearest_nonneg (add_nonneg (nearest_nonneg (Nat.cast_nonneg _)) (nearest_nonneg (by positivity)))

theorem abs_monotonicNow_le (t : Timespec) : |monotonicNow t| ≤ (2 ^ 64 : ℕ) := by
  have hsec : |nearest (t.sec : ℚ)| ≤ 2 ^ (63 : ℤ) := by
    refine abs_nearest_le (by norm_num) ?_
    rw [abs_of_nonneg (Nat.cast_nonneg _)]
    exact_mod_cast t.sec_lt.le
  have hnsec : |nearest (t.nsec / 1000000000 : ℚ)| ≤ 2 ^ (0 : ℤ) := by
    refine abs_nearest_le (by norm_num) ?_
    have h : (t.nsec : ℚ) ≤ 1000000000 := by exact_mod_cast t.nsec_lt.le
    rw [abs_of_nonneg (by positivity), zpow_zero, div_le_one (by norm_num)]
    exact h
  have hsum : |nearest (t.sec : ℚ) + nearest (t.nsec / 1000000000 : ℚ)| ≤ 2 ^ (64 : ℤ) := by
    refine (abs_add_le _ _).trans ((add_le_add hsec hnsec).trans ?_)
    norm_num
  have := abs_nearest_le (by norm_num) hsum
  rw [monotonicNow]
  exact_mod_cast this

theorem hostTime_nonneg (t : Timespec) : 0 ≤ hostTime t := by
  refine nearest_nonneg ?_
  rw [rounded, if_neg (not_lt.mpr (monotonicNow_nonneg t))]
  positivity

/-- Below `2 ^ 23` seconds the clock is printed to the nanosecond. -/
theorem rounded_monotonicNow {t : Timespec} (h : t.sec < 2 ^ 23) :
    rounded 9 (monotonicNow t) = t.nanoseconds / 10 ^ 9 := by
  have hnsec := t.nsec_lt
  have hx : |(t.nsec / 1000000000 : ℚ)| < 2 ^ (0 : ℤ) := by
    have h : (t.nsec : ℚ) < 1000000000 := by exact_mod_cast hnsec
    rw [abs_of_nonneg (by positivity), zpow_zero, div_lt_one (by norm_num)]
    exact h
  have hsec : nearest (t.sec : ℚ) = t.sec := by
    have := nearest_intCast (n := t.sec) (by rw [abs_of_nonneg (by positivity)]; omega)
    exact_mod_cast this
  have hx' := abs_le.mp (abs_nearest_sub_le (by norm_num) hx)
  have hlast : (t.nsec / 1000000000 : ℚ) ≤ 999999999 / 1000000000 := by
    have h : (t.nsec : ℚ) ≤ 999999999 := by exact_mod_cast Nat.le_of_lt_succ hnsec
    linarith
  have hsec' : (t.sec : ℚ) + 1 ≤ 2 ^ (23 : ℤ) := by
    have hnat : t.sec + 1 ≤ 8388608 := by omega
    have hcast : (t.sec : ℚ) + 1 ≤ 8388608 := by exact_mod_cast hnat
    have hpower : (2 : ℚ) ^ (23 : ℤ) = 8388608 := by norm_num
    rwa [hpower]
  have hfraction := nearest_nonneg (x := (t.nsec / 1000000000 : ℚ)) (by positivity)
  have hsum : |(t.sec + nearest (t.nsec / 1000000000) : ℚ)| < 2 ^ (23 : ℤ) := by
    rw [abs_of_nonneg (add_nonneg (Nat.cast_nonneg _) hfraction)]
    have : (2 : ℚ) ^ (0 - 54 : ℤ) < 1 / 1000000000 := by norm_num
    linarith
  have hsum' := abs_le.mp (abs_nearest_sub_le (by norm_num) hsum)
  have hunits : units 9 (monotonicNow t) = t.nanoseconds := by
    have hround : roundEven (|monotonicNow t| * 10 ^ 9) = t.nanoseconds := by
      refine roundEven_eq ?_
      rw [abs_of_nonneg (monotonicNow_nonneg t), monotonicNow, hsec, Timespec.nanoseconds, abs_lt]
      push_cast
      have h1 : (2 : ℚ) ^ (0 - 54 : ℤ) = 1 / 18014398509481984 := by norm_num
      have h2 : (2 : ℚ) ^ (23 - 54 : ℤ) = 1 / 2147483648 := by norm_num
      rw [h1] at hx'
      rw [h2] at hsum'
      constructor <;> linarith [hx'.1, hx'.2, hsum'.1, hsum'.2]
    rw [units, hround, Int.toNat_natCast]
  rw [rounded, if_neg (not_lt.mpr (monotonicNow_nonneg t)), hunits]

theorem hostTime_eq {t : Timespec} (h : t.sec < 2 ^ 23) :
    hostTime t = nearest (t.nanoseconds / 10 ^ 9) := by
  rw [hostTime, rounded_monotonicNow h]

/-- Two readings less than five seconds apart are read in order and less than five seconds apart. -/
theorem hostTime_interval {a b : Timespec} (ha : a.sec < 2 ^ 23) (hb : b.sec < 2 ^ 23)
    (hlt : a.nanoseconds < b.nanoseconds) (hfive : b.nanoseconds < a.nanoseconds + 5000000000) :
    hostTime a < hostTime b ∧ nearest (hostTime b - hostTime a) ≤ 5 := by
  have hsmall : ∀ t : Timespec, t.sec < 2 ^ 23 → |(t.nanoseconds / 10 ^ 9 : ℚ)| < 2 ^ (23 : ℤ) := by
    intro t ht
    have hnsec := t.nsec_lt
    have h : (t.nanoseconds : ℚ) < 2 ^ 23 * 10 ^ 9 := by
      have : t.nanoseconds < 2 ^ 23 * 10 ^ 9 := by
        unfold Timespec.nanoseconds
        omega
      exact_mod_cast this
    rw [abs_of_nonneg (div_nonneg (Nat.cast_nonneg _) (by norm_num)), div_lt_iff₀ (by norm_num)]
    exact_mod_cast h
  have hlt' : (a.nanoseconds : ℚ) + 1 ≤ b.nanoseconds := by exact_mod_cast hlt
  have hfive' : (b.nanoseconds : ℚ) + 1 ≤ a.nanoseconds + 5000000000 := by exact_mod_cast hfive
  have ha' := abs_le.mp (abs_nearest_sub_le (by norm_num) (hsmall a ha))
  have hb' := abs_le.mp (abs_nearest_sub_le (by norm_num) (hsmall b hb))
  have hunit : (2 : ℚ) ^ (23 - 54 : ℤ) = 1 / 2147483648 := by norm_num
  rw [hunit] at ha' hb'
  rw [hostTime_eq ha, hostTime_eq hb]
  refine ⟨nearest_lt_nearest (n := 23) (by norm_num) (hsmall a ha) (hsmall b hb) ?_, ?_⟩
  · have : (2 : ℚ) ^ (23 - 53 : ℤ) = 1 / 1073741824 := by norm_num
    rw [this]
    linarith
  · have h5 := nearest_le_intCast (n := 5)
      (x := nearest (b.nanoseconds / 10 ^ 9) - nearest (a.nanoseconds / 10 ^ 9)) (by norm_num)
      (by push_cast; linarith [ha'.1, ha'.2, hb'.1, hb'.2])
    exact_mod_cast h5

/-! ## Scans -/

/-- The fields of a scan record. -/
def scanFields (frequency : ℕ) (start finish : ℚ) (counts : List ℕ) : List Text :=
  decimal frequency :: printFixed 9 start :: printFixed 9 finish :: counts.map decimal

theorem mapM_numeric {counts : List ℕ} (h : ∀ n ∈ counts, n < 2 ^ 32) :
    (counts.map decimal).mapM (numeric 32) = .ok counts := by
  induction counts with
  | nil => rfl
  | cons n counts ih =>
    obtain ⟨hn, hcounts⟩ := List.forall_mem_cons.mp h
    rw [List.map_cons, List.mapM_cons, numeric_decimal hn, ih hcounts]
    rfl

theorem parseScan_scanFields {f : ℕ} {a b : Timespec} {counts : List ℕ}
    (hf : 902000000 ≤ f ∧ f ≤ 928000000) (hsum : counts.sum = 2000) :
    parseScan (scanFields f (monotonicNow a) (monotonicNow b) counts) =
      if hostTime a < hostTime b ∧ nearest (hostTime b - hostTime a) ≤ 5 then
        .ok (.scan {
          frequencyHz := f, monotonicStart := hostTime a, monotonicEnd := hostTime b,
          counts := counts })
      else .error malformed := by
  have hcounts : ∀ n ∈ counts, n < 2 ^ 32 := by
    intro n hn
    have := List.single_le_sum (fun _ _ => Nat.zero_le _) n hn
    omega
  have htime : ∀ t, numericDouble (printFixed 9 (monotonicNow t)) = .ok (hostTime t) := fun t =>
    numericDouble_rounded (j := 20) (by norm_num) (by norm_num) (abs_monotonicNow_le t) (by norm_num)
  have h0 := hostTime_nonneg a
  simp only [scanFields, parseScan, numeric_decimal (show f < 2 ^ 64 by omega), htime]
  show (reject _ malformed >>= fun _ => _) = _
  by_cases hinterval : hostTime a < hostTime b ∧ nearest (hostTime b - hostTime a) ≤ 5
  · have hrange : ¬ (f < 902000000 ∨ f > 928000000 ∨ hostTime a < 0 ∨ hostTime b ≤ hostTime a ∨
        nearest (hostTime b - hostTime a) > 5) := by
      simp only [not_or, not_lt, not_le, gt_iff_lt]
      exact ⟨hf.1, hf.2, h0, hinterval⟩
    rw [if_pos hinterval, reject, if_neg hrange]
    show (List.mapM (numeric 32) _ >>= fun _ => _) = _
    rw [mapM_numeric hcounts]
    show (reject (counts.sum ≠ 2000) malformed >>= fun _ => _) = _
    rw [reject, if_neg (not_not.mpr hsum)]
    rfl
  · have hrange : f < 902000000 ∨ f > 928000000 ∨ hostTime a < 0 ∨ hostTime b ≤ hostTime a ∨
        nearest (hostTime b - hostTime a) > 5 := by
      by_contra h
      simp only [not_or, not_lt, not_le, gt_iff_lt] at h
      exact hinterval h.2.2.2
    rw [if_neg hinterval, reject, if_pos hrange]
    rfl

/-- A scan is written, and read when the read times are in order and at most five seconds apart. -/
theorem scanLine_read {f : ℕ} {a b : Timespec} {counts : List ℕ}
    (hf : 902000000 ≤ f ∧ f ≤ 928000000) (hbins : counts.length = 33) (hsum : counts.sum = 2000) :
    ∃ line, scanLine f (monotonicNow a) (monotonicNow b) counts = some (line ++ [10]) ∧
      (line ++ [10]).length < rakLineMax ∧ line.length ≤ 2048 ∧
      (∀ b ∈ line, 32 ≤ b ∧ b ≤ 126) ∧
      parseRakMessage line =
        if hostTime a < hostTime b ∧ nearest (hostTime b - hostTime a) ≤ 5 then
          .ok (.scan {
            frequencyHz := f, monotonicStart := hostTime a, monotonicEnd := hostTime b,
            counts := counts })
        else .error malformed := by
  let arguments := scanFields f (monotonicNow a) (monotonicNow b) counts
  -- The kind, two clock readings of 31 bytes, the frequency and 33 counts of four digits stay within
  -- the buffer.
  have hlength : (words (ascii "SCAN" :: arguments)).length ≤ 250 := by
    have h1 := length_decimal_le (n := f) (k := 9) (by norm_num) (by omega)
    have htime : ∀ t, (printFixed 9 (monotonicNow t)).length ≤ 31 := fun t =>
      length_printFixed (j := 20) (by norm_num) (abs_monotonicNow_le t) (by norm_num)
    have ha := htime a
    have hb := htime b
    have hcounts : ((counts.map decimal : List Text).map fun field => field.length + 1).sum ≤
        33 * 5 := by
      have hfield : ∀ x ∈ (counts.map decimal : List Text).map (fun field => field.length + 1),
          x ≤ 5 := by
        intro x hx
        simp only [List.map_map, List.mem_map, Function.comp_apply] at hx
        obtain ⟨n, hn, rfl⟩ := hx
        have := List.single_le_sum (fun _ _ => Nat.zero_le _) n hn
        have := length_decimal_le (n := n) (k := 4) (by norm_num) (by omega)
        omega
      have := List.sum_le_card_nsmul _ 5 hfield
      rwa [List.length_map, List.length_map, hbins, nsmul_eq_mul, Nat.cast_id] at this
    have hkind : (ascii "SCAN").length = 4 := rfl
    have hwords := length_words (List.cons_ne_nil (ascii "SCAN") arguments)
    simp only [arguments, scanFields, List.map_cons, List.sum_cons] at *
    omega
  -- No field has a blank or a byte that cannot be printed, so the line splits into the same fields.
  have hvisible : ∀ field ∈ ascii "SCAN" :: arguments, Visible field := by
    intro field hmem
    simp only [arguments, scanFields, List.mem_cons, List.mem_map] at hmem
    rcases hmem with rfl | rfl | rfl | rfl | ⟨n, -, rfl⟩
    · decide
    · exact visible_decimal _
    · exact visible_printFixed _ _
    · exact visible_printFixed _ _
    · exact visible_decimal _
  have hcount : arguments.length = 36 := by simp [arguments, scanFields, hbins]
  obtain ⟨hparse, hprintable⟩ := line_words (ascii "SCAN") arguments hvisible
    (by omega) (by omega)
  refine ⟨words (ascii "SCAN" :: arguments), ?_, ?_, by omega, hprintable, hparse.trans ?_⟩
  · rw [scanLine, if_neg]
    · rfl
    · show ¬ (words (ascii "SCAN" :: arguments)).length + 2 ≥ rakLineMax
      rw [rakLineMax]
      omega
  · rw [List.length_append, List.length_singleton, rakLineMax]
    omega
  · have hkinds : ascii "SCAN" ≠ ascii "ERROR" ∧ ascii "SCAN" ≠ ascii "READY" ∧
        ascii "SCAN" ≠ ascii "HEARTBEAT" ∧ ascii "SCAN" ≠ ascii "END" := by decide
    simp only [parseFields, hkinds, hcount, false_and, if_false, and_self, if_true]
    exact parseScan_scanFields hf hsum

/-! ## Agreement -/

/-- The interval from 3.3 to 8.3 seconds is read as longer than five seconds. -/
theorem read_interval_long :
    5 < nearest (hostTime ⟨8, 300000000, by decide, by decide⟩ -
      hostTime ⟨3, 300000000, by decide, by decide⟩) := by
  have hstart : hostTime ⟨3, 300000000, by decide, by decide⟩ =
      (7430939385161318 : ℤ) * 2 ^ (1 - 52 : ℤ) := by
    rw [hostTime_eq (by norm_num)]
    refine nearest_eq (by norm_num) ?_ ?_ ?_ <;> norm_num [Timespec.nanoseconds, abs_lt, abs_div]
  have hfinish : hostTime ⟨8, 300000000, by decide, by decide⟩ =
      (4672484613396890 : ℤ) * 2 ^ (3 - 52 : ℤ) := by
    rw [hostTime_eq (by norm_num)]
    refine nearest_eq (by norm_num) ?_ ?_ ?_ <;> norm_num [Timespec.nanoseconds, abs_lt, abs_div]
  have hdifference : nearest (hostTime ⟨8, 300000000, by decide, by decide⟩ -
      hostTime ⟨3, 300000000, by decide, by decide⟩) =
      (5629499534213121 : ℤ) * 2 ^ (2 - 52 : ℤ) := by
    rw [hstart, hfinish]
    refine nearest_eq (by norm_num) ?_ ?_ ?_ <;> norm_num [abs_lt]
  rw [hdifference]
  norm_num

/-- **The worker and the host agree on the lines.** A packet in range is written on one line and
read with its values. So is a scan exactly when its printed times, as binary64 values, are in order
and at most five seconds apart, which holds below `2 ^ 23` seconds of uptime for times that are less
than five seconds apart. -/
theorem worker_agrees :
    (∀ (p : LgwPktRx) (rssis snr : ℚ), p.Supported → p.rssis = some rssis → p.snr = some snr →
      902000000 ≤ p.freqHz.toNat ∧ p.freqHz.toNat ≤ 928000000 → -250 ≤ rssis ∧ rssis ≤ 100 →
      -100 ≤ snr ∧ snr ≤ 100 →
        ∃ line, packetLine p = some (line ++ [10]) ∧ (line ++ [10]).length < rakLineMax ∧
          Line line (.packet (p.record rssis snr))) ∧
    ∀ (f : ℕ) (a b : Timespec) (counts : List ℕ), 902000000 ≤ f ∧ f ≤ 928000000 →
      counts.length = 33 → counts.sum = 2000 →
        let scan : RakMessage := .scan {
          frequencyHz := f, monotonicStart := hostTime a, monotonicEnd := hostTime b,
          counts := counts }
        ∃ line, scanLine f (monotonicNow a) (monotonicNow b) counts = some (line ++ [10]) ∧
          (line ++ [10]).length < rakLineMax ∧ line.length ≤ 2048 ∧
          (Line line scan ↔ hostTime a < hostTime b ∧ nearest (hostTime b - hostTime a) ≤ 5) ∧
          (a.sec < 2 ^ 23 → b.sec < 2 ^ 23 →
            hostTime a = nearest (a.nanoseconds / 10 ^ 9) ∧
            hostTime b = nearest (b.nanoseconds / 10 ^ 9) ∧
            (a.nanoseconds < b.nanoseconds → b.nanoseconds < a.nanoseconds + 5000000000 →
              Line line scan)) := by
  refine ⟨fun p rssis snr hp hrssis hsnrs hf hrssi hsnr =>
    packetLine_read hp hrssis hsnrs hf hrssi hsnr, fun f a b counts hf hbins hsum => ?_⟩
  intro scan
  obtain ⟨line, hline, hfits, hlength, hprintable, hparse⟩ :=
    scanLine_read (a := a) (b := b) hf hbins hsum
  have hread : Line line scan ↔
      hostTime a < hostTime b ∧ nearest (hostTime b - hostTime a) ≤ 5 := by
    refine ⟨fun h => ?_, fun h => ⟨hlength, hprintable, by rw [hparse, if_pos h]⟩⟩
    by_contra hinterval
    rw [if_neg hinterval] at hparse
    exact absurd (hparse.symm.trans h.2.2) (by simp)
  exact ⟨line, hline, hfits, hlength, hread, fun ha hb => ⟨hostTime_eq ha, hostTime_eq hb,
    fun hlt hfive => hread.mpr (hostTime_interval ha hb hlt hfive)⟩⟩

/-- A scan of five seconds that the host refuses. -/
theorem five_second_scan_refused :
    let a : Timespec := { sec := 3, nsec := 300000000 }
    let b : Timespec := { sec := 8, nsec := 300000000 }
    let counts := 2000 :: List.replicate 32 0
    a.nanoseconds < b.nanoseconds ∧ b.nanoseconds ≤ a.nanoseconds + 5000000000 ∧
      counts.length = 33 ∧ counts.sum = 2000 ∧
      ∃ line, scanLine 915000000 (monotonicNow a) (monotonicNow b) counts = some (line ++ [10]) ∧
        parseRakMessage line = .error malformed := by
  intro a b counts
  have hbins : counts.length = 33 := by decide
  have hsum : counts.sum = 2000 := by decide
  obtain ⟨line, hline, -, -, -, hparse⟩ :=
    scanLine_read (f := 915000000) (a := a) (b := b) (by norm_num) hbins hsum
  refine ⟨by decide, by decide, hbins, hsum, line, hline, ?_⟩
  rw [hparse, if_neg]
  exact fun h => absurd h.2 (not_le.mpr read_interval_long)

end Rak

end OVMesh
