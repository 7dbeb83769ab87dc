import OVMesh.Rak.Worker

/-!
# The arguments of the worker

The command line that `RakProcess::start` gives the worker, and `parse_options` of `rak_worker.c`.

* `strtoul`, `integer`: the numbers of the command line.
* `parseOptions`: the options that the worker accepts.
* `startArguments`: the command line of the host.
* `parseOptions_start`: the worker reads the command line back.
-/

namespace OVMesh

namespace Rak

open Checked Decimal

/-! ## Numbers -/

/-- `isspace` in the C locale. -/
def isSpace (b : UInt8) : Bool := b == 32 || (9 ≤ b && b ≤ 13)

/-- The value of a digit, and 36 for another byte. -/
def digitValue (b : UInt8) : ℕ :=
  if isDigit b then b.toNat - 48
  else if 97 ≤ b ∧ b ≤ 122 then b.toNat - 87
  else if 65 ≤ b ∧ b ≤ 90 then b.toNat - 55
  else 36

/-- The base of a number without one, and its digits. -/
def detectBase : Text → ℕ × Text
  | 48 :: x :: digit :: rest =>
    if (x = 120 ∨ x = 88) ∧ digitValue digit < 16 then (16, digit :: rest)
    else (8, 48 :: x :: digit :: rest)
  | 48 :: rest => (8, 48 :: rest)
  | digits => (10, digits)

/-- `strtoul` with base 0 on a whole text, and `none` where it stops early or sets `errno`. -/
def strtoul (text : Text) : Option ℕ :=
  let (negative, unsigned) := readSign (text.dropWhile isSpace)
  let (base, digits) := detectBase unsigned
  let n := digits.foldl (fun n b => base * n + digitValue b) 0
  if digits = [] ∨ digits.any (base ≤ digitValue ·) ∨ n ≥ 2 ^ 64 then none
  else some (if negative then (2 ^ 64 - n) % 2 ^ 64 else n)

/-- `integer`: an unsigned word without a sign or a space in front. -/
def integer (text : Text) : Option ℕ :=
  if text = [] ∨ text.head? = some 45 ∨ text.head? = some 43 ∨ text.head? = some 32 then none
  else do
    let value ← strtoul text
    if value < 2 ^ 32 then some value else none

/-! ## Options -/

/-- The systems that the worker is built for. -/
inductive Platform
  | apple | other
  deriving DecidableEq, Repr

/-- The bytes that `strncmp` compares. It stops before the last byte of the Apple literal. -/
def devicePrefix : Platform → Text
  | .apple => (ascii "/dev/cu.usbmodem").take 15
  | .other => (ascii "/dev/ttyACM").take 11

/-- The character may stand in the suffix of a device path. -/
def deviceByte (b : UInt8) : Bool :=
  isDigit b || (97 ≤ b && b ≤ 122) || (65 ≤ b && b ≤ 90) || b == 45 || b == 95

/-- `valid_device_path`: the path of a USB device of the platform. -/
def validDevicePath (platform : Platform) (path : Text) : Bool :=
  let head := devicePrefix platform
  let suffix := path.drop head.length
  path.length < 50 && path.take head.length == head && suffix ≠ [] && suffix.all deviceByte

/-- `Options` with its initializers: the arguments of the worker. -/
structure RakOptions where
  device : Option Text := none
  frequency : ℕ := 0
  bandwidth : ℕ := 250000
  sf : ℕ := 11
  sync : ℕ := 0x2b
  lower : ℕ := 0
  upper : ℕ := 0
  step : ℕ := 200000
  samples : ℕ := 2000
  board : ℕ := 0
  deriving DecidableEq

/-- The names of the arguments. -/
def optionNames : List Text :=
  ["--device", "--frequency", "--bandwidth", "--sf", "--sync", "--scan-lower", "--scan-upper",
    "--scan-step", "--scan-samples", "--board-index"].map ascii

/-- The option of an index of `values`. -/
def RakOptions.set (o : RakOptions) (value : ℕ) : ℕ → RakOptions
  | 1 => { o with frequency := value }
  | 2 => { o with bandwidth := value }
  | 3 => { o with sf := value }
  | 4 => { o with sync := value }
  | 5 => { o with lower := value }
  | 6 => { o with upper := value }
  | 7 => { o with step := value }
  | 8 => { o with samples := value }
  | 9 => { o with board := value }
  | _ => o

/-- The loop over the command line. -/
def readOptions (o : RakOptions) (seen : List ℕ) : List Text → Option RakOptions
  | [] => some o
  | [_] => none
  | name :: value :: rest => do
    let k ← optionNames.idxOf? name
    if k ∈ seen then none
    else if k = 0 then readOptions { o with device := some value } (k :: seen) rest
    else
      let value ← integer value
      readOptions (o.set value k) (k :: seen) rest

/-- The checks behind the loop. -/
def RakOptions.Valid (platform : Platform) (o : RakOptions) : Prop :=
  (∃ path ∈ o.device, validDevicePath platform path = true) ∧ o.board ≤ 1 ∧
  (o.sync = 0x2b ∨ o.sync = 0x12 ∨ o.sync = 0x34) ∧ 7 ≤ o.sf ∧ o.sf ≤ 12 ∧
  (o.bandwidth = 125000 ∨ o.bandwidth = 250000 ∨ o.bandwidth = 500000) ∧
  (o.frequency ≠ 0 → 902000000 ≤ o.frequency ∧ o.frequency ≤ 928000000) ∧
  (o.lower = 0 ↔ o.upper = 0) ∧
  (o.lower ≠ 0 → 902000000 ≤ o.lower ∧ o.upper ≤ 928000000 ∧ o.lower ≤ o.upper ∧
    25000 ≤ o.step ∧ o.step ≤ 1000000 ∧ (o.upper - o.lower) / o.step ≤ 1039) ∧
  o.samples = 2000 ∧ (o.frequency ≠ 0 ∨ o.lower ≠ 0)

instance (platform : Platform) (o : RakOptions) : Decidable (o.Valid platform) :=
  inferInstanceAs (Decidable (_ ∧ _))

/-- `parse_options`: the arguments of the worker, when they agree with each other. -/
def parseOptions (platform : Platform) (arguments : List Text) : Option RakOptions := do
  let o ← readOptions {} [] arguments
  if o.Valid platform then some o else none

/-! ## The command line of the host -/

/-- `std::to_string` of a signed number. -/
def decimalInt (n : ℤ) : Text := if n < 0 then 45 :: decimal n.natAbs else decimal n.natAbs

/-- The arguments of `RakProcess::start`. -/
def startArguments (b : ConcentratorBoardConfig) (frequency lower upper : ℤ)
    (step samples index : ℕ) : List Text :=
  [ascii "--device", b.devicePath, ascii "--frequency", decimalInt frequency,
    ascii "--bandwidth", decimal b.bandwidthHz, ascii "--sf", decimal b.spreadingFactor,
    ascii "--sync", decimal b.syncWord, ascii "--scan-lower", decimalInt lower,
    ascii "--scan-upper", decimalInt upper, ascii "--scan-step", decimal step,
    ascii "--scan-samples", decimal samples, ascii "--board-index", decimal index]

theorem decimal_head {n : ℕ} (h : n ≠ 0) : (decimal n).head? ≠ some 48 := by
  rw [decimal, if_neg h, List.head?_map, List.head?_reverse]
  rw [List.getLast?_eq_some_getLast (Nat.digits_ne_nil_iff_ne_zero.mpr h)]
  have hlast := Nat.getLast_digit_ne_zero 10 h
  have hlt := Nat.digits_lt_base (b := 10) (m := n) (by norm_num)
    (List.getLast_mem (Nat.digits_ne_nil_iff_ne_zero.mpr h))
  intro heq
  have := congrArg UInt8.toNat (Option.some.inj heq)
  rw [toNat_digit hlt] at this
  simp at this
  omega

theorem digitValue_digit {b : UInt8} (h : isDigit b = true) : digitValue b = b.toNat - 48 :=
  if_pos h

theorem detectBase_decimal {n : ℕ} (h : n ≠ 0) : detectBase (decimal n) = (10, decimal n) := by
  have hhead := decimal_head h
  generalize decimal n = digits at hhead
  unfold detectBase
  split
  · exact absurd rfl hhead
  · exact absurd rfl hhead
  · rfl

theorem strtoul_decimal {n : ℕ} (h : n < 2 ^ 64) : strtoul (decimal n) = some n := by
  by_cases h0 : n = 0
  · subst h0
    rfl
  · have hdigit : ∀ b ∈ (decimal n).head?, isDigit b = true :=
      fun b hb => isDigit_decimal b (List.mem_of_mem_head? hb)
    have hspace : (decimal n).dropWhile isSpace = decimal n := by
      cases hdigits : decimal n with
      | nil => rfl
      | cons b rest =>
        have hb := hdigit b (by rw [hdigits]; rfl)
        have hnot : isSpace b = false := by
          simp only [isDigit, isSpace, Bool.and_eq_true, decide_eq_true_eq, Bool.or_eq_false_iff,
            Bool.and_eq_false_iff, beq_eq_false_iff_ne, decide_eq_false_iff_not, ne_eq,
            ← UInt8.toNat_inj, UInt8.le_iff_toNat_le] at hb ⊢
          simp at hb ⊢
          omega
        rw [List.dropWhile_cons, hnot]
        rfl
    have hfold : (decimal n).foldl (fun n b => 10 * n + digitValue b) 0 = n := by
      rw [List.foldl_ext _ (fun n b => 10 * n + (b.toNat - 48)) 0 fun a b hb => by
        rw [digitValue_digit (isDigit_decimal b hb)]]
      exact value_decimal n
    have hbase : ∀ b ∈ decimal n, digitValue b < 10 := by
      intro b hb
      have := isDigit_decimal b hb
      rw [digitValue_digit this]
      simp only [isDigit, Bool.and_eq_true, decide_eq_true_eq, UInt8.le_iff_toNat_le] at this
      simp at this
      omega
    rw [strtoul, hspace, readSign_digits hdigit]
    simp only [detectBase_decimal h0, hfold]
    rw [if_neg]
    · rfl
    · rintro (h' | h' | h')
      · exact decimal_ne_nil n h'
      · obtain ⟨b, hb, hle⟩ := List.any_eq_true.mp h'
        exact absurd (hbase b hb) (not_lt.mpr (of_decide_eq_true hle))
      · omega

theorem integer_decimal {n : ℕ} (h : n < 2 ^ 32) : integer (decimal n) = some n := by
  have hdigit : ∀ b ∈ (decimal n).head?, isDigit b = true :=
    fun b hb => isDigit_decimal b (List.mem_of_mem_head? hb)
  have hhead : ¬ (decimal n = [] ∨ (decimal n).head? = some 45 ∨ (decimal n).head? = some 43 ∨
      (decimal n).head? = some 32) := by
    rintro (h | h | h | h)
    · exact decimal_ne_nil n h
    · exact absurd (hdigit 45 h) (by decide)
    · exact absurd (hdigit 43 h) (by decide)
    · exact absurd (hdigit 32 h) (by decide)
  rw [integer, if_neg hhead, strtoul_decimal (h.trans (by norm_num))]
  exact if_pos h

theorem integer_decimalInt {n : ℕ} (h : n < 2 ^ 32) : integer (decimalInt n) = some n := by
  rw [decimalInt, if_neg (by omega), Int.natAbs_natCast, integer_decimal h]

/-- The options that the worker reads from the command line of the host. -/
def startOptions (b : ConcentratorBoardConfig) (frequency lower upper step samples index : ℕ) :
    RakOptions where
  device := some b.devicePath
  frequency := frequency
  bandwidth := b.bandwidthHz
  sf := b.spreadingFactor
  sync := b.syncWord
  lower := lower
  upper := upper
  step := step
  samples := samples
  board := index

/-- One turn of the loop over the command line. -/
theorem readOptions_number {o : RakOptions} {seen : List ℕ} {name value : Text} {rest : List Text}
    {k n : ℕ} (hk : optionNames.idxOf? name = some k) (hseen : k ∉ seen) (h0 : k ≠ 0)
    (hn : integer value = some n) :
    readOptions o seen (name :: value :: rest) = readOptions (o.set n k) (k :: seen) rest := by
  rw [readOptions, hk, Option.bind_eq_bind, Option.bind_some, if_neg hseen, if_neg h0, hn]
  rfl

/-- The worker reads the command line of the host back. -/
theorem readOptions_start {b : ConcentratorBoardConfig}
    {frequency lower upper step samples index : ℕ} (hfrequency : frequency < 2 ^ 32)
    (hbandwidth : b.bandwidthHz < 2 ^ 32) (hsf : b.spreadingFactor < 2 ^ 32)
    (hsync : b.syncWord < 2 ^ 32) (hlower : lower < 2 ^ 32) (hupper : upper < 2 ^ 32)
    (hstep : step < 2 ^ 32) (hsamples : samples < 2 ^ 32) (hindex : index < 2 ^ 32) :
    readOptions {} [] (startArguments b frequency lower upper step samples index) =
      some (startOptions b frequency lower upper step samples index) := by
  have hdevice : ∀ rest, readOptions {} [] (ascii "--device" :: b.devicePath :: rest) =
      readOptions { device := some b.devicePath } [0] rest := fun rest => rfl
  rw [startArguments, hdevice,
    readOptions_number (k := 1) (by decide) (by decide) (by decide)
      (integer_decimalInt hfrequency),
    readOptions_number (k := 2) (by decide) (by decide) (by decide) (integer_decimal hbandwidth),
    readOptions_number (k := 3) (by decide) (by decide) (by decide) (integer_decimal hsf),
    readOptions_number (k := 4) (by decide) (by decide) (by decide) (integer_decimal hsync),
    readOptions_number (k := 5) (by decide) (by decide) (by decide) (integer_decimalInt hlower),
    readOptions_number (k := 6) (by decide) (by decide) (by decide) (integer_decimalInt hupper),
    readOptions_number (k := 7) (by decide) (by decide) (by decide) (integer_decimal hstep),
    readOptions_number (k := 8) (by decide) (by decide) (by decide) (integer_decimal hsamples),
    readOptions_number (k := 9) (by decide) (by decide) (by decide) (integer_decimal hindex)]
  rfl

/-- The worker accepts the command line of the host when its options are valid. -/
theorem parseOptions_start {platform : Platform} {b : ConcentratorBoardConfig}
    {frequency lower upper step samples index : ℕ} (hstep : step < 2 ^ 32)
    (h : (startOptions b frequency lower upper step samples index).Valid platform) :
    parseOptions platform (startArguments b frequency lower upper step samples index) =
      some (startOptions b frequency lower upper step samples index) := by
  have hvalid := h
  obtain ⟨-, hindex, hsync, -, hsf, hbandwidth, hfrequency, hzero, hscan, hsamples, -⟩ := h
  simp only [startOptions] at hindex hsync hsf hbandwidth hfrequency hzero hscan hsamples
  have hread : readOptions {} [] (startArguments b frequency lower upper step samples index) = _ :=
    readOptions_start (by omega) (by omega) (by omega) (by omega) (by omega) (by omega) hstep
      (by omega) (by omega)
  rw [parseOptions, hread, Option.bind_eq_bind, Option.bind_some, if_pos hvalid]

end Rak

end OVMesh
