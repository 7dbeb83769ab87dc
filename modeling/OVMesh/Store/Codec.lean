import OVMesh.Lib.Binary64
import OVMesh.Lib.Checked
import OVMesh.Lib.Rounding
import OVMesh.Lib.RunLength
import OVMesh.Store.Saved

/-!
# The blobs of a spectrum row

Levels are signed 16-bit hundredths of a decibel, little endian. A mask is stored as its bytes or as
runs of equal bytes, whichever is shorter.

* `quantize`, `dequantize`: the levels; `dequantize_quantize` says what comes back.
* `encodeActivity`, `decodeActivity`: the mask; `decode_encode` is the round trip.
* `encodeRuns`, `decodeOutputs`: the two loops as the source runs them; `activity_codec` is what holds
  of both on any input.
-/

namespace OVMesh

open Checked RunLength

/-! ## Levels -/

section Levels

variable {K : Type} [Field K] [LinearOrder K] [FloorRing K]

/-- The hundredths of a decibel that `quantize` keeps of a level: the product is a `float`. -/
def centibel (value : K) : ℤ := lround (Binary32.nearest (value * 100))

/-- The two bytes of a 16-bit integer, the low one first. -/
def int16Bytes (q : ℤ) : List ℕ :=
  let u := (q % 65536).toNat
  [u % 256, u / 256]

/-- `quantize`: two bytes for each level, in hundredths of a decibel. -/
def quantize (values : List K) : Except String (List ℕ) := do
  forM values level
  return values.flatMap fun value => int16Bytes (centibel value)

/-- The level of some hundredths of a decibel, a `float`. -/
def fromCentibel (q : ℤ) : K := Binary32.nearest (q / 100)

/-- The levels of the bytes of `dequantize`, two bytes each. -/
def levelsOf : List ℕ → List K
  | low :: high :: bytes =>
    let u := low + 256 * high
    let q : ℤ := if u ≥ 32768 then (u : ℤ) - 65536 else u
    fromCentibel q :: levelsOf bytes
  | _ => []

/-- `dequantize`: the levels of the bytes, each of which must be in range. -/
def dequantize (bytes : List ℕ) (count : ℕ) : Except String (List K) := do
  reject (bytes.length ≠ count * 2) "Invalid quantized spectrum length"
  let values : List K := levelsOf bytes
  forM values level
  return values

/-- The level that comes back. -/
def quantized (value : K) : K := fromCentibel (centibel value)

variable {v : K} {values : List K} {bytes : List ℕ}

omit [FloorRing K] in
theorem level_eq_ok {u : Unit} : level v = .ok u ↔ -300 ≤ v ∧ v ≤ 100 := by
  simp only [level, reject_eq_ok, not_or, not_lt]

theorem quantize_eq_ok : quantize values = .ok bytes ↔ (∀ v ∈ values, -300 ≤ v ∧ v ≤ 100) ∧
    (values.flatMap fun value => int16Bytes (centibel value)) = bytes := by
  simp only [quantize, bind_eq_ok, forM_eq_ok, pure_eq_ok, level_eq_ok, exists_and_left, exists_const]

variable [IsStrictOrderedRing K]

theorem centibel_mem (h : -300 ≤ v ∧ v ≤ 100) : -30000 ≤ centibel v ∧ centibel v ≤ 10000 := by
  constructor
  · refine le_lround (Binary32.intCast_le_nearest (by norm_num) ?_)
    push_cast
    linarith [h.1]
  · refine lround_le (Binary32.nearest_le_intCast (by norm_num) ?_)
    push_cast
    linarith [h.2]

/-- The `float` of some hundredths of a supported level. -/
theorem abs_fromCentibel_sub_le {q : ℤ} (h : -30000 ≤ q ∧ q ≤ 10000) :
    |fromCentibel q - (q : K) / 100| ≤ 1 / 2 ^ 16 := by
  have hlow : ((-30000 : ℤ) : K) ≤ q := Int.cast_le.mpr h.1
  have hhigh : (q : K) ≤ ((10000 : ℤ) : K) := Int.cast_le.mpr h.2
  push_cast at hlow hhigh
  have hlt : |(q : K) / 100| < 2 ^ (9 : ℤ) := by
    rw [abs_lt]
    constructor <;> linarith
  have herror := Binary32.abs_nearest_sub_le (by decide) hlt
  rwa [show (9 : ℤ) - 25 = -16 from rfl, zpow_neg, ← one_div, zpow_ofNat] at herror

/-- The product with a hundred, as a `float`. -/
theorem abs_product_sub_le (h : -300 ≤ v ∧ v ≤ 100) :
    |Binary32.nearest (v * 100) - v * 100| ≤ 1 / 2 ^ 10 := by
  have hlt : |v * 100| < 2 ^ (15 : ℤ) := by
    rw [abs_lt]
    constructor <;> linarith [h.1, h.2]
  have herror := Binary32.abs_nearest_sub_le (by decide) hlt
  rwa [show (15 : ℤ) - 25 = -10 from rfl, zpow_neg, ← one_div, zpow_ofNat] at herror

/-- A level moves by half of a hundredth of a decibel, and by the two roundings to `float`. -/
theorem abs_quantized_sub_le (h : -300 ≤ v ∧ v ≤ 100) : |quantized v - v| ≤ 503 / 10 ^ 5 := by
  have hproduct := abs_le.mp (abs_product_sub_le h)
  have hround := abs_le.mp (abs_lround_sub_le (Binary32.nearest (v * 100)))
  have hquotient := abs_le.mp (abs_fromCentibel_sub_le (K := K) (centibel_mem h))
  rw [quantized, abs_le]
  rw [centibel] at hquotient ⊢
  constructor <;> linarith [hproduct.1, hproduct.2, hround.1, hround.2, hquotient.1, hquotient.2]

theorem quantized_mem (h : -300 ≤ v ∧ v ≤ 100) : -300 ≤ quantized v ∧ quantized v ≤ 100 := by
  obtain ⟨h₁, h₂⟩ := centibel_mem h
  have h₁' : ((-30000 : ℤ) : K) ≤ centibel v := Int.cast_le.mpr h₁
  have h₂' : (centibel v : K) ≤ ((10000 : ℤ) : K) := Int.cast_le.mpr h₂
  push_cast at h₁' h₂'
  have hlow : ((-300 : ℤ) : K) ≤ quantized v := by
    refine Binary32.intCast_le_nearest (by norm_num) ?_
    push_cast
    linarith
  have hhigh : quantized v ≤ ((100 : ℤ) : K) := by
    refine Binary32.nearest_le_intCast (by norm_num) ?_
    push_cast
    linarith
  push_cast at hlow hhigh
  exact ⟨hlow, hhigh⟩

omit [IsStrictOrderedRing K] in
theorem length_quantized : (values.flatMap fun value => int16Bytes (centibel value)).length =
    values.length * 2 := by
  induction values with
  | nil => rfl
  | cons v values ih =>
    rw [List.flatMap_cons, List.length_append, ih, List.length_cons]
    simp only [int16Bytes, List.length_cons, List.length_nil]
    omega

theorem levelsOf_quantized (h : ∀ v ∈ values, -300 ≤ v ∧ v ≤ 100) :
    levelsOf (values.flatMap fun value => int16Bytes (centibel value)) = values.map quantized := by
  induction values with
  | nil => rfl
  | cons v values ih =>
    obtain ⟨hv, hvalues⟩ := List.forall_mem_cons.mp h
    obtain ⟨h₁, h₂⟩ := centibel_mem hv
    have hu : (centibel v % 65536).toNat % 256 + 256 * ((centibel v % 65536).toNat / 256) =
        (centibel v % 65536).toNat := by omega
    have hq : (if (centibel v % 65536).toNat ≥ 32768 then ((centibel v % 65536).toNat : ℤ) - 65536
        else ((centibel v % 65536).toNat : ℤ)) = centibel v := by
      split <;> omega
    rw [List.flatMap_cons, List.map_cons, ← ih hvalues]
    simp only [int16Bytes, List.cons_append, List.nil_append, levelsOf, hu, hq, quantized]

/-- **Levels come back in steps of a hundredth of a decibel.** -/
theorem dequantize_quantize (h : quantize values = .ok bytes) :
    dequantize bytes values.length = .ok (values.map quantized) := by
  obtain ⟨hlevels, rfl⟩ := quantize_eq_ok.mp h
  simp only [dequantize, bind_eq_ok, reject_eq_ok, forM_eq_ok, pure_eq_ok, level_eq_ok]
  rw [length_quantized, levelsOf_quantized hlevels]
  refine ⟨(), not_not.mpr rfl, (), fun v hv => ?_, rfl⟩
  obtain ⟨w, hw, rfl⟩ := List.mem_map.mp hv
  exact quantized_mem (hlevels w hw)

end Levels

/-! ## Masks -/

/-- The three bytes of a run. -/
def runBytes (r : ℕ × ℕ) : List ℕ := [r.1 % 256, r.1 / 256, r.2]

/-- `encode_activity`. The source compares the lengths after every run and the output only grows, so
it is the last comparison that decides. -/
def encodeActivity (source : List ℕ) : List ℕ :=
  let out := 1 :: (runs 65535 source).flatMap runBytes
  if source ≠ [] ∧ out.length ≥ source.length + 1 then 0 :: source else out

/-- The loop of `decode_activity` over the runs. -/
def decodeRuns (count : ℕ) : List ℕ → List ℕ → Except String (List ℕ)
  | low :: high :: byte :: encoded, out => do
    let run := low + 256 * high
    reject (run = 0 ∨ run > count - out.length) "Invalid spectrum mask run length"
    decodeRuns count encoded (out ++ List.replicate run byte)
  | _, out => return out

/-- `decode_activity`: the mask of a row, whose first byte says whether it is kept raw or as runs. -/
def decodeActivity (encoded : List ℕ) (count : ℕ) : Except String (List ℕ) := do
  reject (count = 0 ∨ count > 65536) "Invalid spectrum mask dimensions"
  match encoded with
  | [] => throw "Invalid spectrum mask dimensions"
  | 0 :: raw =>
    reject (raw.length ≠ count) "Invalid raw measurement mask length"
    return raw
  | codec :: encoded =>
    reject (codec ≠ 1 ∨ encoded.length % 3 ≠ 0) "Invalid spectrum mask encoding"
    let out ← decodeRuns count encoded []
    reject (out.length ≠ count) "Truncated spectrum mask"
    return out

/-- The loop of `encode_activity` over the runs, which leaves for the raw form as soon as the output
is no shorter than that. -/
def encodeRuns (source : List ℕ) : List (ℕ × ℕ) → List ℕ → List ℕ
  | [], out => out
  | r :: rs, out =>
    let out := out ++ runBytes r
    if out.length ≥ source.length + 1 then 0 :: source else encodeRuns source rs out

/-- Every value that the output of `decodeRuns` takes, in order. -/
def decodeOutputs (count : ℕ) : List ℕ → List ℕ → List (List ℕ)
  | low :: high :: byte :: encoded, out =>
    let run := low + 256 * high
    out :: if run = 0 ∨ run > count - out.length then []
      else decodeOutputs count encoded (out ++ List.replicate run byte)
  | _, out => [out]

theorem decodeRuns_runBytes {count : ℕ} {rs : List (ℕ × ℕ)} (hrs : ∀ r ∈ rs, 0 < r.1)
    {out : List ℕ} (hcount : out.length + (expand rs).length = count) :
    decodeRuns count (rs.flatMap runBytes) out = .ok (out ++ expand rs) := by
  induction rs generalizing out with
  | nil => simp [decodeRuns, expand, pure, Except.pure]
  | cons r rs ih =>
    obtain ⟨hr, hrs⟩ := List.forall_mem_cons.mp hrs
    have hrun : r.1 % 256 + 256 * (r.1 / 256) = r.1 := Nat.mod_add_div _ _
    rw [expand_cons, List.length_append, List.length_replicate] at hcount
    rw [List.flatMap_cons, expand_cons, ← List.append_assoc]
    simp only [runBytes, List.cons_append, List.nil_append, decodeRuns, hrun, bind_eq_ok,
      reject_eq_ok]
    refine ⟨(), by omega, ih hrs ?_⟩
    rw [List.length_append, List.length_replicate]
    omega

theorem length_runBytes (rs : List (ℕ × ℕ)) : (rs.flatMap runBytes).length = 3 * rs.length := by
  induction rs with
  | nil => rfl
  | cons r rs ih =>
    rw [List.flatMap_cons, List.length_append, ih, List.length_cons]
    simp only [runBytes, List.length_cons, List.length_nil]
    omega

/-- **Masks come back unchanged.** -/
theorem decode_encode {source : List ℕ} (h0 : source ≠ []) (hle : source.length ≤ 65536) :
    decodeActivity (encodeActivity source) source.length = .ok source := by
  have hpos : 0 < source.length := List.length_pos_iff.mpr h0
  have hdims : ¬ (source.length = 0 ∨ source.length > 65536) := by omega
  rw [encodeActivity]
  split <;> rename_i h
  · simp only [decodeActivity, bind_eq_ok, reject_eq_ok, pure_eq_ok]
    exact ⟨(), hdims, (), not_not.mpr rfl, trivial⟩
  · have hpositive : ∀ r ∈ runs 65535 source, 0 < r.1 :=
      fun r hr => (mem_runs (by decide) hr).1
    have hruns : decodeRuns source.length ((runs 65535 source).flatMap runBytes) [] =
        .ok ([] ++ expand (runs 65535 source)) := decodeRuns_runBytes hpositive (by simp)
    rw [expand_runs, List.nil_append] at hruns
    simp only [decodeActivity, bind_eq_ok, reject_eq_ok, pure_eq_ok]
    refine ⟨(), hdims, (), ?_, source, hruns, (), by omega, rfl⟩
    rw [length_runBytes]
    omega

/-- Leaving early changes nothing: the output only grows, so the last comparison decides. -/
theorem encodeRuns_eq {source : List ℕ} {rs : List (ℕ × ℕ)} {out : List ℕ} (hrs : rs ≠ []) :
    encodeRuns source rs out =
      if (out ++ rs.flatMap runBytes).length ≥ source.length + 1 then 0 :: source
      else out ++ rs.flatMap runBytes := by
  induction rs generalizing out with
  | nil => exact absurd rfl hrs
  | cons r rs ih =>
    have hlength : (out ++ (r :: rs).flatMap runBytes).length =
        (out ++ runBytes r).length + (rs.flatMap runBytes).length := by
      rw [List.flatMap_cons, ← List.append_assoc, List.length_append]
    rw [encodeRuns]
    by_cases hswitch : (out ++ runBytes r).length ≥ source.length + 1
    · rw [if_pos hswitch, if_pos (by omega)]
    · rw [if_neg hswitch]
      by_cases hend : rs = []
      · subst hend
        rw [encodeRuns, if_neg (by simpa using hswitch), List.flatMap_cons, List.flatMap_nil,
          List.append_nil]
      · rw [ih hend, List.flatMap_cons, List.append_assoc]

theorem runs_ne_nil {source : List ℕ} (h : source ≠ []) : runs 65535 source ≠ [] := by
  intro hruns
  have hexpand : expand (runs 65535 source) = source := expand_runs
  rw [hruns] at hexpand
  exact h hexpand.symm

theorem encodeActivity_eq_encodeRuns (source : List ℕ) :
    encodeActivity source = encodeRuns source (runs 65535 source) [1] := by
  by_cases h : source = []
  · subst h
    rfl
  · rw [encodeRuns_eq (runs_ne_nil h), encodeActivity]
    simp only [ne_eq, h, not_false_iff, true_and, List.singleton_append]

/-- The output of a decoder that starts within its count stays within it: every run is compared with
what is left before it is written. -/
theorem length_decodeOutputs {count : ℕ} {encoded out built : List ℕ} (h : out.length ≤ count)
    (hbuilt : built ∈ decodeOutputs count encoded out) : built.length ≤ count := by
  induction encoded, out using decodeOutputs.induct with
  | case1 low high byte encoded out run ih =>
    rw [decodeOutputs] at hbuilt
    rcases List.mem_cons.mp hbuilt with rfl | hbuilt
    · exact h
    · split at hbuilt <;> rename_i hrun
      · cases hbuilt
      · refine ih ?_ hbuilt
        rw [List.length_append, List.length_replicate]
        omega
  | case2 encoded out hshort =>
    rw [decodeOutputs, List.mem_singleton] at hbuilt
    · rwa [hbuilt]
    · exact hshort

/-- What `decodeRuns` returns is the last of the values its output takes. -/
theorem decodeRuns_mem {count : ℕ} {encoded out mask : List ℕ}
    (h : decodeRuns count encoded out = .ok mask) : mask ∈ decodeOutputs count encoded out := by
  induction encoded, out using decodeOutputs.induct with
  | case1 low high byte encoded out run ih =>
    simp only [decodeRuns, bind_eq_ok, reject_eq_ok] at h
    obtain ⟨-, hrun, h⟩ := h
    rw [decodeOutputs, if_neg hrun]
    exact List.mem_cons_of_mem _ (ih h)
  | case2 encoded out hshort =>
    rw [decodeRuns] at h
    · obtain rfl := pure_eq_ok.mp h
      rw [decodeOutputs]
      · exact List.mem_singleton.mpr rfl
      · exact hshort
    · exact hshort

theorem length_decodeActivity {encoded : List ℕ} {count : ℕ} {mask : List ℕ}
    (h : decodeActivity encoded count = .ok mask) : mask.length = count := by
  simp only [decodeActivity, bind_eq_ok, reject_eq_ok] at h
  obtain ⟨-, -, h⟩ := h
  split at h
  · cases h
  · simp only [bind_eq_ok, reject_eq_ok, pure_eq_ok] at h
    obtain ⟨-, hlength, rfl⟩ := h
    exact not_not.mp hlength
  · simp only [bind_eq_ok, reject_eq_ok, pure_eq_ok] at h
    obtain ⟨-, -, out, -, -, hlength, rfl⟩ := h
    exact not_not.mp hlength

/-- The encoding fits the column: it is never longer than the mask and its codec byte. -/
theorem length_encodeActivity {source : List ℕ} (h0 : source ≠ []) :
    0 < (encodeActivity source).length ∧
      (encodeActivity source).length ≤ source.length + 1 := by
  rw [encodeActivity]
  split <;> rename_i h
  · simp
  · exact ⟨by simp, (not_le.mp fun hge => h ⟨h0, hge⟩).le⟩

/-- The bytes of the encoding of bytes. -/
theorem encodeActivity_bytes {source : List ℕ} (h : ∀ byte ∈ source, byte < 256) :
    ∀ byte ∈ encodeActivity source, byte < 256 := by
  intro byte hbyte
  rw [encodeActivity] at hbyte
  split at hbyte
  · rcases List.mem_cons.mp hbyte with rfl | hbyte
    · decide
    · exact h byte hbyte
  · rcases List.mem_cons.mp hbyte with rfl | hbyte
    · decide
    · obtain ⟨r, hr, hbyte⟩ := List.mem_flatMap.mp hbyte
      obtain ⟨-, hlimit⟩ := mem_runs (by decide) hr
      have hvalue : r.2 ∈ source := by
        rw [← @expand_runs _ _ 65535 source]
        exact List.mem_flatMap.mpr ⟨r, hr, List.mem_replicate.mpr
          ⟨(mem_runs (by decide) hr).1.ne', rfl⟩⟩
      simp only [runBytes, List.mem_cons, List.not_mem_nil, or_false] at hbyte
      rcases hbyte with rfl | rfl | rfl
      · omega
      · omega
      · exact h _ hvalue

/-- **The mask codec is exact, and safe on any input.** Every mask that a row can hold comes back from
its encoding, which is bytes and at most one longer; and whatever it is given, the decoder returns as
many bytes as it was asked for or fails, and its output is at no moment longer. -/
theorem activity_codec :
    (∀ source : List ℕ, 1 ≤ source.length → source.length ≤ 65536 →
      encodeRuns source (runs 65535 source) [1] = encodeActivity source ∧
      decodeActivity (encodeActivity source) source.length = .ok source ∧
      (encodeActivity source).length ≤ source.length + 1 ∧
      ((∀ byte ∈ source, byte < 256) → ∀ byte ∈ encodeActivity source, byte < 256)) ∧
    ∀ (encoded : List ℕ) (count : ℕ),
      (∀ mask, decodeActivity encoded count = .ok mask → mask.length = count) ∧
      (∀ mask, decodeRuns count (encoded.drop 1) [] = .ok mask →
        mask ∈ decodeOutputs count (encoded.drop 1) []) ∧
      ∀ built ∈ decodeOutputs count (encoded.drop 1) [], built.length ≤ count := by
  refine ⟨fun source hpos hle => ?_, fun encoded count => ⟨fun mask => length_decodeActivity,
    fun mask => decodeRuns_mem, fun built => length_decodeOutputs (Nat.zero_le _)⟩⟩
  have h0 : source ≠ [] := List.length_pos_iff.mp hpos
  exact ⟨(encodeActivity_eq_encodeRuns source).symm, decode_encode h0 hle,
    (length_encodeActivity h0).2, encodeActivity_bytes⟩

end OVMesh
