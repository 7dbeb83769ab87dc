import OVMesh.Desktop.Fields

/-!
# The text of desktop settings

`parse` and `serialize`, for whole texts.

* `entries`: the fields that a version has. `Defaulted`: what it lacks is at its default.
* `Written`: what the reader needs of valid settings.
* `parse_eq_ok`: the texts that are accepted, and their settings.
* `serialize_eq_ok`, `length_serialized`: what valid settings are written as.
* `settings_codec`: what is written is read back.
-/

namespace OVMesh

namespace Desktop

open Checked Settings Decimal Rak

variable {fields : List Field} {version : ℕ}

/-! ## Settings -/

/-- The fields of settings in a version. -/
def entries (version : ℕ) (p : DesktopPreferences) : List Field :=
  (ascii "version", decimal version) :: ((settings p).filter (·.1 ≤ version)).map Prod.snd

/-- The fields that a version has hold the settings. -/
def HoldsTo (version : ℕ) (fields : List Field) (p : DesktopPreferences) : Prop :=
  ∀ e ∈ settings p, e.1 ≤ version → fields.lookup e.2.1 = some e.2.2

/-- What a version does not have is at its default. -/
structure Defaulted (version : ℕ) (p : DesktopPreferences) : Prop where
  tuning : version < 2 → p.tuningOffsetHz = 0
  discover : version < 3 → p.discoverLora = false
  compact : version < 4 → p.compactRecording = true
  receiver : version < 5 → p = { ({} : DesktopPreferences) with
    gpsEnabled := p.gpsEnabled
    recordingEnabled := p.recordingEnabled
    recordingDirectory := p.recordingDirectory
    gpsDeviceId := p.gpsDeviceId
    gpsBaud := p.gpsBaud
    tuningOffsetHz := p.tuningOffsetHz
    discoverLora := p.discoverLora
    compactRecording := p.compactRecording }
  rtl : version < 6 → p.rtlGainTenthsDb = 280 ∧ p.rtlAutoGain = false ∧ p.receiverSource ≠ .rtlSdr
  rak : version < 7 → p.concentrators = ({} : DesktopPreferences).concentrators ∧
    p.receiverSource ≠ .rak5146
  key : version < 8 → p.publicMeshtasticKeyEnabled = false

/-- The numbers of settings are values of their types. -/
structure Typed (p : DesktopPreferences) : Prop where
  tuning : -2 ^ 63 ≤ p.tuningOffsetHz ∧ p.tuningOffsetHz ≤ 2 ^ 63 - 1
  center : p.centerHz < 2 ^ 64
  rate : p.sampleRate < 2 ^ 32
  span : p.surveySpanHz < 2 ^ 32
  lna : p.lnaGain < 2 ^ 32
  vga : p.vgaGain < 2 ^ 32
  rtl : -2 ^ 31 ≤ p.rtlGainTenthsDb ∧ p.rtlGainTenthsDb ≤ 2 ^ 31 - 1
  step : p.concentrators.scanStepHz < 2 ^ 32
  samples : p.concentrators.scanSamples < 2 ^ 32
  boards : ∀ b ∈ p.concentrators.boards, b.frequencyHz < 2 ^ 64 ∧ b.bandwidthHz < 2 ^ 32 ∧
    b.spreadingFactor < 2 ^ 32 ∧ b.syncWord < 2 ^ 32

/-- A field that came with a version has what its reading gives and its default has. -/
theorem since_holds {α : Type} {P : α → Prop} {first : ℕ} {default a : α} (h : first ≤ version → P a)
    (hbefore : version < first → a = default) (hdefault : P default) : P a := by
  rcases Nat.lt_or_ge version first with hlt | hge
  · rw [hbefore hlt]
    exact hdefault
  · exact h hge

theorem readPreferences_holds {p : DesktopPreferences} (h : readPreferences version fields = .ok p) :
    HoldsTo version fields p ∧ Defaulted version p ∧ Typed p ∧ (7 ≤ version →
      (p.concentrators.boards.length = 1 ∨ p.concentrators.boards.length = 2) ∧
      fields.length = (if version = 8 then 28 else 27) + p.concentrators.boards.length * 7) := by
  simp only [readPreferences, bind_eq_ok, since_ok, boolean_ok, hexField_ok, unsigned_ok, integer_ok,
    sourceField_ok, concentratorFields_ok, pure_eq_ok] at h
  obtain ⟨gps, h1, recording, h2, discover, ⟨h3, d3⟩, compact, ⟨h4, d4⟩, directory, ⟨h5, -⟩, device, ⟨h6, -⟩,
    baud, h7, tuning, ⟨h8, d8⟩, source, ⟨h9, d9⟩, center, ⟨h10, d10⟩, rate, ⟨h11, d11⟩, span, ⟨h12, d12⟩,
    lna, ⟨h13, d13⟩, vga, ⟨h14, d14⟩, amplifier, ⟨h15, d15⟩, decode, ⟨h16, d16⟩, spectrum, ⟨h17, d17⟩,
    fonts, ⟨h18, d18⟩, mobile, ⟨h19, d19⟩, gain, ⟨h20, d20⟩, auto, ⟨h21, d21⟩, concentrators, ⟨h22, d22⟩,
    key, ⟨h23, d23⟩, rfl⟩ := h
  have h7 := baudField_lookup h7
  -- What the texts were, the defaults of the fields that the version lacks, and the types.
  refine ⟨?_, ?_, ?_, fun h => ⟨(h22 h).2.1.count, (h22 h).2.2⟩⟩
  · refine List.forall_mem_append.mpr ⟨?_, ?_⟩
    · simp only [List.forall_mem_cons, List.not_mem_nil, IsEmpty.forall_iff, implies_true, and_true]
      exact ⟨fun _ => h1, fun _ => h2, fun _ => h5, fun _ => h6, fun _ => h7, fun h => (h8 h).1, h3, h4, h16,
        h23, h17, fun h => (h9 h).1, fun h => (h10 h).1, fun h => (h11 h).1, fun h => (h12 h).1,
        fun h => (h13 h).1, fun h => (h14 h).1, h15, h18, h19, fun h => (h20 h).1, h21⟩
    · intro e he hversion
      obtain ⟨field, hfield, rfl⟩ := List.mem_map.mp he
      exact (h22 hversion).1 field hfield
  · refine ⟨d8, d3, d4, fun h => ?_, fun h => ⟨d20 h, d21 h, ?_⟩, fun h => ⟨d22 h, ?_⟩, d23⟩
    · simp only [d9 h, d10 h, d11 h, d12 h, d13 h, d14 h, d15 h, d16 h, d17 h, d18 h, d19 h, d20 (by omega),
        d21 (by omega), d22 (by omega), d23 (by omega)]
    · intro hsource
      rcases Nat.lt_or_ge version 5 with h5 | h5
      · rw [d9 h5] at hsource
        cases hsource
      · have := (h9 h5).2.1 hsource
        omega
    · intro hsource
      rcases Nat.lt_or_ge version 5 with h5 | h5
      · rw [d9 h5] at hsource
        cases hsource
      · have := (h9 h5).2.2 hsource
        omega
  · have hnumbers : ∀ c : ConcentratorConfig, ConcentratorsTyped c → c.scanStepHz < 2 ^ 32 ∧
        c.scanSamples < 2 ^ 32 ∧ ∀ b ∈ c.boards, b.frequencyHz < 2 ^ 64 ∧ b.bandwidthHz < 2 ^ 32 ∧
          b.spreadingFactor < 2 ^ 32 ∧ b.syncWord < 2 ^ 32 := fun c hc =>
      ⟨hc.step, hc.samples, fun b hb => ⟨(hc.boards b hb).frequency, (hc.boards b hb).bandwidth,
        (hc.boards b hb).spreading, (hc.boards b hb).sync⟩⟩
    have hconcentrators := since_holds (P := fun c : ConcentratorConfig => c.scanStepHz < 2 ^ 32 ∧
        c.scanSamples < 2 ^ 32 ∧ ∀ b ∈ c.boards, b.frequencyHz < 2 ^ 64 ∧ b.bandwidthHz < 2 ^ 32 ∧
          b.spreadingFactor < 2 ^ 32 ∧ b.syncWord < 2 ^ 32)
      (fun h => hnumbers _ (h22 h).2.1) d22 (by decide)
    exact {
      tuning := since_holds (P := fun n => -2 ^ 63 ≤ n ∧ n ≤ 2 ^ 63 - 1) (fun h => (h8 h).2) d8 (by decide)
      center := since_holds (P := (· < 2 ^ 64)) (fun h => (h10 h).2) d10 (by decide)
      rate := since_holds (P := (· < 2 ^ 32)) (fun h => (h11 h).2) d11 (by decide)
      span := since_holds (P := (· < 2 ^ 32)) (fun h => (h12 h).2) d12 (by decide)
      lna := since_holds (P := (· < 2 ^ 32)) (fun h => (h13 h).2) d13 (by decide)
      vga := since_holds (P := (· < 2 ^ 32)) (fun h => (h14 h).2) d14 (by decide)
      rtl := since_holds (P := fun n => -2 ^ 31 ≤ n ∧ n ≤ 2 ^ 31 - 1) (fun h => (h20 h).2) d20 (by decide)
      step := hconcentrators.1
      samples := hconcentrators.2.1
      boards := hconcentrators.2.2 }

theorem readPreferences_of_holds {p : DesktopPreferences} (hholds : HoldsTo version fields p)
    (hversion : 1 ≤ version) (hdefault : Defaulted version p) (htyped : Typed p)
    (hdirectory : validText p.recordingDirectory maximumPathSize = true)
    (hdevice : validText p.gpsDeviceId maximumDeviceIdSize = true) (hbaud : BaudTyped p.gpsBaud)
    (hconcentrators : ConcentratorsTyped p.concentrators)
    (hlength : 7 ≤ version →
      fields.length = (if version = 8 then 28 else 27) + p.concentrators.boards.length * 7) :
    readPreferences version fields = .ok p := by
  obtain ⟨hsettings, hboards⟩ := List.forall_mem_append.mp hholds
  simp only [List.forall_mem_cons, List.not_mem_nil, IsEmpty.forall_iff, implies_true, and_true] at hsettings
  obtain ⟨h1, h2, h5, h6, h7, h8, h3, h4, h16, h23, h17, h9, h10, h11, h12, h13, h14, h15, h18, h19, h20,
    h21⟩ := hsettings
  simp only [readPreferences, bind_eq_ok, since_ok, boolean_ok, hexField_ok, unsigned_ok, integer_ok,
    sourceField_ok, concentratorFields_ok, pure_eq_ok]
  have hreceiver := hdefault.receiver
  refine ⟨_, h1 hversion, _, h2 hversion, _, ⟨h3, hdefault.discover⟩, _, ⟨h4, hdefault.compact⟩,
    _, ⟨h5 hversion, hdirectory⟩, _, ⟨h6 hversion, hdevice⟩, _, baudField_ok hbaud (h7 hversion),
    _, ⟨fun h => ⟨h8 h, htyped.tuning⟩, hdefault.tuning⟩,
    _, ⟨fun h => ⟨h9 h, fun hsource => ?_, fun hsource => ?_⟩, fun h => congrArg _ (hreceiver h)⟩,
    _, ⟨fun h => ⟨h10 h, htyped.center⟩, fun h => congrArg _ (hreceiver h)⟩,
    _, ⟨fun h => ⟨h11 h, htyped.rate⟩, fun h => congrArg _ (hreceiver h)⟩,
    _, ⟨fun h => ⟨h12 h, htyped.span⟩, fun h => congrArg _ (hreceiver h)⟩,
    _, ⟨fun h => ⟨h13 h, htyped.lna⟩, fun h => congrArg _ (hreceiver h)⟩,
    _, ⟨fun h => ⟨h14 h, htyped.vga⟩, fun h => congrArg _ (hreceiver h)⟩,
    _, ⟨h15, fun h => congrArg _ (hreceiver h)⟩, _, ⟨h16, fun h => congrArg _ (hreceiver h)⟩,
    _, ⟨h17, fun h => congrArg _ (hreceiver h)⟩, _, ⟨h18, fun h => congrArg _ (hreceiver h)⟩,
    _, ⟨h19, fun h => congrArg _ (hreceiver h)⟩,
    _, ⟨fun h => ⟨h20 h, htyped.rtl⟩, fun h => (hdefault.rtl h).1⟩,
    _, ⟨h21, fun h => (hdefault.rtl h).2.1⟩,
    _, ⟨fun h => ⟨fun field hfield => ?_, hconcentrators, hlength h⟩, fun h => (hdefault.rak h).1⟩,
    _, ⟨h23, hdefault.key⟩, rfl⟩
  · by_contra hlt
    exact (hdefault.rtl (Nat.lt_of_not_le hlt)).2.2 hsource
  · by_contra hlt
    exact (hdefault.rak (Nat.lt_of_not_le hlt)).2 hsource
  · exact hboards (7, field) (List.mem_map.mpr ⟨field, hfield, rfl⟩) h

/-! ## Names -/

/-- Settings with a number of boards. -/
def withBoards (n : ℕ) : DesktopPreferences :=
  { ({} : DesktopPreferences) with
    concentrators := { ({} : DesktopPreferences).concentrators with boards := List.replicate n newBoard } }

/-- The number of fields of a version. -/
def entryCount (version boards : ℕ) : ℕ :=
  if version = 1 then 6 else if version = 2 then 7 else if version = 3 then 8 else if version = 4 then 9
  else if version = 5 then 20 else if version = 6 then 22
  else (if version = 8 then 28 else 27) + boards * 7

theorem names_withBoards : ∀ version ∈ List.range' 1 8, ∀ n ∈ [1, 2],
    (names (entries version (withBoards n))).Nodup ∧
      (names (entries version (withBoards n))).length = entryCount version n := by
  decide +kernel

theorem names_legal : ∀ version ∈ List.range' 1 8, ∀ n ∈ [1, 2],
    ∀ name ∈ names (entries version (withBoards n)), name ≠ [] ∧ (61 : UInt8) ∉ name ∧ (10 : UInt8) ∉ name := by
  decide +kernel

theorem names_entries {p : DesktopPreferences}
    (hcount : p.concentrators.boards.length = 1 ∨ p.concentrators.boards.length = 2) :
    names (entries version p) = names (entries version (withBoards p.concentrators.boards.length)) := by
  have htags : ∀ q : DesktopPreferences, names (entries version q) = ascii "version" ::
      (((settings q).map fun e => (e.1, e.2.1)).filter (·.1 ≤ version)).map Prod.snd := by
    intro q
    simp only [names, entries, List.map_cons, List.map_map, List.filter_map]
    rfl
  have hboards : names (boardsFields p.concentrators.boards) =
      names (boardsFields (List.replicate p.concentrators.boards.length newBoard)) := by
    rcases hcount with hcount | hcount
    · obtain ⟨b, hb⟩ := List.length_eq_one_iff.mp hcount
      rw [hb]
      rfl
    · obtain ⟨a, b, hb⟩ := List.length_eq_two.mp hcount
      rw [hb]
      rfl
  have hconcentrators : ∀ c : ConcentratorConfig, (concentratorSettings c).map (fun field => (7, field.1)) =
      [ascii "rak_board_count", ascii "rak_scan_enabled", ascii "rak_decode_enabled",
        ascii "rak_scan_step_hz", ascii "rak_scan_samples"].map (Prod.mk 7) ++
      (names (boardsFields c.boards)).map (Prod.mk 7) := by
    intro c
    simp [concentratorSettings, names]
  have hsettings : (settings p).map (fun e => (e.1, e.2.1)) =
      (settings (withBoards p.concentrators.boards.length)).map fun e => (e.1, e.2.1) := by
    simp only [settings, List.map_append, List.map_map, Function.comp_def, hconcentrators, hboards]
    rfl
  rw [htags, htags, hsettings]

/-! ## Valid settings -/

section Valid

variable {p : DesktopPreferences}

theorem validConcentrators_count {c : ConcentratorConfig} {center span : ℕ} {offset : ℤ}
    (h : validateConcentratorConfig c center span offset false = .ok ()) :
    c.boards.length = 1 ∨ c.boards.length = 2 := by
  simp only [validateConcentratorConfig, bind_eq_ok, reject_eq_ok, not_or] at h
  obtain ⟨_, ⟨hne, hle⟩, -⟩ := h
  have := List.length_pos_iff.mpr hne
  omega

/-- What `parse` needs of valid settings. -/
structure Written (p : DesktopPreferences) : Prop where
  directory : validText p.recordingDirectory maximumPathSize = true
  device : validText p.gpsDeviceId maximumDeviceIdSize = true
  baud : BaudTyped p.gpsBaud
  boards : ∀ b ∈ p.concentrators.boards, validText b.devicePath 1024 = true ∧ validText b.deviceId 2048 = true
  count : p.concentrators.boards.length = 1 ∨ p.concentrators.boards.length = 2

theorem written_of_valid (h : validatePreferences p = .ok ()) : Written p := by
  simp only [validatePreferences, bind_eq_ok, absoluteDirectory, reject_eq_ok, forM_eq_ok,
    Bool.not_eq_false, not_not] at h
  obtain ⟨_, ⟨_, hdirectory, -⟩, _, hdevice, _, hbaud, _, -, _, -, _, -, _, -, _, -, _, -, _, -, _, -, _,
    hboards, hconcentrators⟩ := h
  refine ⟨hdirectory, hdevice, ?_, fun b hb => ?_, ?_⟩
  · have hrates : ∀ n ∈ [4800, 9600, 19200, 38400, 57600, 115200],
        (decimal n).head? ≠ some 48 ∧ n < 10 ^ 6 := by decide +kernel
    exact hrates p.gpsBaud hbaud
  · have hdevice := hboards b hb
    simp only [validateDevice, bind_eq_ok, reject_eq_ok, not_or, Bool.not_eq_false] at hdevice
    obtain ⟨_, htexts, -⟩ := hdevice
    exact htexts
  · unfold validateConcentrators at hconcentrators
    split_ifs at hconcentrators
    · exact validConcentrators_count hconcentrators
    · exact validConcentrators_count hconcentrators

theorem Typed.concentrators (h : Typed p) (hw : Written p) : ConcentratorsTyped p.concentrators where
  count := hw.count
  step := h.step
  samples := h.samples
  boards b hb := ⟨(hw.boards b hb).1, (hw.boards b hb).2, (h.boards b hb).1, (h.boards b hb).2.1,
    (h.boards b hb).2.2.1, (h.boards b hb).2.2.2⟩

/-! ### Lines -/

theorem not_mem_decimal (n : ℕ) : (10 : UInt8) ∉ decimal n := fun h =>
  absurd (isDigit_decimal 10 h) (by decide)

theorem not_mem_decimalInt (n : ℤ) : (10 : UInt8) ∉ decimalInt n := by
  unfold decimalInt
  split_ifs
  · rw [List.mem_cons, not_or]
    exact ⟨by decide, not_mem_decimal _⟩
  · exact not_mem_decimal _

theorem not_mem_encode (t : Text) : (10 : UInt8) ∉ Hex.encode t := fun h =>
  absurd (Hex.isLower_encode 10 h) (by decide)

theorem not_mem_switch (b : Bool) : (10 : UInt8) ∉ switch b := by cases b <;> decide

theorem not_mem_sourceText (source : DesktopReceiver) : (10 : UInt8) ∉ sourceText source := by
  cases source <;> decide

/-- No value has a line feed. -/
theorem settings_lines : ∀ e ∈ settings p, (10 : UInt8) ∉ e.2.2 := by
  have hboards : ∀ e ∈ boardsFields p.concentrators.boards, (10 : UInt8) ∉ e.2 := by
    intro e he
    obtain ⟨⟨b, i⟩, -, he⟩ := List.mem_flatMap.mp he
    have hboard : ∀ e ∈ boardFields i b, (10 : UInt8) ∉ e.2 := by
      simp [boardFields, not_mem_encode, not_mem_switch, not_mem_decimalInt]
    exact hboard e he
  have hconcentrators : ∀ e ∈ concentratorSettings p.concentrators, (10 : UInt8) ∉ e.2 := by
    refine List.forall_mem_append.mpr ⟨?_, hboards⟩
    simp [not_mem_switch, not_mem_decimalInt]
  refine List.forall_mem_append.mpr ⟨?_, ?_⟩
  · simp [not_mem_encode, not_mem_switch, not_mem_decimalInt, not_mem_decimal, not_mem_sourceText]
  · intro e he
    obtain ⟨field, hfield, rfl⟩ := List.mem_map.mp he
    exact hconcentrators field hfield

theorem mem_entries {field : Field} : field ∈ entries version p ↔ field = (ascii "version", decimal version) ∨
    ∃ e ∈ settings p, e.1 ≤ version ∧ e.2 = field := by
  simp [entries, and_assoc]

theorem mem_versions : version ∈ List.range' 1 8 ↔ 1 ≤ version ∧ version ≤ 8 := by
  rw [List.mem_range'_1]
  omega

theorem length_entries (hcount : p.concentrators.boards.length = 1 ∨ p.concentrators.boards.length = 2)
    (hversion : 1 ≤ version ∧ version ≤ 8) :
    (entries version p).length = entryCount version p.concentrators.boards.length := by
  have h := (names_withBoards version (mem_versions.mpr hversion) p.concentrators.boards.length
    (by simpa using hcount)).2
  rwa [← names_entries hcount, names, List.length_map] at h

theorem nodup_entries (hcount : p.concentrators.boards.length = 1 ∨ p.concentrators.boards.length = 2)
    (hversion : 1 ≤ version ∧ version ≤ 8) : (names (entries version p)).Nodup := by
  rw [names_entries hcount]
  exact (names_withBoards version (mem_versions.mpr hversion) _ (by simpa using hcount)).1

theorem legal_entries (hcount : p.concentrators.boards.length = 1 ∨ p.concentrators.boards.length = 2)
    (hversion : 1 ≤ version ∧ version ≤ 8) : ∀ field ∈ entries version p, Legal field := by
  intro field hfield
  have hname : field.1 ∈ names (entries version p) := List.mem_map.mpr ⟨field, hfield, rfl⟩
  rw [names_entries hcount] at hname
  obtain ⟨hne, hequals, hline⟩ :=
    names_legal version (mem_versions.mpr hversion) _ (by simpa using hcount) field.1 hname
  refine ⟨hne, hequals, hline, ?_⟩
  rcases mem_entries.mp hfield with rfl | ⟨e, he, -, rfl⟩
  · exact not_mem_decimal version
  · exact settings_lines e he

/-! ### Names that a version must have -/

theorem not_missing {l : List String} (h : ∀ name ∈ l, ∃ v, fields.lookup (ascii name) = some v) :
    ¬ Missing fields l := by
  rintro ⟨name, hname, hnone⟩
  obtain ⟨v, hv⟩ := h name hname
  rw [hv] at hnone
  cases hnone

theorem versionOf_ok : versionOf fields = .ok version ↔
    (1 ≤ version ∧ version ≤ 8) ∧ fields.lookup (ascii "version") = some (decimal version) := by
  simp only [versionOf, bind_eq_ok, fieldAt_ok]
  constructor
  · rintro ⟨v, hv, h⟩
    split at h
    · cases h
    · rename_i n hn
      obtain rfl := pure_eq_ok.mp h
      have hdecimal : decimal n = v := by simpa using List.find?_some hn
      exact ⟨mem_versions.mp (List.mem_of_find?_eq_some hn), hdecimal ▸ hv⟩
  · rintro ⟨hversion, hlookup⟩
    refine ⟨_, hlookup, ?_⟩
    have hfound : ∀ n ∈ List.range' 1 8,
        (List.range' 1 8).find? (decimal · = decimal n) = some n := by decide +kernel
    rw [hfound version (mem_versions.mpr hversion)]
    rfl

/-- Before the concentrators came, the version says how many fields there are. -/
theorem length_of_checkNames {n : ℕ} (h : checkNames version fields = .ok ())
    (hversion : 1 ≤ version ∧ version ≤ 8) (hlt : version < 7) : fields.length = entryCount version n := by
  simp only [checkNames, bind_eq_ok, reject_eq_ok] at h
  obtain ⟨_, hfirst, h⟩ := h
  unfold entryCount
  rcases Nat.lt_or_ge version 5 with h5 | h5
  · have : version = 1 ∨ version = 2 ∨ version = 3 ∨ version = 4 := by omega
    rcases this with rfl | rfl | rfl | rfl <;> simp_all
  · rw [if_pos h5] at h
    simp only [bind_eq_ok, reject_eq_ok] at h
    obtain ⟨_, hlength, -⟩ := h
    have : version = 5 ∨ version = 6 := by omega
    rcases this with rfl | rfl <;> simp_all

theorem checkNames_of_holds (hholds : HoldsTo version fields p) (hversion : 1 ≤ version ∧ version ≤ 8)
    (hlength : fields.length = entryCount version p.concentrators.boards.length) :
    checkNames version fields = .ok () := by
  obtain ⟨hsettings, -⟩ := List.forall_mem_append.mp hholds
  simp only [List.forall_mem_cons, List.not_mem_nil, IsEmpty.forall_iff, implies_true, and_true] at hsettings
  obtain ⟨-, -, -, -, -, h8, h3, h4, h16, -, h17, h9, h10, h11, h12, h13, h14, h15, h18, h19, h20,
    h21⟩ := hsettings
  have h2 : 2 ≤ version → ¬ Missing fields ["tuning_offset_hz"] := fun h => not_missing (by simp [h8 h])
  have hdiscover : 3 ≤ version → ¬ Missing fields ["tuning_offset_hz", "discover_lora"] := fun h =>
    not_missing (by simp [h8 (by omega), h3 h])
  have hcompact : 4 ≤ version →
      ¬ Missing fields ["tuning_offset_hz", "discover_lora", "compact_recording"] := fun h =>
    not_missing (by simp [h8 (by omega), h3 (by omega), h4 h])
  simp only [checkNames, bind_eq_ok, reject_eq_ok]
  refine ⟨(), ?_, ?_⟩
  · unfold entryCount at hlength
    rintro (⟨rfl, h⟩ | ⟨rfl, h | h⟩ | ⟨rfl, h | h⟩ | ⟨rfl, h | h⟩)
    · exact h hlength
    · exact h hlength
    · exact h2 le_rfl h
    · exact h hlength
    · exact hdiscover le_rfl h
    · exact h hlength
    · exact hcompact le_rfl h
  · by_cases h5 : version ≥ 5
    · rw [if_pos h5]
      simp only [bind_eq_ok, reject_eq_ok]
      refine ⟨(), ?_, (), not_missing ?_, ?_⟩
      · rintro ⟨hlt, hne⟩
        have hcases : version = 5 ∨ version = 6 := by omega
        rcases hcases with rfl | rfl
        · exact hne hlength
        · exact hne hlength
      · simp [h8 (by omega), h3 (by omega), h4 (by omega), h16 h5, h17 h5, h9 h5, h10 h5, h11 h5, h12 h5,
          h13 h5, h14 h5, h15 h5, h18 h5, h19 h5]
      · rintro ⟨hne, hmissing⟩
        have h6 : 6 ≤ version := by omega
        exact not_missing (by simp [h20 h6, h21 h6]) hmissing
    · rw [if_neg h5]
      rfl

/-! ## Texts -/

theorem print_ends {fields : List Field} (h : fields ≠ []) : (print fields).getLast? = some 10 := by
  rcases List.eq_nil_or_concat fields with rfl | ⟨first, last, rfl⟩
  · exact absurd rfl h
  · rw [List.concat_eq_append, print, List.flatMap_append, List.flatMap_singleton, line, ← List.cons_append,
      ← List.append_assoc, ← List.append_assoc, List.getLast?_concat]

theorem entryCount_le (hversion : 1 ≤ version ∧ version ≤ 8) {n : ℕ} (hn : n = 1 ∨ n = 2) :
    entryCount version n ≤ 42 := by
  unfold entryCount
  split_ifs <;> omega

/-- The fields of a version are read in any order. -/
theorem readFields_entries (hcount : p.concentrators.boards.length = 1 ∨ p.concentrators.boards.length = 2)
    (hversion : 1 ≤ version ∧ version ≤ 8) (hperm : fields.Perm (entries version p)) :
    readFields 42 "Malformed desktop settings" "Duplicate desktop preference" [] (print fields) =
      .ok fields := by
  refine readFields_eq_ok.mpr ⟨rfl, fun field hfield => ?_, ?_, ?_⟩
  · exact legal_entries hcount hversion field (hperm.mem_iff.mp hfield)
  · exact (hperm.map Prod.fst).nodup_iff.mpr (nodup_entries hcount hversion)
  · rw [hperm.length_eq, length_entries hcount hversion]
    exact entryCount_le hversion hcount

/-- **The texts that are accepted**, and their settings: the fields of a version, each once, and what the
version does not have at its default. -/
theorem parse_eq_ok {text : Text} : parse text = .ok p ↔ ∃ version fields,
    (1 ≤ version ∧ version ≤ 8) ∧ text = print fields ∧ fields.Perm (entries version p) ∧
      Defaulted version p ∧ Typed p ∧ validatePreferences p = .ok () ∧
      text.length ≤ maximumSettingsSize := by
  simp only [parse, bind_eq_ok, reject_eq_ok, versionOf_ok, pure_eq_ok]
  constructor
  · rintro ⟨_, hsize, fields, hfields, _, -, version, ⟨hversion, hlookup⟩, _, hnames, q, hread, _, hvalid, rfl⟩
    obtain ⟨rfl, -⟩ := readFields_eq_ok.mp hfields
    obtain ⟨hholds, hdefault, htyped, hboards⟩ := readPreferences_holds hread
    have hcount := (written_of_valid hvalid).count
    -- The accepted names are as many as the entries of the version, so having them all is being a
    -- permutation.
    have hlength : fields.length = entryCount version q.concentrators.boards.length := by
      rcases Nat.lt_or_ge version 7 with hlt | hge
      · exact length_of_checkNames hnames hversion hlt
      · rw [(hboards hge).2, entryCount]
        split_ifs <;> omega
    refine ⟨version, fields, hversion, rfl, perm_of_lookup (nodup_entries hcount hversion)
      (hlength.trans (length_entries hcount hversion).symm) fun field hfield => ?_, hdefault, htyped, hvalid,
      ?_⟩
    · rcases mem_entries.mp hfield with rfl | ⟨e, he, hle, rfl⟩
      · exact hlookup
      · exact hholds e he hle
    · rw [not_or, not_or] at hsize
      exact Nat.le_of_not_lt hsize.2.1
  · rintro ⟨version, fields, hversion, rfl, hperm, hdefault, htyped, hvalid, hsize⟩
    have hw := written_of_valid hvalid
    have hnodup := nodup_entries hw.count hversion
    have hfields := lookup_of_perm hnodup hperm
    have hlength := hperm.length_eq.trans (length_entries hw.count hversion)
    have hholds : HoldsTo version fields p := fun e he hle =>
      hfields e.2 (mem_entries.mpr (.inr ⟨e, he, hle, rfl⟩))
    have hlookup := hfields _ (mem_entries.mpr (.inl rfl))
    have hne : fields ≠ [] := by
      rintro rfl
      exact List.not_mem_nil (hperm.mem_iff.mpr (mem_entries.mpr (.inl rfl)))
    have hends := print_ends hne
    refine ⟨(), ?_, fields, readFields_entries hw.count hversion hperm, (), not_missing ?_, version,
      ⟨hversion, hlookup⟩, (), checkNames_of_holds hholds hversion hlength, p, ?_, (), hvalid, rfl⟩
    · rw [not_or, not_or]
      refine ⟨fun h => ?_, Nat.not_lt.mpr hsize, not_not.mpr hends⟩
      rw [h] at hends
      cases hends
    · obtain ⟨hsettings, -⟩ := List.forall_mem_append.mp hholds
      simp only [List.forall_mem_cons] at hsettings
      obtain ⟨h1, h2, h3, h4, h5, -⟩ := hsettings
      simp [hlookup, h1 hversion.1, h2 hversion.1, h3 hversion.1, h4 hversion.1, h5 hversion.1]
    · refine readPreferences_of_holds hholds hversion.1 hdefault htyped hw.directory hw.device hw.baud
        (htyped.concentrators hw) fun h7 => ?_
      rw [hlength, entryCount]
      split_ifs <;> omega

/-! ### The size of written settings -/

theorem length_print (fields : List Field) : (print fields).length =
    ((names fields).map List.length).sum + (fields.map (·.2.length)).sum + 2 * fields.length := by
  induction fields with
  | nil => rfl
  | cons field fields ih =>
    rw [print, List.flatMap_cons, List.length_append, ← print, ih]
    simp only [line, names, List.length_append, List.length_cons, List.length_nil, List.map_cons,
      List.sum_cons]
    omega

theorem length_names : ∀ n ∈ [1, 2],
    ((names (entries 8 (withBoards n))).map List.length).sum ≤ 1000 := by
  decide +kernel

theorem length_switch (b : Bool) : (switch b).length = 1 := by cases b <;> rfl

theorem length_sourceText (source : DesktopReceiver) : (sourceText source).length ≤ 9 := by
  cases source <;> decide

theorem length_decimalInt {n : ℤ} (h : n.natAbs < 10 ^ 20) : (decimalInt n).length ≤ 21 := by
  have := length_decimal_le (by decide) h
  unfold decimalInt
  split_ifs
  · rw [List.length_cons]
    omega
  · omega

theorem length_validText {t : Text} {limit : ℕ} (h : validText t limit = true) : t.length ≤ limit := by
  rw [validText, Bool.and_eq_true, decide_eq_true_eq] at h
  exact h.1

theorem length_boardFields {i : ℕ} {b : ConcentratorBoardConfig} (h : BoardTyped b) :
    ((boardFields i b).map (·.2.length)).sum ≤ 6400 := by
  have hpath := length_validText h.path
  have hid := length_validText h.id
  have hfrequency := length_decimalInt (n := b.frequencyHz) (by have := h.frequency; omega)
  have hbandwidth := length_decimalInt (n := b.bandwidthHz) (by have := h.bandwidth; omega)
  have hspreading := length_decimalInt (n := b.spreadingFactor) (by have := h.spreading; omega)
  have hsync := length_decimalInt (n := b.syncWord) (by have := h.sync; omega)
  simp only [boardFields, List.map_cons, List.map_nil, List.sum_cons, List.sum_nil, Hex.length_encode,
    length_switch]
  omega

theorem length_concentratorSettings {c : ConcentratorConfig} (h : ConcentratorsTyped c) :
    ((concentratorSettings c).map (·.2.length)).sum ≤ 12900 := by
  have hboards : ((boardsFields c.boards).map (·.2.length)).sum ≤ 12800 := by
    rcases h.count with hcount | hcount
    · obtain ⟨b, hb⟩ := List.length_eq_one_iff.mp hcount
      have := length_boardFields (i := 0) (h.boards b (by simp [hb]))
      simp only [hb, boardsFields, List.zipIdx_cons, List.zipIdx_nil, List.flatMap_cons, List.flatMap_nil,
        List.append_nil]
      omega
    · obtain ⟨a, b, hb⟩ := List.length_eq_two.mp hcount
      have := length_boardFields (i := 0) (h.boards a (by simp [hb]))
      have := length_boardFields (i := 0 + 1) (h.boards b (by simp [hb]))
      simp only [hb, boardsFields, List.zipIdx_cons, List.zipIdx_nil, List.flatMap_cons, List.flatMap_nil,
        List.append_nil, List.map_append, List.sum_append]
      omega
  have hcount := length_decimalInt (n := c.boards.length) (by have := h.count; omega)
  have hstep := length_decimalInt (n := c.scanStepHz) (by have := h.step; omega)
  have hsamples := length_decimalInt (n := c.scanSamples) (by have := h.samples; omega)
  rw [concentratorSettings, List.map_append, List.sum_append]
  simp only [List.map_cons, List.map_nil, List.sum_cons, List.sum_nil, length_switch]
  omega

theorem entries_eight : entries 8 p = (ascii "version", ascii "8") :: (settings p).map Prod.snd := by
  have hversions : ∀ e ∈ settings p, e.1 ≤ 8 := by
    refine List.forall_mem_append.mpr ⟨?_, ?_⟩
    · simp
    · intro e he
      obtain ⟨field, -, rfl⟩ := List.mem_map.mp he
      exact Nat.le_succ 7
  rw [entries, List.filter_eq_self.mpr fun e he => decide_eq_true (hversions e he)]
  rfl

/-- Valid settings fit. -/
theorem length_serialized (hvalid : validatePreferences p = .ok ()) (htyped : Typed p) :
    (print (entries 8 p)).length ≤ maximumSettingsSize := by
  have hw := written_of_valid hvalid
  have hconcentrators := length_concentratorSettings (htyped.concentrators hw)
  have hnames := length_names _ (show p.concentrators.boards.length ∈ [1, 2] by simpa using hw.count)
  rw [← names_entries hw.count] at hnames
  have hlength : (entries 8 p).length = entryCount 8 p.concentrators.boards.length :=
    length_entries hw.count (by decide)
  have hfew : entryCount 8 p.concentrators.boards.length ≤ 42 := entryCount_le (by decide) hw.count
  have hdirectory := length_validText hw.directory
  have hdevice := length_validText hw.device
  have hbaud := length_decimal_le (k := 6) (by decide) hw.baud.2
  have htuning := length_decimalInt (n := p.tuningOffsetHz) (by have := htyped.tuning; omega)
  have hcenter := length_decimalInt (n := p.centerHz) (by have := htyped.center; omega)
  have hrate := length_decimalInt (n := p.sampleRate) (by have := htyped.rate; omega)
  have hspan := length_decimalInt (n := p.surveySpanHz) (by have := htyped.span; omega)
  have hlna := length_decimalInt (n := p.lnaGain) (by have := htyped.lna; omega)
  have hvga := length_decimalInt (n := p.vgaGain) (by have := htyped.vga; omega)
  have hrtl := length_decimalInt (n := p.rtlGainTenthsDb) (by have := htyped.rtl; omega)
  have hsource := length_sourceText p.receiverSource
  have hvalues : ((entries 8 p).map (·.2.length)).sum ≤ 30000 := by
    rw [entries_eight, settings, List.map_append, List.map_cons, List.map_append, List.sum_cons,
      List.sum_append, List.map_map, List.map_map, List.map_map]
    simp only [List.map_cons, List.map_nil, List.sum_cons, List.sum_nil, Function.comp_apply, length_switch,
      Hex.length_encode]
    have hone : (ascii "8").length = 1 := rfl
    simp only [maximumPathSize, maximumDeviceIdSize] at hdirectory hdevice
    simp only [Function.comp_def]
    omega
  rw [length_print, maximumSettingsSize]
  omega

/-- What valid settings are written as. -/
theorem serialize_eq_ok (hvalid : validatePreferences p = .ok ()) (htyped : Typed p) :
    serialize p = .ok (print (entries 8 p)) := by
  simp only [serialize, bind_eq_ok, reject_eq_ok, pure_eq_ok, ← entries_eight]
  exact ⟨(), hvalid, (), Nat.not_lt.mpr (length_serialized hvalid htyped), trivial⟩

/-- **Valid settings are read back** from their text. -/
theorem parse_entries (hvalid : validatePreferences p = .ok ()) (htyped : Typed p) :
    parse (print (entries 8 p)) = .ok p := by
  refine parse_eq_ok.mpr ⟨8, entries 8 p, by decide, rfl, .refl _, ?_, htyped, hvalid,
    length_serialized hvalid htyped⟩
  constructor <;> intro h <;> omega

/-- **A text of the last version** has the fields that its settings are written with. -/
theorem serialize_parse {text : Text} (h : parse text = .ok p)
    (hfields : readFields 42 "Malformed desktop settings" "Duplicate desktop preference" [] text = .ok fields)
    (hversion : fields.lookup (ascii "version") = some (ascii "8")) :
    ∃ written, serialize p = .ok (print written) ∧ fields.Perm written := by
  obtain ⟨version, fields', hv, rfl, hperm, -, htyped, hvalid, -⟩ := parse_eq_ok.mp h
  have hcount := (written_of_valid hvalid).count
  rw [readFields_entries hcount hv hperm] at hfields
  obtain rfl := Except.ok.inj hfields
  have hlookup := lookup_of_perm (nodup_entries hcount hv) hperm _ (mem_entries.mpr (.inl rfl))
  have hdecimal : decimal version = ascii "8" := Option.some.inj (hlookup.symm.trans hversion)
  have h8 : version = 8 := by
    rw [← value_decimal version, hdecimal]
    decide
  rw [h8] at hperm
  exact ⟨entries 8 p, serialize_eq_ok hvalid htyped, hperm⟩

end Valid

/-- **The settings codec**: valid settings are written, within the limit, and read back. A text of the last
version has the lines that its settings are written with. A text is accepted if and only if it has the
fields of a version, each once and in any order, for valid settings that have their defaults where the
version has no field. -/
theorem settings_codec :
    (∀ p, validatePreferences p = .ok () → Typed p → ∃ text, serialize p = .ok text ∧
      text.length ≤ maximumSettingsSize ∧ parse text = .ok p) ∧
    (∀ text p fields, parse text = .ok p →
      readFields 42 "Malformed desktop settings" "Duplicate desktop preference" [] text = .ok fields →
      fields.lookup (ascii "version") = some (ascii "8") →
      ∃ written, serialize p = .ok (print written) ∧ fields.Perm written) ∧
    (∀ text p, parse text = .ok p ↔ ∃ version fields, (1 ≤ version ∧ version ≤ 8) ∧ text = print fields ∧
      (names fields).Nodup ∧ fields.Perm (entries version p) ∧ Defaulted version p ∧ Typed p ∧
      validatePreferences p = .ok () ∧ text.length ≤ maximumSettingsSize) := by
  refine ⟨fun p hvalid htyped => ?_, fun text p fields h hfields hversion => ?_, fun text p => ⟨fun h => ?_,
    ?_⟩⟩
  · exact ⟨_, serialize_eq_ok hvalid htyped, length_serialized hvalid htyped, parse_entries hvalid htyped⟩
  · exact serialize_parse h hfields hversion
  · obtain ⟨version, fields, hversion, rfl, hperm, hdefault, htyped, hvalid, hsize⟩ := parse_eq_ok.mp h
    have hnodup := nodup_entries (written_of_valid hvalid).count hversion
    exact ⟨version, fields, hversion, rfl, (hperm.map Prod.fst).nodup_iff.mpr hnodup, hperm, hdefault, htyped,
      hvalid, hsize⟩
  · rintro ⟨version, fields, hversion, htext, -, hrest⟩
    exact parse_eq_ok.mpr ⟨version, fields, hversion, htext, hrest⟩

theorem settings_codec_boards :
    let board : ConcentratorBoardConfig := { newBoard with
      devicePath := ascii "/dev/ttyACM0", deviceId := ascii "usb:0483:5740:serial:31" }
    let p : DesktopPreferences := {
      recordingDirectory := ascii "/home/survey/ovmesh", receiverSource := .rak5146
      centerHz := 915000000, surveySpanHz := 26000000
      concentrators := { ({} : DesktopPreferences).concentrators with boards := [board, newBoard] } }
    ∃ text, serialize p = .ok text ∧ text.length ≤ maximumSettingsSize ∧ parse text = .ok p :=
  settings_codec.1 _ (by decide +kernel) (by constructor <;> decide)

end Desktop

end OVMesh
