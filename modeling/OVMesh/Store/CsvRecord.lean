import OVMesh.Engine.Config
import OVMesh.Lib.Csv
import OVMesh.Lib.Decimal

/-!
# Rows of the CSV export

`csv_text`, `export_columns` and `CsvRecord` of `storage.cpp`. A number is in a row as the text that a
stream writes for it.

* `exportColumns`, `header`: the columns of every row, and the line that names them.
* `CsvRecord`: a row, with one cell a column.
* `put_eq`, `cell_set_self`, `cell_set_of_ne`: a row as a map from the columns.
* `CsvRecord.line_parses`: what a reader of the line gets.
-/

namespace OVMesh

/-! ## Texts -/

/-- A spreadsheet may take the text for a formula, or not show how it starts. -/
def FormulaLike (input : Text) : Prop :=
  input.find? (0x20 < ·) ∈ [some 61, some 43, some 45, some 64] ∨
    input.head? ∈ [some 9, some 13, some 10]

instance (input : Text) : Decidable (FormulaLike input) := inferInstanceAs (Decidable (_ ∨ _))

/-- `value` of `csv_text`, with an apostrophe in front where it may be a formula. -/
def guardFormula (input : Text) : Text := if FormulaLike input then 39 :: input else input

/-- `csv_text`: a text in quotes, with an apostrophe before what a spreadsheet would evaluate. -/
def csvText (input : Text) : Text := Csv.quoted (guardFormula input)

example : csvText (ascii " =a\"b") = ascii "\"' =a\"\"b\"" := by decide +kernel

/-- `blank` is passed over, and then a byte comes that starts a formula. -/
theorem formulaLike_of_blank {blank rest : Text} {c : UInt8} (hblank : ∀ b ∈ blank, b ≤ 0x20)
    (hc : c ∈ [61, 43, 45, 64]) : FormulaLike (blank ++ c :: rest) := by
  have hnone : blank.find? (0x20 < ·) = none := by
    rw [List.find?_eq_none]
    intro b hb
    simpa using hblank b hb
  left
  rw [List.find?_append, hnone, Option.none_or]
  simp only [List.mem_cons, List.not_mem_nil, or_false] at hc
  rcases hc with rfl | rfl | rfl | rfl <;> simp

/-! ## Columns -/

/-- The columns of `input`. -/
def inputColumns : String :=
  "record_type,session_id,utc_seconds,elapsed_seconds,frequency_hz,bandwidth_hz,spreading_factor,coding_rate,duration_seconds,snr_db,frequency_error_hz,header_valid,crc_valid,decode_status,classification,authentication,observed_seconds,active_seconds,occupancy_fraction,mean_dbfs,peak_dbfs,input_seconds,measurement_seconds,delivered_samples,dropped_samples,total_receptions,classified_receptions,incomplete,receiver_latitude,receiver_longitude,receiver_altitude,receiver_utc_seconds,receiver_monotonic_seconds,receiver_manual,receiver_source,receiver_hdop,receiver_satellites,window_id,window_utc_start_seconds,window_utc_end_seconds,window_elapsed_start_seconds,window_elapsed_end_seconds,position_association,activity_threshold_dbfs,sample_rate,survey_span_hz,source,rf_level_unit,application_version,lna_gain_db,vga_gain_db,rf_amplifier_enabled,tuning_offset_hz,tuner_command_hz,evidence_port,evidence_signature_present"

/-- The columns of `spectrum`. -/
def spectrumColumns : String :=
  "spectrum_id,first_sample,end_sample,first_center_hz,bin_width_hz,fft_size,hop_size,frame_count,bin_count,background_dbfs,clipped_samples,quality_flags,mean_centidb_le_hex,peak_centidb_le_hex,activity_frame_start,activity_frame_count,activity_mask_hex,lower_hz,upper_hz,missing_samples,gap_reason,window_function,enbw_hz,normalization,time_association,power_time_association,peak_interpretation,antenna_description,receiver_description,survey_notes"

/-- The columns of `discovery`. -/
def discoveryColumns : String :=
  "session_schema_version,waveform_id,inferred_bandwidth_hz,inferred_spreading_factor,evidence_first_elapsed_seconds,delimiter_elapsed_seconds,delimiter_utc_seconds,waveform_up_match_fraction,waveform_down_match_fraction,contributing_subbands,complete_in_requested_range,association_ambiguous,discovery_method,discovery_enabled,discovery_finished,discovery_failed,discovery_fault,discovery_accepted_input_samples,discovery_rejected_input_samples,discovery_channelized_input_samples,discovery_abandoned_input_samples,discovery_source_queue_drops,discovery_stream_resets,discovery_result_overflows,discovery_gap_overflows,discovery_observations,discovery_subband_index,discovery_output_sample_rate,discovery_processed_output_samples,discovery_abandoned_output_samples,discovery_source_gap_input_samples,discovery_candidate_limit_hits,discovery_track_limit_hits,discovery_gap_id,discovery_gap_first_input_sample,discovery_gap_end_input_sample,discovery_coverage_interpretation"

/-- The columns of `concentrator`. -/
def concentratorColumns : String :=
  "concentrator_scan_id,concentrator_board_index,nominal_filter_bandwidth_hz,rssi_offset_db,rssi_sample_count,rssi_histogram_counts_33,quantized_threshold_dbm,sample_exceedance_fraction,concentrator_method,concentrator_coverage,configured_bandwidth_hz,configured_sync_word,packets_enabled,scan_enabled,scan_step_hz,scan_target_samples,concentrator_decode_enabled,packet_rssi_dbm,hardware_timestamp_us,hardware_timestamp_provenance,bandwidth_interpretation,concentrator_ready,concentrator_scans,concentrator_rssi_samples,concentrator_receptions,concentrator_crc_failures,concentrator_ready_elapsed_seconds,concentrator_last_update_elapsed_seconds"

/-- `automatic_columns`: the columns of the decoder's counters. -/
def automaticColumns : String :=
  "acquisition_id,version,available,enabled,finished,candidates,started,completed,crc_valid,classified,history_misses,active_limit_hits,duplicate_candidates,excluded_candidates,outside_range_candidates,unsupported_candidates,timeouts,resets,abandoned_decoders,frame_overflows,active_decoders,history_samples"

/-- The loop of `std::getline` over a stream, where `piece` was read of the current piece. -/
def getlines (piece : Text) : Text → List Text
  | [] => if piece = [] then [] else [piece]
  | b :: rest => if b = 44 then piece :: getlines [] rest else getlines (piece ++ [b]) rest

/-- The columns of a literal. -/
def columnsOf (literal : String) : List Text := getlines [] (ascii literal)

/-- `export_columns`: the columns of an export, in their order. -/
def exportColumns : List Text :=
  columnsOf inputColumns ++ columnsOf spectrumColumns ++ columnsOf discoveryColumns ++
  [ascii "power_elapsed_start_seconds", ascii "power_elapsed_end_seconds",
    ascii "rtl_tuner_gain_db", ascii "rtl_auto_gain"] ++
  columnsOf concentratorColumns ++
  ((columnsOf automaticColumns).filter (· ≠ ascii "acquisition_id")).map (ascii "decoder_" ++ ·) ++
  [ascii "acquisition_id", ascii "acquisition_elapsed_start_seconds",
    ascii "acquisition_elapsed_end_seconds", ascii "acquisition_finalized",
    ascii "acquisition_scope"]

/-- The line that `export_csv` writes first. -/
def header : Text :=
  exportColumns.foldl (fun header column =>
    if header = [] then header ++ column else header ++ [44] ++ column) [] ++ [10]

/-- The bytes of a literal are those of its characters. -/
theorem ascii_ofList {literal : String} {l : List Char} (h : literal = String.ofList l) :
    ascii literal = l.map fun c => UInt8.ofNat c.toNat := by
  rw [h, ascii, String.toList_ofList]

theorem mem_getlines {piece text column : Text} (h : column ∈ getlines piece text) :
    ∀ b ∈ column, b ∈ piece ∨ b ∈ text ∧ b ≠ 44 := by
  fun_induction getlines piece text with
  | case1 => cases h
  | case2 piece hpiece =>
    obtain rfl := List.mem_singleton.mp h
    exact fun b hb => .inl hb
  | case3 piece rest ih =>
    rcases List.mem_cons.mp h with rfl | h
    · exact fun b hb => .inl hb
    · intro b hb
      rcases ih h b hb with hb | ⟨hb, hne⟩
      · cases hb
      · exact .inr ⟨List.mem_cons_of_mem _ hb, hne⟩
  | case4 piece b rest hne ih =>
    intro x hx
    rcases ih h x hx with hx | ⟨hx, hne'⟩
    · rcases List.mem_append.mp hx with hx | hx
      · exact .inl hx
      · obtain rfl := List.mem_singleton.mp hx
        exact .inr ⟨List.mem_cons_self, hne⟩
    · exact .inr ⟨List.mem_cons_of_mem _ hx, hne'⟩

theorem getlines_head {piece : Text} (h : piece ≠ []) (text : Text) :
    ∃ column rest, getlines piece text = column :: rest ∧ column ≠ [] := by
  fun_induction getlines piece text with
  | case1 => exact absurd rfl h
  | case2 piece => exact ⟨piece, [], rfl, h⟩
  | case3 piece rest => exact ⟨piece, getlines [] rest, rfl, h⟩
  | case4 piece b rest hne ih => exact ih (by simp)

/-- The first column of a literal that starts with none of its commas. -/
theorem columnsOf_head (literal : String) {c : Char} {l : List Char}
    (h : literal = String.ofList (c :: l)) (hc : UInt8.ofNat c.toNat ≠ 44) :
    ∃ column rest, columnsOf literal = column :: rest ∧ column ≠ [] := by
  rw [columnsOf, ascii_ofList h, List.map_cons, getlines, if_neg hc]
  exact getlines_head (by simp) _

set_option maxRecDepth 20000 in
theorem exportColumns_head : ∃ column rest, exportColumns = column :: rest ∧ column ≠ [] := by
  obtain ⟨column, rest, hcolumns, hne⟩ := columnsOf_head inputColumns rfl (by decide)
  rw [exportColumns, hcolumns]
  exact ⟨column, _, rfl, hne⟩

theorem exportColumns_ne_nil : exportColumns ≠ [] := by
  obtain ⟨column, rest, hcolumns, -⟩ := exportColumns_head
  intro hnil
  cases hcolumns.symm.trans hnil

theorem header_eq : header = Csv.join exportColumns ++ [10] := by
  have hfold : ∀ (l : List Text) (line : Text), line ≠ [] →
      l.foldl (fun header column =>
        if header = [] then header ++ column else header ++ [44] ++ column) line =
      line ++ l.flatMap (44 :: ·) := by
    intro l
    induction l with
    | nil => simp
    | cons column l ih =>
      intro line hline
      rw [List.foldl_cons, if_neg hline, ih _ (by simp), List.flatMap_cons]
      simp
  obtain ⟨column, rest, hcolumns, hne⟩ := exportColumns_head
  rw [header, hcolumns, List.foldl_cons, if_pos rfl, List.nil_append, hfold rest column hne,
    Csv.join_cons]

/-- The bytes of a literal are plain, or commas. -/
theorem plain_columnsOf {literal : String} {l : List Char} (h : literal = String.ofList l)
    (hl : (l.all fun c => Csv.isPlain (UInt8.ofNat c.toNat) || UInt8.ofNat c.toNat == 44) = true)
    {column : Text} (hcolumn : column ∈ columnsOf literal) :
    ∀ b ∈ column, Csv.isPlain b = true := by
  intro b hb
  rcases mem_getlines hcolumn b hb with hb | ⟨hb, hne⟩
  · cases hb
  · rw [ascii_ofList h] at hb
    obtain ⟨c, hc, rfl⟩ := List.mem_map.mp hb
    simpa [hne] using List.all_eq_true.mp hl c hc

theorem plain_ascii (literal : String) {l : List Char} (h : literal = String.ofList l)
    (hl : (l.all fun c => Csv.isPlain (UInt8.ofNat c.toNat)) = true) :
    ∀ b ∈ ascii literal, Csv.isPlain b = true := by
  intro b hb
  rw [ascii_ofList h] at hb
  obtain ⟨c, hc, rfl⟩ := List.mem_map.mp hb
  exact List.all_eq_true.mp hl c hc

set_option maxRecDepth 20000 in
/-- No column needs quotes. -/
theorem plain_exportColumns {column : Text} (h : column ∈ exportColumns) :
    ∀ b ∈ column, Csv.isPlain b = true := by
  simp only [exportColumns, List.mem_append, List.mem_cons, List.not_mem_nil, or_false,
    or_assoc] at h
  rcases h with h | h | h | rfl | rfl | rfl | rfl | h | h | rfl | rfl | rfl | rfl | rfl
  · exact plain_columnsOf rfl (by decide +kernel) h
  · exact plain_columnsOf rfl (by decide +kernel) h
  · exact plain_columnsOf rfl (by decide +kernel) h
  · exact plain_ascii _ rfl (by decide +kernel)
  · exact plain_ascii _ rfl (by decide +kernel)
  · exact plain_ascii _ rfl (by decide +kernel)
  · exact plain_ascii _ rfl (by decide +kernel)
  · exact plain_columnsOf rfl (by decide +kernel) h
  · obtain ⟨field, hfield, rfl⟩ := List.mem_map.mp h
    intro b hb
    rcases List.mem_append.mp hb with hb | hb
    · exact plain_ascii "decoder_" rfl (by decide +kernel) b hb
    · exact plain_columnsOf rfl (by decide +kernel) (List.mem_filter.mp hfield).1 b hb
  · exact plain_ascii _ rfl (by decide +kernel)
  · exact plain_ascii _ rfl (by decide +kernel)
  · exact plain_ascii _ rfl (by decide +kernel)
  · exact plain_ascii _ rfl (by decide +kernel)
  · exact plain_ascii _ rfl (by decide +kernel)

theorem mem_columnsOf {name literal : String} {m l : List Char} (hname : name = String.ofList m)
    (h : literal = String.ofList l)
    (hmem : m.map (fun c => UInt8.ofNat c.toNat) ∈
      getlines [] (l.map fun c => UInt8.ofNat c.toNat)) : ascii name ∈ columnsOf literal := by
  rwa [columnsOf, ascii_ofList hname, ascii_ofList h]

theorem mem_inputColumns {name : Text} (h : name ∈ columnsOf inputColumns) :
    name ∈ exportColumns := by
  simp only [exportColumns, List.mem_append, h, true_or]

theorem mem_spectrumColumns {name : Text} (h : name ∈ columnsOf spectrumColumns) :
    name ∈ exportColumns := by
  simp only [exportColumns, List.mem_append, h, or_true, true_or]

/-! ## Rows -/

/-- The text that a stream of the classic locale writes for a number, which groups no digits. -/
structure Number where
  text : Text
  plain : ∀ b ∈ text, Csv.isPlain b = true

/-- A digit is plain. -/
theorem plain_digit {b : UInt8} (h : Decimal.isDigit b = true) : Csv.isPlain b = true := by
  simp only [Decimal.isDigit, Bool.and_eq_true, decide_eq_true_eq, UInt8.le_iff_toNat_le] at h
  simp only [Csv.isPlain, Bool.and_eq_true, bne_iff_ne]
  obtain ⟨hlower, -⟩ := h
  refine ⟨⟨⟨?_, ?_⟩, ?_⟩, ?_⟩ <;> rintro rfl <;> simp at hlower

/-- The text of an unsigned integer. -/
def Number.ofNat (n : ℕ) : Number :=
  ⟨Decimal.decimal n, fun b hb => plain_digit (Decimal.isDigit_decimal b hb)⟩

/-- `CsvRecord::Cell`: a text, or a number as it is printed. -/
inductive CsvCell
  | text (value : Text)
  | number (value : Number)

/-- A cell in a line. -/
def CsvCell.written : CsvCell → Text
  | .text value => csvText value
  | .number value => value.text

/-- What a reader may get for a cell: a number as it was, and a text as it was or behind an
apostrophe, which is there where a spreadsheet may take it for a formula. -/
def CsvCell.ReadAs (value : Text) : CsvCell → Prop
  | .text input => (value = input ∨ value = 39 :: input) ∧
      ((∃ blank c rest, input = blank ++ c :: rest ∧ (∀ b ∈ blank, b ≤ 0x20) ∧
          c ∈ ([61, 43, 45, 64] : List UInt8)) ∨
        (∃ c rest, input = c :: rest ∧ c ∈ ([9, 13, 10] : List UInt8)) → value = 39 :: input)
  | .number n => value = n.text

/-- A row of the export: one cell for every column. -/
structure CsvRecord where
  fields : List CsvCell
  length_fields : fields.length = exportColumns.length

namespace CsvRecord

/-- A row without values. -/
def empty : CsvRecord := ⟨List.replicate exportColumns.length (.text []), List.length_replicate⟩

variable (r : CsvRecord) (name : Text) (c : CsvCell)

theorem length_set : (r.fields.set (exportColumns.idxOf name) c).length = exportColumns.length :=
  List.length_set.trans r.length_fields

/-- The record with one more column filled. -/
def set : CsvRecord := ⟨r.fields.set (exportColumns.idxOf name) c, length_set r name c⟩

/-- `put`: a column must be one of the export. -/
def put : Except String CsvRecord :=
  if name ∈ exportColumns then .ok (r.set name c) else .error "Unknown CSV field"

/-- `text`: a column with a text. -/
def text (value : Text) : Except String CsvRecord := r.put name (.text value)

/-- `number`: a column with a number. -/
def number (value : Number) : Except String CsvRecord := r.put name (.number value)

/-- The cell of a column. -/
def cell : CsvCell := r.fields.getD (exportColumns.idxOf name) (.text [])

/-- The line that `write` gives to the file. -/
def line : Text := Csv.join (r.fields.map CsvCell.written) ++ [10]

variable {r name c}

theorem put_eq (h : name ∈ exportColumns) : r.put name c = .ok (r.set name c) := if_pos h

theorem cell_set_self (h : name ∈ exportColumns) : (r.set name c).cell name = c := by
  have hlt := List.idxOf_lt_length_of_mem h
  rw [← r.length_fields] at hlt
  rw [cell, set, List.getD_eq_getElem?_getD, List.getElem?_set_self hlt, Option.getD_some]

theorem cell_set_of_ne {other : Text} (h : name ∈ exportColumns) (hne : name ≠ other) :
    (r.set name c).cell other = r.cell other := by
  have hindex : exportColumns.idxOf name ≠ exportColumns.idxOf other := fun heq =>
    hne ((List.idxOf_inj h).mp heq)
  rw [cell, set, List.getD_eq_getElem?_getD, List.getElem?_set_ne hindex,
    ← List.getD_eq_getElem?_getD]
  rfl

end CsvRecord

/-- A written cell stands for a value that a reader may get for it. -/
theorem CsvCell.encodes_written (c : CsvCell) : ∃ value, Csv.Encodes c.written value ∧ c.ReadAs value := by
  cases c with
  | number n => exact ⟨n.text, .inr ⟨rfl, n.plain⟩, rfl⟩
  | text input =>
    refine ⟨guardFormula input, .inl rfl, ?_, ?_⟩
    · unfold guardFormula
      split
      · exact .inr rfl
      · exact .inl rfl
    · intro hformula
      refine if_pos ?_
      rcases hformula with ⟨blank, c, rest, rfl, hblank, hc⟩ | ⟨c, rest, rfl, hc⟩
      · exact formulaLike_of_blank hblank hc
      · simp only [List.mem_cons, List.not_mem_nil, or_false] at hc
        right
        rcases hc with rfl | rfl | rfl <;> simp

theorem encodes_cells (fields : List CsvCell) :
    ∃ values, List.Forall₂ Csv.Encodes (fields.map CsvCell.written) values ∧
      List.Forall₂ (fun c value => c.ReadAs value) fields values := by
  induction fields with
  | nil => exact ⟨[], .nil, .nil⟩
  | cons c fields ih =>
    obtain ⟨value, hwritten, hread⟩ := c.encodes_written
    obtain ⟨values, hwrittens, hreads⟩ := ih
    exact ⟨value :: values, .cons hwritten hwrittens, .cons hread hreads⟩

theorem parse_header : Csv.parse header = some [exportColumns] := by
  have hplain : List.Forall₂ Csv.Encodes exportColumns exportColumns :=
    List.forall₂_same.mpr fun column h => .inr ⟨rfl, plain_exportColumns h⟩
  rw [header_eq, Csv.parse_line hplain exportColumns_ne_nil]

/-- **What a reader of a line gets.** The line of every row is one record, with a field for every
column that the header names: its numbers as they were written, and its texts as they were or behind
an apostrophe, without which no text is written that a spreadsheet may take for a formula. -/
theorem CsvRecord.line_parses (r : CsvRecord) :
    ∃ columns values, Csv.parse header = some [columns] ∧ Csv.parse r.line = some [values] ∧
      columns = exportColumns ∧ values.length = columns.length ∧
      List.Forall₂ (fun c value => c.ReadAs value) r.fields values := by
  obtain ⟨values, hwritten, hread⟩ := encodes_cells r.fields
  have hlength : values.length = exportColumns.length := by rw [← hread.length_eq, r.length_fields]
  have hne : r.fields.map CsvCell.written ≠ [] := by
    rw [ne_eq, List.map_eq_nil_iff, ← List.length_eq_zero_iff, r.length_fields,
      List.length_eq_zero_iff]
    exact exportColumns_ne_nil
  exact ⟨exportColumns, values, parse_header, Csv.parse_line hwritten hne, rfl, hlength, hread⟩

end OVMesh
