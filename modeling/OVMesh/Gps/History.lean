import OVMesh.Gps.Receiver

/-!
# The history of the fixes

The fixes and markers that the engine keeps in the order in which it records them, and the fix that
`position_at` finds for a time. A fix is stamped before it is recorded, by the reader of the port or by
`set_fixed_position`, so that a marker may be recorded in between; and a sentence of the last epoch is
stamped with the time of that epoch.

* `positionAt`: `position_at`.
* `FixLog`: the history, and with it everything that was ever recorded.
* `Live`, `Live.step`: the reader, the engine and the clock.
* `Safe`: no fix that `position_at` finds crosses a marker, is later than asked for or is old.
* `Crosses`: a fix is recorded after a marker of a later time.
* `history_safe`: the history is safe in every state exactly if no step records such a fix.
-/

namespace OVMesh

namespace Gps

open Runs

section History

variable {K : Type} [Field K] [LinearOrder K]

/-- The loop of `position_at`, from the newest record on. -/
def lookBack (target : K) : List (PositionFix K) → Option (PositionFix K)
  | [] => none
  | fix :: older =>
    if fix.monotonicSeconds > target then lookBack target older
    else if fix.valid = false then none
    else if fix.manual = true ∨ target - fix.monotonicSeconds ≤ 2 then some fix
    else none

/-- `position_at`: the newest fix at or before a time that no marker follows. -/
def positionAt (history : List (PositionFix K)) (target : K) : Option (PositionFix K) :=
  if target < 0 then none else lookBack target history.reverse

/-- A record without a fix. -/
def marker (monotonic utc : K) (source : Text) : PositionFix K :=
  ⟨0, 0, none, utc, monotonic, false, false, source, none, 0⟩

/-- `current_fix` and `fix_history` of the engine, and every record that the history ever had. -/
structure FixLog (K : Type) where
  currentFix : Option (PositionFix K) := none
  fixHistory : List (PositionFix K) := []
  recorded : List (PositionFix K) := []

namespace FixLog

/-- `position`: a fix becomes the current one, and the oldest ones are dropped from a full history. -/
def position (log : FixLog K) (fix : PositionFix K) : FixLog K :=
  let history := log.fixHistory ++ [fix]
  { currentFix := some fix
    fixHistory := if history.length > 24000 then history.drop 2000 else history
    recorded := log.recorded ++ [fix] }

/-- `clear_live_position_locked`: a marker is appended, and there is no current fix. -/
def clearLivePosition (log : FixLog K) (monotonic utc : K) (reason : String) : FixLog K :=
  { currentFix := none
    fixHistory := log.fixHistory ++ [marker monotonic utc (ascii reason)]
    recorded := log.recorded ++ [marker monotonic utc (ascii reason)] }

/-- What a start and a new session do with the history. -/
def restart (log : FixLog K) : FixLog K := { log with fixHistory := log.currentFix.toList }

end FixLog

/-- The reader of the port, the engine and the clock. `connecting` is the time in which `connect_gps`
holds the mutex of the engine, and `fixed` the fix that `set_fixed_position` has stamped. -/
structure Live (K : Type) where
  gps : SerialGps K
  joinable : Bool := false
  reading : Bool := false
  parsed : Option (PositionFix K) := none
  connecting : Bool := false
  fixed : Option (PositionFix K) := none
  now : K
  log : FixLog K := {}

/-- What reaches the receiver of positions: time passes, a sentence, a failed read, a delivery to the
history, or the removal of the device. -/
inductive Event (K : Type)
  | tick (later : K)
  | sentence (fix : PositionFix K)
  | readFailed (utc : K)
  | deliver
  | clearPosition (utc : K)
  | connect (path : String)
  | connected (utc : K)
  | disconnect (utc : K)
  | setFixedPosition (latitude longitude : K) (altitude : Option K) (utc : K)
  | recordFixed
  | restart

namespace Live

/-- `SerialGps::stop` of the engine, once the reader has ended. -/
def stopGps (s : Live K) : Live K := { s with gps := s.gps.stop, joinable := false, reading := false }

/-- One step of a thread. The reader stamps a sentence and later delivers it; a step whose thread
waits, or whose call fails, changes nothing. -/
def step (rnd : K → K) (s : Live K) : Event K → Live K
  | .tick later => if s.now ≤ later then { s with now := later } else s
  | .sentence fix =>
    if s.reading ∧ s.parsed.isNone then
      { s with parsed := some { fix with monotonicSeconds := s.now, manual := false } }
    else s
  | .readFailed utc =>
    if s.reading ∧ s.gps.running ∧ s.parsed.isNone then
      { s with
        reading := false
        gps := { s.gps with
          running := false
          connection := { s.gps.connection with
            state := .readError, detail := "GPS serial device disconnected or read failed" } }
        parsed := some (marker s.now utc (ascii "Serial GPS disconnected or read failed")) }
    else s
  | .deliver =>
    match s.parsed with
    | some fix =>
      if s.connecting then s
      else
        let delivered := s.gps.deliver rnd fix
        { s with gps := delivered.1, parsed := none, log := s.log.position delivered.2 }
    | none => s
  | .clearPosition utc =>
    if s.connecting then s
    else { s with log := s.log.clearLivePosition s.now utc "Position cleared" }
  | .connect path =>
    if s.connecting ∨ s.fixed.isSome ∨ s.joinable then s
    else { s with gps := s.gps.start path, joinable := true, reading := true, connecting := true }
  | .connected utc =>
    if s.connecting then
      { s with
        connecting := false
        log := s.log.clearLivePosition s.now utc "Serial GPS source changed; awaiting fix" }
    else s
  | .disconnect utc =>
    if s.connecting ∨ s.fixed.isSome ∨ s.parsed.isSome then s
    else if s.log.currentFix.any (·.manual) then s.stopGps
    else
      { s.stopGps with log := s.log.clearLivePosition s.now utc "Serial GPS disconnected" }
  | .setFixedPosition latitude longitude altitude utc =>
    if s.connecting ∨ s.fixed.isSome ∨ s.parsed.isSome ∨ |latitude| > 90 ∨ |longitude| > 180 then s
    else
      { s.stopGps with
        fixed := some ⟨latitude, longitude, altitude, utc, s.now, true, true, ascii "manual fixed", none, 0⟩ }
  | .recordFixed =>
    match s.fixed with
    | some fix =>
      if s.connecting then s else { s with fixed := none, log := s.log.position fix }
    | none => s
  | .restart =>
    if s.connecting ∨ s.fixed.isSome then s else { s with log := s.log.restart }

/-- The engine before any fix. -/
def initial : Live K := { gps := ⟨false, -1, 0, none, {}, 0⟩, now := 0 }

end Live

/-- No fix that `position_at` finds was acquired before a marker up to the time asked for, is later
than that time, or is older than two seconds without being manual. -/
def Safe (log : FixLog K) : Prop :=
  ∀ target fix, positionAt log.fixHistory target = some fix →
    fix.monotonicSeconds ≤ target ∧ (fix.manual = false → target - fix.monotonicSeconds ≤ 2) ∧
    ∀ m ∈ log.recorded, m.valid = false → m.monotonicSeconds ≤ target →
      m.monotonicSeconds ≤ fix.monotonicSeconds

/-- The time of a sentence that is about to be delivered: its own, or that of the epoch it repeats. -/
def acquired (rnd : K → K) (gps : SerialGps K) (fix : PositionFix K) : K :=
  if SerialGps.SameEpoch rnd gps fix then gps.lastMonotonic else fix.monotonicSeconds

/-- A step that records a valid fix although a marker of a later time is recorded already, one of at
most two seconds later unless the fix is manual. -/
def Crosses (rnd : K → K) (s : Live K) : Event K → Prop
  | .deliver => s.connecting = false ∧ ∃ fix, s.parsed = some fix ∧ fix.valid = true ∧
      ¬ fix.utcSeconds < rnd (s.gps.lastUtc - SerialGps.tolerance rnd) ∧
      ∃ m ∈ s.log.recorded, m.valid = false ∧ acquired rnd s.gps fix < m.monotonicSeconds ∧
        m.monotonicSeconds ≤ acquired rnd s.gps fix + 2
  | .recordFixed => s.connecting = false ∧ ∃ fix, s.fixed = some fix ∧
      ∃ m ∈ s.log.recorded, m.valid = false ∧ fix.monotonicSeconds < m.monotonicSeconds
  | _ => False

/-! ## Lookups -/

variable {target : K} {fix m : PositionFix K} {history older newer : List (PositionFix K)}
  {log : FixLog K}

theorem lookBack_eq_some (h : lookBack target history = some fix) :
    ∃ newer older, history = newer ++ fix :: older ∧ (∀ f ∈ newer, target < f.monotonicSeconds) ∧
      fix.monotonicSeconds ≤ target ∧ fix.valid = true ∧
      (fix.manual = true ∨ target - fix.monotonicSeconds ≤ 2) := by
  induction history with
  | nil => cases h
  | cons f history ih =>
    rw [lookBack] at h
    split_ifs at h with hlater hinvalid hfresh
    · obtain ⟨newer, older, rfl, hnewer, hrest⟩ := ih h
      exact ⟨f :: newer, older, rfl, List.forall_mem_cons.mpr ⟨hlater, hnewer⟩, hrest⟩
    · obtain rfl := Option.some.inj h
      exact ⟨[], history, rfl, fun f hf => absurd hf List.not_mem_nil, not_lt.mp hlater,
        by simpa using hinvalid, hfresh⟩

/-- A fix that `position_at` finds has only later records after it. -/
theorem positionAt_eq_some (h : positionAt history target = some fix) :
    ∃ older newer, history = older ++ fix :: newer ∧ (∀ f ∈ newer, target < f.monotonicSeconds) ∧
      fix.monotonicSeconds ≤ target ∧ fix.valid = true ∧
      (fix.manual = true ∨ target - fix.monotonicSeconds ≤ 2) := by
  rw [positionAt] at h
  split_ifs at h
  obtain ⟨newer, older, hsplit, hnewer, hrest⟩ := lookBack_eq_some h
  refine ⟨older.reverse, newer.reverse, ?_, fun f hf => hnewer f (List.mem_reverse.mp hf), hrest⟩
  rw [← List.reverse_reverse history, hsplit]
  simp

/-- The newest record decides for the times from its own on. -/
theorem positionAt_concat (hvalid : fix.valid = true) (hle : fix.monotonicSeconds ≤ target)
    (h0 : 0 ≤ target) (hfresh : fix.manual = true ∨ target - fix.monotonicSeconds ≤ 2) :
    positionAt (history ++ [fix]) target = some fix := by
  rw [positionAt, if_neg (not_lt.mpr h0), List.reverse_append, List.reverse_singleton,
    List.singleton_append, lookBack, if_neg (not_lt.mpr hle), if_neg (by simp [hvalid]),
    if_pos hfresh]

/-! ## Crossed markers -/

/-- A fix that some lookup finds although the marker is later than it. -/
def Crossed (m fix : PositionFix K) : Prop :=
  m.valid = false ∧ fix.monotonicSeconds < m.monotonicSeconds ∧
    (fix.manual = true ∨ m.monotonicSeconds ≤ fix.monotonicSeconds + 2)

/-- No valid fix is recorded after a marker that it crosses. -/
def Clean (recorded : List (PositionFix K)) : Prop :=
  ∀ older fix newer, recorded = older ++ fix :: newer → fix.valid = true →
    ∀ m ∈ older, ¬ Crossed m fix

theorem clean_nil : Clean ([] : List (PositionFix K)) := by
  intro older fix newer h
  cases older <;> cases h

theorem clean_concat : Clean (history ++ [fix]) ↔
    Clean history ∧ (fix.valid = true → ∀ m ∈ history, ¬ Crossed m fix) := by
  constructor
  · intro h
    refine ⟨fun older f newer hsplit => ?_, h history fix [] rfl⟩
    exact h older f (newer ++ [fix]) (by rw [hsplit, List.append_assoc, List.cons_append])
  · rintro ⟨hclean, hlast⟩ older f newer hsplit
    rcases List.eq_nil_or_concat newer with rfl | ⟨newer, g, rfl⟩
    · obtain ⟨rfl, hlast'⟩ := List.append_inj' hsplit rfl
      obtain rfl := List.singleton_inj.mp hlast'
      exact hlast
    · have hsplit' : history ++ [fix] = (older ++ f :: newer) ++ [g] := by
        rw [hsplit]
        simp
      obtain ⟨hhistory, -⟩ := List.append_inj' hsplit' rfl
      exact hclean older f newer hhistory

/-- The history is the end of what was recorded, and the current fix is the last record. -/
structure FixLog.Wf (log : FixLog K) : Prop where
  history : log.fixHistory <:+ log.recorded
  current : log.currentFix.toList <:+ log.recorded
  nonneg : ∀ f ∈ log.recorded, 0 ≤ f.monotonicSeconds

variable [IsStrictOrderedRing K]

theorem safe_of_clean (h : log.Wf) (hclean : Clean log.recorded) : Safe log := by
  intro target fix hfind
  obtain ⟨older, newer, hsplit, hnewer, hle, hvalid, hfresh⟩ := positionAt_eq_some hfind
  obtain ⟨trimmed, htrimmed⟩ := h.history
  have hrecorded : log.recorded = (trimmed ++ older) ++ fix :: newer := by
    rw [← htrimmed, hsplit, List.append_assoc]
  refine ⟨hle, fun hmanual => hfresh.resolve_left (by simp [hmanual]), fun m hm hinvalid hmle => ?_⟩
  rw [hrecorded, List.mem_append, List.mem_cons] at hm
  rcases hm with hm | rfl | hm
  · by_contra hlater
    refine hclean _ fix newer hrecorded hvalid m hm ⟨hinvalid, not_le.mp hlater, ?_⟩
    exact hfresh.imp_right fun hage => by linarith
  · exact le_rfl
  · exact absurd hmle (not_le.mpr (hnewer m hm))

/-- The lookup at the time of a crossed marker finds the fix. -/
theorem not_safe_of_crossed (hvalid : fix.valid = true) (hm : m ∈ log.recorded)
    (h0 : 0 ≤ m.monotonicSeconds) (hcrossed : Crossed m fix)
    (hlast : ∃ older, log.fixHistory = older ++ [fix]) : ¬ Safe log := by
  intro hsafe
  obtain ⟨hinvalid, hlater, hfresh⟩ := hcrossed
  obtain ⟨older, hhistory⟩ := hlast
  have hfind : positionAt log.fixHistory m.monotonicSeconds = some fix := by
    rw [hhistory]
    exact positionAt_concat hvalid hlater.le h0 (hfresh.imp_right fun hage => by linarith)
  exact absurd ((hsafe _ fix hfind).2.2 m hm hinvalid le_rfl) (not_le.mpr hlater)

/-! ## Records -/

namespace FixLog

theorem suffix_concat {α : Type} {l l' : List α} {x : α} (h : l <:+ l') : l ++ [x] <:+ l' ++ [x] := by
  obtain ⟨before, rfl⟩ := h
  exact ⟨before, by rw [List.append_assoc]⟩

omit [IsStrictOrderedRing K] in
theorem Wf.position (h : log.Wf) (hfix : 0 ≤ fix.monotonicSeconds) : (log.position fix).Wf := by
  refine ⟨?_, List.suffix_append _ _, fun f hf => ?_⟩
  · simp only [FixLog.position]
    split_ifs
    · exact (List.drop_suffix _ _).trans (suffix_concat h.history)
    · exact suffix_concat h.history
  · rcases List.mem_append.mp hf with hf | hf
    · exact h.nonneg f hf
    · rwa [List.mem_singleton.mp hf]

omit [IsStrictOrderedRing K] in
theorem Wf.clearLivePosition {monotonic utc : K} {reason : String} (h : log.Wf) (h0 : 0 ≤ monotonic) :
    (log.clearLivePosition monotonic utc reason).Wf := by
  refine ⟨suffix_concat h.history, List.nil_suffix, fun f hf => ?_⟩
  rcases List.mem_append.mp hf with hf | hf
  · exact h.nonneg f hf
  · rwa [List.mem_singleton.mp hf]

omit [IsStrictOrderedRing K] in
theorem Wf.restart (h : log.Wf) : log.restart.Wf := ⟨h.current, h.current, h.nonneg⟩

omit [IsStrictOrderedRing K] in
theorem clean_clearLivePosition {monotonic utc : K} {reason : String} (h : Clean log.recorded) :
    Clean (log.clearLivePosition monotonic utc reason).recorded :=
  clean_concat.mpr ⟨h, fun hvalid => by cases hvalid⟩

omit [Field K] [LinearOrder K] [IsStrictOrderedRing K] in
/-- The newest record is the last of the history, trimmed or not. -/
theorem position_fixHistory : ∃ older, (log.position fix).fixHistory = older ++ [fix] := by
  simp only [position]
  split_ifs with hlong
  · refine ⟨log.fixHistory.drop 2000, ?_⟩
    rw [List.length_append, List.length_singleton] at hlong
    exact List.drop_append_of_le_length (by omega)
  · exact ⟨_, rfl⟩

end FixLog

/-! ## Deliveries -/

section Deliveries

variable {rnd : K → K} {gps : SerialGps K}

omit [IsStrictOrderedRing K] in
/-- The fix that a delivery records. -/
theorem deliver_fix : ((gps.deliver rnd fix).2.valid = true ↔ fix.valid = true ∧
      ¬ fix.utcSeconds < rnd (gps.lastUtc - SerialGps.tolerance rnd)) ∧
    ((gps.deliver rnd fix).2.valid = true →
      (gps.deliver rnd fix).2.monotonicSeconds = acquired rnd gps fix) ∧
    (gps.deliver rnd fix).2.manual = fix.manual := by
  rw [SerialGps.deliver_eq, SerialGps.place, acquired]
  by_cases hvalid : fix.valid = true
  · rw [if_pos hvalid]
    by_cases hback : fix.utcSeconds < rnd (gps.lastUtc - SerialGps.tolerance rnd)
    · rw [if_pos hback]
      exact ⟨iff_of_false Bool.false_ne_true fun h => h.2 hback,
        fun h => absurd h Bool.false_ne_true, rfl⟩
    · rw [if_neg hback]
      by_cases hsame : SerialGps.SameEpoch rnd gps fix
      · rw [if_pos hsame, if_pos hsame]
        exact ⟨iff_of_true hvalid ⟨hvalid, hback⟩, fun _ => rfl, rfl⟩
      · rw [if_neg hsame, if_neg hsame]
        exact ⟨iff_of_true hvalid ⟨hvalid, hback⟩, fun _ => rfl, rfl⟩
  · rw [if_neg hvalid]
    exact ⟨iff_of_false hvalid fun h => hvalid h.1, fun h => absurd h hvalid, rfl⟩

omit [IsStrictOrderedRing K] in
/-- The times of a delivery are times that the receiver or the sentence had. -/
theorem deliver_nonneg (hepoch : 0 ≤ gps.lastMonotonic) (hfix : 0 ≤ fix.monotonicSeconds) :
    0 ≤ (gps.deliver rnd fix).1.lastMonotonic ∧ 0 ≤ (gps.deliver rnd fix).2.monotonicSeconds := by
  rw [SerialGps.deliver_eq, SerialGps.report_lastMonotonic, SerialGps.place]
  split_ifs
  · exact ⟨hepoch, hfix⟩
  · exact ⟨hepoch, hepoch⟩
  · exact ⟨hfix, hfix⟩
  · exact ⟨hepoch, hfix⟩

end Deliveries

/-! ## Runs -/

namespace Live

/-- Every time in the state is a time of the clock, and the stamped fixes are of their kinds. -/
structure Wf (s : Live K) : Prop where
  log : s.log.Wf
  now : 0 ≤ s.now
  epoch : 0 ≤ s.gps.lastMonotonic
  parsed : ∀ f, s.parsed = some f → 0 ≤ f.monotonicSeconds ∧ f.manual = false
  fixed : ∀ f, s.fixed = some f → 0 ≤ f.monotonicSeconds ∧ f.manual = true ∧ f.valid = true

variable {rnd : K → K} {s : Live K} {e : Event K}

omit [IsStrictOrderedRing K] in
theorem wf_step (h : s.Wf) : (s.step rnd e).Wf := by
  -- No time of the clock is negative, and every stored fix has the time at which it was stamped.
  cases e with
  | tick later =>
    simp only [step]
    split_ifs with hlater
    · exact ⟨h.log, h.now.trans hlater, h.epoch, h.parsed, h.fixed⟩
    · exact h
  | sentence fix =>
    simp only [step]
    split_ifs
    · refine ⟨h.log, h.now, h.epoch, fun f hf => ?_, h.fixed⟩
      obtain rfl := Option.some.inj hf
      exact ⟨h.now, rfl⟩
    · exact h
  | readFailed utc =>
    simp only [step]
    split_ifs
    · refine ⟨h.log, h.now, h.epoch, fun f hf => ?_, h.fixed⟩
      obtain rfl := Option.some.inj hf
      exact ⟨h.now, rfl⟩
    · exact h
  | deliver =>
    simp only [step]
    split
    · rename_i fix hfix
      split_ifs
      · exact h
      · obtain ⟨hepoch, hrecord⟩ := @deliver_nonneg K _ _ fix rnd s.gps h.epoch (h.parsed fix hfix).1
        refine ⟨h.log.position hrecord, h.now, hepoch, fun f hf => ?_, h.fixed⟩
        cases hf
    · exact h
  | clearPosition utc =>
    simp only [step]
    split_ifs
    · exact h
    · exact ⟨h.log.clearLivePosition h.now, h.now, h.epoch, h.parsed, h.fixed⟩
  | connect path =>
    simp only [step]
    split_ifs
    · exact h
    · exact ⟨h.log, h.now, h.epoch, h.parsed, h.fixed⟩
  | connected utc =>
    simp only [step]
    split_ifs
    · exact ⟨h.log.clearLivePosition h.now, h.now, h.epoch, h.parsed, h.fixed⟩
    · exact h
  | disconnect utc =>
    simp only [step]
    split_ifs
    · exact h
    · exact ⟨h.log, h.now, h.epoch, h.parsed, h.fixed⟩
    · exact ⟨h.log.clearLivePosition h.now, h.now, h.epoch, h.parsed, h.fixed⟩
  | setFixedPosition latitude longitude altitude utc =>
    simp only [step]
    split_ifs
    · exact h
    · refine ⟨h.log, h.now, h.epoch, h.parsed, fun f hf => ?_⟩
      obtain rfl := Option.some.inj hf
      exact ⟨h.now, rfl, rfl⟩
  | recordFixed =>
    simp only [step]
    split
    · rename_i fix hfix
      split_ifs
      · exact h
      · refine ⟨h.log.position (h.fixed fix hfix).1, h.now, h.epoch, h.parsed, fun f hf => ?_⟩
        cases hf
    · exact h
  | restart =>
    simp only [step]
    split_ifs
    · exact h
    · exact ⟨h.log.restart, h.now, h.epoch, h.parsed, h.fixed⟩

omit [IsStrictOrderedRing K] in
/-- A step that crosses no marker leaves none crossed. -/
theorem clean_step (h : s.Wf) (hclean : Clean s.log.recorded) (hcross : ¬ Crosses rnd s e) :
    Clean (s.step rnd e).log.recorded := by
  -- Only a delivery and a fixed position put a fix behind a marker.
  cases e with
  | deliver =>
    simp only [step]
    split
    · rename_i fix hfix
      split_ifs with hconnecting
      · exact hclean
      · refine clean_concat.mpr ⟨hclean, fun hvalid m hm hcrossed => hcross ?_⟩
        obtain ⟨hdelivered, htime, hmanual⟩ := @deliver_fix K _ _ fix rnd s.gps
        obtain ⟨hvalid', hback⟩ := hdelivered.mp hvalid
        obtain ⟨hinvalid, hlater, hfresh⟩ := hcrossed
        rw [htime hvalid] at hlater hfresh
        rw [hmanual, (h.parsed fix hfix).2] at hfresh
        exact ⟨by simpa using hconnecting, fix, hfix, hvalid', hback, m, hm, hinvalid, hlater,
          hfresh.resolve_left Bool.false_ne_true⟩
    · exact hclean
  | recordFixed =>
    simp only [step]
    split
    · rename_i fix hfix
      split_ifs with hconnecting
      · exact hclean
      · refine clean_concat.mpr ⟨hclean, fun hvalid m hm hcrossed => hcross ?_⟩
        exact ⟨by simpa using hconnecting, fix, hfix, m, hm, hcrossed.1, hcrossed.2.1⟩
    · exact hclean
  | tick later => simpa only [step, apply_ite Live.log, ite_self] using hclean
  | sentence fix => simpa only [step, apply_ite Live.log, ite_self] using hclean
  | readFailed utc => simpa only [step, apply_ite Live.log, ite_self] using hclean
  | connect path => simpa only [step, apply_ite Live.log, ite_self] using hclean
  | setFixedPosition latitude longitude altitude utc =>
    simpa only [step, stopGps, apply_ite Live.log, ite_self] using hclean
  | clearPosition utc =>
    simp only [step]
    split_ifs
    · exact hclean
    · exact FixLog.clean_clearLivePosition hclean
  | connected utc =>
    simp only [step]
    split_ifs
    · exact FixLog.clean_clearLivePosition hclean
    · exact hclean
  | disconnect utc =>
    simp only [step]
    split_ifs
    · exact hclean
    · exact hclean
    · exact FixLog.clean_clearLivePosition hclean
  | restart =>
    simp only [step]
    split_ifs
    · exact hclean
    · exact hclean

/-- After a step that crosses a marker, the lookup at the time of the marker finds the fix. -/
theorem not_safe_of_crosses (h : s.Wf) (hcross : Crosses rnd s e) : ¬ Safe (s.step rnd e).log := by
  cases e with
  | deliver =>
    obtain ⟨hconnecting, fix, hfix, hvalid, hback, m, hm, hinvalid, hlater, hage⟩ := hcross
    obtain ⟨hdelivered, htime, -⟩ := @deliver_fix K _ _ fix rnd s.gps
    have hvalid' := hdelivered.mpr ⟨hvalid, hback⟩
    simp only [step, hfix, hconnecting, Bool.false_eq_true, if_false]
    refine not_safe_of_crossed hvalid' (List.mem_append_left _ hm) (h.log.nonneg m hm)
      ⟨hinvalid, ?_, .inr ?_⟩ FixLog.position_fixHistory
    · rwa [htime hvalid']
    · rwa [htime hvalid']
  | recordFixed =>
    obtain ⟨hconnecting, fix, hfix, m, hm, hinvalid, hlater⟩ := hcross
    obtain ⟨-, hmanual, hvalid⟩ := h.fixed fix hfix
    simp only [step, hfix, hconnecting, Bool.false_eq_true, if_false]
    exact not_safe_of_crossed hvalid (List.mem_append_left _ hm) (h.log.nonneg m hm)
      ⟨hinvalid, hlater, .inl hmanual⟩ FixLog.position_fixHistory
  | _ => exact hcross.elim

omit [IsStrictOrderedRing K] in
theorem wf_initial : (initial : Live K).Wf := by
  refine ⟨⟨List.nil_suffix, List.nil_suffix, fun f hf => absurd hf List.not_mem_nil⟩, le_rfl, le_rfl,
    fun f hf => ?_, fun f hf => ?_⟩
  · cases hf
  · cases hf

omit [IsStrictOrderedRing K] in
theorem clean_run {events : List (Event K)} (h : s.Wf) (hclean : Clean s.log.recorded)
    (hcross : Along (step rnd) (fun s e => ¬ Crosses rnd s e) s events) :
    (run (step rnd) s events).Wf ∧ Clean (run (step rnd) s events).log.recorded :=
  @Along.invariant _ _ (step rnd) _ (fun s => s.Wf ∧ Clean s.log.recorded) _ _
    (fun _ _ h hcross => ⟨wf_step h.1, clean_step h.1 h.2 hcross⟩) hcross ⟨h, hclean⟩

end Live

/-- **No fix crosses a marker, but for fixes that are recorded too late.** In every state of a run no
lookup returns a fix that is from before a marker, too late or too old, exactly if no step of the run
records a valid fix after a marker that is later than its time. -/
theorem history_safe (rnd : K → K) (events : List (Event K)) :
    (∀ before after, events = before ++ after →
      Safe (run (Live.step rnd) Live.initial before).log) ↔
    Along (Live.step rnd) (fun s e => ¬ Crosses rnd s e) Live.initial events := by
  constructor
  · intro hsafe
    refine along_iff_forall.mpr fun before e after hsplit hcross => ?_
    have hwf := @invariant_run _ _ (Live.step rnd) _ _ (fun _ _ => Live.wf_step) Live.wf_initial before
    have hnext := hsafe (before ++ [e]) after (by rw [hsplit, List.append_assoc]; rfl)
    rw [run_concat] at hnext
    exact Live.not_safe_of_crosses hwf hcross hnext
  · intro hcross before after hsplit
    rw [hsplit, along_append] at hcross
    obtain ⟨hwf, hclean⟩ := Live.clean_run Live.wf_initial clean_nil hcross.1
    exact safe_of_clean hwf.log hclean

end History

/-- A fixed position that is set and cleared a second later. -/
def clearedLater : List (Event ℚ) :=
  [.tick 10, .setFixedPosition 54 25 none 1788950896, .recordFixed, .tick 11,
    .clearPosition 1788950897]

/-- No fix that is found after these steps is from before the marker. -/
theorem history_safe_clearedLater :
    Safe (run (Live.step Binary64.nearest) Live.initial clearedLater).log :=
  (history_safe Binary64.nearest clearedLater).mpr
    (by norm_num [clearedLater, Along, Crosses, Live.step, Live.initial, Live.stopGps])
    clearedLater [] (List.append_nil _).symm

/-- A position is cleared between the two sentences of an epoch: `$GPRMC` at 10 s, the clear at 10.5 s
and `$GPGGA` at 10.6 s. -/
def lateRepeat : List (Event ℚ) :=
  [.connect "/dev/ttyACM0", .connected 1788950886, .tick 10,
    .sentence (SerialGps.fixAt 1788950896 0), .deliver, .tick (21 / 2), .clearPosition 1788950896,
    .tick (53 / 5), .sentence (SerialGps.fixAt 1788950896 0), .deliver]

/-- At 11 s the lookup finds the fix of 10 s, across the marker of 10.5 s. -/
theorem lateRepeat_not_safe :
    ¬ Safe (run (Live.step Binary64.nearest) Live.initial lateRepeat).log := by
  intro hsafe
  have hfind : (positionAt (run (Live.step Binary64.nearest) Live.initial lateRepeat).log.fixHistory
      11).map (·.monotonicSeconds) = some 10 := by decide +kernel
  have hmarker : ∃ m ∈ (run (Live.step Binary64.nearest) Live.initial lateRepeat).log.recorded,
      m.valid = false ∧ m.monotonicSeconds = 21 / 2 := by decide +kernel
  obtain ⟨fix, hfix, htime⟩ := Option.map_eq_some_iff.mp hfind
  obtain ⟨m, hm, hinvalid, hlater⟩ := hmarker
  have hle := (hsafe 11 fix hfix).2.2 m hm hinvalid (by rw [hlater]; norm_num)
  rw [hlater, htime] at hle
  norm_num at hle

end Gps

end OVMesh
