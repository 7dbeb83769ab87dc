import OVMesh.Phy.Codec
import OVMesh.Phy.Transform

/-!
# The receiver

`LoRaReceiver`: samples at the rate of the bandwidth are cut into windows of one symbol, which go
through the search for a preamble, the sync symbols, the two downchirps and the symbols of the payload.
The buffer keeps what is not read yet, and in the search one symbol more. The places of samples, 64 bits
wide in the source, are natural numbers.

* `Core.advance`: one window, for each state.
* `LoRaReceiver.calls`: samples in slices of a symbol, and the windows that they complete.
* `plainRun`: the same windows on the whole stream, by their absolute position.
* `receiver_chunks`: any cut of a stream gives the frames and the counters of the plain run.
* `receiver_bounds`: the buffer, the cursor and the place of a frame.
* `receiver_counts`: what the counters say of each other.
-/

namespace OVMesh

namespace Phy

open LoraDetail

/-- The arithmetic of the receiver. `turns` is the angle of a complex number in turns. -/
structure ReceiverNumbers (C K : Type) [Field C] [StarRing C] [Field K] extends Circle C K where
  norm : C → K
  turns : C → K
  log10 : K → K
  finite : C → Bool
  finiteTotal : K → Bool

/-- The parameters of a receiver, with the sync word it waits for. -/
structure ReceiverConfig extends Profile where
  syncWord : ℕ

/-- The samples of a symbol. -/
def ReceiverConfig.n (config : ReceiverConfig) : ℕ := 2 ^ config.spreadingFactor

/-- `PhyDiagnostics`: what a receiver counts. -/
structure PhyDiagnostics where
  preambleCandidates : ℕ := 0
  syncMatches : ℕ := 0
  syncRejections : ℕ := 0
  syncLowRatio : ℕ := 0
  syncTimeout : ℕ := 0
  syncFirstMismatch : ℕ := 0
  syncSecondMismatch : ℕ := 0
  headersValid : ℕ := 0
  headersFailed : ℕ := 0
  completedFrames : ℕ := 0

/-- The largest value of a counter. -/
def counterMax : ℕ := 2 ^ 64 - 1

/-- The saturating `increment`. -/
def increment (value : ℕ) : ℕ := if value < counterMax then value + 1 else value

/-- A frame with its place in the samples that were fed. -/
structure LocatedFrame (K : Type) extends PhyFrame where
  firstSample : ℕ
  lastSample : ℕ
  snrDb : K
  frequencyErrorHz : K

/-- `Peak`: the strongest bin of a window, with its ratio to the others and its signal-to-noise ratio. -/
structure Peak (K : Type) [Field K] where
  bin : ℕ := 0
  ratio : K := 0
  snr : K := 0

/-- `State`: what the receiver waits for. -/
inductive ReceiverState
  | search | sync | down1 | down2 | quarter | payload
deriving DecidableEq

/-- The members of `LoRaReceiver::Impl` but for the buffer. -/
structure Core (K : Type) [Field K] where
  diagnostics : PhyDiagnostics := {}
  symbols : List (BitVec 16) := []
  first : ℕ := 0
  state : ReceiverState := .search
  stable : ℕ := 0
  syncCount : ℕ := 0
  expected : ℕ := 0
  syncWait : ℕ := 0
  oldBin : ℕ := 0
  downBin : ℤ := 0
  cfoInt : ℤ := 0
  cfoFraction : K := 0
  snr : K := 0

/-- What a window leads to: where the cursor moves, and whether the buffer is compacted. -/
structure Advance (K : Type) [Field K] where
  core : Core K
  moved : ℕ
  frames : List (LocatedFrame K) := []
  compacts : Bool := true

/-- `wrap`: the remainder that is not negative. -/
def wrap (value size : ℤ) : ℤ := (value.tmod size + size).tmod size

/-- `sync_distance`: how far a sync bin is from the one expected, around the circle of 128 bins. -/
def syncDistance (bin target : ℤ) : ℤ := |wrap (bin - target + 64) 128 - 64|

section Receiver

variable {C K : Type} [Field C] [StarRing C] [Field K] [LinearOrder K]
  (numbers : ReceiverNumbers C K) (config : ReceiverConfig)

/-- `signed_bin`: the bins of the upper half count from below zero. -/
def signedBin (v : ℤ) : ℤ := if v ≥ (config.n / 2 : ℕ) then v - config.n else v

/-- `distance`: how far two bins are from each other, around the circle. -/
def distance (a b : ℤ) : ℤ := |signedBin config (wrap (a - b) config.n)|

/-- The reference of the upchirp. -/
def chirp (i : ℕ) : C := numbers.turn (((i : K) * i / config.n - i) / 2)

/-- The rotation that a correction makes, set anew every 256 samples. -/
def rotation (correction : K) : ℕ → C
  | 0 => 1
  | i + 1 =>
    if i % 256 = 255 then numbers.turn (-correction * (i + 1 : ℕ) / config.n)
    else rotation correction i * numbers.turn (-correction / config.n)

/-- The window without its chirp. -/
def dechirped (window : List C) (down : Bool) (correction : K) : List C :=
  (List.range config.n).map fun i =>
    window.getD i 0 * (if down then chirp numbers config i else star (chirp numbers config i)) *
      rotation numbers config correction i

/-- The greatest power and its index, and the sum of all. -/
def strongest (fft : List C) : K × K × ℕ :=
  (List.range config.n).foldl (fun (s : K × K × ℕ) i =>
    let power := numbers.norm (fft.getD i 0)
    if power > s.2.1 then (s.1 + power, power, i) else (s.1 + power, s.2)) (0, 0, 0)

/-- `peak`: the strongest bin of a window that was multiplied with a chirp and transformed. -/
def peak (window : List C) (down : Bool) (correction : K) : Peak K :=
  match fftInplace numbers.toCircle (dechirped numbers config window down correction) false with
  | .error _ => {}
  | .ok fft =>
    let n := config.n
    let (total, best, index) := strongest numbers config fft
    if numbers.finiteTotal total = false ∨ total < 1 / 10 ^ 20 then {}
    else
      let near := numbers.norm (fft.getD ((index + n - 1) % n) 0) +
        numbers.norm (fft.getD ((index + 1) % n) 0)
      let noise := max (1 / 10 ^ 20) ((total - best - near) / (max 1 (n - 3) : ℕ))
      let signal := max (1 / 10 ^ 20) (best - noise)
      ⟨index, best / total, 10 * numbers.log10 (signal / (noise * n))⟩

/-- The correlation of a window with the one before it. -/
def correlation (window previous : List C) : C :=
  (List.range config.n).foldl (fun sum i => sum + window.getD i 0 * star (previous.getD i 0)) 0

namespace Core

/-- `restart`: the receiver searches again, with nothing of the last frame. -/
def restart (c : Core K) : Core K :=
  { c with
    state := .search, stable := 0, syncCount := 0, syncWait := 0, expected := 0
    cfoInt := 0, cfoFraction := 0, symbols := [] }

/-- `State::Search`, with the symbol before the window if the buffer has it. -/
def search (c : Core K) (window : List C) (previous : Option (List C)) (position : ℕ) : Advance K :=
  let p := peak numbers config window false 0
  let coherent := p.ratio > 0.08
  let stable :=
    if coherent ∧ c.stable ≠ 0 ∧ distance config p.bin c.oldBin ≤ 1 then c.stable + 1
    else if coherent then 1 else 0
  let c := { c with stable := stable, oldBin := p.bin }
  if stable ≥ 4 then
    { core := { c with
        diagnostics := { c.diagnostics with
          preambleCandidates := increment c.diagnostics.preambleCandidates }
        cfoFraction := numbers.turns ((previous.map (correlation config window)).getD 0)
        snr := p.snr, first := position - 3 * config.n
        state := .sync, syncCount := 0, syncWait := 0 }
      moved := config.n + (wrap (-p.bin) config.n).toNat }
  else { core := c, moved := config.n }

/-- A sync symbol that is not the one expected. -/
def reject (c : Core K) (diagnostics : PhyDiagnostics) : Advance K :=
  { core := { c with diagnostics :=
      { diagnostics with syncRejections := increment c.diagnostics.syncRejections } }.restart
    moved := config.n }

/-- `State::Sync`: the two symbols of the sync word are awaited, for a while. -/
def sync (c : Core K) (window : List C) : Advance K :=
  let p := peak numbers config window false c.cfoFraction
  let d := c.diagnostics
  if p.ratio < 0.06 then
    reject config c { d with syncLowRatio := increment d.syncLowRatio }
  else
    let c := { c with syncWait := c.syncWait + 1 }
    if c.syncWait > 80 then reject config c { d with syncTimeout := increment d.syncTimeout }
    else if c.syncCount = 0 ∧ distance config p.bin 0 ≤ 1 then { core := c, moved := config.n }
    else
      let target := if c.syncCount = 0 then config.syncWord / 16 * 8 else config.syncWord % 16 * 8
      if syncDistance p.bin target > 2 then
        reject config c (if c.syncCount = 0 then
          { d with syncFirstMismatch := increment d.syncFirstMismatch }
        else { d with syncSecondMismatch := increment d.syncSecondMismatch })
      else
        let c := { c with syncCount := c.syncCount + 1 }
        if c.syncCount = 2 then
          { core := { c with
              diagnostics := { d with syncMatches := increment d.syncMatches }, state := .down1 }
            moved := config.n }
        else { core := c, moved := config.n }

/-- `State::Down1` and `State::Down2` -/
def down (c : Core K) (window : List C) : Advance K :=
  let p := peak numbers config window true c.cfoFraction
  if p.ratio < 0.06 then { core := c.restart, moved := config.n }
  else
    let c := { c with downBin := signedBin config p.bin }
    if c.state = .down1 then { core := { c with state := .down2 }, moved := config.n }
    else { core := { c with cfoInt := c.downBin / 2, state := .quarter }, moved := config.n }

/-- `State::Quarter`: the receiver moves to the first symbol of the payload, as far as the offset allows.
-/
def quarter (c : Core K) : Advance K :=
  let advance := (config.n / 4 : ℕ) + c.cfoInt
  if advance < 0 ∨ advance > (config.n / 2 : ℕ) then { core := c.restart, moved := 0 }
  else { core := { c with state := .payload, symbols := [] }, moved := advance.toNat }

/-- The end of `State::Payload`, behind the check of the header. -/
def complete (c : Core K) (position : ℕ) : Advance K :=
  if c.expected ≠ 0 ∧ c.symbols.length = c.expected then
    match decodeFrame c.symbols config.toProfile with
    | some frame =>
      let d := c.diagnostics
      { core := { c with
          diagnostics := { d with completedFrames := increment d.completedFrames } }.restart
        moved := config.n
        frames := [{ frame with
          firstSample := c.first
          lastSample := position + config.n
          snrDb := c.snr
          frequencyErrorHz := (c.cfoInt + c.cfoFraction) * config.bandwidthHz / config.n }] }
    | none => { core := c.restart, moved := config.n }
  else if c.symbols.length > 1024 then { core := c.restart, moved := config.n }
  else { core := c, moved := config.n }

/-- `State::Payload`: a symbol is added. The first eight are the header, which says how many follow. -/
def payload (c : Core K) (window : List C) (position : ℕ) : Advance K :=
  let p := peak numbers config window false (c.cfoFraction + c.cfoInt)
  let c := { c with symbols := c.symbols ++ [BitVec.ofNat 16 p.bin] }
  let d := c.diagnostics
  if c.symbols.length = 8 then
    match decodeHeader c.symbols config.spreadingFactor config.bandwidthHz with
    | none =>
      { core := { c with diagnostics := { d with headersFailed := increment d.headersFailed } }.restart
        moved := config.n
        compacts := false }
    | some h =>
      complete config { c with
        diagnostics := { d with headersValid := increment d.headersValid }, expected := h.symbols }
        position
  else complete config c position

/-- One window of the loop of `process`. -/
def advance (c : Core K) (window : List C) (previous : Option (List C)) (position : ℕ) : Advance K :=
  match c.state with
  | .search => c.search numbers config window previous position
  | .sync => c.sync numbers config window
  | .down1 | .down2 => c.down numbers config window
  | .quarter => c.quarter config
  | .payload => c.payload numbers config window position

end Core

/-- `LoRaReceiver`: the state machine, the samples it may still need, and the coordinate of the first of
them. -/
structure LoRaReceiver (C K : Type) [Field K] where
  core : Core K := {}
  buffer : List C := []
  base : ℕ := 0
  cursor : ℕ := 0

namespace LoRaReceiver

/-- What `compact` leaves behind the cursor. -/
def keep (r : LoRaReceiver C K) : ℕ := if r.core.state = .search then config.n else 0

/-- `compact`: the samples in front of those that may be needed are dropped. -/
def compact (r : LoRaReceiver C K) : LoRaReceiver C K :=
  let keep := r.keep config
  if r.cursor > keep + 4 * config.n then
    let count := min (r.cursor - keep) r.buffer.length
    { r with buffer := r.buffer.drop count, cursor := r.cursor - count, base := r.base + count }
  else r

/-- The window at the cursor, and what follows from it. -/
def window (r : LoRaReceiver C K) : Advance K :=
  r.core.advance numbers config ((r.buffer.drop r.cursor).take config.n)
    (if config.n ≤ r.cursor then some ((r.buffer.drop (r.cursor - config.n)).take config.n) else none)
    (r.base + r.cursor)

/-- One turn of the loop of `process`. -/
def turn (r : LoRaReceiver C K) : LoRaReceiver C K :=
  let a := r.window numbers config
  let r := { r with core := a.core, cursor := r.cursor + a.moved }
  if a.compacts then r.compact config else r

/-- What the loop has before it at most. -/
def work (r : LoRaReceiver C K) : ℕ :=
  2 * (r.buffer.length - r.cursor) + if r.core.state = .quarter then 1 else 0

end LoRaReceiver

end Receiver

/-! ## A window -/

section Window

variable {C K : Type} [Field C] [StarRing C] [Field K] [LinearOrder K]
  {numbers : ReceiverNumbers C K} {config : ReceiverConfig} {c : Core K}
  {window : List C} {previous : Option (List C)} {position : ℕ}

theorem ReceiverConfig.n_pos : 0 < config.n := Nat.two_pow_pos _

theorem wrap_lt {value : ℤ} : (wrap value config.n).toNat < config.n := by
  have hpos : (0 : ℤ) < config.n := by exact_mod_cast ReceiverConfig.n_pos
  have hlt := Int.tmod_lt_of_pos (value.tmod config.n + config.n) hpos
  rw [wrap]
  omega

/-- One reason for a rejection. -/
inductive Rejects (d : PhyDiagnostics) : PhyDiagnostics → Prop
  | ratio : Rejects d { d with
      syncLowRatio := increment d.syncLowRatio, syncRejections := increment d.syncRejections }
  | timeout : Rejects d { d with
      syncTimeout := increment d.syncTimeout, syncRejections := increment d.syncRejections }
  | first : Rejects d { d with
      syncFirstMismatch := increment d.syncFirstMismatch, syncRejections := increment d.syncRejections }
  | second : Rejects d { d with
      syncSecondMismatch := increment d.syncSecondMismatch, syncRejections := increment d.syncRejections }

namespace Core

/-- What a symbol of the payload leads to, behind the check of the header. -/
inductive Completes (config : ReceiverConfig) (position : ℕ) (c : Core K) : Advance K → Prop
  | frame {frame : LocatedFrame K} (hexpected : c.expected ≠ 0)
      (hlength : c.symbols.length = c.expected) (hfirst : frame.firstSample = c.first)
      (hlast : frame.lastSample = position + config.n) :
      Completes config position c
        { core := { c with diagnostics := { c.diagnostics with
            completedFrames := increment c.diagnostics.completedFrames } }.restart
          moved := config.n, frames := [frame] }
  | drop : Completes config position c { core := c.restart, moved := config.n }
  | goes (hlength : c.symbols.length ≤ 1024) : Completes config position c { core := c, moved := config.n }

/-- What a window leads to. -/
inductive Step (config : ReceiverConfig) (position : ℕ) (c : Core K) : Advance K → Prop
  | searches {stable oldBin : ℕ} (hstate : c.state = .search) (hstable : stable ≤ 3)
      (hle : stable ≤ c.stable + 1) :
      Step config position c { core := { c with stable, oldBin }, moved := config.n }
  | finds {stable oldBin offset : ℕ} {cfoFraction snr : K} (hstate : c.state = .search)
      (hstable : 3 ≤ c.stable) (hoffset : offset < config.n) :
      Step config position c
        { core := { c with
            stable, oldBin, cfoFraction, snr
            diagnostics := { c.diagnostics with
              preambleCandidates := increment c.diagnostics.preambleCandidates }
            first := position - 3 * config.n
            state := .sync, syncCount := 0, syncWait := 0 }
          moved := config.n + offset }
  | rejects {syncWait : ℕ} {diagnostics : PhyDiagnostics} (hstate : c.state = .sync)
      (hreason : Rejects c.diagnostics diagnostics) :
      Step config position c
        { core := { c with diagnostics, syncWait }.restart, moved := config.n }
  | waits {syncCount : ℕ} (hstate : c.state = .sync) (hwait : c.syncWait < 80)
      (hcount : syncCount ≤ c.syncCount + 1) :
      Step config position c
        { core := { c with syncCount, syncWait := c.syncWait + 1 }, moved := config.n }
  | syncs (hstate : c.state = .sync) (hwait : c.syncWait < 80) (hcount : c.syncCount = 1) :
      Step config position c
        { core := { c with
            syncCount := c.syncCount + 1, syncWait := c.syncWait + 1, state := .down1
            diagnostics := { c.diagnostics with syncMatches := increment c.diagnostics.syncMatches } }
          moved := config.n }
  | loses (hstate : c.state = .down1 ∨ c.state = .down2) :
      Step config position c { core := c.restart, moved := config.n }
  | firstDown {downBin : ℤ} (hstate : c.state = .down1) :
      Step config position c { core := { c with downBin, state := .down2 }, moved := config.n }
  | secondDown {downBin cfoInt : ℤ} (hstate : c.state = .down2) :
      Step config position c
        { core := { c with downBin, cfoInt, state := .quarter }, moved := config.n }
  | offset (hstate : c.state = .quarter) : Step config position c { core := c.restart, moved := 0 }
  | aligns {moved : ℕ} (hstate : c.state = .quarter) (hmoved : moved ≤ config.n) :
      Step config position c { core := { c with state := .payload, symbols := [] }, moved }
  | fails {symbol : BitVec 16} (hstate : c.state = .payload) (hlength : c.symbols.length = 7) :
      Step config position c
        { core := { c with
            symbols := c.symbols ++ [symbol]
            diagnostics := { c.diagnostics with
              headersFailed := increment c.diagnostics.headersFailed } }.restart
          moved := config.n, compacts := false }
  | header {symbol : BitVec 16} {expected : ℕ} {a : Advance K} (hstate : c.state = .payload)
      (hlength : c.symbols.length = 7)
      (hcomplete : Completes config position { c with
        symbols := c.symbols ++ [symbol], expected
        diagnostics := { c.diagnostics with
          headersValid := increment c.diagnostics.headersValid } } a) :
      Step config position c a
  | symbol {symbol : BitVec 16} {a : Advance K} (hstate : c.state = .payload)
      (hlength : c.symbols.length ≠ 7)
      (hcomplete : Completes config position { c with symbols := c.symbols ++ [symbol] } a) :
      Step config position c a

omit [LinearOrder K] in
theorem completes : Completes config position c (c.complete config position) := by
  unfold complete
  by_cases hend : c.expected ≠ 0 ∧ c.symbols.length = c.expected
  · rw [if_pos hend]
    cases decodeFrame c.symbols config.toProfile with
    | none => exact .drop
    | some frame => exact .frame hend.1 hend.2 rfl rfl
  · rw [if_neg hend]
    split_ifs with hlong
    · exact .drop
    · exact .goes (not_lt.mp hlong)

theorem search_step (hstate : c.state = .search) :
    Step config position c (c.search numbers config window previous position) := by
  unfold search
  simp only
  split_ifs with hcoherent hfound hfirst hfound hfound
  · exact .finds hstate (by omega) wrap_lt
  · exact .searches hstate (by omega) le_rfl
  · omega
  · exact .searches hstate (by omega) (by omega)
  · omega
  · exact .searches hstate (by omega) (by omega)

theorem sync_step (hstate : c.state = .sync) : Step config position c (c.sync numbers config window) := by
  unfold sync reject
  simp only
  split_ifs
  · exact .rejects hstate .ratio
  · exact .rejects hstate .timeout
  · exact .waits hstate (by omega) (by omega)
  · exact .rejects hstate .first
  · exact .syncs hstate (by omega) (by omega)
  · exact .waits hstate (by omega) le_rfl
  · exact .rejects hstate .second
  · exact .syncs hstate (by omega) (by omega)
  · exact .waits hstate (by omega) le_rfl

theorem down_step (hstate : c.state = .down1 ∨ c.state = .down2) :
    Step config position c (c.down numbers config window) := by
  unfold down
  simp only
  split_ifs with hratio hfirst
  · exact .loses hstate
  · exact .firstDown hfirst
  · exact .secondDown (hstate.resolve_left hfirst)

omit [LinearOrder K] in
theorem quarter_step (hstate : c.state = .quarter) : Step config position c (c.quarter config) := by
  unfold quarter
  simp only
  split_ifs with hrange
  · exact .offset hstate
  · exact .aligns hstate (by omega)

theorem payload_step (hstate : c.state = .payload) :
    Step config position c (c.payload numbers config window position) := by
  unfold payload
  simp only [List.length_append, List.length_singleton]
  by_cases height : c.symbols.length + 1 = 8
  · rw [if_pos height]
    split
    · exact .fails hstate (by omega)
    · exact .header hstate (by omega) completes
  · rw [if_neg height]
    exact .symbol hstate (by omega) completes

/-- **A window leads to one of these.** -/
theorem advance_step : Step config position c (c.advance numbers config window previous position) := by
  unfold advance
  split
  next hstate => exact search_step hstate
  next hstate => exact sync_step hstate
  next hstate => exact down_step (.inl hstate)
  next hstate => exact down_step (.inr hstate)
  next hstate => exact quarter_step hstate
  next hstate => exact payload_step hstate

/-- The symbol before the window matters only to the fourth window of a preamble. -/
theorem advance_previous {previous' : Option (List C)} (h : c.state = .search → c.stable < 3) :
    c.advance numbers config window previous position =
      c.advance numbers config window previous' position := by
  unfold advance
  split
  next hstate =>
    have hstable := h hstate
    unfold search
    simp only
    split_ifs
    any_goals omega
    all_goals rfl
  all_goals rfl

end Core

omit [LinearOrder K] in
/-- A window moves the cursor by a symbol at least, but for the quarter. -/
theorem Core.Step.moves {a : Advance K} (h : Core.Step config position c a) :
    config.n ≤ a.moved ∨ c.state = .quarter ∧ a.core.state ≠ .quarter := by
  cases h with
  | searches | finds | rejects | waits | syncs | loses | firstDown | secondDown | fails =>
    exact .inl (by simp)
  | offset hstate => exact .inr ⟨hstate, by simp [Core.restart]⟩
  | aligns hstate => exact .inr ⟨hstate, by simp⟩
  | header hstate hlength hcomplete | symbol hstate hlength hcomplete =>
    cases hcomplete <;> exact .inl le_rfl

omit [LinearOrder K] in
/-- Every window leaves less to read. -/
theorem Core.Step.falls {a : Advance K} (h : Core.Step config position c a) {cursor size : ℕ}
    (hfits : cursor + config.n ≤ size) :
    2 * (size - (cursor + a.moved)) + (if a.core.state = .quarter then 1 else 0) <
      2 * (size - cursor) + if c.state = .quarter then 1 else 0 := by
  have hn : 0 < config.n := ReceiverConfig.n_pos
  rcases h.moves with hmoved | ⟨hquarter, hne⟩
  · split_ifs <;> omega
  · rw [if_pos hquarter, if_neg hne]
    omega

end Window

namespace LoRaReceiver

section Work

variable {C K : Type} [Field C] [StarRing C] [Field K] [LinearOrder K]
  {numbers : ReceiverNumbers C K} {config : ReceiverConfig} {r : LoRaReceiver C K}

variable (config r) in
omit [Field C] [StarRing C] [LinearOrder K] in
/-- What `compact` gives up, it takes from the buffer and from the cursor. -/
theorem compact_eq : ∃ count, count ≤ r.buffer.length ∧ count ≤ r.cursor ∧
    (0 < count → r.keep config ≤ r.cursor - count) ∧
    (r.cursor ≤ r.buffer.length + config.n → r.cursor - count ≤ 4 * config.n + r.keep config) ∧
    r.compact config =
      { r with buffer := r.buffer.drop count, cursor := r.cursor - count, base := r.base + count } := by
  unfold compact
  simp only
  split_ifs with hfar
  · exact ⟨min (r.cursor - r.keep config) r.buffer.length, by omega, by omega, by omega, by omega, rfl⟩
  · exact ⟨0, by omega, by omega, by omega, by omega, rfl⟩

theorem work_turn (h : r.cursor + config.n ≤ r.buffer.length) :
    (r.turn numbers config).work < r.work := by
  have hstep : Core.Step config (r.base + r.cursor) r.core (r.window numbers config) := Core.advance_step
  have hwork : ∀ s : LoRaReceiver C K, (s.compact config).work = s.work := fun s => by
    obtain ⟨count, hbuffer, hcursor, -, -, heq⟩ := compact_eq config s
    rw [heq, work, work, List.length_drop]
    simp only
    omega
  have hturn : (r.turn numbers config).work = work { r with
      core := (r.window numbers config).core, cursor := r.cursor + (r.window numbers config).moved } := by
    unfold turn
    simp only
    split_ifs
    · exact hwork _
    · rfl
  rw [hturn, work, work]
  exact hstep.falls h

end Work

section Feed

variable {C K : Type} [Field C] [StarRing C] [Field K] [LinearOrder K]
  (numbers : ReceiverNumbers C K) (config : ReceiverConfig)

/-- `process`, with the frames that it calls back. -/
def process (r : LoRaReceiver C K) : LoRaReceiver C K × List (LocatedFrame K) :=
  if r.cursor + config.n ≤ r.buffer.length then
    let rest := process (r.turn numbers config)
    (rest.1, (r.window numbers config).frames ++ rest.2)
  else (r, [])
termination_by r.work
decreasing_by exact work_turn ‹_›

/-- `reset`: the receiver searches again, in an empty buffer. -/
def reset (r : LoRaReceiver C K) : LoRaReceiver C K := { core := r.core.restart }

/-- One sample: the receiver begins again behind one that is not finite. -/
def push (r : LoRaReceiver C K) (value : C) : LoRaReceiver C K :=
  if numbers.finite value then { r with buffer := r.buffer ++ [value] }
  else { r.reset with buffer := [0] }

/-- `feed`, in slices of a symbol. -/
def feed (r : LoRaReceiver C K) (samples : List C) : LoRaReceiver C K × List (LocatedFrame K) :=
  if samples = [] then (r, [])
  else
    let slice := ((samples.take config.n).foldl (push numbers) r).process numbers config
    let rest := feed slice.1 (samples.drop config.n)
    (rest.1, slice.2 ++ rest.2)
termination_by samples.length
decreasing_by
  have hn : 0 < config.n := ReceiverConfig.n_pos
  have hlength := List.length_pos_iff.mpr ‹_›
  rw [List.length_drop]
  omega

/-- One call of the receiver. -/
inductive Call (C : Type)
  | feed (samples : List C)
  | reset

/-- The samples of a call. -/
def Call.size : Call C → ℕ
  | .feed samples => samples.length
  | .reset => 0

/-- A call with the frames that it completes. -/
def call (r : LoRaReceiver C K) : Call C → LoRaReceiver C K × List (LocatedFrame K)
  | .feed samples => r.feed numbers config samples
  | .reset => (r.reset, [])

/-- Several calls, with the frames of all. -/
def calls : LoRaReceiver C K → List (Call C) → LoRaReceiver C K × List (LocatedFrame K)
  | r, [] => (r, [])
  | r, c :: cs =>
    let called := r.call numbers config c
    let rest := calls called.1 cs
    (rest.1, called.2 ++ rest.2)

end Feed

/-! ## What the calls keep -/

section Kept

variable {C K : Type} [Field C] [StarRing C] [Field K] [LinearOrder K]
  {numbers : ReceiverNumbers C K} {config : ReceiverConfig} {r : LoRaReceiver C K}
  {Q : ℕ → ℕ → List (LocatedFrame K) → LoRaReceiver C K → Prop} {slack fed : ℕ}
  {frames : List (LocatedFrame K)}

variable (numbers config Q) in
/-- What every sample and every window keeps, by the samples that wait for `process`, the samples that
were fed and the frames so far. -/
structure Kept : Prop where
  push : ∀ {slack fed frames r} (value : C), slack < config.n → Q slack fed frames r →
    Q (slack + 1) (fed + 1) frames (r.push numbers value)
  turn : ∀ {slack fed frames r}, r.cursor + config.n ≤ r.buffer.length → Q slack fed frames r →
    Q slack fed (frames ++ (r.window numbers config).frames) (r.turn numbers config)
  done : ∀ {slack fed frames r}, r.buffer.length < r.cursor + config.n → Q slack fed frames r →
    Q 0 fed frames r
  reset : ∀ {fed frames r}, Q 0 fed frames r → Q 0 fed frames r.reset

namespace Kept

variable (hkept : Kept numbers config Q)

include hkept

theorem pushes (samples : List C) (hslack : slack + samples.length ≤ config.n)
    (h : Q slack fed frames r) :
    Q (slack + samples.length) (fed + samples.length) frames
      (samples.foldl (LoRaReceiver.push numbers) r) := by
  induction samples generalizing slack fed r with
  | nil => exact h
  | cons value samples ih =>
    rw [List.length_cons] at hslack
    have hlater : slack + 1 + samples.length ≤ config.n := by omega
    have hnext := ih hlater (hkept.push value (by omega) h)
    rwa [List.length_cons, List.foldl_cons, Nat.add_comm samples.length 1, ← Nat.add_assoc,
      ← Nat.add_assoc]

theorem process (h : Q slack fed frames r) :
    Q 0 fed (frames ++ (r.process numbers config).2) (r.process numbers config).1 := by
  fun_induction LoRaReceiver.process numbers config r generalizing frames with
  | case1 r hfits rest =>
    rename_i ih
    have hnext := ih (hkept.turn hfits h)
    rwa [List.append_assoc] at hnext
  | case2 r hfits =>
    rw [List.append_nil]
    exact hkept.done (not_le.mp hfits) h

theorem feed (samples : List C) (h : Q 0 fed frames r) :
    Q 0 (fed + samples.length) (frames ++ (r.feed numbers config samples).2)
      (r.feed numbers config samples).1 := by
  fun_induction LoRaReceiver.feed numbers config r samples generalizing fed frames with
  | case1 r => simpa using h
  | case2 r samples hne slice =>
    rename_i rest ih
    have htake : (samples.take config.n).length ≤ config.n := by simp
    have hpushed := hkept.pushes (samples.take config.n) (by omega) h
    have hnext := ih (hkept.process hpushed)
    have hall : fed + (samples.take config.n).length + (samples.drop config.n).length =
        fed + samples.length := by
      rw [List.length_take, List.length_drop]
      omega
    rwa [hall, List.append_assoc] at hnext

theorem calls (cs : List (Call C)) (h : Q 0 fed frames r) :
    Q 0 (fed + (cs.map Call.size).sum) (frames ++ (r.calls numbers config cs).2)
      (r.calls numbers config cs).1 := by
  induction cs generalizing fed frames r with
  | nil => simpa [LoRaReceiver.calls] using h
  | cons c cs ih =>
    have hcalled : Q 0 (fed + c.size) (frames ++ (r.call numbers config c).2)
        (r.call numbers config c).1 := by
      cases c with
      | feed samples => exact hkept.feed samples h
      | reset => simpa [call, Call.size] using hkept.reset h
    have hnext := ih hcalled
    rwa [List.append_assoc, Nat.add_assoc, ← List.sum_cons, ← List.map_cons] at hnext

end Kept

end Kept

end LoRaReceiver

/-! ## The bounds -/

section Bounds

variable {K : Type} [Field K] {config : ReceiverConfig} {c : Core K} {a : Advance K} {position : ℕ}

/-- Where a window lies behind the first sample of its frame. -/
def Placed (config : ReceiverConfig) (c : Core K) (position : ℕ) : Prop :=
  let n := config.n
  match c.state with
  | .search => c.expected = 0 ∧ c.symbols = [] ∧ c.stable ≤ 3 ∧ c.stable * n ≤ position
  | .sync => c.expected = 0 ∧ c.symbols = [] ∧ c.syncWait ≤ 80 ∧
      c.first + 4 * n + c.syncCount * n ≤ position ∧ position ≤ c.first + 5 * n + c.syncWait * n
  | .down1 => c.expected = 0 ∧ c.symbols = [] ∧
      c.first + 6 * n ≤ position ∧ position ≤ c.first + 86 * n
  | .down2 => c.expected = 0 ∧ c.symbols = [] ∧
      c.first + 7 * n ≤ position ∧ position ≤ c.first + 87 * n
  | .quarter => c.expected = 0 ∧ c.symbols = [] ∧
      c.first + 8 * n ≤ position ∧ position ≤ c.first + 88 * n
  | .payload => c.symbols.length ≤ 1024 ∧ (c.expected ≠ 0 → 8 ≤ c.symbols.length) ∧
      c.first + 8 * n + c.symbols.length * n ≤ position ∧
      position ≤ c.first + 89 * n + c.symbols.length * n

/-- The samples of a frame. -/
def Spans (config : ReceiverConfig) (frame : LocatedFrame K) : Prop :=
  frame.firstSample + 16 * config.n ≤ frame.lastSample ∧
    frame.lastSample ≤ frame.firstSample + 1114 * config.n

theorem restart_placed : Placed config c.restart position := by
  simp [Placed, Core.restart]

theorem completes_placed (hcomplete : Core.Completes config position c a) (hstate : c.state = .payload)
    (hlength : c.symbols.length ≤ 1025) (hexpected : c.expected ≠ 0 → 8 ≤ c.symbols.length)
    (hfirst : c.first + 7 * config.n + c.symbols.length * config.n ≤ position)
    (hlast : position ≤ c.first + 88 * config.n + c.symbols.length * config.n) :
    Placed config a.core (position + a.moved) ∧
      ∀ frame ∈ a.frames, Spans config frame ∧ frame.lastSample = position + config.n := by
  cases hcomplete with
  | @frame frame hne hend hfirstSample hlastSample =>
    refine ⟨restart_placed, fun located hlocated => ?_⟩
    obtain rfl := List.mem_singleton.mp hlocated
    have hlow : 8 * config.n ≤ c.symbols.length * config.n := Nat.mul_le_mul_right _ (hexpected hne)
    have hhigh : c.symbols.length * config.n ≤ 1025 * config.n := Nat.mul_le_mul_right _ hlength
    refine ⟨⟨?_, ?_⟩, hlastSample⟩
    · omega
    · omega
  | drop => exact ⟨restart_placed, by simp⟩
  | goes hle =>
    refine ⟨?_, by simp⟩
    simp only [Placed, hstate]
    omega

theorem Placed.symbols (h : Placed config c position) : c.symbols.length ≤ 1024 := by
  unfold Placed at h
  split at h
  next => simp [h.2.1]
  next => simp [h.2.1]
  next => simp [h.2.1]
  next => simp [h.2.1]
  next => simp [h.2.1]
  next => exact h.1

/-- **Every window stays in its place.** -/
theorem Core.Step.placed (hstep : Core.Step config position c a) (h : Placed config c position) :
    Placed config a.core (position + a.moved) ∧
      ∀ frame ∈ a.frames, Spans config frame ∧ frame.lastSample = position + config.n := by
  -- One case for each way a window can go; where the receiver begins again its place is free.
  cases hstep with
  | @searches stable _ hstate hstable hle =>
    refine ⟨?_, by simp⟩
    simp only [Placed, hstate] at h ⊢
    have hmul : stable * config.n ≤ (c.stable + 1) * config.n := Nat.mul_le_mul_right _ hle
    rw [Nat.succ_mul] at hmul
    exact ⟨h.1, h.2.1, hstable, by omega⟩
  | finds hstate hstable hoffset =>
    refine ⟨?_, by simp⟩
    simp only [Placed, hstate] at h ⊢
    have hmul : 3 * config.n ≤ c.stable * config.n := Nat.mul_le_mul_right _ hstable
    exact ⟨h.1, h.2.1, by omega, by omega, by omega⟩
  | rejects | loses | offset | fails => exact ⟨restart_placed, by simp⟩
  | @waits syncCount hstate hwait hcount =>
    refine ⟨?_, by simp⟩
    simp only [Placed, hstate] at h ⊢
    have hmul : syncCount * config.n ≤ (c.syncCount + 1) * config.n := Nat.mul_le_mul_right _ hcount
    rw [Nat.succ_mul] at hmul
    rw [Nat.succ_mul c.syncWait]
    exact ⟨h.1, h.2.1, hwait, by omega, by omega⟩
  | syncs hstate hwait hcount =>
    refine ⟨?_, by simp⟩
    simp only [Placed, hstate] at h ⊢
    have hmul : c.syncWait * config.n ≤ 80 * config.n := Nat.mul_le_mul_right _ h.2.2.1
    rw [hcount] at h
    exact ⟨h.1, h.2.1, by omega, by omega⟩
  | firstDown hstate | secondDown hstate =>
    refine ⟨?_, by simp⟩
    simp only [Placed, hstate] at h ⊢
    exact ⟨h.1, h.2.1, by omega, by omega⟩
  | aligns hstate hmoved =>
    refine ⟨?_, by simp⟩
    simp only [Placed, hstate] at h ⊢
    simp only [List.length_nil]
    omega
  | header hstate hlength hcomplete =>
    simp only [Placed, hstate] at h
    refine completes_placed hcomplete hstate ?_ ?_ ?_ ?_
    all_goals simp only [List.length_append, List.length_singleton, Nat.succ_mul]; omega
  | symbol hstate hlength hcomplete =>
    simp only [Placed, hstate] at h
    refine completes_placed hcomplete hstate ?_ ?_ ?_ ?_
    all_goals simp only [List.length_append, List.length_singleton, Nat.succ_mul]; omega

theorem Core.Step.moved_le (hstep : Core.Step config position c a) : a.moved ≤ 2 * config.n := by
  cases hstep with
  | header hstate hlength hcomplete | symbol hstate hlength hcomplete =>
    cases hcomplete <;> (simp only; omega)
  | _ => simp only; omega

/-- Only the search itself counts windows, and it moves by one. -/
theorem Core.Step.held (hstep : Core.Step config position c a) (hsearch : a.core.state = .search)
    (hstable : a.core.stable ≠ 0) : config.n ≤ a.moved := by
  cases hstep with
  | header hstate hlength hcomplete | symbol hstate hlength hcomplete =>
    cases hcomplete <;> exact le_rfl
  | offset => exact absurd rfl hstable
  | aligns => cases hsearch
  | finds => exact Nat.le_add_right _ _
  | _ => exact le_rfl

/-- Only a header that does not decode leaves the buffer. -/
theorem Core.Step.lost (hstep : Core.Step config position c a) (hcompacts : a.compacts = false) :
    c.state = .payload ∧ a.core.state = .search ∧ a.moved = config.n := by
  cases hstep with
  | header hstate hlength hcomplete | symbol hstate hlength hcomplete =>
    cases hcomplete <;> cases hcompacts
  | fails hstate hlength => exact ⟨hstate, rfl, rfl⟩
  | _ => cases hcompacts

end Bounds

namespace LoRaReceiver

section Sound

variable {C K : Type} [Field C] [StarRing C] [Field K] [LinearOrder K]
  {numbers : ReceiverNumbers C K} {config : ReceiverConfig} {r : LoRaReceiver C K} {slack fed : ℕ}
  {frames : List (LocatedFrame K)}

variable (numbers) in
/-- One window, with what `compact` gives up behind it. -/
theorem turn_eq (hfits : r.cursor + config.n ≤ r.buffer.length) :
    ∃ count, count ≤ r.buffer.length ∧ count ≤ r.cursor + (r.window numbers config).moved ∧
      r.turn numbers config =
        { core := (r.window numbers config).core
          buffer := r.buffer.drop count
          base := r.base + count
          cursor := r.cursor + (r.window numbers config).moved - count } ∧
      ((r.window numbers config).compacts = true →
        (r.turn numbers config).cursor ≤ 4 * config.n + (r.turn numbers config).keep config) ∧
      (0 < count → (r.turn numbers config).keep config ≤ (r.turn numbers config).cursor) ∧
      ((r.window numbers config).compacts = false → count = 0) := by
  have hstep : Core.Step config (r.base + r.cursor) r.core (r.window numbers config) := Core.advance_step
  have hmoved := hstep.moved_le
  unfold turn
  simp only
  split_ifs with hcompacts
  · obtain ⟨count, hbuffer, hcursor, hkeep, hfar, heq⟩ := compact_eq config { r with
      core := (r.window numbers config).core, cursor := r.cursor + (r.window numbers config).moved }
    simp only at hbuffer hcursor hkeep hfar heq
    rw [heq]
    refine ⟨count, hbuffer, hcursor, rfl, fun _ => hfar (by omega), hkeep, fun h => ?_⟩
    rw [hcompacts] at h
    cases h
  · refine ⟨0, by omega, by omega, rfl, fun h => absurd h hcompacts, by omega, fun _ => rfl⟩

/-- What holds between the calls, and with some more samples within one. -/
structure Sound (config : ReceiverConfig) (slack fed : ℕ) (frames : List (LocatedFrame K))
    (r : LoRaReceiver C K) : Prop where
  ahead : r.buffer.length < r.cursor + config.n + slack
  cursor : r.cursor ≤ 4 * config.n + r.keep config
  held : r.core.state = .search → r.core.stable ≠ 0 → config.n ≤ r.cursor
  placed : Placed config r.core (r.base + r.cursor)
  total : r.base + r.buffer.length ≤ fed
  frames : ∀ frame ∈ frames, Spans config frame ∧ frame.lastSample ≤ fed

variable (numbers config) in
theorem sound_kept : Kept numbers config (Sound config) where
  push {slack fed frames r} value hslack h := by
    have hlater : ∀ frame ∈ frames, Spans config frame ∧ frame.lastSample ≤ fed + 1 :=
      fun frame hframe => ⟨(h.frames frame hframe).1, (h.frames frame hframe).2.trans (by omega)⟩
    have hn : 0 < config.n := ReceiverConfig.n_pos
    have htotal := h.total
    unfold push
    split_ifs with hfinite
    · have hahead := h.ahead
      refine ⟨?_, h.cursor, h.held, h.placed, ?_, hlater⟩
      · simp only [List.length_append, List.length_singleton]
        omega
      · simp only [List.length_append, List.length_singleton]
        omega
    · refine ⟨?_, ?_, fun _ hstable => absurd rfl hstable, restart_placed, ?_, hlater⟩
      · simp only [reset, List.length_singleton]
        omega
      · simp [reset]
      · simp only [reset, List.length_singleton]
        omega
  turn {slack fed frames r} hfits h := by
    obtain ⟨count, hbuffer, hcursor, hturn, hfar, hkeep, hnone⟩ := turn_eq numbers hfits
    have hstep : Core.Step config (r.base + r.cursor) r.core (r.window numbers config) :=
      Core.advance_step
    obtain ⟨hplaced, hframes⟩ := hstep.placed h.placed
    have hahead := h.ahead
    have htotal := h.total
    rw [hturn] at hfar hkeep ⊢
    refine ⟨?_, ?_, fun hsearch hstable => ?_, ?_, ?_, fun frame hframe => ?_⟩
    · simp only [List.length_drop]
      omega
    -- A turn that drops samples leaves the cursor far enough behind them; any other leaves a search.
    · cases hcompacts : (r.window numbers config).compacts with
      | true => exact hfar hcompacts
      | false =>
        obtain ⟨hbefore, hafter, hmoved⟩ := hstep.lost hcompacts
        have hcursor := h.cursor
        rw [keep, hbefore, if_neg (by decide)] at hcursor
        rw [keep, if_pos hafter]
        simp only
        omega
    · have hmoved := hstep.held hsearch hstable
      rw [keep, if_pos hsearch] at hkeep
      simp only at hkeep ⊢
      omega
    · simp only
      rwa [Nat.add_assoc, Nat.add_sub_cancel' hcursor, ← Nat.add_assoc]
    · simp only [List.length_drop]
      omega
    · rcases List.mem_append.mp hframe with hold | hnew
      · exact h.frames frame hold
      · obtain ⟨hspan, hlast⟩ := hframes frame hnew
        exact ⟨hspan, by omega⟩
  done {slack fed frames r} hdone h := { h with ahead := hdone }
  reset {fed frames r} h :=
    { ahead := by
        have hn : 0 < config.n := ReceiverConfig.n_pos
        simp only [reset, List.length_nil]
        omega
      cursor := Nat.zero_le _
      held := fun _ hstable => absurd rfl hstable
      placed := restart_placed
      total := Nat.zero_le _
      frames := h.frames }

variable (config) in
omit [Field C] [StarRing C] [LinearOrder K] in
theorem sound_start : Sound config 0 0 [] ({} : LoRaReceiver C K) where
  ahead := by
    have hn : 0 < config.n := ReceiverConfig.n_pos
    simpa using hn
  cursor := Nat.zero_le _
  held := fun _ hstable => absurd rfl hstable
  placed := by simp [Placed]
  total := le_rfl
  frames := by simp

/-- **The buffer, the cursor and the frames stay in bounds.** -/
theorem receiver_bounds (numbers : ReceiverNumbers C K) (config : ReceiverConfig) (cs : List (Call C)) :
    let called := calls numbers config {} cs
    let r := called.1
    r.buffer.length < r.cursor + config.n ∧
      r.cursor ≤ 4 * config.n + (if r.core.state = .search then config.n else 0) ∧
      (∀ slice : List C, slice.length ≤ config.n →
        (slice.foldl (push numbers) r).buffer.length < 7 * config.n) ∧
      r.core.symbols.length ≤ 1024 ∧
      (r.core.state = .search →
        r.core.stable ≤ 3 ∧ r.core.stable * config.n ≤ r.base + r.cursor) ∧
      r.base + r.buffer.length ≤ (cs.map Call.size).sum ∧
      ∀ frame ∈ called.2, frame.firstSample + 16 * config.n ≤ frame.lastSample ∧
        frame.lastSample ≤ frame.firstSample + 1114 * config.n ∧
        frame.lastSample ≤ (cs.map Call.size).sum := by
  have hsound := (sound_kept numbers config).calls cs (sound_start config)
  rw [Nat.zero_add, List.nil_append] at hsound
  simp only
  generalize calls numbers config {} cs = called at hsound
  obtain ⟨r, frames⟩ := called
  have hplaced := hsound.placed
  refine ⟨hsound.ahead, hsound.cursor, fun slice hslice => ?_, ?_, fun hsearch => ?_, hsound.total,
    fun frame hframe => ?_⟩
  · have hpushed := (sound_kept numbers config).pushes slice (by omega) hsound
    have hahead := hpushed.ahead
    have hcursor := hpushed.cursor
    rw [keep] at hcursor
    split_ifs at hcursor <;> omega
  · exact hplaced.symbols
  · rw [Placed, hsearch] at hplaced
    exact hplaced.2.2
  · obtain ⟨⟨hfirst, hlast⟩, hfed⟩ := hsound.frames frame hframe
    exact ⟨hfirst, hlast, hfed⟩

end Sound

/-! ## The counters -/

end LoRaReceiver

section Counters

variable {K : Type} [Field K] {config : ReceiverConfig} {c : Core K} {a : Advance K} {position frames : ℕ}
  {exact : PhyDiagnostics}

/-- What counters of 64 bits show of counts without a bound. -/
def PhyDiagnostics.shown (d : PhyDiagnostics) : PhyDiagnostics where
  preambleCandidates := min d.preambleCandidates counterMax
  syncMatches := min d.syncMatches counterMax
  syncRejections := min d.syncRejections counterMax
  syncLowRatio := min d.syncLowRatio counterMax
  syncTimeout := min d.syncTimeout counterMax
  syncFirstMismatch := min d.syncFirstMismatch counterMax
  syncSecondMismatch := min d.syncSecondMismatch counterMax
  headersValid := min d.headersValid counterMax
  headersFailed := min d.headersFailed counterMax
  completedFrames := min d.completedFrames counterMax

theorem increment_shown (value : ℕ) : increment (min value counterMax) = min (value + 1) counterMax := by
  unfold increment
  split_ifs <;> omega

/-- A header that the receiver still owes, or has already judged. -/
def Core.owesHeader (c : Core K) : Prop :=
  c.state = .down1 ∨ c.state = .down2 ∨ c.state = .quarter ∨ c.state = .payload ∧ c.symbols.length < 8

instance : Decidable c.owesHeader := inferInstanceAs (Decidable (_ ∨ _))

/-- What the exact counts say of each other. -/
structure Ledger (exact : PhyDiagnostics) (frames : ℕ) (c : Core K) : Prop where
  candidates : exact.syncMatches + exact.syncRejections + (if c.state = .sync then 1 else 0) ≤
    exact.preambleCandidates
  rejections : exact.syncRejections = exact.syncLowRatio + exact.syncTimeout +
    exact.syncFirstMismatch + exact.syncSecondMismatch
  headers : exact.headersValid + exact.headersFailed + (if c.owesHeader then 1 else 0) ≤ exact.syncMatches
  completed : exact.completedFrames + (if c.expected ≠ 0 then 1 else 0) ≤ exact.headersValid
  frames : exact.completedFrames = frames
  expected : c.expected ≠ 0 → c.state = .payload ∧ 8 ≤ c.symbols.length

variable {d : PhyDiagnostics}

/-- What is left of the ledger when the search begins again. -/
theorem Ledger.restart (hcandidates : exact.syncMatches + exact.syncRejections ≤ exact.preambleCandidates)
    (hrejections : exact.syncRejections = exact.syncLowRatio + exact.syncTimeout +
      exact.syncFirstMismatch + exact.syncSecondMismatch)
    (hheaders : exact.headersValid + exact.headersFailed ≤ exact.syncMatches)
    (hcompleted : exact.completedFrames ≤ exact.headersValid) (hframes : exact.completedFrames = frames) :
    Ledger exact frames c.restart where
  candidates := by simpa [Core.restart] using hcandidates
  rejections := hrejections
  headers := by simpa [Core.restart, Core.owesHeader] using hheaders
  completed := by simpa [Core.restart] using hcompleted
  frames := hframes
  expected := fun h => absurd rfl h

theorem Ledger.rejects (hreason : Rejects c.diagnostics d) (hshown : c.diagnostics = exact.shown)
    (hstate : c.state = .sync) (h : Ledger exact frames c) {c' : Core K} :
    ∃ exact', d = exact'.shown ∧ Ledger exact' frames c'.restart := by
  have hcandidates := h.candidates
  have hrejections := h.rejections
  have hheaders := h.headers
  have hcompleted := h.completed
  rw [if_pos hstate] at hcandidates
  cases hreason with
  | ratio =>
    refine ⟨{ exact with
      syncLowRatio := exact.syncLowRatio + 1, syncRejections := exact.syncRejections + 1 }, ?_, ?_⟩
    · simp [hshown, PhyDiagnostics.shown, increment_shown]
    · apply Ledger.restart <;> simp only <;> first | exact h.frames | omega
  | timeout =>
    refine ⟨{ exact with
      syncTimeout := exact.syncTimeout + 1, syncRejections := exact.syncRejections + 1 }, ?_, ?_⟩
    · simp [hshown, PhyDiagnostics.shown, increment_shown]
    · apply Ledger.restart <;> simp only <;> first | exact h.frames | omega
  | first =>
    refine ⟨{ exact with
      syncFirstMismatch := exact.syncFirstMismatch + 1
      syncRejections := exact.syncRejections + 1 }, ?_, ?_⟩
    · simp [hshown, PhyDiagnostics.shown, increment_shown]
    · apply Ledger.restart <;> simp only <;> first | exact h.frames | omega
  | second =>
    refine ⟨{ exact with
      syncSecondMismatch := exact.syncSecondMismatch + 1
      syncRejections := exact.syncRejections + 1 }, ?_, ?_⟩
    · simp [hshown, PhyDiagnostics.shown, increment_shown]
    · apply Ledger.restart <;> simp only <;> first | exact h.frames | omega

/-- Behind the check of the header. -/
theorem Ledger.completes (hcomplete : Core.Completes config position c a)
    (hshown : c.diagnostics = exact.shown) (h : Ledger exact frames c) :
    ∃ exact', a.core.diagnostics = exact'.shown ∧ Ledger exact' (frames + a.frames.length) a.core := by
  have hcandidates := h.candidates
  have hheaders := h.headers
  have hcompleted := h.completed
  cases hcomplete with
  | frame hexpected =>
    rw [if_pos hexpected] at hcompleted
    refine ⟨{ exact with completedFrames := exact.completedFrames + 1 }, ?_, ?_⟩
    · simp [hshown, PhyDiagnostics.shown, increment_shown, Core.restart]
    · exact .restart (by simp only; omega) h.rejections (by simp only; omega) hcompleted
        (congrArg (· + 1) h.frames)
  | drop => exact ⟨exact, hshown, .restart (by omega) h.rejections (by omega) (by omega) h.frames⟩
  | goes => exact ⟨exact, hshown, h⟩

/-- **Every window keeps the ledger.** -/
theorem Ledger.step (hstep : Core.Step config position c a) (hshown : c.diagnostics = exact.shown)
    (h : Ledger exact frames c) :
    ∃ exact', a.core.diagnostics = exact'.shown ∧ Ledger exact' (frames + a.frames.length) a.core := by
  have hcandidates := h.candidates
  have hheaders := h.headers
  have hcompleted := h.completed
  have hexpected := h.expected
  -- A counter moves with the state that it counts: a candidate owes a sync, a sync owes a header.
  cases hstep with
  | searches hstate | waits hstate =>
    exact ⟨exact, hshown, hcandidates, h.rejections, hheaders, hcompleted, h.frames, hexpected⟩
  | finds hstate hstable hoffset =>
    refine ⟨{ exact with preambleCandidates := exact.preambleCandidates + 1 }, ?_,
      { candidates := ?_, rejections := h.rejections, headers := ?_, completed := hcompleted
        frames := h.frames
        expected := fun hne => absurd (hstate.symm.trans (hexpected hne).1) (by decide) }⟩
    · simp [hshown, PhyDiagnostics.shown, increment_shown]
    · simpa [hstate] using hcandidates
    · simpa [Core.owesHeader, hstate] using hheaders
  | rejects hstate hreason =>
    obtain ⟨exact', hshown', hledger⟩ := h.rejects hreason hshown hstate
    exact ⟨exact', hshown', hledger⟩
  | syncs hstate =>
    refine ⟨{ exact with syncMatches := exact.syncMatches + 1 }, ?_,
      { candidates := ?_, rejections := h.rejections, headers := ?_, completed := hcompleted
        frames := h.frames
        expected := fun hne => absurd (hstate.symm.trans (hexpected hne).1) (by decide) }⟩
    · simp [hshown, PhyDiagnostics.shown, increment_shown]
    · rw [if_pos hstate] at hcandidates
      simp only [reduceCtorEq, if_false]
      omega
    · simpa [Core.owesHeader, hstate] using hheaders
  | firstDown hstate | secondDown hstate | aligns hstate =>
    refine ⟨exact, hshown,
      { candidates := ?_, rejections := h.rejections, headers := ?_, completed := hcompleted
        frames := h.frames
        expected := fun hne => absurd (hstate.symm.trans (hexpected hne).1) (by decide) }⟩
    · simpa [hstate] using hcandidates
    · simpa [Core.owesHeader, hstate] using hheaders
  | loses | offset =>
    exact ⟨exact, hshown, .restart (by omega) h.rejections (by omega) (by omega) h.frames⟩
  | fails hstate hlength =>
    have howes : c.owesHeader := .inr (.inr (.inr ⟨hstate, by omega⟩))
    rw [if_pos howes] at hheaders
    refine ⟨{ exact with headersFailed := exact.headersFailed + 1 }, ?_, ?_⟩
    · simp [hshown, PhyDiagnostics.shown, increment_shown, Core.restart]
    · exact .restart (by simp only; omega) h.rejections (by simp only; omega) (by simp only; omega) h.frames
  | @header symbol expected a hstate hlength hcomplete =>
    have howes : c.owesHeader := .inr (.inr (.inr ⟨hstate, by omega⟩))
    have hnone : c.expected = 0 := by
      by_contra hne
      have := (hexpected hne).2
      omega
    rw [if_pos howes] at hheaders
    rw [hnone] at hcompleted
    have hlong : (c.symbols ++ [symbol]).length = 8 := by simp [hlength]
    have hshown' : { c.diagnostics with headersValid := increment c.diagnostics.headersValid } =
        PhyDiagnostics.shown { exact with headersValid := exact.headersValid + 1 } := by
      simp [hshown, PhyDiagnostics.shown, increment_shown]
    refine Ledger.completes hcomplete hshown'
      { candidates := hcandidates, rejections := h.rejections, headers := ?_, completed := ?_
        frames := h.frames, expected := fun _ => ⟨hstate, hlong.ge⟩ }
    · simp only [Core.owesHeader, hstate, hlong, reduceCtorEq, lt_irrefl, and_false, or_self, if_false]
      omega
    · split_ifs <;> (simp only; omega)
  | @symbol symbol a hstate hlength hcomplete =>
    refine Ledger.completes hcomplete hshown
      { candidates := hcandidates, rejections := h.rejections, headers := ?_, completed := hcompleted
        frames := h.frames, expected := fun hne => ⟨hstate, ?_⟩ }
    · have howes : Core.owesHeader { c with symbols := c.symbols ++ [symbol] } ↔ c.owesHeader := by
        simp only [Core.owesHeader, hstate, reduceCtorEq, false_or, true_and, List.length_append,
          List.length_singleton]
        omega
      rwa [if_congr howes rfl rfl]
    · have hlong := (hexpected hne).2
      simp only [List.length_append]
      omega

end Counters

namespace LoRaReceiver

section Counts

variable {C K : Type} [Field C] [StarRing C] [Field K] [LinearOrder K]
  {numbers : ReceiverNumbers C K} {config : ReceiverConfig} {x y : List C} {r : LoRaReceiver C K}

/-- The ledger of a receiver, for the frames that it called back. -/
def Counted (_ _ : ℕ) (frames : List (LocatedFrame K)) (r : LoRaReceiver C K) : Prop :=
  ∃ exact, r.core.diagnostics = exact.shown ∧ Ledger exact frames.length r.core

omit [Field C] [StarRing C] [LinearOrder K] in
theorem reset_counted (slack fed : ℕ) {frames : List (LocatedFrame K)} (h : Counted slack fed frames r) :
    Counted slack fed frames r.reset := by
  obtain ⟨exact, hshown, hledger⟩ := h
  have hcandidates := hledger.candidates
  have hheaders := hledger.headers
  have hcompleted := hledger.completed
  exact ⟨exact, hshown, .restart (by omega) hledger.rejections (by omega) (by omega) hledger.frames⟩

theorem turn_core : (r.turn numbers config).core = (r.window numbers config).core := by
  unfold turn compact
  simp only
  split_ifs <;> rfl

variable (numbers config) in
theorem counted_kept : Kept numbers config Counted where
  push value _ h := by
    unfold push
    split_ifs
    · exact h
    · exact reset_counted 0 0 h
  turn {slack fed frames r} _ h := by
    obtain ⟨exact, hshown, hledger⟩ := h
    have hstep : Core.Step config (r.base + r.cursor) r.core (r.window numbers config) :=
      Core.advance_step
    obtain ⟨exact', hshown', hledger'⟩ := hledger.step hstep hshown
    refine ⟨exact', ?_, ?_⟩
    · rw [turn_core]
      exact hshown'
    · rw [turn_core, List.length_append]
      exact hledger'
  done _ h := h
  reset h := reset_counted 0 0 h

/-- **What the counters say of each other**, over all calls. -/
theorem receiver_counts (numbers : ReceiverNumbers C K) (config : ReceiverConfig) (cs : List (Call C)) :
    let called := calls numbers config {} cs
    ∃ exact : PhyDiagnostics, called.1.core.diagnostics = exact.shown ∧
      Ledger exact called.2.length called.1.core := by
  have hstart : Counted 0 0 [] ({} : LoRaReceiver C K) :=
    ⟨{}, rfl, ⟨le_rfl, rfl, le_rfl, le_rfl, rfl, fun h => absurd rfl h⟩⟩
  exact (counted_kept numbers config).calls cs hstart

end Counts

end LoRaReceiver

/-! ## The plain run -/

section Plain

variable {C K : Type} [Field C] [StarRing C] [Field K] [LinearOrder K]
  (numbers : ReceiverNumbers C K) (config : ReceiverConfig)

/-- A window of a whole stream, by its position. -/
def plainWindow (x : List C) (c : Core K) (position : ℕ) : Advance K :=
  c.advance numbers config ((x.drop position).take config.n)
    (if config.n ≤ position then some ((x.drop (position - config.n)).take config.n) else none) position

variable {numbers config}

theorem plain_step {x : List C} {c : Core K} {position : ℕ} :
    Core.Step config position c (plainWindow numbers config x c position) := Core.advance_step

variable (numbers config)

/-- The windows of a whole stream, with nothing given up. -/
def plainRun (x : List C) (c : Core K) (position : ℕ) : (Core K × ℕ) × List (LocatedFrame K) :=
  if position + config.n ≤ x.length then
    let a := plainWindow numbers config x c position
    let rest := plainRun x a.core (position + a.moved)
    (rest.1, a.frames ++ rest.2)
  else ((c, position), [])
termination_by 2 * (x.length - position) + if c.state = .quarter then 1 else 0
decreasing_by exact plain_step.falls ‹_›

variable {numbers config}

/-- What comes behind a stream does not change what is read of it. -/
theorem plainWindow_append {x : List C} (y : List C) {c : Core K} {position : ℕ}
    (hfits : position + config.n ≤ x.length) :
    plainWindow numbers config (x ++ y) c position = plainWindow numbers config x c position := by
  have hread : ∀ at', at' + config.n ≤ x.length →
      ((x ++ y).drop at').take config.n = (x.drop at').take config.n := fun at' hat => by
    rw [List.drop_append_of_le_length (by omega), List.take_append_of_le_length (by simp; omega)]
  unfold plainWindow
  rw [hread position hfits]
  split_ifs
  · rw [hread (position - config.n) (by omega)]
  · rfl

variable (numbers config) in
/-- **A run goes on** where the run on the stream before it stopped. -/
theorem plainRun_append (x y : List C) (c : Core K) (position : ℕ) :
    plainRun numbers config (x ++ y) c position =
      let first := plainRun numbers config x c position
      let rest := plainRun numbers config (x ++ y) first.1.1 first.1.2
      (rest.1, first.2 ++ rest.2) := by
  fun_induction plainRun numbers config x c position with
  | case1 c position hfits a rest ih =>
    rw [plainRun, if_pos (by rw [List.length_append]; omega), plainWindow_append y hfits]
    simp only [a] at ih
    simp only [ih, a, rest, List.append_assoc]
  | case2 c position hfits => simp

end Plain

namespace LoRaReceiver

section Chunks

variable {C K : Type} [Field C] [StarRing C] [Field K] [LinearOrder K]
  {numbers : ReceiverNumbers C K} {config : ReceiverConfig} {x : List C} {r : LoRaReceiver C K}

/-- A receiver that reads a stream: its buffer holds what is behind its base. -/
structure Reads (config : ReceiverConfig) (x : List C) (r : LoRaReceiver C K) : Prop where
  buffer : r.buffer = x.drop r.base
  base : r.base ≤ x.length
  held : r.core.state = .search → r.core.stable ≠ 0 → config.n ≤ r.cursor

theorem Reads.window (h : Reads config x r) :
    r.window numbers config = plainWindow numbers config x r.core (r.base + r.cursor) := by
  unfold LoRaReceiver.window plainWindow
  rw [h.buffer, List.drop_drop]
  by_cases hcursor : config.n ≤ r.cursor
  · rw [if_pos hcursor, if_pos (by omega), List.drop_drop, Nat.add_sub_assoc hcursor]
  · refine Core.advance_previous fun hsearch => ?_
    have hstable : r.core.stable = 0 := by
      by_contra hne
      exact hcursor (h.held hsearch hne)
    omega

variable (numbers) in
theorem Reads.turn (h : Reads config x r) (hfits : r.cursor + config.n ≤ r.buffer.length) :
    Reads config x (r.turn numbers config) ∧
      (r.turn numbers config).base + (r.turn numbers config).cursor =
        r.base + r.cursor + (r.window numbers config).moved := by
  obtain ⟨count, hbuffer, hcursor, hturn, -, hkeep, -⟩ := turn_eq numbers hfits
  have hstep : Core.Step config (r.base + r.cursor) r.core (r.window numbers config) := Core.advance_step
  have hlength := h.base
  rw [h.buffer, List.length_drop] at hbuffer
  rw [hturn] at hkeep ⊢
  refine ⟨⟨?_, ?_, fun hsearch hstable => ?_⟩, ?_⟩
  · rw [h.buffer, List.drop_drop]
  · simp only
    omega
  · have hmoved := hstep.held hsearch hstable
    rw [keep, if_pos hsearch] at hkeep
    simp only at hkeep ⊢
    omega
  · simp only
    omega

theorem Reads.process (h : Reads config x r) :
    Reads config x (r.process numbers config).1 ∧
      (r.process numbers config).1.buffer.length < (r.process numbers config).1.cursor + config.n ∧
      plainRun numbers config x r.core (r.base + r.cursor) =
        (((r.process numbers config).1.core,
          (r.process numbers config).1.base + (r.process numbers config).1.cursor),
          (r.process numbers config).2) := by
  have hsize : r.buffer.length = x.length - r.base := by rw [h.buffer, List.length_drop]
  have hbase := h.base
  fun_induction LoRaReceiver.process numbers config r with
  | case1 r hfits rest ih =>
    obtain ⟨hreads, hposition⟩ := h.turn numbers hfits
    have hnext : (r.turn numbers config).buffer.length = x.length - (r.turn numbers config).base := by
      rw [hreads.buffer, List.length_drop]
    obtain ⟨hlast, hdone, hrun⟩ := ih hreads hnext hreads.base
    refine ⟨hlast, hdone, ?_⟩
    rw [plainRun, if_pos (by omega), ← h.window]
    rw [turn_core, hposition] at hrun
    simp only [hrun, rest]
  | case2 r hfits =>
    refine ⟨h, not_le.mp hfits, ?_⟩
    rw [plainRun, if_neg (by omega)]

omit [LinearOrder K] in
theorem Reads.pushes (samples : List C) (hfinite : ∀ value ∈ samples, numbers.finite value = true)
    (h : Reads config x r) : Reads config (x ++ samples) (samples.foldl (push numbers) r) ∧
      (samples.foldl (push numbers) r).core = r.core ∧
      (samples.foldl (push numbers) r).base = r.base ∧
      (samples.foldl (push numbers) r).cursor = r.cursor := by
  have hpushed : samples.foldl (push numbers) r = { r with buffer := r.buffer ++ samples } := by
    clear h
    induction samples generalizing r with
    | nil => simp
    | cons value samples ih =>
      rw [List.foldl_cons, ih fun v hv => hfinite v (List.mem_cons_of_mem _ hv), push,
        if_pos (hfinite value List.mem_cons_self)]
      simp
  rw [hpushed]
  refine ⟨⟨?_, ?_, h.held⟩, rfl, rfl, rfl⟩
  · rw [h.buffer, List.drop_append_of_le_length h.base]
  · have hbase := h.base
    rw [List.length_append]
    simp only
    omega

/-- One call of `feed` goes on as the plain run does. -/
theorem Reads.feed (samples : List C) (hfinite : ∀ value ∈ samples, numbers.finite value = true)
    (hdone : r.buffer.length < r.cursor + config.n) (h : Reads config x r) :
    let fed := r.feed numbers config samples
    Reads config (x ++ samples) fed.1 ∧ fed.1.buffer.length < fed.1.cursor + config.n ∧
      plainRun numbers config (x ++ samples) r.core (r.base + r.cursor) =
        ((fed.1.core, fed.1.base + fed.1.cursor), fed.2) := by
  fun_induction LoRaReceiver.feed numbers config r samples generalizing x with
  | case1 r =>
    have hsize : r.buffer.length = x.length - r.base := by rw [h.buffer, List.length_drop]
    have hbase := h.base
    rw [List.append_nil]
    refine ⟨h, hdone, ?_⟩
    rw [plainRun, if_neg (by omega)]
  | case2 r samples hne slice =>
    rename_i rest ih
    have htake : ∀ value ∈ samples.take config.n, numbers.finite value = true :=
      fun value hvalue => hfinite value (List.mem_of_mem_take hvalue)
    have hdrop : ∀ value ∈ samples.drop config.n, numbers.finite value = true :=
      fun value hvalue => hfinite value (List.mem_of_mem_drop hvalue)
    obtain ⟨hpushed, hcore, hbase, hcursor⟩ := h.pushes _ htake
    obtain ⟨hreads, hslice, hfirst⟩ := hpushed.process
    obtain ⟨hlast, hend, hrest⟩ := ih hdrop hslice hreads
    rw [hcore, hbase, hcursor] at hfirst
    rw [List.append_assoc, List.take_append_drop] at hlast hrest
    refine ⟨hlast, hend, ?_⟩
    have happend := plainRun_append numbers config (x ++ samples.take config.n)
      (samples.drop config.n) r.core (r.base + r.cursor)
    rw [List.append_assoc, List.take_append_drop, hfirst] at happend
    rw [happend]
    simp only [hrest, slice, rest]

/-- Several calls of `feed`. -/
theorem Reads.chunks (chunks : List (List C))
    (hfinite : ∀ value ∈ chunks.flatten, numbers.finite value = true)
    (hdone : r.buffer.length < r.cursor + config.n) (h : Reads config x r) :
    let fed := r.calls numbers config (chunks.map .feed)
    Reads config (x ++ chunks.flatten) fed.1 ∧
      plainRun numbers config (x ++ chunks.flatten) r.core (r.base + r.cursor) =
        ((fed.1.core, fed.1.base + fed.1.cursor), fed.2) := by
  induction chunks generalizing x r with
  | nil =>
    have hsize : r.buffer.length = x.length - r.base := by rw [h.buffer, List.length_drop]
    have hbase := h.base
    rw [List.flatten_nil, List.append_nil]
    refine ⟨h, ?_⟩
    rw [plainRun, if_neg (by omega)]
    rfl
  | cons chunk chunks ih =>
    rw [List.flatten_cons] at hfinite ⊢
    obtain ⟨hreads, hend, hfirst⟩ := h.feed chunk
      (fun value hvalue => hfinite value (List.mem_append_left _ hvalue)) hdone
    obtain ⟨hlast, hrest⟩ := ih (fun value hvalue => hfinite value (List.mem_append_right _ hvalue)) hend
      hreads
    rw [List.append_assoc] at hlast hrest
    refine ⟨hlast, ?_⟩
    rw [← List.append_assoc, plainRun_append, hfirst, List.append_assoc]
    simp only [hrest, List.map_cons, calls, call]

/-- **The cut of a stream does not matter.** From whatever calls left, finite samples give the same
frames, counters and state however they come in calls of `feed`; and behind a reset these are what the
plain run over the whole stream gives. -/
theorem receiver_chunks (numbers : ReceiverNumbers C K) (config : ReceiverConfig)
    (history : List (Call C)) (chunks chunks' : List (List C)) (hsame : chunks.flatten = chunks'.flatten)
    (hfinite : ∀ value ∈ chunks.flatten, numbers.finite value = true) :
    let r := (calls numbers config {} history).1
    let fed := calls numbers config r (chunks.map .feed)
    let fed' := calls numbers config r (chunks'.map .feed)
    let fresh := calls numbers config r.reset (chunks.map .feed)
    fed.2 = fed'.2 ∧ fed.1.core = fed'.1.core ∧
      fed.1.base + fed.1.cursor = fed'.1.base + fed'.1.cursor ∧
      fed.1.buffer.drop fed.1.cursor = fed'.1.buffer.drop fed'.1.cursor ∧
      plainRun numbers config chunks.flatten r.reset.core 0 =
        ((fresh.1.core, fresh.1.base + fresh.1.cursor), fresh.2) := by
  have hsound := (sound_kept numbers config).calls history (sound_start config)
  intro r fed fed' fresh
  have hreads : Reads config (List.replicate r.base 0 ++ r.buffer) r := by
    refine ⟨?_, ?_, hsound.held⟩
    · rw [List.drop_left' List.length_replicate]
    · simp
  have hreset : Reads config [] r.reset := ⟨rfl, le_rfl, fun _ hstable => absurd rfl hstable⟩
  obtain ⟨hfed, hrun⟩ := hreads.chunks chunks hfinite hsound.ahead
  obtain ⟨hfed', hrun'⟩ := hreads.chunks chunks' (hsame ▸ hfinite) hsound.ahead
  obtain ⟨-, hplain⟩ := hreset.chunks chunks hfinite (by
    have hn : 0 < config.n := ReceiverConfig.n_pos
    simpa [reset] using hn)
  rw [← hsame, hrun] at hrun'
  rw [Prod.mk.injEq, Prod.mk.injEq] at hrun'
  obtain ⟨⟨hcore, hposition⟩, hframes⟩ := hrun'
  refine ⟨hframes, hcore, hposition, ?_, hplain⟩
  rw [hfed.buffer, hfed'.buffer, List.drop_drop, List.drop_drop, ← hsame]
  exact congrArg (List.drop · _) hposition

end Chunks

/-- The arithmetic of the complex numbers. -/
noncomputable def complexNumbers : ReceiverNumbers ℂ ℝ where
  toCircle := complexCircle
  norm := Complex.normSq
  turns := fun z => z.arg / (2 * Real.pi)
  log10 := Real.logb 10
  finite := fun _ => true
  finiteTotal := fun _ => true

/-- A preamble of upchirps, from a sample on. -/
noncomputable def preamble (config : ReceiverConfig) (first count : ℕ) : List ℂ :=
  (List.range count).map fun i => chirp complexNumbers config ((first + i) % config.n)

/-- Eight hundred samples of a preamble in two cuts: five windows or more are read of either. -/
theorem receiver_chunks_complex :
    let config : ReceiverConfig := ⟨⟨⟨125000, 7, 5⟩, by decide⟩, 43⟩
    let fed := calls complexNumbers config {} [.feed (preamble config 0 300), .feed (preamble config 300 500)]
    let fed' := calls complexNumbers config {} [.feed (preamble config 0 450), .feed (preamble config 450 350)]
    fed.2 = fed'.2 ∧ fed.1.core = fed'.1.core ∧ fed.1.base + fed.1.cursor = fed'.1.base + fed'.1.cursor ∧
      5 * config.n < fed.1.base + fed.1.cursor := by
  intro config fed fed'
  have hsplit (a b : ℕ) :
      ([preamble config 0 a, preamble config a b] : List (List ℂ)).flatten = preamble config 0 (a + b) := by
    rw [List.flatten_cons, List.flatten_singleton, preamble, preamble, preamble, List.range_add,
      List.map_append, List.map_map]
    simp [Function.comp_def]
  have hsame : ([preamble config 0 300, preamble config 300 500] : List (List ℂ)).flatten =
      ([preamble config 0 450, preamble config 450 350] : List (List ℂ)).flatten := by
    rw [hsplit, hsplit]
  obtain ⟨hframes, hcore, hposition, -⟩ := receiver_chunks complexNumbers config []
    [preamble config 0 300, preamble config 300 500] [preamble config 0 450, preamble config 450 350] hsame
    fun _ _ => rfl
  refine ⟨hframes, hcore, hposition, ?_⟩
  -- What is not read of the stream is less than a window.
  have hstart : Reads config [] ({} : LoRaReceiver ℂ ℝ) := ⟨rfl, le_rfl, fun _ hstable => absurd rfl hstable⟩
  have hreads : Reads config ([] ++ [preamble config 0 300, preamble config 300 500].flatten) fed.1 :=
    (hstart.chunks _ (fun _ _ => rfl) (by simp [ReceiverConfig.n_pos])).1
  have hahead : fed.1.buffer.length < fed.1.cursor + config.n + 0 :=
    ((sound_kept complexNumbers config).calls _ (sound_start config)).ahead
  have hlength : fed.1.buffer.length = 800 - fed.1.base := by
    rw [hreads.buffer, List.nil_append, hsplit, List.length_drop, preamble, List.length_map,
      List.length_range]
  have hn : config.n = 128 := rfl
  omega

end LoRaReceiver

end Phy

end OVMesh
