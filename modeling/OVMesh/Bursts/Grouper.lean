import OVMesh.Lib.Bitmap
import OVMesh.Lib.Checked
import OVMesh.Lib.Pool
import OVMesh.Store.Saved

/-!
# Burst grouping

`BurstGrouper` of `bursts.cpp`: the active bins of a tile are joined to components, and the
components of successive tiles to bursts.

* `tileComponents`: the components of one tile.
* `matched`, `absorbPieces`: which components continue which tracks, and the pieces of a sweep.
* `place`: a component extends a track or opens one.
* `consume`, `finish`: the two operations of the class.

A track remembers the components it was made of (`Track.parts`), which the source does not store.
-/

namespace OVMesh

namespace BurstGrouper

open Checked SurveyQuality

/-! ## State -/

/-- A component that was added to a burst: the call that found it, and its index in the call. -/
structure Part (K : Type) where
  call : ℕ
  index : ℕ
  burst : SpectrumBurst K
  deriving DecidableEq

/-- A burst that may still grow, with the band of its last component. -/
structure Track (K : Type) where
  burst : SpectrumBurst K
  lastLow : K
  lastHigh : K
  seen : K
  parts : List (Part K)
  deriving DecidableEq

/-- The members of the class. The pool holds `tracks_`, and what was passed to `emit`. -/
structure Grouper (K : Type) where
  centerHz : K
  previousEnd : K
  gridFirst : K
  gridWidth : K
  gridBins : ℕ
  nextId : ℕ
  pool : Pool (Track K)
  calls : ℕ

/-- A component of a tile, with the frames in which it is active. -/
structure Component (K : Type) where
  burst : SpectrumBurst K
  frames : Finset ℕ

/-- The arguments of `consume`. -/
structure Call (K : Type) where
  tile : SpectrumTile K
  first : ℕ
  last : ℕ
  start : K
  stop : K

/-- The part of a tile that a call selects. -/
structure Window (K : Type) where
  first : ℕ
  last : ℕ
  start : K
  stop : K

variable {K : Type} [Field K] [LinearOrder K]

/-- A grouper of a receiver with this centre frequency, before its first tile. -/
def create (centerHz : K) : Grouper K :=
  { centerHz
    previousEnd := -1
    gridFirst := 0
    gridWidth := 0
    gridBins := 0
    nextId := 1
    pool := { emitted := [], pending := [] }
    calls := 0 }

/-- A burst with the initializers of its members. -/
def emptyBurst : SpectrumBurst K :=
  { id := 0
    components := 0
    elapsedStartSeconds := 0
    elapsedEndSeconds := 0
    lowerHz := 0
    upperHz := 0
    activeSeconds := 0
    peakDbfs := -180
    quality := 0
    centerRegion := false
    ambiguous := false
    limited := false }

instance : Inhabited (Component K) := ⟨{ burst := emptyBurst, frames := ∅ }⟩

/-- Mark a burst that was cut off. -/
def Track.limit (limited : Bool) (t : Track K) : Track K :=
  { t with burst := { t.burst with limited := t.burst.limited || limited } }

/-- Mark a burst whose association is a hypothesis. -/
def Track.doubt (t : Track K) : Track K := { t with burst := { t.burst with ambiguous := true } }

/-- `finish`: every live track is emitted, and the next window has none before it. -/
def finish (g : Grouper K) (limited : Bool := true) : Grouper K :=
  { g with pool := g.pool.flush (.limit limited), previousEnd := -1 }

/-! ## Frames -/

/-- `step`: the duration of a frame. -/
def frameStep (t : SpectrumTile K) : K :=
  (t.elapsedEndSeconds - t.elapsedStartSeconds) / t.frameCount

/-- The start of frame `f`. -/
def frameAt (t : SpectrumTile K) (f : ℕ) : K := t.elapsedStartSeconds + f * frameStep t

/-- The frames of the window in which bin `b` is active. -/
def activity (t : SpectrumTile K) (w : Window K) (b : ℕ) : Finset ℕ :=
  (Finset.range t.frameCount).filter fun f =>
    ¬ (frameAt t f ≥ w.stop ∨ frameAt t f + frameStep t ≤ w.start) ∧
      Bitmap.bit t.activity (8 * (f * ((t.meanDbfs.length + 7) / 8)) + b) = true

/-- The body of the loop that sets the times of a burst; the flag is `started`. -/
def stampFrame (t : SpectrumTile K) (w : Window K) (s : SpectrumBurst K × Bool) (f : ℕ) :
    SpectrumBurst K × Bool :=
  let start := max w.start (frameAt t f)
  let stop := min w.stop (frameAt t (f + 1))
  let b := if s.2 then s.1 else { s.1 with elapsedStartSeconds := start }
  ({ b with elapsedEndSeconds := stop, activeSeconds := b.activeSeconds + (stop - start) }, true)

/-- The loop over the frames of a component. -/
def stamp (t : SpectrumTile K) (w : Window K) (frames : Finset ℕ) (b : SpectrumBurst K) :
    SpectrumBurst K :=
  (((List.range t.frameCount).filter (· ∈ frames)).foldl (stampFrame t w) (b, false)).1

/-! ## Components of a tile -/

/-- `guard`: the bin is inside the receiver-centre guard. -/
def guard (centerHz : K) (t : SpectrumTile K) (b : ℕ) : Bool :=
  Guarded (t.firstCenterHz + b * t.binWidthHz) t.binWidthHz centerHz

/-- The bins of a component that is being built. -/
structure Run where
  high : ℕ
  frames : Finset ℕ
  bridged : Bool

/-- The loop that adds bins to a component. -/
def grow (side : ℕ → Bool) (active : ℕ → Finset ℕ) (center : Bool) : List ℕ → Run → Run
  | [], r => r
  | next :: rest, r =>
    if side next ≠ center then r
    else if next > r.high + 3 then r
    else if (active next).card ≥ 2 then
      grow side active center rest
        { high := next, frames := r.frames ∪ active next, bridged := r.bridged || next > r.high + 1 }
    else grow side active center rest r

/-- The run of bins from `low` on. -/
def componentRun (centerHz : K) (t : SpectrumTile K) (w : Window K) (low : ℕ) : Run :=
  grow (guard centerHz t) (activity t w) (guard centerHz t low)
    (List.range' (low + 1) (w.last - (low + 1)))
    { high := low, frames := activity t w low, bridged := false }

/-- The burst of a run, before its times and its peak are set. -/
def runBurst (centerHz : K) (t : SpectrumTile K) (w : Window K) (low : ℕ) (run : Run) :
    SpectrumBurst K :=
  let center := guard centerHz t low
  let quality := if center then t.quality ||| dcSuspect.mask else t.quality
  { emptyBurst with
    components := 1
    centerRegion := center
    ambiguous := run.bridged
    lowerHz := t.firstCenterHz + (low - 1 / 2) * t.binWidthHz
    upperHz := t.firstCenterHz + (run.high + 1 / 2) * t.binWidthHz
    quality := if w.start > t.elapsedStartSeconds ∨ w.stop < t.elapsedEndSeconds ∨
        low = w.first ∨ run.high + 1 = w.last then quality ||| boundary.mask else quality }

/-- The component of the bins from `low` on, with its highest bin. -/
def component (centerHz : K) (t : SpectrumTile K) (w : Window K) (low : ℕ) : Component K × ℕ :=
  let run := componentRun centerHz t w low
  let burst := stamp t w run.frames (runBurst centerHz t w low run)
  let peak := (List.range' low (run.high + 1 - low)).foldl
    (fun peak i => max peak (t.peakDbfs.getD i 0)) burst.peakDbfs
  ({ burst := { burst with peakDbfs := peak }, frames := run.frames }, run.high)

/-- The loop over the bins from `b` on. Every round moves on, so `last` rounds are enough. -/
def tileComponents (centerHz : K) (t : SpectrumTile K) (w : Window K) : ℕ → ℕ → List (Component K)
  | 0, _ => []
  | rounds + 1, b =>
    if b < w.last then
      if (activity t w b).card < 2 then tileComponents centerHz t w rounds (b + 1)
      else
        (component centerHz t w b).1 ::
          tileComponents centerHz t w rounds ((component centerHz t w b).2 + 1)
    else []

/-! ## Matching -/

/-- `padding`: how far the band of a component may be from that of the track it continues. -/
def padding (t : SpectrumTile K) : K := 2 * t.binWidthHz + 1 / 10 ^ 5

/-- The largest pause within a burst. -/
def maxPause : K := 40 / 1000 + 1 / 10 ^ 8

/-- The component may continue the track. -/
def Continues (padding : K) (c : SpectrumBurst K) (t : Track K) : Prop :=
  c.elapsedStartSeconds - t.burst.elapsedEndSeconds ≤ maxPause ∧
    c.centerRegion = t.burst.centerRegion ∧ c.lowerHz ≤ t.lastHigh + padding ∧
    c.upperHz ≥ t.lastLow - padding

instance (padding : K) (c : SpectrumBurst K) (t : Track K) : Decidable (Continues padding c t) :=
  inferInstanceAs (Decidable (_ ∧ _))

/-- `matches`: for every component, the indexes of the tracks that it may continue. -/
def matched (padding : K) (components : List (Component K)) (tracks : List (Track K)) :
    List (List ℕ) :=
  components.map fun c =>
    (List.range tracks.length).filter fun j =>
      (tracks[j]?).any fun t => Continues padding c.burst t

/-- `uses`: for every track, the number of components that may continue it. -/
def uses (matches' : List (List ℕ)) (count : ℕ) : List ℕ :=
  (List.range count).map fun j => matches'.countP (j ∈ ·)

/-- The variables that the absorption of pieces changes. -/
structure Absorption (K : Type) where
  components : List (Component K)
  absorbed : List Bool
  uses : List ℕ

/-- Add a piece to the frames and to the overlap of its predecessors. -/
def addPiece (components : List (Component K)) (s : Finset ℕ × Finset ℕ) (i : ℕ) :
    Finset ℕ × Finset ℕ :=
  let c := components.getD i default
  (s.1 ∪ c.frames, s.2 ∪ s.1 ∩ c.frames)

/-- The piece belongs to the band of the track, and to no other track. -/
def SafePiece (padding : K) (matches' : List (List ℕ)) (components : List (Component K))
    (track : Track K) (i : ℕ) : Prop :=
  (matches'.getD i []).length = 1 ∧
    (components.getD i default).burst.lowerHz ≥ track.burst.lowerHz - padding ∧
    (components.getD i default).burst.upperHz ≤ track.burst.upperHz + padding

instance (padding : K) (matches' : List (List ℕ)) (components : List (Component K))
    (track : Track K) (i : ℕ) : Decidable (SafePiece padding matches' components track i) :=
  inferInstanceAs (Decidable (_ ∧ _))

/-- The first piece takes in the band of another one. -/
def mergePiece (components : List (Component K)) (b : SpectrumBurst K) (i : ℕ) : SpectrumBurst K :=
  let other := (components.getD i default).burst
  { b with
    lowerHz := min b.lowerHz other.lowerHz
    upperHz := max b.upperHz other.upperHz
    peakDbfs := max b.peakDbfs other.peakDbfs
    quality := b.quality ||| other.quality }

/-- The pieces of track `j` become one component, when they are pieces of a sweep. -/
def absorbPieces (t : SpectrumTile K) (w : Window K) (tracks : List (Track K))
    (matches' : List (List ℕ)) (s : Absorption K) (j : ℕ) : Absorption K :=
  if s.uses.getD j 0 > 1 then
    match tracks[j]?, (List.range s.components.length).filter (fun i => j ∈ matches'.getD i []) with
    | some track, front :: rest =>
      let (frames, overlap) := (front :: rest).foldl (addPiece s.components) (∅, ∅)
      if ¬ (∀ i ∈ front :: rest, SafePiece (padding t) matches' s.components track i) ∨
          overlap.card * 4 > frames.card then s
      else
        let combined := rest.foldl (mergePiece s.components)
          (s.components.getD front default).burst
        let combined := stamp t w frames { combined with ambiguous := true, activeSeconds := 0 }
        { components := s.components.set front { burst := combined, frames }
          absorbed := rest.foldl (fun absorbed i => absorbed.set i true) s.absorbed
          uses := s.uses.set j 1 }
    | _, _ => s
  else s

/-! ## Placing the components -/

/-- The variables of the loop over the components. -/
structure Placing (K : Type) where
  pool : Pool (Track K)
  nextId : ℕ
  retire : List Bool

/-- The track takes in a component. -/
def Track.extend (t : Track K) (c : SpectrumBurst K) (stop : K) (part : Part K) : Track K :=
  { burst := { t.burst with
      elapsedEndSeconds := c.elapsedEndSeconds
      lowerHz := min t.burst.lowerHz c.lowerHz
      upperHz := max t.burst.upperHz c.upperHz
      activeSeconds := t.burst.activeSeconds + c.activeSeconds
      components := t.burst.components + 1
      peakDbfs := max t.burst.peakDbfs c.peakDbfs
      quality := t.burst.quality ||| c.quality
      ambiguous := t.burst.ambiguous || c.ambiguous }
    lastLow := c.lowerHz
    lastHigh := c.upperHz
    seen := stop
    parts := t.parts ++ [part] }

/-- The tracks that a component was claimed for in vain are ambiguous. -/
def doubtAll (tracks : List (Track K)) (claimed : List ℕ) : List (Track K) :=
  claimed.foldl (fun tracks j => tracks.modify j .doubt) tracks

/-- The index of the track that component `i` extends. -/
def extended (matches' : List (List ℕ)) (uses : List ℕ) (i : ℕ) : Option ℕ :=
  match matches'.getD i [] with
  | [j] => if uses.getD j 0 = 1 then some j else none
  | _ => none

/-- A component opens a track, and retires those that it was claimed for. -/
def openTrack (s : Placing K) (c : SpectrumBurst K) (stop : K) (claimed : List ℕ) (part : Part K) :
    Placing K :=
  let c := { c with id := s.nextId, ambiguous := c.ambiguous || !claimed.isEmpty }
  let tracks := doubtAll s.pool.pending claimed
  let retire := claimed.foldl (fun retire j => retire.set j true) s.retire
  let track : Track K :=
    { burst := c, lastLow := c.lowerHz, lastHigh := c.upperHz, seen := stop, parts := [part] }
  if tracks.length < 128 then
    { pool := { s.pool with pending := tracks ++ [track] }, nextId := s.nextId + 1, retire }
  else
    { pool := { emitted := s.pool.emitted ++ [track.limit true], pending := tracks }
      nextId := s.nextId + 1, retire }

/-- The body of the loop over the components. -/
def place (call : ℕ) (stop : K) (matches' : List (List ℕ)) (a : Absorption K) (s : Placing K)
    (i : ℕ) : Placing K :=
  if a.absorbed.getD i false then s
  else
    let c := (a.components.getD i default).burst
    let part : Part K := { call, index := i, burst := c }
    match extended matches' a.uses i with
    | some j =>
      { s with pool := { s.pool with
          pending := s.pool.pending.modify j fun t => t.extend c stop part } }
    | none => openTrack s c stop (matches'.getD i []) part

/-! ## The two operations -/

/-- The tracks that ended too long before the window are emitted. -/
def expire (start : K) (pool : Pool (Track K)) : Pool (Track K) :=
  pool.sweep (fun t => start - t.burst.elapsedEndSeconds > maxPause) id

/-- The retired tracks are emitted, from the last one on. -/
def retireAll (retire : List Bool) (pool : Pool (Track K)) : Pool (Track K) :=
  (List.range retire.length).foldr
    (fun j pool => if retire.getD j false then pool.emitAt j else pool) pool

/-- The tracks that last ten seconds are emitted. -/
def cutLong (pool : Pool (Track K)) : Pool (Track K) :=
  pool.sweep (fun t => t.burst.elapsedEndSeconds - t.burst.elapsedStartSeconds ≥ 10) (.limit true)

/-- What the loops decide before the components are placed. -/
structure Plan (K : Type) where
  matches' : List (List ℕ)
  absorption : Absorption K

/-- What the loops of `consume` decide: the components of the window, the tracks each one may continue,
and the pieces absorbed into one component. -/
def plan (centerHz : K) (t : SpectrumTile K) (w : Window K) (tracks : List (Track K)) : Plan K :=
  let components := tileComponents centerHz t w w.last w.first
  let matches' := matched (padding t) components tracks
  { matches'
    absorption := (List.range tracks.length).foldl (absorbPieces t w tracks matches')
      { components
        absorbed := List.replicate components.length false
        uses := uses matches' tracks.length } }

/-- The loop over the components, as far as the first `n` of them. -/
def placeFirst (g : Grouper K) (w : Window K) (p : Plan K) (n : ℕ) : Placing K :=
  (List.range n).foldl (place g.calls w.stop p.matches' p.absorption)
    { pool := g.pool, nextId := g.nextId, retire := List.replicate g.pool.pending.length false }

/-- The part of `consume` behind the checks of the grid. -/
def group (g : Grouper K) (t : SpectrumTile K) (w : Window K) : Grouper K :=
  let p := plan g.centerHz t w g.pool.pending
  let placed := placeFirst g w p p.absorption.components.length
  { g with
    nextId := placed.nextId
    pool := cutLong (retireAll placed.retire placed.pool)
    calls := g.calls + 1 }

/-- The window of a call. -/
def Call.window (c : Call K) : Window K :=
  { first := c.first
    last := min c.last c.tile.meanDbfs.length
    start := max c.start c.tile.elapsedStartSeconds
    stop := if c.stop < 0 then c.tile.elapsedEndSeconds else min c.stop c.tile.elapsedEndSeconds }

/-- Nothing of the tile is selected. -/
def Window.Empty (w : Window K) : Prop := w.first ≥ w.last ∨ w.stop ≤ w.start

instance (w : Window K) : Decidable w.Empty := inferInstanceAs (Decidable (_ ∨ _))

/-- The check of a tile, for finite values. -/
def checkTile (t : SpectrumTile K) : Except String Unit :=
  reject (t.meanDbfs.length = 0 ∨ t.meanDbfs.length > 4096 ∨ t.frameCount = 0 ∨
      t.frameCount > 128 ∨ t.peakDbfs.length ≠ t.meanDbfs.length ∨
      t.activity.length ≠ (t.meanDbfs.length + 7) / 8 * t.frameCount ∨ t.binWidthHz ≤ 0 ∨
      t.elapsedEndSeconds ≤ t.elapsedStartSeconds)
    "Invalid burst measurement tile"

/-- The window does not continue the one before it. -/
def Grouper.Breaks (g : Grouper K) (t : SpectrumTile K) (w : Window K) : Prop :=
  g.previousEnd ≥ 0 ∧ (|w.start - g.previousEnd| > 1 / 10 ^ 8 ∨
    g.gridBins ≠ t.meanDbfs.length ∨ g.gridFirst ≠ t.firstCenterHz ∨ g.gridWidth ≠ t.binWidthHz)

instance (g : Grouper K) (t : SpectrumTile K) (w : Window K) : Decidable (g.Breaks t w) :=
  inferInstanceAs (Decidable (_ ∧ _))

/-- The window becomes the previous one, and old tracks expire. -/
def Grouper.moveTo (g : Grouper K) (t : SpectrumTile K) (w : Window K) : Grouper K :=
  { g with
    previousEnd := w.stop
    gridBins := t.meanDbfs.length
    gridFirst := t.firstCenterHz
    gridWidth := t.binWidthHz
    pool := expire w.start g.pool }

/-- The state in which the components of the call are matched. -/
def Grouper.arrive (g : Grouper K) (c : Call K) : Grouper K :=
  (if g.Breaks c.tile c.window then finish g else g).moveTo c.tile c.window

/-- `consume`: the window of a tile. An empty one ends every track. -/
def consume (g : Grouper K) (c : Call K) : Except String (Grouper K) := do
  checkTile c.tile
  if c.window.Empty then return { finish g with calls := g.calls + 1 }
  return group (g.arrive c) c.tile c.window

/-- One call; one that throws changes nothing but the number of calls. -/
def call (g : Grouper K) (c : Call K) : Grouper K :=
  (consume g c).toOption.getD { g with calls := g.calls + 1 }

/-- A list of calls, from the first to the last. -/
def run (g : Grouper K) (calls : List (Call K)) : Grouper K := calls.foldl call g

section Cases

variable {g : Grouper K} {c : Call K}

theorem call_error {e : String} (h : checkTile c.tile = .error e) :
    call g c = { g with calls := g.calls + 1 } := by
  unfold call consume
  rw [h]
  rfl

theorem call_empty {u : Unit} (h : checkTile c.tile = .ok u) (hempty : c.window.Empty) :
    call g c = { finish g with calls := g.calls + 1 } := by
  unfold call consume
  rw [h]
  show Option.getD (Except.toOption (ite _ _ _)) _ = _
  rw [if_pos hempty]
  rfl

theorem call_group {u : Unit} (h : checkTile c.tile = .ok u) (hempty : ¬ c.window.Empty) :
    call g c = group (g.arrive c) c.tile c.window := by
  unfold call consume
  rw [h]
  show Option.getD (Except.toOption (ite _ _ _)) _ = _
  rw [if_neg hempty]
  rfl

end Cases

end BurstGrouper

end OVMesh
