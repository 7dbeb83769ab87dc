import OVMesh.Rak.Message

/-!
# The worker channel

`RakProcess` of `rak_process.cpp` reads the records of a worker from a socket.

* `Impl.poll`: one bounded read; `Impl.stop`: the drain after STOP.
* `Impl.feed_append`, `polls_arrivals`: the reads carry the stream across the cuts.
* `Records`: the first lines of a stream as records.
* `stream_delivered`: what is delivered of a stream, however it is cut.
-/

namespace OVMesh

namespace Rak

open Checked

/-- The results of `recv`. -/
inductive Received
  | bytes (chunk : Text)
  | retry
  | eof
  | failure

/-- The state of the reader. -/
structure Impl where
  pending : Text := []
  ended : Bool := false
  sawEnd : Bool := false
  failed : Bool := false
  eof : Bool := false

namespace Impl

/-- `terminal`: the state behind a delivered error. -/
def terminal (s : Impl) : Impl := { s with failed := true, ended := true, pending := [] }

/-- The body of the loop over the received bytes. -/
def readByte (s : Impl) (b : UInt8) : Except String (Impl × List RakMessage) := do
  reject s.sawEnd malformed
  if b = 10 then
    let message ← parseRakMessage s.pending
    let s := { s with pending := [] }
    return (if message = .end then { s with sawEnd := true, ended := true } else s, [message])
  else
    reject (s.pending.length ≥ 2048 ∨ b < 32 ∨ b > 126) malformed
    return ({ s with pending := s.pending ++ [b] }, [])

/-- The loop over the received bytes, with the handler of a failed record. -/
def readBytes (s : Impl) : Text → Impl × List RakMessage
  | [] => (s, [])
  | b :: rest =>
    match s.readByte b with
    | .error reason => (s.terminal, [.error reason])
    | .ok (s', messages) =>
      let r := readBytes s' rest
      (r.1, messages ++ r.2)

/-- The bytes of one read. -/
def feed (s : Impl) (chunk : Text) : Impl × List RakMessage :=
  if s.failed then (s, []) else s.readBytes chunk

/-- What the engine reports when the worker ended without its last line. -/
def closedText : String :=
  "RAK worker closed without a complete END record; receiver may have disconnected"

/-- `RakProcess::poll`: what was received goes to the line buffer, and the complete lines become messages.
-/
def poll (s : Impl) (r : Received) : Impl × List RakMessage :=
  if s.eof then (s, [])
  else
    match r with
    | .eof =>
      let s := { s with eof := true, ended := true }
      if s.failed = false ∧ (s.sawEnd = false ∨ s.pending ≠ []) then
        (s.terminal, [.error closedText])
      else (s, [])
    | .retry => (s, [])
    | .failure =>
      if s.failed then (s, []) else (s.terminal, [.error "RAK worker communication failed"])
    | .bytes chunk => s.feed chunk

/-- The reads of the receive loop. -/
def polls (s : Impl) : List Received → Impl × List RakMessage
  | [] => (s, [])
  | r :: rest =>
    let one := s.poll r
    let more := one.1.polls rest
    (more.1, one.2 ++ more.2)

/-- The reads of one turn of the drain: until the end of file or until a read delivers nothing.
Returns what is left to read. -/
def drainReads : ℕ → Impl → List Received → (Impl × List RakMessage) × List Received
  | reads + 1, s, r :: rest =>
    if s.eof then ((s, []), r :: rest)
    else
      let one := s.poll r
      if one.2 = [] then (one, rest)
      else
        let more := drainReads reads one.1 rest
        ((more.1.1, one.2 ++ more.1.2), more.2)
  | _, s, received => ((s, []), received)

/-- The turns of the drain. -/
def drain : ℕ → Impl → List Received → Impl × List RakMessage
  | 0, s, _ => (s, [])
  | turns + 1, s, received =>
    let one := drainReads 16 s received
    let more := drain turns one.1.1 one.2
    (more.1, one.1.2 ++ more.2)

/-- `RakProcess::stop`: the drain and the state it leaves. -/
def stop (s : Impl) (received : List Received) : Impl × List RakMessage :=
  let r := drain 150 s received
  ({ r.1 with pending := [], ended := true }, r.2)

/-! ## Cuts -/

@[simp] theorem terminal_failed (s : Impl) : s.terminal.failed = true := rfl

@[simp] theorem terminal_eof (s : Impl) : s.terminal.eof = s.eof := rfl

@[simp] theorem feed_nil (s : Impl) : s.feed [] = (s, []) := by
  unfold feed
  split <;> rfl

theorem feed_failed {s : Impl} (h : s.failed = true) (chunk : Text) : s.feed chunk = (s, []) :=
  if_pos h

/-- Bytes do not end the file, and a byte that is taken does not fail the channel. -/
theorem readByte_keeps {s s' : Impl} {b : UInt8} {messages : List RakMessage}
    (h : s.readByte b = .ok (s', messages)) : s'.failed = s.failed ∧ s'.eof = s.eof := by
  simp only [readByte, bind_eq_ok, reject_eq_ok] at h
  obtain ⟨_, -, h⟩ := h
  split at h
  · simp only [bind_eq_ok, pure_eq_ok, Prod.mk.injEq] at h
    obtain ⟨m, -, rfl, -⟩ := h
    split <;> exact ⟨rfl, rfl⟩
  · simp only [bind_eq_ok, reject_eq_ok, pure_eq_ok, Prod.mk.injEq] at h
    obtain ⟨_, -, rfl, -⟩ := h
    exact ⟨rfl, rfl⟩

theorem feed_eof (s : Impl) (chunk : Text) : (s.feed chunk).1.eof = s.eof := by
  unfold feed
  split
  · rfl
  · rename_i h
    clear h
    induction chunk generalizing s with
    | nil => rfl
    | cons b rest ih =>
      rw [readBytes]
      cases hb : s.readByte b with
      | error reason => rfl
      | ok r => exact (ih r.1).trans (readByte_keeps hb).2

theorem feed_cons {s : Impl} (h : s.failed = false) (b : UInt8) (rest : Text) :
    s.feed (b :: rest) =
      match s.readByte b with
      | .error reason => (s.terminal, [.error reason])
      | .ok (s', messages) => ((s'.feed rest).1, messages ++ (s'.feed rest).2) := by
  rw [feed, if_neg (by simp [h]), readBytes]
  cases hb : s.readByte b with
  | error reason => rfl
  | ok r =>
    have hr := (readByte_keeps hb).1.trans h
    show _ = ((r.1.feed rest).1, r.2 ++ (r.1.feed rest).2)
    rw [feed, if_neg (by simp [hr])]

/-- A stream in two reads. -/
theorem feed_append (s : Impl) (a b : Text) :
    s.feed (a ++ b) =
      (((s.feed a).1.feed b).1, (s.feed a).2 ++ ((s.feed a).1.feed b).2) := by
  cases h : s.failed with
  | true =>
    rw [feed_failed h, feed_failed h, feed_failed h]
    rfl
  | false =>
    induction a generalizing s with
    | nil => simp
    | cons x a ih =>
      rw [List.cons_append, feed_cons h, feed_cons h]
      cases hx : s.readByte x with
      | error reason =>
        show _ = ((s.terminal.feed b).1, _ ++ (s.terminal.feed b).2)
        rw [feed_failed (terminal_failed s)]
        simp
      | ok r =>
        simp only []
        rw [ih r.1 ((readByte_keeps hx).1.trans h)]
        simp

theorem polls_append (s : Impl) (a b : List Received) :
    s.polls (a ++ b) =
      (((s.polls a).1.polls b).1, (s.polls a).2 ++ ((s.polls a).1.polls b).2) := by
  induction a generalizing s with
  | nil => rfl
  | cons r a ih => simp [polls, ih]

theorem poll_eof {s : Impl} (h : s.eof = true) (r : Received) : s.poll r = (s, []) := if_pos h

theorem polls_eof {s : Impl} (h : s.eof = true) (received : List Received) :
    s.polls received = (s, []) := by
  induction received with
  | nil => rfl
  | cons r rest ih => rw [polls, poll_eof h, ih, List.append_nil]

/-- The end of file is known once it is read. -/
theorem polls_eof_of_mem {s : Impl} {received : List Received} (h : .eof ∈ received) :
    (s.polls received).1.eof = true := by
  obtain ⟨a, b, rfl⟩ := List.append_of_mem h
  have heof : ∀ t : Impl, (t.poll .eof).1.eof = true := by
    intro t
    unfold poll
    split
    · assumption
    · simp only []
      split <;> rfl
  rw [polls_append, polls, polls_eof (heof _)]
  exact heof _

/-- A turn of the drain is some of the reads, and at least one before the end of file. -/
theorem drainReads_polls (reads : ℕ) (s : Impl) (received : List Received) :
    ∃ taken, received = taken ++ (drainReads reads s received).2 ∧
      (drainReads reads s received).1 = s.polls taken ∧
      (0 < reads → received ≠ [] → s.eof = false → taken ≠ []) := by
  induction reads generalizing s received with
  | zero => exact ⟨[], rfl, rfl, fun h => absurd h (lt_irrefl 0)⟩
  | succ reads ih =>
    cases received with
    | nil => exact ⟨[], rfl, rfl, fun _ h => absurd rfl h⟩
    | cons r rest =>
      rw [drainReads]
      split <;> rename_i heof
      · exact ⟨[], rfl, rfl, fun _ _ h => absurd (heof.symm.trans h) (by decide)⟩
      · by_cases hnone : (s.poll r).2 = []
        · simp only [if_pos hnone]
          exact ⟨[r], rfl, by simp [polls], fun _ _ _ => List.cons_ne_nil _ _⟩
        · obtain ⟨taken, hrest, htaken, -⟩ := ih (s.poll r).1 rest
          simp only [if_neg hnone]
          exact ⟨r :: taken, congrArg (r :: ·) hrest, by rw [polls, ← htaken],
            fun _ _ _ => List.cons_ne_nil _ _⟩

/-- The drain is some of the reads, and all of them if it has a turn for each. -/
theorem drain_polls (turns : ℕ) (s : Impl) (received : List Received) :
    ∃ taken rest, received = taken ++ rest ∧ drain turns s received = s.polls taken ∧
      (received.length ≤ turns → rest = [] ∨ (s.polls taken).1.eof = true) := by
  induction turns generalizing s received with
  | zero => exact ⟨[], received, rfl, rfl, fun h => .inl (List.eq_nil_of_length_eq_zero (by omega))⟩
  | succ turns ih =>
    obtain ⟨first, hfirst, hpolls, htake⟩ := drainReads_polls 16 s received
    obtain ⟨taken, rest, hrest, htaken, hall⟩ := ih (drainReads 16 s received).1.1
      (drainReads 16 s received).2
    refine ⟨first ++ taken, rest, ?_, ?_, fun hlength => ?_⟩
    · rw [List.append_assoc, ← hrest, ← hfirst]
    · rw [drain, htaken, hpolls, polls_append]
    · rw [polls_append, ← hpolls]
      cases heof : s.eof with
      | true =>
        right
        rw [hpolls, polls_eof heof, polls_eof heof]
        exact heof
      | false =>
        refine hall ?_
        rcases eq_or_ne received [] with rfl | hne
        · obtain ⟨-, hnil⟩ := List.append_eq_nil_iff.mp hfirst.symm
          rw [hnil]
          exact Nat.zero_le _
        · have hsum := congrArg List.length hfirst
          have := List.length_pos_iff.mpr (htake (by decide) hne heof)
          rw [List.length_append] at hsum
          omega

end Impl

/-! ## Arrivals -/

/-- The bytes of a read. -/
def Received.chunk : Received → Text
  | .bytes chunk => chunk
  | _ => []

/-- The reads of a stream before its end. -/
structure Arrives (stream : Text) (arrivals : List Received) : Prop where
  live : ∀ r ∈ arrivals, r = .retry ∨
    ∃ chunk, r = .bytes chunk ∧ 1 ≤ chunk.length ∧ chunk.length ≤ 4096
  stream : arrivals.flatMap Received.chunk = stream

namespace Impl

/-- What is delivered of a stream that arrives in one piece and ends. -/
def delivered (s : Impl) (stream : Text) : List RakMessage :=
  (s.feed stream).2 ++ ((s.feed stream).1.poll .eof).2

theorem polls_arrivals {s : Impl} {stream : Text} {arrivals : List Received} (hs : s.eof = false)
    (h : Arrives stream arrivals) : s.polls arrivals = s.feed stream := by
  obtain ⟨hlive, rfl⟩ := h
  induction arrivals generalizing s with
  | nil => exact (feed_nil s).symm
  | cons r arrivals ih =>
    obtain ⟨hr, harrivals⟩ := List.forall_mem_cons.mp hlive
    have hpoll : s.poll r = s.feed r.chunk := by
      obtain rfl | ⟨chunk, rfl, -⟩ := hr
      · rw [poll, if_neg (by simp [hs])]
        exact (feed_nil s).symm
      · rw [poll, if_neg (by simp [hs])]
        rfl
    rw [List.flatMap_cons, feed_append, polls, hpoll,
      ih ((feed_eof s r.chunk).trans hs) harrivals]

/-- The receive loop reads the stream and its end. -/
theorem polls_delivered {s : Impl} {stream : Text} {arrivals : List Received} (hs : s.eof = false)
    (h : Arrives stream arrivals) : (s.polls (arrivals ++ [.eof])).2 = s.delivered stream := by
  rw [polls_append, polls_arrivals hs h, delivered, polls, polls, List.append_nil]

/-- What the receive loop and the drain deliver comes in the order of the stream, and it is all of
it once the end is read. -/
theorem stop_delivered {stream : Text} {arrivals received drained : List Received}
    (h : Arrives stream arrivals) (hsplit : received ++ drained = arrivals ++ [.eof]) :
    (({} : Impl).polls received).2 ++ ((({} : Impl).polls received).1.stop drained).2 <+:
        ({} : Impl).delivered stream ∧
      (((({} : Impl).polls received).1.stop drained).1.eof = true →
        (({} : Impl).polls received).2 ++ ((({} : Impl).polls received).1.stop drained).2 =
          ({} : Impl).delivered stream) := by
  obtain ⟨taken, rest, hdrained, htaken, -⟩ := drain_polls 150 (({} : Impl).polls received).1 drained
  have hstate : ((({} : Impl).polls received).1.stop drained).1.eof =
      (({} : Impl).polls (received ++ taken)).1.eof := by
    rw [stop, htaken, polls_append]
  have hmessages :
      (({} : Impl).polls received).2 ++ ((({} : Impl).polls received).1.stop drained).2 =
        (({} : Impl).polls (received ++ taken)).2 := by
    rw [stop, htaken, polls_append]
  have hall : ({} : Impl).delivered stream = (({} : Impl).polls (received ++ taken ++ rest)).2 := by
    rw [← polls_delivered rfl h, ← hsplit, hdrained, List.append_assoc]
  rw [hstate, hmessages, hall, polls_append _ (received ++ taken)]
  refine ⟨List.prefix_append _ _, fun heof => ?_⟩
  rw [polls_eof heof, List.append_nil]

/-- The drain comes to the end of file when it has a turn for each read that is left. -/
theorem stop_eof {received drained : List Received} (h : .eof ∈ received ++ drained)
    (hlength : drained.length ≤ 150) :
    ((({} : Impl).polls received).1.stop drained).1.eof = true := by
  obtain ⟨taken, rest, rfl, htaken, hall⟩ := drain_polls 150 (({} : Impl).polls received).1 drained
  rw [stop, htaken]
  obtain rfl | heof := hall hlength
  · rw [List.append_nil] at h
    have hread := polls_eof_of_mem (s := {}) h
    rwa [polls_append] at hread
  · exact heof

end Impl

/-! ## Records -/

/-- A line that is accepted, and its record. -/
def Line (line : Text) (message : RakMessage) : Prop :=
  line.length ≤ 2048 ∧ (∀ b ∈ line, 32 ≤ b ∧ b ≤ 126) ∧ parseRakMessage line = .ok message

/-- The first lines of a stream are accepted, and only the last of them is END. -/
def Records (stream : Text) (messages : List RakMessage) (rest : Text) : Prop :=
  ∃ lines, stream = lines.flatMap (· ++ [10]) ++ rest ∧ List.Forall₂ Line lines messages ∧
    .end ∉ messages.dropLast

/-- The longest accepted line prefix. -/
def Longest (stream : Text) (messages : List RakMessage) (rest : Text) : Prop :=
  Records stream messages rest ∧
    ∀ messages' rest', Records stream messages' rest' → messages' <+: messages

theorem records_nil (stream : Text) : Records stream [] stream :=
  ⟨[], rfl, .nil, List.not_mem_nil⟩

/-- A line starts with the bytes of a stream before its first newline. -/
theorem beginning {line p x y : Text} (hp : 10 ∉ p) (h : line ++ 10 :: x = p ++ y) :
    p <+: line := by
  obtain ⟨c, rfl, hc⟩ | ⟨c, rfl, -⟩ := List.append_eq_append_iff.mp h
  · cases c with
    | nil => simp
    | cons b c =>
      rw [List.cons_append, List.cons.injEq] at hc
      exact absurd (List.mem_append_right line (hc.1 ▸ List.mem_cons_self)) hp
  · exact List.prefix_append _ _

theorem Line.newline_notMem {line : Text} {m : RakMessage} (h : Line line m) : 10 ∉ line :=
  fun hmem => absurd (h.2.1 10 hmem).1 (by decide)

/-- Nothing is accepted of a stream whose first line is not. -/
theorem longest_nil {p y : Text} (hp : 10 ∉ p)
    (hline : ∀ line x m, line ++ 10 :: x = p ++ y → p <+: line → ¬ Line line m) :
    Longest (p ++ y) [] (p ++ y) := by
  refine ⟨records_nil _, ?_⟩
  rintro messages rest ⟨lines, hstream, hlines, -⟩
  cases hlines with
  | nil => exact List.prefix_rfl
  | cons h hlines =>
    rw [List.flatMap_cons, List.append_assoc, List.append_assoc] at hstream
    exact absurd h (hline _ _ _ hstream.symm (beginning hp hstream.symm))

/-- What is accepted of a stream that starts with an accepted line. -/
theorem records_line {p y rest : Text} {m : RakMessage} {messages : List RakMessage}
    (hm : Line p m) (h : Records (p ++ 10 :: y) messages rest) :
    messages = [] ∨ ∃ more, messages = m :: more ∧ (more ≠ [] → m ≠ .end) ∧ Records y more rest := by
  obtain ⟨lines, hstream, hlines, hend⟩ := h
  cases hlines with
  | nil => exact .inl rfl
  | cons hline hlines =>
    rename_i line message lines more
    rw [List.flatMap_cons, List.append_assoc, List.append_assoc] at hstream
    -- Both lines end at the first newline.
    have hbegin := beginning hm.newline_notMem hstream.symm
    have hbegin' := beginning hline.newline_notMem hstream
    obtain rfl : p = line := hbegin.eq_of_length (Nat.le_antisymm hbegin.length_le
      hbegin'.length_le)
    obtain rfl : m = message := Except.ok.inj (hm.2.2.symm.trans hline.2.2)
    refine .inr ⟨more, rfl, ?_, lines, ?_, hlines, ?_⟩
    · rintro hmore rfl
      rw [List.dropLast_cons_of_ne_nil hmore] at hend
      exact hend List.mem_cons_self
    · exact List.cons.inj (List.append_cancel_left hstream) |>.2
    · cases more with
      | nil => exact List.not_mem_nil
      | cons a more => exact fun hmem => hend (List.mem_cons_of_mem _ hmem)

theorem longest_line {p y rest : Text} {m : RakMessage} {messages : List RakMessage}
    (hm : Line p m) (hend : m ≠ .end) (h : Longest y messages rest) :
    Longest (p ++ 10 :: y) (m :: messages) rest := by
  obtain ⟨⟨lines, rfl, hlines, hlast⟩, hlongest⟩ := h
  refine ⟨⟨p :: lines, by simp, .cons hm hlines, ?_⟩, fun messages' rest' h' => ?_⟩
  · cases messages with
    | nil => exact List.not_mem_nil
    | cons a more => exact fun hmem => (List.mem_cons.mp hmem).elim (fun h => hend h.symm) hlast
  · obtain rfl | ⟨more, rfl, -, hmore⟩ := records_line hm h'
    · exact List.nil_prefix
    · exact List.cons_prefix_cons.mpr ⟨rfl, hlongest more rest' hmore⟩

/-- Nothing is accepted behind END. -/
theorem longest_end {p y : Text} (hm : Line p .end) : Longest (p ++ 10 :: y) [.end] y := by
  refine ⟨⟨[p], by simp, .cons hm .nil, List.not_mem_nil⟩, fun messages' rest' h' => ?_⟩
  obtain rfl | ⟨more, rfl, hend, -⟩ := records_line hm h'
  · exact List.nil_prefix
  · cases more with
    | nil => exact List.prefix_rfl
    | cons a more => exact absurd rfl (hend (List.cons_ne_nil _ _))

/-- What follows the accepted records: nothing if they are the whole stream and the last one is
END, else one error. -/
def Closing (messages : List RakMessage) (rest : Text) (closing : List RakMessage) : Prop :=
  if rest = [] ∧ messages.getLast? = some .end then closing = []
  else ∃ reason, closing = [.error reason]

theorem closing_nil (rest : Text) (reason : String) : Closing [] rest [.error reason] := by
  rw [Closing, if_neg (by simp)]
  exact ⟨reason, rfl⟩

namespace Impl

theorem delivered_error {s : Impl} (hs : s.failed = false) {b : UInt8} {reason : String}
    (h : s.readByte b = .error reason) (y : Text) : s.delivered (b :: y) = [.error reason] := by
  rw [delivered, feed_cons hs, h]
  simp only [poll, terminal_failed, terminal_eof, Bool.true_eq_false, false_and, if_false]
  split <;> rfl

theorem delivered_ok {s s' : Impl} (hs : s.failed = false) {b : UInt8}
    {messages : List RakMessage} (h : s.readByte b = .ok (s', messages)) (y : Text) :
    s.delivered (b :: y) = messages ++ s'.delivered y := by
  rw [delivered, feed_cons hs, h, List.append_assoc]
  rfl

/-- Behind END, only the end of the stream is not an error. -/
theorem delivered_sawEnd (y : Text) :
    Closing [.end] y (delivered { sawEnd := true, ended := true } y) := by
  cases y with
  | nil => exact rfl
  | cons b y => exact ⟨malformed, delivered_error rfl rfl y⟩

/-- What is delivered behind the bytes of an unfinished line. -/
theorem delivered_longest {p : Text} (y : Text) (hlength : p.length ≤ 2048)
    (hp : ∀ b ∈ p, 32 ≤ b ∧ b ≤ 126) :
    ∃ messages rest closing, delivered { pending := p } y = messages ++ closing ∧
      Longest (p ++ y) messages rest ∧ Closing messages rest closing := by
  have hnewline : 10 ∉ p := fun hmem => absurd (hp 10 hmem).1 (by decide)
  induction y generalizing p with
  | nil =>
    refine ⟨[], p ++ [], [.error closedText], rfl, longest_nil hnewline ?_, ?_⟩
    · intro line x m hline _ _
      rw [List.append_nil] at hline
      exact hnewline (hline ▸ List.mem_append_right _ List.mem_cons_self)
    · exact closing_nil _ _
  | cons b y ih =>
    have hs : ({ pending := p } : Impl).failed = false := rfl
    -- At the end of a line the pending text is parsed. An error, or the last record, ends the reading.
    by_cases hb : b = 10
    · subst hb
      cases hparse : parseRakMessage p with
      | error reason =>
        have hbyte : ({ pending := p } : Impl).readByte 10 = .error reason := by
          simp [readByte, hparse, reject]
          rfl
        refine ⟨[], p ++ 10 :: y, _, delivered_error hs hbyte y, longest_nil hnewline ?_,
          closing_nil _ _⟩
        intro line x m hline hbegin hm
        have hbegin' := beginning hm.newline_notMem hline.symm
        obtain rfl : p = line := hbegin.eq_of_length (Nat.le_antisymm hbegin.length_le
          hbegin'.length_le)
        exact absurd (hparse.symm.trans hm.2.2) (by simp)
      | ok m =>
        have hline : Line p m := ⟨hlength, hp, hparse⟩
        have hbyte : ({ pending := p } : Impl).readByte 10 =
            .ok (if m = .end then { sawEnd := true, ended := true } else {}, [m]) := by
          simp [readByte, hparse, reject]
        have hdelivered := delivered_ok hs hbyte y
        by_cases hend : m = .end
        · subst hend
          rw [if_pos rfl] at hdelivered
          exact ⟨[.end], y, _, hdelivered, longest_end hline, delivered_sawEnd y⟩
        · rw [if_neg hend] at hdelivered
          obtain ⟨messages, rest, closing, hmore, hlongest, hclosing⟩ :=
            ih (p := []) (by simp) (by simp) List.not_mem_nil
          refine ⟨m :: messages, rest, closing, ?_, longest_line hline hend hlongest, ?_⟩
          · rw [hdelivered, hmore]
            rfl
          · unfold Closing at hclosing ⊢
            cases messages with
            | nil => simpa [hend] using hclosing
            | cons a more => simpa using hclosing
    -- Within a line a byte is kept, unless it is not printable or the line is too long for any line to
    -- come of it.
    · by_cases hbad : p.length ≥ 2048 ∨ b < 32 ∨ b > 126
      · have hbyte : ({ pending := p } : Impl).readByte b = .error malformed := by
          simp [readByte, hb, reject, hbad]
          rfl
        refine ⟨[], p ++ b :: y, _, delivered_error hs hbyte y, ?_, closing_nil _ _⟩
        have hnewline' : 10 ∉ p ++ [b] := by simp [hnewline, Ne.symm hb]
        have hlongest := longest_nil (p := p ++ [b]) (y := y) hnewline' ?_
        · rwa [List.append_assoc] at hlongest
        · rintro line x m - hbegin ⟨hlong, hprint, -⟩
          have hle := hbegin.length_le
          have hmem := hprint b (hbegin.mem (by simp))
          rw [List.length_append, List.length_singleton] at hle
          rcases hbad with h | h | h
          · omega
          · exact absurd hmem.1 (UInt8.not_le.mpr h)
          · exact absurd hmem.2 (UInt8.not_le.mpr h)
      · have hbyte : ({ pending := p } : Impl).readByte b = .ok ({ pending := p ++ [b] }, []) := by
          simp [readByte, hb, reject, hbad]
        obtain ⟨hlt, hlow, hhigh⟩ : p.length < 2048 ∧ 32 ≤ b ∧ b ≤ 126 := by
          simpa only [not_or, not_le, ge_iff_le, gt_iff_lt, UInt8.not_lt] using hbad
        obtain ⟨messages, rest, closing, hmore, hlongest, hclosing⟩ := ih (p := p ++ [b])
          (by simp; omega)
          (by
            intro x hx
            rcases List.mem_append.mp hx with hx | hx
            · exact hp x hx
            · rw [List.mem_singleton.mp hx]
              exact ⟨hlow, hhigh⟩)
          (by simp [hnewline, Ne.symm hb])
        refine ⟨messages, rest, closing, ?_, ?_, hclosing⟩
        · rw [delivered_ok hs hbyte, hmore]
          rfl
        · rwa [List.append_assoc] at hlongest

end Impl

theorem Records.accepted {stream rest : Text} {messages : List RakMessage}
    (h : Records stream messages rest) : ∀ m ∈ messages, m.Accepted := by
  obtain ⟨lines, -, hlines, -⟩ := h
  intro m hm
  induction hlines with
  | nil => exact absurd hm List.not_mem_nil
  | cons hline _ ih =>
    rcases List.mem_cons.mp hm with rfl | hm
    · exact parseRakMessage_ok hline.2.2
    · exact ih hm

/-- **One delivery for all cuts.** The records of the longest accepted line prefix of a stream are
delivered, and then one error unless they are the whole stream and its last line is the only END.
The cuts of the stream, the reads without bytes and the moment of the stop do not matter: whatever
is delivered is the beginning of this, and it is all of it once the end of file is read. The drain
reads the end of file when no more than its 150 turns of reads are left. -/
theorem stream_delivered (stream : Text) :
    ∃ messages rest closing, Longest stream messages rest ∧ Closing messages rest closing ∧
      (∀ reason, .error reason ∉ messages) ∧
      ∀ arrivals received drained, Arrives stream arrivals →
        received ++ drained = arrivals ++ [.eof] →
          let all := (({} : Impl).polls received).2 ++
            ((({} : Impl).polls received).1.stop drained).2
          all <+: messages ++ closing ∧
            (((({} : Impl).polls received).1.stop drained).1.eof = true →
              all = messages ++ closing) ∧
            (drained.length ≤ 150 →
              ((({} : Impl).polls received).1.stop drained).1.eof = true ∧
                all = messages ++ closing) := by
  obtain ⟨messages, rest, closing, hdelivered, hlongest, hclosing⟩ :=
    Impl.delivered_longest (p := []) stream (by simp) (by simp)
  have hdelivered : ({} : Impl).delivered stream = messages ++ closing := hdelivered
  refine ⟨messages, rest, closing, hlongest, hclosing, ?_, ?_⟩
  · exact fun reason hmem => hlongest.1.accepted _ hmem
  · intro arrivals received drained h hsplit all
    obtain ⟨hread, hall⟩ := Impl.stop_delivered h hsplit
    rw [← hdelivered]
    refine ⟨hread, hall, fun hlength => ?_⟩
    have hmem : Received.eof ∈ received ++ drained := by
      rw [hsplit]
      exact List.mem_append_right _ List.mem_cons_self
    have heof := Impl.stop_eof hmem hlength
    exact ⟨heof, hall heof⟩

/-- A stream in three reads: the loop has the first two, the drain finds the rest behind an idle
read. -/
theorem stopped_delivered :
    let received := [.bytes (ascii "READY\nE"), .bytes (ascii "ND")]
    let drained := [.retry, .bytes (ascii "\n"), .eof]
    (({} : Impl).polls received).2 = [.ready] ∧
      ((({} : Impl).polls received).1.stop drained).1.eof = true ∧
      ∃ messages rest closing, Longest (ascii "READY\nEND\n") messages rest ∧
        Closing messages rest closing ∧
        (({} : Impl).polls received).2 ++ ((({} : Impl).polls received).1.stop drained).2 =
          messages ++ closing := by
  intro received drained
  obtain ⟨messages, rest, closing, hlongest, hclosing, -, hdelivered⟩ :=
    stream_delivered (ascii "READY\nEND\n")
  have harrives : Arrives (ascii "READY\nEND\n")
      [.bytes (ascii "READY\nE"), .bytes (ascii "ND"), .retry, .bytes (ascii "\n")] := by
    refine ⟨?_, rfl⟩
    refine List.forall_mem_cons.mpr ⟨.inr ⟨_, rfl, by decide, by decide⟩, ?_⟩
    refine List.forall_mem_cons.mpr ⟨.inr ⟨_, rfl, by decide, by decide⟩, ?_⟩
    refine List.forall_mem_cons.mpr ⟨.inl rfl, ?_⟩
    exact List.forall_mem_singleton.mpr (.inr ⟨_, rfl, by decide, by decide⟩)
  obtain ⟨-, -, hall⟩ := hdelivered _ received drained harrives rfl
  obtain ⟨heof, heq⟩ := hall (by decide)
  exact ⟨by decide, heof, messages, rest, closing, hlongest, hclosing, heq⟩

end Rak

end OVMesh
