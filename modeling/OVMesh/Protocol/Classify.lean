import OVMesh.Lib.Checked
import OVMesh.Lib.Search
import OVMesh.Protocol.Envelope

/-!
# The envelope classifier

`classify_meshtastic` of `protocol.cpp`. The loop over the keys ends early where it returns a
result, which is the error of its computation.

* `classifyMeshtastic`: the classifier.
* `candidates`, `answer`: the eligible keys of a ring, and the envelope that a key gives.
* `classify_eq`: the classifier as a search over the set of its candidates.
* `classify_keyring`: the classifier under changes of the ring.
-/

namespace OVMesh

namespace Protocol

open Checked

/-- `Status`: what became of a frame. -/
inductive Status
  | classified | badPhyCrc | invalidFrame | noMatchingKey | decryptionUnvalidated
  | unsupportedPayload | ambiguousKeys | unsupportedPki | invalidProfile | cryptoError
  deriving DecidableEq

/-- `DecodeResult`: the status, its texts, and the evidence of a classified frame. -/
structure DecodeResult where
  status : Status := .invalidFrame
  classification : Text := ascii "unknown LoRa"
  authentication : Text := ascii "not authenticated"
  evidence : Option EnvelopeEvidence := none
  deriving DecidableEq

/-- The variables of the loop over the keys. -/
structure Attempts where
  matched : Bool := false
  anyPlausible : Bool := false
  successfulKey : Option ChannelKey := none
  evidence : Option EnvelopeEvidence := none

variable (library : Library) (frame : List UInt8)

/-- The byte 13 of a frame, its channel hash. -/
def channelByte : UInt8 := frame.getD 13 0

/-- A key is not passed over. -/
def Eligible (p : Profile) (key : ChannelKey) : Prop :=
  ¬ (p.restrictChannelName = true ∧ channelHash p.channelName key ≠ channelByte frame)

instance (p : Profile) (key : ChannelKey) : Decidable (Eligible frame p key) :=
  inferInstanceAs (Decidable (¬ _))

/-- The plaintext of a frame under a key. -/
def decrypt (key : ChannelKey) : Option (List UInt8) :=
  crypt library (frame.drop 16) key (meshtasticNonce (le32 frame 4) (le32 frame 8))

/-- One turn of the inner loop. -/
def tryKey (p : Profile) (a : Attempts) (key : ChannelKey) : Except DecodeResult Attempts :=
  if ¬ Eligible frame p key then .ok a
  else
    let a := { a with matched := true }
    if a.successfulKey = some key then .ok a
    else match decrypt library frame key with
      | none => .error { status := .cryptoError }
      | some plain =>
        match parseData library plain with
        | none => .ok a
        | some candidate =>
          if a.anyPlausible then .error { status := .ambiguousKeys }
          else .ok { a with
            anyPlausible := true, successfulKey := some key, evidence := some candidate }

/-- The result behind the loop. -/
def conclude (a : Attempts) : DecodeResult :=
  if a.evidence.any (recognizedPort ·.port) then
    { status := .classified, classification := ascii "likely Meshtastic", evidence := a.evidence }
  else if a.anyPlausible then
    { status := .unsupportedPayload, classification := ascii "possible Meshtastic",
      evidence := a.evidence }
  else if a.matched then { status := .decryptionUnvalidated }
  else { status := .noMatchingKey }

/-- The part of `classify_meshtastic` that tries the keys. -/
def tryKeys (profiles : List Profile) : DecodeResult :=
  match profiles.foldlM (fun a p => p.keys.foldlM (tryKey library frame p) a) {} with
  | .error result => result
  | .ok a => conclude a

/-- The frame is one of channel zero to a single node. -/
def PkiConvention : Prop := channelByte frame = 0 ∧ le32 frame 0 ≠ 0xffffffff

instance : Decidable (PkiConvention frame) := inferInstanceAs (Decidable (_ ∧ _))

/-- `classify_meshtastic`: the tests of a frame and its keys, in the order of the source. -/
def classifyMeshtastic (crc : Bool) (profiles : List Profile) : DecodeResult :=
  if crc = false then { status := .badPhyCrc }
  else if frame.length ≤ 16 ∨ frame.length > maxFrame then {}
  else if profiles.length > maxKeyringProfiles then { status := .invalidProfile }
  else if profiles.any (¬ ·.Valid) then { status := .invalidProfile }
  else if le32 frame 4 = 0 ∨ le32 frame 4 = 0xffffffff ∨ le32 frame 0 = 0 then {}
  else if PkiConvention frame then { status := .unsupportedPki }
  else tryKeys library frame profiles

/-! ## Results -/

/-- What holds of every result. -/
structure DecodeResult.Consistent (crc : Bool) (r : DecodeResult) : Prop where
  authentication : r.authentication = ascii "not authenticated"
  classification : r.classification = ascii "unknown LoRa" ∨
    r.classification = ascii "likely Meshtastic" ∨ r.classification = ascii "possible Meshtastic"
  classified : r.status = .classified → crc = true ∧ r.classification = ascii "likely Meshtastic"
  evidence : ∀ e ∈ r.evidence, crc = true ∧ 0 < e.port ∧ e.port ≤ 65535 ∧
    (r.status = .classified ∨
      r.status = .unsupportedPayload ∧ r.classification = ascii "possible Meshtastic")
  possible : r.classification = ascii "possible Meshtastic" → r.evidence.isSome

variable {library frame} {p : Profile} {key : ChannelKey} {a a' : Attempts} {crc : Bool}
  {profiles : List Profile}

private theorem unknown_ne : ascii "unknown LoRa" ≠ ascii "possible Meshtastic" := by decide

private theorem likely_ne : ascii "likely Meshtastic" ≠ ascii "possible Meshtastic" := by decide

/-- A result without evidence. -/
theorem DecodeResult.Consistent.plain {status : Status} (h : status ≠ .classified) :
    DecodeResult.Consistent crc { status } where
  authentication := rfl
  classification := .inl rfl
  classified hstatus := absurd hstatus h
  evidence e he := by cases he
  possible hclass := absurd hclass unknown_ne

/-- The evidence of the loop is that of one key. -/
def Attempts.Sound (a : Attempts) : Prop :=
  a.evidence.isSome = a.anyPlausible ∧ ∀ e ∈ a.evidence, 0 < e.port ∧ e.port ≤ 65535

theorem tryKey_sound (h : a.Sound) (hstep : tryKey library frame p a key = .ok a') : a'.Sound := by
  unfold tryKey at hstep
  split at hstep
  · cases hstep
    exact h
  · simp only at hstep
    split at hstep
    · cases hstep
      exact h
    · cases hplain : decrypt library frame key with
      | none =>
        rw [hplain] at hstep
        cases hstep
      | some plain =>
        rw [hplain] at hstep
        simp only at hstep
        cases hparse : parseData library plain with
        | none =>
          rw [hparse] at hstep
          cases hstep
          exact h
        | some candidate =>
          rw [hparse] at hstep
          simp only at hstep
          split at hstep
          · cases hstep
          · cases hstep
            refine ⟨rfl, fun e he => ?_⟩
            cases he
            exact parseData_port hparse

/-- A result that ends the loop early. -/
theorem tryKey_error {r : DecodeResult} (hstep : tryKey library frame p a key = .error r) :
    r = { status := .cryptoError } ∨ r = { status := .ambiguousKeys } := by
  unfold tryKey at hstep
  split at hstep
  · cases hstep
  · simp only at hstep
    split at hstep
    · cases hstep
    · split at hstep
      · cases hstep
        exact .inl rfl
      · split at hstep
        · cases hstep
        · split at hstep
          · cases hstep
            exact .inr rfl
          · cases hstep

theorem conclude_consistent (h : a.Sound) : (conclude a).Consistent true := by
  obtain ⟨hsome, hports⟩ := h
  unfold conclude
  split
  · exact {
      authentication := rfl
      classification := .inr (.inl rfl)
      classified := fun _ => ⟨rfl, rfl⟩
      evidence := fun e he => ⟨rfl, (hports e he).1, (hports e he).2, .inl rfl⟩
      possible := fun hclass => absurd hclass likely_ne }
  · split
    · rename_i hplausible
      exact {
        authentication := rfl
        classification := .inr (.inr rfl)
        classified := fun hstatus => by cases hstatus
        evidence := fun e he => ⟨rfl, (hports e he).1, (hports e he).2, .inr ⟨rfl, rfl⟩⟩
        possible := fun _ => hsome.trans hplausible }
    · split
      · exact .plain (by decide)
      · exact .plain (by decide)

/-- What the loop leaves, whatever the cipher does. -/
theorem tryKeys_consistent : (tryKeys library frame profiles).Consistent true := by
  unfold tryKeys
  have hinner : ∀ (p : Profile) (a a' : Attempts), a.Sound →
      p.keys.foldlM (tryKey library frame p) a = .ok a' → a'.Sound := fun p a a' ha hfold =>
    foldlM_induction (P := fun _ a => a.Sound)
      (fun _ _ _ _ _ _ hs hstep => tryKey_sound hs hstep) ha hfold
  cases hloop : profiles.foldlM (fun a p => p.keys.foldlM (tryKey library frame p) a) {} with
  | error r =>
    have hr := foldlM_error (P := fun r => r = { status := .cryptoError } ∨
        r = { status := .ambiguousKeys })
      (fun _ _ _ _ hfold => foldlM_error (fun _ _ _ _ hstep => tryKey_error hstep) hfold) hloop
    rcases hr with rfl | rfl
    · exact .plain (by decide)
    · exact .plain (by decide)
  | ok a =>
    exact conclude_consistent (foldlM_induction (P := fun _ a => a.Sound)
      (fun _ p _ a a' _ hs hstep => hinner p a a' hs hstep) ⟨rfl, fun e he => by cases he⟩ hloop)

/-- Every result is consistent. -/
theorem classify_consistent : (classifyMeshtastic library frame crc profiles).Consistent crc := by
  unfold classifyMeshtastic
  split
  · exact .plain (by decide)
  · rename_i hcrc
    rw [Bool.not_eq_false] at hcrc
    subst hcrc
    split
    · exact .plain (by decide)
    · split
      · exact .plain (by decide)
      · split
        · exact .plain (by decide)
        · split
          · exact .plain (by decide)
          · split
            · exact .plain (by decide)
            · exact tryKeys_consistent

/-! ## Candidates -/

variable (library frame) in
/-- The envelope that a key gives. -/
def answer (key : ChannelKey) : Option EnvelopeEvidence :=
  (decrypt library frame key).bind (parseData library)

variable (frame) in
/-- The eligible keys of a ring, in the order of the loop. -/
def candidates (profiles : List Profile) : List ChannelKey :=
  profiles.flatMap fun p => p.keys.filter (Eligible frame p)

variable (library frame) in
/-- The loop behind the candidates that it has seen. -/
def searched (l : List ChannelKey) : Except DecodeResult Attempts :=
  match search (answer library frame) l with
  | .none => .ok { matched := !l.isEmpty }
  | .found key evidence => .ok {
      matched := true, anyPlausible := true, successfulKey := some key, evidence := some evidence }
  | .ambiguous => .error { status := .ambiguousKeys }

/-- One turn of the loop is one more candidate, if its key is eligible. -/
theorem searched_step (h : ∃ plain, decrypt library frame key = some plain) (l : List ChannelKey) :
    (searched library frame l >>= fun a => tryKey library frame p a key) =
      searched library frame (l ++ [key].filter (Eligible frame p)) := by
  obtain ⟨plain, hplain⟩ := h
  by_cases heligible : Eligible frame p key
  · rw [List.filter_cons_of_pos (by simpa using heligible), List.filter_nil]
    have hanswer : answer library frame key = parseData library plain := by
      rw [answer, hplain]
      rfl
    have hmatched : (l ++ [key]).isEmpty = false := by simp
    simp only [searched, search_concat, hmatched]
    cases search (answer library frame) l with
    | none =>
      simp only [Search.step, hanswer, bind, Except.bind, tryKey, heligible, not_true, if_false,
        hplain]
      cases parseData library plain with
      | none => rfl
      | some candidate => rfl
    | found key' evidence =>
      simp only [Search.step, bind, Except.bind, tryKey, heligible, not_true, if_false,
        Option.some.injEq]
      by_cases hkey : key' = key
      · simp only [hkey, if_true]
      · simp only [if_neg hkey, hplain, hanswer]
        cases parseData library plain with
        | none => rfl
        | some candidate => rfl
    | ambiguous => rfl
  · rw [List.filter_cons_of_neg (by simpa using heligible), List.filter_nil, List.append_nil]
    have hstep : ∀ a, tryKey library frame p a key = .ok a := fun a => if_pos heligible
    simp only [hstep]
    exact bind_pure _

theorem searched_keys {keys : List ChannelKey}
    (h : ∀ key ∈ keys, ∃ plain, decrypt library frame key = some plain) (l : List ChannelKey) :
    (searched library frame l >>= fun a => keys.foldlM (tryKey library frame p) a) =
      searched library frame (l ++ keys.filter (Eligible frame p)) := by
  induction keys generalizing l with
  | nil =>
    rw [List.filter_nil, List.append_nil]
    exact bind_pure _
  | cons key keys ih =>
    obtain ⟨hkey, hkeys⟩ := List.forall_mem_cons.mp h
    simp only [List.foldlM_cons]
    rw [← bind_assoc, searched_step hkey, ih hkeys, List.append_assoc, ← List.filter_append,
      List.singleton_append]

theorem searched_profiles
    (h : ∀ p ∈ profiles, ∀ key ∈ p.keys, ∃ plain, decrypt library frame key = some plain)
    (l : List ChannelKey) :
    (searched library frame l >>= fun a =>
      profiles.foldlM (fun a p => p.keys.foldlM (tryKey library frame p) a) a) =
      searched library frame (l ++ candidates frame profiles) := by
  induction profiles generalizing l with
  | nil =>
    rw [candidates, List.flatMap_nil, List.append_nil]
    exact bind_pure _
  | cons p profiles ih =>
    obtain ⟨hp, hprofiles⟩ := List.forall_mem_cons.mp h
    simp only [List.foldlM_cons]
    rw [← bind_assoc, searched_keys hp, ih hprofiles, List.append_assoc, candidates, candidates,
      List.flatMap_cons]

theorem mem_candidates :
    key ∈ candidates frame profiles ↔ ∃ p ∈ profiles, key ∈ p.keys ∧ Eligible frame p key := by
  simp [candidates]

/-! ## Frames whose keys are tried -/

/-- A frame and a ring reach the loop over the keys. -/
structure Examined (frame : List UInt8) (crc : Bool) (profiles : List Profile) : Prop where
  integrity : crc = true
  length : 17 ≤ frame.length ∧ frame.length ≤ maxFrame
  ring : profiles.length ≤ maxKeyringProfiles
  valid : ∀ p ∈ profiles, p.Valid
  sender : le32 frame 4 ≠ 0 ∧ le32 frame 4 ≠ 0xffffffff
  destination : le32 frame 0 ≠ 0
  channel : ¬ PkiConvention frame

theorem any_invalid : profiles.any (¬ ·.Valid) = true ↔ ¬ ∀ p ∈ profiles, p.Valid := by
  simp

theorem Examined.classify_eq (h : Examined frame crc profiles) :
    classifyMeshtastic library frame crc profiles = tryKeys library frame profiles := by
  have hlength := h.length
  have hring := h.ring
  unfold classifyMeshtastic
  rw [if_neg (by rw [h.integrity]; decide), if_neg (by omega), if_neg (by omega),
    if_neg (fun hany => any_invalid.mp hany h.valid),
    if_neg (not_or.mpr ⟨h.sender.1, not_or.mpr ⟨h.sender.2, h.destination⟩⟩), if_neg h.channel]

/-- A frame whose keys are not tried has a result without evidence, which depends on the size and
the validity of the ring alone. -/
theorem classify_refused (h : ¬ Examined frame crc profiles) : ∃ r : DecodeResult,
    r.evidence = none ∧ ∀ (library : Library) (profiles' : List Profile),
      profiles'.length = profiles.length →
      ((∀ p ∈ profiles', p.Valid) ↔ ∀ p ∈ profiles, p.Valid) →
      classifyMeshtastic library frame crc profiles' = r := by
  by_cases hcrc : crc = false
  · exact ⟨_, rfl, fun _ _ _ _ => if_pos hcrc⟩
  by_cases hframe : frame.length ≤ 16 ∨ frame.length > maxFrame
  · refine ⟨{}, rfl, fun _ _ _ _ => ?_⟩
    rw [classifyMeshtastic, if_neg hcrc, if_pos hframe]
  by_cases hring : profiles.length > maxKeyringProfiles
  · refine ⟨{ status := .invalidProfile }, rfl, fun _ _ hlength _ => ?_⟩
    rw [classifyMeshtastic, if_neg hcrc, if_neg hframe, if_pos (hlength ▸ hring)]
  by_cases hvalid : ∀ p ∈ profiles, p.Valid
  · by_cases hnodes : le32 frame 4 = 0 ∨ le32 frame 4 = 0xffffffff ∨ le32 frame 0 = 0
    · refine ⟨{}, rfl, fun _ _ hlength hvalid' => ?_⟩
      rw [classifyMeshtastic, if_neg hcrc, if_neg hframe, if_neg (hlength ▸ hring),
        if_neg (fun hany => any_invalid.mp hany (hvalid'.mpr hvalid)), if_pos hnodes]
    · by_cases hchannel : PkiConvention frame
      · refine ⟨{ status := .unsupportedPki }, rfl, fun _ _ hlength hvalid' => ?_⟩
        rw [classifyMeshtastic, if_neg hcrc, if_neg hframe, if_neg (hlength ▸ hring),
          if_neg (fun hany => any_invalid.mp hany (hvalid'.mpr hvalid)), if_neg hnodes,
          if_pos hchannel]
      · simp only [not_or] at hnodes
        exact absurd ⟨by simpa using hcrc, by omega, by omega, hvalid, ⟨hnodes.1, hnodes.2.1⟩,
          hnodes.2.2, hchannel⟩ h
  · refine ⟨{ status := .invalidProfile }, rfl, fun _ _ hlength hvalid' => ?_⟩
    rw [classifyMeshtastic, if_neg hcrc, if_neg hframe, if_neg (hlength ▸ hring),
      if_pos (any_invalid.mpr (fun hall => hvalid (hvalid'.mp hall)))]

/-- A frame whose keys are not tried leaves no evidence. -/
theorem evidence_unexamined (h : ¬ Examined frame crc profiles) :
    (classifyMeshtastic library frame crc profiles).evidence = none := by
  obtain ⟨r, hr, heq⟩ := classify_refused h
  rw [heq library profiles rfl Iff.rfl, hr]

theorem decrypt_total (hlibrary : library.Total) (hlength : frame.length ≤ maxFrame)
    (hvalid : ∀ p ∈ profiles, p.Valid) :
    ∀ p ∈ profiles, ∀ key ∈ p.keys, ∃ plain, decrypt library frame key = some plain := by
  intro p hp key hkey
  refine crypt_total hlibrary (by rw [List.length_drop]; omega) ?_
  simpa using List.all_eq_true.mp (hvalid p hp).2 key hkey

/-- The result of a search over candidates. -/
def verdict (matched : Bool) : Search ChannelKey EnvelopeEvidence → DecodeResult
  | .none => conclude { matched }
  | .found key evidence => conclude {
      matched := true, anyPlausible := true, successfulKey := some key, evidence := some evidence }
  | .ambiguous => { status := .ambiguousKeys }

/-- The loop is a search over the candidates. -/
theorem Examined.tryKeys_eq (h : Examined frame crc profiles) (hlibrary : library.Total) :
    tryKeys library frame profiles =
      verdict (!(candidates frame profiles).isEmpty)
        (search (answer library frame) (candidates frame profiles)) := by
  have hloop := searched_profiles (decrypt_total hlibrary h.length.2 h.valid) []
  have hstart : searched library frame [] = .ok {} := rfl
  rw [hstart, List.nil_append] at hloop
  have hloop : profiles.foldlM (fun a p => p.keys.foldlM (tryKey library frame p) a) {} =
    searched library frame (candidates frame profiles) := hloop
  unfold tryKeys
  rw [hloop, searched]
  cases search (answer library frame) (candidates frame profiles) with
  | none => rfl
  | found key evidence => rfl
  | ambiguous => rfl

/-- The evidence of a verdict is that of the one key that was found. -/
theorem verdict_evidence {matched : Bool} {r : Search ChannelKey EnvelopeEvidence} :
    (verdict matched r).evidence.isSome ↔ ∃ key evidence, r = .found key evidence := by
  cases r with
  | none => cases matched <;> simp [verdict, conclude]
  | found key evidence =>
    simp only [verdict, conclude, Option.any_some]
    split <;> simp
  | ambiguous => simp [verdict]

/-- **Evidence.** A frame leaves evidence when its keys are tried and exactly one distinct eligible
key gives a plausible envelope. -/
theorem evidence_iff (hlibrary : library.Total) :
    (classifyMeshtastic library frame crc profiles).evidence.isSome ↔
      Examined frame crc profiles ∧ ∃! key, key ∈ candidates frame profiles ∧
        (answer library frame key).isSome := by
  by_cases h : Examined frame crc profiles
  · rw [h.classify_eq, h.tryKeys_eq hlibrary, verdict_evidence]
    have hholds := search_holds (answer library frame) (candidates frame profiles)
    constructor
    · rintro ⟨key, evidence, hfound⟩
      rw [hfound] at hholds
      obtain ⟨hmem, hanswer, hunique⟩ := hholds
      exact ⟨h, key, ⟨hmem, by rw [hanswer]; rfl⟩, fun key' hkey' => hunique key' hkey'.1 hkey'.2⟩
    · rintro ⟨-, key, ⟨hmem, hsome⟩, hunique⟩
      cases hsearch : search (answer library frame) (candidates frame profiles) with
      | none =>
        rw [hsearch] at hholds
        rw [hholds key hmem] at hsome
        cases hsome
      | found key' evidence => exact ⟨key', evidence, rfl⟩
      | ambiguous =>
        rw [hsearch] at hholds
        obtain ⟨a, ha, b, hb, hne, hsomea, hsomeb⟩ := hholds
        exact absurd ((hunique a ⟨ha, hsomea⟩).trans (hunique b ⟨hb, hsomeb⟩).symm) hne
  · rw [evidence_unexamined h]
    exact ⟨fun hfalse => (by cases hfalse), fun hexamined => absurd hexamined.1 h⟩

/-! ## Rings -/

/-- Two rings with the same validity and the same candidates classify alike. -/
theorem classify_congr (hlibrary : library.Total) {profiles' : List Profile}
    (hlength : profiles'.length = profiles.length)
    (hvalid : (∀ p ∈ profiles', p.Valid) ↔ ∀ p ∈ profiles, p.Valid)
    (hcandidates : ∀ key, key ∈ candidates frame profiles' ↔ key ∈ candidates frame profiles) :
    classifyMeshtastic library frame crc profiles' =
      classifyMeshtastic library frame crc profiles := by
  by_cases h : Examined frame crc profiles
  · have h' : Examined frame crc profiles' :=
      ⟨h.integrity, h.length, hlength ▸ h.ring, hvalid.mpr h.valid, h.sender, h.destination,
        h.channel⟩
    have hempty : (candidates frame profiles').isEmpty = (candidates frame profiles).isEmpty := by
      rw [Bool.eq_iff_iff, List.isEmpty_iff, List.isEmpty_iff, List.eq_nil_iff_forall_not_mem,
        List.eq_nil_iff_forall_not_mem]
      exact forall_congr' fun key => not_congr (hcandidates key)
    rw [h.classify_eq, h'.classify_eq, h.tryKeys_eq hlibrary, h'.tryKeys_eq hlibrary, hempty,
      search_congr hcandidates]
  · obtain ⟨r, -, heq⟩ := classify_refused h
    rw [heq library profiles' hlength hvalid, heq library profiles rfl Iff.rfl]

/-- The keys of a profile were changed, but not the set of them or their count past the limit. -/
def Profile.SameKeys (p p' : Profile) : Prop :=
  ∃ keys, p' = { p with keys } ∧ (∀ key, key ∈ keys ↔ key ∈ p.keys) ∧
    (keys.length ≤ maxProfileKeys ↔ p.keys.length ≤ maxProfileKeys)

theorem Profile.SameKeys.refl (p : Profile) : p.SameKeys p := ⟨p.keys, rfl, fun _ => Iff.rfl, Iff.rfl⟩

theorem Profile.SameKeys.valid {p p' : Profile} (h : p.SameKeys p') : p'.Valid ↔ p.Valid := by
  obtain ⟨keys, rfl, hmem, hlength⟩ := h
  have hcount : keys.length > maxProfileKeys ↔ p.keys.length > maxProfileKeys := by omega
  have hsized : keys.all (·.Sized) = p.keys.all (·.Sized) := by
    rw [Bool.eq_iff_iff, List.all_eq_true, List.all_eq_true]
    exact forall_congr' fun key => by rw [hmem key]
  simp only [Profile.Valid, hcount, hsized]

/-- A ring whose profiles hold the same keys classifies alike. -/
theorem classify_sameKeys (hlibrary : library.Total) {profiles' : List Profile}
    (h : List.Forall₂ Profile.SameKeys profiles profiles') :
    classifyMeshtastic library frame crc profiles' =
      classifyMeshtastic library frame crc profiles := by
  refine classify_congr hlibrary h.length_eq.symm ?_ fun key => ?_
  · induction h with
    | nil => rfl
    | cons hp _ ih => rw [List.forall_mem_cons, List.forall_mem_cons, ih, hp.valid]
  · induction h with
    | nil => rfl
    | cons hp _ ih =>
      obtain ⟨keys, rfl, hmem, -⟩ := hp
      rw [candidates, candidates, List.flatMap_cons, List.flatMap_cons, List.mem_append,
        List.mem_append]
      refine or_congr ?_ ih
      rw [List.mem_filter, List.mem_filter, hmem key]
      rfl

/-- **The keyring.** For a cipher that does not fail, the result does not change when the profiles
or the keys of a profile are permuted, or a key is repeated in a profile that is not at its limit.
Evidence stands for the one distinct eligible key of a frame whose keys are tried that gives a
plausible envelope, and an invalid profile anywhere withholds it. -/
theorem classify_keyring (hlibrary : library.Total) :
    (∀ profiles', profiles.Perm profiles' → classifyMeshtastic library frame crc profiles' =
      classifyMeshtastic library frame crc profiles) ∧
    (∀ profiles', List.Forall₂ (fun p p' => ∃ keys, p.keys.Perm keys ∧ p' = { p with keys })
        profiles profiles' → classifyMeshtastic library frame crc profiles' =
      classifyMeshtastic library frame crc profiles) ∧
    (∀ before p after first rest key, profiles = before ++ p :: after → p.keys = first ++ rest →
      key ∈ p.keys → p.keys.length ≠ maxProfileKeys →
      classifyMeshtastic library frame crc
          (before ++ { p with keys := first ++ key :: rest } :: after) =
        classifyMeshtastic library frame crc profiles) ∧
    ((classifyMeshtastic library frame crc profiles).evidence.isSome ↔
      Examined frame crc profiles ∧ ∃! key, (∃ p ∈ profiles, key ∈ p.keys ∧ Eligible frame p key) ∧
        (answer library frame key).isSome) ∧
    (∀ key key', key ≠ key' → (∃ p ∈ profiles, key ∈ p.keys ∧ Eligible frame p key) →
      (∃ p ∈ profiles, key' ∈ p.keys ∧ Eligible frame p key') →
      (answer library frame key).isSome → (answer library frame key').isSome →
      (classifyMeshtastic library frame crc profiles).evidence = none) ∧
    (crc = true → 17 ≤ frame.length → frame.length ≤ maxFrame → ∀ p ∈ profiles, ¬ p.Valid →
      classifyMeshtastic library frame crc profiles = { status := .invalidProfile }) := by
  have hevidence : (classifyMeshtastic library frame crc profiles).evidence.isSome ↔
      Examined frame crc profiles ∧ ∃! key, (∃ p ∈ profiles, key ∈ p.keys ∧ Eligible frame p key) ∧
        (answer library frame key).isSome := by
    simpa only [mem_candidates] using evidence_iff hlibrary
  refine ⟨fun profiles' hperm => ?_, fun profiles' hreordered => ?_, ?_, hevidence, ?_, ?_⟩
  -- The answer depends on the candidates as a set, and a permutation has the same ones.
  · refine classify_congr hlibrary hperm.length_eq.symm ?_ fun key => ?_
    · exact forall_congr' fun p => by rw [hperm.mem_iff]
    · simp only [mem_candidates, hperm.mem_iff]
  · refine classify_sameKeys hlibrary (hreordered.imp ?_)
    rintro p p' ⟨keys, hkeys, rfl⟩
    exact ⟨keys, rfl, fun key => hkeys.mem_iff.symm, by rw [hkeys.length_eq]⟩
  · rintro before p after first rest key rfl hkeys hmem hlimit
    refine classify_sameKeys hlibrary (List.rel_append ?_ (.cons ⟨_, rfl, fun key' => ?_, ?_⟩ ?_))
    · exact List.forall₂_same.mpr fun q _ => .refl q
    · rw [hkeys] at hmem ⊢
      simp only [List.mem_append, List.mem_cons] at hmem ⊢
      constructor
      · rintro (h | rfl | h)
        · exact .inl h
        · exact hmem
        · exact .inr h
      · rintro (h | h)
        · exact .inl h
        · exact .inr (.inr h)
    · rw [hkeys] at hlimit ⊢
      simp only [List.length_append, List.length_cons] at hlimit ⊢
      omega
    · exact List.forall₂_same.mpr fun q _ => .refl q
  · intro key key' hne hkey hkey' hsome hsome'
    by_contra hevidence'
    obtain ⟨-, k, -, hunique⟩ := hevidence.mp (Option.isSome_iff_ne_none.mpr hevidence')
    exact hne ((hunique key ⟨hkey, hsome⟩).trans (hunique key' ⟨hkey', hsome'⟩).symm)
  · intro hcrc h17 h255 p hp hinvalid
    have hany : profiles.any (¬ ·.Valid) = true := any_invalid.mpr fun hall => hinvalid (hall p hp)
    unfold classifyMeshtastic
    rw [if_neg (by rw [hcrc]; decide), if_neg (by omega), if_pos hany, ite_self]

/-! ## An empty traceroute -/

/-- The key of the bytes 0 to 15. -/
def surveyKey : ChannelKey := ⟨(List.range 16).map UInt8.ofNat, by decide⟩

/-- A profile that holds the key a number of times, for every channel. -/
def surveyProfile (n : ℕ) : Profile where
  id := ascii "survey"
  label := ascii "Survey"
  channelName := []
  keys := List.replicate n surveyKey
  restrictChannelName := false

/-- The envelope of an empty traceroute under the key, broadcast by the node 0x12345678. -/
def tracerouteFrame : List UInt8 :=
  [0xff, 0xff, 0xff, 0xff, 0x78, 0x56, 0x34, 0x12, 0x12, 0x34, 0x56, 0x78, 0x63, 0x69, 0, 0, 0x10,
    0x4d]

/-- The first two bytes of the AES-128-CTR stream of the frame, and its envelope. -/
def tracerouteLibrary : Library where
  aesCtr key nonce input :=
    if key = surveyKey.bytes ∧ nonce = meshtasticNonce 0x12345678 0x78563412 ∧ input.length = 2 then
      some (List.zipWith (· ^^^ ·) input [0x18, 0x0b])
    else some input
  decodeData bytes :=
    if bytes = [8, 70] then some { portnum := 70, payloadSize := 0, signatureSize := 0 } else none

theorem tracerouteLibrary_total : tracerouteLibrary.Total := by
  intro key nonce input _
  simp only [tracerouteLibrary]
  split
  · rename_i h
    exact ⟨_, rfl, by simp [h.2.2]⟩
  · exact ⟨_, rfl, rfl⟩

theorem surveyKey_unique : ∃! key,
    (∃ p ∈ [surveyProfile 1], key ∈ p.keys ∧ Eligible tracerouteFrame p key) ∧
      (answer tracerouteLibrary tracerouteFrame key).isSome := by
  refine ⟨surveyKey, ⟨⟨_, List.mem_singleton_self _, by decide, by decide⟩, by decide⟩, ?_⟩
  rintro key ⟨⟨p, hp, hkey, -⟩, -⟩
  rw [List.mem_singleton.mp hp] at hkey
  exact List.mem_singleton.mp hkey

/-- The frame leaves evidence. -/
theorem traceroute_evidence :
    (classifyMeshtastic tracerouteLibrary tracerouteFrame true [surveyProfile 1]).evidence.isSome :=
  (@classify_keyring _ tracerouteFrame true [surveyProfile 1] tracerouteLibrary_total).2.2.2.1.mpr
    ⟨⟨rfl, by decide, by decide, by decide, by decide, by decide, by decide⟩, surveyKey_unique⟩

/-- A key repeated past the limit of its profile changes the result, and a frame without a passing
integrity check leaves no evidence although one eligible key gives an envelope. -/
theorem keyring_limits :
    (classifyMeshtastic tracerouteLibrary tracerouteFrame true [surveyProfile 16]).evidence.isSome ∧
      classifyMeshtastic tracerouteLibrary tracerouteFrame true [surveyProfile 17] =
        { status := .invalidProfile } ∧
      (∃! key, (∃ p ∈ [surveyProfile 1], key ∈ p.keys ∧ Eligible tracerouteFrame p key) ∧
        (answer tracerouteLibrary tracerouteFrame key).isSome) ∧
      (classifyMeshtastic tracerouteLibrary tracerouteFrame false [surveyProfile 1]).evidence =
        none := by
  exact ⟨by decide, by decide, surveyKey_unique, by decide⟩

end Protocol

end OVMesh
