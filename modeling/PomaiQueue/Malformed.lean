import PomaiQueue.EventLog
/-!
# Event logs that nobody wrote

What `LoadTransitions` makes of any bytes. It looks for the end of the file in
two places and at no code, so it only notices a log that ends inside an event,
eight bytes behind its start at least (`CutInside`, `loadLoop_corrupt_iff`).
Fewer bytes than eight at the end, unknown codes and lengths that no string can
have get past it.
-/

namespace PomaiQueue.Engine

open Wire Posix Storage

/-- A concatenation of events that `AppendTransition` can write. -/
def Written (file : Bytes) : Prop :=
  ∃ events : List TransitionEvent, (∀ event ∈ events, encodeReason event.reason < 8) ∧ file = encodeEvents events

def rawLog (raws : List RawEvent) : Bytes := raws.flatMap RawEvent.bytes

/-- Whole events, with any codes, and then eight bytes of another one or more,
but not all of it. -/
def CutInside (file : Bytes) : Prop :=
  ∃ (raws : List RawEvent) (raw : RawEvent) (part : Bytes), file = rawLog raws ++ part ∧ part <+: raw.bytes ∧
    8 ≤ part.length ∧ part.length < raw.bytes.length

theorem RawEvent.bytes_length (raw : RawEvent) : 8 ≤ raw.bytes.length := by
  rw [RawEvent.bytes, List.length_append, putU64_length]
  omega

theorem CutInside.cons {file : Bytes} (h : CutInside file) (raw : RawEvent) : CutInside (raw.bytes ++ file) := by
  obtain ⟨raws, last, part, rfl, hpart⟩ := h
  exact ⟨raw :: raws, last, part, by simp [rawLog], hpart⟩

/-- With enough rounds, a log is found corrupted if it ends inside an event. -/
theorem loadLoop_corrupt_of_cut (max_sequence : UInt64) {file : Bytes} (h : CutInside file) {fuel : Nat} (hfuel : file.length < fuel) :
    loadLoop max_sequence fuel ⟨file, false⟩ = corrupt "events corrupted" := by
  obtain ⟨raws, raw, part, rfl, hpart, h8, hlt⟩ := h
  induction raws generalizing fuel with
  | nil =>
    obtain ⟨n, rfl⟩ := Nat.exists_eq_add_of_lt hfuel
    exact loadLoop_cut _ _ raw part hpart h8 hlt
  | cons first raws ih =>
    have hlen := first.bytes_length
    have hfile : rawLog (first :: raws) ++ part = first.bytes ++ (rawLog raws ++ part) := by simp [rawLog]
    rw [hfile, List.length_append] at hfuel
    obtain ⟨n, rfl⟩ := Nat.exists_eq_add_of_lt hfuel
    rw [hfile, loadLoop_raw, ih (by omega)]
    rfl

/-- And only then. -/
theorem cut_of_loadLoop_corrupt (max_sequence : UInt64) (fuel : Nat) (file : Bytes) (message : String)
    (h : loadLoop max_sequence fuel ⟨file, false⟩ = corrupt message) : CutInside file := by
  induction fuel generalizing file with
  | zero => cases h
  | succ fuel ih =>
    by_cases h8 : file.length < 8
    · rw [loadLoop_short _ _ _ h8] at h
      cases h
    · obtain ⟨sequence, rest, rfl⟩ : ∃ sequence rest, file = putU64 sequence ++ rest :=
        ⟨getU64 (file.take 8), file.drop 8, by
          rw [putU64_getU64 (by rw [List.length_take]; omega), List.take_append_drop]⟩
      rw [loadLoop_round] at h
      cases hr : readEvent sequence ⟨rest, false⟩ with
      | error e =>
        -- Only a length that is too large stops the reads, and that is not reported.
        rw [readEvent_throws sequence _ _ hr] at hr
        rw [hr] at h
        cases h
      | ok result =>
        obtain ⟨event, s⟩ := result
        rw [hr] at h
        rcases (readEvent_takes sequence).takes _ _ _ hr with
          ⟨he, f, ⟨raw, rfl, -, rfl⟩, hrest⟩ | ⟨-, -, f, ⟨raw, rfl, -, rfl⟩, ⟨u, hu⟩, hlt⟩
        · obtain ⟨rest', eof'⟩ := s
          dsimp only at he hrest
          subst he hrest
          rw [← List.append_assoc]
          refine CutInside.cons (ih rest' ?_) raw
          cases hl : loadLoop max_sequence fuel ⟨rest', false⟩ with
          | error e => simpa [hl] using h
          | ok events => simp [hl, corrupt] at h
        · refine ⟨[], raw, putU64 raw.sequence ++ rest, rfl, ⟨u, ?_⟩, ?_, ?_⟩
          · rw [RawEvent.bytes, List.append_assoc, hu]
          · rw [List.length_append, putU64_length]
            exact Nat.le_add_right _ _
          · rw [RawEvent.bytes, List.length_append, List.length_append]
            omega

theorem readEvents_corrupt_iff (max_sequence : UInt64) (file : Bytes) :
    (∃ message, readEvents max_sequence file = corrupt message) ↔ CutInside file := by
  constructor
  · rintro ⟨message, h⟩
    exact cut_of_loadLoop_corrupt _ _ _ message h
  · intro h
    exact ⟨_, loadLoop_corrupt_of_cut max_sequence h (Nat.lt_succ_self _)⟩

/-- For every file: bytes that are not a log of events make `LoadTransitions`
return kCorruption exactly if they end inside an event. -/
theorem malformed_events_rejected (io : Io) (hr : io.Reads) (opts : EngineOptions) (q : Path) (g : CString) (max_sequence : UInt64)
    (fs : Fs) (file : Bytes) (hfile : fs.disk (groupEventPath opts.data_dir q g) = some file) :
    (¬ Written file → ∃ message, loadTransitions io opts q g max_sequence fs = corrupt message) ↔
      (Written file ∨ CutInside file) := by
  rw [loadTransitions_reads hr, hfile, readEvents_corrupt_iff]
  constructor
  · intro h
    by_cases hw : Written file
    · exact .inl hw
    · exact .inr (h hw)
  · rintro (hw | hc) hn
    · exact absurd hw hn
    · exact hc

theorem not_written_nine : ¬ Written (List.replicate 9 0) := by
  rintro ⟨events, -, h⟩
  have hlen := congrArg List.length h
  cases events with
  | nil => cases h
  | cons event events =>
    have hc : encodeEvents (event :: events) = encodeEvent event ++ encodeEvents events := by simp [encodeEvents]
    rw [hc, encodeEvent, encodeRest] at hlen
    simp only [List.length_append, List.length_replicate, putU64_length] at hlen
    omega

/-- A log that holds nine bytes of an event. -/
theorem nine_bytes_rejected :
    ¬ Written (List.replicate 9 0) ∧ ∃ message, loadTransitions {} {} [113] emptyString allSequences
      { base := fun _ => some (List.replicate 9 0) } = corrupt message := by
  refine ⟨not_written_nine, ?_⟩
  refine (malformed_events_rejected {} (fun _ => rfl) {} [113] emptyString allSequences _ (List.replicate 9 0) rfl).2
    (.inr ?_) not_written_nine
  exact ⟨[], TransitionEvent.raw {}, List.replicate 9 0, rfl, by decide, by decide, by decide⟩

/-- A log of one byte is taken for an empty one. -/
theorem one_byte_accepted : ¬ Written [7] ∧
    loadTransitions {} {} [113] emptyString allSequences { base := fun _ => some [7] } = .ok [] := by
  refine ⟨?_, by decide⟩
  rintro ⟨events, -, h⟩
  have hlen := encodeEvents_length_ge events
  rw [← h, List.length_singleton] at hlen
  obtain rfl : events = [] := List.eq_nil_of_length_eq_zero (by omega)
  cases h

end PomaiQueue.Engine
