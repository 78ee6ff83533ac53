import PomaiQueue.Model
/-!
# The event log

`<group>.events`: the bytes `AppendTransition` writes for an event and
`LoadTransitions`, which reads them back. The file has no framing beyond the
lengths of the two strings in each event.

`loadLoop_encode` is the round trip. A file that ends inside an event reads in
two ways: with fewer than eight bytes of it the loop stops as at the end of
the file (`loadLoop_short`), with more the log is corrupted (`loadLoop_torn`).
-/

namespace PomaiQueue.Engine

open Wire Posix Storage

/-- The writes after the sequence. -/
def encodeRest (event : TransitionEvent) : Bytes :=
  putU64 event.id.high ++ (putU64 event.id.low ++ (putU32 (encodeState event.state) ++
  (putU32 event.retry_count ++ (putU64 event.available_after_ms ++ (putU64 event.transition_ts ++
  (putU64 event.deadline_ms ++ (putU32 (encodeReason event.reason) ++
  (Reader.putSized event.owner ++ (Reader.putSized event.lease_token ++ [])))))))))

def encodeEvent (event : TransitionEvent) : Bytes := putU64 event.sequence ++ encodeRest event

/-- The reads of one round after the sequence. -/
def readEvent (sequence : UInt64) : Reader Failure TransitionEvent := do
  let high ← Reader.u64
  let low ← Reader.u64
  let state ← Reader.u32
  let retry_count ← Reader.u32
  let available_after_ms ← Reader.u64
  let transition_ts ← Reader.u64
  let deadline_ms ← Reader.u64
  let reason ← Reader.u32
  let owner ← Reader.sized .length_error
  let lease_token ← Reader.sized .length_error
  return { sequence, id := { high, low }, state := decodeState state, retry_count, available_after_ms, transition_ts,
           deadline_ms, owner, lease_token, reason := decodeReason reason }

/-- The loop. Every round but the last takes eight bytes at least, so one more
round than there are bytes is enough. -/
def loadLoop (max_sequence : UInt64) : Nat → IStream → StatusOr (List TransitionEvent)
  | 0, _ => .ok []
  | fuel + 1, s =>
    if s.eof then .ok []
    else if (s.read 8).2.eof then .ok []
    else
      match readEvent (getU64 (s.read 8).1) (s.read 8).2 with
      | .error e => .error e
      | .ok (event, s) =>
        if s.eof then corrupt "events corrupted"
        else
          match loadLoop max_sequence fuel s with
          | .error e => .error e
          | .ok events => .ok (if event.sequence ≤ max_sequence then event :: events else events)

/-- The events in a file with content `file`. -/
def readEvents (max_sequence : UInt64) (file : Bytes) : StatusOr (List TransitionEvent) :=
  loadLoop max_sequence (file.length + 1) ⟨file, false⟩

def loadTransitions (io : Io) (opts : EngineOptions) (queue_name : Path) (group_id : CString) (max_sequence : UInt64) (fs : Fs) :
    StatusOr (List TransitionEvent) :=
  let path := groupEventPath opts.data_dir queue_name group_id
  match fs.disk path with
  | none => .ok []
  | some file =>
    match io.unreadable path with
    | some .closed => ioError "open events failed"
    | some .failing => corrupt "events corrupted"
    | none => readEvents max_sequence file

/-- `UINT64_MAX`, the bound that lets every event through. -/
def allSequences : UInt64 := 0xFFFFFFFFFFFFFFFF

def encodeEvents (events : List TransitionEvent) : Bytes := events.flatMap encodeEvent

@[simp] theorem encodeEvents_nil : encodeEvents [] = [] := rfl

@[simp] theorem encodeEvents_append (a b : List TransitionEvent) :
    encodeEvents (a ++ b) = encodeEvents a ++ encodeEvents b := by
  simp [encodeEvents]

@[simp] theorem encodeEvents_singleton (event : TransitionEvent) : encodeEvents [event] = encodeEvent event := by
  simp [encodeEvents]

/-! ## Reading one event -/

theorem encodeEvent_length (event : TransitionEvent) : 8 ≤ (encodeEvent event).length := by
  rw [encodeEvent, List.length_append, putU64_length]
  omega

/-- What the bytes of an event say, with codes that nobody has checked. -/
structure RawEvent where
  sequence : UInt64
  high : UInt64
  low : UInt64
  state : UInt32
  retry_count : UInt32
  available_after_ms : UInt64
  transition_ts : UInt64
  deadline_ms : UInt64
  reason : UInt32
  owner : CString
  lease_token : CString

/-- The bytes after the sequence. -/
def RawEvent.rest (raw : RawEvent) : Bytes :=
  putU64 raw.high ++ (putU64 raw.low ++ (putU32 raw.state ++ (putU32 raw.retry_count ++
  (putU64 raw.available_after_ms ++ (putU64 raw.transition_ts ++ (putU64 raw.deadline_ms ++ (putU32 raw.reason ++
  (Reader.putSized raw.owner ++ (Reader.putSized raw.lease_token ++ [])))))))))

def RawEvent.bytes (raw : RawEvent) : Bytes := putU64 raw.sequence ++ raw.rest

/-- The event the codes are taken for. -/
def RawEvent.event (raw : RawEvent) : TransitionEvent where
  sequence := raw.sequence
  id := { high := raw.high, low := raw.low }
  state := decodeState raw.state
  retry_count := raw.retry_count
  available_after_ms := raw.available_after_ms
  transition_ts := raw.transition_ts
  deadline_ms := raw.deadline_ms
  owner := raw.owner
  lease_token := raw.lease_token
  reason := decodeReason raw.reason

/-- An event as it is written. -/
def TransitionEvent.raw (event : TransitionEvent) : RawEvent where
  sequence := event.sequence
  high := event.id.high
  low := event.id.low
  state := encodeState event.state
  retry_count := event.retry_count
  available_after_ms := event.available_after_ms
  transition_ts := event.transition_ts
  deadline_ms := event.deadline_ms
  reason := encodeReason event.reason
  owner := event.owner
  lease_token := event.lease_token

theorem TransitionEvent.bytes_raw (event : TransitionEvent) : event.raw.bytes = encodeEvent event := rfl

theorem TransitionEvent.event_raw (event : TransitionEvent) : event.raw.event = event := by
  simp [RawEvent.event, TransitionEvent.raw]

theorem readEvent_parses (raw : RawEvent) : Reader.Parses (readEvent raw.sequence) raw.rest raw.event := by
  unfold readEvent RawEvent.rest
  exact (Reader.parses_u64 _).bind ((Reader.parses_u64 _).bind ((Reader.parses_u32 _).bind
    ((Reader.parses_u32 _).bind ((Reader.parses_u64 _).bind ((Reader.parses_u64 _).bind ((Reader.parses_u64 _).bind
    ((Reader.parses_u32 _).bind ((Reader.parses_sized _ _).bind ((Reader.parses_sized _ _).bind
    (Reader.parses_pure raw.event))))))))))

theorem readEvent_tears (sequence : UInt64) (raw : RawEvent) : Reader.Tears (readEvent sequence) raw.rest := by
  unfold readEvent RawEvent.rest
  refine (Reader.tears_u64 _).bind fun _ => (Reader.tears_u64 _).bind fun _ => (Reader.tears_u32 _).bind fun _ =>
    (Reader.tears_u32 _).bind fun _ => (Reader.tears_u64 _).bind fun _ => (Reader.tears_u64 _).bind fun _ =>
    (Reader.tears_u64 _).bind fun _ => (Reader.tears_u32 _).bind fun _ => (Reader.tears_sized _ _).bind fun _ =>
    (Reader.tears_sized _ _).bind fun _ => Reader.tears_pure _

/-- Whatever is read comes from the bytes of an event with some codes. -/
theorem readEvent_takes (sequence : UInt64) :
    Reader.Takes (readEvent sequence) fun event f => ∃ raw : RawEvent,
      raw.sequence = sequence ∧ raw.event = event ∧ f = raw.rest := by
  unfold readEvent
  refine (Reader.takes_u64.bind fun high => Reader.takes_u64.bind fun low => Reader.takes_u32.bind fun state =>
    Reader.takes_u32.bind fun retry_count => Reader.takes_u64.bind fun available => Reader.takes_u64.bind fun ts =>
    Reader.takes_u64.bind fun deadline => Reader.takes_u32.bind fun reason => (Reader.takes_sized _).bind fun owner =>
    (Reader.takes_sized _).bind fun token => Reader.takes_pure _).mono ?_
  rintro event f ⟨high, _, _, rfl, ⟨low, _, _, rfl, ⟨state, _, _, rfl, ⟨retry_count, _, _, rfl, ⟨available, _, _, rfl,
    ⟨ts, _, _, rfl, ⟨deadline, _, _, rfl, ⟨reason, _, _, rfl, ⟨owner, _, _, rfl, ⟨token, _, _, rfl, ⟨rfl, rfl⟩,
    rfl⟩, rfl⟩, rfl⟩, rfl⟩, rfl⟩, rfl⟩, rfl⟩, rfl⟩, rfl⟩, rfl⟩
  exact ⟨⟨sequence, high, low, state, retry_count, available, ts, deadline, reason, owner, token⟩, rfl, rfl, rfl⟩

theorem readEvent_throws (sequence : UInt64) : Reader.Throws (readEvent sequence) .length_error := by
  unfold readEvent
  exact (Reader.throws_u64 _).bind fun _ => (Reader.throws_u64 _).bind fun _ => (Reader.throws_u32 _).bind fun _ =>
    (Reader.throws_u32 _).bind fun _ => (Reader.throws_u64 _).bind fun _ => (Reader.throws_u64 _).bind fun _ =>
    (Reader.throws_u64 _).bind fun _ => (Reader.throws_u32 _).bind fun _ => (Reader.throws_sized _).bind fun _ =>
    (Reader.throws_sized _).bind fun _ => Reader.throws_pure _ _

/-! ## Reading a file -/

/-- A round on eight bytes or more. -/
theorem loadLoop_round (max_sequence : UInt64) (fuel : Nat) (sequence : UInt64) (rest : Bytes) :
    loadLoop max_sequence (fuel + 1) ⟨putU64 sequence ++ rest, false⟩ =
      match readEvent sequence ⟨rest, false⟩ with
      | .error e => .error e
      | .ok (event, s) =>
        if s.eof then corrupt "events corrupted"
        else
          match loadLoop max_sequence fuel s with
          | .error e => .error e
          | .ok events => .ok (if event.sequence ≤ max_sequence then event :: events else events) := by
  have hread : IStream.read ⟨putU64 sequence ++ rest, false⟩ 8 = (putU64 sequence, ⟨rest, false⟩) :=
    IStream.read_append _ _ 8 (putU64_length _)
  conv_lhs => unfold loadLoop
  simp only [hread, getU64_putU64, Bool.false_eq_true, if_false]

/-- A whole event is read and counted if its sequence is in range. -/
theorem loadLoop_raw (max_sequence : UInt64) (fuel : Nat) (raw : RawEvent) (m : Bytes) :
    loadLoop max_sequence (fuel + 1) ⟨raw.bytes ++ m, false⟩ =
      (loadLoop max_sequence fuel ⟨m, false⟩).map fun events =>
        if raw.sequence ≤ max_sequence then raw.event :: events else events := by
  have hread : IStream.read ⟨raw.bytes ++ m, false⟩ 8 = (putU64 raw.sequence, ⟨raw.rest ++ m, false⟩) := by
    rw [RawEvent.bytes, List.append_assoc]
    exact IStream.read_append _ _ 8 (putU64_length _)
  have hev : readEvent raw.sequence ⟨raw.rest ++ m, false⟩ = .ok (raw.event, ⟨m, false⟩) := readEvent_parses raw m
  simp only [loadLoop, hread, getU64_putU64, hev, Bool.false_eq_true, if_false]
  cases loadLoop max_sequence fuel ⟨m, false⟩ <;> rfl

theorem loadLoop_event (max_sequence : UInt64) (fuel : Nat) (event : TransitionEvent) (m : Bytes) :
    loadLoop max_sequence (fuel + 1) ⟨encodeEvent event ++ m, false⟩ =
      (loadLoop max_sequence fuel ⟨m, false⟩).map fun events =>
        if event.sequence ≤ max_sequence then event :: events else events := by
  have h := loadLoop_raw max_sequence fuel event.raw m
  rwa [event.bytes_raw, event.event_raw] at h

/-- Fewer than eight bytes end the loop like the end of the file. -/
theorem loadLoop_short (max_sequence : UInt64) (fuel : Nat) (m : Bytes) (h : m.length < 8) :
    loadLoop max_sequence fuel ⟨m, false⟩ = .ok [] := by
  cases fuel with
  | zero => rfl
  | succ fuel =>
    have hread : IStream.read ⟨m, false⟩ 8 = (m, ⟨[], true⟩) := by simp [IStream.read, h]
    simp only [loadLoop, hread, Bool.false_eq_true, if_false, if_true]

/-- Eight bytes of an event or more, but not all of it, are a corrupted log. -/
theorem loadLoop_cut (max_sequence : UInt64) (fuel : Nat) (raw : RawEvent) (m : Bytes) (hm : m <+: raw.bytes)
    (h8 : 8 ≤ m.length) (hlt : m.length < raw.bytes.length) :
    loadLoop max_sequence (fuel + 1) ⟨m, false⟩ = corrupt "events corrupted" := by
  obtain ⟨u, hu⟩ := hm
  obtain ⟨m', rfl⟩ : putU64 raw.sequence <+: m :=
    List.prefix_of_prefix_length_le (List.prefix_append _ raw.rest) ⟨u, hu⟩ (by rw [putU64_length]; exact h8)
  rw [RawEvent.bytes, List.append_assoc, List.append_cancel_left_eq] at hu
  rw [RawEvent.bytes, List.length_append, List.length_append] at hlt
  have hread : IStream.read ⟨putU64 raw.sequence ++ m', false⟩ 8 = (putU64 raw.sequence, ⟨m', false⟩) :=
    IStream.read_append _ _ 8 (putU64_length _)
  have htorn : IStream.Torn ⟨m', false⟩ (raw.rest ++ []) := by
    rw [List.append_nil]
    exact .inr ⟨rfl, ⟨u, hu⟩, Nat.lt_of_add_lt_add_left hlt⟩
  obtain ⟨e, s, hev, hs⟩ := readEvent_tears raw.sequence raw _ _ htorn
  simp only [loadLoop, hread, getU64_putU64, hev, hs.eof, Bool.false_eq_true, if_false, if_true]

theorem loadLoop_torn (max_sequence : UInt64) (fuel : Nat) (event : TransitionEvent) (m : Bytes)
    (hm : m <+: encodeEvent event) (h8 : 8 ≤ m.length) (hlt : m.length < (encodeEvent event).length) :
    loadLoop max_sequence (fuel + 1) ⟨m, false⟩ = corrupt "events corrupted" :=
  loadLoop_cut max_sequence fuel event.raw m hm h8 hlt

/-- Whole events are read back, and then the rest of the file is read. -/
theorem loadLoop_encode (max_sequence : UInt64) (fuel : Nat) (events : List TransitionEvent) (m : Bytes) :
    loadLoop max_sequence (fuel + events.length) ⟨encodeEvents events ++ m, false⟩ =
      (loadLoop max_sequence fuel ⟨m, false⟩).map fun rest => events.filter (·.sequence ≤ max_sequence) ++ rest := by
  induction events with
  | nil =>
    simp only [encodeEvents_nil, List.nil_append, List.length_nil, Nat.add_zero, List.filter_nil]
    cases loadLoop max_sequence fuel ⟨m, false⟩ <;> rfl
  | cons event events ih =>
    have hfile : encodeEvents (event :: events) ++ m = encodeEvent event ++ (encodeEvents events ++ m) := by
      simp [encodeEvents]
    rw [hfile, List.length_cons, ← Nat.add_assoc, loadLoop_event, ih]
    cases loadLoop max_sequence fuel ⟨m, false⟩ with
    | error e => rfl
    | ok rest =>
      by_cases h : event.sequence ≤ max_sequence
      · simp [Except.map, h]
      · simp [Except.map, h]

theorem le_allSequences (x : UInt64) : x ≤ allSequences := by
  have := x.toNat_lt
  rw [UInt64.le_iff_toNat_le]
  exact Nat.le_of_lt_succ this

theorem encodeEvents_length_ge (events : List TransitionEvent) : 8 * events.length ≤ (encodeEvents events).length := by
  induction events with
  | nil => simp
  | cons event events ih =>
    have h := encodeEvent_length event
    have hc : encodeEvents (event :: events) = encodeEvent event ++ encodeEvents events := by simp [encodeEvents]
    rw [hc, List.length_append, List.length_cons]
    omega

/-- A file that starts with whole events. -/
theorem readEvents_encode (events : List TransitionEvent) (m : Bytes) :
    ∃ fuel, readEvents allSequences (encodeEvents events ++ m) =
      (loadLoop allSequences (fuel + 1) ⟨m, false⟩).map (events ++ ·) := by
  have hlen := encodeEvents_length_ge events
  obtain ⟨k, hk⟩ : ∃ k, (encodeEvents events ++ m).length = k + events.length :=
    ⟨(encodeEvents events ++ m).length - events.length, by rw [List.length_append]; omega⟩
  refine ⟨k, ?_⟩
  rw [readEvents, hk, show k + events.length + 1 = (k + 1) + events.length by omega, loadLoop_encode]
  have hall : events.filter (fun e => decide (e.sequence ≤ allSequences)) = events :=
    List.filter_eq_self.2 fun e _ => by simp [le_allSequences]
  rw [hall]

/-- The events that were written are the events that are read. -/
theorem readEvents_encodeEvents (events : List TransitionEvent) :
    readEvents allSequences (encodeEvents events) = .ok events := by
  obtain ⟨fuel, h⟩ := readEvents_encode events []
  rw [List.append_nil] at h
  rw [h, loadLoop_short _ _ _ (by simp)]
  simp [Except.map]

/-- No two lists of events are written the same. -/
theorem encodeEvents_injective {a b : List TransitionEvent} (h : encodeEvents a = encodeEvents b) : a = b := by
  have ha := readEvents_encodeEvents a
  rw [h, readEvents_encodeEvents] at ha
  exact (Except.ok.inj ha).symm

/-- Of a file of whole events those up to `max_sequence` are read. -/
theorem readEvents_until (max_sequence : UInt64) (events : List TransitionEvent) :
    readEvents max_sequence (encodeEvents events) = .ok (events.filter (·.sequence ≤ max_sequence)) := by
  have hlen := encodeEvents_length_ge events
  obtain ⟨k, hk⟩ : ∃ k, (encodeEvents events).length + 1 = (k + 1) + events.length :=
    ⟨(encodeEvents events).length - events.length, by omega⟩
  have hloop := loadLoop_encode max_sequence (k + 1) events []
  rw [List.append_nil, loadLoop_short max_sequence (k + 1) [] (by simp)] at hloop
  simp only [readEvents, hk, hloop, Except.map, List.append_nil]

theorem loadTransitions_congr (io : Io) {opts : EngineOptions} {q : Path} {g : CString} {fs fs' : Fs}
    (h : fs.disk (groupEventPath opts.data_dir q g) = fs'.disk (groupEventPath opts.data_dir q g)) (max_sequence : UInt64) :
    loadTransitions io opts q g max_sequence fs = loadTransitions io opts q g max_sequence fs' := by
  unfold loadTransitions
  simp only [h]

theorem loadTransitions_reads {io : Io} (hr : io.Reads) (opts : EngineOptions) (q : Path) (g : CString) (max_sequence : UInt64)
    (fs : Fs) :
    loadTransitions io opts q g max_sequence fs =
      match fs.disk (groupEventPath opts.data_dir q g) with
      | none => .ok []
      | some file => readEvents max_sequence file := by
  have hpath := hr (groupEventPath opts.data_dir q g)
  unfold loadTransitions
  simp only [hpath]

theorem loadTransitions_readable {io : Io} (hr : io.Reads) (opts : EngineOptions) (q : Path) (g : CString)
    (max_sequence : UInt64) (fs : Fs) :
    loadTransitions io opts q g max_sequence fs = loadTransitions {} opts q g max_sequence fs := by
  rw [loadTransitions_reads hr, loadTransitions_reads fun _ => rfl]

/-- What is loaded is what a process finds whose reads do not fail. -/
theorem loadTransitions_ok {io : Io} {opts : EngineOptions} {q : Path} {g : CString} {max_sequence : UInt64} {fs : Fs}
    {events : List TransitionEvent} (h : loadTransitions io opts q g max_sequence fs = .ok events) :
    loadTransitions {} opts q g max_sequence fs = .ok events := by
  rw [loadTransitions_reads fun _ => rfl]
  unfold loadTransitions at h
  dsimp only at h
  cases hdisk : fs.disk (groupEventPath opts.data_dir q g) with
  | none =>
    rw [hdisk] at h
    exact h
  | some file =>
    rw [hdisk] at h
    dsimp only at h
    split at h
    · cases h
    · cases h
    · exact h

/-- No file is a log without events. -/
theorem loadTransitions_written {io : Io} (hr : io.Reads) {opts : EngineOptions} {q : Path} {g : CString} {fs : Fs}
    {events : List TransitionEvent} (h : (fs.disk (groupEventPath opts.data_dir q g)).getD [] = encodeEvents events)
    (max_sequence : UInt64) :
    loadTransitions io opts q g max_sequence fs = .ok (events.filter (·.sequence ≤ max_sequence)) := by
  rw [loadTransitions_reads hr]
  cases hd : fs.disk (groupEventPath opts.data_dir q g) with
  | none =>
    rw [hd] at h
    have hnil : encodeEvents [] = encodeEvents events := h
    rw [← encodeEvents_injective hnil]
    rfl
  | some file =>
    rw [hd] at h
    obtain rfl : file = encodeEvents events := h
    exact readEvents_until max_sequence events

end PomaiQueue.Engine
