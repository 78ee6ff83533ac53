import PomaiQueue.Steps
/-!
# A torn event

A crash inside `AppendTransition` leaves a part of an event at the end of
`<group>.events`. Nothing ever cuts it off. With eight bytes or more of it there
the log is corrupted and the group does not load. With fewer it loads, but the
next event is appended behind the leftover bytes and is not read back as it was
written. `torn_harmless_iff`: only a crash that left nothing is harmless.
-/

namespace PomaiQueue.Engine

open Wire Posix Assoc Storage

/-- The files, with `content` as the group's event log. -/
def withEvents (opts : EngineOptions) (q : Path) (g : CString) (content : Bytes) (fs : Fs) : Fs :=
  { base := Function.update fs.disk (groupEventPath opts.data_dir q g) (some content) }

/-- Successive calls of `AppendTransition`. -/
def appendTransitions (env : Env) (opts : EngineOptions) (q : Path) (g : CString) :
    List TransitionEvent → ConsumerGroupState → Fs → ConsumerGroupState × Fs
  | [], group, fs => (group, fs)
  | event :: events, group, fs =>
    match appendTransition env opts q g group event fs with
    | (_, group, fs) => appendTransitions env opts q g events group fs

/-- Behind `events` the log ends in `torn`. The group loads as `group`, and what
is appended later is read back. -/
structure TornHarmless (env : Env) (opts : EngineOptions) (q : Path) (g : CString) (segment : SegmentLog) (fs : Fs)
    (events : List TransitionEvent) (torn : Bytes) (group : ConsumerGroupState) : Prop where
  load : loadGroupState env opts q g segment (withEvents opts q g (encodeEvents events ++ torn) fs) = .ok group
  later : ∀ (env' : Env) (later : List TransitionEvent), env'.toIo.Quiet →
    loadTransitions {} opts q g allSequences
      (appendTransitions env' opts q g later group (withEvents opts q g (encodeEvents events ++ torn) fs)).2 =
        .ok (events ++ later)

/-! ## What is in the log -/

theorem withEvents_disk (opts : EngineOptions) (q : Path) (g : CString) (content : Bytes) (fs : Fs) :
    (withEvents opts q g content fs).disk (groupEventPath opts.data_dir q g) = some content :=
  Function.update_self _ _ _

theorem loadTransitions_of_disk {opts : EngineOptions} {q : Path} {g : CString} {fs : Fs} {content : Bytes}
    (h : fs.disk (groupEventPath opts.data_dir q g) = some content) :
    loadTransitions {} opts q g allSequences fs = readEvents allSequences content := by
  rw [loadTransitions_reads fun _ => rfl, h]

theorem appendTransitions_disk {env : Env} (hq : env.toIo.Quiet) (opts : EngineOptions) (q : Path) (g : CString)
    (events : List TransitionEvent) (group : ConsumerGroupState) (fs : Fs) (content : Bytes)
    (h : fs.disk (groupEventPath opts.data_dir q g) = some content) :
    (appendTransitions env opts q g events group fs).2.disk (groupEventPath opts.data_dir q g) =
      some (content ++ encodeEvents events) := by
  induction events generalizing group fs content with
  | nil => simpa [appendTransitions] using h
  | cons event events ih =>
    simp only [appendTransitions, appendTransition_quiet hq]
    rw [ih _ _ (content ++ encodeEvent event)]
    · simp [encodeEvents]
    · simp [Fs.disk_after, exec, h, Act.calls, groupFiles]

/-! ## The two ways to go wrong -/

/-- The first event that is read has the first eight bytes as its sequence. -/
theorem readEvent_sequence {sequence : UInt64} {s s' : IStream} {event : TransitionEvent}
    (h : readEvent sequence s = .ok (event, s')) : event.sequence = sequence := by
  unfold readEvent at h
  obtain ⟨_, _, -, h⟩ := Reader.bind_ok h
  obtain ⟨_, _, -, h⟩ := Reader.bind_ok h
  obtain ⟨_, _, -, h⟩ := Reader.bind_ok h
  obtain ⟨_, _, -, h⟩ := Reader.bind_ok h
  obtain ⟨_, _, -, h⟩ := Reader.bind_ok h
  obtain ⟨_, _, -, h⟩ := Reader.bind_ok h
  obtain ⟨_, _, -, h⟩ := Reader.bind_ok h
  obtain ⟨_, _, -, h⟩ := Reader.bind_ok h
  obtain ⟨_, _, -, h⟩ := Reader.bind_ok h
  obtain ⟨_, _, -, h⟩ := Reader.bind_ok h
  have := Except.ok.inj h
  rw [← (Prod.mk.inj this).1]

theorem loadLoop_head {fuel : Nat} {s : IStream} {event : TransitionEvent} {events : List TransitionEvent}
    (h : loadLoop allSequences (fuel + 1) s = .ok (event :: events)) : event.sequence = getU64 (s.read 8).1 := by
  unfold loadLoop at h
  split at h
  · cases h
  · split at h
    · cases h
    · split at h
      · cases h
      · rename_i event' s' hev
        split at h
        · cases h
        · split at h
          · cases h
          · rw [if_pos (le_allSequences _)] at h
            obtain ⟨rfl, -⟩ := List.cons.inj (Except.ok.inj h)
            exact readEvent_sequence hev

/-- An event whose sequence does not start with the byte `b`. -/
def otherEvent (b : UInt8) : TransitionEvent := { sequence := (b + 1).toUInt64 }

theorem getU64_cons_mod (b : UInt8) (bs : Bytes) : (getU64 (b :: bs)).toNat % 256 = b.toNat := by
  have hb := b.toNat_lt
  have h : (getU64 (b :: bs)).toNat = (b.toNat + 256 * leNat bs) % 2 ^ 64 := UInt64.toNat_ofNat'
  rw [h, Nat.mod_mod_of_dvd _ (by decide : 256 ∣ 2 ^ 64)]
  omega

/-- An event behind leftover bytes is not read back. -/
theorem garbled_event (events : List TransitionEvent) (b : UInt8) (torn : Bytes) :
    readEvents allSequences (encodeEvents events ++ (b :: torn) ++ encodeEvents [otherEvent b]) ≠
      .ok (events ++ [otherEvent b]) := by
  intro h
  rw [List.append_assoc] at h
  obtain ⟨fuel, heq⟩ := readEvents_encode events ((b :: torn) ++ encodeEvents [otherEvent b])
  rw [heq] at h
  cases hloop : loadLoop allSequences (fuel + 1) ⟨(b :: torn) ++ encodeEvents [otherEvent b], false⟩ with
  | error e => rw [hloop] at h; cases h
  | ok read =>
    rw [hloop] at h
    have hread : read = [otherEvent b] := List.append_cancel_left (Except.ok.inj h)
    subst hread
    have hseq := loadLoop_head hloop
    have hfirst : ∃ bs, (IStream.read ⟨(b :: torn) ++ encodeEvents [otherEvent b], false⟩ 8).1 = b :: bs := by
      unfold IStream.read
      simp only [Bool.false_eq_true, if_false]
      split
      · exact ⟨_, rfl⟩
      · exact ⟨_, rfl⟩
    obtain ⟨bs, hbs⟩ := hfirst
    rw [hbs] at hseq
    have hmod := getU64_cons_mod b bs
    rw [← hseq] at hmod
    have hnext : (otherEvent b).sequence.toNat = (b.toNat + 1) % 256 := by
      simp [otherEvent]
    have hb := b.toNat_lt
    omega

/-- Any bytes of an event that is not whole do harm. -/
theorem torn_damages (env : Env) (opts : EngineOptions) (q : Path) (g : CString) (segment : SegmentLog) (fs : Fs)
    (events : List TransitionEvent) (event : TransitionEvent) (torn : Bytes) (group : ConsumerGroupState)
    (hpre : torn <+: encodeEvent event) (hlt : torn.length < (encodeEvent event).length) (hne : torn ≠ []) :
    ¬ TornHarmless env opts q g segment fs events torn group := by
  intro h
  by_cases h8 : 8 ≤ torn.length
  · -- The load fails.
    obtain ⟨_, _, read, -, -, hload, -⟩ := loadGroupState_ok h.load
    obtain ⟨fuel, heq⟩ := readEvents_encode events torn
    rw [loadTransitions_of_disk (withEvents_disk _ _ _ _ _), heq, loadLoop_torn _ _ event torn hpre h8 hlt] at hload
    cases hload
  · -- The load goes through, and the next event is garbled.
    obtain ⟨b, bs, rfl⟩ := List.exists_cons_of_ne_nil hne
    have hquiet : ({} : Env).toIo.Quiet := quiet_default
    have hlater := h.later {} [otherEvent b] hquiet
    rw [loadTransitions_of_disk (appendTransitions_disk hquiet _ _ _ _ _ _ _ (withEvents_disk _ _ _ _ _))] at hlater
    exact garbled_event events b bs hlater

/-- The bytes an event write left when the process died do no harm exactly if
there are none. -/
theorem torn_harmless_iff (env : Env) (opts : EngineOptions) (q : Path) (g : CString) (segment : SegmentLog) (fs : Fs)
    (events : List TransitionEvent) (event : TransitionEvent) (torn : Bytes) (group : ConsumerGroupState)
    (hpre : torn <+: encodeEvent event) (hlt : torn.length < (encodeEvent event).length)
    (hload : loadGroupState env opts q g segment (withEvents opts q g (encodeEvents events) fs) = .ok group) :
    TornHarmless env opts q g segment fs events torn group ↔ torn = [] := by
  constructor
  · intro h
    by_contra hne
    exact torn_damages env opts q g segment fs events event torn group hpre hlt hne h
  · rintro rfl
    refine ⟨by rw [List.append_nil]; exact hload, fun env' later hq => ?_⟩
    rw [loadTransitions_of_disk (appendTransitions_disk hq _ _ _ _ _ _ _ (withEvents_disk _ _ _ _ _)), List.append_nil,
      ← encodeEvents_append, readEvents_encodeEvents]

/-- An empty segment, no file but the event log, and one event in it. -/
def oneEvent : List TransitionEvent := [{ sequence := 1 }]

def emptySegment : SegmentLog := { path := ascii "seg", fsync_policy := .kNever, fd := some 0 }

theorem oneEvent_loads :
    ∃ group, loadGroupState {} {} (ascii "q") emptyString emptySegment
      (withEvents {} (ascii "q") emptyString (encodeEvents oneEvent) ⟨fun _ => none, []⟩) = .ok group := by
  have hok : (loadGroupState {} {} (ascii "q") emptyString emptySegment
      (withEvents {} (ascii "q") emptyString (encodeEvents oneEvent) ⟨fun _ => none, []⟩)).isOk = true := by
    decide +kernel
  cases h : loadGroupState {} {} (ascii "q") emptyString emptySegment
      (withEvents {} (ascii "q") emptyString (encodeEvents oneEvent) ⟨fun _ => none, []⟩) with
  | error e => rw [h] at hok; cases hok
  | ok group => exact ⟨group, rfl⟩

theorem torn_harmless_nothing_left :
    ∃ group, TornHarmless {} {} (ascii "q") emptyString emptySegment ⟨fun _ => none, []⟩ oneEvent [] group := by
  obtain ⟨group, hload⟩ := oneEvent_loads
  exact ⟨group, (torn_harmless_iff {} {} (ascii "q") emptyString emptySegment ⟨fun _ => none, []⟩ oneEvent {} [] group
    List.nil_prefix (by decide) hload).2 rfl⟩

/-- Eight bytes of a second event. -/
theorem torn_event_locks_group :
    ∃ group, loadGroupState {} {} (ascii "q") emptyString emptySegment
        (withEvents {} (ascii "q") emptyString (encodeEvents oneEvent) ⟨fun _ => none, []⟩) = .ok group ∧
      ¬ TornHarmless {} {} (ascii "q") emptyString emptySegment ⟨fun _ => none, []⟩ oneEvent
        ((encodeEvent { sequence := 2 }).take 8) group := by
  obtain ⟨group, hload⟩ := oneEvent_loads
  exact ⟨group, hload, torn_damages {} {} (ascii "q") emptyString emptySegment ⟨fun _ => none, []⟩ oneEvent
    { sequence := 2 } _ group (List.take_prefix _ _) (by decide) (by decide)⟩

end PomaiQueue.Engine
