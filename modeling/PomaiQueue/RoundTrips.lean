import PomaiQueue.TornEvents
import PomaiQueue.Loading
/-!
# What is written is what is read

The two files of a group. `event_log_round_trip`: after any number of
`AppendTransition` calls that went through, `LoadTransitions` gives back the events
up to its bound. `snapshot_round_trip`: the file `PersistGroupState` wrote gives
`LoadGroupState` every entry back, and the messages it does not list keep the entry
they had before the file was read.
-/

namespace PomaiQueue.Engine

open Wire Posix Assoc Storage

/-! ## The event log -/

/-- Successive calls of `AppendTransition` that all returned Ok, from `fs` on. Each
call has its own group and its own circumstances, and between two calls anything
may happen to the other files. -/
inductive Appended (opts : EngineOptions) (q : Path) (g : CString) (fs : Fs) : List TransitionEvent → Fs → Prop
  | start : Appended opts q g fs [] fs
  | elsewhere {events : List TransitionEvent} {a b : Fs} (h : Appended opts q g fs events a)
      (hsame : b.disk (groupEventPath opts.data_dir q g) = a.disk (groupEventPath opts.data_dir q g)) :
      Appended opts q g fs events b
  | append {events : List TransitionEvent} {a b : Fs} (h : Appended opts q g fs events a) (env : Env)
      (group group' : ConsumerGroupState) (event : TransitionEvent)
      (hok : appendTransition env opts q g group event a = (.ok (), group', b)) :
      Appended opts q g fs (events ++ [event]) b

/-- A call that returns Ok has put the event behind the log. -/
theorem appendTransition_ok {env : Env} {opts : EngineOptions} {q : Path} {g : CString} {group group' : ConsumerGroupState}
    {event : TransitionEvent} {fs fs' : Fs} (h : appendTransition env opts q g group event fs = (.ok (), group', fs')) :
    fs'.disk (groupEventPath opts.data_dir q g) =
      some ((fs.disk (groupEventPath opts.data_dir q g)).getD [] ++ encodeEvent event) := by
  unfold appendTransition at h
  dsimp only at h
  split at h
  · simp [ioError] at h
  · split at h
    · simp [ioError] at h
    · split at h
      · simp [ioError] at h
      · split at h
        · simp [ioError] at h
        · obtain ⟨-, rfl⟩ := Prod.mk.inj (Prod.mk.inj h).2
          simp [exec]

theorem Appended.content {opts : EngineOptions} {q : Path} {g : CString} {fs fs' : Fs} {events : List TransitionEvent}
    (h : Appended opts q g fs events fs') (hnew : (fs.disk (groupEventPath opts.data_dir q g)).getD [] = []) :
    (fs'.disk (groupEventPath opts.data_dir q g)).getD [] = encodeEvents events := by
  induction h with
  | start => exact hnew
  | elsewhere _ hsame ih => rw [hsame, ih]
  | append _ env group group' event hok ih =>
    rw [appendTransition_ok hok, Option.getD_some, ih, encodeEvents_append, encodeEvents_singleton]

theorem filter_le_prefix {log : List TransitionEvent} (hs : log.Pairwise fun a b => a.sequence < b.sequence)
    (max_sequence : UInt64) : log.filter (·.sequence ≤ max_sequence) <+: log := by
  induction log with
  | nil => exact List.prefix_rfl
  | cons event log ih =>
    obtain ⟨hlt, hs'⟩ := List.pairwise_cons.1 hs
    by_cases h : event.sequence ≤ max_sequence
    · rw [List.filter_cons_of_pos (by simpa using h)]
      exact List.cons_prefix_cons.2 ⟨rfl, ih hs'⟩
    · -- The events behind one that is out of range are out of range too.
      have hnone : log.filter (·.sequence ≤ max_sequence) = [] := by
        rw [List.filter_eq_nil_iff]
        intro later hlater hle
        exact h (UInt64.le_trans (UInt64.le_of_lt (hlt later hlater)) (of_decide_eq_true hle))
      rw [List.filter_cons_of_neg (by simpa using h), hnone]
      exact List.nil_prefix

/-- The events that were appended to a log that was empty are read back up to any
bound, in their order. If their sequences increase that is a prefix of them. -/
theorem event_log_round_trip (opts : EngineOptions) (q : Path) (g : CString) (fs fs' : Fs) (events : List TransitionEvent)
    (hnew : (fs.disk (groupEventPath opts.data_dir q g)).getD [] = []) (h : Appended opts q g fs events fs')
    (io : Io) (hr : io.Reads) (max_sequence : UInt64) :
    loadTransitions io opts q g max_sequence fs' = .ok (events.filter (·.sequence ≤ max_sequence)) ∧
      ((events.Pairwise fun a b => a.sequence < b.sequence) → events.filter (·.sequence ≤ max_sequence) <+: events) :=
  ⟨loadTransitions_written hr (h.content hnew) max_sequence, fun hs => filter_le_prefix hs max_sequence⟩

/-- When nothing fails every list of events can be appended. -/
theorem appended_quiet {env : Env} (hq : env.toIo.Quiet) (opts : EngineOptions) (q : Path) (g : CString) (fs : Fs)
    (events : List TransitionEvent) : ∃ fs', Appended opts q g fs events fs' := by
  induction events using List.reverseRecOn with
  | nil => exact ⟨fs, .start⟩
  | append_singleton events event ih =>
    obtain ⟨fs', h⟩ := ih
    exact ⟨_, h.append env {} _ event (appendTransition_quiet hq opts q g {} event fs')⟩

/-- Two events with strings in them. -/
def twoEvents : List TransitionEvent :=
  [{ sequence := 1, state := .kInFlight, deadline_ms := 30, owner := ⟨ascii "worker", by decide⟩ },
    { sequence := 2, state := .kAcked, lease_token := ⟨ascii "0:7:1", by decide⟩, reason := .kAcked }]

theorem event_log_round_trip_two : ∃ fs', Appended {} (ascii "q") emptyString ⟨fun _ => none, []⟩ twoEvents fs' ∧
    loadTransitions {} {} (ascii "q") emptyString 1 fs' = .ok (twoEvents.filter (·.sequence ≤ 1)) ∧
    twoEvents.filter (·.sequence ≤ 1) <+: twoEvents := by
  have hquiet : ({} : Env).toIo.Quiet := quiet_default
  obtain ⟨fs', h⟩ := appended_quiet hquiet {} (ascii "q") emptyString ⟨fun _ => none, []⟩ twoEvents
  obtain ⟨hload, hprefix⟩ := event_log_round_trip {} (ascii "q") emptyString ⟨fun _ => none, []⟩ fs' twoEvents rfl h {}
    (fun _ => rfl) 1
  exact ⟨fs', h, hload, hprefix (by decide)⟩

/-! ## The snapshot -/

/-- A call that returns Ok has replaced the state file. -/
theorem persistGroupState_ok {env : Env} {opts : EngineOptions} {q : Path} {g : CString} {group : ConsumerGroupState}
    {fs fs' : Fs} (h : persistGroupState env opts q g group fs = (.ok (), fs')) :
    fs'.disk (groupStatePath opts.data_dir q g) = some (snapshotBytes env group) := by
  unfold persistGroupState at h
  split at h
  · simp [ioError] at h
  · exact durableWriteFile_ok h

/-- What loading a snapshot of `group` makes of the messages of a segment. -/
structure Restored (messages : List (UInt64 × Message)) (group loaded : ConsumerGroupState) : Prop where
  next_sequence : loaded.next_sequence = group.next_sequence
  /-- The ids of the group have the entries they had. -/
  listed : ∀ id rt, group.runtime.lookup id = some rt → loaded.runtime.lookup id = some rt
  /-- The other ids of the segment have the default entry of a record with that id. -/
  unlisted : ∀ om ∈ messages, group.runtime.lookup om.2.id = none → ∃ om' ∈ messages, om'.2.id = om.2.id ∧
    loaded.runtime.lookup om.2.id = some (defaultRuntime om'.1 om'.2.enqueue_ts)
  only : ∀ id rt, loaded.runtime.lookup id = some rt → ∃ om ∈ messages, om.2.id = id

/-- Let the ids of a group all be in the segment. The state file that was written for
it and no event log load as a group with the same entries, with default entries for
the other messages, and with the same next sequence. Then only the messages in flight
are made ready, and the ready queue is built. -/
theorem snapshot_round_trip (env env' : Env) (opts : EngineOptions) (q : Path) (g : CString) (group : ConsumerGroupState)
    (segment : SegmentLog) (fs written fs' : Fs) (messages : List (UInt64 × Message))
    (hreads : env'.toIo.Reads) (hsize : group.runtime.entries.length < 2 ^ 64)
    (hpersist : persistGroupState env opts q g group fs = (.ok (), written))
    (hstate : fs'.disk (groupStatePath opts.data_dir q g) = written.disk (groupStatePath opts.data_dir q g))
    (hevents : fs'.disk (groupEventPath opts.data_dir q g) = none)
    (hread : readMessages segment fs' segment.offsets = .ok messages)
    (hids : ∀ id ∈ group.runtime.keys, InSegment segment fs' id) :
    ∃ loaded, loadStateFile env'.toIo opts q g fs' (defaultGroup env' opts messages) = .ok loaded ∧ Restored messages group loaded ∧
      loadGroupState env' opts q g segment fs' =
        .ok (buildReadyQueue env' (recoverInflight (env'.now .loadGroupState) loaded)) := by
  have hsmall : (env.runtime_order.order group.runtime.entries).length < 2 ^ 64 := by
    rwa [(env.runtime_order.perm _).length_eq]
  have hfile : fs'.disk (groupStatePath opts.data_dir q g) =
      (some (⟨group.next_sequence, _, hsmall⟩ : StateFile)).map StateFile.bytes :=
    hstate.trans (persistGroupState_ok hpersist)
  have hlookup : ∀ id, (listedGroup (some ⟨group.next_sequence, _, hsmall⟩) (defaultGroup env' opts messages)).runtime.lookup id =
      ((defaultRuntimes (env'.offset_order.order messages) ∅).lookup id).map fun rt => (group.runtime.lookup id).getD rt := by
    intro id
    rw [lookup_listedGroup, ← lastListed_order env.runtime_order group.runtime]
    rfl
  refine ⟨_, loadStateFile_eq hreads hfile _, ⟨rfl, fun id rt hrt => ?_, fun om hom hnone => ?_, fun id rt hrt => ?_⟩, ?_⟩
  · have hkey : id ∈ (defaultGroup env' opts messages).runtime.keys :=
      (load_known hread id).2 (hids id ((mem_keys_iff _ _).2 ⟨rt, hrt⟩))
    obtain ⟨rt0, hrt0⟩ := (mem_keys_iff _ _).1 hkey
    have hrt0 : (defaultRuntimes (env'.offset_order.order messages) ∅).lookup id = some rt0 := hrt0
    rw [hlookup, hrt0, hrt]
    rfl
  · have hkey := mem_defaultRuntimes (env'.offset_order.order messages) ∅ om.2.id
      (.inr ⟨om, (env'.offset_order.mem _ _).2 hom, rfl⟩)
    obtain ⟨rt0, hrt0⟩ := (mem_keys_iff _ _).1 hkey
    obtain ⟨om', hom', hid, rfl⟩ := lookup_defaultRuntimes hrt0
    refine ⟨om', (env'.offset_order.mem _ _).1 hom', hid, ?_⟩
    rw [hlookup, hrt0, hnone]
    rfl
  · rw [hlookup, Option.map_eq_some_iff] at hrt
    obtain ⟨rt0, hrt0, -⟩ := hrt
    obtain ⟨om, hom, hid, -⟩ := lookup_defaultRuntimes hrt0
    exact ⟨om, (env'.offset_order.mem _ _).1 hom, hid⟩
  · exact loadGroupState_eq hreads hread hfile (loadTransitions_none hevents)

/-- A group in which message 7 is in flight for the second time. -/
def soleGroup : ConsumerGroupState where
  runtime := (∅ : Map MessageId MessageRuntime).insert ⟨0, 7⟩
    { state := .kInFlight, retry_count := 1, sequence := 3, last_transition_reason := reasonToString .kDelivered }
  next_sequence := 4

/-- The files after its snapshot was written. -/
def soleWritten : Fs := (persistGroupState {} {} (ascii "q") emptyString soleGroup (soleFs 0)).2

theorem snapshot_round_trip_sole : ∃ messages loaded,
    loadStateFile {} {} (ascii "q") emptyString soleWritten (defaultGroup {} {} messages) = .ok loaded ∧
    Restored messages soleGroup loaded ∧
    loadGroupState {} {} (ascii "q") emptyString soleSegment soleWritten =
      .ok (buildReadyQueue {} (recoverInflight 0 loaded)) := by
  have hquiet : ({} : Env).toIo.Quiet := quiet_default
  have hpersist : persistGroupState {} {} (ascii "q") emptyString soleGroup (soleFs 0) = (.ok (), soleWritten) := by
    rw [soleWritten, persistGroupState_quiet hquiet]
  have hreads : ((readMessages soleSegment soleWritten soleSegment.offsets).toOption).isSome = true := by decide +kernel
  have hid : (soleSegment.read soleWritten 0).toOption.map idOf = some ⟨0, 7⟩ := by decide +kernel
  obtain ⟨record, hrecord, hid⟩ := Option.map_eq_some_iff.1 hid
  obtain ⟨messages, hmessages⟩ := Option.isSome_iff_exists.1 hreads
  refine ⟨messages, snapshot_round_trip {} {} {} (ascii "q") emptyString soleGroup soleSegment (soleFs 0) soleWritten soleWritten
    messages (fun _ => rfl) (by decide) hpersist rfl (by decide +kernel) (ok_of_toOption hmessages) fun id hmem => ?_⟩
  obtain rfl : id = ⟨0, 7⟩ := by simpa [soleGroup] using hmem
  exact ⟨0, by decide +kernel, record, ok_of_toOption hrecord, hid⟩

end PomaiQueue.Engine
