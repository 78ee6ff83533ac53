import Mathlib.Data.List.Induction
import PomaiQueue.Operations
/-!
# Replaying events

What `ApplyTransition` does to the runtime and inflight maps, once and over a
whole log: an entry of the runtime map ends up as the last event for its id
left it (`lookup_replay`), and an id is in flight exactly if that event delivered
it (`inflight_replay`). From this, what `LoadGroupState` builds.
-/

namespace PomaiQueue.Engine

open Wire Posix Assoc Storage

/-- The last event for `id`. -/
def lastEvent (log : List TransitionEvent) (id : MessageId) : Option TransitionEvent :=
  log.foldl (fun last event => if event.id = id then some event else last) none

@[simp] theorem lastEvent_nil (id : MessageId) : lastEvent [] id = none := rfl

theorem lastEvent_concat (log : List TransitionEvent) (event : TransitionEvent) (id : MessageId) :
    lastEvent (log ++ [event]) id = if event.id = id then some event else lastEvent log id := by
  simp [lastEvent]

theorem lastEvent_mem {log : List TransitionEvent} {id : MessageId} {event : TransitionEvent}
    (h : lastEvent log id = some event) : event ∈ log ∧ event.id = id := by
  induction log using List.reverseRecOn with
  | nil => cases h
  | append_singleton log e ih =>
    rw [lastEvent_concat] at h
    split at h
    · rename_i he
      obtain rfl := Option.some.inj h
      exact ⟨by simp, he⟩
    · exact ⟨List.mem_append_left _ (ih h).1, (ih h).2⟩

/-- A runtime entry after the last event for its id, if there is one. -/
def MessageRuntime.restored (rt : MessageRuntime) (last : Option TransitionEvent) : MessageRuntime :=
  last.elim rt rt.after

theorem MessageRuntime.after_restored (rt : MessageRuntime) (last : Option TransitionEvent) (event : TransitionEvent) :
    (rt.restored last).after event = rt.after event := by
  cases last <;> rfl

/-! ## One event -/

/-- The inflight entry an event leaves. -/
def leaseOf (opts : EngineOptions) (event : TransitionEvent) (offset : UInt64) : InflightEntry where
  offset := offset
  deadline_ms := event.deadline_ms
  bucket_tick := event.deadline_ms / opts.tickMs
  owner := event.owner
  lease_token := event.lease_token

section apply

variable (env : Env) (opts : EngineOptions) (group : ConsumerGroupState) (event : TransitionEvent)

theorem scheduleInflight_fields (id : MessageId) (deadline offset : UInt64) (owner token : CString) :
    (scheduleInflight env opts group id deadline owner token offset).runtime = group.runtime ∧
    (scheduleInflight env opts group id deadline owner token offset).inflight =
      group.inflight.insert id ⟨offset, deadline, deadline / opts.tickMs, owner, token⟩ ∧
    (scheduleInflight env opts group id deadline owner token offset).next_sequence = group.next_sequence := by
  unfold scheduleInflight
  cases group.deadline_wheel.isEmpty with
  | true => exact ⟨rfl, rfl, rfl⟩
  | false => exact ⟨rfl, rfl, rfl⟩

/-- What an event does to a group that knows its id. -/
theorem applyTransition_some {rt : MessageRuntime} (h : group.runtime.lookup event.id = some rt) :
    (applyTransition env opts group event).runtime = adjust event.id (·.after event) group.runtime ∧
    (applyTransition env opts group event).inflight =
      (if event.state = .kInFlight then
        (group.inflight.erase event.id).insert event.id (leaseOf opts event rt.offset)
      else group.inflight.erase event.id) ∧
    (applyTransition env opts group event).next_sequence = group.next_sequence := by
  simp only [applyTransition, h]
  split
  · exact scheduleInflight_fields env opts _ event.id event.deadline_ms rt.offset event.owner event.lease_token
  · exact ⟨rfl, rfl, rfl⟩

theorem applyTransition_none (h : group.runtime.lookup event.id = none) :
    applyTransition env opts group event = group := by
  simp only [applyTransition, h]

@[simp] theorem applyTransition_next : (applyTransition env opts group event).next_sequence = group.next_sequence := by
  cases h : group.runtime.lookup event.id with
  | none => rw [applyTransition_none _ _ _ _ h]
  | some rt => exact (applyTransition_some env opts group event h).2.2

@[simp] theorem applyTransition_keys : (applyTransition env opts group event).runtime.keys = group.runtime.keys := by
  cases h : group.runtime.lookup event.id with
  | none => rw [applyTransition_none _ _ _ _ h]
  | some rt => rw [(applyTransition_some env opts group event h).1, adjust_keys]

theorem lookup_applyTransition (id : MessageId) :
    (applyTransition env opts group event).runtime.lookup id =
      if id = event.id then (group.runtime.lookup id).map (·.after event) else group.runtime.lookup id := by
  cases h : group.runtime.lookup event.id with
  | none =>
    rw [applyTransition_none _ _ _ _ h]
    split
    · rename_i hid
      rw [hid, h]
      rfl
    · rfl
  | some rt => rw [(applyTransition_some env opts group event h).1, lookup_adjust]

theorem inflight_applyTransition_ne {id : MessageId} (hid : id ≠ event.id) :
    (applyTransition env opts group event).inflight.lookup id = group.inflight.lookup id := by
  cases h : group.runtime.lookup event.id with
  | none => rw [applyTransition_none _ _ _ _ h]
  | some rt =>
    rw [(applyTransition_some env opts group event h).2.1]
    split
    · rw [AList.lookup_insert_ne hid, AList.lookup_erase_ne hid]
    · rw [AList.lookup_erase_ne hid]

theorem inflight_applyTransition_self {rt : MessageRuntime} (h : group.runtime.lookup event.id = some rt) :
    (applyTransition env opts group event).inflight.lookup event.id =
      if event.state = .kInFlight then some (leaseOf opts event rt.offset) else none := by
  rw [(applyTransition_some env opts group event h).2.1]
  split
  · rw [AList.lookup_insert]
  · rw [AList.lookup_erase]

end apply

/-! ## A whole log -/

section replay

variable (env : Env) (opts : EngineOptions)

theorem replay_concat (log : List TransitionEvent) (event : TransitionEvent) (group : ConsumerGroupState) :
    replay env opts (log ++ [event]) group =
      { applyTransition env opts (replay env opts log group) event with
        next_sequence := if (replay env opts log group).next_sequence < event.sequence + 1 then event.sequence + 1
          else (replay env opts log group).next_sequence } := by
  simp only [replay, List.foldl_append, List.foldl_cons, List.foldl_nil, applyTransition_next]

@[simp] theorem replay_keys (log : List TransitionEvent) (group : ConsumerGroupState) :
    (replay env opts log group).runtime.keys = group.runtime.keys := by
  induction log using List.reverseRecOn with
  | nil => rfl
  | append_singleton log event ih =>
    rw [replay_concat, ← ih]
    exact applyTransition_keys _ _ _ _

theorem lookup_replay (log : List TransitionEvent) (group : ConsumerGroupState) (id : MessageId) :
    (replay env opts log group).runtime.lookup id =
      (group.runtime.lookup id).map (·.restored (lastEvent log id)) := by
  induction log using List.reverseRecOn with
  | nil => cases h : group.runtime.lookup id <;> simp [replay, h, MessageRuntime.restored]
  | append_singleton log event ih =>
    have happly := lookup_applyTransition env opts (replay env opts log group) event id
    rw [replay_concat]
    apply happly.trans
    rw [ih, lastEvent_concat]
    by_cases hid : id = event.id
    · rw [if_pos hid, if_pos hid.symm, Option.map_map]
      congr 1
      funext rt
      exact MessageRuntime.after_restored rt _ event
    · rw [if_neg hid, if_neg (Ne.symm hid)]

theorem inflight_replay (log : List TransitionEvent) (group : ConsumerGroupState) (hempty : group.inflight = ∅)
    (id : MessageId) :
    (replay env opts log group).inflight.lookup id =
      (group.runtime.lookup id).bind fun rt => (lastEvent log id).bind fun event =>
        if event.state = .kInFlight then some (leaseOf opts event rt.offset) else none := by
  induction log using List.reverseRecOn with
  | nil => cases h : group.runtime.lookup id <;> simp [replay, hempty]
  | append_singleton log event ih =>
    rw [replay_concat, lastEvent_concat]
    by_cases hid : event.id = id
    · subst hid
      rw [if_pos rfl]
      have hrt := lookup_replay env opts log group event.id
      cases h : group.runtime.lookup event.id with
      | none =>
        rw [h] at hrt ih
        exact (congrArg (fun g => g.inflight.lookup event.id) (applyTransition_none env opts _ event hrt)).trans ih
      | some rt =>
        rw [h] at hrt
        apply (inflight_applyTransition_self env opts _ event hrt).trans
        cases lastEvent log event.id <;> rfl
    · rw [if_neg hid, ← ih]
      exact inflight_applyTransition_ne env opts _ event (Ne.symm hid)

end replay

/-! ## Loading -/

theorem readMessages_ok {segment : SegmentLog} {fs : Fs} {offsets : List UInt64} {messages : List (UInt64 × Message)}
    (h : readMessages segment fs offsets = .ok messages) :
    ∀ om ∈ messages, om.1 ∈ offsets ∧
      ∃ record, segment.read fs om.1 = .ok record ∧ idOf record = om.2.id ∧ record.header.enqueue_ts = om.2.enqueue_ts := by
  induction offsets generalizing messages with
  | nil =>
    obtain rfl := Except.ok.inj h
    simp
  | cons offset offsets ih =>
    unfold readMessages at h
    split at h
    · cases h
    · rename_i record hrec
      split at h
      · cases h
      · rename_i rest hrest
        obtain rfl := Except.ok.inj h
        intro om hom
        rcases List.mem_cons.1 hom with rfl | hom
        · exact ⟨List.mem_cons_self, record, hrec, rfl, rfl⟩
        · obtain ⟨hmem, hr⟩ := ih hrest om hom
          exact ⟨List.mem_cons_of_mem _ hmem, hr⟩

/-- Every record that can be read is among the messages. -/
theorem readMessages_mem {segment : SegmentLog} {fs : Fs} {offsets : List UInt64} {messages : List (UInt64 × Message)}
    (h : readMessages segment fs offsets = .ok messages) {off : UInt64} (hoff : off ∈ offsets) {record : Record}
    (hread : segment.read fs off = .ok record) :
    (off, ({ id := idOf record, enqueue_ts := record.header.enqueue_ts } : Message)) ∈ messages := by
  induction offsets generalizing messages with
  | nil => cases hoff
  | cons offset offsets ih =>
    unfold readMessages at h
    split at h
    · cases h
    · rename_i record' hrec
      split at h
      · cases h
      · rename_i rest hrest
        obtain rfl := Except.ok.inj h
        rcases List.mem_cons.1 hoff with rfl | hoff
        · rw [hread] at hrec
          obtain rfl := Except.ok.inj hrec
          exact List.mem_cons_self
        · exact List.mem_cons_of_mem _ (ih hrest hoff)

/-- Every entry of the default map is some message's. -/
theorem lookup_defaultRuntimes {messages : List (UInt64 × Message)} {id : MessageId} {rt : MessageRuntime}
    (h : (defaultRuntimes messages ∅).lookup id = some rt) :
    ∃ om ∈ messages, om.2.id = id ∧ rt = defaultRuntime om.1 om.2.enqueue_ts :=
  lookup_fill h

theorem mem_defaultRuntimes (messages : List (UInt64 × Message)) (runtime : Map MessageId MessageRuntime) (id : MessageId)
    (h : id ∈ runtime.keys ∨ ∃ om ∈ messages, om.2.id = id) : id ∈ (defaultRuntimes messages runtime).keys :=
  (mem_fill messages runtime id).2 h

theorem loadItems_keys {count : Nat} {s : IStream} {runtime runtime' : Map MessageId MessageRuntime}
    (h : loadItems count s runtime = .ok runtime') : runtime'.keys = runtime.keys := by
  induction count generalizing s runtime with
  | zero => rw [← Except.ok.inj h]
  | succ count ih =>
    rw [loadItems_succ] at h
    split at h
    · cases h
    · split at h
      · cases h
      · rw [ih h, adjust_keys]

theorem loadStateFile_congr (io : Io) {opts : EngineOptions} {q : Path} {g : CString} {fs fs' : Fs}
    (h : fs.disk (groupStatePath opts.data_dir q g) = fs'.disk (groupStatePath opts.data_dir q g)) (group : ConsumerGroupState) :
    loadStateFile io opts q g fs group = loadStateFile io opts q g fs' group := by
  unfold loadStateFile
  simp only [h]

theorem loadStateFile_reads {io : Io} (hr : io.Reads) (opts : EngineOptions) (q : Path) (g : CString) (fs : Fs)
    (group : ConsumerGroupState) :
    loadStateFile io opts q g fs group =
      match fs.disk (groupStatePath opts.data_dir q g) with
      | none => .ok group
      | some file => loadSnapshot file group := by
  have hpath := hr (groupStatePath opts.data_dir q g)
  unfold loadStateFile
  dsimp only
  cases fs.disk (groupStatePath opts.data_dir q g) with
  | none => rfl
  | some file => simp only [hpath]

/-- What is loaded is what a process finds whose reads do not fail. -/
theorem loadStateFile_readable {io : Io} {opts : EngineOptions} {q : Path} {g : CString} {fs : Fs} {group base : ConsumerGroupState}
    (h : loadStateFile io opts q g fs group = .ok base) : loadStateFile {} opts q g fs group = .ok base := by
  rw [loadStateFile_reads fun _ => rfl]
  unfold loadStateFile at h
  dsimp only at h
  cases hdisk : fs.disk (groupStatePath opts.data_dir q g) with
  | none =>
    rw [hdisk] at h
    exact h
  | some file =>
    rw [hdisk] at h
    dsimp only at h
    split at h
    · cases h
    · cases h
    · exact h

/-- The snapshot changes the values of the runtime map and the next sequence only. -/
theorem loadStateFile_ok {io : Io} {opts : EngineOptions} {q : Path} {g : CString} {fs : Fs} {group base : ConsumerGroupState}
    (h : loadStateFile io opts q g fs group = .ok base) :
    base.runtime.keys = group.runtime.keys ∧ base.inflight = group.inflight := by
  replace h := loadStateFile_readable h
  rw [loadStateFile_reads fun _ => rfl] at h
  split at h
  · obtain rfl := Except.ok.inj h
    exact ⟨rfl, rfl⟩
  · unfold loadSnapshot at h
    dsimp only at h
    split at h
    · cases h
    · split at h
      · cases h
      · rename_i runtime hitems
        obtain rfl := Except.ok.inj h
        exact ⟨loadItems_keys hitems, rfl⟩

/-- The group before any of its files is read. -/
def defaultGroup (env : Env) (opts : EngineOptions) (messages : List (UInt64 × Message)) : ConsumerGroupState :=
  { initScheduler env opts {} with runtime := defaultRuntimes (env.offset_order.order messages) ∅ }

/-- What a load that goes through has read and built. -/
theorem loadGroupState_ok {env : Env} {opts : EngineOptions} {q : Path} {g : CString} {segment : SegmentLog} {fs : Fs}
    {group : ConsumerGroupState} (h : loadGroupState env opts q g segment fs = .ok group) :
    ∃ messages base events, readMessages segment fs segment.offsets = .ok messages ∧
      loadStateFile {} opts q g fs (defaultGroup env opts messages) = .ok base ∧
      loadTransitions {} opts q g allSequences fs = .ok events ∧
      group = buildReadyQueue env (recoverInflight (env.now .loadGroupState) (replay env opts events base)) := by
  unfold loadGroupState at h
  dsimp only at h
  split at h
  · cases h
  · rename_i messages hmsgs
    split at h
    · cases h
    · rename_i base hbase
      split at h
      · cases h
      · rename_i events hevents
        exact ⟨messages, base, events, hmsgs, loadStateFile_readable hbase, loadTransitions_ok hevents, (Except.ok.inj h).symm⟩

/-- `id` is the id of a record of the segment. -/
def InSegment (segment : SegmentLog) (fs : Fs) (id : MessageId) : Prop :=
  ∃ off ∈ segment.offsets, ∃ record, segment.read fs off = .ok record ∧ idOf record = id

/-- The runtime map of a loaded group has the ids of the segment. -/
theorem load_known {env : Env} {opts : EngineOptions} {messages : List (UInt64 × Message)} {segment : SegmentLog} {fs : Fs}
    (hm : readMessages segment fs segment.offsets = .ok messages) (id : MessageId) :
    id ∈ (defaultGroup env opts messages).runtime.keys ↔ InSegment segment fs id := by
  constructor
  · intro h
    obtain ⟨rt, hrt⟩ := (mem_keys_iff _ _).1 h
    obtain ⟨om, hom, rfl, -⟩ := lookup_defaultRuntimes hrt
    obtain ⟨hoff, record, hread, hid, -⟩ := readMessages_ok hm om ((env.offset_order.mem _ _).1 hom)
    exact ⟨om.1, hoff, record, hread, hid⟩
  · rintro ⟨off, hoff, record, hread, rfl⟩
    exact mem_defaultRuntimes _ _ _ (.inr ⟨_, (env.offset_order.mem _ _).2 (readMessages_mem hm hoff hread), rfl⟩)

end PomaiQueue.Engine
