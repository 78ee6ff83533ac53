import PomaiQueue.StaleAnswers
/-!
# Operations that fail

`Consume`, `Ack` and `Nack` append their event, change the group and then replace
the snapshot, and can return an error after each of these. `commit_cases` says
what an error leaves behind: nothing if no byte of the event was written,
and a longer log in every other case.
-/

namespace PomaiQueue.Engine

open Wire Posix Assoc Storage

/-! ## What the system does with a transition -/

section faults

variable (env : Env) (opts : EngineOptions) (q : Path) (g : CString)

/-- No byte of the event gets to the log. -/
def NoByte (event : TransitionEvent) : Prop :=
  env.failpoint = some .before_log_append ∨ env.refused (encodeEvent event) = true ∨
    env.fault (.append (groupEventPath opts.data_dir q g) (encodeEvent event)) = some 0

/-- The log can be opened and takes the whole event. -/
structure LogWorks (event : TransitionEvent) : Prop where
  before : env.failpoint ≠ some .before_log_append
  behind : env.failpoint ≠ some .after_log_append
  opens : env.refused (encodeEvent event) = false
  append : env.fault (.append (groupEventPath opts.data_dir q g) (encodeEvent event)) = none

/-- The file and its directory are synced. -/
structure SyncWorks (path : Path) : Prop where
  file_point : env.failpoint ≠ some .fsync_file
  file : env.fault (.fsync (tmpPath path)) = none
  dir_point : env.failpoint ≠ some .fsync_dir
  dir : env.fault (.fsyncDir (parentPath path)) = none

/-- The snapshot is written, synced and renamed. -/
structure SnapshotWorks (data : Bytes) : Prop where
  point : env.failpoint ≠ some .before_checkpoint_rename
  trunc : env.fault (.trunc (tmpPath (groupStatePath opts.data_dir q g))) = none
  write : env.fault (.write (tmpPath (groupStatePath opts.data_dir q g)) 0 data) = none
  rename : env.fault (.rename (tmpPath (groupStatePath opts.data_dir q g)) (groupStatePath opts.data_dir q g)) = none
  sync : opts.fsync_policy ≠ .kNever → SyncWorks env (groupStatePath opts.data_dir q g)

/-- The event is logged, and so is the snapshot of the group with it applied. -/
def Through (group : ConsumerGroupState) (event : TransitionEvent) : Prop :=
  LogWorks env opts q g event ∧ SnapshotWorks env opts q g (snapshotBytes env (applyTransition env opts group event))

end faults

theorem LogWorks.not_noByte {env : Env} {opts : EngineOptions} {q : Path} {g : CString} {event : TransitionEvent}
    (h : LogWorks env opts q g event) : ¬ NoByte env opts q g event := by
  rintro (hp | hf | ha)
  · exact h.before hp
  · rw [h.opens] at hf
    cases hf
  · rw [h.append] at ha
    cases ha

theorem durableRename_ok_iff (io : Io) (path : Path) (policy : FsyncPolicy) (fs : Fs) :
    (∃ u, (durableRename io (tmpPath path) path policy fs).1 = .ok u) ↔
      io.fault (.rename (tmpPath path) path) = none ∧
        (policy ≠ .kNever → io.failpoint ≠ some .fsync_file ∧ io.fault (.fsync (tmpPath path)) = none ∧
          io.failpoint ≠ some .fsync_dir ∧ io.fault (.fsyncDir (parentPath path)) = none) := by
  unfold durableRename fsyncFile
  by_cases hpol : policy = .kNever
  · subst hpol
    cases io.fault (.rename (tmpPath path) path) with
    | some n => simp [ioError]
    | none => simp
  · by_cases hp : io.failpoint = some .fsync_file
    · cases io.fault (.fsync (tmpPath path)) with
      | some n => cases n <;> simp [hpol, hp, ioError]
      | none => simp [hpol, hp, ioError]
    · cases io.fault (.fsync (tmpPath path)) with
      | some n => cases n <;> simp [hpol, hp, ioError]
      | none =>
        cases io.fault (.rename (tmpPath path) path) with
        | some n => simp [hpol, hp, ioError]
        | none =>
          simp only [ne_eq, hpol, not_false_eq_true, if_true, reduceCtorEq, if_false, hp, Option.isSome_none,
            Bool.false_eq_true, fsyncDir]
          split
          · rename_i hd
            simp [ioError, hd]
          · rename_i hd
            cases io.fault (.fsyncDir (parentPath path)) with
            | some n => cases n <;> simp [ioError]
            | none => simp [hd]

variable (env : Env) (opts : EngineOptions) (q : Path) (g : CString)

theorem persistGroupState_ok_iff (group : ConsumerGroupState) (fs : Fs) :
    (∃ u, (persistGroupState env opts q g group fs).1 = .ok u) ↔ SnapshotWorks env opts q g (snapshotBytes env group) := by
  unfold persistGroupState durableWriteFile
  by_cases hp : env.failpoint = some .before_checkpoint_rename
  · simp only [hp, if_true, ioError]
    constructor
    · rintro ⟨u, hu⟩
      cases hu
    · intro h
      exact absurd hp h.point
  simp only [hp, if_false]
  cases ht : env.fault (.trunc (tmpPath (groupStatePath opts.data_dir q g))) with
  | some n =>
    obtain ⟨err, herr⟩ := openError_error (α := Unit) n "open durable tmp failed"
    dsimp only
    rw [herr]
    constructor
    · rintro ⟨u, hu⟩
      cases hu
    · intro h
      rw [h.trunc] at ht
      cases ht
  | none =>
    dsimp only
    cases hw : env.fault (.write (tmpPath (groupStatePath opts.data_dir q g)) 0 (snapshotBytes env group)) with
    | some n =>
      simp only [ioError]
      constructor
      · rintro ⟨u, hu⟩
        cases hu
      · intro h
        rw [h.write] at hw
        cases hw
    | none =>
      dsimp only
      rw [durableRename_ok_iff]
      constructor
      · rintro ⟨hr, hs⟩
        refine ⟨hp, ht, hw, hr, fun hpol => ?_⟩
        obtain ⟨h1, h2, h3, h4⟩ := hs hpol
        exact ⟨h1, h2, h3, h4⟩
      · intro h
        refine ⟨h.rename, fun hpol => ?_⟩
        have hs := h.sync hpol
        exact ⟨hs.file_point, hs.file, hs.dir_point, hs.dir⟩

/-- Writing a snapshot leaves the log alone. -/
theorem persistGroupState_events (group : ConsumerGroupState) (fs : Fs) :
    (persistGroupState env opts q g group fs).2.content (groupEventPath opts.data_dir q g) =
      fs.content (groupEventPath opts.data_dir q g) := by
  have hfiles := (groupFiles opts.data_dir q g).apart
  unfold persistGroupState
  split
  · rfl
  obtain ⟨calls, hcalls, hor⟩ := durableWriteFile_cases env.toIo env.spills
    (if env.early then some "write group state failed" else none) (groupStatePath opts.data_dir q g)
    (snapshotBytes env group) opts.fsync_policy fs
  have hspares : ∀ c ∈ calls, c.Spares (groupEventPath opts.data_dir q g) := by
    rcases hor with ⟨-, hc⟩ | ⟨post, rfl, hpost⟩
    · exact hc _ hfiles.2
    · intro c hm
      rcases List.mem_append.1 hm with hm | hm
      · exact tmpCalls_spares hfiles.2 _ _ _ c hm
      · rcases List.mem_cons.1 hm with rfl | hm
        · exact ⟨hfiles.2, hfiles.1⟩
        · obtain ⟨dir, rfl⟩ := hpost c hm
          trivial
  rw [hcalls, Fs.content, Fs.disk_after, foldl_spares hspares, Fs.content]

/-! ## What a failed transition leaves -/

theorem content_appended (fs : Fs) (path : Path) (data : Bytes) :
    ((fs.call (.creat path)).call (.append path data)).content path = fs.content path ++ data := by
  simp [Fs.content, exec]

/-- An event is appended without trace, or with some of its bytes, or as a whole. -/
theorem appendTransition_cases (group : ConsumerGroupState) (event : TransitionEvent) (fs : Fs) :
    (NoByte env opts q g event ∧ ∃ err fs', appendTransition env opts q g group event fs = (.error err, group, fs') ∧
        fs'.content (groupEventPath opts.data_dir q g) = fs.content (groupEventPath opts.data_dir q g)) ∨
      (¬ NoByte env opts q g event ∧ ¬ LogWorks env opts q g event ∧
        ∃ err fs', appendTransition env opts q g group event fs = (.error err, group, fs') ∧
          (fs.content (groupEventPath opts.data_dir q g)).length <
            (fs'.content (groupEventPath opts.data_dir q g)).length) ∨
      (LogWorks env opts q g event ∧
        ∃ fs', appendTransition env opts q g group event fs = (.ok (), applyTransition env opts group event, fs') ∧
          (fs.content (groupEventPath opts.data_dir q g)).length <
            (fs'.content (groupEventPath opts.data_dir q g)).length) := by
  have hlen := encodeEvent_length event
  unfold appendTransition NoByte
  by_cases hp : env.failpoint = some .before_log_append
  · exact .inl ⟨.inl hp, _, fs, by simp only [hp, if_true]; rfl, rfl⟩
  by_cases hf : env.refused (encodeEvent event) = true
  · exact .inl ⟨.inr (.inl hf), _, fs, by simp only [hp, hf, if_true, if_false]; rfl, rfl⟩
  simp only [hp, hf, if_false, false_or, Bool.false_eq_true]
  cases hw : env.fault (.append (groupEventPath opts.data_dir q g) (encodeEvent event)) with
  | some n =>
    cases n with
    | zero => exact .inl ⟨rfl, _, _, rfl, by rw [content_appended]; simp⟩
    | succ n =>
      refine .inr (.inl ⟨by simp, fun h => ?_, _, _, rfl, ?_⟩)
      · rw [h.append] at hw
        cases hw
      · rw [content_appended, List.length_append, List.length_take]
        omega
  | none =>
    have hgrow : (fs.content (groupEventPath opts.data_dir q g)).length <
        (((fs.call (.creat (groupEventPath opts.data_dir q g))).call
          (.append (groupEventPath opts.data_dir q g) (encodeEvent event))).content
          (groupEventPath opts.data_dir q g)).length := by
      rw [content_appended, List.length_append]
      omega
    by_cases hl : env.failpoint = some .after_log_append
    · refine .inr (.inl ⟨by simp, fun h => h.behind hl, _, _, by simp only [hl, if_true]; rfl, hgrow⟩)
    · refine .inr (.inr ⟨⟨hp, hl, by simpa using hf, hw⟩, _, by simp only [hl, if_false], hgrow⟩)

/-- A transition fails without trace, or with a longer log, or goes through. -/
theorem commit_cases (group : ConsumerGroupState) (event : TransitionEvent) (rebuild : Bool) (fs : Fs) :
    (NoByte env opts q g event ∧ ¬ Through env opts q g group event ∧
        ∃ err fs', commit env opts q g group event rebuild fs = (.error err, group, fs') ∧
          fs'.content (groupEventPath opts.data_dir q g) = fs.content (groupEventPath opts.data_dir q g)) ∨
      (¬ NoByte env opts q g event ∧ ¬ Through env opts q g group event ∧
        ∃ err group' fs', commit env opts q g group event rebuild fs = (.error err, group', fs') ∧
          (fs.content (groupEventPath opts.data_dir q g)).length <
            (fs'.content (groupEventPath opts.data_dir q g)).length) ∨
      (Through env opts q g group event ∧
        ∃ group' fs', commit env opts q g group event rebuild fs = (.ok (), group', fs')) := by
  unfold commit
  rcases appendTransition_cases env opts q g group event fs with ⟨hno, err, fs', heq, hsame⟩ | ⟨hno, hlog, err, fs', heq, hgrow⟩ |
    ⟨hlog, fs', heq, hgrow⟩
  · rw [heq]
    exact .inl ⟨hno, fun h => h.1.not_noByte hno, err, fs', rfl, hsame⟩
  · rw [heq]
    exact .inr (.inl ⟨hno, fun h => hlog h.1, err, group, fs', rfl, hgrow⟩)
  · rw [heq]
    dsimp only
    -- Rebuilding the ready queue changes nothing the snapshot holds.
    have hbytes : snapshotBytes env (if rebuild then buildReadyQueue env (applyTransition env opts group event)
        else applyTransition env opts group event) = snapshotBytes env (applyTransition env opts group event) := by
      cases rebuild <;> rfl
    generalize (if rebuild then buildReadyQueue env (applyTransition env opts group event)
        else applyTransition env opts group event) = group' at hbytes ⊢
    have hok := persistGroupState_ok_iff env opts q g group' fs'
    have hev := persistGroupState_events env opts q g group' fs'
    rw [hbytes] at hok
    generalize persistGroupState env opts q g group' fs' = persisted at hok hev ⊢
    obtain ⟨result, fs''⟩ := persisted
    cases result with
    | error e =>
      refine .inr (.inl ⟨hlog.not_noByte, fun h => ?_, e, group', fs'', rfl, by rw [hev]; exact hgrow⟩)
      obtain ⟨u, hu⟩ := hok.2 h.2
      cases hu
    | ok u => exact .inr (.inr ⟨⟨hlog, hok.1 ⟨u, rfl⟩⟩, group', fs'', rfl⟩)

/-! ## Failed operations -/

/-- The messages, the leases and the log are the same. -/
structure Keeps (events : Path) (a : ConsumerGroupState × Fs) (b : ConsumerGroupState × Fs) : Prop where
  runtime : b.1.runtime = a.1.runtime
  inflight : b.1.inflight = a.1.inflight
  events : b.2.content events = a.2.content events

theorem Keeps.not_longer {events : Path} {a b : ConsumerGroupState × Fs} (h : Keeps events a b) :
    ¬ (a.2.content events).length < (b.2.content events).length := by
  rw [h.events]
  exact Nat.lt_irrefl _

/-- The group and the files before the operation's own transition: `Consume` reaps first. -/
def beforeTransition (op : GroupOp) (group : ConsumerGroupState) (fs : Fs) : ConsumerGroupState × Fs :=
  match op with
  | .consume => reapExpiredInflight env opts q g group fs
  | _ => (group, fs)

/-- If the transition was not stopped before the log, it leaves no byte there or goes through. -/
def CommitsCleanly (group : ConsumerGroupState) (event : TransitionEvent) : Prop :=
  NoByte env opts q g event ∨ Through env opts q g (bump group) event

/-- The delivery of `record`. An id without an entry has been given one when the event is made. -/
def DeliversCleanly (offset : UInt64) (record : Record) (group : ConsumerGroupState) : Prop :=
  match group.runtime.lookup (idOf record) with
  | some rt => env.failpoint = some .before_lease_issue ∨
      CommitsCleanly env opts q g group (deliverEvent opts g (env.now .consume) group.next_sequence (idOf record) rt)
  | none =>
    let created := createdRuntime (env.now .runtimeCreated) offset record.header.enqueue_ts
    env.failpoint ≠ some .before_lease_issue ∧
      Through env opts q g (bump { group with runtime := group.runtime.insert (idOf record) created })
        (deliverEvent opts g (env.now .consume) group.next_sequence (idOf record) created)

def OpFailsCleanly (op : GroupOp) (segment : SegmentLog) (group : ConsumerGroupState) (fs : Fs) : Prop :=
  match op with
  | .consume =>
    match reapExpiredInflight env opts q g group fs with
    | (group, fs) => group.inflight.entries.length < opts.max_inflight.toNat →
        ∀ offset offsets record, group.ready_offsets = offset :: offsets → segment.read fs offset = .ok record →
          DeliversCleanly env opts q g offset record { group with ready_offsets := offsets }
  | .ack id => ∀ rt, (group.inflight.lookup id).isSome → group.runtime.lookup id = some rt →
      env.failpoint = some .before_ack_transition ∨
        CommitsCleanly env opts q g group (ackEvent (env.now .ack) group.next_sequence id rt)
  | .nack id requeue => ∀ rt, (group.inflight.lookup id).isSome → group.runtime.lookup id = some rt →
      let event := nackEvent opts (env.now .nack) (env.now .nackBackoff) group.next_sequence id rt requeue
      (event.state = .kDead ∧ env.failpoint = some .before_dlq_move) ∨ CommitsCleanly env opts q g group event
  | .getStats => True

/-- An error of the operation leaves `a` as it was. -/
def ErrorKeeps {α : Type} (events : Path) (a : ConsumerGroupState × Fs) (out : StatusOr α × ConsumerGroupState × Fs) : Prop :=
  ∀ err, out.1 = .error err → Keeps events a out.2

theorem errorKeeps_error {α : Type} {events : Path} {a : ConsumerGroupState × Fs} {err : Failure}
    {b : ConsumerGroupState × Fs} : ErrorKeeps (α := α) events a (.error err, b) ↔ Keeps events a b :=
  ⟨fun h => h err rfl, fun h _ _ => h⟩

theorem commit_errorKeeps_iff (group : ConsumerGroupState) (event : TransitionEvent) (rebuild : Bool) (fs : Fs) :
    ErrorKeeps (groupEventPath opts.data_dir q g) (group, fs) (commit env opts q g (bump group) event rebuild fs) ↔
      CommitsCleanly env opts q g group event := by
  unfold CommitsCleanly
  rcases commit_cases env opts q g (bump group) event rebuild fs with
    ⟨hno, -, err, fs', heq, hsame⟩ | ⟨hno, hth, err, group', fs', heq, hgrow⟩ | ⟨hth, group', fs', heq⟩
  · rw [heq, errorKeeps_error]
    exact iff_of_true ⟨rfl, rfl, hsame⟩ (.inl hno)
  · rw [heq, errorKeeps_error]
    exact iff_of_false (fun h => h.not_longer hgrow) (not_or_intro hno hth)
  · rw [heq]
    exact iff_of_true (fun err herr => by cases herr) (.inr hth)

theorem insert_ne_self {m : Map MessageId MessageRuntime} {id : MessageId} (rt : MessageRuntime)
    (h : m.lookup id = none) : m.insert id rt ≠ m := by
  intro heq
  have hl := AList.lookup_insert (b := rt) (a := id) m
  rw [heq, h] at hl
  cases hl

theorem deliver_errorKeeps_iff (offset : UInt64) (record : Record) (group : ConsumerGroupState) (fs : Fs) :
    ErrorKeeps (groupEventPath opts.data_dir q g) (group, fs) (deliver env opts q g offset record group fs) ↔
      DeliversCleanly env opts q g offset record group := by
  unfold DeliversCleanly
  by_cases hp : env.failpoint = some .before_lease_issue
  · simp only [deliver, hp, if_true, ioError, errorKeeps_error]
    cases hrt : group.runtime.lookup (idOf record) with
    | some rt => exact iff_of_true ⟨rfl, rfl, rfl⟩ (.inl trivial)
    | none => exact iff_of_false (fun h => insert_ne_self _ hrt h.runtime) (fun h => h.1 rfl)
  · cases hrt : group.runtime.lookup (idOf record) with
    | some rt =>
      rw [@deliver_eq env opts q g offset record group group rt fs hp (by rw [hrt]; rfl) (by rw [hrt]; rfl)]
      simp only [hp, false_or, ← commit_errorKeeps_iff env opts q g group _ false fs]
      generalize commit env opts q g (bump group) _ false fs = committed
      obtain ⟨result, after⟩ := committed
      cases result with
      | error err => simp only [errorKeeps_error]
      | ok u => exact iff_of_true (fun err herr => by cases herr) (fun err herr => by cases herr)
    | none =>
      let created := createdRuntime (env.now .runtimeCreated) offset record.header.enqueue_ts
      let met := { group with runtime := group.runtime.insert (idOf record) created }
      rw [@deliver_eq env opts q g offset record group met created fs hp (by rw [hrt]; rfl) (by rw [hrt]; rfl)]
      simp only [hp, not_false_eq_true, true_and, ne_eq]
      rcases commit_cases env opts q g (bump met)
          (deliverEvent opts g (env.now .consume) met.next_sequence (idOf record) created) false fs with
        ⟨-, hth, err, fs', heq, -⟩ | ⟨-, hth, err, group', fs', heq, hgrow⟩ | ⟨hth, group', fs', heq⟩
      · -- The entry stays although nothing was logged.
        rw [heq, errorKeeps_error]
        exact iff_of_false (fun h => insert_ne_self _ hrt h.runtime) hth
      · rw [heq, errorKeeps_error]
        exact iff_of_false (fun h => h.not_longer hgrow) hth
      · rw [heq]
        exact iff_of_true (fun err herr => by cases herr) hth

theorem errorKeeps_map {α β : Type} {events : Path} {a : ConsumerGroupState × Fs} (f : α → β)
    (out : StatusOr α × ConsumerGroupState × Fs) :
    ErrorKeeps events a (out.map (·.map f) id) ↔ ErrorKeeps events a out := by
  obtain ⟨result, after⟩ := out
  cases result with
  | error err => exact errorKeeps_error.trans errorKeeps_error.symm
  | ok r => exact iff_of_true (fun err herr => by cases herr) (fun err herr => by cases herr)

theorem consumeGroup_errorKeeps_iff (segment : SegmentLog) (group : ConsumerGroupState) (fs : Fs) :
    ErrorKeeps (groupEventPath opts.data_dir q g) (reapExpiredInflight env opts q g group fs)
        (consumeGroup env opts q g segment group fs) ↔
      OpFailsCleanly env opts q g .consume segment group fs := by
  unfold consumeGroup OpFailsCleanly
  generalize reapExpiredInflight env opts q g group fs = reaped
  obtain ⟨group1, fs1⟩ := reaped
  dsimp only
  by_cases hroom : opts.max_inflight.toNat ≤ group1.inflight.entries.length
  · simp only [hroom, if_true]
    exact iff_of_true (fun err herr => by cases herr) (fun hlt => absurd hlt (Nat.not_lt.2 hroom))
  simp only [hroom, if_false, Nat.lt_of_not_le hroom, true_imp_iff]
  cases hoff : group1.ready_offsets with
  | nil => exact iff_of_true (fun err herr => by cases herr) (fun _ _ _ h => by cases h)
  | cons offset offsets =>
    dsimp only
    cases hread : segment.read fs1 offset with
    | error e =>
      rw [errorKeeps_error]
      refine iff_of_true ⟨rfl, rfl, rfl⟩ fun _ _ record h hr => ?_
      obtain ⟨rfl, -⟩ := List.cons.inj h
      rw [hread] at hr
      cases hr
    | ok record =>
      have hd := deliver_errorKeeps_iff env opts q g offset record { group1 with ready_offsets := offsets } fs1
      constructor
      · intro h _ _ record' heq hr
        obtain ⟨rfl, rfl⟩ := List.cons.inj heq
        rw [hread] at hr
        obtain rfl := Except.ok.inj hr
        refine hd.1 fun err herr => ?_
        obtain ⟨hrt, hin, hev⟩ := h err herr
        exact ⟨hrt, hin, hev⟩
      · intro h err herr
        obtain ⟨hrt, hin, hev⟩ := hd.2 (h offset offsets record rfl hread) err herr
        exact ⟨hrt, hin, hev⟩

theorem ackGroup_errorKeeps_iff (id : MessageId) (segment : SegmentLog) (group : ConsumerGroupState) (fs : Fs) :
    ErrorKeeps (groupEventPath opts.data_dir q g) (group, fs) (ackGroup env opts q g id group fs) ↔
      OpFailsCleanly env opts q g (.ack id) segment group fs := by
  unfold ackGroup OpFailsCleanly
  dsimp only
  cases hin : group.inflight.lookup id with
  | none =>
    rw [errorKeeps_error]
    exact iff_of_true ⟨rfl, rfl, rfl⟩ (fun _ h => by cases h)
  | some entry =>
    cases hrt : group.runtime.lookup id with
    | none =>
      rw [errorKeeps_error]
      exact iff_of_true ⟨rfl, rfl, rfl⟩ (fun _ _ h => by cases h)
    | some rt =>
      simp only [Option.isSome_some, true_imp_iff, Option.some.injEq, forall_eq']
      by_cases hp : env.failpoint = some .before_ack_transition
      · simp only [hp, if_true, ioError, errorKeeps_error]
        exact iff_of_true ⟨rfl, rfl, rfl⟩ (.inl trivial)
      · simp only [hp, if_false, false_or]
        exact commit_errorKeeps_iff env opts q g group _ false fs

theorem nackGroup_errorKeeps_iff (id : MessageId) (requeue : Bool) (segment : SegmentLog) (group : ConsumerGroupState)
    (fs : Fs) :
    ErrorKeeps (groupEventPath opts.data_dir q g) (group, fs) (nackGroup env opts q g id requeue group fs) ↔
      OpFailsCleanly env opts q g (.nack id requeue) segment group fs := by
  unfold nackGroup OpFailsCleanly
  dsimp only
  cases hin : group.inflight.lookup id with
  | none =>
    rw [errorKeeps_error]
    exact iff_of_true ⟨rfl, rfl, rfl⟩ (fun _ h => by cases h)
  | some entry =>
    cases hrt : group.runtime.lookup id with
    | none =>
      rw [errorKeeps_error]
      exact iff_of_true ⟨rfl, rfl, rfl⟩ (fun _ _ h => by cases h)
    | some rt =>
      simp only [Option.isSome_some, true_imp_iff, Option.some.injEq, forall_eq']
      split
      · rename_i hp
        rw [ioError, errorKeeps_error]
        exact iff_of_true ⟨rfl, rfl, rfl⟩ (.inl hp)
      · rename_i hp
        simp only [hp, false_or]
        exact commit_errorKeeps_iff env opts q g group _ true fs

theorem groupOp_errorKeeps_iff (op : GroupOp) (segment : SegmentLog) (group : ConsumerGroupState) (fs : Fs) :
    ErrorKeeps (groupEventPath opts.data_dir q g) (beforeTransition env opts q g op group fs)
        (groupOp env opts q g op segment group fs) ↔
      OpFailsCleanly env opts q g op segment group fs := by
  cases op with
  | consume => exact (errorKeeps_map _ _).trans (consumeGroup_errorKeeps_iff env opts q g segment group fs)
  | ack id => exact (errorKeeps_map _ _).trans (ackGroup_errorKeeps_iff env opts q g id segment group fs)
  | nack id requeue => exact (errorKeeps_map _ _).trans (nackGroup_errorKeeps_iff env opts q g id requeue segment group fs)
  | getStats => exact iff_of_true (fun err herr => by cases herr) trivial

/-! ## Runs -/

/-- If the operation returns an error, its own transition has changed nothing. -/
def FailsAtomically (env : Env) (q : Path) (g : CString) (op : GroupOp) (e : QueueEngine) : Prop :=
  ∀ err, (onGroup env q g op e).1 = .error err →
    (Refuses env q g e → (onGroup env q g op e).2 = e) ∧
    ∀ queue group, e.queues.lookup q = some queue → getGroup env e.options q queue g e.fs = .ok group →
      ∃ group', groupAt (onGroup env q g op e).2 q g = some group' ∧
        Keeps (groupEventPath e.options.data_dir q g) (beforeTransition env e.options q g op group e.fs)
          (group', (onGroup env q g op e).2.fs)

/-- The failures of the operation, if there are any, come before the first byte of its event. -/
def FailsCleanly (env : Env) (q : Path) (g : CString) (op : GroupOp) (e : QueueEngine) : Prop :=
  ∀ queue group, e.queues.lookup q = some queue → getGroup env e.options q queue g e.fs = .ok group →
    OpFailsCleanly env e.options q g op queue.segment group e.fs

theorem failsAtomically_iff (env : Env) (q : Path) (g : CString) (op : GroupOp) (e : QueueEngine) :
    FailsAtomically env q g op e ↔ FailsCleanly env q g op e := by
  rcases onGroup_cases env q g op e with ⟨err, heq, href⟩ | ⟨queue, group, hqueue, hgroup, heq⟩
  · have hno : ∀ queue group, e.queues.lookup q = some queue → getGroup env e.options q queue g e.fs ≠ .ok group := by
      intro queue group hqueue hgroup
      obtain ⟨err', herr⟩ := href queue hqueue
      rw [herr] at hgroup
      cases hgroup
    refine iff_of_true (fun err' _ => ⟨fun _ => by rw [heq], fun queue group hqueue hgroup => ?_⟩)
      fun queue group hqueue hgroup => ?_
    · exact absurd hgroup (hno queue group hqueue)
    · exact absurd hgroup (hno queue group hqueue)
  · have hops := groupOp_errorKeeps_iff env e.options q g op queue.segment group e.fs
    have hat : groupAt (onGroup env q g op e).2 q g = some (groupOp env e.options q g op queue.segment group e.fs).2.1 := by
      rw [heq]
      simp [groupAt]
    have hfs : (onGroup env q g op e).2.fs = (groupOp env e.options q g op queue.segment group e.fs).2.2 := by rw [heq]
    have hres : (onGroup env q g op e).1 = (groupOp env e.options q g op queue.segment group e.fs).1 := by rw [heq]
    unfold FailsAtomically FailsCleanly
    rw [hat, hfs, hres]
    constructor
    · intro h queue' group' hqueue' hgroup'
      rw [hqueue] at hqueue'
      obtain rfl := Option.some.inj hqueue'
      rw [hgroup] at hgroup'
      obtain rfl := Except.ok.inj hgroup'
      refine hops.1 fun err herr => ?_
      obtain ⟨group', hgroup', hkeeps⟩ := (h err herr).2 queue group hqueue hgroup
      obtain rfl := Option.some.inj hgroup'
      exact hkeeps
    · intro h err herr
      refine ⟨fun href => ?_, fun queue' group' hqueue' hgroup' => ?_⟩
      · obtain ⟨err', herr'⟩ := href queue hqueue
        rw [herr'] at hgroup
        cases hgroup
      · rw [hqueue] at hqueue'
        obtain rfl := Option.some.inj hqueue'
        rw [hgroup] at hgroup'
        obtain rfl := Except.ok.inj hgroup'
        exact ⟨_, rfl, hops.2 (h queue group hqueue hgroup) err herr⟩

/-- What is asked of the operations on groups of a run. A killed operation returns nothing. -/
def OfGroupOps (P : Env → Path → CString → GroupOp → QueueEngine → Prop) (e : QueueEngine) : Step → Prop
  | .op env (.group q g op) => P env q g op e
  | _ => True

theorem eachStep_append {P : QueueEngine → Step → Prop} {e : QueueEngine} {a b : List Step} :
    EachStep P e (a ++ b) ↔ EachStep P e a ∧ EachStep P (run e a) b := by
  induction a generalizing e with
  | nil => exact (iff_of_eq (true_and _)).symm
  | cons s a ih => exact (and_congr_right' ih).trans and_assoc.symm

theorem eachStep_congr {P Q : QueueEngine → Step → Prop} (h : ∀ e s, P e s ↔ Q e s) (e : QueueEngine) (steps : List Step) :
    EachStep P e steps ↔ EachStep Q e steps := by
  induction steps generalizing e with
  | nil => exact Iff.rfl
  | cons s steps ih => exact and_congr (h e s) (ih _)

/-- In a run, every operation that fails is atomic exactly if every operation fails cleanly. -/
theorem failures_atomic_iff (opts : EngineOptions) (steps : List Step) :
    EachStep (OfGroupOps FailsAtomically) (freshEngine opts) steps ↔
      EachStep (OfGroupOps FailsCleanly) (freshEngine opts) steps := by
  refine eachStep_congr (fun e s => ?_) _ _
  cases s with
  | op env o =>
    cases o with
    | createQueue q => exact Iff.rfl
    | produce q m => exact Iff.rfl
    | group q g op => exact failsAtomically_iff env q g op e
  | kill env o calls options => exact Iff.rfl

/-- The snapshot cannot be renamed. -/
def renameFails : Env :=
  { fault := fun c => match c with
      | .rename _ _ => some 0
      | _ => none }

def oneProduced : List Step := [.op {} (.createQueue someQueue), .op {} (.produce someQueue someMessage)]

def failedConsume : List Step := oneProduced ++ [.op renameFails (.group someQueue someGroup .consume)]

/-- The consumer gets an error, and the message is leased all the same. -/
theorem failed_consume_leases : ¬ EachStep (OfGroupOps FailsAtomically) (freshEngine {}) failedConsume := by
  intro h
  obtain ⟨-, hconsume, -⟩ := eachStep_append.1 h
  have herr : (onGroup renameFails someQueue someGroup .consume (run (freshEngine {}) oneProduced)).1.isOk = false := by
    decide +kernel
  have hleased : (groupAt (onGroup renameFails someQueue someGroup .consume (run (freshEngine {}) oneProduced)).2
      someQueue someGroup).map (·.inflight.entries.length) = some 1 := by decide +kernel
  have hfree : (foundGroup renameFails (run (freshEngine {}) oneProduced) someQueue someGroup).map
      (fun group => (beforeTransition renameFails {} someQueue someGroup .consume group
        (run (freshEngine {}) oneProduced).fs).1.inflight.entries.length) = some 0 := by decide +kernel
  have hopts : (run (freshEngine {}) oneProduced).options = {} := rfl
  generalize run (freshEngine {}) oneProduced = e at hconsume herr hleased hfree hopts
  obtain ⟨group, hfound, hnone⟩ := Option.map_eq_some_iff.1 hfree
  obtain ⟨queue, hqueue, hget⟩ := foundGroup_eq hfound
  cases hres : (onGroup renameFails someQueue someGroup .consume e).1 with
  | ok r =>
    rw [hres] at herr
    cases herr
  | error err =>
    obtain ⟨group', hat, hkeeps⟩ := (hconsume err hres).2 queue group hqueue hget
    rw [hopts] at hkeeps
    rw [hat, Option.map_some, Option.some.injEq] at hleased
    have hin : group'.inflight = _ := hkeeps.inflight
    rw [hin, hnone] at hleased
    cases hleased

end PomaiQueue.Engine
