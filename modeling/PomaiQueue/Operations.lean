import PomaiQueue.Moves
/-!
# The operations are moves

`groupOp_does`: `Consume`, `Ack`, `Nack` and `GetStats` on a loaded group are moves,
whatever fails on the way, and the system calls they make go with the acts of
the moves (`Tells`).
-/

namespace PomaiQueue.Engine

open Wire Posix Assoc Storage

/-! ## The transitions an operation attempts -/

section traces

variable (env : Env) (opts : EngineOptions) (queue_name : Path) (group_id : CString)

def reapOneTrace (now : UInt64) (id : MessageId) (group : ConsumerGroupState) (fs : Fs) : Trace :=
  match group.inflight.lookup id with
  | none => []
  | some entry =>
    if group.wheel_base_tick < entry.bucket_tick then []
    else if now < entry.deadline_ms then []
    else
      match group.runtime.lookup id with
      | none => []
      | some rt =>
        [(timeoutEvent opts now group.next_sequence id rt,
          (reapOne env opts queue_name group_id now id group fs).1.runtime)]

def reapBucketTrace (now : UInt64) : List MessageId → ConsumerGroupState → Fs → Trace
  | [], _, _ => []
  | id :: bucket, group, fs =>
    reapOneTrace env opts queue_name group_id now id group fs ++
      match reapOne env opts queue_name group_id now id group fs with
      | (group, fs) => reapBucketTrace now bucket group fs

def reapTicksTrace (now : UInt64) : Nat → ConsumerGroupState → Fs → Trace
  | 0, _, _ => []
  | rounds + 1, group, fs =>
    let slot := slotOf group group.wheel_base_tick
    let bucket := group.deadline_wheel.getD slot []
    let group := { group with deadline_wheel := group.deadline_wheel.set slot [] }
    reapBucketTrace env opts queue_name group_id now bucket group fs ++
      match reapBucket env opts queue_name group_id now bucket group fs with
      | (group, fs) => reapTicksTrace now rounds { group with wheel_base_tick := group.wheel_base_tick + 1 } fs

def reapTrace (group : ConsumerGroupState) (fs : Fs) : Trace :=
  let group := if group.deadline_wheel.isEmpty then initScheduler env opts group else group
  let now := env.now .reapExpiredInflight
  reapTicksTrace env opts queue_name group_id now
    ((now / opts.tickMs).toNat + 1 - group.wheel_base_tick.toNat) group fs

def deliverTrace (offset : UInt64) (record : Record) (group : ConsumerGroupState) (fs : Fs) : Trace :=
  let created := createdRuntime (env.now .runtimeCreated) offset record.header.enqueue_ts
  [(deliverEvent opts group_id (env.now .consume) group.next_sequence (idOf record)
      ((group.runtime.lookup (idOf record)).getD created),
    (deliver env opts queue_name group_id offset record group fs).2.1.runtime)]

/-- The transitions that an operation attempts, with the messages of the group
after each. -/
def groupOpTrace (op : GroupOp) (segment : SegmentLog) (group : ConsumerGroupState) (fs : Fs) : Trace :=
  match op with
  | .consume =>
    reapTrace env opts queue_name group_id group fs ++
      match reapExpiredInflight env opts queue_name group_id group fs with
      | (group, fs) =>
        if opts.max_inflight.toNat ≤ group.inflight.entries.length then []
        else
          match group.ready_offsets with
          | [] => []
          | offset :: offsets =>
            let group := { group with ready_offsets := offsets }
            match segment.read fs offset with
            | .error _ => []
            | .ok record => deliverTrace env opts queue_name group_id offset record group fs
  | .ack id =>
    match group.inflight.lookup id, group.runtime.lookup id with
    | some _, some rt =>
      [(ackEvent (env.now .ack) group.next_sequence id rt,
        (ackGroup env opts queue_name group_id id group fs).2.1.runtime)]
    | _, _ => []
  | .nack id requeue =>
    match group.inflight.lookup id, group.runtime.lookup id with
    | some _, some rt =>
      [(nackEvent opts (env.now .nack) (env.now .nackBackoff) group.next_sequence id rt requeue,
        (nackGroup env opts queue_name group_id id requeue group fs).2.1.runtime)]
    | _, _ => []
  | .getStats => reapTrace env opts queue_name group_id group fs

end traces

/-- From `group` and `fs`, moves lead to `group'` and the calls that go with their
acts to `fs'`. `trace` is what the moves attempt. -/
structure DoesBy (env : Env) (opts : EngineOptions) (q : Path) (g : CString) (read : UInt64 → StatusOr Record)
    (op : GroupOp) (group : ConsumerGroupState) (fs : Fs) (labels : List Label) (group' : ConsumerGroupState)
    (fs' : Fs) : Prop where
  moves : Moves (¬ env.toIo.Quiet) env opts g read op group labels group'
  calls : ∃ calls, fs' = fs.after calls ∧ Tells env (groupFiles opts.data_dir q g) (actsOf labels) calls

def Does (env : Env) (opts : EngineOptions) (q : Path) (g : CString) (read : UInt64 → StatusOr Record) (op : GroupOp)
    (group : ConsumerGroupState) (fs : Fs) (trace : Trace) (group' : ConsumerGroupState) (fs' : Fs) : Prop :=
  ∃ labels, DoesBy env opts q g read op group fs labels group' fs' ∧ traceOf labels = trace

variable {env : Env} {opts : EngineOptions} {q : Path} {g : CString} {read : UInt64 → StatusOr Record} {op : GroupOp}

theorem DoesBy.trans {a b c : ConsumerGroupState} {fa fb fc : Fs} {l l' : List Label}
    (h : DoesBy env opts q g read op a fa l b fb) (h' : DoesBy env opts q g read op b fb l' c fc) :
    DoesBy env opts q g read op a fa (l ++ l') c fc := by
  obtain ⟨hm, calls, rfl, ht⟩ := h
  obtain ⟨hm', calls', rfl, ht'⟩ := h'
  refine ⟨hm.trans hm', calls ++ calls', by rw [Fs.after_after], ?_⟩
  rw [actsOf_append]
  exact ht.append ht'

theorem Does.refl (group : ConsumerGroupState) (fs : Fs) : Does env opts q g read op group fs [] group fs :=
  ⟨[], ⟨.nil, [], by simp, .nil _ _⟩, rfl⟩

theorem Does.trans {a b c : ConsumerGroupState} {fa fb fc : Fs} {t t' : Trace}
    (h : Does env opts q g read op a fa t b fb) (h' : Does env opts q g read op b fb t' c fc) :
    Does env opts q g read op a fa (t ++ t') c fc := by
  obtain ⟨l, hl, rfl⟩ := h
  obtain ⟨l', hl', rfl⟩ := h'
  exact ⟨l ++ l', hl.trans hl', traceOf_append l l'⟩

theorem Does.still {a b : ConsumerGroupState} (fs : Fs) (h : Move (¬ env.toIo.Quiet) env opts g read op a .still b) :
    Does env opts q g read op a fs [] b fs :=
  ⟨[.still], ⟨.one h, [], by simp, .nil _ _⟩, rfl⟩

theorem Does.sched {a b : ConsumerGroupState} (fs : Fs) (h : SameCore a b) : Does env opts q g read op a fs [] b fs :=
  .still fs (.sched h)

/-! ## Transitions and snapshots -/

theorem not_quiet_of_failpoint {io : Io} {p : Failpoint} (h : io.failpoint = some p) : ¬ io.Quiet := by
  intro hq
  rw [hq.failpoint] at h
  cases h

theorem not_quiet_of_fault {io : Io} {c : Call} (h : (io.fault c).isSome) : ¬ io.Quiet := by
  intro hq
  rw [hq.fault] at h
  cases h

theorem not_quiet_of_refused {io : Io} {data : Bytes} (h : io.refused data = true) : ¬ io.Quiet := by
  intro hq
  rw [hq.refused] at h
  cases h

/-- An append that failed with nothing written. -/
theorem tells_torn {data : Bytes} {n : Nat} (files : Files) (hfault : env.fault (.append files.events data) = some n)
    (hn : n < data.length) :
    Tells env files [] [.creat files.events, .append files.events (data.take n)] where
  spares := by
    intro p hp c hc
    simp only [List.mem_cons, List.not_mem_nil, or_false] at hc
    rcases hc with rfl | rfl <;> exact hp.events
  shows := by
    intro hw
    obtain rfl : n = 0 := (hw data n hfault).resolve_right (by omega)
    refine shows_nil fun d k => ?_
    have hne : files.state ≠ files.events := files.apart.1.symm
    match k with
    | 0 => rfl
    | 1 => simp [view, exec, Function.update_of_ne hne]
    | k + 2 => simp [view, exec, Function.update_of_ne hne]
  exact hq := absurd hq (not_quiet_of_fault (by rw [hfault]; rfl))

/-- `AppendTransition`: the event is applied if the result is ok. -/
theorem appendTransition_does {a : ConsumerGroupState} {event : TransitionEvent} (fs : Fs)
    (h : Fires env opts g read op a event) :
    ∃ fate, DoesBy env opts q g read op a fs
        [.attempt event fate (appendTransition env opts q g (bump a) event fs).2.1]
        (appendTransition env opts q g (bump a) event fs).2.1 (appendTransition env opts q g (bump a) event fs).2.2 ∧
      ((∃ u, (appendTransition env opts q g (bump a) event fs).1 = .ok u) → fate = .applied) := by
  have ht : Tells env (groupFiles opts.data_dir q g) [.log event]
      [.creat (groupEventPath opts.data_dir q g), .append (groupEventPath opts.data_dir q g) (encodeEvent event)] :=
    tells_acts env (groupFiles opts.data_dir q g) [.log event]
  by_cases hp : env.failpoint = some .before_log_append
  · have heq : appendTransition env opts q g (bump a) event fs = (ioError "failpoint before_log_append", bump a, fs) := by
      simp [appendTransition, hp]
    rw [heq]
    exact ⟨.unlogged, ⟨.one (.skip (not_quiet_of_failpoint hp) h), [], by simp, .nil _ _⟩, by simp [ioError]⟩
  by_cases hf : env.refused (encodeEvent event) = true
  · have heq : appendTransition env opts q g (bump a) event fs = (ioError "open event log failed", bump a, fs) := by
      simp [appendTransition, hp, hf]
    rw [heq]
    exact ⟨.unlogged, ⟨.one (.skip (not_quiet_of_refused hf) h), [], by simp, .nil _ _⟩, by simp [ioError]⟩
  cases hw : env.fault (.append (groupEventPath opts.data_dir q g) (encodeEvent event)) with
  | some n =>
    have hq : ¬ env.toIo.Quiet := not_quiet_of_fault (c := .append _ _) (by rw [hw]; rfl)
    obtain ⟨err, heq⟩ : ∃ err, appendTransition env opts q g (bump a) event fs =
        (.error err, bump a, fs.after [.creat (groupEventPath opts.data_dir q g),
          .append (groupEventPath opts.data_dir q g) ((encodeEvent event).take n)]) := by
      simp [appendTransition, hp, hf, hw, ioError, Fs.call, Fs.after]
    rw [heq]
    by_cases hn : (encodeEvent event).length ≤ n
    · rw [List.take_of_length_le hn]
      exact ⟨.lost, ⟨.one (.lose hq h), _, rfl, ht⟩, by simp⟩
    · exact ⟨.unlogged, ⟨.one (.skip hq h), _, rfl, tells_torn (groupFiles opts.data_dir q g) hw (Nat.lt_of_not_le hn)⟩,
        by simp⟩
  | none =>
    by_cases hl : env.failpoint = some .after_log_append
    · have heq : appendTransition env opts q g (bump a) event fs =
          (ioError "failpoint after_log_append", bump a, fs.after [.creat (groupEventPath opts.data_dir q g),
            .append (groupEventPath opts.data_dir q g) (encodeEvent event)]) := by
        simp [appendTransition, hl, hf, hw, Fs.call, Fs.after]
      rw [heq]
      exact ⟨.lost, ⟨.one (.lose (not_quiet_of_failpoint hl) h), _, rfl, ht⟩, by simp [ioError]⟩
    · have heq : appendTransition env opts q g (bump a) event fs =
          (.ok (), applyTransition env opts (bump a) event, fs.after [.creat (groupEventPath opts.data_dir q g),
            .append (groupEventPath opts.data_dir q g) (encodeEvent event)]) := by
        simp [appendTransition, hp, hl, hf, hw, Fs.call, Fs.after]
      rw [heq]
      exact ⟨.applied, ⟨.one (.fire h), _, rfl, ht⟩, by simp⟩

/-- `PersistGroupState`: the snapshot is saved if the result is ok. -/
theorem persistGroupState_does (fs : Fs) (a : ConsumerGroupState) :
    Does env opts q g read op a fs [] a (persistGroupState env opts q g a fs).2 := by
  by_cases hq : env.toIo.Quiet
  · have hp : env.failpoint = none := hq.failpoint
    refine ⟨[.saved env.spills opts.fsync_policy (snapshotBytes env a)], ⟨.one .persist, _, ?_, tells_acts _ _ _⟩, rfl⟩
    simp [persistGroupState, hp, durableWriteFile_quiet hq, Fs.after, actsOf, Label.acts, Act.calls, groupFiles]
  unfold persistGroupState
  split
  · exact .refl a fs
  obtain ⟨calls, hcalls, ⟨-, hc⟩ | ⟨post, rfl, hpost⟩⟩ := durableWriteFile_cases env.toIo env.spills
    (if env.early then some "write group state failed" else none) (groupStatePath opts.data_dir q g) (snapshotBytes env a)
    opts.fsync_policy fs
  · -- Only the temporary file was touched.
    have hfiles := (groupFiles opts.data_dir q g).apart
    refine ⟨[], ⟨.nil, calls, hcalls, fun p hp => hc p hp.tmp, fun _ => ?_, fun h => absurd h hq⟩, rfl⟩
    refine shows_nil fun d k => view_spares ?_ ?_ d
    · exact fun c hm => hc _ hfiles.2 c (List.mem_of_mem_take hm)
    · exact fun c hm => hc _ (tmpPath_ne _) c (List.mem_of_mem_take hm)
  · have hspares : ∀ p, ∀ c ∈ post, c.Spares p := by
      intro p c hm
      obtain ⟨dir, rfl⟩ := hpost c hm
      trivial
    refine ⟨[.saved env.spills opts.fsync_policy (snapshotBytes env a)],
      ⟨.one .persist, _, hcalls, fun p hp c hm => ?_, fun _ => ?_, fun h => absurd h hq⟩, rfl⟩
    · rcases List.mem_append.1 hm with hm | hm
      · exact tmpCalls_spares hp.tmp _ _ _ c hm
      · rcases List.mem_cons.1 hm with rfl | hm
        · exact ⟨hp.tmp, hp.state⟩
        · exact hspares p c hm
    · exact shows_snap (groupFiles opts.data_dir q g) _ _ _ fun c hm => ⟨hspares _ c hm, hspares _ c hm⟩

/-! ## Reaping -/

theorem Does.attempt {a : ConsumerGroupState} {event : TransitionEvent} (fs : Fs) (h : Fires env opts g read op a event) :
    Does env opts q g read op a fs [(event, (appendTransition env opts q g (bump a) event fs).2.1.runtime)]
      (appendTransition env opts q g (bump a) event fs).2.1 (appendTransition env opts q g (bump a) event fs).2.2 := by
  obtain ⟨fate, hd, -⟩ := appendTransition_does (q := q) fs h
  exact ⟨_, hd, rfl⟩

/-- A failpoint before the append. -/
theorem Does.skip {a : ConsumerGroupState} {event : TransitionEvent} (fs : Fs) {p : Failpoint}
    (hp : env.failpoint = some p) (h : Fires env opts g read op a event) :
    Does env opts q g read op a fs [(event, a.runtime)] (bump a) fs :=
  ⟨[.attempt event .unlogged (bump a)], ⟨.one (.skip (not_quiet_of_failpoint hp) h), [], by simp, .nil _ _⟩, rfl⟩

theorem reapOne_does (hop : op = .consume ∨ op = .getStats) (id : MessageId) (group : ConsumerGroupState) (fs : Fs) :
    Does env opts q g read op group fs (reapOneTrace env opts q g (env.now .reapExpiredInflight) id group fs)
      (reapOne env opts q g (env.now .reapExpiredInflight) id group fs).1
      (reapOne env opts q g (env.now .reapExpiredInflight) id group fs).2 := by
  unfold reapOneTrace
  cases hin : group.inflight.lookup id with
  | none =>
    simp only [reapOne, hin]
    exact .refl _ _
  | some entry =>
    simp only [reapOne, hin]
    split
    · exact .refl _ _
    · split
      · exact .sched _ ⟨rfl, rfl, rfl⟩
      · rename_i hdl
        cases hrt : group.runtime.lookup id with
        | none => exact .still _ (.forget id hrt)
        | some rt =>
          have hfire : Fires env opts g read op group
              (timeoutEvent opts (env.now .reapExpiredInflight) group.next_sequence id rt) :=
            .timeout id entry rt hop hin (UInt64.not_lt.1 hdl) hrt
          dsimp only
          split
          · rename_i hp
            exact .skip fs hp hfire
          · exact .attempt fs hfire

theorem reapBucket_does (hop : op = .consume ∨ op = .getStats) (bucket : List MessageId)
    (group : ConsumerGroupState) (fs : Fs) :
    Does env opts q g read op group fs (reapBucketTrace env opts q g (env.now .reapExpiredInflight) bucket group fs)
      (reapBucket env opts q g (env.now .reapExpiredInflight) bucket group fs).1
      (reapBucket env opts q g (env.now .reapExpiredInflight) bucket group fs).2 := by
  induction bucket generalizing group fs with
  | nil => exact .refl _ _
  | cons id bucket ih => exact (reapOne_does hop id group fs).trans (ih _ _)

theorem reapTicks_does (hop : op = .consume ∨ op = .getStats) (rounds : Nat) (group : ConsumerGroupState) (fs : Fs) :
    Does env opts q g read op group fs (reapTicksTrace env opts q g (env.now .reapExpiredInflight) rounds group fs)
      (reapTicks env opts q g (env.now .reapExpiredInflight) rounds group fs).1
      (reapTicks env opts q g (env.now .reapExpiredInflight) rounds group fs).2 := by
  induction rounds generalizing group fs with
  | zero => exact .refl _ _
  | succ rounds ih =>
    -- The bucket is taken out, reaped, and the wheel turned.
    let taken := { group with deadline_wheel := group.deadline_wheel.set (slotOf group group.wheel_base_tick) [] }
    let bucket := group.deadline_wheel.getD (slotOf group group.wheel_base_tick) []
    have htake : Does env opts q g read op group fs [] taken fs := .sched fs ⟨rfl, rfl, rfl⟩
    let reaped := reapBucket env opts q g (env.now .reapExpiredInflight) bucket taken fs
    have hreap : Does env opts q g read op taken fs _ reaped.1 reaped.2 := reapBucket_does hop bucket taken fs
    have hturn : Does env opts q g read op reaped.1 reaped.2 []
        { reaped.1 with wheel_base_tick := reaped.1.wheel_base_tick + 1 } reaped.2 := .sched _ ⟨rfl, rfl, rfl⟩
    exact htake.trans (hreap.trans (hturn.trans (ih _ _)))

theorem buildReadyQueue_core (env : Env) (group : ConsumerGroupState) : SameCore group (buildReadyQueue env group) :=
  ⟨rfl, rfl, rfl⟩

theorem reapExpiredInflight_does (hop : op = .consume ∨ op = .getStats) (group : ConsumerGroupState) (fs : Fs) :
    Does env opts q g read op group fs (reapTrace env opts q g group fs) (reapExpiredInflight env opts q g group fs).1
      (reapExpiredInflight env opts q g group fs).2 := by
  have hinit : SameCore group (if group.deadline_wheel.isEmpty then initScheduler env opts group else group) := by
    split
    · exact ⟨rfl, rfl, rfl⟩
    · exact ⟨rfl, rfl, rfl⟩
  rw [← List.append_nil (reapTrace env opts q g group fs)]
  refine Does.trans ?_ (.sched _ (buildReadyQueue_core env _))
  exact Does.trans (.sched fs hinit) (reapTicks_does hop _ _ fs)

/-- What is in the ready queue is the offset of a message that can be delivered. -/
theorem mem_buildReadyQueue {group : ConsumerGroupState} {offset : UInt64}
    (h : offset ∈ (buildReadyQueue env group).ready_offsets) :
    ∃ id rt, group.runtime.lookup id = some rt ∧ rt.state = .kReady ∧
      rt.available_after_ms ≤ env.now .buildReadyQueue ∧ rt.offset = offset := by
  rw [buildReadyQueue, List.mem_insertionSort, List.mem_map] at h
  obtain ⟨⟨id, rt⟩, hmem, rfl⟩ := h
  rw [List.mem_filter, IterOrder.mem] at hmem
  have hr : rt.state = .kReady ∧ rt.available_after_ms ≤ env.now .buildReadyQueue := by simpa using hmem.2
  exact ⟨id, rt, (mem_entries_iff _ _ _).1 hmem.1, hr.1, hr.2, rfl⟩

/-- A ready message is in the ready queue. -/
theorem ready_mem {env : Env} {group : ConsumerGroupState} {id : MessageId} {rt : MessageRuntime}
    (hrt : group.runtime.lookup id = some rt) (hs : rt.state = .kReady) (ha : rt.available_after_ms ≤ env.now .buildReadyQueue) :
    rt.offset ∈ (buildReadyQueue env group).ready_offsets := by
  rw [buildReadyQueue, List.mem_insertionSort, List.mem_map]
  refine ⟨⟨id, rt⟩, ?_, rfl⟩
  rw [List.mem_filter, IterOrder.mem]
  exact ⟨(mem_entries_iff _ _ _).2 hrt, by simp [hs, ha]⟩

/-! ## The operations -/

/-- The moves applied an event for `id`. -/
def Applied (labels : List Label) (id : MessageId) (reason : TransitionReason) : Prop :=
  ∃ event after, Label.attempt event .applied after ∈ labels ∧ event.id = id ∧ event.reason = reason

theorem commit_does {group : ConsumerGroupState} {event : TransitionEvent} (rebuild : Bool) (fs : Fs)
    (h : Fires env opts g read op group event) :
    ∃ labels, DoesBy env opts q g read op group fs labels (commit env opts q g (bump group) event rebuild fs).2.1
        (commit env opts q g (bump group) event rebuild fs).2.2 ∧
      traceOf labels = [(event, (commit env opts q g (bump group) event rebuild fs).2.1.runtime)] ∧
      ((∃ u, (commit env opts q g (bump group) event rebuild fs).1 = .ok u) → Applied labels event.id event.reason) := by
  obtain ⟨fate, hd, hfate⟩ := appendTransition_does (q := q) fs h
  unfold commit
  generalize appendTransition env opts q g (bump group) event fs = appended at hd hfate ⊢
  obtain ⟨result, group1, fs1⟩ := appended
  dsimp only at hd hfate ⊢
  cases result with
  | error e => exact ⟨_, hd, rfl, by simp⟩
  | ok u =>
    obtain rfl := hfate ⟨u, rfl⟩
    dsimp only
    have hcore : SameCore group1 (if rebuild then buildReadyQueue env group1 else group1) := by
      split
      · exact buildReadyQueue_core _ _
      · exact ⟨rfl, rfl, rfl⟩
    have hrt := hcore.runtime
    generalize (if rebuild then buildReadyQueue env group1 else group1) = group2 at hcore hrt ⊢
    obtain ⟨labels, hl, htr⟩ : Does env opts q g read op group1 fs1 [] group2 (persistGroupState env opts q g group2 fs1).2 :=
      Does.trans (.sched fs1 hcore) (persistGroupState_does fs1 group2)
    -- Whether the snapshot is saved or not, the event is applied.
    have hdone := hd.trans hl
    have htrace : traceOf ([.attempt event .applied group1] ++ labels) = [(event, group2.runtime)] := by
      rw [traceOf_append, htr, hrt]
      rfl
    refine ⟨[.attempt event .applied group1] ++ labels, ?_⟩
    generalize persistGroupState env opts q g group2 fs1 = persisted at hdone ⊢
    obtain ⟨result, fs2⟩ := persisted
    cases result with
    | error e => exact ⟨hdone, htrace, by simp⟩
    | ok u' => exact ⟨hdone, htrace, fun _ => ⟨event, group1, by simp, rfl, rfl⟩⟩

/-- What an operation answers has happened. -/
structure Answers (op : GroupOp) (reply : StatusOr Reply) (labels : List Label) : Prop where
  consumed : ∀ r, reply = .ok (.consumed (some r)) → Applied labels r.message.id .kDelivered
  acked : ∀ id u, op = .ack id → reply = .ok u → Applied labels id .kAcked

theorem ackGroup_does (id : MessageId) (segment : SegmentLog) (group : ConsumerGroupState) (fs : Fs) :
    ∃ labels, DoesBy env opts q g read (.ack id) group fs labels (ackGroup env opts q g id group fs).2.1
        (ackGroup env opts q g id group fs).2.2 ∧
      traceOf labels = groupOpTrace env opts q g (.ack id) segment group fs ∧
      ((∃ u, (ackGroup env opts q g id group fs).1 = .ok u) → Applied labels id .kAcked) := by
  unfold groupOpTrace
  cases hin : group.inflight.lookup id with
  | none =>
    obtain ⟨labels, hl, htr⟩ := Does.refl group fs
    simp only [ackGroup, hin]
    exact ⟨labels, hl, htr, by simp⟩
  | some entry =>
    cases hrt : group.runtime.lookup id with
    | none =>
      obtain ⟨labels, hl, htr⟩ := Does.refl group fs
      simp only [ackGroup, hin, hrt]
      exact ⟨labels, hl, htr, by simp⟩
    | some rt =>
      have hfire : Fires env opts g read (.ack id) group (ackEvent (env.now .ack) group.next_sequence id rt) :=
        .ack id entry rt rfl hin hrt
      simp only [ackGroup, hin, hrt]
      split
      · rename_i hp
        obtain ⟨labels, hl, htr⟩ := Does.skip (q := q) fs hp hfire
        exact ⟨labels, hl, htr, by simp [ioError]⟩
      · exact commit_does false fs hfire

theorem nackGroup_does (id : MessageId) (requeue : Bool) (segment : SegmentLog) (group : ConsumerGroupState) (fs : Fs) :
    Does env opts q g read (.nack id requeue) group fs (groupOpTrace env opts q g (.nack id requeue) segment group fs)
      (nackGroup env opts q g id requeue group fs).2.1 (nackGroup env opts q g id requeue group fs).2.2 := by
  unfold groupOpTrace
  cases hin : group.inflight.lookup id with
  | none =>
    simp only [nackGroup, hin]
    exact .refl _ _
  | some entry =>
    cases hrt : group.runtime.lookup id with
    | none =>
      simp only [nackGroup, hin, hrt]
      exact .refl _ _
    | some rt =>
      have hfire : Fires env opts g read (.nack id requeue) group
          (nackEvent opts (env.now .nack) (env.now .nackBackoff) group.next_sequence id rt requeue) :=
        .nack id requeue entry rt rfl hin hrt
      simp only [nackGroup, hin, hrt]
      split
      · rename_i hp
        exact .skip fs hp.2 hfire
      · obtain ⟨labels, hl, htr, -⟩ := commit_does (q := q) true fs hfire
        exact ⟨labels, hl, htr⟩

theorem getStatsGroup_does (group : ConsumerGroupState) (fs : Fs) :
    Does env opts q g read .getStats group fs (reapTrace env opts q g group fs) (getStatsGroup env opts q g group fs).2.1
      (getStatsGroup env opts q g group fs).2.2 :=
  reapExpiredInflight_does (.inr rfl) group fs

/-- `deliver` from the event on. -/
theorem deliver_eq (offset : UInt64) (record : Record) {group group' : ConsumerGroupState} {rt : MessageRuntime} (fs : Fs)
    (hp : env.failpoint ≠ some .before_lease_issue)
    (hrt : (group.runtime.lookup (idOf record)).getD
      (createdRuntime (env.now .runtimeCreated) offset record.header.enqueue_ts) = rt)
    (hgroup : (if (group.runtime.lookup (idOf record)).isNone then
        { group with runtime := group.runtime.insert (idOf record)
                       (createdRuntime (env.now .runtimeCreated) offset record.header.enqueue_ts) }
      else group) = group') :
    deliver env opts q g offset record group fs =
      match commit env opts q g (bump group')
        (deliverEvent opts g (env.now .consume) group'.next_sequence (idOf record) rt) false fs with
      | (.error e, group, fs) => (.error e, group, fs)
      | (.ok _, group, fs) =>
        (.ok (some { message := consumedMessage record, offset, delivery_count := rt.retry_count + 1 }), group, fs) := by
  subst hrt hgroup
  simp only [deliver, hp, if_false, commit, Bool.false_eq_true]
  generalize appendTransition env opts q g _ _ fs = appended
  obtain ⟨result, group1, fs1⟩ := appended
  cases result with
  | error e => rfl
  | ok u =>
    dsimp only
    generalize persistGroupState env opts q g group1 fs1 = persisted
    obtain ⟨result, fs2⟩ := persisted
    cases result <;> rfl

/-- The message the record was read for has an entry, so the moves start with
making one for the record's id, if it needs one. -/
theorem deliver_meets {group : ConsumerGroupState} {id0 : MessageId} {rt0 : MessageRuntime} (offset : UInt64)
    (record : Record) (fs : Fs) (hroom : group.inflight.entries.length < opts.max_inflight.toNat)
    (h0 : group.runtime.lookup id0 = some rt0) (hready : rt0.state = .kReady)
    (havail : rt0.available_after_ms ≤ env.now .buildReadyQueue) (hread : read rt0.offset = .ok record) :
    ∃ group' rt, Does env opts q g read .consume group fs [] group' fs ∧ group'.next_sequence = group.next_sequence ∧
      Fires env opts g read .consume group'
        (deliverEvent opts g (env.now .consume) group'.next_sequence (idOf record) rt) ∧
      (group.runtime.lookup (idOf record)).getD
        (createdRuntime (env.now .runtimeCreated) offset record.header.enqueue_ts) = rt ∧
      (if (group.runtime.lookup (idOf record)).isNone then
        { group with runtime := group.runtime.insert (idOf record)
                       (createdRuntime (env.now .runtimeCreated) offset record.header.enqueue_ts) }
      else group) = group' := by
  cases hl : group.runtime.lookup (idOf record) with
  | some rt =>
    refine ⟨group, rt, .refl _ _, rfl, .deliver id0 rt0 record rt rfl hroom h0 hready havail hread hl, rfl, rfl⟩
  | none =>
    have hne : id0 ≠ idOf record := by
      rintro rfl
      rw [h0] at hl
      cases hl
    let created := createdRuntime (env.now .runtimeCreated) offset record.header.enqueue_ts
    refine ⟨{ group with runtime := group.runtime.insert (idOf record) created }, created,
      .still fs (.meet id0 rt0 record created h0 hread hl rfl), rfl, ?_, rfl, rfl⟩
    refine .deliver id0 rt0 record created rfl hroom ?_ hready havail hread ?_
    · exact (AList.lookup_insert_ne hne).trans h0
    · exact AList.lookup_insert _

theorem deliver_does (group : ConsumerGroupState) {id0 : MessageId} {rt0 : MessageRuntime} (offset : UInt64)
    (record : Record) (fs : Fs) (hroom : group.inflight.entries.length < opts.max_inflight.toNat)
    (h0 : group.runtime.lookup id0 = some rt0) (hready : rt0.state = .kReady)
    (havail : rt0.available_after_ms ≤ env.now .buildReadyQueue) (hread : read rt0.offset = .ok record) :
    ∃ labels, DoesBy env opts q g read .consume group fs labels (deliver env opts q g offset record group fs).2.1
        (deliver env opts q g offset record group fs).2.2 ∧
      traceOf labels = deliverTrace env opts q g offset record group fs ∧
      ∀ r, (deliver env opts q g offset record group fs).1 = .ok (some r) → Applied labels r.message.id .kDelivered := by
  obtain ⟨group', rt, ⟨l, hl, hltr⟩, hnext, hfire, hrt, hgroup⟩ := deliver_meets (q := q) offset record fs hroom h0 hready
    havail hread
  unfold deliverTrace
  dsimp only
  by_cases hp : env.failpoint = some .before_lease_issue
  · obtain ⟨l', hl', hltr'⟩ := Does.skip (q := q) fs hp hfire
    have heq : deliver env opts q g offset record group fs = (ioError "failpoint before_lease_issue", bump group', fs) := by
      subst hgroup
      simp only [deliver, hp, if_true]
    rw [heq]
    refine ⟨l ++ l', hl.trans hl', ?_, by simp [ioError]⟩
    rw [traceOf_append, hltr, hltr', hnext, ← hrt]
    rfl
  · obtain ⟨l', hl', hltr', happ⟩ := commit_does (q := q) false fs hfire
    rw [deliver_eq offset record fs hp hrt hgroup, hrt, ← hnext]
    generalize commit env opts q g (bump group') _ false fs = committed at hl' hltr' happ ⊢
    obtain ⟨result, group1, fs1⟩ := committed
    cases result with
    | error e => exact ⟨l ++ l', hl.trans hl', by rw [traceOf_append, hltr, hltr']; rfl, by simp⟩
    | ok u =>
      refine ⟨l ++ l', hl.trans hl', by rw [traceOf_append, hltr, hltr']; rfl, fun r hr => ?_⟩
      obtain ⟨event, after, hmem, hid, hreason⟩ := happ ⟨u, rfl⟩
      obtain rfl := Option.some.inj (Except.ok.inj hr)
      exact ⟨event, after, List.mem_append_right _ hmem, hid, hreason⟩

/-- Reading from the segment looks at the segment's file only. -/
theorem SegmentLog.read_congr {log : SegmentLog} {fs fs' : Fs} (h : fs.content log.path = fs'.content log.path) :
    log.read fs = log.read fs' := by
  funext offset
  unfold SegmentLog.read
  rw [h]

theorem DoesBy.disk_aside {a b : ConsumerGroupState} {fs fs' : Fs} {labels : List Label}
    (h : DoesBy env opts q g read op a fs labels b fs') {p : Path} (hp : Aside (groupFiles opts.data_dir q g) p) :
    fs'.disk p = fs.disk p := by
  obtain ⟨-, calls, rfl, ht⟩ := h
  rw [Fs.disk_after]
  exact foldl_spares (ht.spares p hp) fs.disk

theorem consumeGroup_does (segment : SegmentLog) (group : ConsumerGroupState) (fs : Fs)
    (hseg : Aside (groupFiles opts.data_dir q g) segment.path) :
    ∃ labels, DoesBy env opts q g (segment.read fs) .consume group fs labels
        (consumeGroup env opts q g segment group fs).2.1 (consumeGroup env opts q g segment group fs).2.2 ∧
      traceOf labels = groupOpTrace env opts q g .consume segment group fs ∧
      ∀ r, (consumeGroup env opts q g segment group fs).1 = .ok (some r) → Applied labels r.message.id .kDelivered := by
  obtain ⟨labels, hreap, htr⟩ : Does env opts q g (segment.read fs) .consume group fs (reapTrace env opts q g group fs)
      (reapExpiredInflight env opts q g group fs).1 (reapExpiredInflight env opts q g group fs).2 :=
    reapExpiredInflight_does (.inl rfl) group fs
  have hready : ∀ off ∈ (reapExpiredInflight env opts q g group fs).1.ready_offsets, ∃ id rt,
      (reapExpiredInflight env opts q g group fs).1.runtime.lookup id = some rt ∧ rt.state = .kReady ∧
        rt.available_after_ms ≤ env.now .buildReadyQueue ∧ rt.offset = off := fun off h => mem_buildReadyQueue h
  unfold consumeGroup groupOpTrace
  dsimp only
  generalize reapExpiredInflight env opts q g group fs = reaped at hreap hready ⊢
  obtain ⟨group1, fs1⟩ := reaped
  dsimp only at hreap hready ⊢
  by_cases hroom : opts.max_inflight.toNat ≤ group1.inflight.entries.length
  · simp only [hroom, if_true, List.append_nil]
    exact ⟨labels, hreap, htr, by simp⟩
  simp only [hroom, if_false]
  cases hoff : group1.ready_offsets with
  | nil => exact ⟨labels, hreap, by rw [htr, List.append_nil], by simp⟩
  | cons offset offsets =>
    obtain ⟨l1, hsched, htr1⟩ : Does env opts q g (segment.read fs) .consume group1 fs1 []
        { group1 with ready_offsets := offsets } fs1 := .sched _ ⟨rfl, rfl, rfl⟩
    obtain ⟨id0, rt0, h0, hst, havail, rfl⟩ := hready offset (by rw [hoff]; exact List.mem_cons_self)
    have hsame : segment.read fs1 = segment.read fs := by
      apply SegmentLog.read_congr
      rw [Fs.content, hreap.disk_aside hseg, Fs.content]
    rw [hsame]
    dsimp only
    cases hrec : segment.read fs rt0.offset with
    | error e => exact ⟨labels ++ l1, hreap.trans hsched, by rw [traceOf_append, htr, htr1], by simp⟩
    | ok record =>
      obtain ⟨l2, hdel, htr2, happ⟩ := deliver_does (q := q) { group1 with ready_offsets := offsets }
        rt0.offset record fs1 (Nat.lt_of_not_le hroom) h0 hst havail hrec
      refine ⟨labels ++ (l1 ++ l2), hreap.trans (hsched.trans hdel), ?_, fun r hr => ?_⟩
      · rw [traceOf_append, traceOf_append, htr, htr1, htr2, List.nil_append]
      · obtain ⟨event, after, hmem, hid, hreason⟩ := happ r hr
        exact ⟨event, after, by simp [hmem], hid, hreason⟩

/-- An operation on a loaded group is moves. -/
theorem groupOp_does (op : GroupOp) (segment : SegmentLog) (group : ConsumerGroupState) (fs : Fs)
    (hseg : Aside (groupFiles opts.data_dir q g) segment.path) :
    ∃ labels, DoesBy env opts q g (segment.read fs) op group fs labels
        (groupOp env opts q g op segment group fs).2.1 (groupOp env opts q g op segment group fs).2.2 ∧
      traceOf labels = groupOpTrace env opts q g op segment group fs ∧
      Answers op (groupOp env opts q g op segment group fs).1 labels := by
  cases op with
  | consume =>
    obtain ⟨labels, hd, htr, happ⟩ := consumeGroup_does segment group fs hseg
    refine ⟨labels, hd, htr, fun r hr => ?_, fun id u hop => by cases hop⟩
    have hok : (consumeGroup env opts q g segment group fs).1.map Reply.consumed = .ok (.consumed (some r)) := hr
    cases hres : (consumeGroup env opts q g segment group fs).1 with
    | error e => rw [hres] at hok; cases hok
    | ok r' =>
      rw [hres] at hok
      obtain rfl := Reply.consumed.inj (Except.ok.inj hok)
      exact happ r hres
  | ack id =>
    obtain ⟨labels, hd, htr, happ⟩ := ackGroup_does id segment group fs
    have hmap : ∀ u, (ackGroup env opts q g id group fs).1.map (fun _ => Reply.done) = .ok u →
        u = .done ∧ ∃ v, (ackGroup env opts q g id group fs).1 = .ok v := by
      intro u hu
      cases hres : (ackGroup env opts q g id group fs).1 with
      | error e => rw [hres] at hu; cases hu
      | ok v =>
        rw [hres] at hu
        exact ⟨(Except.ok.inj hu).symm, v, rfl⟩
    refine ⟨labels, hd, htr, fun r hr => ?_, fun id' u hop hr => ?_⟩
    · cases (hmap _ hr).1
    · obtain rfl := GroupOp.ack.inj hop
      exact happ (hmap u hr).2
  | nack id requeue =>
    obtain ⟨labels, hd, htr⟩ := nackGroup_does id requeue segment group fs
    refine ⟨labels, hd, htr, fun r hr => ?_, fun id' u hop => by cases hop⟩
    have hok : (nackGroup env opts q g id requeue group fs).1.map (fun _ => Reply.done) = .ok (.consumed (some r)) := hr
    cases hres : (nackGroup env opts q g id requeue group fs).1 with
    | error e => rw [hres] at hok; cases hok
    | ok v => rw [hres] at hok; cases Except.ok.inj hok
  | getStats =>
    obtain ⟨labels, hd, htr⟩ := getStatsGroup_does group fs
    refine ⟨labels, hd, htr, fun r hr => ?_, fun id' u hop => by cases hop⟩
    cases Except.ok.inj hr

/-! ## When nothing fails -/

theorem appendTransition_quiet {env : Env} (hq : env.toIo.Quiet) (opts : EngineOptions) (q : Path) (g : CString)
    (group : ConsumerGroupState) (event : TransitionEvent) (fs : Fs) :
    appendTransition env opts q g group event fs = (.ok (), applyTransition env opts group event,
      fs.after (actCalls (groupFiles opts.data_dir q g) [.log event])) := by
  have hp := hq.failpoint
  have hf := hq.fault
  have hopen := hq.refused
  simp [appendTransition, hp, hf, hopen, Fs.call, Fs.after, actCalls, Act.calls, groupFiles]

theorem persistGroupState_quiet {env : Env} (hq : env.toIo.Quiet) (opts : EngineOptions) (q : Path) (g : CString)
    (group : ConsumerGroupState) (fs : Fs) :
    persistGroupState env opts q g group fs = (.ok (), fs.after (actCalls (groupFiles opts.data_dir q g)
      [.snap env.spills opts.fsync_policy (snapshotBytes env group)])) := by
  have hp := hq.failpoint
  simp [persistGroupState, hp, durableWriteFile_quiet hq, Fs.after, actCalls, Act.calls, groupFiles]

/-- `commit` logs the event and writes the snapshot of the group after it. -/
theorem commit_quiet {env : Env} (hq : env.toIo.Quiet) (opts : EngineOptions) (q : Path) (g : CString)
    (group : ConsumerGroupState) (event : TransitionEvent) (rebuild : Bool) (fs : Fs) :
    ∃ group', group' = (if rebuild then buildReadyQueue env (applyTransition env opts group event)
        else applyTransition env opts group event) ∧
      commit env opts q g group event rebuild fs = (.ok (), group', fs.after (actCalls (groupFiles opts.data_dir q g)
        [.log event, .snap env.spills opts.fsync_policy (snapshotBytes env group')])) := by
  refine ⟨_, rfl, ?_⟩
  simp only [commit, appendTransition_quiet hq, persistGroupState_quiet hq, Fs.after_after]
  rfl

end PomaiQueue.Engine
