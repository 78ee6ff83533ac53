import PomaiQueue.EventLog
import PomaiQueue.Snapshot
/-!
# A consumer group

`src/core/engine/queue_engine.cc`, the parts that work on one group: the
scheduler, `ApplyTransition`, `LoadGroupState`, `BuildReadyQueue`,
`AppendTransition`, `ReapExpiredInflight`, and what `Consume`, `Ack`, `Nack` and
`GetStats` do once they have the group.

Trusted: an event reaches the file in one `write`, when the stream is flushed
or closed. A group's files are different files, as they are if its names have no NUL
byte. The directories in front of them can be made; where they cannot, an exception
ends the process, as a kill does (`Isolation.lean` has the directories).
-/

namespace PomaiQueue.Engine

open Wire Posix Assoc Storage

/-! ## The scheduler -/

def initScheduler (env : Env) (opts : EngineOptions) (group : ConsumerGroupState) : ConsumerGroupState :=
  { group with
    deadline_wheel := List.replicate 512 []
    wheel_base_tick := env.now .initScheduler / opts.tickMs }

/-- The wheel slot of a tick. -/
def slotOf (group : ConsumerGroupState) (tick : UInt64) : Nat := tick.toNat % group.deadline_wheel.length

def pushSlot (group : ConsumerGroupState) (slot : Nat) (id : MessageId) : ConsumerGroupState :=
  { group with deadline_wheel := group.deadline_wheel.modify slot (· ++ [id]) }

def scheduleInflight (env : Env) (opts : EngineOptions) (group : ConsumerGroupState) (id : MessageId)
    (deadline_ms : UInt64) (owner lease_token : CString) (offset : UInt64) : ConsumerGroupState :=
  let group := if group.deadline_wheel.isEmpty then initScheduler env opts group else group
  let tick := deadline_ms / opts.tickMs
  let group := pushSlot group (slotOf group tick) id
  { group with
    inflight := group.inflight.insert id { offset, deadline_ms, bucket_tick := tick, owner, lease_token } }

/-- The runtime entry after an event. -/
def MessageRuntime.after (rt : MessageRuntime) (event : TransitionEvent) : MessageRuntime :=
  { rt with
    state := event.state
    retry_count := event.retry_count
    available_after_ms := event.available_after_ms
    last_transition_ts := event.transition_ts
    sequence := event.sequence
    last_transition_reason := reasonToString event.reason }

def applyTransition (env : Env) (opts : EngineOptions) (group : ConsumerGroupState) (event : TransitionEvent) :
    ConsumerGroupState :=
  match group.runtime.lookup event.id with
  | none => group
  | some rt =>
    let group :=
      { group with
        runtime := adjust event.id (·.after event) group.runtime
        inflight := group.inflight.erase event.id }
    if event.state = .kInFlight then
      scheduleInflight env opts group event.id event.deadline_ms event.owner event.lease_token rt.offset
    else group

/-- The offsets of the messages that can be delivered now. -/
def buildReadyQueue (env : Env) (group : ConsumerGroupState) : ConsumerGroupState :=
  let ready := (env.runtime_order.order group.runtime.entries).filter fun item =>
    item.2.state = .kReady ∧ item.2.available_after_ms ≤ env.now .buildReadyQueue
  { group with ready_offsets := (ready.map (·.2.offset)).insertionSort (· ≤ ·) }

/-! ## Loading -/

def idOf (record : Record) : MessageId := { high := record.header.msg_id_high, low := record.header.msg_id_low }

/-- The loop over `Offsets()`: the id and enqueue time of every record. -/
def readMessages (segment : SegmentLog) (fs : Fs) : List UInt64 → StatusOr (List (UInt64 × Message))
  | [] => .ok []
  | offset :: offsets =>
    match segment.read fs offset with
    | .error e => .error e
    | .ok record =>
      match readMessages segment fs offsets with
      | .error e => .error e
      | .ok messages =>
        .ok ((offset, { id := idOf record, enqueue_ts := record.header.enqueue_ts }) :: messages)

def defaultRuntime (offset enqueue_ts : UInt64) : MessageRuntime where
  state := .kReady
  offset := offset
  enqueue_ts := enqueue_ts
  last_transition_ts := enqueue_ts
  last_transition_reason := recoveredDefaultReady

/-- The runtime map before any group file is read. -/
def defaultRuntimes (messages : List (UInt64 × Message)) (runtime : Map MessageId MessageRuntime) :
    Map MessageId MessageRuntime :=
  messages.foldl (fun runtime om => runtime.insert om.2.id (defaultRuntime om.1 om.2.enqueue_ts)) runtime

/-- `ApplyTransition` for every event, with the next sequence behind it. -/
def replay (env : Env) (opts : EngineOptions) (events : List TransitionEvent) (group : ConsumerGroupState) :
    ConsumerGroupState :=
  events.foldl
    (fun group event =>
      let group := applyTransition env opts group event
      let next := event.sequence + 1
      { group with next_sequence := if group.next_sequence < next then next else group.next_sequence })
    group

/-- A message found in flight is ready again. -/
def MessageRuntime.recovered (now : UInt64) (rt : MessageRuntime) : MessageRuntime :=
  if rt.state = .kInFlight then
    { rt with
      state := .kReady
      available_after_ms := now
      last_transition_reason := reasonToString .kRecoveredInflightToReady
      last_transition_ts := now }
  else rt

def recoverInflight (now : UInt64) (group : ConsumerGroupState) : ConsumerGroupState :=
  { group with runtime := mapValues (fun _ => MessageRuntime.recovered now) group.runtime }

/-- The part of `LoadGroupState` that reads `<group>.state`. -/
def loadStateFile (io : Io) (opts : EngineOptions) (queue_name : Path) (group_id : CString) (fs : Fs)
    (group : ConsumerGroupState) : StatusOr ConsumerGroupState :=
  let path := groupStatePath opts.data_dir queue_name group_id
  match fs.disk path with
  | none => .ok group
  | some file =>
    match io.unreadable path with
    | some .closed => ioError "open group state failed"
    | some .failing => corrupt "group state corrupted"
    | none => loadSnapshot file group

def loadGroupState (env : Env) (opts : EngineOptions) (queue_name : Path) (group_id : CString) (segment : SegmentLog)
    (fs : Fs) : StatusOr ConsumerGroupState :=
  let group := initScheduler env opts {}
  match readMessages segment fs segment.offsets with
  | .error e => .error e
  | .ok messages =>
    let group := { group with runtime := defaultRuntimes (env.offset_order.order messages) group.runtime }
    match loadStateFile env.toIo opts queue_name group_id fs group with
    | .error e => .error e
    | .ok group =>
      match loadTransitions env.toIo opts queue_name group_id allSequences fs with
      | .error e => .error e
      | .ok events =>
        .ok (buildReadyQueue env (recoverInflight (env.now .loadGroupState) (replay env opts events group)))

/-! ## Transitions -/

/-- The failpoint `after_log_append` returns before the flush, but closing the
stream writes the event all the same. -/
def appendTransition (env : Env) (opts : EngineOptions) (queue_name : Path) (group_id : CString)
    (group : ConsumerGroupState) (event : TransitionEvent) (fs : Fs) : StatusOr Unit × ConsumerGroupState × Fs :=
  let path := groupEventPath opts.data_dir queue_name group_id
  let data := encodeEvent event
  if env.failpoint = some .before_log_append then (ioError "failpoint before_log_append", group, fs)
  else if env.refused data then (ioError "open event log failed", group, fs)
  else
    let fs := fs.call (.creat path)
    match env.fault (.append path data) with
    | some n =>
      (ioError (if env.failpoint = some .after_log_append then "failpoint after_log_append" else "append event failed"),
        group, fs.call (.append path (data.take n)))
    | none =>
      let fs := fs.call (.append path data)
      if env.failpoint = some .after_log_append then (ioError "failpoint after_log_append", group, fs)
      else (.ok (), applyTransition env opts group event, fs)

/-- `group.next_sequence++`. -/
def bump (group : ConsumerGroupState) : ConsumerGroupState := { group with next_sequence := group.next_sequence + 1 }

def timeoutEvent (opts : EngineOptions) (now sequence : UInt64) (id : MessageId) (rt : MessageRuntime) :
    TransitionEvent :=
  if opts.max_retry_count < rt.retry_count + 1 then
    { sequence, id, retry_count := rt.retry_count + 1, transition_ts := now, state := .kDead,
      reason := .kVisibilityTimeoutDead }
  else
    { sequence, id, retry_count := rt.retry_count + 1, transition_ts := now, state := .kReady,
      available_after_ms := now + opts.retry_backoff.toUInt64, reason := .kVisibilityTimeoutRequeued }

/-- One id of the bucket that is being reaped. -/
def reapOne (env : Env) (opts : EngineOptions) (queue_name : Path) (group_id : CString) (now : UInt64) (id : MessageId)
    (group : ConsumerGroupState) (fs : Fs) : ConsumerGroupState × Fs :=
  match group.inflight.lookup id with
  | none => (group, fs)
  | some entry =>
    if group.wheel_base_tick < entry.bucket_tick then (group, fs)
    else if now < entry.deadline_ms then (pushSlot group (slotOf group entry.bucket_tick) id, fs)
    else
      match group.runtime.lookup id with
      | none => ({ group with inflight := group.inflight.erase id }, fs)
      | some rt =>
        let event := timeoutEvent opts now group.next_sequence id rt
        if env.failpoint = some .before_timeout_transition then (bump group, fs)
        else (appendTransition env opts queue_name group_id (bump group) event fs).2

def reapBucket (env : Env) (opts : EngineOptions) (queue_name : Path) (group_id : CString) (now : UInt64) :
    List MessageId → ConsumerGroupState → Fs → ConsumerGroupState × Fs
  | [], group, fs => (group, fs)
  | id :: bucket, group, fs =>
    match reapOne env opts queue_name group_id now id group fs with
    | (group, fs) => reapBucket env opts queue_name group_id now bucket group fs

/-- The loop over the ticks, `rounds` of them left. -/
def reapTicks (env : Env) (opts : EngineOptions) (queue_name : Path) (group_id : CString) (now : UInt64) :
    Nat → ConsumerGroupState → Fs → ConsumerGroupState × Fs
  | 0, group, fs => (group, fs)
  | rounds + 1, group, fs =>
    let slot := slotOf group group.wheel_base_tick
    let bucket := group.deadline_wheel.getD slot []
    let group := { group with deadline_wheel := group.deadline_wheel.set slot [] }
    match reapBucket env opts queue_name group_id now bucket group fs with
    | (group, fs) =>
      reapTicks env opts queue_name group_id now rounds { group with wheel_base_tick := group.wheel_base_tick + 1 } fs

/-- `while (wheel_base_tick <= now_tick)` goes round once for every tick up to
`now_tick`, which is not the last `uint64_t`. -/
def reapExpiredInflight (env : Env) (opts : EngineOptions) (queue_name : Path) (group_id : CString)
    (group : ConsumerGroupState) (fs : Fs) : ConsumerGroupState × Fs :=
  let group := if group.deadline_wheel.isEmpty then initScheduler env opts group else group
  let now := env.now .reapExpiredInflight
  let now_tick := now / opts.tickMs
  match reapTicks env opts queue_name group_id now (now_tick.toNat + 1 - group.wheel_base_tick.toNat) group fs with
  | (group, fs) => (buildReadyQueue env group, fs)

/-! ## The operations on a loaded group -/

def deliverEvent (opts : EngineOptions) (group_id : CString) (now sequence : UInt64) (id : MessageId)
    (rt : MessageRuntime) : TransitionEvent where
  sequence := sequence
  id := id
  state := .kInFlight
  retry_count := rt.retry_count
  available_after_ms := now
  transition_ts := now
  deadline_ms := now + opts.visibility_timeout.toUInt64
  owner := group_id
  lease_token := leaseToken id sequence
  reason := .kDelivered

/-- The runtime entry `Consume` makes up for an id without one. -/
def createdRuntime (now offset enqueue_ts : UInt64) : MessageRuntime where
  state := .kReady
  offset := offset
  enqueue_ts := enqueue_ts
  last_transition_ts := now
  last_transition_reason := runtimeCreatedOnConsume

def consumedMessage (record : Record) : Message where
  id := idOf record
  enqueue_ts := record.header.enqueue_ts
  payload := record.payload
  headers := record.headers.foldl (fun headers kv => headers.insert kv.1 kv.2) ∅
  routing_key := record.routing_key

/-- `ConsumeOnShard` from the offset it takes off `ready_offsets`. -/
def deliver (env : Env) (opts : EngineOptions) (queue_name : Path) (group_id : CString) (offset : UInt64)
    (record : Record) (group : ConsumerGroupState) (fs : Fs) :
    StatusOr (Option ConsumeResult) × ConsumerGroupState × Fs :=
  let id := idOf record
  let created := createdRuntime (env.now .runtimeCreated) offset record.header.enqueue_ts
  let rt := (group.runtime.lookup id).getD created
  let group :=
    if (group.runtime.lookup id).isNone then { group with runtime := group.runtime.insert id created } else group
  let event := deliverEvent opts group_id (env.now .consume) group.next_sequence id rt
  if env.failpoint = some .before_lease_issue then (ioError "failpoint before_lease_issue", bump group, fs)
  else
    match appendTransition env opts queue_name group_id (bump group) event fs with
    | (.error e, group, fs) => (.error e, group, fs)
    | (.ok _, group, fs) =>
      match persistGroupState env opts queue_name group_id group fs with
      | (.error e, fs) => (.error e, group, fs)
      | (.ok _, fs) =>
        (.ok (some { message := consumedMessage record, offset, delivery_count := event.retry_count + 1 }), group, fs)

def consumeGroup (env : Env) (opts : EngineOptions) (queue_name : Path) (group_id : CString) (segment : SegmentLog)
    (group : ConsumerGroupState) (fs : Fs) : StatusOr (Option ConsumeResult) × ConsumerGroupState × Fs :=
  match reapExpiredInflight env opts queue_name group_id group fs with
  | (group, fs) =>
    if opts.max_inflight.toNat ≤ group.inflight.entries.length then (.ok none, group, fs)
    else
      match group.ready_offsets with
      | [] => (.ok none, group, fs)
      | offset :: offsets =>
        let group := { group with ready_offsets := offsets }
        match segment.read fs offset with
        | .error e => (.error e, group, fs)
        | .ok record => deliver env opts queue_name group_id offset record group fs

def ackEvent (now sequence : UInt64) (id : MessageId) (rt : MessageRuntime) : TransitionEvent where
  sequence := sequence
  id := id
  state := .kAcked
  retry_count := rt.retry_count
  transition_ts := now
  reason := .kAcked

/-- `AppendTransition` and `PersistGroupState`, as `Ack` and `Nack` end. -/
def commit (env : Env) (opts : EngineOptions) (queue_name : Path) (group_id : CString) (group : ConsumerGroupState)
    (event : TransitionEvent) (rebuild : Bool) (fs : Fs) : StatusOr Unit × ConsumerGroupState × Fs :=
  match appendTransition env opts queue_name group_id group event fs with
  | (.error e, group, fs) => (.error e, group, fs)
  | (.ok _, group, fs) =>
    let group := if rebuild then buildReadyQueue env group else group
    match persistGroupState env opts queue_name group_id group fs with
    | (.error e, fs) => (.error e, group, fs)
    | (.ok _, fs) => (.ok (), group, fs)

def ackGroup (env : Env) (opts : EngineOptions) (queue_name : Path) (group_id : CString) (id : MessageId)
    (group : ConsumerGroupState) (fs : Fs) : StatusOr Unit × ConsumerGroupState × Fs :=
  match group.inflight.lookup id with
  | none => (.error (.status .kNotFound "inflight not found"), group, fs)
  | some _ =>
    match group.runtime.lookup id with
    | none => (.error (.status .kCorruption "runtime missing"), group, fs)
    | some rt =>
      let event := ackEvent (env.now .ack) group.next_sequence id rt
      if env.failpoint = some .before_ack_transition then
        (ioError "failpoint before_ack_transition", bump group, fs)
      else commit env opts queue_name group_id (bump group) event false fs

/-- `backoff_now` is the second reading of the clock. -/
def nackEvent (opts : EngineOptions) (now backoff_now sequence : UInt64) (id : MessageId) (rt : MessageRuntime)
    (requeue : Bool) : TransitionEvent :=
  if !requeue then
    { sequence, id, retry_count := rt.retry_count, transition_ts := now, state := .kDead, reason := .kConsumerNackDead }
  else if opts.max_retry_count < rt.retry_count + 1 then
    { sequence, id, retry_count := rt.retry_count + 1, transition_ts := now, state := .kDead,
      reason := .kConsumerNackDead }
  else
    { sequence, id, retry_count := rt.retry_count + 1, transition_ts := now, state := .kReady,
      available_after_ms := backoff_now + opts.retry_backoff.toUInt64, reason := .kConsumerNackRequeued }

def nackGroup (env : Env) (opts : EngineOptions) (queue_name : Path) (group_id : CString) (id : MessageId)
    (requeue : Bool) (group : ConsumerGroupState) (fs : Fs) : StatusOr Unit × ConsumerGroupState × Fs :=
  match group.inflight.lookup id with
  | none => (.error (.status .kNotFound "inflight not found"), group, fs)
  | some _ =>
    match group.runtime.lookup id with
    | none => (.error (.status .kCorruption "runtime missing"), group, fs)
    | some rt =>
      let event := nackEvent opts (env.now .nack) (env.now .nackBackoff) group.next_sequence id rt requeue
      if event.state = .kDead ∧ env.failpoint = some .before_dlq_move then
        (ioError "failpoint before_dlq_move", bump group, fs)
      else commit env opts queue_name group_id (bump group) event true fs

/-- The loop of `GetStats`: the counts so far and `oldest_ts`. -/
def countItem (acc : QueueStats × UInt64) (item : Item) : QueueStats × UInt64 :=
  match item.2.state with
  | .kReady =>
    ({ acc.1 with ready_count := acc.1.ready_count + 1 },
      if acc.2 = 0 ∨ item.2.enqueue_ts < acc.2 then item.2.enqueue_ts else acc.2)
  | .kInFlight => ({ acc.1 with inflight_count := acc.1.inflight_count + 1 }, acc.2)
  | .kAcked => ({ acc.1 with acked_count := acc.1.acked_count + 1 }, acc.2)
  | .kDead => ({ acc.1 with dead_count := acc.1.dead_count + 1 }, acc.2)

def groupStats (env : Env) (group : ConsumerGroupState) : QueueStats :=
  let now := env.now .getStats
  match (env.runtime_order.order group.runtime.entries).foldl countItem ({}, 0) with
  | (stats, oldest_ts) =>
    if 0 < oldest_ts ∧ oldest_ts < now then { stats with oldest_ready_age_ms := now - oldest_ts } else stats

def getStatsGroup (env : Env) (opts : EngineOptions) (queue_name : Path) (group_id : CString)
    (group : ConsumerGroupState) (fs : Fs) : StatusOr QueueStats × ConsumerGroupState × Fs :=
  match reapExpiredInflight env opts queue_name group_id group fs with
  | (group, fs) => (.ok (groupStats env group), group, fs)

/-- The operations that name a group. -/
inductive GroupOp
  | consume
  | ack (id : MessageId)
  | nack (id : MessageId) (requeue : Bool)
  | getStats
  deriving DecidableEq

inductive Reply
  | done
  | offset (offset : UInt64)
  | consumed (result : Option ConsumeResult)
  | stats (stats : QueueStats)

def groupOp (env : Env) (opts : EngineOptions) (queue_name : Path) (group_id : CString) (op : GroupOp)
    (segment : SegmentLog) (group : ConsumerGroupState) (fs : Fs) : StatusOr Reply × ConsumerGroupState × Fs :=
  match op with
  | .consume => (consumeGroup env opts queue_name group_id segment group fs).map (·.map .consumed) id
  | .ack id' => (ackGroup env opts queue_name group_id id' group fs).map (·.map fun _ => .done) id
  | .nack id' requeue => (nackGroup env opts queue_name group_id id' requeue group fs).map (·.map fun _ => .done) id
  | .getStats => (getStatsGroup env opts queue_name group_id group fs).map (·.map .stats) id

end PomaiQueue.Engine
