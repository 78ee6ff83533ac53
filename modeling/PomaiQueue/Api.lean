import PomaiQueue.PointInTime
/-!
# The calls of the API

The requests that `src/core/api/pomai_queue.cc` passes on to the engine, with
`InspectMessageOnShard`, which the other modules do not need. `perform` is what the
shard of the queue does for a request, and `serve` is a request, or a request during
which the process is killed and after which a new engine is started on the files.

`InspectMessage` changes nothing but that it loads the group.
-/

namespace PomaiQueue.Engine

open Wire Posix Assoc Storage

/-! ## InspectMessage -/

structure MessageDebugView where
  state : MessageState := .kReady
  sequence : UInt64 := 0
  enqueue_time_ms : UInt64 := 0
  last_transition_time_ms : UInt64 := 0
  retry_count : UInt32 := 0
  next_visible_at_ms : UInt64 := 0
  last_transition_reason : CString
  lease_owner : CString := emptyString
  lease_token : CString := emptyString
  deriving DecidableEq

/-- The view of a message that has an entry in the runtime map. -/
def debugView (group : ConsumerGroupState) (id : MessageId) (rt : MessageRuntime) : MessageDebugView :=
  let view : MessageDebugView :=
    { state := rt.state
      sequence := rt.sequence
      retry_count := rt.retry_count
      enqueue_time_ms := rt.enqueue_ts
      last_transition_time_ms := rt.last_transition_ts
      next_visible_at_ms := rt.available_after_ms
      last_transition_reason := rt.last_transition_reason }
  match group.inflight.lookup id with
  | none => view
  | some entry =>
    { view with lease_owner := entry.owner, lease_token := entry.lease_token, next_visible_at_ms := entry.deadline_ms }

def inspectGroup (id : MessageId) (group : ConsumerGroupState) : StatusOr MessageDebugView :=
  match group.runtime.lookup id with
  | none => .error (.status .kNotFound "message not found")
  | some rt => .ok (debugView group id rt)

def inspectMessageOnShard (env : Env) (queue_name : Path) (group_id : CString) (id : MessageId) (engine : QueueEngine) :
    StatusOr MessageDebugView × QueueEngine :=
  match engine.queues.lookup queue_name with
  | none => (queueNotFound, engine)
  | some queue =>
    match getGroup env engine.options queue_name queue group_id engine.fs with
    | .error e => (.error e, engine)
    | .ok group =>
      (inspectGroup id group,
        { engine with queues := engine.queues.insert queue_name { queue with groups := queue.groups.insert group_id group } })

/-! ## Requests -/

inductive Request
  | op (op : Op)
  | inspectMessage (queue_name : Path) (group_id : CString) (id : MessageId)
  | replayToSequence (queue_name : Path) (group_id : CString) (until_sequence : UInt64)

inductive Response
  | reply (reply : StatusOr Reply)
  | view (view : StatusOr MessageDebugView)
  | replayed (result : StatusOr ReplayResult)

/-- What the shard of the queue does. -/
def perform (env : Env) (engine : QueueEngine) : Request → Response × QueueEngine
  | .op o => (runOp env engine o).map .reply id
  | .inspectMessage q g id' => (inspectMessageOnShard env q g id' engine).map .view id
  | .replayToSequence q g until_sequence => (.replayed (replayToSequenceOnShard env q g until_sequence engine), engine)

/-- A request that is answered, or one during which the process is killed. -/
inductive Event
  | request (env : Env) (request : Request)
  | kill (env : Env) (request : Request) (calls : Nat) (options : EngineOptions)

/-- A request that is cut short is not answered. -/
def serve (engine : QueueEngine) : Event → Option Response × QueueEngine
  | .request env r => (perform env engine r).map some id
  | .kill env r calls options =>
    (none, { options, fs := (perform env engine r).2.fs.cut (engine.fs.calls.length + calls) })

/-- Starting the engine again, with nothing going on. -/
def restart (options : EngineOptions) : Event := .kill {} (.replayToSequence [] emptyString 0) 0 options

theorem serve_restart (engine : QueueEngine) (options : EngineOptions) :
    serve engine (restart options) = (none, { options, fs := engine.fs }) := by
  have hcut : engine.fs.cut (engine.fs.calls.length + 0) = engine.fs := by rw [Fs.cut, Nat.add_zero, List.take_length]
  simp only [serve, restart, perform, hcut]

def Op.queue : Op → Path
  | .createQueue q => q
  | .produce q _ => q
  | .group q _ _ => q

/-- The group that an operation is for, if it is for one. -/
def Op.group? : Op → Option CString
  | .createQueue _ => none
  | .produce _ _ => none
  | .group _ g _ => some g

def Request.queue : Request → Path
  | .op o => o.queue
  | .inspectMessage q _ _ => q
  | .replayToSequence q _ _ => q

def Request.group? : Request → Option CString
  | .op o => o.group?
  | .inspectMessage _ g _ => some g
  | .replayToSequence _ g _ => some g

/-! ## What inspecting does to the engine -/

theorem inspectMessageOnShard_cases (env : Env) (q : Path) (g : CString) (id : MessageId) (e : QueueEngine) :
    (∃ err, inspectMessageOnShard env q g id e = (.error err, e)) ∨
      ∃ queue group, e.queues.lookup q = some queue ∧ getGroup env e.options q queue g e.fs = .ok group ∧
        inspectMessageOnShard env q g id e =
          (inspectGroup id group, { e with queues := e.queues.insert q { queue with groups := queue.groups.insert g group } }) := by
  unfold inspectMessageOnShard
  split
  · exact .inl ⟨_, rfl⟩
  · rename_i queue hqueue
    split
    · rename_i err herr
      exact .inl ⟨err, rfl⟩
    · rename_i group hgroup
      exact .inr ⟨queue, group, hqueue, hgroup, rfl⟩

/-- Inspecting makes no system call. -/
theorem inspectMessageOnShard_fs (env : Env) (q : Path) (g : CString) (id : MessageId) (e : QueueEngine) :
    (inspectMessageOnShard env q g id e).2.fs = e.fs := by
  rcases inspectMessageOnShard_cases env q g id e with ⟨err, h⟩ | ⟨queue, group, -, -, h⟩
  · rw [h]
  · rw [h]

theorem perform_options (env : Env) (e : QueueEngine) (r : Request) : (perform env e r).2.options = e.options := by
  cases r with
  | op o => exact runOp_options env e o
  | inspectMessage q g id =>
    change (inspectMessageOnShard env q g id e).2.options = e.options
    rcases inspectMessageOnShard_cases env q g id e with ⟨err, h⟩ | ⟨queue, group, -, -, h⟩
    · rw [h]
    · rw [h]
  | replayToSequence q g until_sequence => rfl

theorem Placed.perform {env : Env} {e : QueueEngine} (hp : Placed e) (r : Request) : Placed (perform env e r).2 := by
  cases r with
  | op o => exact hp.runOp o
  | inspectMessage q g id =>
    change Placed (inspectMessageOnShard env q g id e).2
    rcases inspectMessageOnShard_cases env q g id e with ⟨err, h⟩ | ⟨queue, group, hqueue, -, h⟩
    · rw [h]
      exact hp
    · rw [h]
      intro q' queue' hl
      by_cases hq : q' = q
      · subst hq
        rw [AList.lookup_insert] at hl
        obtain rfl := Option.some.inj hl
        exact hp q' queue hqueue
      · rw [AList.lookup_insert_ne hq] at hl
        exact hp q' queue' hl
  | replayToSequence q g until_sequence => exact hp

theorem Placed.serve {e : QueueEngine} (hp : Placed e) (x : Event) : Placed (serve e x).2 := by
  cases x with
  | request env r => exact hp.perform r
  | kill env r calls options =>
    intro q queue hl
    cases hl

end PomaiQueue.Engine
