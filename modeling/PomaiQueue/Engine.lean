import PomaiQueue.Group
/-!
# The engine

`QueueEngine` of `src/core/engine/queue_engine.cc`: its queues, their groups and
the operations. The shards run the operations on one queue one after the other,
so a run is a list of operations.

A `Step` is an operation, or an operation during which the process is killed
and after which a new engine is started on the files. The kill falls between
two system calls: the first `calls` of the operation have happened.

`ReplayToSequence` is in `PointInTime`, and how a shard runs what it is given in
`ShardActor`. Left out: the choice of the shard and `InspectMessage`.
-/

namespace PomaiQueue.Engine

open Wire Posix Assoc Storage

structure QueueState where
  segment : SegmentLog
  groups : Map CString ConsumerGroupState := ∅

structure QueueEngine where
  options : EngineOptions
  queues : Map Path QueueState := ∅
  fs : Fs

/-! ## The operations -/

def getGroup (env : Env) (opts : EngineOptions) (queue_name : Path) (queue : QueueState) (group_id : CString) (fs : Fs) :
    StatusOr ConsumerGroupState :=
  match queue.groups.lookup group_id with
  | some group => .ok group
  | none => loadGroupState env opts queue_name group_id queue.segment fs

def queueNotFound {α : Type} : StatusOr α := .error (.status .kNotFound "queue not found")

/-- `ConsumeOnShard`, `AckOnShard`, `NackOnShard` and `GetStatsOnShard`: find the
queue and the group, and do `op` on it. -/
def onGroup (env : Env) (queue_name : Path) (group_id : CString) (op : GroupOp) (engine : QueueEngine) :
    StatusOr Reply × QueueEngine :=
  match engine.queues.lookup queue_name with
  | none => (queueNotFound, engine)
  | some queue =>
    match getGroup env engine.options queue_name queue group_id engine.fs with
    | .error e => (.error e, engine)
    | .ok group =>
      match groupOp env engine.options queue_name group_id op queue.segment group engine.fs with
      | (result, group, fs) =>
        (result,
          { engine with
            queues := engine.queues.insert queue_name { queue with groups := queue.groups.insert group_id group }
            fs := fs })

def consumeOnShard (env : Env) (queue_name : Path) (group_id : CString) (engine : QueueEngine) :
    StatusOr Reply × QueueEngine := onGroup env queue_name group_id .consume engine

def ackOnShard (env : Env) (queue_name : Path) (group_id : CString) (id : MessageId) (engine : QueueEngine) :
    StatusOr Reply × QueueEngine := onGroup env queue_name group_id (.ack id) engine

def nackOnShard (env : Env) (queue_name : Path) (group_id : CString) (id : MessageId) (requeue : Bool)
    (engine : QueueEngine) : StatusOr Reply × QueueEngine := onGroup env queue_name group_id (.nack id requeue) engine

def getStatsOnShard (env : Env) (queue_name : Path) (group_id : CString) (engine : QueueEngine) :
    StatusOr Reply × QueueEngine := onGroup env queue_name group_id .getStats engine

def createQueueOnShard (env : Env) (queue_name : Path) (engine : QueueEngine) : StatusOr Unit × QueueEngine :=
  match engine.queues.lookup queue_name with
  | some _ => (.error (.status .kAlreadyExists "queue already exists"), engine)
  | none =>
    match SegmentLog.reopen env.toIo (segmentPath engine.options.data_dir queue_name) engine.options.fsync_policy
        engine.fs with
    | (.error e, _, fs) => (.error e, { engine with fs })
    | (.ok _, segment, fs) => (.ok (), { engine with queues := engine.queues.insert queue_name { segment }, fs })

/-- The record `ProduceOnShard` appends for a message. -/
def recordOf (message : Message) : Record where
  header :=
    { msg_id_high := message.id.high, msg_id_low := message.id.low, enqueue_ts := message.enqueue_ts }
  payload := message.payload
  headers := message.headerList
  routing_key := message.routing_key

def produceOnShard (env : Env) (queue_name : Path) (message : Message) (engine : QueueEngine) :
    StatusOr UInt64 × QueueEngine :=
  match engine.queues.lookup queue_name with
  | none => (queueNotFound, engine)
  | some queue =>
    if engine.options.max_queue_depth.toNat ≤ queue.segment.next_offset.toNat then
      (.error (.status .kUnavailable "queue is full"), engine)
    else if engine.options.max_segment_size_bytes.toNat ≤ queue.segment.sizeBytes engine.fs then
      (.error (.status .kUnavailable "segment size limit reached"), engine)
    else
      match SegmentLog.append env.toIo (recordOf message) queue.segment engine.fs with
      | (result, segment, fs) =>
        (result, { engine with queues := engine.queues.insert queue_name { queue with segment }, fs })

/-! ## Runs -/

inductive Op
  | createQueue (queue_name : Path)
  | produce (queue_name : Path) (message : Message)
  | group (queue_name : Path) (group_id : CString) (op : GroupOp)

def runOp (env : Env) (engine : QueueEngine) : Op → StatusOr Reply × QueueEngine
  | .createQueue q => (createQueueOnShard env q engine).map (·.map fun _ => .done) id
  | .produce q message => (produceOnShard env q message engine).map (·.map .offset) id
  | .group q g .consume => consumeOnShard env q g engine
  | .group q g (.ack id) => ackOnShard env q g id engine
  | .group q g (.nack id requeue) => nackOnShard env q g id requeue engine
  | .group q g .getStats => getStatsOnShard env q g engine

theorem runOp_group (env : Env) (engine : QueueEngine) (q : Path) (g : CString) (op : GroupOp) :
    runOp env engine (.group q g op) = onGroup env q g op engine := by
  cases op <;> rfl

inductive Step
  | op (env : Env) (op : Op)
  | kill (env : Env) (op : Op) (calls : Nat) (options : EngineOptions)

def step (engine : QueueEngine) : Step → QueueEngine
  | .op env o => (runOp env engine o).2
  | .kill env o calls options =>
    { options, fs := (runOp env engine o).2.fs.cut (engine.fs.calls.length + calls) }

def run (engine : QueueEngine) (steps : List Step) : QueueEngine := steps.foldl step engine

@[simp] theorem run_nil (engine : QueueEngine) : run engine [] = engine := rfl

@[simp] theorem run_cons (engine : QueueEngine) (s : Step) (steps : List Step) :
    run engine (s :: steps) = run (step engine s) steps := rfl

theorem run_concat (engine : QueueEngine) (steps : List Step) (s : Step) :
    run engine (steps ++ [s]) = step (run engine steps) s := by
  simp [run]

/-- An engine on an empty data directory. -/
def freshEngine (opts : EngineOptions) : QueueEngine := { options := opts, fs := { base := fun _ => none } }

end PomaiQueue.Engine
