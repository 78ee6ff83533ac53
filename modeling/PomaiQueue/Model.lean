import Mathlib.Data.List.Sort
import PomaiQueue.Lib.Map
import PomaiQueue.Lib.Stream
import PomaiQueue.DurableIo
/-!
# The engine's data

`src/core/model/message.h` and the types of `src/core/engine/queue_engine.h`,
with the choices the system makes during one operation (`Env`) and the names
of the files a queue and its groups are kept in.

Left out: `ConsumerGroupState::checkpoint_store`, which nothing reads, and the
options `shard_count`, `retention` and `now_fn` (the clock is in `Env`).
-/

namespace PomaiQueue.Engine

open Wire Posix Assoc Storage

/-! ## Messages -/

structure MessageId where
  high : UInt64 := 0
  low : UInt64 := 0
  deriving DecidableEq

structure Message where
  id : MessageId := {}
  enqueue_ts : UInt64 := 0
  payload : Bytes := []
  headers : Map Bytes Bytes := ∅
  routing_key : Bytes := []

/-- `operator<=` on `std::string`, which compares unsigned bytes. -/
def keyLe (a b : Bytes × Bytes) : Prop := ¬ List.lex b.1 a.1 (· < ·) = true

instance : DecidableRel keyLe := fun a b => inferInstanceAs (Decidable (¬ List.lex b.1 a.1 (· < ·) = true))

/-- The headers in the order in which a `std::map` is iterated. -/
def Message.headerList (m : Message) : List (Bytes × Bytes) :=
  (m.headers.entries.map fun e => (e.1, e.2)).insertionSort keyLe

/-! ## Groups -/

inductive MessageState
  | kReady
  | kInFlight
  | kAcked
  | kDead
  deriving DecidableEq

/-- The enumerators, and the values without one that `DecodeReason` can cast
a code to. -/
inductive TransitionReason
  | kProduced
  | kDelivered
  | kAcked
  | kConsumerNackRequeued
  | kConsumerNackDead
  | kVisibilityTimeoutRequeued
  | kVisibilityTimeoutDead
  | kRecoveredInflightToReady
  | unnamed (code : UInt32) (h : 8 ≤ code)
  deriving DecidableEq

structure InflightEntry where
  offset : UInt64 := 0
  deadline_ms : UInt64 := 0
  bucket_tick : UInt64 := 0
  owner : CString
  lease_token : CString

structure MessageRuntime where
  state : MessageState := .kReady
  offset : UInt64 := 0
  retry_count : UInt32 := 0
  enqueue_ts : UInt64 := 0
  last_transition_ts : UInt64 := 0
  available_after_ms : UInt64 := 0
  sequence : UInt64 := 0
  last_transition_reason : CString
  deriving DecidableEq

def emptyString : CString := ⟨[], by decide⟩

structure TransitionEvent where
  sequence : UInt64 := 0
  id : MessageId := {}
  state : MessageState := .kReady
  retry_count : UInt32 := 0
  available_after_ms : UInt64 := 0
  transition_ts : UInt64 := 0
  deadline_ms : UInt64 := 0
  owner : CString := emptyString
  lease_token : CString := emptyString
  reason : TransitionReason := .kProduced
  deriving DecidableEq

structure ConsumerGroupState where
  ready_offsets : List UInt64 := []
  inflight : Map MessageId InflightEntry := ∅
  runtime : Map MessageId MessageRuntime := ∅
  deadline_wheel : List (List MessageId) := []
  wheel_base_tick : UInt64 := 0
  next_sequence : UInt64 := 1

structure ConsumeResult where
  message : Message := {}
  offset : UInt64 := 0
  delivery_count : UInt32 := 0

structure QueueStats where
  ready_count : UInt64 := 0
  inflight_count : UInt64 := 0
  acked_count : UInt64 := 0
  dead_count : UInt64 := 0
  oldest_ready_age_ms : UInt64 := 0
  deriving DecidableEq

/-- Durations are `std::chrono::milliseconds`. -/
structure EngineOptions where
  data_dir : Path := []
  fsync_policy : FsyncPolicy := .kAlways
  max_inflight : UInt32 := 100
  max_queue_depth : UInt32 := 10000
  max_retry_count : UInt32 := 5
  visibility_timeout : Int64 := 30000
  retry_backoff : Int64 := 1000
  scheduler_tick : Int64 := 100
  max_segment_size_bytes : UInt64 := 64 * 1024 * 1024

/-- `std::max<uint64_t>(1, scheduler_tick.count())`. -/
def EngineOptions.tickMs (o : EngineOptions) : UInt64 :=
  if 1 < o.scheduler_tick.toUInt64 then o.scheduler_tick.toUInt64 else 1

/-! ## Texts and codes -/

def reasonToString : TransitionReason → CString
  | .kProduced => ⟨ascii "produced", by decide⟩
  | .kDelivered => ⟨ascii "delivered-to-consumer", by decide⟩
  | .kAcked => ⟨ascii "acked-by-consumer", by decide⟩
  | .kConsumerNackRequeued => ⟨ascii "consumer-nack-requeued", by decide⟩
  | .kConsumerNackDead => ⟨ascii "consumer-nack-dead-lettered", by decide⟩
  | .kVisibilityTimeoutRequeued => ⟨ascii "visibility-timeout-requeued", by decide⟩
  | .kVisibilityTimeoutDead => ⟨ascii "visibility-timeout-retry-exhausted", by decide⟩
  | .kRecoveredInflightToReady => ⟨ascii "recovered-inflight-to-ready", by decide⟩
  | .unnamed _ _ => ⟨ascii "unknown", by decide⟩

def recoveredDefaultReady : CString := ⟨ascii "recovered-default-ready", by decide⟩

def runtimeCreatedOnConsume : CString := ⟨ascii "runtime-created-on-consume", by decide⟩

def encodeState : MessageState → UInt32
  | .kReady => 0
  | .kInFlight => 1
  | .kAcked => 2
  | .kDead => 3

def decodeState (state : UInt32) : MessageState :=
  if state = 0 then .kReady else if state = 1 then .kInFlight else if state = 2 then .kAcked else .kDead

def encodeReason : TransitionReason → UInt32
  | .kProduced => 0
  | .kDelivered => 1
  | .kAcked => 2
  | .kConsumerNackRequeued => 3
  | .kConsumerNackDead => 4
  | .kVisibilityTimeoutRequeued => 5
  | .kVisibilityTimeoutDead => 6
  | .kRecoveredInflightToReady => 7
  | .unnamed code _ => code

def decodeReason (code : UInt32) : TransitionReason :=
  if h : 8 ≤ code then .unnamed code h
  else
    match code.toNat with
    | 0 => .kProduced
    | 1 => .kDelivered
    | 2 => .kAcked
    | 3 => .kConsumerNackRequeued
    | 4 => .kConsumerNackDead
    | 5 => .kVisibilityTimeoutRequeued
    | 6 => .kVisibilityTimeoutDead
    | _ => .kRecoveredInflightToReady

@[simp] theorem decodeState_encodeState (s : MessageState) : decodeState (encodeState s) = s := by
  cases s <;> rfl

@[simp] theorem decodeReason_encodeReason (r : TransitionReason) : decodeReason (encodeReason r) = r := by
  cases r with
  | unnamed code h => exact dif_pos h
  | _ => rfl

/-- `std::to_string`, at most 20 digits for 64 bits. -/
def decimal (n : UInt64) : Bytes := digits 20 n.toNat
where
  digits : Nat → Nat → Bytes
    | 0, _ => []
    | fuel + 1, n => (if n < 10 then [] else digits fuel (n / 10)) ++ [UInt8.ofNat (48 + n % 10)]

theorem decimal_digits_length (fuel n : Nat) : (decimal.digits fuel n).length ≤ fuel := by
  induction fuel generalizing n with
  | zero => simp [decimal.digits]
  | succ fuel ih =>
    have := ih (n / 10)
    simp only [decimal.digits, List.length_append, List.length_singleton]
    split
    · simp
    · simp; omega

def leaseToken (id : MessageId) (sequence : UInt64) : CString :=
  ⟨decimal id.high ++ ascii ":" ++ decimal id.low ++ ascii ":" ++ decimal sequence, by
    have h1 := decimal_digits_length 20 id.high.toNat
    have h2 := decimal_digits_length 20 id.low.toNat
    have h3 := decimal_digits_length 20 sequence.toNat
    have h4 : (ascii ":").length = 1 := rfl
    simp only [List.length_append, decimal, maxSize, h4]
    omega⟩

/-! ## Files -/

/-- `operator/` of `std::filesystem::path`. -/
def join (a b : Path) : Path :=
  if b.head? = some 47 then b
  else if a = [] ∨ a.getLast? = some 47 then a ++ b
  else a ++ ascii "/" ++ b

def segmentPath (data_dir queue_name : Path) : Path := join (join data_dir queue_name) (ascii "seg-000001.log")

def groupStatePath (data_dir queue_name : Path) (group_id : CString) : Path :=
  join (join data_dir queue_name) (group_id.1 ++ ascii ".state")

def groupEventPath (data_dir queue_name : Path) (group_id : CString) : Path :=
  join (join data_dir queue_name) (group_id.1 ++ ascii ".events")

/-! ## The environment of an operation -/

/-- The places that call `CurrentTimeMs`. -/
inductive ClockRead
  | initScheduler
  | loadGroupState
  | buildReadyQueue
  | reapExpiredInflight
  | runtimeCreated
  | consume
  | ack
  | nack
  | nackBackoff
  | getStats
  deriving DecidableEq

theorem clock_ne : ∀ _ : ClockRead, (0 : UInt64) ≠ 0xFFFFFFFFFFFFFFFF := by
  intro _
  decide

/-- What the system does during one operation: beyond `Io`, the clock, the
iteration orders of the unordered maps and the pieces in which a snapshot is
written. The clock never shows the last `uint64_t`, at which the loop of
`ReapExpiredInflight` would not end. -/
structure Env extends Storage.Io where
  now : ClockRead → UInt64 := fun _ => 0
  now_ne : ∀ c, now c ≠ 0xFFFFFFFFFFFFFFFF := by first | exact clock_ne | intro _; decide
  offset_order : IterOrder (UInt64 × Message) := default
  runtime_order : IterOrder (Sigma fun _ : MessageId => MessageRuntime) := default
  /-- The sizes of the writes with which the stream buffer of a snapshot is emptied. -/
  spills : List Nat := []
  /-- Whether a failing write of a snapshot is noticed before the last flush. -/
  early : Bool := false

theorem quiet_default : ({} : Env).toIo.Quiet where
  failpoint := rfl
  fault _ := rfl
  refused _ := rfl
  reads _ := rfl
  writes := by simp

end PomaiQueue.Engine
