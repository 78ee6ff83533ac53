import PomaiQueue.Model
/-!
# The snapshot

`<group>.state`: the bytes `PersistGroupState` writes and the part of
`LoadGroupState` that reads them. Reading a snapshot overwrites the entries of
the runtime map that are already there, in place, and adds none (`overlay`).
-/

namespace PomaiQueue.Engine

open Wire Posix Assoc Storage

/-- An entry of the runtime map. -/
abbrev Item := Sigma fun _ : MessageId => MessageRuntime

def encodeItem (item : Item) : Bytes :=
  putU64 item.1.high ++ (putU64 item.1.low ++ (putU64 item.2.offset ++ (putU32 (encodeState item.2.state) ++
  (putU32 item.2.retry_count ++ (putU64 item.2.enqueue_ts ++ (putU64 item.2.last_transition_ts ++
  (putU64 item.2.available_after_ms ++ (putU64 item.2.sequence ++
  (Reader.putSized item.2.last_transition_reason ++ [])))))))))

def encodeSnapshot (next_sequence : UInt64) (items : List Item) : Bytes :=
  putU64 (UInt64.ofNat items.length) ++ (putU64 next_sequence ++ items.flatMap encodeItem)

/-- What `PersistGroupState` writes for a group. -/
def snapshotBytes (env : Env) (group : ConsumerGroupState) : Bytes :=
  encodeSnapshot group.next_sequence (env.runtime_order.order group.runtime.entries)

def persistGroupState (env : Env) (opts : EngineOptions) (queue_name : Path) (group_id : CString)
    (group : ConsumerGroupState) (fs : Fs) : StatusOr Unit × Fs :=
  if env.failpoint = some .before_checkpoint_rename then (ioError "failpoint before_checkpoint_rename", fs)
  else
    durableWriteFile env.toIo env.spills (if env.early then some "write group state failed" else none)
      (groupStatePath opts.data_dir queue_name group_id) (snapshotBytes env group) opts.fsync_policy fs

/-! ## Reading -/

def readItem : Reader Failure Item := do
  let high ← Reader.u64
  let low ← Reader.u64
  let offset ← Reader.u64
  let state ← Reader.u32
  let retry_count ← Reader.u32
  let enqueue_ts ← Reader.u64
  let last_transition_ts ← Reader.u64
  let available_after_ms ← Reader.u64
  let sequence ← Reader.u64
  let last_transition_reason ← Reader.sized .length_error
  return ⟨{ high, low }, { state := decodeState state, offset, retry_count, enqueue_ts, last_transition_ts,
                           available_after_ms, sequence, last_transition_reason }⟩

/-- The loop over `count` entries: each replaces the entry of its id, if there
is one. -/
def loadItems : Nat → IStream → Map MessageId MessageRuntime → StatusOr (Map MessageId MessageRuntime)
  | 0, _, runtime => .ok runtime
  | count + 1, s, runtime =>
    match readItem s with
    | .error e => .error e
    | .ok (item, s) =>
      if s.eof then corrupt "group state corrupted"
      else loadItems count s (adjust item.1 (fun _ => item.2) runtime)

theorem loadItems_succ (count : Nat) (s : IStream) (runtime : Map MessageId MessageRuntime) :
    loadItems (count + 1) s runtime =
      match readItem s with
      | .error e => .error e
      | .ok (item, s) =>
        if s.eof then corrupt "group state corrupted"
        else loadItems count s (adjust item.1 (fun _ => item.2) runtime) := by
  rfl

def loadSnapshot (file : Bytes) (group : ConsumerGroupState) : StatusOr ConsumerGroupState :=
  let count := IStream.read ⟨file, false⟩ 8
  let next := count.2.read 8
  if next.2.eof then corrupt "group state corrupted"
  else
    match loadItems (getU64 count.1).toNat next.2 group.runtime with
    | .error e => .error e
    | .ok runtime => .ok { group with next_sequence := getU64 next.1, runtime }

/-! ## The round trip -/

/-- `items` put over the entries of `runtime`, one after the other. -/
def overlay (items : List Item) (runtime : Map MessageId MessageRuntime) : Map MessageId MessageRuntime :=
  items.foldl (fun runtime item => adjust item.1 (fun _ => item.2) runtime) runtime

theorem readItem_parses (item : Item) : Reader.Parses readItem (encodeItem item) item := by
  unfold readItem encodeItem
  refine (Reader.parses_u64 _).bind ((Reader.parses_u64 _).bind ((Reader.parses_u64 _).bind
    ((Reader.parses_u32 _).bind ((Reader.parses_u32 _).bind ((Reader.parses_u64 _).bind ((Reader.parses_u64 _).bind
    ((Reader.parses_u64 _).bind ((Reader.parses_u64 _).bind ((Reader.parses_sized _ _).bind ?_)))))))))
  rw [decodeState_encodeState]
  exact Reader.parses_pure item

theorem loadItems_encode (items : List Item) (m : Bytes) (runtime : Map MessageId MessageRuntime) :
    loadItems items.length ⟨items.flatMap encodeItem ++ m, false⟩ runtime = .ok (overlay items runtime) := by
  induction items generalizing runtime with
  | nil => rfl
  | cons item items ih =>
    have hread : readItem ⟨encodeItem item ++ (items.flatMap encodeItem ++ m), false⟩ =
        .ok (item, ⟨items.flatMap encodeItem ++ m, false⟩) := readItem_parses item _
    rw [List.flatMap_cons, List.append_assoc, List.length_cons, loadItems_succ, hread]
    simp only [Bool.false_eq_true, if_false]
    exact ih _

/-- A snapshot that was written is put over the entries that are there. -/
theorem loadSnapshot_encode (next_sequence : UInt64) (items : List Item) (h : items.length < 2 ^ 64)
    (group : ConsumerGroupState) :
    loadSnapshot (encodeSnapshot next_sequence items) group =
      .ok { group with next_sequence, runtime := overlay items group.runtime } := by
  have hcount : IStream.read ⟨encodeSnapshot next_sequence items, false⟩ 8 =
      (putU64 (UInt64.ofNat items.length), ⟨putU64 next_sequence ++ items.flatMap encodeItem, false⟩) :=
    IStream.read_append _ _ 8 (putU64_length _)
  have hnext : IStream.read ⟨putU64 next_sequence ++ items.flatMap encodeItem, false⟩ 8 =
      (putU64 next_sequence, ⟨items.flatMap encodeItem, false⟩) :=
    IStream.read_append _ _ 8 (putU64_length _)
  have hitems := loadItems_encode items [] group.runtime
  rw [List.append_nil] at hitems
  have hn : (UInt64.ofNat items.length).toNat = items.length := UInt64.toNat_ofNat_of_lt' h
  simp only [loadSnapshot, hcount, hnext, getU64_putU64, hn, hitems, Bool.false_eq_true, if_false]

@[simp] theorem overlay_keys (items : List Item) (runtime : Map MessageId MessageRuntime) :
    (overlay items runtime).keys = runtime.keys := by
  induction items generalizing runtime with
  | nil => rfl
  | cons item items ih => exact (ih _).trans (adjust_keys _ _ _)

/-- An entry under a snapshot is itself or one of the snapshot's. -/
theorem overlay_lookup (items : List Item) (runtime : Map MessageId MessageRuntime) (id : MessageId)
    (rt : MessageRuntime) (h : runtime.lookup id = some rt) :
    ∃ rt', (overlay items runtime).lookup id = some rt' ∧ (rt' = rt ∨ ⟨id, rt'⟩ ∈ items) := by
  induction items generalizing runtime rt with
  | nil => exact ⟨rt, h, .inl rfl⟩
  | cons item items ih =>
    have ha := lookup_adjust item.1 id (fun _ => item.2) runtime
    rw [h] at ha
    by_cases hid : id = item.1
    · rw [if_pos hid] at ha
      obtain ⟨rt', hl, hor⟩ := ih _ _ ha
      refine ⟨rt', hl, .inr ?_⟩
      rcases hor with rfl | hmem
      · rw [hid]; exact List.mem_cons_self
      · exact List.mem_cons_of_mem _ hmem
    · rw [if_neg hid] at ha
      obtain ⟨rt', hl, hor⟩ := ih _ _ ha
      exact ⟨rt', hl, hor.imp_right (List.mem_cons_of_mem _)⟩

end PomaiQueue.Engine
