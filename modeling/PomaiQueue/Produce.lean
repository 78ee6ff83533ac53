import PomaiQueue.Steps
/-!
# Producing messages

A queue created on an empty data directory holds exactly the messages that
`Produce` accepted (`holds_produceAll`). Whether a message can be read back
depends on its record alone: `produced_reads_back_iff` says that it is when the
record fits the format, and only then. The encoder narrows what does not fit
and `Produce` accepts it all the same.
-/

namespace PomaiQueue.Engine

open Wire Posix Assoc Storage

/-- Successive calls of `Produce`, with the result of each. -/
def produceAll (q : Path) : List (Env × Message) → QueueEngine → List (StatusOr UInt64) × QueueEngine
  | [], e => ([], e)
  | (env, m) :: ops, e =>
    match produceOnShard env q m e with
    | (result, e) =>
      match produceAll q ops e with
      | (results, e) => (result :: results, e)

/-- The queue `q` holds `rs`. -/
def QueueHolds (e : QueueEngine) (q : Path) (rs : List Frame) : Prop :=
  ∃ queue, e.queues.lookup q = some queue ∧ Holds queue.segment e.fs rs

/-- The frame an accepted message becomes. -/
def messageFrame (op : Env × Message) : Frame := (op.1.pad, recordOf op.2)

/-- A reopened log on an empty or missing file holds nothing. -/
theorem holds_reopen {io : Io} {path : Path} (policy : FsyncPolicy) {fs : Fs} (hopen : io.fault (.creat path) = none)
    (hempty : fs.content path = []) :
    (SegmentLog.reopen io path policy fs).1 = .ok () ∧
      Holds (SegmentLog.reopen io path policy fs).2.1 (SegmentLog.reopen io path policy fs).2.2 [] := by
  obtain ⟨log, fs', heq, hp, -, hfd, hnext, hix, hdisk, -⟩ := reopen_stamped io path policy fs [] [] hopen
    (by simpa [stamped] using hempty) (by simp) (by simp) (.inl rfl)
  rw [heq]
  refine ⟨rfl, ⟨?_, ?_, by simp [stamped]⟩, hnext, hix⟩
  · rw [hp, hdisk, Function.update_self]
  · rw [hfd]; rfl

theorem queueHolds_create {env : Env} {q : Path} {e : QueueEngine} (hnone : e.queues.lookup q = none)
    (hopen : env.fault (.creat (segmentPath e.options.data_dir q)) = none)
    (hempty : e.fs.content (segmentPath e.options.data_dir q) = []) :
    QueueHolds (createQueueOnShard env q e).2 q [] := by
  obtain ⟨hok, hholds⟩ := holds_reopen e.options.fsync_policy hopen hempty
  rcases createQueueOnShard_cases env q e with h | ⟨-, -, h⟩
  · -- The queue was not there, so creating it did something.
    exfalso
    have hcreate : (createQueueOnShard env q e).2.queues.lookup q ≠ none := by
      unfold createQueueOnShard
      simp only [hnone]
      rcases hre : SegmentLog.reopen env.toIo (segmentPath e.options.data_dir q) e.options.fsync_policy e.fs with ⟨res, log, fs⟩
      rw [hre] at hok
      obtain rfl : res = .ok () := hok
      simp
    rw [h] at hcreate
    exact hcreate hnone
  · rw [h]
    exact ⟨_, AList.lookup_insert _, hholds⟩

theorem QueueHolds.produce {env : Env} {q : Path} {m : Message} {e e' : QueueEngine} {rs : List Frame} {o : UInt64}
    (hh : QueueHolds e q rs) (h : produceOnShard env q m e = (.ok o, e')) :
    o = UInt64.ofNat rs.length ∧ QueueHolds e' q (rs ++ [messageFrame (env, m)]) := by
  obtain ⟨queue, hqueue, hholds⟩ := hh
  rcases produceOnShard_cases env q m e with ⟨err, herr⟩ | ⟨queue', hqueue', heq⟩
  · rw [h] at herr
    cases herr
  · rw [hqueue] at hqueue'
    obtain rfl := Option.some.inj hqueue'
    rcases ha : SegmentLog.append env.toIo (recordOf m) queue.segment e.fs with ⟨res, log', fs'⟩
    rw [ha, h] at heq
    obtain ⟨rfl, rfl⟩ := Prod.mk.inj heq
    obtain ⟨ho, -, -, hh'⟩ := hholds.append_ok ha
    exact ⟨ho, _, AList.lookup_insert _, hh'⟩

theorem QueueHolds.produceAll {q : Path} {ops : List (Env × Message)} {e : QueueEngine} {rs : List Frame}
    (hh : QueueHolds e q rs) (hok : AllOk (produceAll q ops e).1) :
    QueueHolds (produceAll q ops e).2 q (rs ++ ops.map messageFrame) := by
  induction ops generalizing e rs with
  | nil => simpa [Engine.produceAll] using hh
  | cons op ops ih =>
    obtain ⟨env, m⟩ := op
    rcases hp : produceOnShard env q m e with ⟨res, e1⟩
    simp only [Engine.produceAll, hp] at hok ⊢
    obtain ⟨o, rfl⟩ := hok.head
    obtain ⟨-, hh1⟩ := hh.produce hp
    have := ih hh1 hok.tail
    rwa [List.append_assoc] at this

/-- The offsets that are returned count on from the messages that are there. -/
theorem QueueHolds.returned {q : Path} {ops : List (Env × Message)} {e : QueueEngine} {rs : List Frame}
    (hh : QueueHolds e q rs) (hok : AllOk (Engine.produceAll q ops e).1) {i : Nat} {op : Env × Message} (hi : ops[i]? = some op) :
    (Engine.produceAll q ops e).1[i]? = some (.ok (UInt64.ofNat (rs.length + i))) := by
  induction ops generalizing e rs i with
  | nil => cases hi
  | cons first ops ih =>
    obtain ⟨env, m⟩ := first
    rcases hp : produceOnShard env q m e with ⟨res, e1⟩
    simp only [Engine.produceAll, hp] at hok ⊢
    obtain ⟨o, rfl⟩ := hok.head
    obtain ⟨ho, hh1⟩ := hh.produce hp
    cases i with
    | zero => rw [List.getElem?_cons_zero, ho, Nat.add_zero]
    | succ i =>
      have hrest := ih hh1 hok.tail hi
      rw [List.length_append, List.length_singleton] at hrest
      rw [List.getElem?_cons_succ, hrest, Nat.add_right_comm, Nat.add_assoc]

/-- The queue `q`, created on an empty data directory, and `ops` produced to it. -/
def produceFresh (opts : EngineOptions) (q : Path) (env : Env) (ops : List (Env × Message)) :
    List (StatusOr UInt64) × QueueEngine :=
  produceAll q ops (createQueueOnShard env q (freshEngine opts)).2

/-- `Read` of the offset of message `i` gives the message back. -/
def ReadsMessage (e : QueueEngine) (q : Path) (i : Nat) (m : Message) : Prop :=
  ∃ queue got, e.queues.lookup q = some queue ∧ queue.segment.read e.fs (UInt64.ofNat i) = .ok got ∧
    got.Is (recordOf m) i

theorem queueHolds_fresh {opts : EngineOptions} {q : Path} {env : Env} {ops : List (Env × Message)}
    (hopen : env.fault (.creat (segmentPath opts.data_dir q)) = none) (hok : AllOk (produceFresh opts q env ops).1) :
    QueueHolds (produceFresh opts q env ops).2 q (ops.map messageFrame) := by
  have hcreate : QueueHolds (createQueueOnShard env q (freshEngine opts)).2 q [] := queueHolds_create rfl hopen rfl
  have := hcreate.produceAll hok
  rwa [List.nil_append] at this

theorem QueueHolds.readsMessage_iff {e : QueueEngine} {q : Path} {ops : List (Env × Message)}
    (h : QueueHolds e q (ops.map messageFrame)) {i : Nat} {op : Env × Message} (hi : ops[i]? = some op) :
    ReadsMessage e q i op.2 ↔ (recordOf op.2).Fits := by
  obtain ⟨queue, hqueue, hholds⟩ := h
  have hf : (ops.map messageFrame)[i]? = some (messageFrame op) := by rw [List.getElem?_map, hi]; rfl
  rw [show recordOf op.2 = (messageFrame op).2 from rfl, ← hholds.read_iff hf]
  constructor
  · rintro ⟨queue', got, hqueue', hread, his⟩
    rw [hqueue] at hqueue'
    obtain rfl := Option.some.inj hqueue'
    exact ⟨got, hread, his⟩
  · rintro ⟨got, hread, his⟩
    exact ⟨queue, got, hqueue, hread, his⟩

/-- Whatever messages `Produce` accepts on a fresh queue, one of them is read
back from the offset it returned exactly if its record fits the format. -/
theorem produced_reads_back_iff (opts : EngineOptions) (q : Path) (env : Env) (ops : List (Env × Message))
    (hopen : env.fault (.creat (segmentPath opts.data_dir q)) = none) (hok : AllOk (produceFresh opts q env ops).1)
    (i : Nat) (op : Env × Message) (hi : ops[i]? = some op) :
    (produceFresh opts q env ops).1[i]? = some (.ok (UInt64.ofNat i)) ∧
      (ReadsMessage (produceFresh opts q env ops).2 q i op.2 ↔ (recordOf op.2).Fits) := by
  have hcreate : QueueHolds (createQueueOnShard env q (freshEngine opts)).2 q [] := queueHolds_create rfl hopen rfl
  have hreturned := hcreate.returned hok hi
  rw [List.length_nil, Nat.zero_add] at hreturned
  exact ⟨hreturned, (queueHolds_fresh hopen hok).readsMessage_iff hi⟩

theorem produced_reads_back_small :
    ReadsMessage (produceFresh {} (ascii "q") {} [({}, { id := ⟨1, 2⟩, payload := [7] })]).2 (ascii "q") 0
      { id := ⟨1, 2⟩, payload := [7] } :=
  (produced_reads_back_iff {} (ascii "q") {} [({}, { id := ⟨1, 2⟩, payload := [7] })] rfl (by decide +kernel) 0 _ rfl).2.2
    (by decide)

/-! ## A payload of 2^32 bytes -/

/-- On a queue with nothing in it `Produce` takes any message that a file can hold. -/
theorem produce_accepts (m : Message) (hsize : (recordBytes {} ((recordOf m).withOffset 0)).length ≤ maxOff) :
    AllOk (produceFresh {} (ascii "q") {} [({}, m)]).1 := by
  have hcreate : QueueHolds (createQueueOnShard {} (ascii "q") (freshEngine {})).2 (ascii "q") [] :=
    queueHolds_create rfl rfl rfl
  obtain ⟨queue, hqueue, hholds⟩ := hcreate
  have hopts : (createQueueOnShard {} (ascii "q") (freshEngine {})).2.options = {} := by
    rcases createQueueOnShard_cases {} (ascii "q") (freshEngine {}) with h | ⟨-, -, h⟩ <;> rw [h] <;> rfl
  have hlen : queue.segment.sizeBytes (createQueueOnShard {} (ascii "q") (freshEngine {})).2.fs = 0 := by
    unfold SegmentLog.sizeBytes
    rw [hholds.fd, hholds.content]
    rfl
  have happ : (SegmentLog.append ({} : Env).toIo (recordOf m) queue.segment
      (createQueueOnShard {} (ascii "q") (freshEngine {})).2.fs).1 = .ok queue.segment.next_offset := by
    refine append_accepts _ _ _ _ _ hholds.fd ?_ (fun _ => rfl) rfl
    rw [hholds.next]
    exact Nat.min_eq_left hsize
  intro res hres
  simp only [produceFresh, produceAll, List.mem_singleton] at hres
  rw [hres]
  unfold produceOnShard
  simp only [hqueue, hopts, hlen, hholds.next]
  rw [if_neg (by decide), if_neg (by decide), happ]
  rfl

theorem oversized_not_read_back (payload : Bytes) (hlen : payload.length = 2 ^ 32) :
    AllOk (produceFresh {} (ascii "q") {} [({}, { payload })]).1 ∧
      ¬ ReadsMessage (produceFresh {} (ascii "q") {} [({}, { payload })]).2 (ascii "q") 0 { payload } := by
  have hok : AllOk (produceFresh {} (ascii "q") {} [({}, { payload })]).1 := by
    apply produce_accepts
    have hbody : bodyBytes ((recordOf { payload }).withOffset 0) = payload := rfl
    rw [recordBytes_length, hbody, hlen]
    decide
  refine ⟨hok, fun h => ?_⟩
  have hi : ([({}, { payload := payload })] : List (Env × Message))[0]? = some (({} : Env), { payload := payload }) := rfl
  have hfit : (recordOf { payload := payload }).Fits := ((queueHolds_fresh rfl hok).readsMessage_iff hi).1 h
  have hpay : payload.length < 2 ^ 32 := hfit.payload
  omega

/-- `Produce` accepts a payload of 2^32 bytes, and it cannot be read back. -/
theorem produced_not_read_back :
    AllOk (produceFresh {} (ascii "q") {} [({}, { payload := List.replicate (2 ^ 32) 0 })]).1 ∧
      ¬ ReadsMessage (produceFresh {} (ascii "q") {} [({}, { payload := List.replicate (2 ^ 32) 0 })]).2 (ascii "q") 0
        { payload := List.replicate (2 ^ 32) 0 } :=
  oversized_not_read_back (List.replicate (2 ^ 32) 0) List.length_replicate

end PomaiQueue.Engine
