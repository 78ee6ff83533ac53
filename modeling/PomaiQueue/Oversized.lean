import PomaiQueue.Automaton
/-!
# Messages that do not fit the record format

A payload of 2^32 bytes is written in full under a size field of 0. While the
engine runs its record reads as one without a payload, and after a restart the
scan goes on inside the payload: what stands there as records is recovered as
messages of the queue, and the rest is cut off (`restart_longPayload`). With it a
lease can be hidden and an acked message delivered again.

The files are far too long to compute with. `SameEngine` says that the operations
see the disk only, so that an engine restarted on the recovered records stands
for the one that was restarted on the long file.
-/
namespace PomaiQueue.Engine

open Wire Posix Assoc Storage

/-! ## Operations see the disk -/

/-- The same outcome, on the same files. -/
structure SameOut {α : Type} (x y : α × ConsumerGroupState × Fs) : Prop where
  result : x.1 = y.1
  group : x.2.1 = y.2.1
  disk : x.2.2.disk = y.2.2.disk

section same

variable (env : Env) (opts : EngineOptions) (q : Path) (g : CString) {fs fs' : Fs}

theorem persistGroupState_same (hq : env.toIo.Quiet) (group : ConsumerGroupState) (h : fs.disk = fs'.disk) :
    (persistGroupState env opts q g group fs).1 = (persistGroupState env opts q g group fs').1 ∧
      (persistGroupState env opts q g group fs).2.disk = (persistGroupState env opts q g group fs').2.disk := by
  have hp : env.failpoint ≠ some .before_checkpoint_rename := by
    rw [hq.failpoint]
    simp
  simp only [persistGroupState, hp, if_false, durableWriteFile_quiet hq]
  refine ⟨trivial, ?_⟩
  have hd := fun (fs : Fs) (calls : List Call) => Fs.disk_after fs calls
  simp only [Fs.after] at hd
  rw [hd, hd, h]

theorem appendTransition_same (group : ConsumerGroupState) (event : TransitionEvent) (h : fs.disk = fs'.disk) :
    SameOut (appendTransition env opts q g group event fs) (appendTransition env opts q g group event fs') := by
  unfold appendTransition
  dsimp only
  split_ifs
  · exact ⟨rfl, rfl, h⟩
  · exact ⟨rfl, rfl, h⟩
  · cases env.fault (.append (groupEventPath opts.data_dir q g) (encodeEvent event)) <;> exact ⟨rfl, rfl, by simp [h]⟩
  · cases env.fault (.append (groupEventPath opts.data_dir q g) (encodeEvent event)) <;> exact ⟨rfl, rfl, by simp [h]⟩

theorem reapOne_same (now : UInt64) (id : MessageId) (group : ConsumerGroupState) (h : fs.disk = fs'.disk) :
    (reapOne env opts q g now id group fs).1 = (reapOne env opts q g now id group fs').1 ∧
      (reapOne env opts q g now id group fs).2.disk = (reapOne env opts q g now id group fs').2.disk := by
  unfold reapOne
  cases group.inflight.lookup id with
  | none => exact ⟨rfl, h⟩
  | some entry =>
    dsimp only
    split_ifs
    · exact ⟨rfl, h⟩
    · exact ⟨rfl, h⟩
    · cases group.runtime.lookup id with
      | none => exact ⟨rfl, h⟩
      | some rt => exact ⟨rfl, h⟩
    · cases group.runtime.lookup id with
      | none => exact ⟨rfl, h⟩
      | some rt =>
        have hs := appendTransition_same env opts q g (bump group)
          (timeoutEvent opts now group.next_sequence id rt) h
        exact ⟨hs.group, hs.disk⟩

theorem reapBucket_same (now : UInt64) (bucket : List MessageId) (group : ConsumerGroupState) (h : fs.disk = fs'.disk) :
    (reapBucket env opts q g now bucket group fs).1 = (reapBucket env opts q g now bucket group fs').1 ∧
      (reapBucket env opts q g now bucket group fs).2.disk = (reapBucket env opts q g now bucket group fs').2.disk := by
  induction bucket generalizing group fs fs' with
  | nil => exact ⟨rfl, h⟩
  | cons id bucket ih =>
    obtain ⟨hg, hd⟩ := reapOne_same env opts q g now id group h
    simp only [reapBucket]
    rw [← hg]
    exact ih _ hd

theorem reapTicks_same (now : UInt64) (rounds : Nat) (group : ConsumerGroupState) (h : fs.disk = fs'.disk) :
    (reapTicks env opts q g now rounds group fs).1 = (reapTicks env opts q g now rounds group fs').1 ∧
      (reapTicks env opts q g now rounds group fs).2.disk = (reapTicks env opts q g now rounds group fs').2.disk := by
  induction rounds generalizing group fs fs' with
  | zero => exact ⟨rfl, h⟩
  | succ rounds ih =>
    simp only [reapTicks]
    obtain ⟨hg, hd⟩ := reapBucket_same env opts q g now
      (group.deadline_wheel.getD (slotOf group group.wheel_base_tick) [])
      { group with deadline_wheel := group.deadline_wheel.set (slotOf group group.wheel_base_tick) [] } h
    rw [← hg]
    exact ih _ hd

theorem commit_same (hq : env.toIo.Quiet) (group : ConsumerGroupState) (event : TransitionEvent) (rebuild : Bool)
    (h : fs.disk = fs'.disk) :
    SameOut (commit env opts q g group event rebuild fs) (commit env opts q g group event rebuild fs') := by
  have hs := appendTransition_same env opts q g group event h
  unfold commit
  generalize appendTransition env opts q g group event fs = x at hs
  generalize appendTransition env opts q g group event fs' = y at hs
  obtain ⟨r, a, f⟩ := x
  obtain ⟨r', a', f'⟩ := y
  obtain ⟨rfl, rfl, hd⟩ := hs
  cases r with
  | error e => exact ⟨rfl, rfl, hd⟩
  | ok u =>
    dsimp only
    obtain ⟨hr, hd'⟩ := persistGroupState_same env opts q g hq
      (if rebuild then buildReadyQueue env a else a) hd
    generalize persistGroupState env opts q g (if rebuild then buildReadyQueue env a else a) f = x at hr hd'
    generalize persistGroupState env opts q g (if rebuild then buildReadyQueue env a else a) f' = y at hr hd'
    obtain ⟨r, f2⟩ := x
    obtain ⟨r', f2'⟩ := y
    obtain rfl : r = r' := hr
    cases r <;> exact ⟨rfl, rfl, hd'⟩

theorem reapExpiredInflight_same (group : ConsumerGroupState) (h : fs.disk = fs'.disk) :
    (reapExpiredInflight env opts q g group fs).1 = (reapExpiredInflight env opts q g group fs').1 ∧
      (reapExpiredInflight env opts q g group fs).2.disk = (reapExpiredInflight env opts q g group fs').2.disk := by
  unfold reapExpiredInflight
  dsimp only
  generalize (if group.deadline_wheel.isEmpty then initScheduler env opts group else group) = group'
  obtain ⟨hg, hd⟩ := reapTicks_same env opts q g (env.now .reapExpiredInflight)
    ((env.now .reapExpiredInflight / opts.tickMs).toNat + 1 - group'.wheel_base_tick.toNat) group' h
  rw [hg]
  exact ⟨rfl, hd⟩

theorem deliver_same (hq : env.toIo.Quiet) (offset : UInt64) (record : Record) (group : ConsumerGroupState)
    (h : fs.disk = fs'.disk) :
    SameOut (deliver env opts q g offset record group fs) (deliver env opts q g offset record group fs') := by
  have hp : env.failpoint ≠ some .before_lease_issue := by
    rw [hq.failpoint]
    simp
  rw [deliver_eq offset record fs hp rfl rfl, deliver_eq offset record fs' hp rfl rfl]
  generalize (if (group.runtime.lookup (idOf record)).isNone then _ else group) = group'
  have hs := commit_same env opts q g hq (bump group') (deliverEvent opts g (env.now .consume) group'.next_sequence
    (idOf record) ((group.runtime.lookup (idOf record)).getD
      (createdRuntime (env.now .runtimeCreated) offset record.header.enqueue_ts))) false h
  generalize commit env opts q g (bump group') _ false fs = x at hs
  generalize commit env opts q g (bump group') _ false fs' = y at hs
  obtain ⟨r, a, f⟩ := x
  obtain ⟨r', a', f'⟩ := y
  obtain ⟨rfl, rfl, hd⟩ := hs
  cases r <;> exact ⟨rfl, rfl, hd⟩

theorem consumeGroup_same (hq : env.toIo.Quiet) (segment : SegmentLog) (group : ConsumerGroupState)
    (h : fs.disk = fs'.disk) :
    SameOut (consumeGroup env opts q g segment group fs) (consumeGroup env opts q g segment group fs') := by
  obtain ⟨hg, hd⟩ := reapExpiredInflight_same env opts q g group h
  unfold consumeGroup
  generalize reapExpiredInflight env opts q g group fs = x at hg hd
  generalize reapExpiredInflight env opts q g group fs' = y at hg hd
  obtain ⟨a, f⟩ := x
  obtain ⟨a', f'⟩ := y
  obtain rfl : a = a' := hg
  dsimp only
  split_ifs
  · exact ⟨rfl, rfl, hd⟩
  · cases a.ready_offsets with
    | nil => exact ⟨rfl, rfl, hd⟩
    | cons offset offsets =>
      have hread : segment.read f = segment.read f' := SegmentLog.read_congr (by rw [Fs.content, hd, Fs.content])
      dsimp only
      rw [hread]
      cases segment.read f' offset with
      | error e => exact ⟨rfl, rfl, hd⟩
      | ok record => exact deliver_same env opts q g hq offset record _ hd

end same

/-- The engines have the same queues on the same files. -/
structure SameEngine (e e' : QueueEngine) : Prop where
  options : e.options = e'.options
  queues : e.queues = e'.queues
  disk : e.fs.disk = e'.fs.disk

theorem SameEngine.groupAt {e e' : QueueEngine} (h : SameEngine e e') (q : Path) (g : CString) :
    groupAt e q g = groupAt e' q g := by
  rw [Engine.groupAt, Engine.groupAt, h.queues]

theorem SameEngine.loggedEvents {e e' : QueueEngine} (h : SameEngine e e') (q : Path) (g : CString) :
    loggedEvents e q g = loggedEvents e' q g := by
  simp only [Engine.loggedEvents, loadTransitions, h.options, h.disk]

theorem SameEngine.consume {e e' : QueueEngine} (h : SameEngine e e') {env : Env} (hq : env.toIo.Quiet) (q : Path)
    (g : CString) :
    (consumeOnShard env q g e).1 = (consumeOnShard env q g e').1 ∧
      SameEngine (consumeOnShard env q g e).2 (consumeOnShard env q g e').2 := by
  obtain ⟨opts, queues, fs⟩ := e
  obtain ⟨opts', queues', fs'⟩ := e'
  obtain ⟨rfl, rfl, hd⟩ := h
  unfold consumeOnShard onGroup getGroup
  dsimp only at hd ⊢
  cases queues.lookup q with
  | none => exact ⟨rfl, rfl, rfl, hd⟩
  | some queue =>
    dsimp only
    rw [loadGroupState_same env opts q g queue.segment hd]
    split
    · exact ⟨rfl, rfl, rfl, hd⟩
    · rename_i group _
      have hs := consumeGroup_same env opts q g hq queue.segment group hd
      simp only [groupOp, Prod.map]
      exact ⟨by rw [hs.result], rfl, by simp [hs.group], hs.disk⟩

theorem byteStep_zero : Crc64.byteStep 0 0 = 0 := by decide +kernel

theorem foldl_zeros (n : Nat) : (List.replicate n (0 : UInt8)).foldl Crc64.byteStep 0 = 0 := by
  induction n with
  | zero => rfl
  | succ n ih => rw [List.replicate_succ, List.foldl_cons, byteStep_zero, ih]

/-- A payload of 2^32 bytes that starts with `head`. -/
def longPayload (head : Bytes) : Bytes := head ++ List.replicate (2 ^ 32 - head.length) 0

theorem longPayload_length {head : Bytes} (h : head.length ≤ 2 ^ 32) : (longPayload head).length = 2 ^ 32 := by
  rw [longPayload, List.length_append, List.length_replicate]
  omega

/-- The checksum of a long payload can be that of no payload at all. -/
theorem compute_longPayload {head : Bytes} (h : Crc64.compute head = 0) : Crc64.compute (longPayload head) = 0 := by
  unfold Crc64.compute at h
  rw [Crc64.compute, longPayload, List.foldl_append, h, foldl_zeros]

def longMessage (id : MessageId) (head : Bytes) : Message := { id, payload := longPayload head }

/-- A message with a long payload is written as one without a payload, and the
payload after it. -/
theorem longPayload_bytes {head : Bytes} (hlen : head.length ≤ 2 ^ 32) (hcrc : Crc64.compute head = 0) (pad : Padding)
    (id : MessageId) (offset : UInt64) :
    Frame.bytes (pad, (recordOf (longMessage id head)).withOffset offset) =
      Frame.bytes (pad, (recordOf { id }).withOffset offset) ++ longPayload head := by
  have hbody : bodyBytes ((recordOf (longMessage id head)).withOffset offset) = longPayload head := rfl
  have hbody' : bodyBytes ((recordOf { id }).withOffset offset) = [] := rfl
  have hseal : sealedHeader ((recordOf (longMessage id head)).withOffset offset) =
      sealedHeader ((recordOf { id }).withOffset offset) := by
    have hsize : UInt32.ofNat (longPayload head).length = 0 := by
      rw [longPayload_length hlen]
      rfl
    have hpayload : ((recordOf (longMessage id head)).withOffset offset).payload = longPayload head := rfl
    simp only [sealedHeader, hbody, hbody', compute_longPayload hcrc, hpayload, hsize]
    rfl
  rw [Frame.bytes, recordBytes, hbody, hseal, Frame.bytes, recordBytes, hbody', List.append_nil]

/-- A scan stops where no record starts. -/
theorem recoverLoop_junk (pre junk : Bytes) (hne : junk ≠ []) (hmagic : magicOf (pread junk headerSize 0) ≠ kRecordMagic)
    (fuel : Nat) (index : Index) (next : UInt64) :
    SegmentLog.recoverLoop (pre ++ junk) (fuel + 1) pre.length index next = (index, next, some pre.length) := by
  have hread : pread (pre ++ junk) headerSize pre.length = pread junk headerSize 0 := by
    simp [pread, field]
  have hpos : (pread junk headerSize 0).length ≠ 0 := by
    have := List.length_pos_iff.2 hne
    rw [pread, field_length, headerSize]
    omega
  unfold SegmentLog.recoverLoop
  simp only [hread, hpos, if_false, hmagic, ne_eq, not_false_eq_true, true_or, if_true]
  split <;> rfl

/-- Reopening a file with junk behind its records cuts the junk off. -/
theorem reopen_junk (io : Io) (path : Path) (policy : FsyncPolicy) (fs : Fs) (frames : List Frame) (junk : Bytes)
    (hopen : io.fault (.creat path) = none) (hc : fs.content path = layout frames ++ junk) (hfit : ∀ f ∈ frames, f.2.Fits)
    (hne : junk ≠ []) (hmagic : magicOf (pread junk headerSize 0) ≠ kRecordMagic) :
    ∃ fs', SegmentLog.reopen io path policy fs =
        (.ok (), ⟨path, policy, some 0, nextFrom 0 frames, indexFrom 0 frames ∅⟩, fs') ∧
      fs'.disk = Function.update fs.disk path (some (layout frames)) := by
  obtain ⟨fs', heq, hdisk⟩ := reopen_eq io path policy fs _ hopen hc
  have hfuel : frames.length ≤ (layout frames ++ junk).length := by
    have := layout_length_ge frames
    simp only [headerSize, List.length_append] at this ⊢
    omega
  have hscan : SegmentLog.recoverLoop (layout frames ++ junk) ((layout frames ++ junk).length + 1) 0 ∅ 0 =
      (indexFrom 0 frames ∅, nextFrom 0 frames, some (layout frames).length) := by
    obtain ⟨k, hk⟩ := Nat.exists_eq_add_of_le hfuel
    rw [hk, show frames.length + k + 1 = k + 1 + frames.length by omega]
    have hlay := recoverLoop_layout [] junk frames hfit (k + 1) ∅ 0
    simp only [List.nil_append, List.length_nil, Nat.zero_add] at hlay
    rw [hlay]
    exact recoverLoop_junk (layout frames) junk hne hmagic k _ _
  rw [hscan] at heq hdisk
  refine ⟨fs', heq, ?_⟩
  rw [hdisk]
  simp

/-- Creating a queue on a file that reopens as `segment`. -/
theorem createQueue_reopens {e : QueueEngine} {q : Path} {segment : SegmentLog} {fs : Fs} (hnone : e.queues.lookup q = none)
    (h : SegmentLog.reopen ({} : Env).toIo (segmentPath e.options.data_dir q) e.options.fsync_policy e.fs = (.ok (), segment, fs)) :
    createQueueOnShard {} q e = (.ok (), { e with queues := e.queues.insert q { segment }, fs }) := by
  unfold createQueueOnShard
  simp only [hnone, h]

/-- `Produce` accepts a long payload, and the file has it behind the record. -/
theorem produce_longPayload {e : QueueEngine} {q : Path} {queue : QueueState} {frames : List Frame} {head : Bytes}
    (id : MessageId) (hqueue : e.queues.lookup q = some queue) (hlive : Live queue.segment e.fs frames)
    (hdepth : queue.segment.next_offset.toNat < e.options.max_queue_depth.toNat)
    (hsize : (layout frames).length < e.options.max_segment_size_bytes.toNat)
    (hroom : (layout frames).length + 64 + 2 ^ 32 ≤ maxOff) (hlen : head.length ≤ 2 ^ 32) (hcrc : Crc64.compute head = 0) :
    ∃ segment fs, produceOnShard {} q (longMessage id head) e =
        (.ok queue.segment.next_offset, { e with queues := e.queues.insert q { queue with segment }, fs }) ∧
      fs.disk = Function.update e.fs.disk queue.segment.path (some (layout frames ++
        (Frame.bytes ({}, (recordOf { id }).withOffset queue.segment.next_offset) ++ longPayload head))) := by
  have hbytes := longPayload_bytes hlen hcrc {} id queue.segment.next_offset
  generalize hm : recordOf (longMessage id head) = record at hbytes
  have hlength : (recordBytes {} (record.withOffset queue.segment.next_offset)).length = 64 + 2 ^ 32 := by
    change (Frame.bytes ({}, record.withOffset queue.segment.next_offset)).length = _
    rw [hbytes, List.length_append, longPayload_length hlen]
    rfl
  have hall : accepted ({} : Env).writes (layout frames).length (64 + 2 ^ 32) = 64 + 2 ^ 32 :=
    Nat.min_eq_left (by omega)
  have happ := append_accepts ({} : Env).toIo record queue.segment e.fs _ hlive.fd (by rw [hlength]; exact hall) (fun _ => rfl) rfl
  have hfile := hlive.append_file ({} : Env).toIo record
  have hbig : (Frame.ofAppend ({} : Env).toIo record queue.segment).bytes.length = 64 + 2 ^ 32 := hlength
  rw [hbig, hall, List.take_of_length_le (by rw [hbig])] at hfile
  have hsb : queue.segment.sizeBytes e.fs = (layout frames).length := by
    rw [SegmentLog.sizeBytes, hlive.fd, hlive.content]
  unfold produceOnShard
  simp only [hqueue, hsb, hm]
  rw [if_neg (by omega), if_neg (by omega)]
  generalize SegmentLog.append ({} : Env).toIo record queue.segment e.fs = out at happ hfile
  obtain ⟨result, segment, fs⟩ := out
  obtain rfl : result = .ok queue.segment.next_offset := happ
  dsimp only
  refine ⟨segment, fs, rfl, ?_⟩
  rw [hfile]
  congr 4

theorem step_createQueue (env : Env) (q : Path) (e : QueueEngine) :
    step e (.op env (.createQueue q)) = (createQueueOnShard env q e).2 := rfl

/-- A kill after a produce leaves the files as the produce left them. -/
theorem run_produce_kill {e : QueueEngine} {q : Path} {m : Message} {queue : QueueState} {segment : SegmentLog} {fs : Fs}
    {o : UInt64} (hprod : produceOnShard {} q m e = (.ok o, { e with queues := e.queues.insert q { queue with segment }, fs })) :
    run e [.op {} (.produce q m), .kill {} (.createQueue q) 0 e.options] = { options := e.options, fs } := by
  have h1 : step e (.op {} (.produce q m)) = { e with queues := e.queues.insert q { queue with segment }, fs } := by
    change (produceOnShard {} q m e).2 = _
    rw [hprod]
  have hexists : (createQueueOnShard {} q { e with queues := e.queues.insert q { queue with segment }, fs }).2 =
      { e with queues := e.queues.insert q { queue with segment }, fs } := by
    simp [createQueueOnShard]
  have h2 : step { e with queues := e.queues.insert q { queue with segment }, fs } (.kill {} (.createQueue q) 0 e.options) =
      { options := e.options, fs } := by
    change ({ options := _, fs := Fs.cut (createQueueOnShard {} q _).2.fs _ } : QueueEngine) = _
    rw [hexists]
    simp [Fs.cut]
  rw [run_cons, h1, run_cons, h2]
  rfl

theorem magicOf_junk {fix junk : Bytes} (h4 : 4 ≤ fix.length) (hmagic : getU32 (fix.take 4) ≠ kRecordMagic) :
    magicOf (pread (fix ++ junk) headerSize 0) ≠ kRecordMagic := by
  have hfield : field (pread (fix ++ junk) headerSize 0) 0 4 = fix.take 4 := by
    simp only [pread, field, List.drop_zero, List.take_take, headerSize]
    exact List.take_append_of_le_length h4
  rw [magicOf, hfield]
  exact hmagic

/-- What is left of an engine that took a message with a long payload, when it is
started again: the payload up to the junk is read as records. -/
theorem restart_longPayload {e : QueueEngine} {q : Path} {queue : QueueState} {frames hidden : List Frame} {fix : Bytes}
    (id : MessageId) (hqueue : e.queues.lookup q = some queue) (hlive : Live queue.segment e.fs frames)
    (hpath : queue.segment.path = segmentPath e.options.data_dir q) (hfit : ∀ f ∈ frames ++ hidden, f.2.Fits)
    (hdepth : queue.segment.next_offset.toNat < e.options.max_queue_depth.toNat)
    (hsize : (layout frames).length < e.options.max_segment_size_bytes.toNat)
    (hroom : (layout frames).length + 64 + 2 ^ 32 ≤ maxOff) (hlen : (layout hidden ++ fix).length ≤ 2 ^ 32)
    (hcrc : Crc64.compute (layout hidden ++ fix) = 0) (h4 : 4 ≤ fix.length) (hmagic : getU32 (fix.take 4) ≠ kRecordMagic) :
    (produceOnShard {} q (longMessage id (layout hidden ++ fix)) e).1 = .ok queue.segment.next_offset ∧
      (createQueueOnShard {} q (run e [.op {} (.produce q (longMessage id (layout hidden ++ fix))),
        .kill {} (.createQueue q) 0 e.options])).1 = .ok () ∧
      SameEngine
        (run e [.op {} (.produce q (longMessage id (layout hidden ++ fix))), .kill {} (.createQueue q) 0 e.options,
          .op {} (.createQueue q)])
        (step (engineOn e.options (Function.update e.fs.disk (segmentPath e.options.data_dir q)
          (some (layout (frames ++ ({}, (recordOf { id }).withOffset queue.segment.next_offset) :: hidden)))))
          (.op {} (.createQueue q))) := by
  obtain ⟨segment, fs, hprod, hdisk⟩ := produce_longPayload id hqueue hlive hdepth hsize hroom hlen hcrc
  generalize longMessage id (layout hidden ++ fix) = m at hprod
  refine ⟨by rw [hprod], ?_⟩
  generalize hall : frames ++ ({}, (recordOf { id }).withOffset queue.segment.next_offset) :: hidden = all
  have hfits : ∀ f ∈ all, f.2.Fits := by
    intro f hf
    rw [← hall] at hf
    simp only [List.mem_append, List.mem_cons] at hf hfit
    rcases hf with hf | rfl | hf
    · exact hfit f (.inl hf)
    · exact Record.Fits.withOffset ⟨by simp [recordOf, Message.headerList], by simp [recordOf, Message.headerList],
        by simp [recordOf], by simp [recordOf]⟩ _
    · exact hfit f (.inr hf)
  -- The payload continues the file with the hidden records, and then with junk.
  have hcontent : fs.content (segmentPath e.options.data_dir q) =
      layout all ++ (fix ++ List.replicate (2 ^ 32 - (layout hidden ++ fix).length) 0) := by
    rw [Fs.content, hdisk, hpath, Function.update_self, ← hall, layout_append, layout_cons, longPayload]
    simp only [Option.getD_some, List.append_assoc]
  have hne : fix ++ List.replicate (2 ^ 32 - (layout hidden ++ fix).length) (0 : UInt8) ≠ [] := by
    intro h
    rw [(List.append_eq_nil_iff.1 h).1] at h4
    simp at h4
  obtain ⟨fs1, hre1, hd1⟩ := reopen_junk ({} : Env).toIo (segmentPath e.options.data_dir q) e.options.fsync_policy fs all _ rfl
    hcontent hfits hne (magicOf_junk h4 hmagic)
  obtain ⟨fs2, hre2, hd2⟩ := reopen_torn ({} : Env).toIo (segmentPath e.options.data_dir q) e.options.fsync_policy
    { base := Function.update e.fs.disk (segmentPath e.options.data_dir q) (some (layout all)) } all [] rfl
    (by simp [Fs.content, Fs.disk]) hfits (.inl rfl)
  have hrun := run_concat e [.op {} (.produce q m), .kill {} (.createQueue q) 0 e.options] (.op {} (.createQueue q))
  simp only [List.cons_append, List.nil_append] at hrun
  rw [hrun, run_produce_kill hprod, step_createQueue, step_createQueue, createQueue_reopens rfl hre1, createQueue_reopens rfl hre2]
  refine ⟨rfl, rfl, rfl, ?_⟩
  change fs1.disk = fs2.disk
  rw [hd1, hd2, hdisk, hpath, Function.update_idem]
  simp [Fs.disk]

/-! ## What it breaks -/

/-- The bytes that shift a checksum out. -/
def shiftOut : Nat → UInt64 → Bytes
  | 0, _ => []
  | n + 1, crc => (crc >>> 56).toUInt8 :: shiftOut n (crc <<< 8)

theorem byteStep_top (crc : UInt64) : Crc64.byteStep crc (crc >>> 56).toUInt8 = crc <<< 8 := by
  have hsmall : (crc >>> 56).toNat < 256 := by
    have := crc.toNat_lt
    rw [UInt64.toNat_shiftRight, Nat.shiftRight_eq_div_pow]
    exact Nat.div_lt_of_lt_mul this
  have hback : (crc >>> 56).toUInt8.toUInt64 = crc >>> 56 := by
    apply UInt64.toNat_inj.1
    rw [UInt8.toNat_toUInt64, UInt64.toNat_toUInt8]
    exact Nat.mod_eq_of_lt hsmall
  have hzero : Crc64.tableEntry 0 = 0 := by decide +kernel
  simp only [Crc64.byteStep, hback, UInt64.xor_self]
  change Crc64.tableEntry 0 ^^^ crc <<< 8 = crc <<< 8
  rw [hzero, UInt64.zero_xor]

theorem foldl_shiftOut (n : Nat) (crc : UInt64) : (shiftOut n crc).foldl Crc64.byteStep crc = (fun c : UInt64 => c <<< 8)^[n] crc := by
  induction n generalizing crc with
  | zero => rfl
  | succ n ih => rw [shiftOut, List.foldl_cons, byteStep_top, ih, Function.iterate_succ_apply]

/-- Bytes behind `head` that bring its checksum back to zero. They do not start
like a record. -/
def crcFix (head : Bytes) : Bytes := List.replicate 4 0 ++ shiftOut 8 (Crc64.compute (head ++ List.replicate 4 0))

theorem compute_crcFix (head : Bytes) : Crc64.compute (head ++ crcFix head) = 0 := by
  have hout : ∀ crc : UInt64, (fun c : UInt64 => c <<< 8)^[8] crc = 0 := by
    intro crc
    apply UInt64.toBitVec_inj.1
    simp [Function.iterate_succ_apply, ← BitVec.shiftLeft_add]
  rw [crcFix, ← List.append_assoc, Crc64.compute, List.foldl_append, ← Crc64.compute, foldl_shiftOut, hout]

/-- Where the segment of a queue is, its position and its next offset. -/
def segmentAt (e : QueueEngine) (q : Path) : Option (Path × Option Nat × UInt64) :=
  (e.queues.lookup q).map fun queue => (queue.segment.path, queue.segment.fd, queue.segment.next_offset)

/-- The message is produced, the engine is restarted and a message is consumed. -/
def carrierSteps (id : MessageId) (hidden : List Frame) : List Step :=
  [.op {} (.produce someQueue (longMessage id (layout hidden ++ crcFix (layout hidden)))),
    .kill {} (.createQueue someQueue) 0 {}, .op {} (.createQueue someQueue), .op {} (.group someQueue someGroup .consume)]

/-- The engine after `steps`, started again on a segment with the records `frames`. -/
def startedOn (steps : List Step) (frames : List Frame) : QueueEngine :=
  run (engineOn {} (Function.update (run (freshEngine {}) steps).fs.disk (segmentPath [] someQueue) (some (layout frames))))
    [.op {} (.createQueue someQueue), .op {} (.group someQueue someGroup .consume)]

theorem run_append (e : QueueEngine) (a b : List Step) : run e (a ++ b) = run (run e a) b := by
  simp [run]

theorem noIoError_ok {env : Env} {e : QueueEngine} {o : Op} {u : Reply} (h : (runOp env e o).1 = .ok u) (steps : List Step) :
    noIoError e (.op env o :: steps) = noIoError (step e (.op env o)) steps := by
  simp [noIoError, h]

theorem noIoError_congr {env : Env} {e e' : QueueEngine} {q : Path} {g : CString}
    (h : (consumeOnShard env q g e).1 = (consumeOnShard env q g e').1) :
    noIoError e [.op env (.group q g .consume)] = noIoError e' [.op env (.group q g .consume)] := by
  simp only [noIoError, runOp, h]

theorem runOp_produce_ok {env : Env} {e : QueueEngine} {q : Path} {m : Message} {offset : UInt64}
    (h : (produceOnShard env q m e).1 = .ok offset) : (runOp env e (.produce q m)).1 = .ok (.offset offset) := by
  change (produceOnShard env q m e).1.map Reply.offset = _
  rw [h]
  rfl

theorem runOp_createQueue_ok {env : Env} {e : QueueEngine} {q : Path} (h : (createQueueOnShard env q e).1 = .ok ()) :
    (runOp env e (.createQueue q)).1 = .ok .done := by
  change (createQueueOnShard env q e).1.map (fun _ => Reply.done) = _
  rw [h]
  rfl

theorem noIoError_append (e : QueueEngine) (a b : List Step) :
    noIoError e (a ++ b) = (noIoError e a && noIoError (run e a) b) := by
  induction a generalizing e with
  | nil => rfl
  | cons s a ih =>
    cases s with
    | op env o => simp only [List.cons_append, noIoError, ih, run_cons, Bool.and_assoc]
    | kill env o k options => simp only [List.cons_append, noIoError, ih, run_cons]

/-- After the steps, the segment holds `frames`. -/
structure Filled (steps : List Step) (frames : List Frame) : Prop where
  options : (run (freshEngine {}) steps).options = {}
  segment : segmentAt (run (freshEngine {}) steps) someQueue =
    some (segmentPath [] someQueue, some (layout frames).length, UInt64.ofNat frames.length)
  file : (run (freshEngine {}) steps).fs.disk (segmentPath [] someQueue) = some (layout frames)
  io : noIoError (freshEngine {}) steps = true

/-- The restarted engine is one whose segment holds the hidden records. -/
theorem carrierSteps_same {steps : List Step} {frames : List Frame} (id : MessageId) (hidden : List Frame) (hf : Filled steps frames)
    (hfit : ∀ f ∈ frames ++ hidden, f.2.Fits) (hsmall : (layout frames).length < 2 ^ 20 ∧ frames.length < 10000 ∧
      (layout hidden ++ crcFix (layout hidden)).length ≤ 2 ^ 32)
    (hcons : noIoError (engineOn {} (Function.update (run (freshEngine {}) steps).fs.disk (segmentPath [] someQueue)
      (some (layout (frames ++ ({}, (recordOf { id }).withOffset (UInt64.ofNat frames.length)) :: hidden)))))
        [.op {} (.createQueue someQueue), .op {} (.group someQueue someGroup .consume)] = true) :
    noIoError (freshEngine {}) (steps ++ carrierSteps id hidden) = true ∧
      SameEngine (run (freshEngine {}) (steps ++ carrierSteps id hidden))
        (startedOn steps (frames ++ ({}, (recordOf { id }).withOffset (UInt64.ofNat frames.length)) :: hidden)) := by
  obtain ⟨hopts, hseg, hfile, hio⟩ := hf
  rw [noIoError_append, hio, Bool.true_and, run_append, startedOn]
  generalize run (freshEngine {}) steps = e at *
  obtain ⟨queue, hqueue, heq⟩ := Option.map_eq_some_iff.1 hseg
  simp only [Prod.mk.injEq] at heq
  obtain ⟨hpath, hfd, hnext⟩ := heq
  have hlive : Live queue.segment e.fs frames := ⟨by rw [hpath, hfile], hfd, by rw [maxOff]; omega⟩
  have hoff : (UInt64.ofNat frames.length).toNat = frames.length := u64_toNat (by omega)
  have hdepth : queue.segment.next_offset.toNat < e.options.max_queue_depth.toNat := by
    rw [hnext, hoff, hopts]
    exact hsmall.2.1
  have hsize : (layout frames).length < e.options.max_segment_size_bytes.toNat := by
    rw [hopts]
    exact Nat.lt_trans hsmall.1 (by decide)
  obtain ⟨hprod, hcreate, hsame⟩ := restart_longPayload id hqueue hlive (by rw [hpath, hopts]) hfit hdepth hsize
    (by rw [maxOff]; omega) hsmall.2.2 (compute_crcFix _) (by simp [crcFix]) (by simp [crcFix]; decide)
  have hdir : ({} : EngineOptions).data_dir = [] := rfl
  rw [hopts, hnext, hdir] at hsame
  rw [hopts] at hcreate
  rw [carrierSteps]
  generalize longMessage id (layout hidden ++ crcFix (layout hidden)) = m at *
  generalize engineOn {} _ = small at *
  simp only [run_cons, run_nil] at hcreate hsame ⊢
  obtain ⟨hres, hlast⟩ := hsame.consume quiet_default someQueue someGroup
  refine ⟨?_, hlast⟩
  -- The first three results are ok, and the last is that of the engine on the hidden records.
  rw [noIoError_ok (runOp_produce_ok hprod), noIoError, noIoError_ok (runOp_createQueue_ok hcreate)]
  exact (noIoError_congr hres).trans (Bool.and_eq_true_iff.1 hcons).2

/-- A message is in flight when the records are hidden. -/
def inFlightFirst : List Step :=
  [.op {} (.createQueue someQueue), .op {} (.produce someQueue someMessage), .op {} (.group someQueue someGroup .consume)]

/-- The segment before the records are hidden. -/
def firstFrame : List Frame := [({}, (recordOf someMessage).withOffset 0)]

/-- A record under the offset of the first message. -/
def hiddenFirst : List Frame := [({}, (recordOf { id := ⟨5, 6⟩ }).withOffset 0)]

theorem filled_inFlightFirst : Filled inFlightFirst firstFrame where
  options := by simp [inFlightFirst, step, runOp_options, freshEngine]
  segment := by decide +kernel
  file := by decide +kernel
  io := by decide +kernel

/-- A message whose last event is a delivery is not in flight after a restart. -/
theorem oversized_hides_lease :
    noIoError (freshEngine {}) (inFlightFirst ++ carrierSteps ⟨3, 4⟩ hiddenFirst) = true ∧
    ∃ group, groupAt (run (freshEngine {}) (inFlightFirst ++ carrierSteps ⟨3, 4⟩ hiddenFirst)) someQueue someGroup = some group ∧
      group.inflight.lookup ⟨1, 2⟩ = none ∧
      ∃ event, lastEvent (loggedEvents (run (freshEngine {}) (inFlightFirst ++ carrierSteps ⟨3, 4⟩ hiddenFirst)) someQueue
        someGroup) ⟨1, 2⟩ = some event ∧ event.reason = .kDelivered := by
  obtain ⟨hio, hsame⟩ := carrierSteps_same ⟨3, 4⟩ hiddenFirst filled_inFlightFirst (by decide) (by decide) (by decide +kernel)
  refine ⟨hio, ?_⟩
  rw [hsame.groupAt, hsame.loggedEvents]
  have hgroup : ((groupAt (startedOn inFlightFirst (firstFrame ++ ({}, (recordOf { id := ⟨3, 4⟩ }).withOffset
      (UInt64.ofNat firstFrame.length)) :: hiddenFirst)) someQueue someGroup).map fun group =>
        (group.inflight.lookup ⟨1, 2⟩).isSome) = some false := by decide +kernel
  have hevent : ((lastEvent (loggedEvents (startedOn inFlightFirst (firstFrame ++ ({}, (recordOf { id := ⟨3, 4⟩ }).withOffset
      (UInt64.ofNat firstFrame.length)) :: hiddenFirst)) someQueue someGroup) ⟨1, 2⟩).map (·.reason)) =
        some .kDelivered := by decide +kernel
  obtain ⟨group, hg, hin⟩ := Option.map_eq_some_iff.1 hgroup
  obtain ⟨event, hev, hr⟩ := Option.map_eq_some_iff.1 hevent
  exact ⟨group, hg, by simpa using hin, event, hev, hr⟩

/-- One message is acked and another one in flight when the records are hidden. -/
def ackedFirst : List Step :=
  [.op {} (.createQueue someQueue), .op {} (.produce someQueue someMessage), .op {} (.produce someQueue { id := ⟨3, 4⟩ }),
    .op {} (.group someQueue someGroup .consume), .op {} (.group someQueue someGroup (.ack ⟨1, 2⟩)),
    .op {} (.group someQueue someGroup .consume)]

def twoFrames : List Frame := [({}, (recordOf someMessage).withOffset 0), ({}, (recordOf { id := ⟨3, 4⟩ }).withOffset 1)]

/-- A record with the id of the first message under the offset of the second,
and one with the id of the second. -/
def hiddenSwap : List Frame :=
  [({}, (recordOf { id := ⟨1, 2⟩ }).withOffset 1), ({}, (recordOf { id := ⟨3, 4⟩ }).withOffset 3)]

theorem filled_ackedFirst : Filled ackedFirst twoFrames where
  options := by simp [ackedFirst, step, runOp_options, freshEngine]
  segment := by decide +kernel
  file := by decide +kernel
  io := by decide +kernel

theorem not_path_after_ack {opts : EngineOptions} {restarted : Nat → Nat → Prop} {e0 e1 e2 e3 : TransitionEvent}
    (h1 : e1.id = e3.id) (h2 : e2.id ≠ e3.id) (hs : e1.state = .kAcked) :
    ¬ DeliveryPath opts restarted [e0, e1, e2, e3] := by
  intro hpath
  have hlast : LastAt [e0, e1, e2] e3.id 1 e1 := by
    refine ⟨rfl, h1, fun k other hk hother => ?_⟩
    have hlt : k < 3 := (List.getElem?_eq_some_iff.1 hother).1
    obtain rfl : k = 2 := by omega
    obtain rfl : e2 = other := Option.some.inj hother
    exact h2
  exact (hpath.follows 1 3 e1 e3 rfl hlast).ends.1 hs

/-- A message that was acked is delivered again after a restart. -/
theorem oversized_redelivers_acked :
    noIoError (freshEngine {}) (ackedFirst ++ carrierSteps ⟨5, 6⟩ hiddenSwap) = true ∧
    ∀ restarted, ¬ DeliveryPath {} restarted
      (loggedEvents (run (freshEngine {}) (ackedFirst ++ carrierSteps ⟨5, 6⟩ hiddenSwap)) someQueue someGroup) := by
  obtain ⟨hio, hsame⟩ := carrierSteps_same ⟨5, 6⟩ hiddenSwap filled_ackedFirst (by decide) (by decide +kernel)
    (by decide +kernel)
  refine ⟨hio, fun restarted hpath => ?_⟩
  rw [hsame.loggedEvents] at hpath
  have hlog : (loggedEvents (startedOn ackedFirst (twoFrames ++ ({}, (recordOf { id := ⟨5, 6⟩ }).withOffset
      (UInt64.ofNat twoFrames.length)) :: hiddenSwap)) someQueue someGroup).map (fun event => (event.id, event.state)) =
        [(⟨1, 2⟩, .kInFlight), (⟨1, 2⟩, .kAcked), (⟨3, 4⟩, .kInFlight), (⟨1, 2⟩, .kInFlight)] := by decide +kernel
  generalize loggedEvents _ someQueue someGroup = log at hlog hpath
  obtain ⟨e0, log, rfl, -, hlog⟩ := List.map_eq_cons_iff.1 hlog
  obtain ⟨e1, log, rfl, h1, hlog⟩ := List.map_eq_cons_iff.1 hlog
  obtain ⟨e2, log, rfl, h2, hlog⟩ := List.map_eq_cons_iff.1 hlog
  obtain ⟨e3, log, rfl, h3, hlog⟩ := List.map_eq_cons_iff.1 hlog
  obtain rfl := List.map_eq_nil_iff.1 hlog
  simp only [Prod.mk.injEq] at h1 h2 h3
  exact not_path_after_ack (h1.1.trans h3.1.symm) (by rw [h2.1, h3.1]; decide) h1.2 hpath

end PomaiQueue.Engine
