import PomaiQueue.Recovery
/-!
# What `Consume` returns

`Consume` takes the first of the ready offsets, reads the record there and looks
up the record's id. In every state of a run without I/O errors these agree:
an entry of the group has the offset of the record with its id
(`Entries`), and every record is the one of a `Produce` of the run
(`Sourced`). So the message returned is the ready one with the least offset, as it
was produced (`consume_exact`).
-/

namespace PomaiQueue.Engine

open Wire Posix Assoc Storage

/-! ## Messages -/

/-- The messages say the same. Headers are a map. -/
structure Message.Same (a b : Message) : Prop where
  id : a.id = b.id
  enqueue_ts : a.enqueue_ts = b.enqueue_ts
  payload : a.payload = b.payload
  routing_key : a.routing_key = b.routing_key
  headers : ∀ key, a.headers.lookup key = b.headers.lookup key

theorem mem_headerList (m : Message) (key value : Bytes) :
    (key, value) ∈ m.headerList ↔ m.headers.lookup key = some value := by
  rw [Message.headerList, List.mem_insertionSort, List.mem_map, ← mem_entries_iff]
  constructor
  · rintro ⟨⟨k, v⟩, hmem, heq⟩
    obtain ⟨rfl, rfl⟩ := Prod.mk.inj heq
    exact hmem
  · intro hmem
    exact ⟨⟨key, value⟩, hmem, rfl⟩

theorem lookup_headers (m : Message) (key : Bytes) :
    (fill Prod.fst Prod.snd m.headerList ∅).lookup key = m.headers.lookup key := by
  have hkey : ∀ x ∈ m.headerList, ∀ y ∈ m.headerList, x.1 = y.1 → x.2 = y.2 := by
    intro x hx y hy hxy
    have hx' := (mem_headerList m x.1 x.2).1 hx
    have hy' := (mem_headerList m y.1 y.2).1 hy
    rw [hxy, hy'] at hx'
    exact (Option.some.inj hx').symm
  cases h : m.headers.lookup key with
  | some value => exact lookup_fill_of_mem Prod.fst Prod.snd hkey ((mem_headerList m key value).2 h)
  | none =>
    cases hl : (fill Prod.fst Prod.snd m.headerList ∅).lookup key with
    | none => rfl
    | some value =>
      obtain ⟨x, hx, rfl, rfl⟩ := lookup_fill hl
      rw [(mem_headerList m x.1 x.2).1 hx] at h
      cases h

/-- A message that was produced is returned as it was. -/
theorem consumedMessage_same (pad : Padding) (m : Message) (o : UInt64) :
    (consumedMessage (Frame.stored (pad, (recordOf m).withOffset o))).Same m where
  id := rfl
  enqueue_ts := rfl
  payload := rfl
  routing_key := rfl
  headers := lookup_headers m

/-! ## Where the records come from -/

/-- The step produced `m` to the queue and returned `o`, unless the process was killed during it. -/
def ProducedAt (e : QueueEngine) (q : Path) (steps : List Step) (o : UInt64) (m : Message) : Prop :=
  ∃ j s, steps[j]? = some s ∧ s.operation = .produce q m ∧
    ∀ env, s = .op env (.produce q m) → (produceOnShard env q m (run e (steps.take j))).1 = .ok o

/-- Every record of the segment is a message that was produced. -/
def Sourced (e : QueueEngine) (q : Path) (steps : List Step) (rs : List Frame) : Prop :=
  ∀ (i : Nat) (f : Frame), rs[i]? = some f → ∃ m, f.2 = recordOf m ∧ ProducedAt e q steps (UInt64.ofNat i) m

theorem ProducedAt.later {e : QueueEngine} {q : Path} {steps : List Step} {o : UInt64} {m : Message}
    (h : ProducedAt e q steps o m) (s : Step) : ProducedAt e q (steps ++ [s]) o m := by
  obtain ⟨j, s', hs', hop, hret⟩ := h
  have hj : j < steps.length := (List.getElem?_eq_some_iff.1 hs').1
  refine ⟨j, s', by rw [List.getElem?_append_left hj]; exact hs', hop, fun env heq => ?_⟩
  rw [List.take_append_of_le_length hj.le]
  exact hret env heq

theorem Sourced.later {e : QueueEngine} {q : Path} {steps : List Step} {rs : List Frame} (h : Sourced e q steps rs)
    (s : Step) : Sourced e q (steps ++ [s]) rs := by
  intro i f hf
  obtain ⟨m, hm, hp⟩ := h i f hf
  exact ⟨m, hm, hp.later s⟩

theorem Sourced.add {e : QueueEngine} {q : Path} {steps : List Step} {rs : List Frame} (h : Sourced e q steps rs) {s : Step}
    {m : Message} {f : Frame} (hf : f.2 = recordOf m) (hop : s.operation = .produce q m)
    (hret : ∀ env, s = .op env (.produce q m) →
      (produceOnShard env q m (run e steps)).1 = .ok (UInt64.ofNat rs.length)) :
    Sourced e q (steps ++ [s]) (rs ++ [f]) := by
  intro i f' hf'
  by_cases hi : i < rs.length
  · rw [List.getElem?_append_left hi] at hf'
    exact h.later s i f' hf'
  · have hi' : i = rs.length := by
      have hlt := (List.getElem?_eq_some_iff.1 hf').1
      rw [List.length_append, List.length_singleton] at hlt
      omega
    subst hi'
    rw [List.getElem?_concat_length, Option.some.injEq] at hf'
    subst hf'
    refine ⟨m, hf, steps.length, s, List.getElem?_concat_length, hop, fun env heq => ?_⟩
    rw [List.take_left]
    exact hret env heq

/-- The number of records is the offset that `Produce` returns. -/
theorem Stored.produce_offset {dir q : Path} {e : QueueEngine} {rs : List Frame} (h : Stored dir q e rs true) {env : Env}
    {m : Message} (hok : (produceOnShard env q m e).1.isOk = true) :
    (produceOnShard env q m e).1 = .ok (UInt64.ofNat rs.length) := by
  rcases hp : produceOnShard env q m e with ⟨res, e'⟩
  rw [hp] at hok
  cases res with
  | error err => cases hok
  | ok o =>
    cases h with
    | absent hnone =>
      unfold produceOnShard at hp
      rw [hnone] at hp
      cases hp
    | @live _ queue hsome _ hh _ =>
      have hq : QueueHolds e q rs := ⟨queue, hsome, hh⟩
      rw [(hq.produce hp).1]

theorem course_sourced {σ : Setting} {e : QueueEngine} (h0 : Course σ e [] true [] {}) {steps : List Step}
    (hf : σ.Follows e true steps) :
    ∃ rs hs n, Course σ (run e steps) rs (freshAfter true steps) hs n ∧ Sourced e σ.queue steps rs := by
  induction steps using List.reverseRecOn with
  | nil => exact ⟨[], [], {}, h0, fun i f hi => by cases hi⟩
  | append_singleton steps s ih =>
    obtain ⟨hpre, hlast, -⟩ := hf.append
    obtain ⟨rs, hs, n, hc, hsrc⟩ := ih hpre
    have hfresh : freshAfter true (steps ++ [s]) = (freshAfter true steps && !s.kills) := by simp [freshAfter]
    rw [run_concat, hfresh]
    cases s with
    | op env o =>
      obtain ⟨hs', n', hc', -⟩ := hc.op hlast
      refine ⟨_, _, n', by simpa [Step.kills] using hc', ?_⟩
      cases o with
      | createQueue q =>
        rw [show addedBy σ.queue env (run e steps) (.createQueue q) = [] from rfl, List.append_nil]
        exact hsrc.later _
      | group q g op =>
        rw [show addedBy σ.queue env (run e steps) (.group q g op) = [] from rfl, List.append_nil]
        exact hsrc.later _
      | produce q m =>
        simp only [addedBy]
        split_ifs with hand
        · obtain ⟨rfl, hok⟩ := hand
          refine hsrc.add rfl rfl fun env' heq => ?_
          cases heq
          have hst := hc.stored
          rw [(hlast.produce m rfl).1] at hst
          exact hst.produce_offset hok
        · rw [List.append_nil]
          exact hsrc.later _
    | kill env o k options =>
      obtain ⟨rs', hs', n', hc', -, hadds, -⟩ := hc.kill hlast
      refine ⟨rs', _, n', by simpa [Step.kills] using hc', ?_⟩
      rcases hadds with rfl | ⟨m, hop, rfl⟩
      · exact hsrc.later _
      · exact hsrc.add rfl hop fun env' heq => by cases heq

/-! ## One `Consume` -/

/-- The message can be delivered now. -/
def Deliverable (env : Env) (rt : MessageRuntime) : Prop :=
  rt.state = .kReady ∧ rt.available_after_ms ≤ env.now .buildReadyQueue

theorem reaped_ready (env : Env) (opts : EngineOptions) (q : Path) (g : CString) (group : ConsumerGroupState) (fs : Fs) :
    ∃ group', (reapExpiredInflight env opts q g group fs).1 = buildReadyQueue env group' := by
  unfold reapExpiredInflight
  dsimp only
  generalize reapTicks env opts q g _ _ _ fs = reaped
  exact ⟨reaped.1, rfl⟩

/-- The first ready offset is the least one of a message that can be delivered. -/
theorem buildReadyQueue_head {env : Env} {group : ConsumerGroupState} {offset : UInt64} {offsets : List UInt64}
    (h : (buildReadyQueue env group).ready_offsets = offset :: offsets) :
    (∃ id rt, group.runtime.lookup id = some rt ∧ Deliverable env rt ∧ rt.offset = offset) ∧
      ∀ id rt, group.runtime.lookup id = some rt → Deliverable env rt → offset ≤ rt.offset := by
  constructor
  · have hmem : offset ∈ (buildReadyQueue env group).ready_offsets := by
      rw [h]
      exact List.mem_cons_self
    obtain ⟨id, rt, hrt, hs, ha, ho⟩ := mem_buildReadyQueue hmem
    exact ⟨id, rt, hrt, ⟨hs, ha⟩, ho⟩
  · intro id rt hrt hd
    have hmem := ready_mem hrt hd.1 hd.2
    have hsorted : (buildReadyQueue env group).ready_offsets.Pairwise (· ≤ ·) := List.pairwise_insertionSort _ _
    rw [h] at hmem hsorted
    rcases List.mem_cons.1 hmem with heq | hmem
    · exact UInt64.le_of_eq heq.symm
    · exact (List.pairwise_cons.1 hsorted).1 _ hmem

/-- Nothing is ready if and only if no message can be delivered. -/
theorem buildReadyQueue_nil {env : Env} {group : ConsumerGroupState} (h : (buildReadyQueue env group).ready_offsets = []) :
    ∀ id rt, group.runtime.lookup id = some rt → ¬ Deliverable env rt := by
  intro id rt hrt hd
  have hmem := ready_mem hrt hd.1 hd.2
  rw [h] at hmem
  cases hmem

/-- A delivery when nothing fails. -/
theorem deliver_quiet {env : Env} (hq : env.toIo.Quiet) (opts : EngineOptions) (q : Path) (g : CString) (offset : UInt64)
    (record : Record) (group : ConsumerGroupState) (fs : Fs) {rt : MessageRuntime}
    (hrt : group.runtime.lookup (idOf record) = some rt) :
    ∃ group' fs', deliver env opts q g offset record group fs =
        (.ok (some { message := consumedMessage record, offset, delivery_count := rt.retry_count + 1 }), group', fs') ∧
      ∀ id, id ≠ idOf record → group'.runtime.lookup id = group.runtime.lookup id := by
  have hp : env.failpoint ≠ some .before_lease_issue := by
    rw [hq.failpoint]
    simp
  rw [@deliver_eq env opts q g offset record group group rt fs hp (by rw [hrt]; rfl) (by rw [hrt]; rfl)]
  obtain ⟨group', hgroup', heq⟩ := commit_quiet hq opts q g (bump group)
    (deliverEvent opts g (env.now .consume) group.next_sequence (idOf record) rt) false fs
  rw [heq]
  refine ⟨group', _, rfl, fun id hid => ?_⟩
  rw [hgroup']
  exact (lookup_applyTransition _ _ _ _ id).trans (if_neg hid)

/-- What `Consume` does to a group: `reaped` is the group after reaping, and `given` are the messages that were produced,
with their offsets. -/
structure Exact (env : Env) (opts : EngineOptions) (given : UInt64 → Message → Prop) (reaped : ConsumerGroupState)
    (reply : StatusOr (Option ConsumeResult)) (group' : ConsumerGroupState) : Prop where
  returns : (∃ r, reply = .ok (some r)) ↔ reaped.inflight.entries.length < opts.max_inflight.toNat ∧
    ∃ id rt, reaped.runtime.lookup id = some rt ∧ Deliverable env rt
  message : ∀ r, reply = .ok (some r) → ∃ rt, reaped.runtime.lookup r.message.id = some rt ∧ Deliverable env rt ∧
    rt.offset = r.offset ∧ (∀ id rt', reaped.runtime.lookup id = some rt' → Deliverable env rt' → r.offset ≤ rt'.offset) ∧
    r.delivery_count = rt.retry_count + 1 ∧ ∃ m, given r.offset m ∧ r.message.Same m
  others : ∀ r, reply = .ok (some r) → ∀ id, id ≠ r.message.id → group'.runtime.lookup id = reaped.runtime.lookup id

theorem Exact.nothing {env : Env} {opts : EngineOptions} {given : UInt64 → Message → Prop} {reaped group' : ConsumerGroupState}
    (h : ¬ (reaped.inflight.entries.length < opts.max_inflight.toNat ∧
      ∃ id rt, reaped.runtime.lookup id = some rt ∧ Deliverable env rt)) :
    Exact env opts given reaped (.ok none) group' := by
  have hnot : ∀ r, (.ok none : StatusOr (Option ConsumeResult)) ≠ .ok (some r) := by
    intro r hr
    cases hr
  exact ⟨iff_of_false (fun ⟨r, hr⟩ => hnot r hr) h, fun r hr => absurd hr (hnot r), fun r hr => absurd hr (hnot r)⟩

/-- If every entry has the offset of a record with its id, `Consume` is exact. -/
theorem consumeGroup_exact {env : Env} (hq : env.toIo.Quiet) (opts : EngineOptions) (q : Path) (g : CString)
    (segment : SegmentLog) (group : ConsumerGroupState) (fs : Fs) {given : UInt64 → Message → Prop}
    (hread : ∀ id rt, (reapExpiredInflight env opts q g group fs).1.runtime.lookup id = some rt →
      ∃ record m, segment.read (reapExpiredInflight env opts q g group fs).2 rt.offset = .ok record ∧ idOf record = id ∧
        given rt.offset m ∧ (consumedMessage record).Same m) :
    Exact env opts given (reapExpiredInflight env opts q g group fs).1 (consumeGroup env opts q g segment group fs).1
      (consumeGroup env opts q g segment group fs).2.1 := by
  obtain ⟨unsorted, hun⟩ := reaped_ready env opts q g group fs
  unfold consumeGroup
  generalize reapExpiredInflight env opts q g group fs = reaped at hread hun ⊢
  obtain ⟨group1, fs1⟩ := reaped
  dsimp only at hread hun ⊢
  have hrt1 : group1.runtime = unsorted.runtime := by
    rw [hun]
    rfl
  by_cases hroom : opts.max_inflight.toNat ≤ group1.inflight.entries.length
  · simp only [hroom, if_true]
    exact .nothing fun h => absurd h.1 (Nat.not_lt.2 hroom)
  simp only [hroom, if_false]
  cases hoff : group1.ready_offsets with
  | nil =>
    have hnone := buildReadyQueue_nil (by rw [← hun]; exact hoff)
    rw [← hrt1] at hnone
    refine .nothing ?_
    rintro ⟨-, id, rt, hrt, hd⟩
    exact hnone id rt hrt hd
  | cons offset offsets =>
    obtain ⟨⟨id, rt, hrt, hd, rfl⟩, hleast⟩ := buildReadyQueue_head (by rw [← hun]; exact hoff)
    rw [← hrt1] at hrt hleast
    obtain ⟨record, m, hrec, rfl, hgiven, hsame⟩ := hread id rt hrt
    dsimp only
    rw [hrec]
    obtain ⟨group', fs', heq, hothers⟩ := deliver_quiet hq opts q g rt.offset record
      { group1 with ready_offsets := offsets } fs1 hrt
    dsimp only
    rw [heq]
    refine ⟨iff_of_true ⟨_, rfl⟩ ⟨Nat.lt_of_not_le hroom, idOf record, rt, hrt, hd⟩, fun r hr => ?_, fun r hr => ?_⟩
    · obtain rfl := Option.some.inj (Except.ok.inj hr)
      exact ⟨rt, hrt, hd, rfl, hleast, rfl, m, hgiven, hsame⟩
    · obtain rfl := Option.some.inj (Except.ok.inj hr)
      exact hothers

/-! ## Every `Consume` of a run -/

/-- A run without I/O errors. Messages are produced to the queue before the first
restart only, and they fit the record format. A restart may change every option
but the data directory. Other queues and groups may be used if their files and the directories
in front of these are elsewhere. -/
structure Faultless (opts : EngineOptions) (q : Path) (g : CString) (steps : List Step) : Prop where
  quiet : ∀ s ∈ steps, s.Quiet
  accepted : EachStep (fun e s => ∀ env o, s = .op env o → ∀ msg, (runOp env e o).1 ≠ .error (.status .kIOError msg))
    (freshEngine opts) steps
  data_dir : ∀ env o k options, Step.kill env o k options ∈ steps → options.data_dir = opts.data_dir
  apart : ∀ s ∈ steps, s.operation.Apart opts.data_dir q g
  clear : ∀ s ∈ steps, s.operation.Clear opts.data_dir q
  produce_first : steps.Pairwise fun s s' => s.kills = true → ∀ m, s'.operation ≠ .produce q m
  fits : ∀ s ∈ steps, ∀ m, s.operation = .produce q m → (recordOf m).Fits

theorem Orderly.faultless {opts : EngineOptions} {q : Path} {g : CString} {steps : List Step} (h : Orderly opts q g steps) :
    Faultless opts q g steps where
  quiet := h.quiet
  accepted := h.accepted
  data_dir env o k options hk := by rw [h.options env o k options hk]
  apart := h.apart
  clear := h.clear
  produce_first := h.produce_first
  fits := h.fits

/-- The group `g` of queue `q` under a data directory, when nothing fails. -/
def faultlessSetting (dir q : Path) (g : CString) : Setting where
  dir := dir
  queue := q
  group := g
  env _ := True
  opts _ := True
  faulty := False
  settled := False
  present _ := False

theorem Faultless.course {opts : EngineOptions} {q : Path} {g : CString} {steps : List Step} (h : Faultless opts q g steps) :
    ∃ rs hs n, Course (faultlessSetting opts.data_dir q g) (run (freshEngine opts) steps) rs (freshAfter true steps) hs n ∧
      Sourced (freshEngine opts) q steps rs := by
  have h0 : Course (faultlessSetting opts.data_dir q g) (freshEngine opts) [] true [] {} :=
    ⟨tracks_fresh opts q g, .absent rfl rfl, trivial, .nil, fun _ h => h.elim⟩
  refine course_sourced h0 (follows_of_quiet id (fun _ _ => trivial) h.quiet (fun env o k options hk => ?_) h.apart h.clear
    h.produce_first h.fits (.inl rfl) h.accepted)
  exact ⟨h.data_dir env o k options hk, trivial⟩

theorem allows_group {dir q : Path} {g : CString} {e : QueueEngine} {fresh : Bool} {env : Env} (hq : env.toIo.Quiet)
    (op : GroupOp) : (faultlessSetting dir q g).Allows e fresh (.op env (.group q g op)) where
  apart := .inl ⟨rfl, rfl⟩
  clear := trivial
  env := trivial
  whole := by
    intro data n h
    rw [show (Step.op env (.group q g op)).env = env from rfl, hq.fault] at h
    cases h
  faulty h := absurd hq h
  produce m hm := by cases hm
  io env m h := by cases h
  options env o k options h := by cases h
  settled h := h.elim

/-- The group that an operation finds. -/
theorem Course.gets_group {σ : Setting} {e : QueueEngine} {rs : List Frame} {fresh : Bool} {hs : List Happening} {n : Node}
    (h : Course σ e rs fresh hs n) {queue : QueueState} (hqueue : e.queues.lookup σ.queue = some queue) {env : Env}
    (hr : env.toIo.Reads) :
    ∃ group, getGroup env e.options σ.queue queue σ.group e.fs = .ok group := by
  unfold getGroup
  cases queue.groups.lookup σ.group with
  | some group => exact ⟨group, rfl⟩
  | none => exact h.loads hqueue hr h.tracks.data_dir

/-- After reaping, the record of every entry can be read, and it is the message
of a `Produce`. -/
theorem reaped_read {dir q : Path} {g : CString} {e e0 : QueueEngine} {rs : List Frame} {fresh : Bool}
    {hs : List Happening} {n : Node} (h : Course (faultlessSetting dir q g) e rs fresh hs n) {steps : List Step}
    (hsrc : Sourced e0 q steps rs) {env : Env} (hq : env.toIo.Quiet) {queue : QueueState}
    (hqueue : e.queues.lookup q = some queue) {group : ConsumerGroupState}
    (hgroup : getGroup env e.options q queue g e.fs = .ok group) (id : MessageId) (rt : MessageRuntime)
    (hrt : (reapExpiredInflight env e.options q g group e.fs).1.runtime.lookup id = some rt) :
    ∃ record m, queue.segment.read (reapExpiredInflight env e.options q g group e.fs).2 rt.offset = .ok record ∧
      idOf record = id ∧ ProducedAt e0 q steps rt.offset m ∧ (consumedMessage record).Same m := by
  -- `GetStats` leaves the group as it is after reaping.
  obtain ⟨hs', n', hc, -⟩ := h.op (allows_group hq .getStats)
  rw [show addedBy (faultlessSetting dir q g).queue env e (.group q g .getStats) = [] from rfl, List.append_nil] at hc
  have heq : (step e (.op env (.group q g .getStats))) = { e with
      queues := e.queues.insert q { queue with
        groups := queue.groups.insert g (reapExpiredInflight env e.options q g group e.fs).1 }
      fs := (reapExpiredInflight env e.options q g group e.fs).2 } := by
    change (onGroup env q g .getStats e).2 = _
    unfold onGroup
    rw [hqueue]
    dsimp only
    rw [hgroup]
    rfl
  have hmem : n'.group = some (reapExpiredInflight env e.options q g group e.fs).1 := by
    rw [hc.tracks.memory, heq]
    simp [groupAt, faultlessSetting]
  obtain ⟨r, ⟨f, hf, rfl⟩, hid, -⟩ := (hc.entries.memory _ hmem id rt hrt).filed
  have hqueue' : (step e (.op env (.group q g .getStats))).queues.lookup q = some { queue with
      groups := queue.groups.insert g (reapExpiredInflight env e.options q g group e.fs).1 } := by
    rw [heq]
    exact AList.lookup_insert _
  have hread := hc.stored.read_of hqueue' hf
  obtain ⟨m, hm, hp⟩ := hsrc rt.offset.toNat f hf
  rw [UInt64.ofNat_toNat] at hp
  refine ⟨_, m, ?_, hid, hp, ?_⟩
  · rw [heq] at hread
    exact hread
  · rw [hm]
    exact consumedMessage_same f.1 m rt.offset

/-- `Consume` returns the message that can be delivered with the least offset, as it
was produced, whenever there is one and room for it. -/
theorem consume_exact (opts : EngineOptions) (q : Path) (g : CString) (steps : List Step) (h : Faultless opts q g steps)
    (env : Env) (hq : env.toIo.Quiet) (queue : QueueState) (hqueue : (run (freshEngine opts) steps).queues.lookup q = some queue) :
    ∃ group reply group',
      getGroup env (run (freshEngine opts) steps).options q queue g (run (freshEngine opts) steps).fs = .ok group ∧
      (consumeOnShard env q g (run (freshEngine opts) steps)).1 = reply.map .consumed ∧
      groupAt (consumeOnShard env q g (run (freshEngine opts) steps)).2 q g = some group' ∧
      Exact env (run (freshEngine opts) steps).options (ProducedAt (freshEngine opts) q steps)
        (reapExpiredInflight env (run (freshEngine opts) steps).options q g group (run (freshEngine opts) steps).fs).1
        reply group' := by
  obtain ⟨rs, hs, n, hc, hsrc⟩ := h.course
  generalize run (freshEngine opts) steps = e at hqueue hc ⊢
  obtain ⟨group, hgroup⟩ := hc.gets_group hqueue hq.reads
  have hgroup' : getGroup env e.options q queue g e.fs = .ok group := hgroup
  refine ⟨group, _, _, hgroup', ?_, ?_, consumeGroup_exact hq e.options q g queue.segment group e.fs
    (reaped_read hc hsrc hq hqueue hgroup')⟩
  · unfold consumeOnShard onGroup
    rw [hqueue]
    dsimp only
    rw [hgroup']
    rfl
  · unfold consumeOnShard onGroup
    rw [hqueue]
    dsimp only
    rw [hgroup']
    simp [groupAt, groupOp]

/-- The process is killed while it delivers the message, and the queue is opened again. -/
theorem consume_exact_restarted :
    ∃ queue group reply group', (run (freshEngine {}) cutDelivery).queues.lookup someQueue = some queue ∧
      getGroup {} (run (freshEngine {}) cutDelivery).options someQueue queue someGroup (run (freshEngine {}) cutDelivery).fs =
        .ok group ∧
      (consumeOnShard {} someQueue someGroup (run (freshEngine {}) cutDelivery)).1 = reply.map .consumed ∧
      groupAt (consumeOnShard {} someQueue someGroup (run (freshEngine {}) cutDelivery)).2 someQueue someGroup = some group' ∧
      Exact {} (run (freshEngine {}) cutDelivery).options (ProducedAt (freshEngine {}) someQueue cutDelivery)
        (reapExpiredInflight {} (run (freshEngine {}) cutDelivery).options someQueue someGroup group
          (run (freshEngine {}) cutDelivery).fs).1 reply group' := by
  have hopen : ((run (freshEngine {}) cutDelivery).queues.lookup someQueue).isSome = true := by decide +kernel
  obtain ⟨queue, hqueue⟩ := Option.isSome_iff_exists.1 hopen
  obtain ⟨group, reply, group', h⟩ := consume_exact {} someQueue someGroup cutDelivery orderly_cutDelivery.faultless {}
    quiet_default queue hqueue
  exact ⟨queue, group, reply, group', hqueue, h⟩

end PomaiQueue.Engine
