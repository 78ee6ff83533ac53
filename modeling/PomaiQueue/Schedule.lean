import PomaiQueue.Wheel
/-!
# The schedule over a run

A leased message stays in the slot of its bucket tick as long as every reap is
safe (`ReapsSafely`): no slot is passed a revolution before the tick of a lease in
it, and an expired lease can be logged. Loading a group, deliveries, answers and
restarts never take a message out of its slot.
-/

namespace PomaiQueue.Engine

open Wire Posix Assoc Storage

/-! ## What an operation does to the schedule -/

/-- Up to the schedule, `b` is `a`, or `a` after an event. -/
def Reschedules (env : Env) (opts : EngineOptions) (P : TransitionEvent → Prop) (a b : ConsumerGroupState) : Prop :=
  SameSchedule a b ∨ ∃ a' event, SameSchedule a a' ∧ P event ∧ SameSchedule (applyTransition env opts a' event) b

section operations

variable (env : Env) (opts : EngineOptions) (q : Path) (g : CString)

theorem sameSchedule_ready (group : ConsumerGroupState) : SameSchedule group (buildReadyQueue env group) := ⟨rfl, rfl, rfl⟩

theorem commit_reschedules (group : ConsumerGroupState) (event : TransitionEvent) (rebuild : Bool) (fs : Fs)
    {P : TransitionEvent → Prop} (hP : P event) :
    Reschedules env opts P group (commit env opts q g group event rebuild fs).2.1 := by
  have hgroup := appendTransition_group env opts q g group event fs
  unfold commit
  generalize appendTransition env opts q g group event fs = appended at hgroup
  obtain ⟨result, group', fs'⟩ := appended
  have hmoved : Reschedules env opts P group group' := by
    rcases hgroup with h | ⟨h, -⟩
    · exact .inr ⟨group, event, ⟨rfl, rfl, rfl⟩, hP, by rw [show group' = _ from h]; exact ⟨rfl, rfl, rfl⟩⟩
    · exact .inl (by rw [show group' = _ from h]; exact ⟨rfl, rfl, rfl⟩)
  have hready : Reschedules env opts P group (if rebuild then buildReadyQueue env group' else group') := by
    split
    · rcases hmoved with h | ⟨a, event', ha, hP', hs⟩
      · exact .inl (h.trans (sameSchedule_ready env group'))
      · exact .inr ⟨a, event', ha, hP', hs.trans (sameSchedule_ready env group')⟩
    · exact hmoved
  cases result with
  | error e => exact hmoved
  | ok u =>
    dsimp only
    generalize persistGroupState env opts q g _ fs' = persisted
    obtain ⟨result, fs''⟩ := persisted
    cases result <;> exact hready

theorem Reschedules.of_same {P : TransitionEvent → Prop} {a b c : ConsumerGroupState} (hs : SameSchedule a b)
    (h : Reschedules env opts P b c) : Reschedules env opts P a c := by
  rcases h with h | ⟨b', event, hb, hP, h⟩
  · exact .inl (hs.trans h)
  · exact .inr ⟨b', event, hs.trans hb, hP, h⟩

/-- An answer does not deliver anything. -/
theorem answer_reschedules {op : GroupOp} {id : MessageId} (hop : op.Answers id) (segment : SegmentLog)
    (group : ConsumerGroupState) (fs : Fs) :
    Reschedules env opts (·.state ≠ .kInFlight) group (groupOp env opts q g op segment group fs).2.1 := by
  have hbump : SameSchedule group (bump group) := ⟨rfl, rfl, rfl⟩
  rcases hop with rfl | ⟨requeue, rfl⟩
  · simp only [groupOp, Prod.map, ackGroup]
    cases group.inflight.lookup id with
    | none => exact .inl ⟨rfl, rfl, rfl⟩
    | some entry =>
      cases group.runtime.lookup id with
      | none => exact .inl ⟨rfl, rfl, rfl⟩
      | some rt =>
        dsimp only
        split_ifs
        · exact .inl hbump
        · exact .of_same env opts hbump (commit_reschedules env opts q g _ _ false fs (by simp [ackEvent]))
  · simp only [groupOp, Prod.map, nackGroup]
    cases group.inflight.lookup id with
    | none => exact .inl ⟨rfl, rfl, rfl⟩
    | some entry =>
      cases group.runtime.lookup id with
      | none => exact .inl ⟨rfl, rfl, rfl⟩
      | some rt =>
        dsimp only
        split_ifs
        · exact .inl hbump
        · refine .of_same env opts hbump (commit_reschedules env opts q g _ _ true fs ?_)
          unfold nackEvent
          split_ifs <;> simp

/-- A delivery leases the message until the visibility timeout from now. -/
theorem deliver_reschedules (offset : UInt64) (record : Record) (group : ConsumerGroupState) (fs : Fs) :
    Reschedules env opts (fun event => event.deadline_ms = env.now .consume + opts.visibility_timeout.toUInt64) group
      (deliver env opts q g offset record group fs).2.1 := by
  by_cases hp : env.failpoint = some .before_lease_issue
  · simp only [deliver, hp, if_true]
    split_ifs <;> exact .inl ⟨rfl, rfl, rfl⟩
  · rw [deliver_eq offset record fs hp rfl rfl]
    generalize hg' : (if (group.runtime.lookup (idOf record)).isNone then _ else group) = group'
    have hsame : SameSchedule group (bump group') := by
      rw [← hg']
      split_ifs <;> exact ⟨rfl, rfl, rfl⟩
    have hres := commit_reschedules env opts q g (bump group') (deliverEvent opts g (env.now .consume)
      group'.next_sequence (idOf record) ((group.runtime.lookup (idOf record)).getD
        (createdRuntime (env.now .runtimeCreated) offset record.header.enqueue_ts))) false fs
      (P := fun event => event.deadline_ms = env.now .consume + opts.visibility_timeout.toUInt64) rfl
    generalize commit env opts q g (bump group') _ false fs = committed at hres
    obtain ⟨result, group1, fs1⟩ := committed
    cases result <;> exact .of_same env opts hsame hres

/-- `Consume` reaps and then maybe delivers. -/
theorem consume_reschedules (segment : SegmentLog) (group : ConsumerGroupState) (fs : Fs) :
    Reschedules env opts (fun event => event.deadline_ms = env.now .consume + opts.visibility_timeout.toUInt64)
      (reapExpiredInflight env opts q g group fs).1 (consumeGroup env opts q g segment group fs).2.1 := by
  unfold consumeGroup
  generalize reapExpiredInflight env opts q g group fs = reaped
  obtain ⟨group1, fs1⟩ := reaped
  dsimp only
  split_ifs
  · exact .inl ⟨rfl, rfl, rfl⟩
  · cases group1.ready_offsets with
    | nil => exact .inl ⟨rfl, rfl, rfl⟩
    | cons offset offsets =>
      dsimp only
      have hsame : SameSchedule group1 { group1 with ready_offsets := offsets } := ⟨rfl, rfl, rfl⟩
      cases segment.read fs1 offset with
      | error e => exact .inl hsame
      | ok record => exact .of_same env opts hsame (deliver_reschedules env opts q g offset record _ fs1)

end operations

/-! ## Reaping -/

/-- The tick that `ReapExpiredInflight` goes up to. -/
def nowTick (env : Env) (opts : EngineOptions) : Nat := (env.now .reapExpiredInflight / opts.tickMs).toNat

/-- No slot is passed before the tick of a lease in it, and if a lease in it has
expired, its timeout can be logged. -/
structure ReapsSafely (env : Env) (opts : EngineOptions) (q : Path) (g : CString) (group : ConsumerGroupState) : Prop where
  pass : ∀ id entry, group.inflight.lookup id = some entry → ∀ tick, group.wheel_base_tick.toNat ≤ tick →
    tick ≤ nowTick env opts →
    tick % group.deadline_wheel.length = entry.bucket_tick.toNat % group.deadline_wheel.length → entry.bucket_tick.toNat ≤ tick
  log : ∀ id entry, group.inflight.lookup id = some entry → ∀ tick, group.wheel_base_tick.toNat ≤ tick →
    tick ≤ nowTick env opts →
    tick % group.deadline_wheel.length = entry.bucket_tick.toNat % group.deadline_wheel.length →
    entry.deadline_ms ≤ env.now .reapExpiredInflight → env.LogsTimeouts (groupEventPath opts.data_dir q g)

section reaping

variable (env : Env) (opts : EngineOptions) (q : Path) (g : CString)

/-- The clock never shows the last `uint64_t`, so the ticks do not overflow. -/
theorem reap_rounds (base : UInt64) : base.toNat + (nowTick env opts + 1 - base.toNat) < 2 ^ 64 := by
  have hb := base.toNat_lt
  have hnow := (env.now .reapExpiredInflight).toNat_lt
  have hne : (env.now .reapExpiredInflight).toNat ≠ 2 ^ 64 - 1 := by
    intro h
    exact env.now_ne .reapExpiredInflight (UInt64.toNat_inj.1 h)
  have htick : nowTick env opts ≤ (env.now .reapExpiredInflight).toNat := by
    rw [nowTick, UInt64.toNat_div]
    exact Nat.div_le_self _ _
  omega

theorem reapExpiredInflight_eq {group : ConsumerGroupState} (hlen : 0 < group.deadline_wheel.length) (fs : Fs) :
    (reapExpiredInflight env opts q g group fs).1 =
      buildReadyQueue env (reapTicks env opts q g (env.now .reapExpiredInflight)
        (nowTick env opts + 1 - group.wheel_base_tick.toNat) group fs).1 := by
  have hne : group.deadline_wheel.isEmpty = false := by
    rw [List.isEmpty_eq_false_iff]
    exact List.ne_nil_of_length_pos hlen
  simp only [reapExpiredInflight, hne, Bool.false_eq_true, if_false, nowTick]

theorem reapExpiredInflight_reaped {group : ConsumerGroupState} (hlen : 0 < group.deadline_wheel.length) (fs : Fs) :
    Reaped (env.now .reapExpiredInflight) group (reapExpiredInflight env opts q g group fs).1 ∧
      (reapExpiredInflight env opts q g group fs).1.wheel_base_tick.toNat =
        max group.wheel_base_tick.toNat (nowTick env opts + 1) := by
  obtain ⟨hreaped, hbase⟩ := reapTicks_reaped env opts q g (env.now .reapExpiredInflight)
    (nowTick env opts + 1 - group.wheel_base_tick.toNat) group fs hlen (reap_rounds env opts _)
  rw [reapExpiredInflight_eq env opts q g hlen]
  refine ⟨hreaped.trans ((sameSchedule_ready env _).reaped _), ?_⟩
  rw [(sameSchedule_ready env _).base, hbase]
  omega

/-- A safe reap keeps the wheel in order and ends the leases of the ticks it visits. -/
theorem inWheel_reap {group : ConsumerGroupState} (hlen : 0 < group.deadline_wheel.length) (fs : Fs)
    (hsafe : ReapsSafely env opts q g group) (h : InWheel group) :
    InWheel (reapExpiredInflight env opts q g group fs).1 ∧
      ∀ id entry, (reapExpiredInflight env opts q g group fs).1.inflight.lookup id = some entry →
        ∀ tick, group.wheel_base_tick.toNat ≤ tick → tick ≤ nowTick env opts →
        tick % group.deadline_wheel.length = entry.bucket_tick.toNat % group.deadline_wheel.length →
        env.now .reapExpiredInflight < entry.deadline_ms := by
  obtain ⟨hin, hvisited⟩ := inWheel_reapTicks env opts q g (env.now .reapExpiredInflight)
    (nowTick env opts + 1 - group.wheel_base_tick.toNat) group fs hlen (reap_rounds env opts _)
    (fun v hge hlt id entry hl hv => hsafe.pass id entry hl v hge (by omega) hv)
    (fun v hge hlt id entry hl hv => hsafe.log id entry hl v hge (by omega) hv) h
  rw [reapExpiredInflight_eq env opts q g hlen]
  exact ⟨(sameSchedule_ready env _).inWheel hin, fun id entry hl tick hge hle => hvisited id entry hl tick hge (by omega)⟩

end reaping

/-! ## Runs -/

/-- The wheel has its 512 slots and every leased message is in its slot. -/
structure Scheduled (group : ConsumerGroupState) : Prop where
  length : group.deadline_wheel.length = 512
  filed : InWheel group

theorem Scheduled.same {a b : ConsumerGroupState} (h : Scheduled a) (hs : SameSchedule a b) : Scheduled b :=
  ⟨by rw [hs.wheel]; exact h.length, hs.inWheel h.filed⟩

theorem Scheduled.pos {group : ConsumerGroupState} (h : Scheduled group) : 0 < group.deadline_wheel.length := by
  rw [h.length]
  decide

theorem Scheduled.applyTransition {group : ConsumerGroupState} (h : Scheduled group) (env : Env) (opts : EngineOptions)
    (event : TransitionEvent) : Scheduled (applyTransition env opts group event) :=
  ⟨(applyTransition_length env opts event h.pos).trans h.length, h.filed.applyTransition env opts event h.pos⟩

theorem Scheduled.reschedules {env : Env} {opts : EngineOptions} {P : TransitionEvent → Prop} {a b : ConsumerGroupState}
    (h : Scheduled a) (hr : Reschedules env opts P a b) : Scheduled b := by
  rcases hr with hs | ⟨a', event, ha, -, hs⟩
  · exact h.same hs
  · exact ((h.same ha).applyTransition env opts event).same hs

theorem Scheduled.replay {group : ConsumerGroupState} (h : Scheduled group) (env : Env) (opts : EngineOptions)
    (events : List TransitionEvent) : Scheduled (replay env opts events group) := by
  induction events using List.reverseRecOn with
  | nil => exact h
  | append_singleton events event ih =>
    rw [replay_concat]
    exact (ih.applyTransition env opts event).same ⟨rfl, rfl, rfl⟩

/-- A snapshot has no schedule. -/
theorem loadStateFile_schedule {opts : EngineOptions} {q : Path} {g : CString} {fs : Fs} {group base : ConsumerGroupState}
    (h : loadStateFile {} opts q g fs group = .ok base) : SameSchedule group base := by
  rw [loadStateFile_reads fun _ => rfl] at h
  split at h
  · obtain rfl := Except.ok.inj h
    exact ⟨rfl, rfl, rfl⟩
  · unfold loadSnapshot at h
    dsimp only at h
    split at h
    · cases h
    · split at h
      · cases h
      · obtain rfl := Except.ok.inj h
        exact ⟨rfl, rfl, rfl⟩

theorem scheduled_default (env : Env) (opts : EngineOptions) (messages : List (UInt64 × Message)) :
    Scheduled (defaultGroup env opts messages) := by
  refine ⟨List.length_replicate, fun id entry hin => ?_⟩
  cases hin

theorem scheduled_load {env : Env} {opts : EngineOptions} {q : Path} {g : CString} {segment : SegmentLog} {fs : Fs}
    {group : ConsumerGroupState} (h : loadGroupState env opts q g segment fs = .ok group) : Scheduled group := by
  obtain ⟨messages, base, events, -, hbase, -, rfl⟩ := loadGroupState_ok h
  have hbase' := (scheduled_default env opts messages).same (loadStateFile_schedule hbase)
  exact (hbase'.replay env opts events).same ⟨rfl, rfl, rfl⟩

/-- Whether the operation reaps. -/
def GroupOp.reaps : GroupOp → Bool
  | .consume | .getStats => true
  | .ack _ | .nack _ _ => false

/-- A `Consume` or `GetStats` finds a group that it reaps safely. -/
def Step.Safe (e : QueueEngine) (s : Step) : Prop :=
  ∀ env q g op, s = .op env (.group q g op) → op.reaps = true → ∀ group, foundGroup env e q g = some group →
    ReapsSafely env e.options q g group

theorem foundGroup_of_get {env : Env} {e : QueueEngine} {q : Path} {g : CString} {queue : QueueState}
    {group : ConsumerGroupState} (hqueue : e.queues.lookup q = some queue)
    (hget : getGroup env e.options q queue g e.fs = .ok group) : foundGroup env e q g = some group := by
  rw [foundGroup, hqueue, Option.bind_some, hget]
  rfl

theorem Scheduled.groupOp {env : Env} {opts : EngineOptions} {q : Path} {g : CString} {group : ConsumerGroupState}
    (h : Scheduled group) (op : GroupOp) (segment : SegmentLog) (fs : Fs)
    (hsafe : op.reaps = true → ReapsSafely env opts q g group) : Scheduled (groupOp env opts q g op segment group fs).2.1 := by
  have hreap : op.reaps = true → Scheduled (reapExpiredInflight env opts q g group fs).1 := by
    intro hop
    have hlen := (reapExpiredInflight_reaped env opts q g h.pos fs).1.length
    exact ⟨hlen.trans h.length, (inWheel_reap env opts q g h.pos fs (hsafe hop) h.filed).1⟩
  cases op with
  | consume => exact (hreap rfl).reschedules (consume_reschedules env opts q g segment group fs)
  | ack id => exact h.reschedules (answer_reschedules env opts q g (.inl rfl) segment group fs)
  | nack id requeue => exact h.reschedules (answer_reschedules env opts q g (.inr ⟨requeue, rfl⟩) segment group fs)
  | getStats => exact hreap rfl

theorem scheduled_run {e : QueueEngine} (h : EveryGroup (fun _ => Scheduled) e) {steps : List Step}
    (hs : EachStep (fun e s => s.Safe e) e steps) : EveryGroup (fun _ => Scheduled) (run e steps) := by
  induction steps generalizing e with
  | nil => exact h
  | cons s steps ih =>
    refine ih ?_ hs.2
    cases s with
    | kill env o k options => exact everyGroup_kill e env o k options
    | op env o =>
      refine h.runOp o ?_ ?_
      · rintro q g op rfl queue - - group hload
        exact scheduled_load hload
      · rintro q g op rfl queue group hqueue hget hgroup
        exact hgroup.groupOp op queue.segment e.fs fun hop =>
          hs.1 env q g op rfl hop group (foundGroup_of_get hqueue hget)

/-- In every run in which each reap is safe, every leased message of every loaded
group is in the slot of its bucket tick. -/
theorem leases_stay_in_wheel (opts : EngineOptions) (steps : List Step)
    (hs : EachStep (fun e s => s.Safe e) (freshEngine opts) steps) (q : Path) (g : CString) (group : ConsumerGroupState)
    (hg : groupAt (run (freshEngine opts) steps) q g = some group) (id : MessageId) (entry : InflightEntry)
    (hin : group.inflight.lookup id = some entry) :
    id ∈ group.deadline_wheel.getD (entry.bucket_tick.toNat % group.deadline_wheel.length) [] := by
  obtain ⟨queue, hqueue, hgroup⟩ := Option.bind_eq_some_iff.1 hg
  exact (scheduled_run (everyGroup_fresh opts) hs q queue g group hqueue hgroup).filed id entry hin

/-- Whether the ticks that an operation reaps are in the slots of no leases. -/
def reapsNoLease (env : Env) (e : QueueEngine) (q : Path) (g : CString) : Bool :=
  (foundGroup env e q g).all fun group => group.inflight.entries.all fun lease =>
    (List.range (nowTick env e.options + 1)).all fun tick => tick < group.wheel_base_tick.toNat ∨
      tick % group.deadline_wheel.length ≠ lease.2.bucket_tick.toNat % group.deadline_wheel.length

theorem reapsSafely_of_none {env : Env} {e : QueueEngine} {q : Path} {g : CString} {group : ConsumerGroupState}
    (h : reapsNoLease env e q g = true) (hfound : foundGroup env e q g = some group) : ReapsSafely env e.options q g group := by
  have hnone : ∀ id entry, group.inflight.lookup id = some entry → ∀ tick, group.wheel_base_tick.toNat ≤ tick →
      tick ≤ nowTick env e.options →
      tick % group.deadline_wheel.length ≠ entry.bucket_tick.toNat % group.deadline_wheel.length := by
    intro id entry hin tick hge hle
    rw [reapsNoLease, hfound, Option.all_some, List.all_eq_true] at h
    have hticks := List.all_eq_true.1 (h _ ((mem_entries_iff _ _ _).2 hin)) tick (List.mem_range.2 (by omega))
    exact (of_decide_eq_true hticks).resolve_left (by omega)
  exact ⟨fun id entry hin tick hge hle hslot => absurd hslot (hnone id entry hin tick hge hle),
    fun id entry hin tick hge hle hslot => absurd hslot (hnone id entry hin tick hge hle)⟩

def oneLease : List Step :=
  [.op {} (.createQueue someQueue), .op {} (.produce someQueue someMessage), .op {} (.group someQueue someGroup .consume)]

/-- The wheel turns by a tick while a message is leased. -/
def leasedForATick : List Step := oneLease ++ [.op { now := fun _ => 100 } (.group someQueue someGroup .getStats)]

theorem leases_stay_in_wheel_one :
    ∃ group entry, groupAt (run (freshEngine {}) leasedForATick) someQueue someGroup = some group ∧
      group.wheel_base_tick = 2 ∧ group.inflight.lookup ⟨1, 2⟩ = some entry ∧
      (⟨1, 2⟩ : MessageId) ∈ group.deadline_wheel.getD (entry.bucket_tick.toNat % group.deadline_wheel.length) [] := by
  have hsome : (groupAt (run (freshEngine {}) leasedForATick) someQueue someGroup).any
      (fun group => group.wheel_base_tick = 2 ∧ (group.inflight.lookup ⟨1, 2⟩).isSome) = true := by decide +kernel
  obtain ⟨group, hg, hin⟩ := (Option.any_eq_true _ _).1 hsome
  obtain ⟨hbase, hleased⟩ := of_decide_eq_true hin
  obtain ⟨entry, hentry⟩ := Option.isSome_iff_exists.1 hleased
  refine ⟨group, entry, hg, hbase, hentry, leases_stay_in_wheel {} leasedForATick ?_ someQueue someGroup group hg ⟨1, 2⟩ entry hentry⟩
  refine ⟨fun _ _ _ _ h => (by cases h), fun _ _ _ _ h => (by cases h), fun env q g op h _ group hfound => ?_,
    fun env q g op h _ group hfound => ?_, trivial⟩
  · cases h
    exact reapsSafely_of_none (by decide +kernel) hfound
  · cases h
    exact reapsSafely_of_none (by decide +kernel) hfound

/-! A visibility timeout of more than 512 ticks. -/

def longLease : EngineOptions := { visibility_timeout := 513, scheduler_tick := 1 }

theorem one_ne_last : (1 : UInt64) ≠ 0xFFFFFFFFFFFFFFFF := by decide

def passedEarly : List Step :=
  [.op {} (.createQueue someQueue), .op {} (.produce someQueue someMessage), .op {} (.group someQueue someGroup .consume),
    .op (envAt 1 one_ne_last) (.group someQueue someGroup .getStats)]

/-- The bucket tick of the message and what is in its slot. -/
def slotFound (e : QueueEngine) (q : Path) (g : CString) (id : MessageId) : Option (UInt64 × List MessageId) :=
  (groupAt e q g).bind fun group => (group.inflight.lookup id).map fun entry =>
    (entry.bucket_tick, group.deadline_wheel.getD (entry.bucket_tick.toNat % group.deadline_wheel.length) [])

/-- A leased message whose slot has been passed is in no slot. -/
theorem lease_drops_out :
    ∃ group entry, groupAt (run (freshEngine longLease) passedEarly) someQueue someGroup = some group ∧
      group.inflight.lookup ⟨1, 2⟩ = some entry ∧
      (⟨1, 2⟩ : MessageId) ∉ group.deadline_wheel.getD (entry.bucket_tick.toNat % group.deadline_wheel.length) [] := by
  have hslot : slotFound (run (freshEngine longLease) passedEarly) someQueue someGroup ⟨1, 2⟩ = some (513, []) := by
    decide +kernel
  obtain ⟨group, hg, hin⟩ := Option.bind_eq_some_iff.1 hslot
  obtain ⟨entry, hentry, heq⟩ := Option.map_eq_some_iff.1 hin
  simp only [Prod.mk.injEq] at heq
  exact ⟨group, entry, hg, hentry, by rw [heq.2]; simp⟩

end PomaiQueue.Engine
