import PomaiQueue.Schedule
/-!
# Leases that end on time

`ReapExpiredInflight` looks at the slot of a tick once in a revolution. A lease
that it meets there before its deadline goes back into the same slot, although
the base tick then moves on, and is not met again for 512 ticks. As long as no
reap comes in the tick of a deadline before the deadline itself
(`Step.OnTime`), the wheel ends the same leases as a scan of all of them.
-/

namespace PomaiQueue.Engine

open Wire Posix Assoc Storage

/-! ## What the wheel comes to -/

/-- The lease is under the tick of its deadline, and the wheel gets there in its
next revolution. -/
structure Ahead (opts : EngineOptions) (base : UInt64) (entry : InflightEntry) : Prop where
  tick : entry.bucket_tick = entry.deadline_ms / opts.tickMs
  ge : base.toNat ≤ entry.bucket_tick.toNat
  lt : entry.bucket_tick.toNat < base.toNat + 512

/-- Every lease is ahead of a wheel that has not been turned past time `t`. -/
structure Due (t : UInt64) (opts : EngineOptions) (group : ConsumerGroupState) : Prop where
  scheduled : Scheduled group
  base : group.wheel_base_tick.toNat ≤ (t / opts.tickMs).toNat + 1
  ahead : ∀ id entry, group.inflight.lookup id = some entry → Ahead opts group.wheel_base_tick entry

theorem tick_mono {a b : UInt64} (h : a ≤ b) (opts : EngineOptions) : (a / opts.tickMs).toNat ≤ (b / opts.tickMs).toNat := by
  rw [UInt64.toNat_div, UInt64.toNat_div]
  exact Nat.div_le_div_right h

theorem Due.later {t now : UInt64} {opts : EngineOptions} {group : ConsumerGroupState} (h : Due t opts group) (hle : t ≤ now) :
    Due now opts group := by
  refine ⟨h.scheduled, ?_, h.ahead⟩
  have hbase := h.base
  have hmono := tick_mono hle opts
  omega

/-- A lease of a group after an event was there before, or is the event's. -/
theorem Reschedules.lease {env : Env} {opts : EngineOptions} {P : TransitionEvent → Prop} {a b : ConsumerGroupState}
    (hr : Reschedules env opts P a b) {id : MessageId} {entry : InflightEntry} (hin : b.inflight.lookup id = some entry) :
    a.inflight.lookup id = some entry ∨ ∃ event, P event ∧ event.state = .kInFlight ∧
      entry.deadline_ms = event.deadline_ms ∧ entry.bucket_tick = event.deadline_ms / opts.tickMs := by
  rcases hr with hs | ⟨a', event, ha, hP, hs⟩
  · rw [hs.inflight] at hin
    exact .inl hin
  · rw [hs.inflight] at hin
    by_cases hid : id = event.id
    · subst hid
      cases hrt : a'.runtime.lookup event.id with
      | none =>
        rw [applyTransition_none _ _ _ _ hrt, ha.inflight] at hin
        exact .inl hin
      | some rt =>
        rw [inflight_applyTransition_self env opts a' event hrt] at hin
        split at hin
        · rename_i hstate
          obtain rfl := Option.some.inj hin
          exact .inr ⟨event, hP, hstate, rfl, rfl⟩
        · cases hin
    · rw [inflight_applyTransition_ne env opts a' event hid, ha.inflight] at hin
      exact .inl hin

theorem Reschedules.base {env : Env} {opts : EngineOptions} {P : TransitionEvent → Prop} {a b : ConsumerGroupState}
    (hr : Reschedules env opts P a b) (hlen : 0 < a.deadline_wheel.length) : b.wheel_base_tick = a.wheel_base_tick := by
  rcases hr with hs | ⟨a', event, ha, -, hs⟩
  · exact hs.base
  · have hlen' : 0 < a'.deadline_wheel.length := by rwa [ha.wheel]
    rw [hs.base, (applyTransition_wheel env opts event hlen').1, ha.base]

/-- New leases have to be ahead. -/
theorem Due.reschedules {env : Env} {opts : EngineOptions} {P : TransitionEvent → Prop} {a b : ConsumerGroupState} {t : UInt64}
    (h : Due t opts a) (hr : Reschedules env opts P a b)
    (hP : ∀ event, P event → event.state = .kInFlight →
      a.wheel_base_tick.toNat ≤ (event.deadline_ms / opts.tickMs).toNat ∧
        (event.deadline_ms / opts.tickMs).toNat < a.wheel_base_tick.toNat + 512) : Due t opts b := by
  have hbase := hr.base h.scheduled.pos
  refine ⟨h.scheduled.reschedules hr, by rw [hbase]; exact h.base, fun id entry hin => ?_⟩
  rw [hbase]
  rcases hr.lease hin with hold | ⟨event, hev, hstate, hdl, htick⟩
  · exact h.ahead id entry hold
  · obtain ⟨hge, hlt⟩ := hP event hev hstate
    refine ⟨by rw [htick, hdl], ?_, ?_⟩
    · rw [htick]
      exact hge
    · rw [htick]
      exact hlt

/-! ## Loading -/

theorem replay_base {group : ConsumerGroupState} (h : Scheduled group) (env : Env) (opts : EngineOptions)
    (events : List TransitionEvent) : (replay env opts events group).wheel_base_tick = group.wheel_base_tick := by
  induction events using List.reverseRecOn with
  | nil => rfl
  | append_singleton events event ih =>
    rw [replay_concat, ← ih]
    exact (applyTransition_wheel env opts event (h.replay env opts events).pos).1

/-- A group that has just been loaded: the wheel starts now, and a lease is under
the tick of its deadline. -/
theorem load_ticks {env : Env} {opts : EngineOptions} {q : Path} {g : CString} {segment : SegmentLog} {fs : Fs}
    {group : ConsumerGroupState} (h : loadGroupState env opts q g segment fs = .ok group) :
    group.wheel_base_tick = env.now .initScheduler / opts.tickMs ∧
      ∀ id entry, group.inflight.lookup id = some entry → entry.bucket_tick = entry.deadline_ms / opts.tickMs := by
  obtain ⟨messages, base, events, -, hbase, -, rfl⟩ := loadGroupState_ok h
  have hsame := loadStateFile_schedule hbase
  refine ⟨?_, fun id entry hin => ?_⟩
  · exact (replay_base ((scheduled_default env opts messages).same hsame) env opts events).trans hsame.base
  · change (replay env opts events base).inflight.lookup id = some entry at hin
    rw [inflight_replay env opts events base (loadStateFile_ok hbase).2 id] at hin
    obtain ⟨rt, -, hin⟩ := Option.bind_eq_some_iff.1 hin
    obtain ⟨event, -, hin⟩ := Option.bind_eq_some_iff.1 hin
    split at hin
    · obtain rfl := Option.some.inj hin
      rfl
    · cases hin

/-! ## Reaping -/

/-- A lease is ended exactly if it is over. -/
def Scans (now : UInt64) (a b : ConsumerGroupState) : Prop :=
  ∀ id entry, b.inflight.lookup id = some entry ↔ a.inflight.lookup id = some entry ∧ now < entry.deadline_ms

/-- No lease ends later in the current tick. -/
def NoneLater (now : UInt64) (opts : EngineOptions) (group : ConsumerGroupState) : Prop :=
  ∀ id entry, group.inflight.lookup id = some entry → now < entry.deadline_ms →
    entry.deadline_ms / opts.tickMs ≠ now / opts.tickMs

section reap

variable {env : Env} {opts : EngineOptions} {group : ConsumerGroupState}

/-- A tick that is in the slot of a lease ahead is its tick, or a later one. -/
theorem Due.reapsSafely {t : UInt64} (h : Due t opts group) (hq : env.toIo.Quiet) (q : Path) (g : CString) :
    ReapsSafely env opts q g group := by
  refine ⟨fun id entry hin tick hge _ hslot => ?_, fun _ _ _ _ _ _ _ _ => .of_quiet hq _⟩
  have hahead := h.ahead id entry hin
  have hlt := hahead.lt
  rw [h.scheduled.length] at hslot
  omega

theorem Due.scans {t : UInt64} (h : Due t opts group) (hq : env.toIo.Quiet) (q : Path) (g : CString) (fs : Fs) :
    Scans (env.now .reapExpiredInflight) group (reapExpiredInflight env opts q g group fs).1 := by
  obtain ⟨hreaped, -⟩ := reapExpiredInflight_reaped env opts q g h.scheduled.pos fs
  obtain ⟨-, hvisited⟩ := inWheel_reap env opts q g h.scheduled.pos fs (h.reapsSafely hq q g) h.scheduled.filed
  intro id entry
  refine ⟨fun hin => ?_, fun hin => hreaped.spared id entry hin.1 hin.2⟩
  have hbefore := hreaped.kept id entry hin
  have hahead := h.ahead id entry hbefore
  refine ⟨hbefore, ?_⟩
  by_cases hle : entry.bucket_tick.toNat ≤ nowTick env opts
  · exact hvisited id entry hin _ hahead.ge hle rfl
  · -- The tick of the deadline is still to come.
    by_contra hover
    have hmono := tick_mono (UInt64.not_lt.1 hover) opts
    rw [← hahead.tick] at hmono
    exact hle hmono

/-- The wheel has been turned up to now. -/
theorem Due.reap {t : UInt64} (h : Due t opts group) (hq : env.toIo.Quiet) (ht : t ≤ env.now .reapExpiredInflight)
    (hnone : NoneLater (env.now .reapExpiredInflight) opts group) (q : Path) (g : CString) (fs : Fs) :
    Due (env.now .reapExpiredInflight) opts (reapExpiredInflight env opts q g group fs).1 ∧
      (reapExpiredInflight env opts q g group fs).1.wheel_base_tick.toNat = nowTick env opts + 1 := by
  obtain ⟨hreaped, hbase⟩ := reapExpiredInflight_reaped env opts q g h.scheduled.pos fs
  obtain ⟨hfiled, -⟩ := inWheel_reap env opts q g h.scheduled.pos fs (h.reapsSafely hq q g) h.scheduled.filed
  have hbefore := h.base
  have hmono : (t / opts.tickMs).toNat ≤ nowTick env opts := tick_mono ht opts
  have hturned : (reapExpiredInflight env opts q g group fs).1.wheel_base_tick.toNat = nowTick env opts + 1 := by omega
  refine ⟨⟨⟨hreaped.length.trans h.scheduled.length, hfiled⟩, hturned.le, fun id entry hin => ?_⟩, hturned⟩
  obtain ⟨hin', hlater⟩ := (h.scans hq q g fs id entry).1 hin
  have hahead := h.ahead id entry hin'
  refine ⟨hahead.tick, ?_, ?_⟩
  · -- The deadline is later than now and not in the tick of now.
    have hle : nowTick env opts ≤ entry.bucket_tick.toNat := by
      rw [hahead.tick]
      exact tick_mono (UInt64.le_of_lt hlater) opts
    have hne : entry.bucket_tick.toNat ≠ nowTick env opts := by
      intro heq
      rw [hahead.tick] at heq
      exact hnone id entry hin' hlater (UInt64.toNat_inj.1 heq)
    omega
  · have hlt := hahead.lt
    omega

end reap

/-! ## Operations -/

/-- A new lease ends between one tick and a revolution from now. -/
structure LeaseFits (opts : EngineOptions) : Prop where
  ge : opts.tickMs.toNat ≤ opts.visibility_timeout.toUInt64.toNat
  le : opts.visibility_timeout.toUInt64.toNat ≤ 511 * opts.tickMs.toNat

theorem tickMs_pos (opts : EngineOptions) : 0 < opts.tickMs.toNat := by
  unfold EngineOptions.tickMs
  split
  · rename_i h
    exact Nat.lt_of_lt_of_le Nat.zero_lt_one (Nat.le_of_lt h)
  · decide

theorem LeaseFits.tick {opts : EngineOptions} (h : LeaseFits opts) {now : UInt64}
    (hnow : now.toNat + opts.visibility_timeout.toUInt64.toNat < 2 ^ 64) :
    now < now + opts.visibility_timeout.toUInt64 ∧
      (now / opts.tickMs).toNat + 1 ≤ ((now + opts.visibility_timeout.toUInt64) / opts.tickMs).toNat ∧
      ((now + opts.visibility_timeout.toUInt64) / opts.tickMs).toNat < (now / opts.tickMs).toNat + 1 + 512 := by
  have hpos := tickMs_pos opts
  have hge := h.ge
  have hle := h.le
  have hadd : (now + opts.visibility_timeout.toUInt64).toNat = now.toNat + opts.visibility_timeout.toUInt64.toNat := by
    rw [UInt64.toNat_add, Nat.mod_eq_of_lt hnow]
  refine ⟨?_, ?_, ?_⟩
  · rw [UInt64.lt_iff_toNat_lt, hadd]
    omega
  · rw [UInt64.toNat_div, UInt64.toNat_div, hadd, ← Nat.add_div_right _ hpos]
    exact Nat.div_le_div_right (by omega)
  · have hup : (now.toNat + opts.visibility_timeout.toUInt64.toNat) / opts.tickMs.toNat ≤
        (now.toNat + 511 * opts.tickMs.toNat) / opts.tickMs.toNat := Nat.div_le_div_right (by omega)
    rw [Nat.add_mul_div_right _ _ hpos] at hup
    rw [UInt64.toNat_div, UInt64.toNat_div, hadd]
    omega

/-- What keeps the wheel on time: the leases of a group that is loaded are ahead
of it, no reap comes in the tick of a deadline but before it, and the clock is far
from its end. -/
structure OnTime (env : Env) (e : QueueEngine) (q : Path) (g : CString) (op : GroupOp) : Prop where
  load : groupAt e q g = none → ∀ group, foundGroup env e q g = some group → ∀ id entry, group.inflight.lookup id = some entry →
    group.wheel_base_tick.toNat ≤ entry.bucket_tick.toNat ∧ entry.bucket_tick.toNat < group.wheel_base_tick.toNat + 512
  tick : op.reaps = true → ∀ group, foundGroup env e q g = some group →
    NoneLater (env.now .reapExpiredInflight) e.options group
  clock : op = .consume → (env.now .consume).toNat + e.options.visibility_timeout.toUInt64.toNat < 2 ^ 64

def Step.OnTime (e : QueueEngine) (s : Step) : Prop :=
  ∀ env q g op, s = .op env (.group q g op) → Engine.OnTime env e q g op

/-- Every operation reads one time, not earlier than the one before it, the
process is not stopped and nothing fails. -/
def Clocked : UInt64 → List Step → Prop
  | _, [] => True
  | t, .op env _ :: steps => env.toIo.Quiet ∧ ∃ now, (∀ c, env.now c = now) ∧ t ≤ now ∧ Clocked now steps
  | _, .kill _ _ _ _ :: _ => False

/-- A `Consume` or `GetStats` ends the leases that a scan of the inflight map
would end, and leaves no lease that is over. -/
structure Expires (env : Env) (e : QueueEngine) (q : Path) (g : CString) (op : GroupOp) : Prop where
  scan : ∀ group, foundGroup env e q g = some group →
    Scans (env.now .reapExpiredInflight) group (reapExpiredInflight env e.options q g group e.fs).1
  none_over : ∀ group, groupAt (runOp env e (.group q g op)).2 q g = some group → ∀ id entry,
    group.inflight.lookup id = some entry → env.now .reapExpiredInflight < entry.deadline_ms

def Step.Expires (e : QueueEngine) (s : Step) : Prop :=
  ∀ env q g op, s = .op env (.group q g op) → op.reaps = true → Engine.Expires env e q g op

section operation

variable {env : Env} {opts : EngineOptions} {group : ConsumerGroupState} {now : UInt64}

theorem Due.groupOp (h : Due now opts group) (hq : env.toIo.Quiet) (hnow : ∀ c, env.now c = now) (hfits : LeaseFits opts)
    (q : Path) (g : CString) (op : GroupOp)
    (hnone : op.reaps = true → NoneLater now opts group)
    (hclock : op = .consume → now.toNat + opts.visibility_timeout.toUInt64.toNat < 2 ^ 64)
    (segment : SegmentLog) (fs : Fs) :
    Due now opts (groupOp env opts q g op segment group fs).2.1 ∧
      (op.reaps = true → ∀ id entry, (groupOp env opts q g op segment group fs).2.1.inflight.lookup id = some entry →
        now < entry.deadline_ms) := by
  have hanswer : ∀ id, op.Answers id → Due now opts (Engine.groupOp env opts q g op segment group fs).2.1 := by
    intro id hop
    exact h.reschedules (answer_reschedules env opts q g hop segment group fs) fun event hne hstate => absurd hstate hne
  have hreap : op.reaps = true → Due now opts (reapExpiredInflight env opts q g group fs).1 ∧
      (reapExpiredInflight env opts q g group fs).1.wheel_base_tick.toNat = (now / opts.tickMs).toNat + 1 ∧
      Scans now group (reapExpiredInflight env opts q g group fs).1 := by
    intro hop
    have hturn := h.reap hq (by rw [hnow]; exact UInt64.le_refl now) (by rw [hnow]; exact hnone hop) q g fs
    have hscan := h.scans hq q g fs
    rw [nowTick, hnow] at hturn
    rw [hnow] at hscan
    exact ⟨hturn.1, hturn.2, hscan⟩
  cases op with
  | ack id => exact ⟨hanswer id (.inl rfl), fun h => absurd h Bool.false_ne_true⟩
  | nack id requeue => exact ⟨hanswer id (.inr ⟨requeue, rfl⟩), fun h => absurd h Bool.false_ne_true⟩
  | getStats =>
    obtain ⟨hdue, -, hscan⟩ := hreap rfl
    exact ⟨hdue, fun _ id entry hin => ((hscan id entry).1 hin).2⟩
  | consume =>
    obtain ⟨hdue, hbase, hscan⟩ := hreap rfl
    obtain ⟨hlater, hge, hlt⟩ := hfits.tick (hclock rfl)
    have hres := consume_reschedules env opts q g segment group fs
    rw [hnow] at hres
    refine ⟨hdue.reschedules hres ?_, fun _ id entry hin => ?_⟩
    · intro event hdl _
      rw [hdl, hbase]
      exact ⟨hge, hlt⟩
    · rcases hres.lease hin with hold | ⟨event, hdl, -, heq, -⟩
      · exact ((hscan id entry).1 hold).2
      · rw [heq, hdl]
        exact hlater

end operation

/-! ## Runs -/

theorem due_load {env : Env} {e : QueueEngine} {q : Path} {g : CString} {op : GroupOp} {now : UInt64}
    (hnow : ∀ c, env.now c = now) (ht : OnTime env e q g op) {queue : QueueState} (hqueue : e.queues.lookup q = some queue)
    (hnone : queue.groups.lookup g = none) {group : ConsumerGroupState}
    (hload : loadGroupState env e.options q g queue.segment e.fs = .ok group) : Due now e.options group := by
  obtain ⟨hbase, htick⟩ := load_ticks hload
  have hget : getGroup env e.options q queue g e.fs = .ok group := by
    rw [getGroup, hnone]
    exact hload
  have hat : groupAt e q g = none := by rw [groupAt, hqueue, Option.bind_some, hnone]
  refine ⟨scheduled_load hload, ?_, fun id entry hin => ?_⟩
  · rw [hbase, hnow]
    exact Nat.le_succ _
  · obtain ⟨hge, hlt⟩ := ht.load hat group (foundGroup_of_get hqueue hget) id entry hin
    exact ⟨htick id entry hin, hge, hlt⟩

theorem due_get {env : Env} {e : QueueEngine} {q : Path} {g : CString} {op : GroupOp} {now : UInt64}
    (h : EveryGroup (Due now) e) (hnow : ∀ c, env.now c = now) (ht : OnTime env e q g op) {queue : QueueState}
    (hqueue : e.queues.lookup q = some queue) {group : ConsumerGroupState}
    (hget : getGroup env e.options q queue g e.fs = .ok group) : Due now e.options group := by
  unfold getGroup at hget
  split at hget
  · rename_i group0 h0
    obtain rfl := Except.ok.inj hget
    exact h q queue g _ hqueue h0
  · rename_i h0
    exact due_load hnow ht hqueue h0 hget

theorem due_runOp {env : Env} {e : QueueEngine} {now : UInt64} (h : EveryGroup (Due now) e) (hfits : LeaseFits e.options)
    (hq : env.toIo.Quiet) (hnow : ∀ c, env.now c = now) (o : Op) (ht : Step.OnTime e (.op env o)) :
    EveryGroup (Due now) (runOp env e o).2 ∧ Step.Expires e (.op env o) := by
  refine ⟨h.runOp o ?_ ?_, ?_⟩
  · rintro q g op rfl queue hqueue hnone group hload
    exact due_load hnow (ht env q g op rfl) hqueue hnone hload
  · rintro q g op rfl queue group hqueue hget hdue
    have hop := ht env q g op rfl
    have hnone := fun hr => hop.tick hr group (foundGroup_of_get hqueue hget)
    rw [hnow] at hnone
    have hclock := hop.clock
    rw [hnow] at hclock
    exact (hdue.groupOp hq hnow hfits q g op hnone hclock queue.segment e.fs).1
  · intro env' q g op heq hreaps
    cases heq
    have hop := ht env q g op rfl
    refine ⟨fun group hfound => ?_, fun group hat id entry hin => ?_⟩
    · obtain ⟨queue, hqueue, hget⟩ := foundGroup_eq hfound
      exact (due_get h hnow hop hqueue hget).scans hq q g e.fs
    · cases hfound : foundGroup env e q g with
      | none =>
        -- Nothing is loaded and nothing happens.
        rw [runOp_unfound op hfound] at hat
        obtain ⟨queue, hqueue, hgroup⟩ := Option.bind_eq_some_iff.1 hat
        rw [foundGroup, hqueue, Option.bind_some, getGroup, hgroup] at hfound
        cases hfound
      | some group0 =>
        obtain ⟨queue, hqueue, hget⟩ := foundGroup_eq hfound
        rw [(runOp_found op hqueue hget).1] at hat
        obtain rfl := Option.some.inj hat
        have hnone := hop.tick hreaps group0 hfound
        have hclock := hop.clock
        rw [hnow] at hnone hclock ⊢
        exact ((due_get h hnow hop hqueue hget).groupOp hq hnow hfits q g op (fun _ => hnone) hclock queue.segment e.fs).2
          hreaps id entry hin

theorem due_run {e : QueueEngine} {t : UInt64} (h : EveryGroup (Due t) e) (hfits : LeaseFits e.options) {steps : List Step}
    (hclock : Clocked t steps) (hs : EachStep (fun e s => s.OnTime e) e steps) :
    EachStep (fun e s => s.Expires e) e steps := by
  induction steps generalizing e t with
  | nil => trivial
  | cons s steps ih =>
    cases s with
    | kill env o k options => exact hclock.elim
    | op env o =>
      obtain ⟨hq, now, hnow, hle, hrest⟩ := hclock
      have hdue : EveryGroup (Due now) e := fun q queue g group hl hg => (h q queue g group hl hg).later hle
      obtain ⟨hdue', hexp⟩ := due_runOp hdue hfits hq hnow o hs.1
      refine ⟨hexp, ih hdue' ?_ hrest hs.2⟩
      change LeaseFits (runOp env e o).2.options
      rw [runOp_options]
      exact hfits

/-- In the life of a process, with a visibility timeout of one tick up to 511 and a
clock that does not go back, every `Consume` and `GetStats` ends the leases that are
over, as long as the operations are on time. -/
theorem leases_expire_on_time (e : QueueEngine) (hnone : ∀ q g, groupAt e q g = none) (hfits : LeaseFits e.options)
    (steps : List Step) (hclock : Clocked 0 steps) (hs : EachStep (fun e s => s.OnTime e) e steps) :
    EachStep (fun e s => s.Expires e) e steps := by
  refine due_run ?_ hfits hclock hs
  intro q queue g group hl hg
  have hat := hnone q g
  rw [groupAt, hl, Option.bind_some, hg] at hat
  cases hat

/-! ## Examples -/

theorem forall_lease_iff (group : ConsumerGroupState) (P : InflightEntry → Prop) :
    (∀ item ∈ group.inflight.entries, P item.2) ↔ ∀ id entry, group.inflight.lookup id = some entry → P entry := by
  refine ⟨fun h id entry hin => h ⟨id, entry⟩ ((mem_entries_iff _ _ _).2 hin), fun h item hmem => ?_⟩
  exact h item.1 item.2 ((mem_entries_iff _ _ _).1 hmem)

instance (now : UInt64) (opts : EngineOptions) (group : ConsumerGroupState) : Decidable (NoneLater now opts group) :=
  decidable_of_iff _ (forall_lease_iff group fun entry =>
    now < entry.deadline_ms → entry.deadline_ms / opts.tickMs ≠ now / opts.tickMs)

instance (env : Env) (e : QueueEngine) (q : Path) (g : CString) (op : GroupOp) : Decidable (OnTime env e q g op) :=
  decidable_of_iff
    ((groupAt e q g = none → ∀ group ∈ foundGroup env e q g, ∀ item ∈ group.inflight.entries,
        group.wheel_base_tick.toNat ≤ item.2.bucket_tick.toNat ∧
          item.2.bucket_tick.toNat < group.wheel_base_tick.toNat + 512) ∧
      (op.reaps = true → ∀ group ∈ foundGroup env e q g, NoneLater (env.now .reapExpiredInflight) e.options group) ∧
      (op = .consume → (env.now .consume).toNat + e.options.visibility_timeout.toUInt64.toNat < 2 ^ 64))
    ⟨fun ⟨h1, h2, h3⟩ =>
        ⟨fun hnone group hfound => (forall_lease_iff group fun entry => group.wheel_base_tick.toNat ≤ entry.bucket_tick.toNat ∧
          entry.bucket_tick.toNat < group.wheel_base_tick.toNat + 512).1 (h1 hnone group hfound), h2, h3⟩,
      fun h =>
        ⟨fun hnone group hfound => (forall_lease_iff group fun entry => group.wheel_base_tick.toNat ≤ entry.bucket_tick.toNat ∧
          entry.bucket_tick.toNat < group.wheel_base_tick.toNat + 512).2 (h.load hnone group hfound), h.tick, h.clock⟩⟩

theorem clocked_at {t now : UInt64} (h : now ≠ 0xFFFFFFFFFFFFFFFF) (o : Op) {steps : List Step} (hle : t ≤ now)
    (hrest : Clocked now steps) : Clocked t (.op (envAt now h) o :: steps) :=
  ⟨quiet_default, now, fun _ => rfl, hle, hrest⟩

/-! One tick is 10 ms, and a lease lasts one tick. -/

def tickLease : EngineOptions := { visibility_timeout := 10, scheduler_tick := 10 }

theorem leaseFits_tickLease : LeaseFits tickLease := ⟨by decide, by decide⟩

/-- A lease from 5 to 15, looked at in 16. -/
def lookedAtAfter : List Step :=
  [.op (envAt 0 (by decide)) (.createQueue someQueue), .op (envAt 0 (by decide)) (.produce someQueue someMessage),
    .op (envAt 5 (by decide)) (.group someQueue someGroup .consume),
    .op (envAt 16 (by decide)) (.group someQueue someGroup .getStats)]

theorem leases_expire_on_time_one : EachStep (fun e s => s.Expires e) (freshEngine tickLease) lookedAtAfter := by
  refine leases_expire_on_time (freshEngine tickLease) (fun _ _ => rfl) leaseFits_tickLease lookedAtAfter ?_ ?_
  · apply_rules [clocked_at] <;> decide
  · refine ⟨fun env q g op h => ?_, fun env q g op h => ?_, fun env q g op h => ?_, fun env q g op h => ?_, trivial⟩
    · cases h
    · cases h
    · cases h
      decide +kernel
    · cases h
      decide +kernel

/-- The same lease, looked at in 12 and in 16. -/
def lookedAtBefore : List Step :=
  [.op (envAt 0 (by decide)) (.createQueue someQueue), .op (envAt 0 (by decide)) (.produce someQueue someMessage),
    .op (envAt 5 (by decide)) (.group someQueue someGroup .consume),
    .op (envAt 12 (by decide)) (.group someQueue someGroup .getStats),
    .op (envAt 16 (by decide)) (.group someQueue someGroup .getStats)]

/-- How many leases are left that are over at time `t`. -/
def overAt (e : QueueEngine) (t : UInt64) : Option Nat :=
  (groupAt e someQueue someGroup).map fun group => (group.inflight.entries.filter (·.2.deadline_ms ≤ t)).length

/-- A lease that is looked at in the tick of its deadline outlives the deadline. -/
theorem lease_outlives_deadline :
    LeaseFits tickLease ∧ Clocked 0 lookedAtBefore ∧
      ¬ EachStep (fun e s => s.Expires e) (freshEngine tickLease) lookedAtBefore := by
  refine ⟨leaseFits_tickLease, ?_, ?_⟩
  · apply_rules [clocked_at] <;> decide
  · rintro ⟨-, -, -, -, hlast, -⟩
    have hover : overAt (run (freshEngine tickLease) lookedAtBefore) 16 = some 1 := by decide +kernel
    obtain ⟨group, hat, hlen⟩ := Option.map_eq_some_iff.1 hover
    obtain ⟨item, hitem⟩ := List.exists_mem_of_length_eq_add_one hlen
    obtain ⟨hmem, hle⟩ := List.mem_filter.1 hitem
    have hlt := (hlast _ someQueue someGroup .getStats rfl rfl).none_over group hat item.1 item.2
      ((mem_entries_iff _ _ _).1 hmem)
    exact UInt64.not_lt.2 (of_decide_eq_true hle) hlt

end PomaiQueue.Engine
