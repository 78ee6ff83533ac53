import PomaiQueue.Expiry
/-!
# How late a lease can end

A lease is met again at the latest one revolution after the tick of its deadline,
or after the tick at which the group was loaded if the deadline had passed by
then. What is needed for it is that no lease is more than a revolution ahead
of the wheel: true of new leases by the visibility timeout, and of those that are
rebuilt from the event log because the log holds no later deadline (`LogOf`).
-/

namespace PomaiQueue.Engine

open Wire Posix Assoc Storage

/-! ## The next meeting -/

/-- The wheel at `base` meets the lease again before the end of a revolution from
its tick, or from the tick `loaded`. -/
structure Met (opts : EngineOptions) (loaded base : Nat) (entry : InflightEntry) : Prop where
  tick : entry.bucket_tick = entry.deadline_ms / opts.tickMs
  lt : entry.bucket_tick.toNat < base + 512
  next : ∃ v, base ≤ v ∧ v % 512 = entry.bucket_tick.toNat % 512 ∧ v ≤ max entry.bucket_tick.toNat loaded + 512

/-- The schedule of a group that was loaded in tick `loaded`, not turned past time `t`. -/
structure Timely (t : UInt64) (loaded : Nat) (opts : EngineOptions) (group : ConsumerGroupState) : Prop where
  scheduled : Scheduled group
  base : group.wheel_base_tick.toNat ≤ (t / opts.tickMs).toNat + 1
  met : ∀ id entry, group.inflight.lookup id = some entry → Met opts loaded group.wheel_base_tick.toNat entry

section timely

variable {env : Env} {opts : EngineOptions} {group : ConsumerGroupState} {t : UInt64} {loaded : Nat}

theorem Timely.later {now : UInt64} (h : Timely t loaded opts group) (hle : t ≤ now) : Timely now loaded opts group := by
  refine ⟨h.scheduled, ?_, h.met⟩
  have hbase := h.base
  have hmono := tick_mono hle opts
  omega

/-- The slot of a lease is not passed before its tick. -/
theorem Timely.reapsSafely (h : Timely t loaded opts group) (hq : env.toIo.Quiet) (q : Path) (g : CString) :
    ReapsSafely env opts q g group := by
  refine ⟨fun id entry hin tick hge _ hslot => ?_, fun _ _ _ _ _ _ _ _ => .of_quiet hq _⟩
  have hlt := (h.met id entry hin).lt
  rw [h.scheduled.length] at hslot
  omega

/-- The wheel has been turned up to now, and the leases that are left are met later. -/
theorem Timely.reap (h : Timely t loaded opts group) (hq : env.toIo.Quiet) (ht : t ≤ env.now .reapExpiredInflight)
    (q : Path) (g : CString) (fs : Fs) :
    Timely (env.now .reapExpiredInflight) loaded opts (reapExpiredInflight env opts q g group fs).1 ∧
      (reapExpiredInflight env opts q g group fs).1.wheel_base_tick.toNat = nowTick env opts + 1 := by
  obtain ⟨hreaped, hbase⟩ := reapExpiredInflight_reaped env opts q g h.scheduled.pos fs
  obtain ⟨hfiled, hvisited⟩ := inWheel_reap env opts q g h.scheduled.pos fs (h.reapsSafely hq q g) h.scheduled.filed
  have hbefore := h.base
  have hmono : (t / opts.tickMs).toNat ≤ nowTick env opts := tick_mono ht opts
  have hturned : (reapExpiredInflight env opts q g group fs).1.wheel_base_tick.toNat = nowTick env opts + 1 := by omega
  refine ⟨⟨⟨hreaped.length.trans h.scheduled.length, hfiled⟩, hturned.le, fun id entry hin => ?_⟩, hturned⟩
  obtain ⟨htick, hlt, v, hge, hslot, hle⟩ := h.met id entry (hreaped.kept id entry hin)
  rw [hturned]
  refine ⟨htick, by omega, ?_⟩
  by_cases hv : v ≤ nowTick env opts
  · -- It was met and is not over, so the deadline is in the current tick.
    have hlater := hvisited id entry hin v hge hv (by rw [h.scheduled.length]; exact hslot)
    have hnow : nowTick env opts ≤ entry.bucket_tick.toNat := by
      rw [htick]
      exact tick_mono (UInt64.le_of_lt hlater) opts
    exact ⟨entry.bucket_tick.toNat + 512, by omega, by omega, by omega⟩
  · exact ⟨v, by omega, hslot, hle⟩

theorem Timely.reschedules {P : TransitionEvent → Prop} {b : ConsumerGroupState} (h : Timely t loaded opts group)
    (hr : Reschedules env opts P group b)
    (hP : ∀ event, P event → event.state = .kInFlight →
      group.wheel_base_tick.toNat ≤ (event.deadline_ms / opts.tickMs).toNat + 1 ∧
        (event.deadline_ms / opts.tickMs).toNat < group.wheel_base_tick.toNat + 512) : Timely t loaded opts b := by
  have hbase := hr.base h.scheduled.pos
  refine ⟨h.scheduled.reschedules hr, by rw [hbase]; exact h.base, fun id entry hin => ?_⟩
  rw [hbase]
  rcases hr.lease hin with hold | ⟨event, hev, hstate, hdl, htick⟩
  · exact h.met id entry hold
  · obtain ⟨hge, hlt⟩ := hP event hev hstate
    rw [← htick] at hge hlt
    refine ⟨by rw [htick, hdl], hlt, ?_⟩
    by_cases hahead : group.wheel_base_tick.toNat ≤ entry.bucket_tick.toNat
    · exact ⟨entry.bucket_tick.toNat, hahead, rfl, by omega⟩
    · exact ⟨entry.bucket_tick.toNat + 512, by omega, by omega, by omega⟩

/-- A lease from now lasts at most a revolution. -/
theorem lease_tick (hvis : opts.visibility_timeout.toUInt64.toNat ≤ 511 * opts.tickMs.toNat) (now deadline : UInt64)
    (hge : now.toNat ≤ deadline.toNat)
    (hle : deadline.toNat ≤ now.toNat + opts.visibility_timeout.toUInt64.toNat) :
    (now / opts.tickMs).toNat ≤ (deadline / opts.tickMs).toNat ∧
      (deadline / opts.tickMs).toNat ≤ (now / opts.tickMs).toNat + 511 := by
  have hpos := tickMs_pos opts
  rw [UInt64.toNat_div, UInt64.toNat_div]
  refine ⟨Nat.div_le_div_right hge, ?_⟩
  rw [← Nat.add_mul_div_right _ _ hpos]
  exact Nat.div_le_div_right (by omega)

theorem Timely.groupOp {now : UInt64} (h : Timely now loaded opts group) (hq : env.toIo.Quiet) (hnow : ∀ c, env.now c = now)
    (hvis : opts.visibility_timeout.toUInt64.toNat ≤ 511 * opts.tickMs.toNat) (q : Path) (g : CString) (op : GroupOp)
    (hclock : op = .consume → now.toNat + opts.visibility_timeout.toUInt64.toNat < 2 ^ 64) (segment : SegmentLog) (fs : Fs) :
    Timely now loaded opts (groupOp env opts q g op segment group fs).2.1 := by
  have hanswer : ∀ id, op.Answers id → Timely now loaded opts (Engine.groupOp env opts q g op segment group fs).2.1 := by
    intro id hop
    exact h.reschedules (answer_reschedules env opts q g hop segment group fs) fun event hne hstate => absurd hstate hne
  have hreap := h.reap hq (by rw [hnow]; exact UInt64.le_refl now) q g fs
  rw [nowTick, hnow] at hreap
  cases op with
  | ack id => exact hanswer id (.inl rfl)
  | nack id requeue => exact hanswer id (.inr ⟨requeue, rfl⟩)
  | getStats => exact hreap.1
  | consume =>
    have hres := consume_reschedules env opts q g segment group fs
    rw [hnow] at hres
    refine hreap.1.reschedules hres fun event hdl _ => ?_
    have hadd : event.deadline_ms.toNat = now.toNat + opts.visibility_timeout.toUInt64.toNat := by
      rw [hdl, UInt64.toNat_add, Nat.mod_eq_of_lt (hclock rfl)]
    obtain ⟨hge, hle⟩ := lease_tick hvis now event.deadline_ms (by omega) (by omega)
    rw [hreap.2]
    omega

end timely

/-! ## What the event logs hold -/

/-- The file is a list of events with the property. -/
def LogOf (P : TransitionEvent → Prop) (fs : Fs) (path : Path) : Prop :=
  ∃ log, fs.content path = encodeEvents log ∧ ∀ event ∈ log, P event

theorem LogOf.mono {P Q : TransitionEvent → Prop} {fs : Fs} {path : Path} (h : LogOf P fs path) (hPQ : ∀ event, P event → Q event) :
    LogOf Q fs path := by
  obtain ⟨log, hc, hlog⟩ := h
  exact ⟨log, hc, fun event hev => hPQ event (hlog event hev)⟩

theorem LogOf.spared {P : TransitionEvent → Prop} {fs : Fs} {path : Path} (h : LogOf P fs path) {calls : List Call}
    (hsp : ∀ c ∈ calls, c.Spares path) (k : Nat) : LogOf P (fs.after (calls.take k)) path := by
  obtain ⟨log, hc, hlog⟩ := h
  refine ⟨log, ?_, hlog⟩
  rw [Fs.content, Fs.disk_after, foldl_spares fun c hm => hsp c (List.mem_of_mem_take hm)]
  exact hc

/-- Moves log events that fire. -/
theorem Moves.logged {faulty : Prop} {env : Env} {opts : EngineOptions} {g : CString} {read : UInt64 → StatusOr Record}
    {op : GroupOp} {a b : ConsumerGroupState} {labels : List Label} (h : Moves faulty env opts g read op a labels b)
    {P : TransitionEvent → Prop} (hP : ∀ group event, Fires env opts g read op group event → P event) :
    ∀ event ∈ labels.flatMap Label.logged, P event := by
  induction h with
  | nil => simp
  | @cons a b c l ls hm _ ih =>
    intro event hev
    rw [List.flatMap_cons, List.mem_append] at hev
    rcases hev with hev | hev
    · cases hm with
      | sched | forget | meet | skip | persist => cases hev
      | fire hf | lose _ hf =>
        rw [List.mem_singleton.1 hev]
        exact hP _ _ hf
    · exact ih event hev

/-- What an operation, or a first part of it, leaves in an event log of the directory. -/
theorem runOp_logs {P : TransitionEvent → Prop} {env : Env} {e : QueueEngine} (hp : Placed e) (hq : env.toIo.Quiet) (o : Op)
    (hP : ∀ q g op, o = .group q g op → ∀ read group event, Fires env e.options g read op group event → P event)
    (h : ∀ q g, LogOf P e.fs (groupEventPath e.options.data_dir q g)) :
    ∃ calls, (runOp env e o).2.fs = e.fs.after calls ∧
      ∀ k q g, LogOf P (e.fs.after (calls.take k)) (groupEventPath e.options.data_dir q g) := by
  have haside := fun q' q g => (aside_segment e.options.data_dir q q' g).events.symm
  have heffect := runOp_effect env e o
  generalize (runOp env e o).2 = e' at heffect
  cases heffect with
  | none => exact ⟨[], (Fs.after_nil _).symm, fun k q g => (h q g).spared (by simp) k⟩
  | created q' hnone hpath hcalls =>
    obtain ⟨calls, rfl, hsp⟩ := hcalls
    exact ⟨calls, rfl, fun k q g => (h q g).spared (hsp _ (haside q' q g)) k⟩
  | produced q' m hqueue hpath hcalls =>
    obtain ⟨calls, rfl, hsp⟩ := hcalls
    rw [hp q' _ hqueue] at hsp
    exact ⟨calls, rfl, fun k q g => (h q g).spared (hsp _ (haside q' q g)) k⟩
  | group q' g' op hqueue hgroup =>
    obtain ⟨labels, hd, -, -⟩ := hp.does op hqueue
    obtain ⟨calls, hc, htells⟩ := hd.calls
    refine ⟨calls, hc, fun k q g => ?_⟩
    by_cases hpath : groupEventPath e.options.data_dir q g = groupEventPath e.options.data_dir q' g'
    · -- The log of the group: events that fired were added.
      have hwhole : env.Whole (groupEventPath e.options.data_dir q' g') := by
        intro data n hf
        rw [hq.fault] at hf
        cases hf
      obtain ⟨done, rest, hacts, hview⟩ := (htells.shows hwhole).take e.fs.disk k
      obtain ⟨ls, ls', b, -, hdone, hmoves⟩ := hd.moves.split hacts
      rw [hpath]
      obtain ⟨log, hcont, hlog⟩ := h q' g'
      refine ⟨log ++ ls.flatMap Label.logged, ?_, fun event hev => ?_⟩
      · have hbefore : view (groupFiles e.options.data_dir q' g') e.fs.disk =
            (encodeEvents log, (e.fs.disk (groupStatePath e.options.data_dir q' g')).toList.getLast?) := by
          apply Prod.ext hcont
          change e.fs.disk (groupStatePath e.options.data_dir q' g') = _
          cases e.fs.disk (groupStatePath e.options.data_dir q' g') <;> rfl
        rw [hbefore, ← hdone, view_labels] at hview
        rw [Fs.content, Fs.disk_after]
        exact congrArg Prod.fst hview
      · rcases List.mem_append.1 hev with hev | hev
        · exact hlog event hev
        · exact hmoves.logged (fun group event hf => hP q' g' op rfl _ group event hf) event hev
    · refine (h q g).spared (htells.spares _ ⟨hpath, ?_, ?_⟩) k
      · exact ne_of_getLast? (groupEventPath_getLast? _ q g) (groupStatePath_getLast? _ q' g') (by decide)
      · exact ne_of_getLast? (groupEventPath_getLast? _ q g) (tmpPath_getLast? _) (by decide)

/-- The deadline of a lease is at most a visibility timeout from time `t`. -/
def DueBy (opts : EngineOptions) (t : UInt64) (event : TransitionEvent) : Prop :=
  event.state = .kInFlight → event.deadline_ms.toNat ≤ t.toNat + opts.visibility_timeout.toUInt64.toNat

theorem Fires.dueBy {env : Env} {opts : EngineOptions} {g : CString} {read : UInt64 → StatusOr Record} {op : GroupOp}
    {group : ConsumerGroupState} {event : TransitionEvent} (h : Fires env opts g read op group event) {now : UInt64}
    (hnow : ∀ c, env.now c = now)
    (hclock : op = .consume → now.toNat + opts.visibility_timeout.toUInt64.toNat < 2 ^ 64) : DueBy opts now event := by
  intro hs
  cases h with
  | timeout id entry rt _ _ _ _ => exact absurd hs (timeoutEvent_state opts _ _ id rt)
  | deliver id0 rt0 record rt hop _ _ _ _ _ _ =>
    change (env.now .consume + opts.visibility_timeout.toUInt64).toNat ≤ _
    rw [hnow, UInt64.toNat_add, Nat.mod_eq_of_lt (hclock hop)]
  | ack id entry rt _ _ _ => cases hs
  | nack id requeue entry rt _ _ _ =>
    unfold nackEvent at hs
    split_ifs at hs

/-- A group that is loaded now from a log without later deadlines. -/
theorem timely_load {env : Env} {opts : EngineOptions} {q : Path} {g : CString} {segment : SegmentLog} {fs : Fs}
    {group : ConsumerGroupState} (hload : loadGroupState env opts q g segment fs = .ok group) {now : UInt64}
    (hnow : ∀ c, env.now c = now) (hvis : opts.visibility_timeout.toUInt64.toNat ≤ 511 * opts.tickMs.toNat)
    (hlog : LogOf (DueBy opts now) fs (groupEventPath opts.data_dir q g)) :
    Timely now (now / opts.tickMs).toNat opts group := by
  obtain ⟨hbase, htick⟩ := load_ticks hload
  rw [hnow] at hbase
  refine ⟨scheduled_load hload, by rw [hbase]; exact Nat.le_succ _, fun id entry hin => ?_⟩
  have hle : (entry.deadline_ms / opts.tickMs).toNat ≤ (now / opts.tickMs).toNat + 511 := by
    obtain ⟨messages, base, events, -, hstate, hevents, rfl⟩ := loadGroupState_ok hload
    obtain ⟨log, hcont, hdue⟩ := hlog
    -- The events that were read are those of the file.
    have hview : view (groupFiles opts.data_dir q g) fs.disk =
        (encodeEvents log, fs.disk (groupStatePath opts.data_dir q g)) := Prod.ext hcont rfl
    rw [loadTransitions_view (fun _ => rfl) rfl hview] at hevents
    obtain rfl := Except.ok.inj hevents
    change (replay env opts log base).inflight.lookup id = some entry at hin
    rw [inflight_replay env opts log base (loadStateFile_ok hstate).2 id] at hin
    obtain ⟨rt, -, hin⟩ := Option.bind_eq_some_iff.1 hin
    obtain ⟨event, hlast, hin⟩ := Option.bind_eq_some_iff.1 hin
    split at hin
    · rename_i hs
      obtain rfl := Option.some.inj hin
      change (event.deadline_ms / opts.tickMs).toNat ≤ _
      have hby := hdue event (lastEvent_mem hlast).1 hs
      by_cases hge : now.toNat ≤ event.deadline_ms.toNat
      · exact (lease_tick hvis now event.deadline_ms hge hby).2
      · have hmono : (event.deadline_ms / opts.tickMs).toNat ≤ (now / opts.tickMs).toNat :=
          tick_mono (UInt64.le_iff_toNat_le.2 (by omega)) opts
        omega
    · cases hin
  rw [← htick id entry hin] at hle
  rw [hbase]
  refine ⟨htick id entry hin, by omega,
    entry.bucket_tick.toNat + 512 * (((now / opts.tickMs).toNat + 511 - entry.bucket_tick.toNat) / 512), ?_, ?_, ?_⟩
  · omega
  · omega
  · omega

/-! ## Runs -/

/-- The ticks in which the groups were loaded, after a step. -/
def loadedAt (e : QueueEngine) (loaded : Path → CString → Nat) : Step → Path → CString → Nat
  | .op env (.group q g _), q', g' =>
    if q' = q ∧ g' = g ∧ groupAt e q g = none then (env.now .initScheduler / e.options.tickMs).toNat else loaded q' g'
  | _, q', g' => loaded q' g'

def loadTicks : QueueEngine → (Path → CString → Nat) → List Step → Path → CString → Nat
  | _, loaded, [] => loaded
  | e, loaded, s :: steps => loadTicks (step e s) (loadedAt e loaded s) steps

/-- Every operation reads one time, not earlier than the one before it, the
options stay, nothing fails, and no deadline overflows. -/
def Timed (opts : EngineOptions) : UInt64 → List Step → Prop
  | _, [] => True
  | t, s :: steps => s.Quiet ∧ (∀ env o k options, s = .kill env o k options → options = opts) ∧
      ∃ now, (∀ c, s.env.now c = now) ∧ t ≤ now ∧
        ((∃ q g, s.operation = .group q g .consume) → now.toNat + opts.visibility_timeout.toUInt64.toNat < 2 ^ 64) ∧
        Timed opts now steps

/-- The engine at time `t`, with the ticks in which its groups were loaded. -/
structure InTime (opts : EngineOptions) (t : UInt64) (loaded : Path → CString → Nat) (e : QueueEngine) : Prop where
  options : e.options = opts
  placed : Placed e
  logs : ∀ q g, LogOf (DueBy opts t) e.fs (groupEventPath opts.data_dir q g)
  groups : ∀ q g group, groupAt e q g = some group → Timely t (loaded q g) opts group

theorem InTime.later {opts : EngineOptions} {t now : UInt64} {loaded : Path → CString → Nat} {e : QueueEngine}
    (h : InTime opts t loaded e) (hle : t ≤ now) : InTime opts now loaded e where
  options := h.options
  placed := h.placed
  logs q g := (h.logs q g).mono fun _ hdue hs => (hdue hs).trans (Nat.add_le_add_right (UInt64.le_iff_toNat_le.1 hle) _)
  groups q g group hg := (h.groups q g group hg).later hle

/-- The group that an operation finds. -/
theorem InTime.found {opts : EngineOptions} {now : UInt64} {loaded : Path → CString → Nat} {e : QueueEngine}
    (h : InTime opts now loaded e) (hvis : opts.visibility_timeout.toUInt64.toNat ≤ 511 * opts.tickMs.toNat) {env : Env}
    (hnow : ∀ c, env.now c = now) {q : Path} {g : CString} {queue : QueueState} {group : ConsumerGroupState}
    (hqueue : e.queues.lookup q = some queue) (hget : getGroup env e.options q queue g e.fs = .ok group) (op : GroupOp) :
    Timely now (loadedAt e loaded (.op env (.group q g op)) q g) opts group := by
  have hat : groupAt e q g = queue.groups.lookup g := by rw [groupAt, hqueue, Option.bind_some]
  dsimp only [loadedAt]
  unfold getGroup at hget
  split at hget
  · rename_i group0 h0
    obtain rfl := Except.ok.inj hget
    rw [h0] at hat
    rw [if_neg (by rw [hat]; simp)]
    exact h.groups q g _ hat
  · rename_i h0
    rw [h0] at hat
    rw [if_pos ⟨rfl, rfl, hat⟩, hnow]
    rw [h.options] at hget ⊢
    exact timely_load hget hnow hvis (h.logs q g)

theorem InTime.step {opts : EngineOptions} {now : UInt64} {loaded : Path → CString → Nat} {e : QueueEngine}
    (h : InTime opts now loaded e) (hvis : opts.visibility_timeout.toUInt64.toNat ≤ 511 * opts.tickMs.toNat) {s : Step}
    (hq : s.Quiet) (hopts : ∀ env o k options, s = .kill env o k options → options = opts) (hnow : ∀ c, s.env.now c = now)
    (hclock : (∃ q g, s.operation = .group q g .consume) →
      now.toNat + opts.visibility_timeout.toUInt64.toNat < 2 ^ 64) :
    InTime opts now (loadedAt e loaded s) (step e s) := by
  have htime := h
  obtain ⟨rfl, hplaced, hlogs, hgroups⟩ := h
  have hfires : ∀ q g op, s.operation = .group q g op → ∀ read group event,
      Fires s.env e.options g read op group event → DueBy e.options now event := by
    intro q g op hop read group event hf
    exact hf.dueBy hnow fun hc => hclock ⟨q, g, by rw [hop, hc]⟩
  obtain ⟨calls, hcalls, hcut⟩ := runOp_logs hplaced hq s.operation hfires hlogs
  cases s with
  | op env o =>
    refine ⟨runOp_options env e o, hplaced.runOp o, fun q g => ?_, fun q g group hg => ?_⟩
    · have hall := hcut calls.length q g
      rw [List.take_length] at hall
      change LogOf (DueBy e.options now) (runOp env e o).2.fs _
      have hfs : (runOp env e o).2.fs = e.fs.after calls := hcalls
      rw [hfs]
      exact hall
    · have hg' : groupAt (runOp env e o).2 q g = some group := hg
      rcases groupAt_runOp env e o q g with hsame | ⟨op, queue, found, rfl, hqueue, hget, heq⟩
      · -- A group that was there has not been loaded.
        rw [hsame] at hg'
        have hkept : loadedAt e loaded (.op env o) q g = loaded q g := by
          cases o with
          | group q' g' op =>
            apply if_neg
            rintro ⟨rfl, rfl, hnone⟩
            rw [hnone] at hg'
            cases hg'
          | createQueue q' => rfl
          | produce q' m => rfl
        rw [hkept]
        exact hgroups q g group hg'
      · rw [heq] at hg'
        obtain rfl := Option.some.inj hg'
        exact (htime.found hvis hnow hqueue hget op).groupOp hq hnow hvis q g op (fun hc => hclock ⟨q, g, by rw [← hc]; rfl⟩)
          queue.segment e.fs
  | kill env o k options =>
    refine ⟨hopts env o k options rfl, hplaced.step _, fun q g => ?_, fun q g group hg => (by cases hg)⟩
    rw [step_kill env o k options hcalls]
    exact hcut k q g

theorem inTime_run {opts : EngineOptions} (hvis : opts.visibility_timeout.toUInt64.toNat ≤ 511 * opts.tickMs.toNat)
    {t : UInt64} {loaded : Path → CString → Nat} {e : QueueEngine} (h : InTime opts t loaded e) {steps rest : List Step}
    (hclock : Timed opts t (steps ++ rest)) :
    ∃ t', InTime opts t' (loadTicks e loaded steps) (run e steps) ∧ Timed opts t' rest := by
  induction steps generalizing t loaded e with
  | nil => exact ⟨t, h, hclock⟩
  | cons s steps ih =>
    obtain ⟨hq, hopts, now, hnow, hle, hover, hrest⟩ := hclock
    exact ih ((h.later hle).step hvis hq hopts hnow hover) hrest

theorem loadTicks_concat (e : QueueEngine) (loaded : Path → CString → Nat) (steps : List Step) (s : Step) :
    loadTicks e loaded (steps ++ [s]) = loadedAt (run e steps) (loadTicks e loaded steps) s := by
  induction steps generalizing e loaded with
  | nil => rfl
  | cons s' steps ih => exact ih _ _

theorem inTime_fresh (opts : EngineOptions) (loaded : Path → CString → Nat) : InTime opts 0 loaded (freshEngine opts) :=
  ⟨rfl, placed_fresh opts, fun _ _ => ⟨[], rfl, by simp⟩, fun _ _ _ h => by cases h⟩

/-- With a visibility timeout of at most 511 ticks, after a reap at time `now` every
lease that is left has its tick, or the tick in which the group was loaded, less than a revolution ago. -/
theorem lateness_bounded (opts : EngineOptions)
    (hvis : opts.visibility_timeout.toUInt64.toNat ≤ 511 * opts.tickMs.toNat) (steps : List Step) (env : Env) (q : Path)
    (g : CString) (op : GroupOp) (hclock : Timed opts 0 (steps ++ [.op env (.group q g op)]))
    (group : ConsumerGroupState) (hfound : foundGroup env (run (freshEngine opts) steps) q g = some group) (id : MessageId)
    (entry : InflightEntry)
    (hin : (reapExpiredInflight env opts q g group (run (freshEngine opts) steps).fs).1.inflight.lookup id = some entry) :
    nowTick env opts < max entry.bucket_tick.toNat
      (loadTicks (freshEngine opts) (fun _ _ => 0) (steps ++ [.op env (.group q g op)]) q g) + 512 := by
  obtain ⟨t, htime, hq, -, now, hnow, hle, -, -⟩ := inTime_run hvis (inTime_fresh opts fun _ _ => 0) hclock
  have hnow' : ∀ c, env.now c = now := hnow
  have hq' : env.toIo.Quiet := hq
  obtain ⟨queue, hqueue, hget⟩ := foundGroup_eq hfound
  have hgroup := (htime.later hle).found hvis hnow' hqueue hget op
  rw [← loadTicks_concat] at hgroup
  obtain ⟨hreaped, hbase⟩ := hgroup.reap hq' (by rw [hnow']; exact UInt64.le_refl now) q g (run (freshEngine opts) steps).fs
  obtain ⟨-, -, v, hge, -, hv⟩ := hreaped.met id entry hin
  omega

theorem five_ne_last : (5 : UInt64) ≠ 0xFFFFFFFFFFFFFFFF := by decide

/-- A lease from 5 to 15, and a restart. -/
def leaseThenRestart : List Step :=
  [.op (envAt 0 (clock_ne .initScheduler)) (.createQueue someQueue),
    .op (envAt 0 (clock_ne .initScheduler)) (.produce someQueue someMessage),
    .op (envAt 5 five_ne_last) (.group someQueue someGroup .consume),
    .kill (envAt 5 five_ne_last) (.group someQueue someGroup .getStats) 0 tickLease,
    .op (envAt 100 (by decide)) (.createQueue someQueue)]

theorem timed_op {opts : EngineOptions} {t now : UInt64} (h : now ≠ 0xFFFFFFFFFFFFFFFF) (o : Op) {steps : List Step}
    (hle : t ≤ now) (hclock : now.toNat + opts.visibility_timeout.toUInt64.toNat < 2 ^ 64) (hrest : Timed opts now steps) :
    Timed opts t (.op (envAt now h) o :: steps) :=
  ⟨quiet_default, fun _ _ _ _ heq => Step.noConfusion heq, now, fun _ => rfl, hle, fun _ => hclock, hrest⟩

theorem timed_kill {opts : EngineOptions} {t now : UInt64} (h : now ≠ 0xFFFFFFFFFFFFFFFF) (o : Op) (k : Nat)
    {steps : List Step} (hle : t ≤ now) (hclock : now.toNat + opts.visibility_timeout.toUInt64.toNat < 2 ^ 64)
    (hrest : Timed opts now steps) : Timed opts t (.kill (envAt now h) o k opts :: steps) :=
  ⟨quiet_default, fun _ _ _ _ heq => (Step.kill.inj heq).2.2.2.symm, now, fun _ => rfl, hle, fun _ => hclock, hrest⟩

/-- The lease is rebuilt at 100 and outlives the first reap after the restart. -/
theorem lateness_bounded_restarted :
    ∃ group entry, foundGroup (envAt 100 (by decide)) (run (freshEngine tickLease) leaseThenRestart) someQueue someGroup =
        some group ∧
      (reapExpiredInflight (envAt 100 (by decide)) tickLease someQueue someGroup group
        (run (freshEngine tickLease) leaseThenRestart).fs).1.inflight.lookup ⟨1, 2⟩ = some entry ∧
      nowTick (envAt 100 (by decide)) tickLease < max entry.bucket_tick.toNat
        (loadTicks (freshEngine tickLease) (fun _ _ => 0)
          (leaseThenRestart ++ [.op (envAt 100 (by decide)) (.group someQueue someGroup .getStats)]) someQueue someGroup) + 512 := by
  have hsome : (foundGroup (envAt 100 (by decide)) (run (freshEngine tickLease) leaseThenRestart) someQueue someGroup).any
      (fun group => ((reapExpiredInflight (envAt 100 (by decide)) tickLease someQueue someGroup group
        (run (freshEngine tickLease) leaseThenRestart).fs).1.inflight.lookup ⟨1, 2⟩).isSome) = true := by decide +kernel
  obtain ⟨group, hfound, hin⟩ := (Option.any_eq_true _ _).1 hsome
  obtain ⟨entry, hentry⟩ := Option.isSome_iff_exists.1 hin
  have htimed : Timed tickLease 0
      (leaseThenRestart ++ [.op (envAt 100 (by decide)) (.group someQueue someGroup .getStats)]) := by
    apply_rules [timed_op, timed_kill] <;> decide
  have hlate := lateness_bounded tickLease (by decide) leaseThenRestart (envAt 100 (by decide)) someQueue someGroup .getStats
    htimed group hfound ⟨1, 2⟩ entry hentry
  exact ⟨group, entry, hfound, hentry, hlate⟩

end PomaiQueue.Engine
