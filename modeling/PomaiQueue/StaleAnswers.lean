import PomaiQueue.Deliveries
/-!
# Answers to an earlier delivery

`Ack` and `Nack` name a message, not a delivery of it. They look for the id in the
inflight map, and a later delivery has put it there again: `answer_ignored_iff`
says that a request is without effect exactly if the message is not leased at
all when it arrives, whoever holds the lease.
-/

namespace PomaiQueue.Engine

open Wire Posix Assoc Storage

/-! ## Leased messages have an entry -/

def Known (group : ConsumerGroupState) : Prop := ∀ id, (group.inflight.lookup id).isSome → id ∈ group.runtime.keys

section moves

variable {faulty : Prop} {env : Env} {opts : EngineOptions} {g : CString} {read : UInt64 → StatusOr Record} {op : GroupOp}

theorem Known.applyTransition {group : ConsumerGroupState} (h : Known group) (env : Env) (opts : EngineOptions)
    (event : TransitionEvent) : Known (applyTransition env opts group event) := by
  intro id hin
  rw [applyTransition_keys]
  by_cases hid : id = event.id
  · subst hid
    cases hrt : group.runtime.lookup event.id with
    | none =>
      rw [applyTransition_none _ _ _ _ hrt] at hin
      exact h _ hin
    | some rt => exact (mem_keys_iff _ _).2 ⟨rt, hrt⟩
  · rw [inflight_applyTransition_ne env opts group event hid] at hin
    exact h id hin

theorem Known.move {a b : ConsumerGroupState} {l : Label} (hm : Move faulty env opts g read op a l b) (h : Known a) :
    Known b := by
  cases hm with
  | sched hs =>
    intro id hin
    rw [hs.inflight] at hin
    rw [hs.runtime]
    exact h id hin
  | forget id0 _ =>
    intro id hin
    by_cases hid : id = id0
    · rw [hid, AList.lookup_erase] at hin
      cases hin
    · rw [AList.lookup_erase_ne hid] at hin
      exact h id hin
  | meet id0 rt0 record rt _ _ _ _ =>
    intro id hin
    have hmem : id ∈ a.runtime := AList.mem_keys.2 (h id hin)
    exact AList.mem_keys.1 ((AList.mem_insert _).2 (.inr hmem))
  | fire _ =>
    have hb : Known (bump a) := h
    exact hb.applyTransition env opts _
  | lose _ _ => exact h
  | skip _ _ => exact h
  | persist => exact h

end moves

theorem known_load {env : Env} {opts : EngineOptions} {q : Path} {g : CString} {segment : SegmentLog} {fs : Fs}
    {group : ConsumerGroupState} (h : loadGroupState env opts q g segment fs = .ok group) : Known group := by
  obtain ⟨messages, base, events, -, hbase, -, rfl⟩ := loadGroupState_ok h
  obtain ⟨-, hin⟩ := loadStateFile_ok hbase
  intro id hsome
  have hl : (replay env opts events base).inflight.lookup id = _ := inflight_replay env opts events base hin id
  change ((replay env opts events base).inflight.lookup id).isSome at hsome
  change id ∈ (mapValues _ (replay env opts events base).runtime).keys
  rw [mapValues_keys, replay_keys, mem_keys_iff]
  cases hrt : base.runtime.lookup id with
  | none =>
    rw [hl, hrt] at hsome
    simp at hsome
  | some rt => exact ⟨rt, rfl⟩

/-- In every run, a leased message has a runtime entry. -/
theorem known_run {e : QueueEngine} (hp : Placed e) (h : EveryGroup (fun _ => Known) e) (steps : List Step) :
    EveryGroup (fun _ => Known) (run e steps) := by
  induction steps generalizing e with
  | nil => exact h
  | cons s steps ih =>
    apply ih (hp.step s)
    cases s with
    | kill env o k options => exact everyGroup_kill e env o k options
    | op env o =>
      refine h.runOp o ?_ ?_
      · rintro q g op rfl queue - - group hload
        exact known_load hload
      · rintro q g op rfl queue group hqueue - hknown
        obtain ⟨labels, hd, -, -⟩ := hp.does op hqueue
        exact hd.moves.keeps (fun hm => Known.move hm) hknown

/-! ## Answers -/

/-- The group that an operation finds, in memory or in its files. -/
def foundGroup (env : Env) (e : QueueEngine) (q : Path) (g : CString) : Option ConsumerGroupState :=
  (e.queues.lookup q).bind fun queue => (getGroup env e.options q queue g e.fs).toOption

/-- The operation is an answer for the message. -/
def GroupOp.Answers (op : GroupOp) (id : MessageId) : Prop := op = .ack id ∨ ∃ requeue, op = .nack id requeue

/-- The message is leased when the operation comes. -/
def Leased (env : Env) (e : QueueEngine) (q : Path) (g : CString) (id : MessageId) : Prop :=
  ∃ group, foundGroup env e q g = some group ∧ (group.inflight.lookup id).isSome

/-- The operation leaves the state of the message, its inflight entry and the
event log as it finds them. -/
structure Ignored (env : Env) (e : QueueEngine) (q : Path) (g : CString) (op : GroupOp) (id : MessageId) : Prop where
  message : ∀ group, foundGroup env e q g = some group →
    ∃ group', groupAt (runOp env e (.group q g op)).2 q g = some group' ∧
      group'.runtime.lookup id = group.runtime.lookup id ∧ group'.inflight.lookup id = group.inflight.lookup id
  log : (runOp env e (.group q g op)).2.fs.content (groupEventPath e.options.data_dir q g) =
    e.fs.content (groupEventPath e.options.data_dir q g)

theorem foundGroup_eq {env : Env} {e : QueueEngine} {q : Path} {g : CString} {group : ConsumerGroupState}
    (h : foundGroup env e q g = some group) :
    ∃ queue, e.queues.lookup q = some queue ∧ getGroup env e.options q queue g e.fs = .ok group := by
  obtain ⟨queue, hqueue, hget⟩ := Option.bind_eq_some_iff.1 h
  refine ⟨queue, hqueue, ?_⟩
  cases hres : getGroup env e.options q queue g e.fs with
  | error err =>
    rw [hres] at hget
    cases hget
  | ok group' =>
    rw [hres] at hget
    rw [Option.some.inj hget]

/-- An operation that finds no group does nothing. -/
theorem runOp_unfound {env : Env} {e : QueueEngine} {q : Path} {g : CString} (op : GroupOp) (h : foundGroup env e q g = none) :
    (runOp env e (.group q g op)).2 = e := by
  rw [runOp_group]
  rcases onGroup_cases env q g op e with ⟨err, heq, -⟩ | ⟨queue, group, hqueue, hget, -⟩
  · rw [heq]
  · rw [foundGroup, hqueue, Option.bind_some, hget] at h
    cases h

/-- What the operation does to the group that it finds. -/
theorem runOp_found {env : Env} {e : QueueEngine} {q : Path} {g : CString} (op : GroupOp) {queue : QueueState}
    {group : ConsumerGroupState} (hqueue : e.queues.lookup q = some queue)
    (hget : getGroup env e.options q queue g e.fs = .ok group) :
    groupAt (runOp env e (.group q g op)).2 q g = some (groupOp env e.options q g op queue.segment group e.fs).2.1 ∧
      (runOp env e (.group q g op)).2.fs = (groupOp env e.options q g op queue.segment group e.fs).2.2 := by
  rw [runOp_group]
  rcases onGroup_cases env q g op e with ⟨err, -, href⟩ | ⟨queue', group', hqueue', hget', heq⟩
  · obtain ⟨err', herr⟩ := href queue hqueue
    rw [hget] at herr
    cases herr
  · rw [hqueue] at hqueue'
    obtain rfl := Option.some.inj hqueue'
    rw [hget] at hget'
    obtain rfl := Except.ok.inj hget'
    rw [heq]
    refine ⟨?_, rfl⟩
    rw [groupAt, AList.lookup_insert, Option.bind_some, AList.lookup_insert]

/-- An answer for a message that is not leased does nothing. -/
theorem answer_unleased (env : Env) (opts : EngineOptions) (q : Path) (g : CString) {op : GroupOp} {id : MessageId}
    (hop : op.Answers id) (segment : SegmentLog) {group : ConsumerGroupState} (fs : Fs)
    (hin : group.inflight.lookup id = none) : (groupOp env opts q g op segment group fs).2 = (group, fs) := by
  rcases hop with rfl | ⟨requeue, rfl⟩
  · simp [groupOp, ackGroup, hin]
  · simp [groupOp, nackGroup, hin]

/-- An answer for a leased message is logged. -/
theorem answer_leased {env : Env} (hq : env.toIo.Quiet) (opts : EngineOptions) (q : Path) (g : CString) {op : GroupOp}
    {id : MessageId} (hop : op.Answers id) (segment : SegmentLog) {group : ConsumerGroupState} (fs : Fs) {entry : InflightEntry}
    {rt : MessageRuntime} (hin : group.inflight.lookup id = some entry) (hrt : group.runtime.lookup id = some rt) :
    ∃ event sizes policy data, (groupOp env opts q g op segment group fs).2.2 =
      fs.after (actCalls (groupFiles opts.data_dir q g) [.log event, .snap sizes policy data]) := by
  have hfp : env.failpoint = none := hq.failpoint
  rcases hop with rfl | ⟨requeue, rfl⟩
  · obtain ⟨group', -, hc⟩ := commit_quiet hq opts q g (bump group) (ackEvent (env.now .ack) group.next_sequence id rt) false fs
    exact ⟨_, _, _, _, by simp [groupOp, ackGroup, hin, hrt, hfp, hc]; rfl⟩
  · obtain ⟨group', -, hc⟩ := commit_quiet hq opts q g (bump group)
      (nackEvent opts (env.now .nack) (env.now .nackBackoff) group.next_sequence id rt requeue) true fs
    exact ⟨_, _, _, _, by simp [groupOp, nackGroup, hin, hrt, hfp, hc]; rfl⟩

/-- After any run, an answer for a message is ignored if the message is not
leased when it comes, and only then, as far as nothing fails. Who was given the
message before does not matter. -/
theorem answer_ignored_iff (opts : EngineOptions) (steps : List Step) (q : Path) (g : CString) (op : GroupOp)
    (id : MessageId) (hop : op.Answers id) (env : Env) :
    (¬ Leased env (run (freshEngine opts) steps) q g id → Ignored env (run (freshEngine opts) steps) q g op id) ∧
      (env.toIo.Quiet →
        (Ignored env (run (freshEngine opts) steps) q g op id ↔ ¬ Leased env (run (freshEngine opts) steps) q g id)) := by
  have hknown := known_run (placed_fresh opts) (everyGroup_fresh opts) steps
  generalize run (freshEngine opts) steps = e at hknown
  have hsafe : ¬ Leased env e q g id → Ignored env e q g op id := by
    intro hno
    cases hfound : foundGroup env e q g with
    | none =>
      -- There is no such queue, or the group cannot be loaded.
      refine ⟨fun group hgroup => ?_, by rw [runOp_unfound op hfound]⟩
      rw [hfound] at hgroup
      cases hgroup
    | some group =>
      obtain ⟨queue, hqueue, hget⟩ := foundGroup_eq hfound
      have hin : group.inflight.lookup id = none := by
        rw [← Option.not_isSome_iff_eq_none]
        exact fun hsome => hno ⟨group, hfound, hsome⟩
      obtain ⟨hat, hfs⟩ := runOp_found op hqueue hget
      rw [answer_unleased env e.options q g hop queue.segment e.fs hin] at hat hfs
      refine ⟨fun group' hgroup' => ?_, by rw [hfs]⟩
      rw [hfound] at hgroup'
      obtain rfl := Option.some.inj hgroup'
      exact ⟨group, hat, rfl, rfl⟩
  refine ⟨hsafe, fun hq => ⟨?_, hsafe⟩⟩
  rintro hign ⟨group, hfound, hsome⟩
  obtain ⟨queue, hqueue, hget⟩ := foundGroup_eq hfound
  obtain ⟨entry, hin⟩ := Option.isSome_iff_exists.1 hsome
  have hk : Known group := by
    unfold getGroup at hget
    split at hget
    · rename_i group0 h0
      obtain rfl := Except.ok.inj hget
      exact hknown q queue g _ hqueue h0
    · exact known_load hget
  obtain ⟨rt, hrt⟩ := (mem_keys_iff _ _).1 (hk id hsome)
  obtain ⟨-, hfs⟩ := runOp_found op hqueue hget
  obtain ⟨event, sizes, policy, data, hcalls⟩ := answer_leased hq e.options q g hop queue.segment e.fs hin hrt
  -- The event is behind what the log was.
  have hview := (shows_acts (groupFiles e.options.data_dir q g) [.log event, .snap sizes policy data]).all e.fs.disk
  have hgrown : (e.fs.after (actCalls (groupFiles e.options.data_dir q g) [.log event, .snap sizes policy data])).content
      (groupEventPath e.options.data_dir q g) =
        e.fs.content (groupEventPath e.options.data_dir q g) ++ encodeEvent event := by
    rw [Fs.content, Fs.disk_after]
    exact congrArg Prod.fst hview
  have hlog := hign.log
  rw [hfs, hcalls, hgrown] at hlog
  have hlen := congrArg List.length hlog
  have hge := encodeEvent_length event
  rw [List.length_append] at hlen
  omega

/-! A message times out and is given to a second consumer. -/

def envAt (t : UInt64) (h : t ≠ 0xFFFFFFFFFFFFFFFF) : Env := { now := fun _ => t, now_ne := fun _ => h }

def shortLease : EngineOptions := { visibility_timeout := 1, scheduler_tick := 1, retry_backoff := 0 }

def timedOut : List Step :=
  [.op {} (.createQueue someQueue), .op {} (.produce someQueue someMessage), .op {} (.group someQueue someGroup .consume),
    .op (envAt 1 (by decide)) (.group someQueue someGroup .consume)]

/-- The second consumer answers. -/
def secondAcks : List Step := timedOut ++ [.op (envAt 1 (by decide)) (.group someQueue someGroup (.ack ⟨1, 2⟩))]

/-- Then the first consumer's ack comes. -/
theorem answer_ignored_acked : returned someQueue someGroup ⟨1, 2⟩ (freshEngine shortLease) secondAcks = 2 ∧
    Ignored (envAt 1 (by decide)) (run (freshEngine shortLease) secondAcks) someQueue someGroup (.ack ⟨1, 2⟩) ⟨1, 2⟩ := by
  refine ⟨by decide +kernel, ?_⟩
  refine ((answer_ignored_iff shortLease secondAcks someQueue someGroup (.ack ⟨1, 2⟩) ⟨1, 2⟩ (.inl rfl)
    (envAt 1 (by decide))).2 quiet_default).2 ?_
  have hstate : ((foundGroup (envAt 1 (by decide)) (run (freshEngine shortLease) secondAcks) someQueue someGroup).map fun group =>
      (group.inflight.lookup ⟨1, 2⟩).isSome) = some false := by decide +kernel
  rintro ⟨group, hfound, hsome⟩
  rw [hfound, Option.map_some, hsome] at hstate
  cases hstate

/-- The first consumer's ack acks the second consumer's delivery. -/
theorem stale_ack_not_ignored :
    returned someQueue someGroup ⟨1, 2⟩ (freshEngine shortLease) timedOut = 2 ∧
      ¬ Ignored (envAt 1 (by decide)) (run (freshEngine shortLease) timedOut) someQueue someGroup (.ack ⟨1, 2⟩) ⟨1, 2⟩ := by
  refine ⟨by decide +kernel, fun h => ?_⟩
  have hlog : (runOp (envAt 1 (by decide)) (run (freshEngine shortLease) timedOut)
      (.group someQueue someGroup (.ack ⟨1, 2⟩))).2.fs.content (groupEventPath [] someQueue someGroup) ≠
        (run (freshEngine shortLease) timedOut).fs.content (groupEventPath [] someQueue someGroup) := by decide +kernel
  have hopts : (run (freshEngine shortLease) timedOut).options = shortLease := by
    simp [timedOut, step, runOp_options, freshEngine]
  have hsame := h.log
  rw [hopts] at hsame
  exact hlog hsame

end PomaiQueue.Engine
