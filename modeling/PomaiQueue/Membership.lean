import PomaiQueue.Steps
/-!
# In flight in both maps

A message is in flight if its runtime entry says so, and it has an entry in the
inflight map. `Agree` says that the two go together. Every move keeps it
(`Agree.move`), and a load establishes it exactly if no message of the segment
was left in flight: replaying the log fills the inflight map, and the rewrite
that makes such messages ready again does not empty it (`agree_load_iff`).
-/

namespace PomaiQueue.Engine

open Wire Posix Assoc Storage

/-- An id is in the inflight map exactly if its runtime entry is in flight. -/
def Agree (group : ConsumerGroupState) : Prop :=
  ∀ id, (group.inflight.lookup id).isSome ↔ ∃ rt, group.runtime.lookup id = some rt ∧ rt.state = .kInFlight

/-! ## Moves -/

section moves

variable {faulty : Prop} {env : Env} {opts : EngineOptions} {g : CString} {read : UInt64 → StatusOr Record} {op : GroupOp}

theorem Agree.move {a b : ConsumerGroupState} {l : Label} (hm : Move faulty env opts g read op a l b) (ha : Agree a) :
    Agree b := by
  cases hm with
  | sched h =>
    intro id
    rw [h.inflight, h.runtime]
    exact ha id
  | forget id0 h =>
    intro id
    by_cases hid : id = id0
    · subst hid
      simp [AList.lookup_erase, h]
    · rw [AList.lookup_erase_ne hid]
      exact ha id
  | meet id0 rt0 record rt _ _ hnone hrt =>
    intro id
    by_cases hid : id = idOf record
    · subst hid
      have hin : ¬ (a.inflight.lookup (idOf record)).isSome := by
        rw [ha (idOf record), hnone]
        rintro ⟨rt', h, -⟩
        cases h
      simp [AList.lookup_insert, hrt, hin]
    · rw [AList.lookup_insert_ne hid]
      exact ha id
  | @fire event h =>
    obtain ⟨rt, hrt⟩ := h.known
    intro id
    have hlook := lookup_applyTransition env opts (bump a) event id
    by_cases hid : id = event.id
    · subst hid
      have hself := inflight_applyTransition_self env opts (bump a) event hrt
      have hrt' : (bump a).runtime.lookup event.id = some rt := hrt
      rw [if_pos rfl, hrt'] at hlook
      rw [hself, hlook]
      by_cases hs : event.state = .kInFlight
      · simp [hs, MessageRuntime.after]
      · simp [hs, MessageRuntime.after]
    · rw [if_neg hid] at hlook
      rw [inflight_applyTransition_ne env opts (bump a) event hid, hlook]
      exact ha id
  | lose _ _ => exact ha
  | skip _ _ => exact ha
  | persist => exact ha

theorem Agree.moves {a b : ConsumerGroupState} {ls : List Label} (h : Moves faulty env opts g read op a ls b)
    (ha : Agree a) : Agree b :=
  h.keeps (fun hm => Agree.move hm) ha

/-- Nothing but a delivery changes a message that is not in flight. -/
theorem Agree.moves_keep {a b : ConsumerGroupState} {ls : List Label} (h : Moves faulty env opts g read .getStats a ls b)
    (ha : Agree a) {id : MessageId} {rt : MessageRuntime} (hrt : a.runtime.lookup id = some rt)
    (hs : rt.state ≠ .kInFlight) : b.runtime.lookup id = some rt := by
  refine (h.keeps (P := fun x => Agree x ∧ x.runtime.lookup id = some rt) ?_ ⟨ha, hrt⟩).2
  rintro x act y hm ⟨hx, hrx⟩
  refine ⟨hx.move hm, ?_⟩
  cases hm with
  | sched hc => rw [hc.runtime]; exact hrx
  | forget id0 h0 => exact hrx
  | meet id0 rt0 record rt1 _ _ hnone _ =>
    refine (AList.lookup_insert_ne ?_).trans hrx
    rintro rfl
    rw [hnone] at hrx
    cases hrx
  | @fire event hf =>
    rw [lookup_applyTransition, if_neg]
    · exact hrx
    · rintro rfl
      -- The only event of a reap is a timeout, and the message has no inflight entry.
      cases hf with
      | timeout id' entry rt' _ hin _ _ =>
        rw [timeoutEvent_id] at hrx
        obtain ⟨rt2, h2, h3⟩ := (hx id').1 (by rw [hin]; rfl)
        rw [hrx] at h2
        obtain rfl := Option.some.inj h2
        exact hs h3
      | deliver _ _ _ _ hop => cases hop
      | ack _ _ _ hop => cases hop
      | nack _ _ _ _ hop => cases hop
  | lose _ _ => exact hrx
  | skip _ _ => exact hrx
  | persist => exact hrx

end moves

/-! ## Loading -/

theorem lookup_recovered_state {now : UInt64} {group : ConsumerGroupState} {id : MessageId} {rt : MessageRuntime}
    (h : (recoverInflight now group).runtime.lookup id = some rt) : rt.state ≠ .kInFlight := by
  rw [recoverInflight, lookup_mapValues, Option.map_eq_some_iff] at h
  obtain ⟨rt0, -, rfl⟩ := h
  unfold MessageRuntime.recovered
  split
  · simp
  · assumption

/-- The last logged event of a message of the segment delivered it. -/
def LeftInFlight (e : QueueEngine) (q : Path) (g : CString) : Prop :=
  ∃ queue events id event, e.queues.lookup q = some queue ∧
    loadTransitions {} e.options q g allSequences e.fs = .ok events ∧ InSegment queue.segment e.fs id ∧
    lastEvent events id = some event ∧ event.state = .kInFlight

/-- A load puts the ids of the segment that were left in flight into the
inflight map. -/
theorem inflight_load {env : Env} {opts : EngineOptions} {q : Path} {g : CString} {segment : SegmentLog} {fs : Fs}
    {group : ConsumerGroupState} (h : loadGroupState env opts q g segment fs = .ok group) :
    ∃ events, loadTransitions {} opts q g allSequences fs = .ok events ∧ ∀ id,
      ((group.inflight.lookup id).isSome ↔
        InSegment segment fs id ∧ ∃ event, lastEvent events id = some event ∧ event.state = .kInFlight) := by
  obtain ⟨messages, base, events, hmsgs, hbase, hevents, rfl⟩ := loadGroupState_ok h
  obtain ⟨hkeys, hin⟩ := loadStateFile_ok hbase
  refine ⟨events, hevents, fun id => ?_⟩
  have hl : (buildReadyQueue env (recoverInflight (env.now .loadGroupState) (replay env opts events base))).inflight.lookup
      id = _ := inflight_replay env opts events base hin id
  rw [hl, ← load_known hmsgs, ← hkeys, mem_keys_iff]
  cases hrt : base.runtime.lookup id with
  | none => simp
  | some rt =>
    cases hlast : lastEvent events id with
    | none => simp
    | some event => by_cases hs : event.state = .kInFlight <;> simp [hs]

theorem load_not_inflight {env : Env} {opts : EngineOptions} {q : Path} {g : CString} {segment : SegmentLog} {fs : Fs}
    {group : ConsumerGroupState} (h : loadGroupState env opts q g segment fs = .ok group) {id : MessageId}
    {rt : MessageRuntime} (hrt : group.runtime.lookup id = some rt) : rt.state ≠ .kInFlight := by
  obtain ⟨messages, base, events, -, -, -, rfl⟩ := loadGroupState_ok h
  exact lookup_recovered_state hrt

/-- A loaded group agrees exactly if no message was left in flight. -/
theorem agree_load_iff {env : Env} {e : QueueEngine} {q : Path} {g : CString} {queue : QueueState}
    {group : ConsumerGroupState} (hqueue : e.queues.lookup q = some queue)
    (h : loadGroupState env e.options q g queue.segment e.fs = .ok group) : Agree group ↔ ¬ LeftInFlight e q g := by
  obtain ⟨events, hevents, hin⟩ := inflight_load h
  constructor
  · rintro ha ⟨queue', events', id, event, hqueue', hevents', hseg, hlast, hs⟩
    rw [hqueue] at hqueue'
    rw [hevents] at hevents'
    obtain rfl := Option.some.inj hqueue'
    obtain rfl := Except.ok.inj hevents'
    obtain ⟨rt, hrt, hst⟩ := (ha id).1 ((hin id).2 ⟨hseg, event, hlast, hs⟩)
    exact load_not_inflight h hrt hst
  · intro hleft id
    constructor
    · intro hsome
      obtain ⟨hseg, event, hlast, hs⟩ := (hin id).1 hsome
      exact absurd ⟨queue, events, id, event, hqueue, hevents, hseg, hlast, hs⟩ hleft
    · rintro ⟨rt, hrt, hs⟩
      exact absurd hs (load_not_inflight h hrt)

/-! ## Runs -/

/-- The step does not load a group that has a message left in flight. -/
def LoadsSettled (e : QueueEngine) : Step → Prop
  | .op _ (.group q g _) =>
    ∀ queue, e.queues.lookup q = some queue → queue.groups.lookup g = none → ¬ LeftInFlight e q g
  | _ => True

/-- The maps of every loaded group agree. -/
def AllAgree (e : QueueEngine) : Prop :=
  ∀ q queue g group, e.queues.lookup q = some queue → queue.groups.lookup g = some group → Agree group

theorem AllAgree.runOp {env : Env} {e : QueueEngine} (hp : Placed e) (ha : AllAgree e) (o : Op)
    (hs : LoadsSettled e (.op env o)) : AllAgree (runOp env e o).2 := by
  have hall : EveryGroup (fun _ => Agree) e := ha
  refine hall.runOp o ?_ ?_
  · rintro q g op rfl queue hqueue hnone group hload
    exact (agree_load_iff hqueue hload).2 (hs queue hqueue hnone)
  · rintro q g op rfl queue group hqueue - hagree
    obtain ⟨labels, hd, -, -⟩ := hp.does op hqueue
    exact hagree.moves hd.moves

theorem AllAgree.step {e : QueueEngine} (hp : Placed e) (ha : AllAgree e) (s : Step) (hs : LoadsSettled e s) :
    AllAgree (step e s) := by
  cases s with
  | op env o => exact ha.runOp hp o hs
  | kill env o calls options => exact everyGroup_kill (P := fun _ => Agree) e env o calls options

theorem AllAgree.run {e : QueueEngine} (hp : Placed e) (ha : AllAgree e) (steps : List Step)
    (hs : EachStep LoadsSettled e steps) : AllAgree (run e steps) := by
  induction steps generalizing e with
  | nil => exact ha
  | cons s steps ih => exact ih (hp.step s) (ha.step hp s hs.1) hs.2

/-! ## What follows for a message -/

/-- A group in which being in flight means one thing: only such messages can be
acked or nacked, the others are left alone by timeouts, and the inflight map
counts exactly the messages in flight. -/
structure OneState (e : QueueEngine) (q : Path) (g : CString) (group : ConsumerGroupState) : Prop where
  agree : Agree group
  ack : ∀ env id, (ackOnShard env q g id e).1.isOk = true →
    ∃ rt, group.runtime.lookup id = some rt ∧ rt.state = .kInFlight
  nack : ∀ env id requeue, (nackOnShard env q g id requeue e).1.isOk = true →
    ∃ rt, group.runtime.lookup id = some rt ∧ rt.state = .kInFlight
  timeout : ∀ env : Env, env.toIo.Quiet → ∀ id rt, group.runtime.lookup id = some rt → rt.state ≠ .kInFlight →
    (reapExpiredInflight env e.options q g group e.fs).1.runtime.lookup id = some rt
  count : group.inflight.entries.length = (group.runtime.entries.filter (·.2.state = .kInFlight)).length

theorem Agree.count {group : ConsumerGroupState} (ha : Agree group) :
    group.inflight.entries.length = (group.runtime.entries.filter (·.2.state = .kInFlight)).length := by
  have hperm : group.inflight.keys.Perm ((group.runtime.entries.filter (·.2.state = .kInFlight)).map Sigma.fst) := by
    refine (List.perm_ext_iff_of_nodup group.inflight.keys_nodup ?_).2 fun id => ?_
    · exact List.Nodup.sublist (List.filter_sublist.map _) group.runtime.keys_nodup
    · rw [mem_keys_iff, ← Option.isSome_iff_exists, ha id]
      constructor
      · rintro ⟨rt, hrt, hs⟩
        exact List.mem_map.2 ⟨⟨id, rt⟩, List.mem_filter.2 ⟨(mem_entries_iff _ _ _).2 hrt, by simpa using hs⟩, rfl⟩
      · intro h
        obtain ⟨⟨id', rt⟩, hmem, rfl⟩ := List.mem_map.1 h
        obtain ⟨hmem, hs⟩ := List.mem_filter.1 hmem
        exact ⟨rt, (mem_entries_iff _ _ _).1 hmem, by simpa using hs⟩
  have hlen := hperm.length_eq
  rw [List.length_map] at hlen
  rw [← hlen, AList.keys, List.keys, List.length_map]

/-- An operation on a loaded group is done on that group. -/
theorem onGroup_loaded {env : Env} {e : QueueEngine} {q : Path} {g : CString} {queue : QueueState}
    {group : ConsumerGroupState} (hqueue : e.queues.lookup q = some queue) (hg : queue.groups.lookup g = some group)
    (op : GroupOp) : (onGroup env q g op e).1 = (groupOp env e.options q g op queue.segment group e.fs).1 := by
  simp only [onGroup, hqueue, getGroup, hg]

/-- What `Ack` and `Nack` look for first. -/
theorem ack_ok_inflight {env : Env} {opts : EngineOptions} {q : Path} {g : CString} {segment : SegmentLog} {id : MessageId}
    {group : ConsumerGroupState} {fs : Fs} {op : GroupOp} (hop : op = .ack id ∨ ∃ requeue, op = .nack id requeue)
    (h : (groupOp env opts q g op segment group fs).1.isOk = true) : (group.inflight.lookup id).isSome := by
  cases hin : group.inflight.lookup id with
  | some entry => rfl
  | none =>
    rcases hop with rfl | ⟨requeue, rfl⟩
    · simp [groupOp, ackGroup, hin, Except.map, Except.isOk, Except.toBool] at h
    · simp [groupOp, nackGroup, hin, Except.map, Except.isOk, Except.toBool] at h

theorem Agree.oneState {e : QueueEngine} {q : Path} {g : CString} {queue : QueueState} {group : ConsumerGroupState}
    (hqueue : e.queues.lookup q = some queue) (hg : queue.groups.lookup g = some group) (ha : Agree group) :
    OneState e q g group where
  agree := ha
  ack := by
    intro env id h
    rw [ackOnShard, onGroup_loaded hqueue hg] at h
    exact (ha id).1 (ack_ok_inflight (.inl rfl) h)
  nack := by
    intro env id requeue h
    rw [nackOnShard, onGroup_loaded hqueue hg] at h
    exact (ha id).1 (ack_ok_inflight (.inr ⟨requeue, rfl⟩) h)
  timeout := by
    intro env _ id rt hrt hs
    obtain ⟨labels, hd, -⟩ : Does env e.options q g (queue.segment.read e.fs) .getStats group e.fs _ _ _ :=
      reapExpiredInflight_does (.inr rfl) group e.fs
    exact ha.moves_keep hd.moves hrt hs
  count := ha.count

/-- In every run that never loads a group with a message left in flight, a
message is in one state in every loaded group. -/
theorem one_state_of_settled (opts : EngineOptions) (steps : List Step)
    (hs : EachStep LoadsSettled (freshEngine opts) steps) (q : Path) (queue : QueueState) (g : CString)
    (group : ConsumerGroupState) (hqueue : (run (freshEngine opts) steps).queues.lookup q = some queue)
    (hg : queue.groups.lookup g = some group) : OneState (run (freshEngine opts) steps) q g group := by
  have hall : AllAgree (run (freshEngine opts) steps) :=
    AllAgree.run (placed_fresh opts) (fun _ _ _ _ hl _ => by cases hl) steps hs
  exact (hall q queue g group hqueue hg).oneState hqueue hg

/-- The events of the group, read now, leave nothing in flight. -/
def settledNow (e : QueueEngine) (q : Path) (g : CString) : Bool :=
  match loadTransitions {} e.options q g allSequences e.fs with
  | .error _ => true
  | .ok events => events.all fun event => (lastEvent events event.id).map (·.state) ≠ some .kInFlight

theorem settledNow_sound {e : QueueEngine} {q : Path} {g : CString} (h : settledNow e q g = true) :
    ¬ LeftInFlight e q g := by
  rintro ⟨queue, events, id, event, -, hev, -, hlast, hs⟩
  obtain ⟨hmem, rfl⟩ := lastEvent_mem hlast
  simp only [settledNow, hev, List.all_eq_true] at h
  have := h event hmem
  simp [hlast, hs] at this

/-! A message that is delivered and acked before a restart, and one that is in
flight when the process is killed. -/

def someQueue : Path := ascii "q"
def someGroup : CString := ⟨ascii "g", by decide⟩
def someMessage : Message := { id := ⟨1, 2⟩, payload := [7] }

def ackedRestart : List Step :=
  [.op {} (.createQueue someQueue), .op {} (.produce someQueue someMessage), .op {} (.group someQueue someGroup .consume),
    .op {} (.group someQueue someGroup (.ack ⟨1, 2⟩)), .kill {} (.group someQueue someGroup .getStats) 0 {},
    .op {} (.createQueue someQueue), .op {} (.group someQueue someGroup .getStats)]

def inFlightRestart : List Step :=
  [.op {} (.createQueue someQueue), .op {} (.produce someQueue someMessage), .op {} (.group someQueue someGroup .consume),
    .kill {} (.group someQueue someGroup .getStats) 0 {}, .op {} (.createQueue someQueue),
    .op {} (.group someQueue someGroup .getStats)]

/-- What the two maps of a group say about a message. -/
def statesOf (e : QueueEngine) (q : Path) (g : CString) (id : MessageId) : Option (Bool × Option MessageState) :=
  (e.queues.lookup q).bind fun queue => (queue.groups.lookup g).map fun group =>
    ((group.inflight.lookup id).isSome, (group.runtime.lookup id).map (·.state))

theorem statesOf_unloaded {e : QueueEngine} {q : Path} {g : CString} {queue : QueueState}
    (hqueue : e.queues.lookup q = some queue) (hg : queue.groups.lookup g = none) (id : MessageId) :
    statesOf e q g id = none := by
  simp [statesOf, hqueue, hg]

theorem one_state_acked_restart :
    ∃ queue group, (run (freshEngine {}) ackedRestart).queues.lookup someQueue = some queue ∧
      queue.groups.lookup someGroup = some group ∧ OneState (run (freshEngine {}) ackedRestart) someQueue someGroup group := by
  have hstates : statesOf (run (freshEngine {}) ackedRestart) someQueue someGroup ⟨1, 2⟩ = some (false, some .kAcked) := by
    decide +kernel
  obtain ⟨queue, hqueue, hst⟩ := Option.bind_eq_some_iff.1 hstates
  obtain ⟨group, hgroup, -⟩ := Option.map_eq_some_iff.1 hst
  refine ⟨queue, group, hqueue, hgroup, one_state_of_settled {} ackedRestart ?_ someQueue queue someGroup group hqueue hgroup⟩
  refine ⟨trivial, trivial, fun _ _ _ => settledNow_sound (by decide +kernel), fun queue' hq' hg' => ?_, trivial, trivial,
    fun _ _ _ => settledNow_sound (by decide +kernel), trivial⟩
  -- The ack finds the group loaded.
  have hloaded : statesOf (run (freshEngine {}) (ackedRestart.take 3)) someQueue someGroup ⟨1, 2⟩ ≠ none := by
    decide +kernel
  exact absurd (statesOf_unloaded hq' hg' ⟨1, 2⟩) hloaded

/-- After a restart a message that was in flight is ready and in the inflight map. -/
theorem restart_splits_state :
    ∃ queue group, (run (freshEngine {}) inFlightRestart).queues.lookup someQueue = some queue ∧
      queue.groups.lookup someGroup = some group ∧ ¬ Agree group := by
  have hstates : statesOf (run (freshEngine {}) inFlightRestart) someQueue someGroup ⟨1, 2⟩ = some (true, some .kReady) := by
    decide +kernel
  obtain ⟨queue, hqueue, hst⟩ := Option.bind_eq_some_iff.1 hstates
  obtain ⟨group, hgroup, hpair⟩ := Option.map_eq_some_iff.1 hst
  refine ⟨queue, group, hqueue, hgroup, fun ha => ?_⟩
  simp only [Prod.mk.injEq] at hpair
  obtain ⟨rt, hrt, hs⟩ := (ha ⟨1, 2⟩).1 hpair.1
  rw [hrt, Option.map_some, hs] at hpair
  simp at hpair

end PomaiQueue.Engine
