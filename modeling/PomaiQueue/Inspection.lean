import PomaiQueue.Api
import PomaiQueue.Refinement
/-!
# What `InspectMessage` tells

The view of a message is the place that it has in the abstract queue, over any number of
restarts (`inspect_tells`). A lease that outlives a restart is still shown, with its deadline as the time
when the message is visible next, though the message is ready.
-/

namespace PomaiQueue.Engine

open Wire Posix Assoc Storage

/-! ## Leases and their tokens -/

/-- A lease belongs to the group, and its token names the message and the event. -/
structure Signed (g : CString) (n : Node) : Prop where
  log : ∀ event ∈ n.log, event.state = .kInFlight → event.owner = g ∧ event.lease_token = leaseToken event.id event.sequence
  memory : ∀ group, n.group = some group → ∀ id rt entry, group.runtime.lookup id = some rt →
    group.inflight.lookup id = some entry → entry.owner = g ∧ entry.lease_token = leaseToken id rt.sequence

theorem Fires.signed {env : Env} {opts : EngineOptions} {g : CString} {read : UInt64 → StatusOr Record} {op : GroupOp}
    {group : ConsumerGroupState} {event : TransitionEvent} (h : Fires env opts g read op group event)
    (hs : event.state = .kInFlight) : event.owner = g ∧ event.lease_token = leaseToken event.id event.sequence := by
  cases h with
  | timeout id entry rt hop hin hdl hrt =>
    unfold timeoutEvent at hs
    split at hs <;> cases hs
  | deliver => exact ⟨rfl, rfl⟩
  | ack => cases hs
  | nack id requeue entry rt hop hin hrt =>
    unfold nackEvent at hs
    split at hs
    · cases hs
    · split at hs <;> cases hs

section signed

variable {rules : Rules} {n n' : Node}

/-- A load takes the leases from the log, and the sequence too. -/
theorem Signed.loaded (h : Signed rules.group_id n) {env : Env} {opts : EngineOptions} {messages : List (UInt64 × Message)}
    {base : ConsumerGroupState} (hbase : Restores n.snaps.getLast? (defaultGroup env opts messages) base)
    (hg' : n'.group = some (rebuilt env opts n.log base)) (hlog : n'.log = n.log) : Signed rules.group_id n' := by
  refine ⟨hlog ▸ h.log, fun group hgroup id rt entry hrt hentry => ?_⟩
  obtain rfl := Option.some.inj (hgroup.symm.trans hg')
  have hin : (rebuilt env opts n.log base).inflight.lookup id = _ := inflight_replay env opts n.log base hbase.keys.2 id
  rw [lookup_rebuilt, Option.map_eq_some_iff] at hrt
  obtain ⟨rt0, hrt0, rfl⟩ := hrt
  rw [hin, hrt0, Option.bind_some, Option.bind_eq_some_iff] at hentry
  obtain ⟨event, hlast, hentry⟩ := hentry
  obtain ⟨hmem, rfl⟩ := lastEvent_mem hlast
  by_cases hs : event.state = .kInFlight
  · rw [if_pos hs] at hentry
    obtain rfl := Option.some.inj hentry
    have hsequence : ((rt0.restored (lastEvent n.log event.id)).recovered (env.now .loadGroupState)).sequence = event.sequence := by
      rw [hlast]
      exact congrArg MessageRuntime.sequence (if_pos hs)
    rw [hsequence]
    exact h.log event hmem hs
  · rw [if_neg hs] at hentry
    cases hentry

theorem Signed.fired (h : Signed rules.group_id n) {env : Env} {opts : EngineOptions} {read : UInt64 → StatusOr Record} {op : GroupOp}
    {a : ConsumerGroupState} {event : TransitionEvent} (hg : n.group = some a) (hf : Fires env opts rules.group_id read op a event)
    (hg' : n'.group = some (applyTransition env opts (bump a) event)) (hlog : n'.log = n.log ++ [event]) :
    Signed rules.group_id n' := by
  refine ⟨fun event' hev hs => ?_, fun group hgroup id rt entry hrt hentry => ?_⟩
  · rw [hlog] at hev
    rcases List.mem_append.1 hev with hev | hev
    · exact h.log event' hev hs
    · rw [List.mem_singleton.1 hev] at hs ⊢
      exact hf.signed hs
  · obtain rfl := Option.some.inj (hgroup.symm.trans hg')
    obtain ⟨rt0, hrt0⟩ := hf.known
    have hrt0' : (bump a).runtime.lookup event.id = some rt0 := hrt0
    rw [lookup_applyTransition] at hrt
    by_cases hid : id = event.id
    · subst hid
      rw [if_pos rfl, hrt0'] at hrt
      obtain rfl := Option.some.inj hrt
      rw [inflight_applyTransition_self env opts (bump a) event hrt0'] at hentry
      by_cases hs : event.state = .kInFlight
      · rw [if_pos hs] at hentry
        obtain rfl := Option.some.inj hentry
        exact hf.signed hs
      · rw [if_neg hs] at hentry
        cases hentry
    · rw [if_neg hid] at hrt
      rw [inflight_applyTransition_ne env opts (bump a) event hid] at hentry
      exact h.memory a hg id rt entry hrt hentry

theorem Signed.happens (hq : ¬ rules.faulty) {x : Happening} (h : Signed rules.group_id n) (hn : Happens rules n x n') :
    Signed rules.group_id n' := by
  cases hn with
  | loaded hg hopts hsite hcov hset hpres hbase hg' hlog hmarks => exact h.loaded hbase hg' hlog
  | @idle _ _ a b hx hc htr hg hg' hlog hmarks hrt hin =>
    refine ⟨hlog ▸ h.log, fun group hgroup id rt entry hruntime hentry => ?_⟩
    obtain rfl := Option.some.inj (hgroup.symm.trans hg')
    rw [hrt] at hruntime
    rcases hin id with heq | ⟨hnone, -⟩
    · rw [heq] at hentry
      exact h.memory a hg id rt entry hruntime hentry
    · rw [hnone] at hruntime
      cases hruntime
  | fired hg henv hopts hread hf hg' hlog hmarks => exact h.fired hg hf hg' hlog
  | lost hfaulty => exact absurd hfaulty hq
  | crashed hg' hlog hmarks =>
    refine ⟨hlog ▸ h.log, fun group hgroup => ?_⟩
    rw [hg'] at hgroup
    cases hgroup

end signed

/-! ## The view -/

/-- The view of a message that has its place in the abstract queue. -/
structure Portrays (g : CString) (m : Message) (p : Spot) (view : MessageDebugView) : Prop where
  enqueued : view.enqueue_time_ms = m.enqueue_ts
  retries : view.retry_count = p.count
  status : ∃ t, statusOf view.state t = p.status ∧ view.next_visible_at_ms = p.lease.getD t
  free : p.lease = none → view.lease_owner = emptyString ∧ view.lease_token = emptyString
  leased : ∀ deadline, p.lease = some deadline → view.lease_owner = g ∧ view.lease_token = leaseToken m.id view.sequence

theorem debugView_portrays {g : CString} {group : ConsumerGroupState} {m : Message} {rt : MessageRuntime}
    (hts : rt.enqueue_ts = m.enqueue_ts) (hsigned : ∀ entry, group.inflight.lookup m.id = some entry →
      entry.owner = g ∧ entry.lease_token = leaseToken m.id rt.sequence) :
    Portrays g m (placeOf rt ((group.inflight.lookup m.id).map (·.deadline_ms))) (debugView group m.id rt) := by
  unfold debugView
  cases hin : group.inflight.lookup m.id with
  | none =>
    exact ⟨hts, rfl, ⟨rt.available_after_ms, rfl, rfl⟩, fun _ => ⟨rfl, rfl⟩, fun _ h => (by cases h)⟩
  | some entry =>
    refine ⟨hts, rfl, ⟨rt.available_after_ms, rfl, rfl⟩, fun h => (by cases h), fun _ _ => ?_⟩
    exact hsigned entry hin

section course

variable {σ : Setting} {e : QueueEngine} {rs : List Frame} {fresh : Bool} {hs : List Happening} {n : Node} {s : AbstractQueue}

/-- What is known of the group that an inspection looks at. -/
theorem Represents.inspected (h : Represents σ.queue e rs n s) (hc : Course σ e rs fresh hs n) (hfaulty : ¬ σ.faulty) {env : Env}
    (hm : Meets (σ.rules rs) env e σ.queue (.group σ.queue σ.group .getStats) n) {queue : QueueState}
    (hqueue : e.queues.lookup σ.queue = some queue) {group : ConsumerGroupState}
    (hget : getGroup env e.options σ.queue queue σ.group e.fs = .ok group) {id : MessageId} {rt : MessageRuntime}
    (hrt : group.runtime.lookup id = some rt) :
    ∃ m ∈ s.found, m.id = id ∧ Portrays σ.group m (s.finds env.readings id) (debugView group id rt) := by
  obtain ⟨hcarries, hpre, -⟩ := h.finds hc hm hqueue hget
  obtain ⟨m, hm', rfl, hplace⟩ := hcarries.known id rt hrt
  refine ⟨m, List.mem_of_getElem? hm', rfl, ?_⟩
  obtain ⟨hs', hsteps, -, -⟩ := hc.tracks.load hm hqueue hget
  have hall := hc.steps.trans hsteps
  have hsigned : Signed σ.group { n with group := some group } :=
    hall.invariant (P := fun _ n => Signed (σ.rules rs).group_id n) hc.sound ⟨by simp, by simp⟩ fun _ hp hn => hp.happens hfaulty hn
  have hentries : Entries (σ.rules rs) { n with group := some group } := .steps hc.sound hall
  have hts : rt.enqueue_ts = m.enqueue_ts := by
    obtain ⟨r, ⟨f, hf, rfl⟩, -, hts⟩ := (hentries.memory group rfl m.id rt hrt).filed
    obtain ⟨m', hpub, hrec⟩ := h.record hf
    have hsame : s.published[rt.offset.toNat]? = some m := by
      obtain ⟨rest, heq⟩ := hpre
      rw [← heq, List.getElem?_append_left (List.getElem?_eq_some_iff.1 hm').1]
      exact hm'
    obtain rfl : m = m' := Option.some.inj (hsame.symm.trans hpub)
    rw [hts]
    change f.2.header.enqueue_ts = m.enqueue_ts
    rw [hrec]
    rfl
  rw [← hplace]
  exact debugView_portrays hts fun entry hin => hsigned.memory group rfl m.id rt entry hrt hin

/-- What an inspection of the abstract queue can answer. -/
inductive Views (g : CString) (s : AbstractQueue) (env : Env) (id : MessageId) : StatusOr MessageDebugView → Prop
  | absent (h : s.there = false) : Views g s env id queueNotFound
  | unknown (h : s.there = true) (hid : ∀ m ∈ s.found, m.id ≠ id) : Views g s env id (.error (.status .kNotFound "message not found"))
  | view {m v} (h : s.there = true) (hm : m ∈ s.found) (hid : m.id = id) (hp : Portrays g m (s.finds env.readings id) v) :
      Views g s env id (.ok v)

theorem Represents.views (h : Represents σ.queue e rs n s) (hc : Course σ e rs fresh hs n) (hfaulty : ¬ σ.faulty) {env : Env}
    (hr : env.toIo.Reads) (hm : Meets (σ.rules rs) env e σ.queue (.group σ.queue σ.group .getStats) n) (id : MessageId) :
    Views σ.group s env id (inspectMessageOnShard env σ.queue σ.group id e).1 := by
  have hthere := h.there
  unfold inspectMessageOnShard
  cases hqueue : e.queues.lookup σ.queue with
  | none =>
    rw [hqueue] at hthere
    exact .absent hthere
  | some queue =>
    rw [hqueue] at hthere
    obtain ⟨group, hget⟩ := hc.gets_group hqueue hr
    simp only [hget, inspectGroup]
    cases hrt : group.runtime.lookup id with
    | none =>
      obtain ⟨hcarries, -, -⟩ := h.finds hc hm hqueue hget
      refine .unknown hthere fun m hmem hid => ?_
      obtain ⟨rt, hsome⟩ := hcarries.entry m hmem
      rw [hid, hrt] at hsome
      cases hsome
    | some rt =>
      obtain ⟨m, hmem, hid, hportrays⟩ := h.inspected hc hfaulty hm hqueue hget hrt
      exact .view hthere hmem hid hportrays

end course

end PomaiQueue.Engine
