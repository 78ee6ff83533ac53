import PomaiQueue.Deliveries
import PomaiQueue.Recovery
/-!
# The history of a message

`DeliveryPath` is the automaton that the events of one message follow: it starts
with a delivery, every answer and every timeout follows a delivery, and nothing
follows an ack or a dead letter. The group in memory agrees with the last event
of every message, except that a load makes a message ready that the log has in
flight (`Agreed`); only then is a message delivered twice in a row, and a
restart lies in between.
-/

namespace PomaiQueue.Engine

open Wire Posix Assoc Storage

/-! ## Paths -/

/-- The last event for `id` is `event`, at position `i`. -/
structure LastAt (log : List TransitionEvent) (id : MessageId) (i : Nat) (event : TransitionEvent) : Prop where
  at_index : log[i]? = some event
  id_eq : event.id = id
  later : ∀ k other, i < k → log[k]? = some other → other.id ≠ id

/-- How `b` can come after `a` in the history of one message. `restarted` says
that the process was restarted in between. -/
structure Succeeds (opts : EngineOptions) (restarted : Prop) (a b : TransitionEvent) : Prop where
  ends : a.state ≠ .kAcked ∧ a.state ≠ .kDead
  answers : b.reason ≠ .kDelivered → a.reason = .kDelivered
  redelivers : a.reason = .kDelivered → b.reason = .kDelivered → restarted ∧ b.retry_count = a.retry_count
  requeues : b.state = .kReady →
    b.retry_count.toNat = a.retry_count.toNat + 1 ∧ b.retry_count ≤ opts.max_retry_count
  exhausts : b.reason = .kVisibilityTimeoutDead → b.retry_count.toNat = opts.max_retry_count.toNat + 1
  rejects : b.reason = .kConsumerNackDead →
    b.retry_count = a.retry_count ∨ b.retry_count.toNat = opts.max_retry_count.toNat + 1
  expires : b.reason = .kVisibilityTimeoutRequeued ∨ b.reason = .kVisibilityTimeoutDead → a.deadline_ms ≤ b.transition_ts
  waits : a.state = .kReady → b.reason = .kDelivered → a.available_after_ms ≤ b.transition_ts

/-- The events of every message are a path of the automaton. `restarted i j` says
that the process was restarted after event `i` and before event `j`. -/
structure DeliveryPath (opts : EngineOptions) (restarted : Nat → Nat → Prop) (log : List TransitionEvent) : Prop where
  starts : ∀ j b, log[j]? = some b → (∀ e ∈ log.take j, e.id ≠ b.id) → b.reason = .kDelivered ∧ b.retry_count = 0
  follows : ∀ i j a b, log[j]? = some b → LastAt (log.take j) b.id i a → Succeeds opts (restarted i j) a b

theorem lastAt_of_lastEvent {log : List TransitionEvent} {id : MessageId} {event : TransitionEvent}
    (h : lastEvent log id = some event) : ∃ i, LastAt log id i event := by
  induction log using List.reverseRecOn with
  | nil => cases h
  | append_singleton log e ih =>
    rw [lastEvent_concat] at h
    by_cases hid : e.id = id
    · rw [if_pos hid] at h
      obtain rfl := Option.some.inj h
      refine ⟨log.length, by simp, hid, fun k other hk hother => ?_⟩
      have := (List.getElem?_eq_some_iff.1 hother).1
      rw [List.length_append, List.length_singleton] at this
      omega
    · rw [if_neg hid] at h
      obtain ⟨i, hi, hid', hlater⟩ := ih h
      have hlt : i < log.length := (List.getElem?_eq_some_iff.1 hi).1
      refine ⟨i, by rwa [List.getElem?_append_left hlt], hid', fun k other hk hother => ?_⟩
      rcases Nat.lt_or_ge k log.length with hlt' | hge
      · rw [List.getElem?_append_left hlt'] at hother
        exact hlater k other hk hother
      · rw [List.getElem?_append_right hge] at hother
        have hmem := List.mem_of_getElem? hother
        rw [List.mem_singleton.1 hmem]
        exact hid

theorem LastAt.lastEvent {log : List TransitionEvent} {id : MessageId} {i : Nat} {event : TransitionEvent}
    (h : LastAt log id i event) : lastEvent log id = some event := by
  cases hlast : Engine.lastEvent log id with
  | none => exact absurd h.id_eq (lastEvent_none.1 hlast event (List.mem_of_getElem? h.at_index))
  | some event' =>
    obtain ⟨i', hi', hid', hlater'⟩ := lastAt_of_lastEvent hlast
    have hii : i' = i := by
      rcases Nat.lt_trichotomy i i' with hlt | heq | hlt
      · exact absurd hid' (h.later i' event' hlt hi')
      · exact heq.symm
      · exact absurd h.id_eq (hlater' i event hlt h.at_index)
    rw [hii, h.at_index] at hi'
    exact hi'.symm

/-- The last event of another message is where it was. -/
theorem LastAt.of_concat {log : List TransitionEvent} {e event : TransitionEvent} {id : MessageId} {i : Nat}
    (h : LastAt (log ++ [e]) id i event) (hid : e.id ≠ id) : LastAt log id i event := by
  have hlt : i < log.length := by
    by_contra hge
    have hat := h.at_index
    rw [List.getElem?_append_right (by omega)] at hat
    exact hid (List.mem_singleton.1 (List.mem_of_getElem? hat) ▸ h.id_eq)
  refine ⟨?_, h.id_eq, fun k other hk hother => h.later k other hk ?_⟩
  · rw [← h.at_index, List.getElem?_append_left hlt]
  · rw [List.getElem?_append_left (List.getElem?_eq_some_iff.1 hother).1]
    exact hother

theorem DeliveryPath.mono {opts : EngineOptions} {restarted restarted' : Nat → Nat → Prop} {log : List TransitionEvent}
    (h : DeliveryPath opts restarted log) (hle : ∀ i j, restarted i j → restarted' i j) :
    DeliveryPath opts restarted' log where
  starts := h.starts
  follows i j a b hb ha := by
    have hs := h.follows i j a b hb ha
    exact { hs with redelivers := fun ha hb => ⟨hle i j (hs.redelivers ha hb).1, (hs.redelivers ha hb).2⟩ }

/-- One more event. -/
theorem DeliveryPath.concat {opts : EngineOptions} {restarted : Nat → Nat → Prop} {log : List TransitionEvent}
    (h : DeliveryPath opts restarted log) {b : TransitionEvent}
    (hfirst : lastEvent log b.id = none → b.reason = .kDelivered ∧ b.retry_count = 0)
    (hnext : ∀ i a, LastAt log b.id i a → Succeeds opts (restarted i log.length) a b) :
    DeliveryPath opts restarted (log ++ [b]) := by
  -- The new event is the last one, the others are where they were.
  have hcases : ∀ j e, (log ++ [b])[j]? = some e →
      ((log ++ [b]).take j = log.take j ∧ log[j]? = some e) ∨ ((log ++ [b]).take j = log ∧ j = log.length ∧ e = b) := by
    intro j e he
    rcases Nat.lt_or_ge j log.length with hlt | hge
    · rw [List.getElem?_append_left hlt] at he
      exact .inl ⟨List.take_append_of_le_length (by omega), he⟩
    · have hlt : j < (log ++ [b]).length := (List.getElem?_eq_some_iff.1 he).1
      rw [List.length_append, List.length_singleton] at hlt
      obtain rfl : j = log.length := by omega
      rw [List.getElem?_append_right hge] at he
      exact .inr ⟨by simp, rfl, (List.mem_singleton.1 (List.mem_of_getElem? he))⟩
  refine ⟨fun j e he hnone => ?_, fun i j a e he ha => ?_⟩
  · rcases hcases j e he with ⟨htake, he'⟩ | ⟨htake, -, rfl⟩
    · rw [htake] at hnone
      exact h.starts j e he' hnone
    · rw [htake] at hnone
      exact hfirst (lastEvent_none.2 hnone)
  · rcases hcases j e he with ⟨htake, he'⟩ | ⟨htake, rfl, rfl⟩
    · rw [htake] at ha
      exact h.follows i j a e he' ha
    · rw [htake] at ha
      exact hnext i a ha

/-! ## The group and the log -/

/-- The entry of a message whose last event is `event`. -/
structure AgreesWith (reloaded : Prop) (rt : MessageRuntime) (event : TransitionEvent) : Prop where
  retry : rt.retry_count = event.retry_count
  state : (rt.state = event.state ∧ rt.available_after_ms = event.available_after_ms) ∨
    (event.state = .kInFlight ∧ rt.state = .kReady ∧ reloaded)

/-- The process was restarted when the log had more than `i` and at most `j` events. -/
def restartedBetween (marks : List Nat) (i j : Nat) : Prop := ∃ m ∈ marks, i < m ∧ m ≤ j

structure Agreed (opts : EngineOptions) (n : Node) : Prop where
  gap : n.group = none → n.log = [] ∨ n.log.length ∈ n.marks
  bound : ∀ event ∈ n.log, event.state ≠ .kDead → event.retry_count.toNat ≤ opts.max_retry_count.toNat
  memory : ∀ group, n.group = some group → ∀ id rt, group.runtime.lookup id = some rt → ∀ i event,
    LastAt n.log id i event → AgreesWith (restartedBetween n.marks i n.log.length) rt event
  path : DeliveryPath opts (restartedBetween n.marks) n.log

/-- An answer or a timeout after a delivery. -/
theorem succeeds_delivery {opts : EngineOptions} {restarted : Prop} {a b : TransitionEvent} (ha : a.reason = .kDelivered)
    (hs : a.state = .kInFlight) (hb : b.reason ≠ .kDelivered)
    (hrequeue : b.state = .kReady → b.retry_count.toNat = a.retry_count.toNat + 1 ∧ b.retry_count ≤ opts.max_retry_count)
    (hexhaust : b.reason = .kVisibilityTimeoutDead → b.retry_count.toNat = opts.max_retry_count.toNat + 1)
    (hreject : b.reason = .kConsumerNackDead →
      b.retry_count = a.retry_count ∨ b.retry_count.toNat = opts.max_retry_count.toNat + 1)
    (hexpire : b.reason = .kVisibilityTimeoutRequeued ∨ b.reason = .kVisibilityTimeoutDead → a.deadline_ms ≤ b.transition_ts) :
    Succeeds opts restarted a b where
  ends := by rw [hs]; simp
  answers _ := ha
  redelivers _ h := absurd h hb
  requeues := hrequeue
  exhausts := hexhaust
  rejects := hreject
  expires := hexpire
  waits h := by rw [hs] at h; cases h

section fires

variable {env : Env} {opts : EngineOptions} {n : Node} {group : ConsumerGroupState} {id : MessageId}

/-- What is in flight was delivered last. -/
theorem Leases.delivered (hl : Leases n) (hg : n.group = some group) {entry : InflightEntry}
    (hin : group.inflight.lookup id = some entry) :
    ∃ a, lastEvent n.log id = some a ∧ a.state = .kInFlight ∧ a.reason = .kDelivered ∧ a.deadline_ms = entry.deadline_ms := by
  have hd := hl.inflight group hg id
  rw [hin, Option.map_some, loggedDeadline] at hd
  obtain ⟨a, hlast, hif⟩ := Option.bind_eq_some_iff.1 hd.symm
  by_cases hs : a.state = .kInFlight
  · rw [if_pos hs] at hif
    exact ⟨a, hlast, hs, (hl.reasons a (lastEvent_mem hlast).1).1 hs, Option.some.inj hif⟩
  · rw [if_neg hs] at hif
    cases hif

theorem retry_exhausted {max retry : UInt32} (hlt : max.toNat + 1 < 2 ^ 32) (hr : retry.toNat ≤ max.toNat) (h : max < retry + 1) :
    (retry + 1).toNat = max.toNat + 1 := by
  have hsucc := retry_succ hlt hr
  rw [UInt32.lt_iff_toNat_lt] at h
  omega

theorem timeout_succeeds (hlt : opts.max_retry_count.toNat + 1 < 2 ^ 32) {restarted : Prop} {a : TransitionEvent}
    {rt : MessageRuntime} (hd : a.reason = .kDelivered) (hs : a.state = .kInFlight) (hretry : rt.retry_count = a.retry_count)
    (hle : a.retry_count.toNat ≤ opts.max_retry_count.toNat) {now : UInt64} (hdl : a.deadline_ms ≤ now) (sequence : UInt64) :
    Succeeds opts restarted a (timeoutEvent opts now sequence id rt) := by
  rw [← hretry] at hle
  unfold timeoutEvent
  split
  · rename_i hmax
    exact succeeds_delivery hd hs (by simp) (by simp) (fun _ => retry_exhausted hlt hle hmax) (by simp) fun _ => hdl
  · rename_i hmax
    refine succeeds_delivery hd hs (by simp) (fun _ => ⟨?_, UInt32.not_lt.1 hmax⟩) (by simp) (by simp) fun _ => hdl
    rw [← hretry]
    exact retry_succ hlt hle

theorem nack_succeeds (hlt : opts.max_retry_count.toNat + 1 < 2 ^ 32) {restarted : Prop} {a : TransitionEvent}
    {rt : MessageRuntime} (hd : a.reason = .kDelivered) (hs : a.state = .kInFlight) (hretry : rt.retry_count = a.retry_count)
    (hle : a.retry_count.toNat ≤ opts.max_retry_count.toNat) (now now' sequence : UInt64) (requeue : Bool) :
    Succeeds opts restarted a (nackEvent opts now now' sequence id rt requeue) := by
  rw [← hretry] at hle
  unfold nackEvent
  split
  · exact succeeds_delivery hd hs (by simp) (by simp) (by simp) (fun _ => .inl hretry) (by simp)
  · split
    · rename_i hmax
      exact succeeds_delivery hd hs (by simp) (by simp) (by simp) (fun _ => .inr (retry_exhausted hlt hle hmax)) (by simp)
    · rename_i hmax
      refine succeeds_delivery hd hs (by simp) (fun _ => ⟨?_, UInt32.not_lt.1 hmax⟩) (by simp) (by simp) (by simp)
      rw [← hretry]
      exact retry_succ hlt hle

/-- A delivery after an event that the entry of a ready message agrees with. -/
theorem deliver_succeeds {restarted : Prop} {a : TransitionEvent} {rt : MessageRuntime} (hag : AgreesWith restarted rt a)
    (hready : rt.state = .kReady) (hreason : a.state = .kInFlight ↔ a.reason = .kDelivered) {now : UInt64}
    (havail : rt.available_after_ms ≤ now) (g : CString) (sequence : UInt64) :
    Succeeds opts restarted a (deliverEvent opts g now sequence id rt) := by
  rcases hag.state with ⟨hs, hav⟩ | ⟨hs, -, hrestart⟩
  · rw [hready] at hs
    refine ⟨by rw [← hs]; simp, fun h => absurd rfl h, fun hdelivered => ?_, fun h => (by cases h), fun h => (by cases h),
      fun h => (by cases h), fun h => (by rcases h with h | h <;> cases h), fun _ _ => ?_⟩
    · have hfly := hreason.2 hdelivered
      rw [← hs] at hfly
      cases hfly
    · rw [← hav]
      exact havail
  · refine ⟨by rw [hs]; simp, fun h => absurd rfl h, fun _ _ => ⟨hrestart, hag.retry⟩, fun h => (by cases h),
      fun h => (by cases h), fun h => (by cases h), fun h => (by rcases h with h | h <;> cases h), fun h => ?_⟩
    rw [hs] at h
    cases h

/-- How an event comes after the last one of its message. -/
structure Continues (opts : EngineOptions) (n : Node) (event : TransitionEvent) : Prop where
  first : lastEvent n.log event.id = none → event.reason = .kDelivered ∧ event.retry_count = 0
  next : ∀ i a, LastAt n.log event.id i a → Succeeds opts (restartedBetween n.marks i n.log.length) a event
  bound : event.state ≠ .kDead → event.retry_count.toNat ≤ opts.max_retry_count.toNat

/-- An event for a message in flight. -/
theorem Continues.of_inflight (hl : Leases n) (ha : Agreed opts n) (hg : n.group = some group) {entry : InflightEntry}
    {rt : MessageRuntime} {event : TransitionEvent} (hid : event.id = id) (hin : group.inflight.lookup id = some entry)
    (hrt : group.runtime.lookup id = some rt)
    (hnext : ∀ {restarted : Prop} (a : TransitionEvent), a.reason = .kDelivered → a.state = .kInFlight →
      rt.retry_count = a.retry_count → a.retry_count.toNat ≤ opts.max_retry_count.toNat → a.deadline_ms = entry.deadline_ms →
      Succeeds opts restarted a event)
    (hbound : rt.retry_count.toNat ≤ opts.max_retry_count.toNat → event.state ≠ .kDead →
      event.retry_count.toNat ≤ opts.max_retry_count.toNat) : Continues opts n event := by
  subst hid
  obtain ⟨a, hlast, hs, hreason, hdl⟩ := hl.delivered hg hin
  have hle : a.retry_count.toNat ≤ opts.max_retry_count.toNat :=
    ha.bound a (lastEvent_mem hlast).1 (by rw [hs]; simp)
  have hretry : ∀ i, LastAt n.log event.id i a → rt.retry_count = a.retry_count := fun i hi =>
    (ha.memory group hg event.id rt hrt i a hi).retry
  refine ⟨fun hnone => ?_, fun i a' hi => ?_, fun hd => ?_⟩
  · rw [hnone] at hlast
    cases hlast
  · obtain rfl : a' = a := Option.some.inj (hi.lastEvent.symm.trans hlast)
    exact hnext a' hreason hs (hretry i hi) hle hdl
  · obtain ⟨i, hi⟩ := lastAt_of_lastEvent hlast
    exact hbound (by rw [hretry i hi]; exact hle) hd

theorem Agreed.retry_le_of_ready (ha : Agreed opts n) (hg : n.group = some group) {rt : MessageRuntime}
    (hrt : group.runtime.lookup id = some rt) (hready : rt.state = .kReady)
    (hdefault : lastEvent n.log id = none → rt.IsDefault) : rt.retry_count.toNat ≤ opts.max_retry_count.toNat := by
  cases hlast : lastEvent n.log id with
  | none =>
    rw [hdefault hlast]
    exact Nat.zero_le _
  | some a =>
    obtain ⟨i, hi⟩ := lastAt_of_lastEvent hlast
    have hag := ha.memory group hg id rt hrt i a hi
    rw [hag.retry]
    apply ha.bound a (lastEvent_mem hlast).1
    rcases hag.state with ⟨hs, -⟩ | ⟨hs, -, -⟩
    · rw [← hs, hready]
      simp
    · rw [hs]
      simp

theorem Fires.continues {rules : Rules} (hr : rules.Sound) (hlt : opts.max_retry_count.toNat + 1 < 2 ^ 32) (he : Entries rules n)
    (hl : Leases n) (ha : Agreed opts n) (hg : n.group = some group) (hclock : ∃ t, ∀ c, env.now c = t)
    {read : UInt64 → StatusOr Record} (hread : ∀ o r, read o = .ok r → rules.site o r) {g : CString} {op : GroupOp}
    {event : TransitionEvent} (hf : Fires env opts g read op group event) : Continues opts n event := by
  obtain ⟨t, hclock⟩ := hclock
  cases hf with
  | timeout id entry rt hop hin hdl hrt =>
    refine .of_inflight hl ha hg (timeoutEvent_id _ _ _ _ _) hin hrt (fun a hreason hs hretry hle hdl' => ?_) fun hle hd => ?_
    · exact timeout_succeeds hlt hreason hs hretry hle (by rw [hdl']; exact hdl) _
    · unfold timeoutEvent at hd ⊢
      split at hd
      · exact absurd rfl hd
      · rename_i hmax
        rw [if_neg hmax]
        exact UInt32.not_lt.1 hmax
  | deliver id0 rt0 record rt hop hroom h0 hready havail hrec hrt =>
    obtain rfl : rt0 = rt := by
      rw [he.read_known hr hg hread h0 hrec, h0] at hrt
      exact Option.some.inj hrt
    rw [hclock] at havail
    have hok := he.memory group hg _ rt0 hrt
    refine ⟨fun hnone => ⟨rfl, ?_⟩, fun i a hi => ?_, fun _ => ha.retry_le_of_ready hg hrt hready hok.default⟩
    · change rt0.retry_count = 0
      rw [hok.default hnone]
      rfl
    · refine deliver_succeeds (ha.memory group hg _ rt0 hrt i a hi) hready ?_ (by rw [hclock]; exact havail) _ _
      exact hl.reasons a (lastEvent_mem hi.lastEvent).1
  | ack id entry rt hop hin hrt =>
    refine .of_inflight hl ha hg rfl hin hrt (fun a hreason hs hretry hle _ => ?_) fun hle _ => hle
    exact succeeds_delivery hreason hs (by simp [ackEvent]) (by simp [ackEvent]) (by simp [ackEvent]) (by simp [ackEvent])
      (by simp [ackEvent])
  | nack id requeue entry rt hop hin hrt =>
    refine .of_inflight hl ha hg (nackEvent_id _ _ _ _ _ _ _) hin hrt (fun a hreason hs hretry hle _ => ?_) fun hle hd => ?_
    · exact nack_succeeds hlt hreason hs hretry hle _ _ _ _
    · unfold nackEvent at hd ⊢
      split at hd
      · exact absurd rfl hd
      · split at hd
        · exact absurd rfl hd
        · rename_i hreq hmax
          rw [if_neg hreq, if_neg hmax]
          exact UInt32.not_lt.1 hmax

end fires

theorem restartedBetween.mono {marks more : List Nat} {i j j' : Nat} (h : restartedBetween marks i j) (hj : j ≤ j') :
    restartedBetween (marks ++ more) i j' := by
  obtain ⟨m, hm, hlt, hle⟩ := h
  exact ⟨m, List.mem_append_left _ hm, hlt, hle.trans hj⟩

/-- A load takes over the last event, and makes ready what it has in flight: the process was
killed after that event. -/
theorem Agreed.rebuilt_agrees {opts opts' : EngineOptions} {n : Node} (h : Agreed opts n) (hg : n.group = none) {env : Env}
    {base : ConsumerGroupState} {id : MessageId} {rt : MessageRuntime} {i : Nat} {event : TransitionEvent}
    (hrt : (rebuilt env opts' n.log base).runtime.lookup id = some rt) (hi : LastAt n.log id i event) :
    AgreesWith (restartedBetween n.marks i n.log.length) rt event := by
  rw [lookup_rebuilt, hi.lastEvent, Option.map_eq_some_iff] at hrt
  obtain ⟨rt0, -, rfl⟩ := hrt
  by_cases hs : event.state = .kInFlight
  · have hlen : n.log.length ∈ n.marks := (h.gap hg).resolve_left fun hnil => by
      have hmem := List.mem_of_getElem? hi.at_index
      rw [hnil] at hmem
      cases hmem
    have hlt : i < n.log.length := (List.getElem?_eq_some_iff.1 hi.at_index).1
    have heq : (rt0.restored (some event)).recovered (env.now .loadGroupState) =
        { rt0.after event with
          state := .kReady
          available_after_ms := env.now .loadGroupState
          last_transition_reason := reasonToString .kRecoveredInflightToReady
          last_transition_ts := env.now .loadGroupState } := if_pos hs
    rw [heq]
    exact ⟨rfl, .inr ⟨hs, rfl, n.log.length, hlen, hlt, Nat.le_refl _⟩⟩
  · have heq : (rt0.restored (some event)).recovered (env.now .loadGroupState) = rt0.after event := if_neg hs
    rw [heq]
    exact ⟨rfl, .inl ⟨rfl, rfl⟩⟩

/-- An event that is applied is what its message agrees with; the others stay as they are. -/
theorem Agreed.applied_agrees {opts opts' : EngineOptions} {n : Node} (h : Agreed opts n) {a : ConsumerGroupState}
    (hg : n.group = some a) {env : Env} {event e : TransitionEvent} {id : MessageId} {rt : MessageRuntime} {i : Nat}
    (hrt : (applyTransition env opts' (bump a) event).runtime.lookup id = some rt) (hi : LastAt (n.log ++ [event]) id i e) :
    AgreesWith (restartedBetween n.marks i (n.log ++ [event]).length) rt e := by
  have hlast := hi.lastEvent
  rw [lastEvent_concat] at hlast
  rw [lookup_applyTransition] at hrt
  by_cases hid : event.id = id
  · rw [if_pos hid] at hlast
    obtain rfl := Option.some.inj hlast
    rw [if_pos hid.symm] at hrt
    obtain ⟨rt0, -, rfl⟩ := Option.map_eq_some_iff.1 hrt
    exact ⟨rfl, .inl ⟨rfl, rfl⟩⟩
  · rw [if_neg (Ne.symm hid)] at hrt
    have hag := h.memory a hg id rt hrt i e (hi.of_concat hid)
    refine ⟨hag.retry, hag.state.imp_right fun ⟨hs, hs', hre⟩ => ⟨hs, hs', ?_⟩⟩
    rw [← List.append_nil n.marks]
    exact hre.mono (by rw [List.length_append]; omega)

theorem Agreed.happens {rules : Rules} {opts : EngineOptions} (hopts : ∀ opts', rules.opts opts' → opts' = opts)
    (hclock : ∀ env, rules.env env → ∃ t, ∀ c, env.now c = t) (hlt : opts.max_retry_count.toNat + 1 < 2 ^ 32) (hr : rules.Sound)
    (hq : ¬ rules.faulty) {n n' : Node} {x : Happening} (he : Entries rules n) (hl : Leases n) (h : Agreed opts n)
    (hn : Happens rules n x n') : Agreed opts n' := by
  cases hn with
  | @loaded _ env opts' messages base hg ho hsite hcov hset hpres hbase hg' hlog hmarks =>
    refine ⟨fun hnone => ?_, by rw [hlog]; exact h.bound, fun group hgroup id rt hrt i event hi => ?_,
      by rw [hlog, hmarks]; exact h.path⟩
    · rw [hg'] at hnone
      cases hnone
    · obtain rfl := Option.some.inj (hgroup.symm.trans hg')
      rw [hlog] at hi ⊢
      rw [hmarks]
      exact h.rebuilt_agrees hg hrt hi
  | @idle x _ a b hx hc htr hg hg' hlog hmarks hrt hin =>
    refine ⟨fun hnone => ?_, by rw [hlog]; exact h.bound, fun group hgroup id rt hrt' i event hi => ?_,
      by rw [hlog, hmarks]; exact h.path⟩
    · rw [hg'] at hnone
      cases hnone
    · obtain rfl := Option.some.inj (hgroup.symm.trans hg')
      rw [hrt] at hrt'
      rw [hlog] at hi ⊢
      rw [hmarks]
      exact h.memory a hg id rt hrt' i event hi
  | @fired _ env opts' read op a event hg henv ho hread hf hg' hlog hmarks =>
    obtain rfl := hopts opts' ho
    have hc := hf.continues hr hlt he hl h hg (hclock env henv) hread
    refine ⟨fun hnone => ?_, fun e hev hd => ?_, fun group hgroup id rt hrt i e hi => ?_, ?_⟩
    · rw [hg'] at hnone
      cases hnone
    · rw [hlog] at hev
      rcases List.mem_append.1 hev with hev | hev
      · exact h.bound e hev hd
      · rw [List.mem_singleton.1 hev] at hd ⊢
        exact hc.bound hd
    · obtain rfl := Option.some.inj (hgroup.symm.trans hg')
      rw [hlog] at hi ⊢
      rw [hmarks]
      exact h.applied_agrees hg hrt hi
    · rw [hlog, hmarks]
      exact h.path.concat hc.first hc.next
  | lost hfaulty => exact absurd hfaulty hq
  | crashed hg' hlog hmarks =>
    refine ⟨fun _ => .inr (by rw [hlog, hmarks]; simp), by rw [hlog]; exact h.bound, fun group hgroup => ?_, ?_⟩
    · rw [hg'] at hgroup
      cases hgroup
    · rw [hlog, hmarks]
      exact h.path.mono fun i j hre => hre.mono (Nat.le_refl _)

theorem Course.agreed {σ : Setting} {e : QueueEngine} {rs : List Frame} {fresh : Bool} {hs : List Happening} {n : Node}
    {opts : EngineOptions} (h : Course σ e rs fresh hs n) (hopts : ∀ opts', σ.opts opts' → opts' = opts)
    (hclock : ∀ env, σ.env env → ∃ t, ∀ c, env.now c = t) (hlt : opts.max_retry_count.toNat + 1 < 2 ^ 32) (hq : ¬ σ.faulty) :
    Agreed opts n := by
  refine (h.steps.invariant (P := fun _ n => Leases n ∧ Agreed opts n) h.sound ⟨⟨by simp, by simp, by simp, by simp⟩, ?_⟩
    fun he hp hn => ⟨hp.1.happens hq trivial hn, hp.2.happens hopts hclock hlt h.sound hq he hp.1 hn⟩).2
  exact ⟨fun _ => .inl rfl, by simp, by simp, ⟨by simp, by simp⟩⟩

/-! ## Runs -/

/-- What a nack that asks for a requeue attempts to log as dead. -/
theorem requeue_nack_dead {q : Path} {g : CString} {env : Env} {e : QueueEngine} {id : MessageId}
    {x : TransitionEvent × Map MessageId MessageRuntime} (hx : x ∈ opTrace q g env e (.group q g (.nack id true)))
    (hd : x.1.state = .kDead) : x.1.reason = .kConsumerNackDead ∧ e.options.max_retry_count < x.1.retry_count := by
  simp only [opTrace, and_self, if_true] at hx
  split at hx
  · cases hx
  · split at hx
    · cases hx
    · unfold groupOpTrace at hx
      dsimp only at hx
      split at hx
      · obtain rfl := List.mem_singleton.1 hx
        simp only [nackEvent, Bool.not_true, Bool.false_eq_true, if_false] at hd ⊢
        split at hd
        · rename_i hmax
          rw [if_pos hmax]
          exact ⟨rfl, hmax⟩
        · cases hd
      · cases hx

/-- In a run whose messages fit the record format the events of every message
are a path of the delivery automaton, and a nack that asks for a requeue
dead-letters a message only when its retries are used up. -/
theorem histories_are_paths (opts : EngineOptions) (hmax : opts.max_retry_count.toNat < 2 ^ 32 - 1) (q : Path) (g : CString)
    (steps : List Step) (h : Orderly opts q g steps) (hclock : ∀ s ∈ steps, ∃ t, ∀ c, s.env.now c = t) :
    (run (freshEngine opts) steps).fs.content (groupEventPath opts.data_dir q g) =
      encodeEvents (loggedEvents (run (freshEngine opts) steps) q g) ∧
    DeliveryPath opts (restartedBetween (killMarks q g (freshEngine opts) steps))
      (loggedEvents (run (freshEngine opts) steps) q g) ∧
    ∀ pre s post mid, steps = pre ++ s :: post → s.operation = .group q g (.nack mid true) →
      ∀ event ∈ (loggedEvents (step (run (freshEngine opts) pre) s) q g).drop
        (loggedEvents (run (freshEngine opts) pre) q g).length,
        event.state = .kDead → event.retry_count.toNat = opts.max_retry_count.toNat + 1 := by
  have hfollows := h.follows (P := fun env => ∃ t, ∀ c, env.now c = t) hclock
  have hstart := course_fresh opts q g fun env => ∃ t, ∀ c, env.now c = t
  refine ⟨?_, ?_, fun pre s post mid hsplit hop event hev hd => ?_⟩
  · obtain ⟨rs, hs, n, hc, -⟩ := hstart.run hfollows
    have hlog : loggedEvents (run (freshEngine opts) steps) q g = n.log := hc.loggedEvents
    rw [hlog]
    exact (Prod.mk.inj hc.tracks.files).1
  · obtain ⟨rs, hs, n, hc, -, -, -, hmarks⟩ := hstart.run hfollows
    have hmarks' : n.marks = killMarks q g (freshEngine opts) steps := hmarks
    have hlog : loggedEvents (run (freshEngine opts) steps) q g = n.log := hc.loggedEvents
    rw [hlog, ← hmarks']
    exact (hc.agreed (fun _ ho => ho) (fun _ henv => henv) (by omega) id).path
  · subst hsplit
    obtain ⟨hf1, hf2⟩ := hfollows.append
    obtain ⟨rs1, hs1, n1, hc1, -⟩ := hstart.run hf1
    obtain ⟨rs2, hs2, n2, hc2, hst2, -, htrace, -⟩ := hc1.step hf2.1
    have hlog1 : loggedEvents (run (freshEngine opts) pre) q g = n1.log := hc1.loggedEvents
    have hlog2 : loggedEvents (step (run (freshEngine opts) pre) s) q g = n2.log := hc2.loggedEvents
    have hgrow : n2.log = n1.log ++ (traceAll hs2).map Prod.fst :=
      hst2.logs id
    rw [hlog1, hlog2, hgrow, List.drop_left] at hev
    obtain ⟨x, hx, rfl⟩ := List.mem_map.1 hev
    rw [hop] at htrace
    obtain ⟨hreason, hover⟩ := requeue_nack_dead (htrace.subset hx) hd
    rw [show (run (freshEngine opts) pre).options = opts from hc1.opts] at hover
    -- The event is somewhere in the path, behind a delivery with a retry left.
    have hag := hc2.agreed (fun _ ho => ho) (fun _ henv => henv) (by omega) id
    have hmem : x.1 ∈ n2.log := by
      rw [hgrow]
      exact List.mem_append_right _ (List.mem_map_of_mem hx)
    obtain ⟨j, hj⟩ := List.getElem?_of_mem hmem
    cases hlast : lastEvent (n2.log.take j) x.1.id with
    | none =>
      have hfirst := (hag.path.starts j x.1 hj (lastEvent_none.1 hlast)).1
      rw [hreason] at hfirst
      cases hfirst
    | some a =>
      obtain ⟨i, hi⟩ := lastAt_of_lastEvent hlast
      have hsucc := hag.path.follows i j a x.1 hj hi
      rcases hsucc.rejects hreason with heq | heq
      · have hle := hag.bound a (List.mem_of_mem_take (lastEvent_mem hlast).1) hsucc.ends.2
        rw [heq, UInt32.lt_iff_toNat_lt] at hover
        omega
      · exact heq

/-- A message is delivered, and after a restart delivered again. -/
def redelivered : List Step :=
  [.op {} (.createQueue someQueue), .op {} (.produce someQueue someMessage), .op {} (.group someQueue someGroup .consume),
    .kill {} (.group someQueue someGroup .getStats) 0 {}, .op {} (.createQueue someQueue),
    .op {} (.group someQueue someGroup .consume)]

theorem everyday_redelivered : ∀ s ∈ redelivered, Everyday s := by
  simp only [redelivered, List.forall_mem_cons]
  exact ⟨.createQueue, .produce (by decide), .group, .kill .group, .createQueue, .group, List.forall_mem_nil _⟩

theorem histories_are_paths_restart :
    (loggedEvents (run (freshEngine {}) redelivered) someQueue someGroup).map (·.reason) = [.kDelivered, .kDelivered] ∧
      DeliveryPath {} (restartedBetween (killMarks someQueue someGroup (freshEngine {}) redelivered))
        (loggedEvents (run (freshEngine {}) redelivered) someQueue someGroup) := by
  have horderly : Orderly {} someQueue someGroup redelivered :=
    orderly_of_everyday everyday_redelivered (by decide +kernel) (by simp [redelivered, Step.operation, Step.kills])
  refine ⟨by decide +kernel, (histories_are_paths {} (by decide) someQueue someGroup redelivered horderly fun s hs => ?_).2.1⟩
  exact ⟨0, fun _ => by rw [(everyday_redelivered s hs).operation.1]⟩

end PomaiQueue.Engine
