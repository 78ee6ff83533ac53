import PomaiQueue.Lib.LeaseQueue
import PomaiQueue.Consume
import PomaiQueue.Counts
import PomaiQueue.PointInTime
/-!
# A group as a queue with leases

What a group in memory is of the abstract queue (`LeaseQueue`): the line is the
messages it has entries for, in the order of their offsets, and the place of a message
is its runtime entry with the deadline of its inflight entry (`Carries`). Event log,
snapshot, timer wheel and segment do not show in it.

`groupOp_serves`: when nothing fails, `Consume`, `Ack`, `Nack` and `GetStats` on the
group are the operations of the abstract queue, with its answers. The events an operation
logs are its moves, one by one (`Writes`), so that what is left of an operation that is
cut short is a first part of the moves.
-/

namespace PomaiQueue.Engine

open Wire Posix Assoc Storage

/-! ## Places -/

abbrev Spot := LeaseQueue.Place UInt64 UInt32

def EngineOptions.policy (opts : EngineOptions) : LeaseQueue.Policy UInt64 UInt32 where
  lease t := t + opts.visibility_timeout.toUInt64
  backoff t := t + opts.retry_backoff.toUInt64
  next count := count + 1
  spent count := opts.max_retry_count < count
  room := opts.max_inflight.toNat

def Env.readings (env : Env) : LeaseQueue.Reading → UInt64
  | .opening => env.now .loadGroupState
  | .expiry => env.now .reapExpiredInflight
  | .look => env.now .buildReadyQueue
  | .lease => env.now .consume
  | .backoff => env.now .nackBackoff

def statusOf (state : MessageState) (available_after_ms : UInt64) : LeaseQueue.Status UInt64 :=
  match state with
  | .kReady => .ready available_after_ms
  | .kInFlight => .leased
  | .kAcked => .acked
  | .kDead => .dead

/-- The place of a message with this entry and the deadline of its lease. -/
def placeOf (rt : MessageRuntime) (deadline : Option UInt64) : Spot :=
  ⟨statusOf rt.state rt.available_after_ms, deadline, rt.retry_count⟩

/-- The place of a message after an event. -/
def placeAfter (event : TransitionEvent) : Spot :=
  ⟨statusOf event.state event.available_after_ms, if event.state = .kInFlight then some event.deadline_ms else none,
    event.retry_count⟩

def newPlace : Spot := ⟨.ready 0, none, 0⟩

/-- The place of a message by the log. -/
def placeLogged (log : List TransitionEvent) (id : MessageId) : Spot :=
  match lastEvent log id with
  | none => newPlace
  | some event => placeAfter event

theorem placeLogged_concat (log : List TransitionEvent) (event : TransitionEvent) (id : MessageId) :
    placeLogged (log ++ [event]) id = if event.id = id then placeAfter event else placeLogged log id := by
  rw [placeLogged, lastEvent_concat]
  split_ifs with h
  · rfl
  · rfl

/-- The place by the log is the one in memory, but for a leased message that
was found ready again. -/
structure Recalls (logged p : Spot) : Prop where
  lease : logged.lease = p.lease
  count : logged.count = p.count
  status : p.lease = none → logged.status = p.status

theorem Recalls.refl (p : Spot) : Recalls p p := ⟨rfl, rfl, fun _ => rfl⟩

/-- A message that is not leased is where the log says. -/
theorem Recalls.eq {logged p : Spot} (h : Recalls logged p) (hnone : logged.lease = none) : p = logged := by
  have hlease : p.lease = none := h.lease ▸ hnone
  obtain ⟨status, lease, count⟩ := p
  obtain ⟨status', lease', count'⟩ := logged
  have h1 : lease' = lease := h.lease
  have h2 : count' = count := h.count
  have h3 : status' = status := h.status hlease
  rw [h1, h2, h3]

theorem Recalls.reopened_eq {logged p : Spot} (h : Recalls logged p) {deadline : UInt64} (hsome : logged.lease = some deadline)
    (now : UInt64) : p.reopened now = ⟨.ready now, some deadline, logged.count⟩ := by
  have hlease : p.lease = some deadline := h.lease ▸ hsome
  rw [LeaseQueue.Place.reopened, hlease, h.count]
  exact if_pos rfl

theorem Recalls.reopened {logged p : Spot} (h : Recalls logged p) (now : UInt64) : Recalls logged (p.reopened now) := by
  unfold LeaseQueue.Place.reopened
  split_ifs with hlease
  · refine ⟨h.lease, h.count, fun hnone => ?_⟩
    rw [show p.lease = none from hnone] at hlease
    cases hlease
  · exact h

/-! ## Events are moves -/

section events

variable (opts : EngineOptions) (env : Env) (id : MessageId) (rt : MessageRuntime) (sequence : UInt64) (deadline : Option UInt64)

theorem placeAfter_timeout :
    placeAfter (timeoutEvent opts (env.now .reapExpiredInflight) sequence id rt) =
      (placeOf rt deadline).moved opts.policy env.readings (.expire id) := by
  by_cases h : opts.max_retry_count < rt.retry_count + 1
  · simp [timeoutEvent, placeAfter, LeaseQueue.Place.moved, LeaseQueue.Place.retried, placeOf, EngineOptions.policy, h, statusOf]
  · simp [timeoutEvent, placeAfter, LeaseQueue.Place.moved, LeaseQueue.Place.retried, placeOf, EngineOptions.policy, h, statusOf,
      Env.readings]

theorem placeAfter_deliver (g : CString) :
    placeAfter (deliverEvent opts g (env.now .consume) sequence id rt) =
      (placeOf rt deadline).moved opts.policy env.readings (.lease id) := rfl

theorem placeAfter_ack (now : UInt64) :
    placeAfter (ackEvent now sequence id rt) = (placeOf rt deadline).moved opts.policy env.readings (.ack id) := rfl

theorem placeAfter_nack (requeue : Bool) :
    placeAfter (nackEvent opts (env.now .nack) (env.now .nackBackoff) sequence id rt requeue) =
      (placeOf rt deadline).moved opts.policy env.readings (.nack id requeue) := by
  cases requeue with
  | false => rfl
  | true =>
    by_cases h : opts.max_retry_count < rt.retry_count + 1
    · simp [nackEvent, placeAfter, LeaseQueue.Place.moved, LeaseQueue.Place.retried, placeOf, EngineOptions.policy, h, statusOf]
    · simp [nackEvent, placeAfter, LeaseQueue.Place.moved, LeaseQueue.Place.retried, placeOf, EngineOptions.policy, h, statusOf,
        Env.readings]

end events

/-- The events write down the moves. -/
inductive Writes (opts : EngineOptions) (env : Env) :
    (MessageId → Spot) → List TransitionEvent → List (LeaseQueue.Move MessageId) → Prop
  | nil {place} : Writes opts env place [] []
  | cons {place event events x xs} (hid : event.id = x.key) (h : placeAfter event = (place x.key).moved opts.policy env.readings x)
      (hrest : Writes opts env (LeaseQueue.move opts.policy env.readings place x) events xs) :
      Writes opts env place (event :: events) (x :: xs)

section writes

variable {opts : EngineOptions} {env : Env} {place : MessageId → Spot}

theorem Writes.one {event : TransitionEvent} {x : LeaseQueue.Move MessageId} (hid : event.id = x.key)
    (h : placeAfter event = (place x.key).moved opts.policy env.readings x) : Writes opts env place [event] [x] := .cons hid h .nil

theorem Writes.append {events events' : List TransitionEvent} {xs xs' : List (LeaseQueue.Move MessageId)}
    (h : Writes opts env place events xs)
    (h' : Writes opts env (LeaseQueue.moves opts.policy env.readings place xs) events' xs') :
    Writes opts env place (events ++ events') (xs ++ xs') := by
  induction h with
  | nil => exact h'
  | cons hid hx _ ih => exact .cons hid hx (ih h')

/-- The first events write down the first moves. -/
theorem Writes.front {events part : List TransitionEvent} {xs : List (LeaseQueue.Move MessageId)}
    (h : Writes opts env place events xs) (hp : part <+: events) : ∃ ys, ys <+: xs ∧ Writes opts env place part ys := by
  induction h generalizing part with
  | nil =>
    obtain rfl := List.prefix_nil.1 hp
    exact ⟨[], List.prefix_rfl, .nil⟩
  | @cons place event events x xs hid hx _ ih =>
    rcases List.prefix_cons_iff.1 hp with rfl | ⟨part', rfl, hp'⟩
    · exact ⟨[], List.nil_prefix, .nil⟩
    · obtain ⟨ys, hys, hw⟩ := ih hp'
      exact ⟨x :: ys, List.cons_prefix_cons.2 ⟨rfl, hys⟩, .cons hid hx hw⟩

/-- The log with the events recalls the places after the moves. -/
theorem Writes.recalls {log events : List TransitionEvent} {xs : List (LeaseQueue.Move MessageId)}
    (h : Writes opts env place events xs) (hlog : ∀ id, Recalls (placeLogged log id) (place id)) (id : MessageId) :
    Recalls (placeLogged (log ++ events) id) (LeaseQueue.moves opts.policy env.readings place xs id) := by
  induction h generalizing log with
  | nil =>
    rw [List.append_nil]
    exact hlog id
  | @cons place event events x xs hid hx _ ih =>
    rw [List.append_cons]
    refine ih fun id' => ?_
    rw [placeLogged_concat, LeaseQueue.move, ← hid]
    by_cases heq : event.id = id'
    · subst heq
      rw [if_pos rfl, Function.update_self, hid, hx]
      exact .refl _
    · rw [if_neg heq, Function.update_of_ne (Ne.symm heq)]
      exact hlog id'

end writes

/-! ## Groups -/

/-- The group has the messages of the line, where `place` says. -/
structure Carries (ms : List Message) (place : MessageId → Spot) (group : ConsumerGroupState) : Prop where
  known : ∀ id rt, group.runtime.lookup id = some rt → ∃ m, ms[rt.offset.toNat]? = some m ∧ m.id = id ∧
    placeOf rt ((group.inflight.lookup id).map (·.deadline_ms)) = place id
  entry : ∀ m ∈ ms, ∃ rt, group.runtime.lookup m.id = some rt
  unknown : ∀ id, group.runtime.lookup id = none → group.inflight.lookup id = none ∧ (place id).lease = none

section carries

variable {ms : List Message} {place : MessageId → Spot} {a b : ConsumerGroupState}

theorem Carries.same (h : Carries ms place a) (hrt : b.runtime = a.runtime)
    (hin : ∀ id, b.inflight.lookup id = a.inflight.lookup id) : Carries ms place b where
  known id rt hlook := by
    rw [hin]
    exact h.known id rt (by rw [← hrt]; exact hlook)
  entry := by
    rw [hrt]
    exact h.entry
  unknown id hnone := by
    rw [hin]
    exact h.unknown id (by rw [← hrt]; exact hnone)

/-- The lease of a message. -/
theorem Carries.lease (h : Carries ms place a) (id : MessageId) :
    (place id).lease = (a.inflight.lookup id).map (·.deadline_ms) := by
  cases hrt : a.runtime.lookup id with
  | none =>
    obtain ⟨hin, hplace⟩ := h.unknown id hrt
    rw [hin, hplace]
    rfl
  | some rt =>
    obtain ⟨m, -, -, hplace⟩ := h.known id rt hrt
    rw [← hplace]
    rfl

/-- An event of a message of the line. -/
theorem Carries.apply (h : Carries ms place a) (env : Env) (opts : EngineOptions) {event : TransitionEvent} {rt : MessageRuntime}
    (hrt : a.runtime.lookup event.id = some rt) :
    Carries ms (Function.update place event.id (placeAfter event)) (applyTransition env opts (bump a) event) where
  known id rt' hlook := by
    rw [lookup_applyTransition] at hlook
    by_cases hid : id = event.id
    · subst hid
      rw [if_pos rfl, show (bump a).runtime.lookup event.id = some rt from hrt] at hlook
      obtain rfl := Option.some.inj hlook
      obtain ⟨m, hm, hmid, -⟩ := h.known _ rt hrt
      refine ⟨m, hm, hmid, ?_⟩
      rw [Function.update_self, inflight_applyTransition_self env opts (bump a) event hrt]
      unfold placeAfter
      split_ifs with hs
      · rfl
      · rfl
    · rw [if_neg hid] at hlook
      rw [Function.update_of_ne hid, inflight_applyTransition_ne env opts (bump a) event hid]
      exact h.known id rt' hlook
  entry m hm := by
    obtain ⟨rt', hrt'⟩ := h.entry m hm
    rw [lookup_applyTransition, show (bump a).runtime = a.runtime from rfl, hrt']
    split_ifs
    · exact ⟨_, rfl⟩
    · exact ⟨rt', rfl⟩
  unknown id hnone := by
    rw [lookup_applyTransition] at hnone
    by_cases hid : id = event.id
    · subst hid
      rw [if_pos rfl, show (bump a).runtime.lookup event.id = some rt from hrt] at hnone
      cases hnone
    · rw [if_neg hid] at hnone
      rw [Function.update_of_ne hid, inflight_applyTransition_ne env opts (bump a) event hid]
      exact h.unknown id hnone

/-- An event that writes down a move. -/
theorem Carries.move (h : Carries ms place a) {env : Env} {opts : EngineOptions} {event : TransitionEvent} {rt : MessageRuntime}
    (hrt : a.runtime.lookup event.id = some rt) {x : LeaseQueue.Move MessageId} (hid : event.id = x.key)
    (hx : placeAfter event = (place x.key).moved opts.policy env.readings x) :
    Carries ms (LeaseQueue.move opts.policy env.readings place x) (applyTransition env opts (bump a) event) := by
  rw [LeaseQueue.move, ← hx, ← hid]
  exact h.apply env opts hrt

/-! ## Counting -/

theorem Carries.keys (h : Carries ms place a) (hn : (ms.map (·.id)).Nodup) : a.runtime.keys.Perm (ms.map (·.id)) := by
  refine (List.perm_ext_iff_of_nodup a.runtime.keys_nodup hn).2 fun id => ?_
  rw [mem_keys_iff, List.mem_map]
  constructor
  · rintro ⟨rt, hrt⟩
    obtain ⟨m, hm, hid, -⟩ := h.known id rt hrt
    exact ⟨m, List.mem_of_getElem? hm, hid⟩
  · rintro ⟨m, hm, rfl⟩
    exact h.entry m hm

/-- A message of the line has the entry with its offset. -/
theorem Carries.offset (h : Carries ms place a) (hn : (ms.map (·.id)).Nodup) {j : Nat} {m : Message} (hm : ms[j]? = some m)
    {rt : MessageRuntime} (hrt : a.runtime.lookup m.id = some rt) : rt.offset.toNat = j := by
  obtain ⟨m', hm', hid, -⟩ := h.known m.id rt hrt
  have hj : j < (ms.map (·.id)).length := by
    rw [List.length_map]
    exact (List.getElem?_eq_some_iff.1 hm).1
  apply Eq.symm
  apply (List.getElem?_inj hj hn).1
  rw [List.getElem?_map, List.getElem?_map, hm, hm', Option.map_some, Option.map_some, hid]

theorem Carries.held (h : Carries ms place a) (hn : (ms.map (·.id)).Nodup) :
    a.inflight.entries.length = LeaseQueue.held (·.id) ms place := by
  have hperm : a.inflight.keys.Perm ((ms.filter fun m => (place m.id).lease.isSome).map (·.id)) := by
    have hnodup : ((ms.filter fun m => (place m.id).lease.isSome).map (·.id)).Nodup := hn.sublist (List.filter_sublist.map _)
    refine (List.perm_ext_iff_of_nodup a.inflight.keys_nodup hnodup).2 fun id => ?_
    have hlease := h.lease id
    rw [mem_keys_iff, List.mem_map]
    constructor
    · rintro ⟨entry, hentry⟩
      rw [hentry] at hlease
      cases hrt : a.runtime.lookup id with
      | none =>
        rw [(h.unknown id hrt).1] at hentry
        cases hentry
      | some rt =>
        obtain ⟨m, hm, rfl, -⟩ := h.known id rt hrt
        exact ⟨m, List.mem_filter.2 ⟨List.mem_of_getElem? hm, by rw [hlease]; rfl⟩, rfl⟩
    · rintro ⟨m, hm, rfl⟩
      have hsome := (List.mem_filter.1 hm).2
      rw [hlease, Option.isSome_map] at hsome
      exact Option.isSome_iff_exists.1 hsome
  have hlen := hperm.length_eq
  rw [List.length_map, ← List.countP_eq_length_filter] at hlen
  rw [LeaseQueue.held, ← hlen]
  exact (List.length_map _).symm

theorem Carries.count (h : Carries ms place a) (hn : (ms.map (·.id)).Nodup) (s : MessageState)
    {p : LeaseQueue.Status UInt64 → Bool} (hp : ∀ state t, p (statusOf state t) = decide (state = s)) :
    a.runtime.entries.countP (·.2.state = s) = LeaseQueue.tally (·.id) ms place p := by
  have hkeys : a.runtime.keys.countP (fun id => p (place id).status) = LeaseQueue.tally (·.id) ms place p := by
    rw [(h.keys hn).countP_eq, List.countP_map]
    rfl
  rw [← hkeys, AList.keys, List.keys, List.countP_map]
  apply List.countP_congr
  rintro ⟨id, rt⟩ hmem
  obtain ⟨m, -, -, hplace⟩ := h.known id rt ((mem_entries_iff _ _ _).1 hmem)
  rw [Function.comp_apply, ← hplace, placeOf, hp]

end carries

/-! ## Reaping -/

/-- Reaping is the expiry of leases. -/
theorem Moves.expires {env : Env} (hq : env.toIo.Quiet) {opts : EngineOptions} {g : CString} {err : Failure}
    {a b : ConsumerGroupState} {labels : List Label}
    (h : Moves (¬ env.toIo.Quiet) env opts g (fun _ => .error err) .getStats a labels b) {ms : List Message}
    {place : MessageId → Spot} (hc : Carries ms place a) :
    ∃ xs, LeaseQueue.Expires opts.policy env.readings place xs ∧ Writes opts env place ((traceOf labels).map (·.1)) xs ∧
      Carries ms (LeaseQueue.moves opts.policy env.readings place xs) b := by
  induction h generalizing place with
  | nil => exact ⟨[], .nil, .nil, hc⟩
  | @cons a b c l labels hm _ ih =>
    cases hm with
    | sched hs =>
      obtain ⟨xs, he, hw, hc'⟩ := ih (hc.same hs.runtime fun id => by rw [hs.inflight])
      exact ⟨xs, he, hw, hc'⟩
    | forget id hnone =>
      refine ih (hc.same rfl fun id' => ?_)
      by_cases hid : id' = id
      · subst hid
        exact (AList.lookup_erase _ _).trans (hc.unknown _ hnone).1.symm
      · exact AList.lookup_erase_ne hid
    | meet id0 rt0 record rt h0 hread hnone hrt => cases hread
    | lose hf _ => exact absurd hq hf
    | skip hf _ => exact absurd hq hf
    | persist => exact ih hc
    | fire hf =>
      cases hf with
      | deliver id0 rt0 record rt hop => cases hop
      | ack id entry rt hop => cases hop
      | nack id requeue entry rt hop => cases hop
      | timeout id entry rt hop hin hdl hrt =>
        obtain ⟨m, -, -, hplace⟩ := hc.known id rt hrt
        have hx : placeAfter (timeoutEvent opts (env.now .reapExpiredInflight) a.next_sequence id rt) =
            (place id).moved opts.policy env.readings (.expire id) := by
          rw [← hplace]
          exact placeAfter_timeout opts env id rt _ _
        have hid := timeoutEvent_id opts (env.now .reapExpiredInflight) a.next_sequence id rt
        have hlook : a.runtime.lookup (timeoutEvent opts (env.now .reapExpiredInflight) a.next_sequence id rt).id = some rt := by
          rw [hid]
          exact hrt
        obtain ⟨xs, he, hw, hc'⟩ := ih (hc.move (x := .expire id) hlook hid hx)
        have hlease : (place id).lease = some entry.deadline_ms := by
          rw [hc.lease, hin]
          rfl
        exact ⟨.expire id :: xs, .cons hlease hdl he, .cons hid hx hw, hc'⟩

section operations

variable {env : Env} {opts : EngineOptions} {q : Path} {g : CString} {ms : List Message} {place : MessageId → Spot}
  {group : ConsumerGroupState} {fs : Fs}

theorem reapExpiredInflight_expires (hq : env.toIo.Quiet) (hc : Carries ms place group) :
    ∃ xs, LeaseQueue.Expires opts.policy env.readings place xs ∧
      Writes opts env place ((reapTrace env opts q g group fs).map (·.1)) xs ∧
      Carries ms (LeaseQueue.moves opts.policy env.readings place xs) (reapExpiredInflight env opts q g group fs).1 := by
  obtain ⟨labels, hdoes, htrace⟩ : Does env opts q g (fun _ => queueNotFound) .getStats group fs _ _ _ :=
    reapExpiredInflight_does (.inr rfl) group fs
  rw [← htrace]
  exact hdoes.moves.expires hq hc

/-! ## The answers -/

def GroupOp.asked : GroupOp → LeaseQueue.Op MessageId
  | .consume => .take
  | .ack id => .ack id
  | .nack id requeue => .nack id requeue
  | .getStats => .count

/-- The answer of the abstract queue that a reply is. -/
def answerOf : StatusOr Reply → Option (LeaseQueue.Answer Message UInt32)
  | .ok (.consumed none) => some .nothing
  | .ok (.consumed (some r)) => some (.taken r.offset.toNat r.message r.delivery_count)
  | .ok .done => some .done
  | .ok (.stats s) => some (.counts s.ready_count.toNat s.inflight_count.toNat s.acked_count.toNat s.dead_count.toNat)
  | .error (.status .kNotFound message) => if message = "inflight not found" then some .unleased else none
  | _ => none

/-- The operation is one of the abstract queue, and the events it logs are its moves. -/
def Acts (env : Env) (opts : EngineOptions) (ms : List Message) (place : MessageId → Spot) (op : GroupOp)
    (reply : StatusOr Reply) (events : List TransitionEvent) (group' : ConsumerGroupState) : Prop :=
  ∃ answer xs, LeaseQueue.Serves (·.id) (fun m r => r.Same m) opts.policy env.readings ms place op.asked answer xs ∧
    answerOf reply = some answer ∧ Writes opts env place events xs ∧
    Carries ms (LeaseQueue.moves opts.policy env.readings place xs) group'

/-! ## `Ack` and `Nack` -/

/-- An answer for a message that is not leased. -/
theorem Carries.unleased (hc : Carries ms place group) {id : MessageId} (hin : group.inflight.lookup id = none) :
    (place id).lease = none := by
  rw [hc.lease, hin]
  rfl

/-- A message that is leased. -/
theorem Carries.leased (hc : Carries ms place group) {id : MessageId} {entry : InflightEntry}
    (hin : group.inflight.lookup id = some entry) :
    (place id).lease.isSome ∧ ∃ rt, group.runtime.lookup id = some rt ∧ placeOf rt (some entry.deadline_ms) = place id := by
  refine ⟨by rw [hc.lease, hin]; rfl, ?_⟩
  cases hrt : group.runtime.lookup id with
  | none =>
    rw [(hc.unknown id hrt).1] at hin
    cases hin
  | some rt =>
    obtain ⟨m, -, -, hplace⟩ := hc.known id rt hrt
    rw [hin] at hplace
    exact ⟨rt, rfl, hplace⟩

theorem ackGroup_acts (hq : env.toIo.Quiet) (hc : Carries ms place group) (id : MessageId) (segment : SegmentLog) :
    Acts env opts ms place (.ack id) (groupOp env opts q g (.ack id) segment group fs).1
      ((groupOpTrace env opts q g (.ack id) segment group fs).map (·.1)) (groupOp env opts q g (.ack id) segment group fs).2.1 := by
  cases hin : group.inflight.lookup id with
  | none =>
    refine ⟨.unleased, [], .unacked (hc.unleased hin), ?_, ?_, ?_⟩
    · simp only [groupOp, ackGroup, hin]
      rfl
    · simp only [groupOpTrace, hin]
      exact .nil
    · simp only [groupOp, ackGroup, hin]
      exact hc
  | some entry =>
    obtain ⟨hlease, rt, hrt, hplace⟩ := hc.leased hin
    have hp : env.failpoint ≠ some .before_ack_transition := by
      rw [hq.failpoint]
      simp
    have hx : placeAfter (ackEvent (env.now .ack) group.next_sequence id rt) =
        (place id).moved opts.policy env.readings (.ack id) := by
      rw [← hplace]
      exact placeAfter_ack opts env id rt _ _ _
    obtain ⟨group', hgroup', heq⟩ := commit_quiet hq opts q g (bump group) (ackEvent (env.now .ack) group.next_sequence id rt) false fs
    refine ⟨.done, [.ack id], .acked hlease, ?_, ?_, ?_⟩
    · simp only [groupOp, ackGroup, hin, hrt, if_neg hp, heq]
      rfl
    · simp only [groupOpTrace, hin, hrt]
      exact .one rfl hx
    · simp only [groupOp, ackGroup, hin, hrt, if_neg hp, heq, hgroup']
      exact hc.move (x := .ack id) hrt rfl hx

theorem nackGroup_acts (hq : env.toIo.Quiet) (hc : Carries ms place group) (id : MessageId) (requeue : Bool) (segment : SegmentLog) :
    Acts env opts ms place (.nack id requeue) (groupOp env opts q g (.nack id requeue) segment group fs).1
      ((groupOpTrace env opts q g (.nack id requeue) segment group fs).map (·.1))
      (groupOp env opts q g (.nack id requeue) segment group fs).2.1 := by
  cases hin : group.inflight.lookup id with
  | none =>
    refine ⟨.unleased, [], .unnacked (hc.unleased hin), ?_, ?_, ?_⟩
    · simp only [groupOp, nackGroup, hin]
      rfl
    · simp only [groupOpTrace, hin]
      exact .nil
    · simp only [groupOp, nackGroup, hin]
      exact hc
  | some entry =>
    obtain ⟨hlease, rt, hrt, hplace⟩ := hc.leased hin
    have hp : ¬ ((nackEvent opts (env.now .nack) (env.now .nackBackoff) group.next_sequence id rt requeue).state = .kDead ∧
        env.failpoint = some .before_dlq_move) := by
      rw [hq.failpoint]
      simp
    have hx : placeAfter (nackEvent opts (env.now .nack) (env.now .nackBackoff) group.next_sequence id rt requeue) =
        (place id).moved opts.policy env.readings (.nack id requeue) := by
      rw [← hplace]
      exact placeAfter_nack opts env id rt _ _ requeue
    have hid := nackEvent_id opts (env.now .nack) (env.now .nackBackoff) group.next_sequence id rt requeue
    obtain ⟨group', hgroup', heq⟩ := commit_quiet hq opts q g (bump group)
      (nackEvent opts (env.now .nack) (env.now .nackBackoff) group.next_sequence id rt requeue) true fs
    refine ⟨.done, [.nack id requeue], .nacked hlease, ?_, ?_, ?_⟩
    · simp only [groupOp, nackGroup, hin, hrt, if_neg hp, heq]
      rfl
    · simp only [groupOpTrace, hin, hrt]
      exact .one hid hx
    · simp only [groupOp, nackGroup, hin, hrt, if_neg hp, heq, hgroup', if_true]
      have hmoved := hc.move (x := .nack id requeue) (by rw [hid]; exact hrt) hid hx
      exact hmoved.same rfl fun _ => rfl

/-! ## `GetStats` -/

theorem countItem_fst (items : List Item) (acc : QueueStats × UInt64) :
    (items.foldl countItem acc).1 = items.foldl tallyItem acc.1 := by
  induction items generalizing acc with
  | nil => rfl
  | cons item items ih =>
    rw [List.foldl_cons, List.foldl_cons, ih]
    cases hs : item.2.state <;> simp [countItem, tallyItem, hs]

/-- The counts of `GetStats`. -/
theorem answerOf_groupStats (env : Env) (group : ConsumerGroupState) :
    answerOf (.ok (.stats (groupStats env group))) = answerOf (.ok (.stats (tally group.runtime))) := by
  have hcount : ((env.runtime_order.order group.runtime.entries).foldl countItem ({}, 0)).1 = tally group.runtime := by
    rw [countItem_fst]
    exact tally_order env.runtime_order group.runtime
  unfold groupStats
  generalize (env.runtime_order.order group.runtime.entries).foldl countItem ({}, 0) = counted at hcount
  obtain ⟨stats, oldest_ts⟩ := counted
  have hstats : stats = tally group.runtime := hcount
  subst hstats
  dsimp only
  split_ifs
  · rfl
  · rfl

theorem Carries.counts (hc : Carries ms place group) (hn : (ms.map (·.id)).Nodup) (hlen : ms.length < 2 ^ 64) :
    answerOf (.ok (.stats (tally group.runtime))) = some (.counts (LeaseQueue.tally (·.id) ms place LeaseQueue.Status.isReady)
      (LeaseQueue.tally (·.id) ms place LeaseQueue.Status.isLeased) (LeaseQueue.tally (·.id) ms place LeaseQueue.Status.isAcked)
      (LeaseQueue.tally (·.id) ms place LeaseQueue.Status.isDead)) := by
  have hsmall : ∀ p : LeaseQueue.Status UInt64 → Bool,
      (UInt64.ofNat (LeaseQueue.tally (·.id) ms place p)).toNat = LeaseQueue.tally (·.id) ms place p := by
    intro p
    have hle : LeaseQueue.tally (·.id) ms place p ≤ ms.length := List.countP_le_length
    rw [UInt64.toNat_ofNat']
    exact Nat.mod_eq_of_lt (by omega)
  simp only [answerOf, tally]
  rw [hc.count hn .kReady (p := LeaseQueue.Status.isReady) (by intro state t; cases state <;> rfl),
    hc.count hn .kInFlight (p := LeaseQueue.Status.isLeased) (by intro state t; cases state <;> rfl),
    hc.count hn .kAcked (p := LeaseQueue.Status.isAcked) (by intro state t; cases state <;> rfl),
    hc.count hn .kDead (p := LeaseQueue.Status.isDead) (by intro state t; cases state <;> rfl), hsmall, hsmall, hsmall, hsmall]

theorem getStats_acts (hq : env.toIo.Quiet) (hc : Carries ms place group) (hn : (ms.map (·.id)).Nodup) (hlen : ms.length < 2 ^ 64)
    (segment : SegmentLog) :
    Acts env opts ms place .getStats (groupOp env opts q g .getStats segment group fs).1
      ((groupOpTrace env opts q g .getStats segment group fs).map (·.1)) (groupOp env opts q g .getStats segment group fs).2.1 := by
  obtain ⟨xs, he, hw, hc'⟩ := reapExpiredInflight_expires (q := q) (g := g) hq hc
  refine ⟨_, xs, .counted he, ?_, hw, hc'⟩
  rw [← hc'.counts hn hlen, ← answerOf_groupStats env]
  rfl

/-! ## `Consume` -/

/-- The records of the line can be read. -/
def Readable (segment : SegmentLog) (fs : Fs) (ms : List Message) : Prop :=
  ∀ (i : Nat) (m : Message), ms[i]? = some m →
    ∃ record, segment.read fs (UInt64.ofNat i) = .ok record ∧ idOf record = m.id ∧ (consumedMessage record).Same m

theorem deliverable_iff (env : Env) (rt : MessageRuntime) (deadline : Option UInt64) :
    LeaseQueue.Deliverable env.readings (placeOf rt deadline) ↔ Deliverable env rt := by
  unfold LeaseQueue.Deliverable Deliverable placeOf
  cases hs : rt.state with
  | kReady =>
    constructor
    · rintro ⟨t, ht, hle⟩
      cases ht
      exact ⟨rfl, hle⟩
    · rintro ⟨-, hle⟩
      exact ⟨rt.available_after_ms, rfl, hle⟩
  | kInFlight | kAcked | kDead => simp [statusOf]

/-- A message of the line that can be delivered. -/
theorem Carries.deliverable (hc : Carries ms place group) {m : Message} (hm : m ∈ ms)
    (hd : LeaseQueue.Deliverable env.readings (place m.id)) : ∃ rt, group.runtime.lookup m.id = some rt ∧ Deliverable env rt := by
  obtain ⟨rt, hrt⟩ := hc.entry m hm
  obtain ⟨m', -, -, hplace⟩ := hc.known m.id rt hrt
  rw [← hplace, deliverable_iff] at hd
  exact ⟨rt, hrt, hd⟩

/-- The message that `Consume` takes after reaping. -/
theorem Carries.takes (hc : Carries ms place group) (hn : (ms.map (·.id)).Nodup) {segment : SegmentLog}
    (hread : Readable segment fs ms) (hroom : ¬ opts.max_inflight.toNat ≤ group.inflight.entries.length)
    {offset : UInt64} {offsets : List UInt64} (hoff : group.ready_offsets = offset :: offsets)
    (hready : ∃ group', group = buildReadyQueue env group') :
    ∃ record rt m, segment.read fs offset = .ok record ∧ rt.offset = offset ∧ group.runtime.lookup (idOf record) = some rt ∧
      idOf record = m.id ∧ ms[offset.toNat]? = some m ∧ (consumedMessage record).Same m ∧
      placeOf rt ((group.inflight.lookup m.id).map (·.deadline_ms)) = place m.id ∧
      LeaseQueue.held (·.id) ms place < opts.policy.room ∧ LeaseQueue.Deliverable env.readings (place m.id) ∧
      ∀ j < offset.toNat, ∀ m', ms[j]? = some m' → ¬ LeaseQueue.Deliverable env.readings (place m'.id) := by
  obtain ⟨unsorted, rfl⟩ := hready
  obtain ⟨⟨id, rt, hrt, hd, rfl⟩, hleast⟩ := buildReadyQueue_head hoff
  obtain ⟨m, hm, rfl, hplace⟩ := hc.known id rt hrt
  obtain ⟨record, hrec, hid, hsame⟩ := hread _ m hm
  rw [UInt64.ofNat_toNat] at hrec
  refine ⟨record, rt, m, hrec, rfl, by rw [hid]; exact hrt, hid, hm, hsame, hplace, ?_, ?_, ?_⟩
  · rw [← hc.held hn]
    exact Nat.lt_of_not_le hroom
  · rw [← hplace, deliverable_iff]
    exact hd
  · intro j hj m' hm' hd'
    obtain ⟨rt', hrt', hdel⟩ := hc.deliverable (List.mem_of_getElem? hm') hd'
    have hle : rt.offset ≤ rt'.offset := hleast m'.id rt' hrt' hdel
    have hj' := hc.offset hn hm' hrt'
    rw [UInt64.le_iff_toNat_le] at hle
    omega

theorem consumeGroup_acts (hq : env.toIo.Quiet) (hc : Carries ms place group) (hn : (ms.map (·.id)).Nodup) {segment : SegmentLog}
    (hread : Readable segment fs ms) (hseg : Aside (groupFiles opts.data_dir q g) segment.path) :
    Acts env opts ms place .consume (groupOp env opts q g .consume segment group fs).1
      ((groupOpTrace env opts q g .consume segment group fs).map (·.1)) (groupOp env opts q g .consume segment group fs).2.1 := by
  obtain ⟨xs, he, hw, hc1⟩ := reapExpiredInflight_expires (q := q) (g := g) hq hc
  -- Reaping leaves the segment alone.
  have hread1 : Readable segment (reapExpiredInflight env opts q g group fs).2 ms := by
    obtain ⟨labels, hdoes, -⟩ : Does env opts q g (segment.read fs) .getStats group fs _ _ _ :=
      reapExpiredInflight_does (.inr rfl) group fs
    have hsame : segment.read (reapExpiredInflight env opts q g group fs).2 = segment.read fs := by
      apply SegmentLog.read_congr
      rw [Fs.content, hdoes.disk_aside hseg, Fs.content]
    unfold Readable
    rw [hsame]
    exact hread
  have hready := reaped_ready env opts q g group fs
  change ∃ answer xs, _ ∧ answerOf ((consumeGroup env opts q g segment group fs).1.map .consumed) = _ ∧ _ ∧
    Carries _ _ (consumeGroup env opts q g segment group fs).2.1
  simp only [consumeGroup, groupOpTrace]
  generalize reapExpiredInflight env opts q g group fs = reaped at *
  obtain ⟨group1, fs1⟩ := reaped
  dsimp only at hc1 hread1 hready ⊢
  by_cases hroom : opts.max_inflight.toNat ≤ group1.inflight.entries.length
  · rw [if_pos hroom, if_pos hroom, List.append_nil]
    refine ⟨.nothing, xs, .nothing he (.inl ?_), rfl, hw, hc1⟩
    rw [← hc1.held hn]
    exact hroom
  rw [if_neg hroom, if_neg hroom]
  cases hoff : group1.ready_offsets with
  | nil =>
    rw [List.append_nil]
    refine ⟨.nothing, xs, .nothing he (.inr fun m hm hd => ?_), rfl, hw, hc1⟩
    obtain ⟨rt, hrt, hdel⟩ := hc1.deliverable hm hd
    obtain ⟨unsorted, rfl⟩ := hready
    exact buildReadyQueue_nil hoff m.id rt hrt hdel
  | cons offset offsets =>
    obtain ⟨record, rt, m, hrec, hoffset, hrt, hid, hm, hsame, hplace, hheld, hdel, hfirst⟩ :=
      hc1.takes hn hread1 hroom hoff hready
    dsimp only
    rw [hrec]
    dsimp only
    have hp : env.failpoint ≠ some .before_lease_issue := by
      rw [hq.failpoint]
      simp
    have hlook : ({ group1 with ready_offsets := offsets } : ConsumerGroupState).runtime.lookup (idOf record) = some rt := hrt
    rw [@deliver_eq env opts q g offset record { group1 with ready_offsets := offsets } { group1 with ready_offsets := offsets } rt
      fs1 hp (by rw [hlook]; rfl) (by rw [hlook]; rfl)]
    obtain ⟨group', hgroup', heq⟩ := commit_quiet hq opts q g (bump { group1 with ready_offsets := offsets })
      (deliverEvent opts g (env.now .consume) group1.next_sequence (idOf record) rt) false fs1
    have hx : placeAfter (deliverEvent opts g (env.now .consume) group1.next_sequence (idOf record) rt) =
        (LeaseQueue.moves opts.policy env.readings place xs m.id).moved opts.policy env.readings (.lease m.id) := by
      rw [← hplace, hid]
      exact placeAfter_deliver opts env m.id rt group1.next_sequence _ g
    refine ⟨.taken offset.toNat (consumedMessage record) (rt.retry_count + 1), xs ++ [.lease m.id], ?_, ?_, ?_, ?_⟩
    · have hcount : rt.retry_count + 1 = opts.policy.next (LeaseQueue.moves opts.policy env.readings place xs m.id).count := by
        rw [← hplace]
        rfl
      rw [hcount]
      exact .taken he hheld hm hdel hfirst hsame
    · rw [heq]
      rfl
    · rw [List.map_append]
      refine hw.append ?_
      simp only [deliverTrace, hlook, Option.getD_some, List.map_cons, List.map_nil]
      exact .one hid hx
    · rw [heq, LeaseQueue.moves_append, hgroup']
      have hmoved := (hc1.same (b := { group1 with ready_offsets := offsets }) rfl fun _ => rfl).move (x := .lease m.id) hlook hid hx
      exact hmoved

/-- When nothing fails, an operation on a group is the operation of the abstract
queue, with its answer. -/
theorem groupOp_acts (hq : env.toIo.Quiet) (hc : Carries ms place group) (hn : (ms.map (·.id)).Nodup) (hlen : ms.length < 2 ^ 64)
    {segment : SegmentLog} (hread : Readable segment fs ms) (hseg : Aside (groupFiles opts.data_dir q g) segment.path)
    (op : GroupOp) :
    Acts env opts ms place op (groupOp env opts q g op segment group fs).1
      ((groupOpTrace env opts q g op segment group fs).map (·.1)) (groupOp env opts q g op segment group fs).2.1 := by
  cases op with
  | consume => exact consumeGroup_acts hq hc hn hread hseg
  | ack id => exact ackGroup_acts hq hc id segment
  | nack id requeue => exact nackGroup_acts hq hc id requeue segment
  | getStats => exact getStats_acts hq hc hn hlen segment

end operations

end PomaiQueue.Engine
