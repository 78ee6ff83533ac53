import PomaiQueue.Leases
/-!
# How often a message is delivered

The retry counter of a message bounds how often it was delivered, up to one
delivery for the last attempt and one for every crash. `Counted` ties the
number of deliveries to the counter, in memory while the group is loaded and in
the log while it is not. The log is never behind the memory: an event that is
logged and not applied can only be ahead.
-/

namespace PomaiQueue.Engine

open Wire Posix Assoc Storage

/-- The deliveries that an entry accounts for: every retry stands for one, and
so does a message that is not ready any more. -/
def weight (max : Nat) (state : MessageState) (retry_count : UInt32) : Nat :=
  if state = .kReady then retry_count.toNat else min retry_count.toNat max + 1

/-- The retry count of the last event for `id`. -/
def loggedRetry (log : List TransitionEvent) (id : MessageId) : Nat :=
  (lastEvent log id).elim 0 (·.retry_count.toNat)

/-! ## Events -/

/-- What an event does to the count of the entry `rt`. -/
structure Spends (max : Nat) (rt : MessageRuntime) (event : TransitionEvent) : Prop where
  retry : rt.retry_count.toNat ≤ event.retry_count.toNat
  bound : event.state ≠ .kDead → event.retry_count.toNat ≤ max
  weight : weight max rt.state rt.retry_count + (if event.reason = .kDelivered then 1 else 0) ≤
    weight max event.state event.retry_count

/-- A message that can still be timed out or answered. -/
structure Open (max : Nat) (rt : MessageRuntime) : Prop where
  state : rt.state = .kReady ∨ rt.state = .kInFlight
  retry : rt.retry_count.toNat ≤ max

theorem weight_le (max : Nat) (rt : MessageRuntime) : weight max rt.state rt.retry_count ≤ rt.retry_count.toNat + 1 := by
  unfold weight
  split <;> omega

theorem retry_succ {max : Nat} (hlt : max + 1 < 2 ^ 32) {retry : UInt32} (h : retry.toNat ≤ max) :
    (retry + 1).toNat = retry.toNat + 1 := by
  rw [UInt32.toNat_add]
  exact Nat.mod_eq_of_lt (by simp; omega)

/-- An event that counts a retry, and dead-letters the message after the last one. -/
theorem Open.requeue {max : Nat} (hlt : max + 1 < 2 ^ 32) {rt : MessageRuntime} (h : Open max rt) {event : TransitionEvent}
    (hretry : event.retry_count = rt.retry_count + 1) (hreason : event.reason ≠ .kDelivered)
    (hstate : (max < (rt.retry_count + 1).toNat ∧ event.state = .kDead) ∨
      ((rt.retry_count + 1).toNat ≤ max ∧ event.state = .kReady)) : Spends max rt event := by
  have hsucc := retry_succ hlt h.retry
  have hle := weight_le max rt
  have hr := h.retry
  refine ⟨by rw [hretry, hsucc]; omega, fun hd => ?_, ?_⟩
  · obtain ⟨hmax, -⟩ := hstate.resolve_left fun hs => hd hs.2
    rwa [hretry]
  · rw [if_neg hreason, hretry]
    rcases hstate with ⟨hmax, hs⟩ | ⟨hmax, hs⟩
    · have hw : Engine.weight max event.state (rt.retry_count + 1) = min (rt.retry_count + 1).toNat max + 1 := by
        rw [hs]
        exact if_neg (by simp)
      rw [hw]
      omega
    · have hw : Engine.weight max event.state (rt.retry_count + 1) = (rt.retry_count + 1).toNat := by
        rw [hs]
        exact if_pos rfl
      rw [hw]
      omega

theorem Open.timeout {opts : EngineOptions} (hlt : opts.max_retry_count.toNat + 1 < 2 ^ 32) {rt : MessageRuntime}
    (h : Open opts.max_retry_count.toNat rt) (now sequence : UInt64) (id : MessageId) :
    Spends opts.max_retry_count.toNat rt (timeoutEvent opts now sequence id rt) := by
  unfold timeoutEvent
  split
  · rename_i hmax
    exact h.requeue hlt rfl (by simp) (.inl ⟨hmax, rfl⟩)
  · rename_i hmax
    exact h.requeue hlt rfl (by simp) (.inr ⟨UInt32.not_lt.1 hmax, rfl⟩)

theorem Open.nack {opts : EngineOptions} (hlt : opts.max_retry_count.toNat + 1 < 2 ^ 32) {rt : MessageRuntime}
    (h : Open opts.max_retry_count.toNat rt) (now now' sequence : UInt64) (id : MessageId) (requeue : Bool) :
    Spends opts.max_retry_count.toNat rt (nackEvent opts now now' sequence id rt requeue) := by
  have hle := weight_le opts.max_retry_count.toNat rt
  have hr := h.retry
  unfold nackEvent
  split
  · refine ⟨Nat.le_refl _, fun hd => absurd rfl hd, ?_⟩
    simp only [Engine.weight, reduceCtorEq, if_false] at hle ⊢
    omega
  · split
    · rename_i hmax
      exact h.requeue hlt rfl (by simp) (.inl ⟨hmax, rfl⟩)
    · rename_i hmax
      exact h.requeue hlt rfl (by simp) (.inr ⟨UInt32.not_lt.1 hmax, rfl⟩)

theorem Open.ack {max : Nat} {rt : MessageRuntime} (h : Open max rt) (now sequence : UInt64) (id : MessageId) :
    Spends max rt (ackEvent now sequence id rt) := by
  have hle := weight_le max rt
  have hr := h.retry
  refine ⟨Nat.le_refl _, fun _ => hr, ?_⟩
  simp only [ackEvent, Engine.weight, reduceCtorEq, if_false] at hle ⊢
  omega

/-- A delivery is paid for by the message leaving the ready state. -/
theorem spends_deliver {max : Nat} {rt : MessageRuntime} (hs : rt.state = .kReady) (hr : rt.retry_count.toNat ≤ max)
    (opts : EngineOptions) (g : CString) (now sequence : UInt64) (id : MessageId) :
    Spends max rt (deliverEvent opts g now sequence id rt) := by
  refine ⟨Nat.le_refl _, fun _ => hr, ?_⟩
  simp only [deliverEvent, Engine.weight, hs, if_true, reduceCtorEq, if_false]
  omega

/-- What the entry of a message must be for the count to go on. -/
structure Usable (max : Nat) (group : ConsumerGroupState) (id : MessageId) (rt : MessageRuntime) : Prop where
  retry : rt.state ≠ .kDead → rt.retry_count.toNat ≤ max
  inflight : (group.inflight.lookup id).isSome → rt.state = .kReady ∨ rt.state = .kInFlight

theorem Usable.isOpen {max : Nat} {group : ConsumerGroupState} {id : MessageId} {rt : MessageRuntime}
    (h : Usable max group id rt) {entry : InflightEntry} (hin : group.inflight.lookup id = some entry) : Open max rt := by
  have hs := h.inflight (by rw [hin]; rfl)
  exact ⟨hs, h.retry (by rcases hs with hs | hs <;> rw [hs] <;> simp)⟩

theorem Fires.spends {env : Env} {opts : EngineOptions} {g : CString} {read : UInt64 → StatusOr Record} {op : GroupOp}
    {group : ConsumerGroupState} {event : TransitionEvent} (hf : Fires env opts g read op group event)
    (hlt : opts.max_retry_count.toNat + 1 < 2 ^ 32)
    (hread : ∀ id rt record, group.runtime.lookup id = some rt → read rt.offset = .ok record → idOf record = id)
    {rt : MessageRuntime} (hrt : group.runtime.lookup event.id = some rt)
    (h : Usable opts.max_retry_count.toNat group event.id rt) : Spends opts.max_retry_count.toNat rt event := by
  cases hf with
  | timeout id entry rt' hop hin hdl hrt' =>
    rw [timeoutEvent_id] at hrt h
    obtain rfl := Option.some.inj (hrt.symm.trans hrt')
    exact (h.isOpen hin).timeout hlt _ _ _
  | deliver id0 rt0 record rt' hop hroom h0 hready havail hrec hrt' =>
    -- The record is the one the ready entry is filed under.
    have hid := hread id0 rt0 record h0 hrec
    have hrt0 : group.runtime.lookup (idOf record) = some rt := hrt
    have h00 : rt0 = rt := by
      rw [hid, h0] at hrt0
      exact Option.some.inj hrt0
    have h0' : rt' = rt := Option.some.inj (hrt'.symm.trans hrt0)
    subst h00 h0'
    exact spends_deliver hready (h.retry (by rw [hready]; simp)) _ _ _ _ _
  | ack id entry rt' hop hin hrt' =>
    have hrt0 : group.runtime.lookup id = some rt := hrt
    obtain rfl := Option.some.inj (hrt0.symm.trans hrt')
    exact (h.isOpen hin).ack _ _ _
  | nack id requeue entry rt' hop hin hrt' =>
    rw [nackEvent_id] at hrt h
    obtain rfl := Option.some.inj (hrt.symm.trans hrt')
    exact (h.isOpen hin).nack hlt _ _ _ _ _

/-! ## The count -/

/-- `id` was delivered `d` times and the process crashed `c` times. -/
structure Counted (max : Nat) (id : MessageId) (d c : Nat) (n : Node) : Prop where
  log : ∀ event, lastEvent n.log id = some event → event.state ≠ .kDead → event.retry_count.toNat ≤ max
  away : n.group.bind (·.runtime.lookup id) = none → d ≤ min (loggedRetry n.log id) max + c
  usable : ∀ group rt, n.group = some group → group.runtime.lookup id = some rt → Usable max group id rt
  memory : ∀ group rt, n.group = some group → group.runtime.lookup id = some rt →
    rt.retry_count.toNat ≤ loggedRetry n.log id ∧ d ≤ weight max rt.state rt.retry_count + c

section counted

variable {rules : Rules} {max d c : Nat} {id : MessageId} {n n' : Node}

/-- The memory stays and the log may grow by an event that spends. -/
theorem Counted.idle (h : Counted max id d c n) {a b : ConsumerGroupState} (hg : n.group = some a) (hg' : n'.group = some b)
    (hrt : b.runtime.lookup id = a.runtime.lookup id)
    (hin : ∀ rt, a.runtime.lookup id = some rt → (b.inflight.lookup id).isSome → (a.inflight.lookup id).isSome)
    (hlog : n'.log = n.log ∨ ∃ event, n'.log = n.log ++ [event] ∧ (event.id = id →
      ∀ rt, a.runtime.lookup id = some rt → Spends max rt event) ∧ ∃ rt, a.runtime.lookup event.id = some rt) :
    Counted max id d c n' := by
  have haway : b.runtime.lookup id = none → loggedRetry n'.log id = loggedRetry n.log id := by
    intro hnone
    rcases hlog with hlog | ⟨event, hlog, -, rt, hknown⟩
    · rw [hlog]
    · have hne : event.id ≠ id := by
        rintro rfl
        rw [hrt, hknown] at hnone
        cases hnone
      rw [hlog, loggedRetry, lastEvent_concat, if_neg hne, loggedRetry]
  refine ⟨fun e hlast hd => ?_, fun hnone => ?_, fun group rt hgroup hrt' => ?_, fun group rt hgroup hrt' => ?_⟩
  · rcases hlog with hlog | ⟨event, hlog, hsp, rt, hknown⟩
    · rw [hlog] at hlast
      exact h.log e hlast hd
    · rw [hlog, lastEvent_concat] at hlast
      split at hlast
      · rename_i hid
        obtain rfl := Option.some.inj hlast
        exact (hsp hid rt (hid ▸ hknown)).bound hd
      · exact h.log e hlast hd
  · rw [hg', Option.bind_some] at hnone
    rw [haway hnone]
    apply h.away
    rw [hg, Option.bind_some, ← hrt, hnone]
  · obtain rfl := Option.some.inj (hgroup.symm.trans hg')
    rw [hrt] at hrt'
    have hu := h.usable a rt hg hrt'
    exact ⟨hu.retry, fun hs => hu.inflight (hin rt hrt' hs)⟩
  · obtain rfl := Option.some.inj (hgroup.symm.trans hg')
    rw [hrt] at hrt'
    obtain ⟨hle, hd⟩ := h.memory a rt hg hrt'
    refine ⟨?_, hd⟩
    rcases hlog with hlog | ⟨event, hlog, hsp, -⟩
    · rwa [hlog]
    · rw [hlog, loggedRetry, lastEvent_concat]
      split
      · rename_i hid
        exact (hsp hid rt hrt').retry
      · exact hle

/-- An event for the message is logged and applied. -/
theorem Counted.fired (h : Counted max id d c n) {a : ConsumerGroupState} {rt : MessageRuntime} {event : TransitionEvent}
    {env : Env} {opts : EngineOptions} (hg : n.group = some a) (hid : event.id = id) (hrt : a.runtime.lookup id = some rt)
    (hsp : Spends max rt event) (hg' : n'.group = some (applyTransition env opts (bump a) event))
    (hlog : n'.log = n.log ++ [event]) : Counted max id (d + if event.reason = .kDelivered then 1 else 0) c n' := by
  subst hid
  have hlast : lastEvent n'.log event.id = some event := by rw [hlog, lastEvent_concat, if_pos rfl]
  have hlook : (applyTransition env opts (bump a) event).runtime.lookup event.id = some (rt.after event) := by
    have hrt' : (bump a).runtime.lookup event.id = some rt := hrt
    rw [lookup_applyTransition, if_pos rfl, hrt']
    rfl
  refine ⟨fun e hlast' hd => ?_, fun hnone => ?_, fun group rt' hgroup hrt' => ?_, fun group rt' hgroup hrt' => ?_⟩
  · obtain rfl := Option.some.inj (hlast.symm.trans hlast')
    exact hsp.bound hd
  · rw [hg', Option.bind_some, hlook] at hnone
    cases hnone
  · obtain rfl := Option.some.inj (hgroup.symm.trans hg')
    obtain rfl := Option.some.inj (hlook.symm.trans hrt')
    refine ⟨hsp.bound, fun hin => .inr ?_⟩
    by_contra hne
    have hne' : event.state ≠ .kInFlight := hne
    rw [inflight_applyTransition_self env opts (bump a) event hrt, if_neg hne'] at hin
    cases hin
  · obtain rfl := Option.some.inj (hgroup.symm.trans hg')
    obtain rfl := Option.some.inj (hlook.symm.trans hrt')
    obtain ⟨-, hd⟩ := h.memory a rt hg hrt
    have hw := hsp.weight
    rw [loggedRetry, hlast]
    refine ⟨Nat.le_refl _, ?_⟩
    change d + _ ≤ weight max event.state event.retry_count + c
    omega

/-- A load takes the state from the log. -/
theorem Counted.loaded (h : Counted max id d c n) (he : Entries rules n) {env : Env} {opts : EngineOptions}
    {messages : List (UInt64 × Message)} {base : ConsumerGroupState} (hg : n.group = none)
    (hsite : Sited rules.site messages) (hbase : Restores n.snaps.getLast? (defaultGroup env opts messages) base)
    (hg' : n'.group = some (rebuilt env opts n.log base)) (hlog : n'.log = n.log) : Counted max id d c n' := by
  have haway := h.away (by rw [hg]; rfl)
  -- What the entry is, by the last event.
  have hentry : ∀ rt, (rebuilt env opts n.log base).runtime.lookup id = some rt →
      rt.retry_count.toNat = loggedRetry n.log id ∧ (rt.state ≠ .kDead → loggedRetry n.log id ≤ max) ∧
        ((rebuilt env opts n.log base).inflight.lookup id ≠ none → rt.state = .kReady) := by
    intro rt hrt
    have hempty : base.inflight = ∅ := hbase.keys.2
    have hin : (rebuilt env opts n.log base).inflight.lookup id = _ := inflight_replay env opts n.log base hempty id
    rw [lookup_rebuilt, Option.map_eq_some_iff] at hrt
    obtain ⟨rt0, hrt0, rfl⟩ := hrt
    rw [hin, hrt0, Option.bind_some]
    cases hlast : lastEvent n.log id with
    | none =>
      have hd : rt0.IsDefault := (he.base hsite (fun _ => List.mem_of_getLast?) hbase hrt0).default hlast
      have hready : rt0.state = .kReady := by rw [hd]; rfl
      have hretry : rt0.retry_count = 0 := by rw [hd]; rfl
      have hsame : (rt0.restored none).recovered (env.now .loadGroupState) = rt0 := by
        exact if_neg (by rw [show (rt0.restored none).state = .kReady from hready]; simp)
      rw [hsame, hretry, loggedRetry, hlast]
      exact ⟨rfl, fun _ => Nat.zero_le _, fun hc => absurd rfl hc⟩
    | some event =>
      have hlogged : loggedRetry n.log id = event.retry_count.toNat := by rw [loggedRetry, hlast]; rfl
      rw [hlogged, Option.bind_some]
      by_cases hs : event.state = .kInFlight
      · have heq : ((rt0.restored (some event)).recovered (env.now .loadGroupState)).state = .kReady := by
          unfold MessageRuntime.recovered
          rw [if_pos (show (rt0.restored (some event)).state = .kInFlight from hs)]
        have hr : ((rt0.restored (some event)).recovered (env.now .loadGroupState)).retry_count = event.retry_count := by
          unfold MessageRuntime.recovered
          rw [if_pos (show (rt0.restored (some event)).state = .kInFlight from hs)]
          rfl
        rw [heq, hr]
        exact ⟨rfl, fun _ => h.log event hlast (by rw [hs]; simp), fun _ => rfl⟩
      · have heq : (rt0.restored (some event)).recovered (env.now .loadGroupState) = rt0.after event := if_neg hs
        rw [heq, if_neg hs]
        exact ⟨rfl, fun hd => h.log event hlast hd, fun hc => absurd rfl hc⟩
  refine ⟨by rw [hlog]; exact h.log, fun _ => by rw [hlog]; exact haway, fun group rt hgroup hrt => ?_,
    fun group rt hgroup hrt => ?_⟩
  · obtain rfl := Option.some.inj (hgroup.symm.trans hg')
    obtain ⟨hretry, hmax, hin⟩ := hentry rt hrt
    exact ⟨fun hd => by rw [hretry]; exact hmax hd, fun hs => .inl (hin (Option.isSome_iff_ne_none.1 hs))⟩
  · obtain rfl := Option.some.inj (hgroup.symm.trans hg')
    obtain ⟨hretry, hmax, -⟩ := hentry rt hrt
    refine ⟨by rw [hlog, hretry], ?_⟩
    unfold weight
    split <;> omega

/-- What the memory accounted for, the log accounts for, up to one. -/
theorem Counted.crashed (h : Counted max id d c n) (hg' : n'.group = none) (hlog : n'.log = n.log) :
    Counted max id d (c + 1) n' := by
  refine ⟨by rw [hlog]; exact h.log, fun _ => ?_, fun group rt hgroup => ?_, fun group rt hgroup => ?_⟩
  · rw [hlog]
    cases hcur : n.group.bind (·.runtime.lookup id) with
    | none =>
      have := h.away hcur
      omega
    | some rt =>
      obtain ⟨group, hgroup, hrt⟩ := Option.bind_eq_some_iff.1 hcur
      obtain ⟨hle, hd⟩ := h.memory group rt hgroup hrt
      have hu := (h.usable group rt hgroup hrt).retry
      unfold weight at hd
      split at hd
      · rename_i hs
        have := hu (by rw [hs]; simp)
        omega
      · omega
  · rw [hg'] at hgroup
    cases hgroup
  · rw [hg'] at hgroup
    cases hgroup

theorem Counted.happens (hopts : ∀ opts, rules.opts opts → opts.max_retry_count.toNat = max) (hlt : max + 1 < 2 ^ 32)
    (hr : rules.Sound) (he : Entries rules n) {x : Happening} (h : Counted max id d c n) (hn : Happens rules n x n') :
    Counted max id (d + if x.delivered = some id then 1 else 0) (c + if x.crashes then 1 else 0) n' := by
  -- An event of this message that an operation can log spends.
  have hspends : ∀ {env opts read op a event}, n.group = some a → rules.opts opts →
      (∀ o r, read o = .ok r → rules.site o r) → Fires env opts rules.group_id read op a event → event.id = id →
      ∀ rt, a.runtime.lookup id = some rt → Spends max rt event := by
    intro env opts read op a event hg ho hread hf hid rt hrt
    subst hid
    have hmax := hopts opts ho
    subst hmax
    exact hf.spends hlt (fun id rt record h0 hrec => he.read_known hr hg hread h0 hrec) hrt (h.usable a rt hg hrt)
  cases hn with
  | loaded hg ho hsite hcov hset hpres hbase hg' hlog => exact h.loaded he hg hsite hbase hg' hlog
  | @idle x _ a b hx hc htr hg hg' hlog hmarks hrt hin =>
    rw [hx, hc]
    refine h.idle hg hg' (by rw [hrt]) (fun rt hrt' hs => ?_) (.inl hlog)
    rcases hin id with heq | ⟨-, hb⟩
    · rwa [← heq]
    · rw [hb] at hs
      cases hs
  | @fired _ env opts read op a event hg henv ho hread hf hg' hlog =>
    obtain ⟨rt0, hrt0⟩ := hf.known
    by_cases hid : event.id = id
    · have hd : (if (Happening.moved (.attempt event .applied (applyTransition env opts (bump a) event))).delivered = some id
          then 1 else 0) = if event.reason = .kDelivered then 1 else 0 := by
        simp only [Happening.delivered, hid]
        by_cases hreason : event.reason = .kDelivered <;> simp [hreason]
      rw [hd]
      exact h.fired hg hid (hid ▸ hrt0) (hspends hg ho hread hf hid rt0 (hid ▸ hrt0)) hg' hlog
    · have hd : (Happening.moved (.attempt event .applied (applyTransition env opts (bump a) event))).delivered ≠ some id := by
        simp only [Happening.delivered]
        split
        · simpa using hid
        · simp
      rw [if_neg hd]
      refine h.idle hg hg' ?_ (fun rt hrt hs => ?_) (.inr ⟨event, hlog, fun hid' => absurd hid' hid, rt0, hrt0⟩)
      · rw [lookup_applyTransition, if_neg (Ne.symm hid)]
        rfl
      · rwa [inflight_applyTransition_ne env opts (bump a) event (Ne.symm hid)] at hs
  | @lost x _ env opts read op a event hfaulty hx hc hg ho hread hf hg' hlog =>
    rw [hx, hc]
    exact h.idle hg hg' rfl (fun _ _ hs => hs) (.inr ⟨event, hlog, hspends hg ho hread hf, hf.known⟩)
  | crashed hg' hlog => exact h.crashed hg' hlog

theorem Counted.le (h : Counted max id d c n) : d ≤ max + 1 + c := by
  cases hcur : n.group.bind (·.runtime.lookup id) with
  | none =>
    have := h.away hcur
    omega
  | some rt =>
    obtain ⟨group, hgroup, hrt⟩ := Option.bind_eq_some_iff.1 hcur
    obtain ⟨-, hd⟩ := h.memory group rt hgroup hrt
    have hu := (h.usable group rt hgroup hrt).retry
    unfold weight at hd
    split at hd
    · rename_i hs
      have := hu (by rw [hs]; simp)
      omega
    · omega

/-- The deliveries of a message in the course of a group's life. -/
theorem deliveries_le {hs : List Happening} (hopts : ∀ opts, rules.opts opts → opts.max_retry_count.toNat = max)
    (hlt : max + 1 < 2 ^ 32) (hr : rules.Sound) (h : Steps rules {} hs n) (id : MessageId) :
    hs.countP (·.delivered = some id) ≤ max + 1 + hs.countP (·.crashes) := by
  have hc : Counted max id (hs.countP (·.delivered = some id)) (hs.countP (·.crashes)) n := by
    refine h.invariant (P := fun hs n => Counted max id (hs.countP (·.delivered = some id)) (hs.countP (·.crashes)) n) hr ?_ ?_
    · exact ⟨by simp, by simp, by simp, by simp⟩
    · intro hs n x n' he hc hn
      have := hc.happens hopts hlt hr he hn
      simpa [List.countP_append, List.countP_cons, List.countP_nil] using this
  exact hc.le

end counted

/-! ## Runs -/

/-- The reply hands out message `id`. -/
def hands (id : MessageId) : StatusOr Reply → Bool
  | .ok (.consumed (some result)) => result.message.id = id
  | _ => false

/-- The step is a `Consume` that returns message `id` to the group. -/
def Step.returns (q : Path) (g : CString) (id : MessageId) (e : QueueEngine) : Step → Bool
  | .op env (.group q' g' .consume) => q' = q ∧ g' = g ∧ hands id (consumeOnShard env q' g' e).1
  | _ => false

/-- How often `Consume` returns message `id` to the group in a run. -/
def returned (q : Path) (g : CString) (id : MessageId) : QueueEngine → List Step → Nat
  | _, [] => 0
  | e, s :: steps => (if s.returns q g id e then 1 else 0) + returned q g id (step e s) steps

/-- A message that is handed out has been delivered. -/
theorem Replies.delivered {q : Path} {g : CString} {reply : StatusOr Reply} {hs : List Happening} {id : MessageId}
    (h : Replies q g (.group q g .consume) reply hs) (hh : hands id reply = true) :
    1 ≤ hs.countP (·.delivered = some id) := by
  unfold hands at hh
  split at hh
  · rename_i result
    rcases h .consume rfl with ⟨err, herr⟩ | ⟨hs0, labels, rfl, hans⟩
    · cases herr
    · obtain ⟨event, after, hmem, hid, hreason⟩ := hans.consumed result rfl
      refine List.countP_pos_iff.2 ⟨_, List.mem_append_right _ (List.mem_map_of_mem hmem), ?_⟩
      have hid' : result.message.id = id := by simpa using hh
      simp [Happening.delivered, hreason, hid, hid']
  · cases hh

theorem Steps.crashes {rules : Rules} {a b : Node} {hs : List Happening} (h : Steps rules a hs b) :
    b.marks.length = a.marks.length + hs.countP (·.crashes) := by
  induction h with
  | nil => simp
  | snoc _ hlast ih =>
    rw [List.countP_append, ← Nat.add_assoc, ← ih]
    cases hlast <;> simp [Happening.crashes, Node.moved]

theorem Course.returned {σ : Setting} {e : QueueEngine} {rs : List Frame} {fresh : Bool} {hs : List Happening} {n : Node}
    {steps : List Step} (h : Course σ e rs fresh hs n) (hf : σ.Follows e fresh steps) (id : MessageId) :
    ∃ rs' fresh' hs' n', Course σ (Engine.run e steps) rs' fresh' (hs ++ hs') n' ∧
      Engine.returned σ.queue σ.group id e steps ≤ hs'.countP (·.delivered = some id) ∧
      n'.marks.length = n.marks.length + steps.countP Step.kills := by
  induction steps generalizing e rs fresh hs n with
  | nil => exact ⟨rs, fresh, [], n, by rwa [List.append_nil], by simp [Engine.returned], by simp⟩
  | cons s steps ih =>
    -- One step: what it returns has been delivered, and it is a crash if it kills.
    have hone : ∃ rs' hs' n', Course σ (Engine.step e s) rs' (fresh && !s.kills) (hs ++ hs') n' ∧
        (if s.returns σ.queue σ.group id e then 1 else 0) ≤ hs'.countP (·.delivered = some id) ∧
        n'.marks.length = n.marks.length + if s.kills then 1 else 0 := by
      obtain ⟨ha, -⟩ := hf
      cases s with
      | op env o =>
        obtain ⟨hs', n', hc, -, hmarks, -, hrep⟩ := h.op ha
        refine ⟨_, hs', n', by simpa [Step.kills] using hc, ?_, by simp [hmarks, Step.kills]⟩
        split
        · rename_i hret
          unfold Step.returns at hret
          split at hret
          · rename_i env' q' g' heq
            cases heq
            obtain ⟨rfl, rfl, hh⟩ := of_decide_eq_true hret
            exact hrep.delivered hh
          · cases hret
        · exact Nat.zero_le _
      | kill env o k options =>
        obtain ⟨rs', hs', n', hc, -, -, hmarks, -⟩ := h.kill ha
        exact ⟨rs', _, n', by simpa [Step.kills] using hc, Nat.zero_le _, by simp [hmarks, Step.kills]⟩
    obtain ⟨rs', hs', n', hc, hret, hmarks⟩ := hone
    obtain ⟨rs'', fresh'', hs'', n'', hc', hret', hmarks'⟩ := ih hc hf.2
    refine ⟨rs'', fresh'', hs' ++ hs'', n'', by rwa [← List.append_assoc], ?_, ?_⟩
    · rw [List.countP_append]
      exact Nat.add_le_add hret hret'
    · rw [hmarks', hmarks, List.countP_cons]
      omega

/-- Whatever fails, `Consume` returns a message at most once more than it can be
retried, and once more for every restart. -/
theorem deliveries_bounded (opts : EngineOptions) (hmax : opts.max_retry_count.toNat < 2 ^ 32 - 1) (q : Path) (g : CString)
    (base : Disk) (rs : List Frame) (hb : OnSegment base opts.data_dir q g rs) (steps : List Step)
    (hs : ∀ s ∈ steps, s.Keeps opts q g) (id : MessageId) :
    returned q g id (engineOn opts base) steps ≤ opts.max_retry_count.toNat + 1 + steps.countP Step.kills := by
  have hcourse : Course { quietSetting opts q g (fun _ => True) with faulty := True } (engineOn opts base) rs false [] {} :=
    OnSegment.course hb rfl rfl fun _ h => h.elim
  have hfollows : Setting.Follows { quietSetting opts q g (fun _ => True) with faulty := True } (engineOn opts base) false steps :=
    follows_of_keeps hs rfl rfl rfl rfl (fun _ _ => trivial) (fun _ _ _ => trivial) fun h => h.elim
  obtain ⟨rs', fresh', hs', n', hc, hret, hmarks⟩ := hcourse.returned hfollows id
  have hle := deliveries_le (fun opts' (ho : opts' = opts) => congrArg (·.max_retry_count.toNat) ho) (by omega) hc.sound hc.steps id
  have hcr := hc.steps.crashes
  rw [List.nil_append] at hle hcr
  have hret' : returned q g id (engineOn opts base) steps ≤ _ := hret
  rw [← Nat.zero_add (hs'.countP (·.crashes))] at hle
  change n'.marks.length = 0 + _ at hcr
  change n'.marks.length = 0 + _ at hmarks
  omega

/-- A disk with one message in the segment. -/
def someDisk : Disk := fun p =>
  if p = segmentPath [] someQueue then some (layout (stamped [messageFrame ({}, someMessage)])) else none

theorem onSegment_someDisk : OnSegment someDisk [] someQueue someGroup [messageFrame ({}, someMessage)] where
  segment := rfl
  fits := by
    simp only [List.forall_mem_cons]
    exact ⟨by decide, by simp⟩
  size := by decide +kernel
  events := if_neg (by decide)
  state := if_neg (by decide)

/-- Deliveries without a retry: one whose event is logged and not applied, one
that is returned, and one after a restart. -/
def failingDeliveries : List Step :=
  [.op {} (.createQueue someQueue), .op { failpoint := some .after_log_append } (.group someQueue someGroup .consume),
    .op {} (.group someQueue someGroup .consume),
    .kill { failpoint := some .fsync_file } (.group someQueue someGroup (.nack ⟨1, 2⟩ true)) 0 { max_retry_count := 0 },
    .op {} (.createQueue someQueue), .op {} (.group someQueue someGroup .consume)]

theorem deliveries_bounded_failing :
    returned someQueue someGroup ⟨1, 2⟩ (engineOn { max_retry_count := 0 } someDisk) failingDeliveries ≤ 0 + 1 + 1 := by
  refine deliveries_bounded { max_retry_count := 0 } (by decide) someQueue someGroup someDisk _ onSegment_someDisk
    failingDeliveries ?_ ⟨1, 2⟩
  simp only [failingDeliveries, List.forall_mem_cons]
  refine ⟨?_, ?_, ?_, ?_, ?_, ?_, by simp⟩
  all_goals
    refine ⟨fun data n h => (by cases h), ?_, ?_, by simp [Step.operation], ?_⟩
    · simp [Step.operation, Op.Apart]
    · simp [Step.operation, Op.Clear]
    · rintro env o k options heq
      cases heq
      try rfl

example : returned someQueue someGroup ⟨1, 2⟩ (engineOn { max_retry_count := 0 } someDisk) failingDeliveries = 2 := by
  decide +kernel

end PomaiQueue.Engine
