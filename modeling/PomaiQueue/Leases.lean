import Mathlib.Data.Finset.Card
import PomaiQueue.Course
/-!
# What is in flight

`Happens` says what one happening does to the messages of a group: it is an
inversion of `Next`, for a group whose entries are filed. When nothing fails,
the inflight map and the log say the same (`Leases`), over any number of
restarts: replaying the log puts back what was there.
-/

namespace PomaiQueue.Engine

open Wire Posix Assoc Storage

/-! ## What a happening does -/

def Happening.crashes : Happening → Bool
  | .crashed => true
  | _ => false

/-- The message that a happening has delivered. -/
def Happening.delivered : Happening → Option MessageId
  | .moved (.attempt event .applied _) => if event.reason = .kDelivered then some event.id else none
  | _ => none

inductive Happens (rules : Rules) (n : Node) : Happening → Node → Prop
  | loaded {n' env opts messages base} (hg : n.group = none) (hopts : rules.opts opts) (hsite : Sited rules.site messages)
      (hcov : rules.covers → ∀ event ∈ n.log, ∃ om ∈ messages, om.2.id = event.id)
      (hset : rules.settled → ∀ id event, lastEvent n.log id = some event → event.state ≠ .kInFlight)
      (hpres : ∀ id, rules.present id → ∃ om ∈ messages, om.2.id = id)
      (hbase : Restores n.snaps.getLast? (defaultGroup env opts messages) base)
      (hg' : n'.group = some (rebuilt env opts n.log base)) (hlog : n'.log = n.log) (hmarks : n'.marks = n.marks) :
      Happens rules n .loaded n'
  /-- The messages stay as they are, and what leaves the inflight map has no entry. -/
  | idle {x n' a b} (hx : x.delivered = none) (hc : x.crashes = false) (htr : ¬ rules.faulty → x.trace = [])
      (hg : n.group = some a) (hg' : n'.group = some b)
      (hlog : n'.log = n.log) (hmarks : n'.marks = n.marks) (hrt : b.runtime = a.runtime)
      (hin : ∀ id, b.inflight.lookup id = a.inflight.lookup id ∨
        a.runtime.lookup id = none ∧ b.inflight.lookup id = none) :
      Happens rules n x n'
  | fired {n' env opts read op a event} (hg : n.group = some a) (henv : rules.env env) (hopts : rules.opts opts)
      (hread : ∀ o r, read o = .ok r → rules.site o r) (hf : Fires env opts rules.group_id read op a event)
      (hg' : n'.group = some (applyTransition env opts (bump a) event)) (hlog : n'.log = n.log ++ [event])
      (hmarks : n'.marks = n.marks) :
      Happens rules n (.moved (.attempt event .applied (applyTransition env opts (bump a) event))) n'
  /-- An event is logged but not applied. -/
  | lost {x n' env opts read op a event} (hfaulty : rules.faulty) (hx : x.delivered = none) (hc : x.crashes = false)
      (hg : n.group = some a) (hopts : rules.opts opts) (hread : ∀ o r, read o = .ok r → rules.site o r)
      (hf : Fires env opts rules.group_id read op a event) (hg' : n'.group = some (bump a))
      (hlog : n'.log = n.log ++ [event]) (hmarks : n'.marks = n.marks) :
      Happens rules n x n'
  | crashed {n'} (hg' : n'.group = none) (hlog : n'.log = n.log) (hmarks : n'.marks = n.marks ++ [n.log.length]) :
      Happens rules n .crashed n'

theorem Next.happens {rules : Rules} (hr : rules.Sound) {n n' : Node} {x : Happening} (he : Entries rules n)
    (hn : Next rules n x n') : Happens rules n x n' := by
  cases hn with
  | loaded hg henv hopts hsite hcov hset hpres hbase => exact .loaded hg hopts hsite hcov hset hpres hbase rfl rfl rfl
  | @moved env opts read op a b l hg henv hopts hread hm =>
    cases hm with
    | sched hc =>
      refine .idle rfl rfl (fun _ => rfl) hg rfl (List.append_nil _) rfl hc.runtime fun id => .inl ?_
      rw [hc.inflight]
    | forget id0 hnone =>
      refine .idle rfl rfl (fun _ => rfl) hg rfl (List.append_nil _) rfl rfl fun id => ?_
      by_cases hid : id = id0
      · subst hid
        exact .inr ⟨hnone, AList.lookup_erase _ _⟩
      · exact .inl (AList.lookup_erase_ne hid)
    | meet id0 rt0 record rt h0 hrec hnone hrt =>
      rw [he.read_known hr hg hread h0 hrec, h0] at hnone
      cases hnone
    | fire hf => exact .fired hg henv hopts hread hf rfl rfl rfl
    | lose hfaulty hf => exact .lost hfaulty rfl rfl hg hopts hread hf rfl rfl rfl
    | skip hfaulty hf => exact .idle rfl rfl (fun hq => absurd hfaulty hq) hg rfl (List.append_nil _) rfl rfl fun id => .inl rfl
    | persist => exact .idle rfl rfl (fun _ => rfl) hg rfl (List.append_nil _) rfl rfl fun id => .inl rfl
  | crashed => exact .crashed rfl rfl rfl

/-- An invariant over the steps of a node, with its entries at hand. -/
theorem Steps.invariant {rules : Rules} (hr : rules.Sound) {P : List Happening → Node → Prop} {n : Node}
    {hs : List Happening} (h : Steps rules {} hs n) (h0 : P [] {})
    (hn : ∀ {hs n x n'}, Entries rules n → P hs n → Happens rules n x n' → P (hs ++ [x]) n') : P hs n := by
  generalize hstart : ({} : Node) = start at h
  induction h with
  | nil => rwa [← hstart]
  | @snoc b c hs x hpre hlast ih =>
    subst hstart
    have he := Entries.steps hr hpre
    exact hn he ih (hlast.happens hr he)

/-! ## Leases -/

/-- When the lease of `id` ends, as the log has it. -/
def loggedDeadline (log : List TransitionEvent) (id : MessageId) : Option UInt64 :=
  (lastEvent log id).bind fun event => if event.state = .kInFlight then some event.deadline_ms else none

/-- The inflight map is what the log says, and the messages in flight are in it. -/
structure Leases (n : Node) : Prop where
  reasons : ∀ event ∈ n.log, event.state = .kInFlight ↔ event.reason = .kDelivered
  known : ∀ group, n.group = some group → ∀ event ∈ n.log, ∃ rt, group.runtime.lookup event.id = some rt
  inflight : ∀ group, n.group = some group → ∀ id,
    (group.inflight.lookup id).map (·.deadline_ms) = loggedDeadline n.log id
  held : ∀ group, n.group = some group → ∀ id rt, group.runtime.lookup id = some rt → rt.state = .kInFlight →
    (group.inflight.lookup id).isSome

theorem Fires.reason {env : Env} {opts : EngineOptions} {g : CString} {read : UInt64 → StatusOr Record} {op : GroupOp}
    {group : ConsumerGroupState} {event : TransitionEvent} (h : Fires env opts g read op group event) :
    event.state = .kInFlight ↔ event.reason = .kDelivered := by
  cases h with
  | timeout id entry rt hop hin hdl hrt =>
    unfold timeoutEvent
    split <;> simp
  | deliver => exact ⟨fun _ => rfl, fun _ => rfl⟩
  | ack =>
    constructor <;> intro h <;> cases h
  | nack id requeue entry rt hop hin hrt =>
    unfold nackEvent
    split
    · simp
    · split <;> simp

section happens

variable {rules : Rules} {n n' : Node}

/-- A load puts the leases of the log back. -/
theorem Leases.loaded (h : Leases n) {env : Env} {opts : EngineOptions} {messages : List (UInt64 × Message)}
    {base : ConsumerGroupState} (hcov : ∀ event ∈ n.log, ∃ om ∈ messages, om.2.id = event.id)
    (hbase : Restores n.snaps.getLast? (defaultGroup env opts messages) base)
    (hg' : n'.group = some (rebuilt env opts n.log base)) (hlog : n'.log = n.log) : Leases n' := by
  have hknown : ∀ event ∈ n.log, ∃ rt, base.runtime.lookup event.id = some rt := fun event hev => hbase.known (hcov event hev)
  refine ⟨hlog ▸ h.reasons, fun group hgroup event hev => ?_, fun group hgroup id => ?_, fun group hgroup id rt hrt hs => ?_⟩
  · obtain rfl := Option.some.inj (hgroup.symm.trans hg')
    obtain ⟨rt, hrt⟩ := hknown event (hlog ▸ hev)
    exact ⟨_, by rw [lookup_rebuilt, hrt]; rfl⟩
  · obtain rfl := Option.some.inj (hgroup.symm.trans hg')
    have hin : (rebuilt env opts n.log base).inflight.lookup id = _ := inflight_replay env opts n.log base hbase.keys.2 id
    rw [hin, loggedDeadline, hlog]
    cases hlast : lastEvent n.log id with
    | none => cases base.runtime.lookup id <;> rfl
    | some event =>
      obtain ⟨hmem, rfl⟩ := lastEvent_mem hlast
      obtain ⟨rt, hrt⟩ := hknown event hmem
      rw [hrt]
      by_cases hs : event.state = .kInFlight <;> simp [hs, leaseOf]
  · obtain rfl := Option.some.inj (hgroup.symm.trans hg')
    rw [lookup_rebuilt, Option.map_eq_some_iff] at hrt
    obtain ⟨rt0, -, rfl⟩ := hrt
    -- A load leaves no message in flight.
    unfold MessageRuntime.recovered at hs
    split at hs
    · cases hs
    · rename_i hne
      exact absurd hs hne

/-- A message without an entry is not leased. -/
theorem Leases.unknown (h : Leases n) {a : ConsumerGroupState} (hg : n.group = some a) {id : MessageId}
    (hid : a.runtime.lookup id = none) : a.inflight.lookup id = none := by
  have hlast : lastEvent n.log id = none := by
    rw [lastEvent_none]
    intro event hev heq
    obtain ⟨rt, hrt⟩ := h.known a hg event hev
    rw [heq, hid] at hrt
    cases hrt
  have hl := h.inflight a hg id
  rw [loggedDeadline, hlast] at hl
  exact Option.map_eq_none_iff.1 hl

theorem Leases.idle (h : Leases n) {a b : ConsumerGroupState} (hg : n.group = some a) (hg' : n'.group = some b)
    (hlog : n'.log = n.log) (hrt : b.runtime = a.runtime)
    (hin : ∀ id, b.inflight.lookup id = a.inflight.lookup id ∨ a.runtime.lookup id = none ∧ b.inflight.lookup id = none) :
    Leases n' := by
  have hsame : ∀ id, b.inflight.lookup id = a.inflight.lookup id := by
    intro id
    rcases hin id with heq | ⟨hid, hb⟩
    · exact heq
    · rw [hb, h.unknown hg hid]
  refine ⟨hlog ▸ h.reasons, fun group hgroup event hev => ?_, fun group hgroup id => ?_, fun group hgroup id rt hrt' hs => ?_⟩
  · obtain rfl := Option.some.inj (hgroup.symm.trans hg')
    rw [hrt]
    exact h.known a hg event (hlog ▸ hev)
  · obtain rfl := Option.some.inj (hgroup.symm.trans hg')
    rw [hsame, hlog]
    exact h.inflight a hg id
  · obtain rfl := Option.some.inj (hgroup.symm.trans hg')
    rw [hrt] at hrt'
    rw [hsame]
    exact h.held a hg id rt hrt' hs

theorem Leases.fired (h : Leases n) {env : Env} {opts : EngineOptions} {g : CString} {read : UInt64 → StatusOr Record} {op : GroupOp}
    {a : ConsumerGroupState} {event : TransitionEvent} (hg : n.group = some a) (hf : Fires env opts g read op a event)
    (hg' : n'.group = some (applyTransition env opts (bump a) event)) (hlog : n'.log = n.log ++ [event]) : Leases n' := by
  obtain ⟨rt0, hrt0⟩ := hf.known
  refine ⟨?_, fun group hgroup e hev => ?_, fun group hgroup id => ?_, fun group hgroup id rt hrt hs => ?_⟩
  · rw [hlog]
    intro e hev
    rcases List.mem_append.1 hev with hev | hev
    · exact h.reasons e hev
    · rw [List.mem_singleton.1 hev]
      exact hf.reason
  · obtain rfl := Option.some.inj (hgroup.symm.trans hg')
    rw [hlog] at hev
    have hold : ∃ rt, (bump a).runtime.lookup e.id = some rt := by
      rcases List.mem_append.1 hev with hev | hev
      · exact h.known a hg e hev
      · rw [List.mem_singleton.1 hev]
        exact ⟨rt0, hrt0⟩
    rw [← mem_keys_iff] at hold ⊢
    rw [applyTransition_keys]
    exact hold
  · obtain rfl := Option.some.inj (hgroup.symm.trans hg')
    rw [hlog, loggedDeadline, lastEvent_concat]
    by_cases hid : event.id = id
    · subst hid
      rw [inflight_applyTransition_self env opts (bump a) event hrt0, if_pos rfl]
      by_cases hs : event.state = .kInFlight <;> simp [hs, leaseOf]
    · rw [inflight_applyTransition_ne env opts (bump a) event (Ne.symm hid), if_neg hid]
      exact h.inflight a hg id
  · obtain rfl := Option.some.inj (hgroup.symm.trans hg')
    rw [lookup_applyTransition] at hrt
    by_cases hid : id = event.id
    · subst hid
      have hrt0' : (bump a).runtime.lookup event.id = some rt0 := hrt0
      rw [if_pos rfl, hrt0'] at hrt
      obtain rfl := Option.some.inj hrt
      have hs' : event.state = .kInFlight := hs
      rw [inflight_applyTransition_self env opts (bump a) event hrt0, if_pos hs']
      rfl
    · rw [if_neg hid] at hrt
      rw [inflight_applyTransition_ne env opts (bump a) event hid]
      exact h.held a hg id rt hrt hs

theorem Leases.happens (hq : ¬ rules.faulty) (hcovers : rules.covers) {x : Happening} (h : Leases n) (hn : Happens rules n x n') :
    Leases n' := by
  cases hn with
  | loaded hg hopts hsite hcov hset hpres hbase hg' hlog hmarks => exact h.loaded (hcov hcovers) hbase hg' hlog
  | idle hx hc htr hg hg' hlog hmarks hrt hin => exact h.idle hg hg' hlog hrt hin
  | fired hg henv hopts hread hf hg' hlog hmarks => exact h.fired hg hf hg' hlog
  | lost hfaulty => exact absurd hfaulty hq
  | crashed hg' hlog hmarks =>
    refine ⟨hlog ▸ h.reasons, fun group hgroup => ?_, fun group hgroup => ?_, fun group hgroup => ?_⟩ <;>
      rw [hg'] at hgroup <;> cases hgroup

end happens

/-! ## How many -/

/-- The messages whose last event is a delivery. -/
def leased (log : List TransitionEvent) : Finset MessageId :=
  (log.map (·.id)).toFinset.filter fun id => (loggedDeadline log id).isSome

theorem mem_leased {log : List TransitionEvent} {id : MessageId} : id ∈ leased log ↔ (loggedDeadline log id).isSome := by
  unfold leased
  rw [Finset.mem_filter, List.mem_toFinset]
  refine ⟨fun h => h.2, fun h => ⟨?_, h⟩⟩
  obtain ⟨deadline, hd⟩ := Option.isSome_iff_exists.1 h
  obtain ⟨event, hlast, -⟩ := Option.bind_eq_some_iff.1 hd
  obtain ⟨hmem, rfl⟩ := lastEvent_mem hlast
  exact List.mem_map_of_mem hmem

theorem Leases.card {n : Node} (h : Leases n) {group : ConsumerGroupState} (hg : n.group = some group) :
    group.inflight.entries.length = (leased n.log).card := by
  have hset : group.inflight.keys.toFinset = leased n.log := by
    ext id
    rw [List.mem_toFinset, mem_keys_iff, mem_leased, ← h.inflight group hg, Option.isSome_map, Option.isSome_iff_exists]
  rw [← hset, List.toFinset_card_of_nodup group.inflight.keys_nodup, AList.keys, List.keys, List.length_map]

/-- Only a delivery puts a message in flight, and only when there is room. -/
theorem Fires.room {env : Env} {opts : EngineOptions} {g : CString} {read : UInt64 → StatusOr Record} {op : GroupOp}
    {group : ConsumerGroupState} {event : TransitionEvent} (h : Fires env opts g read op group event)
    (hs : event.state = .kInFlight) : group.inflight.entries.length < opts.max_inflight.toNat := by
  cases h with
  | timeout id entry rt hop hin hdl hrt =>
    unfold timeoutEvent at hs
    split at hs <;> cases hs
  | deliver id0 rt0 record rt hop hroom => exact hroom
  | ack => cases hs
  | nack id requeue entry rt hop hin hrt =>
    unfold nackEvent at hs
    split at hs
    · cases hs
    · split at hs <;> cases hs

theorem leased_concat (log : List TransitionEvent) (event : TransitionEvent) :
    leased (log ++ [event]) ⊆ if event.state = .kInFlight then insert event.id (leased log) else leased log := by
  intro id hid
  rw [mem_leased, loggedDeadline, lastEvent_concat] at hid
  by_cases hid' : event.id = id
  · rw [if_pos hid', Option.bind_some] at hid
    split at hid
    · rename_i hs
      rw [if_pos hs, ← hid']
      exact Finset.mem_insert_self _ _
    · cases hid
  · rw [if_neg hid'] at hid
    have hmem : id ∈ leased log := mem_leased.2 hid
    split
    · exact Finset.mem_insert_of_mem hmem
    · exact hmem

theorem Leases.room {rules : Rules} {max : Nat} (hopts : ∀ opts, rules.opts opts → opts.max_inflight.toNat = max)
    {n n' : Node} {x : Happening} (h : Leases n) (hmax : (leased n.log).card ≤ max) (hn : Happens rules n x n')
    (hq : ¬ rules.faulty) : (leased n'.log).card ≤ max := by
  cases hn with
  | loaded hg ho hsite hcov hset hpres hbase hg' hlog => rwa [hlog]
  | idle hx hc htr hg hg' hlog => rwa [hlog]
  | @fired _ env opts read op a event hg henv ho hread hf hg' hlog =>
    rw [hlog]
    have hsub := Finset.card_le_card (leased_concat n.log event)
    split at hsub
    · rename_i hs
      have hroom := hf.room hs
      have hins := Finset.card_insert_le event.id (leased n.log)
      rw [h.card hg, hopts opts ho] at hroom
      omega
    · omega
  | lost hfaulty => exact absurd hfaulty hq
  | crashed hg' hlog => rwa [hlog]

/-- The messages in flight are among the leased ones. -/
theorem Leases.in_flight {n : Node} (h : Leases n) {group : ConsumerGroupState} (hg : n.group = some group) :
    (group.runtime.entries.filter (·.2.state = .kInFlight)).length ≤ group.inflight.entries.length := by
  have hsub : (group.runtime.entries.filter (·.2.state = .kInFlight)).map Sigma.fst ⊆ group.inflight.keys := by
    intro id hid
    obtain ⟨⟨id', rt⟩, hmem, rfl⟩ := List.mem_map.1 hid
    obtain ⟨hmem, hs⟩ := List.mem_filter.1 hmem
    rw [mem_keys_iff, ← Option.isSome_iff_exists]
    exact h.held group hg _ rt ((mem_entries_iff _ _ _).1 hmem) (by simpa using hs)
  have hnodup : ((group.runtime.entries.filter (·.2.state = .kInFlight)).map Sigma.fst).Nodup :=
    List.Nodup.sublist (List.filter_sublist.map _) group.runtime.keys_nodup
  have hle := (List.subperm_of_subset hnodup hsub).length_le
  rwa [List.length_map, AList.keys, List.keys, List.length_map] at hle

/-! ## Runs -/

theorem Course.leases {σ : Setting} {e : QueueEngine} {rs : List Frame} {fresh : Bool} {hs : List Happening} {n : Node}
    (h : Course σ e rs fresh hs n) (hq : ¬ σ.faulty) : Leases n :=
  h.steps.invariant (P := fun _ n => Leases n) h.sound ⟨by simp, by simp, by simp, by simp⟩
    fun _ hl hn => hl.happens hq trivial hn

theorem Course.room {σ : Setting} {e : QueueEngine} {rs : List Frame} {fresh : Bool} {hs : List Happening} {n : Node}
    (h : Course σ e rs fresh hs n) (hq : ¬ σ.faulty) {max : Nat} (hopts : ∀ opts, σ.opts opts → opts.max_inflight.toNat = max) :
    (leased n.log).card ≤ max := by
  refine (h.steps.invariant (P := fun _ n => Leases n ∧ (leased n.log).card ≤ max) h.sound
    ⟨⟨by simp, by simp, by simp, by simp⟩, Nat.zero_le _⟩ fun _ hp hn => ⟨hp.1.happens hq trivial hn, ?_⟩).2
  exact hp.1.room hopts hp.2 hn hq

/-- In a run whose messages fit the record format the inflight map is what the
log says, over any number of restarts, and it stays within `max_inflight`. -/
theorem inflight_within_max (opts : EngineOptions) (q : Path) (g : CString) (steps : List Step)
    (h : Orderly opts q g steps) (group : ConsumerGroupState)
    (hg : groupAt (run (freshEngine opts) steps) q g = some group) :
    ∃ log, (run (freshEngine opts) steps).fs.content (groupEventPath opts.data_dir q g) = encodeEvents log ∧
      (∀ id, (group.inflight.lookup id).isSome ↔ ∃ event, lastEvent log id = some event ∧ event.reason = .kDelivered) ∧
      group.inflight.entries.length ≤ opts.max_inflight.toNat ∧
      (group.runtime.entries.filter (·.2.state = .kInFlight)).length ≤ opts.max_inflight.toNat := by
  obtain ⟨rs, hs, n, hc, -⟩ := h.course (P := fun _ => True) fun _ _ => trivial
  have hl := hc.leases id
  have hmem : n.group = some group := hc.tracks.memory.trans hg
  have hmax : group.inflight.entries.length ≤ opts.max_inflight.toNat := by
    rw [hl.card hmem]
    exact hc.room id fun opts' ho => by rw [show opts' = opts from ho]
  refine ⟨n.log, (Prod.mk.inj hc.tracks.files).1, fun id => ?_, hmax, (hl.in_flight hmem).trans hmax⟩
  rw [← Option.isSome_map, hl.inflight group hmem, loggedDeadline]
  constructor
  · intro hs
    obtain ⟨deadline, hd⟩ := Option.isSome_iff_exists.1 hs
    obtain ⟨event, hlast, hev⟩ := Option.bind_eq_some_iff.1 hd
    refine ⟨event, hlast, (hl.reasons event (lastEvent_mem hlast).1).1 ?_⟩
    by_contra hne
    rw [if_neg hne] at hev
    cases hev
  · rintro ⟨event, hlast, hr⟩
    rw [hlast, Option.bind_some, if_pos ((hl.reasons event (lastEvent_mem hlast).1).2 hr)]
    rfl

theorem orderly_inFlightRestart : Orderly {} someQueue someGroup inFlightRestart := by
  refine orderly_of_everyday ?_ (by decide +kernel) (by simp [inFlightRestart, Step.operation, Step.kills])
  simp only [inFlightRestart, List.forall_mem_cons]
  exact ⟨.createQueue, .produce (by decide), .group, .kill .group, .createQueue, .group, List.forall_mem_nil _⟩

theorem inflight_within_max_restart :
    ∃ group, groupAt (run (freshEngine {}) inFlightRestart) someQueue someGroup = some group ∧
      ∃ log, (run (freshEngine {}) inFlightRestart).fs.content (groupEventPath [] someQueue someGroup) = encodeEvents log ∧
        (∀ id, (group.inflight.lookup id).isSome ↔ ∃ event, lastEvent log id = some event ∧ event.reason = .kDelivered) ∧
        group.inflight.entries.length ≤ 100 ∧
        (group.runtime.entries.filter (·.2.state = .kInFlight)).length ≤ 100 := by
  have hsome : (groupAt (run (freshEngine {}) inFlightRestart) someQueue someGroup).isSome := by decide +kernel
  obtain ⟨group, hgroup⟩ := Option.isSome_iff_exists.1 hsome
  refine ⟨group, hgroup, inflight_within_max {} someQueue someGroup inFlightRestart ?_ group hgroup⟩
  exact orderly_inFlightRestart

end PomaiQueue.Engine
