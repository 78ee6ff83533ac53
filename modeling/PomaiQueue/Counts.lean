import PomaiQueue.Recovery
import PomaiQueue.Schedule
/-!
# What GetStats counts

`GetStats` counts the runtime map of a group. The map gets the messages of the
segment when the group is loaded, and `Produce` only writes to the segment. As
long as no message is accepted while the group is loaded (`Step.Counted`), the
map has every accepted message once and the counts add up to their number.

The age of the oldest ready message is exact for every order of the map unless one
was enqueued at 0, which the loop takes for none (`oldest_ready_age_exact_iff`).
-/

namespace PomaiQueue.Engine

open Wire Posix Assoc Storage

/-! ## The counts add up -/

def QueueStats.total (stats : QueueStats) : Nat :=
  stats.ready_count.toNat + stats.inflight_count.toNat + stats.acked_count.toNat + stats.dead_count.toNat

theorem total_countItem (acc : QueueStats × UInt64) (item : Item) (h : acc.1.total + 1 < 2 ^ 64) :
    (countItem acc item).1.total = acc.1.total + 1 := by
  unfold QueueStats.total at h ⊢
  unfold countItem
  split
  all_goals
    dsimp only
    rw [toNat_succ (by omega)]
    omega

theorem total_foldl (items : List Item) (acc : QueueStats × UInt64) (h : acc.1.total + items.length < 2 ^ 64) :
    (items.foldl countItem acc).1.total = acc.1.total + items.length := by
  induction items generalizing acc with
  | nil => rfl
  | cons item items ih =>
    rw [List.length_cons] at h ⊢
    have hitem := total_countItem acc item (by omega)
    rw [List.foldl_cons, ih _ (by rw [hitem]; omega), hitem]
    omega

theorem total_groupStats (env : Env) (group : ConsumerGroupState) (h : group.runtime.entries.length < 2 ^ 64) :
    (groupStats env group).total = group.runtime.entries.length := by
  have hlen : (env.runtime_order.order group.runtime.entries).length = group.runtime.entries.length :=
    (env.runtime_order.perm _).length_eq
  have htotal := total_foldl (env.runtime_order.order group.runtime.entries) ({}, 0) (by rw [hlen]; simpa [QueueStats.total] using h)
  rw [hlen] at htotal
  have hzero : QueueStats.total {} = 0 := rfl
  rw [hzero, Nat.zero_add] at htotal
  unfold groupStats
  dsimp only
  split_ifs <;> exact htotal

/-! ## The age of the oldest ready message -/

/-- The enqueue times of the ready messages. -/
def readyTimes (items : List Item) : List UInt64 := (items.filter fun item => item.2.state = .kReady).map (·.2.enqueue_ts)

/-- One round of the search for the oldest, with 0 for none so far. -/
def pickOldest (oldest_ts ts : UInt64) : UInt64 := if oldest_ts = 0 ∨ ts < oldest_ts then ts else oldest_ts

theorem oldest_foldl (items : List Item) (acc : QueueStats × UInt64) :
    (items.foldl countItem acc).2 = (readyTimes items).foldl pickOldest acc.2 := by
  induction items generalizing acc with
  | nil => rfl
  | cons item items ih =>
    rw [List.foldl_cons, ih]
    cases hstate : item.2.state <;> simp [readyTimes, countItem, hstate, pickOldest]

theorem age_foldl (items : List Item) (acc : QueueStats × UInt64) :
    (items.foldl countItem acc).1.oldest_ready_age_ms = acc.1.oldest_ready_age_ms := by
  induction items generalizing acc with
  | nil => rfl
  | cons item items ih =>
    rw [List.foldl_cons, ih]
    cases hstate : item.2.state <;> simp [countItem, hstate]

/-- Once a time other than 0 was found, the search ends with the least. -/
theorem pickOldest_least {ts : List UInt64} (hts : ∀ t ∈ ts, t ≠ 0) {oldest_ts : UInt64} (h : oldest_ts ≠ 0) :
    ts.foldl pickOldest oldest_ts ∈ oldest_ts :: ts ∧ ∀ t ∈ oldest_ts :: ts, ts.foldl pickOldest oldest_ts ≤ t := by
  induction ts generalizing oldest_ts with
  | nil => exact ⟨List.mem_singleton.2 rfl, fun t ht => by rw [List.mem_singleton.1 ht]; exact UInt64.le_refl _⟩
  | cons t ts ih =>
    have hrest : ∀ t' ∈ ts, t' ≠ 0 := fun t' ht' => hts t' (List.mem_cons_of_mem _ ht')
    rw [List.foldl_cons]
    by_cases hlt : t < oldest_ts
    · rw [show pickOldest oldest_ts t = t from if_pos (.inr hlt)]
      obtain ⟨hmem, hle⟩ := ih hrest (hts t List.mem_cons_self)
      refine ⟨List.mem_cons_of_mem _ hmem, fun t' ht' => ?_⟩
      rcases List.mem_cons.1 ht' with rfl | ht'
      · exact UInt64.le_trans (hle t List.mem_cons_self) (UInt64.le_of_lt hlt)
      · exact hle t' ht'
    · rw [show pickOldest oldest_ts t = oldest_ts from if_neg (not_or.2 ⟨h, hlt⟩)]
      obtain ⟨hmem, hle⟩ := ih hrest h
      refine ⟨?_, fun t' ht' => ?_⟩
      · rcases List.mem_cons.1 hmem with heq | hmem
        · rw [heq]
          exact List.mem_cons_self
        · exact List.mem_cons_of_mem _ (List.mem_cons_of_mem _ hmem)
      · rcases List.mem_cons.1 ht' with rfl | ht'
        · exact hle t' List.mem_cons_self
        · rcases List.mem_cons.1 ht' with rfl | ht'
          · exact UInt64.le_trans (hle oldest_ts List.mem_cons_self) (UInt64.not_lt.1 hlt)
          · exact hle t' (List.mem_cons_of_mem _ ht')

/-- `t` is the enqueue time of a ready message. -/
def ReadyAt (runtime : Map MessageId MessageRuntime) (t : UInt64) : Prop :=
  ∃ id rt, runtime.lookup id = some rt ∧ rt.state = .kReady ∧ rt.enqueue_ts = t

/-- The time since the oldest ready message was enqueued, if there is one and it is past. -/
structure ExactAge (runtime : Map MessageId MessageRuntime) (now age : UInt64) : Prop where
  past : ∀ t, ReadyAt runtime t → (∀ t', ReadyAt runtime t' → t ≤ t') → t < now → age = now - t
  none : (∀ t, ReadyAt runtime t → ¬ t < now) → age = 0

theorem mem_readyTimes (order : IterOrder Item) (runtime : Map MessageId MessageRuntime) (t : UInt64) :
    t ∈ readyTimes (order.order runtime.entries) ↔ ReadyAt runtime t := by
  simp only [readyTimes, List.mem_map, List.mem_filter, order.mem]
  constructor
  · rintro ⟨⟨id, rt⟩, ⟨hmem, hready⟩, rfl⟩
    exact ⟨id, rt, (mem_entries_iff _ _ _).1 hmem, of_decide_eq_true hready, rfl⟩
  · rintro ⟨id, rt, hlookup, hready, rfl⟩
    exact ⟨⟨id, rt⟩, ⟨(mem_entries_iff _ _ _).2 hlookup, decide_eq_true hready⟩, rfl⟩

theorem groupStats_age (env : Env) (group : ConsumerGroupState) :
    (groupStats env group).oldest_ready_age_ms =
      let oldest_ts := (readyTimes (env.runtime_order.order group.runtime.entries)).foldl pickOldest 0
      if 0 < oldest_ts ∧ oldest_ts < env.now .getStats then env.now .getStats - oldest_ts else 0 := by
  have hage := age_foldl (env.runtime_order.order group.runtime.entries) ({}, 0)
  have holdest := oldest_foldl (env.runtime_order.order group.runtime.entries) ({}, 0)
  unfold groupStats
  generalize (env.runtime_order.order group.runtime.entries).foldl countItem ({}, 0) = counted at hage holdest
  obtain ⟨stats, oldest_ts⟩ := counted
  obtain rfl : oldest_ts = _ := holdest
  dsimp only
  split_ifs
  · rfl
  · exact hage

/-- Whatever the order in which the messages are visited, the age is exact if and only if
no ready message has the enqueue time 0, or the clock shows 0. -/
theorem oldest_ready_age_exact_iff (env : Env) (group : ConsumerGroupState) :
    ExactAge group.runtime (env.now .getStats) (groupStats env group).oldest_ready_age_ms ↔
      env.now .getStats = 0 ∨ ¬ ReadyAt group.runtime 0 := by
  rw [groupStats_age]
  have hmem := mem_readyTimes env.runtime_order group.runtime
  generalize env.now .getStats = now
  generalize readyTimes (env.runtime_order.order group.runtime.entries) = ts at hmem
  dsimp only
  constructor
  · -- The exact age of a message enqueued at 0 is `now`, which is never reported.
    intro h
    by_contra hnot
    obtain ⟨hnow, hzero⟩ := not_or.1 hnot
    have hpos : 0 < now := UInt64.pos_iff_ne_zero.2 hnow
    have hage := h.past 0 (not_not.1 hzero) (fun t' _ => UInt64.zero_le) hpos
    rw [UInt64.sub_zero] at hage
    split_ifs at hage with hr
    · obtain ⟨hr0, hrnow⟩ := hr
      have hsub := congrArg UInt64.toNat hage
      rw [UInt64.toNat_sub_of_le _ _ (UInt64.le_of_lt hrnow)] at hsub
      have h0 := UInt64.lt_iff_toNat_lt.1 hr0
      have h1 := UInt64.lt_iff_toNat_lt.1 hrnow
      rw [UInt64.toNat_zero] at h0
      omega
    · exact hnow hage.symm
  · rintro (rfl | hzero)
    · refine ⟨fun t _ _ ht => absurd ht UInt64.not_lt_zero, fun _ => if_neg fun hr => UInt64.not_lt_zero hr.2⟩
    · have hts : ∀ t ∈ ts, t ≠ 0 := by
        rintro t ht rfl
        exact hzero ((hmem 0).1 ht)
      cases ts with
      | nil =>
        refine ⟨fun t ht => ?_, fun _ => if_neg fun hr => UInt64.lt_irrefl _ hr.1⟩
        cases (hmem t).2 ht
      | cons t0 ts =>
        have ht0 : t0 ≠ 0 := hts t0 List.mem_cons_self
        obtain ⟨hleast, hle⟩ := pickOldest_least (fun t ht => hts t (List.mem_cons_of_mem _ ht)) ht0
        rw [List.foldl_cons, show pickOldest 0 t0 = t0 from if_pos (.inl rfl)]
        generalize ts.foldl pickOldest t0 = oldest_ts at hleast hle
        have hne : oldest_ts ≠ 0 := hts oldest_ts hleast
        refine ⟨fun t ht hall hlt => ?_, fun hnone => ?_⟩
        · have heq : t = oldest_ts := UInt64.le_antisymm (hall _ ((hmem _).1 hleast)) (hle t ((hmem t).2 ht))
          rw [← heq]
          rw [← heq] at hne
          exact if_pos ⟨UInt64.pos_iff_ne_zero.2 hne, hlt⟩
        · exact if_neg fun hr => hnone oldest_ts ((hmem _).1 hleast) hr.2

/-- A message that was enqueued at 0 and is ready. -/
def enqueuedAtZero : ConsumerGroupState where
  runtime := (∅ : Map MessageId MessageRuntime).insert ⟨1, 2⟩ (defaultRuntime 0 0)

/-- At 10 it is 10 milliseconds old, and the age reported is 0. -/
theorem age_of_zero_lost :
    ¬ ExactAge enqueuedAtZero.runtime 10
      (groupStats { now := fun _ => 10, now_ne := by intro _; decide } enqueuedAtZero).oldest_ready_age_ms := by
  intro h
  have hready : ReadyAt enqueuedAtZero.runtime 0 := ⟨⟨1, 2⟩, defaultRuntime 0 0, rfl, rfl, rfl⟩
  have hage := h.past 0 hready (fun t' _ => UInt64.zero_le) (by decide)
  revert hage
  decide +kernel

/-! ## The messages of a group -/

section keys

variable {faulty : Prop} {env : Env} {opts : EngineOptions} {g : CString} {read : UInt64 → StatusOr Record} {op : GroupOp}

/-- No move takes an entry away. -/
theorem Move.keys {a b : ConsumerGroupState} {l : Label} (hm : Move faulty env opts g read op a l b) {id : MessageId}
    (h : id ∈ a.runtime.keys) : id ∈ b.runtime.keys := by
  cases hm with
  | sched hs =>
    rw [hs.runtime]
    exact h
  | forget _ _ => exact h
  | meet id0 rt0 record rt _ _ _ _ =>
    exact AList.mem_keys.1 ((AList.mem_insert _).2 (.inr (AList.mem_keys.2 h)))
  | fire _ =>
    rw [applyTransition_keys]
    exact h
  | lose _ _ => exact h
  | skip _ _ => exact h
  | persist => exact h

end keys

theorem load_keys {env : Env} {opts : EngineOptions} {q : Path} {g : CString} {segment : SegmentLog} {fs : Fs}
    {group : ConsumerGroupState} (h : loadGroupState env opts q g segment fs = .ok group) {id : MessageId}
    (hid : InSegment segment fs id) : id ∈ group.runtime.keys := by
  obtain ⟨messages, base, events, hm, hbase, -, rfl⟩ := loadGroupState_ok h
  change id ∈ (mapValues _ (replay env opts events base).runtime).keys
  rw [mapValues_keys, replay_keys, (loadStateFile_ok hbase).1]
  exact (load_known hm id).2 hid

/-! ## Accepted messages -/

/-- The message, if the step is a `Produce` on the queue that returns `Ok`. -/
def Step.accepted (q : Path) (e : QueueEngine) : Step → List Message
  | .op env (.produce q' m) => if q' = q ∧ (runOp env e (.produce q' m)).1.isOk = true then [m] else []
  | _ => []

def acceptedIn (q : Path) : QueueEngine → List Step → List Message
  | _, [] => []
  | e, s :: steps => s.accepted q e ++ acceptedIn q (step e s) steps

/-- `Produce` refuses every message. -/
def Full (e : QueueEngine) (q : Path) : Prop :=
  ∃ queue, e.queues.lookup q = some queue ∧
    (e.options.max_queue_depth.toNat ≤ queue.segment.next_offset.toNat ∨
      e.options.max_segment_size_bytes.toNat ≤ queue.segment.sizeBytes e.fs)

/-- The step does not produce to a queue of which the group is loaded, unless the
queue is full. -/
def Step.Counted (q : Path) (g : CString) (e : QueueEngine) (s : Step) : Prop :=
  ∀ env m, s = .op env (.produce q m) → groupAt e q g = none ∨ Full e q

theorem Full.refuses {e : QueueEngine} {q : Path} (h : Full e q) (env : Env) (m : Message) :
    (produceOnShard env q m e).1.isOk = false := by
  obtain ⟨queue, hqueue, hfull⟩ := h
  unfold produceOnShard
  simp only [hqueue]
  split_ifs with hdepth hsize
  · rfl
  · rfl
  · exact absurd hfull (not_or.2 ⟨hdepth, hsize⟩)

theorem accepted_ids (q : Path) (env : Env) (e : QueueEngine) (o : Op) :
    (Step.accepted q e (.op env o)).map (·.id) = (addedBy q env e o).map fun f => idOf f.2 := by
  cases o with
  | produce q' m =>
    have hok : (runOp env e (.produce q' m)).1.isOk = (produceOnShard env q' m e).1.isOk := by
      change ((produceOnShard env q' m e).1.map Reply.offset).isOk = _
      cases (produceOnShard env q' m e).1 <;> rfl
    simp only [Step.accepted, addedBy, hok]
    split_ifs <;> rfl
  | createQueue q' => rfl
  | group q' g' op => rfl

/-- The group has the messages `rs` of its queue, if it is loaded. -/
def Tally (q : Path) (g : CString) (e : QueueEngine) (rs : List Frame) : Prop :=
  ∀ group, groupAt e q g = some group → ∀ f ∈ rs, idOf f.2 ∈ group.runtime.keys

section course

variable {σ : Setting} {e : QueueEngine} {rs : List Frame} {fresh : Bool} {hs : List Happening} {n : Node}

/-- The group after an operation on it has the messages of the queue. -/
theorem Course.tally_group (h : Course σ e rs fresh hs n) (ht : Tally σ.queue σ.group e rs) (env : Env) (op : GroupOp) :
    Tally σ.queue σ.group (runOp env e (.group σ.queue σ.group op)).2 rs := by
  intro group hat f hf
  cases hfound : foundGroup env e σ.queue σ.group with
  | none =>
    rw [runOp_unfound op hfound] at hat
    exact ht group hat f hf
  | some group0 =>
    obtain ⟨queue, hqueue, hget⟩ := foundGroup_eq hfound
    have hmem : idOf f.2 ∈ group0.runtime.keys := by
      unfold getGroup at hget
      split at hget
      · rename_i group1 h1
        obtain rfl := Except.ok.inj hget
        exact ht group1 (by rw [groupAt, hqueue, Option.bind_some, h1]) f hf
      · exact load_keys hget (h.inSegment hqueue hf)
    have hseg : Aside (groupFiles e.options.data_dir σ.queue σ.group) queue.segment.path := by
      rw [h.tracks.placed σ.queue queue hqueue]
      exact aside_segment _ _ _ _
    obtain ⟨labels, hd, -, -⟩ : ∃ labels, DoesBy env e.options σ.queue σ.group (queue.segment.read e.fs) op group0 e.fs labels
        (groupOp env e.options σ.queue σ.group op queue.segment group0 e.fs).2.1 _ ∧ _ :=
      groupOp_does op queue.segment group0 e.fs hseg
    rw [(runOp_found op hqueue hget).1] at hat
    obtain rfl := Option.some.inj hat
    exact hd.moves.keeps (fun hm => hm.keys) hmem

theorem Course.tally_op (h : Course σ e rs fresh hs n) {env : Env} {o : Op} (ha : σ.Allows e fresh (.op env o))
    (hc : Step.Counted σ.queue σ.group e (.op env o)) (ht : Tally σ.queue σ.group e rs) :
    Tally σ.queue σ.group (Engine.step e (.op env o)) (rs ++ addedBy σ.queue env e o) := by
  by_cases hop : ∃ op, o = .group σ.queue σ.group op
  · obtain ⟨op, rfl⟩ := hop
    rw [show addedBy σ.queue env e (.group σ.queue σ.group op) = [] from rfl, List.append_nil]
    exact h.tally_group ht env op
  · have hapart : o.Apart σ.dir σ.queue σ.group := ha.apart
    obtain ⟨hsame, -⟩ := runOp_foreign env h.tracks hapart fun op heq => hop ⟨op, heq⟩
    intro group hat f hf
    change groupAt (runOp env e o).2 σ.queue σ.group = some group at hat
    rw [hsame] at hat
    rcases List.mem_append.1 hf with hf | hf
    · exact ht group hat f hf
    · -- The message was accepted, so the group was not there yet.
      exfalso
      cases o with
      | createQueue q => cases hf
      | group q g op => cases hf
      | produce q m =>
        simp only [addedBy] at hf
        split_ifs at hf with hand
        · obtain ⟨rfl, hok⟩ := hand
          rcases hc env m rfl with hnone | hfull
          · rw [hnone] at hat
            cases hat
          · rw [hfull.refuses env m] at hok
            cases hok
        · cases hf

theorem Course.tally_run {steps : List Step} (h : Course σ e rs fresh hs n) (hf : σ.Follows e fresh steps)
    (halive : ∀ s ∈ steps, s.kills = false) (hc : EachStep (fun e s => s.Counted σ.queue σ.group e) e steps)
    (ht : Tally σ.queue σ.group e rs) :
    ∃ rs' hs' n', Course σ (Engine.run e steps) (rs ++ rs') fresh hs' n' ∧
      Tally σ.queue σ.group (Engine.run e steps) (rs ++ rs') ∧
      rs'.map (fun f => idOf f.2) = (acceptedIn σ.queue e steps).map (·.id) := by
  induction steps generalizing e rs hs n with
  | nil => exact ⟨[], hs, n, by rwa [List.append_nil], by rwa [List.append_nil], rfl⟩
  | cons s steps ih =>
    cases s with
    | kill env o k options => exact absurd (halive _ List.mem_cons_self) (by simp [Step.kills])
    | op env o =>
      obtain ⟨hs1, n1, hc1, -, -, -, -⟩ := h.op hf.1
      have hrest : σ.Follows (Engine.step e (.op env o)) fresh steps := by simpa [Step.kills] using hf.2
      obtain ⟨rs', hs', n', hcourse, htally, hids⟩ := ih hc1 hrest (fun s hs => halive s (List.mem_cons_of_mem _ hs)) hc.2
        (h.tally_op hf.1 hc.1 ht)
      refine ⟨addedBy σ.queue env e o ++ rs', hs', n', ?_, ?_, ?_⟩
      · rw [← List.append_assoc]
        exact hcourse
      · rw [← List.append_assoc]
        exact htally
      · rw [List.map_append, hids, acceptedIn, List.map_append, accepted_ids]

/-- The group has as many entries as there are messages. -/
theorem Course.entries_length (h : Course σ e rs fresh hs n) (ht : Tally σ.queue σ.group e rs)
    (hnodup : (rs.map fun f => idOf f.2).Nodup) {group : ConsumerGroupState} (hat : groupAt e σ.queue σ.group = some group) :
    group.runtime.entries.length = rs.length := by
  have hkeys : group.runtime.keys.Perm (rs.map fun f => idOf f.2) := by
    rw [List.perm_ext_iff_of_nodup group.runtime.keys_nodup hnodup]
    intro id
    constructor
    · intro hid
      obtain ⟨rt, hrt⟩ := (mem_keys_iff _ _).1 hid
      obtain ⟨r, ⟨f, hf, rfl⟩, hrid, -⟩ := (h.entries.memory group (by rw [h.tracks.memory, hat]) id rt hrt).filed
      rw [← hrid]
      exact List.mem_map.2 ⟨f, List.mem_of_getElem? hf, rfl⟩
    · intro hid
      obtain ⟨f, hf, rfl⟩ := List.mem_map.1 hid
      exact ht group hat f hf
  have hlen := hkeys.length_eq
  rw [List.length_map] at hlen
  rw [← hlen]
  exact (List.length_map _).symm

end course

/-! ## Runs -/

/-- The life of one process without I/O errors. Other queues and groups may be used
if their files and the directories in front of these are elsewhere, and messages fit the record format. -/
structure OneLife (opts : EngineOptions) (q : Path) (g : CString) (steps : List Step) : Prop where
  alive : ∀ s ∈ steps, s.kills = false
  quiet : ∀ s ∈ steps, s.Quiet
  accepted : EachStep (fun e s => ∀ env o, s = .op env o → ∀ msg, (runOp env e o).1 ≠ .error (.status .kIOError msg))
    (freshEngine opts) steps
  apart : ∀ s ∈ steps, s.operation.Apart opts.data_dir q g
  clear : ∀ s ∈ steps, s.operation.Clear opts.data_dir q
  fits : ∀ s ∈ steps, ∀ m, s.operation = .produce q m → (recordOf m).Fits

theorem OneLife.follows {opts : EngineOptions} {q : Path} {g : CString} {steps : List Step} (h : OneLife opts q g steps) :
    (quietSetting opts q g fun _ => True).Follows (freshEngine opts) true steps := by
  refine follows_of_steps (fun _ _ => trivial) h.quiet ?_ h.apart h.clear ?_ h.fits (.inl rfl) h.accepted
  · intro env o k options hmem
    cases h.alive _ hmem
  · refine List.Pairwise.imp_of_mem (fun {s s'} hs _ _ hk => ?_) (List.pairwise_of_forall fun _ _ => trivial)
    rw [h.alive s hs] at hk
    cases hk

/-- `GetStats` can be called at any time. -/
theorem allows_getStats (opts : EngineOptions) (q : Path) (g : CString) {env : Env} (hq : env.toIo.Quiet) (e : QueueEngine)
    (fresh : Bool) : (quietSetting opts q g fun _ => True).Allows e fresh (.op env (.group q g .getStats)) where
  apart := .inl ⟨rfl, rfl⟩
  clear := trivial
  env := trivial
  whole data n h := by
    have hfault : env.fault _ = some n := h
    rw [hq.fault] at hfault
    cases hfault
  faulty h := h hq
  produce _ h := nomatch h
  io _ _ h := nomatch h
  options _ _ _ _ h := nomatch h
  settled h := h.elim

/-- In a process that started on an empty data directory, the counts of every
group of the queue add up to the number of messages that were accepted, as long as none
was accepted while the group was loaded. -/
theorem stats_count_accepted (opts : EngineOptions) (q : Path) (g : CString) (steps : List Step)
    (h : OneLife opts q g steps) (hdistinct : ((acceptedIn q (freshEngine opts) steps).map (·.id)).Nodup)
    (hcounted : EachStep (fun e s => s.Counted q g e) (freshEngine opts) steps)
    (hqueue : ((run (freshEngine opts) steps).queues.lookup q).isSome) (env : Env) (hq : env.toIo.Quiet) :
    ∃ stats, (runOp env (run (freshEngine opts) steps) (.group q g .getStats)).1 = .ok (.stats stats) ∧
      stats.total = (acceptedIn q (freshEngine opts) steps).length := by
  obtain ⟨rs, hs, n, hc, htally, hids⟩ := (course_fresh opts q g fun _ => True).tally_run h.follows h.alive hcounted
    fun group _ f hf => (by cases hf)
  rw [List.nil_append] at hc htally
  obtain ⟨queue, hqueue⟩ := Option.isSome_iff_exists.1 hqueue
  generalize run (freshEngine opts) steps = e at *
  have hopts : e.options = opts := hc.opts
  -- The group is there or can be loaded.
  obtain ⟨group, hget⟩ : ∃ group, getGroup env e.options q queue g e.fs = .ok group := by
    unfold getGroup
    cases queue.groups.lookup g with
    | some group => exact ⟨group, rfl⟩
    | none => exact hc.loads hqueue hq.reads (congrArg _ hopts)
  obtain ⟨hat, -⟩ := runOp_found .getStats hqueue hget
  -- What is counted is the group after the call.
  obtain ⟨hs', n', hc', -, -, -, -⟩ := hc.op (allows_getStats opts q g hq e true)
  have hnone : addedBy q env e (.group q g .getStats) = [] := rfl
  rw [show (quietSetting opts q g fun _ => True).queue = q from rfl, hnone, List.append_nil] at hc'
  have hlen := hc'.entries_length (hc.tally_group htally env .getStats) (by rw [hids]; exact hdistinct) hat
  have hsmall := hc.stored.length_lt
  have hcount : (rs.map fun f => idOf f.2).length = ((acceptedIn q (freshEngine opts) steps).map (·.id)).length :=
    congrArg List.length hids
  rw [List.length_map, List.length_map] at hcount
  refine ⟨groupStats env (groupOp env e.options q g .getStats queue.segment group e.fs).2.1, ?_, ?_⟩
  · rw [runOp_group]
    simp only [onGroup, hqueue, hget]
    rfl
  · rw [total_groupStats _ _ (by rw [hlen]; omega), hlen, hcount]

/-! ## Examples -/

/-- The group is loaded before the message is produced. -/
def producedLate : List Step :=
  [.op {} (.createQueue someQueue), .op {} (.group someQueue someGroup .getStats), .op {} (.produce someQueue someMessage)]

theorem Orderly.oneLife {opts : EngineOptions} {q : Path} {g : CString} {steps : List Step} (h : Orderly opts q g steps)
    (halive : ∀ s ∈ steps, s.kills = false) : OneLife opts q g steps where
  alive := halive
  quiet := h.quiet
  accepted := h.accepted
  apart := h.apart
  clear := h.clear
  fits := h.fits

theorem oneLife_oneLease : OneLife {} someQueue someGroup oneLease := by
  refine (orderly_of_everyday ?_ (by decide +kernel) (by simp [oneLease, Step.kills])).oneLife (by simp [oneLease, Step.kills])
  simp only [oneLease, List.forall_mem_cons]
  exact ⟨.createQueue, .produce (by decide), .group, List.forall_mem_nil _⟩

theorem oneLife_producedLate : OneLife {} someQueue someGroup producedLate := by
  refine (orderly_of_everyday ?_ (by decide +kernel) (by simp [producedLate, Step.kills])).oneLife
    (by simp [producedLate, Step.kills])
  simp only [producedLate, List.forall_mem_cons]
  exact ⟨.createQueue, .group, .produce (by decide), List.forall_mem_nil _⟩

theorem stats_count_accepted_first :
    ∃ stats, (runOp {} (run (freshEngine {}) oneLease) (.group someQueue someGroup .getStats)).1 = .ok (.stats stats) ∧
      stats.total = (acceptedIn someQueue (freshEngine {}) oneLease).length := by
  refine stats_count_accepted {} someQueue someGroup oneLease oneLife_oneLease (by decide +kernel) ?_
    (by decide +kernel) {} quiet_default
  refine ⟨fun env m h => ?_, fun env m h => .inl ?_, fun env m h => ?_, trivial⟩
  · cases h
  · cases h
    rfl
  · cases h

/-- The sum of the counts that `GetStats` returned. -/
def statsTotal : StatusOr Reply → Option Nat
  | .ok (.stats stats) => some stats.total
  | _ => none

/-- A message that is accepted after the group was loaded is counted nowhere. -/
theorem late_message_not_counted :
    OneLife {} someQueue someGroup producedLate ∧
      (acceptedIn someQueue (freshEngine {}) producedLate).map (·.id) = [⟨1, 2⟩] ∧
      ∃ stats, (runOp {} (run (freshEngine {}) producedLate) (.group someQueue someGroup .getStats)).1 = .ok (.stats stats) ∧
        stats.total = 0 := by
  refine ⟨oneLife_producedLate, by decide +kernel, ?_⟩
  have htotal : statsTotal (runOp {} (run (freshEngine {}) producedLate) (.group someQueue someGroup .getStats)).1 = some 0 := by
    decide +kernel
  unfold statsTotal at htotal
  split at htotal
  · rename_i stats heq
    exact ⟨stats, heq, Option.some.inj htotal⟩
  · cases htotal

end PomaiQueue.Engine
