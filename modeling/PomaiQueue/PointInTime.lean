import PomaiQueue.Deliveries
import PomaiQueue.Recovery
/-!
# Replaying a group up to a sequence number

`ReplayToSequence` builds the states of a group from the segment and a first
part of the log. `Reflects` says that the runtime map of the live group shows
what the log says; every event keeps it, and a load does when the log leaves no
message in flight. `replay_agrees` compares the two over whole runs: the counts
now, and the counts after every event of the history.

A load that finds a message in flight makes it ready without logging it, and
then the two differ (`replay_misses_recovery`).
-/

namespace PomaiQueue.Engine

open Wire Posix Assoc Storage

/-! ## The operation -/

structure ReplayResult where
  applied_sequence : UInt64 := 0
  stats : QueueStats := {}
  deriving DecidableEq

def replayDefaultReady : CString := ⟨ascii "replay-default-ready", by decide⟩

def replayRuntime (offset enqueue_ts : UInt64) : MessageRuntime where
  state := .kReady
  offset := offset
  enqueue_ts := enqueue_ts
  last_transition_ts := enqueue_ts
  last_transition_reason := replayDefaultReady

/-- The runtime map before any event is replayed. -/
def replayRuntimes (messages : List (UInt64 × Message)) (runtime : Map MessageId MessageRuntime) :
    Map MessageId MessageRuntime :=
  messages.foldl (fun runtime om => runtime.insert om.2.id (replayRuntime om.1 om.2.enqueue_ts)) runtime

def tallyItem (stats : QueueStats) (item : Item) : QueueStats :=
  match item.2.state with
  | .kReady => { stats with ready_count := stats.ready_count + 1 }
  | .kInFlight => { stats with inflight_count := stats.inflight_count + 1 }
  | .kAcked => { stats with acked_count := stats.acked_count + 1 }
  | .kDead => { stats with dead_count := stats.dead_count + 1 }

def replayToSequenceOnShard (env : Env) (queue_name : Path) (group_id : CString) (until_sequence : UInt64)
    (engine : QueueEngine) : StatusOr ReplayResult :=
  match engine.queues.lookup queue_name with
  | none => queueNotFound
  | some queue =>
    let replay := initScheduler env engine.options {}
    match readMessages queue.segment engine.fs queue.segment.offsets with
    | .error e => .error e
    | .ok messages =>
      let replay := { replay with runtime := replayRuntimes messages replay.runtime }
      match loadTransitions env.toIo engine.options queue_name group_id until_sequence engine.fs with
      | .error e => .error e
      | .ok events =>
        let replay := buildReadyQueue env (events.foldl (applyTransition env engine.options) replay)
        .ok
          { applied_sequence := match events.getLast? with
              | none => 0
              | some event => event.sequence
            stats := (env.runtime_order.order replay.runtime.entries).foldl tallyItem {} }

/-! ## Counts -/

/-- How many messages are in each state. -/
def tally (runtime : Map MessageId MessageRuntime) : QueueStats where
  ready_count := UInt64.ofNat (runtime.entries.countP (·.2.state = .kReady))
  inflight_count := UInt64.ofNat (runtime.entries.countP (·.2.state = .kInFlight))
  acked_count := UInt64.ofNat (runtime.entries.countP (·.2.state = .kAcked))
  dead_count := UInt64.ofNat (runtime.entries.countP (·.2.state = .kDead))

theorem foldl_tallyItem (items : List Item) (stats : QueueStats) :
    items.foldl tallyItem stats =
      { stats with
        ready_count := stats.ready_count + UInt64.ofNat (items.countP (·.2.state = .kReady))
        inflight_count := stats.inflight_count + UInt64.ofNat (items.countP (·.2.state = .kInFlight))
        acked_count := stats.acked_count + UInt64.ofNat (items.countP (·.2.state = .kAcked))
        dead_count := stats.dead_count + UInt64.ofNat (items.countP (·.2.state = .kDead)) } := by
  induction items generalizing stats with
  | nil => simp
  | cons item items ih =>
    rw [List.foldl_cons, ih]
    have hsucc : ∀ (a : UInt64) (k : Nat), a + 1 + UInt64.ofNat k = a + UInt64.ofNat (k + 1) := by
      intro a k
      rw [UInt64.ofNat_add, UInt64.add_assoc, UInt64.add_comm 1]
      rfl
    cases hs : item.2.state <;> simp [tallyItem, hs, hsucc]

theorem tally_order (order : IterOrder Item) (runtime : Map MessageId MessageRuntime) :
    (order.order runtime.entries).foldl tallyItem {} = tally runtime := by
  have hcount : ∀ s : MessageState, (order.order runtime.entries).countP (·.2.state = s) = runtime.entries.countP (·.2.state = s) :=
    fun s => (order.perm runtime.entries).countP_eq _
  rw [foldl_tallyItem, hcount, hcount, hcount, hcount, tally]
  simp

/-- The counts depend on the ids and their states only. -/
theorem tally_congr {m m' : Map MessageId MessageRuntime}
    (h : ∀ id, (m.lookup id).map (·.state) = (m'.lookup id).map (·.state)) : tally m = tally m' := by
  have hmem : ∀ (m : Map MessageId MessageRuntime) (x : MessageId × MessageState),
      x ∈ m.entries.map (fun item => (item.1, item.2.state)) ↔ (m.lookup x.1).map (·.state) = some x.2 := by
    intro m x
    rw [List.mem_map, Option.map_eq_some_iff]
    constructor
    · rintro ⟨⟨id, rt⟩, hmem, rfl⟩
      exact ⟨rt, (mem_entries_iff _ _ _).1 hmem, rfl⟩
    · rintro ⟨rt, hrt, hs⟩
      exact ⟨⟨x.1, rt⟩, (mem_entries_iff _ _ _).2 hrt, Prod.ext rfl hs⟩
  have hnodup : ∀ m : Map MessageId MessageRuntime, (m.entries.map fun item => (item.1, item.2.state)).Nodup := by
    intro m
    have hkeys : ((m.entries.map fun item => (item.1, item.2.state)).map Prod.fst).Nodup := by
      rw [List.map_map]
      exact m.keys_nodup
    exact hkeys.of_map _
  have hperm : (m.entries.map fun item => (item.1, item.2.state)).Perm (m'.entries.map fun item => (item.1, item.2.state)) := by
    refine (List.perm_ext_iff_of_nodup (hnodup m) (hnodup m')).2 fun x => ?_
    rw [hmem, hmem, h]
  have hcount : ∀ s : MessageState, m.entries.countP (·.2.state = s) = m'.entries.countP (·.2.state = s) := by
    intro s
    have := hperm.countP_eq fun x => decide (x.2 = s)
    rwa [List.countP_map, List.countP_map] at this
  rw [tally, tally, hcount, hcount, hcount, hcount]

/-! ## What the log says -/

/-- The state of a message as the log has it. -/
def stateAt (log : List TransitionEvent) (id : MessageId) : MessageState := (lastEvent log id).elim .kReady (·.state)

theorem stateAt_concat (log : List TransitionEvent) (event : TransitionEvent) (id : MessageId) :
    stateAt (log ++ [event]) id = if event.id = id then event.state else stateAt log id := by
  rw [stateAt, lastEvent_concat]
  split <;> rfl

/-- The map holds the messages `ids`, each in the state that the log says. -/
structure Reflects (ids : MessageId → Prop) (log : List TransitionEvent) (runtime : Map MessageId MessageRuntime) : Prop where
  keys : ∀ id, id ∈ runtime.keys ↔ ids id
  states : ∀ id rt, runtime.lookup id = some rt → rt.state = stateAt log id

theorem Reflects.tally {ids : MessageId → Prop} {log : List TransitionEvent} {m m' : Map MessageId MessageRuntime}
    (h : Reflects ids log m) (h' : Reflects ids log m') : tally m = tally m' := by
  refine tally_congr fun id => ?_
  cases hm : m.lookup id with
  | none =>
    have hnot : ¬ ids id := by
      rw [← h.keys, mem_keys_iff, hm]
      simp
    rw [← h'.keys, mem_keys_iff, ← Option.isSome_iff_exists, Option.not_isSome_iff_eq_none] at hnot
    rw [hnot]
  | some rt =>
    have hid : ids id := (h.keys id).1 ((mem_keys_iff _ _).2 ⟨rt, hm⟩)
    obtain ⟨rt', hm'⟩ := (mem_keys_iff _ _).1 ((h'.keys id).2 hid)
    rw [hm', Option.map_some, Option.map_some, h.states id rt hm, h'.states id rt' hm']

theorem Reflects.apply {ids : MessageId → Prop} {log : List TransitionEvent} {group : ConsumerGroupState}
    (h : Reflects ids log group.runtime) (env : Env) (opts : EngineOptions) (event : TransitionEvent) :
    Reflects ids (log ++ [event]) (applyTransition env opts group event).runtime := by
  refine ⟨fun id => by rw [applyTransition_keys]; exact h.keys id, fun id rt hrt => ?_⟩
  rw [lookup_applyTransition] at hrt
  rw [stateAt_concat]
  by_cases hid : id = event.id
  · rw [if_pos hid] at hrt
    obtain ⟨rt0, -, rfl⟩ := Option.map_eq_some_iff.1 hrt
    rw [if_pos hid.symm]
    rfl
  · rw [if_neg hid] at hrt
    rw [if_neg (Ne.symm hid)]
    exact h.states id rt hrt

theorem Reflects.foldl {ids : MessageId → Prop} {group : ConsumerGroupState} (h : Reflects ids [] group.runtime) (env : Env)
    (opts : EngineOptions) (log : List TransitionEvent) :
    Reflects ids log (log.foldl (applyTransition env opts) group).runtime := by
  induction log using List.reverseRecOn with
  | nil => exact h
  | append_singleton log event ih =>
    rw [List.foldl_append]
    exact ih.apply env opts event

/-! ## The live group -/

/-- The group and its history show what the log says. -/
structure Mirrors (ids : MessageId → Prop) (tr : Trace) (n : Node) : Prop where
  events : tr.map Prod.fst = n.log
  past : ∀ k event runtime, tr[k]? = some (event, runtime) → Reflects ids (n.log.take (k + 1)) runtime
  memory : ∀ group, n.group = some group → Reflects ids n.log group.runtime

/-- A load that finds nothing in flight changes no state, so it reflects the log. -/
theorem reflects_rebuilt {rules : Rules} (hids : ∀ o r, rules.site o r → rules.present (idOf r)) {n : Node} (he : Entries rules n)
    {env : Env} {opts : EngineOptions} {messages : List (UInt64 × Message)} {base : ConsumerGroupState}
    (hsite : Sited rules.site messages) (hpres : ∀ id, rules.present id → ∃ om ∈ messages, om.2.id = id)
    (hsettled : ∀ id event, lastEvent n.log id = some event → event.state ≠ .kInFlight)
    (hbase : Restores n.snaps.getLast? (defaultGroup env opts messages) base) :
    Reflects rules.present n.log (rebuilt env opts n.log base).runtime := by
  have hkeys : (rebuilt env opts n.log base).runtime.keys = (defaultGroup env opts messages).runtime.keys := by
    rw [← hbase.keys.1, ← replay_keys env opts n.log base]
    exact mapValues_keys _ _
  refine ⟨fun id => ?_, fun id rt hrt => ?_⟩
  · rw [hkeys, mem_keys_iff]
    constructor
    · rintro ⟨rt, hrt⟩
      obtain ⟨om, hom, rfl, -⟩ := lookup_defaultRuntimes hrt
      obtain ⟨r, hr, hid, -⟩ := hsite om ((env.offset_order.mem _ _).1 hom)
      rw [← hid]
      exact hids _ r hr
    · intro hid
      obtain ⟨om, hom, hom'⟩ := hpres id hid
      rw [← mem_keys_iff]
      exact mem_defaultRuntimes _ _ _ (.inr ⟨om, (env.offset_order.mem _ _).2 hom, hom'⟩)
  · rw [lookup_rebuilt, Option.map_eq_some_iff] at hrt
    obtain ⟨rt0, hrt0, rfl⟩ := hrt
    have hstate : (rt0.restored (lastEvent n.log id)).state = stateAt n.log id := by
      rw [stateAt]
      cases hlast : lastEvent n.log id with
      | none =>
        have hd : rt0.IsDefault := (he.base hsite (fun _ => List.mem_of_getLast?) hbase hrt0).default hlast
        change rt0.state = .kReady
        rw [hd]
        rfl
      | some event => rfl
    have hne : stateAt n.log id ≠ .kInFlight := by
      rw [stateAt]
      cases hlast : lastEvent n.log id with
      | none => simp
      | some event => exact hsettled id event hlast
    rw [MessageRuntime.recovered, if_neg (by rw [hstate]; exact hne), hstate]

/-- One more event, and what the map is after it. -/
theorem Mirrors.past_concat {ids : MessageId → Prop} {tr : Trace} {n : Node} (h : Mirrors ids tr n) {event : TransitionEvent}
    {after : Map MessageId MessageRuntime} (hafter : Reflects ids (n.log ++ [event]) after) (k : Nat) (e : TransitionEvent)
    (runtime : Map MessageId MessageRuntime) (hk : (tr ++ [(event, after)])[k]? = some (e, runtime)) :
    Reflects ids ((n.log ++ [event]).take (k + 1)) runtime := by
  have hlen : tr.length = n.log.length := by rw [← h.events, List.length_map]
  rcases Nat.lt_or_ge k tr.length with hlt | hge
  · rw [List.getElem?_append_left hlt] at hk
    rw [List.take_append_of_le_length (by omega)]
    exact h.past k e runtime hk
  · rw [List.getElem?_append_right hge] at hk
    obtain ⟨rfl, rfl⟩ := Prod.mk.inj (List.mem_singleton.1 (List.mem_of_getElem? hk))
    rw [List.take_of_length_le (by rw [List.length_append, List.length_singleton]; omega)]
    exact hafter

theorem Mirrors.happens {rules : Rules} (hq : ¬ rules.faulty) (hset : rules.settled)
    (hids : ∀ o r, rules.site o r → rules.present (idOf r)) {tr : Trace} {n n' : Node} {x : Happening}
    (he : Entries rules n) (h : Mirrors rules.present tr n) (hn : Happens rules n x n') :
    Mirrors rules.present (tr ++ x.trace) n' := by
  cases hn with
  | @loaded _ env opts messages base hg ho hsite hcov hsettled hpres hbase hg' hlog =>
    rw [show Happening.trace .loaded = [] from rfl, List.append_nil]
    refine ⟨by rw [hlog]; exact h.events, by rw [hlog]; exact h.past, fun group hgroup => ?_⟩
    obtain rfl := Option.some.inj (hgroup.symm.trans hg')
    rw [hlog]
    exact reflects_rebuilt hids he hsite hpres (hsettled hset) hbase
  | @idle x _ a b hx hc htr hg hg' hlog hmarks hrt hin =>
    rw [htr hq, List.append_nil]
    refine ⟨by rw [hlog]; exact h.events, by rw [hlog]; exact h.past, fun group hgroup => ?_⟩
    obtain rfl := Option.some.inj (hgroup.symm.trans hg')
    rw [hrt, hlog]
    exact h.memory a hg
  | @fired _ env opts read op a event hg henv ho hread hf hg' hlog =>
    have hbump : Reflects rules.present n.log (bump a).runtime := h.memory a hg
    have happly := hbump.apply env opts event
    refine ⟨by rw [hlog, List.map_append, h.events]; rfl, by rw [hlog]; exact h.past_concat happly, fun group hgroup => ?_⟩
    obtain rfl := Option.some.inj (hgroup.symm.trans hg')
    rw [hlog]
    exact happly
  | lost hfaulty => exact absurd hfaulty hq
  | crashed hg' hlog =>
    rw [show Happening.trace .crashed = [] from rfl, List.append_nil]
    refine ⟨by rw [hlog]; exact h.events, by rw [hlog]; exact h.past, fun group hgroup => ?_⟩
    rw [hg'] at hgroup
    cases hgroup

theorem mirrors_steps {rules : Rules} (hr : rules.Sound) (hq : ¬ rules.faulty) (hset : rules.settled)
    (hids : ∀ o r, rules.site o r → rules.present (idOf r)) {n : Node} {hs : List Happening} (h : Steps rules {} hs n) :
    Mirrors rules.present (traceAll hs) n := by
  refine h.invariant (P := fun hs n => Mirrors rules.present (traceAll hs) n) hr ⟨rfl, by simp [traceAll], by simp⟩ ?_
  intro hs n x n' he hm hn
  have := hm.happens hq hset hids he hn
  rwa [traceAll_append, show traceAll [x] = x.trace by simp [traceAll]]

/-! ## A part of the log -/

theorem filter_le_take {log : List TransitionEvent} (hs : log.Pairwise fun a b => a.sequence < b.sequence) {k : Nat}
    {event : TransitionEvent} (hk : log[k]? = some event) :
    log.filter (fun e => e.sequence ≤ event.sequence) = log.take (k + 1) := by
  induction log generalizing k with
  | nil => cases hk
  | cons e log ih =>
    obtain ⟨hlt, hs'⟩ := List.pairwise_cons.1 hs
    cases k with
    | zero =>
      obtain rfl := Option.some.inj hk
      have hnone : log.filter (fun x => decide (x.sequence ≤ e.sequence)) = [] := by
        rw [List.filter_eq_nil_iff]
        intro x hx hle
        exact UInt64.lt_irrefl _ (UInt64.lt_of_lt_of_le (hlt x hx) (of_decide_eq_true hle))
      rw [List.filter_cons_of_pos (by simp), hnone]
      rfl
    | succ k =>
      rw [List.getElem?_cons_succ] at hk
      have hle : e.sequence ≤ event.sequence := UInt64.le_of_lt (hlt event (List.mem_of_getElem? hk))
      rw [List.filter_cons_of_pos (by simpa using hle), ih hs' hk, List.take_succ_cons]

theorem loadTransitions_until {io : Io} (hr : io.Reads) {dir q : Path} {g : CString} {opts : EngineOptions} (hdir : opts.data_dir = dir) {fs : Fs}
    {log : List TransitionEvent} {snap : Option Bytes} (hv : view (groupFiles dir q g) fs.disk = (encodeEvents log, snap))
    (until_sequence : UInt64) :
    loadTransitions io opts q g until_sequence fs = .ok (log.filter (·.sequence ≤ until_sequence)) := by
  have hfile : (fs.disk (groupEventPath dir q g)).getD [] = encodeEvents log := (Prod.mk.inj hv).1
  rw [← hdir] at hfile
  exact loadTransitions_written hr hfile until_sequence

/-! ## Runs -/

/-- The events of a run, with the messages of the group after each. Of an
operation that is killed only the events that reach the log count. -/
def history (q : Path) (g : CString) : QueueEngine → List Step → Trace
  | _, [] => []
  | e, s :: steps =>
    (opTrace q g s.env e s.operation).take ((loggedEvents (step e s) q g).length - (loggedEvents e q g).length) ++
      history q g (step e s) steps

theorem history_length (q : Path) (g : CString) (e : QueueEngine) (steps : List Step) :
    (history q g e steps).length ≤ attempted q g e steps := by
  induction steps generalizing e with
  | nil => exact Nat.le_refl _
  | cons s steps ih =>
    rw [history, List.length_append, List.length_take, attempted]
    have := ih (step e s)
    omega

section course

variable {σ : Setting} {e : QueueEngine} {rs : List Frame} {fresh : Bool} {hs : List Happening} {n : Node}

/-- What happened to the group while nothing was produced and nothing failed. -/
theorem Course.history {steps : List Step} (hq : ¬ σ.faulty) (h : Course σ e rs fresh hs n) (hf : σ.Follows e fresh steps)
    (hno : ∀ s ∈ steps, ∀ m, s.operation ≠ .produce σ.queue m) :
    ∃ hs' n', Course σ (Engine.run e steps) rs (freshAfter fresh steps) (hs ++ hs') n' ∧
      traceAll hs' = Engine.history σ.queue σ.group e steps := by
  induction steps generalizing e fresh hs n with
  | nil => exact ⟨[], n, by rw [List.append_nil]; exact h, rfl⟩
  | cons s steps ih =>
    obtain ⟨rs1, hs1, n1, hc1, hst1, hadds, htr1, -⟩ := h.step hf.1
    obtain rfl : rs1 = rs := hadds.resolve_right fun ⟨m, hm, _⟩ => hno s List.mem_cons_self m hm
    obtain ⟨hs2, n2, hc2, htr2⟩ := ih hc1 hf.2 fun s' hs' => hno s' (List.mem_cons_of_mem _ hs')
    refine ⟨hs1 ++ hs2, n2, by rw [← List.append_assoc]; exact hc2, ?_⟩
    have hgrow : n1.log.length = n.log.length + (traceAll hs1).length := by
      rw [hst1.logs hq, List.length_append, List.length_map]
    rw [traceAll_append, htr2, Engine.history, hc1.loggedEvents, h.loggedEvents, hgrow, Nat.add_sub_cancel_left,
      ← List.prefix_iff_eq_take.1 htr1]

/-- What a replay up to a sequence number counts. -/
theorem Course.replay (h : Course σ e rs fresh hs n) (hids : ∀ o r, siteOf rs o r → σ.present (idOf r)) {queue : QueueState}
    (hqueue : e.queues.lookup σ.queue = some queue) {env : Env} (hreads : env.toIo.Reads) (until_sequence : UInt64) {log : List TransitionEvent}
    (hlog : n.log.filter (·.sequence ≤ until_sequence) = log) {runtime : Map MessageId MessageRuntime}
    (hr : Reflects σ.present log runtime) :
    ∃ result, replayToSequenceOnShard env σ.queue σ.group until_sequence e = .ok result ∧ result.stats = tally runtime := by
  obtain ⟨messages, hm⟩ := readMessages_total fun o ho => h.stored.reads hqueue ho
  simp only [replayToSequenceOnShard, hqueue, hm, loadTransitions_until hreads h.tracks.data_dir h.tracks.files, hlog]
  refine ⟨_, rfl, ?_⟩
  rw [tally_order]
  refine Reflects.tally (Reflects.foldl ⟨fun id => ?_, fun id rt hrt => ?_⟩ env e.options log) hr
  rotate_left
  · obtain ⟨om, -, -, rfl⟩ := lookup_fill hrt
    rfl
  apply (mem_fill messages ∅ id).trans
  constructor
  · rintro (hid | ⟨om, hom, rfl⟩)
    · simp at hid
    · obtain ⟨-, record, hread, hid, -⟩ := readMessages_ok hm om hom
      rw [← hid]
      exact hids _ record (h.stored.read_site hqueue hread)
  · intro hid
    obtain ⟨f, hf, rfl⟩ := h.present id hid
    obtain ⟨o, ho, record, hread, hid'⟩ := h.inSegment hqueue hf
    exact .inr ⟨_, readMessages_mem hm ho hread, hid'⟩

end course

/-- A segment that holds `rs` and stays, and loads that find nothing in flight. -/
def settledSetting (opts : EngineOptions) (q : Path) (g : CString) (rs : List Frame) : Setting :=
  { quietSetting opts q g (fun _ => True) with
    settled := True
    present := fun id => ∃ f ∈ rs, idOf f.2 = id }

/-- In every run that never loads the group with a message left in flight, a
replay of the whole log counts what the live group counts, and a replay up to an
event counts what the live group had right after it. -/
theorem replay_agrees (opts : EngineOptions) (q : Path) (g : CString) (base : Disk) (rs : List Frame)
    (hb : OnSegment base opts.data_dir q g rs) (steps : List Step) (hs : ∀ s ∈ steps, s.Keeps opts q g)
    (hquiet : ∀ s ∈ steps, s.Quiet) (hset : EachStep (fun e s => s.Settled q g e) (engineOn opts base) steps)
    (hfew : attempted q g (engineOn opts base) steps < 2 ^ 64 - 1) (queue : QueueState)
    (hqueue : (run (engineOn opts base) steps).queues.lookup q = some queue) (env : Env) (hreads : env.toIo.Reads) :
    (∀ group, groupAt (run (engineOn opts base) steps) q g = some group →
      ∃ result, replayToSequenceOnShard env q g (group.next_sequence - 1) (run (engineOn opts base) steps) = .ok result ∧
        result.stats = tally group.runtime) ∧
    loadTransitions {} opts q g allSequences (run (engineOn opts base) steps).fs =
      .ok ((history q g (engineOn opts base) steps).map Prod.fst) ∧
    ∀ event runtime, (event, runtime) ∈ history q g (engineOn opts base) steps →
      ∃ result, replayToSequenceOnShard env q g event.sequence (run (engineOn opts base) steps) = .ok result ∧
        result.stats = tally runtime := by
  have hstart : Course (settledSetting opts q g rs) (engineOn opts base) rs false [] {} :=
    OnSegment.course (σ := settledSetting opts q g rs) hb rfl rfl fun _ h => h
  have hfollows : (settledSetting opts q g rs).Follows (engineOn opts base) false steps :=
    follows_of_keeps hs rfl rfl rfl rfl (fun _ _ => trivial) (fun s hmem hq => hq (hquiet s hmem)) fun _ => hset
  obtain ⟨hs', n, hc, htr⟩ := hstart.history id hfollows fun s hmem => (hs s hmem).produce
  rw [List.nil_append] at hc
  have hids : ∀ o r, siteOf rs o r → (settledSetting opts q g rs).present (idOf r) := by
    rintro o r ⟨f, hf, rfl⟩
    exact ⟨f, List.mem_of_getElem? hf, rfl⟩
  have hmirror : Mirrors (settledSetting opts q g rs).present (history q g (engineOn opts base) steps) n := by
    have hm := @mirrors_steps ((settledSetting opts q g rs).rules rs) hc.sound id trivial hids _ _ hc.steps
    rw [htr] at hm
    exact hm
  have hlen := history_length q g (engineOn opts base) steps
  have hlen' : (traceAll hs').length = (history q g (engineOn opts base) steps).length := congrArg List.length htr
  obtain ⟨hnum, hbound⟩ := hc.numbered id (by omega)
  refine ⟨fun group hg => ?_, ?_, fun event runtime hmem => ?_⟩
  · have hgroup : n.group = some group := hc.tracks.memory.trans hg
    have hall : n.log.filter (fun e => decide (e.sequence ≤ group.next_sequence - 1)) = n.log := by
      refine List.filter_eq_self.2 fun e he => decide_eq_true ?_
      have habove := hnum.above group hgroup e he
      rw [UInt64.le_iff_toNat_le, UInt64.toNat_sub_of_le _ _ (by rw [UInt64.le_iff_toNat_le]; simpa using (by omega))]
      simp only [UInt64.toNat_one]
      omega
    exact hc.replay hids hqueue hreads _ hall (hmirror.memory group hgroup)
  · rw [hmirror.events]
    exact loadTransitions_view (fun _ => rfl) (show opts.data_dir = opts.data_dir from rfl) hc.tracks.files
  · obtain ⟨k, hk⟩ := List.getElem?_of_mem hmem
    have hevent : n.log[k]? = some event := by
      rw [← hmirror.events, List.getElem?_map, hk]
      rfl
    exact hc.replay hids hqueue hreads _ (filter_le_take hnum.sorted hevent) (hmirror.past k event runtime hk)

/-! A message that is acked before a restart, and one that is in flight when the
process is killed. -/

def ackedThenKilled : List Step :=
  [.op {} (.createQueue someQueue), .op {} (.group someQueue someGroup .consume),
    .op {} (.group someQueue someGroup (.ack ⟨1, 2⟩)), .kill {} (.group someQueue someGroup .getStats) 0 {},
    .op {} (.createQueue someQueue), .op {} (.group someQueue someGroup .getStats)]

def deliveredThenKilled : List Step :=
  [.op {} (.createQueue someQueue), .op {} (.group someQueue someGroup .consume),
    .kill {} (.group someQueue someGroup .getStats) 0 {}, .op {} (.createQueue someQueue),
    .op {} (.group someQueue someGroup .getStats)]

theorem settled_of_now {q : Path} {g : CString} {e : QueueEngine} {s : Step}
    (h : (groupAt e q g).isSome ∨ settledNow e q g = true) : s.Settled q g e := by
  rintro op - queue hqueue hnone
  rcases h with h | h
  · rw [groupAt, hqueue, Option.bind_some, hnone] at h
    cases h
  · exact settledNow_sound h

theorem replay_agrees_acked :
    ∃ queue group, (run (engineOn {} someDisk) ackedThenKilled).queues.lookup someQueue = some queue ∧
      groupAt (run (engineOn {} someDisk) ackedThenKilled) someQueue someGroup = some group ∧
      (∃ result, replayToSequenceOnShard {} someQueue someGroup (group.next_sequence - 1)
          (run (engineOn {} someDisk) ackedThenKilled) = .ok result ∧ result.stats = tally group.runtime) ∧
      ∀ event runtime, (event, runtime) ∈ history someQueue someGroup (engineOn {} someDisk) ackedThenKilled →
        ∃ result, replayToSequenceOnShard {} someQueue someGroup event.sequence
          (run (engineOn {} someDisk) ackedThenKilled) = .ok result ∧ result.stats = tally runtime := by
  have hsome : (groupAt (run (engineOn {} someDisk) ackedThenKilled) someQueue someGroup).isSome := by decide +kernel
  obtain ⟨group, hgroup⟩ := Option.isSome_iff_exists.1 hsome
  obtain ⟨queue, hqueue, -⟩ := Option.bind_eq_some_iff.1 hgroup
  have hagree := replay_agrees {} someQueue someGroup someDisk _ onSegment_someDisk ackedThenKilled ?_ ?_ ?_
    (by decide +kernel) queue hqueue {} fun _ => rfl
  · exact ⟨queue, group, hqueue, hgroup, hagree.1 group hgroup, hagree.2.2⟩
  · simp only [ackedThenKilled, List.forall_mem_cons]
    refine ⟨?_, ?_, ?_, ?_, ?_, ?_, by simp⟩
    all_goals
      refine ⟨fun data n h => (by cases h), ?_, ?_, by simp [Step.operation], ?_⟩
      · simp [Step.operation, Op.Apart]
      · simp [Step.operation, Op.Clear]
      · rintro env o k options heq
        cases heq
        try rfl
  · simp only [ackedThenKilled, List.forall_mem_cons]
    exact ⟨quiet_default, quiet_default, quiet_default, quiet_default, quiet_default, quiet_default, by simp⟩
  · exact ⟨settled_of_now (.inr (by decide +kernel)), settled_of_now (.inr (by decide +kernel)),
      settled_of_now (.inl (by decide +kernel)), settled_of_now (.inl (by decide +kernel)),
      settled_of_now (.inr (by decide +kernel)), settled_of_now (.inr (by decide +kernel)), trivial⟩

/-- After a restart a message that was in flight is ready in the live group, and
in flight for a replay. -/
theorem replay_misses_recovery :
    ∃ group result, groupAt (run (engineOn {} someDisk) deliveredThenKilled) someQueue someGroup = some group ∧
      replayToSequenceOnShard {} someQueue someGroup (group.next_sequence - 1)
        (run (engineOn {} someDisk) deliveredThenKilled) = .ok result ∧
      result.stats.inflight_count = 1 ∧ tally group.runtime = { ready_count := 1 } ∧ result.stats ≠ tally group.runtime := by
  have hcounts : (groupAt (run (engineOn {} someDisk) deliveredThenKilled) someQueue someGroup).map (fun group =>
      ((replayToSequenceOnShard {} someQueue someGroup (group.next_sequence - 1)
        (run (engineOn {} someDisk) deliveredThenKilled)).toOption.map (·.stats), tally group.runtime)) =
      some (some { inflight_count := 1 }, { ready_count := 1 }) := by
    decide +kernel
  obtain ⟨group, hgroup, hpair⟩ := Option.map_eq_some_iff.1 hcounts
  obtain ⟨hreplay, hlive⟩ := Prod.mk.inj hpair
  obtain ⟨result, hresult, hstats⟩ := Option.map_eq_some_iff.1 hreplay
  refine ⟨group, result, hgroup, ?_, by rw [hstats], hlive, by rw [hstats, hlive]; decide⟩
  generalize replayToSequenceOnShard {} someQueue someGroup (group.next_sequence - 1)
    (run (engineOn {} someDisk) deliveredThenKilled) = replayed at hresult
  cases replayed with
  | error e => cases hresult
  | ok r => exact congrArg Except.ok (Option.some.inj hresult)

end PomaiQueue.Engine
