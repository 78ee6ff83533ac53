import PomaiQueue.Leases
/-!
# Loading a group after a crash

The state of a group is kept in memory, in the snapshot and in the log. When
nothing but a crash goes wrong, a load gives what the log says, whatever
snapshot of the run it starts from (`recovery_ignores_snapshot`): the replay
overwrites the entry of every message with an event, the others have the
default entry in every snapshot, and the log numbers its events one by one.
-/

namespace PomaiQueue.Engine

open Wire Posix Assoc Storage

/-! ## Two replays of one log -/

/-- The groups differ in what an event sets only. -/
structure Alike (a b : ConsumerGroupState) : Prop where
  ready : a.ready_offsets = b.ready_offsets
  inflight : a.inflight = b.inflight
  wheel : a.deadline_wheel = b.deadline_wheel
  tick : a.wheel_base_tick = b.wheel_base_tick
  keys : a.runtime.keys = b.runtime.keys
  places : ∀ id, (a.runtime.lookup id).map (fun rt => (rt.offset, rt.enqueue_ts)) =
    (b.runtime.lookup id).map fun rt => (rt.offset, rt.enqueue_ts)

section alike

variable {env : Env} {opts : EngineOptions} {a b : ConsumerGroupState}

theorem Alike.schedule (h : Alike a b) (id : MessageId) (deadline offset : UInt64) (owner token : CString) :
    Alike (scheduleInflight env opts a id deadline owner token offset)
      (scheduleInflight env opts b id deadline owner token offset) := by
  have hr := h.ready
  have hi := h.inflight
  have hw := h.wheel
  have ht := h.tick
  unfold scheduleInflight
  rw [← hw]
  cases hempty : a.deadline_wheel.isEmpty with
  | true => exact ⟨hr, congrArg (AList.insert id _) hi, rfl, rfl, h.keys, h.places⟩
  | false => exact ⟨hr, congrArg (AList.insert id _) hi, by simp [pushSlot, slotOf, hw], ht, h.keys, h.places⟩

theorem Alike.apply (h : Alike a b) (event : TransitionEvent) :
    Alike (applyTransition env opts a event) (applyTransition env opts b event) := by
  have hplace := h.places event.id
  cases ha : a.runtime.lookup event.id with
  | none =>
    rw [ha] at hplace
    have hb : b.runtime.lookup event.id = none := Option.map_eq_none_iff.1 hplace.symm
    rw [applyTransition_none _ _ _ _ ha, applyTransition_none _ _ _ _ hb]
    exact h
  | some rt =>
    rw [ha, Option.map_some] at hplace
    obtain ⟨rt', hb, heq⟩ := Option.map_eq_some_iff.1 hplace.symm
    have hoff : rt'.offset = rt.offset := congrArg Prod.fst heq
    have hcore : Alike
        { a with
          runtime := adjust event.id (·.after event) a.runtime
          inflight := a.inflight.erase event.id }
        { b with
          runtime := adjust event.id (·.after event) b.runtime
          inflight := b.inflight.erase event.id } := by
      refine ⟨h.ready, by rw [h.inflight], h.wheel, h.tick, by simp only [adjust_keys, h.keys], fun id => ?_⟩
      have hid := h.places id
      simp only [lookup_adjust]
      split
      · simpa only [Option.map_map, Function.comp_def, MessageRuntime.after] using hid
      · exact hid
    simp only [applyTransition, ha, hb, hoff]
    split
    · exact hcore.schedule _ _ _ _ _
    · exact hcore

theorem Alike.replay (h : Alike a b) (log : List TransitionEvent) :
    Alike (replay env opts log a) (replay env opts log b) := by
  induction log using List.reverseRecOn with
  | nil => exact h
  | append_singleton log event ih =>
    rw [replay_concat, replay_concat]
    have hevent : Alike (applyTransition env opts (Engine.replay env opts log a) event)
        (applyTransition env opts (Engine.replay env opts log b) event) := ih.apply event
    exact ⟨hevent.ready, hevent.inflight, hevent.wheel, hevent.tick, hevent.keys, hevent.places⟩

theorem MessageRuntime.after_congr {rt rt' : MessageRuntime} (ho : rt.offset = rt'.offset)
    (ht : rt.enqueue_ts = rt'.enqueue_ts) (event : TransitionEvent) : rt.after event = rt'.after event := by
  unfold MessageRuntime.after
  rw [ho, ht]

/-- Two loads from one log are the same if they start alike, and equal where the
log says nothing. -/
theorem Alike.rebuilt (h : Alike a b) {log : List TransitionEvent}
    (hrest : ∀ id, lastEvent log id = none → a.runtime.lookup id = b.runtime.lookup id)
    (hnext : (Engine.replay env opts log a).next_sequence = (Engine.replay env opts log b).next_sequence) :
    Engine.rebuilt env opts log a = Engine.rebuilt env opts log b := by
  have hr : Alike (Engine.replay env opts log a) (Engine.replay env opts log b) := h.replay log
  have hrt : (Engine.replay env opts log a).runtime = (Engine.replay env opts log b).runtime := by
    refine ext_of_keys hr.keys fun id => ?_
    rw [lookup_replay, lookup_replay]
    cases hlast : lastEvent log id with
    | none => rw [hrest id hlast]
    | some event =>
      have hid := h.places id
      cases ha : a.runtime.lookup id with
      | none =>
        rw [ha] at hid
        rw [Option.map_eq_none_iff.1 hid.symm]
      | some rt =>
        rw [ha, Option.map_some] at hid
        obtain ⟨rt', hb, heq⟩ := Option.map_eq_some_iff.1 hid.symm
        rw [hb]
        exact congrArg some (MessageRuntime.after_congr (congrArg Prod.fst heq).symm (congrArg Prod.snd heq).symm event)
  have hsame : Engine.replay env opts log a = Engine.replay env opts log b := by
    obtain ⟨hready, hinflight, hwheel, htick, -, -⟩ := hr
    generalize Engine.replay env opts log a = ra at *
    generalize Engine.replay env opts log b = rb at *
    cases ra
    cases rb
    simp only at hready hinflight hwheel htick hrt hnext
    subst hready hinflight hwheel htick hrt hnext
    rfl
  unfold Engine.rebuilt
  rw [hsame]

end alike

/-! ## The bases of a load -/

/-- No two records have the same id. -/
def Rules.OneEach (rules : Rules) : Prop := ∀ o o' r r', rules.site o r → rules.site o' r' → idOf r = idOf r' → o = o'

theorem Filed.places {rules : Rules} (hr : rules.Sound) (hone : rules.OneEach) {id : MessageId} {rt rt' : MessageRuntime}
    (h : Filed rules.site id rt) (h' : Filed rules.site id rt') :
    (rt.offset, rt.enqueue_ts) = (rt'.offset, rt'.enqueue_ts) := by
  obtain ⟨r, hs, hid, hts⟩ := h
  obtain ⟨r', hs', hid', hts'⟩ := h'
  have ho := hone _ _ _ _ hs hs' (hid.trans hid'.symm)
  rw [ho] at hs
  have hrr := hr.functional _ _ _ hs hs'
  rw [ho, hts, hts', hrr]

section bases

variable {rules : Rules} {n : Node} {env : Env} {opts : EngineOptions} {messages : List (UInt64 × Message)}
  {snap snap' : Option Bytes} {base base' : ConsumerGroupState}

theorem Entries.alike (hr : rules.Sound) (hone : rules.OneEach) (he : Entries rules n) (hsite : Sited rules.site messages)
    (hsnap : ∀ data, snap = some data → data ∈ n.snaps) (hsnap' : ∀ data, snap' = some data → data ∈ n.snaps)
    (hbase : Restores snap (defaultGroup env opts messages) base)
    (hbase' : Restores snap' (defaultGroup env opts messages) base') :
    Alike base base' ∧ ∀ id, lastEvent n.log id = none → base.runtime.lookup id = base'.runtime.lookup id := by
  have hkeys : base.runtime.keys = base'.runtime.keys := by rw [hbase.keys.1, hbase'.keys.1]
  -- The entries of one message in the two bases.
  have hboth : ∀ id, (base.runtime.lookup id = none ∧ base'.runtime.lookup id = none) ∨
      ∃ rt rt', base.runtime.lookup id = some rt ∧ base'.runtime.lookup id = some rt' := by
    intro id
    cases hb : base.runtime.lookup id with
    | some rt =>
      obtain ⟨rt', hb'⟩ := (mem_keys_iff _ _).1 (hkeys ▸ (mem_keys_iff _ _).2 ⟨rt, hb⟩)
      exact .inr ⟨rt, rt', rfl, hb'⟩
    | none =>
      refine .inl ⟨rfl, ?_⟩
      by_contra hne
      obtain ⟨rt', hb'⟩ := Option.ne_none_iff_exists'.1 hne
      obtain ⟨rt, hrt⟩ := (mem_keys_iff _ _).1 (hkeys ▸ (mem_keys_iff _ _).2 ⟨rt', hb'⟩)
      rw [hb] at hrt
      cases hrt
  have hplaces : ∀ id rt rt', base.runtime.lookup id = some rt → base'.runtime.lookup id = some rt' →
      (rt.offset, rt.enqueue_ts) = (rt'.offset, rt'.enqueue_ts) := fun id rt rt' hb hb' =>
    (he.base hsite hsnap hbase hb).filed.places hr hone (he.base hsite hsnap' hbase' hb').filed
  refine ⟨?_, fun id hnone => ?_⟩
  · obtain ⟨runtime, next, rfl, -⟩ := hbase.shape
    obtain ⟨runtime', next', rfl, -⟩ := hbase'.shape
    refine ⟨rfl, rfl, rfl, rfl, hkeys, fun id => ?_⟩
    rcases hboth id with ⟨hb, hb'⟩ | ⟨rt, rt', hb, hb'⟩
    · rw [hb, hb']
    · rw [hb, hb']
      exact congrArg some (hplaces id rt rt' hb hb')
  · rcases hboth id with ⟨hb, hb'⟩ | ⟨rt, rt', hb, hb'⟩
    · rw [hb, hb']
    · have hd : rt.IsDefault := (he.base hsite hsnap hbase hb).default hnone
      have hd' : rt'.IsDefault := (he.base hsite hsnap' hbase' hb').default hnone
      obtain ⟨ho, ht⟩ := Prod.mk.inj (hplaces id rt rt' hb hb')
      rw [hb, hb', hd, hd', ho, ht]

/-! ## The next number -/

theorem length_le_last {log : List TransitionEvent} (hs : log.Pairwise fun a b => a.sequence < b.sequence)
    (hpos : ∀ event ∈ log, 0 < event.sequence.toNat) {event : TransitionEvent} (hlast : log.getLast? = some event) :
    log.length ≤ event.sequence.toNat := by
  induction log using List.reverseRecOn generalizing event with
  | nil => cases hlast
  | append_singleton log e ih =>
    rw [List.getLast?_concat] at hlast
    obtain rfl := Option.some.inj hlast
    obtain ⟨hs', -, hlt⟩ := List.pairwise_append.1 hs
    rw [List.length_append, List.length_singleton]
    cases hl : log.getLast? with
    | none =>
      rw [List.getLast?_eq_none_iff.1 hl]
      exact hpos e (by simp)
    | some e' =>
      have hle := ih hs' (fun x hx => hpos x (List.mem_append_left _ hx)) hl
      have hlt' := hlt e' (List.mem_of_getLast? hl) e (by simp)
      rw [UInt64.lt_iff_toNat_lt] at hlt'
      omega

/-- When every attempt is logged, a load goes on with the number after the last. -/
theorem Numbered.loaded (h : Numbered n n.log.length) (hbound : n.log.length + 1 < 2 ^ 64)
    (hsnap : ∀ data, snap = some data → data ∈ n.snaps) (hbase : Restores snap (defaultGroup env opts messages) base) :
    (replay env opts n.log base).next_sequence.toNat = n.log.length + 1 := by
  have hstart : 0 < base.next_sequence.toNat ∧ base.next_sequence.toNat ≤ n.log.length + 1 := by
    cases snap with
    | none =>
      rw [show base = defaultGroup env opts messages from hbase]
      change 0 < 1 ∧ 1 ≤ n.log.length + 1
      omega
    | some file =>
      obtain ⟨env', a, rfl, ha⟩ := h.snaps file (hsnap file rfl)
      have hb : loadSnapshot (snapshotBytes env' a) (defaultGroup env opts messages) = .ok base := hbase
      rw [loadSnapshot_next hb]
      exact ha
  obtain ⟨habove, hge, hle⟩ := replay_next env opts n.log base (n.log.length + 1)
    (fun event hev => Nat.succ_le_succ (h.log event hev).2) hstart.2 hbound
  cases hl : n.log.getLast? with
  | none =>
    have hnil := List.getLast?_eq_none_iff.1 hl
    rw [hnil] at hle hge ⊢
    simp only [List.length_nil] at hle ⊢
    omega
  | some event =>
    have hlen := length_le_last h.sorted (fun e he => (h.log e he).1) hl
    have := habove event (List.mem_of_getLast? hl)
    omega

end bases

/-- When nothing fails every attempt is logged. -/
theorem Steps.logs {rules : Rules} {a b : Node} {hs : List Happening} (h : Steps rules a hs b) (hq : ¬ rules.faulty) :
    b.log = a.log ++ (traceAll hs).map Prod.fst := by
  induction h with
  | nil => simp [traceAll]
  | @snoc b c hs x hpre hlast ih =>
    rw [traceAll_append, List.map_append, ← List.append_assoc, ← ih]
    cases hlast with
    | loaded => simp [traceAll, Happening.trace]
    | moved hg henv hopts hread hm =>
      cases hm with
      | lose hf => exact absurd hf hq
      | skip hf => exact absurd hf hq
      | _ => simp [Node.moved, Label.logged, traceAll, Happening.trace, Label.trace]
    | crashed => simp [traceAll, Happening.trace]

/-! ## The files -/

/-- The file system with another content at `p`. -/
def withFile (fs : Fs) (p : Path) (content : Option Bytes) : Fs := { base := Function.update fs.disk p content }

theorem withFile_self (fs : Fs) (p : Path) (content : Option Bytes) : (withFile fs p content).disk p = content :=
  Function.update_self _ _ _

theorem withFile_ne (fs : Fs) {p p' : Path} (h : p' ≠ p) (content : Option Bytes) :
    (withFile fs p content).disk p' = fs.disk p' :=
  Function.update_of_ne h _ _

theorem readMessages_congr {segment : SegmentLog} {fs fs' : Fs} (h : ∀ o, segment.read fs o = segment.read fs' o)
    (offsets : List UInt64) : readMessages segment fs offsets = readMessages segment fs' offsets := by
  induction offsets with
  | nil => rfl
  | cons o offsets ih => simp only [readMessages, h, ih]

/-- Loading a group reads the segment and the files of the group. -/
theorem loadGroupState_congr (env : Env) {opts : EngineOptions} {q : Path} {g : CString} {segment : SegmentLog} {fs fs' : Fs}
    (hseg : fs.disk segment.path = fs'.disk segment.path)
    (hstate : fs.disk (groupStatePath opts.data_dir q g) = fs'.disk (groupStatePath opts.data_dir q g))
    (hev : fs.disk (groupEventPath opts.data_dir q g) = fs'.disk (groupEventPath opts.data_dir q g)) :
    loadGroupState env opts q g segment fs = loadGroupState env opts q g segment fs' := by
  have hread : segment.read fs = segment.read fs' := SegmentLog.read_congr (by rw [Fs.content, hseg, Fs.content])
  have hmsgs := readMessages_congr (congrFun hread)
  simp only [loadGroupState, hmsgs, loadStateFile_congr env.toIo hstate, loadTransitions_congr env.toIo hev]

theorem loadGroupState_same (env : Env) (opts : EngineOptions) (q : Path) (g : CString) (segment : SegmentLog) {fs fs' : Fs}
    (h : fs.disk = fs'.disk) :
    loadGroupState env opts q g segment fs = loadGroupState env opts q g segment fs' :=
  loadGroupState_congr env (by rw [h]) (by rw [h]) (by rw [h])

theorem readMessages_total {segment : SegmentLog} {fs : Fs} {offsets : List UInt64}
    (h : ∀ o ∈ offsets, ∃ record, segment.read fs o = .ok record) : ∃ messages, readMessages segment fs offsets = .ok messages := by
  induction offsets with
  | nil => exact ⟨[], rfl⟩
  | cons o offsets ih =>
    obtain ⟨record, hrec⟩ := h o List.mem_cons_self
    obtain ⟨messages, hm⟩ := ih fun o' ho' => h o' (List.mem_cons_of_mem _ ho')
    simp only [readMessages, hrec, hm]
    exact ⟨_, rfl⟩

/-- The messages of the queue have different ids. -/
def DistinctIds (e : QueueEngine) (q : Path) : Prop :=
  ∀ queue, e.queues.lookup q = some queue → ∀ o o' r r', queue.segment.read e.fs o = .ok r →
    queue.segment.read e.fs o' = .ok r' → idOf r = idOf r' → o = o'

section course

variable {σ : Setting} {e : QueueEngine} {rs : List Frame} {fresh : Bool} {hs : List Happening} {n : Node}
  {queue : QueueState}

theorem Course.read_iff (h : Course σ e rs fresh hs n) (hqueue : e.queues.lookup σ.queue = some queue) (o : UInt64)
    (r : Record) : queue.segment.read e.fs o = .ok r ↔ siteOf rs o r := by
  refine ⟨fun hread => h.stored.read_site hqueue hread, ?_⟩
  rintro ⟨f, hf, rfl⟩
  exact h.stored.read_of hqueue hf

theorem Course.oneEach (h : Course σ e rs fresh hs n) (hqueue : e.queues.lookup σ.queue = some queue)
    (hd : DistinctIds e σ.queue) : (σ.rules rs).OneEach := fun o o' r r' hs hs' hid =>
  hd queue hqueue o o' r r' ((h.read_iff hqueue o r).2 hs) ((h.read_iff hqueue o' r').2 hs') hid

/-- What a load gives when the snapshot is one of the group's, or there is none. -/
theorem Course.load (h : Course σ e rs fresh hs n) (hqueue : e.queues.lookup σ.queue = some queue) {env : Env}
    (hr : env.toIo.Reads) {opts : EngineOptions} (hdir : opts.data_dir = σ.dir) :
    ∃ messages, readMessages queue.segment e.fs queue.segment.offsets = .ok messages ∧ Sited (σ.rules rs).site messages ∧
      ∀ snap, (∀ data, snap = some data → data ∈ n.snaps) → ∃ base, Restores snap (defaultGroup env opts messages) base ∧
        loadGroupState env opts σ.queue σ.group queue.segment (withFile e.fs (groupStatePath σ.dir σ.queue σ.group) snap) =
          .ok (rebuilt env opts n.log base) := by
  obtain ⟨messages, hm⟩ := readMessages_total fun o ho => h.stored.reads hqueue ho
  refine ⟨messages, hm, fun om hom => ?_, fun snap hsnap => ?_⟩
  · obtain ⟨-, record, hread, hid, hts⟩ := readMessages_ok hm om hom
    exact ⟨record, h.stored.read_site hqueue hread, hid, hts⟩
  · obtain ⟨base, hbase⟩ := h.entries.restores (defaultGroup env opts messages) hsnap
    refine ⟨base, hbase, ?_⟩
    have hpath : queue.segment.path = segmentPath σ.dir σ.queue := by
      rw [h.tracks.placed σ.queue queue hqueue, h.tracks.data_dir]
    have hseg : segmentPath σ.dir σ.queue ≠ groupStatePath σ.dir σ.queue σ.group :=
      (aside_segment σ.dir σ.queue σ.queue σ.group).state
    have hread : ∀ o, queue.segment.read (withFile e.fs (groupStatePath σ.dir σ.queue σ.group) snap) o =
        queue.segment.read e.fs o := by
      intro o
      refine congrFun (SegmentLog.read_congr ?_) o
      rw [hpath, Fs.content, Fs.content, withFile_ne _ hseg]
    have hview : view (groupFiles σ.dir σ.queue σ.group) (withFile e.fs (groupStatePath σ.dir σ.queue σ.group) snap).disk =
        (encodeEvents n.log, snap) := by
      have hne : groupEventPath σ.dir σ.queue σ.group ≠ groupStatePath σ.dir σ.queue σ.group :=
        ne_of_getLast? (groupEventPath_getLast? _ _ _) (groupStatePath_getLast? _ _ _) (by decide)
      have hev := (Prod.mk.inj h.tracks.files).1
      refine Prod.ext ?_ (withFile_self _ _ _)
      exact (congrArg (·.getD []) (withFile_ne _ hne _)).trans hev
    have hstate : loadStateFile env.toIo opts σ.queue σ.group (withFile e.fs (groupStatePath σ.dir σ.queue σ.group) snap)
        (defaultGroup env opts messages) = .ok base := by
      rw [loadStateFile_reads hr, hdir, withFile_self]
      cases snap with
      | none => exact congrArg Except.ok (show base = _ from hbase).symm
      | some file => exact hbase
    have hmsgs := (readMessages_congr hread queue.segment.offsets).trans hm
    have hdefault : { initScheduler env opts {} with
        runtime := defaultRuntimes (env.offset_order.order messages) (initScheduler env opts {}).runtime } =
          defaultGroup env opts messages := rfl
    simp only [loadGroupState, hmsgs, hdefault, hstate, loadTransitions_view hr hdir hview]
    rfl

/-- The group can be loaded. -/
theorem Course.loads (h : Course σ e rs fresh hs n) (hqueue : e.queues.lookup σ.queue = some queue) {env : Env}
    (hr : env.toIo.Reads) {opts : EngineOptions} (hdir : opts.data_dir = σ.dir) :
    ∃ group, loadGroupState env opts σ.queue σ.group queue.segment e.fs = .ok group := by
  obtain ⟨messages, -, -, hload⟩ := h.load hqueue hr hdir
  have hsnap : e.fs.disk (groupStatePath σ.dir σ.queue σ.group) = n.snaps.getLast? := (Prod.mk.inj h.tracks.files).2
  obtain ⟨base, -, heq⟩ := hload (e.fs.disk (groupStatePath σ.dir σ.queue σ.group)) fun data hdata =>
    List.mem_of_getLast? (hsnap.symm.trans hdata)
  have hsame : (withFile e.fs (groupStatePath σ.dir σ.queue σ.group)
      (e.fs.disk (groupStatePath σ.dir σ.queue σ.group))).disk = e.fs.disk :=
    Function.update_eq_self _ _
  rw [loadGroupState_same env opts σ.queue σ.group queue.segment hsame] at heq
  exact ⟨_, heq⟩

theorem Course.numbered (h : Course σ e rs fresh hs n) (hq : ¬ σ.faulty) (hbound : (traceAll hs).length + 1 < 2 ^ 64) :
    Numbered n n.log.length ∧ n.log.length + 1 < 2 ^ 64 := by
  have hlen : n.log.length = (traceAll hs).length := by
    rw [h.steps.logs hq, List.nil_append, List.length_map]
  rw [hlen]
  exact ⟨Numbered.steps h.steps hbound, hbound⟩

/-- A load does not depend on the snapshot. -/
theorem Course.load_ignores (h : Course σ e rs fresh hs n) (hq : ¬ σ.faulty) (hbound : (traceAll hs).length + 1 < 2 ^ 64)
    (hqueue : e.queues.lookup σ.queue = some queue) (hd : DistinctIds e σ.queue) {env : Env} (hr : env.toIo.Reads)
    {opts : EngineOptions} (hdir : opts.data_dir = σ.dir) {snap : Option Bytes} (hsnap : ∀ data, snap = some data → data ∈ n.snaps) :
    loadGroupState env opts σ.queue σ.group queue.segment (withFile e.fs (groupStatePath σ.dir σ.queue σ.group) snap) =
      loadGroupState env opts σ.queue σ.group queue.segment (withFile e.fs (groupStatePath σ.dir σ.queue σ.group) none) := by
  obtain ⟨messages, -, hsite, hload⟩ := h.load hqueue hr hdir
  have hnone : ∀ data, (none : Option Bytes) = some data → data ∈ n.snaps := by simp
  obtain ⟨base, hbase, heq⟩ := hload snap hsnap
  obtain ⟨base', hbase', heq'⟩ := hload none hnone
  obtain ⟨hnum, hlen⟩ := h.numbered hq hbound
  obtain ⟨halike, hrest⟩ := h.entries.alike h.sound (h.oneEach hqueue hd) hsite hsnap hnone hbase hbase'
  have hnext : (replay env opts n.log base).next_sequence = (replay env opts n.log base').next_sequence := by
    apply UInt64.toNat_inj.1
    rw [hnum.loaded hlen hsnap hbase, hnum.loaded hlen hnone hbase']
  rw [heq, heq', halike.rebuilt hrest hnext]

/-- The state, retry count, sequence and offset of the message `id` at offset `o`,
as the log has them. -/
def loggedEntry (log : List TransitionEvent) (id : MessageId) (o : UInt64) : MessageState × UInt32 × UInt64 × UInt64 :=
  match lastEvent log id with
  | none => (.kReady, 0, 0, o)
  | some event => (if event.state = .kInFlight then .kReady else event.state, event.retry_count, event.sequence, o)

theorem recovered_entry (now : UInt64) (o ts : UInt64) (log : List TransitionEvent) (id : MessageId) {rt : MessageRuntime}
    (h : ((defaultRuntime o ts).restored (lastEvent log id)).recovered now = rt) :
    (rt.state, rt.retry_count, rt.sequence, rt.offset) = loggedEntry log id o := by
  subst h
  unfold loggedEntry
  cases lastEvent log id with
  | none => rfl
  | some event =>
    by_cases hs : event.state = .kInFlight
    · have heq : ((defaultRuntime o ts).restored (some event)).recovered now =
          { (defaultRuntime o ts).after event with
            state := .kReady
            available_after_ms := now
            last_transition_reason := reasonToString .kRecoveredInflightToReady
            last_transition_ts := now } := if_pos hs
      rw [heq]
      simp only [hs, if_true]
      rfl
    · have heq : ((defaultRuntime o ts).restored (some event)).recovered now = (defaultRuntime o ts).after event := if_neg hs
      rw [heq]
      simp only [hs, if_false]
      rfl

/-- A load without a snapshot gives what the log says. -/
theorem Course.load_logged (h : Course σ e rs fresh hs n) (hq : ¬ σ.faulty) (hbound : (traceAll hs).length + 1 < 2 ^ 64)
    (hqueue : e.queues.lookup σ.queue = some queue) (hd : DistinctIds e σ.queue) {env : Env} (hr : env.toIo.Reads)
    {opts : EngineOptions} (hdir : opts.data_dir = σ.dir) :
    ∃ group, loadGroupState env opts σ.queue σ.group queue.segment
        (withFile e.fs (groupStatePath σ.dir σ.queue σ.group) none) = .ok group ∧
      (∀ o ∈ queue.segment.offsets, ∃ record rt, queue.segment.read e.fs o = .ok record ∧
        group.runtime.lookup (idOf record) = some rt ∧
        (rt.state, rt.retry_count, rt.sequence, rt.offset) = loggedEntry n.log (idOf record) o) ∧
      ∀ event ∈ n.log, event.sequence < group.next_sequence := by
  obtain ⟨messages, hm, hsite, hload⟩ := h.load hqueue hr hdir
  have hnone : ∀ data, (none : Option Bytes) = some data → data ∈ n.snaps := by simp
  obtain ⟨base, hbase, heq⟩ := hload none hnone
  obtain rfl : base = defaultGroup env opts messages := hbase
  obtain ⟨hnum, hlen⟩ := h.numbered hq hbound
  refine ⟨_, heq, fun o ho => ?_, fun event hev => ?_⟩
  · obtain ⟨record, hread⟩ := h.stored.reads hqueue ho
    have hom := readMessages_mem hm ho hread
    have hmem : idOf record ∈ (defaultGroup env opts messages).runtime.keys :=
      mem_defaultRuntimes _ _ _ (.inr ⟨_, (env.offset_order.mem _ _).2 hom, rfl⟩)
    obtain ⟨rt0, hrt0⟩ := (mem_keys_iff _ _).1 hmem
    obtain ⟨om, hom', hid, rfl⟩ := lookup_defaultRuntimes hrt0
    -- The entry was made from the record at this offset.
    obtain ⟨-, record', hread', hid', -⟩ := readMessages_ok hm om ((env.offset_order.mem _ _).1 hom')
    have ho' : om.1 = o := hd queue hqueue _ _ _ _ hread' hread (hid'.trans hid)
    refine ⟨record, _, hread, by rw [lookup_rebuilt, hrt0]; rfl, ?_⟩
    rw [recovered_entry (env.now .loadGroupState) om.1 om.2.enqueue_ts n.log (idOf record) rfl, ho']
  · rw [UInt64.lt_iff_toNat_lt]
    have hnext : (rebuilt env opts n.log (defaultGroup env opts messages)).next_sequence.toNat = n.log.length + 1 :=
      hnum.loaded hlen hnone (show Restores none (defaultGroup env opts messages) _ from rfl)
    rw [hnext]
    exact Nat.lt_succ_of_le (hnum.log event hev).2

end course

/-! ## Runs -/

theorem Steps.keeps_snaps {rules : Rules} {a b : Node} {hs : List Happening} (h : Steps rules a hs b) {data : Bytes}
    (hd : data ∈ a.snaps) : data ∈ b.snaps := by
  induction h with
  | nil => exact hd
  | snoc _ hlast ih =>
    cases hlast with
    | loaded => exact ih
    | moved => exact List.mem_append_left _ ih
    | crashed => exact ih

/-- Creating a queue that is not there opens its segment. -/
theorem createQueue_opens {env : Env} (hq : env.toIo.Quiet) {q : Path} {e : QueueEngine} (hnone : e.queues.lookup q = none) :
    ∃ queue, (createQueueOnShard env q e).2.queues.lookup q = some queue := by
  have hok : (SegmentLog.reopen env.toIo (segmentPath e.options.data_dir q) e.options.fsync_policy e.fs).1 = .ok () := by
    rw [SegmentLog.reopen_opened (hq.fault _)]
    rfl
  unfold createQueueOnShard
  simp only [hnone]
  generalize SegmentLog.reopen env.toIo (segmentPath e.options.data_dir q) e.options.fsync_policy e.fs = opened at hok
  obtain ⟨res, segment, fs⟩ := opened
  obtain rfl : res = .ok () := hok
  exact ⟨_, AList.lookup_insert _⟩

/-- A run that ends with a kill, and the queue opened again. -/
def killedAndOpened (steps : List Step) (env : Env) (o : Op) (calls : Nat) (opts : EngineOptions) (env' : Env) (q : Path) :
    List Step :=
  steps ++ [.kill env o calls opts, .op env' (.createQueue q)]

/-- Whenever the process is killed, the group can be loaded from the files, and
the load gives what the log says, with whatever `.state` file of the run or none. -/
theorem recovery_ignores_snapshot (opts : EngineOptions) (q : Path) (g : CString) (steps : List Step) (env : Env) (o : Op)
    (calls : Nat) (env' : Env) (h : Orderly opts q g (killedAndOpened steps env o calls opts env' q))
    (hd : DistinctIds (run (freshEngine opts) (killedAndOpened steps env o calls opts env' q)) q)
    (hfew : attempted q g (freshEngine opts) (killedAndOpened steps env o calls opts env' q) < 2 ^ 64 - 1) (load : Env)
    (hr : load.toIo.Reads) :
    ∃ log queue group,
      (run (freshEngine opts) (killedAndOpened steps env o calls opts env' q)).fs.content
        (groupEventPath opts.data_dir q g) = encodeEvents log ∧
      (run (freshEngine opts) (killedAndOpened steps env o calls opts env' q)).queues.lookup q = some queue ∧
      (∀ snap, (snap = none ∨ ∃ i, snap = (run (freshEngine opts)
          ((killedAndOpened steps env o calls opts env' q).take i)).fs.disk (groupStatePath opts.data_dir q g)) →
        loadGroupState load opts q g queue.segment
          (withFile (run (freshEngine opts) (killedAndOpened steps env o calls opts env' q)).fs
            (groupStatePath opts.data_dir q g) snap) = .ok group) ∧
      (∀ o' ∈ queue.segment.offsets, ∃ record rt,
        queue.segment.read (run (freshEngine opts) (killedAndOpened steps env o calls opts env' q)).fs o' = .ok record ∧
        group.runtime.lookup (idOf record) = some rt ∧
        (rt.state, rt.retry_count, rt.sequence, rt.offset) = loggedEntry log (idOf record) o') ∧
      ∀ event ∈ log, event.sequence < group.next_sequence := by
  have hquiet : env'.toIo.Quiet := h.quiet (.op env' (.createQueue q)) (by simp [killedAndOpened])
  -- The kill leaves no queue open, so the last step opens it.
  obtain ⟨queue, hqueue⟩ : ∃ queue,
      (run (freshEngine opts) (killedAndOpened steps env o calls opts env' q)).queues.lookup q = some queue := by
    rw [killedAndOpened, show ∀ a b : Step, steps ++ [a, b] = (steps ++ [a]) ++ [b] by simp, run_concat, run_concat]
    have hnone : (step (run (freshEngine opts) steps) (.kill env o calls opts)).queues.lookup q = none := rfl
    exact createQueue_opens hquiet hnone
  have hfollows := h.follows (P := fun _ => True) fun _ _ => trivial
  generalize killedAndOpened steps env o calls opts env' q = all at *
  obtain ⟨rs, hs, n, hc, hlen⟩ := h.course (P := fun _ => True) fun _ _ => trivial
  obtain ⟨group, hload, hentries, hnext⟩ := hc.load_logged id (by omega) hqueue hd hr (show opts.data_dir = opts.data_dir from rfl)
  refine ⟨n.log, queue, group, (Prod.mk.inj hc.tracks.files).1, hqueue, fun snap hsnap => ?_, hentries, hnext⟩
  rcases hsnap with rfl | ⟨i, rfl⟩
  · exact hload
  · -- The snapshot was written in the first part of the run, which the rest goes on from.
    have hsplit : all.take i ++ all.drop i = all := List.take_append_drop i all
    rw [← hsplit] at hfollows
    obtain ⟨hf1, hf2⟩ := hfollows.append
    obtain ⟨rs1, hs1, n1, hc1, -, -, hlen1, -⟩ := (course_fresh opts q g fun _ => True).run hf1
    obtain ⟨rs2, hs2, n2, hc2, hst2, -, hlen2, -⟩ := hc1.run hf2
    have hrun : run (run (freshEngine opts) (all.take i)) (all.drop i) = run (freshEngine opts) all := by
      rw [run, run, ← List.foldl_append, hsplit, run]
    have hatt : attempted q g (freshEngine opts) (all.take i) +
        attempted q g (run (freshEngine opts) (all.take i)) (all.drop i) = attempted q g (freshEngine opts) all := by
      rw [← attempted_append, hsplit]
    rw [hrun] at hc2
    have hbound : (traceAll ([] ++ hs1 ++ hs2)).length + 1 < 2 ^ 64 := by
      have hlen1' : (traceAll hs1).length ≤ attempted q g (freshEngine opts) (all.take i) := hlen1
      have hlen2' : (traceAll hs2).length ≤ attempted q g (run (freshEngine opts) (all.take i)) (all.drop i) := hlen2
      rw [List.nil_append, traceAll_append, List.length_append]
      omega
    refine (hc2.load_ignores id hbound hqueue hd hr (show opts.data_dir = opts.data_dir from rfl) fun data hdata => ?_).trans hload
    have hstate : (run (freshEngine opts) (all.take i)).fs.disk (groupStatePath opts.data_dir q g) = n1.snaps.getLast? :=
      (Prod.mk.inj hc1.tracks.files).2
    rw [hstate] at hdata
    exact hst2.keeps_snaps (List.mem_of_getLast? hdata)

/-- A message is delivered, and the process is killed before it can save the
snapshot. -/
def cutDelivery : List Step :=
  killedAndOpened [.op {} (.createQueue someQueue), .op {} (.produce someQueue someMessage)] {}
    (.group someQueue someGroup .consume) 2 {} {} someQueue

theorem orderly_cutDelivery : Orderly {} someQueue someGroup cutDelivery := by
  refine orderly_of_everyday ?_ (by decide +kernel) (by simp [cutDelivery, killedAndOpened, Step.operation, Step.kills])
  simp only [cutDelivery, killedAndOpened, List.cons_append, List.nil_append, List.forall_mem_cons]
  exact ⟨.createQueue, .produce (by decide), .kill .group, .createQueue, List.forall_mem_nil _⟩

/-- One record in the segment, so no two with the same id. -/
theorem distinctIds_of_length {e : QueueEngine} {q : Path}
    (h : ((e.queues.lookup q).map fun queue => queue.segment.offset_to_position.keys) = some [0]) : DistinctIds e q := by
  intro queue hqueue o o' r r' hr hr' _
  rw [hqueue, Option.map_some] at h
  have hkeys : queue.segment.offset_to_position.keys = [0] := Option.some.inj h
  have hzero : ∀ {o r}, queue.segment.read e.fs o = .ok r → o = 0 := by
    intro o r hread
    have hmem : o ∈ queue.segment.offset_to_position.keys := by
      by_contra hnot
      have hnone : queue.segment.offset_to_position.lookup o = none := AList.lookup_eq_none.2 hnot
      simp only [SegmentLog.read, hnone] at hread
      cases hread
    rw [hkeys] at hmem
    exact List.mem_singleton.1 hmem
  rw [hzero hr, hzero hr']

theorem recovery_ignores_snapshot_cut :
    ∃ log queue group,
      (run (freshEngine {}) cutDelivery).fs.content (groupEventPath [] someQueue someGroup) = encodeEvents log ∧
      (run (freshEngine {}) cutDelivery).queues.lookup someQueue = some queue ∧
      (∀ snap, (snap = none ∨ ∃ i, snap = (run (freshEngine {}) (cutDelivery.take i)).fs.disk
          (groupStatePath [] someQueue someGroup)) →
        loadGroupState {} {} someQueue someGroup queue.segment
          (withFile (run (freshEngine {}) cutDelivery).fs (groupStatePath [] someQueue someGroup) snap) = .ok group) ∧
      (∀ o ∈ queue.segment.offsets, ∃ record rt,
        queue.segment.read (run (freshEngine {}) cutDelivery).fs o = .ok record ∧
        group.runtime.lookup (idOf record) = some rt ∧
        (rt.state, rt.retry_count, rt.sequence, rt.offset) = loggedEntry log (idOf record) o) ∧
      ∀ event ∈ log, event.sequence < group.next_sequence :=
  recovery_ignores_snapshot {} someQueue someGroup _ {} _ 2 {} orderly_cutDelivery
    (distinctIds_of_length (by decide +kernel)) (by decide +kernel) {} fun _ => rfl

end PomaiQueue.Engine
