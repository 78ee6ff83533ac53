import PomaiQueue.Abstraction
/-!
# The engine is a queue with leases

`engine_refines`: what the clients of one group see of an engine without I/O errors,
over any number of restarts and with the process killed at any point, is a run of
the abstract queue of `LeaseQueue`, if what is produced fits the record format. What they see is computed by `seenIn`: the
answers to the operations on the group, the messages that the queue accepts, and when
the process was killed.

`Represents` ties a state of the abstract queue to the engine. While the group is in memory,
the places are its entries. What the log says differs from them only in the messages that
a restart found in flight (`Recalls`), which is why the group can be lost at any
time.
-/

namespace PomaiQueue.Engine

open Wire Posix Assoc Storage

abbrev AbstractQueue := LeaseQueue.Queue Message MessageId UInt64 UInt32

abbrev Seen := LeaseQueue.Seen Message MessageId UInt64 UInt32 Message

/-- A consumer gets the message as it was produced. -/
abbrev SeenRuns : AbstractQueue → List Seen → AbstractQueue → Prop := LeaseQueue.Runs (·.id) (fun m r => r.Same m)

abbrev SeenStep : AbstractQueue → Seen → AbstractQueue → Prop := LeaseQueue.Step (·.id) (fun m r => r.Same m)

def emptyQueue : AbstractQueue where
  there := false
  published := []
  line := none
  place _ := newPlace

/-! ## What is seen -/

/-- What a reply says, if the abstract queue has such an answer. -/
def seenReply (opts : EngineOptions) (env : Env) (op : GroupOp) (reply : StatusOr Reply) : Option Seen :=
  match reply with
  | .error (.status .kNotFound message) =>
    if message = "queue not found" then some .absent
    else (answerOf reply).map (.served opts.policy env.readings op.asked)
  | _ => (answerOf reply).map (.served opts.policy env.readings op.asked)

theorem seenReply_of_answer {reply : StatusOr Reply} {answer : LeaseQueue.Answer Message UInt32} (h : answerOf reply = some answer)
    (opts : EngineOptions) (env : Env) (op : GroupOp) :
    seenReply opts env op reply = some (.served opts.policy env.readings op.asked answer) := by
  unfold seenReply
  split
  · rename_i message
    have hne : message ≠ "queue not found" := by
      rintro rfl
      simp [answerOf] at h
    rw [if_neg hne, h]
    rfl
  · rw [h]
    rfl

/-- What a step shows of the group. There is nothing to show of a step on another queue or
group, and of a message that is refused. -/
def Step.seen (q : Path) (g : CString) (e : QueueEngine) : Step → Option (List Seen)
  | .op env (.createQueue q') => some (if q' = q ∧ (createQueueOnShard env q' e).1.isOk then [.created] else [])
  | .op env (.produce q' m) =>
    some (if q' = q then
      match (produceOnShard env q' m e).1 with
      | .ok offset => [.published m offset.toNat]
      | .error _ => []
    else [])
  | .op env (.group q' g' o) =>
    if q' = q ∧ g' = g then (seenReply e.options env o (runOp env e (.group q' g' o)).1).map ([·]) else some []
  | .kill env (.group q' g' o) _ _ =>
    some [if q' = q ∧ g' = g then .cut e.options.policy env.readings o.asked else .stopped none]
  | .kill _ (.produce q' m) _ _ => some [.stopped (if q' = q then some m else none)]
  | .kill _ (.createQueue _) _ _ => some [.stopped none]

def seenIn (q : Path) (g : CString) : QueueEngine → List Step → Option (List Seen)
  | _, [] => some []
  | e, s :: steps => (s.seen q g e).bind fun xs => (seenIn q g (step e s) steps).map (xs ++ ·)

/-- The messages that a step may add to the queue. -/
def Step.offers (q : Path) (e : QueueEngine) : Step → List Message
  | .op env o => Step.accepted q e (.op env o)
  | .kill _ (.produce q' m) _ _ => if q' = q then [m] else []
  | .kill _ _ _ _ => []

def offeredIn (q : Path) : QueueEngine → List Step → List Message
  | _, [] => []
  | e, s :: steps => s.offers q e ++ offeredIn q (step e s) steps

/-! ## The log of a run -/

/-- When nothing fails, every attempted transition is logged. -/
theorem Steps.log_trace {rules : Rules} (hq : ¬ rules.faulty) {n n' : Node} {hs : List Happening} (h : Steps rules n hs n') :
    n'.log = n.log ++ (traceAll hs).map (·.1) := by
  induction h with
  | nil => simp [traceAll]
  | @snoc b c hs x _ hlast ih =>
    have hone : c.log = b.log ++ x.trace.map (·.1) := by
      cases hlast with
      | loaded => simp [Happening.trace]
      | crashed => simp [Happening.trace]
      | @moved _ _ _ _ _ _ _ _ _ _ _ hm =>
        cases hm with
        | lose hf _ => exact absurd hf hq
        | skip hf _ => exact absurd hf hq
        | sched | forget | meet | fire | persist => rfl
    have htrace : traceAll [x] = x.trace := by simp [traceAll]
    rw [hone, ih, traceAll_append, htrace, List.map_append, List.append_assoc]

/-! ## The abstract queue of an engine -/

structure Represents (q : Path) (e : QueueEngine) (rs : List Frame) (n : Node) (s : AbstractQueue) : Prop where
  there : s.there = (e.queues.lookup q).isSome
  published : List.Forall₂ (fun f m => f.2 = recordOf m) rs s.published
  log : ∀ id, Recalls (placeLogged n.log id) (s.place id)
  closed : n.group = none → s.line = none
  opened : ∀ group, n.group = some group → ∃ line, s.line = some line ∧ line <+: s.published ∧ Carries line s.place group

section mirrors

variable {σ : Setting} {e : QueueEngine} {rs : List Frame} {fresh : Bool} {hs : List Happening} {n : Node} {s : AbstractQueue}

theorem Represents.ids (h : Represents σ.queue e rs n s) : s.published.map (·.id) = rs.map fun f => idOf f.2 := by
  have hids : ∀ {rs : List Frame} {ms : List Message}, List.Forall₂ (fun f m => f.2 = recordOf m) rs ms →
      ms.map (·.id) = rs.map fun f => idOf f.2 := by
    intro rs ms hall
    induction hall with
    | nil => rfl
    | cons hf _ ih =>
      rw [List.map_cons, List.map_cons, ih, hf]
      rfl
  exact hids h.published

theorem Represents.record (h : Represents σ.queue e rs n s) {i : Nat} {f : Frame} (hf : rs[i]? = some f) :
    ∃ m, s.published[i]? = some m ∧ f.2 = recordOf m := by
  have hi : i < rs.length := (List.getElem?_eq_some_iff.1 hf).1
  have hi' : i < s.published.length := h.published.length_eq ▸ hi
  refine ⟨s.published[i], List.getElem?_eq_getElem hi', ?_⟩
  have hget := (List.forall₂_iff_get.1 h.published).2 i hi hi'
  rw [List.getElem?_eq_getElem hi, Option.some.injEq] at hf
  rw [← hf]
  exact hget

theorem Represents.message (h : Represents σ.queue e rs n s) {i : Nat} {m : Message} (hm : s.published[i]? = some m) :
    ∃ f, rs[i]? = some f ∧ f.2 = recordOf m := by
  have hi : i < s.published.length := (List.getElem?_eq_some_iff.1 hm).1
  have hi' : i < rs.length := h.published.length_eq ▸ hi
  obtain ⟨m', hm', hf⟩ := h.record (List.getElem?_eq_getElem hi')
  rw [hm, Option.some.injEq] at hm'
  subst hm'
  exact ⟨_, List.getElem?_eq_getElem hi', hf⟩

/-- The records of the published messages can be read. -/
theorem Represents.readable (h : Represents σ.queue e rs n s) (hc : Course σ e rs fresh hs n) {queue : QueueState}
    (hqueue : e.queues.lookup σ.queue = some queue) {line : List Message} (hline : line <+: s.published) :
    Readable queue.segment e.fs line := by
  intro i m hm
  have hm' : s.published[i]? = some m := by
    obtain ⟨rest, heq⟩ := hline
    have hi : i < line.length := (List.getElem?_eq_some_iff.1 hm).1
    rw [← heq, List.getElem?_append_left hi]
    exact hm
  obtain ⟨f, hf, hrec⟩ := h.message hm'
  have hlen := hc.stored.length_lt
  have hi : (UInt64.ofNat i).toNat = i := by
    have hlt : i < rs.length := (List.getElem?_eq_some_iff.1 hf).1
    rw [UInt64.toNat_ofNat']
    exact Nat.mod_eq_of_lt (by omega)
  refine ⟨_, hc.stored.read_of hqueue (o := UInt64.ofNat i) (by rw [hi]; exact hf), ?_, ?_⟩
  · rw [hrec]
    rfl
  · rw [hrec]
    exact consumedMessage_same f.1 m _

/-- A group that is loaded has all messages, the leased ones ready again. -/
theorem Represents.load (h : Represents σ.queue e rs n s) (hc : Course σ e rs fresh hs n) {env : Env} {op : GroupOp}
    (hm : Meets (σ.rules rs) env e σ.queue (.group σ.queue σ.group op) n) {queue : QueueState}
    (hqueue : e.queues.lookup σ.queue = some queue) (hnone : queue.groups.lookup σ.group = none) {group : ConsumerGroupState}
    (hget : getGroup env e.options σ.queue queue σ.group e.fs = .ok group) :
    Carries s.published (fun id => (s.place id).reopened (env.now .loadGroupState)) group := by
  obtain ⟨hs', hsteps, -, -⟩ := hc.tracks.load hm hqueue hget
  have hentries : Entries (σ.rules rs) { n with group := some group } := .steps hc.sound (hc.steps.trans hsteps)
  have hload : loadGroupState env e.options σ.queue σ.group queue.segment e.fs = .ok group := by
    unfold getGroup at hget
    rwa [hnone] at hget
  obtain ⟨messages, base, events, -, hbase, hevents, hgroup⟩ := loadGroupState_ok hload
  rw [loadTransitions_view (fun _ => rfl) hc.tracks.data_dir hc.tracks.files] at hevents
  obtain rfl := Except.ok.inj hevents
  -- Entries come from the log, leases too.
  have hruntime : ∀ id, group.runtime.lookup id = (base.runtime.lookup id).map fun rt =>
      (rt.restored (lastEvent n.log id)).recovered (env.now .loadGroupState) := by
    intro id
    rw [hgroup]
    exact lookup_rebuilt env e.options n.log base id
  have hinflight : ∀ id, group.inflight.lookup id = (base.runtime.lookup id).bind fun rt => (lastEvent n.log id).bind fun event =>
      if event.state = .kInFlight then some (leaseOf e.options event rt.offset) else none := by
    intro id
    rw [hgroup]
    exact inflight_replay env e.options n.log base (loadStateFile_ok hbase).2 id
  refine ⟨fun id rt hrt => ?_, fun m hm => ?_, fun id hid => ?_⟩
  · obtain ⟨r, ⟨f, hf, rfl⟩, hrid, -⟩ := (hentries.memory group rfl id rt hrt).filed
    obtain ⟨m, hmes, hrec⟩ := h.record hf
    refine ⟨m, hmes, ?_, ?_⟩
    · rw [← hrid]
      change m.id = idOf f.2
      rw [hrec]
      rfl
    · have hlog := h.log id
      have hrt' := hrt
      rw [hruntime, Option.map_eq_some_iff] at hrt'
      obtain ⟨rt0, hrt0, hrest⟩ := hrt'
      rw [hinflight, hrt0, Option.bind_some]
      cases hlast : lastEvent n.log id with
      | none =>
        rw [placeLogged, hlast] at hlog
        rw [(hentries.memory group rfl id rt hrt).default hlast, hlog.eq rfl]
        rfl
      | some event =>
        rw [placeLogged, hlast] at hlog
        rw [hlast] at hrest
        by_cases hfly : event.state = .kInFlight
        · have hlease : (placeAfter event).lease = some event.deadline_ms := if_pos hfly
          have hrec' : rt = { rt0.after event with
              state := .kReady
              available_after_ms := env.now .loadGroupState
              last_transition_reason := reasonToString .kRecoveredInflightToReady
              last_transition_ts := env.now .loadGroupState } := by
            rw [← hrest]
            exact if_pos hfly
          rw [hlog.reopened_eq hlease, Option.bind_some, if_pos hfly, hrec']
          rfl
        · have hlease : (placeAfter event).lease = none := if_neg hfly
          have hrec' : rt = rt0.after event := by
            rw [← hrest]
            exact if_neg hfly
          have hsame : (placeAfter event).reopened (env.now .loadGroupState) = placeAfter event := by
            rw [LeaseQueue.Place.reopened, hlease]
            rfl
          rw [hlog.eq hlease, hsame, Option.bind_some, if_neg hfly, hrec', placeAfter, if_neg hfly]
          rfl
  · obtain ⟨i, hi⟩ := List.getElem?_of_mem hm
    obtain ⟨f, hf, hrec⟩ := h.message hi
    have hin := hc.inSegment hqueue (List.mem_of_getElem? hf)
    rw [hrec] at hin
    exact (mem_keys_iff _ _).1 (load_keys hload hin)
  · rw [hruntime, Option.map_eq_none_iff] at hid
    refine ⟨by rw [hinflight, hid]; rfl, ?_⟩
    have hlast : lastEvent n.log id = none := by
      rw [lastEvent_none]
      rintro event hev rfl
      obtain ⟨o, r, hsite, hrid⟩ := hc.entries.log event hev
      have hkey := load_keys hload (hc.stored.inSegment hqueue hsite)
      obtain ⟨rt, hrt⟩ := (mem_keys_iff _ _).1 hkey
      rw [hrid, hruntime, hid] at hrt
      cases hrt
    have hlog := h.log id
    rw [placeLogged, hlast] at hlog
    rw [hlog.eq rfl]
    rfl

/-- The group that an operation finds has the line and the places that the abstract
operation finds. -/
theorem Represents.finds (h : Represents σ.queue e rs n s) (hc : Course σ e rs fresh hs n) {env : Env} {op : GroupOp}
    (hm : Meets (σ.rules rs) env e σ.queue (.group σ.queue σ.group op) n) {queue : QueueState}
    (hqueue : e.queues.lookup σ.queue = some queue) {group : ConsumerGroupState}
    (hget : getGroup env e.options σ.queue queue σ.group e.fs = .ok group) :
    Carries s.found (s.finds env.readings) group ∧ s.found <+: s.published ∧
      ∀ id, Recalls (placeLogged n.log id) (s.finds env.readings id) := by
  have hat : n.group = queue.groups.lookup σ.group := by rw [hc.tracks.memory, groupAt, hqueue, Option.bind_some]
  cases hgroup : queue.groups.lookup σ.group with
  | none =>
    have hline := h.closed (hat.trans hgroup)
    have hfound : s.found = s.published := by rw [LeaseQueue.Queue.found, hline, Option.getD_none]
    have hfinds : s.finds env.readings = fun id => (s.place id).reopened (env.now .loadGroupState) := by
      rw [LeaseQueue.Queue.finds, hline]
      rfl
    rw [hfound, hfinds]
    exact ⟨h.load hc hm hqueue hgroup hget, List.prefix_rfl, fun id => (h.log id).reopened _⟩
  | some group0 =>
    have heq : group0 = group := by
      unfold getGroup at hget
      rw [hgroup] at hget
      exact Except.ok.inj hget
    subst heq
    obtain ⟨line, hline, hpre, hcarries⟩ := h.opened group0 (hat.trans hgroup)
    have hfound : s.found = line := by rw [LeaseQueue.Queue.found, hline, Option.getD_some]
    have hfinds : s.finds env.readings = s.place := by
      rw [LeaseQueue.Queue.finds, hline]
      rfl
    rw [hfound, hfinds]
    exact ⟨hcarries, hpre, h.log⟩

/-- An operation on the group, when the queue is there: the answer and moves of the abstract
queue, and the group after them. -/
theorem Represents.acts (h : Represents σ.queue e rs n s) (hc : Course σ e rs fresh hs n) {env : Env} (hq : env.toIo.Quiet)
    {op : GroupOp} (hm : Meets (σ.rules rs) env e σ.queue (.group σ.queue σ.group op) n)
    (hn : (rs.map fun f => idOf f.2).Nodup) {queue : QueueState} (hqueue : e.queues.lookup σ.queue = some queue) :
    ∃ group', Acts env e.options s.found (s.finds env.readings) op (runOp env e (.group σ.queue σ.group op)).1
        ((opTrace σ.queue σ.group env e (.group σ.queue σ.group op)).map (·.1)) group' ∧
      groupAt (runOp env e (.group σ.queue σ.group op)).2 σ.queue σ.group = some group' ∧ s.found <+: s.published ∧
      ∀ id, Recalls (placeLogged n.log id) (s.finds env.readings id) := by
  obtain ⟨group, hget⟩ := hc.gets_group hqueue hq.reads
  obtain ⟨hcarries, hpre, hrecalls⟩ := h.finds hc hm hqueue hget
  have hseg : Aside (groupFiles e.options.data_dir σ.queue σ.group) queue.segment.path := by
    rw [hc.tracks.placed σ.queue queue hqueue]
    exact aside_segment _ _ _ _
  have hnodup : (s.found.map (·.id)).Nodup := by
    refine List.Nodup.sublist (hpre.sublist.map _) ?_
    rw [h.ids]
    exact hn
  have hlen : s.found.length < 2 ^ 64 := by
    have hle := hpre.length_le
    have hsmall := hc.stored.length_lt
    rw [← h.published.length_eq] at hle
    omega
  have hacts := groupOp_acts (q := σ.queue) (g := σ.group) hq hcarries hnodup hlen (h.readable hc hqueue hpre) hseg op
  have hreply : (runOp env e (.group σ.queue σ.group op)).1 =
      (groupOp env e.options σ.queue σ.group op queue.segment group e.fs).1 := by
    rw [runOp_group]
    simp only [onGroup, hqueue, hget]
  have htrace : opTrace σ.queue σ.group env e (.group σ.queue σ.group op) =
      groupOpTrace env e.options σ.queue σ.group op queue.segment group e.fs := by
    simp only [opTrace, and_self, if_true, hqueue, hget]
  rw [hreply, htrace]
  exact ⟨_, hacts, (runOp_found op hqueue hget).1, hpre, hrecalls⟩

/-! ## One step -/

/-- Creating a queue that is not there, when nothing fails. -/
theorem createQueue_quiet {env : Env} (hq : env.toIo.Quiet) {e : QueueEngine} {q : Path} (hnone : e.queues.lookup q = none) :
    (createQueueOnShard env q e).1.isOk = true := by
  have hfault := hq.fault (.creat (segmentPath e.options.data_dir q))
  simp only [createQueueOnShard, hnone, SegmentLog.reopen_opened hfault, SegmentLog.recover]
  rfl

/-- Only `CreateQueue` changes whether the queue is there. -/
theorem isSome_runOp (env : Env) (e : QueueEngine) {o : Op} {q : Path} (h : o ≠ .createQueue q) :
    ((runOp env e o).2.queues.lookup q).isSome = (e.queues.lookup q).isSome := by
  have heffect := runOp_effect env e o
  generalize (runOp env e o).2 = e' at heffect
  cases heffect with
  | none => rfl
  | created q' hnone _ _ =>
    have hne : q ≠ q' := by
      rintro rfl
      exact h rfl
    exact congrArg _ (AList.lookup_insert_ne hne)
  | produced q' m hqueue _ _ =>
    by_cases hq : q = q'
    · subst hq
      rw [hqueue, AList.lookup_insert]
      rfl
    · exact congrArg _ (AList.lookup_insert_ne hq)
  | group q' g op hqueue _ =>
    by_cases hq : q = q'
    · subst hq
      rw [hqueue, AList.lookup_insert]
      rfl
    · exact congrArg _ (AList.lookup_insert_ne hq)

/-- A step that does not show. -/
theorem Represents.unseen {q : Path} (h : Represents q e rs n s) {e' : QueueEngine} {n' : Node} (hlog : n'.log = n.log)
    (hgroup : n'.group = n.group) (hthere : (e'.queues.lookup q).isSome = (e.queues.lookup q).isSome) :
    Represents q e' rs n' s where
  there := by rw [hthere, h.there]
  published := h.published
  log := by
    rw [hlog]
    exact h.log
  closed := by
    rw [hgroup]
    exact h.closed
  opened := by
    rw [hgroup]
    exact h.opened

/-- A message is added to the queue. -/
theorem Represents.publish {q : Path} (h : Represents q e rs n s) {f : Frame} {m : Message} (hf : f.2 = recordOf m) :
    Represents q e (rs ++ [f]) n { s with published := s.published ++ [m] } where
  there := h.there
  published := List.rel_append h.published (.cons hf .nil)
  log := h.log
  closed := h.closed
  opened group hgroup := by
    obtain ⟨line, hline, hpre, hcarries⟩ := h.opened group hgroup
    exact ⟨line, hline, hpre.trans (List.prefix_append _ _), hcarries⟩

theorem Represents.create {q : Path} (h : Represents q e rs n s) (env : Env) {n' : Node} (hlog : n'.log = n.log)
    (hgroup : n'.group = n.group) :
    ∃ s', SeenRuns s (if (createQueueOnShard env q e).1.isOk then [.created] else []) s' ∧
      Represents q (createQueueOnShard env q e).2 rs n' s' := by
  unfold createQueueOnShard
  cases hqueue : e.queues.lookup q with
  | some queue => exact ⟨s, .nil, h.unseen hlog hgroup rfl⟩
  | none =>
    dsimp only
    rcases hopen : SegmentLog.reopen env.toIo (segmentPath e.options.data_dir q) e.options.fsync_policy e.fs with ⟨res, segment, fs⟩
    cases res with
    | error err => exact ⟨s, .nil, h.unseen hlog hgroup rfl⟩
    | ok u =>
      refine ⟨{ s with there := true }, .one (.created (by rw [h.there, hqueue]; rfl)), ?_, h.published, ?_, ?_, ?_⟩
      · symm
        change ((e.queues.insert q { segment }).lookup q).isSome = true
        rw [AList.lookup_insert]
        rfl
      · rw [hlog]
        exact h.log
      · rw [hgroup]
        exact h.closed
      · rw [hgroup]
        exact h.opened

theorem Represents.produce (h : Represents σ.queue e rs n s) (hc : Course σ e rs fresh hs n) {env : Env} {m : Message}
    (ha : σ.Allows e fresh (.op env (.produce σ.queue m))) {n' : Node} (hlog : n'.log = n.log) (hgroup : n'.group = n.group) :
    ∃ s', SeenRuns s (match (produceOnShard env σ.queue m e).1 with
        | .ok offset => [.published m offset.toNat]
        | .error _ => []) s' ∧
      Represents σ.queue (step e (.op env (.produce σ.queue m))) (rs ++ addedBy σ.queue env e (.produce σ.queue m)) n' s' := by
  have hsome : ((step e (.op env (.produce σ.queue m))).queues.lookup σ.queue).isSome = (e.queues.lookup σ.queue).isSome :=
    isSome_runOp env e (by simp)
  have hafter := h.unseen hlog hgroup hsome
  cases hres : (produceOnShard env σ.queue m e).1 with
  | error err =>
    refine ⟨s, .nil, ?_⟩
    have hnone : addedBy σ.queue env e (.produce σ.queue m) = [] := by
      rw [addedBy, hres]
      exact if_neg fun hand => by cases hand.2
    rw [hnone, List.append_nil]
    exact hafter
  | ok offset =>
    have hadded : addedBy σ.queue env e (.produce σ.queue m) = [messageFrame (env, m)] := by
      rw [addedBy, hres]
      exact if_pos ⟨rfl, rfl⟩
    have hst := hc.stored
    rw [(ha.produce m rfl).1] at hst
    have hok : (produceOnShard env σ.queue m e).1.isOk = true := by
      rw [hres]
      rfl
    have hoffset := hst.produce_offset hok
    rw [hres] at hoffset
    have hlen := hc.stored.length_lt
    have hnat : offset.toNat = s.published.length := by
      rw [Except.ok.inj hoffset, ← h.published.length_eq, UInt64.toNat_ofNat']
      exact Nat.mod_eq_of_lt (by omega)
    have hthere : s.there = true := by
      rw [h.there]
      rcases produceOnShard_cases env σ.queue m e with ⟨err, heq⟩ | ⟨queue, hqueue, -⟩
      · rw [heq] at hres
        cases hres
      · rw [hqueue]
        rfl
    dsimp only
    rw [hadded, hnat]
    exact ⟨_, .one (.published hthere), hafter.publish rfl⟩

/-- An operation on the group, while the queue is there. -/
theorem Represents.served (h : Represents σ.queue e rs n s) (hc : Course σ e rs fresh hs n) {env : Env} (hq : env.toIo.Quiet)
    (hfaulty : ¬ σ.faulty) {op : GroupOp} (ha : σ.Allows e fresh (.op env (.group σ.queue σ.group op)))
    (hn : (rs.map fun f => idOf f.2).Nodup) {hs' : List Happening} {n' : Node}
    (hc' : Course σ (step e (.op env (.group σ.queue σ.group op))) rs fresh (hs ++ hs') n')
    (hsteps : Steps (σ.rules rs) n hs' n') (htrace : traceAll hs' = opTrace σ.queue σ.group env e (.group σ.queue σ.group op)) :
    ∃ x s', seenReply e.options env op (runOp env e (.group σ.queue σ.group op)).1 = some x ∧ SeenStep s x s' ∧
      Represents σ.queue (step e (.op env (.group σ.queue σ.group op))) rs n' s' := by
  cases hqueue : e.queues.lookup σ.queue with
  | none =>
    have hrun : runOp env e (.group σ.queue σ.group op) = (queueNotFound, e) := by
      rw [runOp_group]
      simp only [onGroup, hqueue]
    have hlog : n'.log = n.log := by
      rw [hsteps.log_trace hfaulty, htrace]
      simp [opTrace, hqueue]
    have hgroup : n'.group = n.group := by
      rw [hc'.tracks.memory, hc.tracks.memory]
      change groupAt (runOp env e (.group σ.queue σ.group op)).2 _ _ = _
      rw [hrun]
    refine ⟨.absent, s, by rw [hrun]; rfl, .absent (by rw [h.there, hqueue]; rfl), ?_, h.published, ?_, ?_, ?_⟩
    · change _ = ((runOp env e (.group σ.queue σ.group op)).2.queues.lookup σ.queue).isSome
      rw [hrun]
      exact h.there
    · rw [hlog]
      exact h.log
    · rw [hgroup]
      exact h.closed
    · rw [hgroup]
      exact h.opened
  | some queue =>
    obtain ⟨group', ⟨answer, xs, hserves, hanswer, hwrites, hcarries⟩, hat, hpre, hrecalls⟩ :=
      h.acts hc hq (hc.meets ha) hn hqueue
    refine ⟨_, _, seenReply_of_answer hanswer _ _ _, .served (by rw [h.there, hqueue]; rfl) hserves, ?_, h.published, ?_, ?_, ?_⟩
    · rw [show s.there = true by rw [h.there, hqueue]; rfl]
      symm
      change ((runOp env e (.group σ.queue σ.group op)).2.queues.lookup σ.queue).isSome = true
      unfold groupAt at hat
      cases hl : (runOp env e (.group σ.queue σ.group op)).2.queues.lookup σ.queue with
      | none =>
        rw [hl] at hat
        cases hat
      | some queue' => rfl
    · rw [hsteps.log_trace hfaulty, htrace]
      exact hwrites.recalls hrecalls
    · intro hnone
      rw [hc'.tracks.memory] at hnone
      change groupAt (runOp env e (.group σ.queue σ.group op)).2 _ _ = _ at hnone
      rw [hat] at hnone
      cases hnone
    · intro group hgroup
      rw [hc'.tracks.memory] at hgroup
      change groupAt (runOp env e (.group σ.queue σ.group op)).2 _ _ = _ at hgroup
      rw [hat] at hgroup
      obtain rfl := Option.some.inj hgroup
      exact ⟨s.found, rfl, hpre, hcarries⟩

/-- An operation. -/
theorem Represents.op (h : Represents σ.queue e rs n s) (hc : Course σ e rs fresh hs n) (hfaulty : ¬ σ.faulty) {env : Env}
    (hq : env.toIo.Quiet) {o : Op} (ha : σ.Allows e fresh (.op env o)) (hn : (rs.map fun f => idOf f.2).Nodup) :
    ∃ hs' n' xs s', Course σ (step e (.op env o)) (rs ++ addedBy σ.queue env e o) fresh (hs ++ hs') n' ∧
      Step.seen σ.queue σ.group e (.op env o) = some xs ∧ SeenRuns s xs s' ∧
      Represents σ.queue (step e (.op env o)) (rs ++ addedBy σ.queue env e o) n' s' := by
  obtain ⟨hs', n', hc', hsteps, -, htrace, -⟩ := hc.op ha
  by_cases hown : ∃ op, o = .group σ.queue σ.group op
  · obtain ⟨op, rfl⟩ := hown
    have hnone : addedBy σ.queue env e (.group σ.queue σ.group op) = [] := rfl
    rw [hnone, List.append_nil] at hc' hsteps ⊢
    obtain ⟨x, s', hx, hstep, hrep⟩ := h.served hc hq hfaulty ha hn hc' hsteps htrace
    refine ⟨hs', n', [x], s', hc', ?_, .one hstep, hrep⟩
    rw [Step.seen, if_pos ⟨rfl, rfl⟩, hx]
    rfl
  have hnot : ∀ op, o ≠ .group σ.queue σ.group op := fun op heq => hown ⟨op, heq⟩
  have hapart : o.Apart σ.dir σ.queue σ.group := ha.apart
  have hgroup : n'.group = n.group := by
    rw [hc'.tracks.memory, hc.tracks.memory]
    exact (runOp_foreign env hc.tracks hapart hnot).1
  have hlog : n'.log = n.log := by
    have hempty : opTrace σ.queue σ.group env e o = [] := by
      cases o with
      | group q' g' op =>
        rw [opTrace, if_neg]
        rintro ⟨rfl, rfl⟩
        exact hnot op rfl
      | createQueue q' => rfl
      | produce q' m => rfl
    rw [hsteps.log_trace hfaulty, htrace, hempty]
    exact List.append_nil _
  cases o with
  | createQueue q' =>
    have hnone : addedBy σ.queue env e (.createQueue q') = [] := rfl
    rw [hnone, List.append_nil] at hc' ⊢
    by_cases hqueue : q' = σ.queue
    · subst hqueue
      obtain ⟨s', hruns, hrep⟩ := h.create env hlog hgroup
      refine ⟨hs', n', _, s', hc', ?_, hruns, hrep⟩
      simp only [Step.seen, true_and]
    · refine ⟨hs', n', [], s, hc', ?_, .nil, h.unseen hlog hgroup (isSome_runOp env e fun heq => hqueue (Op.createQueue.inj heq))⟩
      rw [Step.seen, if_neg fun hand => hqueue hand.1]
  | produce q' m =>
    by_cases hqueue : q' = σ.queue
    · subst hqueue
      obtain ⟨s', hruns, hrep⟩ := h.produce hc ha hlog hgroup
      refine ⟨hs', n', _, s', hc', ?_, hruns, hrep⟩
      rw [Step.seen, if_pos rfl]
    · have hnone : addedBy σ.queue env e (.produce q' m) = [] := if_neg fun hand => hqueue hand.1
      rw [hnone, List.append_nil] at hc' ⊢
      refine ⟨hs', n', [], s, hc', ?_, .nil, h.unseen hlog hgroup (isSome_runOp env e (by simp))⟩
      rw [Step.seen, if_neg hqueue]
  | group q' g' op =>
    have hnone : addedBy σ.queue env e (.group q' g' op) = [] := rfl
    rw [hnone, List.append_nil] at hc' ⊢
    refine ⟨hs', n', [], s, hc', ?_, .nil, h.unseen hlog hgroup (isSome_runOp env e (by simp))⟩
    rw [Step.seen, if_neg]
    rintro ⟨rfl, rfl⟩
    exact hnot op rfl

/-- The process is killed. What is left of the group is what the log says. -/
theorem Represents.stop {q : Path} (h : Represents q e rs n s) {e' : QueueEngine} {n' : Node} (hqueues : e'.queues.lookup q = none)
    (hgroup : n'.group = none) {place : MessageId → Spot} (hlog : ∀ id, Recalls (placeLogged n'.log id) (place id)) :
    Represents q e' rs n' { s.stopped with place } where
  there := by
    rw [hqueues]
    rfl
  published := h.published
  log := hlog
  closed _ := rfl
  opened group hsome := by
    rw [hgroup] at hsome
    cases hsome

theorem Represents.kill (h : Represents σ.queue e rs n s) (hc : Course σ e rs fresh hs n) (hfaulty : ¬ σ.faulty) {env : Env}
    (hq : env.toIo.Quiet) {o : Op} {k : Nat} {options : EngineOptions} (ha : σ.Allows e fresh (.kill env o k options))
    (hn : (rs.map fun f => idOf f.2).Nodup) :
    ∃ rs' hs' n' xs s', Course σ (step e (.kill env o k options)) rs' false hs' n' ∧ Adds σ (.kill env o k options) rs rs' ∧
      Step.seen σ.queue σ.group e (.kill env o k options) = some xs ∧ SeenRuns s xs s' ∧
      Represents σ.queue (step e (.kill env o k options)) rs' n' s' := by
  obtain ⟨rs', hs', n', hc', hsteps, hadds, -, htrace⟩ := hc.kill ha
  have hqueues : (step e (.kill env o k options)).queues.lookup σ.queue = none := rfl
  have hgroup : n'.group = none := by
    rw [hc'.tracks.memory, groupAt, hqueues]
    rfl
  have hlog : n'.log = n.log ++ (traceAll hs').map (·.1) := by
    have hcrash : traceAll [.crashed] = [] := rfl
    rw [hsteps.log_trace hfaulty, traceAll_append, hcrash, List.append_nil]
  -- Without an operation on the group, the log is as it was.
  have hquiet : opTrace σ.queue σ.group env e o = [] → ∀ id, Recalls (placeLogged n'.log id) (s.place id) := by
    intro hempty
    rw [hempty, List.prefix_nil] at htrace
    rw [hlog, htrace]
    simpa using h.log
  have hsame : (∀ m, o ≠ .produce σ.queue m) → rs' = rs := by
    intro hnot
    rcases hadds with rfl | ⟨m, hop, -⟩
    · rfl
    · exact absurd hop (hnot m)
  cases o with
  | createQueue q' =>
    obtain rfl := hsame (by simp)
    exact ⟨rs', _, n', [.stopped none], s.stopped, hc', hadds, rfl, .one .stopped, h.stop hqueues hgroup (hquiet rfl)⟩
  | produce q' m =>
    have hstop := h.stop hqueues hgroup (hquiet rfl)
    refine ⟨rs', hs ++ (hs' ++ [.crashed]), n', [.stopped (if q' = σ.queue then some m else none)], ?_⟩
    rcases hadds with rfl | ⟨m', hop, rfl⟩
    · exact ⟨s.stopped, hc', .inl rfl, rfl, .one .stopped, hstop⟩
    · obtain ⟨rfl, rfl⟩ := Op.produce.inj hop
      refine ⟨_, hc', .inr ⟨m, rfl, rfl⟩, rfl, ?_, hstop.publish rfl⟩
      rw [if_pos rfl]
      exact .one .stoppedPublished
  | group q' g' op =>
    obtain rfl := hsame (by simp)
    by_cases hown : q' = σ.queue ∧ g' = σ.group
    · obtain ⟨rfl, rfl⟩ := hown
      refine ⟨rs', hs ++ (hs' ++ [.crashed]), n', [.cut e.options.policy env.readings op.asked], ?_⟩
      have hseen : Step.seen σ.queue σ.group e (.kill env (.group σ.queue σ.group op) k options) =
          some [.cut e.options.policy env.readings op.asked] := by rw [Step.seen, if_pos ⟨rfl, rfl⟩]
      cases hqueue : e.queues.lookup σ.queue with
      | none =>
        have hempty : opTrace σ.queue σ.group env e (.group σ.queue σ.group op) = [] := by simp [opTrace, hqueue]
        exact ⟨s.stopped, hc', hadds, hseen, .one (.cutAbsent (by rw [h.there, hqueue]; rfl)),
          h.stop hqueues hgroup (hquiet hempty)⟩
      | some queue =>
        obtain ⟨group', ⟨answer, xs, hserves, -, hwrites, -⟩, -, -, hrecalls⟩ := h.acts hc hq (hc.meets ha) hn hqueue
        obtain ⟨ys, hys, hfront⟩ := hwrites.front (htrace.map (·.1))
        refine ⟨_, hc', hadds, hseen, .one (.cut (by rw [h.there, hqueue]; rfl) hserves hys), h.stop hqueues hgroup ?_⟩
        rw [hlog]
        exact hfront.recalls hrecalls
    · have hempty : opTrace σ.queue σ.group env e (.group q' g' op) = [] := by rw [opTrace, if_neg hown]
      refine ⟨rs', _, n', [.stopped none], s.stopped, hc', hadds, ?_, .one .stopped, h.stop hqueues hgroup (hquiet hempty)⟩
      rw [Step.seen, if_neg hown]

end mirrors

/-! ## Runs -/

theorem faultless_follows {opts : EngineOptions} {q : Path} {g : CString} {steps : List Step} (h : Faultless opts q g steps) :
    (faultlessSetting opts.data_dir q g).Follows (freshEngine opts) true steps := by
  refine follows_of_quiet id (fun _ _ => trivial) h.quiet (fun env o k options hk => ?_) h.apart h.clear h.produce_first h.fits
    (.inl rfl) h.accepted
  exact ⟨h.data_dir env o k options hk, trivial⟩

/-- The records after a step are offered by it. -/
theorem adds_offers {σ : Setting} {e : QueueEngine} {s : Step} {rs rs' : List Frame} (h : Adds σ s rs rs')
    (hop : ∀ env o, s = .op env o → rs' = rs ++ addedBy σ.queue env e o) (more : List MessageId) :
    (rs'.map (fun f => idOf f.2) ++ more).Sublist (rs.map (fun f => idOf f.2) ++ ((s.offers σ.queue e).map (·.id) ++ more)) := by
  rw [← List.append_assoc]
  refine List.Sublist.append_right ?_ more
  cases s with
  | op env o =>
    rw [hop env o rfl, List.map_append, Step.offers, accepted_ids]
  | kill env o k options =>
    rcases h with rfl | ⟨m, hm, rfl⟩
    · exact List.sublist_append_left _ _
    · have hm' : o = .produce σ.queue m := hm
      subst hm'
      rw [List.map_append, Step.offers, if_pos rfl]
      exact List.Sublist.refl _

/-- What is seen of a run is a run of the abstract queue. -/
theorem represents_run {σ : Setting} (hfaulty : ¬ σ.faulty) {steps : List Step} {e : QueueEngine} {rs : List Frame} {fresh : Bool}
    {hs : List Happening} {n : Node} {s : AbstractQueue} (hc : Course σ e rs fresh hs n) (h : Represents σ.queue e rs n s)
    (hf : σ.Follows e fresh steps) (hq : ∀ x ∈ steps, x.Quiet)
    (hn : (rs.map (fun f => idOf f.2) ++ (offeredIn σ.queue e steps).map (·.id)).Nodup) :
    ∃ seen s' rs' fresh' hs' n', seenIn σ.queue σ.group e steps = some seen ∧ SeenRuns s seen s' ∧
      Course σ (run e steps) rs' fresh' hs' n' ∧ Represents σ.queue (run e steps) rs' n' s' := by
  induction steps generalizing e rs fresh hs n s with
  | nil => exact ⟨[], s, rs, fresh, hs, n, rfl, .nil, hc, h⟩
  | cons x steps ih =>
    have hx : x.Quiet := hq x List.mem_cons_self
    have hrest : ∀ y ∈ steps, y.Quiet := fun y hy => hq y (List.mem_cons_of_mem _ hy)
    have hrs : (rs.map fun f => idOf f.2).Nodup := hn.sublist (List.sublist_append_left _ _)
    rw [offeredIn, List.map_append] at hn
    rw [seenIn]
    cases x with
    | op env o =>
      have hquiet : env.toIo.Quiet := hx
      obtain ⟨hs', n', xs, s', hc', hxs, hruns, hrep⟩ := h.op hc hfaulty hquiet hf.1 hrs
      have hn' := hn.sublist (adds_offers (adds_addedBy σ env e o rs) (fun env' o' heq => by cases heq; rfl) _)
      have hf' : σ.Follows (step e (.op env o)) fresh steps := by simpa [Step.kills] using hf.2
      obtain ⟨seen, s'', rs'', fresh'', hs'', n'', hseen, hruns', hc'', hrep'⟩ := ih hc' hrep hf' hrest hn'
      exact ⟨xs ++ seen, s'', rs'', fresh'', hs'', n'', by rw [hxs, Option.bind_some, hseen]; rfl, hruns.append hruns', hc'', hrep'⟩
    | kill env o k options =>
      have hquiet : env.toIo.Quiet := hx
      obtain ⟨rs', hs', n', xs, s', hc', hadds, hxs, hruns, hrep⟩ := h.kill hc hfaulty hquiet hf.1 hrs
      have hn' := hn.sublist (adds_offers hadds (fun env' o' heq => by cases heq) _)
      have hf' : σ.Follows (step e (.kill env o k options)) false steps := by simpa [Step.kills] using hf.2
      obtain ⟨seen, s'', rs'', fresh'', hs'', n'', hseen, hruns', hc'', hrep'⟩ := ih hc' hrep hf' hrest hn'
      exact ⟨xs ++ seen, s'', rs'', fresh'', hs'', n'', by rw [hxs, Option.bind_some, hseen]; rfl, hruns.append hruns', hc'', hrep'⟩

theorem represents_fresh (opts : EngineOptions) (q : Path) : Represents q (freshEngine opts) [] {} emptyQueue where
  there := rfl
  published := .nil
  log _ := .refl _
  closed _ := rfl
  opened _ h := by cases h

theorem Faultless.represents {opts : EngineOptions} {q : Path} {g : CString} {steps : List Step} (h : Faultless opts q g steps)
    (hdistinct : ((offeredIn q (freshEngine opts) steps).map (·.id)).Nodup) :
    ∃ seen s rs fresh hs n, seenIn q g (freshEngine opts) steps = some seen ∧ SeenRuns emptyQueue seen s ∧
      Course (faultlessSetting opts.data_dir q g) (run (freshEngine opts) steps) rs fresh hs n ∧
      Represents q (run (freshEngine opts) steps) rs n s := by
  have h0 : Course (faultlessSetting opts.data_dir q g) (freshEngine opts) [] true [] {} :=
    ⟨tracks_fresh opts q g, .absent rfl rfl, trivial, .nil, fun _ h => h.elim⟩
  apply represents_run id h0 (represents_fresh opts q) (faultless_follows h) h.quiet
  rw [List.map_nil, List.nil_append]
  exact hdistinct

theorem faultless_of_everyday {steps : List Step} (h : ∀ s ∈ steps, Everyday s) (hio : noIoError (freshEngine {}) steps = true)
    (hfirst : steps.Pairwise fun s s' => s.kills = true → ∀ m, s'.operation ≠ .produce someQueue m) :
    Faultless {} someQueue someGroup steps :=
  (orderly_of_everyday h hio hfirst).faultless

/-- The message of a delivery that was cut short is asked for after the restart. -/
theorem faultless_cutDelivery :
    Faultless {} someQueue someGroup (cutDelivery ++ [.op {} (.group someQueue someGroup .consume)]) := by
  refine faultless_of_everyday ?_ (by decide +kernel) (by simp [cutDelivery, killedAndOpened, Step.operation, Step.kills])
  simp only [cutDelivery, killedAndOpened, List.cons_append, List.nil_append, List.forall_mem_cons]
  exact ⟨.createQueue, .produce (by decide), .kill .group, .createQueue, .group, List.forall_mem_nil _⟩

/-- What the clients of a group see of an engine in which nothing fails is what they see of
a queue with leases. -/
theorem engine_refines (opts : EngineOptions) (q : Path) (g : CString) (steps : List Step) (h : Faultless opts q g steps)
    (hdistinct : ((offeredIn q (freshEngine opts) steps).map (·.id)).Nodup) :
    ∃ seen s, seenIn q g (freshEngine opts) steps = some seen ∧ SeenRuns emptyQueue seen s := by
  obtain ⟨seen, s, -, -, -, -, hseen, hruns, -, -⟩ := h.represents hdistinct
  exact ⟨seen, s, hseen, hruns⟩

theorem engine_refines_cut : ∃ seen s,
    seenIn someQueue someGroup (freshEngine {}) (cutDelivery ++ [.op {} (.group someQueue someGroup .consume)]) = some seen ∧
      SeenRuns emptyQueue seen s :=
  engine_refines {} someQueue someGroup _ faultless_cutDelivery (by decide +kernel)

end PomaiQueue.Engine
