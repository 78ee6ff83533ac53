import PomaiQueue.Replacement
import PomaiQueue.Loading
import PomaiQueue.StaleAnswers
/-!
# Acked messages after a power loss

With `fsync_policy` `kAlways` the snapshot that `Ack` writes is synced before `Ack`
returns, and the event log never is. After a power loss `LoadGroupState` finds
a snapshot that says the message is acked (`Held`), and replays over it whatever is left
of the log. `ack_durable_iff`: the message is still acked exactly if no event of it is
left, or the last one that is left is the ack.
-/

namespace PomaiQueue.Engine

open Wire Posix Assoc Storage

/-! ## Snapshots that say a message is acked -/

/-- A snapshot that says the message is acked. -/
def ListsAcked (id : MessageId) (data : Bytes) : Prop :=
  ∃ file : StateFile, data = file.bytes ∧ ∃ rt, lastListed file.items id = some rt ∧ rt.state = .kAcked

/-- A group in which the message is acked writes such a snapshot. -/
theorem listsAcked_snapshot (env : Env) {group : ConsumerGroupState} (hlen : group.runtime.entries.length < 2 ^ 64)
    {id : MessageId} {rt : MessageRuntime} (hrt : group.runtime.lookup id = some rt) (hacked : rt.state = .kAcked) :
    ListsAcked id (snapshotBytes env group) := by
  have hsmall : (env.runtime_order.order group.runtime.entries).length < 2 ^ 64 := by
    rwa [(env.runtime_order.perm _).length_eq]
  exact ⟨⟨group.next_sequence, _, hsmall⟩, rfl, rt, (lastListed_order _ _ _).trans hrt, hacked⟩

/-! ## Acked messages stay acked while nothing is lost -/

/-- The last event of the message is its ack, and so it is in memory. -/
structure Sealed (id : MessageId) (n : Node) : Prop where
  log : ∃ event, lastEvent n.log id = some event ∧ event.state = .kAcked
  memory : ∀ group, n.group = some group →
    (∃ rt, group.runtime.lookup id = some rt ∧ rt.state = .kAcked) ∧ group.inflight.lookup id = none

section sealed

variable {rules : Rules} {id : MessageId} {n n' : Node}

/-- No transition of the message is attempted. -/
theorem Sealed.fires_ne (h : Sealed id n) (hr : rules.Sound) (he : Entries rules n) {env : Env} {opts : EngineOptions} {g : CString}
    {read : UInt64 → StatusOr Record} {op : GroupOp} {a : ConsumerGroupState} {event : TransitionEvent} (hg : n.group = some a)
    (hread : ∀ o r, read o = .ok r → rules.site o r) (hf : Fires env opts g read op a event) : event.id ≠ id := by
  obtain ⟨⟨rt, hrt, hacked⟩, hin⟩ := h.memory a hg
  have habsent : ∀ id' entry, a.inflight.lookup id' = some entry → id' ≠ id := by
    rintro id' entry hentry rfl
    rw [hin] at hentry
    cases hentry
  cases hf with
  | timeout id' entry rt' hop hin' => rw [timeoutEvent_id]; exact habsent id' entry hin'
  | deliver id0 rt0 record rt' hop hroom h0 hready havail hrec hrt' =>
    -- The record that is delivered is the one of a ready message.
    have hid : idOf record = id0 := he.read_known hr hg hread h0 hrec
    change idOf record ≠ id
    rintro rfl
    rw [hid, h0] at hrt
    rw [Option.some.inj hrt, hacked] at hready
    cases hready
  | ack id' entry rt' hop hin' => exact habsent id' entry hin'
  | nack id' requeue entry rt' hop hin' => rw [nackEvent_id]; exact habsent id' entry hin'

/-- Nothing happens to the message. -/
theorem Sealed.frame (h : Sealed id n) {a b : ConsumerGroupState} (hg : n.group = some a) (hg' : n'.group = some b)
    (hlog : lastEvent n'.log id = lastEvent n.log id) (hrt : b.runtime.lookup id = a.runtime.lookup id)
    (hin : a.inflight.lookup id = none → b.inflight.lookup id = none) : Sealed id n' := by
  refine ⟨by rw [hlog]; exact h.log, fun group hgroup => ?_⟩
  obtain rfl := Option.some.inj (hgroup.symm.trans hg')
  obtain ⟨hacked, hnone⟩ := h.memory a hg
  rw [hrt]
  exact ⟨hacked, hin hnone⟩

/-- A load takes the state from the log. -/
theorem Sealed.loaded (h : Sealed id n) {env : Env} {opts : EngineOptions} {messages : List (UInt64 × Message)}
    {base : ConsumerGroupState} (hcov : ∀ event ∈ n.log, ∃ om ∈ messages, om.2.id = event.id)
    (hbase : Restores n.snaps.getLast? (defaultGroup env opts messages) base)
    (hg' : n'.group = some (rebuilt env opts n.log base)) (hlog : n'.log = n.log) : Sealed id n' := by
  refine ⟨hlog ▸ h.log, fun group hgroup => ?_⟩
  obtain rfl := Option.some.inj (hgroup.symm.trans hg')
  obtain ⟨event, hlast, hacked⟩ := h.log
  obtain ⟨hmem, rfl⟩ := lastEvent_mem hlast
  obtain ⟨rt, hrt⟩ := hbase.known (hcov event hmem)
  have hnot : ¬ event.state = .kInFlight := by rw [hacked]; simp
  constructor
  · refine ⟨rt.after event, ?_, hacked⟩
    rw [lookup_rebuilt, hrt, hlast]
    exact congrArg some (if_neg hnot)
  · have hin : (rebuilt env opts n.log base).inflight.lookup event.id = _ :=
      inflight_replay env opts n.log base hbase.keys.2 event.id
    rw [hin, hrt, hlast, Option.bind_some, Option.bind_some, if_neg hnot]

theorem Sealed.happens (h : Sealed id n) (hr : rules.Sound) (hcovers : rules.covers) (he : Entries rules n) {x : Happening}
    (hn : Happens rules n x n') : Sealed id n' := by
  -- An event of another message is logged.
  have hother : ∀ {event : TransitionEvent}, event.id ≠ id → n'.log = n.log ++ [event] → lastEvent n'.log id = lastEvent n.log id := by
    intro event hne hlog
    rw [hlog, lastEvent_concat, if_neg hne]
  cases hn with
  | loaded hg hopts hsite hcov hset hpres hbase hg' hlog hmarks => exact h.loaded (hcov hcovers) hbase hg' hlog
  | idle hx hc htr hg hg' hlog hmarks hrt hin =>
    refine h.frame hg hg' (by rw [hlog]) (by rw [hrt]) fun hnone => ?_
    rcases hin id with hsame | ⟨-, hgone⟩
    · rw [hsame, hnone]
    · exact hgone
  | @fired _ env opts read op a event hg henv hopts hread hf hg' hlog hmarks =>
    have hne := h.fires_ne hr he hg hread hf
    refine h.frame hg hg' (hother hne hlog) ?_ fun hin => ?_
    · exact (lookup_applyTransition env opts (bump a) event id).trans (if_neg (Ne.symm hne))
    · exact (inflight_applyTransition_ne env opts (bump a) event (Ne.symm hne)).trans hin
  | lost hfaulty hx hc hg hopts hread hf hg' hlog hmarks =>
    exact h.frame hg hg' (hother (h.fires_ne hr he hg hread hf) hlog) rfl fun hin => hin
  | crashed hg' hlog hmarks =>
    refine ⟨hlog ▸ h.log, fun group hgroup => ?_⟩
    rw [hg'] at hgroup
    cases hgroup

theorem Sealed.next (h : Sealed id n) (hr : rules.Sound) (hcovers : rules.covers) (he : Entries rules n) {x : Happening}
    (hn : Next rules n x n') : Sealed id n' := h.happens hr hcovers he (hn.happens hr he)

theorem Sealed.steps (h : Sealed id n) (hr : rules.Sound) (hcovers : rules.covers) (he : Entries rules n) {hs : List Happening}
    (hsteps : Steps rules n hs n') : Sealed id n' :=
  (hsteps.keeps (P := fun n => Entries rules n ∧ Sealed id n)
    (fun hn hp => ⟨hp.1.next hr hn, hp.2.next hr hcovers hp.1 hn⟩) ⟨he, h⟩).2

/-- Every snapshot that is written says that the message is acked. -/
theorem Sealed.saves (hr : rules.Sound) (hcovers : rules.covers) {env : Env} {opts : EngineOptions} (henv : rules.env env)
    (hopts : rules.opts opts) {read : UInt64 → StatusOr Record} (hread : ∀ o r, read o = .ok r → rules.site o r) {op : GroupOp}
    {a b : ConsumerGroupState} {labels : List Label}
    (hm : Moves rules.faulty env opts rules.group_id read op a labels b) (h : Sealed id n) (he : Entries rules n)
    (hg : n.group = some a) :
    ∀ sizes policy data, Label.saved sizes policy data ∈ labels → policy = opts.fsync_policy ∧ ListsAcked id data := by
  induction hm generalizing n with
  | nil => intro sizes policy data hmem; cases hmem
  | @cons a b c l labels hmove _ ih =>
    intro sizes policy data hmem
    have hnext : Next rules n (.moved l) (n.moved l b) := .moved hg henv hopts hread hmove
    rcases List.mem_cons.1 hmem with rfl | hmem
    · cases hmove
      obtain ⟨⟨rt, hrt, hacked⟩, -⟩ := h.memory a hg
      exact ⟨rfl, listsAcked_snapshot env (hr.keys_lt fun id rt hrt => (he.memory a hg id rt hrt).filed) hrt hacked⟩
    · exact ih (h.next hr hcovers he hnext) (he.next hr hnext) rfl sizes policy data hmem

end sealed

/-! ## The snapshot on the medium -/

section acts

variable {files : Files} {m : Media} {Q : Bytes → Prop}

/-- While an act is made, the snapshot is one that satisfies `Q`. -/
theorem act_durable (h : m.Durable Q files.state) (hok : m.Ok) {a : Act}
    (ha : ∀ sizes policy data, a = .snap sizes policy data → policy ≠ .kNever ∧ Q data) (k : Nat) :
    (m.run parentPath ((a.calls files).take k)).Durable Q files.state := by
  cases a with
  | log event =>
    refine h.run hok fun c hc => .inl ?_
    have hmem := List.mem_of_mem_take hc
    simp only [Act.calls, List.mem_cons, List.not_mem_nil, or_false] at hmem
    rcases hmem with rfl | rfl
    · exact files.apart.1.symm
    · exact files.apart.1.symm
  | snap sizes policy data =>
    obtain ⟨hpolicy, hQ⟩ := ha sizes policy data rfl
    rw [Act.calls, durableCalls_eq sizes files.state data hpolicy]
    exact h.replaced hok (tmpPath_ne files.state) (tmpCalls_spares (tmpPath_ne files.state) sizes data policy) (by simp [Call.Spares])
      hQ (synced_tmpCalls hok sizes files.state data hpolicy) k

theorem acts_durable (h : m.Durable Q files.state) (hok : m.Ok) {acts : List Act}
    (hacts : ∀ sizes policy data, Act.snap sizes policy data ∈ acts → policy ≠ .kNever ∧ Q data) (k : Nat) :
    (m.run parentPath ((actCalls files acts).take k)).Durable Q files.state := by
  induction acts generalizing m k with
  | nil =>
    rw [actCalls_nil, List.take_nil]
    exact h
  | cons a acts ih =>
    have hone := act_durable h hok fun sizes policy data heq => hacts sizes policy data (heq ▸ List.mem_cons_self)
    rw [actCalls_cons, List.take_append, Media.run_append]
    by_cases hk : k ≤ (a.calls files).length
    · rw [Nat.sub_eq_zero_of_le hk, List.take_zero]
      exact hone k
    · exact ih (hone k) (hok.run _) (fun sizes policy data hmem => hacts sizes policy data (List.mem_cons_of_mem _ hmem)) _

/-- Once a snapshot was written, it is the one that is found. -/
theorem snap_durable (hok : m.Ok) (acts : List Act) (sizes : List Nat) {policy : FsyncPolicy} (hpolicy : policy ≠ .kNever)
    (data : Bytes) : (m.run parentPath (actCalls files (acts ++ [.snap sizes policy data]))).Durable (· = data) files.state := by
  have hcalls : actCalls files (acts ++ [.snap sizes policy data]) =
      actCalls files acts ++ tmpCalls sizes files.state data policy ++
        [.rename (tmpPath files.state) files.state, .fsyncDir (parentPath files.state)] := by
    rw [actCalls_append, actCalls_cons, actCalls_nil, List.append_nil, Act.calls, durableCalls_eq sizes files.state data hpolicy,
      List.append_assoc]
  rw [hcalls, Media.run_append, Media.run_append]
  exact Media.durable_replaced ((hok.run _).run _) (tmpPath_ne files.state) (synced_tmpCalls (hok.run _) sizes files.state data hpolicy)

end acts

/-! ## The engine -/

/-- Recovering whole records changes nothing. -/
theorem reopen_whole (io : Io) (path : Path) (policy : FsyncPolicy) (fs : Fs) {frames : List Frame} (hc : fs.content path = layout frames)
    (hfit : ∀ f ∈ frames, f.2.Fits) :
    ∃ calls, (SegmentLog.reopen io path policy fs).2.2 = fs.after calls ∧ ∀ c ∈ calls, c = .creat path := by
  rcases SegmentLog.reopen_cases io path policy with ⟨e, he⟩ | hopened
  · exact ⟨[], by rw [he, Fs.after_nil], by simp⟩
  · have hfile : (fs.call (.creat path)).content path = layout frames := by
      rw [← hc, Fs.content, Fs.disk_call, exec, Function.update_self]
      rfl
    refine ⟨[.creat path], ?_, by simp⟩
    simp only [hopened, SegmentLog.recover, hfile, scan_layout frames hfit]
    rfl

/-- The group `g` of queue `q`, when nothing fails and the options stay. -/
def lossSetting (opts : EngineOptions) (q : Path) (g : CString) : Setting := quietSetting opts q g fun _ => True

section engine

variable {opts : EngineOptions} {q : Path} {g : CString} {e : QueueEngine} {rs : List Frame} {fresh : Bool} {hs : List Happening}
  {n : Node} {id : MessageId}

theorem allows_of_keeps {s : Step} (hk : s.Keeps opts q g) (hq : s.Quiet) : (lossSetting opts q g).Allows e fresh s := by
  have hf : (lossSetting opts q g).Follows e fresh [s] := by
    refine follows_of_keeps (σ := lossSetting opts q g) (fun s' hs' => ?_) rfl rfl rfl rfl (fun _ _ => trivial) (fun s' hs' hnq => ?_)
      fun h => h.elim
    · rwa [List.mem_singleton.1 hs']
    · rw [List.mem_singleton.1 hs'] at hnq
      exact hnq hq
  exact hf.1

/-- A step adds calls of its operation, or the first of them. -/
theorem step_calls (hp : Placed e) (s : Step) :
    ∃ calls k, (runOp s.env e s.operation).2.fs = e.fs.after calls ∧ (step e s).fs = e.fs.after (calls.take k) := by
  obtain ⟨calls, hc⟩ := runOp_after s.env hp s.operation
  cases s with
  | op env o => exact ⟨calls, calls.length, hc, by rw [List.take_length]; exact hc⟩
  | kill env o k options => exact ⟨calls, k, hc, by rw [step_kill env o k options hc]⟩

/-- The records of the queue, all of them synced. -/
def Kept (opts : EngineOptions) (q : Path) (rs : List Frame) (e : QueueEngine) : Prop :=
  (e.fs.media parentPath).Durable (· = layout (stamped rs)) (segmentPath opts.data_dir q)

/-- Whatever snapshot of the group is found after a loss says that the message is acked. -/
def Held (opts : EngineOptions) (q : Path) (g : CString) (id : MessageId) (e : QueueEngine) : Prop :=
  (e.fs.media parentPath).Durable (ListsAcked id) (groupStatePath opts.data_dir q g)

theorem Kept.content (h : Kept opts q rs e) : e.fs.content (segmentPath opts.data_dir q) = layout (stamped rs) := by
  obtain ⟨content, hd, rfl⟩ := Media.Durable.disk h (Fs.media_ok _ _)
  rw [Fs.disk_media] at hd
  rw [Fs.content, hd]
  rfl

theorem Kept.step (h : Kept opts q rs e) (hc : Course (lossSetting opts q g) e rs fresh hs n) {s : Step} (hk : s.Keeps opts q g) :
    Kept opts q rs (step e s) := by
  obtain ⟨calls, k, hcalls, hstep⟩ := step_calls hc.tracks.placed s
  have hspares : ∀ c ∈ calls, c.Spares (segmentPath opts.data_dir q) ∨ c = .creat (segmentPath opts.data_dir q) := by
    by_cases hfills : s.operation.Fills q
    · rcases fills_cases hfills with ho | ⟨m, ho⟩
      · rw [ho] at hcalls
        have hdir : e.options.data_dir = opts.data_dir := hc.tracks.data_dir
        obtain ⟨calls', hre, hcreat⟩ := reopen_whole s.env.toIo (segmentPath opts.data_dir q) e.options.fsync_policy e.fs h.content
          (stamped_fits hc.stored.fits)
        have hfs : (createQueueOnShard s.env q e).2.fs = e.fs ∨ (createQueueOnShard s.env q e).2.fs = e.fs.after calls' := by
          rw [← hre, ← hdir]
          rcases createQueueOnShard_cases s.env q e with heq | ⟨-, -, heq⟩
          · exact .inl (by rw [heq])
          · exact .inr (by rw [heq])
        have hcalls : (createQueueOnShard s.env q e).2.fs = e.fs.after calls := hcalls
        rw [hcalls] at hfs
        rcases hfs with hfs | hfs
        · rw [Fs.after_injective e.fs (hfs.trans (Fs.after_nil e.fs).symm)]
          simp
        · rw [Fs.after_injective e.fs hfs]
          exact fun c hmem => .inr (hcreat c hmem)
      · exact absurd ho (hk.produce m)
    · obtain ⟨-, calls', hc', hsp⟩ := runOp_spares s.env hc.tracks.data_dir hc.tracks.placed hk.clear hfills
      rw [Fs.after_injective e.fs (hcalls.symm.trans hc')]
      exact fun c hmem => .inl (hsp c hmem)
  unfold Kept
  rw [hstep, Fs.media_after]
  exact Media.Durable.run h (Fs.media_ok _ _) fun c hmem => hspares c (List.mem_of_mem_take hmem)

theorem Held.step (h : Held opts q g id e) (hpolicy : opts.fsync_policy ≠ .kNever) (hc : Course (lossSetting opts q g) e rs fresh hs n)
    (hsealed : Sealed id n) {s : Step} (hk : s.Keeps opts q g) (hq : s.Quiet) : Held opts q g id (step e s) := by
  obtain ⟨calls, k, hcalls, hstep⟩ := step_calls hc.tracks.placed s
  unfold Held
  rw [hstep, Fs.media_after]
  have hm := hc.meets (allows_of_keeps hk hq)
  by_cases hown : ∃ op, s.operation = .group q g op
  · obtain ⟨op, hop⟩ := hown
    rw [hop, runOp_group] at hcalls
    rw [hop] at hm
    rcases hc.tracks.own rfl op hm with ⟨err, heq, -⟩ | ⟨queue, group, group', hs', labels, calls', hqueue, hsteps, -, hread, hmoves,
      htells, -, -, heq⟩
    · have hsame : e.fs = e.fs.after calls := by
        rw [← hcalls]
        exact (congrArg (fun r => r.2.fs) heq).symm
      rw [Fs.after_injective e.fs (hsame.symm.trans (Fs.after_nil e.fs).symm), List.take_nil]
      exact h
    · have hfs : e.fs.after calls = e.fs.after calls' := by
        rw [← hcalls]
        exact congrArg (·.fs) heq
      rw [Fs.after_injective e.fs hfs, htells.exact hq]
      -- The group was loaded if need be, and its snapshots are those of an acked message.
      have hentries := hsteps.keeps (fun hn he => he.next hc.sound hn) hc.entries
      have hsealed' := hsealed.steps hc.sound trivial hc.entries hsteps
      have hsaves := hsealed'.saves hc.sound trivial trivial hc.opts hread hmoves hentries rfl
      have hopts : e.options = opts := hc.opts
      have hstate : (e.fs.media parentPath).Durable (ListsAcked id) (groupFiles opts.data_dir q g).state := h
      refine acts_durable hstate (Fs.media_ok _ _) (fun sizes policy data hmem => ?_) k
      obtain ⟨label, hlabel, hact⟩ := List.mem_flatMap.1 hmem
      have heq' : label = .saved sizes policy data := by
        cases label with
        | still => cases hact
        | attempt event fate after => cases fate <;> simp [Label.acts] at hact
        | saved sizes' policy' data' =>
          cases List.mem_singleton.1 hact
          rfl
      obtain ⟨rfl, hlists⟩ := hsaves sizes policy data (heq' ▸ hlabel)
      rw [hopts]
      exact ⟨hpolicy, hlists⟩
  · obtain ⟨-, calls', hc', hsp⟩ := runOp_foreign s.env hc.tracks hk.apart fun op ho => hown ⟨op, ho⟩
    rw [Fs.after_injective e.fs (hcalls.symm.trans hc')]
    exact Media.Durable.run h (Fs.media_ok _ _) fun c hmem => .inl (hsp c (List.mem_of_mem_take hmem)).2

/-! ## The ack -/

/-- What an ack that returns Ok does. -/
theorem ackGroup_ok {env : Env} (hq : env.toIo.Quiet) (segment : SegmentLog) {group : ConsumerGroupState} (fs : Fs) {r : Reply}
    (hok : (groupOp env opts q g (.ack id) segment group fs).1 = .ok r) :
    ∃ (rt : MessageRuntime) (event : TransitionEvent), group.runtime.lookup id = some rt ∧ event.id = id ∧ event.state = .kAcked ∧
      (groupOp env opts q g (.ack id) segment group fs).2 = (applyTransition env opts (bump group) event,
        fs.after (actCalls (groupFiles opts.data_dir q g)
          [.log event, .snap env.spills opts.fsync_policy (snapshotBytes env (applyTransition env opts (bump group) event))])) := by
  have hfp : env.failpoint = none := hq.failpoint
  cases hin : group.inflight.lookup id with
  | none => simp [groupOp, ackGroup, hin, Except.map] at hok
  | some entry =>
    cases hrt : group.runtime.lookup id with
    | none => simp [groupOp, ackGroup, hin, hrt, Except.map] at hok
    | some rt =>
      obtain ⟨group', rfl, hcommit⟩ := commit_quiet hq opts q g (bump group) (ackEvent (env.now .ack) group.next_sequence id rt) false fs
      refine ⟨rt, ackEvent (env.now .ack) group.next_sequence id rt, rfl, rfl, rfl, ?_⟩
      simp only [groupOp, ackGroup, hin, hrt, hfp, hcommit]
      rfl

/-- After an ack that returns Ok, what is in memory, in the log and in every
snapshot that a loss can leave says so. -/
theorem sealed_ack (hc : Course (lossSetting opts q g) e rs fresh hs n) (hpolicy : opts.fsync_policy ≠ .kNever) {env : Env}
    (hk : (Step.op env (.group q g (.ack id))).Keeps opts q g) (hq : env.toIo.Quiet)
    (hok : ∃ r, (runOp env e (.group q g (.ack id))).1 = .ok r) :
    ∃ hs' n', Course (lossSetting opts q g) (step e (.op env (.group q g (.ack id)))) rs fresh hs' n' ∧ Sealed id n' ∧
      Held opts q g id (step e (.op env (.group q g (.ack id)))) := by
  obtain ⟨hs', n', hc', -, -, -, -⟩ := hc.op (allows_of_keeps hk hq)
  rw [show addedBy (lossSetting opts q g).queue env e (.group q g (.ack id)) = [] from rfl, List.append_nil] at hc'
  obtain ⟨r, hr⟩ := hok
  have hopts : e.options = opts := hc.opts
  rw [runOp_group] at hr
  rcases onGroup_cases env q g (.ack id) e with ⟨err, herr, -⟩ | ⟨queue, group, hqueue, hgroup, heq⟩
  · rw [herr] at hr
    cases hr
  rw [heq, hopts] at hr
  obtain ⟨rt, event, hrt, hid, hacked, hdoes⟩ := ackGroup_ok hq queue.segment e.fs hr
  have hengine : step e (.op env (.group q g (.ack id))) = (runOp env e (.group q g (.ack id))).2 := rfl
  obtain ⟨hat, hfs⟩ := runOp_found (.ack id) hqueue hgroup
  rw [hopts, hdoes, ← hengine] at hat hfs
  have hgroup' : n'.group = some (applyTransition env opts (bump group) event) := hc'.tracks.memory.trans hat
  -- The event is behind what the log was.
  have hview := (shows_acts (groupFiles opts.data_dir q g) [.log event, .snap env.spills opts.fsync_policy
    (snapshotBytes env (applyTransition env opts (bump group) event))]).all e.fs.disk
  have hlog : n'.log = n.log ++ [event] := by
    have hfiles := hc'.tracks.files
    have hfiles0 : view (groupFiles opts.data_dir q g) e.fs.disk = _ := hc.tracks.files
    rw [hfs, Fs.disk_after] at hfiles
    rw [hfiles0] at hview
    have hbytes := congrArg Prod.fst (hfiles.symm.trans hview)
    refine encodeEvents_injective (hbytes.trans ?_)
    rw [encodeEvents_append, encodeEvents_singleton]
    rfl
  have hrt' : (applyTransition env opts (bump group) event).runtime.lookup id = some (rt.after event) := by
    rw [lookup_applyTransition, if_pos hid.symm]
    exact congrArg (Option.map (·.after event)) hrt
  refine ⟨_, n', hc', ⟨⟨event, by rw [hlog, lastEvent_concat, if_pos hid], hacked⟩, fun group0 hgroup0 => ?_⟩, ?_⟩
  · obtain rfl := Option.some.inj (hgroup0.symm.trans hgroup')
    refine ⟨⟨_, hrt', hacked⟩, ?_⟩
    have hlook : (bump group).runtime.lookup event.id = some rt := by rw [hid]; exact hrt
    rw [← hid, inflight_applyTransition_self env opts (bump group) event hlook, if_neg (by rw [hacked]; simp)]
  · have hsmall := hc'.sound.keys_lt fun id rt hrt => (hc'.entries.memory _ hgroup' id rt hrt).filed
    unfold Held
    rw [hfs, Fs.media_after]
    have hdur : Media.Durable (· = snapshotBytes env (applyTransition env opts (bump group) event)) _
        (groupFiles opts.data_dir q g).state :=
      snap_durable (Fs.media_ok parentPath e.fs) [.log event] env.spills hpolicy _
    refine hdur.mono fun content hcontent => ?_
    rw [hcontent]
    exact listsAcked_snapshot env hsmall hrt' hacked

/-! ## Runs -/

/-- The records are synced, and so is that the message is acked. -/
structure Safe (opts : EngineOptions) (q : Path) (g : CString) (id : MessageId) (rs : List Frame) (e : QueueEngine) : Prop where
  kept : Kept opts q rs e
  held : Held opts q g id e
  course : ∃ fresh hs n, Course (lossSetting opts q g) e rs fresh hs n ∧ Sealed id n

/-- A step that keeps the group adds no record. -/
theorem course_keeps (hc : Course (lossSetting opts q g) e rs fresh hs n) {s : Step} (hk : s.Keeps opts q g) (hq : s.Quiet) :
    ∃ fresh' hs' hs'' n', Course (lossSetting opts q g) (step e s) rs fresh' hs'' n' ∧
      Steps ((lossSetting opts q g).rules rs) n hs' n' := by
  obtain ⟨rs', hs', n', hc', hsteps, hadds, -, -⟩ := hc.step (allows_of_keeps hk hq)
  rcases hadds with rfl | ⟨m, hm, -⟩
  · exact ⟨_, hs', _, n', hc', hsteps⟩
  · exact absurd hm (hk.produce m)

theorem Safe.step (h : Safe opts q g id rs e) (hpolicy : opts.fsync_policy ≠ .kNever) {s : Step} (hk : s.Keeps opts q g)
    (hq : s.Quiet) : Safe opts q g id rs (step e s) := by
  obtain ⟨fresh, hs, n, hc, hsealed⟩ := h.course
  obtain ⟨fresh', hs', hs'', n', hc', hsteps⟩ := course_keeps hc hk hq
  exact ⟨h.kept.step hc hk, h.held.step hpolicy hc hsealed hk hq,
    ⟨fresh', hs'', n', hc', hsealed.steps hc.sound trivial hc.entries hsteps⟩⟩

theorem safe_run {steps : List Step} (h : Safe opts q g id rs e) (hpolicy : opts.fsync_policy ≠ .kNever)
    (hk : ∀ s ∈ steps, s.Keeps opts q g) (hq : ∀ s ∈ steps, s.Quiet) : Safe opts q g id rs (run e steps) := by
  induction steps generalizing e with
  | nil => exact h
  | cons s steps ih =>
    exact ih (h.step hpolicy (hk s List.mem_cons_self) (hq s List.mem_cons_self))
      (fun s' hs' => hk s' (List.mem_cons_of_mem _ hs')) fun s' hs' => hq s' (List.mem_cons_of_mem _ hs')

theorem kept_run {steps : List Step} (h : Kept opts q rs e) (hc : Course (lossSetting opts q g) e rs fresh hs n)
    (hk : ∀ s ∈ steps, s.Keeps opts q g) (hq : ∀ s ∈ steps, s.Quiet) :
    Kept opts q rs (run e steps) ∧ ∃ fresh' hs' n', Course (lossSetting opts q g) (run e steps) rs fresh' hs' n' := by
  induction steps generalizing e fresh hs n with
  | nil => exact ⟨h, fresh, hs, n, hc⟩
  | cons s steps ih =>
    have hks := hk s List.mem_cons_self
    obtain ⟨fresh', -, hs', n', hc', -⟩ := course_keeps hc hks (hq s List.mem_cons_self)
    exact ih (h.step hc hks) hc' (fun s' hs' => hk s' (List.mem_cons_of_mem _ hs')) fun s' hs' => hq s' (List.mem_cons_of_mem _ hs')

/-! ## The next load -/

/-- The state of a message after a new process has loaded the group. -/
def stateAfterLoad (env : Env) (opts : EngineOptions) (q : Path) (g : CString) (id : MessageId) (d : Disk) : Option MessageState :=
  (foundGroup env (runOp env (engineOn opts d) (.createQueue q)).2 q g).bind fun group => (group.runtime.lookup id).map (·.state)

/-- Creating the queue on a disk that has its records. -/
theorem create_stored {env : Env} (hq : env.toIo.Quiet) {d : Disk} (hseg : d (segmentPath opts.data_dir q) = some (layout (stamped rs)))
    (hlen : rs.length < 2 ^ 57) (hfit : ∀ f ∈ rs, f.2.Fits) :
    ∃ queue fs, (runOp env (engineOn opts d) (.createQueue q)).2 = { options := opts, queues := AList.insert q queue ∅, fs } ∧
      queue.groups = ∅ ∧ fs.disk = d ∧ Stored opts.data_dir q (runOp env (engineOn opts d) (.createQueue q)).2 rs false := by
  have hcontent : (engineOn opts d).fs.content (segmentPath opts.data_dir q) = layout (stamped rs) ++ [] := by
    change (d (segmentPath opts.data_dir q)).getD [] = _
    rw [hseg, List.append_nil]
    rfl
  have hstored : Stored opts.data_dir q (engineOn opts d) rs false := .closed (t := []) rfl hcontent (.inl rfl) hlen hfit
  obtain ⟨log, fs, hre, -, -, -, -, -, hdisk, -⟩ := reopen_stamped env.toIo (segmentPath opts.data_dir q) opts.fsync_policy
    (engineOn opts d).fs rs [] (hq.fault _) hcontent hfit (by omega) (.inl rfl)
  refine ⟨{ segment := log }, fs, ?_, rfl, ?_, hstored.create env rfl⟩
  · have hnone : (engineOn opts d).queues.lookup q = none := rfl
    have hre' : SegmentLog.reopen env.toIo (segmentPath (engineOn opts d).options.data_dir q) (engineOn opts d).options.fsync_policy
      (engineOn opts d).fs = (.ok (), log, fs) := hre
    simp only [runOp, createQueueOnShard, hnone, hre']
    rfl
  · rw [hdisk]
    change Function.update d _ _ = d
    rw [← hseg, Function.update_eq_self]

/-- What the state is, from what is found on the disk. -/
theorem stateAfterLoad_eq {env : Env} (hq : env.toIo.Quiet) {d : Disk} (hseg : d (segmentPath opts.data_dir q) = some (layout (stamped rs)))
    (hlen : rs.length < 2 ^ 57) (hfit : ∀ f ∈ rs, f.2.Fits) {o : UInt64} {r : Record} (hid : siteOf rs o r) (hr : idOf r = id)
    {file : StateFile} (hstate : d (groupStatePath opts.data_dir q g) = some file.bytes) {rt : MessageRuntime}
    (hrt : lastListed file.items id = some rt) {events : List TransitionEvent}
    (hev : (d (groupEventPath opts.data_dir q g)).getD [] = encodeEvents events) :
    stateAfterLoad env opts q g id d = some ((rt.restored (lastEvent events id)).recovered (env.now .loadGroupState)).state := by
  obtain ⟨queue, fs, heq, hgroups, rfl, hstored⟩ := create_stored hq hseg hlen hfit
  unfold stateAfterLoad
  rw [heq] at hstored ⊢
  have hqueue : (AList.insert q queue (∅ : Map Path QueueState)).lookup q = some queue := AList.lookup_insert _
  obtain ⟨messages, hm⟩ := readMessages_total fun o ho => hstored.reads hqueue ho
  have hview : view (groupFiles opts.data_dir q g) fs.disk = (encodeEvents events, some file.bytes) := Prod.ext hev hstate
  have hload : loadGroupState env opts q g queue.segment fs =
      .ok (rebuilt env opts events (listedGroup (some file) (defaultGroup env opts messages))) :=
    loadGroupState_eq hq.reads hm hstate (loadTransitions_view (fun _ => rfl) rfl hview)
  have hkey : id ∈ (defaultGroup env opts messages).runtime.keys := by
    rw [load_known hm, ← hr]
    exact hstored.inSegment hqueue hid
  obtain ⟨rt0, hrt0⟩ := (mem_keys_iff _ _).1 hkey
  have hfound : foundGroup env { options := opts, queues := AList.insert q queue ∅, fs } q g =
      some (rebuilt env opts events (listedGroup (some file) (defaultGroup env opts messages))) := by
    rw [foundGroup]
    dsimp only
    rw [hqueue, Option.bind_some, getGroup, hgroups]
    exact congrArg Except.toOption hload
  have hlisted : listed (some file) id = some rt := hrt
  have hrt0' : (defaultRuntimes (env.offset_order.order messages) ∅).lookup id = some rt0 := hrt0
  rw [hfound, Option.bind_some, lookup_load, hrt0', hlisted]
  rfl

/-- An acked message is acked after it was replayed exactly if the last event says so. -/
theorem acked_restored_iff {rt : MessageRuntime} (hacked : rt.state = .kAcked) (last : Option TransitionEvent) (now : UInt64) :
    ((rt.restored last).recovered now).state = .kAcked ↔ ∀ event, last = some event → event.state = .kAcked := by
  cases last with
  | none =>
    have hstate : (rt.restored none).state = .kAcked := hacked
    rw [MessageRuntime.recovered, if_neg (by rw [hstate]; simp)]
    exact iff_of_true hstate (by simp)
  | some event =>
    have hstate : (rt.restored (some event)).state = event.state := rfl
    unfold MessageRuntime.recovered
    by_cases hin : event.state = .kInFlight
    · rw [if_pos (hstate.trans hin)]
      simp [hin]
    · rw [if_neg (by rw [hstate]; exact hin)]
      simp [hstate]

/-- With `fsync_policy` `kAlways`, when an ack has returned Ok, then whatever is done
and whatever a power loss leaves of it, the next load finds the message acked
exactly if no event of the message is left in the log or the last one that is
left says so. -/
theorem ack_durable_iff (base : Disk) (opts : EngineOptions) (q : Path) (g : CString) (rs : List Frame) (id : MessageId)
    (before after : List Step) (env env' : Env) (d : Disk) (events : List TransitionEvent)
    (hbase : OnSegment base opts.data_dir q g rs) (hpolicy : opts.fsync_policy = .kAlways)
    (hkeeps : ∀ s ∈ before ++ Step.op env (.group q g (.ack id)) :: after, s.Keeps opts q g)
    (hquiet : ∀ s ∈ before ++ Step.op env (.group q g (.ack id)) :: after, s.Quiet)
    (hok : ∃ r, (runOp env (run (engineOn opts base) before) (.group q g (.ack id))).1 = .ok r)
    (hlost : ((run (engineOn opts base) (before ++ Step.op env (.group q g (.ack id)) :: after)).fs.media parentPath).Lost d)
    (hlog : (d (groupEventPath opts.data_dir q g)).getD [] = encodeEvents events) (hq : env'.toIo.Quiet) :
    stateAfterLoad env' opts q g id d = some .kAcked ↔ ∀ event, lastEvent events id = some event → event.state = .kAcked := by
  have hsync : opts.fsync_policy ≠ .kNever := by rw [hpolicy]; simp
  have hmem : Step.op env (.group q g (.ack id)) ∈ before ++ Step.op env (.group q g (.ack id)) :: after := by simp
  have hstart : Course (lossSetting opts q g) (engineOn opts base) rs false [] {} :=
    OnSegment.course (σ := lossSetting opts q g) hbase rfl rfl fun _ h => h.elim
  have hkept : Kept opts q rs (engineOn opts base) := Media.durable_ofDisk hbase.segment
  obtain ⟨hkept1, fresh1, hs1, n1, hc1⟩ := kept_run hkept hstart (fun s hs => hkeeps s (List.mem_append_left _ hs))
    fun s hs => hquiet s (List.mem_append_left _ hs)
  obtain ⟨hs2, n2, hc2, hsealed2, hheld2⟩ := sealed_ack hc1 hsync (hkeeps _ hmem) (hquiet _ hmem) hok
  have hsafe2 : Safe opts q g id rs (step (run (engineOn opts base) before) (.op env (.group q g (.ack id)))) :=
    ⟨hkept1.step hc1 (hkeeps _ hmem), hheld2, fresh1, hs2, n2, hc2, hsealed2⟩
  have hsafe : Safe opts q g id rs (run (step (run (engineOn opts base) before) (.op env (.group q g (.ack id)))) after) :=
    safe_run hsafe2 hsync (fun s hs => hkeeps s (List.mem_append_right _ (List.mem_cons_of_mem _ hs)))
      fun s hs => hquiet s (List.mem_append_right _ (List.mem_cons_of_mem _ hs))
  rw [run, List.foldl_append] at hlost
  obtain ⟨content, hseg, rfl⟩ := hsafe.kept.lost hlost
  obtain ⟨data, hstate, file, rfl, rt, hrt, hacked⟩ := hsafe.held.lost hlost
  -- The message has a record, because it has an event.
  obtain ⟨event, hlast, -⟩ := hsealed2.log
  obtain ⟨hin, hid⟩ := lastEvent_mem hlast
  obtain ⟨o, r, hsite, hr⟩ := hc2.entries.log event hin
  rw [stateAfterLoad_eq hq hseg hc2.stored.length_lt hbase.fits hsite (hr.trans hid) hstate hrt hlog, Option.some.injEq]
  exact acked_restored_iff hacked _ _

end engine

/-! A message is delivered and acked. -/

def delivered : List Step := [.op {} (.createQueue someQueue), .op {} (.group someQueue someGroup .consume)]

def ackSome : Step := .op {} (.group someQueue someGroup (.ack ⟨1, 2⟩))

def ackedEngine : QueueEngine := run (engineOn {} someDisk) (delivered ++ [ackSome])

/-- The disk after the ack, with the first `k` events in the log. -/
def ackedDisk (k : Nat) : Disk :=
  Function.update ackedEngine.fs.disk (groupEventPath [] someQueue someGroup)
    (some (encodeEvents ((loggedEvents ackedEngine someQueue someGroup).take k)))

/-- A power loss can leave the log empty, or only the delivery in it. -/
theorem lost_ackedDisk {k : Nat} (hk : k < 2) :
    (ackedEngine.fs.media parentPath).Lost (ackedDisk k) := by
  have hcur : (ackedEngine.fs.media parentPath).cur (groupEventPath [] someQueue someGroup) =
      some (.new 0) := by decide +kernel
  have hsynced : ((ackedEngine.fs.media parentPath).files (.new 0)).synced = [] := by
    decide +kernel
  have hsince : ((ackedEngine.fs.media parentPath).files (.new 0)).since.head? =
      some (.put 0 (encodeEvents ((loggedEvents ackedEngine someQueue someGroup).take 1))) := by
    decide +kernel
  have hleft : Left ((ackedEngine.fs.media parentPath).files (.new 0)).synced
      ((ackedEngine.fs.media parentPath).files (.new 0)).since
      (encodeEvents ((loggedEvents ackedEngine someQueue someGroup).take k)) := by
    rw [hsynced]
    obtain ⟨rest, hrest⟩ := List.head?_eq_some_iff.1 hsince
    rw [hrest]
    match k with
    | 0 => exact .nothing _ _
    | 1 =>
      have hfirst : ∀ data : Bytes, Change.apply [] (.put 0 data) = data := fun data => overwrite_end [] data
      refine .next _ _ _ _ ?_
      rw [hfirst]
      exact .nothing _ _
  have hlost := (Fs.media_ok parentPath ackedEngine.fs).lost hcur hleft
  rw [Fs.disk_media] at hlost
  exact hlost

/-- The whole log is lost, and the message is acked. -/
theorem ack_durable_log_lost : stateAfterLoad {} {} someQueue someGroup ⟨1, 2⟩ (ackedDisk 0) = some .kAcked := by
  refine (ack_durable_iff someDisk {} someQueue someGroup _ ⟨1, 2⟩ delivered [] {} {} (ackedDisk 0) [] onSegment_someDisk rfl ?_ ?_ ?_
    (lost_ackedDisk (by decide)) ?_ quiet_default).2 (by simp)
  · simp only [delivered, List.cons_append, List.nil_append, List.forall_mem_cons]
    refine ⟨?_, ?_, ?_, by simp⟩
    all_goals
      refine ⟨fun data n h => (by cases h), ?_, ?_, by simp [Step.operation], ?_⟩
      · simp [Step.operation, Op.Apart]
      · simp [Step.operation, Op.Clear]
      · rintro env o k options heq
        cases heq
  · intro s hs
    simp only [delivered, List.cons_append, List.nil_append, List.mem_cons, List.not_mem_nil, or_false] at hs
    rcases hs with rfl | rfl | rfl <;> exact quiet_default
  · have hok : (runOp {} (run (engineOn {} someDisk) delivered) (.group someQueue someGroup (.ack ⟨1, 2⟩))).1.isOk = true := by
      decide +kernel
    cases hr : (runOp {} (run (engineOn {} someDisk) delivered) (.group someQueue someGroup (.ack ⟨1, 2⟩))).1 with
    | error err => rw [hr] at hok; cases hok
    | ok r => exact ⟨r, rfl⟩
  · rw [ackedDisk, Function.update_self]
    rfl

/-- The event of the ack is lost and the one of the delivery is not: the message is ready. -/
theorem acked_lost_ready :
    (runOp {} (run (engineOn {} someDisk) delivered) (.group someQueue someGroup (.ack ⟨1, 2⟩))).1.isOk = true ∧
      (ackedEngine.fs.media parentPath).Lost (ackedDisk 1) ∧
      stateAfterLoad {} {} someQueue someGroup ⟨1, 2⟩ (ackedDisk 1) = some .kReady :=
  ⟨by decide +kernel, lost_ackedDisk (by decide), by decide +kernel⟩

end PomaiQueue.Engine
