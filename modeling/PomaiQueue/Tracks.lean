import PomaiQueue.Lib.Paths
import PomaiQueue.Node
/-!
# The engine and one of its groups

`Tracks`: a node is the group `g` of queue `q` in an engine. Whatever the engine
does, the node takes steps (`Tracks.op`, `Tracks.kill`). Other queues and groups
may be used in between, as long as their files and the directories in front of these
are elsewhere (`Op.Apart`).
-/

namespace PomaiQueue.Engine

open Wire Posix Assoc Storage

/-- The group in memory. -/
def groupAt (e : QueueEngine) (q : Path) (g : CString) : Option ConsumerGroupState :=
  (e.queues.lookup q).bind (·.groups.lookup g)

structure Tracks (dir q : Path) (g : CString) (e : QueueEngine) (n : Node) : Prop where
  data_dir : e.options.data_dir = dir
  placed : Placed e
  files : view (groupFiles dir q g) e.fs.disk = (encodeEvents n.log, n.snaps.getLast?)
  memory : n.group = groupAt e q g

/-- Neither a file at `p` nor the directories in front of it are where the group's event log and snapshot are. -/
def FarFrom (dir q : Path) (g : CString) (p : Path) : Prop := Away p (groupEventPath dir q g) ∧ Away p (groupStatePath dir q g)

/-- The operation is on the group or its queue, or its files are elsewhere. -/
def Op.Apart (dir q : Path) (g : CString) : Op → Prop
  | .group q' g' _ => (q' = q ∧ g' = g) ∨ ∀ p, ¬ Aside (groupFiles dir q' g') p → FarFrom dir q g p
  | .createQueue q' | .produce q' _ => q' = q ∨ FarFrom dir q g (segmentPath dir q')

theorem aside_of_far {dir q q' : Path} {g g' : CString} (h : ∀ p, ¬ Aside (groupFiles dir q' g') p → FarFrom dir q g p) :
    Aside (groupFiles dir q' g') (groupEventPath dir q g) ∧ Aside (groupFiles dir q' g') (groupStatePath dir q g) := by
  constructor
  · by_contra hn
    exact (h _ hn).1.ne rfl
  · by_contra hn
    exact (h _ hn).2.ne rfl

/-- The transitions an operation attempts on the group. -/
def opTrace (q : Path) (g : CString) (env : Env) (e : QueueEngine) : Op → Trace
  | .group q' g' op =>
    if q' = q ∧ g' = g then
      match e.queues.lookup q with
      | none => []
      | some queue =>
        match getGroup env e.options q queue g e.fs with
        | .error _ => []
        | .ok group => groupOpTrace env e.options q g op queue.segment group e.fs
    else []
  | _ => []

def Happening.trace : Happening → Trace
  | .moved l => l.trace
  | _ => []

def traceAll (hs : List Happening) : Trace := hs.flatMap Happening.trace

@[simp] theorem traceAll_append (a b : List Happening) : traceAll (a ++ b) = traceAll a ++ traceAll b := by
  simp [traceAll]

theorem traceAll_moved (ls : List Label) : traceAll (ls.map .moved) = traceOf ls := by
  simp [traceAll, traceOf, List.flatMap_map, Happening.trace]

section track

variable {dir q : Path} {g : CString} {e : QueueEngine} {n : Node}

/-! ## Other operations -/

theorem groupAt_insert {e : QueueEngine} {q q' : Path} {queue : QueueState} {fs : Fs} (g : CString)
    (h : q' = q → queue.groups.lookup g = groupAt e q g) :
    groupAt { e with queues := e.queues.insert q' queue, fs := fs } q g = groupAt e q g := by
  by_cases hq : q' = q
  · subst hq
    rw [groupAt, AList.lookup_insert]
    exact h rfl
  · rw [groupAt, AList.lookup_insert_ne (Ne.symm hq), groupAt]

/-- The group after an operation is the group before it, or what the operation
makes of the group that it finds. -/
theorem groupAt_runOp (env : Env) (e : QueueEngine) (o : Op) (q : Path) (g : CString) :
    groupAt (runOp env e o).2 q g = groupAt e q g ∨
      ∃ op queue group, o = .group q g op ∧ e.queues.lookup q = some queue ∧
        getGroup env e.options q queue g e.fs = .ok group ∧
        groupAt (runOp env e o).2 q g = some (groupOp env e.options q g op queue.segment group e.fs).2.1 := by
  have heffect := runOp_effect env e o
  generalize (runOp env e o).2 = e' at heffect
  cases heffect with
  | none => exact .inl rfl
  | created q' hnone hpath hcalls =>
    refine .inl (groupAt_insert g fun hq => ?_)
    subst hq
    rw [groupAt, hnone]
    rfl
  | produced q' m hqueue hpath hcalls =>
    refine .inl (groupAt_insert g fun hq => ?_)
    subst hq
    rw [groupAt, hqueue]
    rfl
  | group q' g' op hqueue hgroup =>
    by_cases hown : q' = q ∧ g' = g
    · obtain ⟨rfl, rfl⟩ := hown
      refine .inr ⟨op, _, _, rfl, hqueue, hgroup, ?_⟩
      rw [groupAt, AList.lookup_insert, Option.bind_some, AList.lookup_insert]
    · refine .inl (groupAt_insert g fun hq => ?_)
      subst hq
      have hgg : g ≠ g' := fun hg => hown ⟨rfl, hg.symm⟩
      rw [groupAt, hqueue, Option.bind_some]
      exact AList.lookup_insert_ne hgg

/-- An operation that is not on the group leaves it and its files alone. -/
theorem runOp_foreign (env : Env) {o : Op} (ht : Tracks dir q g e n) (hapart : o.Apart dir q g)
    (hnot : ∀ op, o ≠ .group q g op) :
    groupAt (runOp env e o).2 q g = groupAt e q g ∧
      ∃ calls, (runOp env e o).2.fs = e.fs.after calls ∧
        ∀ c ∈ calls, c.Spares (groupFiles dir q g).events ∧ c.Spares (groupFiles dir q g).state := by
  obtain ⟨rfl, hp, -, -⟩ := ht
  have hat : groupAt (runOp env e o).2 q g = groupAt e q g := by
    rcases groupAt_runOp env e o q g with h | ⟨op, -, -, ho, -⟩
    · exact h
    · exact absurd ho (hnot op)
  refine ⟨hat, ?_⟩
  -- A segment is none of the group's files.
  have hsegment : ∀ (q' : Path) (calls : List Call), (∀ p, p ≠ segmentPath e.options.data_dir q' → ∀ c ∈ calls, c.Spares p) →
      ∀ c ∈ calls, c.Spares (groupFiles e.options.data_dir q g).events ∧ c.Spares (groupFiles e.options.data_dir q g).state := by
    intro q' calls hsp c hmem
    have haside := aside_segment e.options.data_dir q q' g
    exact ⟨hsp _ haside.events.symm c hmem, hsp _ haside.state.symm c hmem⟩
  have heffect := runOp_effect env e o
  generalize (runOp env e o).2 = e' at heffect
  cases heffect with
  | none => exact ⟨[], (Fs.after_nil _).symm, by simp⟩
  | created q' hnone hpath hcalls =>
    obtain ⟨calls, rfl, hsp⟩ := hcalls
    exact ⟨calls, rfl, hsegment q' calls hsp⟩
  | produced q' m hqueue hpath hcalls =>
    obtain ⟨calls, rfl, hsp⟩ := hcalls
    rw [hp q' _ hqueue] at hsp
    exact ⟨calls, rfl, hsegment q' calls hsp⟩
  | group q' g' op hqueue hgroup =>
    have hne : ¬ (q' = q ∧ g' = g) := by
      rintro ⟨rfl, rfl⟩
      exact hnot op rfl
    obtain ⟨hev, hst⟩ := aside_of_far (hapart.resolve_left hne)
    obtain ⟨labels, hd, -, -⟩ := hp.does op hqueue
    obtain ⟨calls, hc, htells⟩ := hd.calls
    exact ⟨calls, hc, fun c hmem => ⟨htells.spares _ hev c hmem, htells.spares _ hst c hmem⟩⟩

/-! ## Loading -/

theorem loadTransitions_view {io : Io} (hr : io.Reads) {opts : EngineOptions} (hdir : opts.data_dir = dir) {fs : Fs}
    {log : List TransitionEvent} {snap : Option Bytes}
    (hv : view (groupFiles dir q g) fs.disk = (encodeEvents log, snap)) :
    loadTransitions io opts q g allSequences fs = .ok log := by
  have hfile : (fs.disk (groupEventPath dir q g)).getD [] = encodeEvents log := (Prod.mk.inj hv).1
  rw [loadTransitions_reads hr, hdir]
  cases hd : fs.disk (groupEventPath dir q g) with
  | none =>
    rw [hd] at hfile
    have hnil : encodeEvents [] = encodeEvents log := hfile
    rw [← encodeEvents_injective hnil]
  | some file =>
    rw [hd] at hfile
    have hf : file = encodeEvents log := hfile
    rw [hf]
    exact readEvents_encodeEvents log

/-- What the group must find when operation `o` loads or uses it. -/
structure Meets (rules : Rules) (env : Env) (e : QueueEngine) (q : Path) (o : Op) (n : Node) : Prop where
  env_ok : rules.env env
  opts_ok : rules.opts e.options
  faulty : ¬ env.toIo.Quiet → rules.faulty
  read : ∀ queue, e.queues.lookup q = some queue → ∀ o r, queue.segment.read e.fs o = .ok r → rules.site o r
  covers : rules.covers → ∀ queue, e.queues.lookup q = some queue → ∀ event ∈ n.log,
    InSegment queue.segment e.fs event.id
  settled : rules.settled → ∀ op, o = .group q rules.group_id op → ∀ queue, e.queues.lookup q = some queue →
    n.group = none → ∀ id event, lastEvent n.log id = some event → event.state ≠ .kInFlight
  present : ∀ queue, e.queues.lookup q = some queue → ∀ id, rules.present id → InSegment queue.segment e.fs id

theorem Tracks.load {rules : Rules} {env : Env} {queue : QueueState} {group : ConsumerGroupState} {op : GroupOp}
    (ht : Tracks dir q g e n) (hm : Meets rules env e q (.group q rules.group_id op) n) (hqueue : e.queues.lookup q = some queue)
    (hgroup : getGroup env e.options q queue g e.fs = .ok group) :
    ∃ hs, Steps rules n hs { n with group := some group } ∧ traceAll hs = [] ∧
      (hs = [] ∨ hs = [.loaded]) := by
  have hat : n.group = queue.groups.lookup g := by rw [ht.memory, groupAt, hqueue, Option.bind_some]
  unfold getGroup at hgroup
  split at hgroup
  · rename_i group0 h0
    obtain rfl := Except.ok.inj hgroup
    refine ⟨[], ?_, rfl, .inl rfl⟩
    rw [← h0, ← hat]
    exact .nil
  · rename_i h0
    obtain ⟨messages, base, events, hmsgs, hbase, hevents, rfl⟩ := loadGroupState_ok hgroup
    rw [loadTransitions_view (fun _ => rfl) ht.data_dir ht.files] at hevents
    obtain rfl := Except.ok.inj hevents
    have hsite : Sited rules.site messages := by
      intro om hom
      obtain ⟨-, record, hread, hid, hts⟩ := readMessages_ok hmsgs om hom
      exact ⟨record, hm.read queue hqueue _ _ hread, hid, hts⟩
    refine ⟨[.loaded], .one (.loaded (hat.trans h0) hm.env_ok hm.opts_ok hsite ?_
      (fun hs => hm.settled hs op rfl queue hqueue (hat.trans h0)) ?_ ?_), rfl, .inr rfl⟩
    · intro hc event hev
      obtain ⟨off, hoff, record, hread, hid⟩ := hm.covers hc queue hqueue event hev
      exact ⟨_, readMessages_mem hmsgs hoff hread, hid⟩
    · intro id hid
      obtain ⟨off, hoff, record, hread, hid⟩ := hm.present queue hqueue id hid
      exact ⟨_, readMessages_mem hmsgs hoff hread, hid⟩
    · have hstate : e.fs.disk (groupStatePath dir q g) = n.snaps.getLast? := (Prod.mk.inj ht.files).2
      rw [loadStateFile_reads fun _ => rfl, ht.data_dir, hstate] at hbase
      unfold Restores
      cases hl : n.snaps.getLast? with
      | none =>
        rw [hl] at hbase
        exact (Except.ok.inj hbase).symm
      | some file =>
        rw [hl] at hbase
        exact hbase

/-! ## Operations on the group -/

/-- What an operation on the group does to the node. -/
theorem Tracks.own {rules : Rules} (hg : rules.group_id = g) {env : Env} (ht : Tracks dir q g e n) (op : GroupOp)
    (hm : Meets rules env e q (.group q g op) n) :
    (∃ err, onGroup env q g op e = (.error err, e) ∧ opTrace q g env e (.group q g op) = []) ∨
      ∃ queue group group' hs labels calls, e.queues.lookup q = some queue ∧
        Steps rules n hs { n with group := some group } ∧ traceAll hs = [] ∧
        (∀ o r, queue.segment.read e.fs o = .ok r → rules.site o r) ∧
        Moves rules.faulty env e.options rules.group_id (queue.segment.read e.fs) op group labels group' ∧
        Tells env (groupFiles dir q g) (actsOf labels) calls ∧
        traceOf labels = opTrace q g env e (.group q g op) ∧ Answers op (onGroup env q g op e).1 labels ∧
        (onGroup env q g op e).2 =
          { e with
            queues := e.queues.insert q { queue with groups := queue.groups.insert g group' }
            fs := e.fs.after calls } := by
  rcases onGroup_does env q g op ht.placed with ⟨err, h, href⟩ | ⟨queue, group, group', fs', labels, hqueue, hgroup, hd, htr,
    hans, h⟩
  · refine .inl ⟨err, h, ?_⟩
    rw [opTrace, if_pos ⟨rfl, rfl⟩]
    cases hqueue : e.queues.lookup q with
    | none => rfl
    | some queue =>
      obtain ⟨err', herr⟩ := href queue hqueue
      dsimp only
      rw [herr]
  · obtain ⟨calls, hc, htells⟩ := hd.calls
    rw [ht.data_dir] at htells
    have hm' : Meets rules env e q (.group q rules.group_id op) n := by rwa [hg]
    obtain ⟨hs, hsteps, hst, -⟩ := ht.load hm' hqueue hgroup
    have hmoves : Moves rules.faulty env e.options rules.group_id (queue.segment.read e.fs) op group labels group' := by
      rw [hg]
      exact hd.moves.mono hm.faulty
    refine .inr ⟨queue, group, group', hs, labels, calls, hqueue, hsteps, hst, hm.read queue hqueue, hmoves,
      htells, ?_, hans, by rw [h, hc]⟩
    rw [htr, opTrace, if_pos ⟨rfl, rfl⟩, hqueue]
    dsimp only
    rw [hgroup]

/-- The node is still the group's after other operations. -/
theorem Tracks.foreign {env : Env} {o : Op} (ht : Tracks dir q g e n) (hapart : o.Apart dir q g)
    (hnot : ∀ op, o ≠ .group q g op) : Tracks dir q g (runOp env e o).2 n := by
  obtain ⟨hat, calls, hc, hsp⟩ := runOp_foreign env ht hapart hnot
  refine ⟨(congrArg _ (runOp_options env e o)).trans ht.data_dir, ht.placed.runOp o, ?_, ht.memory.trans hat.symm⟩
  rw [hc, Fs.disk_after, view_spares (fun c hmem => (hsp c hmem).1) (fun c hmem => (hsp c hmem).2), ht.files]

/-- What an operation answers, if it is on the group, has happened to the node. -/
def Replies (q : Path) (g : CString) (o : Op) (reply : StatusOr Reply) (hs : List Happening) : Prop :=
  ∀ op, o = .group q g op → (∃ err, reply = .error err) ∨ ∃ hs0 labels, hs = hs0 ++ labels.map .moved ∧ Answers op reply labels

/-- An operation is steps of the node. -/
theorem Tracks.op {rules : Rules} (hg : rules.group_id = g) {env : Env} {o : Op} (ht : Tracks dir q g e n)
    (hm : Meets rules env e q o n) (hw : env.Whole (groupEventPath dir q g)) (hapart : o.Apart dir q g) :
    ∃ hs n', Steps rules n hs n' ∧ Tracks dir q g (runOp env e o).2 n' ∧ n'.marks = n.marks ∧
      traceAll hs = opTrace q g env e o ∧ Replies q g o (runOp env e o).1 hs := by
  by_cases hown : ∃ op, o = .group q g op
  · obtain ⟨op, rfl⟩ := hown
    have hplaced : Placed (runOp env e (.group q g op)).2 := ht.placed.runOp _
    rw [runOp_group] at hplaced ⊢
    rcases ht.own hg op hm with ⟨err, h, htr⟩ | ⟨queue, group, group', hs, labels, calls, hqueue, hsteps, hst, hread,
      hmoves, htells, htr, hans, h⟩
    · rw [h]
      exact ⟨[], n, .nil, ht, rfl, htr.symm, fun _ _ => .inl ⟨err, rfl⟩⟩
    · rw [h] at hplaced ⊢
      refine ⟨hs ++ labels.map .moved, ({ n with group := some group } : Node).movedAll labels group',
        hsteps.trans (.moves hm.env_ok hm.opts_ok hread hmoves rfl), ⟨ht.data_dir, hplaced, ?_, ?_⟩, rfl, ?_, ?_⟩
      · rw [Fs.disk_after, (htells.shows hw).all, ht.files, view_labels]
        rfl
      · rw [groupAt, AList.lookup_insert, Option.bind_some, AList.lookup_insert]
        rfl
      · rw [traceAll_append, hst, traceAll_moved, htr, List.nil_append]
      · intro op' hop'
        obtain rfl : op = op' := by injection hop'
        exact .inr ⟨hs, labels, rfl, hans⟩
  · have hnot : ∀ op, o ≠ .group q g op := fun op h => hown ⟨op, h⟩
    refine ⟨[], n, .nil, ht.foreign hapart hnot, rfl, ?_, fun op h => absurd h (hnot op)⟩
    cases o with
    | group q' g' op =>
      rw [opTrace, if_neg]
      · rfl
      · rintro ⟨rfl, rfl⟩
        exact hnot op rfl
    | _ => rfl

/-- An operation during which the process is killed is steps of the node, the
last of them the crash. -/
theorem Tracks.kill {rules : Rules} (hg : rules.group_id = g) {env : Env} {o : Op} {k : Nat} {options : EngineOptions}
    (ht : Tracks dir q g e n) (hm : Meets rules env e q o n) (hw : env.Whole (groupEventPath dir q g))
    (hapart : o.Apart dir q g) (hdir : options.data_dir = dir) :
    ∃ hs n', Steps rules n (hs ++ [.crashed]) n' ∧ Tracks dir q g (step e (.kill env o k options)) n' ∧
      n'.marks = n.marks ++ [n'.log.length] ∧ traceAll hs <+: opTrace q g env e o := by
  have hplaced : Placed (step e (.kill env o k options)) := ht.placed.step _
  by_cases hown : ∃ op, o = .group q g op
  · obtain ⟨op, rfl⟩ := hown
    rcases ht.own hg op hm with ⟨err, h, htr⟩ | ⟨queue, group, group', hs, labels, calls, hqueue, hsteps, hst, hread,
      hmoves, htells, htr, hans, h⟩
    · have hfs : (runOp env e (.group q g op)).2.fs = e.fs.after [] := by rw [runOp_group, h, Fs.after_nil]
      refine ⟨[], _, .one .crashed, ⟨hdir, hplaced, ?_, rfl⟩, rfl, List.nil_prefix⟩
      rw [step_kill env _ k options hfs, List.take_nil, Fs.after_nil]
      exact ht.files
    · have hfs : (runOp env e (.group q g op)).2.fs = e.fs.after calls := by rw [runOp_group, h]
      -- The calls that were made show a first part of the acts, which moves lead to.
      obtain ⟨done, rest, hacts, hview⟩ := (htells.shows hw).take e.fs.disk k
      obtain ⟨ls1, ls2, b, rfl, rfl, hmoves1⟩ := hmoves.split hacts
      refine ⟨hs ++ ls1.map .moved, _, (hsteps.trans (.moves hm.env_ok hm.opts_ok hread hmoves1 rfl)).snoc .crashed,
        ⟨hdir, hplaced, ?_, rfl⟩, rfl, ?_⟩
      · rw [step_kill env _ k options hfs, Fs.disk_after, hview, ht.files, view_labels]
        rfl
      · rw [traceAll_append, hst, traceAll_moved, List.nil_append, ← htr, traceOf_append]
        exact List.prefix_append _ _
  · have hnot : ∀ op, o ≠ .group q g op := fun op h => hown ⟨op, h⟩
    obtain ⟨-, calls, hc, hsp⟩ := runOp_foreign env ht hapart hnot
    refine ⟨[], _, .one .crashed, ⟨hdir, hplaced, ?_, rfl⟩, rfl, List.nil_prefix⟩
    rw [step_kill env o k options hc, Fs.disk_after,
      view_spares (fun c hmem => (hsp c (List.mem_of_mem_take hmem)).1) (fun c hmem => (hsp c (List.mem_of_mem_take hmem)).2)]
    exact ht.files

end track

/-! ## Runs -/

def Step.operation : Step → Op
  | .op _ o | .kill _ o _ _ => o

/-- Events are appended whole or not at all, the files of other groups are other
files, and a restart stays on the data directory. -/
structure Step.Fair (dir q : Path) (g : CString) (s : Step) : Prop where
  whole : s.env.Whole (groupEventPath dir q g)
  apart : s.operation.Apart dir q g
  data_dir : ∀ env o calls options, s = .kill env o calls options → options.data_dir = dir

theorem tracks_fresh (opts : EngineOptions) (q : Path) (g : CString) :
    Tracks opts.data_dir q g (freshEngine opts) {} :=
  ⟨rfl, placed_fresh opts, rfl, rfl⟩

end PomaiQueue.Engine
