import PomaiQueue.Replay
import PomaiQueue.SegmentHolds
/-!
# What a step does to the engine

Each operation either returns an error and leaves the engine alone, or does
what the layer below says to one queue. All of them only add system calls, so
a kill leaves a first part of the calls (`step_kill`).
-/

namespace PomaiQueue.Engine

open Wire Posix Assoc Storage

theorem Fs.cut_after (fs : Fs) (calls : List Call) (k : Nat) :
    (fs.after calls).cut (fs.calls.length + k) = fs.after (calls.take k) := by
  simp only [Fs.cut, Fs.after, List.take_length_add_append]

/-! ## Operations on a group -/

/-- The queue is not there, or the group cannot be loaded. -/
def Refuses (env : Env) (q : Path) (g : CString) (e : QueueEngine) : Prop :=
  ∀ queue, e.queues.lookup q = some queue → ∃ err, getGroup env e.options q queue g e.fs = .error err

theorem onGroup_cases (env : Env) (q : Path) (g : CString) (op : GroupOp) (e : QueueEngine) :
    (∃ err, onGroup env q g op e = (.error err, e) ∧ Refuses env q g e) ∨
      ∃ queue group, e.queues.lookup q = some queue ∧ getGroup env e.options q queue g e.fs = .ok group ∧
        onGroup env q g op e =
          ((groupOp env e.options q g op queue.segment group e.fs).1,
            { e with
              queues := e.queues.insert q
                { queue with
                  groups := queue.groups.insert g (groupOp env e.options q g op queue.segment group e.fs).2.1 }
              fs := (groupOp env e.options q g op queue.segment group e.fs).2.2 }) := by
  unfold onGroup
  split
  · rename_i hnone
    refine .inl ⟨_, rfl, fun queue hqueue => ?_⟩
    rw [hnone] at hqueue
    cases hqueue
  · rename_i queue hqueue
    split
    · rename_i err herr
      refine .inl ⟨err, rfl, fun queue' hqueue' => ?_⟩
      rw [hqueue] at hqueue'
      obtain rfl := Option.some.inj hqueue'
      exact ⟨err, herr⟩
    · rename_i group hgroup
      exact .inr ⟨queue, group, hqueue, hgroup, rfl⟩

/-- The segment of every queue is at the queue's path. -/
def Placed (e : QueueEngine) : Prop :=
  ∀ q queue, e.queues.lookup q = some queue → queue.segment.path = segmentPath e.options.data_dir q

/-- A segment is none of any group's files. -/
theorem aside_segment (dir q q' : Path) (g : CString) : Aside (groupFiles dir q g) (segmentPath dir q') :=
  ⟨ne_of_getLast? (segmentPath_getLast? dir q') (groupEventPath_getLast? dir q g) (by decide),
    ne_of_getLast? (segmentPath_getLast? dir q') (groupStatePath_getLast? dir q g) (by decide),
    ne_of_getLast? (segmentPath_getLast? dir q') (tmpPath_getLast? _) (by decide)⟩

/-- What an operation does to a group of a queue that is there. -/
theorem Placed.does {env : Env} {e : QueueEngine} (hp : Placed e) {q : Path} {g : CString} (op : GroupOp) {queue : QueueState}
    (hqueue : e.queues.lookup q = some queue) {group : ConsumerGroupState} :
    ∃ labels, DoesBy env e.options q g (queue.segment.read e.fs) op group e.fs labels
        (groupOp env e.options q g op queue.segment group e.fs).2.1 (groupOp env e.options q g op queue.segment group e.fs).2.2 ∧
      traceOf labels = groupOpTrace env e.options q g op queue.segment group e.fs ∧
      Answers op (groupOp env e.options q g op queue.segment group e.fs).1 labels := by
  have hseg : Aside (groupFiles e.options.data_dir q g) queue.segment.path := by
    rw [hp q queue hqueue]
    exact aside_segment _ _ _ _
  exact groupOp_does op queue.segment group e.fs hseg

/-- What an operation on a group does, and what it answers. -/
theorem onGroup_does (env : Env) (q : Path) (g : CString) (op : GroupOp) {e : QueueEngine} (hp : Placed e) :
    (∃ err, onGroup env q g op e = (.error err, e) ∧ Refuses env q g e) ∨
      ∃ queue group group' fs' labels, e.queues.lookup q = some queue ∧
        getGroup env e.options q queue g e.fs = .ok group ∧
        DoesBy env e.options q g (queue.segment.read e.fs) op group e.fs labels group' fs' ∧
        traceOf labels = groupOpTrace env e.options q g op queue.segment group e.fs ∧
        Answers op (onGroup env q g op e).1 labels ∧
        (onGroup env q g op e).2 =
          { e with queues := e.queues.insert q { queue with groups := queue.groups.insert g group' }, fs := fs' } := by
  rcases onGroup_cases env q g op e with h | ⟨queue, group, hqueue, hgroup, heq⟩
  · exact .inl h
  · obtain ⟨labels, hd, htr, hans⟩ := hp.does op hqueue
    exact .inr ⟨queue, group, _, _, labels, hqueue, hgroup, hd, htr, by rw [heq]; exact hans, by rw [heq]⟩

/-! ## Operations on the segment -/

theorem append_path (io : Io) (r : Record) (log : SegmentLog) (fs : Fs) :
    (SegmentLog.append io r log fs).2.1.path = log.path := by
  cases hfd : log.fd with
  | none => simp [SegmentLog.append, hfd]
  | some pos =>
    obtain ⟨n, chunks, sync, -, -, -, ⟨err, h⟩ | ⟨-, -, h⟩⟩ := append_cases io r log fs pos hfd
    · rw [h]
    · rw [h]

/-- An append touches the segment's file only. -/
theorem append_after (io : Io) (r : Record) (log : SegmentLog) (fs : Fs) :
    ∃ calls, (SegmentLog.append io r log fs).2.2 = fs.after calls ∧ ∀ p, p ≠ log.path → ∀ c ∈ calls, c.Spares p := by
  cases hfd : log.fd with
  | none => exact ⟨[], by simp [SegmentLog.append, hfd], by simp⟩
  | some pos =>
    obtain ⟨n, chunks, sync, -, -, hsync, hor⟩ := append_cases io r log fs pos hfd
    refine ⟨writeCalls log.path pos chunks ++ sync, ?_, fun p hp c hc => ?_⟩
    · rcases hor with ⟨err, h⟩ | ⟨-, -, h⟩
      · rw [h]; rfl
      · rw [h]; rfl
    · rcases List.mem_append.1 hc with hc | hc
      · exact writeCalls_spares hp _ _ c hc
      · rcases hsync with rfl | rfl
        · cases hc
        · rw [List.mem_singleton.1 hc]; trivial

theorem reopen_path (io : Io) (path : Path) (policy : FsyncPolicy) (fs : Fs) :
    (SegmentLog.reopen io path policy fs).2.1.path = path := by
  cases hf : io.fault (.creat path) with
  | some n => rw [SegmentLog.reopen_refused hf]
  | none => rw [SegmentLog.reopen_opened hf, SegmentLog.recover]

theorem reopen_after (io : Io) (path : Path) (policy : FsyncPolicy) (fs : Fs) :
    ∃ calls, (SegmentLog.reopen io path policy fs).2.2 = fs.after calls ∧ ∀ p, p ≠ path → ∀ c ∈ calls, c.Spares p := by
  cases hf : io.fault (.creat path) with
  | some n => exact ⟨[], by rw [SegmentLog.reopen_refused hf, Fs.after_nil], by simp⟩
  | none =>
    rw [SegmentLog.reopen_opened hf, SegmentLog.recover]
    dsimp only
    generalize SegmentLog.recoverLoop _ _ _ _ _ = scan
    obtain ⟨index, next, cut⟩ := scan
    cases cut with
    | none => exact ⟨[.creat path], rfl, by simp [Call.Spares]⟩
    | some position => exact ⟨[.creat path, .ftruncate path position], by simp [Fs.call, Fs.after], by simp [Call.Spares]⟩

/-- Reopening fails only at the first call. -/
theorem reopen_error {io : Io} {path : Path} {policy : FsyncPolicy} {fs : Fs} {e : Failure}
    (h : (SegmentLog.reopen io path policy fs).1 = .error e) : (SegmentLog.reopen io path policy fs).2.2 = fs := by
  cases hf : io.fault (.creat path) with
  | some n => rw [SegmentLog.reopen_refused hf]
  | none =>
    rw [SegmentLog.reopen_opened hf, SegmentLog.recover] at h
    cases h

theorem createQueueOnShard_cases (env : Env) (q : Path) (e : QueueEngine) :
    (createQueueOnShard env q e).2 = e ∨
      e.queues.lookup q = none ∧
      (SegmentLog.reopen env.toIo (segmentPath e.options.data_dir q) e.options.fsync_policy e.fs).1 = .ok () ∧
      (createQueueOnShard env q e).2 =
        { e with
          queues := e.queues.insert q
            { segment := (SegmentLog.reopen env.toIo (segmentPath e.options.data_dir q) e.options.fsync_policy e.fs).2.1 }
          fs := (SegmentLog.reopen env.toIo (segmentPath e.options.data_dir q) e.options.fsync_policy e.fs).2.2 } := by
  unfold createQueueOnShard
  split
  · exact .inl rfl
  · rename_i hnone
    split
    · rename_i err log fs heq
      left
      have hsame : fs = e.fs := (congrArg (·.2.2) heq).symm.trans (reopen_error (congrArg Prod.fst heq))
      rw [hsame]
    · rename_i log fs heq
      exact .inr ⟨hnone, by rw [heq], by rw [heq]⟩

theorem produceOnShard_cases (env : Env) (q : Path) (m : Message) (e : QueueEngine) :
    (∃ err, produceOnShard env q m e = (.error err, e)) ∨
      ∃ queue, e.queues.lookup q = some queue ∧
        produceOnShard env q m e =
          ((SegmentLog.append env.toIo (recordOf m) queue.segment e.fs).1,
            { e with
              queues := e.queues.insert q
                { queue with segment := (SegmentLog.append env.toIo (recordOf m) queue.segment e.fs).2.1 }
              fs := (SegmentLog.append env.toIo (recordOf m) queue.segment e.fs).2.2 }) := by
  unfold produceOnShard
  split
  · exact .inl ⟨_, rfl⟩
  · rename_i queue hqueue
    split
    · exact .inl ⟨_, rfl⟩
    · split
      · exact .inl ⟨_, rfl⟩
      · exact .inr ⟨queue, hqueue, rfl⟩

/-! ## What an operation does to the engine -/

/-- Calls that touch no file but the one at `path`. -/
def TouchOnly (fs : Fs) (path : Path) (fs' : Fs) : Prop :=
  ∃ calls, fs' = fs.after calls ∧ ∀ p, p ≠ path → ∀ c ∈ calls, c.Spares p

/-- An operation does nothing, or something to one queue. -/
inductive Effect (env : Env) (e : QueueEngine) : Op → QueueEngine → Prop
  | none {o} : Effect env e o e
  | created {segment fs} (q) (hnone : e.queues.lookup q = none) (hpath : segment.path = segmentPath e.options.data_dir q)
      (hcalls : TouchOnly e.fs (segmentPath e.options.data_dir q) fs) :
      Effect env e (.createQueue q) { e with queues := e.queues.insert q { segment }, fs }
  | produced {queue segment fs} (q m) (hqueue : e.queues.lookup q = some queue) (hpath : segment.path = queue.segment.path)
      (hcalls : TouchOnly e.fs queue.segment.path fs) :
      Effect env e (.produce q m) { e with queues := e.queues.insert q { queue with segment }, fs }
  | group {queue group} (q g op) (hqueue : e.queues.lookup q = some queue)
      (hgroup : getGroup env e.options q queue g e.fs = .ok group) :
      Effect env e (.group q g op)
        { e with
          queues := e.queues.insert q
            { queue with groups := queue.groups.insert g (groupOp env e.options q g op queue.segment group e.fs).2.1 }
          fs := (groupOp env e.options q g op queue.segment group e.fs).2.2 }

theorem runOp_effect (env : Env) (e : QueueEngine) (o : Op) : Effect env e o (runOp env e o).2 := by
  cases o with
  | createQueue q =>
    change Effect env e (.createQueue q) (createQueueOnShard env q e).2
    rcases createQueueOnShard_cases env q e with h | ⟨hnone, -, h⟩
    · rw [h]
      exact .none
    · rw [h]
      exact .created q hnone (reopen_path _ _ _ _) (reopen_after _ _ _ _)
  | produce q m =>
    change Effect env e (.produce q m) (produceOnShard env q m e).2
    rcases produceOnShard_cases env q m e with ⟨err, h⟩ | ⟨queue, hqueue, h⟩
    · rw [h]
      exact .none
    · rw [h]
      exact .produced q m hqueue (append_path _ _ _ _) (append_after _ _ _ _)
  | group q g op =>
    rw [runOp_group]
    rcases onGroup_cases env q g op e with ⟨err, h, -⟩ | ⟨queue, group, hqueue, hgroup, h⟩
    · rw [h]
      exact .none
    · rw [h]
      exact .group q g op hqueue hgroup

theorem runOp_options (env : Env) (e : QueueEngine) (o : Op) : (runOp env e o).2.options = e.options := by
  have h := runOp_effect env e o
  generalize (runOp env e o).2 = e' at h
  cases h <;> rfl

/-- A queue after an operation: it was there, or the operation made it or changed it. -/
theorem Effect.queue {env : Env} {e e' : QueueEngine} {o : Op} (h : Effect env e o e') {q : Path} {queue' : QueueState}
    (hl : e'.queues.lookup q = some queue') :
    e.queues.lookup q = some queue' ∨
      (queue'.segment.path = segmentPath e.options.data_dir q ∧ queue'.groups = ∅) ∨
      ∃ queue, e.queues.lookup q = some queue ∧ queue'.segment.path = queue.segment.path ∧
        (queue'.groups = queue.groups ∨ ∃ g op group, o = .group q g op ∧ getGroup env e.options q queue g e.fs = .ok group ∧
          queue'.groups = queue.groups.insert g (groupOp env e.options q g op queue.segment group e.fs).2.1) := by
  -- Where one queue is set, it is the new value or another queue.
  have hset : ∀ {q' : Path} {x : QueueState}, (e.queues.insert q' x).lookup q = some queue' →
      q = q' ∧ queue' = x ∨ e.queues.lookup q = some queue' := by
    intro q' x hl
    by_cases hq : q = q'
    · subst hq
      rw [AList.lookup_insert] at hl
      exact .inl ⟨rfl, (Option.some.inj hl).symm⟩
    · rw [AList.lookup_insert_ne hq] at hl
      exact .inr hl
  cases h with
  | none => exact .inl hl
  | created q' hnone hpath hcalls =>
    rcases hset hl with ⟨rfl, rfl⟩ | hold
    · exact .inr (.inl ⟨hpath, rfl⟩)
    · exact .inl hold
  | produced q' m hqueue hpath hcalls =>
    rcases hset hl with ⟨rfl, rfl⟩ | hold
    · exact .inr (.inr ⟨_, hqueue, hpath, .inl rfl⟩)
    · exact .inl hold
  | group q' g op hqueue hgroup =>
    rcases hset hl with ⟨rfl, rfl⟩ | hold
    · exact .inr (.inr ⟨_, hqueue, rfl, .inr ⟨g, op, _, rfl, hgroup, rfl⟩⟩)
    · exact .inl hold

/-! ## Steps -/

def Step.env : Step → Env
  | .op env _ | .kill env _ _ _ => env

/-- Nothing goes wrong during the step. -/
def Step.Quiet (s : Step) : Prop := s.env.toIo.Quiet

/-- Every step of the run, at the state it is taken in. -/
def EachStep (P : QueueEngine → Step → Prop) : QueueEngine → List Step → Prop
  | _, [] => True
  | e, s :: steps => P e s ∧ EachStep P (step e s) steps

theorem Placed.runOp {env : Env} {e : QueueEngine} (hp : Placed e) (o : Op) : Placed (runOp env e o).2 := by
  intro q queue hl
  rw [runOp_options]
  rcases (runOp_effect env e o).queue hl with hold | ⟨hpath, -⟩ | ⟨queue0, hqueue0, hpath, -⟩
  · exact hp q queue hold
  · exact hpath
  · exact hpath.trans (hp q queue0 hqueue0)

theorem Placed.step {e : QueueEngine} (hp : Placed e) (s : Step) : Placed (step e s) := by
  cases s with
  | op env o => exact hp.runOp o
  | kill env o calls options =>
    intro q queue hl
    cases hl

theorem placed_fresh (opts : EngineOptions) : Placed (freshEngine opts) := by
  intro q queue hl
  cases hl

/-- An operation only adds calls. -/
theorem runOp_after (env : Env) {e : QueueEngine} (hp : Placed e) (o : Op) :
    ∃ calls, (runOp env e o).2.fs = e.fs.after calls := by
  have h := runOp_effect env e o
  generalize (runOp env e o).2 = e' at h
  cases h with
  | none => exact ⟨[], (Fs.after_nil _).symm⟩
  | created q hnone hpath hcalls =>
    obtain ⟨calls, hc, -⟩ := hcalls
    exact ⟨calls, hc⟩
  | produced q m hqueue hpath hcalls =>
    obtain ⟨calls, hc, -⟩ := hcalls
    exact ⟨calls, hc⟩
  | group q g op hqueue hgroup =>
    obtain ⟨labels, hd, -, -⟩ := hp.does op hqueue
    obtain ⟨calls, hc, -⟩ := hd.calls
    exact ⟨calls, hc⟩

theorem step_kill (env : Env) (o : Op) (k : Nat) (opts : EngineOptions) {e : QueueEngine} {calls : List Call}
    (h : (runOp env e o).2.fs = e.fs.after calls) :
    step e (.kill env o k opts) = { options := opts, fs := e.fs.after (calls.take k) } := by
  simp only [step, h, Fs.cut_after]

/-! ## Every group -/

/-- Every loaded group has the property. -/
def EveryGroup (P : EngineOptions → ConsumerGroupState → Prop) (e : QueueEngine) : Prop :=
  ∀ q queue g group, e.queues.lookup q = some queue → queue.groups.lookup g = some group → P e.options group

/-- A property of groups that a load gives and an operation keeps. -/
theorem EveryGroup.runOp {P : EngineOptions → ConsumerGroupState → Prop} {env : Env} {e : QueueEngine} (h : EveryGroup P e)
    (o : Op)
    (hload : ∀ q g op, o = .group q g op → ∀ queue, e.queues.lookup q = some queue → queue.groups.lookup g = none →
      ∀ group, loadGroupState env e.options q g queue.segment e.fs = .ok group → P e.options group)
    (hkeep : ∀ q g op, o = .group q g op → ∀ queue group, e.queues.lookup q = some queue →
      getGroup env e.options q queue g e.fs = .ok group → P e.options group →
      P e.options (groupOp env e.options q g op queue.segment group e.fs).2.1) :
    EveryGroup P (runOp env e o).2 := by
  intro q queue' g group' hl hg
  rw [runOp_options]
  rcases (runOp_effect env e o).queue hl with hold | ⟨-, hempty⟩ | ⟨queue, hqueue, -, hsame | ⟨g', op, group, ho, hgroup, hset⟩⟩
  · exact h q queue' g group' hold hg
  · rw [hempty] at hg
    cases hg
  · rw [hsame] at hg
    exact h q queue g group' hqueue hg
  · rw [hset] at hg
    by_cases hgg : g = g'
    · subst hgg
      rw [AList.lookup_insert] at hg
      obtain rfl := Option.some.inj hg
      apply hkeep q g op ho queue group hqueue hgroup
      -- The group was in memory, or it was loaded.
      unfold getGroup at hgroup
      split at hgroup
      · rename_i group0 h0
        obtain rfl := Except.ok.inj hgroup
        exact h q queue g _ hqueue h0
      · rename_i h0
        exact hload q g op ho queue hqueue h0 group hgroup
    · rw [AList.lookup_insert_ne hgg] at hg
      exact h q queue g group' hqueue hg

/-- A new process has no group loaded. -/
theorem everyGroup_kill {P : EngineOptions → ConsumerGroupState → Prop} (e : QueueEngine) (env : Env) (o : Op) (k : Nat)
    (options : EngineOptions) : EveryGroup P (step e (.kill env o k options)) := by
  intro q queue g group hl _
  cases hl

theorem everyGroup_fresh {P : EngineOptions → ConsumerGroupState → Prop} (opts : EngineOptions) :
    EveryGroup P (freshEngine opts) := by
  intro q queue g group hl _
  cases hl

end PomaiQueue.Engine
