import PomaiQueue.Lib.Tree
import PomaiQueue.Loading
import PomaiQueue.Places
/-!
# Operations on a group and the files of others

Here a file is not a path but the place a path leads to from the working
directory `cwd`, and operations act on a `Tree` of directories and files. An append
to an event log makes the directories in front of it (`runOnGroup`).

Operations on a group change its own files and make directories
(`runOnGroup_changes`). If neither are in the way of another group's files
(`Separate`), its loads and replays are as before (`Separate.isolated`).
-/

namespace PomaiQueue.Engine

open Wire Posix Assoc Storage

/-- The files as a process in directory `cwd` sees them. -/
def mount (cwd : List Bytes) (t : Tree) : Fs where
  base p := (t.find cwd p).map fun
    | .dir => []
    | .file content => content

theorem mount_congr {cwd : List Bytes} {t t' : Tree} {p : Path} (h : t'.find cwd p = t.find cwd p) :
    (mount cwd t').disk p = (mount cwd t).disk p := congrArg (Option.map _) h

/-- Reads of a directory fail. -/
def Env.reading (env : Env) (cwd : List Bytes) (t : Tree) : Env :=
  { env with unreadable := fun p => if t.find cwd p = some .dir then some .failing else env.unreadable p }

/-- A directory is not opened for writing, and no file is renamed over it. -/
def Env.writing (env : Env) (cwd : List Bytes) (t : Tree) (event_path : Path) : Env :=
  { env with
    refused := fun data => env.refused data || t.find cwd event_path = some .dir
    fault := fun c => if ∃ p ∈ c.targets, t.find cwd p = some .dir then some 0 else env.fault c }

/-- The failpoint that returns before such an event goes to `AppendTransition`. -/
def heldBack : TransitionReason → Option Failpoint
  | .kDelivered => some .before_lease_issue
  | .kAcked => some .before_ack_transition
  | .kConsumerNackDead => some .before_dlq_move
  | .kVisibilityTimeoutRequeued | .kVisibilityTimeoutDead => some .before_timeout_transition
  | _ => none

/-- The operation calls `AppendTransition`. -/
def Appends (env : Env) (q : Path) (g : CString) (op : GroupOp) (e : QueueEngine) : Prop :=
  ∃ x ∈ opTrace q g env e (.group q g op), env.failpoint = none ∨ env.failpoint ≠ heldBack x.1.reason

instance (env : Env) (q : Path) (g : CString) (op : GroupOp) (e : QueueEngine) : Decidable (Appends env q g op e) :=
  inferInstanceAs (Decidable (∃ x ∈ _, _))

/-- Operations on group `g` of queue `q`, one after the other. With each comes how many of the
directories can be made, if not all; then an exception ends the process. -/
def runOnGroup (cwd : List Bytes) (q : Path) (g : CString) :
    List (Env × Option Nat × GroupOp) → QueueEngine → Tree → QueueEngine × Tree
  | [], engine, t => (engine, t)
  | (env, stop, op) :: ops, engine, t =>
    let before := { engine with fs := mount cwd t }
    let path := groupEventPath engine.options.data_dir q g
    let dirs := ways cwd path
    let env := env.reading cwd t
    let made := if Appends env q g op before then t.mkdirs (dirs.take (stop.getD dirs.length)) else t
    if Appends env q g op before → ∀ k ∈ dirs, made.node k = some .dir then
      let after := (onGroup (env.writing cwd made path) q g op before).2
      runOnGroup cwd q g ops after (after.fs.calls.foldl (Tree.exec cwd) made)
    else (engine, made)

/-! ## What keeps two groups apart -/

/-- Places in or in front of which the queues' files are. -/
def standing (cwd : List Bytes) (dir q q' : Path) : List (List Bytes) :=
  cwd :: place cwd (segmentPath dir q) :: place cwd (segmentPath dir q') ::
    (ways cwd (segmentPath dir q) ++ ways cwd (segmentPath dir q'))

/-- The queues were created, and are still there. -/
structure Stands (cwd : List Bytes) (dir q q' : Path) (t : Tree) : Prop where
  here : t.node cwd = some .dir
  dirs : ∀ k ∈ ways cwd (segmentPath dir q) ++ ways cwd (segmentPath dir q'), t.node k = some .dir
  segments : ∀ p ∈ [segmentPath dir q, segmentPath dir q'], ∃ content, t.node (place cwd p) = some (.file content)

/-- Group `g` of `q` needs a directory at `k` that the queues do not need. -/
def Made (cwd : List Bytes) (dir q q' : Path) (g : CString) (k : List Bytes) : Prop :=
  k ∈ ways cwd (groupEventPath dir q g) ∧ ∀ k' ∈ standing cwd dir q q', ¬ k <+: k'

/-- The files that operations on a group change. -/
def ownPaths (dir q : Path) (g : CString) : List Path :=
  [groupEventPath dir q g, groupStatePath dir q g, tmpPath (groupStatePath dir q g)]

theorem mem_ownPaths {dir q : Path} {g : CString} {p : Path} : p ∈ ownPaths dir q g ↔ ¬ Aside (groupFiles dir q g) p := by
  constructor
  · intro hmem haside
    simp only [ownPaths, List.mem_cons, List.not_mem_nil, or_false] at hmem
    rcases hmem with rfl | rfl | rfl
    · exact haside.events rfl
    · exact haside.state rfl
    · exact haside.tmp rfl
  · intro hnot
    by_contra hn
    simp only [ownPaths, List.mem_cons, List.not_mem_nil, or_false, not_or] at hn
    exact hnot ⟨hn.1, hn.2.1, hn.2.2⟩

/-- No file of `(q, g)` is a segment or one that a load of `(q', g')` reads. The directories of `(q, g)` are
not in the places of these, and no path to these goes through one and up again and has only such
directories below it on its way. -/
structure Separate (cwd : List Bytes) (dir q : Path) (g : CString) (q' : Path) (g' : CString) : Prop where
  files : ∀ p ∈ ownPaths dir q g,
    ∀ p' ∈ [groupEventPath dir q' g', groupStatePath dir q' g', segmentPath dir q, segmentPath dir q'], place cwd p ≠ place cwd p'
  dirs : ∀ k, Made cwd dir q q' g k → ∀ p' ∈ [groupEventPath dir q' g', groupStatePath dir q' g'], place cwd p' ≠ k
  passed : ∀ k, Made cwd dir q q' g k → ∀ p' ∈ [groupEventPath dir q' g', groupStatePath dir q' g'],
    k ∈ ways cwd (upToNul p') → (∀ k' ∈ ways cwd (upToNul p'), k <+: k' → k' ∈ ways cwd (groupEventPath dir q g)) →
      k <+: place cwd p'

/-- The files of `(q, g)` are not those of `(q', g')`, and no operations on the
group `(q, g)` change what a load or a replay of `(q', g')` computes. -/
structure Isolated (cwd : List Bytes) (opts : EngineOptions) (q : Path) (g : CString) (q' : Path) (g' : CString) : Prop where
  state : place cwd (groupStatePath opts.data_dir q g) ≠ place cwd (groupStatePath opts.data_dir q' g')
  events : place cwd (groupEventPath opts.data_dir q g) ≠ place cwd (groupEventPath opts.data_dir q' g')
  load : ∀ (engine : QueueEngine) (t : Tree) (ops : List (Env × Option Nat × GroupOp)), engine.options = opts → Placed engine →
    Stands cwd opts.data_dir q q' t → ∀ (env : Env) (segment : SegmentLog), segment.path = segmentPath opts.data_dir q' →
      let t' := (runOnGroup cwd q g ops engine t).2
      loadGroupState (env.reading cwd t') opts q' g' segment (mount cwd t') =
        loadGroupState (env.reading cwd t) opts q' g' segment (mount cwd t)
  replay : ∀ (engine : QueueEngine) (t : Tree) (ops : List (Env × Option Nat × GroupOp)), engine.options = opts → Placed engine →
    Stands cwd opts.data_dir q q' t → ∀ (env : Env) (until_sequence : UInt64),
      let t' := (runOnGroup cwd q g ops engine t).2
      replayToSequenceOnShard (env.reading cwd t') q' g' until_sequence { engine with fs := mount cwd t' } =
        replayToSequenceOnShard (env.reading cwd t) q' g' until_sequence { engine with fs := mount cwd t }

/-! ## Operations on a group that is apart -/

/-- An operation on a group changes its event log, its snapshot and the snapshot's
temporary file. -/
theorem onGroup_targets (env : Env) (q : Path) (g : CString) (op : GroupOp) {e : QueueEngine} (hp : Placed e) :
    ∃ calls, (onGroup env q g op e).2.fs = e.fs.after calls ∧
      ∀ c ∈ calls, ∀ p ∈ c.targets, p ∈ ownPaths e.options.data_dir q g := by
  rcases onGroup_does env q g op hp with ⟨err, h, -⟩ | ⟨queue, group, group', fs', labels, -, -, hdoes, -, -, h⟩
  · exact ⟨[], by rw [h, Fs.after_nil], by simp⟩
  · obtain ⟨calls, hcalls, htells⟩ := hdoes.calls
    refine ⟨calls, by rw [h, hcalls], fun c hc p hmem => mem_ownPaths.2 fun haside => ?_⟩
    exact (c.spares_iff p).1 (htells.spares p haside c hc) hmem

section apart

variable {cwd : List Bytes} {opts : EngineOptions} {q q' : Path} {g g' : CString} {t t' : Tree}

/-- What is in front of a standing place is there. -/
theorem Stands.there {dir : Path} (hs : Stands cwd dir q q' t) {k k' : List Bytes} (hk' : k' ∈ standing cwd dir q q')
    (hpre : k <+: k') :
    t.node k = some .dir ∨ (k = k' ∧ ∃ p ∈ [segmentPath dir q, segmentPath dir q'], k = place cwd p) := by
  by_cases hdir : t.node k' = some .dir
  · exact .inl (t.dir_of_prefix hpre hdir)
  · rw [standing, List.mem_cons, List.mem_cons, List.mem_cons] at hk'
    have hseg : ∃ p ∈ [segmentPath dir q, segmentPath dir q'], k' = place cwd p := by
      rcases hk' with rfl | rfl | rfl | hk'
      · exact absurd hs.here hdir
      · exact ⟨_, by simp, rfl⟩
      · exact ⟨_, by simp, rfl⟩
      · exact absurd (hs.dirs k' hk') hdir
    by_cases heq : k = k'
    · exact .inr ⟨heq, heq ▸ hseg⟩
    · obtain ⟨p, hp, rfl⟩ := hseg
      obtain ⟨content, hfile⟩ := hs.segments p hp
      exact .inl (t.above hpre heq (by rw [hfile]; simp))

/-- Operations on the group change its files and make directories that the queues do not need. -/
theorem runOnGroup_changes (hfiles : ∀ p ∈ ownPaths opts.data_dir q g,
      ∀ p' ∈ [segmentPath opts.data_dir q, segmentPath opts.data_dir q'], place cwd p ≠ place cwd p')
    {t₀ : Tree} (hs : Stands cwd opts.data_dir q q' t₀)
    (ops : List (Env × Option Nat × GroupOp)) {engine : QueueEngine} (hopts : engine.options = opts) (hp : Placed engine)
    (h : Tree.Changes {k | ∃ p ∈ ownPaths opts.data_dir q g, place cwd p = k} {k | Made cwd opts.data_dir q q' g k} t₀ t) :
    Tree.Changes {k | ∃ p ∈ ownPaths opts.data_dir q g, place cwd p = k} {k | Made cwd opts.data_dir q q' g k} t₀
      (runOnGroup cwd q g ops engine t).2 := by
  induction ops generalizing engine t with
  | nil => exact h
  | cons x ops ih =>
    obtain ⟨env, stop, op⟩ := x
    have hnew : ∀ k ∈ ways cwd (groupEventPath engine.options.data_dir q g), t.node k = none → Made cwd opts.data_dir q q' g k := by
      intro k hk hnone
      refine ⟨hopts ▸ hk, fun k' hk' hpre => ?_⟩
      rcases hs.there hk' hpre with hdir | ⟨-, p', hp', rfl⟩
      · rw [h.stay k hdir] at hnone
        cases hnone
      · -- A segment is no file of the group, so it is still there.
        obtain ⟨content, hfile⟩ := hs.segments p' hp'
        have hown : ¬ ∃ p ∈ ownPaths opts.data_dir q g, place cwd p = place cwd p' := by
          rintro ⟨p, hpo, heq⟩
          exact hfiles p hpo p' hp' heq
        have hmade : ¬ Made cwd opts.data_dir q q' g (place cwd p') := fun hm => hm.2 k' hk' hpre
        rw [h.rest _ hown hmade, hfile] at hnone
        cases hnone
    unfold runOnGroup
    dsimp only
    generalize hmade : (if Appends (env.reading cwd t) q g op { engine with fs := mount cwd t } then
      t.mkdirs ((ways cwd (groupEventPath engine.options.data_dir q g)).take
        (stop.getD (ways cwd (groupEventPath engine.options.data_dir q g)).length)) else t) = made
    have hdirs : Tree.Changes {k | ∃ p ∈ ownPaths opts.data_dir q g, place cwd p = k} {k | Made cwd opts.data_dir q q' g k}
        t₀ made := by
      rw [← hmade]
      split
      · exact h.trans (Tree.changes_mkdirs fun k hk hnone => hnew k (List.mem_of_mem_take hk) hnone)
      · exact h
    split
    · have hp' : Placed { engine with fs := mount cwd t } := hp
      generalize henv : (env.reading cwd t).writing cwd made (groupEventPath engine.options.data_dir q g) = env'
      obtain ⟨calls, hfs, htargets⟩ := onGroup_targets env' q g op hp'
      have hcalls : (onGroup env' q g op { engine with fs := mount cwd t }).2.fs.calls = calls := by
        rw [hfs]
        rfl
      have hopts' : (onGroup env' q g op { engine with fs := mount cwd t }).2.options = opts := by
        rcases onGroup_cases env' q g op { engine with fs := mount cwd t } with ⟨err, heq, -⟩ | ⟨queue, group, -, -, heq⟩
        · rw [heq]
          exact hopts
        · rw [heq]
          exact hopts
      have hp'' : Placed (onGroup env' q g op { engine with fs := mount cwd t }).2 := by
        rw [← runOp_group]
        exact hp'.runOp (.group q g op)
      refine ih hopts' hp'' (hdirs.trans ?_)
      rw [hcalls]
      refine Tree.changes_calls ?_ made
      intro c hc p hmem
      exact ⟨p, hopts ▸ htargets c hc p hmem, rfl⟩
    · exact hdirs

/-- A load or a replay of the other group reads the same. -/
theorem Separate.reads (hsep : Separate cwd opts.data_dir q g q' g') (hs : Stands cwd opts.data_dir q q' t)
    (ops : List (Env × Option Nat × GroupOp)) {engine : QueueEngine} (hopts : engine.options = opts) (hp : Placed engine) {p : Path}
    (hmem : p ∈ [groupEventPath opts.data_dir q' g', groupStatePath opts.data_dir q' g', segmentPath opts.data_dir q']) :
    (runOnGroup cwd q g ops engine t).2.find cwd p = t.find cwd p := by
  have hchanges := runOnGroup_changes
    (fun p hp p' hp' => hsep.files p hp p' (List.mem_cons_of_mem _ (List.mem_cons_of_mem _ hp'))) hs ops hopts hp (.refl ..)
  have hown : ¬ ∃ p' ∈ ownPaths opts.data_dir q g, place cwd p' = place cwd p := by
    rintro ⟨p', hp', heq⟩
    refine hsep.files p' hp' p ?_ heq
    simp only [List.mem_cons, List.not_mem_nil, or_false] at hmem ⊢
    tauto
  have hcase : p ∈ [groupEventPath opts.data_dir q' g', groupStatePath opts.data_dir q' g'] ∨ p = segmentPath opts.data_dir q' := by
    simp only [List.mem_cons, List.not_mem_nil, or_false] at hmem ⊢
    tauto
  rcases hcase with hgroup | rfl
  · refine hchanges.find hown (fun hm => absurd rfl (hsep.dirs _ hm p hgroup)) fun k hk hm _ hmade => ?_
    exact ⟨hsep.passed k hm p hgroup hk fun k' hk' hpre => (hmade k' hk' hpre).1, (hsep.dirs k hm p hgroup).symm⟩
  · refine hchanges.find hown (fun hm => absurd List.prefix_rfl (hm.2 _ (by simp [standing]))) fun k hk hm _ _ => ?_
    exact absurd List.prefix_rfl (hm.2 k (by simp [standing, ways_upToNul cwd _ hk]))

theorem loadTransitions_reading (env : Env)
    (hev : t'.find cwd (groupEventPath opts.data_dir q g) = t.find cwd (groupEventPath opts.data_dir q g)) (max_sequence : UInt64) :
    loadTransitions (env.reading cwd t').toIo opts q g max_sequence (mount cwd t') =
      loadTransitions (env.reading cwd t).toIo opts q g max_sequence (mount cwd t) := by
  unfold loadTransitions
  simp only [Env.reading, hev, mount_congr hev]

theorem loadGroupState_reading (env : Env) {segment : SegmentLog} (hseg : t'.find cwd segment.path = t.find cwd segment.path)
    (hstate : t'.find cwd (groupStatePath opts.data_dir q g) = t.find cwd (groupStatePath opts.data_dir q g))
    (hev : t'.find cwd (groupEventPath opts.data_dir q g) = t.find cwd (groupEventPath opts.data_dir q g)) :
    loadGroupState (env.reading cwd t') opts q g segment (mount cwd t') =
      loadGroupState (env.reading cwd t) opts q g segment (mount cwd t) := by
  have hread : segment.read (mount cwd t') = segment.read (mount cwd t) :=
    SegmentLog.read_congr (by rw [Fs.content, mount_congr hseg, Fs.content])
  have hsnapshot : loadStateFile (env.reading cwd t').toIo opts q g (mount cwd t') =
      loadStateFile (env.reading cwd t).toIo opts q g (mount cwd t) := by
    funext group
    unfold loadStateFile
    simp only [Env.reading, hstate, mount_congr hstate]
  simp only [loadGroupState, readMessages_congr (congrFun hread), hsnapshot, loadTransitions_reading env hev]
  rfl

theorem Separate.isolated (hsep : Separate cwd opts.data_dir q g q' g') : Isolated cwd opts q g q' g' where
  state := hsep.files _ (by simp [ownPaths]) _ (by simp)
  events := hsep.files _ (by simp [ownPaths]) _ (by simp)
  load engine t ops hopts hp hs env segment hpath := by
    refine loadGroupState_reading env ?_ ?_ ?_
    · rw [hpath]
      exact hsep.reads hs ops hopts hp (by simp)
    · exact hsep.reads hs ops hopts hp (by simp)
    · exact hsep.reads hs ops hopts hp (by simp)
  replay engine t ops hopts hp hs env until_sequence := by
    have hev := hsep.reads hs ops hopts hp (p := groupEventPath opts.data_dir q' g') (by simp)
    have hseg := hsep.reads hs ops hopts hp (p := segmentPath opts.data_dir q') (by simp)
    unfold replayToSequenceOnShard
    dsimp only
    cases hqueue : engine.queues.lookup q' with
    | none => rfl
    | some queue =>
      have hread : queue.segment.read (mount cwd (runOnGroup cwd q g ops engine t).2) = queue.segment.read (mount cwd t) := by
        apply SegmentLog.read_congr
        rw [hp q' queue hqueue, hopts, Fs.content, mount_congr hseg, Fs.content]
      simp only [readMessages_congr (congrFun hread), hopts, loadTransitions_reading env hev]
      rfl

end apart

end PomaiQueue.Engine
