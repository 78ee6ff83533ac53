import PomaiQueue.Isolation
/-!
# Queues and groups that share files

The names of queues and groups go into paths as they are, so different pairs can
name the same files, and a file of one can be a directory on the way to the other's.
`groups_isolated` says when that happens. The paths of a pair can be the other
pair's paths, and what is logged for one group is then replayed into the other
(`shared_files`). Names that are one part of a path keep groups apart
(`separate_plain`).

A pair that is not apart from another has a run that shows it. On a tree with the two queues
and what leads to a file of the other group (`withQueues`), a `Consume` makes its
directories (`Stands.makes`). Then the other group cannot be loaded, because there is a
directory in the place of the file (`Isolated.dirs`) or because the file is found that
no path led to before (`Isolated.passed`).
-/

namespace PomaiQueue.Engine

open Wire Posix Assoc Storage

/-! ## The first `Consume` of a group -/

section run

variable (env : Env) (opts : EngineOptions) (q : Path) (g : CString)

/-- Without leases there is nothing to reap. -/
theorem reapBucket_idle (now : UInt64) (bucket : List MessageId) (group : ConsumerGroupState) (fs : Fs) (h : group.inflight = ∅) :
    reapBucket env opts q g now bucket group fs = (group, fs) := by
  induction bucket with
  | nil => rfl
  | cons id bucket ih =>
    have hone : reapOne env opts q g now id group fs = (group, fs) := by
      unfold reapOne
      rw [h]
      rfl
    rw [reapBucket, hone]
    exact ih

theorem reapTicks_idle (now : UInt64) (rounds : Nat) (group : ConsumerGroupState) (fs : Fs) (h : group.inflight = ∅) :
    ∃ group', reapTicks env opts q g now rounds group fs = (group', fs) ∧ group'.inflight = ∅ ∧
      group'.runtime = group.runtime := by
  induction rounds generalizing group with
  | zero => exact ⟨group, rfl, h, rfl⟩
  | succ rounds ih =>
    have hbucket := reapBucket_idle env opts q g now (group.deadline_wheel.getD (slotOf group group.wheel_base_tick) [])
      { group with deadline_wheel := group.deadline_wheel.set (slotOf group group.wheel_base_tick) [] } fs h
    obtain ⟨group', heq, hempty, hruntime⟩ := ih { group with
      deadline_wheel := group.deadline_wheel.set (slotOf group group.wheel_base_tick) []
      wheel_base_tick := group.wheel_base_tick + 1 } h
    refine ⟨group', ?_, hempty, hruntime⟩
    rw [← heq, reapTicks]
    simp only [hbucket]

theorem reap_idle (group : ConsumerGroupState) (fs : Fs) (h : group.inflight = ∅) :
    ∃ group', reapExpiredInflight env opts q g group fs = (buildReadyQueue env group', fs) ∧ group'.inflight = ∅ ∧
      group'.runtime = group.runtime := by
  have hticks : ∀ group₁ : ConsumerGroupState, group₁.inflight = ∅ → group₁.runtime = group.runtime → ∀ rounds,
      ∃ group', reapTicks env opts q g (env.now .reapExpiredInflight) rounds group₁ fs = (group', fs) ∧ group'.inflight = ∅ ∧
        group'.runtime = group.runtime := by
    intro group₁ h₁ hr rounds
    obtain ⟨group', heq, hempty, hruntime⟩ := reapTicks_idle env opts q g (env.now .reapExpiredInflight) rounds group₁ fs h₁
    exact ⟨group', heq, hempty, hruntime.trans hr⟩
  unfold reapExpiredInflight
  dsimp only
  split
  · obtain ⟨group', heq, hempty, hruntime⟩ := hticks (initScheduler env opts group) h rfl
      ((env.now .reapExpiredInflight / opts.tickMs).toNat + 1 - (initScheduler env opts group).wheel_base_tick.toNat)
    exact ⟨group', by rw [heq], hempty, hruntime⟩
  · obtain ⟨group', heq, hempty, hruntime⟩ := hticks group h rfl
      ((env.now .reapExpiredInflight / opts.tickMs).toNat + 1 - group.wheel_base_tick.toNat)
    exact ⟨group', by rw [heq], hempty, hruntime⟩

/-- A group that was loaded from the segment alone, with one message in it. -/
def loadedGroup (opts : EngineOptions) (messages : List (UInt64 × Message)) : ConsumerGroupState :=
  rebuilt {} opts [] (listedGroup none (defaultGroup {} opts messages))

/-- The first `Consume` of such a group appends to its log. -/
theorem appends_consume {env : Env} {q : Path} {g : CString} {e : QueueEngine} {queue : QueueState}
    {messages : List (UInt64 × Message)} (hqueue : e.queues.lookup q = some queue)
    (hgroup : queue.groups.lookup g = some (loadedGroup e.options messages))
    (hholds : Holds queue.segment e.fs [messageFrame ({}, {})])
    (hm : readMessages queue.segment e.fs queue.segment.offsets = .ok messages) (hmax : 0 < e.options.max_inflight)
    (hfail : env.failpoint = none) : Appends env q g .consume e := by
  suffices hne : opTrace q g env e (.group q g .consume) ≠ [] by
    obtain ⟨x, hx⟩ := List.exists_mem_of_ne_nil _ hne
    exact ⟨x, hx, .inl hfail⟩
  have hops : [messageFrame ({}, {})] = [(({} : Env), ({} : Message))].map messageFrame := rfl
  have hfrom := fromProduces_of (hops ▸ hholds) hm
  obtain ⟨group', hreap, hempty, hruntime⟩ := reap_idle env e.options q g (loadedGroup e.options messages) e.fs rfl
  have hready : UInt64.ofNat 0 ∈ (buildReadyQueue env group').ready_offsets := by
    obtain ⟨id, rt, hrt, hs, ha, ho⟩ := mem_buildReadyQueue (hfrom.ready (by simp) {} (i := 0) (by simp))
    rw [← ho]
    exact ready_mem (by rw [hruntime]; exact hrt) hs (UInt64.le_trans ha (UInt64.zero_le))
  -- Every ready offset is one that the load has read.
  have hreads : ∀ o ∈ (buildReadyQueue env group').ready_offsets, ∃ record, queue.segment.read e.fs o = .ok record := by
    intro o ho
    obtain ⟨id, rt, hrt, -, -, rfl⟩ := mem_buildReadyQueue ho
    rw [hruntime] at hrt
    have hl := lookup_load {} e.options none messages [] id
    rw [show (rebuilt {} e.options [] (listedGroup none (defaultGroup {} e.options messages))).runtime.lookup id = some rt from hrt,
      eq_comm, Option.map_eq_some_iff] at hl
    obtain ⟨rt₀, hrt₀, rfl⟩ := hl
    obtain ⟨om, hom, -, rfl⟩ := lookup_defaultRuntimes hrt₀
    obtain ⟨-, record, hrecord, -, -⟩ := readMessages_ok hm om ((({} : Env).offset_order.mem _ _).1 hom)
    exact ⟨record, hrecord⟩
  have hinflight : ¬ e.options.max_inflight.toNat ≤ (buildReadyQueue env group').inflight.entries.length := by
    have hlen : (buildReadyQueue env group').inflight.entries.length = 0 := by
      rw [show (buildReadyQueue env group').inflight = group'.inflight from rfl, hempty]
      rfl
    rw [hlen, Nat.le_zero]
    exact Nat.pos_iff_ne_zero.1 hmax
  simp only [opTrace, and_self, if_true, hqueue, getGroup, hgroup, groupOpTrace, hreap, if_neg hinflight]
  cases hcase : (buildReadyQueue env group').ready_offsets with
  | nil =>
    rw [hcase] at hready
    cases hready
  | cons o offsets =>
    obtain ⟨record, hrecord⟩ := hreads o (by rw [hcase]; exact List.mem_cons_self)
    simp [hrecord, deliverTrace]

end run

/-! ## Groups that are not apart -/

/-- A file can be at `p` while the queues are there. -/
def Creatable (cwd : List Bytes) (dir q q' p : Path) : Prop :=
  ∃ t content, Stands cwd dir q q' t ∧ t.find cwd p = some (.file content)

section shared

variable {cwd : List Bytes} {opts : EngineOptions} {dir q q' : Path} {g g' : CString} {t : Tree}

/-- Where a file can be that is no segment, the queues need nothing, and the way to it leads elsewhere. -/
theorem Creatable.free {p : Path} (hu : Creatable cwd dir q q' p)
    (hseg : ∀ p' ∈ [segmentPath dir q, segmentPath dir q'], place cwd p ≠ place cwd p') :
    ∀ k' ∈ standing cwd dir q q' ++ ways cwd (upToNul p), ¬ place cwd p <+: k' := by
  intro k' hk' hpre
  obtain ⟨t, content, hs, hfind⟩ := hu
  obtain ⟨hways, hfile⟩ := Tree.find_some hfind
  have hdir : t.node (place cwd p) = some .dir := by
    rcases List.mem_append.1 hk' with hk' | hk'
    · rcases hs.there hk' hpre with hdir | ⟨-, p', hp', heq⟩
      · exact hdir
      · exact absurd heq (hseg p' hp')
    · exact t.dir_of_prefix hpre (hways k' hk')
  rw [hfile] at hdir
  cases hdir

/-- The queues and what leads to `ks`, with other contents of the files. -/
def withQueues (cwd : List Bytes) (dir q q' : Path) (ks : List (List Bytes)) (content : List Bytes → Bytes) (t : Tree) : Tree :=
  t.prune (standing cwd dir q q' ++ ks) content

theorem withQueues_none {ks : List (List Bytes)} {k : List Bytes} (hk : ∀ k' ∈ standing cwd dir q q' ++ ks, ¬ k <+: k')
    (content : List Bytes → Bytes) (t : Tree) : (withQueues cwd dir q q' ks content t).node k = none := by
  refine t.prune_none ?_ hk content
  rintro rfl
  exact hk cwd (by simp [standing]) (List.nil_prefix)

theorem Stands.segment (hs : Stands cwd dir q q' t) (ks : List (List Bytes)) (content : List Bytes → Bytes) {p : Path}
    (hp : p ∈ [segmentPath dir q, segmentPath dir q']) :
    (withQueues cwd dir q q' ks content t).node (place cwd p) = some (.file (content (place cwd p))) := by
  obtain ⟨c, hfile⟩ := hs.segments p hp
  refine t.prune_file ⟨place cwd p, List.mem_append_left _ ?_, List.prefix_rfl⟩ hfile _
  simp only [List.mem_cons, List.not_mem_nil, or_false] at hp
  rcases hp with rfl | rfl
  · simp [standing]
  · simp [standing]

theorem Stands.pruned (hs : Stands cwd dir q q' t) (ks : List (List Bytes)) (content : List Bytes → Bytes) :
    Stands cwd dir q q' (withQueues cwd dir q q' ks content t) where
  here := t.prune_dir ⟨cwd, by simp [standing], List.prefix_rfl⟩ hs.here _
  dirs k hk := by
    refine t.prune_dir ⟨k, List.mem_append_left _ ?_, List.prefix_rfl⟩ (hs.dirs k hk) _
    simp [standing, List.mem_append.1 hk]
  segments p hp := ⟨_, hs.segment ks content hp⟩

/-- What is in a segment with one message. -/
def messageBytes : Bytes := layout (stamped [messageFrame ({}, {})])

/-- The segment of a queue with one message. -/
def oneMessage (path : Path) (policy : FsyncPolicy) : SegmentLog where
  path := path
  fsync_policy := policy
  fd := some messageBytes.length
  next_offset := 1
  offset_to_position := indexFrom 0 (stamped [messageFrame ({}, {})]) ∅

theorem Stands.holds (hs : Stands cwd dir q q' t)
    (hone : t.node (place cwd (segmentPath dir q)) = some (.file messageBytes)) (policy : FsyncPolicy) :
    Holds (oneMessage (segmentPath dir q) policy) (mount cwd t) [messageFrame ({}, {})] := by
  refine ⟨⟨?_, rfl, by decide +kernel⟩, rfl, rfl⟩
  have hreach : t.reaches cwd (segmentPath dir q) = true :=
    (Tree.reaches_iff _ _ _).2 fun k hk => hs.dirs k (List.mem_append_left _ (ways_upToNul cwd _ hk))
  have hfind : t.find cwd (segmentPath dir q) = some (.file messageBytes) := by
    rw [Tree.find, if_pos hreach, hone]
  exact congrArg (Option.map _) hfind

/-- An engine that has opened a queue with one message, and has loaded one group of it. -/
def withMessage (opts : EngineOptions) (q : Path) (g : CString) (messages : List (UInt64 × Message)) (fs : Fs) : QueueEngine where
  options := opts
  queues := AList.insert q
    { segment := oneMessage (segmentPath opts.data_dir q) opts.fsync_policy
      groups := AList.insert g (loadedGroup opts messages) ∅ } ∅
  fs := fs

theorem placed_withMessage (opts : EngineOptions) (q : Path) (g : CString) (messages : List (UInt64 × Message)) (fs : Fs) :
    Placed (withMessage opts q g messages fs) := by
  intro q₁ queue hqueue
  by_cases hq : q₁ = q
  · subst hq
    rw [withMessage, AList.lookup_insert] at hqueue
    obtain rfl := Option.some.inj hqueue
    rfl
  · rw [withMessage, AList.lookup_insert_ne hq] at hqueue
    cases hqueue

/-- An append for which all directories can be made. -/
theorem runOnGroup_append {env : Env} {op : GroupOp} (engine : QueueEngine)
    (happends : Appends (env.reading cwd t) q g op { engine with fs := mount cwd t })
    (hmade : ∀ k ∈ ways cwd (groupEventPath engine.options.data_dir q g),
      (t.mkdirs (ways cwd (groupEventPath engine.options.data_dir q g))).node k = some .dir) :
    ∃ calls : List Call, (runOnGroup cwd q g [(env, none, op)] engine t).2 =
      calls.foldl (Tree.exec cwd) (t.mkdirs (ways cwd (groupEventPath engine.options.data_dir q g))) := by
  unfold runOnGroup
  dsimp only
  rw [if_pos happends, Option.getD_none, List.take_length, if_pos fun _ => hmade]
  exact ⟨_, rfl⟩

/-- Where there are no files in the way, the first `Consume` makes the directories of the group. -/
theorem Stands.makes (hs : Stands cwd opts.data_dir q q' t)
    (hone : t.node (place cwd (segmentPath opts.data_dir q)) = some (.file messageBytes))
    (h0 : NulFree opts.data_dir q g) (hmax : 0 < opts.max_inflight)
    (hfiles : ∀ p ∈ ownPaths opts.data_dir q g,
      ∀ p' ∈ [segmentPath opts.data_dir q, segmentPath opts.data_dir q'], place cwd p ≠ place cwd p')
    (hways : ∀ k ∈ ways cwd (groupEventPath opts.data_dir q g), ∀ content, t.node k ≠ some (.file content)) :
    ∃ engine ops, engine.options = opts ∧ Placed engine ∧
      (∀ k ∈ ways cwd (groupEventPath opts.data_dir q g), (runOnGroup cwd q g ops engine t).2.node k = some .dir) ∧
      Tree.Changes {k | ∃ p ∈ ownPaths opts.data_dir q g, place cwd p = k} {k | Made cwd opts.data_dir q q' g k} t
        (runOnGroup cwd q g ops engine t).2 := by
  have hholds := hs.holds hone opts.fsync_policy
  obtain ⟨messages, hm⟩ : ∃ messages, readMessages (oneMessage (segmentPath opts.data_dir q) opts.fsync_policy) (mount cwd t)
      (oneMessage (segmentPath opts.data_dir q) opts.fsync_policy).offsets = .ok messages := by
    have hyields := hholds.yields (by decide)
    refine readMessages_total fun o ho => ?_
    rw [hyields.offsets] at ho
    obtain ⟨i, hi, rfl⟩ := List.mem_map.1 ho
    obtain ⟨got, hgot, -⟩ := hyields.read i _ (List.getElem?_eq_getElem (List.mem_range.1 hi))
    exact ⟨got, hgot⟩
  have hp := placed_withMessage opts q g messages (mount cwd t)
  refine ⟨withMessage opts q g messages (mount cwd t), [({}, none, .consume)], rfl, hp, ?_,
    runOnGroup_changes hfiles hs _ rfl hp (.refl ..)⟩
  have happends : Appends (({} : Env).reading cwd t) q g .consume (withMessage opts q g messages (mount cwd t)) :=
    appends_consume (AList.lookup_insert _) (AList.lookup_insert _) hholds hm hmax rfl
  have hmade : ∀ k ∈ ways cwd (groupEventPath opts.data_dir q g),
      (t.mkdirs (ways cwd (groupEventPath opts.data_dir q g))).node k = some .dir := by
    refine t.mkdirs_made _ hways fun a k b heq => ?_
    obtain ⟨k', hk', hpre⟩ := ways_up (h0.groupFile (by decide)) heq
    refine ⟨k', ?_, hpre⟩
    rcases hk' with rfl | rfl | hk'
    · exact .inl hs.here
    · exact .inl t.root
    · exact .inr hk'
  obtain ⟨calls, hrun⟩ := runOnGroup_append (withMessage opts q g messages (mount cwd t)) happends hmade
  rw [hrun]
  intro k hk
  exact (Tree.changes_calls (fun c _ p _ => Set.mem_univ (place cwd p)) _ : Tree.Changes Set.univ ∅ _ _).stay k (hmade k hk)

/-- Neither a snapshot nor an event log. -/
def nineBytes : Bytes := List.replicate 9 0

/-- What a load finds where such a file or a directory is. -/
theorem reading_spoiled {p : Path} {i : Inode} (hi : i = .dir ∨ i = .file nineBytes) (hfind : t.find cwd p = some i) :
    (mount cwd t).disk p = some [] ∧ (({} : Env).reading cwd t).unreadable p = some .failing ∨
      (mount cwd t).disk p = some nineBytes ∧ (({} : Env).reading cwd t).unreadable p = none := by
  rcases hi with rfl | rfl
  · exact .inl ⟨congrArg (Option.map _) hfind, if_pos hfind⟩
  · exact .inr ⟨congrArg (Option.map _) hfind, if_neg (by rw [hfind]; simp)⟩

/-- No load succeeds. -/
theorem load_spoiled (segment : SegmentLog) {p : Path} (hp : p ∈ [groupEventPath opts.data_dir q g, groupStatePath opts.data_dir q g])
    {i : Inode} (hi : i = .dir ∨ i = .file nineBytes) (hfind : t.find cwd p = some i) :
    ∃ err, loadGroupState (({} : Env).reading cwd t) opts q g segment (mount cwd t) = .error err := by
  have hspoiled := reading_spoiled hi hfind
  unfold loadGroupState
  dsimp only
  split
  · exact ⟨_, rfl⟩
  · split
    · exact ⟨_, rfl⟩
    · rename_i group hload
      simp only [List.mem_cons, List.not_mem_nil, or_false] at hp
      rcases hp with rfl | rfl
      · have hev : ∃ err, loadTransitions (({} : Env).reading cwd t).toIo opts q g allSequences (mount cwd t) = .error err := by
          unfold loadTransitions
          dsimp only
          rcases hspoiled with ⟨hdisk, hopen⟩ | ⟨hdisk, hopen⟩
          · rw [hdisk, hopen]
            exact ⟨_, rfl⟩
          · rw [hdisk, hopen]
            exact ⟨_, rfl⟩
        obtain ⟨err, herr⟩ := hev
        rw [herr]
        exact ⟨_, rfl⟩
      · unfold loadStateFile at hload
        dsimp only at hload
        rcases hspoiled with ⟨hdisk, hopen⟩ | ⟨hdisk, hopen⟩
        · rw [hdisk, hopen] at hload
          cases hload
        · rw [hdisk, hopen] at hload
          cases hload

end shared

/-- Files with different endings, and the same files of groups with different places, are different. -/
theorem files_apart {cwd : List Bytes} {dir q q' : Path} {g g' : CString} (h0 : NulFree dir q g) (h0' : NulFree dir q' g')
    (hstate : place cwd (groupStatePath dir q g) ≠ place cwd (groupStatePath dir q' g'))
    (hevents : place cwd (groupEventPath dir q g) ≠ place cwd (groupEventPath dir q' g')) :
    ∀ p ∈ ownPaths dir q g, ∀ p' ∈ [groupEventPath dir q' g', groupStatePath dir q' g', segmentPath dir q, segmentPath dir q'],
      place cwd p ≠ place cwd p' := by
  intro p hp p' hp'
  have hne : ∀ {p p' : Path} {c c' : UInt8}, lastByte (place cwd p) = some c → lastByte (place cwd p') = some c' → c ≠ c' →
      place cwd p ≠ place cwd p' := by
    intro p p' c c' hc hc' hcc heq
    rw [heq, hc', Option.some.injEq] at hc
    exact hcc hc.symm
  have hev : lastByte (place cwd (groupEventPath dir q g)) = some 115 := h0.place_events cwd ▸ lastByte_concat _ _ rfl
  have hst : lastByte (place cwd (groupStatePath dir q g)) = some 101 := h0.place_state cwd ▸ lastByte_concat _ _ rfl
  have htmp : lastByte (place cwd (tmpPath (groupStatePath dir q g))) = some 112 := h0.place_tmp cwd ▸ lastByte_concat _ _ rfl
  have hseg : lastByte (place cwd (segmentPath dir q)) = some 103 := h0.place_segment cwd ▸ lastByte_concat _ _ rfl
  have hev' : lastByte (place cwd (groupEventPath dir q' g')) = some 115 := h0'.place_events cwd ▸ lastByte_concat _ _ rfl
  have hst' : lastByte (place cwd (groupStatePath dir q' g')) = some 101 := h0'.place_state cwd ▸ lastByte_concat _ _ rfl
  have hseg' : lastByte (place cwd (segmentPath dir q')) = some 103 := h0'.place_segment cwd ▸ lastByte_concat _ _ rfl
  simp only [ownPaths, List.mem_cons, List.not_mem_nil, or_false] at hp hp'
  rcases hp with rfl | rfl | rfl
  · rcases hp' with rfl | rfl | rfl | rfl
    · exact hevents
    · exact hne hev hst' (by decide)
    · exact hne hev hseg (by decide)
    · exact hne hev hseg' (by decide)
  · rcases hp' with rfl | rfl | rfl | rfl
    · exact hne hst hev' (by decide)
    · exact hstate
    · exact hne hst hseg (by decide)
    · exact hne hst hseg' (by decide)
  · rcases hp' with rfl | rfl | rfl | rfl
    · exact hne htmp hev' (by decide)
    · exact hne htmp hst' (by decide)
    · exact hne htmp hseg (by decide)
    · exact hne htmp hseg' (by decide)

section converse

variable {cwd : List Bytes} {opts : EngineOptions} {q q' : Path} {g g' : CString} {t : Tree}

/-- If there are no files of a group, operations on an isolated one do not spoil its loads. -/
theorem Isolated.loads (h : Isolated cwd opts q g q' g') {engine : QueueEngine} (hopts : engine.options = opts) (hp : Placed engine)
    (hs : Stands cwd opts.data_dir q q' t) (ops : List (Env × Option Nat × GroupOp))
    (hnone : ∀ p ∈ [groupEventPath opts.data_dir q' g', groupStatePath opts.data_dir q' g'], t.find cwd p = none) {p : Path}
    (hp' : p ∈ [groupEventPath opts.data_dir q' g', groupStatePath opts.data_dir q' g']) {i : Inode}
    (hi : i = .dir ∨ i = .file nineBytes) : (runOnGroup cwd q g ops engine t).2.find cwd p ≠ some i := by
  intro hfind
  obtain ⟨segment, hpath, hoffsets⟩ : ∃ segment : SegmentLog,
      segment.path = segmentPath opts.data_dir q' ∧ segment.offsets = [] :=
    ⟨{ path := segmentPath opts.data_dir q', fsync_policy := opts.fsync_policy }, rfl, rfl⟩
  have hload := h.load engine t ops hopts hp hs {} segment hpath
  dsimp only at hload
  obtain ⟨err, herr⟩ := load_spoiled segment hp' hi hfind
  have hm : readMessages segment (mount cwd t) segment.offsets = .ok [] := by
    rw [hoffsets]
    rfl
  rw [herr, loadGroupState_bare hm (congrArg (Option.map _) (hnone _ (by simp))) (congrArg (Option.map _) (hnone _ (by simp)))] at hload
  cases hload

/-- Where the directories of a group can be, files are in the way only if they are kept on purpose. -/
theorem Creatable.ways_free (hcan : Creatable cwd opts.data_dir q q' (groupEventPath opts.data_dir q g)) (h0 : NulFree opts.data_dir q g)
    (hs : Stands cwd opts.data_dir q q' t) {ks : List (List Bytes)}
    (hks : ∀ k' ∈ ks, t.node k' = some .dir ∨ t.node k' ≠ none ∧ k' ∉ ways cwd (groupEventPath opts.data_dir q g))
    (content : List Bytes → Bytes) : ∀ k ∈ ways cwd (groupEventPath opts.data_dir q g), ∀ c,
      (withQueues cwd opts.data_dir q q' ks content t).node k ≠ some (.file c) := by
  intro k hk c hfile
  obtain ⟨⟨c', hfile'⟩, k', hk', hpre⟩ := Tree.file_of_prune hfile
  rcases List.mem_append.1 hk' with hk' | hk'
  · rcases hs.there hk' hpre with hdir | ⟨-, p, hp, rfl⟩
    · rw [hdir] at hfile'
      cases hfile'
    · -- A segment is on the way, and then the event log cannot be there.
      obtain ⟨t₁, c₁, hs₁, hfind⟩ := hcan
      obtain ⟨c₂, hseg⟩ := hs₁.segments p hp
      have hnul : 0 ∉ groupEventPath opts.data_dir q g := h0.groupFile (by decide)
      have hdir := (Tree.find_some hfind).1 _ (by rwa [upToNul_eq hnul])
      rw [hdir] at hseg
      cases hseg
  · rcases hks k' hk' with hdir | ⟨hthere, hnot⟩
    · rw [t.dir_of_prefix hpre hdir] at hfile'
      cases hfile'
    · by_cases heq : k = k'
      · exact hnot (heq ▸ hk)
      · rw [t.above hpre heq hthere] at hfile'
        cases hfile'

theorem ways_group (h0 : NulFree opts.data_dir q g) {p : Path}
    (hp : p ∈ [groupEventPath opts.data_dir q g, groupStatePath opts.data_dir q g]) :
    ways cwd (upToNul p) = ways cwd (join (join opts.data_dir q) g.1) := by
  simp only [List.mem_cons, List.not_mem_nil, or_false] at hp
  rcases hp with rfl | rfl
  · exact (congrArg _ (upToNul_eq (h0.groupFile (by decide)))).trans (ways_groupFile (by decide) ..)
  · exact (congrArg _ (upToNul_eq (h0.groupFile (by decide)))).trans (ways_groupFile (by decide) ..)

/-- A file of a group is not on the way to one of its files. -/
theorem Isolated.free (h : Isolated cwd opts q g q' g') (h0 : NulFree opts.data_dir q g) (h0' : NulFree opts.data_dir q' g')
    (hcan' : ∀ p ∈ [groupEventPath opts.data_dir q' g', groupStatePath opts.data_dir q' g'], Creatable cwd opts.data_dir q q' p)
    {p p' : Path} (hp : p ∈ [groupEventPath opts.data_dir q' g', groupStatePath opts.data_dir q' g'])
    (hp' : p' ∈ [groupEventPath opts.data_dir q' g', groupStatePath opts.data_dir q' g']) :
    ∀ k ∈ standing cwd opts.data_dir q q' ++ ways cwd (upToNul p'), ¬ place cwd p <+: k := by
  rw [ways_group h0' hp', ← ways_group h0' hp]
  refine (hcan' p hp).free fun p₁ hp₁ => files_apart h0' h0 h.state.symm h.events.symm p ?_ p₁ ?_
  · simp only [ownPaths, List.mem_cons, List.not_mem_nil, or_false] at hp ⊢
    tauto
  · simp only [List.mem_cons, List.not_mem_nil, or_false] at hp₁ ⊢
    tauto

/-- A `Consume` makes a directory of its group, and then the other group cannot have a file there. -/
theorem Isolated.dirs (h : Isolated cwd opts q g q' g') (h0 : NulFree opts.data_dir q g) (h0' : NulFree opts.data_dir q' g')
    (hmax : 0 < opts.max_inflight) (hcan : Creatable cwd opts.data_dir q q' (groupEventPath opts.data_dir q g))
    (hcan' : ∀ p ∈ [groupEventPath opts.data_dir q' g', groupStatePath opts.data_dir q' g'], Creatable cwd opts.data_dir q q' p) :
    ∀ k, Made cwd opts.data_dir q q' g k →
      ∀ p' ∈ [groupEventPath opts.data_dir q' g', groupStatePath opts.data_dir q' g'], place cwd p' ≠ k := by
  intro k hk p' hp' hplace
  have hfiles := files_apart h0 h0' h.state h.events
  obtain ⟨t, c, hs, hfind⟩ := hcan' p' hp'
  have hways := (Tree.find_some hfind).1
  generalize ht₁ : withQueues cwd opts.data_dir q q' (ways cwd (upToNul p')) (fun _ => messageBytes) t = t₁
  have hs₁ : Stands cwd opts.data_dir q q' t₁ := ht₁ ▸ hs.pruned _ _
  have hnone : ∀ p ∈ [groupEventPath opts.data_dir q' g', groupStatePath opts.data_dir q' g'], t₁.find cwd p = none :=
    fun p hp => Tree.find_none (ht₁ ▸ withQueues_none (h.free h0 h0' hcan' hp hp') _ t)
  obtain ⟨engine, ops, hopts, hplaced, hmade, hchanges⟩ := hs₁.makes (ht₁ ▸ hs.segment _ _ (by simp)) h0 hmax
    (fun p hp p₁ hp₁ => hfiles p hp p₁ (List.mem_cons_of_mem _ (List.mem_cons_of_mem _ hp₁)))
    (ht₁ ▸ hcan.ways_free h0 hs (fun k₁ hk₁ => .inl (hways k₁ hk₁)) _)
  refine h.loads hopts hplaced hs₁ ops hnone hp' (.inl rfl) ?_
  have hreach : (runOnGroup cwd q g ops engine t₁).2.reaches cwd p' = true := by
    refine (Tree.reaches_iff _ _ _).2 fun k₁ hk₁ => hchanges.stay k₁ ?_
    rw [← ht₁]
    exact t.prune_dir ⟨k₁, List.mem_append_right _ hk₁, List.prefix_rfl⟩ (hways k₁ hk₁) _
  rw [Tree.find, if_pos hreach, hplace, hmade k hk.1]

/-- A `Consume` makes the directories that are missing on the way to a file, and then the other group finds it. -/
theorem Isolated.passed (h : Isolated cwd opts q g q' g') (h0 : NulFree opts.data_dir q g) (h0' : NulFree opts.data_dir q' g')
    (hmax : 0 < opts.max_inflight) (hcan : Creatable cwd opts.data_dir q q' (groupEventPath opts.data_dir q g))
    (hcan' : ∀ p ∈ [groupEventPath opts.data_dir q' g', groupStatePath opts.data_dir q' g'], Creatable cwd opts.data_dir q q' p) :
    ∀ k, Made cwd opts.data_dir q q' g k → ∀ p' ∈ [groupEventPath opts.data_dir q' g', groupStatePath opts.data_dir q' g'],
      k ∈ ways cwd (upToNul p') →
        (∀ k' ∈ ways cwd (upToNul p'), k <+: k' → k' ∈ ways cwd (groupEventPath opts.data_dir q g)) → k <+: place cwd p' := by
  intro k hk p' hp' hmem hbelow
  by_contra hout
  have hfiles := files_apart h0 h0' h.state h.events
  have hfree := h.free h0 h0' hcan' hp' hp'
  obtain ⟨t, c, hs, hfind⟩ := hcan' p' hp'
  obtain ⟨hways, hfile⟩ := Tree.find_some hfind
  -- The directory is missing, and all else that leads to the file is there.
  generalize hks : place cwd p' :: (ways cwd (upToNul p')).filter (fun k' => ¬ k <+: k') = ks
  generalize ht₁ : withQueues cwd opts.data_dir q q' ks
    (fun k' => if k' = place cwd p' then nineBytes else messageBytes) t = t₁
  have hs₁ : Stands cwd opts.data_dir q q' t₁ := ht₁ ▸ hs.pruned _ _
  have hmissing : t₁.node k = none := by
    rw [← ht₁, ← hks]
    refine withQueues_none (fun k' hk' => ?_) _ t
    rcases List.mem_append.1 hk' with hk' | hk'
    · exact hk.2 k' hk'
    · rcases List.mem_cons.1 hk' with rfl | hk'
      · exact hout
      · exact of_decide_eq_true (List.mem_filter.1 hk').2
  have hnone : ∀ p ∈ [groupEventPath opts.data_dir q' g', groupStatePath opts.data_dir q' g'], t₁.find cwd p = none := by
    intro p hp
    refine if_neg fun hreach => ?_
    have hdir := (t₁.reaches_iff cwd p).1 hreach k (by rwa [ways_group h0' hp, ← ways_group h0' hp'])
    rw [hmissing] at hdir
    cases hdir
  have hone : t₁.node (place cwd (segmentPath opts.data_dir q)) = some (.file messageBytes) := by
    have hne : place cwd (segmentPath opts.data_dir q) ≠ place cwd p' := fun heq =>
      hfree (place cwd (segmentPath opts.data_dir q)) (by simp [standing]) (heq ▸ List.prefix_rfl)
    rw [← ht₁, hs.segment _ _ (by simp), if_neg hne]
  have hnot : ¬ Made cwd opts.data_dir q q' g (place cwd p') := fun hm => h.dirs h0 h0' hmax hcan hcan' _ hm p' hp' rfl
  obtain ⟨engine, ops, hopts, hplaced, hmade, hchanges⟩ := hs₁.makes hone h0 hmax
    (fun p hp p₁ hp₁ => hfiles p hp p₁ (List.mem_cons_of_mem _ (List.mem_cons_of_mem _ hp₁)))
    (ht₁ ▸ hcan.ways_free h0 hs (fun k₁ hk₁ => by
      rw [← hks, List.mem_cons] at hk₁
      rcases hk₁ with rfl | hk₁
      · refine .inr ⟨by rw [hfile]; simp, fun hin => hnot ⟨hin, fun k' hk' => ?_⟩⟩
        exact hfree k' (List.mem_append_left _ hk')
      · exact .inl (hways k₁ (List.mem_filter.1 hk₁).1)) _)
  refine h.loads hopts hplaced hs₁ ops hnone hp' (.inr rfl) ?_
  have hreach : (runOnGroup cwd q g ops engine t₁).2.reaches cwd p' = true := by
    refine (Tree.reaches_iff _ _ _).2 fun k₁ hk₁ => ?_
    by_cases hpre : k <+: k₁
    · exact hmade k₁ (hbelow k₁ hk₁ hpre)
    · refine hchanges.stay k₁ ?_
      rw [← ht₁, ← hks]
      refine t.prune_dir ⟨k₁, ?_, List.prefix_rfl⟩ (hways k₁ hk₁) _
      exact List.mem_append_right _ (List.mem_cons_of_mem _ (List.mem_filter.2 ⟨hk₁, decide_eq_true hpre⟩))
  have hown : ¬ ∃ p ∈ ownPaths opts.data_dir q g, place cwd p = place cwd p' := by
    rintro ⟨p, hp, heq⟩
    refine hfiles p hp p' ?_ heq
    simp only [List.mem_cons, List.not_mem_nil, or_false] at hp' ⊢
    tauto
  rw [Tree.find, if_pos hreach, hchanges.rest _ hown hnot, ← ht₁, ← hks]
  refine (t.prune_file ⟨place cwd p', ?_, List.prefix_rfl⟩ hfile _).trans ?_
  · exact List.mem_append_right _ List.mem_cons_self
  · rw [if_pos rfl]

end converse

/-! ## When groups are isolated -/

/-- Pairs that are apart are isolated. If no name has a NUL byte and the files can be there, only these are. -/
theorem groups_isolated (cwd : List Bytes) (opts : EngineOptions) (q : Path) (g : CString) (q' : Path) (g' : CString) :
    (Separate cwd opts.data_dir q g q' g' → Isolated cwd opts q g q' g') ∧
      (NulFree opts.data_dir q g → NulFree opts.data_dir q' g' → 0 < opts.max_inflight →
        Creatable cwd opts.data_dir q q' (groupEventPath opts.data_dir q g) →
        (∀ p ∈ [groupEventPath opts.data_dir q' g', groupStatePath opts.data_dir q' g'], Creatable cwd opts.data_dir q q' p) →
        Isolated cwd opts q g q' g' → Separate cwd opts.data_dir q g q' g') :=
  ⟨Separate.isolated, fun h0 h0' hmax hcan hcan' h =>
    ⟨files_apart h0 h0' h.state h.events, h.dirs h0 h0' hmax hcan hcan', h.passed h0 h0' hmax hcan hcan'⟩⟩

/-- The directory of group `b.state/c` is where the snapshot of group `b` should be. -/
example : ¬ Separate [] [] (ascii "a") ⟨ascii "b.state/c", by decide⟩ (ascii "a") ⟨ascii "b", by decide⟩ := fun h =>
  h.dirs [ascii "a", ascii "b.state"] ⟨by decide, by decide⟩ (groupStatePath [] (ascii "a") ⟨ascii "b", by decide⟩)
    (by decide) (by decide)

/-- Queue names that are one part and group ids without a slash keep groups apart. -/
theorem separate_plain {cwd : List Bytes} {dir q q' : Path} {g g' : CString} (h0 : NulFree dir q g) (h0' : NulFree dir q' g')
    (hq : Plain q) (hq' : Plain q') (hg : 47 ∉ g.1) (hg' : 47 ∉ g'.1) (hne : ¬ (q = q' ∧ g = g')) :
    Separate cwd dir q g q' g' := by
  have hplace : ∀ s : Bytes, (groupPlace cwd dir q g).1 ++ [(groupPlace cwd dir q g).2 ++ s] ≠
      (groupPlace cwd dir q' g').1 ++ [(groupPlace cwd dir q' g').2 ++ s] :=
    fun s heq => hne (groupPlace_injective hq hq' hg hg' (place_inj heq))
  have hmade : ∀ k, ¬ Made cwd dir q q' g k := by
    rintro k ⟨hk, hfree⟩
    obtain ⟨f, hf, rfl⟩ := List.mem_map.1 hk
    rcases fronts_join hf (ascii "seg-000001.log") (by decide) with rfl | hseg | ⟨f', -, hf', -⟩
    · exact hfree cwd (by simp [standing]) List.prefix_rfl
    · have hway : place cwd f ∈ ways cwd (segmentPath dir q) := List.mem_map_of_mem hseg
      exact hfree _ (by simp [standing, hway]) List.prefix_rfl
    · obtain ⟨y, hy⟩ := (mem_fronts _ _).1 hf'
      have hmem : 47 ∈ g.1 ++ ascii ".events" := by
        rw [hy]
        simp
      exact (List.mem_append.1 hmem).elim hg (by decide)
  refine ⟨files_apart h0 h0' ?_ ?_, fun k hk => absurd hk (hmade k), fun k hk => absurd hk (hmade k)⟩
  · rw [h0.place_state, h0'.place_state]
    exact hplace _
  · rw [h0.place_events, h0'.place_events]
    exact hplace _

/-- A queue `a` with two files. -/
def twoFiles (x y : Bytes) : Tree :=
  (((Tree.bare.mkdir [ascii "a"]).put [ascii "a", ascii "seg-000001.log"] []).put [ascii "a", x] []).put [ascii "a", y] []

theorem groups_isolated_two : Isolated [] {} (ascii "a") ⟨ascii "b", by decide⟩ (ascii "a") ⟨ascii "c", by decide⟩ ∧
    Separate [] [] (ascii "a") ⟨ascii "b", by decide⟩ (ascii "a") ⟨ascii "c", by decide⟩ := by
  have h := groups_isolated [] {} (ascii "a") ⟨ascii "b", by decide⟩ (ascii "a") ⟨ascii "c", by decide⟩
  have h0 : NulFree [] (ascii "a") ⟨ascii "b", by decide⟩ := ⟨by decide, by decide, by decide⟩
  have h0' : NulFree [] (ascii "a") ⟨ascii "c", by decide⟩ := ⟨by decide, by decide, by decide⟩
  have hisolated := h.1 (separate_plain h0 h0' (by decide) (by decide) (by decide) (by decide) (by decide))
  have hcan : ∀ x y : Bytes, (∀ p ∈ [join (join [] (ascii "a")) x, join (join [] (ascii "a")) y],
      (twoFiles x y).find [] p = some (.file [])) → Stands [] [] (ascii "a") (ascii "a") (twoFiles x y) →
      ∀ p ∈ [join (join [] (ascii "a")) x, join (join [] (ascii "a")) y], Creatable [] [] (ascii "a") (ascii "a") p :=
    fun x y hfind hs p hp => ⟨twoFiles x y, [], hs, hfind p hp⟩
  refine ⟨hisolated, h.2 h0 h0' (by decide)
    (hcan (ascii "b.events") (ascii "b.state") (by decide) ⟨by decide, by decide, ?_⟩ _ (by decide))
    (hcan (ascii "c.events") (ascii "c.state") (by decide) ⟨by decide, by decide, ?_⟩) hisolated⟩
  · exact fun p hp => ⟨[], by revert p; decide⟩
  · exact fun p hp => ⟨[], by revert p; decide⟩

/-- Group `b/c` of queue `a` has the files of group `c` of queue `a/b`. -/
theorem shared_files :
    groupStatePath [] (ascii "a") ⟨ascii "b/c", by decide⟩ = groupStatePath [] (ascii "a/b") ⟨ascii "c", by decide⟩ ∧
      ¬ Isolated [] {} (ascii "a") ⟨ascii "b/c", by decide⟩ (ascii "a/b") ⟨ascii "c", by decide⟩ :=
  ⟨by decide, fun h => h.state (by decide)⟩

end PomaiQueue.Engine
