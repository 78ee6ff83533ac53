import PomaiQueue.Lib.Footprint
import PomaiQueue.Api
import PomaiQueue.Isolation
/-!
# What a request depends on

A request for a group of a queue looks at the queue's segment, at the group, and at
their files, and it changes nothing else. `perform_local`: on two engines that are
alike in these it is answered alike, makes the same system calls and leaves them
alike. `perform_other`: a request for another group or queue leaves them as they are.

The names have to be one part of a path each (`Plain`), or other names could lead to
the same files.
-/

namespace PomaiQueue.Engine

open Wire Posix Assoc Storage

/-! ## The files of a group and its queue -/

/-- The segment of the queue, in whatever data directory. -/
def OfQueue (q : Path) (p : Path) : Prop := ∃ dir, p = segmentPath dir q

/-- The event log, the snapshot or the temporary file of the group. -/
def OfGroup (q : Path) (g : CString) (p : Path) : Prop := ∃ dir, ¬ Aside (groupFiles dir q g) p

def Owned (q : Path) (g : CString) (p : Path) : Prop := OfQueue q p ∨ OfGroup q g p

theorem not_aside {dir q : Path} {g : CString} {p : Path} (h : ¬ Aside (groupFiles dir q g) p) :
    p = groupEventPath dir q g ∨ p = groupStatePath dir q g ∨ p = tmpPath (groupStatePath dir q g) := by
  by_contra hne
  rw [not_or, not_or] at hne
  exact h ⟨hne.1, hne.2.1, hne.2.2⟩

theorem enter_plain {name : Path} (h : Plain name) (dir : List Bytes) : enter dir name = dir ++ [name] := by
  obtain ⟨hslash, h0, h1, h2⟩ := h
  have hstart : startOf dir name = dir := by
    refine if_neg fun hc => hslash ?_
    obtain ⟨t, rfl⟩ := List.head?_eq_some_iff.1 hc
    exact List.mem_cons_self
  rw [enter, hstart, parts_of_no_slash hslash, List.foldl_cons, List.foldl_nil, enterPart, if_neg (by simp [h0, h1]), if_neg h2]

/-- The group is in the directory of the queue. -/
theorem groupPlace_plain {q : Path} {g : CString} (hq : Plain q) (hg : 47 ∉ g.1) (cwd : List Bytes) (dir : Path) :
    groupPlace cwd dir q g = (enter cwd dir ++ [q], g.1) := by
  have hstart : startOf (enter cwd dir ++ [q]) g.1 = enter cwd dir ++ [q] := by
    refine if_neg fun hc => hg ?_
    obtain ⟨t, ht⟩ := List.head?_eq_some_iff.1 hc
    rw [ht]
    exact List.mem_cons_self
  rw [groupPlace, enter_plain hq, leaf, hstart, parts_of_no_slash hg]
  rfl

section names

variable {q q' : Path} {g g' : CString} {p : Path}

/-- Files that are called alike belong to the same group. -/
theorem names_of_place (hq : Plain q) (hq' : Plain q') (hg : 47 ∉ g.1) (hg' : 47 ∉ g'.1) (dir dir' : Path) (s : Bytes)
    (h : (groupPlace [] dir q g).1 ++ [(groupPlace [] dir q g).2 ++ s] =
      (groupPlace [] dir' q' g').1 ++ [(groupPlace [] dir' q' g').2 ++ s]) : q = q' ∧ g = g' := by
  have hplace := place_inj h
  rw [Prod.mk.eta, Prod.mk.eta, groupPlace_plain hq hg, groupPlace_plain hq' hg', Prod.mk.injEq] at hplace
  have hlast := (List.append_inj' hplace.1 rfl).2
  exact ⟨List.singleton_inj.1 hlast, Subtype.ext hplace.2⟩

theorem OfGroup.names (h : OfGroup q g p) (h' : OfGroup q' g' p) (hq : Plain q) (hq' : Plain q') (hg : 47 ∉ g.1)
    (hg' : 47 ∉ g'.1) : q = q' ∧ g = g' := by
  obtain ⟨dir, hp⟩ := h
  obtain ⟨dir', hp'⟩ := h'
  rcases not_aside hp with rfl | rfl | rfl
  · rcases not_aside hp' with h | h | h
    · apply names_of_place hq hq' hg hg' dir dir' (ascii ".events")
      rw [← enter_groupEventPath, ← enter_groupEventPath, h]
    · exact absurd h (ne_of_getLast? (groupEventPath_getLast? dir q g) (groupStatePath_getLast? dir' q' g') (by decide))
    · exact absurd h (ne_of_getLast? (groupEventPath_getLast? dir q g) (tmpPath_getLast? _) (by decide))
  · rcases not_aside hp' with h | h | h
    · exact absurd h (ne_of_getLast? (groupStatePath_getLast? dir q g) (groupEventPath_getLast? dir' q' g') (by decide))
    · apply names_of_place hq hq' hg hg' dir dir' (ascii ".state")
      rw [← enter_groupStatePath, ← enter_groupStatePath, h]
    · exact absurd h (ne_of_getLast? (groupStatePath_getLast? dir q g) (tmpPath_getLast? _) (by decide))
  · rcases not_aside hp' with h | h | h
    · exact absurd h (ne_of_getLast? (tmpPath_getLast? _) (groupEventPath_getLast? dir' q' g') (by decide))
    · exact absurd h (ne_of_getLast? (tmpPath_getLast? _) (groupStatePath_getLast? dir' q' g') (by decide))
    · apply names_of_place hq hq' hg hg' dir dir' (ascii ".state.tmp")
      rw [← enter_tmpPath, ← enter_tmpPath, h]

theorem OfQueue.name (h : OfQueue q p) (h' : OfQueue q' p) (hq : Plain q) (hq' : Plain q') : q = q' := by
  obtain ⟨dir, rfl⟩ := h
  obtain ⟨dir', h'⟩ := h'
  have hplace := congrArg (enter []) h'
  rw [enter_segmentPath, enter_segmentPath, enter_plain hq, enter_plain hq'] at hplace
  have hdirs := (List.append_inj' hplace rfl).1
  exact List.singleton_inj.1 (List.append_inj' hdirs rfl).2

theorem OfQueue.not_ofGroup (h : OfQueue q p) : ¬ OfGroup q' g' p := by
  rintro ⟨dir', hp⟩
  obtain ⟨dir, rfl⟩ := h
  rcases not_aside hp with h | h | h
  · exact absurd h (ne_of_getLast? (segmentPath_getLast? dir q) (groupEventPath_getLast? dir' q' g') (by decide))
  · exact absurd h (ne_of_getLast? (segmentPath_getLast? dir q) (groupStatePath_getLast? dir' q' g') (by decide))
  · exact absurd h (ne_of_getLast? (segmentPath_getLast? dir q) (tmpPath_getLast? _) (by decide))

end names

theorem owned_segment (dir q : Path) (g : CString) : Owned q g (segmentPath dir q) := .inl ⟨dir, rfl⟩

theorem owned_events (dir q : Path) (g : CString) : Owned q g (groupEventPath dir q g) := .inr ⟨dir, fun h => h.events rfl⟩

theorem owned_state (dir q : Path) (g : CString) : Owned q g (groupStatePath dir q g) := .inr ⟨dir, fun h => h.state rfl⟩

/-! ## What does not look at the files -/

/-- The same answer and the same calls on all files. -/
def Blind {ρ : Type} (f : Fs → ρ × Fs) : Prop := ∃ r calls, ∀ fs, f fs = (r, fs.after calls)

/-- The same for what also changes a group. -/
def BlindOn {ρ : Type} (f : Fs → ρ × ConsumerGroupState × Fs) : Prop := ∃ r group calls, ∀ fs, f fs = (r, group, fs.after calls)

theorem call_eq_after (fs : Fs) (c : Call) : fs.call c = fs.after [c] := rfl

theorem call_call (fs : Fs) (c c' : Call) : (fs.call c).call c' = fs.after [c, c'] := Fs.after_after fs [c] [c']

theorem blind_return {ρ : Type} (r : ρ) : Blind fun fs => (r, fs) := ⟨r, [], fun fs => by rw [Fs.after_nil]⟩

theorem blind_after {ρ : Type} (r : ρ) (calls : List Call) : Blind fun fs => (r, fs.after calls) := ⟨r, calls, fun _ => rfl⟩

theorem blindOn_return {ρ : Type} (r : ρ) (group : ConsumerGroupState) : BlindOn fun fs => (r, group, fs) :=
  ⟨r, group, [], fun fs => by rw [Fs.after_nil]⟩

theorem blindOn_after {ρ : Type} (r : ρ) (group : ConsumerGroupState) (calls : List Call) :
    BlindOn fun fs => (r, group, fs.after calls) :=
  ⟨r, group, calls, fun _ => rfl⟩

theorem fsyncFile_blind (io : Io) (path : Path) : Blind (fsyncFile io path) := by
  unfold fsyncFile
  split
  · exact blind_return _
  · split
    · exact blind_return _
    · exact ⟨_, [.fsync path], fun fs => rfl⟩

theorem fsyncDir_blind (io : Io) (dir : Path) : Blind (fsyncDir io dir) := by
  unfold fsyncDir
  split
  · exact blind_return _
  · split
    · exact blind_return _
    · exact blind_return _
    · exact ⟨_, [.fsyncDir dir], fun fs => rfl⟩

theorem durableRename_blind (io : Io) (tmp_path final_path : Path) (policy : FsyncPolicy) :
    Blind (durableRename io tmp_path final_path policy) := by
  have hsync : Blind fun fs => if policy ≠ .kNever then
      if io.fault (.fsync tmp_path) = some 0 then ((ioError "open tmp for fsync failed" : StatusOr Unit), fs)
      else fsyncFile io tmp_path fs
    else (.ok (), fs) := by
    split
    · split
      · exact blind_return _
      · exact fsyncFile_blind io tmp_path
    · exact blind_return _
  obtain ⟨r, calls, hsync⟩ := hsync
  dsimp only at hsync
  unfold durableRename
  cases r with
  | error e => exact ⟨.error e, calls, fun fs => by simp only [hsync]⟩
  | ok u =>
    by_cases hr : (io.fault (.rename tmp_path final_path)).isSome
    · exact ⟨_, calls, fun fs => by simp only [hsync, hr, if_true]; rfl⟩
    · by_cases hpolicy : policy ≠ .kNever
      · obtain ⟨r', calls', hdir⟩ := fsyncDir_blind io (parentPath final_path)
        refine ⟨r', calls ++ ([.rename tmp_path final_path] ++ calls'), fun fs => ?_⟩
        simp only [hsync, hr, Bool.false_eq_true, if_false]
        rw [if_pos hpolicy, hdir, call_eq_after, Fs.after_after, Fs.after_after]
      · refine ⟨.ok (), calls ++ [.rename tmp_path final_path], fun fs => ?_⟩
        simp only [hsync, hr, Bool.false_eq_true, if_false]
        rw [if_neg hpolicy, call_eq_after, Fs.after_after]

theorem durableWriteFile_blind (io : Io) (sizes : List Nat) (noticed : Option String) (final_path : Path) (data : Bytes)
    (policy : FsyncPolicy) : Blind (durableWriteFile io sizes noticed final_path data policy) := by
  unfold durableWriteFile
  dsimp only
  split
  · exact blind_return _
  cases io.fault (.write (tmpPath final_path) 0 data) with
  | some n =>
    simp only [call_call]
    exact blind_after _ _
  | none =>
    obtain ⟨r, calls, hren⟩ := durableRename_blind io (tmpPath final_path) final_path policy
    refine ⟨r, [.trunc (tmpPath final_path)] ++ writeCalls (tmpPath final_path) 0 (pieces sizes data) ++ calls, fun fs => ?_⟩
    have hfs : ({ fs.call (.trunc (tmpPath final_path)) with
        calls := (fs.call (.trunc (tmpPath final_path))).calls ++ writeCalls (tmpPath final_path) 0 (pieces sizes data) } : Fs) =
        fs.after ([.trunc (tmpPath final_path)] ++ writeCalls (tmpPath final_path) 0 (pieces sizes data)) := by
      simp [Fs.call, Fs.after]
    dsimp only at hren ⊢
    rw [hfs, hren, Fs.after_after]

section group

variable (env : Env) (opts : EngineOptions) (q : Path) (g : CString)

theorem persistGroupState_blind (group : ConsumerGroupState) : Blind (persistGroupState env opts q g group) := by
  unfold persistGroupState
  split
  · exact blind_return _
  · exact durableWriteFile_blind _ _ _ _ _ _

theorem appendTransition_blind (group : ConsumerGroupState) (event : TransitionEvent) :
    BlindOn (appendTransition env opts q g group event) := by
  unfold appendTransition
  dsimp only
  split
  · exact blindOn_return _ _
  · split
    · exact blindOn_return _ _
    · split
      · simp only [call_call]
        exact blindOn_after _ _ _
      · simp only [call_call]
        split
        · exact blindOn_after _ _ _
        · exact blindOn_after _ _ _

theorem reapOne_blind (now : UInt64) (id : MessageId) (group : ConsumerGroupState) :
    Blind (reapOne env opts q g now id group) := by
  unfold reapOne
  split
  · exact blind_return _
  · split
    · exact blind_return _
    · split
      · exact blind_return _
      · split
        · exact blind_return _
        · dsimp only
          split
          · exact blind_return _
          · obtain ⟨r, a, calls, h⟩ := appendTransition_blind env opts q g (bump group)
              (timeoutEvent opts now group.next_sequence id ‹_›)
            exact ⟨a, calls, fun fs => by simp only [h]⟩

theorem reapBucket_blind (now : UInt64) (bucket : List MessageId) (group : ConsumerGroupState) :
    Blind (reapBucket env opts q g now bucket group) := by
  induction bucket generalizing group with
  | nil => exact blind_return group
  | cons id bucket ih =>
    obtain ⟨a, calls, h⟩ := reapOne_blind env opts q g now id group
    obtain ⟨b, calls', h'⟩ := ih a
    exact ⟨b, calls ++ calls', fun fs => by rw [reapBucket, h]; dsimp only; rw [h', Fs.after_after]⟩

theorem reapTicks_blind (now : UInt64) (rounds : Nat) (group : ConsumerGroupState) :
    Blind (reapTicks env opts q g now rounds group) := by
  induction rounds generalizing group with
  | zero => exact blind_return group
  | succ rounds ih =>
    obtain ⟨a, calls, h⟩ := reapBucket_blind env opts q g now
      (group.deadline_wheel.getD (slotOf group group.wheel_base_tick) [])
      { group with deadline_wheel := group.deadline_wheel.set (slotOf group group.wheel_base_tick) [] }
    obtain ⟨b, calls', h'⟩ := ih { a with wheel_base_tick := a.wheel_base_tick + 1 }
    exact ⟨b, calls ++ calls', fun fs => by rw [reapTicks, h]; dsimp only; rw [h', Fs.after_after]⟩

theorem reapExpiredInflight_blind (group : ConsumerGroupState) : Blind (reapExpiredInflight env opts q g group) := by
  unfold reapExpiredInflight
  dsimp only
  generalize (if group.deadline_wheel.isEmpty then initScheduler env opts group else group) = start
  obtain ⟨a, calls, h⟩ := reapTicks_blind env opts q g (env.now .reapExpiredInflight)
    ((env.now .reapExpiredInflight / opts.tickMs).toNat + 1 - start.wheel_base_tick.toNat) start
  exact ⟨buildReadyQueue env a, calls, fun fs => by simp only [h]⟩

theorem commit_blind (group : ConsumerGroupState) (event : TransitionEvent) (rebuild : Bool) :
    BlindOn (commit env opts q g group event rebuild) := by
  obtain ⟨r, a, calls, h⟩ := appendTransition_blind env opts q g group event
  cases r with
  | error e => exact ⟨.error e, a, calls, fun fs => by rw [commit, h]⟩
  | ok u =>
    obtain ⟨r', calls', h'⟩ := persistGroupState_blind env opts q g (if rebuild then buildReadyQueue env a else a)
    cases r' with
    | error e => exact ⟨_, _, calls ++ calls', fun fs => by rw [commit, h]; dsimp only; rw [h', Fs.after_after]⟩
    | ok v => exact ⟨_, _, calls ++ calls', fun fs => by rw [commit, h]; dsimp only; rw [h', Fs.after_after]⟩

theorem ackGroup_blind (id : MessageId) (group : ConsumerGroupState) : BlindOn (ackGroup env opts q g id group) := by
  unfold ackGroup
  split
  · exact blindOn_return _ _
  · split
    · exact blindOn_return _ _
    · dsimp only
      split
      · exact blindOn_return _ _
      · exact commit_blind env opts q g _ _ _

theorem nackGroup_blind (id : MessageId) (requeue : Bool) (group : ConsumerGroupState) :
    BlindOn (nackGroup env opts q g id requeue group) := by
  unfold nackGroup
  split
  · exact blindOn_return _ _
  · split
    · exact blindOn_return _ _
    · dsimp only
      split
      · exact blindOn_return _ _
      · exact commit_blind env opts q g _ _ _

theorem getStatsGroup_blind (group : ConsumerGroupState) : BlindOn (getStatsGroup env opts q g group) := by
  obtain ⟨a, calls, h⟩ := reapExpiredInflight_blind env opts q g group
  exact ⟨.ok (groupStats env a), a, calls, fun fs => by rw [getStatsGroup, h]⟩

theorem deliver_blind (offset : UInt64) (record : Record) (group : ConsumerGroupState) :
    BlindOn (deliver env opts q g offset record group) := by
  unfold deliver
  dsimp only
  generalize (if (group.runtime.lookup (idOf record)).isNone then _ else group) = met
  generalize ((group.runtime.lookup (idOf record)).getD _) = rt
  split
  · exact blindOn_return _ _
  · obtain ⟨r, a, calls, h⟩ := appendTransition_blind env opts q g (bump met)
      (deliverEvent opts g (env.now .consume) met.next_sequence (idOf record) rt)
    cases r with
    | error e => exact ⟨.error e, a, calls, fun fs => by simp only [h]⟩
    | ok u =>
      obtain ⟨r', calls', h'⟩ := persistGroupState_blind env opts q g a
      cases r' with
      | error e => exact ⟨_, _, calls ++ calls', fun fs => by simp only [h, h', Fs.after_after]; rfl⟩
      | ok v => exact ⟨_, _, calls ++ calls', fun fs => by simp only [h, h', Fs.after_after]; rfl⟩

/-- `Consume` also looks at the segment. -/
theorem consumeGroup_local {segment : SegmentLog} (group : ConsumerGroupState) {fs fs' : Fs}
    (hseg : Aside (groupFiles opts.data_dir q g) segment.path) (h : fs.content segment.path = fs'.content segment.path) :
    ∃ r a calls, consumeGroup env opts q g segment group fs = (r, a, fs.after calls) ∧
      consumeGroup env opts q g segment group fs' = (r, a, fs'.after calls) := by
  obtain ⟨a, calls, hreap⟩ := reapExpiredInflight_blind env opts q g group
  -- What is reaped goes to the event log.
  have hkeeps : ∀ fs : Fs, (fs.after calls).content segment.path = fs.content segment.path := by
    intro fs
    obtain ⟨labels, hdoes, -⟩ : Does env opts q g (segment.read fs) .consume group fs _ _ _ :=
      reapExpiredInflight_does (.inl rfl) group fs
    have hdisk := hdoes.disk_aside hseg
    rw [hreap] at hdisk
    rw [Fs.content, hdisk, Fs.content]
  have hread : segment.read (fs.after calls) = segment.read (fs'.after calls) :=
    SegmentLog.read_congr (by rw [hkeeps, hkeeps, h])
  simp only [consumeGroup, hreap]
  split
  · exact ⟨_, _, calls, rfl, rfl⟩
  · split
    · exact ⟨_, _, calls, rfl, rfl⟩
    · rename_i offset offsets hoff
      rw [hread]
      split
      · exact ⟨_, _, calls, rfl, rfl⟩
      · rename_i record hrec
        obtain ⟨r, b, calls', hdel⟩ := deliver_blind env opts q g offset record { a with ready_offsets := offsets }
        exact ⟨r, b, calls ++ calls', by rw [hdel, Fs.after_after], by rw [hdel, Fs.after_after]⟩

/-- An operation on a group looks at the segment and the group. -/
theorem groupOp_local (op : GroupOp) {segment : SegmentLog} (group : ConsumerGroupState) {fs fs' : Fs}
    (hseg : Aside (groupFiles opts.data_dir q g) segment.path) (h : fs.content segment.path = fs'.content segment.path) :
    ∃ r a calls, groupOp env opts q g op segment group fs = (r, a, fs.after calls) ∧
      groupOp env opts q g op segment group fs' = (r, a, fs'.after calls) := by
  cases op with
  | consume =>
    obtain ⟨r, a, calls, h1, h2⟩ := consumeGroup_local env opts q g group hseg h
    exact ⟨r.map .consumed, a, calls, by rw [groupOp, h1]; rfl, by rw [groupOp, h2]; rfl⟩
  | ack id =>
    obtain ⟨r, a, calls, hblind⟩ := ackGroup_blind env opts q g id group
    exact ⟨r.map fun _ => .done, a, calls, by rw [groupOp, hblind]; rfl, by rw [groupOp, hblind]; rfl⟩
  | nack id requeue =>
    obtain ⟨r, a, calls, hblind⟩ := nackGroup_blind env opts q g id requeue group
    exact ⟨r.map fun _ => .done, a, calls, by rw [groupOp, hblind]; rfl, by rw [groupOp, hblind]; rfl⟩
  | getStats =>
    obtain ⟨r, a, calls, hblind⟩ := getStatsGroup_blind env opts q g group
    exact ⟨r.map .stats, a, calls, by rw [groupOp, hblind]; rfl, by rw [groupOp, hblind]; rfl⟩

end group

/-! ## The segment -/

theorem writeAll_blind (path : Path) (ws : List Nat) (pos : Nat) (data : Bytes) :
    ∃ done pos' calls, ∀ fs, SegmentLog.writeAll path ws pos data fs = (done, pos', fs.after calls) := by
  induction ws generalizing pos data with
  | nil =>
    simp only [SegmentLog.writeAll]
    split
    · exact ⟨_, _, [], fun fs => by rw [Fs.after_nil]⟩
    · exact ⟨_, _, [_], fun fs => rfl⟩
  | cons w ws ih =>
    simp only [SegmentLog.writeAll]
    split
    · exact ⟨_, _, [], fun fs => by rw [Fs.after_nil]⟩
    · obtain ⟨done, pos', calls, h⟩ := ih (pos + min (min w data.length) (maxOff - pos)) (data.drop (min (min w data.length) (maxOff - pos)))
      exact ⟨done, pos', [_] ++ calls, fun fs => by rw [h, call_eq_after, Fs.after_after]⟩

theorem append_blind (io : Io) (record : Record) (log : SegmentLog) :
    ∃ r log' calls, ∀ fs, SegmentLog.append io record log fs = (r, log', fs.after calls) := by
  unfold SegmentLog.append
  cases log.fd with
  | none => exact ⟨_, _, [], fun fs => by rw [Fs.after_nil]⟩
  | some pos =>
    dsimp only
    split
    · exact ⟨_, _, [], fun fs => by rw [Fs.after_nil]⟩
    · rename_i bytes hbytes
      obtain ⟨done, pos', calls, hw⟩ := writeAll_blind log.path io.writes pos bytes
      simp only [hw]
      cases done with
      | false => exact ⟨_, _, calls, fun fs => rfl⟩
      | true =>
        have hsync : Blind fun fs => if log.fsync_policy = .kAlways then fsyncFile io log.path fs else (.ok (), fs) := by
          split
          · exact fsyncFile_blind io log.path
          · exact blind_return _
        obtain ⟨r, calls', hsync⟩ := hsync
        dsimp only at hsync
        simp only [hsync, Fs.after_after]
        cases r with
        | error e => exact ⟨_, _, calls ++ calls', fun fs => rfl⟩
        | ok u => exact ⟨_, _, calls ++ calls', fun fs => rfl⟩

/-- Opening a log looks at the file. -/
theorem reopen_local (io : Io) (path : Path) (policy : FsyncPolicy) {fs fs' : Fs} (h : fs.disk path = fs'.disk path) :
    ∃ r log calls, SegmentLog.reopen io path policy fs = (r, log, fs.after calls) ∧
      SegmentLog.reopen io path policy fs' = (r, log, fs'.after calls) := by
  have hcontent : (fs.call (.creat path)).content path = (fs'.call (.creat path)).content path := by
    simp only [Fs.content, Fs.disk_call, exec, Function.update_self, h]
  rcases SegmentLog.reopen_cases io path policy with ⟨e, he⟩ | hopened
  · exact ⟨_, _, [], by rw [he, Fs.after_nil], by rw [he, Fs.after_nil]⟩
  · simp only [hopened, SegmentLog.recover, hcontent]
    generalize SegmentLog.recoverLoop _ _ _ _ _ = scan
    obtain ⟨index, next, cut⟩ := scan
    cases cut with
    | none => exact ⟨_, _, [.creat path], rfl, rfl⟩
    | some position => exact ⟨_, _, [.creat path, .ftruncate path position], by simp only [call_call]; rfl, by simp only [call_call]⟩

/-! ## The engine -/

/-- The segment of the queue and the group, if the queue is there and the group is loaded. -/
def part (q : Path) (g : CString) (e : QueueEngine) : Option (SegmentLog × Option ConsumerGroupState) :=
  (e.queues.lookup q).map fun queue => (queue.segment, queue.groups.lookup g)

/-- The engines cannot be told apart by what is asked for the group. -/
structure SameFor (q : Path) (g : CString) (e e' : QueueEngine) : Prop where
  options : e.options = e'.options
  part : part q g e = part q g e'
  files : ∀ p, Owned q g p → e.fs.disk p = e'.fs.disk p

theorem SameFor.refl (q : Path) (g : CString) (e : QueueEngine) : SameFor q g e e := ⟨rfl, rfl, fun _ _ => rfl⟩

/-- The request is for the queue, and for no other group of it. -/
def Concerns (q : Path) (g : CString) (r : Request) : Prop := r.queue = q ∧ (r.group? = none ∨ r.group? = some g)

instance (q : Path) (g : CString) (r : Request) : Decidable (Concerns q g r) :=
  inferInstanceAs (Decidable (_ ∧ (_ ∨ _)))

/-- What a request does to an engine and to another that looks the same. -/
structure DoesSame (env : Env) (q : Path) (g : CString) (r : Request) (e e' : QueueEngine) (calls : List Call) : Prop where
  answer : (perform env e r).1 = (perform env e' r).1
  part : part q g (perform env e r).2 = part q g (perform env e' r).2
  left : (perform env e r).2.fs = e.fs.after calls
  right : (perform env e' r).2.fs = e'.fs.after calls
  within : Within (Owned q g) calls

section same

variable {q : Path} {g : CString} {e e' : QueueEngine}

/-- The queue is in both engines, or in none of them. -/
theorem SameFor.queue (h : SameFor q g e e') :
    (e.queues.lookup q = none ∧ e'.queues.lookup q = none) ∨
      ∃ queue queue', e.queues.lookup q = some queue ∧ e'.queues.lookup q = some queue' ∧ queue.segment = queue'.segment ∧
        queue.groups.lookup g = queue'.groups.lookup g := by
  have hpart := h.part
  unfold Engine.part at hpart
  cases hq : e.queues.lookup q with
  | none =>
    cases hq' : e'.queues.lookup q with
    | none => exact .inl ⟨rfl, rfl⟩
    | some queue' =>
      rw [hq, hq'] at hpart
      cases hpart
  | some queue =>
    cases hq' : e'.queues.lookup q with
    | none =>
      rw [hq, hq'] at hpart
      cases hpart
    | some queue' =>
      rw [hq, hq', Option.map_some, Option.map_some, Option.some.injEq, Prod.mk.injEq] at hpart
      exact .inr ⟨queue, queue', rfl, rfl, hpart.1, hpart.2⟩

theorem SameFor.segment (h : SameFor q g e e') (hp : Placed e) {queue : QueueState} (hqueue : e.queues.lookup q = some queue) :
    e.fs.disk queue.segment.path = e'.fs.disk queue.segment.path := by
  rw [hp q queue hqueue]
  exact h.files _ (owned_segment _ q g)

theorem SameFor.getGroup (h : SameFor q g e e') (hp : Placed e) (env : Env) {queue queue' : QueueState}
    (hqueue : e.queues.lookup q = some queue) (hseg : queue.segment = queue'.segment)
    (hgroup : queue.groups.lookup g = queue'.groups.lookup g) :
    getGroup env e.options q queue g e.fs = getGroup env e'.options q queue' g e'.fs := by
  have hload : loadGroupState env e.options q g queue.segment e.fs = loadGroupState env e.options q g queue.segment e'.fs :=
    loadGroupState_congr env (h.segment hp hqueue) (h.files _ (owned_state e.options.data_dir q g))
      (h.files _ (owned_events e.options.data_dir q g))
  rw [Engine.getGroup, Engine.getGroup, hgroup, hload, h.options, hseg]

theorem part_insert (queue : QueueState) (fs : Fs) :
    part q g { e with queues := e.queues.insert q queue, fs } = some (queue.segment, queue.groups.lookup g) := by
  rw [part, AList.lookup_insert]
  rfl

/-- A request that is refused. -/
theorem DoesSame.refused {env : Env} {r : Request} (h : SameFor q g e e') (answer : Response)
    (h1 : perform env e r = (answer, e)) (h2 : perform env e' r = (answer, e')) : DoesSame env q g r e e' [] where
  answer := by rw [h1, h2]
  part := by rw [h1, h2, h.part]
  left := by rw [h1, Fs.after_nil]
  right := by rw [h2, Fs.after_nil]
  within := by simp [Within]

theorem createQueue_local (h : SameFor q g e e') (env : Env) : ∃ calls, DoesSame env q g (.op (.createQueue q)) e e' calls := by
  rcases h.queue with ⟨hq, hq'⟩ | ⟨queue, queue', hq, hq', -, -⟩
  · obtain ⟨r, log, calls, h1, h2⟩ := reopen_local env.toIo (segmentPath e.options.data_dir q) e.options.fsync_policy
      (h.files _ (owned_segment e.options.data_dir q g))
    have hwithin : Within (Owned q g) calls := by
      obtain ⟨calls', hafter, hspares⟩ := reopen_after env.toIo (segmentPath e.options.data_dir q) e.options.fsync_policy e.fs
      rw [h1] at hafter
      obtain rfl := Fs.after_injective e.fs hafter
      apply within_of_spares
      intro p hp
      exact hspares p fun heq => hp (heq ▸ owned_segment e.options.data_dir q g)
    cases r with
    | error err =>
      have hdo : perform env e (.op (.createQueue q)) = (.reply (.error err), { e with fs := e.fs.after calls }) := by
        simp only [perform, runOp, createQueueOnShard, hq, h1]
        rfl
      have hdo' : perform env e' (.op (.createQueue q)) = (.reply (.error err), { e' with fs := e'.fs.after calls }) := by
        simp only [perform, runOp, createQueueOnShard, hq', ← h.options, h2]
        rfl
      refine ⟨calls, by rw [hdo, hdo'], ?_, by rw [hdo], by rw [hdo'], hwithin⟩
      rw [hdo, hdo']
      exact h.part
    | ok u =>
      have hdo : perform env e (.op (.createQueue q)) =
          (.reply (.ok .done), { e with queues := e.queues.insert q { segment := log }, fs := e.fs.after calls }) := by
        simp only [perform, runOp, createQueueOnShard, hq, h1]
        rfl
      have hdo' : perform env e' (.op (.createQueue q)) =
          (.reply (.ok .done), { e' with queues := e'.queues.insert q { segment := log }, fs := e'.fs.after calls }) := by
        simp only [perform, runOp, createQueueOnShard, hq', ← h.options, h2]
        rfl
      refine ⟨calls, by rw [hdo, hdo'], ?_, by rw [hdo], by rw [hdo'], hwithin⟩
      rw [hdo, hdo', part_insert, part_insert]
  · refine ⟨[], .refused h (.reply (.error (.status .kAlreadyExists "queue already exists"))) ?_ ?_⟩
    · simp only [perform, runOp, createQueueOnShard, hq]
      rfl
    · simp only [perform, runOp, createQueueOnShard, hq']
      rfl

theorem produce_local (h : SameFor q g e e') (hp : Placed e) (env : Env) (m : Message) :
    ∃ calls, DoesSame env q g (.op (.produce q m)) e e' calls := by
  rcases h.queue with ⟨hq, hq'⟩ | ⟨queue, queue', hq, hq', hseg, hgroups⟩
  · refine ⟨[], .refused h (.reply queueNotFound) ?_ ?_⟩
    · simp only [perform, runOp, produceOnShard, hq]
      rfl
    · simp only [perform, runOp, produceOnShard, hq']
      rfl
  have hsize : queue.segment.sizeBytes e.fs = queue'.segment.sizeBytes e'.fs := by
    rw [← hseg]
    unfold SegmentLog.sizeBytes
    rw [Fs.content, h.segment hp hq, Fs.content]
  by_cases hfull : e.options.max_queue_depth.toNat ≤ queue.segment.next_offset.toNat
  · refine ⟨[], .refused h (.reply (.error (.status .kUnavailable "queue is full"))) ?_ ?_⟩
    · simp only [perform, runOp, produceOnShard, hq, hfull, if_true]
      rfl
    · rw [h.options, hseg] at hfull
      simp only [perform, runOp, produceOnShard, hq', hfull, if_true]
      rfl
  by_cases hlarge : e.options.max_segment_size_bytes.toNat ≤ queue.segment.sizeBytes e.fs
  · refine ⟨[], .refused h (.reply (.error (.status .kUnavailable "segment size limit reached"))) ?_ ?_⟩
    · simp only [perform, runOp, produceOnShard, hq, hfull, hlarge, if_true, if_false]
      rfl
    · rw [h.options, hseg] at hfull
      rw [h.options, hsize] at hlarge
      simp only [perform, runOp, produceOnShard, hq', hfull, hlarge, if_true, if_false]
      rfl
  obtain ⟨r, log, calls, hblind⟩ := append_blind env.toIo (recordOf m) queue.segment
  have hdo : perform env e (.op (.produce q m)) =
      (.reply (r.map .offset), { e with queues := e.queues.insert q { queue with segment := log }, fs := e.fs.after calls }) := by
    simp only [perform, runOp, produceOnShard, hq, hfull, hlarge, if_false, hblind]
    rfl
  have hdo' : perform env e' (.op (.produce q m)) =
      (.reply (r.map .offset), { e' with queues := e'.queues.insert q { queue' with segment := log }, fs := e'.fs.after calls }) := by
    have hblind' := hblind e'.fs
    rw [h.options, hseg] at hfull
    rw [h.options, hsize] at hlarge
    rw [hseg] at hblind'
    simp only [perform, runOp, produceOnShard, hq', hfull, hlarge, if_false, hblind']
    rfl
  refine ⟨calls, by rw [hdo, hdo'], ?_, by rw [hdo], by rw [hdo'], ?_⟩
  · rw [hdo, hdo', part_insert, part_insert, hgroups]
  · obtain ⟨calls', hafter, hspares⟩ := append_after env.toIo (recordOf m) queue.segment e.fs
    rw [hblind] at hafter
    obtain rfl := Fs.after_injective e.fs hafter
    apply within_of_spares
    intro p hne
    refine hspares p fun heq => hne ?_
    rw [heq, hp q queue hq]
    exact owned_segment _ q g

/-- The files that an operation on the group changes are the group's. -/
theorem within_ofGroup (hp : Placed e) (env : Env) (op : GroupOp) {calls : List Call}
    (h : (onGroup env q g op e).2.fs = e.fs.after calls) : Within (OfGroup q g) calls := by
  obtain ⟨calls', hafter, htargets⟩ := onGroup_targets env q g op hp
  rw [h] at hafter
  obtain rfl := Fs.after_injective e.fs hafter
  intro c hc p hmem
  refine ⟨e.options.data_dir, fun haside => ?_⟩
  exact mem_ownPaths.1 (htargets c hc p hmem) haside

theorem group_local (h : SameFor q g e e') (hp : Placed e) (env : Env) (op : GroupOp) :
    ∃ calls, DoesSame env q g (.op (.group q g op)) e e' calls := by
  have hperform : ∀ e : QueueEngine, perform env e (.op (.group q g op)) = (onGroup env q g op e).map .reply id := by
    intro e
    rw [perform, runOp_group]
  rcases h.queue with ⟨hq, hq'⟩ | ⟨queue, queue', hq, hq', hseg, hgroups⟩
  · refine ⟨[], .refused h (.reply queueNotFound) ?_ ?_⟩
    · rw [hperform, onGroup, hq]
      rfl
    · rw [hperform, onGroup, hq']
      rfl
  have hget := h.getGroup hp env hq hseg hgroups
  cases hgroup : getGroup env e.options q queue g e.fs with
  | error err =>
    refine ⟨[], .refused h (.reply (.error err)) ?_ ?_⟩
    · simp only [hperform, onGroup, hq, hgroup]
      rfl
    · rw [hget] at hgroup
      simp only [hperform, onGroup, hq', hgroup]
      rfl
  | ok group =>
    have hcontent : e.fs.content queue.segment.path = e'.fs.content queue.segment.path := by
      rw [Fs.content, h.segment hp hq, Fs.content]
    have hseg' : Aside (groupFiles e.options.data_dir q g) queue.segment.path := by
      rw [hp q queue hq]
      exact aside_segment _ _ _ _
    obtain ⟨r, a, calls, h1, h2⟩ := groupOp_local env e.options q g op group hseg' hcontent
    have hdo : onGroup env q g op e =
        (r, { e with queues := e.queues.insert q { queue with groups := queue.groups.insert g a }, fs := e.fs.after calls }) := by
      simp only [onGroup, hq, hgroup, h1]
    have hdo' : onGroup env q g op e' =
        (r, { e' with queues := e'.queues.insert q { queue' with groups := queue'.groups.insert g a }, fs := e'.fs.after calls }) := by
      rw [hget] at hgroup
      rw [h.options, hseg] at h2
      simp only [onGroup, hq', hgroup, h2]
    refine ⟨calls, by rw [hperform, hperform, hdo, hdo']; rfl, ?_, by rw [hperform, hdo]; rfl, by rw [hperform, hdo']; rfl, ?_⟩
    · rw [hperform, hperform, hdo, hdo']
      change part q g { e with queues := _, fs := _ } = part q g { e' with queues := _, fs := _ }
      rw [part_insert, part_insert, AList.lookup_insert, AList.lookup_insert, hseg]
    · have hgroupFiles : Within (OfGroup q g) calls := within_ofGroup hp env op (by rw [hdo])
      exact hgroupFiles.mono fun p => .inr

theorem inspect_local (h : SameFor q g e e') (hp : Placed e) (env : Env) (id : MessageId) :
    DoesSame env q g (.inspectMessage q g id) e e' [] := by
  rcases h.queue with ⟨hq, hq'⟩ | ⟨queue, queue', hq, hq', hseg, hgroups⟩
  · apply DoesSame.refused h (.view queueNotFound)
    · simp only [perform, inspectMessageOnShard, hq]
      rfl
    · simp only [perform, inspectMessageOnShard, hq']
      rfl
  have hget := h.getGroup hp env hq hseg hgroups
  cases hgroup : getGroup env e.options q queue g e.fs with
  | error err =>
    apply DoesSame.refused h (.view (.error err))
    · simp only [perform, inspectMessageOnShard, hq, hgroup]
      rfl
    · rw [hget] at hgroup
      simp only [perform, inspectMessageOnShard, hq', hgroup]
      rfl
  | ok group =>
    have hdo : perform env e (.inspectMessage q g id) = (.view (inspectGroup id group),
        { e with queues := e.queues.insert q { queue with groups := queue.groups.insert g group } }) := by
      simp only [perform, inspectMessageOnShard, hq, hgroup]
      rfl
    have hdo' : perform env e' (.inspectMessage q g id) = (.view (inspectGroup id group),
        { e' with queues := e'.queues.insert q { queue' with groups := queue'.groups.insert g group } }) := by
      rw [hget] at hgroup
      simp only [perform, inspectMessageOnShard, hq', hgroup]
      rfl
    refine ⟨by rw [hdo, hdo'], ?_, by rw [hdo, Fs.after_nil], by rw [hdo', Fs.after_nil], by simp [Within]⟩
    rw [hdo, hdo', part_insert, part_insert, AList.lookup_insert, AList.lookup_insert, hseg]

theorem replay_local (h : SameFor q g e e') (hp : Placed e) (env : Env) (until_sequence : UInt64) :
    DoesSame env q g (.replayToSequence q g until_sequence) e e' [] := by
  have hsame : replayToSequenceOnShard env q g until_sequence e = replayToSequenceOnShard env q g until_sequence e' := by
    unfold replayToSequenceOnShard
    rcases h.queue with ⟨hq, hq'⟩ | ⟨queue, queue', hq, hq', hseg, -⟩
    · rw [hq, hq']
    · have hread : queue.segment.read e.fs = queue.segment.read e'.fs := by
        apply SegmentLog.read_congr
        rw [Fs.content, h.segment hp hq, Fs.content]
      have hevents := h.files _ (owned_events e.options.data_dir q g)
      simp only [hq, hq', ← hseg, ← h.options, readMessages_congr (congrFun hread), loadTransitions, hevents]
  exact .refused h _ rfl (by rw [perform, hsame])

/-- A request for the group is answered alike where the group looks the same, makes
the same calls, and leaves it looking the same. -/
theorem perform_local (h : SameFor q g e e') (hp : Placed e) (env : Env) {r : Request} (hr : Concerns q g r) :
    ∃ calls, DoesSame env q g r e e' calls := by
  obtain ⟨rfl, hgroup⟩ := hr
  cases r with
  | op o =>
    cases o with
    | createQueue q => exact createQueue_local h env
    | produce q m => exact produce_local h hp env m
    | group q g' op =>
      rcases hgroup with hg | hg
      · cases hg
      · obtain rfl := Option.some.inj hg
        exact group_local h hp env op
  | inspectMessage q g' id =>
    rcases hgroup with hg | hg
    · cases hg
    · obtain rfl := Option.some.inj hg
      exact ⟨[], inspect_local h hp env id⟩
  | replayToSequence q g' until_sequence =>
    rcases hgroup with hg | hg
    · cases hg
    · obtain rfl := Option.some.inj hg
      exact ⟨[], replay_local h hp env until_sequence⟩

end same

/-! ## Requests for others -/

/-- The names are one part of a path each. -/
structure Request.Named (r : Request) : Prop where
  queue : Plain r.queue
  group : ∀ g, r.group? = some g → 47 ∉ g.1

instance (r : Request) : Decidable r.Named :=
  decidable_of_iff (Plain r.queue ∧ ∀ g ∈ r.group?, 47 ∉ g.1) ⟨fun h => ⟨h.1, h.2⟩, fun h => ⟨h.queue, h.group⟩⟩

section others

variable {q : Path} {g : CString} {e : QueueEngine}

theorem part_insert_ne {q' : Path} (hne : q ≠ q') (queue : QueueState) (fs : Fs) :
    part q g { e with queues := e.queues.insert q' queue, fs } = part q g e := by
  rw [part, AList.lookup_insert_ne hne]
  rfl

/-- Another group of the queue is set. -/
theorem part_insert_group {g' : CString} (hne : g ≠ g') {queue : QueueState} (hqueue : e.queues.lookup q = some queue)
    (group : ConsumerGroupState) (fs : Fs) :
    part q g { e with queues := e.queues.insert q { queue with groups := queue.groups.insert g' group }, fs } = part q g e := by
  rw [part_insert, part, hqueue, AList.lookup_insert_ne hne]
  rfl

/-- Setting a group that is not `g` of `q`. -/
theorem part_other {q' : Path} {g' : CString} (hne : ¬ (q' = q ∧ g' = g)) {queue : QueueState}
    (hqueue : e.queues.lookup q' = some queue) (group : ConsumerGroupState) (fs : Fs) :
    part q g { e with queues := e.queues.insert q' { queue with groups := queue.groups.insert g' group }, fs } = part q g e := by
  by_cases hq : q' = q
  · subst hq
    exact part_insert_group (fun h => hne ⟨rfl, h.symm⟩) hqueue group fs
  · exact part_insert_ne (Ne.symm hq) _ fs

/-- A request for another group or another queue leaves the group, its queue and
their files as they are. -/
theorem perform_other (hp : Placed e) (hq : Plain q) (hg : 47 ∉ g.1) (env : Env) {r : Request} (hn : r.Named)
    (hr : ¬ Concerns q g r) :
    ∃ calls, (perform env e r).2.fs = e.fs.after calls ∧ Within (fun p => ¬ Owned q g p) calls ∧
      part q g (perform env e r).2 = part q g e := by
  -- Files of a group or a queue with another name.
  have hgroup : ∀ {q' : Path} {g' : CString}, Plain q' → 47 ∉ g'.1 → ¬ (q' = q ∧ g' = g) → ∀ p, OfGroup q' g' p → ¬ Owned q g p := by
    rintro q' g' hq' hg' hne p hp (hown | hown)
    · exact hown.not_ofGroup hp
    · exact hne (hp.names hown hq' hq hg' hg)
  have hqueue : ∀ {q' : Path}, Plain q' → q' ≠ q → ∀ p, OfQueue q' p → ¬ Owned q g p := by
    rintro q' hq' hne p hp (hown | hown)
    · exact hne (hp.name hown hq' hq)
    · exact hp.not_ofGroup hown
  cases r with
  | op o =>
    change ∃ calls, (runOp env e o).2.fs = e.fs.after calls ∧ _ ∧ part q g (runOp env e o).2 = part q g e
    cases o with
    | createQueue q' =>
      have hne : q' ≠ q := fun h => hr ⟨h, .inl rfl⟩
      have heff := runOp_effect env e (.createQueue q')
      generalize (runOp env e (.createQueue q')).2 = e' at heff
      cases heff with
      | none => exact ⟨[], by rw [Fs.after_nil], by simp [Within], rfl⟩
      | created _ hnone hpath hcalls =>
        obtain ⟨calls, rfl, hspares⟩ := hcalls
        refine ⟨calls, rfl, ?_, part_insert_ne hne.symm _ _⟩
        have hown : Within (OfQueue q') calls :=
          within_of_spares fun p hp => hspares p fun heq => hp ⟨e.options.data_dir, heq⟩
        exact hown.mono (hqueue hn.queue hne)
    | produce q' m =>
      have hne : q' ≠ q := fun h => hr ⟨h, .inl rfl⟩
      have heff := runOp_effect env e (.produce q' m)
      generalize (runOp env e (.produce q' m)).2 = e' at heff
      cases heff with
      | none => exact ⟨[], by rw [Fs.after_nil], by simp [Within], rfl⟩
      | produced _ _ hlookup hpath hcalls =>
        obtain ⟨calls, rfl, hspares⟩ := hcalls
        refine ⟨calls, rfl, ?_, part_insert_ne hne.symm _ _⟩
        have hown : Within (OfQueue q') calls :=
          within_of_spares fun p hne => hspares p fun heq => hne ⟨e.options.data_dir, by rw [heq, hp _ _ hlookup]⟩
        exact hown.mono (hqueue hn.queue hne)
    | group q' g' op =>
      have hne : ¬ (q' = q ∧ g' = g) := fun h => hr ⟨h.1, .inr (congrArg some h.2)⟩
      rw [runOp_group]
      obtain ⟨calls, hafter, -⟩ := onGroup_targets env q' g' op hp
      refine ⟨calls, hafter, ?_, ?_⟩
      · exact (within_ofGroup hp env op hafter).mono (hgroup hn.queue (hn.group g' rfl) hne)
      · rcases onGroup_cases env q' g' op e with ⟨err, h, -⟩ | ⟨queue, group, hlookup, -, h⟩
        · rw [h]
        · rw [h]
          exact part_other hne hlookup _ _
  | inspectMessage q' g' id =>
    have hne : ¬ (q' = q ∧ g' = g) := fun h => hr ⟨h.1, .inr (congrArg some h.2)⟩
    change ∃ calls, (inspectMessageOnShard env q' g' id e).2.fs = e.fs.after calls ∧ _ ∧
      part q g (inspectMessageOnShard env q' g' id e).2 = part q g e
    refine ⟨[], by rw [inspectMessageOnShard_fs, Fs.after_nil], by simp [Within], ?_⟩
    rcases inspectMessageOnShard_cases env q' g' id e with ⟨err, h⟩ | ⟨queue, group, hlookup, -, h⟩
    · rw [h]
    · rw [h]
      exact part_other hne hlookup _ _
  | replayToSequence q' g' until_sequence => exact ⟨[], (Fs.after_nil _).symm, by simp [Within], rfl⟩

end others

end PomaiQueue.Engine
