import PomaiQueue.Lib.Writeback
import PomaiQueue.AckDurability
import PomaiQueue.Refinement
/-!
# Produced messages after a power loss

With `fsync_policy` `kAlways`, `Append` syncs the segment before `Produce` returns. Nothing
syncs the directory that the segment was created in, so a power loss can take the whole
file, but nothing else that was accepted (`produced_survive_iff`): if there is a segment, it has all
accepted messages in their order, and behind them at most the message that was being
produced when the process was killed.
-/

namespace PomaiQueue.Storage

open Wire Posix

theorem Torn.part {t t' : Bytes} (h : Torn t) (hpre : t' <+: t) : Torn t' := by
  rcases h with rfl | ⟨f, hf, ht, hlt⟩
  · exact .inl (List.prefix_nil.1 hpre)
  · have hle := hpre.length_le
    exact .inr ⟨f, hf, hpre.trans ht, by omega⟩

/-- What a loss leaves of a segment while a record is appended to it, and after that. -/
theorem Live.append_leaves {log : SegmentLog} {fs : Fs} {frames : List Frame} (h : Live log fs frames) (io : Io) (r : Record)
    {parent : Path → Path} (hl : (fs.media parent).Leaves (· = layout frames) log.path) :
    ∃ calls, (SegmentLog.append io r log fs).2.2 = fs.after calls ∧
      (∀ k, ∃ t, t <+: (Frame.ofAppend io r log).bytes ∧ (fs.after (calls.take k)).disk log.path = some (layout frames ++ t) ∧
        ((fs.after (calls.take k)).media parent).Leaves (fun c => ∃ t', t' <+: t ∧ c = layout frames ++ t') log.path) ∧
      ((SegmentLog.append io r log fs).1.isOk = true → log.fsync_policy = .kAlways →
        ((fs.after calls).media parent).Leaves (· = layout frames ++ (Frame.ofAppend io r log).bytes) log.path) := by
  obtain ⟨n, chunks, sync, -, hflat, hs, hres⟩ := append_cases io r log fs _ h.fd
  have hok := Fs.media_ok parent fs
  have hfile : (fs.media parent).disk log.path = some (layout frames) := by
    rw [Fs.disk_media]
    exact h.file
  -- After some of the writes, some of their bytes are left.
  have hwrites : ∀ cs : List Bytes, ((fs.after (writeCalls log.path (layout frames).length cs)).media parent).Leaves
      (fun c => ∃ t', t' <+: cs.flatten ∧ c = layout frames ++ t') log.path := by
    intro cs
    rw [Fs.media_after]
    refine Media.Leaves.writeCalls (hl.mono ?_) hok hfile fun t ht => ⟨t, ht, rfl⟩
    rintro c rfl
    exact ⟨[], List.nil_prefix, (List.append_nil _).symm⟩
  have hdisk : ∀ cs : List Bytes, (fs.after (writeCalls log.path (layout frames).length cs)).disk log.path =
      some (layout frames ++ cs.flatten) := by
    intro cs
    rw [Fs.disk_after, foldl_writeCalls log.path _ cs fs.disk _ h.file le_rfl, overwrite_end, Function.update_self]
  have htake : ∀ k, (chunks.take k).flatten <+: chunks.flatten := fun k =>
    ⟨(chunks.drop k).flatten, by rw [← List.flatten_append, List.take_append_drop]⟩
  refine ⟨writeCalls log.path (layout frames).length chunks ++ sync, ?_, fun k => ?_, fun hisok halways => ?_⟩
  · rcases hres with ⟨e, he⟩ | ⟨-, -, he⟩
    · rw [he]
      rfl
    · rw [he]
      rfl
  · refine ⟨(chunks.take k).flatten, (htake k).trans (hflat ▸ List.take_prefix _ _), ?_⟩
    rw [List.take_append, writeCalls_take, ← Fs.after_after]
    generalize k - (writeCalls log.path (layout frames).length chunks).length = j
    have hsync : sync.take j = [] ∨ sync.take j = [.fsync log.path] := by
      rcases hs with rfl | rfl
      · exact .inl List.take_nil
      · cases j with
        | zero => exact .inl rfl
        | succ j => exact .inr (by simp)
    rcases hsync with hsync | hsync
    · rw [hsync, Fs.after_nil]
      exact ⟨hdisk _, hwrites _⟩
    · rw [hsync]
      refine ⟨by rw [Fs.disk_after]; exact hdisk _, ?_⟩
      rw [Fs.media_after]
      exact (hwrites _).step (Fs.media_ok _ _) parent (c := .fsync log.path) trivial
  · -- The record was written in full, and then synced.
    rcases hres with ⟨e, he⟩ | ⟨hn, hsync, -⟩
    · rw [he] at hisok
      cases hisok
    rw [hn, List.take_length] at hflat
    rw [hsync halways, ← Fs.after_after, Fs.media_after]
    refine (hwrites chunks).fsync parent ?_
    rw [Fs.disk_media, hdisk, hflat]
    rfl

/-- The calls with which whole records and a torn one are recovered. -/
theorem reopen_calls (io : Io) (path : Path) (policy : FsyncPolicy) (fs : Fs) {frames : List Frame} {t : Bytes}
    (hc : fs.content path = layout frames ++ t) (hfit : ∀ f ∈ frames, f.2.Fits) (ht : Torn t) :
    ∃ calls, (SegmentLog.reopen io path policy fs).2.2 = fs.after calls ∧
      (calls = [] ∨ calls = [.creat path] ∨ calls = [.creat path, .ftruncate path (layout frames).length]) := by
  rcases SegmentLog.reopen_cases io path policy with ⟨e, he⟩ | hopened
  · exact ⟨[], by rw [he, Fs.after_nil], .inl rfl⟩
  have hfile : (fs.call (.creat path)).content path = layout frames ++ t := by
    rw [← hc, Fs.content, Fs.disk_call, exec, Function.update_self]
    rfl
  have hscan : SegmentLog.recoverLoop (layout frames ++ t) ((layout frames ++ t).length + 1) 0 ∅ 0 =
      (indexFrom 0 frames ∅, nextFrom 0 frames, if t = [] then none else some (layout frames).length) := by
    rcases ht with rfl | ⟨g, hg, hpre, hlt⟩
    · simpa using scan_layout frames hfit
    · exact scan_torn frames hfit t g hg hpre hlt
  simp only [hopened, SegmentLog.recover, hfile, hscan]
  by_cases h0 : t = []
  · exact ⟨[.creat path], by simp only [h0, if_true]; rfl, .inr (.inl rfl)⟩
  · exact ⟨_, by simp only [h0, if_false]; simp [Fs.call, Fs.after], .inr (.inr rfl)⟩

end PomaiQueue.Storage

namespace PomaiQueue.Engine

open Wire Posix Assoc Storage

/-- All records of `sure`, and no others than those of `rs`, with a part of a record behind them. -/
def Between (sure rs : List Frame) (content : Bytes) : Prop :=
  ∃ rs' t, sure <+: rs' ∧ rs' <+: rs ∧ Torn t ∧ content = layout (stamped rs') ++ t

/-- What a loss leaves of the segment of the queue, of which the records `sure` were accepted. In
the first life of the engine there is nothing to be lost but the file. -/
inductive Backed (dir q : Path) (sure : List Frame) (e : QueueEngine) : List Frame → Bool → Prop
  | first (h : (e.fs.media parentPath).Leaves (· = layout (stamped sure)) (segmentPath dir q))
      (hpolicy : ∀ queue, e.queues.lookup q = some queue → queue.segment.fsync_policy = .kAlways) : Backed dir q sure e sure true
  | later {rs} (hpre : sure <+: rs) (h : (e.fs.media parentPath).Leaves (Between sure rs) (segmentPath dir q)) :
      Backed dir q sure e rs false

section backed

variable {dir q : Path} {e e' : QueueEngine} {sure rs : List Frame} {fresh : Bool}

theorem between_self (rs : List Frame) : Between rs rs (layout (stamped rs)) :=
  ⟨rs, [], List.prefix_rfl, List.prefix_rfl, .inl rfl, (List.append_nil _).symm⟩

theorem Backed.sure_prefix (h : Backed dir q sure e rs fresh) : sure <+: rs := by
  cases h with
  | first => exact List.prefix_rfl
  | later hpre _ => exact hpre

theorem Backed.leaves (h : Backed dir q sure e rs fresh) :
    (e.fs.media parentPath).Leaves (Between sure rs) (segmentPath dir q) := by
  cases h with
  | later _ hl => exact hl
  | first hl _ =>
    refine hl.mono ?_
    rintro c rfl
    exact between_self sure

/-- The segment of the queue is left alone. -/
theorem Backed.spared (h : Backed dir q sure e rs fresh) {calls : List Call} (hfs : e'.fs = e.fs.after calls)
    (hsp : ∀ c ∈ calls, c.Spares (segmentPath dir q))
    (hseg : (e'.queues.lookup q).map (·.segment) = (e.queues.lookup q).map (·.segment)) : Backed dir q sure e' rs fresh := by
  have hmedia : e'.fs.media parentPath = (e.fs.media parentPath).run parentPath calls := by rw [hfs, Fs.media_after]
  cases h with
  | later hpre hl =>
    refine .later hpre ?_
    rw [hmedia]
    exact hl.run (Fs.media_ok _ _) hsp
  | first hl hpolicy =>
    refine .first ?_ fun queue hqueue => ?_
    · rw [hmedia]
      exact hl.run (Fs.media_ok _ _) hsp
    · rw [hqueue, Option.map_some] at hseg
      obtain ⟨queue', hqueue', heq⟩ := Option.map_eq_some_iff.1 hseg.symm
      rw [← heq]
      exact hpolicy queue' hqueue'

/-- What a loss leaves while the queue is created. -/
theorem create_leaves {P : Bytes → Prop} (hl : (e.fs.media parentPath).Leaves P (segmentPath dir q))
    (hst : Stored dir q e rs fresh) (hP : P (layout (stamped rs))) (env : Env) (hdir : e.options.data_dir = dir) :
    ∃ calls, (createQueueOnShard env q e).2.fs = e.fs.after calls ∧
      ∀ k, ((e.fs.after (calls.take k)).media parentPath).Leaves P (segmentPath dir q) := by
  rcases createQueueOnShard_cases env q e with heq | ⟨-, -, heq⟩
  · refine ⟨[], by rw [heq, Fs.after_nil], fun k => ?_⟩
    rw [List.take_nil, Fs.after_nil]
    exact hl
  · obtain ⟨t, hc, ht⟩ := hst.content
    obtain ⟨calls, hcalls, hcases⟩ := reopen_calls env.toIo (segmentPath dir q) e.options.fsync_policy e.fs hc
      (stamped_fits hst.fits) ht
    refine ⟨calls, by rw [heq, hdir, hcalls], fun k => ?_⟩
    have hok := Fs.media_ok parentPath e.fs
    have hdisk := Fs.disk_media parentPath e.fs
    have hcreat : ((e.fs.media parentPath).step parentPath (.creat (segmentPath dir q))).Leaves P (segmentPath dir q) := by
      refine hl.creat parentPath fun hnone => ?_
      rw [hdisk] at hnone
      rw [Fs.content, hnone] at hc
      obtain ⟨hnil, -⟩ := List.append_eq_nil_iff.1 hc.symm
      rwa [hnil] at hP
    have hcut : (((e.fs.media parentPath).step parentPath (.creat (segmentPath dir q))).step parentPath
        (.ftruncate (segmentPath dir q) (layout (stamped rs)).length)).Leaves P (segmentPath dir q) := by
      refine hcreat.ftruncate parentPath ?_
      rw [Media.disk_step hok, hdisk, exec, Function.update_self, Option.getD_some]
      change P ((e.fs.content (segmentPath dir q)).take _)
      rw [hc, List.take_left]
      exact hP
    rw [Fs.media_after]
    rcases hcases with rfl | rfl | rfl
    · rw [List.take_nil]
      exact hl
    · rcases k with _ | k
      · exact hl
      · rw [List.take_succ_cons, List.take_nil]
        exact hcreat
    · rcases k with _ | _ | k
      · exact hl
      · exact hcreat
      · rw [List.take_succ_cons, List.take_succ_cons, List.take_nil]
        exact hcut

/-- The queue that a message is produced to. -/
theorem Stored.live_queue (h : Stored dir q e rs true) {queue : QueueState} (hqueue : e.queues.lookup q = some queue) :
    queue.segment.path = segmentPath dir q ∧ Holds queue.segment e.fs rs := by
  cases h with
  | absent hnone =>
    rw [hnone] at hqueue
    cases hqueue
  | live hsome hp hh _ =>
    obtain rfl := Option.some.inj (hsome.symm.trans hqueue)
    exact ⟨hp, hh⟩

/-- What a loss leaves while a message is produced, and after that. -/
theorem produce_leaves (hl : (e.fs.media parentPath).Leaves (· = layout (stamped rs)) (segmentPath dir q))
    (hst : Stored dir q e rs true) (env : Env) (m : Message)
    (hpolicy : ∀ queue, e.queues.lookup q = some queue → queue.segment.fsync_policy = .kAlways) :
    ∃ calls, (produceOnShard env q m e).2.fs = e.fs.after calls ∧
      (∀ k, ∃ t, t <+: Frame.bytes ((messageFrame (env, m)).1, (messageFrame (env, m)).2.withOffset (UInt64.ofNat rs.length)) ∧
        (e.fs.after (calls.take k)).content (segmentPath dir q) = layout (stamped rs) ++ t ∧
        ((e.fs.after (calls.take k)).media parentPath).Leaves (fun c => ∃ t', t' <+: t ∧ c = layout (stamped rs) ++ t')
          (segmentPath dir q)) ∧
      ((produceOnShard env q m e).1.isOk = true → ((e.fs.after calls).media parentPath).Leaves
        (· = layout (stamped (rs ++ [messageFrame (env, m)]))) (segmentPath dir q)) := by
  rcases produceOnShard_cases env q m e with ⟨err, heq⟩ | ⟨queue, hqueue, heq⟩
  · refine ⟨[], by rw [heq, Fs.after_nil], fun k => ?_, fun hok => ?_⟩
    · refine ⟨[], List.nil_prefix, ?_, ?_⟩
      · rw [List.take_nil, Fs.after_nil, List.append_nil]
        cases hst with
        | absent _ hempty => rw [hempty]; rfl
        | live _ hp hh _ => rw [← hp, hh.content]
      · rw [List.take_nil, Fs.after_nil]
        refine hl.mono ?_
        rintro c rfl
        exact ⟨[], List.nil_prefix, (List.append_nil _).symm⟩
    · rw [heq] at hok
      cases hok
  · obtain ⟨hp, hh⟩ := hst.live_queue hqueue
    have hframe : Frame.ofAppend env.toIo (recordOf m) queue.segment =
        ((messageFrame (env, m)).1, (messageFrame (env, m)).2.withOffset (UInt64.ofNat rs.length)) := by
      rw [Frame.ofAppend, hh.next]
      rfl
    rw [← hp] at hl
    obtain ⟨calls, hcalls, hcut, hall⟩ := hh.toLive.append_leaves env.toIo (recordOf m) hl
    rw [hframe] at hcut hall
    refine ⟨calls, by rw [heq, hcalls], fun k => ?_, fun hok => ?_⟩
    · obtain ⟨t, ht, hdisk, hleaves⟩ := hcut k
      rw [hp] at hdisk hleaves
      refine ⟨t, ht, ?_, hleaves⟩
      rw [Fs.content, hdisk]
      rfl
    · rw [heq] at hok
      rw [layout_stamped_concat, ← hp]
      exact hall hok (hpolicy queue hqueue)

theorem reopen_policy (io : Io) (path : Path) (policy : FsyncPolicy) (fs : Fs) :
    (SegmentLog.reopen io path policy fs).2.1.fsync_policy = policy := by
  rcases SegmentLog.reopen_cases io path policy with ⟨e, he⟩ | hopened
  · rw [he]
  · rw [hopened]
    rfl

theorem append_policy (io : Io) (r : Record) (log : SegmentLog) (fs : Fs) :
    (SegmentLog.append io r log fs).2.1.fsync_policy = log.fsync_policy := by
  cases hfd : log.fd with
  | none => simp [SegmentLog.append, hfd]
  | some pos =>
    obtain ⟨n, chunks, sync, -, -, -, ⟨e, he⟩ | ⟨-, -, he⟩⟩ := append_cases io r log fs pos hfd
    · rw [he]
    · rw [he]

end backed

section steps

variable {σ : Setting} {e : QueueEngine} {sure rs : List Frame} {fresh : Bool} {hs : List Happening} {n : Node}

theorem Backed.create (h : Backed σ.dir σ.queue sure e rs fresh) (hc : Course σ e rs fresh hs n)
    (halways : fresh = true → e.options.fsync_policy = .kAlways) (env : Env) :
    Backed σ.dir σ.queue sure (createQueueOnShard env σ.queue e).2 rs fresh := by
  cases h with
  | later hpre hl =>
    obtain ⟨calls, hcalls, hleaves⟩ := create_leaves hl hc.stored ⟨rs, [], hpre, List.prefix_rfl, .inl rfl, by simp⟩ env
      hc.tracks.data_dir
    have hall := hleaves calls.length
    rw [List.take_length, ← hcalls] at hall
    exact .later hpre hall
  | first hl hpolicy =>
    obtain ⟨calls, hcalls, hleaves⟩ := create_leaves hl hc.stored rfl env hc.tracks.data_dir
    have hall := hleaves calls.length
    rw [List.take_length, ← hcalls] at hall
    refine .first hall fun queue hqueue => ?_
    rcases createQueueOnShard_cases env σ.queue e with heq | ⟨-, -, heq⟩
    · rw [heq] at hqueue
      exact hpolicy queue hqueue
    · rw [heq] at hqueue
      obtain rfl := Option.some.inj ((AList.lookup_insert _).symm.trans hqueue)
      rw [← halways rfl]
      exact reopen_policy _ _ _ _

/-- A message is accepted, or nothing happens. -/
theorem Backed.produce (h : Backed σ.dir σ.queue sure e rs fresh) (hc : Course σ e rs fresh hs n) {env : Env} {m : Message}
    (ha : σ.Allows e fresh (.op env (.produce σ.queue m))) :
    Backed σ.dir σ.queue (sure ++ addedBy σ.queue env e (.produce σ.queue m)) (produceOnShard env σ.queue m e).2
      (rs ++ addedBy σ.queue env e (.produce σ.queue m)) fresh := by
  obtain ⟨rfl, hq, -⟩ : fresh = true ∧ env.toIo.Quiet ∧ (recordOf m).Fits := ha.produce m rfl
  have hio := ha.io env m rfl
  cases h with
  | first hl hpolicy =>
    obtain ⟨calls, hcalls, -, hall⟩ := produce_leaves hl hc.stored env m hpolicy
    rcases produceOnShard_cases env σ.queue m e with ⟨err, heq⟩ | ⟨queue, hqueue, heq⟩
    · have hnone : addedBy σ.queue env e (.produce σ.queue m) = [] := by
        rw [addedBy, heq]
        exact if_neg fun hand => by cases hand.2
      rw [hnone, List.append_nil, heq]
      exact .first hl hpolicy
    · have hok : (produceOnShard env σ.queue m e).1.isOk = true := by
        rw [heq] at hio ⊢
        cases hres : (SegmentLog.append env.toIo (recordOf m) queue.segment e.fs).1 with
        | ok o => rfl
        | error err =>
          obtain ⟨-, hh⟩ := hc.stored.live_queue hqueue
          obtain ⟨msg, rfl⟩ := append_quiet_error hq hh.fd hres
          exact absurd hres (hio msg)
      have hadded : addedBy σ.queue env e (.produce σ.queue m) = [messageFrame (env, m)] := if_pos ⟨rfl, hok⟩
      rw [hadded]
      refine .first (by rw [hcalls]; exact hall hok) fun queue' hqueue' => ?_
      rw [heq] at hqueue'
      obtain rfl := Option.some.inj ((AList.lookup_insert _).symm.trans hqueue')
      exact (append_policy _ _ _ _).trans (hpolicy queue hqueue)

theorem Backed.op (h : Backed σ.dir σ.queue sure e rs fresh) (hc : Course σ e rs fresh hs n)
    (halways : fresh = true → e.options.fsync_policy = .kAlways) {env : Env} {o : Op} (ha : σ.Allows e fresh (.op env o)) :
    Backed σ.dir σ.queue (sure ++ addedBy σ.queue env e o) (step e (.op env o)) (rs ++ addedBy σ.queue env e o) fresh := by
  by_cases hfills : o.Fills σ.queue
  · rcases fills_cases hfills with rfl | ⟨m, rfl⟩
    · rw [show addedBy σ.queue env e (.createQueue σ.queue) = [] from rfl, List.append_nil, List.append_nil]
      exact h.create hc halways env
    · exact h.produce hc ha
  · have hclear : o.Clear σ.dir σ.queue := ha.clear
    obtain ⟨hseg, calls, hcalls, hsp⟩ := runOp_spares env hc.tracks.data_dir hc.tracks.placed hclear hfills
    rw [addedBy_unfilled hfills, List.append_nil, List.append_nil]
    exact h.spared hcalls hsp hseg

/-- The process is killed. What was accepted is not lost. -/
theorem Backed.kill (h : Backed σ.dir σ.queue sure e rs fresh) (hc : Course σ e rs fresh hs n) {env : Env} {o : Op} {k : Nat}
    {options : EngineOptions} (ha : σ.Allows e fresh (.kill env o k options)) {rs' : List Frame}
    (hadds : Adds σ (.kill env o k options) rs rs') (hst : Stored σ.dir σ.queue (step e (.kill env o k options)) rs' false) :
    Backed σ.dir σ.queue sure (step e (.kill env o k options)) rs' false := by
  have hsame : (∀ m, o ≠ .produce σ.queue m) → rs' = rs := by
    intro hnot
    rcases hadds with rfl | ⟨m, hop, -⟩
    · rfl
    · exact absurd hop (hnot m)
  refine .later (h.sure_prefix.trans hadds.grows) ?_
  by_cases hfills : o.Fills σ.queue
  · rcases fills_cases hfills with rfl | ⟨m, rfl⟩
    · obtain rfl := hsame (by simp)
      obtain ⟨calls, hcalls, hleaves⟩ := create_leaves h.leaves hc.stored
        ⟨rs', [], h.sure_prefix, List.prefix_rfl, .inl rfl, by simp⟩ env hc.tracks.data_dir
      have hcalls' : (runOp env e (.createQueue σ.queue)).2.fs = e.fs.after calls := hcalls
      rw [step_kill env (.createQueue σ.queue) k options hcalls']
      exact hleaves k
    · obtain ⟨rfl, -, hfit⟩ := ha.produce m rfl
      cases h with
      | first hl hpolicy =>
        obtain ⟨calls, hcalls, hcut, -⟩ := produce_leaves hl hc.stored env m hpolicy
        have hcalls' : (runOp env e (.produce σ.queue m)).2.fs = e.fs.after calls := hcalls
        rw [step_kill env (.produce σ.queue m) k options hcalls'] at hst ⊢
        obtain ⟨t, ht, hcontent, hleaves⟩ := hcut k
        refine hleaves.mono ?_
        rintro c ⟨t', ht', rfl⟩
        rcases hadds with rfl | ⟨m', hm', rfl⟩
        · -- The record is not whole, and neither is what is left of it.
          obtain ⟨t1, hc1, htorn⟩ := hst.content
          have heq : t = t1 := List.append_cancel_left (hcontent.symm.trans hc1)
          subst heq
          exact ⟨rs', t', List.prefix_rfl, List.prefix_rfl, htorn.part ht', rfl⟩
        · obtain ⟨-, rfl⟩ := Op.produce.inj hm'
          have hpart := ht'.trans ht
          by_cases hwhole : t'.length = (Frame.bytes ((messageFrame (env, m)).1,
              (messageFrame (env, m)).2.withOffset (UInt64.ofNat sure.length))).length
          · refine ⟨sure ++ [messageFrame (env, m)], [], List.prefix_append _ _, List.prefix_rfl, .inl rfl, ?_⟩
            rw [layout_stamped_concat, hpart.eq_of_length hwhole, List.append_nil]
          · refine ⟨sure, t', List.prefix_rfl, List.prefix_append _ _, .inr ⟨_, hfit.withOffset _, hpart, ?_⟩, rfl⟩
            exact lt_of_le_of_ne hpart.length_le hwhole
  · have hclear : o.Clear σ.dir σ.queue := ha.clear
    obtain ⟨-, calls, hcalls, hsp⟩ := runOp_spares env hc.tracks.data_dir hc.tracks.placed hclear hfills
    obtain rfl := hsame (by rintro m rfl; exact hfills rfl)
    rw [step_kill env o k options hcalls, Fs.media_after]
    exact h.leaves.run (Fs.media_ok _ _) fun c hmem => hsp c (List.mem_of_mem_take hmem)

end steps

/-! ## Runs -/

/-- The records of the messages. -/
def RecordsOf (rs : List Frame) (ms : List Message) : Prop := List.Forall₂ (fun f m => f.2 = recordOf m) rs ms

theorem RecordsOf.append {rs rs' : List Frame} {ms ms' : List Message} (h : RecordsOf rs ms) (h' : RecordsOf rs' ms') :
    RecordsOf (rs ++ rs') (ms ++ ms') := List.rel_append h h'

theorem RecordsOf.take {rs : List Frame} {ms : List Message} (h : RecordsOf rs ms) (n : Nat) :
    RecordsOf (rs.take n) (ms.take n) := List.forall₂_take n h

end PomaiQueue.Engine
