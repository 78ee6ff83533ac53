import PomaiQueue.Produce
import PomaiQueue.Tracks
/-!
# The segment of a queue over a run

`Stored`: what the segment of queue `q` holds while the engine runs, is killed and
started again. Messages are produced in the first life of the engine only. A
kill can leave a part of the last record behind the others, which the next
`CreateQueue` cuts off.
-/

namespace PomaiQueue.Storage

open Wire Posix

/-- Nothing, or a part of a record. -/
def Torn (t : Bytes) : Prop := t = [] ∨ ∃ f : Frame, f.2.Fits ∧ t <+: f.bytes ∧ t.length < f.bytes.length

theorem writeCalls_take (path : Path) (pos : Nat) (chunks : List Bytes) (k : Nat) :
    (writeCalls path pos chunks).take k = writeCalls path pos (chunks.take k) := by
  induction chunks generalizing pos k with
  | nil => simp [writeCalls]
  | cons c chunks ih =>
    cases k with
    | zero => simp [writeCalls]
    | succ k => simp [writeCalls, ih]

/-- Some of the calls of an append on a live log write a first part of the frame. -/
theorem Live.append_cut {log : SegmentLog} {fs : Fs} {frames : List Frame} (h : Live log fs frames) (io : Io)
    (r : Record) :
    ∃ calls, (SegmentLog.append io r log fs).2.2 = fs.after calls ∧ ∀ k, ∃ t, t <+: (Frame.ofAppend io r log).bytes ∧
      (layout frames ++ t).length ≤ maxOff ∧
      (calls.take k).foldl exec fs.disk = Function.update fs.disk log.path (some (layout frames ++ t)) := by
  obtain ⟨n, chunks, sync, hn, hflat, hs, hres⟩ := append_cases io r log fs _ h.fd
  refine ⟨writeCalls log.path (layout frames).length chunks ++ sync, ?_, fun k => ?_⟩
  · rcases hres with ⟨e, he⟩ | ⟨-, -, he⟩
    · rw [he]; rfl
    · rw [he]; rfl
  · have hpre : chunks.flatten <+: (Frame.ofAppend io r log).bytes := by
      rw [hflat]
      exact List.take_prefix _ _
    have hsome : ∀ cs : List Bytes, (writeCalls log.path (layout frames).length cs).foldl exec fs.disk =
        Function.update fs.disk log.path (some (layout frames ++ cs.flatten)) := by
      intro cs
      rw [foldl_writeCalls log.path _ cs fs.disk _ h.file le_rfl, overwrite_end]
    rw [List.take_append, List.foldl_append, writeCalls_take, hsome]
    have htake : (chunks.take k).flatten <+: chunks.flatten := by
      refine ⟨(chunks.drop k).flatten, ?_⟩
      rw [← List.flatten_append, List.take_append_drop]
    refine ⟨(chunks.take k).flatten, htake.trans hpre, ?_, ?_⟩
    · have hmax := accepted_maxOff io.writes (layout frames).length
        (recordBytes io.pad (r.withOffset log.next_offset)).length h.small
      have hle := htake.length_le
      rw [hflat, List.length_take] at hle
      rw [List.length_append]
      omega
    · -- An fsync changes no file.
      have hsync : ∀ (d : Disk) (j : Nat), (sync.take j).foldl exec d = d := by
        intro d j
        rcases hs with rfl | rfl
        · simp
        · cases j <;> simp [exec]
      exact hsync _ _

/-- Some of the calls with which whole records and a torn one are recovered. -/
theorem reopen_cut (io : Io) (path : Path) (policy : FsyncPolicy) (fs : Fs) {frames : List Frame} {t : Bytes}
    (hc : fs.content path = layout frames ++ t) (hfit : ∀ f ∈ frames, f.2.Fits) (ht : Torn t) :
    ∃ calls, (SegmentLog.reopen io path policy fs).2.2 = fs.after calls ∧ ∀ k, ∃ t', Torn t' ∧
      (((calls.take k).foldl exec fs.disk) path).getD [] = layout frames ++ t' := by
  rcases SegmentLog.reopen_cases io path policy with ⟨e, he⟩ | hopened
  · refine ⟨[], by rw [he, Fs.after_nil], fun k => ⟨t, ht, ?_⟩⟩
    rw [List.take_nil]
    exact hc
  have hfile : (fs.call (.creat path)).content path = layout frames ++ t := by
    rw [← hc, Fs.content, Fs.disk_call, exec, Function.update_self]
    rfl
  have hscan : SegmentLog.recoverLoop (layout frames ++ t) ((layout frames ++ t).length + 1) 0 ∅ 0 =
      (indexFrom 0 frames ∅, nextFrom 0 frames, if t = [] then none else some (layout frames).length) := by
    rcases ht with rfl | ⟨g, hg, hpre, hlt⟩
    · simpa using scan_layout frames hfit
    · exact scan_torn frames hfit t g hg hpre hlt
  simp only [hopened, SegmentLog.recover, hfile, hscan]
  have hcreat : (exec fs.disk (.creat path) path).getD [] = layout frames ++ t := by
    rw [← hc, exec, Function.update_self]
    rfl
  by_cases h0 : t = []
  · refine ⟨[.creat path], by simp only [h0, if_true]; rfl, fun k => ⟨t, ht, ?_⟩⟩
    cases k with
    | zero => exact hc
    | succ k => simpa using hcreat
  · refine ⟨[.creat path, .ftruncate path (layout frames).length],
      by simp only [h0, if_false]; simp [Fs.call, Fs.after], fun k => ?_⟩
    rcases k with _ | _ | k
    · exact ⟨t, ht, hc⟩
    · exact ⟨t, ht, by simpa using hcreat⟩
    · refine ⟨[], .inl rfl, ?_⟩
      have hd : fs.disk path = some (layout frames ++ t) ∨ fs.disk path = none ∧ layout frames ++ t = [] := by
        rw [Fs.content] at hc
        cases hdisk : fs.disk path with
        | none => rw [hdisk] at hc; exact .inr ⟨rfl, hc.symm⟩
        | some c => rw [hdisk] at hc; exact .inl (congrArg some hc)
      rcases hd with hd | ⟨-, hnil⟩
      · simp [exec, hd]
      · exact absurd (List.append_eq_nil_iff.1 hnil).2 h0

end PomaiQueue.Storage

namespace PomaiQueue.Engine

open Wire Posix Assoc Storage

/-- The record that is read at an offset of a segment that holds `rs`. -/
def siteOf (rs : List Frame) (o : UInt64) (r : Record) : Prop :=
  ∃ f, rs[o.toNat]? = some f ∧ r = Frame.stored (f.1, f.2.withOffset o)

theorem siteOf_mono {rs rs' : List Frame} (h : rs <+: rs') {o : UInt64} {r : Record} (hs : siteOf rs o r) :
    siteOf rs' o r := by
  obtain ⟨f, hf, rfl⟩ := hs
  obtain ⟨rest, rfl⟩ := h
  exact ⟨f, by rw [List.getElem?_append_left (List.getElem?_eq_some_iff.1 hf).1]; exact hf, rfl⟩

/-- What the segment of queue `q` holds. `fresh` as long as no process was killed. -/
inductive Stored (dir q : Path) (e : QueueEngine) : List Frame → Bool → Prop
  | absent (hq : e.queues.lookup q = none) (hc : e.fs.content (segmentPath dir q) = []) : Stored dir q e [] true
  | live {rs queue} (hq : e.queues.lookup q = some queue) (hp : queue.segment.path = segmentPath dir q)
      (hh : Holds queue.segment e.fs rs) (hfit : ∀ f ∈ rs, f.2.Fits) : Stored dir q e rs true
  | closed {rs t} (hq : e.queues.lookup q = none) (hc : e.fs.content (segmentPath dir q) = layout (stamped rs) ++ t)
      (ht : Torn t) (hlen : rs.length < 2 ^ 57) (hfit : ∀ f ∈ rs, f.2.Fits) : Stored dir q e rs false
  | reopened {rs queue p} (hq : e.queues.lookup q = some queue) (hp : queue.segment.path = segmentPath dir q)
      (hfd : queue.segment.fd = some p) (hix : queue.segment.offset_to_position = indexFrom 0 (stamped rs) ∅)
      (hc : e.fs.content (segmentPath dir q) = layout (stamped rs)) (hlen : rs.length < 2 ^ 57)
      (hfit : ∀ f ∈ rs, f.2.Fits) : Stored dir q e rs false

section stored

variable {dir q : Path} {e e' : QueueEngine} {rs : List Frame} {fresh : Bool}

theorem Stored.fits (h : Stored dir q e rs fresh) : ∀ f ∈ rs, f.2.Fits := by
  cases h with
  | absent => simp
  | live hq hp hh hfit => exact hfit
  | closed hq hc ht hlen hfit => exact hfit
  | reopened hq hp hfd hix hc hlen hfit => exact hfit

theorem Stored.length_lt (h : Stored dir q e rs fresh) : rs.length < 2 ^ 57 := by
  cases h with
  | absent => simp
  | live hq hp hh hfit => exact hh.length_lt
  | closed hq hc ht hlen hfit => exact hlen
  | reopened hq hp hfd hix hc hlen hfit => exact hlen

/-- A queue that is there has an index of all records, and nothing else in its file. -/
theorem Stored.opened (h : Stored dir q e rs fresh) {queue : QueueState} (hqueue : e.queues.lookup q = some queue) :
    ∃ p, queue.segment.fd = some p ∧ queue.segment.offset_to_position = indexFrom 0 (stamped rs) ∅ ∧
      queue.segment.path = segmentPath dir q ∧ e.fs.content (segmentPath dir q) = layout (stamped rs) := by
  cases h with
  | absent hq => rw [hq] at hqueue; cases hqueue
  | live hq hp hh hfit =>
    rw [hq] at hqueue
    obtain rfl := Option.some.inj hqueue
    exact ⟨_, hh.fd, hh.index, hp, hp ▸ hh.content⟩
  | closed hq => rw [hq] at hqueue; cases hqueue
  | reopened hq hp hfd hix hc hlen hfit =>
    rw [hq] at hqueue
    obtain rfl := Option.some.inj hqueue
    exact ⟨_, hfd, hix, hp, hc⟩

theorem Stored.read_of (h : Stored dir q e rs fresh) {queue : QueueState} (hqueue : e.queues.lookup q = some queue)
    {o : UInt64} {f : Frame} (hf : rs[o.toNat]? = some f) :
    queue.segment.read e.fs o = .ok (Frame.stored (f.1, f.2.withOffset o)) := by
  obtain ⟨p, hfd, hix, hp, hc⟩ := h.opened hqueue
  have hlen := h.length_lt
  have hi : o.toNat < rs.length := (List.getElem?_eq_some_iff.1 hf).1
  have hs : (stamped rs)[o.toNat]? = some (f.1, f.2.withOffset o) := by
    rw [stamped_getElem?, hf, UInt64.ofNat_toNat]
    rfl
  refine read_frame queue.segment e.fs o p (layout ((stamped rs).take o.toNat)) (layout ((stamped rs).drop (o.toNat + 1)))
    (f.1, f.2.withOffset o) ((h.fits f (List.mem_of_getElem? hf)).withOffset o) hfd ?_ ?_
  · rw [hix, lookup_stamped rs (by omega), if_pos hi]
  · rw [hp, hc, layout_split _ _ _ hs]

theorem Stored.read_site (h : Stored dir q e rs fresh) {queue : QueueState} (hqueue : e.queues.lookup q = some queue)
    {o : UInt64} {r : Record} (hread : queue.segment.read e.fs o = .ok r) : siteOf rs o r := by
  obtain ⟨p, hfd, hix, hp, hc⟩ := h.opened hqueue
  have hlen := h.length_lt
  have hl := lookup_stamped rs (by omega) o
  by_cases hi : o.toNat < rs.length
  · have hf : rs[o.toNat]? = some rs[o.toNat] := List.getElem?_eq_getElem hi
    rw [h.read_of hqueue hf] at hread
    exact ⟨_, hf, (Except.ok.inj hread).symm⟩
  · rw [if_neg hi, ← hix] at hl
    simp only [SegmentLog.read, hl] at hread
    cases hread

theorem Stored.offsets (h : Stored dir q e rs fresh) {queue : QueueState} (hqueue : e.queues.lookup q = some queue) :
    queue.segment.offsets = (List.range rs.length).map UInt64.ofNat := by
  obtain ⟨p, hfd, hix, hp, hc⟩ := h.opened hqueue
  have hlen := h.length_lt
  exact offsets_stamped queue.segment rs (by omega) hix

/-- Every offset can be read. -/
theorem Stored.reads (h : Stored dir q e rs fresh) {queue : QueueState} (hqueue : e.queues.lookup q = some queue) {o : UInt64}
    (ho : o ∈ queue.segment.offsets) : ∃ record, queue.segment.read e.fs o = .ok record := by
  rw [h.offsets hqueue] at ho
  obtain ⟨i, hi, rfl⟩ := List.mem_map.1 ho
  have hlen := h.length_lt
  have hi' : (UInt64.ofNat i).toNat = i := by
    rw [UInt64.toNat_ofNat']
    exact Nat.mod_eq_of_lt (by have := List.mem_range.1 hi; omega)
  have hf : rs[(UInt64.ofNat i).toNat]? = some (rs.get ⟨i, List.mem_range.1 hi⟩) := by
    rw [hi']
    exact List.getElem?_eq_getElem _
  exact ⟨_, h.read_of hqueue hf⟩

/-- Every record is there to be read. -/
theorem Stored.inSegment (h : Stored dir q e rs fresh) {queue : QueueState} (hqueue : e.queues.lookup q = some queue)
    {o : UInt64} {r : Record} (hs : siteOf rs o r) : InSegment queue.segment e.fs (idOf r) := by
  obtain ⟨f, hf, rfl⟩ := hs
  have hi : o.toNat < rs.length := (List.getElem?_eq_some_iff.1 hf).1
  refine ⟨o, ?_, _, h.read_of hqueue hf, rfl⟩
  rw [h.offsets hqueue]
  exact List.mem_map.2 ⟨o.toNat, List.mem_range.2 hi, UInt64.ofNat_toNat⟩

/-! ## What leaves the segment alone -/

/-- The segment of the queue and its file are as before. -/
theorem Stored.congr (h : Stored dir q e rs fresh)
    (hq : (e'.queues.lookup q).map (·.segment) = (e.queues.lookup q).map (·.segment))
    (hd : e'.fs.disk (segmentPath dir q) = e.fs.disk (segmentPath dir q)) : Stored dir q e' rs fresh := by
  have hcont : e'.fs.content (segmentPath dir q) = e.fs.content (segmentPath dir q) := by rw [Fs.content, hd, Fs.content]
  cases h with
  | absent hnone hc =>
    rw [hnone, Option.map_none, Option.map_eq_none_iff] at hq
    exact .absent hq (hcont.trans hc)
  | live hsome hp hh hfit =>
    rw [hsome, Option.map_some, Option.map_eq_some_iff] at hq
    obtain ⟨queue', hq', hseg⟩ := hq
    refine .live hq' (by rw [hseg]; exact hp) ?_ hfit
    rw [hseg]
    exact ⟨⟨by rw [hp, hd, ← hp]; exact hh.file, hh.fd, hh.small⟩, hh.next, hh.index⟩
  | closed hnone hc ht hlen hfit =>
    rw [hnone, Option.map_none, Option.map_eq_none_iff] at hq
    exact .closed hq (hcont.trans hc) ht hlen hfit
  | reopened hsome hp hfd hix hc hlen hfit =>
    rw [hsome, Option.map_some, Option.map_eq_some_iff] at hq
    obtain ⟨queue', hq', hseg⟩ := hq
    exact .reopened hq' (by rw [hseg]; exact hp) (by rw [hseg]; exact hfd) (by rw [hseg]; exact hix) (hcont.trans hc) hlen hfit

/-- What there is in the file, whoever has it open. -/
theorem Stored.content (h : Stored dir q e rs fresh) :
    ∃ t, e.fs.content (segmentPath dir q) = layout (stamped rs) ++ t ∧ Torn t := by
  cases h with
  | absent hnone hc => exact ⟨[], by simpa [stamped] using hc, .inl rfl⟩
  | live hsome hp hh hfit => exact ⟨[], by rw [← hp, hh.content, List.append_nil], .inl rfl⟩
  | closed hnone hc ht hlen hfit => exact ⟨_, hc, ht⟩
  | reopened hsome hp hfd hix hc hlen hfit => exact ⟨[], by rw [hc, List.append_nil], .inl rfl⟩

/-- A new process on the same segment file. -/
theorem Stored.restart (h : Stored dir q e rs fresh) (hq : e'.queues.lookup q = none)
    (hd : e'.fs.disk (segmentPath dir q) = e.fs.disk (segmentPath dir q)) : Stored dir q e' rs false := by
  obtain ⟨t, hc, ht⟩ := h.content
  refine .closed (t := t) hq ?_ ht h.length_lt h.fits
  rw [Fs.content, hd, ← hc]
  rfl

/-- The operation is on the queue, or neither its segment nor the directories in front of that are where the
queue's segment is. Files of groups have other names. -/
def Op.Clear (dir q : Path) : Op → Prop
  | .createQueue q' | .produce q' _ => q' = q ∨ Away (segmentPath dir q') (segmentPath dir q)
  | .group _ _ _ => True

/-- The operation creates the queue or produces to it. -/
def Op.Fills (q : Path) : Op → Prop
  | .createQueue q' | .produce q' _ => q' = q
  | .group _ _ _ => False

theorem segment_insert {e : QueueEngine} {q q' : Path} {queue : QueueState} {fs : Fs}
    (h : q' = q → some queue.segment = (e.queues.lookup q).map (·.segment)) :
    ((AList.lookup q ({ e with queues := e.queues.insert q' queue, fs := fs } : QueueEngine).queues).map (·.segment)) =
      (e.queues.lookup q).map (·.segment) := by
  by_cases hq : q' = q
  · subst hq
    rw [AList.lookup_insert, Option.map_some]
    exact h rfl
  · rw [AList.lookup_insert_ne (Ne.symm hq)]

/-- Operations that do not fill the queue leave its segment and the file alone. -/
theorem runOp_spares (env : Env) (hdir : e.options.data_dir = dir) (hp : Placed e) {o : Op} (hclear : o.Clear dir q)
    (hfills : ¬ o.Fills q) :
    ((runOp env e o).2.queues.lookup q).map (·.segment) = (e.queues.lookup q).map (·.segment) ∧
      ∃ calls, (runOp env e o).2.fs = e.fs.after calls ∧ ∀ c ∈ calls, c.Spares (segmentPath dir q) := by
  subst hdir
  have heffect := runOp_effect env e o
  generalize (runOp env e o).2 = e' at heffect
  cases heffect with
  | none => exact ⟨rfl, [], (Fs.after_nil _).symm, by simp⟩
  | created q' hnone hpath hcalls =>
    obtain ⟨calls, rfl, hsp⟩ := hcalls
    have hne : segmentPath e.options.data_dir q ≠ segmentPath e.options.data_dir q' := (Away.ne (hclear.resolve_left hfills)).symm
    exact ⟨segment_insert fun hq => absurd hq hfills, calls, rfl, hsp _ hne⟩
  | produced q' m hqueue hpath hcalls =>
    obtain ⟨calls, rfl, hsp⟩ := hcalls
    rw [hp q' _ hqueue] at hsp
    have hne : segmentPath e.options.data_dir q ≠ segmentPath e.options.data_dir q' := (Away.ne (hclear.resolve_left hfills)).symm
    exact ⟨segment_insert fun hq => absurd hq hfills, calls, rfl, hsp _ hne⟩
  | group q' g' op hqueue hgroup =>
    obtain ⟨labels, hd, -, -⟩ := hp.does op hqueue
    obtain ⟨calls, hc, htells⟩ := hd.calls
    refine ⟨segment_insert fun hq => ?_, calls, hc, htells.spares _ (aside_segment _ q' q g')⟩
    subst hq
    rw [hqueue]
    rfl

/-! ## Filling the queue -/

theorem Stored.create (h : Stored dir q e rs fresh) (env : Env) (hdir : e.options.data_dir = dir) :
    Stored dir q (createQueueOnShard env q e).2 rs fresh := by
  rcases createQueueOnShard_cases env q e with heq | ⟨hnone, hok, heq⟩
  · rw [heq]
    exact h
  · rw [hdir] at hok heq
    have hopen : env.fault (.creat (segmentPath dir q)) = none := by
      by_contra hc
      obtain ⟨n, hn⟩ := Option.ne_none_iff_exists'.1 hc
      obtain ⟨err, herr⟩ := openError_error (α := Unit) n "open segment failed"
      rw [SegmentLog.reopen_refused hn, herr] at hok
      cases hok
    cases h with
    | absent hq hc =>
      obtain ⟨-, hholds⟩ := holds_reopen e.options.fsync_policy hopen hc
      rw [heq]
      exact .live (AList.lookup_insert _) (reopen_path _ _ _ _) hholds (by simp)
    | live hq => rw [hq] at hnone; cases hnone
    | closed hq hc ht hlen hfit =>
      obtain ⟨log, fs', hre, hp, -, hfd, -, hix, hdisk, -⟩ := reopen_stamped env.toIo (segmentPath dir q)
        e.options.fsync_policy e.fs rs _ hopen hc hfit (by omega) ht
      rw [heq, hre]
      refine .reopened (AList.lookup_insert _) hp hfd hix ?_ hlen hfit
      rw [Fs.content, hdisk, Function.update_self]
      rfl
    | reopened hq => rw [hq] at hnone; cases hnone

/-- An append that fails when nothing else goes wrong is an I/O error. -/
theorem append_quiet_error {io : Io} (hq : io.Quiet) {r : Record} {log : SegmentLog} {fs : Fs} {pos : Nat} {err : Failure}
    (hfd : log.fd = some pos) (h : (SegmentLog.append io r log fs).1 = .error err) : ∃ msg, err = .status .kIOError msg := by
  have hf := hq.fault
  have hp := hq.failpoint
  have henc : encodeRecord io.pad { r with header := { r.header with offset := log.next_offset } } =
      .ok (recordBytes io.pad (r.withOffset log.next_offset)) := rfl
  simp only [SegmentLog.append, hfd, henc] at h
  generalize SegmentLog.writeAll log.path io.writes pos _ fs = written at h
  obtain ⟨ok, pos', fs'⟩ := written
  cases ok with
  | false => exact ⟨_, (Except.error.inj h).symm⟩
  | true =>
    dsimp only at h
    have hsync : (if log.fsync_policy = .kAlways then fsyncFile io log.path fs' else (.ok (), fs')).1 = .ok () := by
      split
      · simp [fsyncFile, hf, hp]
      · rfl
    generalize (if log.fsync_policy = .kAlways then fsyncFile io log.path fs' else (.ok (), fs')) = synced at h hsync
    obtain ⟨res, fs2⟩ := synced
    obtain rfl : res = .ok () := hsync
    cases h

/-- Producing when nothing goes wrong. -/
theorem Stored.produce (h : Stored dir q e rs true) {env : Env} (hq : env.toIo.Quiet) {m : Message}
    (hfit : (recordOf m).Fits) (hio : ∀ msg, (produceOnShard env q m e).1 ≠ .error (.status .kIOError msg)) :
    (((∃ o, (produceOnShard env q m e).1 = .ok o) ∧
        Stored dir q (produceOnShard env q m e).2 (rs ++ [messageFrame (env, m)]) true) ∨
      ((∃ err, (produceOnShard env q m e).1 = .error err) ∧ Stored dir q (produceOnShard env q m e).2 rs true)) := by
  rcases produceOnShard_cases env q m e with ⟨err, heq⟩ | ⟨queue, hqueue, heq⟩
  · rw [heq]
    exact .inr ⟨⟨err, rfl⟩, h⟩
  · cases h with
    | absent hnone => rw [hnone] at hqueue; cases hqueue
    | @live _ queue' hsome hp hh hfits =>
      obtain rfl : queue' = queue := Option.some.inj (hsome.symm.trans hqueue)
      rw [heq] at hio ⊢
      have hbad : ∀ err, (SegmentLog.append env.toIo (recordOf m) queue'.segment e.fs).1 = .error err → False := by
        intro err herr
        obtain ⟨msg, rfl⟩ := append_quiet_error hq hh.fd herr
        exact hio msg herr
      generalize ha : SegmentLog.append env.toIo (recordOf m) queue'.segment e.fs = appended at hbad ⊢
      obtain ⟨res, log', fs'⟩ := appended
      cases res with
      | error err => exact (hbad err rfl).elim
      | ok o =>
        obtain ⟨-, hp', -, hh'⟩ := hh.append_ok ha
        refine .inl ⟨⟨o, rfl⟩, .live (AList.lookup_insert _) (hp'.trans hp) hh' ?_⟩
        intro f hf
        rcases List.mem_append.1 hf with hf | hf
        · exact hfits f hf
        · rw [List.mem_singleton.1 hf]
          exact hfit

theorem layout_stamped_concat (rs : List Frame) (f : Frame) :
    layout (stamped (rs ++ [f])) = layout (stamped rs) ++ Frame.bytes (f.1, f.2.withOffset (UInt64.ofNat rs.length)) := by
  rw [stamped_concat, layout_append]
  simp

/-- A kill while a message is produced leaves it whole, or a part of it. -/
theorem Stored.produce_cut (h : Stored dir q e rs true) (env : Env) {m : Message} (hfit : (recordOf m).Fits) (k : Nat)
    (hq : e'.queues.lookup q = none)
    (hfs : e'.fs = (produceOnShard env q m e).2.fs.cut (e.fs.calls.length + k)) :
    Stored dir q e' rs false ∨ Stored dir q e' (rs ++ [messageFrame (env, m)]) false := by
  rcases produceOnShard_cases env q m e with ⟨err, heq⟩ | ⟨queue, hqueue, heq⟩
  · left
    apply h.restart hq
    rw [hfs, heq, Fs.cut, List.take_of_length_le (Nat.le_add_right _ _)]
  · cases h with
    | absent hnone => rw [hnone] at hqueue; cases hqueue
    | @live _ queue' hsome hp hh hfits =>
      obtain rfl : queue' = queue := Option.some.inj (hsome.symm.trans hqueue)
      obtain ⟨calls, hcalls, hcut⟩ := hh.toLive.append_cut env.toIo (recordOf m)
      obtain ⟨t, ht, hmax, hdisk⟩ := hcut k
      have hlen := hh.length_lt
      have hframe : Frame.ofAppend env.toIo (recordOf m) queue'.segment =
          ((messageFrame (env, m)).1, (messageFrame (env, m)).2.withOffset (UInt64.ofNat rs.length)) := by
        rw [Frame.ofAppend, hh.next]
        rfl
      have hc : e'.fs.content (segmentPath dir q) = layout (stamped rs) ++ t := by
        rw [hfs, heq]
        dsimp only
        rw [hcalls, Fs.cut_after, Fs.content, Fs.disk_after, hdisk, hp, Function.update_self]
        rfl
      rw [hframe] at ht
      by_cases hall : t.length = (Frame.bytes ((messageFrame (env, m)).1,
          (messageFrame (env, m)).2.withOffset (UInt64.ofNat rs.length))).length
      · right
        have hwhole := ht.eq_of_length hall
        have hc' : e'.fs.content (segmentPath dir q) = layout (stamped (rs ++ [messageFrame (env, m)])) := by
          rw [hc, layout_stamped_concat, hwhole]
        refine .closed (t := []) hq (by rw [hc', List.append_nil]) (.inl rfl) ?_ ?_
        · have hge := layout_length_ge (stamped (rs ++ [messageFrame (env, m)]))
          have hl : (layout (stamped (rs ++ [messageFrame (env, m)]))).length ≤ maxOff := by
            rw [layout_stamped_concat, ← hwhole]
            exact hmax
          simp only [headerSize, stamped_length, maxOff] at hge hl
          omega
        · intro f hf
          rcases List.mem_append.1 hf with hf | hf
          · exact hfits f hf
          · rw [List.mem_singleton.1 hf]
            exact hfit
      · left
        refine .closed (t := t) hq hc (.inr ⟨_, hfit.withOffset _, ht, ?_⟩) (by omega) hfits
        exact lt_of_le_of_ne ht.length_le hall

/-- A kill while the queue is created leaves its records. -/
theorem Stored.create_cut (h : Stored dir q e rs fresh) (env : Env) (hdir : e.options.data_dir = dir) (k : Nat)
    (hq : e'.queues.lookup q = none)
    (hfs : e'.fs = (createQueueOnShard env q e).2.fs.cut (e.fs.calls.length + k)) : Stored dir q e' rs false := by
  rcases createQueueOnShard_cases env q e with heq | ⟨-, -, heq⟩
  · apply h.restart hq
    rw [hfs, heq, Fs.cut, List.take_of_length_le (Nat.le_add_right _ _)]
  · obtain ⟨t, hc, ht⟩ := h.content
    obtain ⟨calls, hcalls, hcut⟩ := reopen_cut env.toIo (segmentPath dir q) e.options.fsync_policy e.fs hc
      (stamped_fits h.fits) ht
    obtain ⟨t', ht', hc'⟩ := hcut k
    refine .closed (t := t') hq ?_ ht' h.length_lt h.fits
    have hfs' : (createQueueOnShard env q e).2.fs = e.fs.after calls := by
      rw [hdir] at heq
      rw [heq, hcalls]
    rw [hfs, hfs', Fs.cut_after, Fs.content, Fs.disk_after]
    exact hc'

end stored

end PomaiQueue.Engine
