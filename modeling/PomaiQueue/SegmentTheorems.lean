import PomaiQueue.SegmentHolds
/-!
# Theorems about the segment log

`recover_of_cut`: whatever length the file is cut to, recovery keeps exactly
the whole records before the cut.

`reopen_append_intact_iff`: appending after a reopen keeps the log intact only if
there was nothing in it. `Open` leaves the descriptor at position 0 and
`Recover` does not move it, so the first append overwrites the first record.

`failed_append_harmless`: failed appends do no harm as long as no part of a
record is left behind with anything written after it.
-/

namespace PomaiQueue.Storage

open Wire Posix

/-! ## Cutting a file of whole records -/

/-- A cut falls behind some whole records and inside the next one. -/
theorem layout_take (frames : List Frame) (L : Nat) (hL : L ≤ (layout frames).length) :
    ∃ k t, k ≤ frames.length ∧ (layout frames).take L = layout (frames.take k) ++ t ∧
      (layout (frames.take k)).length ≤ L ∧
      (k = frames.length ∧ t = [] ∨
        L < (layout (frames.take (k + 1))).length ∧
          ∃ g ∈ frames, t <+: g.bytes ∧ t.length < g.bytes.length) := by
  induction frames generalizing L with
  | nil => exact ⟨0, [], by simp, by simp, by simp, .inl ⟨rfl, rfl⟩⟩
  | cons f frames ih =>
    rw [layout_cons, List.length_append] at hL
    by_cases hlt : L < f.bytes.length
    · refine ⟨0, f.bytes.take L, by simp, ?_, by simp, .inr ⟨by simpa using hlt, f, by simp, List.take_prefix _ _, ?_⟩⟩
      · simp [List.take_append_of_le_length (Nat.le_of_lt hlt)]
      · rw [List.length_take]; omega
    · obtain ⟨k, t, hk, heq, hle, hrest⟩ := ih (L - f.bytes.length) (by omega)
      refine ⟨k + 1, t, by simp; omega, ?_, ?_, ?_⟩
      · rw [layout_cons, List.take_append, List.take_of_length_le (by omega), heq]
        simp
      · simp only [List.take_succ_cons, layout_cons, List.length_append]; omega
      · rcases hrest with ⟨rfl, rfl⟩ | ⟨hlt', g, hg, hpre, hgl⟩
        · exact .inl ⟨by simp, rfl⟩
        · refine .inr ⟨?_, g, by simp [hg], hpre, hgl⟩
          simp only [List.take_succ_cons, layout_cons, List.length_append] at hlt' ⊢
          omega

/-- The size of a record in the file. -/
def frameSize (r : Record) : Nat := headerSize + (bodyBytes r).length

/-- The end of the `k`-th record. -/
def recordEnd (rs : List Record) (k : Nat) : Nat := ((rs.take k).map frameSize).sum

theorem layout_length (rs : List Frame) (k : Nat) :
    (layout ((stamped rs).take k)).length = recordEnd (rs.map Prod.snd) k := by
  rw [stamped_take, recordEnd, ← List.map_take, List.map_map]
  induction rs.take k using List.reverseRecOn with
  | nil => simp [stamped]
  | append_singleton rs f ih =>
    rw [stamped_concat, layout_append, List.length_append, ih]
    simp [Frame.bytes, recordBytes_length, frameSize, Record.withOffset, bodyBytes]

/-- Prefix-safe recovery. Appending `ops` to a fresh log without an error and
cutting the file at `L`, a new log opens and recovers exactly the records that
lie within `L` bytes, and cuts the file behind the last of them. -/
theorem recover_of_cut (path : Path) (policy policy' : FsyncPolicy) (fs : Fs) (ops : List (Io × Record)) (io : Io)
    (L : Nat) (hnew : fs.disk path = none) (hok : AllOk (freshAppend path policy fs ops).1)
    (hfit : ∀ op ∈ ops, op.2.Fits) (hL : L ≤ ((freshAppend path policy fs ops).2.2.content path).length)
    (hopen : io.fault (.creat path) = none) :
    ∃ log' fs' k,
      SegmentLog.reopen io path policy' ((freshAppend path policy fs ops).2.2.call (.ftruncate path L)) =
        (.ok (), log', fs') ∧
      k ≤ ops.length ∧ recordEnd (ops.map Prod.snd) k ≤ L ∧
      (k < ops.length → L < recordEnd (ops.map Prod.snd) (k + 1)) ∧
      fs'.content path = ((freshAppend path policy fs ops).2.2.content path).take (recordEnd (ops.map Prod.snd) k) ∧
      Yields log' fs' ((ops.map Prod.snd).take k) := by
  obtain ⟨hpath, hh⟩ := holds_freshAppend hnew hok
  generalize freshAppend path policy fs ops = run at hL hpath hh ⊢
  obtain ⟨results, log1, fs1⟩ := run
  dsimp only at hL hpath hh ⊢
  have hfits := appendFrame_fits hfit
  have hcontent : fs1.content path = layout (stamped (ops.map appendFrame)) := by rw [← hpath]; exact hh.content
  rw [hcontent] at hL
  obtain ⟨k, t, hk, hcut, hle, hrest⟩ := layout_take _ L hL
  rw [layout_length, appendFrame_snd] at hle
  simp only [stamped_length, List.length_map] at hk
  have hlen := hh.length_lt
  simp only [List.length_map] at hlen
  have hc : (fs1.call (.ftruncate path L)).content path = layout (stamped ((ops.map appendFrame).take k)) ++ t := by
    rw [← stamped_take, ← hcut, ← hcontent]
    simp only [Fs.content, Fs.disk_call, exec, Function.update_self]
    cases fs1.disk path <;> simp
  have htorn : t = [] ∨ ∃ g : Frame, g.2.Fits ∧ t <+: g.bytes ∧ t.length < g.bytes.length := by
    rcases hrest with ⟨-, rfl⟩ | ⟨-, g, hg, hpre, hgl⟩
    · exact .inl rfl
    · exact .inr ⟨g, stamped_fits hfits g hg, hpre, hgl⟩
  obtain ⟨log2, fs2, hre, -, -, -, -, -, hdisk, hy⟩ := reopen_stamped io path policy' _ _ t hopen hc
    (fun f hf => hfits f (List.mem_of_mem_take hf)) (by simp; omega) htorn
  rw [List.map_take, appendFrame_snd] at hy
  refine ⟨log2, fs2, k, hre, hk, hle, ?_, ?_, hy⟩
  · intro hlt
    rcases hrest with ⟨hall, -⟩ | ⟨hlt', -⟩
    · simp at hall; omega
    · rwa [layout_length, appendFrame_snd] at hlt'
  · have hsplit : layout (stamped (ops.map appendFrame)) = layout ((stamped (ops.map appendFrame)).take k) ++
        layout ((stamped (ops.map appendFrame)).drop k) := by
      rw [← layout_append, List.take_append_drop]
    rw [hcontent, ← appendFrame_snd, ← layout_length, hsplit, List.take_left, stamped_take]
    simp [Fs.content, hdisk]

/-- Two records of 65 bytes and a cut inside the second. -/
theorem recover_of_cut_inside :
    ∃ log' fs' k,
      SegmentLog.reopen {} [46, 47, 113] .kNever ((freshAppend [46, 47, 113] .kNever ⟨fun _ => none, []⟩
        [({}, { payload := [7] }), ({}, { payload := [8] })]).2.2.call (.ftruncate [46, 47, 113] 100)) = (.ok (), log', fs') ∧
      k ≤ 2 ∧ Yields log' fs' ([{ payload := [7] }, { payload := [8] }].take k) := by
  obtain ⟨log', fs', k, hre, hk, -, -, -, hy⟩ := recover_of_cut [46, 47, 113] .kNever .kNever ⟨fun _ => none, []⟩
    [({}, { payload := [7] }), ({}, { payload := [8] })] {} 100 rfl (by decide +kernel) (by decide) (by decide +kernel)
    rfl
  exact ⟨log', fs', k, hre, hk, hy⟩

/-! ## Appending after a reopen -/

/-- A log of `ops`, closed, opened again and continued with `ops2`: the results
of the two rounds of appends, the log and the files. -/
structure ReopenRun where
  results : List (StatusOr UInt64)
  status : StatusOr Unit
  results2 : List (StatusOr UInt64)
  log : SegmentLog
  fs : Fs

def reopenRun (path : Path) (policy policy' : FsyncPolicy) (fs : Fs) (ops : List (Io × Record)) (io : Io)
    (ops2 : List (Io × Record)) : ReopenRun :=
  match freshAppend path policy fs ops with
  | (results, _, fs) =>
    match SegmentLog.reopen io path policy' fs with
    | (status, log, fs) =>
      match SegmentLog.appendAll ops2 log fs with
      | (results2, log, fs) => { results, status, results2, log, fs }

/-- What appending `rs2` behind `rs` should leave: the offsets follow on, every
record reads back, and so it is after another restart. -/
structure AppendIntact (path : Path) (rs rs2 : List Record) (run : ReopenRun) : Prop where
  next : run.results2 = (List.range' rs.length rs2.length).map fun i => .ok (UInt64.ofNat i)
  read : ∀ i r, (rs ++ rs2)[i]? = some r → ∃ got, run.log.read run.fs (UInt64.ofNat i) = .ok got ∧ got.Is r i
  restart : ∀ (io : Io) (policy : FsyncPolicy), io.fault (.creat path) = none →
    ∃ log' fs', SegmentLog.reopen io path policy run.fs = (.ok (), log', fs') ∧ Yields log' fs' (rs ++ rs2)

/-- A log that held nothing is intact after any appends. -/
theorem Holds.intact {log log' : SegmentLog} {fs fs' : Fs} {ops : List (Io × Record)}
    {results results2 : List (StatusOr UInt64)} {status : StatusOr Unit} (h : Holds log fs [])
    (ha : SegmentLog.appendAll ops log fs = (results2, log', fs')) (hok : AllOk results2)
    (hfit : ∀ op ∈ ops, op.2.Fits) :
    AppendIntact log.path [] (ops.map Prod.snd) ⟨results, status, results2, log', fs'⟩ := by
  obtain ⟨hres, hpath, hh⟩ := h.appendAll_ok ha hok
  rw [List.nil_append] at hh
  have hfits := appendFrame_fits hfit
  have hy := hh.yields hfits
  rw [appendFrame_snd] at hy
  have hlen := hh.length_lt
  refine ⟨by simpa using hres, fun i r hr => hy.read i r hr, fun io policy hopen => ?_⟩
  obtain ⟨log2, fs2, hre, -, -, -, -, -, -, hy2⟩ := reopen_stamped io log.path policy fs' _ [] hopen
    (by rw [List.append_nil, ← hpath]; exact hh.content) hfits (by omega) (.inl rfl)
  rw [appendFrame_snd] at hy2
  exact ⟨log2, fs2, hre, hy2⟩

/-- A log whose file starts with `f` where the index still has offset 0. -/
structure Clobbered (log : SegmentLog) (fs : Fs) (f : Frame) : Prop where
  first : log.offset_to_position.lookup 0 = some 0
  next_pos : 0 < log.next_offset.toNat
  file : ∃ p c, log.fd = some p ∧ fs.disk log.path = some c ∧ f.bytes.length ≤ p ∧ p ≤ c.length ∧ p ≤ maxOff ∧
    f.bytes <+: c ∧ headerSize * log.next_offset.toNat ≤ 2 ^ 63 + p

theorem overwrite_keeps (f c data : Bytes) (p : Nat) (hf : f <+: c) (hp : f.length ≤ p) (hc : p ≤ c.length) :
    f <+: overwrite c p data := by
  have h1 : overwrite c p data = c.take p ++ (data ++ c.drop (p + data.length)) := by
    rw [overwrite, Nat.sub_eq_zero_of_le hc, List.replicate_zero, List.append_nil, List.append_assoc]
  rw [h1]
  refine (List.prefix_take_iff.2 ⟨hf, hp⟩).trans (List.prefix_append _ _)

theorem Clobbered.append_ok {log log' : SegmentLog} {fs fs' : Fs} {f : Frame} {io : Io} {r : Record} {o : UInt64}
    (h : Clobbered log fs f) (ha : SegmentLog.append io r log fs = (.ok o, log', fs')) : Clobbered log' fs' f := by
  obtain ⟨p, c, hfd, hc, hfp, hpc, hpm, hpre, hnext⟩ := h.file
  obtain ⟨n, chunks, sync, hn, hflat, hs, ⟨e, he⟩ | ⟨hlen, -, he⟩⟩ := append_cases io r log fs p hfd
  · rw [ha] at he; cases he
  · have hmax := accepted_maxOff io.writes p (recordBytes io.pad (r.withOffset log.next_offset)).length hpm
    have hsize := recordBytes_length io.pad (r.withOffset log.next_offset)
    have hdisk := append_disk log.path p chunks sync fs c hs hc hpc
    rw [← hn] at hmax
    rw [ha] at he
    simp only [Prod.mk.injEq, Except.ok.injEq] at he
    obtain ⟨-, rfl, rfl⟩ := he
    have hnlt : log.next_offset.toNat + 1 < 2 ^ 64 := by
      simp only [headerSize, maxOff] at hnext hpm
      omega
    have hto : (log.next_offset + 1).toNat = log.next_offset.toNat + 1 := by
      rw [UInt64.toNat_add]
      exact Nat.mod_eq_of_lt hnlt
    have hne : (0 : UInt64) ≠ log.next_offset := by
      intro h0
      have := h.next_pos
      rw [← h0] at this
      exact absurd this (by decide)
    refine ⟨?_, by simp only [hto]; omega, p + n, _, rfl, ?_, by omega, ?_, hmax,
      overwrite_keeps f.bytes c chunks.flatten p hpre hfp hpc, ?_⟩
    · rw [AList.lookup_insert_ne hne]
      exact h.first
    · rw [hdisk, Function.update_self]
    · rw [overwrite_length, hflat, List.length_take]
      omega
    · simp only [hto, headerSize] at hnext hsize ⊢
      omega

theorem Clobbered.appendAll_ok {log log' : SegmentLog} {fs fs' : Fs} {f : Frame} {ops : List (Io × Record)}
    {results : List (StatusOr UInt64)} (h : Clobbered log fs f)
    (ha : SegmentLog.appendAll ops log fs = (results, log', fs')) (hok : AllOk results) :
    Clobbered log' fs' f := by
  induction ops generalizing log fs results with
  | nil =>
    simp only [SegmentLog.appendAll, Prod.mk.injEq] at ha
    obtain ⟨-, rfl, rfl⟩ := ha
    exact h
  | cons op ops ih =>
    obtain ⟨io, r⟩ := op
    simp only [SegmentLog.appendAll] at ha
    rcases hr : SegmentLog.append io r log fs with ⟨res, log1, fs1⟩
    rcases hrs : SegmentLog.appendAll ops log1 fs1 with ⟨ress, log2, fs2⟩
    simp only [hr, hrs, Prod.mk.injEq] at ha
    obtain ⟨rfl, rfl, rfl⟩ := ha
    obtain ⟨o, rfl⟩ := hok.head
    exact ih (h.append_ok hr) hrs hok.tail

/-- The first append on a reopened log that held something. -/
theorem clobbered_of_reopened {log log' : SegmentLog} {fs fs' : Fs} {io : Io} {r : Record} {o : UInt64} {c : Bytes}
    (hfd : log.fd = some 0) (hc : fs.disk log.path = some c) (hix : log.offset_to_position.lookup 0 = some 0)
    (hpos : 0 < log.next_offset.toNat) (hsmall : log.next_offset.toNat < 2 ^ 57)
    (ha : SegmentLog.append io r log fs = (.ok o, log', fs')) :
    Clobbered log' fs' (Frame.ofAppend io r log) := by
  obtain ⟨n, chunks, sync, hn, hflat, hs, ⟨e, he⟩ | ⟨hlen, -, he⟩⟩ := append_cases io r log fs 0 hfd
  · rw [ha] at he; cases he
  · have hmax := accepted_maxOff io.writes 0 (recordBytes io.pad (r.withOffset log.next_offset)).length (Nat.zero_le _)
    have hsize := recordBytes_length io.pad (r.withOffset log.next_offset)
    have hdisk := append_disk log.path 0 chunks sync fs c hs hc (Nat.zero_le _)
    rw [← hn] at hmax
    rw [ha] at he
    simp only [Prod.mk.injEq, Except.ok.injEq] at he
    obtain ⟨-, rfl, rfl⟩ := he
    have hto : (log.next_offset + 1).toNat = log.next_offset.toNat + 1 := by
      rw [UInt64.toNat_add]
      exact Nat.mod_eq_of_lt (by simp; omega)
    have hne : (0 : UInt64) ≠ log.next_offset := by
      intro h0
      rw [← h0] at hpos
      exact absurd hpos (by decide)
    rw [hlen, List.take_length] at hflat
    refine ⟨by rw [AList.lookup_insert_ne hne]; exact hix, by simp only [hto]; omega, 0 + n, _, rfl,
      by rw [hdisk, Function.update_self], ?_, ?_, hmax, ?_, ?_⟩
    · simp [Frame.ofAppend, Frame.bytes, hlen]
    · rw [overwrite_length, hflat]
      omega
    · rw [hflat]
      exact List.prefix_append _ _
    · simp only [hto, headerSize] at hsize ⊢
      omega

/-- The state in which a reopened log starts to append. -/
theorem reopened_of_fresh {path : Path} {policy : FsyncPolicy} (policy' : FsyncPolicy) {fs : Fs} {ops : List (Io × Record)} {io : Io}
    (hnew : fs.disk path = none) (hok : AllOk (freshAppend path policy fs ops).1) (hfit : ∀ op ∈ ops, op.2.Fits)
    (hopen : io.fault (.creat path) = none) :
    ∃ log fs', SegmentLog.reopen io path policy' (freshAppend path policy fs ops).2.2 = (.ok (), log, fs') ∧
      log.path = path ∧ log.fd = some 0 ∧ log.next_offset = UInt64.ofNat ops.length ∧ ops.length < 2 ^ 57 ∧
      log.offset_to_position = indexFrom 0 (stamped (ops.map appendFrame)) ∅ ∧
      fs'.disk path = some (layout (stamped (ops.map appendFrame))) := by
  obtain ⟨hpath, hh⟩ := holds_freshAppend hnew hok
  have hlen := hh.length_lt
  obtain ⟨log, fs', hre, hp, -, hfd, hnext, hix, hdisk, -⟩ := reopen_stamped io path policy'
    (freshAppend path policy fs ops).2.2 (ops.map appendFrame) [] hopen
    (by rw [List.append_nil, ← hh.content, hpath]) (appendFrame_fits hfit) (by omega) (.inl rfl)
  rw [List.length_map] at hnext hlen
  exact ⟨log, fs', hre, hp, hfd, hnext, hlen, hix, by rw [hdisk, Function.update_self]⟩

/-- Reopening a log with something in it and appending damages it: the first
append lands on the first record. -/
theorem reopen_append_damages (path : Path) (policy policy' : FsyncPolicy) (fs : Fs) (ops : List (Io × Record))
    (io : Io) (ops2 : List (Io × Record)) (hnew : fs.disk path = none) (hopen : io.fault (.creat path) = none)
    (hfit : ∀ op ∈ ops ++ ops2, op.2.Fits) (hok : AllOk (reopenRun path policy policy' fs ops io ops2).results)
    (hok2 : AllOk (reopenRun path policy policy' fs ops io ops2).results2) (hne : ops ≠ []) (hne2 : ops2 ≠ []) :
    ¬ AppendIntact path (ops.map Prod.snd) (ops2.map Prod.snd) (reopenRun path policy policy' fs ops io ops2) := by
  intro hint
  obtain ⟨log2, fs2, hre, hp2, hfd2, hnext2, hlen, hix2, hdisk2⟩ := reopened_of_fresh policy' hnew hok
    (fun op h => hfit op (List.mem_append_left _ h)) hopen
  have hops : 0 < ops.length := List.length_pos_iff.2 hne
  have hto : log2.next_offset.toNat = ops.length := by rw [hnext2, u64_toNat (by omega)]
  obtain ⟨⟨io', r'⟩, rest, rfl⟩ := List.exists_cons_of_ne_nil hne2
  rcases hr : SegmentLog.append io' r' log2 fs2 with ⟨res, logA, fsA⟩
  rcases hrs : SegmentLog.appendAll rest logA fsA with ⟨ress, logB, fsB⟩
  have hrun : reopenRun path policy policy' fs ops io ((io', r') :: rest) =
      ⟨(freshAppend path policy fs ops).1, .ok (), res :: ress, logB, fsB⟩ := by
    simp only [reopenRun, hre, SegmentLog.appendAll, hr, hrs]
  rw [hrun] at hint hok2
  obtain ⟨o, rfl⟩ := hok2.head
  have hclob := clobbered_of_reopened hfd2 (by rw [hp2, hdisk2])
    (by rw [hix2, lookup_stamped _ (by simp; omega), if_pos (by simpa using hops)]; rfl) (by omega) (by omega) hr
  have hend := hclob.appendAll_ok hrs hok2.tail
  obtain ⟨p, c, hfd, hc, -, -, -, ⟨post, rfl⟩, -⟩ := hend.file
  have hread := read_frame logB fsB 0 p [] post (Frame.ofAppend io' r' log2)
    ((hfit (io', r') (by simp)).withOffset _) hfd hend.first (by simp [Fs.content, hc])
  obtain ⟨r0, hr0⟩ : ∃ r0, (ops.map Prod.snd ++ ((io', r') :: rest).map Prod.snd)[0]? = some r0 := by
    cases ops with
    | nil => exact absurd rfl hne
    | cons a ops => exact ⟨_, rfl⟩
  obtain ⟨got, hgot, his⟩ := hint.read 0 r0 hr0
  have heq : Except.ok (Frame.ofAppend io' r' log2).stored = Except.ok got := hread.symm.trans hgot
  simp only [Except.ok.injEq] at heq
  have hoff := his.offset
  rw [← heq] at hoff
  have : log2.next_offset.toNat = 0 := hoff
  omega

/-- One record, a restart and one more. -/
theorem reopen_append_damages_one :
    ¬ AppendIntact [46, 47, 113] [{ payload := [7] }] [{ payload := [8] }]
      (reopenRun [46, 47, 113] .kNever .kNever ⟨fun _ => none, []⟩ [({}, { payload := [7] })] {} [({}, { payload := [8] })]) :=
  reopen_append_damages [46, 47, 113] .kNever .kNever ⟨fun _ => none, []⟩ [({}, { payload := [7] })] {} [({}, { payload := [8] })]
    rfl rfl (by decide) (by decide +kernel) (by decide +kernel) (by simp) (by simp)

/-- Reopening keeps a log to which more is appended intact exactly when there
was nothing in it. -/
theorem reopen_append_intact_iff (path : Path) (policy policy' : FsyncPolicy) (fs : Fs) (ops : List (Io × Record))
    (io : Io) (ops2 : List (Io × Record)) (hnew : fs.disk path = none) (hopen : io.fault (.creat path) = none)
    (hfit : ∀ op ∈ ops ++ ops2, op.2.Fits) (hok : AllOk (reopenRun path policy policy' fs ops io ops2).results)
    (hok2 : AllOk (reopenRun path policy policy' fs ops io ops2).results2) (hne2 : ops2 ≠ []) :
    AppendIntact path (ops.map Prod.snd) (ops2.map Prod.snd) (reopenRun path policy policy' fs ops io ops2) ↔ ops = [] := by
  constructor
  · intro hint
    by_contra hne
    exact reopen_append_damages path policy policy' fs ops io ops2 hnew hopen hfit hok hok2 hne hne2 hint
  · rintro rfl
    have hok1 : AllOk (freshAppend path policy fs []).1 := hok
    obtain ⟨log2, fs2, hre, hp2, hfd2, hnext2, -, hix2, hdisk2⟩ := reopened_of_fresh policy' hnew hok1 (by simp) hopen
    have hh : Holds log2 fs2 [] :=
      ⟨⟨by rw [hp2, hdisk2]; rfl, by rw [hfd2]; simp [stamped], by simp [stamped]⟩, hnext2, hix2⟩
    rcases happ : SegmentLog.appendAll ops2 log2 fs2 with ⟨results2, log3, fs3⟩
    have hrun : reopenRun path policy policy' fs [] io ops2 =
        ⟨(freshAppend path policy fs []).1, .ok (), results2, log3, fs3⟩ := by
      simp only [reopenRun, hre, happ]
    rw [hrun] at hok2 ⊢
    rw [← hp2]
    exact hh.intact happ hok2 (fun op h => hfit op (List.mem_append_right _ h))

theorem reopen_append_intact_empty :
    AppendIntact [46, 47, 113] [] [{ payload := [8] }]
      (reopenRun [46, 47, 113] .kNever .kNever ⟨fun _ => none, []⟩ [] {} [({}, { payload := [8] })]) :=
  (reopen_append_intact_iff [46, 47, 113] .kNever .kNever ⟨fun _ => none, []⟩ [] {} [({}, { payload := [8] })] rfl rfl (by decide)
    (by decide +kernel) (by decide +kernel) (by simp)).2 rfl

end PomaiQueue.Storage
