import PomaiQueue.SegmentTheorems
/-!
# Appends that fail

An `Append` whose write stops inside the record returns an error, but the bytes
it wrote stay in the file and the position moves past them. The next append
goes behind them, and the scan of the next restart stops at the leftover.
`failed_append_harmless` is the best that holds: a log whose failing appends
leave nothing, or a whole record whose fsync failed, is recovered with every
offset it handed out, and a part of a record does no harm while nothing is
written behind it.
-/

namespace PomaiQueue.Storage

open Wire Posix

/-- No part of a record is left behind with bytes of a later append after it:
once an append at position `pos` stops inside its record, the appends after it
write nothing. -/
def TornLast : List (Io × Record) → Nat → Prop
  | [], _ => True
  | (io, r) :: ops, pos =>
    let n := accepted io.writes pos (frameSize r)
    if 0 < n ∧ n < frameSize r then ∀ op ∈ ops, accepted op.1.writes (pos + n) (frameSize op.2) = 0
    else TornLast ops (pos + n)

instance : (ops : List (Io × Record)) → (pos : Nat) → Decidable (TornLast ops pos)
  | [], _ => .isTrue trivial
  | (io, r) :: ops, pos =>
    let n := accepted io.writes pos (frameSize r)
    if h : 0 < n ∧ n < frameSize r then
      decidable_of_iff (∀ op ∈ ops, accepted op.1.writes (pos + n) (frameSize op.2) = 0)
        (by simp only [TornLast]; rw [if_pos h])
    else
      haveI := instDecidableTornLast ops (pos + n)
      decidable_of_iff (TornLast ops (pos + n)) (by conv_rhs => rw [TornLast, if_neg h])

/-- A log opened and recovered on `path`, and `ops` appended to it. -/
def openAppend (path : Path) (policy : FsyncPolicy) (fs : Fs) (io : Io) (ops : List (Io × Record)) :
    List (StatusOr UInt64) × SegmentLog × Fs :=
  match SegmentLog.reopen io path policy fs with
  | (_, log, fs) => SegmentLog.appendAll ops log fs

/-- After a restart every offset that an append of `ops` returned reads back. -/
structure ReadsBack (path : Path) (ops : List (Io × Record)) (results : List (StatusOr UInt64)) (fs : Fs) : Prop where
  restart : ∀ (io : Io) (policy : FsyncPolicy), io.fault (.creat path) = none →
    ∃ log' fs', SegmentLog.reopen io path policy fs = (.ok (), log', fs') ∧
      ∀ (i : Nat) (op : Io × Record) (o : UInt64), ops[i]? = some op → results[i]? = some (.ok o) →
        ∃ got, log'.read fs' o = .ok got ∧ got.Is op.2 o.toNat

/-- `frames` has the record `r` under offset `o`, and nothing later under it. -/
def Keeps (frames : List Frame) (o : UInt64) (r : Record) : Prop :=
  ∃ pre pad post, frames = pre ++ (pad, r.withOffset o) :: post ∧ ∀ g ∈ post, g.2.header.offset ≠ o

theorem lookup_indexFrom_ne (pos : Nat) (frames : List Frame) (index : Index) (o : UInt64)
    (h : ∀ g ∈ frames, g.2.header.offset ≠ o) : (indexFrom pos frames index).lookup o = index.lookup o := by
  induction frames generalizing pos index with
  | nil => rfl
  | cons f frames ih =>
    rw [indexFrom, ih _ _ (fun g hg => h g (by simp [hg])), AList.lookup_insert_ne (h f (by simp)).symm]

/-- A record that is kept reads back after recovery. -/
theorem Keeps.read {frames : List Frame} {o : UInt64} {r : Record} (h : Keeps frames o r)
    (hfit : ∀ f ∈ frames, f.2.Fits) (log : SegmentLog) (fs : Fs) (p : Nat) (hfd : log.fd = some p)
    (hix : log.offset_to_position = indexFrom 0 frames ∅) (hfile : fs.content log.path = layout frames) :
    ∃ got, log.read fs o = .ok got ∧ got.Is r o.toNat := by
  obtain ⟨pre, pad, post, rfl, hpost⟩ := h
  refine ⟨_, read_frame log fs o p (layout pre) (layout post) (pad, r.withOffset o) (hfit _ (by simp)) hfd ?_ ?_,
    Record.is_stored pad r o⟩
  · rw [hix, indexFrom_append, indexFrom, lookup_indexFrom_ne _ _ _ _ hpost]
    simp only [Nat.zero_add]
    exact AList.lookup_insert _
  · rw [hfile, layout_append, layout_cons, List.append_assoc]

theorem ofAppend_length (io : Io) (r : Record) (log : SegmentLog) :
    (Frame.ofAppend io r log).bytes.length = frameSize r := by
  rw [Frame.bytes, recordBytes_length]
  rfl

/-- An append that is accepted whole leaves a live log, whether or not the
fsync after it fails. -/
theorem Live.append_whole {log : SegmentLog} {fs : Fs} {frames : List Frame} (h : Live log fs frames) (io : Io)
    (r : Record) (hn : accepted io.writes (layout frames).length (frameSize r) = frameSize r) :
    ∃ res log' fs', SegmentLog.append io r log fs = (res, log', fs') ∧ log'.path = log.path ∧
      Live log' fs' (frames ++ [Frame.ofAppend io r log]) ∧
      ((∃ e, res = .error e ∧ log'.next_offset = log.next_offset) ∨
        (res = .ok log.next_offset ∧ log'.next_offset = log.next_offset + 1)) := by
  have hfile := h.append_file io r
  have hmax := accepted_maxOff io.writes _ (frameSize r) h.small
  rw [ofAppend_length, hn, ← ofAppend_length io r log, List.take_length] at hfile
  rw [hn, ← ofAppend_length io r log] at hmax
  obtain ⟨n, chunks, sync, hn', -, -, hres⟩ := append_cases io r log fs _ h.fd
  have hnlen : n = (Frame.ofAppend io r log).bytes.length := by
    rw [hn', ofAppend_length, ← hn, ← ofAppend_length io r log]
    rfl
  rcases hres with ⟨e, he⟩ | ⟨-, -, he⟩ <;> rw [he] at hfile <;>
    refine ⟨_, _, _, he, rfl, ⟨by simp [hfile], by simp [hnlen], by simpa using hmax⟩, ?_⟩
  · exact .inl ⟨e, rfl, rfl⟩
  · exact .inr ⟨rfl, rfl⟩

/-- An append of which nothing is accepted leaves the file alone. -/
theorem append_nothing {log : SegmentLog} {fs : Fs} {c : Bytes} (hfd : log.fd = some c.length)
    (hc : fs.disk log.path = some c) (io : Io) (r : Record)
    (hn : accepted io.writes c.length (frameSize r) = 0) :
    ∃ e fs', SegmentLog.append io r log fs = (.error e, log, fs') ∧ fs'.disk = fs.disk := by
  obtain ⟨n, chunks, sync, hn', hflat, hs, hres⟩ := append_cases io r log fs _ hfd
  have hb := ofAppend_length io r log
  rw [Frame.bytes] at hb
  have hn0 : n = 0 := by
    rw [hn', ← hn, ← hb]
    rfl
  subst hn0
  rcases hres with ⟨e, he⟩ | ⟨hlen, -⟩
  · rw [Nat.add_zero, ← hfd] at he
    refine ⟨e, _, he, ?_⟩
    rw [append_disk log.path _ chunks sync fs c hs hc le_rfl, hflat, List.take_zero, overwrite_end, List.append_nil,
      ← hc, Function.update_eq_self]
  · rw [recordBytes_length, headerSize] at hlen
    omega

/-- Appends of which nothing is accepted all fail and leave the file alone. -/
theorem appendAll_nothing (ops : List (Io × Record)) {log : SegmentLog} {fs : Fs} {c : Bytes}
    (hfd : log.fd = some c.length) (hc : fs.disk log.path = some c)
    (hn : ∀ op ∈ ops, accepted op.1.writes c.length (frameSize op.2) = 0) :
    ∃ results fs', SegmentLog.appendAll ops log fs = (results, log, fs') ∧ fs'.disk = fs.disk ∧
      ∀ res ∈ results, ∃ e, res = .error e := by
  induction ops generalizing fs with
  | nil => exact ⟨[], fs, rfl, rfl, by simp⟩
  | cons op ops ih =>
    obtain ⟨e, fs1, he, hd⟩ := append_nothing hfd hc op.1 op.2 (hn op (by simp))
    obtain ⟨results, fs2, hres, hd2, herr⟩ := ih (hd ▸ hc) (fun x hx => hn x (by simp [hx]))
    refine ⟨.error e :: results, fs2, by simp only [SegmentLog.appendAll, he, hres], hd2.trans hd, ?_⟩
    intro res hmem
    rcases List.mem_cons.1 hmem with rfl | hmem
    · exact ⟨e, rfl⟩
    · exact herr res hmem

/-- An append that stops inside the record leaves a part of it behind. -/
theorem Live.append_part {log : SegmentLog} {fs : Fs} {frames : List Frame} (h : Live log fs frames) (io : Io) (r : Record)
    {n : Nat} (hn : accepted io.writes (layout frames).length (frameSize r) = n) (hlt : n < frameSize r) :
    ∃ e log' fs', SegmentLog.append io r log fs = (.error e, log', fs') ∧ log'.path = log.path ∧
      log'.fd = some (layout frames ++ (Frame.ofAppend io r log).bytes.take n).length ∧
      fs'.disk log.path = some (layout frames ++ (Frame.ofAppend io r log).bytes.take n) := by
  have hfile := h.append_file io r
  have hbytes := ofAppend_length io r log
  obtain ⟨m, chunks, sync, hm, -, -, hres⟩ := append_cases io r log fs _ h.fd
  have hmn : m = n := by
    rw [hm, ← hn, ← hbytes]
    rfl
  rcases hres with ⟨e, he⟩ | ⟨hwhole, -⟩
  · rw [hbytes, hn, he] at hfile
    dsimp only at hfile
    refine ⟨e, _, _, he, rfl, ?_, by rw [hfile, Function.update_self]⟩
    rw [List.length_append, List.length_take, hbytes, Nat.min_eq_left (Nat.le_of_lt hlt), hmn]
  · have hall : (recordBytes io.pad (r.withOffset log.next_offset)).length = frameSize r := hbytes
    omega

/-- What a run of appends to a log with `frames` leaves in the file: whole records,
every returned offset among them, and maybe a part of one more. -/
structure Leaves (log : SegmentLog) (frames : List Frame) (ops : List (Io × Record)) (results : List (StatusOr UInt64)) (fs' : Fs)
    (new : List Frame) (t : Bytes) : Prop where
  file : fs'.disk log.path = some (layout (frames ++ new) ++ t)
  fits : ∀ f ∈ frames ++ new, f.2.Fits
  torn : t = [] ∨ ∃ g : Frame, g.2.Fits ∧ t <+: g.bytes ∧ t.length < g.bytes.length
  later : ∀ f ∈ new, log.next_offset.toNat ≤ f.2.header.offset.toNat
  kept : ∀ (i : Nat) (op : Io × Record) (o : UInt64), ops[i]? = some op → results[i]? = some (.ok o) → Keeps (frames ++ new) o op.2

section leaves

variable {log log1 : SegmentLog} {frames new : List Frame} {ops : List (Io × Record)} {results : List (StatusOr UInt64)} {fs' : Fs}
  {t : Bytes} {io : Io} {r : Record}

/-- An append that fails and leaves nothing comes first. -/
theorem Leaves.failed (h : Leaves log frames ops results fs' new t) (op : Io × Record) (e : Failure) :
    Leaves log frames (op :: ops) (.error e :: results) fs' new t where
  file := h.file
  fits := h.fits
  torn := h.torn
  later := h.later
  kept := by
    intro i op' o hi hres
    cases i with
    | zero => simp at hres
    | succ i => exact h.kept i op' o (by simpa using hi) (by simpa using hres)

/-- A whole record comes first, returned or not. -/
theorem Leaves.whole {res : StatusOr UInt64} (h : Leaves log1 (frames ++ [Frame.ofAppend io r log]) ops results fs' new t)
    (hp : log1.path = log.path) (hto : (log.next_offset + 1).toNat = log.next_offset.toNat + 1)
    (hcase : (∃ e, res = .error e ∧ log1.next_offset = log.next_offset) ∨
      (res = .ok log.next_offset ∧ log1.next_offset = log.next_offset + 1)) :
    Leaves log frames ((io, r) :: ops) (res :: results) fs' (Frame.ofAppend io r log :: new) t := by
  obtain ⟨hfile, hfits, htorn, hlater, hkept⟩ := h
  rw [List.append_assoc, List.singleton_append] at hfile hfits hkept
  refine ⟨hp ▸ hfile, hfits, htorn, ?_, ?_⟩
  · intro f hf
    rcases List.mem_cons.1 hf with rfl | hf
    · exact Nat.le_refl _
    · have hge := hlater f hf
      rcases hcase with ⟨e, -, hn1⟩ | ⟨-, hn1⟩ <;> rw [hn1] at hge <;> omega
  · intro i op o hi hres
    cases i with
    | succ i => exact hkept i op o (by simpa using hi) (by simpa using hres)
    | zero =>
      simp only [List.getElem?_cons_zero, Option.some.injEq] at hi hres
      subst hi
      rcases hcase with ⟨e, rfl, -⟩ | ⟨rfl, hn1⟩
      · cases hres
      · obtain rfl := Except.ok.inj hres
        refine ⟨frames, io.pad, new, rfl, fun g hg heq => ?_⟩
        have hge := hlater g hg
        rw [heq, hn1] at hge
        omega

end leaves

/-- The file after a run of appends of which at most the last one that wrote
anything is torn. -/
theorem appendAll_tornLast (ops : List (Io × Record)) {log : SegmentLog} {fs : Fs} {frames : List Frame}
    (h : Live log fs frames) (hnext : log.next_offset.toNat ≤ frames.length) (hfit : ∀ f ∈ frames, f.2.Fits)
    (hfits : ∀ op ∈ ops, op.2.Fits) (htorn : TornLast ops (layout frames).length) :
    ∃ results log' fs' new t, SegmentLog.appendAll ops log fs = (results, log', fs') ∧
      Leaves log frames ops results fs' new t := by
  induction ops generalizing log fs frames with
  | nil => exact ⟨[], log, fs, [], [], rfl, by simpa using h.file, by simpa using hfit, .inl rfl, by simp, by simp⟩
  | cons op ops ih =>
    obtain ⟨io, r⟩ := op
    have hr : r.Fits := hfits (io, r) (by simp)
    have hrest : ∀ op ∈ ops, op.2.Fits := fun x hx => hfits x (by simp [hx])
    simp only [TornLast] at htorn
    generalize hn : accepted io.writes (layout frames).length (frameSize r) = n at htorn
    have hle : n ≤ frameSize r := hn ▸ accepted_le _ _ _
    by_cases h0 : n = 0
    · -- Nothing written: the state is as before.
      rw [if_neg (by omega), h0, Nat.add_zero] at htorn
      obtain ⟨e, fs1, he, hd⟩ := append_nothing h.fd h.file io r (hn.trans h0)
      obtain ⟨results, log', fs', new, t, hres, hleaves⟩ := ih ⟨hd ▸ h.file, h.fd, h.small⟩ hnext hfit hrest htorn
      exact ⟨_, log', fs', new, t, by simp only [SegmentLog.appendAll, he, hres], hleaves.failed (io, r) e⟩
    by_cases hlen : n = frameSize r
    · -- A whole record, returned or not.
      rw [if_neg (by omega)] at htorn
      obtain ⟨res, log1, fs1, he, hp, hlive, hcase⟩ := h.append_whole io r (hn.trans hlen)
      have hto : (log.next_offset + 1).toNat = log.next_offset.toNat + 1 := by
        have hsmall := layout_length_ge frames
        have hmax := h.small
        rw [UInt64.toNat_add]
        apply Nat.mod_eq_of_lt
        simp only [headerSize, maxOff] at hsmall hmax
        simp; omega
      have hnext1 : log1.next_offset.toNat ≤ (frames ++ [Frame.ofAppend io r log]).length := by
        rw [List.length_append, List.length_singleton]
        rcases hcase with ⟨e, -, hn1⟩ | ⟨-, hn1⟩ <;> rw [hn1] <;> omega
      have hfit1 : ∀ f ∈ frames ++ [Frame.ofAppend io r log], f.2.Fits := by
        intro f hf
        rcases List.mem_append.1 hf with hf | hf
        · exact hfit f hf
        · rw [List.mem_singleton] at hf
          exact hf ▸ hr.withOffset _
      have hpos : (layout (frames ++ [Frame.ofAppend io r log])).length = (layout frames).length + n := by
        simp [hlen, ofAppend_length]
      obtain ⟨results, log', fs', new, t, hres, hleaves⟩ := ih hlive hnext1 hfit1 hrest (hpos ▸ htorn)
      exact ⟨_, log', fs', _, t, by simp only [SegmentLog.appendAll, he, hres], hleaves.whole hp hto hcase⟩
    · -- Torn: from here on nothing is written.
      rw [if_pos (by omega)] at htorn
      have hpart : ((Frame.ofAppend io r log).bytes.take n).length = n := by
        rw [List.length_take, ofAppend_length, Nat.min_eq_left hle]
      obtain ⟨e, log1, fs1, he, hp, hfd, hfile⟩ := h.append_part io r hn (by omega)
      obtain ⟨results, fs', hres, hd, herr⟩ := appendAll_nothing ops hfd (by rw [hp, hfile]) (by
        intro op hop
        rw [List.length_append, hpart]
        exact htorn op hop)
      have hrest : Leaves log frames ops results fs' [] ((Frame.ofAppend io r log).bytes.take n) := by
        refine ⟨by rw [hd, hfile, List.append_nil], by simpa using hfit, .inr ⟨_, hr.withOffset _, List.take_prefix _ _, ?_⟩,
          by simp, fun i op o _ hok => ?_⟩
        · rw [hpart, ofAppend_length]
          omega
        · obtain ⟨e', he'⟩ := herr _ (List.mem_of_getElem? hok)
          cases he'
      exact ⟨_, log1, fs', [], _, by simp only [SegmentLog.appendAll, he, hres], hrest.failed (io, r) e⟩

/-- Failed appends do no harm to later ones on a log that was opened on an
empty file, if all records fit and no append writes behind a part of a record. -/
theorem failed_append_harmless (path : Path) (policy : FsyncPolicy) (fs : Fs) (io : Io) (ops : List (Io × Record))
    (hopen : io.fault (.creat path) = none) (hempty : fs.content path = []) (hfit : ∀ op ∈ ops, op.2.Fits)
    (htorn : TornLast ops 0) :
    ReadsBack path ops (openAppend path policy fs io ops).1 (openAppend path policy fs io ops).2.2 := by
  obtain ⟨fs0, heq, hdisk⟩ := reopen_torn io path policy fs [] [] hopen (by simpa using hempty) (by simp) (.inl rfl)
  have hlive : Live ⟨path, policy, some 0, nextFrom 0 [], indexFrom 0 [] ∅⟩ fs0 [] :=
    ⟨by rw [hdisk, Function.update_self], rfl, by simp⟩
  obtain ⟨results, log', fs', new, t, hres, hfile, hall, ht, -, hk⟩ :=
    appendAll_tornLast ops hlive (by simp [nextFrom]) (by simp) hfit htorn
  have hrun : openAppend path policy fs io ops = (results, log', fs') := by
    simp only [openAppend, heq, hres]
  rw [hrun]
  rw [List.nil_append] at hfile hall hk
  refine ⟨fun io' policy' hopen' => ?_⟩
  obtain ⟨fs2, hre, hd2⟩ := reopen_torn io' path policy' fs' new t hopen' (by rw [Fs.content, hfile]; rfl) hall ht
  refine ⟨_, fs2, hre, fun i op o hi ho => ?_⟩
  exact (hk i op o hi ho).read hall _ fs2 0 rfl rfl (by simp [Fs.content, hd2])

/-- A record whose fsync fails, and one more. -/
def fsyncFails : List (Io × Record) :=
  [({ fault := fun c => if c = .fsync [46, 47, 113] then some 0 else none }, { payload := [7] }), ({}, { payload := [8] })]

theorem failed_append_harmless_fsync :
    ReadsBack [46, 47, 113] fsyncFails (openAppend [46, 47, 113] .kAlways ⟨fun _ => none, []⟩ {} fsyncFails).1
      (openAppend [46, 47, 113] .kAlways ⟨fun _ => none, []⟩ {} fsyncFails).2.2 :=
  failed_append_harmless [46, 47, 113] .kAlways ⟨fun _ => none, []⟩ {} fsyncFails rfl rfl (by decide) (by decide +kernel)

/-- A write that stops after 10 bytes, and one more append. -/
def writeStops : List (Io × Record) := [({ writes := [10, 0] }, { payload := [7] }), ({}, { payload := [8] })]

/-- The second append returns offset 0, and a restart finds nothing there. -/
theorem torn_append_loses_next :
    ¬ ReadsBack [46, 47, 113] writeStops (openAppend [46, 47, 113] .kNever ⟨fun _ => none, []⟩ {} writeStops).1
      (openAppend [46, 47, 113] .kNever ⟨fun _ => none, []⟩ {} writeStops).2.2 := by
  rintro ⟨h⟩
  obtain ⟨log', fs', hre, hread⟩ := h {} .kNever rfl
  obtain ⟨got, hgot, -⟩ := hread 1 ({}, { payload := [8] }) 0 rfl (by decide +kernel)
  have hlost : (SegmentLog.reopen {} [46, 47, 113] .kNever
      (openAppend [46, 47, 113] .kNever ⟨fun _ => none, []⟩ {} writeStops).2.2).2.1.offset_to_position.lookup 0 = none := by
    decide +kernel
  rw [hre] at hlost
  simp [SegmentLog.read, hlost] at hgot

end PomaiQueue.Storage
