import Mathlib.Data.List.Induction
import PomaiQueue.SegmentAppend
/-!
# A log that holds records

`Holds log fs rs`: the file, the descriptor and the index of a log that was
opened on an empty file and to which exactly `rs` were appended. Every
successful append keeps it (`Holds.appendAll_ok`), reads give the records back
(`Holds.yields`), and opening and recovering the file again, even with a
cut-off record behind it, builds the same index (`reopen_stamped`).
-/

namespace PomaiQueue.Storage

open Wire Posix

/-! ## Records under consecutive offsets -/

/-- Frames as a log that starts at offset 0 numbers them. -/
def stamped (rs : List Frame) : List Frame :=
  rs.mapIdx fun i f => (f.1, f.2.withOffset (UInt64.ofNat i))

theorem stamped_concat (rs : List Frame) (f : Frame) :
    stamped (rs ++ [f]) = stamped rs ++ [(f.1, f.2.withOffset (UInt64.ofNat rs.length))] := by
  simp [stamped, List.mapIdx_append]

@[simp] theorem stamped_length (rs : List Frame) : (stamped rs).length = rs.length := by
  simp [stamped]

theorem stamped_getElem? (rs : List Frame) (i : Nat) :
    (stamped rs)[i]? = rs[i]?.map fun f => (f.1, f.2.withOffset (UInt64.ofNat i)) := by
  simp [stamped]

theorem stamped_take (rs : List Frame) (k : Nat) : (stamped rs).take k = stamped (rs.take k) := by
  apply List.ext_getElem?
  intro i
  by_cases hi : i < k <;> simp [stamped, hi]

theorem stamped_fits {rs : List Frame} (h : ∀ f ∈ rs, f.2.Fits) : ∀ f ∈ stamped rs, f.2.Fits := by
  intro f hf
  obtain ⟨i, hi⟩ := List.mem_iff_getElem?.1 hf
  rw [stamped_getElem?, Option.map_eq_some_iff] at hi
  obtain ⟨g, hg, rfl⟩ := hi
  exact (h g (List.mem_of_getElem? hg)).withOffset _

theorem u64_toNat {n : Nat} (h : n < 2 ^ 64) : (UInt64.ofNat n).toNat = n := UInt64.toNat_ofNat_of_lt' h

theorem nextFrom_stamped (rs : List Frame) : nextFrom 0 (stamped rs) = UInt64.ofNat rs.length := by
  induction rs using List.reverseRecOn with
  | nil => rfl
  | append_singleton rs f _ =>
    rw [stamped_concat, nextFrom_concat]
    simp [Record.withOffset]

/-- Where each offset is found. -/
theorem lookup_stamped (rs : List Frame) (h : rs.length ≤ 2 ^ 64) (off : UInt64) :
    (indexFrom 0 (stamped rs) ∅).lookup off =
      if off.toNat < rs.length then some (layout ((stamped rs).take off.toNat)).length else none := by
  induction rs using List.reverseRecOn with
  | nil => simp [stamped, indexFrom]
  | append_singleton rs f ih =>
    rw [List.length_append, List.length_singleton] at h
    have hlen := u64_toNat (show rs.length < 2 ^ 64 by omega)
    rw [stamped_concat, indexFrom_append]
    simp only [indexFrom, Nat.zero_add, Record.withOffset]
    by_cases ho : off = UInt64.ofNat rs.length
    · subst ho
      rw [AList.lookup_insert, hlen, if_pos (by simp)]
      simp
    · have hne : off.toNat ≠ rs.length := fun hc => ho (by rw [← hc, UInt64.ofNat_toNat])
      rw [AList.lookup_insert_ne ho, ih (by omega)]
      by_cases hlt : off.toNat < rs.length
      · rw [if_pos hlt, if_pos (by simp; omega), List.take_append_of_le_length (by simp; omega)]
      · rw [if_neg hlt, if_neg (by simp; omega)]

theorem offsets_stamped (log : SegmentLog) (rs : List Frame) (h : rs.length < 2 ^ 64)
    (hix : log.offset_to_position = indexFrom 0 (stamped rs) ∅) :
    log.offsets = (List.range rs.length).map UInt64.ofNat := by
  have hinj : ∀ i ∈ List.range rs.length, ∀ j ∈ List.range rs.length,
      UInt64.ofNat i = UInt64.ofNat j → i = j := by
    intro i hi j hj he
    rw [List.mem_range] at hi hj
    rw [← u64_toNat (show i < 2 ^ 64 by omega), he, u64_toNat (by omega)]
  have hmem : ∀ off : UInt64, off ∈ log.offset_to_position.keys ↔ off ∈ (List.range rs.length).map UInt64.ofNat := by
    intro off
    rw [← AList.mem_keys, ← AList.lookup_isSome, hix, lookup_stamped rs (by omega) off]
    simp only [List.mem_map, List.mem_range]
    constructor
    · intro hs
      refine ⟨off.toNat, ?_, UInt64.ofNat_toNat⟩
      by_contra hn
      simp [hn] at hs
    · rintro ⟨i, hi, rfl⟩
      rw [u64_toNat (by omega), if_pos hi]
      rfl
  have hperm : (log.offset_to_position.keys).Perm ((List.range rs.length).map UInt64.ofNat) :=
    (List.perm_ext_iff_of_nodup (AList.keys_nodup _) (List.nodup_range.map_on hinj)).2 hmem
  have htotal : Std.Total (fun a b : UInt64 => a ≤ b) := ⟨UInt64.le_total⟩
  have htrans : IsTrans UInt64 (· ≤ ·) := ⟨fun _ _ _ h1 h2 => UInt64.le_trans h1 h2⟩
  refine List.Perm.eq_of_pairwise (fun a b _ _ h1 h2 => UInt64.le_antisymm h1 h2)
    (List.pairwise_insertionSort (fun a b : UInt64 => a ≤ b) _) ?_ ((List.perm_insertionSort _ _).trans hperm)
  rw [List.pairwise_map]
  apply List.pairwise_lt_range.imp_of_mem
  intro i j hi hj hij
  rw [List.mem_range] at hi hj
  rw [UInt64.le_iff_toNat_le, u64_toNat (by omega), u64_toNat (by omega)]
  omega

/-- `got` is the record `r`, stored under offset `i`. -/
structure Record.Is (got r : Record) (i : Nat) : Prop where
  offset : got.header.offset.toNat = i
  msg_id_high : got.header.msg_id_high = r.header.msg_id_high
  msg_id_low : got.header.msg_id_low = r.header.msg_id_low
  enqueue_ts : got.header.enqueue_ts = r.header.enqueue_ts
  payload : got.payload = r.payload
  headers : got.headers = r.headers
  routing_key : got.routing_key = r.routing_key

theorem Record.is_stored (pad : Padding) (r : Record) (o : UInt64) :
    Record.Is (Frame.stored (pad, r.withOffset o)) r o.toNat :=
  ⟨rfl, rfl, rfl, rfl, rfl, rfl, rfl⟩

/-- The log's index and reads are exactly the records `rs`. -/
structure Yields (log : SegmentLog) (fs : Fs) (rs : List Record) : Prop where
  next_offset : log.next_offset.toNat = rs.length
  offsets : log.offsets = (List.range rs.length).map UInt64.ofNat
  read : ∀ i r, rs[i]? = some r → ∃ got, log.read fs (UInt64.ofNat i) = .ok got ∧ got.Is r i

theorem layout_split (frames : List Frame) (i : Nat) (f : Frame) (h : frames[i]? = some f) :
    layout frames = layout (frames.take i) ++ f.bytes ++ layout (frames.drop (i + 1)) := by
  obtain ⟨hi, rfl⟩ := List.getElem?_eq_some_iff.1 h
  conv_lhs => rw [← List.take_append_drop i frames, List.drop_eq_getElem_cons hi, layout_append, layout_cons]
  rw [List.append_assoc]

theorem yields_of (log : SegmentLog) (fs : Fs) (rs : List Frame) (p : Nat) (post : Bytes) (hfd : log.fd = some p)
    (hfit : ∀ f ∈ rs, f.2.Fits) (hlen : rs.length < 2 ^ 64)
    (hnext : log.next_offset = UInt64.ofNat rs.length)
    (hix : log.offset_to_position = indexFrom 0 (stamped rs) ∅)
    (hfile : fs.content log.path = layout (stamped rs) ++ post) : Yields log fs (rs.map Prod.snd) where
  next_offset := by rw [hnext, u64_toNat hlen, List.length_map]
  offsets := by rw [List.length_map]; exact offsets_stamped log rs hlen hix
  read := by
    intro i r hr
    obtain ⟨f, hf, rfl⟩ : ∃ f, rs[i]? = some f ∧ f.2 = r := by simpa using hr
    have hi : i < rs.length := (List.getElem?_eq_some_iff.1 hf).1
    have hs : (stamped rs)[i]? = some (f.1, f.2.withOffset (UInt64.ofNat i)) := by rw [stamped_getElem?, hf]; rfl
    have hto := u64_toNat (show i < 2 ^ 64 by omega)
    refine ⟨_, read_frame log fs _ p (layout ((stamped rs).take i)) (layout ((stamped rs).drop (i + 1)) ++ post)
      (f.1, f.2.withOffset (UInt64.ofNat i)) ((hfit f (List.mem_of_getElem? hf)).withOffset _) hfd ?_ ?_, ?_⟩
    · rw [hix, lookup_stamped rs (by omega), hto, if_pos hi]
    · rw [hfile, layout_split _ i _ hs, List.append_assoc]
    · have := Record.is_stored f.1 f.2 (UInt64.ofNat i)
      rwa [hto] at this

/-- Every append returned an offset. -/
def AllOk (results : List (StatusOr UInt64)) : Prop := ∀ res ∈ results, res.isOk = true

instance (results : List (StatusOr UInt64)) : Decidable (AllOk results) :=
  inferInstanceAs (Decidable (∀ res ∈ results, res.isOk = true))

theorem AllOk.head {res : StatusOr UInt64} {results : List (StatusOr UInt64)} (h : AllOk (res :: results)) :
    ∃ o, res = .ok o := by
  have := h res (by simp)
  cases res with
  | error e => cases this
  | ok o => exact ⟨o, rfl⟩

theorem AllOk.tail {res : StatusOr UInt64} {results : List (StatusOr UInt64)} (h : AllOk (res :: results)) :
    AllOk results :=
  fun x hx => h x (by simp [hx])

/-! ## A fresh log -/

/-- A new log on a file that does not exist yet, opened. -/
def freshLog (path : Path) (policy : FsyncPolicy) : SegmentLog := { path, fsync_policy := policy, fd := some 0 }

/-- The log holds `rs` under the offsets from 0. -/
structure Holds (log : SegmentLog) (fs : Fs) (rs : List Frame) : Prop extends Live log fs (stamped rs) where
  next : log.next_offset = UInt64.ofNat rs.length
  index : log.offset_to_position = indexFrom 0 (stamped rs) ∅

/-- `ops` appended to a new log on `path`. -/
def freshAppend (path : Path) (policy : FsyncPolicy) (fs : Fs) (ops : List (Io × Record)) :
    List (StatusOr UInt64) × SegmentLog × Fs :=
  SegmentLog.appendAll ops (freshLog path policy) (fs.call (.creat path))

theorem holds_fresh (path : Path) (policy : FsyncPolicy) (fs : Fs) (h : fs.disk path = none) :
    Holds (freshLog path policy) (fs.call (.creat path)) [] := by
  refine ⟨⟨?_, rfl, by simp [stamped]⟩, rfl, rfl⟩
  simp [freshLog, exec, h, stamped]

/-- The frame a successful append of `op` adds, before it is numbered. -/
def appendFrame (op : Io × Record) : Frame := (op.1.pad, op.2)

theorem Holds.append_ok {log log' : SegmentLog} {fs fs' : Fs} {rs : List Frame} {io : Io} {r : Record} {o : UInt64}
    (h : Holds log fs rs) (ha : SegmentLog.append io r log fs = (.ok o, log', fs')) :
    o = UInt64.ofNat rs.length ∧ log'.path = log.path ∧ log'.fsync_policy = log.fsync_policy ∧
      Holds log' fs' (rs ++ [(io.pad, r)]) := by
  obtain ⟨rfl, hlive, hp, hpol, hn, hix⟩ := h.toLive.append_ok ha
  have hf : Frame.ofAppend io r log = (io.pad, r.withOffset (UInt64.ofNat rs.length)) := by rw [Frame.ofAppend, h.next]
  rw [hf, ← stamped_concat rs (io.pad, r)] at hlive
  refine ⟨h.next, hp, hpol, hlive, ?_, ?_⟩
  · rw [hn, h.next, List.length_append]
    simp
  · rw [hix, h.next, h.index, stamped_concat, indexFrom_append]
    simp [indexFrom, Record.withOffset]

theorem Holds.appendAll_ok {log log' : SegmentLog} {fs fs' : Fs} {rs : List Frame} {ops : List (Io × Record)}
    {results : List (StatusOr UInt64)} (h : Holds log fs rs)
    (ha : SegmentLog.appendAll ops log fs = (results, log', fs')) (hok : AllOk results) :
    results = (List.range' rs.length ops.length).map (fun i => .ok (UInt64.ofNat i)) ∧
      log'.path = log.path ∧ Holds log' fs' (rs ++ ops.map appendFrame) := by
  induction ops generalizing log fs rs results with
  | nil =>
    simp only [SegmentLog.appendAll, Prod.mk.injEq] at ha
    obtain ⟨rfl, rfl, rfl⟩ := ha
    exact ⟨rfl, rfl, by simpa using h⟩
  | cons op ops ih =>
    obtain ⟨io, r⟩ := op
    simp only [SegmentLog.appendAll] at ha
    rcases hr : SegmentLog.append io r log fs with ⟨res, log1, fs1⟩
    rcases hrs : SegmentLog.appendAll ops log1 fs1 with ⟨ress, log2, fs2⟩
    simp only [hr, hrs, Prod.mk.injEq] at ha
    obtain ⟨rfl, rfl, rfl⟩ := ha
    obtain ⟨o, rfl⟩ := hok.head
    obtain ⟨rfl, hp, -, h1⟩ := h.append_ok hr
    obtain ⟨hres, hp2, h2⟩ := ih h1 hrs hok.tail
    refine ⟨?_, hp2.trans hp, ?_⟩
    · simp [hres, List.range'_succ]
    · simpa [appendFrame, List.append_assoc] using h2

theorem appendFrame_fits {ops : List (Io × Record)} (h : ∀ op ∈ ops, op.2.Fits) :
    ∀ f ∈ ops.map appendFrame, f.2.Fits := by
  intro f hf
  obtain ⟨op, hop, rfl⟩ := List.mem_map.1 hf
  exact h op hop

@[simp] theorem appendFrame_snd (ops : List (Io × Record)) : (ops.map appendFrame).map Prod.snd = ops.map Prod.snd := by
  rw [List.map_map]
  rfl

/-- A new log to which `ops` were appended without an error holds them. -/
theorem holds_freshAppend {path : Path} {policy : FsyncPolicy} {fs : Fs} {ops : List (Io × Record)}
    (hnew : fs.disk path = none) (hok : AllOk (freshAppend path policy fs ops).1) :
    (freshAppend path policy fs ops).2.1.path = path ∧
      Holds (freshAppend path policy fs ops).2.1 (freshAppend path policy fs ops).2.2 (ops.map appendFrame) := by
  obtain ⟨-, hpath, hh⟩ := (holds_fresh path policy fs hnew).appendAll_ok rfl hok
  rw [List.nil_append] at hh
  exact ⟨hpath, hh⟩

theorem Holds.length_lt {log : SegmentLog} {fs : Fs} {rs : List Frame} (h : Holds log fs rs) : rs.length < 2 ^ 57 := by
  have h1 := layout_length_ge (stamped rs)
  have h2 := h.small
  simp only [headerSize, stamped_length, maxOff] at h1 h2
  omega

/-- A log that holds `rs` reads them all back. -/
theorem Holds.yields {log : SegmentLog} {fs : Fs} {rs : List Frame} (h : Holds log fs rs)
    (hfit : ∀ f ∈ rs, f.2.Fits) : Yields log fs (rs.map Prod.snd) :=
  yields_of log fs rs _ [] h.fd hfit (by have := h.length_lt; omega) h.next h.index (by rw [h.content, List.append_nil])

/-- A message of a queue is read back exactly if its record fits. -/
theorem Holds.read_iff {log : SegmentLog} {fs : Fs} {rs : List Frame} (h : Holds log fs rs) {i : Nat} {f : Frame}
    (hi : rs[i]? = some f) :
    (∃ got, log.read fs (UInt64.ofNat i) = .ok got ∧ got.Is f.2 i) ↔ f.2.Fits := by
  have hlt : i < rs.length := (List.getElem?_eq_some_iff.1 hi).1
  have hlen := h.length_lt
  have hto : (UInt64.ofNat i).toNat = i := u64_toNat (by omega)
  constructor
  · rintro ⟨got, hread, his⟩
    have hfit : got.Fits := by
      unfold SegmentLog.read at hread
      simp only [h.fd] at hread
      split at hread
      · cases hread
      · split at hread
        · cases hread
        · split at hread
          · cases hread
          · split at hread
            · cases hread
            · exact decodeRecord_fits hread
    have h1 := hfit.kv_count
    have h2 := hfit.kv_sizes
    have h3 := hfit.routing_key
    have h4 := hfit.payload
    rw [his.headers] at h1 h2
    rw [his.routing_key] at h3
    rw [his.payload] at h4
    exact ⟨h1, h2, h3, h4⟩
  · intro hfit
    have hs : (stamped rs)[i]? = some (f.1, f.2.withOffset (UInt64.ofNat i)) := by rw [stamped_getElem?, hi]; rfl
    refine ⟨_, read_frame log fs _ _ (layout ((stamped rs).take i)) (layout ((stamped rs).drop (i + 1)))
      (f.1, f.2.withOffset (UInt64.ofNat i)) (hfit.withOffset _) h.fd ?_ ?_, ?_⟩
    · rw [h.index, lookup_stamped rs (by omega), hto, if_pos hlt]
    · rw [h.content, layout_split _ i _ hs]
    · have := Record.is_stored f.1 f.2 (UInt64.ofNat i)
      rwa [hto] at this

/-! ## Reopening -/

/-- `Open` and `Recover` of a new log on a file with content `c`. -/
theorem reopen_eq (io : Io) (path : Path) (policy : FsyncPolicy) (fs : Fs) (c : Bytes)
    (hopen : io.fault (.creat path) = none) (hc : fs.content path = c) :
    ∃ fs', SegmentLog.reopen io path policy fs =
        (.ok (), ⟨path, policy, some 0, (SegmentLog.recoverLoop c (c.length + 1) 0 ∅ 0).2.1,
          (SegmentLog.recoverLoop c (c.length + 1) 0 ∅ 0).1⟩, fs') ∧
      fs'.disk = Function.update fs.disk path
        (some (c.take ((SegmentLog.recoverLoop c (c.length + 1) 0 ∅ 0).2.2.getD c.length))) := by
  have hfile : (fs.call (.creat path)).content path = c := by
    simp [Fs.content, exec, ← hc]
  have hdisk : (fs.call (.creat path)).disk = Function.update fs.disk path (some c) := by
    rw [Fs.disk_call, exec, ← hc]
    rfl
  simp only [SegmentLog.reopen, SegmentLog.open, hopen, SegmentLog.recover, hfile]
  rcases hscan : SegmentLog.recoverLoop c (c.length + 1) 0 ∅ 0 with ⟨index, next, cut⟩
  refine ⟨_, rfl, ?_⟩
  cases cut with
  | none => simp [hdisk]
  | some position =>
    simp only [Fs.disk_call, hdisk, exec, Option.getD_some]
    rw [Function.update_idem, Function.update_self]
    rfl

/-- Reopening a file that holds whole records and a cut-off one. -/
theorem reopen_torn (io : Io) (path : Path) (policy : FsyncPolicy) (fs : Fs) (frames : List Frame) (t : Bytes)
    (hopen : io.fault (.creat path) = none) (hc : fs.content path = layout frames ++ t)
    (hfit : ∀ f ∈ frames, f.2.Fits)
    (ht : t = [] ∨ ∃ g : Frame, g.2.Fits ∧ t <+: g.bytes ∧ t.length < g.bytes.length) :
    ∃ fs', SegmentLog.reopen io path policy fs =
        (.ok (), ⟨path, policy, some 0, nextFrom 0 frames, indexFrom 0 frames ∅⟩, fs') ∧
      fs'.disk = Function.update fs.disk path (some (layout frames)) := by
  obtain ⟨fs', heq, hdisk⟩ := reopen_eq io path policy fs _ hopen hc
  have hscan : SegmentLog.recoverLoop (layout frames ++ t) ((layout frames ++ t).length + 1) 0 ∅ 0 =
      (indexFrom 0 frames ∅, nextFrom 0 frames, if t = [] then none else some (layout frames).length) := by
    rcases ht with rfl | ⟨g, hg, hpre, hlt⟩
    · simpa using scan_layout frames hfit
    · exact scan_torn frames hfit t g hg hpre hlt
  rw [hscan] at heq hdisk
  refine ⟨fs', heq, ?_⟩
  rw [hdisk]
  by_cases h0 : t = []
  · subst h0; simp
  · simp [h0]

/-- Reopening a file of whole records under the offsets from 0. -/
theorem reopen_stamped (io : Io) (path : Path) (policy : FsyncPolicy) (fs : Fs) (rs : List Frame) (t : Bytes)
    (hopen : io.fault (.creat path) = none) (hc : fs.content path = layout (stamped rs) ++ t)
    (hfit : ∀ f ∈ rs, f.2.Fits) (hlen : rs.length < 2 ^ 64)
    (ht : t = [] ∨ ∃ g : Frame, g.2.Fits ∧ t <+: g.bytes ∧ t.length < g.bytes.length) :
    ∃ log fs', SegmentLog.reopen io path policy fs = (.ok (), log, fs') ∧
      log.path = path ∧ log.fsync_policy = policy ∧ log.fd = some 0 ∧
      log.next_offset = UInt64.ofNat rs.length ∧ log.offset_to_position = indexFrom 0 (stamped rs) ∅ ∧
      fs'.disk = Function.update fs.disk path (some (layout (stamped rs))) ∧ Yields log fs' (rs.map Prod.snd) := by
  obtain ⟨fs', heq, hdisk⟩ := reopen_torn io path policy fs (stamped rs) t hopen hc (stamped_fits hfit) ht
  rw [nextFrom_stamped] at heq
  refine ⟨_, fs', heq, rfl, rfl, rfl, rfl, rfl, hdisk, ?_⟩
  exact yields_of _ fs' rs 0 [] rfl hfit hlen rfl rfl (by simp [Fs.content, hdisk])

end PomaiQueue.Storage
