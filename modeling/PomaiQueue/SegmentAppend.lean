import PomaiQueue.SegmentScan
/-!
# Appending to a segment

`append_cases` says what one `Append` does, whatever the system does to it:
the bytes of the record that were accepted are written at the file position,
and the log is updated only if all of them were and the fsync went through.
`Live` is a log whose file holds whole records and whose position is at the
end, the state of every log that was opened on an empty file and whose appends
left no part of a record behind.
-/

namespace PomaiQueue.Storage

open Wire Posix

/-- The record as `Append` encodes it when the next offset is `off`. -/
def Record.withOffset (r : Record) (off : UInt64) : Record := { r with header := { r.header with offset := off } }

theorem Record.Fits.withOffset {r : Record} (h : r.Fits) (off : UInt64) : (r.withOffset off).Fits :=
  ⟨h.1, h.2, h.3, h.4⟩

/-- How many bytes of a record of `len` bytes the writes of `Append` accept. -/
def accepted : List Nat → Nat → Nat → Nat
  | [], pos, len => min len (maxOff - pos)
  | w :: ws, pos, len =>
    let n := min (min w len) (maxOff - pos)
    if n = 0 then 0 else n + accepted ws (pos + n) (len - n)

theorem accepted_le (ws : List Nat) (pos len : Nat) : accepted ws pos len ≤ len := by
  induction ws generalizing pos len with
  | nil => exact Nat.min_le_left _ _
  | cons w ws ih =>
    simp only [accepted]
    split
    · omega
    · have := ih (pos + min (min w len) (maxOff - pos)) (len - min (min w len) (maxOff - pos))
      omega

theorem accepted_maxOff (ws : List Nat) (pos len : Nat) (h : pos ≤ maxOff) : pos + accepted ws pos len ≤ maxOff := by
  induction ws generalizing pos len with
  | nil => simp only [accepted]; omega
  | cons w ws ih =>
    simp only [accepted]
    split
    · omega
    · have := ih (pos + min (min w len) (maxOff - pos)) (len - min (min w len) (maxOff - pos)) (by omega)
      omega

theorem writeAll_spec (path : Path) (ws : List Nat) (pos : Nat) (data : Bytes) (fs : Fs) :
    ∃ chunks : List Bytes, chunks.flatten = data.take (accepted ws pos data.length) ∧
      SegmentLog.writeAll path ws pos data fs =
        (accepted ws pos data.length == data.length, pos + accepted ws pos data.length,
          { fs with calls := fs.calls ++ writeCalls path pos chunks }) := by
  induction ws generalizing pos data fs with
  | nil =>
    simp only [SegmentLog.writeAll, accepted]
    split
    · rename_i h0
      refine ⟨[], by simp [h0], ?_⟩
      cases data with
      | nil => simp [writeCalls]
      | cons b data => simp only [h0, writeCalls, List.append_nil]; simp
    · exact ⟨[data.take (min data.length (maxOff - pos))], by simp, by simp [Fs.call, writeCalls]⟩
  | cons w ws ih =>
    simp only [SegmentLog.writeAll, accepted]
    split
    · rename_i h0
      refine ⟨[], by simp, ?_⟩
      cases data with
      | nil => simp [writeCalls]
      | cons b data => simp [writeCalls]
    · rename_i h0
      generalize hn : min (min w data.length) (maxOff - pos) = n at h0
      obtain ⟨chunks, hflat, heq⟩ := ih (pos + n) (data.drop n) (fs.call (.write path pos (data.take n)))
      rw [List.length_drop] at hflat heq
      have hle : n ≤ data.length := by omega
      have ha := accepted_le ws (pos + n) (data.length - n)
      refine ⟨data.take n :: chunks, ?_, ?_⟩
      · rw [List.flatten_cons, hflat, ← List.take_add]
      · rw [heq]
        have hb : (accepted ws (pos + n) (data.length - n) == data.length - n) =
            (n + accepted ws (pos + n) (data.length - n) == data.length) := by
          rw [Bool.eq_iff_iff, beq_iff_eq, beq_iff_eq]; omega
        simp only [hb, Nat.add_assoc, Fs.call, writeCalls, List.length_take, Nat.min_eq_left hle, List.append_assoc,
          List.singleton_append]

/-! ## One append -/

/-- What an `Append` at position `pos` does: it writes as much of the encoded
record as is accepted, maybe fsyncs, and either fails, keeping index and next
offset, or takes the next offset. -/
theorem append_cases (io : Io) (r : Record) (log : SegmentLog) (fs : Fs) (pos : Nat) (hfd : log.fd = some pos) :
    ∃ (n : Nat) (chunks : List Bytes) (sync : List Call),
      n = accepted io.writes pos (recordBytes io.pad (r.withOffset log.next_offset)).length ∧
      chunks.flatten = (recordBytes io.pad (r.withOffset log.next_offset)).take n ∧
      (sync = [] ∨ sync = [.fsync log.path]) ∧
      ((∃ e, SegmentLog.append io r log fs = (.error e, { log with fd := some (pos + n) },
          { fs with calls := fs.calls ++ (writeCalls log.path pos chunks ++ sync) })) ∨
        (n = (recordBytes io.pad (r.withOffset log.next_offset)).length ∧
          (log.fsync_policy = .kAlways → sync = [.fsync log.path]) ∧
          SegmentLog.append io r log fs = (.ok log.next_offset,
            { log with
              fd := some (pos + n)
              next_offset := log.next_offset + 1
              offset_to_position := log.offset_to_position.insert log.next_offset pos },
            { fs with calls := fs.calls ++ (writeCalls log.path pos chunks ++ sync) }))) := by
  generalize hb : recordBytes io.pad (r.withOffset log.next_offset) = bytes
  obtain ⟨chunks, hflat, hw⟩ := writeAll_spec log.path io.writes pos bytes fs
  have henc : encodeRecord io.pad { r with header := { r.header with offset := log.next_offset } } = .ok bytes := by
    rw [← hb]; rfl
  refine ⟨accepted io.writes pos bytes.length, chunks, ?_⟩
  simp only [SegmentLog.append, hfd, henc, hw]
  cases hall : accepted io.writes pos bytes.length == bytes.length with
  | false => exact ⟨[], trivial, hflat, .inl rfl, .inl ⟨_, by rw [List.append_nil]; rfl⟩⟩
  | true =>
    have hn : accepted io.writes pos bytes.length = bytes.length := by simpa using hall
    have hpos : pos + bytes.length - bytes.length = pos := by omega
    by_cases hp : log.fsync_policy = .kAlways
    · simp only [hp, if_true, fsyncFile]
      split_ifs
      · exact ⟨[], trivial, hflat, .inl rfl, .inl ⟨_, by rw [List.append_nil]; rfl⟩⟩
      · exact ⟨[], trivial, hflat, .inl rfl, .inl ⟨_, by rw [List.append_nil]; rfl⟩⟩
      · refine ⟨[.fsync log.path], trivial, hflat, .inr rfl, .inr ⟨hn, fun _ => rfl, ?_⟩⟩
        simp only [hn, hpos, Fs.call, List.append_assoc]
    · simp only [hp, if_false]
      exact ⟨[], trivial, hflat, .inl rfl, .inr ⟨hn, by simp, by simp only [hn, hpos, List.append_nil]⟩⟩

/-- An append goes through when the record is accepted in full and no call fails. -/
theorem append_accepts (io : Io) (r : Record) (log : SegmentLog) (fs : Fs) (pos : Nat) (hfd : log.fd = some pos)
    (hall : accepted io.writes pos (recordBytes io.pad (r.withOffset log.next_offset)).length =
      (recordBytes io.pad (r.withOffset log.next_offset)).length)
    (hfault : ∀ c, io.fault c = none) (hfp : io.failpoint = none) :
    (SegmentLog.append io r log fs).1 = .ok log.next_offset := by
  generalize hb : recordBytes io.pad (r.withOffset log.next_offset) = bytes at hall
  obtain ⟨chunks, -, hw⟩ := writeAll_spec log.path io.writes pos bytes fs
  have henc : encodeRecord io.pad { r with header := { r.header with offset := log.next_offset } } = .ok bytes := by
    rw [← hb]; rfl
  rw [hall, beq_self_eq_true] at hw
  simp only [SegmentLog.append, hfd, henc, hw]
  by_cases hp : log.fsync_policy = .kAlways
  · simp only [hp, if_true, fsyncFile, hfp, hfault, reduceCtorEq, if_false, Option.isSome_none, Bool.false_eq_true]
  · simp only [hp, if_false]

/-- The file after the calls of an append. -/
theorem append_disk (path : Path) (pos : Nat) (chunks : List Bytes) (sync : List Call) (fs : Fs) (c : Bytes)
    (hs : sync = [] ∨ sync = [.fsync path]) (hc : fs.disk path = some c) (hpos : pos ≤ c.length) :
    ({ fs with calls := fs.calls ++ (writeCalls path pos chunks ++ sync) } : Fs).disk =
      Function.update fs.disk path (some (overwrite c pos chunks.flatten)) := by
  rw [← foldl_writeCalls path pos chunks fs.disk c hc hpos]
  rcases hs with rfl | rfl <;> simp [Fs.disk, exec]

/-! ## Logs that only ever held whole records -/

/-- The file holds exactly `frames` and the descriptor stands at its end. -/
structure Live (log : SegmentLog) (fs : Fs) (frames : List Frame) : Prop where
  file : fs.disk log.path = some (layout frames)
  fd : log.fd = some (layout frames).length
  small : (layout frames).length ≤ maxOff

theorem Live.content {log : SegmentLog} {fs : Fs} {frames : List Frame} (h : Live log fs frames) :
    fs.content log.path = layout frames := by
  rw [Fs.content, h.file]; rfl

/-- The frame `Append` makes of a record. -/
def Frame.ofAppend (io : Io) (r : Record) (log : SegmentLog) : Frame := (io.pad, r.withOffset log.next_offset)

/-- Where the bytes of an append on a live log end up. -/
theorem Live.append_file {log : SegmentLog} {fs : Fs} {frames : List Frame} (h : Live log fs frames) (io : Io)
    (r : Record) :
    (SegmentLog.append io r log fs).2.2.disk = Function.update fs.disk log.path
        (some (layout frames ++ (Frame.ofAppend io r log).bytes.take
          (accepted io.writes (layout frames).length (Frame.ofAppend io r log).bytes.length))) := by
  obtain ⟨n, chunks, sync, rfl, hflat, hs, hres⟩ := append_cases io r log fs _ h.fd
  have hd := append_disk log.path _ chunks sync fs _ hs h.file le_rfl
  rw [overwrite_end, hflat] at hd
  rcases hres with ⟨e, he⟩ | ⟨-, -, he⟩ <;> rw [he] <;> exact hd

/-- A successful append on a live log. -/
theorem Live.append_ok {log log' : SegmentLog} {fs fs' : Fs} {frames : List Frame} {io : Io} {r : Record} {o : UInt64}
    (h : Live log fs frames) (ha : SegmentLog.append io r log fs = (.ok o, log', fs')) :
    o = log.next_offset ∧ Live log' fs' (frames ++ [Frame.ofAppend io r log]) ∧
      log'.path = log.path ∧ log'.fsync_policy = log.fsync_policy ∧ log'.next_offset = log.next_offset + 1 ∧
      log'.offset_to_position = log.offset_to_position.insert log.next_offset (layout frames).length := by
  have hfile := h.append_file io r
  obtain ⟨n, chunks, sync, hn, -, -, ⟨e, he⟩ | ⟨hlen, -, he⟩⟩ := append_cases io r log fs _ h.fd
  · rw [ha] at he; cases he
  · have hsmall := accepted_maxOff io.writes _ (Frame.ofAppend io r log).bytes.length h.small
    have hacc : accepted io.writes (layout frames).length (Frame.ofAppend io r log).bytes.length =
        (Frame.ofAppend io r log).bytes.length := hn.symm.trans hlen
    rw [hacc] at hfile hsmall
    rw [ha] at he hfile
    simp only [Prod.mk.injEq, Except.ok.injEq] at he
    obtain ⟨rfl, rfl, -⟩ := he
    refine ⟨rfl, ⟨?_, ?_, ?_⟩, rfl, rfl, rfl, rfl⟩
    · rw [hfile, Function.update_self, List.take_length]
      simp
    · rw [hlen]
      simp [Frame.ofAppend, Frame.bytes]
    · simpa using hsmall

end PomaiQueue.Storage
