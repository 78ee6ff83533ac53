import PomaiQueue.Checksum
import PomaiQueue.Lib.Map
import PomaiQueue.SegmentHolds
/-!
# Recovery of any bytes

`Recover` on a file with any content. Bytes that the scan accepts are the bytes
of a record (`frame_of_decode`), so every file is whole records and something the
scan stops at (`exists_layout`), and what is known about files of whole records
applies to what `Recover` leaves.
-/

namespace PomaiQueue.Storage

open Wire Posix

/-! ## Accepted bytes -/

/-- What stands in the gaps of the header. -/
def paddingOf (b : Bytes) : Padding where
  gap := getU32 (field b 12 4)
  tail := getU32 (field b 60 4)

theorem withPadding_self {b : Bytes} (h : headerSize ≤ b.length) : withPadding (paddingOf b) b = b := by
  have hf : ∀ i, i + 4 ≤ headerSize → (field b i 4).length = 4 := by
    intro i hi
    rw [field_length]
    omega
  have htail : field b 60 4 ++ b.drop headerSize = b.drop 60 := by
    rw [field, headerSize, ← List.drop_drop (i := 4) (j := 60), List.take_append_drop]
  have hmid : field b 16 44 ++ b.drop 60 = b.drop 16 := by
    rw [field, ← List.drop_drop (i := 44) (j := 16), List.take_append_drop]
  have hgap : field b 12 4 ++ b.drop 16 = b.drop 12 := by
    rw [field, ← List.drop_drop (i := 4) (j := 12), List.take_append_drop]
  unfold withPadding paddingOf
  dsimp only
  rw [putU32_getU32 (hf 12 (by decide)), putU32_getU32 (hf 60 (by decide)), htail, hmid, hgap, List.take_append_drop]

/-- A frame that the decoder accepts is the bytes of a record that fits. -/
theorem frame_of_decode {b : Bytes} {r : Record} (hf : Framed b) (hd : decodeRecord b = .ok r) :
    Frame.bytes (paddingOf b, r) = b ∧ r.Fits := by
  have hlen := (decodeRecord_ok hd).1
  have henc := Except.ok.inj (encode_of_decode hf hd (paddingOf b))
  exact ⟨henc.trans (withPadding_self hlen), decodeRecord_fits hd⟩

/-! ## The scan from a position -/

theorem pread_append (pre rest : Bytes) (n i : Nat) : pread (pre ++ rest) n (pre.length + i) = pread rest n i := by
  rw [pread, field_skip _ _ _ _ (Nat.le_add_right _ _), Nat.add_sub_cancel_left, pread]

theorem kvWalk_append (pre rest : Bytes) (n cursor size : Nat) :
    kvWalk (pre ++ rest) n (pre.length + cursor) size = kvWalk rest n cursor size := by
  induction n generalizing cursor size with
  | zero => rfl
  | succ n ih =>
    unfold kvWalk
    simp only [pread_append, Nat.add_assoc, ih]

theorem recordSize_append (pre rest : Bytes) (header : RecordHeader) :
    recordSize (pre ++ rest) pre.length header = recordSize rest 0 header := by
  unfold recordSize
  rw [kvWalk_append, Nat.zero_add]

/-- The scan stops here. -/
def Stuck (rest : Bytes) : Prop :=
  ∀ pre fuel index next, SegmentLog.recoverLoop (pre ++ rest) (fuel + 1) pre.length index next =
    (index, next, if rest = [] then none else some pre.length)

/-- A walk over more bytes than it counts finds the same. -/
theorem kvWalk_of_take {file : Bytes} {n cursor size r : Nat} (h : kvWalk file n cursor size = some r) {L : Nat}
    (hle : cursor + (r - size) ≤ L) : kvWalk (file.take L) n cursor size = some r := by
  induction n generalizing cursor size with
  | zero => exact h
  | succ n ih =>
    obtain ⟨hge, -⟩ := kvWalk_le h
    unfold kvWalk at h ⊢
    dsimp only at h ⊢
    split at h
    · cases h
    · rename_i h8
      obtain ⟨hge', -⟩ := kvWalk_le h
      have hread : pread (file.take L) 8 cursor = pread file 8 cursor := by
        rw [pread, pread]
        apply field_take
        omega
      rw [hread, if_neg h8]
      exact ih h (by omega)

/-- There is a record at the front, or the scan stops. -/
theorem frame_or_stuck (rest : Bytes) : (∃ f : Frame, f.2.Fits ∧ f.bytes <+: rest) ∨ Stuck rest := by
  by_cases hacc : ∃ size r, headerSize ≤ rest.length ∧ recordSize rest 0 (getHeader (pread rest headerSize 0)) = some size ∧
      size ≤ rest.length ∧ decodeRecord (pread rest size 0) = .ok r
  · -- The bytes that the scan decodes are a frame.
    left
    obtain ⟨size, r, hlen, hsize, hroom, hd⟩ := hacc
    have htake : pread rest size 0 = rest.take size := by rw [pread, ← take_eq_field]
    have hhead : pread (rest.take size) headerSize 0 = pread rest headerSize 0 := by
      rw [pread, pread]
      apply field_take
      have := (recordSize_lt hsize).1
      omega
    rw [htake] at hd
    have hframed : Framed (rest.take size) := by
      rw [Framed, hhead, List.length_take, Nat.min_eq_left hroom]
      apply kvWalk_of_take hsize
      have := (recordSize_lt hsize).1
      omega
    obtain ⟨hbytes, hfit⟩ := frame_of_decode hframed hd
    refine ⟨(paddingOf (rest.take size), r), hfit, rest.drop size, ?_⟩
    rw [hbytes, List.take_append_drop]
  · right
    intro pre fuel index next
    have hread : ∀ n, pread (pre ++ rest) n pre.length = pread rest n 0 := fun n => pread_append pre rest n 0
    have hlen : ∀ n, (pread rest n 0).length = min n rest.length := by
      intro n
      rw [pread, field_length, Nat.sub_zero]
    unfold SegmentLog.recoverLoop
    simp only [hread, recordSize_append]
    by_cases h0 : rest = []
    · rw [if_pos (by rw [hlen, h0]; rfl), if_pos h0]
    · have hpos := List.length_pos_iff.2 h0
      rw [if_neg (by rw [hlen]; simp only [headerSize]; omega), if_neg h0]
      by_cases hh : (pread rest headerSize 0).length < headerSize
      · rw [if_pos hh]
      · rw [if_neg hh]
        rw [hlen] at hh
        split
        · rfl
        · cases hsize : recordSize rest 0 (getHeader (pread rest headerSize 0)) with
          | none => rfl
          | some size =>
            dsimp only
            split
            · rfl
            · rename_i hroom
              rw [hlen] at hroom
              cases hd : decodeRecord (pread rest size 0) with
              | error e => rfl
              | ok r => exact absurd ⟨size, r, by omega, hsize, by omega, hd⟩ hacc

/-- Every file is whole records and a place where the scan stops. -/
theorem exists_layout (file : Bytes) : ∃ frames junk, file = layout frames ++ junk ∧ (∀ f ∈ frames, f.2.Fits) ∧ Stuck junk := by
  induction hn : file.length using Nat.strong_induction_on generalizing file with
  | _ n ih =>
    rcases frame_or_stuck file with ⟨f, hfit, rest, rfl⟩ | hstuck
    · have hpos := f.headerSize_le
      simp only [headerSize] at hpos
      rw [List.length_append] at hn
      obtain ⟨frames, junk, rfl, hfits, hstuck⟩ := ih rest.length (by omega) rest rfl
      refine ⟨f :: frames, junk, by simp, fun g hg => ?_, hstuck⟩
      rcases List.mem_cons.1 hg with rfl | hg
      · exact hfit
      · exact hfits g hg
    · exact ⟨[], file, rfl, by simp, hstuck⟩

/-! ## Recover -/

/-- The scan over whole records up to where it stops, with any fuel that is enough. -/
theorem scan_stuck {frames : List Frame} {junk : Bytes} (hfit : ∀ f ∈ frames, f.2.Fits) (hstuck : Stuck junk) {fuel : Nat}
    (hfuel : (layout frames ++ junk).length < fuel) :
    SegmentLog.recoverLoop (layout frames ++ junk) fuel 0 ∅ 0 =
      (indexFrom 0 frames ∅, nextFrom 0 frames, if junk = [] then none else some (layout frames).length) := by
  have hlen := layout_length_ge frames
  rw [List.length_append] at hfuel
  simp only [headerSize] at hlen
  obtain ⟨k, rfl⟩ := Nat.exists_eq_add_of_lt (show frames.length < fuel by omega)
  have hscan := recoverLoop_layout [] junk frames hfit (k + 1) ∅ 0
  simp only [List.nil_append, List.length_nil, Nat.zero_add] at hscan
  rw [show frames.length + k + 1 = k + 1 + frames.length by omega, hscan]
  exact hstuck (layout frames) k _ _

/-- The file without what the scan stopped at, and the index of the records in it. -/
theorem recover_of_layout (log : SegmentLog) {fs : Fs} {p : Nat} {frames : List Frame} {junk : Bytes} (hfd : log.fd = some p)
    (hfile : fs.content log.path = layout frames ++ junk) (hfit : ∀ f ∈ frames, f.2.Fits) (hstuck : Stuck junk) :
    ∃ fs', log.recover fs =
        (.ok (), { log with next_offset := nextFrom 0 frames, offset_to_position := indexFrom 0 frames ∅ }, fs') ∧
      fs'.content log.path = layout frames ∧ (junk = [] → fs' = fs) := by
  have hscan := scan_stuck hfit hstuck (Nat.lt_succ_self _)
  unfold SegmentLog.recover
  simp only [hfd, hfile, hscan]
  by_cases hj : junk = []
  · subst hj
    exact ⟨fs, by simp, by rw [hfile, List.append_nil], fun _ => rfl⟩
  · refine ⟨_, rfl, ?_, fun h => absurd h hj⟩
    rw [if_neg hj]
    cases hd : fs.disk log.path with
    | none =>
      simp only [Fs.content, hd, Option.getD_none] at hfile
      exact absurd (List.append_eq_nil_iff.1 hfile.symm).2 hj
    | some b =>
      simp only [Fs.content, hd, Option.getD_some] at hfile
      simp [Fs.content, exec, hd, hfile]

/-- Where the index points, there is a record with that offset. -/
theorem lookup_indexFrom {pos p : Nat} {off : UInt64} {frames : List Frame} {index : Index}
    (h : (indexFrom pos frames index).lookup off = some p) : index.lookup off = some p ∨
      ∃ a f b, frames = a ++ f :: b ∧ f.2.header.offset = off ∧ p = pos + (layout a).length := by
  induction frames generalizing pos index with
  | nil => exact .inl h
  | cons g frames ih =>
    rcases ih h with hix | ⟨a, f, b, rfl, hoff, rfl⟩
    · by_cases ho : off = g.2.header.offset
      · subst ho
        rw [AList.lookup_insert, Option.some.injEq] at hix
        exact .inr ⟨[], g, frames, rfl, rfl, by simp [hix]⟩
      · rw [AList.lookup_insert_ne ho] at hix
        exact .inl hix
    · exact .inr ⟨g :: a, f, b, rfl, hoff, by simp [Nat.add_assoc]⟩

/-- Every record is indexed. -/
theorem indexFrom_has (pos : Nat) {frames : List Frame} (index : Index) {off : UInt64}
    (h : (∃ p, index.lookup off = some p) ∨ ∃ f ∈ frames, f.2.header.offset = off) :
    ∃ p, (indexFrom pos frames index).lookup off = some p := by
  induction frames generalizing pos index with
  | nil =>
    rcases h with h | ⟨f, hf, -⟩
    · exact h
    · cases hf
  | cons g frames ih =>
    apply ih
    by_cases ho : off = g.2.header.offset
    · subst ho
      exact .inl ⟨pos, AList.lookup_insert index⟩
    · rw [AList.lookup_insert_ne ho]
      rcases h with h | ⟨f, hf, hfo⟩
      · exact .inl h
      · rcases List.mem_cons.1 hf with rfl | hf
        · exact absurd hfo.symm ho
        · exact .inr ⟨f, hf, hfo⟩

theorem SegmentLog.mem_offsets (log : SegmentLog) (off : UInt64) :
    off ∈ log.offsets ↔ ∃ p, log.offset_to_position.lookup off = some p := by
  rw [SegmentLog.offsets, (List.perm_insertionSort _ _).mem_iff, Assoc.mem_keys_iff]

/-- What is read at an offset of the index is a record of the file with that offset. -/
theorem read_indexed {log : SegmentLog} {fs : Fs} {p : Nat} {frames : List Frame} (hfd : log.fd = some p)
    (hfit : ∀ f ∈ frames, f.2.Fits) (hix : log.offset_to_position = indexFrom 0 frames ∅)
    (hfile : fs.content log.path = layout frames) {off : UInt64} (hoff : off ∈ log.offsets) :
    ∃ f ∈ frames, f.2.header.offset = off ∧ log.read fs off = .ok f.stored := by
  obtain ⟨pos, hpos⟩ := (SegmentLog.mem_offsets _ off).1 hoff
  have hlookup := hpos
  rw [hix] at hlookup
  rcases lookup_indexFrom hlookup with h | ⟨a, f, b, rfl, hfo, hp⟩
  · cases h
  · rw [Nat.zero_add] at hp
    subst hp
    refine ⟨f, by simp, hfo, read_frame log fs off p (layout a) (layout b) f (hfit f (by simp)) hfd hpos ?_⟩
    rw [hfile, layout_append, layout_cons, List.append_assoc]

theorem Frame.framed {f : Frame} (h : f.2.Fits) : Framed f.bytes := by
  have hread := header_of_frame [] [] f
  have hsize := recordSize_recordBytes [] [] f.1 f.2 h
  rw [List.nil_append, List.append_nil, List.length_nil] at hread hsize
  rw [Framed, hread, getHeader_frame]
  exact hsize

/-- Whatever the file holds, `Recover` returns Ok and leaves a first part of it
that is whole records, every offset it lists reads as a record with that offset,
and to recover once more changes nothing. The scan ends by itself: with more
rounds than the file has bytes, the number of rounds does not matter. -/
theorem recover_any_bytes (log : SegmentLog) (fs : Fs) (hfd : log.fd.isSome) :
    ∃ log' fs', log.recover fs = (.ok (), log', fs') ∧
      (∀ fuel, (fs.content log.path).length < fuel →
        SegmentLog.recoverLoop (fs.content log.path) fuel 0 ∅ 0 =
          SegmentLog.recoverLoop (fs.content log.path) ((fs.content log.path).length + 1) 0 ∅ 0) ∧
      (∃ whole : List Bytes, fs'.content log.path = whole.flatten ∧ whole.flatten <+: fs.content log.path ∧
        ∀ b ∈ whole, Framed b ∧ ∃ r, decodeRecord b = .ok r) ∧
      (∀ off ∈ log'.offsets, ∃ r, log'.read fs' off = .ok r ∧ r.header.offset = off) ∧
      log'.recover fs' = (.ok (), log', fs') := by
  obtain ⟨p, hfd⟩ := Option.isSome_iff_exists.1 hfd
  obtain ⟨frames, junk, hfile, hfit, hstuck⟩ := exists_layout (fs.content log.path)
  obtain ⟨fs', hrec, hfile', -⟩ := recover_of_layout log hfd hfile hfit hstuck
  refine ⟨_, fs', hrec, ?_, ⟨frames.map Frame.bytes, ?_, ?_, ?_⟩, ?_, ?_⟩
  · intro fuel hfuel
    rw [hfile] at hfuel ⊢
    rw [scan_stuck hfit hstuck hfuel, scan_stuck hfit hstuck (Nat.lt_succ_self _)]
  · rw [hfile', layout, List.flatMap_def]
  · rw [hfile, layout, List.flatMap_def]
    exact ⟨junk, rfl⟩
  · intro b hb
    obtain ⟨f, hf, rfl⟩ := List.mem_map.1 hb
    exact ⟨Frame.framed (hfit f hf), _, decode_recordBytes f.1 f.2 (hfit f hf)⟩
  · intro off hoff
    obtain ⟨f, -, hfo, hread⟩ := @read_indexed
      { log with next_offset := nextFrom 0 frames, offset_to_position := indexFrom 0 frames ∅ } fs' p frames hfd hfit rfl hfile' off hoff
    exact ⟨f.stored, hread, hfo⟩
  · -- There is nothing left to stop at.
    have hnil : Stuck [] := by
      intro pre fuel index next
      rw [List.append_nil, recoverLoop_end, if_pos rfl]
    obtain ⟨fs'', hrec', -, hsame⟩ := recover_of_layout
      { log with next_offset := nextFrom 0 frames, offset_to_position := indexFrom 0 frames ∅ } hfd
      (hfile'.trans (List.append_nil _).symm) hfit hnil
    rw [hrec', hsame rfl]

/-- A segment that is three bytes and no record. -/
theorem recover_three_bytes : ∃ log' fs',
    (freshLog [46, 47, 113] .kAlways).recover { base := fun _ => some [1, 2, 3] } = (.ok (), log', fs') ∧
    fs'.content [46, 47, 113] <+: [1, 2, 3] ∧ log'.recover fs' = (.ok (), log', fs') := by
  obtain ⟨log', fs', hrec, -, ⟨whole, hfile, hpre, -⟩, -, hagain⟩ :=
    recover_any_bytes (freshLog [46, 47, 113] .kAlways) { base := fun _ => some [1, 2, 3] } rfl
  have hfile : fs'.content [46, 47, 113] = whole.flatten := hfile
  exact ⟨log', fs', hrec, hfile ▸ hpre, hagain⟩

end PomaiQueue.Storage
