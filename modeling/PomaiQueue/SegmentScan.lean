import PomaiQueue.SegmentLog
/-!
# Scanning a segment

What `Recover` computes on a file made of whole records, possibly with a cut-off
record after them. `recoverLoop_frame` is one round over a whole record,
`recoverLoop_torn` the round that stops, `recoverLoop_layout` the whole scan.
The index it builds is `indexFrom`, a fold over the records, and so is the
index a live log keeps, which is how the two are compared.
-/

namespace PomaiQueue.Storage

open Wire Posix

/-- A record as some `Append` wrote it. -/
abbrev Frame := Padding × Record

def Frame.bytes (f : Frame) : Bytes := recordBytes f.1 f.2

/-- A file of whole records. -/
def layout (frames : List Frame) : Bytes := frames.flatMap Frame.bytes

/-- The record a reader gets for a frame that fits. -/
def Frame.stored (f : Frame) : Record := { f.2 with header := sealedHeader f.2 }

theorem Frame.headerSize_le (f : Frame) : headerSize ≤ f.bytes.length := by
  rw [Frame.bytes, recordBytes_length]
  exact Nat.le_add_right _ _

theorem Frame.bytes_ne_nil (f : Frame) : f.bytes ≠ [] := by
  intro h
  have := f.headerSize_le
  simp [h, headerSize] at this

@[simp] theorem layout_nil : layout [] = [] := rfl

@[simp] theorem layout_cons (f : Frame) (frames : List Frame) : layout (f :: frames) = f.bytes ++ layout frames := by
  simp [layout]

@[simp] theorem layout_append (a b : List Frame) : layout (a ++ b) = layout a ++ layout b := by
  simp [layout]

theorem layout_length_ge (frames : List Frame) : headerSize * frames.length ≤ (layout frames).length := by
  induction frames with
  | nil => simp
  | cons f frames ih =>
    have := f.headerSize_le
    simp only [layout_cons, List.length_append, List.length_cons, Nat.mul_add]
    omega

/-! ## One round -/

theorem header_of_frame (pre post : Bytes) (f : Frame) :
    pread (pre ++ f.bytes ++ post) headerSize pre.length = putHeader f.1 (sealedHeader f.2) := by
  rw [Frame.bytes, recordBytes, ← List.append_assoc pre, List.append_assoc _ (bodyBytes f.2)]
  exact field_mid _ _ _ _ (putHeader_length _ _)

theorem getHeader_frame (f : Frame) : getHeader (putHeader f.1 (sealedHeader f.2)) = sealedHeader f.2 := by
  rw [← List.append_nil (putHeader _ _), getHeader_putHeader]

theorem magic_frame (f : Frame) :
    ¬ (magicOf (putHeader f.1 (sealedHeader f.2)) ≠ kRecordMagic ∨
      versionOf (putHeader f.1 (sealedHeader f.2)) ≠ kRecordVersion) := by
  rw [← List.append_nil (putHeader _ _), magicOf_putHeader, versionOf_putHeader]
  simp

/-- A whole record that fits is indexed and stepped over. -/
theorem recoverLoop_frame (pre post : Bytes) (f : Frame) (hf : f.2.Fits) (fuel : Nat) (index : Index) (next : UInt64) :
    SegmentLog.recoverLoop (pre ++ f.bytes ++ post) (fuel + 1) pre.length index next =
      SegmentLog.recoverLoop (pre ++ f.bytes ++ post) fuel (pre.length + f.bytes.length)
        (index.insert f.2.header.offset pre.length) (f.2.header.offset + 1) := by
  have hsize : recordSize (pre ++ f.bytes ++ post) pre.length (sealedHeader f.2) = some f.bytes.length :=
    recordSize_recordBytes pre post f.1 f.2 hf
  have hbuf : pread (pre ++ f.bytes ++ post) f.bytes.length pre.length = f.bytes := field_mid _ _ _ _ rfl
  have hdec : decodeRecord f.bytes = .ok f.stored := decode_recordBytes f.1 f.2 hf
  conv_lhs => unfold SegmentLog.recoverLoop
  simp only [header_of_frame, getHeader_frame, putHeader_length, magic_frame, hsize, hbuf, hdec, if_false,
    lt_irrefl]
  rw [if_neg (by simp [headerSize])]
  rfl

/-- Past the last byte there is nothing to scan. -/
theorem recoverLoop_end (file : Bytes) (fuel : Nat) (index : Index) (next : UInt64) :
    SegmentLog.recoverLoop file (fuel + 1) file.length index next = (index, next, none) := by
  simp [SegmentLog.recoverLoop, pread, field]

/-- Cutting the file either hides a size pair from the walk or changes nothing. -/
theorem kvWalk_take (file : Bytes) (L n cursor size : Nat) :
    kvWalk (file.take L) n cursor size = none ∨ kvWalk (file.take L) n cursor size = kvWalk file n cursor size := by
  induction n generalizing cursor size with
  | zero => exact .inr rfl
  | succ n ih =>
    by_cases hl : (pread (file.take L) 8 cursor).length < 8
    · exact .inl (by simp only [kvWalk, hl, if_true])
    · have he : pread (file.take L) 8 cursor = pread file 8 cursor := by
        simp only [pread, field, List.length_take, List.length_drop] at hl ⊢
        rw [List.drop_take, List.take_take, Nat.min_eq_left (by omega)]
      simp only [kvWalk, he]
      split
      · exact .inl rfl
      · exact ih _ _

/-- A record that is cut off ends the scan, and is cut away unless nothing of
it is there. -/
theorem recoverLoop_torn (pre t : Bytes) (f : Frame) (hf : f.2.Fits) (ht : t <+: f.bytes)
    (hlt : t.length < f.bytes.length) (fuel : Nat) (index : Index) (next : UInt64) :
    SegmentLog.recoverLoop (pre ++ t) (fuel + 1) pre.length index next =
      (index, next, if t = [] then none else some pre.length) := by
  obtain ⟨u, hu⟩ := ht
  have hbytes : (pread (pre ++ t) headerSize pre.length).length = min headerSize t.length := by
    rw [pread, field_length]; simp
  by_cases h0 : t = []
  · subst h0
    simp [SegmentLog.recoverLoop, pread, field]
  have hpos : 0 < t.length := List.length_pos_iff.2 h0
  simp only [h0, if_false]
  unfold SegmentLog.recoverLoop
  simp only [hbytes]
  rw [if_neg (by simp only [headerSize]; omega)]
  by_cases hh : t.length < headerSize
  · rw [if_pos (by omega)]
  rw [if_neg (by omega)]
  -- The header is whole, so it is the record's own and so is the size, if the walk gets through.
  have hcut : pre ++ t = (pre ++ f.bytes ++ []).take (pre.length + t.length) := by
    rw [← hu, List.append_nil, ← List.append_assoc, List.take_left' (by simp)]
  have hpre : pread (pre ++ t) headerSize pre.length = putHeader f.1 (sealedHeader f.2) := by
    rw [← header_of_frame pre [] f, ← hu, List.append_nil]
    simp only [pread, field, List.drop_left]
    rw [List.take_append_of_le_length (by omega)]
  rw [hpre, if_neg (magic_frame f), getHeader_frame]
  have hsize : recordSize (pre ++ f.bytes ++ []) pre.length (sealedHeader f.2) = some f.bytes.length :=
    recordSize_recordBytes pre [] f.1 f.2 hf
  have hwalk : recordSize (pre ++ t) pre.length (sealedHeader f.2) = none ∨
      recordSize (pre ++ t) pre.length (sealedHeader f.2) = some f.bytes.length := by
    rw [← hsize, hcut]
    exact kvWalk_take _ _ _ _ _
  rcases hwalk with hw | hw <;> simp only [hw]
  rw [if_pos (by rw [pread, field_length]; simp; omega)]

/-! ## The whole scan -/

/-- The index after scanning `frames` from position `pos`. -/
def indexFrom : Nat → List Frame → Index → Index
  | _, [], index => index
  | pos, f :: frames, index => indexFrom (pos + f.bytes.length) frames (index.insert f.2.header.offset pos)

/-- The next offset after scanning `frames`. -/
def nextFrom : UInt64 → List Frame → UInt64
  | next, [] => next
  | _, f :: frames => nextFrom (f.2.header.offset + 1) frames

theorem indexFrom_append (pos : Nat) (a b : List Frame) (index : Index) :
    indexFrom pos (a ++ b) index = indexFrom (pos + (layout a).length) b (indexFrom pos a index) := by
  induction a generalizing pos index with
  | nil => simp [indexFrom]
  | cons f a ih => simp only [List.cons_append, indexFrom, ih, layout_cons, List.length_append, Nat.add_assoc]

theorem nextFrom_concat (next : UInt64) (a : List Frame) (f : Frame) :
    nextFrom next (a ++ [f]) = f.2.header.offset + 1 := by
  induction a generalizing next with
  | nil => rfl
  | cons g a ih => exact ih _

/-- The scan over whole records that fit. -/
theorem recoverLoop_layout (pre post : Bytes) (frames : List Frame) (hf : ∀ f ∈ frames, f.2.Fits) (fuel : Nat)
    (index : Index) (next : UInt64) :
    SegmentLog.recoverLoop (pre ++ layout frames ++ post) (fuel + frames.length) pre.length index next =
      SegmentLog.recoverLoop (pre ++ layout frames ++ post) fuel (pre.length + (layout frames).length)
        (indexFrom pre.length frames index) (nextFrom next frames) := by
  induction frames generalizing pre index next with
  | nil => simp [indexFrom, nextFrom]
  | cons f frames ih =>
    have hfile : pre ++ layout (f :: frames) ++ post = pre ++ f.bytes ++ (layout frames ++ post) := by
      simp [List.append_assoc]
    have hfile' : pre ++ f.bytes ++ (layout frames ++ post) = (pre ++ f.bytes) ++ layout frames ++ post := by
      simp [List.append_assoc]
    have hstep := ih (pre ++ f.bytes) (fun g hg => hf g (by simp [hg])) (index.insert f.2.header.offset pre.length)
      (f.2.header.offset + 1)
    rw [List.length_append] at hstep
    rw [hfile, List.length_cons, ← Nat.add_assoc, recoverLoop_frame pre _ f (hf f (by simp)), hfile', hstep]
    simp only [indexFrom, nextFrom, layout_cons, List.length_append, Nat.add_assoc]

/-- Recovery of whole records followed by a cut-off one. -/
theorem scan_torn (frames : List Frame) (hf : ∀ f ∈ frames, f.2.Fits) (t : Bytes) (g : Frame) (hg : g.2.Fits)
    (ht : t <+: g.bytes) (hlt : t.length < g.bytes.length) :
    SegmentLog.recoverLoop (layout frames ++ t) ((layout frames ++ t).length + 1) 0 ∅ 0 =
      (indexFrom 0 frames ∅, nextFrom 0 frames, if t = [] then none else some (layout frames).length) := by
  have hfuel : frames.length ≤ (layout frames ++ t).length := by
    have := layout_length_ge frames
    simp only [headerSize, List.length_append] at this ⊢
    omega
  obtain ⟨k, hk⟩ := Nat.exists_eq_add_of_le hfuel
  rw [hk, show frames.length + k + 1 = k + 1 + frames.length by omega]
  have hscan := recoverLoop_layout [] t frames hf (k + 1) ∅ 0
  simp only [List.nil_append, List.length_nil, Nat.zero_add] at hscan
  rw [hscan]
  exact recoverLoop_torn (layout frames) t g hg ht hlt k _ _

/-- Recovery of a file of whole records. -/
theorem scan_layout (frames : List Frame) (hf : ∀ f ∈ frames, f.2.Fits) :
    SegmentLog.recoverLoop (layout frames) ((layout frames).length + 1) 0 ∅ 0 =
      (indexFrom 0 frames ∅, nextFrom 0 frames, none) := by
  have hg : (({}, {}) : Frame).2.Fits := ⟨by simp, by simp, by simp, by simp⟩
  have h := scan_torn frames hf [] ({}, {}) hg List.nil_prefix (List.length_pos_iff.2 (Frame.bytes_ne_nil _))
  simpa using h

/-! ## Reading a record -/

theorem read_frame (log : SegmentLog) (fs : Fs) (off : UInt64) (p : Nat) (pre post : Bytes) (f : Frame)
    (hf : f.2.Fits) (hfd : log.fd = some p) (hix : log.offset_to_position.lookup off = some pre.length)
    (hfile : fs.content log.path = pre ++ f.bytes ++ post) : log.read fs off = .ok f.stored := by
  have hsize : recordSize (pre ++ f.bytes ++ post) pre.length (sealedHeader f.2) = some f.bytes.length :=
    recordSize_recordBytes pre post f.1 f.2 hf
  have hbuf : pread (pre ++ f.bytes ++ post) f.bytes.length pre.length = f.bytes := field_mid _ _ _ _ rfl
  have hdec : decodeRecord f.bytes = .ok f.stored := decode_recordBytes f.1 f.2 hf
  simp only [SegmentLog.read, hix, hfd, hfile, header_of_frame, putHeader_length, getHeader_frame, hsize,
    SegmentLog.readAt, hbuf, lt_irrefl, if_false, hdec]

end PomaiQueue.Storage
