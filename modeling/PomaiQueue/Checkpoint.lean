import PomaiQueue.Checksum
import PomaiQueue.DurableIo
import PomaiQueue.Lib.Stream
/-!
# Checkpoints

`src/core/storage/checkpoint.cc`: an offset in a file of 24 bytes, with a magic number, a
version and a checksum of everything before it. No altered byte and no missing end goes
unnoticed (`checkpoint_integrity`): the checksum covers the first 16 bytes, and it is itself
the other eight.
-/

namespace PomaiQueue.Storage

open Wire Posix

def kCheckpointMagic : UInt32 := 0x504d434b
def kCheckpointVersion : UInt16 := 1

structure CheckpointBlob where
  magic : UInt32 := kCheckpointMagic
  version : UInt16 := kCheckpointVersion
  reserved : UInt16 := 0
  offset : UInt64 := 0
  crc64 : UInt64 := 0

/-- The bytes of the struct before `crc64`. It has no padding. -/
def CheckpointBlob.head (blob : CheckpointBlob) : Bytes :=
  putU32 blob.magic ++ (putU16 blob.version ++ (putU16 blob.reserved ++ putU64 blob.offset))

def CheckpointBlob.bytes (blob : CheckpointBlob) : Bytes := blob.head ++ putU64 blob.crc64

def blobSize : Nat := 24

/-- The struct with these bytes. -/
def getBlob (bs : Bytes) : CheckpointBlob where
  magic := getU32 (field bs 0 4)
  version := getU16 (field bs 4 2)
  reserved := getU16 (field bs 6 2)
  offset := getU64 (field bs 8 8)
  crc64 := getU64 (field bs 16 8)

def computeCrc (blob : CheckpointBlob) : UInt64 := Crc64.compute blob.head

structure CheckpointStore where
  path : Path
  fsync_policy : FsyncPolicy

namespace CheckpointStore

/-- The part of `Load` that has opened the file. -/
def loadFile (file : Bytes) : StatusOr UInt64 :=
  let (bytes, s) := IStream.read ⟨file, false⟩ blobSize
  if s.eof then corrupt "checkpoint truncated"
  else
    let blob := getBlob bytes
    if blob.magic ≠ kCheckpointMagic ∨ blob.version ≠ kCheckpointVersion then corrupt "checkpoint version mismatch"
    else if blob.crc64 ≠ computeCrc blob then corrupt "checkpoint crc mismatch"
    else .ok blob.offset

/-- `opens`: whether a file that is there can be opened. -/
def load (store : CheckpointStore) (opens : Bool) (fs : Fs) : StatusOr UInt64 :=
  match fs.disk store.path with
  | none => .ok 0
  | some file => if opens then loadFile file else ioError "open checkpoint failed"

/-- The blob that `Save` writes. -/
def savedBlob (offset : UInt64) : CheckpointBlob := { offset, crc64 := computeCrc { offset } }

/-- `early`: whether it is the writer that notices a failing write. -/
def save (io : Io) (sizes : List Nat) (early : Bool) (store : CheckpointStore) (offset : UInt64) (fs : Fs) : StatusOr Unit × Fs :=
  durableWriteFile io sizes (if early then some "write checkpoint failed" else none) store.path (savedBlob offset).bytes
    store.fsync_policy fs

end CheckpointStore

/-! ## Reading a blob -/

@[simp] theorem CheckpointBlob.head_length (blob : CheckpointBlob) : blob.head.length = 16 := by
  simp [CheckpointBlob.head]

@[simp] theorem CheckpointBlob.bytes_length (blob : CheckpointBlob) : blob.bytes.length = blobSize := by
  simp [CheckpointBlob.bytes, blobSize]

/-- The struct lies in memory as it was read. -/
theorem head_getBlob {head tail : Bytes} (hhead : head.length = 16) : (getBlob (head ++ tail)).head = head := by
  have hfield : ∀ i n, i + n ≤ 16 → field (head ++ tail) i n = field head i n := by
    intro i n hin
    rw [field, field, List.drop_append_of_le_length (by omega), List.take_append_of_le_length (by rw [List.length_drop]; omega)]
  have hlen : ∀ i n, i + n ≤ 16 → (field head i n).length = n := by
    intro i n hin
    rw [field_length]
    omega
  unfold CheckpointBlob.head getBlob
  dsimp only
  rw [hfield 0 4 (by omega), hfield 4 2 (by omega), hfield 6 2 (by omega), hfield 8 8 (by omega),
    putU32_getU32 (hlen 0 4 (by omega)), putU16_getU16 (hlen 4 2 (by omega)), putU16_getU16 (hlen 6 2 (by omega)),
    putU64_getU64 (hlen 8 8 (by omega)), ← field_append, ← field_append, ← field_append]
  exact field_all head 16 hhead

theorem crc_getBlob {head tail : Bytes} (hhead : head.length = 16) (htail : tail.length = 8) :
    (getBlob (head ++ tail)).crc64 = getU64 tail := by
  change getU64 (field (head ++ tail) 16 8) = getU64 tail
  rw [field_skip _ _ _ _ (Nat.le_of_eq hhead), hhead, field_all tail 8 htail]

theorem getBlob_bytes (blob : CheckpointBlob) : getBlob blob.bytes = blob := by
  have hbytes : blob.bytes = putU32 blob.magic ++ (putU16 blob.version ++ (putU16 blob.reserved ++
      (putU64 blob.offset ++ putU64 blob.crc64))) := by
    simp only [CheckpointBlob.bytes, CheckpointBlob.head, List.append_assoc]
  have hmagic : field blob.bytes 0 4 = putU32 blob.magic := by
    rw [hbytes, field_here _ _ _ (putU32_length _)]
  have hversion : field blob.bytes 4 2 = putU16 blob.version := by
    rw [hbytes, field_skip _ _ _ _ (by simp), putU32_length, field_here _ _ _ (putU16_length _)]
  have hreserved : field blob.bytes 6 2 = putU16 blob.reserved := by
    rw [hbytes, field_skip _ _ _ _ (by simp), putU32_length, field_skip _ _ _ _ (by simp), putU16_length,
      field_here _ _ _ (putU16_length _)]
  have hoffset : field blob.bytes 8 8 = putU64 blob.offset := by
    rw [hbytes, field_skip _ _ _ _ (by simp), putU32_length, field_skip _ _ _ _ (by simp), putU16_length,
      field_skip _ _ _ _ (by simp), putU16_length, field_here _ _ _ (putU64_length _)]
  have hcrc : (getBlob blob.bytes).crc64 = blob.crc64 := by
    rw [CheckpointBlob.bytes, crc_getBlob blob.head_length (putU64_length _), getU64_putU64]
  unfold getBlob at hcrc ⊢
  dsimp only at hcrc
  rw [hcrc, hmagic, hversion, hreserved, hoffset, getU32_putU32, getU16_putU16, getU16_putU16, getU64_putU64]

/-- The answer is a status with the code `kCorruption`. -/
def Corrupted (answer : StatusOr UInt64) : Prop := ∃ text, answer = .error (.status .kCorruption text)

namespace CheckpointStore

theorem loadFile_short {file : Bytes} (h : file.length < blobSize) : Corrupted (loadFile file) := by
  have hread : IStream.read ⟨file, false⟩ blobSize = (file, ⟨[], true⟩) := by simp [IStream.read, h]
  refine ⟨"checkpoint truncated", ?_⟩
  simp only [loadFile, hread, if_true, corrupt]

theorem loadFile_whole {file : Bytes} (h : file.length = blobSize) :
    loadFile file =
      if (getBlob file).magic ≠ kCheckpointMagic ∨ (getBlob file).version ≠ kCheckpointVersion then
        corrupt "checkpoint version mismatch"
      else if (getBlob file).crc64 ≠ computeCrc (getBlob file) then corrupt "checkpoint crc mismatch"
      else .ok (getBlob file).offset := by
  have hread : IStream.read ⟨file, false⟩ blobSize = (file, ⟨[], false⟩) := by
    have := IStream.read_append file [] blobSize h
    rwa [List.append_nil] at this
  simp only [loadFile, hread, Bool.false_eq_true, if_false]

/-- A file whose last eight bytes are not the checksum of the rest. -/
theorem loadFile_mismatch {head tail : Bytes} (hhead : head.length = 16) (htail : tail.length = 8)
    (hne : getU64 tail ≠ Crc64.compute head) : Corrupted (loadFile (head ++ tail)) := by
  have hlen : (head ++ tail).length = blobSize := by rw [List.length_append, hhead, htail]; rfl
  rw [loadFile_whole hlen, computeCrc, crc_getBlob hhead htail, head_getBlob hhead]
  split
  · exact ⟨_, rfl⟩
  · exact ⟨_, rfl⟩

theorem loadFile_saved (offset : UInt64) : loadFile (savedBlob offset).bytes = .ok offset := by
  have hcrc : (savedBlob offset).crc64 = computeCrc (savedBlob offset) := rfl
  have hversion : ¬ ((savedBlob offset).magic ≠ kCheckpointMagic ∨ (savedBlob offset).version ≠ kCheckpointVersion) :=
    not_or.2 ⟨not_not.2 rfl, not_not.2 rfl⟩
  rw [loadFile_whole (CheckpointBlob.bytes_length _), getBlob_bytes, if_neg hversion, if_neg (not_not.2 hcrc)]
  rfl

theorem loadFile_cut (offset : UInt64) {n : Nat} (hn : n < blobSize) : Corrupted (loadFile ((savedBlob offset).bytes.take n)) := by
  apply loadFile_short
  rw [List.length_take]
  omega

theorem loadFile_altered (offset : UInt64) {i : Nat} {b : UInt8} (hi : i < blobSize)
    (hne : (savedBlob offset).bytes[i]? ≠ some b) : Corrupted (loadFile ((savedBlob offset).bytes.set i b)) := by
  have hhead := (savedBlob offset).head_length
  have htail : (putU64 (savedBlob offset).crc64).length = 8 := putU64_length _
  rw [CheckpointBlob.bytes] at hne ⊢
  by_cases hin : i < 16
  · -- The checksum is the old one, and not that of the other bytes.
    rw [List.getElem?_append_left (by omega)] at hne
    rw [List.set_append_left _ _ (by omega)]
    apply loadFile_mismatch (by rw [List.length_set, hhead]) htail
    rw [getU64_putU64]
    exact (compute_set_ne (by omega) hne).symm
  · -- The other bytes are the old ones, and the checksum is not.
    rw [List.getElem?_append_right (by omega), hhead] at hne
    rw [List.set_append_right _ _ (by omega), hhead]
    have htail' : ((putU64 (savedBlob offset).crc64).set (i - 16) b).length = 8 := by rw [List.length_set, htail]
    refine loadFile_mismatch hhead htail' fun heq => hne ?_
    have hsame := congrArg putU64 heq
    rw [putU64_getU64 htail'] at hsame
    have hcrc : Crc64.compute (savedBlob offset).head = (savedBlob offset).crc64 := rfl
    rw [hcrc] at hsame
    rw [← hsame, List.getElem?_set_self (by rw [htail]; unfold blobSize at hi; omega)]

/-- What `Save` wrote, `Load` returns. If one byte of the file is another or its end is
missing, `Load` says that it is corrupted. -/
theorem checkpoint_integrity (store : CheckpointStore) (io : Io) (sizes : List Nat) (early : Bool) (offset : UInt64) (fs fs' : Fs)
    (hsave : save io sizes early store offset fs = (.ok (), fs')) :
    load store true fs' = .ok offset ∧
    ∃ file, fs'.disk store.path = some file ∧ file.length = 24 ∧
      (∀ i b fs'', i < 24 → file[i]? ≠ some b → fs''.disk store.path = some (file.set i b) → Corrupted (load store true fs'')) ∧
      (∀ n fs'', n < 24 → fs''.disk store.path = some (file.take n) → Corrupted (load store true fs'')) := by
  have hfile : fs'.disk store.path = some (savedBlob offset).bytes := durableWriteFile_ok hsave
  have hload : ∀ (fs : Fs) (file : Bytes), fs.disk store.path = some file → load store true fs = loadFile file := by
    intro fs file h
    simp only [load, h, if_true]
  refine ⟨?_, _, hfile, CheckpointBlob.bytes_length _, ?_, ?_⟩
  · rw [hload _ _ hfile, loadFile_saved]
  · intro i b fs'' hi hne h
    rw [hload _ _ h]
    exact loadFile_altered offset hi hne
  · intro n fs'' hn h
    rw [hload _ _ h]
    exact loadFile_cut offset hn

/-- A store in an empty directory, and the files after offset 123 was saved to it. -/
def someStore : CheckpointStore := ⟨ascii "./g.checkpoint", .kAlways⟩

def savedFs : Fs := (save {} [] false someStore 123 ⟨fun _ => none, []⟩).2

theorem checkpoint_integrity_some : save {} [] false someStore 123 ⟨fun _ => none, []⟩ = (.ok (), savedFs) ∧
    load someStore true savedFs = .ok 123 :=
  ⟨rfl, (checkpoint_integrity someStore {} [] false 123 ⟨fun _ => none, []⟩ savedFs rfl).1⟩

end CheckpointStore

end PomaiQueue.Storage
