import Mathlib.Data.List.AList
import Mathlib.Data.List.Sort
import PomaiQueue.Record
/-!
# The segment log

`src/core/storage/segment_log.cc`: `Open`, `Recover`, `Append`, `Read`,
`Offsets` and `SizeBytes` of one log on one file. The descriptor is the
position the kernel keeps for it, so `Append` writes where the last write
ended and `Recover`, which only uses `pread`, does not move it.

Trusted: `pread` and `ftruncate` do not fail. What a `write` accepts, whether an
`fsync` fails and whether a file can be opened is up to `Io`.
-/

namespace PomaiQueue.Storage

open Wire Posix

/-- Why a file that is there is not read: it cannot be opened, or the reads fail, as
those of a directory do. -/
inductive Unreadable
  | closed
  | failing
  deriving DecidableEq

/-- What the system does during one operation. -/
structure Io where
  /-- The padding bytes a record is encoded with. -/
  pad : Padding := {}
  /-- How many bytes each `write` to the segment accepts, in order, `0` for an
  error; past the end of the list a write accepts everything. -/
  writes : List Nat := []
  /-- The calls that fail, with the number of bytes a failing write leaves. No operation
  makes a call twice. -/
  fault : Call → Option Nat := fun _ => none
  /-- The opens for an append that fail, by what was to be appended: the file is opened
  once for every event, and no two events of an operation are the same. -/
  refused : Bytes → Bool := fun _ => false
  /-- The files that are not read. -/
  unreadable : Path → Option Unreadable := fun _ => none
  /-- The configured failpoint. -/
  failpoint : Option Failpoint := none

/-- Every file that is there is read. -/
def Io.Reads (io : Io) : Prop := ∀ p, io.unreadable p = none

abbrev Index := AList (fun _ : UInt64 => Nat)

structure SegmentLog where
  path : Path
  fsync_policy : FsyncPolicy
  /-- The file position of the open descriptor. -/
  fd : Option Nat := none
  next_offset : UInt64 := 0
  offset_to_position : Index := ∅

def ioError {α : Type} (message : String) : StatusOr α := .error (.status .kIOError message)

/-- A fault of an open at `0` is that of the open, any other that the directories in front
of the file cannot be made. A path without a directory part always has such a fault. -/
def openError {α : Type} (n : Nat) (message : String) : StatusOr α :=
  if n = 0 then ioError message else .error .filesystem_error

theorem openError_error {α : Type} (n : Nat) (message : String) : ∃ e, (openError n message : StatusOr α) = .error e := by
  unfold openError
  split
  · exact ⟨_, rfl⟩
  · exact ⟨_, rfl⟩

def fsyncFile (io : Io) (path : Path) (fs : Fs) : StatusOr Unit × Fs :=
  if io.failpoint = some .fsync_file then (ioError "failpoint fsync_file", fs)
  else if (io.fault (.fsync path)).isSome then (ioError "fsync failed", fs)
  else (.ok (), fs.call (.fsync path))

namespace SegmentLog

/-! ## Open and Recover -/

def «open» (io : Io) (log : SegmentLog) (fs : Fs) : StatusOr Unit × SegmentLog × Fs :=
  match io.fault (.creat log.path) with
  | some n => (openError n "open segment failed", log, fs)
  | none => (.ok (), { log with fd := some 0 }, fs.call (.creat log.path))

/-- The scan: the index, the next offset, and where to cut the file. Every
round moves `position` forward, so `file.length + 1` rounds reach the end. -/
def recoverLoop (file : Bytes) : Nat → Nat → Index → UInt64 → Index × UInt64 × Option Nat
  | 0, _, index, next => (index, next, none)
  | fuel + 1, position, index, next =>
    let bytes := pread file headerSize position
    if bytes.length = 0 then (index, next, none)
    else if bytes.length < headerSize then (index, next, some position)
    else if magicOf bytes ≠ kRecordMagic ∨ versionOf bytes ≠ kRecordVersion then (index, next, some position)
    else
      let header := getHeader bytes
      match recordSize file position header with
      | none => (index, next, some position)
      | some record_size =>
        let buffer := pread file record_size position
        if buffer.length < record_size then (index, next, some position)
        else
          match decodeRecord buffer with
          | .error _ => (index, next, some position)
          | .ok _ =>
            recoverLoop file fuel (position + record_size) (index.insert header.offset position) (header.offset + 1)

def recover (log : SegmentLog) (fs : Fs) : StatusOr Unit × SegmentLog × Fs :=
  match log.fd with
  | none => (.error (.status .kInvalidArgument "segment not open"), log, fs)
  | some _ =>
    let file := fs.content log.path
    match recoverLoop file (file.length + 1) 0 ∅ 0 with
    | (index, next, cut) =>
      (.ok (), { log with next_offset := next, offset_to_position := index },
        match cut with
        | none => fs
        | some position => fs.call (.ftruncate log.path position))

/-- A new log on `path`, opened and recovered, as `CreateQueue` does it. -/
def reopen (io : Io) (path : Path) (policy : FsyncPolicy) (fs : Fs) : StatusOr Unit × SegmentLog × Fs :=
  match «open» io { path, fsync_policy := policy } fs with
  | (.error e, log, fs) => (.error e, log, fs)
  | (.ok _, log, fs) => recover log fs

theorem reopen_refused {io : Io} {path : Path} {n : Nat} (h : io.fault (.creat path) = some n) (policy : FsyncPolicy) (fs : Fs) :
    reopen io path policy fs = (openError n "open segment failed", { path, fsync_policy := policy }, fs) := by
  unfold reopen SegmentLog.open openError
  simp only [h]
  by_cases hn : n = 0
  · simp only [if_pos hn, ioError]
  · simp only [if_neg hn]

theorem reopen_opened {io : Io} {path : Path} (h : io.fault (.creat path) = none) (policy : FsyncPolicy) (fs : Fs) :
    reopen io path policy fs = recover { path, fsync_policy := policy, fd := some 0 } (fs.call (.creat path)) := by
  unfold reopen SegmentLog.open
  simp only [h]

/-- The file is not opened, whatever is in it, or opened and recovered. -/
theorem reopen_cases (io : Io) (path : Path) (policy : FsyncPolicy) :
    (∃ e, ∀ fs, reopen io path policy fs = (.error e, { path, fsync_policy := policy }, fs)) ∨
      ∀ fs, reopen io path policy fs = recover { path, fsync_policy := policy, fd := some 0 } (fs.call (.creat path)) := by
  cases h : io.fault (.creat path) with
  | some n =>
    obtain ⟨e, he⟩ := openError_error (α := Unit) n "open segment failed"
    exact .inl ⟨e, fun fs => by rw [reopen_refused h, he]⟩
  | none => exact .inr fun fs => reopen_opened h policy fs

/-! ## Append -/

/-- The `write` loop from position `pos`: whether all of `data` was taken, the
position after it, and the calls made. No write passes `maxOff`. -/
def writeAll (path : Path) : List Nat → Nat → Bytes → Fs → Bool × Nat × Fs
  | [], pos, data, fs =>
    let n := min data.length (maxOff - pos)
    if n = 0 then (data.isEmpty, pos, fs)
    else (n == data.length, pos + n, fs.call (.write path pos (data.take n)))
  | w :: ws, pos, data, fs =>
    let n := min (min w data.length) (maxOff - pos)
    if n = 0 then (data.isEmpty, pos, fs)
    else writeAll path ws (pos + n) (data.drop n) (fs.call (.write path pos (data.take n)))

def append (io : Io) (record : Record) (log : SegmentLog) (fs : Fs) : StatusOr UInt64 × SegmentLog × Fs :=
  match log.fd with
  | none => (.error (.status .kInvalidArgument "segment not open"), log, fs)
  | some pos =>
    let mutable_record := { record with header := { record.header with offset := log.next_offset } }
    match encodeRecord io.pad mutable_record with
    | .error e => (.error e, log, fs)
    | .ok bytes =>
      match writeAll log.path io.writes pos bytes fs with
      | (false, pos, fs) => (ioError "write failed", { log with fd := some pos }, fs)
      | (true, pos, fs) =>
        match (if log.fsync_policy = .kAlways then fsyncFile io log.path fs else (.ok (), fs)) with
        | (.error e, fs) => (.error e, { log with fd := some pos }, fs)
        | (.ok _, fs) =>
          (.ok log.next_offset,
            { log with
              fd := some pos
              next_offset := log.next_offset + 1
              offset_to_position := log.offset_to_position.insert log.next_offset (pos - bytes.length) },
            fs)

/-! ## Reading -/

def readAt (file : Bytes) (position size : Nat) : StatusOr Bytes :=
  let buffer := pread file size position
  if buffer.length < size then ioError "pread failed" else .ok buffer

def read (log : SegmentLog) (fs : Fs) (offset : UInt64) : StatusOr Record :=
  match log.offset_to_position.lookup offset with
  | none => .error (.status .kNotFound "offset not found")
  | some position =>
    match log.fd with
    | none => ioError "read header failed"
    | some _ =>
      let file := fs.content log.path
      let bytes := pread file headerSize position
      if bytes.length < headerSize then ioError "read header failed"
      else
        match recordSize file position (getHeader bytes) with
        | none => ioError "read header kv failed"
        | some record_size =>
          match readAt file position record_size with
          | .error e => .error e
          | .ok buffer => decodeRecord buffer

/-- The keys of the `std::map`, in order. -/
def offsets (log : SegmentLog) : List UInt64 := log.offset_to_position.keys.insertionSort (· ≤ ·)

def sizeBytes (log : SegmentLog) (fs : Fs) : Nat :=
  match log.fd with
  | none => 0
  | some _ => (fs.content log.path).length

/-- Successive appends, with the result of each. -/
def appendAll : List (Io × Record) → SegmentLog → Fs → List (StatusOr UInt64) × SegmentLog × Fs
  | [], log, fs => ([], log, fs)
  | (io, r) :: rest, log, fs =>
    match append io r log fs with
    | (result, log, fs) =>
      match appendAll rest log fs with
      | (results, log, fs) => (result :: results, log, fs)

end SegmentLog

end PomaiQueue.Storage
