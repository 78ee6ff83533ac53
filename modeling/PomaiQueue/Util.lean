import PomaiQueue.Lib.Wire
/-!
# Statuses, policies and the CRC

`src/core/util`: `Status` and `StatusOr`, the fsync policy, the failpoints the
engine consults and the table-driven CRC-64.
-/

namespace PomaiQueue

open Wire

inductive StatusCode
  | kNotFound
  | kAlreadyExists
  | kInvalidArgument
  | kIOError
  | kCorruption
  | kUnavailable
  deriving DecidableEq

/-- Why a call did not return a value: a status other than Ok, or what was thrown,
`std::length_error` by `std::string::resize` or `std::filesystem::filesystem_error`
by `create_directories`. -/
inductive Failure
  | status (code : StatusCode) (message : String)
  | length_error
  | filesystem_error
  deriving DecidableEq

abbrev StatusOr (α : Type) := Except Failure α

inductive FsyncPolicy
  | kAlways
  | kInterval
  | kNever
  deriving DecidableEq

/-- The names `FailpointActive` is asked about. -/
inductive Failpoint
  | fsync_file
  | fsync_dir
  | before_checkpoint_rename
  | before_log_append
  | after_log_append
  | before_timeout_transition
  | before_lease_issue
  | before_ack_transition
  | before_dlq_move
  deriving DecidableEq

namespace Crc64

def kPoly : UInt64 := 0x42F0E1EBA9EA3693

/-- One round of the loop in `TableEntry`. -/
def shiftStep (crc : UInt64) : UInt64 :=
  if crc &&& 0x8000000000000000 ≠ 0 then (crc <<< 1) ^^^ kPoly else crc <<< 1

def tableEntry (idx : UInt64) : UInt64 := shiftStep^[8] (idx <<< 56)

/-- One byte of the loop in `Compute`. -/
def byteStep (crc : UInt64) (byte : UInt8) : UInt64 :=
  let idx := ((crc >>> 56) ^^^ byte.toUInt64).toUInt8
  tableEntry idx.toUInt64 ^^^ (crc <<< 8)

def compute (data : Bytes) : UInt64 := data.foldl byteStep 0

end Crc64

end PomaiQueue
