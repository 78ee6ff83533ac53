import Mathlib.Logic.Function.Basic
import PomaiQueue.Lib.Wire
/-!
# Files

The part of a POSIX file system a storage engine relies on. A `Disk` is what a
process reads at each path, a `Call` is one system call that changes it, and
an `Fs` is a disk together with the calls made since. Keeping the calls is what
lets a process be killed between any two of them (`Fs.cut`).

Trusted: `exec` is what the calls do. `pread` is short only at the end of the
file and does not move the file position. Directories are not modelled, a
file's parent is taken to exist, and every path is a file of its own: where
other files are spoken of, their paths have to be `Away`.
-/

namespace Posix

open Wire

abbrev Path := Bytes

/-- The contents found at each path, `none` where there is no file. -/
abbrev Disk := Path → Option Bytes

/-- The largest file offset an `off_t` holds. -/
def maxOff : Nat := 2 ^ 63 - 1

/-- `data` written at position `pos`; a hole before it reads as zeros. -/
def overwrite (file : Bytes) (pos : Nat) (data : Bytes) : Bytes :=
  (file ++ List.replicate (pos - file.length) 0).take pos ++ data ++ file.drop (pos + data.length)

/-- `pread(fd, _, n, pos)`. -/
def pread (file : Bytes) (n pos : Nat) : Bytes := field file pos n

inductive Call
  /-- Open for writing, creating the file if it is missing. -/
  | creat (p : Path)
  /-- Open for writing with `O_TRUNC`. -/
  | trunc (p : Path)
  | write (p : Path) (pos : Nat) (data : Bytes)
  /-- Write on a descriptor opened with `O_APPEND`. -/
  | append (p : Path) (data : Bytes)
  | ftruncate (p : Path) (len : Nat)
  | fsync (p : Path)
  | rename (src dst : Path)
  | fsyncDir (dir : Path)
  deriving DecidableEq

def exec (d : Disk) : Call → Disk
  | .creat p => Function.update d p (some ((d p).getD []))
  | .trunc p => Function.update d p (some [])
  | .write p pos data => Function.update d p (some (overwrite ((d p).getD []) pos data))
  | .append p data => Function.update d p (some ((d p).getD [] ++ data))
  | .ftruncate p len => Function.update d p ((d p).map (·.take len))
  | .rename src dst => Function.update (Function.update d dst (d src)) src none
  | .fsync _ => d
  | .fsyncDir _ => d

/-- The call changes nothing that is read at `p`. -/
def Call.Spares (p : Path) : Call → Prop
  | .creat p' | .trunc p' | .write p' _ _ | .append p' _ | .ftruncate p' _ => p ≠ p'
  | .rename src dst => p ≠ src ∧ p ≠ dst
  | .fsync _ | .fsyncDir _ => True

theorem exec_spares {p : Path} {c : Call} (h : c.Spares p) (d : Disk) : exec d c p = d p := by
  cases c with
  | creat p' | trunc p' | write p' pos data | append p' data | ftruncate p' len => exact Function.update_of_ne h _ _
  | rename src dst => rw [exec, Function.update_of_ne h.1, Function.update_of_ne h.2]
  | fsync p' | fsyncDir dir => rfl

theorem foldl_spares {p : Path} {calls : List Call} (h : ∀ c ∈ calls, c.Spares p) (d : Disk) :
    calls.foldl exec d p = d p := by
  induction calls generalizing d with
  | nil => rfl
  | cons c calls ih =>
    rw [List.foldl_cons, ih (fun c' hc' => h c' (List.mem_cons_of_mem _ hc')), exec_spares (h c List.mem_cons_self)]

/-- A disk and the calls made on it. -/
structure Fs where
  base : Disk
  calls : List Call := []

namespace Fs

def disk (fs : Fs) : Disk := fs.calls.foldl exec fs.base

def call (fs : Fs) (c : Call) : Fs := { fs with calls := fs.calls ++ [c] }

/-- The bytes of the file at `p`, none if it is missing. -/
def content (fs : Fs) (p : Path) : Bytes := (fs.disk p).getD []

/-- Only the first `n` calls happened. -/
def cut (fs : Fs) (n : Nat) : Fs := { fs with calls := fs.calls.take n }

/-- The file system after more calls. -/
def after (fs : Fs) (calls : List Call) : Fs := { fs with calls := fs.calls ++ calls }

@[simp] theorem after_nil (fs : Fs) : fs.after [] = fs := by simp [after]

@[simp] theorem after_after (fs : Fs) (a b : List Call) : (fs.after a).after b = fs.after (a ++ b) := by
  simp [after]

theorem after_injective (fs : Fs) : Function.Injective fs.after := by
  intro a b h
  have hcalls : fs.calls ++ a = fs.calls ++ b := congrArg Fs.calls h
  exact List.append_cancel_left hcalls

theorem disk_after (fs : Fs) (calls : List Call) : (fs.after calls).disk = calls.foldl exec fs.disk := by
  simp [after, disk]

@[simp] theorem disk_call (fs : Fs) (c : Call) : (fs.call c).disk = exec fs.disk c := by
  simp [disk, call]

end Fs

/-! ## Reading around a write -/

theorem overwrite_end (file data : Bytes) : overwrite file file.length data = file ++ data := by
  simp [overwrite]

theorem overwrite_length (file : Bytes) (pos : Nat) (data : Bytes) :
    (overwrite file pos data).length = max file.length (pos + data.length) := by
  simp only [overwrite, List.length_append, List.length_take, List.length_drop, List.length_replicate]
  omega

/-- Writing a string in two pieces is writing it at once. -/
theorem overwrite_overwrite (file : Bytes) (pos : Nat) (a b : Bytes) :
    overwrite (overwrite file pos a) (pos + a.length) b = overwrite file pos (a ++ b) := by
  have hp : ((file ++ List.replicate (pos - file.length) 0).take pos).length = pos := by
    simp only [List.length_take, List.length_append, List.length_replicate]; omega
  have hl : pos + a.length ≤ (overwrite file pos a).length := by rw [overwrite_length]; omega
  have htake : (overwrite file pos a).take (pos + a.length) =
      (file ++ List.replicate (pos - file.length) 0).take pos ++ a := by
    unfold overwrite
    rw [List.take_append_of_le_length (by simp only [List.length_append, hp]; omega)]
    exact List.take_of_length_le (by simp only [List.length_append, hp]; omega)
  have hdrop : (overwrite file pos a).drop (pos + a.length + b.length) =
      file.drop (pos + (a ++ b).length) := by
    unfold overwrite
    rw [List.drop_append, List.drop_of_length_le (by simp only [List.length_append, hp]; omega),
      List.nil_append, List.drop_drop]
    congr 1
    simp only [List.length_append, hp]; omega
  generalize overwrite file pos a = written at hl htake hdrop
  rw [overwrite, Nat.sub_eq_zero_of_le hl, List.replicate_zero, List.append_nil, htake, hdrop, overwrite]
  simp only [List.append_assoc]

/-! ## Writing a file in pieces -/

/-- The system calls that write `chunks` one after the other. -/
def writeCalls (path : Path) : Nat → List Bytes → List Call
  | _, [] => []
  | pos, c :: cs => .write path pos c :: writeCalls path (pos + c.length) cs

theorem writeCalls_spares {p path : Path} (h : p ≠ path) (pos : Nat) (chunks : List Bytes) :
    ∀ c ∈ writeCalls path pos chunks, c.Spares p := by
  induction chunks generalizing pos with
  | nil => simp [writeCalls]
  | cons b chunks ih =>
    intro c hc
    rcases List.mem_cons.1 hc with rfl | hc
    · exact h
    · exact ih _ c hc

/-- What the writes leave in the file. -/
theorem foldl_writeCalls (path : Path) (pos : Nat) (chunks : List Bytes) (d : Disk) (c : Bytes)
    (hc : d path = some c) (hpos : pos ≤ c.length) :
    (writeCalls path pos chunks).foldl exec d = Function.update d path (some (overwrite c pos chunks.flatten)) := by
  induction chunks generalizing pos d c with
  | nil =>
    have : overwrite c pos [] = c := by simp [overwrite, Nat.sub_eq_zero_of_le hpos]
    simp only [writeCalls, List.foldl_nil, List.flatten_nil, this, ← hc, Function.update_eq_self]
  | cons b chunks ih =>
    simp only [writeCalls, List.foldl_cons, exec, hc, Option.getD_some]
    rw [ih (pos + b.length) _ (overwrite c pos b) (Function.update_self _ _ _) (by rw [overwrite_length]; omega),
      Function.update_idem, overwrite_overwrite, List.flatten_cons]

end Posix
