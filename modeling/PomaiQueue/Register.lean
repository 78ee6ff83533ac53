import PomaiQueue.Replacement
import PomaiQueue.Checkpoint
/-!
# A checkpoint is a register that survives crashes

`CheckpointStore` over whole runs: offsets are saved one after the other, any call of a `Save`
may fail, the process may be killed in the middle of one, and the power may be lost at any
time. `checkpoint_register`: `Load` is never told of a corruption, and what it returns
is the last offset whose `Save` returned Ok, or that of a later `Save` which did not.

As for every replacement, a policy of `kNever` is left out.
-/

namespace PomaiQueue.Storage

open Wire Posix

namespace CheckpointStore

/-- A call of `Save`, and what the system does during it. -/
structure Saving where
  io : Io := {}
  sizes : List Nat := []
  early : Bool := false
  offset : UInt64

def Saving.run (store : CheckpointStore) (w : Saving) (fs : Fs) : StatusOr Unit × Fs :=
  save w.io w.sizes w.early store w.offset fs

/-- From `start` on, the offsets that were to be saved, with the calls that returned Ok. -/
inductive Saves (store : CheckpointStore) (start : Fs) : List (UInt64 × Bool) → Fs → Prop
  | start : Saves store start [] start
  | returned {xs fs} (h : Saves store start xs fs) (w : Saving) :
      Saves store start (xs ++ [(w.offset, (w.run store fs).1.isOk)]) (w.run store fs).2
  | killed {xs fs} (h : Saves store start xs fs) (w : Saving) (calls : List Call) (hcalls : (w.run store fs).2 = fs.after calls)
      (k : Nat) : Saves store start (xs ++ [(w.offset, false)]) (fs.after (calls.take k))
  | elsewhere {xs fs} (h : Saves store start xs fs) (calls : List Call) (hspares : ∀ c ∈ calls, c.Spares store.path) :
      Saves store start xs (fs.after calls)
  | powerLoss {xs fs} (h : Saves store start xs fs) (d : Disk) (hd : (fs.media parentPath).Wrecked d) :
      Saves store start xs ⟨d, []⟩

/-- What the register can hold after another call. -/
def written (values : List UInt64) (x : UInt64 × Bool) : List UInt64 := if x.2 then [x.1] else values ++ [x.1]

/-- What the register can hold: the last offset that was saved, and those that were tried since. -/
def candidates (value : UInt64) (xs : List (UInt64 × Bool)) : List UInt64 := xs.foldl written [value]

theorem candidates_concat (value : UInt64) (xs : List (UInt64 × Bool)) (x : UInt64 × Bool) :
    candidates value (xs ++ [x]) = written (candidates value xs) x := by
  rw [candidates, List.foldl_append]
  rfl

/-- The file, if there is one, is read as one of the offsets. -/
def Reads (store : CheckpointStore) (values : List UInt64) (c : Option Bytes) : Prop :=
  ∃ v ∈ values, load store true ⟨fun _ => c, []⟩ = .ok v

theorem load_congr (store : CheckpointStore) {fs fs' : Fs} (h : fs.disk store.path = fs'.disk store.path) :
    load store true fs = load store true fs' := by rw [load, load, h]

theorem reads_saved (store : CheckpointStore) {values : List UInt64} {v : UInt64} (h : v ∈ values) :
    Reads store values (some (savedBlob v).bytes) := ⟨v, h, loadFile_saved v⟩

/-- A save is a replacement of the file. -/
def Saving.replacement (w : Saving) {policy : FsyncPolicy} (hpolicy : policy ≠ .kNever) : Replacement where
  io := w.io
  sizes := w.sizes
  early := w.early
  writer := ⟨(savedBlob w.offset).bytes, fun failed => if failed then ioError "write checkpoint failed" else .ok ()⟩
  policy := policy
  syncs := hpolicy

theorem Saving.run_eq (store : CheckpointStore) (hpolicy : store.fsync_policy ≠ .kNever) (w : Saving) (fs : Fs) :
    w.run store fs = (w.replacement hpolicy).run store.path fs := by
  rw [Saving.run, save, durableWriteFile_eq_by, Replacement.run]
  cases hearly : w.early with
  | true => simp [Saving.replacement, hearly]
  | false =>
    -- The writer never learns of the failure.
    simp [Saving.replacement, hearly, durableWriteFileBy]

/-! ## Runs -/

/-- However far a save gets, the file is read as before or as the new offset. -/
theorem Saving.steady {store : CheckpointStore} (hpolicy : store.fsync_policy ≠ .kNever) {values : List UInt64} {fs : Fs}
    (h : (fs.media parentPath).Steady (Reads store values) store.path) (w : Saving) {calls : List Call}
    (hcalls : (w.run store fs).2 = fs.after calls) (k : Nat) :
    ((fs.after (calls.take k)).media parentPath).Steady (Reads store (values ++ [w.offset])) store.path := by
  rw [w.run_eq store hpolicy] at hcalls
  refine Replacement.steady (h.mono fun c hc => ?_) (reads_saved store (by simp)) hcalls k
  obtain ⟨v, hv, hload⟩ := hc
  exact ⟨v, List.mem_append_left _ hv, hload⟩

/-- A save that returns. -/
theorem Saving.steady_returned {store : CheckpointStore} (hpolicy : store.fsync_policy ≠ .kNever) {values : List UInt64} {fs : Fs}
    (h : (fs.media parentPath).Steady (Reads store values) store.path) (w : Saving) :
    ((w.run store fs).2.media parentPath).Steady (Reads store (written values (w.offset, (w.run store fs).1.isOk))) store.path := by
  cases hret : (w.run store fs).1 with
  | ok u =>
    have hok : ((w.replacement hpolicy).run store.path fs).1 = .ok () := by rw [← w.run_eq store hpolicy, hret]
    rw [w.run_eq store hpolicy]
    refine (Replacement.steady_ok hok).mono ?_
    rintro c rfl
    exact reads_saved store List.mem_cons_self
  | error err =>
    have hrun := w.run_eq store hpolicy fs
    obtain ⟨calls, hcalls, -⟩ := durableWriteFileBy_cases w.io w.sizes w.early (w.replacement hpolicy).writer store.path
      store.fsync_policy fs
    have hcalls' : (w.run store fs).2 = fs.after calls := by rw [hrun]; exact hcalls
    have hsteady := w.steady hpolicy h hcalls' calls.length
    rw [List.take_length, ← hcalls'] at hsteady
    exact hsteady

theorem Saves.steady {store : CheckpointStore} (hpolicy : store.fsync_policy ≠ .kNever) {start fs : Fs} {xs : List (UInt64 × Bool)}
    {value : UInt64} (h : Saves store start xs fs) (hstart : (start.media parentPath).Steady (Reads store [value]) store.path) :
    (fs.media parentPath).Steady (Reads store (candidates value xs)) store.path := by
  induction h with
  | start => exact hstart
  | returned _ w ih =>
    rw [candidates_concat]
    exact w.steady_returned hpolicy ih
  | killed _ w calls hcalls k ih =>
    rw [candidates_concat]
    exact w.steady hpolicy ih hcalls k
  | elsewhere _ calls hspares ih =>
    rw [Fs.media_after]
    exact ih.run (Fs.media_ok _ _) hspares
  | powerLoss _ d hd ih =>
    have hfound := ih.wrecked hd
    exact (Media.steady_ofDisk d store.path).mono fun c hc => hc ▸ hfound

/-- In every run, `Load` returns the last offset that was saved or one that a later `Save` was to
save, also after another power loss, and from a missing file the offset of the start. -/
theorem checkpoint_register (store : CheckpointStore) (hpolicy : store.fsync_policy ≠ .kNever) (base : Disk) (value : UInt64)
    (hbase : load store true ⟨base, []⟩ = .ok value) (xs : List (UInt64 × Bool)) (fs : Fs) (h : Saves store ⟨base, []⟩ xs fs) :
    (∃ v ∈ candidates value xs, load store true fs = .ok v) ∧
      ∀ d, (fs.media parentPath).Wrecked d → ∃ v ∈ candidates value xs, load store true ⟨d, []⟩ = .ok v := by
  have hstart : (Fs.media parentPath ⟨base, []⟩).Steady (Reads store [value]) store.path := by
    refine (Media.steady_ofDisk base store.path).mono ?_
    rintro c rfl
    exact ⟨value, List.mem_cons_self, (load_congr store rfl).trans hbase⟩
  have hsteady := h.steady hpolicy hstart
  refine ⟨?_, fun d hd => ?_⟩
  · obtain ⟨v, hv, hload⟩ := hsteady.disk (Fs.media_ok _ _)
    rw [Fs.disk_media] at hload
    exact ⟨v, hv, (load_congr store rfl).trans hload⟩
  · obtain ⟨v, hv, hload⟩ := hsteady.wrecked hd
    exact ⟨v, hv, (load_congr store rfl).trans hload⟩

/-- 5 is saved, and the process is killed when it has renamed the file for 7. -/
def killedSave : Fs :=
  (Saving.run someStore { offset := 5 } ⟨fun _ => none, []⟩).2.after
    ((durableCalls [] someStore.path (savedBlob 7).bytes .kAlways).take 4)

theorem saves_killedSave : Saves someStore ⟨fun _ => none, []⟩ [(5, true), (7, false)] killedSave := by
  have hfirst : Saves someStore ⟨fun _ => none, []⟩ [(5, true)] (Saving.run someStore { offset := 5 } ⟨fun _ => none, []⟩).2 :=
    Saves.start.returned { offset := 5 }
  exact hfirst.killed { offset := 7 } (durableCalls [] someStore.path (savedBlob 7).bytes .kAlways) rfl 4

theorem checkpoint_register_killed : (∃ v ∈ [5, 7], load someStore true killedSave = .ok v) ∧
    ∀ d, (killedSave.media parentPath).Wrecked d → ∃ v ∈ [5, 7], load someStore true ⟨d, []⟩ = .ok v :=
  checkpoint_register someStore (by decide) (fun _ => none) 0 rfl _ killedSave saves_killedSave

end CheckpointStore

end PomaiQueue.Storage
