import PomaiQueue.SegmentLog
/-!
# Replacing a file

`src/core/durable_io.cc` and `FsyncDir`: the new content goes to a temporary
file next to the old one, which is then renamed over it. The content is written
in the pieces in which the stream buffer is emptied.
-/

namespace PomaiQueue.Storage

open Wire Posix

/-- `data` cut into pieces of the given sizes, the rest in one piece. -/
def pieces : List Nat → Bytes → List Bytes
  | [], data => [data]
  | n :: ns, data => data.take n :: pieces ns (data.drop n)

@[simp] theorem pieces_flatten (ns : List Nat) (data : Bytes) : (pieces ns data).flatten = data := by
  induction ns generalizing data with
  | nil => simp [pieces]
  | cons n ns ih => simp [pieces, ih]

/-- The bytes of a string literal. -/
def ascii (s : String) : Bytes := s.toList.map fun c => UInt8.ofNat c.toNat

def tmpPath (final_path : Path) : Path := final_path ++ ascii ".tmp"

theorem tmpPath_ne (p : Path) : p ≠ tmpPath p := by
  intro h
  have := congrArg List.length h
  simp [tmpPath, ascii] at this

def parentPath (p : Path) : Path :=
  let dir := ((p.reverse.dropWhile (· ≠ 47)).drop 1).reverse
  if dir = [] ∧ p.head? = some 47 then ascii "/" else dir

/-- A fault at `0` is that the directory cannot be opened. -/
def fsyncDir (io : Io) (dir : Path) (fs : Fs) : StatusOr Unit × Fs :=
  if io.failpoint = some .fsync_dir then (ioError "failpoint fsync_dir", fs)
  else
    match io.fault (.fsyncDir dir) with
    | some 0 => (ioError "open dir failed", fs)
    | some _ => (ioError "fsync dir failed", fs)
    | none => (.ok (), fs.call (.fsyncDir dir))

/-- A fault of the fsync at `0` is that the file cannot be opened for it. -/
def durableRename (io : Io) (tmp_path final_path : Path) (policy : FsyncPolicy) (fs : Fs) : StatusOr Unit × Fs :=
  match (if policy ≠ .kNever then
      if io.fault (.fsync tmp_path) = some 0 then (ioError "open tmp for fsync failed", fs)
      else fsyncFile io tmp_path fs
    else (.ok (), fs)) with
  | (.error e, fs) => (.error e, fs)
  | (.ok _, fs) =>
    if (io.fault (.rename tmp_path final_path)).isSome then (ioError "rename failed", fs)
    else
      let fs := fs.call (.rename tmp_path final_path)
      if policy ≠ .kNever then fsyncDir io (parentPath final_path) fs else (.ok (), fs)

/-- `sizes` are the sizes of the writes, and `noticed` is the text of the
writer's status when it is the writer that notices a failing write and not the
last flush. -/
def durableWriteFile (io : Io) (sizes : List Nat) (noticed : Option String) (final_path : Path) (data : Bytes)
    (policy : FsyncPolicy) (fs : Fs) : StatusOr Unit × Fs :=
  let tmp_path := tmpPath final_path
  match io.fault (.trunc tmp_path) with
  | some n => (openError n "open durable tmp failed", fs)
  | none =>
    let fs := fs.call (.trunc tmp_path)
    match io.fault (.write tmp_path 0 data) with
    | some n =>
      (ioError (noticed.getD "flush durable tmp failed"), fs.call (.write tmp_path 0 (data.take n)))
    | none =>
      durableRename io tmp_path final_path policy
        { fs with calls := fs.calls ++ writeCalls tmp_path 0 (pieces sizes data) }

/-- What a writer does with the stream: the bytes it writes, and the status it
returns, given whether it finds that a write has failed. -/
structure TmpFileWriter where
  data : Bytes
  status : Bool → StatusOr Unit

/-- `DurableWriteFile` with any writer. A failing write may be noticed early, by the
writer, or by the last flush only. -/
def durableWriteFileBy (io : Io) (sizes : List Nat) (early : Bool) (writer : TmpFileWriter) (final_path : Path)
    (policy : FsyncPolicy) (fs : Fs) : StatusOr Unit × Fs :=
  let tmp_path := tmpPath final_path
  match io.fault (.trunc tmp_path) with
  | some n => (openError n "open durable tmp failed", fs)
  | none =>
    let fs := fs.call (.trunc tmp_path)
    let failed := io.fault (.write tmp_path 0 writer.data)
    let fs := match failed with
      | some n => fs.call (.write tmp_path 0 (writer.data.take n))
      | none => { fs with calls := fs.calls ++ writeCalls tmp_path 0 (pieces sizes writer.data) }
    match writer.status (failed.isSome && early) with
    | .error e => (.error e, fs)
    | .ok _ =>
      if failed.isSome then (ioError "flush durable tmp failed", fs)
      else durableRename io tmp_path final_path policy fs

/-- The writers of the repository return an error only for a failing write. -/
theorem durableWriteFile_eq_by (io : Io) (sizes : List Nat) (noticed : Option String) (final_path : Path) (data : Bytes)
    (policy : FsyncPolicy) (fs : Fs) :
    durableWriteFile io sizes noticed final_path data policy fs =
      durableWriteFileBy io sizes noticed.isSome
        ⟨data, fun failed => if failed then ioError (noticed.getD "flush durable tmp failed") else .ok ()⟩ final_path policy fs := by
  unfold durableWriteFile durableWriteFileBy
  dsimp only
  split
  · rfl
  · cases hw : io.fault (.write (tmpPath final_path) 0 data) with
    | none => simp
    | some n => cases noticed <;> simp [ioError]

/-- The calls of a replacement that goes through. -/
def durableCalls (sizes : List Nat) (final_path : Path) (data : Bytes) (policy : FsyncPolicy) : List Call :=
  [.trunc (tmpPath final_path)] ++ writeCalls (tmpPath final_path) 0 (pieces sizes data) ++
    (if policy ≠ .kNever then [.fsync (tmpPath final_path)] else []) ++ [.rename (tmpPath final_path) final_path] ++
    (if policy ≠ .kNever then [.fsyncDir (parentPath final_path)] else [])

/-- Nothing goes wrong: no failpoint, no failing call, and every `write` takes
at least a byte. -/
structure Io.Quiet (io : Io) : Prop where
  failpoint : io.failpoint = none
  fault : ∀ c, io.fault c = none
  refused : ∀ data, io.refused data = false
  reads : io.Reads
  writes : ∀ w ∈ io.writes, 0 < w

theorem durableWriteFile_quiet {io : Io} (h : io.Quiet) (sizes : List Nat) (noticed : Option String)
    (final_path : Path) (data : Bytes) (policy : FsyncPolicy) (fs : Fs) :
    durableWriteFile io sizes noticed final_path data policy fs =
      (.ok (), { fs with calls := fs.calls ++ durableCalls sizes final_path data policy }) := by
  have hfp := h.failpoint
  have hf := h.fault
  unfold durableWriteFile durableRename fsyncFile fsyncDir durableCalls
  cases policy <;> simp [hf, hfp, Fs.call]

/-- The calls before the rename. -/
def tmpCalls (sizes : List Nat) (final_path : Path) (data : Bytes) (policy : FsyncPolicy) : List Call :=
  [.trunc (tmpPath final_path)] ++ writeCalls (tmpPath final_path) 0 (pieces sizes data) ++
    (if policy ≠ .kNever then [.fsync (tmpPath final_path)] else [])

theorem tmpCalls_spares {p final_path : Path} (h : p ≠ tmpPath final_path) (sizes : List Nat) (data : Bytes)
    (policy : FsyncPolicy) : ∀ c ∈ tmpCalls sizes final_path data policy, c.Spares p := by
  intro c hc
  simp only [tmpCalls, List.mem_append, List.mem_singleton] at hc
  rcases hc with (rfl | hc) | hc
  · exact h
  · exact writeCalls_spares h _ _ c hc
  · split at hc
    · rw [List.mem_singleton.1 hc]; trivial
    · cases hc

/-- Before the rename the new content is in the temporary file. -/
theorem foldl_tmpCalls (sizes : List Nat) (final_path : Path) (data : Bytes) (policy : FsyncPolicy) (d : Disk) :
    (tmpCalls sizes final_path data policy).foldl exec d (tmpPath final_path) = some data := by
  have hw := foldl_writeCalls (tmpPath final_path) 0 (pieces sizes data)
    (Function.update d (tmpPath final_path) (some [])) [] (Function.update_self _ _ _) le_rfl
  have hd : ([Call.trunc (tmpPath final_path)] ++ writeCalls (tmpPath final_path) 0 (pieces sizes data)).foldl exec d
      (tmpPath final_path) = some data := by
    simp only [List.foldl_append, List.foldl_cons, List.foldl_nil, exec]
    rw [hw, Function.update_self, pieces_flatten]
    simp [overwrite]
  rw [tmpCalls, List.foldl_append]
  split
  · exact hd
  · exact hd

/-- The calls behind a rename: the directory is synced, or an error is returned. -/
def Finishes (final_path : Path) (policy : FsyncPolicy) (r : StatusOr Unit) (post : List Call) : Prop :=
  r = .ok () ∧ post = (if policy ≠ .kNever then [.fsyncDir (parentPath final_path)] else []) ∨ (∃ e, r = .error e) ∧ post = []

theorem Finishes.fsyncDir {final_path : Path} {policy : FsyncPolicy} {r : StatusOr Unit} {post : List Call}
    (h : Finishes final_path policy r post) : ∀ c ∈ post, ∃ dir, c = .fsyncDir dir := by
  rintro c hc
  rcases h with ⟨-, rfl⟩ | ⟨-, rfl⟩
  · split at hc
    · exact ⟨_, List.mem_singleton.1 hc⟩
    · cases hc
  · cases hc

theorem durableRename_cases (io : Io) (tmp_path final_path : Path) (policy : FsyncPolicy) (fs : Fs) :
    ∃ calls, (durableRename io tmp_path final_path policy fs).2 = fs.after calls ∧
      (((∃ e, (durableRename io tmp_path final_path policy fs).1 = .error e) ∧ ∀ c ∈ calls, c = .fsync tmp_path) ∨
        ∃ post, calls = (if policy ≠ .kNever then [.fsync tmp_path] else []) ++ .rename tmp_path final_path :: post ∧
          Finishes final_path policy (durableRename io tmp_path final_path policy fs).1 post) := by
  unfold durableRename
  split
  · rename_i e fs' heq
    -- The fsync failed.
    refine ⟨[], ?_, .inl ⟨⟨e, rfl⟩, by simp⟩⟩
    unfold fsyncFile at heq
    split_ifs at heq <;> simp_all [ioError]
  · rename_i fs' heq
    have hfs : fs' = fs.after (if policy ≠ .kNever then [.fsync tmp_path] else []) := by
      unfold fsyncFile at heq
      split_ifs at heq <;> simp_all [ioError, Fs.call, Fs.after]
    subst hfs
    by_cases hr : (io.fault (.rename tmp_path final_path)).isSome
    · simp only [hr, if_true]
      refine ⟨_, rfl, .inl ⟨⟨_, rfl⟩, ?_⟩⟩
      intro c hc
      split at hc
      · exact List.mem_singleton.1 hc
      · cases hc
    · simp only [hr, Bool.false_eq_true, if_false]
      by_cases hpolicy : policy ≠ .kNever
      · simp only [if_pos hpolicy]
        unfold fsyncDir
        split
        · exact ⟨_, by simp [Fs.call, Fs.after]; rfl, .inr ⟨[], by simp, .inr ⟨⟨_, rfl⟩, rfl⟩⟩⟩
        · split
          · exact ⟨_, by simp [Fs.call, Fs.after]; rfl, .inr ⟨[], by simp, .inr ⟨⟨_, rfl⟩, rfl⟩⟩⟩
          · exact ⟨_, by simp [Fs.call, Fs.after]; rfl, .inr ⟨[], by simp, .inr ⟨⟨_, rfl⟩, rfl⟩⟩⟩
          · exact ⟨_, by simp [Fs.call, Fs.after]; rfl,
              .inr ⟨[.fsyncDir (parentPath final_path)], by simp, .inl ⟨rfl, by rw [if_pos hpolicy]⟩⟩⟩
      · simp only [if_neg hpolicy]
        exact ⟨_, by simp [Fs.call, Fs.after]; rfl, .inr ⟨[], by simp, .inl ⟨rfl, by rw [if_neg hpolicy]⟩⟩⟩

/-- Whatever goes wrong, either nothing but the temporary file was touched and
the result is an error, or the rename was made. -/
theorem durableWriteFileBy_cases (io : Io) (sizes : List Nat) (early : Bool) (writer : TmpFileWriter) (final_path : Path)
    (policy : FsyncPolicy) (fs : Fs) :
    ∃ calls, (durableWriteFileBy io sizes early writer final_path policy fs).2 = fs.after calls ∧
      (((∃ e, (durableWriteFileBy io sizes early writer final_path policy fs).1 = .error e) ∧
          ∀ p, p ≠ tmpPath final_path → ∀ c ∈ calls, c.Spares p) ∨
        ∃ post, calls = tmpCalls sizes final_path writer.data policy ++ .rename (tmpPath final_path) final_path :: post ∧
          Finishes final_path policy (durableWriteFileBy io sizes early writer final_path policy fs).1 post) := by
  unfold durableWriteFileBy
  by_cases ht : io.fault (.trunc (tmpPath final_path)) = none
  swap
  · obtain ⟨n, hn⟩ := Option.ne_none_iff_exists'.1 ht
    simp only [hn]
    exact ⟨[], by simp, .inl ⟨openError_error n _, by simp⟩⟩
  simp only [ht]
  cases hw : io.fault (.write (tmpPath final_path) 0 writer.data) with
  | some n =>
    -- A write failed, and somebody notices.
    have hspares : ∀ p, p ≠ tmpPath final_path →
        ∀ c ∈ [Call.trunc (tmpPath final_path), .write (tmpPath final_path) 0 (writer.data.take n)], c.Spares p := by
      intro p hp c hc
      simp only [List.mem_cons, List.not_mem_nil, or_false] at hc
      rcases hc with rfl | rfl <;> exact hp
    refine ⟨_, ?_, .inl ⟨?_, hspares⟩⟩
    · cases hs : writer.status ((some n).isSome && early) <;> simp [Fs.call, Fs.after]
    · cases hs : writer.status ((some n).isSome && early) with
      | error e => exact ⟨e, rfl⟩
      | ok u => exact ⟨_, rfl⟩
  | none =>
    have hfs : ({ fs.call (.trunc (tmpPath final_path)) with
        calls := (fs.call (.trunc (tmpPath final_path))).calls ++
          writeCalls (tmpPath final_path) 0 (pieces sizes writer.data) } : Fs) =
        fs.after ([.trunc (tmpPath final_path)] ++ writeCalls (tmpPath final_path) 0 (pieces sizes writer.data)) := by
      simp [Fs.call, Fs.after]
    have hspares : ∀ p, p ≠ tmpPath final_path →
        ∀ c ∈ [.trunc (tmpPath final_path)] ++ writeCalls (tmpPath final_path) 0 (pieces sizes writer.data), c.Spares p := by
      intro p hp c hmem
      rcases List.mem_append.1 hmem with hmem | hmem
      · rw [List.mem_singleton.1 hmem]
        exact hp
      · exact writeCalls_spares hp _ _ c hmem
    simp only [hfs, Option.isSome_none, Bool.false_and, Bool.false_eq_true, if_false]
    cases hs : writer.status false with
    | error e => exact ⟨_, rfl, .inl ⟨⟨e, rfl⟩, hspares⟩⟩
    | ok u =>
      obtain ⟨calls, hcalls, hor⟩ := durableRename_cases io (tmpPath final_path) final_path policy
        (fs.after ([.trunc (tmpPath final_path)] ++ writeCalls (tmpPath final_path) 0 (pieces sizes writer.data)))
      refine ⟨[.trunc (tmpPath final_path)] ++ writeCalls (tmpPath final_path) 0 (pieces sizes writer.data) ++ calls,
        by rw [hcalls, Fs.after_after], ?_⟩
      rcases hor with ⟨he, hc⟩ | ⟨post, rfl, hpost⟩
      · refine .inl ⟨he, fun p hp c hmem => ?_⟩
        rcases List.mem_append.1 hmem with hmem | hmem
        · exact hspares p hp c hmem
        · rw [hc c hmem]; trivial
      · exact .inr ⟨post, by simp only [tmpCalls, List.append_assoc], hpost⟩

theorem durableWriteFile_cases (io : Io) (sizes : List Nat) (noticed : Option String) (final_path : Path) (data : Bytes)
    (policy : FsyncPolicy) (fs : Fs) :
    ∃ calls, (durableWriteFile io sizes noticed final_path data policy fs).2 = fs.after calls ∧
      (((∃ e, (durableWriteFile io sizes noticed final_path data policy fs).1 = .error e) ∧
          ∀ p, p ≠ tmpPath final_path → ∀ c ∈ calls, c.Spares p) ∨
        ∃ post, calls = tmpCalls sizes final_path data policy ++ .rename (tmpPath final_path) final_path :: post ∧
          ∀ c ∈ post, ∃ dir, c = .fsyncDir dir) := by
  rw [durableWriteFile_eq_by]
  obtain ⟨calls, hcalls, hsame | ⟨post, hpost, hfin⟩⟩ := durableWriteFileBy_cases io sizes noticed.isSome
    ⟨data, fun failed => if failed then ioError (noticed.getD "flush durable tmp failed") else .ok ()⟩ final_path policy fs
  · exact ⟨calls, hcalls, .inl hsame⟩
  · exact ⟨calls, hcalls, .inr ⟨post, hpost, hfin.fsyncDir⟩⟩

/-- A replacement that returns Ok was made. -/
theorem durableWriteFile_ok {io : Io} {sizes : List Nat} {noticed : Option String} {final_path : Path} {data : Bytes}
    {policy : FsyncPolicy} {fs fs' : Fs} (h : durableWriteFile io sizes noticed final_path data policy fs = (.ok (), fs')) :
    fs'.disk final_path = some data := by
  obtain ⟨calls, hcalls, ⟨⟨e, he⟩, -⟩ | ⟨post, rfl, hpost⟩⟩ := durableWriteFile_cases io sizes noticed final_path data policy fs
  · rw [h] at he
    cases he
  · have hspares : ∀ c ∈ post, c.Spares final_path := by
      intro c hc
      obtain ⟨dir, rfl⟩ := hpost c hc
      trivial
    rw [h] at hcalls
    rw [show fs' = _ from hcalls, Fs.disk_after, List.foldl_append, List.foldl_cons, foldl_spares hspares, exec,
      Function.update_of_ne (tmpPath_ne _), Function.update_self, foldl_tmpCalls]

end PomaiQueue.Storage
