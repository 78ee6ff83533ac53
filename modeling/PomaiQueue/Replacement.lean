import PomaiQueue.Lib.PowerLoss
import PomaiQueue.DurableIo
/-!
# Replacing a file is atomic

`DurableWriteFile` on one path, again and again: any of its system calls may fail, the
process may be killed between two of them, and the power may be lost at any time
(`Replaces`). `replacement_atomic`: what is found at the path is the content from before
the first call or all the bytes of one of the calls, after an Ok it is the new content
for good, and an error before the rename leaves everything as it was.

A policy of `kNever` is left out: without the fsync nothing of this holds.
-/

namespace PomaiQueue.Storage

open Wire Posix

/-! ## The calls on the medium -/

section calls

variable {m : Media}

/-- Before the rename the new content is synced. -/
theorem synced_tmpCalls (hok : m.Ok) (sizes : List Nat) (final_path : Path) (data : Bytes) {policy : FsyncPolicy}
    (hpolicy : policy ≠ .kNever) :
    (m.run parentPath (tmpCalls sizes final_path data policy)).Synced (tmpPath final_path) data := by
  have hcalls : tmpCalls sizes final_path data policy =
      tmpCalls sizes final_path data .kNever ++ [.fsync (tmpPath final_path)] := by
    simp [tmpCalls, hpolicy]
  have hfile : (m.run parentPath (tmpCalls sizes final_path data .kNever)).disk (tmpPath final_path) = some data := by
    rw [Media.disk_run hok]
    exact foldl_tmpCalls sizes final_path data .kNever m.disk
  rw [hcalls, Media.run_append]
  change (Media.step parentPath _ (.fsync (tmpPath final_path))).Synced (tmpPath final_path) data
  exact Media.synced_fsync hfile

theorem durableCalls_eq (sizes : List Nat) (final_path : Path) (data : Bytes) {policy : FsyncPolicy} (hpolicy : policy ≠ .kNever) :
    durableCalls sizes final_path data policy = tmpCalls sizes final_path data policy ++
      .rename (tmpPath final_path) final_path :: [.fsyncDir (parentPath final_path)] := by
  simp [durableCalls, tmpCalls, hpolicy]

end calls

/-! ## Runs -/

/-- A call of `DurableWriteFile` with a policy that syncs, and what the system does
during it. -/
structure Replacement where
  io : Io := {}
  sizes : List Nat := []
  early : Bool := false
  writer : TmpFileWriter
  policy : FsyncPolicy := .kAlways
  syncs : policy ≠ .kNever := by decide

def Replacement.run (w : Replacement) (final_path : Path) (fs : Fs) : StatusOr Unit × Fs :=
  durableWriteFileBy w.io w.sizes w.early w.writer final_path w.policy fs

/-- From `start` on, calls for `final_path` that return or are cut short, power losses,
and anything that is done to other files, temporary ones too. -/
inductive Replaces (final_path : Path) (start : Fs) : List Replacement → Fs → Prop
  | start : Replaces final_path start [] start
  | returned {ws : List Replacement} {fs : Fs} (h : Replaces final_path start ws fs) (w : Replacement) :
      Replaces final_path start (ws ++ [w]) (w.run final_path fs).2
  | killed {ws : List Replacement} {fs : Fs} (h : Replaces final_path start ws fs) (w : Replacement) (calls : List Call)
      (hcalls : (w.run final_path fs).2 = fs.after calls) (k : Nat) :
      Replaces final_path start (ws ++ [w]) (fs.after (calls.take k))
  | elsewhere {ws : List Replacement} {fs : Fs} (h : Replaces final_path start ws fs) (calls : List Call)
      (hspares : ∀ c ∈ calls, c.Spares final_path) : Replaces final_path start ws (fs.after calls)
  | powerLoss {ws : List Replacement} {fs : Fs} (h : Replaces final_path start ws fs) (d : Disk)
      (hd : (fs.media parentPath).Wrecked d) : Replaces final_path start ws ⟨d, []⟩

/-- What can be found at `p`: what a process reads, or what a power loss leaves. -/
def Found (fs : Fs) (p : Path) (c : Option Bytes) : Prop :=
  c = fs.disk p ∨ ∃ d, (fs.media parentPath).Wrecked d ∧ d p = c

variable {final_path : Path} {fs start : Fs} {ws : List Replacement} {Q : Option Bytes → Prop} {w : Replacement}

theorem found_of_steady (h : (fs.media parentPath).Steady Q final_path) {c : Option Bytes} (hc : Found fs final_path c) : Q c := by
  rcases hc with rfl | ⟨d, hd, rfl⟩
  · rw [← Fs.disk_media parentPath fs]
    exact h.disk (Fs.media_ok _ _)
  · exact h.wrecked hd

theorem steady_found (h : (fs.media parentPath).Steady Q final_path) :
    (fs.media parentPath).Steady (Found fs final_path) final_path :=
  (h.found (Fs.media_ok _ _)).mono fun _ hc => .inr hc

/-- However far a call gets, the old content or the new one is found. -/
theorem Replacement.steady (h : (fs.media parentPath).Steady Q final_path) (hQ : Q (some w.writer.data)) {calls : List Call}
    (hcalls : (w.run final_path fs).2 = fs.after calls) (k : Nat) :
    ((fs.after (calls.take k)).media parentPath).Steady Q final_path := by
  have hok := Fs.media_ok parentPath fs
  obtain ⟨calls', hcalls', hor⟩ := durableWriteFileBy_cases w.io w.sizes w.early w.writer final_path w.policy fs
  obtain rfl : calls = calls' := Fs.after_injective fs (hcalls.symm.trans hcalls')
  rw [Fs.media_after]
  rcases hor with ⟨-, hspares⟩ | ⟨post, rfl, hfin⟩
  · exact h.run hok fun c hc => hspares _ (tmpPath_ne _) c (List.mem_of_mem_take hc)
  · have hpost : ∀ c ∈ post, c.Spares final_path := by
      intro c hc
      obtain ⟨dir, rfl⟩ := hfin.fsyncDir c hc
      trivial
    exact h.replaced hok (tmpPath_ne _) (tmpCalls_spares (tmpPath_ne _) _ _ _) hpost hQ (synced_tmpCalls hok _ _ _ w.syncs) k

/-- After an Ok there is only the new content. -/
theorem Replacement.steady_ok (hret : (w.run final_path fs).1 = .ok ()) :
    ((w.run final_path fs).2.media parentPath).Steady (· = some w.writer.data) final_path := by
  have hok := Fs.media_ok parentPath fs
  obtain ⟨calls, hcalls, hor⟩ := durableWriteFileBy_cases w.io w.sizes w.early w.writer final_path w.policy fs
  rcases hor with ⟨⟨e, he⟩, -⟩ | ⟨post, rfl, ⟨-, rfl⟩ | ⟨⟨e, he⟩, -⟩⟩
  · cases hret.symm.trans he
  · have hrun : (w.run final_path fs).2 = _ := hcalls
    rw [hrun, Fs.media_after, Media.run_append, if_pos w.syncs]
    exact Media.steady_replaced (hok.run _) (tmpPath_ne _) (synced_tmpCalls hok _ _ _ w.syncs)
  · cases hret.symm.trans he

/-- The content of `Q` or all the bytes of one of the calls. -/
def Whole (Q : Option Bytes → Prop) (ws : List Replacement) (c : Option Bytes) : Prop :=
  Q c ∨ ∃ w ∈ ws, c = some w.writer.data

theorem Replacement.steady_whole (h : (fs.media parentPath).Steady (Whole Q ws) final_path) {calls : List Call}
    (hcalls : (w.run final_path fs).2 = fs.after calls) (k : Nat) :
    ((fs.after (calls.take k)).media parentPath).Steady (Whole Q (ws ++ [w])) final_path := by
  refine Replacement.steady (h.mono fun c hc => ?_) (.inr ⟨w, by simp, rfl⟩) hcalls k
  rcases hc with hc | ⟨w', hw', hc⟩
  · exact .inl hc
  · exact .inr ⟨w', List.mem_append_left _ hw', hc⟩

/-- A run keeps to the contents it started with and those of its calls. -/
theorem Replaces.steady (h : Replaces final_path start ws fs) (hstart : (start.media parentPath).Steady Q final_path) :
    (fs.media parentPath).Steady (Whole Q ws) final_path := by
  induction h with
  | start => exact hstart.mono fun c hc => .inl hc
  | @returned ws fs h w ih =>
    obtain ⟨calls, hcalls, -⟩ := durableWriteFileBy_cases w.io w.sizes w.early w.writer final_path w.policy fs
    have hrun : (w.run final_path fs).2 = fs.after calls := hcalls
    have hwhole := Replacement.steady_whole ih hrun calls.length
    rwa [List.take_length, ← hrun] at hwhole
  | killed h w calls hcalls k ih => exact Replacement.steady_whole ih hcalls k
  | elsewhere h calls hspares ih =>
    rw [Fs.media_after]
    exact ih.run (Fs.media_ok _ _) hspares
  | powerLoss h d hd ih =>
    have hfound := ih.wrecked hd
    exact (Media.steady_ofDisk d final_path).mono fun c hc => hc ▸ hfound

/-- In every run only the content from before or all the bytes of one of the calls is
found. A call that returns Ok leaves the new content, and from then on only this or that of
a later call is found. A call that returns an error without a rename leaves what was there. -/
theorem replacement_atomic (final_path : Path) (base : Disk) (ws : List Replacement) (fs : Fs)
    (h : Replaces final_path ⟨base, []⟩ ws fs) :
    (∀ c, Found fs final_path c → c = base final_path ∨ ∃ w ∈ ws, c = some w.writer.data) ∧
    (∀ w : Replacement, (w.run final_path fs).1 = .ok () →
      ∀ later fs', Replaces final_path (w.run final_path fs).2 later fs' →
        ∀ c, Found fs' final_path c → c = some w.writer.data ∨ ∃ w' ∈ later, c = some w'.writer.data) ∧
    (∀ (w : Replacement) (e : Failure) (calls : List Call), (w.run final_path fs).1 = .error e →
      (w.run final_path fs).2 = fs.after calls → .rename (tmpPath final_path) final_path ∉ calls →
      (w.run final_path fs).2.disk final_path = fs.disk final_path ∧
        ∀ c, Found (w.run final_path fs).2 final_path c → Found fs final_path c) := by
  have hsteady := h.steady (Media.steady_ofDisk base final_path)
  refine ⟨fun c hc => found_of_steady hsteady hc, ?_, ?_⟩
  · intro w hret later fs' hlater c hc
    exact found_of_steady (hlater.steady (Replacement.steady_ok hret)) hc
  · intro w e calls hret hcalls hno
    obtain ⟨calls', hcalls', hor⟩ := durableWriteFileBy_cases w.io w.sizes w.early w.writer final_path w.policy fs
    obtain rfl : calls = calls' := Fs.after_injective fs (hcalls.symm.trans hcalls')
    rcases hor with ⟨-, hspares⟩ | ⟨post, rfl, -⟩
    · have hsp := hspares final_path (tmpPath_ne _)
      have hdisk : (fs.after calls).disk final_path = fs.disk final_path := by rw [Fs.disk_after, foldl_spares hsp]
      rw [hcalls]
      refine ⟨hdisk, fun c hc => ?_⟩
      have hfound : ((fs.after calls).media parentPath).Steady (Found fs final_path) final_path := by
        rw [Fs.media_after]
        exact (steady_found hsteady).run (Fs.media_ok _ _) hsp
      exact found_of_steady hfound hc
    · exact absurd (List.mem_append_right _ List.mem_cons_self) hno

/-- A call for the bytes 1 and 2. -/
def firstTry : Replacement := { writer := ⟨[1, 2], fun _ => .ok ()⟩ }

/-- One of them in the temporary file. -/
def halfWritten : Disk := Function.update (fun _ => none) (tmpPath (ascii "./f")) (some [1])

/-- The call is killed before its rename, and then the power is lost. -/
theorem replaces_firstTry : Replaces (ascii "./f") ⟨fun _ => none, []⟩ [firstTry] ⟨halfWritten, []⟩ := by
  have hstart : Replaces (ascii "./f") ⟨fun _ => none, []⟩ [] ⟨fun _ => none, []⟩ := .start
  have hkilled := hstart.killed firstTry (durableCalls [] (ascii "./f") [1, 2] .kAlways) rfl 2
  refine hkilled.powerLoss halfWritten (Media.Lost.wrecked ?_)
  have hleft : Left [] [.cut 0, .put 0 [1, 2]] [1] := .next _ _ _ _ (.part [] 0 [1, 2] 1 [])
  have hlost := (Fs.media_ok parentPath (Fs.after ⟨fun _ => none, []⟩
    ((durableCalls [] (ascii "./f") [1, 2] .kAlways).take 2))).lost (p := tmpPath (ascii "./f")) (i := .new 0) (by decide +kernel) hleft
  rw [Fs.disk_media, Fs.disk_after] at hlost
  have hdisk : Function.update (((durableCalls [] (ascii "./f") [1, 2] .kAlways).take 2).foldl exec
      (Fs.disk ⟨fun _ => none, []⟩)) (tmpPath (ascii "./f")) (some [1]) = halfWritten := by
    rw [show (durableCalls [] (ascii "./f") [1, 2] .kAlways).take 2 =
      [.trunc (tmpPath (ascii "./f")), .write (tmpPath (ascii "./f")) 0 [1, 2]] from rfl]
    simp only [List.foldl_cons, List.foldl_nil, exec, Function.update_idem]
    rfl
  rwa [hdisk] at hlost

theorem replacement_atomic_half : Found ⟨halfWritten, []⟩ (ascii "./f") none ∧
    ¬ Found ⟨halfWritten, []⟩ (ascii "./f") (some [1]) := by
  refine ⟨.inl (by decide +kernel), fun hfound => ?_⟩
  obtain hnone | ⟨w, hw, hdata⟩ := (replacement_atomic (ascii "./f") (fun _ => none) _ _ replaces_firstTry).1 _ hfound
  · cases hnone
  · rw [List.mem_singleton.1 hw] at hdata
    cases hdata

end PomaiQueue.Storage
