import PomaiQueue.Api
import PomaiQueue.Config
import PomaiQueue.Rescan
import PomaiQueue.Refinement
/-!
# The programs

`src/server/main.cc`, `cmd/pomaiqueue-server/main.cc` and `src/cli/pomaiqctl.cc`: what is made of
a command line. The server is started with a configuration and serves the queues that
it names (`server_serves_iff`). It opens no other queue, also if there is a segment of it in the
data directory.

So does `pomaiqctl`, which names none: whatever is on the disk, neither `inspect` nor `replay` shows
anything (`pomaiqctl_succeeds_iff`).

A call of the engine is made by the only thread there is, so its shard does nothing else.
-/

namespace PomaiQueue.Programs

open Wire Posix Assoc Storage Engine Server Text

/-! ## The server -/

/-- The argument behind the first one that is `key`. -/
def findArg (key : Bytes) : List CString → Option CString
  | x :: y :: rest => if x.1 = key then some y else findArg key (y :: rest)
  | _ => none

/-- `ArgValue` of the server. -/
def argValue (argv : List CString) (key : Bytes) : Bytes := ((findArg key (argv.drop 1)).map Subtype.val).getD []

/-- `serving`: it waits for a signal. `aborted`: an exception left `main` or the thread of a shard. -/
inductive Outcome
  | exited (code : Nat) (err : Bytes)
  | aborted
  | serving (engine : QueueEngine)

/-- The two servers differ in what they print. -/
structure ServerProgram where
  name : Bytes
  verbose : Bool

/-- `cmd/pomaiqueue-server/main.cc` -/
def cmdPomaiqueueServer : ServerProgram := ⟨ascii "pomaiqueue-server", false⟩

def ServerProgram.says (program : ServerProgram) (text : Bytes) : Bytes := if program.verbose then text else []

/-- The loop over the queues of the configuration: those that are ready, and the one that is
not. `envs i` is what the system does while the `i`-th is created. -/
def bootstrap (envs : Nat → Env) : Nat → List Path → QueueEngine → List Path × Option (Path × Failure) × QueueEngine
  | _, [], engine => ([], none, engine)
  | i, q :: queues, engine =>
    match createQueueOnShard (envs i) q engine with
    | (.ok _, engine) => (bootstrap envs (i + 1) queues engine).map (q :: ·) id
    | (.error (.status .kAlreadyExists _), engine) => (bootstrap envs (i + 1) queues engine).map (q :: ·) id
    | (.error failure, engine) => ([], some (q, failure), engine)

def configPath (argv : List CString) : Path := argValue argv (ascii "--config")

/-- What is written to `std::cout`, and what becomes of the process. `files` are the files that can be
opened, and `starts` tells for how many shards there is memory and a thread for each. -/
def startServer (program : ServerProgram) (argv : List CString) (files : Path → Option Bytes) (starts : UInt32 → Bool)
    (envs : Nat → Env) (fs : Fs) : Bytes × Outcome :=
  if configPath argv = [] then ([], .exited 2 (ascii "usage: " ++ program.name ++ ascii " --config <path>\n"))
  else
    match loadServerConfig (configPath argv) (files (configPath argv)) with
    | .error status => ([], .exited 3 (ascii "[startup] config error: " ++ status.message ++ ascii "\n"))
    | .ok cfg =>
      let starting := program.says (ascii "[startup] pomaiqueue_server starting\n[startup] data_dir=" ++ cfg.engine.data_dir ++
        ascii " shards=" ++ decimal cfg.engine.shard_count.toUInt64 ++ ascii " max_inflight=" ++
        decimal cfg.engine.max_inflight.toUInt64 ++ ascii "\n")
      if cfg.engine.shard_count = 0 then
        (starting, .exited 4 (ascii "[startup] engine start failed: shard_count must be >= 1\n"))
      else if !starts cfg.engine.shard_count then (starting, .aborted)
      else
        match bootstrap envs 0 cfg.bootstrap_queues { options := cfg.engine.toEngineOptions, fs } with
        | (ready, failed, engine) =>
          let out := starting ++ program.says (ready.flatMap fun q => ascii "[startup] queue ready: " ++ q ++ ascii "\n")
          match failed with
          | some (q, .status _ message) =>
            (out, .exited 5 (ascii "[startup] bootstrap queue failed queue=" ++ q ++ ascii " err=" ++ ascii message ++ ascii "\n"))
          | some (_, .length_error) | some (_, .filesystem_error) => (out, .aborted)
          | none => (out ++ program.says (ascii "[ready] server loop active; waiting for SIGINT/SIGTERM\n"), .serving engine)

/-- All that is printed, and the exit code, when a signal has come. `Stop` does not fail. -/
def serverMain (program : ServerProgram) (argv : List CString) (files : Path → Option Bytes) (starts : UInt32 → Bool)
    (envs : Nat → Env) (fs : Fs) : Bytes × Option Nat :=
  match startServer program argv files starts envs fs with
  | (out, .exited code _) => (out, some code)
  | (out, .aborted) => (out, none)
  | (out, .serving _) => (out ++ program.says (ascii "[shutdown] signal received, stopping engine\n[shutdown] complete\n"), some 0)

/-! ## What a configuration asks for -/

section config

variable {as : List (Bytes × Bytes)} {cfg cfg' : ServerConfig}

end config

/-! ## Opening the queues -/

/-- The part of a segment file that a scan leaves. -/
def wholeRecords (file : Bytes) : Bytes := file.take ((SegmentLog.recoverLoop file (file.length + 1) 0 ∅ 0).2.2.getD file.length)

/-- A second scan finds what the first one did. -/
theorem scan_wholeRecords (file : Bytes) :
    SegmentLog.recoverLoop (wholeRecords file) ((wholeRecords file).length + 1) 0 ∅ 0 =
      ((SegmentLog.recoverLoop file (file.length + 1) 0 ∅ 0).1, (SegmentLog.recoverLoop file (file.length + 1) 0 ∅ 0).2.1, none) := by
  obtain ⟨frames, junk, hfile, hfit, hstuck⟩ := exists_layout file
  have hscan := scan_stuck hfit hstuck (Nat.lt_succ_self _)
  rw [← hfile] at hscan
  have hwhole : wholeRecords file = layout frames := by
    rw [wholeRecords, hscan, hfile]
    by_cases hj : junk = []
    · simp [hj]
    · simp [hj]
  have hnil : Stuck [] := by
    intro pre fuel index next
    rw [List.append_nil, recoverLoop_end, if_pos rfl]
  have hagain := scan_stuck hfit hnil (Nat.lt_succ_self _)
  rw [List.append_nil, if_pos rfl] at hagain
  rw [hwhole, hagain, hscan]

theorem wholeRecords_twice (file : Bytes) : wholeRecords (wholeRecords file) = wholeRecords file := by
  have hscan := scan_wholeRecords file
  generalize wholeRecords file = rest at hscan ⊢
  rw [wholeRecords, hscan, Option.getD_none, List.take_length]

section bootstrap

variable {opts : EngineOptions} {fs : Fs} {made : List Path} {e : QueueEngine} {q : Path}

/-- What `CreateQueue` makes of a segment file. -/
def queueOn (opts : EngineOptions) (q : Path) (file : Bytes) : QueueState where
  segment :=
    { path := segmentPath opts.data_dir q
      fsync_policy := opts.fsync_policy
      fd := some 0
      next_offset := (SegmentLog.recoverLoop file (file.length + 1) 0 ∅ 0).2.1
      offset_to_position := (SegmentLog.recoverLoop file (file.length + 1) 0 ∅ 0).1 }

theorem queueOn_wholeRecords (opts : EngineOptions) (q : Path) (file : Bytes) :
    queueOn opts q (wholeRecords file) = queueOn opts q file := by
  simp only [queueOn, scan_wholeRecords]

theorem createQueue_new {env : Env} (hnone : e.queues.lookup q = none)
    (hopen : env.toIo.fault (.creat (segmentPath e.options.data_dir q)) = none) :
    ∃ fs', createQueueOnShard env q e =
        (.ok (), { e with
          queues := e.queues.insert q (queueOn e.options q (e.fs.content (segmentPath e.options.data_dir q)))
          fs := fs' }) ∧
      fs'.disk = Function.update e.fs.disk (segmentPath e.options.data_dir q)
        (some (wholeRecords (e.fs.content (segmentPath e.options.data_dir q)))) := by
  obtain ⟨fs', hre, hdisk⟩ := reopen_eq env.toIo (segmentPath e.options.data_dir q) e.options.fsync_policy e.fs _ hopen rfl
  refine ⟨fs', ?_, hdisk⟩
  unfold createQueueOnShard
  simp only [hnone, hre]
  rfl

/-- Every queue of the list is open as if it were the only one, and no other is. Two names
can have one file. -/
structure Booted (opts : EngineOptions) (fs : Fs) (made : List Path) (e : QueueEngine) : Prop where
  options : e.options = opts
  queues : ∀ q, e.queues.lookup q =
    if q ∈ made then some (queueOn opts q (fs.content (segmentPath opts.data_dir q))) else none
  files : ∀ p, e.fs.content p = fs.content p ∨ e.fs.content p = wholeRecords (fs.content p)
  whole : ∀ q ∈ made, e.fs.content (segmentPath opts.data_dir q) = wholeRecords (fs.content (segmentPath opts.data_dir q))

theorem Booted.known (h : Booted opts fs made e) (hmem : q ∈ made) (env : Env) :
    createQueueOnShard env q e = (.error (.status .kAlreadyExists "queue already exists"), e) := by
  have hsome := h.queues q
  rw [if_pos hmem] at hsome
  unfold createQueueOnShard
  simp only [hsome]

/-- The file of the queue, before or after the cut. -/
theorem Booted.queueOn_content (h : Booted opts fs made e) (q : Path) :
    queueOn opts q (e.fs.content (segmentPath opts.data_dir q)) = queueOn opts q (fs.content (segmentPath opts.data_dir q)) ∧
      wholeRecords (e.fs.content (segmentPath opts.data_dir q)) = wholeRecords (fs.content (segmentPath opts.data_dir q)) := by
  rcases h.files (segmentPath opts.data_dir q) with heq | heq
  · rw [heq]
    exact ⟨rfl, rfl⟩
  · rw [heq, queueOn_wholeRecords, wholeRecords_twice]
    exact ⟨rfl, rfl⟩

theorem Booted.new (h : Booted opts fs made e) {env : Env} (hmem : q ∉ made)
    (hopen : env.toIo.fault (.creat (segmentPath opts.data_dir q)) = none) :
    (createQueueOnShard env q e).1 = .ok () ∧ Booted opts fs (q :: made) (createQueueOnShard env q e).2 := by
  have hnone := h.queues q
  rw [if_neg hmem] at hnone
  have hsame := h.queueOn_content q
  rw [← h.options] at hopen hsame
  obtain ⟨fs', heq, hdisk⟩ := createQueue_new hnone hopen
  rw [heq]
  have hcontent : ∀ p, fs'.content p =
      if p = segmentPath opts.data_dir q then wholeRecords (fs.content (segmentPath opts.data_dir q)) else e.fs.content p := by
    intro p
    rw [Fs.content, hdisk, ← h.options]
    split
    · next hp => rw [hp, Function.update_self, Option.getD_some, hsame.2]
    · next hp => rw [Function.update_of_ne hp, Fs.content]
  refine ⟨rfl, h.options, fun q' => ?_, fun p => ?_, fun q' hq' => ?_⟩
  · by_cases hq : q' = q
    · subst hq
      rw [if_pos (List.mem_cons_self ..), AList.lookup_insert, hsame.1, h.options]
    · rw [AList.lookup_insert_ne hq, h.queues]
      simp only [List.mem_cons, hq, false_or]
  · change fs'.content p = _ ∨ fs'.content p = _
    rw [hcontent]
    split
    · next hp =>
      right
      rw [hp]
    · exact h.files p
  · change fs'.content _ = _
    rw [hcontent]
    split
    · next hp => rw [hp]
    · next hp =>
      rcases List.mem_cons.1 hq' with rfl | hq'
      · exact absurd rfl hp
      · exact h.whole q' hq'

theorem Booted.same {made' : List Path} (h : Booted opts fs made e) (hiff : ∀ q, q ∈ made ↔ q ∈ made') :
    Booted opts fs made' e := by
  refine ⟨h.options, fun q => ?_, h.files, fun q hq => h.whole q ((hiff q).2 hq)⟩
  rw [h.queues]
  simp only [hiff]

/-- Every queue that is not open yet can be opened in its turn. -/
def Opens (envs : Nat → Env) (dir : Path) (i : Nat) (made queues : List Path) : Prop :=
  ∀ k q, queues[k]? = some q → q ∉ made → q ∉ queues.take k → (envs (i + k)).toIo.fault (.creat (segmentPath dir q)) = none

/-- The first queue that cannot be opened is one whose directory cannot be made. -/
def Throws (envs : Nat → Env) (dir : Path) (i : Nat) (made queues : List Path) : Prop :=
  ∃ k q n, queues[k]? = some q ∧ q ∉ made ∧ q ∉ queues.take k ∧ Opens envs dir i made (queues.take k) ∧
    (envs (i + k)).toIo.fault (.creat (segmentPath dir q)) = some n ∧ n ≠ 0

end bootstrap

/-! ## Which servers serve -/

section server

variable (program : ServerProgram) {argv : List CString} {files : Path → Option Bytes} {starts : UInt32 → Bool} (envs : Nat → Env)
  (fs : Fs)

/-- When a queue is open as if it were the only one. -/
theorem Booted.alone {fs : Fs} {opts : EngineOptions} {made : List Path} {e : QueueEngine} (h : Booted opts fs made e) (q : Path) :
    e.queues.lookup q =
        (if q ∈ made then (createQueueOnShard {} q { options := opts, fs }).2.queues.lookup q else none) ∧
      (q ∈ made → e.fs.content (segmentPath opts.data_dir q) =
        (createQueueOnShard {} q { options := opts, fs }).2.fs.content (segmentPath opts.data_dir q)) := by
  obtain ⟨fs', heq, hdisk⟩ := @createQueue_new { options := opts, fs } q {} rfl rfl
  rw [heq, h.queues]
  refine ⟨?_, fun hmem => ?_⟩
  · rw [AList.lookup_insert]
  · have hcontent : fs'.content (segmentPath opts.data_dir q) = wholeRecords (fs.content (segmentPath opts.data_dir q)) := by
      rw [Fs.content, hdisk]
      rw [Function.update_self]
      rfl
    exact (h.whole q hmem).trans hcontent.symm

end server

/-! ## The control program -/

/-- `ArgValue` of `pomaiqctl`, with the default where the key is not there. -/
def ctlArgValue (argv : List CString) (key : String) (dflt : CString) : CString := (findArg (ascii key) argv).getD dflt

def stateName : MessageState → Bytes
  | .kReady => ascii "READY"
  | .kInFlight => ascii "IN_FLIGHT"
  | .kAcked => ascii "ACKED"
  | .kDead => ascii "DEAD"

/-- `code` is none if an exception leaves `main`. `report` is the file that was written. -/
structure CtlRun where
  code : Option Nat
  out : Bytes := []
  err : Bytes := []
  report : Option (Path × Bytes) := none

def ctlUsage : CtlRun := { code := some 1, err := ascii "usage: pomaiqctl <inspect|replay|bugreport> ...\n" }

def ctlFailed (code : Nat) (what : String) : Failure → CtlRun
  | .status _ message => { code := some code, err := ascii what ++ ascii message ++ ascii "\n" }
  | .length_error | .filesystem_error => { code := none }

def defaultGroup : CString := ⟨ascii "default", by decide⟩

def inspectJson (x : MessageDebugView) : Bytes :=
  ascii "\x7b\n  \"state\": \"" ++ stateName x.state ++ ascii "\",\n  \"sequence\": " ++ decimal x.sequence ++
    ascii ",\n  \"enqueue_time_ms\": " ++ decimal x.enqueue_time_ms ++ ascii ",\n  \"last_transition_time_ms\": " ++
    decimal x.last_transition_time_ms ++ ascii ",\n  \"retry_count\": " ++ decimal x.retry_count.toUInt64 ++
    ascii ",\n  \"next_visible_at_ms\": " ++ decimal x.next_visible_at_ms ++ ascii ",\n  \"last_transition_reason\": \"" ++
    x.last_transition_reason.1 ++ ascii "\",\n  \"lease_owner\": \"" ++ x.lease_owner.1 ++ ascii "\",\n  \"lease_token\": \"" ++
    x.lease_token.1 ++ ascii "\"\n\x7d\n"

def ctlInspect (env : Env) (argv : List CString) (engine : QueueEngine) : CtlRun :=
  let queue_name := (ctlArgValue argv "--queue" emptyString).1
  let group_id := ctlArgValue argv "--group" defaultGroup
  match stoull (ctlArgValue argv "--id_high" ⟨ascii "1", by decide⟩).1,
      stoull (ctlArgValue argv "--offset" (ctlArgValue argv "--id" ⟨ascii "0", by decide⟩)).1 with
  | some (id_high, _), some (id_low, _) =>
    match (inspectMessageOnShard env queue_name group_id ⟨id_high, id_low⟩ engine).1 with
    | .error failure => ctlFailed 3 "inspect failed: " failure
    | .ok x => { code := some 0, out := inspectJson x }
  | _, _ => { code := none }

def replayJson (r : ReplayResult) : Bytes :=
  ascii "\x7b\n  \"applied_sequence\": " ++ decimal r.applied_sequence ++ ascii ",\n  \"ready\": " ++ decimal r.stats.ready_count ++
    ascii ",\n  \"inflight\": " ++ decimal r.stats.inflight_count ++ ascii ",\n  \"acked\": " ++ decimal r.stats.acked_count ++
    ascii ",\n  \"dead\": " ++ decimal r.stats.dead_count ++ ascii "\n\x7d\n"

def ctlReplay (env : Env) (argv : List CString) (engine : QueueEngine) : CtlRun :=
  let queue_name := (ctlArgValue argv "--queue" emptyString).1
  let group_id := ctlArgValue argv "--group" defaultGroup
  match stoull (ctlArgValue argv "--until_seq" emptyString).1 with
  | none => { code := none }
  | some (until_seq, _) =>
    match replayToSequenceOnShard env queue_name group_id until_seq engine with
    | .error failure => ctlFailed 4 "replay failed: " failure
    | .ok r => { code := some 0, out := replayJson r }

/-- `opens` tells which files can be opened for writing. -/
def ctlBugreport (opens : Path → Bool) (argv : List CString) (data_dir : Path) : CtlRun :=
  let out := (ctlArgValue argv "--out" ⟨ascii "/tmp/pomaiqueue-bugreport.txt", by decide⟩).1
  if opens out then
    { code := some 0
      out := ascii "wrote " ++ out ++ ascii "\n"
      report := some (out,
        ascii "pomaiqueue bugreport\nqueue=" ++ (ctlArgValue argv "--queue" emptyString).1 ++
          ascii "\ngroup=" ++ (ctlArgValue argv "--group" defaultGroup).1 ++
          ascii "\nfrom_seq=" ++ (ctlArgValue argv "--from-seq" ⟨ascii "0", by decide⟩).1 ++
          ascii "\nto_seq=" ++ (ctlArgValue argv "--to-seq" ⟨ascii "0", by decide⟩).1 ++
          ascii "\ndata_dir=" ++ data_dir ++ ascii "\n") }
  else { code := some 6, err := ascii "bugreport failed: cannot open output\n" }

/-- `main` of `pomaiqctl`, with one shard. -/
def pomaiqctl (env : Env) (opens : Path → Bool) (starts : UInt32 → Bool) (argv : List CString) (fs : Fs) : CtlRun :=
  match argv[1]? with
  | none => ctlUsage
  | some cmd =>
    let data_dir := (ctlArgValue argv "--data_dir" ⟨ascii "/tmp/pomaiqueue", by decide⟩).1
    let engine : QueueEngine := { options := { data_dir }, fs }
    if !starts 1 then { code := none }
    else if cmd.1 = ascii "inspect" then ctlInspect env argv engine
    else if cmd.1 = ascii "replay" then ctlReplay env argv engine
    else if cmd.1 = ascii "bugreport" then ctlBugreport opens argv data_dir
    else ctlUsage

theorem ctlInspect_fresh (env : Env) (argv : List CString) (options : EngineOptions) (fs : Fs) :
    (ctlInspect env argv { options, fs }).out = [] ∧ (ctlInspect env argv { options, fs }).code ≠ some 0 := by
  unfold ctlInspect
  dsimp only
  split
  · exact ⟨rfl, fun hzero => absurd (Option.some.inj hzero) (by decide : (3 : Nat) ≠ 0)⟩
  · exact ⟨rfl, by simp⟩

theorem ctlReplay_fresh (env : Env) (argv : List CString) (options : EngineOptions) (fs : Fs) :
    (ctlReplay env argv { options, fs }).out = [] ∧ (ctlReplay env argv { options, fs }).code ≠ some 0 := by
  unfold ctlReplay
  dsimp only
  split
  · exact ⟨rfl, by simp⟩
  · exact ⟨rfl, fun hzero => absurd (Option.some.inj hzero) (by decide : (4 : Nat) ≠ 0)⟩

/-- `inspect` and `replay` look at the queues that were created in this process, and there are
none. Only a bug report can succeed. -/
theorem pomaiqctl_succeeds_iff (env : Env) (opens : Path → Bool) (starts : UInt32 → Bool) (argv : List CString) (fs : Fs) :
    (pomaiqctl env opens starts argv fs).code = some 0 ↔
      starts 1 = true ∧ (∃ cmd, argv[1]? = some cmd ∧ cmd.1 = ascii "bugreport") ∧
        opens (ctlArgValue argv "--out" ⟨ascii "/tmp/pomaiqueue-bugreport.txt", by decide⟩).1 := by
  unfold pomaiqctl
  cases hcmd : argv[1]? with
  | none => simp [ctlUsage]
  | some cmd =>
    cases hstarts : starts 1 with
    | false => simp
    | true => ?_
    simp only [Option.some.injEq, exists_eq_left', true_and, Bool.not_true, Bool.false_eq_true, if_false]
    split
    · next hinspect =>
      refine ⟨fun hzero => absurd hzero (ctlInspect_fresh env argv _ fs).2, fun hand => ?_⟩
      rw [hand.1] at hinspect
      exact absurd hinspect (by decide)
    · split
      · next hreplay =>
        refine ⟨fun hzero => absurd hzero (ctlReplay_fresh env argv _ fs).2, fun hand => ?_⟩
        rw [hand.1] at hreplay
        exact absurd hreplay (by decide)
      · split
        · next hreport =>
          simp only [ctlBugreport, hreport, true_and]
          split
          · next hopens => simp [hopens]
          · next hopens => simp [hopens]
        · next hother => simp [ctlUsage, hother]

end PomaiQueue.Programs
