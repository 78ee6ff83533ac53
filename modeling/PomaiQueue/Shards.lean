import PomaiQueue.Independence
import PomaiQueue.ShardActor
/-!
# The engine with its shards

`QueueEngine::Start`, `Stop`, `ValidateShardConfig`, `ShardForQueue` and the calls
that submit a request to the shard of its queue, with any number of callers and
workers. A step is what one of them does, and a run is any interleaving (`run`).
The process may be killed at any time: every worker has then made some of the system
calls of the request it is at, and they come in any order (`Step.crash`).

`shards_transparent`: whatever the hash, the number of shards and the order of the
steps, each group gets the answers of the engine that does one thing after the other,
and is left as by it, its requests in the order in which they were called.

A request is performed when its worker is done with it. That it looks at the engine
then, and not while others are at theirs, makes no difference (`perform_local`).
Trusted: callers do not use the engine while `Start` or `Stop` change the list of
shards, which has no mutex.
-/

namespace PomaiQueue.Engine

open Wire Posix Assoc Storage

/-! ## The system -/

/-- A request that a caller waits for. -/
structure Task where
  caller : Nat
  env : Env
  request : Request

/-- A request that was answered, or a crash with the requests the workers were at and
how many of its system calls each of them had made. -/
inductive Happened
  | did (task : Task) (response : Response)
  | crashed (midway : List (Task × Nat)) (options : EngineOptions)

/-- `called` and `refused` are the requests that were submitted and those that were
not, and `history` is what became of them. -/
structure Sharded where
  shard_count : UInt32
  engine : QueueEngine
  shards : List (ShardActor Task) := []
  called : List Task := []
  refused : List (Task × Failure) := []
  history : List Happened := []

namespace Sharded

def validateShardConfig (s : Sharded) : StatusOr Unit :=
  if s.shard_count = 0 then .error (.status .kInvalidArgument "shard_count must be >= 1")
  else if s.shards.isEmpty then .error (.status .kUnavailable "engine not started")
  else .ok ()

/-- `hash` is `std::hash<std::string>`. -/
def shardForQueue (hash : Path → UInt64) (shard_count : UInt32) (queue_name : Path) : Nat :=
  (hash queue_name).toNat % shard_count.toNat

/-- A shard whose worker `Stop` has joined. -/
def stopped (a : ShardActor Task) : Bool :=
  match a.worker with
  | .joined => true
  | _ => false

/-- The requests the workers are at. -/
def executing (s : Sharded) : List Task := s.shards.flatMap ShardActor.current

/-- The system calls that the engine makes for a request. -/
def callsFor (env : Env) (engine : QueueEngine) (request : Request) : List Call :=
  (perform env engine request).2.fs.calls.drop engine.fs.calls.length

/-- The calls of the request for the queue that a worker is at. -/
def pendingCalls (s : Sharded) (q : Path) : List Call :=
  match s.executing.find? (·.request.queue = q) with
  | none => []
  | some task => callsFor task.env s.engine task.request

inductive Step
  /-- `Start`. -/
  | start
  /-- A caller checks the configuration and pushes its request. -/
  | call (task : Task)
  /-- What the worker of shard `i` does, or what `Stop` does to it. -/
  | shard (i : Nat) (x : ShardActor.Step Task)
  /-- `Stop` drops the shards. -/
  | clear
  /-- The process is killed and a new one started. Calls that were made go with the
  queue of the request they were made for. -/
  | crash (made : List (Path × Call)) (shard_count : UInt32) (options : EngineOptions)

/-- One step, if it can be made. -/
def step (hash : Path → UInt64) (s : Sharded) : Step → Option Sharded
  | .start =>
    if s.shard_count = 0 then some s
    else if s.shards.all stopped then
      some { s with shards := List.replicate s.shard_count.toNat { running := true, worker := .waiting } }
    else none
  | .call task =>
    match s.validateShardConfig with
    | .error e => some { s with refused := s.refused ++ [(task, e)] }
    | .ok _ =>
      let i := shardForQueue hash s.shard_count task.request.queue
      match s.shards[i]? with
      | none => none
      | some a =>
        (a.step (.push task)).map fun a => { s with shards := s.shards.set i a, called := s.called ++ [task] }
  | .shard i x =>
    match s.shards[i]? with
    | none => none
    | some a =>
      match x, a.worker with
      | .start, _ | .spawn, _ | .push _, _ => none
      | .done, .executing task =>
        match perform task.env s.engine task.request with
        | (response, engine) =>
          (a.step .done).map fun a =>
            { s with shards := s.shards.set i a, engine, history := s.history ++ [.did task response] }
      | x, _ => (a.step x).map fun a => { s with shards := s.shards.set i a }
  | .clear => if s.shards.all stopped then some { s with shards := [] } else none
  | .crash made shard_count options =>
    if ∀ x ∈ made, callsOf x.1 made <+: s.pendingCalls x.1 then
      some
        { s with
          shard_count
          engine := { options, fs := s.engine.fs.after (made.map (·.2)) }
          shards := []
          history := s.history ++ [.crashed (s.executing.map fun t => (t, (callsOf t.request.queue made).length)) options] }
    else none

/-- The state after `steps`, if they can be made one after the other. -/
def run (hash : Path → UInt64) (s : Sharded) (steps : List Step) : Option Sharded := steps.foldlM (step hash) s

theorem run_concat (hash : Path → UInt64) (s : Sharded) (steps : List Step) (x : Step) :
    run hash s (steps ++ [x]) = (run hash s steps).bind (step hash · x) := by
  simp [run, List.foldlM_append]

/-- What a step does. -/
inductive Does (hash : Path → UInt64) (s : Sharded) : Step → Sharded → Prop
  | zero (h : s.shard_count = 0) : Does hash s .start s
  | start (h : s.shard_count ≠ 0) (hs : s.shards.all stopped) :
      Does hash s .start { s with shards := List.replicate s.shard_count.toNat { running := true, worker := .waiting } }
  | refuse (task : Task) (e : Failure) (h : s.validateShardConfig = .error e) :
      Does hash s (.call task) { s with refused := s.refused ++ [(task, e)] }
  | call (task : Task) (a : ShardActor Task) (h : s.validateShardConfig = .ok ())
      (ha : s.shards[shardForQueue hash s.shard_count task.request.queue]? = some a) :
      Does hash s (.call task)
        { s with
          shards := s.shards.set (shardForQueue hash s.shard_count task.request.queue)
            { a with tasks := a.tasks ++ [task], pushed := a.pushed ++ [task] }
          called := s.called ++ [task] }
  | done (i : Nat) (a : ShardActor Task) (task : Task) (ha : s.shards[i]? = some a) (hw : a.worker = .executing task) :
      Does hash s (.shard i .done)
        { s with
          shards := s.shards.set i { a with worker := .waiting, executed := a.executed ++ [task] }
          engine := (perform task.env s.engine task.request).2
          history := s.history ++ [.did task (perform task.env s.engine task.request).1] }
  | inside (i : Nat) (a b : ShardActor Task) (x : ShardActor.Step Task) (ha : s.shards[i]? = some a)
      (hsame : b.current ++ b.tasks = a.current ++ a.tasks) : Does hash s (.shard i x) { s with shards := s.shards.set i b }
  | clear (hs : s.shards.all stopped) : Does hash s .clear { s with shards := [] }
  | crash (made : List (Path × Call)) (shard_count : UInt32) (options : EngineOptions)
      (h : ∀ x ∈ made, callsOf x.1 made <+: s.pendingCalls x.1) :
      Does hash s (.crash made shard_count options)
        { s with
          shard_count
          engine := { options, fs := s.engine.fs.after (made.map (·.2)) }
          shards := []
          history := s.history ++ [.crashed (s.executing.map fun t => (t, (callsOf t.request.queue made).length)) options] }

/-- Neither `Stop` nor a worker that takes a request or returns changes what is left to do. -/
theorem inside_same {a b : ShardActor Task} {x : ShardActor.Step Task} (h : ShardActor.Does a x b)
    (hx : x = .stop ∨ x = .join ∨ x = .take ∨ x = .leave) : b.current ++ b.tasks = a.current ++ a.tasks := by
  cases h with
  | start | spawn hw | push task | done hw => rcases hx with hx | hx | hx | hx <;> cases hx
  | stop => rfl
  | join hw =>
    have hcur : a.current = [] := by rw [ShardActor.current, hw]
    rw [hcur]
    rfl
  | take hw ht =>
    have hcur : a.current = [] := by rw [ShardActor.current, hw]
    rw [hcur, ht]
    rfl
  | leave hw ht hr =>
    have hcur : a.current = [] := by rw [ShardActor.current, hw]
    rw [hcur]
    rfl

theorem step_does {hash : Path → UInt64} {s t : Sharded} {x : Step} (h : s.step hash x = some t) : Does hash s x t := by
  cases x with
  | start =>
    simp only [step] at h
    split at h
    · rename_i hz
      obtain rfl := Option.some.inj h
      exact .zero hz
    · rename_i hz
      split at h
      · rename_i hs
        obtain rfl := Option.some.inj h
        exact .start hz hs
      · cases h
  | call task =>
    simp only [step] at h
    split at h
    · rename_i e he
      obtain rfl := Option.some.inj h
      exact .refuse task e he
    · rename_i hok
      split at h
      · cases h
      · rename_i a ha
        obtain rfl := Option.some.inj h
        exact .call task a hok ha
  | shard i x =>
    cases ha : s.shards[i]? with
    | none => simp [step, ha] at h
    | some a =>
      -- All but the end of a request.
      have hinside : x = .stop ∨ x = .join ∨ x = .take ∨ x = .leave →
          (a.step x).map (fun a => { s with shards := s.shards.set i a }) = some t → Does hash s (.shard i x) t := by
        intro hx hb
        rw [Option.map_eq_some_iff] at hb
        obtain ⟨b, hb, rfl⟩ := hb
        exact .inside i a b x ha (inside_same (ShardActor.step_does hb) hx)
      cases x with
      | start | spawn | push task => simp [step, ha] at h
      | done =>
        cases hw : a.worker with
        | executing task =>
          simp only [step, ha, hw, ShardActor.step, Option.map_some, Option.some.injEq] at h
          subst h
          exact .done i a task ha hw
        | none | waiting | returned | joined => simp [step, ha, hw, ShardActor.step] at h
      | stop => exact hinside (.inl rfl) (by simpa only [step, ha] using h)
      | join => exact hinside (.inr (.inl rfl)) (by simpa only [step, ha] using h)
      | take => exact hinside (.inr (.inr (.inl rfl))) (by simpa only [step, ha] using h)
      | leave => exact hinside (.inr (.inr (.inr rfl))) (by simpa only [step, ha] using h)
  | clear =>
    simp only [step] at h
    split at h
    · rename_i hs
      obtain rfl := Option.some.inj h
      exact .clear hs
    · cases h
  | crash made shard_count options =>
    simp only [step] at h
    split at h
    · rename_i hm
      obtain rfl := Option.some.inj h
      exact .crash made shard_count options hm
    · cases h

/-! ## The order of the requests -/

/-- The requests that were submitted and are not answered yet. -/
def waiting (s : Sharded) : List Task := s.shards.flatMap fun a => a.current ++ a.tasks

end Sharded

def Happened.task? : Happened → Option Task
  | .did task _ => some task
  | .crashed _ _ => none

/-- The requests for a queue. -/
def mine (q : Path) (tasks : List Task) : List Task := tasks.filter (·.request.queue = q)

/-- All that a flattened list holds comes from one place. -/
theorem flatMap_one {α β : Type} {f : α → List β} {l : List α} {i : Nat} (h : ∀ j a, l[j]? = some a → j ≠ i → f a = []) :
    l.flatMap f = ((l[i]?).map f).getD [] := by
  induction l generalizing i with
  | nil => simp
  | cons a l ih =>
    rw [List.flatMap_cons]
    cases i with
    | zero =>
      have hrest : l.flatMap f = [] := by
        rw [List.flatMap_eq_nil_iff]
        intro b hb
        obtain ⟨j, hj⟩ := List.getElem?_of_mem hb
        exact h (j + 1) b (by rw [List.getElem?_cons_succ, hj]) (Nat.succ_ne_zero j)
      rw [hrest, List.append_nil]
      rfl
    | succ i =>
      have hfirst : f a = [] := h 0 a rfl (Nat.succ_ne_zero i).symm
      rw [hfirst, List.nil_append, List.getElem?_cons_succ]
      apply ih
      intro j b hj hne
      exact h (j + 1) b (by rw [List.getElem?_cons_succ, hj]) fun heq => hne (Nat.succ.inj heq)

namespace Sharded

def done (s : Sharded) : List Task := s.history.filterMap Happened.task?

/-- Every request is at the shard of its queue. -/
def Routed (hash : Path → UInt64) (s : Sharded) : Prop :=
  ∀ i a, s.shards[i]? = some a → ∀ t ∈ a.current ++ a.tasks, shardForQueue hash s.shard_count t.request.queue = i

theorem Routed.mine {hash : Path → UInt64} {s : Sharded} (h : s.Routed hash) (q : Path) :
    Engine.mine q s.waiting =
      ((s.shards[shardForQueue hash s.shard_count q]?).map fun a => Engine.mine q (a.current ++ a.tasks)).getD [] := by
  unfold waiting Engine.mine
  rw [List.filter_flatMap]
  apply flatMap_one
  intro j a ha hne
  rw [List.filter_eq_nil_iff]
  intro t ht hq
  apply hne
  rw [← h j a ha t ht, of_decide_eq_true hq]

/-- The requests for a queue are answered in the order in which they were called, those
that wait in that order behind them. -/
structure Inv (hash : Path → UInt64) (s : Sharded) : Prop where
  placed : Placed s.engine
  routed : s.Routed hash
  order : ∀ q, (mine q s.done ++ mine q s.waiting).Sublist (mine q s.called)

section inv

variable {hash : Path → UInt64} {s t : Sharded} {x : Step}

theorem Inv.done (h : s.Inv hash) (q : Path) : (mine q s.done).Sublist (mine q s.called) :=
  (List.sublist_append_left _ _).trans (h.order q)

/-- What waits was called. -/
theorem Inv.called (h : s.Inv hash) {task : Task} (ht : task ∈ s.waiting) : task ∈ s.called := by
  have hmine : task ∈ mine task.request.queue s.waiting := List.mem_filter.2 ⟨ht, by simp⟩
  exact (List.mem_filter.1 ((h.order task.request.queue).subset (List.mem_append_right _ hmine))).1

theorem executing_waiting {task : Task} (h : task ∈ s.executing) : task ∈ s.waiting := by
  obtain ⟨a, ha, hmem⟩ := List.mem_flatMap.1 h
  exact List.mem_flatMap.2 ⟨a, ha, List.mem_append_left _ hmem⟩

/-- One shard is set. -/
theorem Routed.set {i : Nat} {b : ShardActor Task} (h : s.Routed hash)
    (hb : ∀ t ∈ b.current ++ b.tasks, shardForQueue hash s.shard_count t.request.queue = i) :
    Routed hash { s with shards := s.shards.set i b } := by
  intro j c hc t ht
  dsimp only at hc
  rw [List.getElem?_set] at hc
  split at hc
  · rename_i hij
    split at hc
    · obtain rfl := Option.some.inj hc
      rw [← hij]
      exact hb t ht
    · cases hc
  · exact h j c hc t ht

theorem Does.called (hd : Does hash s x t) : ∀ task ∈ s.called, task ∈ t.called := by
  intro task ht
  cases hd with
  | call task' a hok ha => exact List.mem_append_left _ ht
  | zero | start | refuse | done | inside | clear | crash => exact ht

end inv

end Sharded

/-! ## The files of a queue -/

/-- A file of the queue or of one of its groups. -/
def InQueue (q : Path) (p : Path) : Prop := OfQueue q p ∨ ∃ g : CString, 47 ∉ g.1 ∧ OfGroup q g p

theorem Owned.inQueue {q : Path} {g : CString} (hg : 47 ∉ g.1) {p : Path} (h : Owned q g p) : InQueue q p := by
  rcases h with h | h
  · exact .inl h
  · exact .inr ⟨g, hg, h⟩

theorem InQueue.name {q q' : Path} {p : Path} (h : InQueue q p) (h' : InQueue q' p) (hq : Plain q) (hq' : Plain q') : q = q' := by
  rcases h with h | ⟨g, hg, h⟩
  · rcases h' with h' | ⟨g', -, h'⟩
    · exact h.name h' hq hq'
    · exact absurd h' h.not_ofGroup
  · rcases h' with h' | ⟨g', hg', h'⟩
    · exact absurd h h'.not_ofGroup
    · exact (h.names h' hq hq' hg hg').1

/-- A request changes files of its queue only. -/
theorem perform_inQueue {e : QueueEngine} (hp : Placed e) (env : Env) {r : Request} (hn : r.Named) :
    ∃ calls, (perform env e r).2.fs = e.fs.after calls ∧ Within (InQueue r.queue) calls := by
  obtain ⟨g, hg, hr⟩ : ∃ g : CString, 47 ∉ g.1 ∧ Concerns r.queue g r := by
    cases hgroup : r.group? with
    | none => exact ⟨emptyString, by simp [emptyString], rfl, .inl hgroup⟩
    | some g => exact ⟨g, hn.group g hgroup, rfl, .inr hgroup⟩
  obtain ⟨calls, hd⟩ := perform_local (SameFor.refl r.queue g e) hp env hr
  exact ⟨calls, hd.left, hd.within.mono fun p h => h.inQueue hg⟩

namespace Sharded

theorem callsFor_eq {env : Env} {e : QueueEngine} {r : Request} {calls : List Call} (h : (perform env e r).2.fs = e.fs.after calls) :
    callsFor env e r = calls := by
  rw [callsFor, h]
  exact List.drop_left

/-! ## What a group notices -/

/-- A crash as the group sees it: in the middle of a request of its own, or of none. -/
def seesCrash (q : Path) (g : CString) (midway : Option (Task × Nat)) (options : EngineOptions) : Event :=
  match midway with
  | none => restart options
  | some (task, k) => if Concerns q g task.request then .kill task.env task.request k options else restart options

def sees (q : Path) (g : CString) : Happened → Option Event
  | .did task _ => if Concerns q g task.request then some (.request task.env task.request) else none
  | .crashed midway options => some (seesCrash q g (midway.find? (·.1.request.queue = q)) options)

/-- What the group is answered, nothing by a crash. -/
def told (q : Path) (g : CString) : Happened → Option (Option Response)
  | .did task response => if Concerns q g task.request then some (some response) else none
  | .crashed _ _ => some none

/-- The engine that does one thing after the other has given the group the same
answers, and looks the same to it. -/
structure Sim (q : Path) (g : CString) (start : QueueEngine) (s : Sharded) : Prop where
  state : Matches q g s.engine (Purge.run serve start (s.history.filterMap (sees q g)))
  answers : s.history.filterMap (told q g) = Purge.answers serve some start (s.history.filterMap (sees q g))

section sim

variable {hash : Path → UInt64} {s t : Sharded} {x : Step} {q : Path} {g : CString} {start : QueueEngine}

/-- Something happens that the group notices. -/
theorem Sim.shown (h : Sim q g start s) {y : Happened} {event : Event} {answer : Option Response} (hs : sees q g y = some event)
    (ht : told q g y = some answer) (hhist : t.history = s.history ++ [y])
    (hans : answer = (serve (Purge.run serve start (s.history.filterMap (sees q g))) event).1)
    (hmatch : Matches q g t.engine (serve (Purge.run serve start (s.history.filterMap (sees q g))) event).2) : Sim q g start t := by
  have hlist : t.history.filterMap (sees q g) = s.history.filterMap (sees q g) ++ [event] := by
    rw [hhist, List.filterMap_append, List.filterMap_cons_some hs]
    rfl
  have htold : t.history.filterMap (told q g) = s.history.filterMap (told q g) ++ [answer] := by
    rw [hhist, List.filterMap_append, List.filterMap_cons_some ht]
    rfl
  refine ⟨?_, ?_⟩
  · rw [hlist, Purge.run_append]
    exact hmatch
  · rw [hlist, htold, Purge.answers_append, h.answers, hans]
    rfl

/-- Something happens that the group does not notice. -/
theorem Sim.hidden (h : Sim q g start s) {y : Happened} (hs : sees q g y = none) (ht : told q g y = none)
    (hhist : t.history = s.history ++ [y])
    (hmatch : Matches q g t.engine (Purge.run serve start (s.history.filterMap (sees q g)))) : Sim q g start t := by
  have hlist : t.history.filterMap (sees q g) = s.history.filterMap (sees q g) := by
    rw [hhist, List.filterMap_append, List.filterMap_cons_none hs, List.filterMap_nil, List.append_nil]
  have htold : t.history.filterMap (told q g) = s.history.filterMap (told q g) := by
    rw [hhist, List.filterMap_append, List.filterMap_cons_none ht, List.filterMap_nil, List.append_nil]
  exact ⟨by rw [hlist]; exact hmatch, by rw [hlist, htold, h.answers]⟩

theorem Sim.same (h : Sim q g start s) (hhist : t.history = s.history) (he : t.engine = s.engine) : Sim q g start t :=
  ⟨by rw [hhist, he]; exact h.state, by rw [hhist]; exact h.answers⟩

/-- What a queue's files show after calls for several requests were made: those for its own. -/
theorem crash_files (hp : Placed s.engine) (hn : ∀ task ∈ s.executing, task.request.Named) (hq : Plain q)
    {made : List (Path × Call)} (hmade : ∀ y ∈ made, callsOf y.1 made <+: s.pendingCalls y.1) {p : Path} (hfile : InQueue q p) :
    (s.engine.fs.after (made.map (·.2))).disk p = (s.engine.fs.after (callsOf q made)).disk p := by
  rw [Fs.disk_after, Fs.disk_after]
  refine foldl_exec_owned (fun q p => Plain q ∧ InQueue q p) ?_ ?_ s.engine.fs.disk q ⟨hq, hfile⟩
  · rintro k k' p ⟨hk, hf⟩ ⟨hk', hf'⟩
    exact hf.name hf' hk hk'
  · intro y hy p' hmem
    have hcall : y.2 ∈ callsOf y.1 made := List.mem_map.2 ⟨y, List.mem_filter.2 ⟨hy, by simp⟩, rfl⟩
    have hpend := (hmade y hy).subset hcall
    unfold pendingCalls at hpend
    split at hpend
    · cases hpend
    · rename_i task hfind
      have hname := hn task (List.mem_of_find?_eq_some hfind)
      have hqueue : task.request.queue = y.1 := by simpa using List.find?_some hfind
      obtain ⟨calls, hafter, hwithin⟩ := perform_inQueue hp task.env hname
      rw [callsFor_eq hafter] at hpend
      rw [← hqueue]
      exact ⟨hname.queue, hwithin _ hpend p' hmem⟩

/-- After a crash the group finds its files as if its own request had been cut short
with nothing else going on. -/
theorem Sim.crash (h : Sim q g start s) (hi : s.Inv hash) (hn : ∀ task ∈ s.called, task.request.Named) (hq : Plain q) (hg : 47 ∉ g.1)
    {made : List (Path × Call)} {shard_count : UInt32} {options : EngineOptions}
    (hmade : ∀ y ∈ made, callsOf y.1 made <+: s.pendingCalls y.1) :
    Sim q g start
      { s with
        shard_count
        engine := { options, fs := s.engine.fs.after (made.map (·.2)) }
        shards := []
        history := s.history ++ [.crashed (s.executing.map fun t => (t, (callsOf t.request.queue made).length)) options] } := by
  have hnamed : ∀ task ∈ s.executing, task.request.Named := fun task ht => hn task (hi.called (executing_waiting ht))
  have hfiles : ∀ p, Owned q g p → (s.engine.fs.after (made.map (·.2))).disk p = (s.engine.fs.after (callsOf q made)).disk p :=
    fun p hp => crash_files hi.placed hnamed hq hmade (hp.inQueue hg)
  have hprefix : callsOf q made <+: s.pendingCalls q := by
    by_cases hmem : ∃ y ∈ made, y.1 = q
    · obtain ⟨y, hy, rfl⟩ := hmem
      exact hmade y hy
    · have hnil : callsOf q made = [] := by
        rw [callsOf, List.filter_eq_nil_iff.2 fun y hy hyq => hmem ⟨y, hy, of_decide_eq_true hyq⟩]
        rfl
      rw [hnil]
      exact List.nil_prefix
  refine h.shown rfl rfl rfl ?_ ?_
  · unfold seesCrash
    split
    · rfl
    · split
      · rfl
      · rfl
  -- The request for the queue that a worker was at.
  have hfind : (s.executing.map fun t => (t, (callsOf t.request.queue made).length)).find? (·.1.request.queue = q) =
      (s.executing.find? (·.request.queue = q)).map fun t => (t, (callsOf t.request.queue made).length) := by
    rw [List.find?_map]
    rfl
  rw [hfind]
  unfold pendingCalls at hprefix
  cases hexec : s.executing.find? (·.request.queue = q) with
  | none =>
    rw [hexec] at hprefix
    have hnil : callsOf q made = [] := List.prefix_nil.1 hprefix
    change Matches q g _ (serve _ (restart options)).2
    rw [serve_restart]
    apply matches_restart
    intro p hp
    rw [hfiles p hp, hnil, Fs.after_nil, h.state.same.files p hp]
  | some task =>
    have hmem := List.mem_of_find?_eq_some hexec
    have hqueue : task.request.queue = q := by simpa using List.find?_some hexec
    rw [hexec] at hprefix
    by_cases hr : Concerns q g task.request
    · obtain ⟨calls, hd⟩ := perform_local h.state.same h.state.left task.env hr
      have hcalls : callsOf q made = calls.take (callsOf q made).length := by
        rw [← callsFor_eq hd.left]
        exact List.prefix_iff_eq_take.1 hprefix
      simp only [Option.map_some, seesCrash, if_pos hr, hqueue]
      rw [serve_kill hd.right]
      apply matches_restart
      intro p hp
      rw [hfiles p hp, hcalls, List.length_take_of_le (by rw [← callsFor_eq hd.left]; exact hprefix.length_le)]
      exact hd.files h.state.same _ p hp
    · obtain ⟨calls, hafter, hwithin, -⟩ := perform_other h.state.left hq hg task.env (hnamed task hmem) hr
      dsimp only at hprefix
      rw [callsFor_eq hafter] at hprefix
      simp only [Option.map_some, seesCrash, if_neg hr]
      rw [serve_restart]
      apply matches_restart
      intro p hp
      have hspares := (hwithin.sublist hprefix.sublist).spares (not_not.2 hp)
      rw [hfiles p hp, Fs.disk_after, foldl_spares hspares, h.state.same.files p hp]

end sim

end Sharded

end PomaiQueue.Engine
