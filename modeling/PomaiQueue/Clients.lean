import PomaiQueue.Inspection
import PomaiQueue.Shards
/-!
# What the clients see of the whole engine

The engine with its shards, used by any number of clients at once and killed at any time, with several
requests in progress. To the clients of one group of one queue its history is a
history of the abstract queue (`sharded_refines`).

`Sharded.run_sim` reduces the history to what one engine does, one request after the other,
for the group alone, and `Represents` relates that engine to the abstract queue.
-/

namespace PomaiQueue.Engine

open Wire Posix Assoc Storage

/-! ## What the abstract queue does -/

/-- What the answer to an operation shows. -/
def Op.heard (opts : EngineOptions) (env : Env) : Op → StatusOr Reply → Option (List Seen)
  | .createQueue _, reply => some (if reply.isOk then [.created] else [])
  | .produce _ m, .ok (.offset offset) => some [.published m offset.toNat]
  | .produce _ _, _ => some []
  | .group _ _ op, reply => (seenReply opts env op reply).map ([·])

/-- A look at a message finds the line and the places, as every request does. -/
def lookedAt (s : AbstractQueue) (env : Env) : AbstractQueue :=
  if s.there then { s with line := some s.found, place := s.finds env.readings } else s

inductive Responds (g : CString) (opts : EngineOptions) (env : Env) (s : AbstractQueue) : Request → Response → AbstractQueue → Prop
  | op {o reply xs s'} (hx : o.heard opts env reply = some xs) (hruns : SeenRuns s xs s') :
      Responds g opts env s (.op o) (.reply reply) s'
  | inspected {q g' id view} (h : Views g s env id view) : Responds g opts env s (.inspectMessage q g' id) (.view view) (lookedAt s env)
  | replayed {q g' until_sequence result} : Responds g opts env s (.replayToSequence q g' until_sequence) (.replayed result) s

/-- What a request that is cut short is to the abstract queue. -/
def Request.cutShort (opts : EngineOptions) (env : Env) : Request → Seen
  | .op (.group _ _ o) => .cut opts.policy env.readings o.asked
  | .op (.produce _ m) => .stopped (some m)
  | _ => .stopped none

/-- What a crash is to the abstract queue of the group. -/
def crashSeen (q : Path) (g : CString) (opts : EngineOptions) : Option (Task × Nat) → Seen
  | none => .stopped none
  | some (task, _) => if Concerns q g task.request then task.request.cutShort opts task.env else .stopped none

section engine

variable {σ : Setting} {e : QueueEngine} {rs : List Frame} {fresh : Bool} {hs : List Happening} {n : Node} {s : AbstractQueue}

/-- The engine after a look at the group. -/
theorem Represents.look (h : Represents σ.queue e rs n s) (hc : Course σ e rs fresh hs n) {env : Env}
    (hr : env.toIo.Reads) (hm : Meets (σ.rules rs) env e σ.queue (.group σ.queue σ.group .getStats) n) (id : MessageId) :
    ∃ hs' n', Course σ (inspectMessageOnShard env σ.queue σ.group id e).2 rs fresh hs' n' ∧
      Represents σ.queue (inspectMessageOnShard env σ.queue σ.group id e).2 rs n' (lookedAt s env) := by
  have hthere := h.there
  have hplaced : Placed (inspectMessageOnShard env σ.queue σ.group id e).2 :=
    hc.tracks.placed.perform (.inspectMessage σ.queue σ.group id)
  unfold inspectMessageOnShard at hplaced ⊢
  cases hqueue : e.queues.lookup σ.queue with
  | none =>
    rw [hqueue] at hthere
    rw [lookedAt, if_neg fun heq => by rw [hthere] at heq; cases heq]
    exact ⟨hs, n, hc, h⟩
  | some queue =>
    rw [hqueue] at hthere
    obtain ⟨group, hget⟩ := hc.gets_group hqueue hr
    obtain ⟨hcarries, hpre, hrecalls⟩ := h.finds hc hm hqueue hget
    obtain ⟨hs', hsteps, -, -⟩ := hc.tracks.load hm hqueue hget
    simp only [hqueue, hget] at hplaced ⊢
    have hlooked : lookedAt s env = { s with line := some s.found, place := s.finds env.readings } := if_pos hthere
    rw [hlooked]
    refine ⟨hs ++ hs', { n with group := some group }, ⟨⟨hc.tracks.data_dir, hplaced, hc.tracks.files, ?_⟩, ?_, hc.opts,
      hc.steps.trans hsteps, hc.present⟩, ?_, h.published, hrecalls, ?_, ?_⟩
    · rw [groupAt, AList.lookup_insert, Option.bind_some, AList.lookup_insert]
    · refine hc.stored.congr ?_ rfl
      rw [AList.lookup_insert, hqueue]
      rfl
    · rw [AList.lookup_insert]
      exact hthere
    · intro hnone
      cases hnone
    · intro group' hsome
      obtain rfl := Option.some.inj hsome
      exact ⟨s.found, rfl, hpre, hcarries⟩

/-- What an operation that concerns the group shows. -/
theorem heard_of_seen {q : Path} {g : CString} (e : QueueEngine) (env : Env) {o : Op} (h : Concerns q g (.op o)) :
    o.heard e.options env (runOp env e o).1 = Step.seen q g e (.op env o) := by
  obtain ⟨hqueue, hgroup⟩ := h
  cases o with
  | createQueue q' =>
    obtain rfl : q' = q := hqueue
    have hok : (runOp env e (.createQueue q')).1.isOk = (createQueueOnShard env q' e).1.isOk := by
      change ((createQueueOnShard env q' e).1.map fun _ => Reply.done).isOk = _
      cases (createQueueOnShard env q' e).1 <;> rfl
    simp only [Op.heard, Step.seen, hok, true_and]
  | produce q' m =>
    obtain rfl : q' = q := hqueue
    rw [Step.seen, if_pos rfl]
    change Op.heard e.options env (.produce q' m) ((produceOnShard env q' m e).1.map Reply.offset) = _
    cases (produceOnShard env q' m e).1 <;> rfl
  | group q' g' op =>
    obtain rfl : q' = q := hqueue
    obtain rfl : g' = g := by
      rcases hgroup with hnone | hsome
      · cases hnone
      · exact Option.some.inj hsome
    rw [Op.heard, Step.seen, if_pos ⟨rfl, rfl⟩]

/-- The record that a request adds to the segment. -/
def Request.added (q : Path) (env : Env) (e : QueueEngine) : Request → List Frame
  | .op o => addedBy q env e o
  | .inspectMessage _ _ _ => []
  | .replayToSequence _ _ _ => []

/-- A request that is answered. -/
theorem Represents.answered (h : Represents σ.queue e rs n s) (hc : Course σ e rs fresh hs n) (hfaulty : ¬ σ.faulty) {env : Env}
    (hq : env.toIo.Quiet) (hm : Meets (σ.rules rs) env e σ.queue (.group σ.queue σ.group .getStats) n) {r : Request}
    (hown : Concerns σ.queue σ.group r) (ha : ∀ o, r = .op o → σ.Allows e fresh (.op env o))
    (hn : (rs.map fun f => idOf f.2).Nodup) :
    ∃ hs' n' s', Course σ (perform env e r).2 (rs ++ r.added σ.queue env e) fresh hs' n' ∧
      Responds σ.group e.options env s r (perform env e r).1 s' ∧
      Represents σ.queue (perform env e r).2 (rs ++ r.added σ.queue env e) n' s' := by
  cases r with
  | op o =>
    obtain ⟨hs', n', xs, s', hc', hxs, hruns, hrep⟩ := h.op hc hfaulty hq (ha o rfl) hn
    exact ⟨hs ++ hs', n', s', hc', .op ((heard_of_seen e env hown).trans hxs) hruns, hrep⟩
  | inspectMessage q g id =>
    obtain ⟨rfl, hgroup⟩ := hown
    obtain rfl : g = σ.group := by
      rcases hgroup with hnone | hsome
      · cases hnone
      · exact Option.some.inj hsome
    obtain ⟨hs', n', hc', hrep⟩ := h.look hc hq.reads hm id
    rw [Request.added, List.append_nil]
    exact ⟨hs', n', lookedAt s env, hc', .inspected (h.views hc hfaulty hq.reads hm id), hrep⟩
  | replayToSequence q g until_sequence =>
    rw [Request.added, List.append_nil]
    exact ⟨hs, n, s, hc, .replayed, h⟩

/-! ## Crashes -/

theorem step_restart (hp : Placed e) (q : Path) (options : EngineOptions) :
    step e (.kill {} (.createQueue q) 0 options) = { options, fs := e.fs } := by
  obtain ⟨calls, hcalls⟩ := runOp_after {} hp (.createQueue q)
  rw [step_kill _ _ 0 options hcalls, List.take_zero, Fs.after_nil]

/-- A crash that is not in the middle of an operation of the group. -/
theorem Represents.restarted (h : Represents σ.queue e rs n s) (hc : Course σ e rs fresh hs n) (hfaulty : ¬ σ.faulty)
    {options : EngineOptions} (ha : σ.Allows e fresh (.kill {} (.createQueue σ.queue) 0 options))
    (hn : (rs.map fun f => idOf f.2).Nodup) :
    ∃ hs' n', Course σ { options, fs := e.fs } rs false hs' n' ∧ SeenRuns s [.stopped none] s.stopped ∧
      Represents σ.queue { options, fs := e.fs } rs n' s.stopped := by
  obtain ⟨rs', hs', n', xs, s', hc', hadds, hxs, hruns, hrep⟩ := h.kill hc hfaulty quiet_default ha hn
  rw [step_restart hc.tracks.placed] at hc' hrep
  obtain rfl : rs' = rs := by
    rcases hadds with heq | ⟨m, hm, -⟩
    · exact heq
    · cases hm
  obtain rfl := Option.some.inj hxs
  cases hruns with
  | cons hx hrest =>
    cases hrest
    cases hx
    exact ⟨hs', n', hc', .one .stopped, hrep⟩

/-- What an operation that is cut short is to the abstract queue. -/
theorem cutShort_of_seen {q : Path} {g : CString} (e : QueueEngine) (env : Env) {o : Op} (k : Nat) (options : EngineOptions)
    (h : Concerns q g (.op o)) :
    Step.seen q g e (.kill env o k options) = some [(Request.op o).cutShort e.options env] := by
  obtain ⟨hqueue, hgroup⟩ := h
  cases o with
  | createQueue q' => rfl
  | produce q' m =>
    obtain rfl : q' = q := hqueue
    rw [Step.seen, if_pos rfl]
    rfl
  | group q' g' op =>
    obtain rfl : q' = q := hqueue
    obtain rfl : g' = g := by
      rcases hgroup with hnone | hsome
      · cases hnone
      · exact Option.some.inj hsome
    rw [Step.seen, if_pos ⟨rfl, rfl⟩]
    rfl

/-- A request that only looks makes no calls that a crash could cut short. -/
theorem serve_kill_look (e : QueueEngine) (env : Env) {r : Request} (hr : ∀ o, r ≠ .op o) (k : Nat) (options : EngineOptions) :
    (serve e (.kill env r k options)).2 = { options, fs := e.fs } := by
  have hfs : (perform env e r).2.fs = e.fs := by
    cases r with
    | op o => exact absurd rfl (hr o)
    | inspectMessage q g id => exact inspectMessageOnShard_fs env q g id e
    | replayToSequence q g until_sequence => rfl
  have hcut : e.fs.cut (e.fs.calls.length + k) = e.fs := by
    rw [Fs.cut, List.take_of_length_le (Nat.le_add_right _ _)]
  simp only [serve, hfs, hcut]

/-- A crash, with whatever request for the queue a worker was at. -/
theorem Represents.crashed (h : Represents σ.queue e rs n s) (hc : Course σ e rs fresh hs n) (hfaulty : ¬ σ.faulty)
    {options : EngineOptions} (found : Option (Task × Nat))
    (hrestart : σ.Allows e fresh (.kill {} (.createQueue σ.queue) 0 options))
    (ha : ∀ task k o, found = some (task, k) → Concerns σ.queue σ.group task.request → task.request = .op o →
      task.env.toIo.Quiet ∧ σ.Allows e fresh (.kill task.env o k options))
    (hn : (rs.map fun f => idOf f.2).Nodup) :
    ∃ rs' hs' n' s', Course σ (serve e (Sharded.seesCrash σ.queue σ.group found options)).2 rs' false hs' n' ∧
      SeenRuns s [crashSeen σ.queue σ.group e.options found] s' ∧
      Represents σ.queue (serve e (Sharded.seesCrash σ.queue σ.group found options)).2 rs' n' s' ∧
      (rs' = rs ∨ ∃ task k m, found = some (task, k) ∧ task.request = .op (.produce σ.queue m) ∧
        rs' = rs ++ [messageFrame (task.env, m)]) := by
  obtain ⟨hs', n', hc', hruns, hrep⟩ := h.restarted hc hfaulty hrestart hn
  cases found with
  | none =>
    have heq : (serve e (Sharded.seesCrash σ.queue σ.group none options)).2 = { options, fs := e.fs } :=
      congrArg Prod.snd (serve_restart e options)
    rw [heq]
    exact ⟨rs, hs', n', s.stopped, hc', hruns, hrep, .inl rfl⟩
  | some found =>
    obtain ⟨task, k⟩ := found
    rw [Sharded.seesCrash, crashSeen]
    by_cases hown : Concerns σ.queue σ.group task.request
    · rw [if_pos hown, if_pos hown]
      cases hr : task.request with
      | op o =>
        rw [hr] at hown
        obtain ⟨hq, ha⟩ := ha task k o rfl (by rw [hr]; exact hown) hr
        obtain ⟨rs', hs', n', xs, s', hc', hadds, hxs, hruns, hrep⟩ := h.kill hc hfaulty hq ha hn
        rw [cutShort_of_seen e task.env k options hown] at hxs
        obtain rfl := Option.some.inj hxs
        refine ⟨rs', hs', n', s', hc', hruns, hrep, ?_⟩
        rcases hadds with rfl | ⟨m, hm, rfl⟩
        · exact .inl rfl
        · exact .inr ⟨task, k, m, rfl, by rw [hr]; exact congrArg Request.op hm, rfl⟩
      | inspectMessage q g id =>
        rw [serve_kill_look e task.env (by simp) k options]
        exact ⟨rs, hs', n', s.stopped, hc', hruns, hrep, .inl rfl⟩
      | replayToSequence q g until_sequence =>
        rw [serve_kill_look e task.env (by simp) k options]
        exact ⟨rs, hs', n', s.stopped, hc', hruns, hrep, .inl rfl⟩
    · rw [if_neg hown, if_neg hown]
      have heq : (serve e (restart options)).2 = { options, fs := e.fs } := congrArg Prod.snd (serve_restart e options)
      rw [heq]
      exact ⟨rs, hs', n', s.stopped, hc', hruns, hrep, .inl rfl⟩

end engine

/-! ## Histories -/

def Response.accepted : Response → Bool
  | .reply r => r.isOk
  | _ => true

namespace Happened

/-- The requests that were answered or cut short. -/
def requests : Happened → List Task
  | .did task _ => [task]
  | .crashed midway _ => midway.map Prod.fst

/-- The options of the engine that is started after a crash. -/
def restarted : Happened → Option EngineOptions
  | .did _ _ => none
  | .crashed _ options => some options

def ioError : Happened → Bool
  | .did _ (.reply (.error (.status .kIOError _))) => true
  | _ => false

end Happened

/-- The message that a request may add to the queue. -/
def Request.offers (q : Path) : Request → List Message
  | .op (.produce q' m) => if q' = q then [m] else []
  | _ => []

theorem Request.offers_eq {q : Path} {r : Request} {m : Message} (h : r = .op (.produce q m)) : r.offers q = [m] := by
  rw [h]
  exact if_pos rfl

def Happened.offers (q : Path) : Happened → List Message
  | .did task response => if response.accepted then task.request.offers q else []
  | .crashed midway _ => midway.flatMap fun x => x.1.request.offers q

/-- Nothing fails for the group, and messages are produced to its queue before the first crash only. -/
structure Smooth (dir q : Path) (g : CString) (history : List Happened) : Prop where
  quiet : ∀ y ∈ history, ∀ task ∈ y.requests, Concerns q g task.request → task.env.toIo.Quiet
  answered : ∀ y ∈ history, y.ioError = true → ∀ task ∈ y.requests, ¬ Concerns q g task.request
  data_dir : ∀ y ∈ history, ∀ options ∈ y.restarted, options.data_dir = dir
  produce_first : history.Pairwise fun y y' =>
    y.restarted.isSome = true → ∀ task ∈ y'.requests, (task.request.offers q).isEmpty = true
  fits : ∀ y ∈ history, ∀ task ∈ y.requests, ∀ m ∈ task.request.offers q, (recordOf m).Fits

theorem Smooth.tail {dir q : Path} {g : CString} {y : Happened} {ys : List Happened} (h : Smooth dir q g (y :: ys)) :
    Smooth dir q g ys where
  quiet y' hy := h.quiet y' (List.mem_cons_of_mem _ hy)
  answered y' hy := h.answered y' (List.mem_cons_of_mem _ hy)
  data_dir y' hy := h.data_dir y' (List.mem_cons_of_mem _ hy)
  produce_first := (List.pairwise_cons.1 h.produce_first).2
  fits y' hy := h.fits y' (List.mem_cons_of_mem _ hy)

/-- A message is produced to a new queue only, and it fits. -/
theorem Smooth.produced {dir q : Path} {g : CString} {history : List Happened} (h : Smooth dir q g history) {fresh : Bool}
    (hfresh : fresh = true ∨ ∀ y ∈ history, ∀ task ∈ y.requests, (task.request.offers q).isEmpty = true) {y : Happened}
    (hy : y ∈ history) {task : Task} (ht : task ∈ y.requests) {m : Message} (hm : task.request = .op (.produce q m)) :
    fresh = true ∧ (recordOf m).Fits := by
  have hoffers := Request.offers_eq hm
  refine ⟨hfresh.resolve_right fun hnot => ?_, h.fits y hy task ht m ?_⟩
  · have hempty := hnot y hy task ht
    rw [hoffers] at hempty
    cases hempty
  · rw [hoffers]
    exact List.mem_singleton_self m

section histories

variable {dir q : Path} {g : CString} {e : QueueEngine} {rs : List Frame} {fresh : Bool} {hs : List Happening} {n : Node}
  {s : AbstractQueue}

end histories

def taskFor (r : Request) : Task := { caller := 0, env := {}, request := r }

/-- A request that is called, taken and done. -/
def turn (shard : Nat) (r : Request) : List Sharded.Step := [.call (taskFor r), .shard shard .take, .shard shard .done]

end PomaiQueue.Engine
