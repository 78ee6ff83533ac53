import Mathlib.Data.List.Induction
/-!
# The mailbox of a shard

`src/core/engine/shard_actor.cc`: `Start`, `Stop`, `Submit`, `SubmitValue` and
`RunLoop` of one `ShardActor`, with any number of callers. A step is what one
thread does under the mutex, or the call of a task by the worker, which it makes
without the mutex. A run is any interleaving of steps.

`served_iff` says when every task that was pushed is executed by the time the
worker returns: exactly if none is pushed once it has. `RunLoop` empties the queue
before it returns, but nothing keeps `Submit` from pushing afterwards
(`pushed_too_late`).

Trusted: the worker is woken up when there is something to do, and what it waits
for is checked under the mutex. `Start` on an actor whose worker was not joined
ends the process.
-/

namespace PomaiQueue.Engine

/-- Where the worker thread is. -/
inductive Worker (τ : Type)
  | none
  /-- At the top of the loop, or waiting. -/
  | waiting
  | executing (task : τ)
  /-- Out of `RunLoop`. -/
  | returned
  /-- Out of `RunLoop`, and `Stop` has joined it. -/
  | joined
  deriving DecidableEq

/-- The worker has returned from `RunLoop`. -/
def Worker.Returned {τ : Type} : Worker τ → Prop
  | .returned | .joined => True
  | .none | .waiting | .executing _ => False

instance {τ : Type} (w : Worker τ) : Decidable w.Returned := by
  cases w <;> unfold Worker.Returned <;> infer_instance

/-- `pushed` and `executed` are the tasks that were ever pushed and that were
executed, in that order. -/
structure ShardActor (τ : Type) where
  running : Bool := false
  tasks : List τ := []
  worker : Worker τ := .none
  pushed : List τ := []
  executed : List τ := []
  deriving DecidableEq

inductive ShardActor.Step (τ : Type)
  /-- `Start` sets `running_`. -/
  | start
  /-- `Start` creates the thread. -/
  | spawn
  /-- `Stop` clears `running_`. -/
  | stop
  /-- `Stop` joins the thread. -/
  | join
  /-- `Submit` or `SubmitValue`. -/
  | push (task : τ)
  /-- `RunLoop` takes the first task out of the queue. -/
  | take
  /-- `RunLoop` returns. -/
  | leave
  /-- The task that was taken has been executed. -/
  | done

namespace ShardActor

variable {τ : Type}

/-- One step, if the thread it belongs to can make it. -/
def step (a : ShardActor τ) : Step τ → Option (ShardActor τ)
  | .start => some { a with running := true }
  | .spawn =>
    match a.worker with
    | .none | .joined => some { a with worker := .waiting }
    | _ => none
  | .stop => some { a with running := false }
  | .join =>
    match a.worker with
    | .returned => some { a with worker := .joined }
    | _ => none
  | .push task => some { a with tasks := a.tasks ++ [task], pushed := a.pushed ++ [task] }
  | .take =>
    match a.worker, a.tasks with
    | .waiting, task :: tasks => some { a with tasks, worker := .executing task }
    | _, _ => none
  | .leave =>
    match a.worker, a.tasks with
    | .waiting, [] => if a.running then none else some { a with worker := .returned }
    | _, _ => none
  | .done =>
    match a.worker with
    | .executing task => some { a with worker := .waiting, executed := a.executed ++ [task] }
    | _ => none

/-- The state after `steps`, if they can be made one after the other. -/
def run (a : ShardActor τ) (steps : List (Step τ)) : Option (ShardActor τ) := steps.foldlM step a

theorem run_concat (a : ShardActor τ) (steps : List (Step τ)) (s : Step τ) :
    run a (steps ++ [s]) = (run a steps).bind (step · s) := by
  simp [run, List.foldlM_append]

/-- What a step does. -/
inductive Does (a : ShardActor τ) : Step τ → ShardActor τ → Prop
  | start : Does a .start { a with running := true }
  | spawn (hw : a.worker = .none ∨ a.worker = .joined) : Does a .spawn { a with worker := .waiting }
  | stop : Does a .stop { a with running := false }
  | join (hw : a.worker = .returned) : Does a .join { a with worker := .joined }
  | push (task : τ) : Does a (.push task) { a with tasks := a.tasks ++ [task], pushed := a.pushed ++ [task] }
  | take {task : τ} {tasks : List τ} (hw : a.worker = .waiting) (ht : a.tasks = task :: tasks) :
      Does a .take { a with tasks, worker := .executing task }
  | leave (hw : a.worker = .waiting) (ht : a.tasks = []) (hr : a.running = false) : Does a .leave { a with worker := .returned }
  | done {task : τ} (hw : a.worker = .executing task) :
      Does a .done { a with worker := .waiting, executed := a.executed ++ [task] }

theorem step_does {a b : ShardActor τ} {s : Step τ} (h : a.step s = some b) : Does a s b := by
  cases s with
  | start | stop | push task =>
    obtain rfl := Option.some.inj h
    constructor
  | spawn =>
    simp only [step] at h
    split at h
    · rename_i hw
      obtain rfl := Option.some.inj h
      exact .spawn (.inl hw)
    · rename_i hw
      obtain rfl := Option.some.inj h
      exact .spawn (.inr hw)
    · cases h
  | join =>
    simp only [step] at h
    split at h
    · rename_i hw
      obtain rfl := Option.some.inj h
      exact .join hw
    · cases h
  | take =>
    simp only [step] at h
    split at h
    · rename_i hw ht
      obtain rfl := Option.some.inj h
      exact .take hw ht
    · cases h
  | leave =>
    simp only [step] at h
    split at h
    · rename_i hw ht
      split at h
      · cases h
      · rename_i hr
        obtain rfl := Option.some.inj h
        exact .leave hw ht (by simpa using hr)
    · cases h
  | done =>
    simp only [step] at h
    split at h
    · rename_i hw
      obtain rfl := Option.some.inj h
      exact .done hw
    · cases h

/-! ## The order of the tasks -/

/-- The task that is being executed. -/
def current (a : ShardActor τ) : List τ :=
  match a.worker with
  | .executing task => [task]
  | _ => []

/-- Tasks are executed one at a time, in the order in which they were pushed, and
each once at most: what was executed, what is being executed and what waits are
together what was pushed. -/
def InOrder (a : ShardActor τ) : Prop := a.executed ++ a.current ++ a.tasks = a.pushed

theorem Does.inOrder {a b : ShardActor τ} {s : Step τ} (hs : Does a s b) (h : a.InOrder) : b.InOrder := by
  unfold InOrder at h ⊢
  cases hs with
  | start | stop => exact h
  | spawn hw =>
    have hcur : a.current = [] := by
      rcases hw with hw | hw <;> rw [current, hw]
    rwa [hcur] at h
  | join hw =>
    have hcur : a.current = [] := by rw [current, hw]
    rwa [hcur] at h
  | push task =>
    rw [← h, ← List.append_assoc]
    rfl
  | take hw ht =>
    have hcur : a.current = [] := by rw [current, hw]
    rw [hcur, ht, List.append_nil] at h
    rw [← h, List.append_assoc]
    rfl
  | leave hw ht hr =>
    have hcur : a.current = [] := by rw [current, hw]
    rwa [hcur] at h
  | @done task hw =>
    have hcur : a.current = [task] := by rw [current, hw]
    rw [hcur] at h
    rw [← h]
    simp [current]

theorem run_inOrder {steps : List (Step τ)} {a : ShardActor τ} (h : run {} steps = some a) : a.InOrder := by
  induction steps using List.reverseRecOn generalizing a with
  | nil =>
    obtain rfl := Option.some.inj h
    rfl
  | append_singleton steps s ih =>
    rw [run_concat, Option.bind_eq_some_iff] at h
    obtain ⟨b, hb, hs⟩ := h
    exact (step_does hs).inOrder (ih hb)

/-! ## No task is left behind -/

/-- The tasks are executed in order, and once the worker has returned all have been. -/
structure Served (a : ShardActor τ) : Prop where
  order : a.InOrder
  drained : a.worker.Returned → a.executed = a.pushed

/-- A worker that has returned left nothing in the queue, as long as nothing is pushed. -/
theorem Does.empty {a b : ShardActor τ} {s : Step τ} (hs : Does a s b) (h : a.worker.Returned → a.tasks = [])
    (hlate : ∀ task, s = .push task → ¬ a.worker.Returned) : b.worker.Returned → b.tasks = [] := by
  intro hr
  cases hs with
  | start | stop => exact h hr
  | spawn hw => cases hr
  | join hw => exact h (by rw [hw]; trivial)
  | push task => exact absurd hr (hlate task rfl)
  | take hw ht => cases hr
  | leave hw ht hrun => exact ht
  | done hw => cases hr

/-- Every step of the run that pushes a task is made before the worker has returned. -/
def PushesInTime (steps : List (Step τ)) : Prop :=
  ∀ k task b, steps[k]? = some (.push task) → run {} (steps.take k) = some b → ¬ b.worker.Returned

theorem PushesInTime.concat {steps : List (Step τ)} {s : Step τ} (h : PushesInTime (steps ++ [s])) : PushesInTime steps := by
  intro k task b hk hb
  have hlt := (List.getElem?_eq_some_iff.1 hk).1
  refine h k task b ?_ ?_
  · rw [List.getElem?_append_left hlt, hk]
  · rw [List.take_append_of_le_length (Nat.le_of_lt hlt), hb]

theorem run_empty {steps : List (Step τ)} (h : PushesInTime steps) {a : ShardActor τ} (ha : run {} steps = some a) :
    a.worker.Returned → a.tasks = [] := by
  induction steps using List.reverseRecOn generalizing a with
  | nil =>
    obtain rfl := Option.some.inj ha
    exact False.elim
  | append_singleton steps s ih =>
    rw [run_concat, Option.bind_eq_some_iff] at ha
    obtain ⟨b, hb, hs⟩ := ha
    apply (step_does hs).empty (ih h.concat hb)
    intro task hpush
    refine h steps.length task b ?_ ?_
    · rw [hpush, List.getElem?_append_right (Nat.le_refl _), Nat.sub_self]
      rfl
    · rw [List.take_left, hb]

theorem served_of_empty {a : ShardActor τ} (ho : a.InOrder) (he : a.worker.Returned → a.tasks = []) : a.Served := by
  refine ⟨ho, fun hr => ?_⟩
  have hcur : a.current = [] := by
    unfold current
    split
    · rename_i hw
      rw [hw] at hr
      exact hr.elim
    · rfl
  unfold InOrder at ho
  rwa [hcur, he hr, List.append_nil, List.append_nil] at ho

/-- In every run tasks are executed in order and none is left behind in any state
in which the worker has returned, exactly if none is pushed in such a state. -/
theorem served_iff (steps : List (Step τ)) :
    (∀ k b, run {} (steps.take k) = some b → b.Served) ↔ PushesInTime steps := by
  constructor
  · intro hserved k task b hk hb hr
    -- The state after the push has a task that was not executed.
    have hlt := (List.getElem?_eq_some_iff.1 hk).1
    have hnext : run {} (steps.take (k + 1)) = some { b with tasks := b.tasks ++ [task], pushed := b.pushed ++ [task] } := by
      rw [List.take_add_one, hk, Option.toList_some, run_concat, hb]
      rfl
    have hbefore := (hserved k b hb).drained hr
    have hafter := (hserved (k + 1) _ hnext).drained hr
    have hlen := congrArg List.length (hbefore.symm.trans hafter)
    simp at hlen
  · intro htime k b hb
    have hk : PushesInTime (steps.take k) := by
      intro j task c hj hc
      have hlt := (List.getElem?_eq_some_iff.1 hj).1
      rw [List.length_take] at hlt
      refine htime j task c ?_ ?_
      · rw [List.getElem?_take_of_lt (by omega)] at hj
        exact hj
      · rwa [List.take_take, Nat.min_eq_left (by omega)] at hc
    exact served_of_empty (run_inOrder hb) (run_empty hk hb)

/-- A task that comes when the worker has returned. -/
theorem pushed_too_late : ∃ a : ShardActor Nat, run {} [.start, .spawn, .stop, .leave, .push 1] = some a ∧
    a.worker.Returned ∧ a.pushed = [1] ∧ a.executed = [] ∧ ¬ a.Served :=
  ⟨{ worker := .returned, tasks := [1], pushed := [1] }, rfl, trivial, rfl, rfl, fun h => by cases h.drained trivial⟩

end ShardActor

end PomaiQueue.Engine
