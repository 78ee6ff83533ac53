import PomaiQueue.Engine
/-!
# What an operation can do to a group

An operation on a loaded group is a sequence of moves (`groupOp_does`). A move
changes the scheduler, attempts a transition or writes a snapshot. `Fires`
says which transitions can be attempted. Everything about runs is a case
analysis over `Move`, none of it looks at the operations again.

The files see only the moves that act on them (`Act`), and a process that is
killed between two system calls leaves its group's files as if it had been
killed between two of these acts (`Shows`).
-/

namespace PomaiQueue.Engine

open Wire Posix Assoc Storage

/-! ## Acts on the files of a group -/

structure Files where
  events : Path
  state : Path
  apart : events ≠ state ∧ events ≠ tmpPath state

theorem join_getLast? (a b : Path) (h : b ≠ []) : (join a b).getLast? = b.getLast? := by
  obtain ⟨c, hc⟩ := Option.isSome_iff_exists.1 (List.getLast?_isSome.2 h)
  unfold join
  split
  · rfl
  · split
    · rw [List.getLast?_append, hc]; rfl
    · rw [List.getLast?_append, hc]; rfl

theorem groupEventPath_getLast? (dir q : Path) (g : CString) : (groupEventPath dir q g).getLast? = some 115 := by
  rw [groupEventPath, join_getLast? _ _ (by simp [ascii]), List.getLast?_append]
  rfl

theorem groupStatePath_getLast? (dir q : Path) (g : CString) : (groupStatePath dir q g).getLast? = some 101 := by
  rw [groupStatePath, join_getLast? _ _ (by simp [ascii]), List.getLast?_append]
  rfl

theorem segmentPath_getLast? (dir q : Path) : (segmentPath dir q).getLast? = some 103 := by
  rw [segmentPath, join_getLast? _ _ (by simp [ascii])]
  rfl

theorem tmpPath_getLast? (p : Path) : (tmpPath p).getLast? = some 112 := by
  rw [tmpPath, List.getLast?_append]
  rfl

theorem ne_of_getLast? {p p' : Path} {c c' : UInt8} (h : p.getLast? = some c) (h' : p'.getLast? = some c')
    (hne : c ≠ c') : p ≠ p' := by
  rintro rfl
  rw [h] at h'
  exact hne (Option.some.inj h')

/-- The files of a group. The kinds of files of the engine end in different bytes. -/
def groupFiles (dir q : Path) (g : CString) : Files where
  events := groupEventPath dir q g
  state := groupStatePath dir q g
  apart := ⟨ne_of_getLast? (groupEventPath_getLast? dir q g) (groupStatePath_getLast? dir q g) (by decide),
    ne_of_getLast? (groupEventPath_getLast? dir q g) (tmpPath_getLast? _) (by decide)⟩

inductive Act
  | log (event : TransitionEvent)
  | snap (sizes : List Nat) (policy : FsyncPolicy) (data : Bytes)

def Act.calls (files : Files) : Act → List Call
  | .log event => [.creat files.events, .append files.events (encodeEvent event)]
  | .snap sizes policy data => durableCalls sizes files.state data policy

def actCalls (files : Files) (acts : List Act) : List Call := acts.flatMap (Act.calls files)

@[simp] theorem actCalls_nil (files : Files) : actCalls files [] = [] := rfl

@[simp] theorem actCalls_cons (files : Files) (a : Act) (acts : List Act) :
    actCalls files (a :: acts) = a.calls files ++ actCalls files acts := by
  simp [actCalls]

@[simp] theorem actCalls_append (files : Files) (a b : List Act) :
    actCalls files (a ++ b) = actCalls files a ++ actCalls files b := by
  simp [actCalls]

/-- No act touches a file that is none of the group's. -/
theorem act_spares {files : Files} {p : Path} (he : p ≠ files.events) (hs : p ≠ files.state)
    (ht : p ≠ tmpPath files.state) (a : Act) : ∀ c ∈ a.calls files, c.Spares p := by
  cases a with
  | log event =>
    intro c hc
    simp only [Act.calls, List.mem_cons, List.not_mem_nil, or_false] at hc
    rcases hc with rfl | rfl <;> exact he
  | snap sizes policy data =>
    intro c hc
    simp only [Act.calls, durableCalls, List.mem_append, List.mem_singleton] at hc
    rcases hc with (((rfl | hc) | hc) | rfl) | hc
    · exact ht
    · exact writeCalls_spares ht _ _ c hc
    · split at hc
      · rw [List.mem_singleton.1 hc]; trivial
      · cases hc
    · exact ⟨ht, hs⟩
    · split at hc
      · rw [List.mem_singleton.1 hc]; trivial
      · cases hc

theorem actCalls_spares {files : Files} {p : Path} (he : p ≠ files.events) (hs : p ≠ files.state)
    (ht : p ≠ tmpPath files.state) (acts : List Act) : ∀ c ∈ actCalls files acts, c.Spares p := by
  intro c hc
  obtain ⟨a, -, hc⟩ := List.mem_flatMap.1 hc
  exact act_spares he hs ht a c hc

/-! ## What the files show -/

/-- The content of the event log, empty if there is no file, and the snapshot. -/
def view (files : Files) (d : Disk) : Bytes × Option Bytes := ((d files.events).getD [], d files.state)

def Act.onView : Bytes × Option Bytes → Act → Bytes × Option Bytes
  | (events, state), .log event => (events ++ encodeEvent event, state)
  | (events, _), .snap _ _ data => (events, some data)

theorem view_spares {files : Files} {calls : List Call} (h : ∀ c ∈ calls, c.Spares files.events)
    (h' : ∀ c ∈ calls, c.Spares files.state) (d : Disk) : view files (calls.foldl exec d) = view files d := by
  rw [view, foldl_spares h, foldl_spares h', view]

/-- What calls that were made for `acts` leave on the disk: all of them what all
the acts leave, the first of them what a first part of the acts leaves. -/
structure Shows (files : Files) (acts : List Act) (calls : List Call) : Prop where
  all : ∀ d, view files (calls.foldl exec d) = acts.foldl Act.onView (view files d)
  take : ∀ d k, ∃ done rest, acts = done ++ rest ∧
    view files ((calls.take k).foldl exec d) = done.foldl Act.onView (view files d)

/-- Calls that touch neither file. -/
theorem shows_nil {files : Files} {calls : List Call} (h : ∀ d k, view files ((calls.take k).foldl exec d) = view files d) :
    Shows files [] calls := by
  refine ⟨fun d => ?_, fun d k => ⟨[], [], rfl, h d k⟩⟩
  have := h d calls.length
  rwa [List.take_length] at this

theorem Shows.append {files : Files} {a b : List Act} {c d : List Call} (h : Shows files a c) (h' : Shows files b d) :
    Shows files (a ++ b) (c ++ d) := by
  refine ⟨fun disk => ?_, fun disk k => ?_⟩
  · rw [List.foldl_append, h'.all, h.all, List.foldl_append]
  · by_cases hk : k ≤ c.length
    · obtain ⟨done, rest, rfl, hv⟩ := h.take disk k
      exact ⟨done, rest ++ b, by rw [List.append_assoc], by rw [List.take_append_of_le_length hk, hv]⟩
    · obtain ⟨j, rfl⟩ : ∃ j, k = c.length + j := ⟨k - c.length, by omega⟩
      obtain ⟨done, rest, rfl, hv⟩ := h'.take (c.foldl exec disk) j
      refine ⟨a ++ done, rest, by rw [List.append_assoc], ?_⟩
      rw [List.take_length_add_append, List.foldl_append, hv, h.all, List.foldl_append]

theorem shows_log (files : Files) (event : TransitionEvent) :
    Shows files [.log event] [.creat files.events, .append files.events (encodeEvent event)] := by
  have hne : files.state ≠ files.events := files.apart.1.symm
  have hall : ∀ d, view files ([Call.creat files.events, .append files.events (encodeEvent event)].foldl exec d) =
      Act.onView (view files d) (.log event) := by
    intro d
    simp [view, Act.onView, exec, Function.update_of_ne hne]
  refine ⟨hall, fun d k => ?_⟩
  rcases k with _ | _ | k
  · exact ⟨[], _, rfl, rfl⟩
  · exact ⟨[], _, rfl, by simp [view, exec, Function.update_of_ne hne]⟩
  · refine ⟨[.log event], [], rfl, ?_⟩
    rw [List.take_of_length_le (by simp)]
    exact hall d

/-- A snapshot is on the disk from the rename on. -/
theorem shows_snap (files : Files) (sizes : List Nat) (policy : FsyncPolicy) (data : Bytes) {post : List Call}
    (hpost : ∀ c ∈ post, c.Spares files.events ∧ c.Spares files.state) :
    Shows files [.snap sizes policy data]
      (tmpCalls sizes files.state data policy ++ .rename (tmpPath files.state) files.state :: post) := by
  have hpre := tmpCalls_spares files.apart.2 sizes data policy
  have hpre' := tmpCalls_spares (tmpPath_ne files.state) sizes data policy
  have hrename : ∀ d (rest : List Call), (∀ c ∈ rest, c.Spares files.events ∧ c.Spares files.state) →
      view files ((tmpCalls sizes files.state data policy ++ .rename (tmpPath files.state) files.state :: rest).foldl exec d) =
        Act.onView (view files d) (.snap sizes policy data) := by
    intro d rest hrest
    rw [List.foldl_append, List.foldl_cons, view_spares (fun c hc => (hrest c hc).1) (fun c hc => (hrest c hc).2)]
    simp only [view, exec, Act.onView]
    rw [Function.update_of_ne files.apart.2, Function.update_of_ne files.apart.1, foldl_spares hpre,
      Function.update_of_ne (tmpPath_ne _), Function.update_self, foldl_tmpCalls]
  refine ⟨fun d => hrename d post hpost, fun d k => ?_⟩
  by_cases hk : k ≤ (tmpCalls sizes files.state data policy).length
  · refine ⟨[], _, rfl, ?_⟩
    rw [List.take_append_of_le_length hk]
    exact view_spares (fun c hc => hpre c (List.mem_of_mem_take hc)) (fun c hc => hpre' c (List.mem_of_mem_take hc)) d
  · obtain ⟨j, rfl⟩ : ∃ j, k = (tmpCalls sizes files.state data policy).length + (j + 1) :=
      ⟨k - (tmpCalls sizes files.state data policy).length - 1, by omega⟩
    refine ⟨[.snap sizes policy data], [], rfl, ?_⟩
    rw [List.take_length_add_append, List.take_succ_cons]
    exact hrename d _ fun c hc => hpost c (List.mem_of_mem_take hc)

theorem shows_act (files : Files) (a : Act) : Shows files [a] (a.calls files) := by
  cases a with
  | log event => exact shows_log files event
  | snap sizes policy data =>
    have hcalls : durableCalls sizes files.state data policy = tmpCalls sizes files.state data policy ++
        .rename (tmpPath files.state) files.state ::
          if policy ≠ .kNever then [.fsyncDir (parentPath files.state)] else [] := by
      simp [durableCalls, tmpCalls]
    rw [Act.calls, hcalls]
    refine shows_snap files sizes policy data fun c hc => ?_
    split at hc
    · rw [List.mem_singleton.1 hc]; exact ⟨trivial, trivial⟩
    · cases hc

theorem shows_acts (files : Files) (acts : List Act) : Shows files acts (actCalls files acts) := by
  induction acts with
  | nil => exact shows_nil fun d k => by simp
  | cons a acts ih =>
    rw [actCalls_cons]
    exact (shows_act files a).append ih

/-- The file is none of the group's files. -/
structure Aside (files : Files) (p : Path) : Prop where
  events : p ≠ files.events
  state : p ≠ files.state
  tmp : p ≠ tmpPath files.state

/-- A failing write to the file at `path` wrote nothing or everything. -/
def Env.Whole (env : Env) (path : Path) : Prop :=
  ∀ data n, env.fault (.append path data) = some n → n = 0 ∨ data.length ≤ n

/-- How the calls of an operation go with its acts. -/
structure Tells (env : Env) (files : Files) (acts : List Act) (calls : List Call) : Prop where
  spares : ∀ p, Aside files p → ∀ c ∈ calls, c.Spares p
  shows : env.Whole files.events → Shows files acts calls
  exact : env.toIo.Quiet → calls = actCalls files acts

theorem Tells.nil (env : Env) (files : Files) : Tells env files [] [] where
  spares := by simp
  shows _ := shows_acts files []
  exact _ := rfl

theorem Tells.append {env : Env} {files : Files} {a b : List Act} {c d : List Call} (h : Tells env files a c)
    (h' : Tells env files b d) : Tells env files (a ++ b) (c ++ d) where
  spares := by
    intro p hp x hx
    rcases List.mem_append.1 hx with hx | hx
    · exact h.spares p hp x hx
    · exact h'.spares p hp x hx
  shows hw := (h.shows hw).append (h'.shows hw)
  exact hq := by rw [h.exact hq, h'.exact hq, actCalls_append]

theorem tells_acts (env : Env) (files : Files) (acts : List Act) : Tells env files acts (actCalls files acts) where
  spares _ hp := actCalls_spares hp.events hp.state hp.tmp acts
  shows _ := shows_acts files acts
  exact _ := rfl

/-! ## Moves -/

/-- The groups differ in their schedule only. -/
structure SameCore (a b : ConsumerGroupState) : Prop where
  runtime : b.runtime = a.runtime
  inflight : b.inflight = a.inflight
  next_sequence : b.next_sequence = a.next_sequence

/-- The events that operation `op` can log when the group is in state `group`.
`read` is what the segment holds. -/
inductive Fires (env : Env) (opts : EngineOptions) (group_id : CString) (read : UInt64 → StatusOr Record) (op : GroupOp)
    (group : ConsumerGroupState) : TransitionEvent → Prop
  | timeout (id entry rt) (hop : op = .consume ∨ op = .getStats) (hin : group.inflight.lookup id = some entry)
      (hdl : entry.deadline_ms ≤ env.now .reapExpiredInflight) (hrt : group.runtime.lookup id = some rt) :
      Fires env opts group_id read op group
        (timeoutEvent opts (env.now .reapExpiredInflight) group.next_sequence id rt)
  | deliver (id0 rt0 record rt) (hop : op = .consume) (hroom : group.inflight.entries.length < opts.max_inflight.toNat)
      (h0 : group.runtime.lookup id0 = some rt0) (hready : rt0.state = .kReady)
      (havail : rt0.available_after_ms ≤ env.now .buildReadyQueue) (hread : read rt0.offset = .ok record)
      (hrt : group.runtime.lookup (idOf record) = some rt) :
      Fires env opts group_id read op group
        (deliverEvent opts group_id (env.now .consume) group.next_sequence (idOf record) rt)
  | ack (id entry rt) (hop : op = .ack id) (hin : group.inflight.lookup id = some entry)
      (hrt : group.runtime.lookup id = some rt) :
      Fires env opts group_id read op group (ackEvent (env.now .ack) group.next_sequence id rt)
  | nack (id requeue entry rt) (hop : op = .nack id requeue) (hin : group.inflight.lookup id = some entry)
      (hrt : group.runtime.lookup id = some rt) :
      Fires env opts group_id read op group
        (nackEvent opts (env.now .nack) (env.now .nackBackoff) group.next_sequence id rt requeue)

@[simp] theorem timeoutEvent_id (opts : EngineOptions) (now sequence : UInt64) (id : MessageId) (rt : MessageRuntime) :
    (timeoutEvent opts now sequence id rt).id = id := by
  unfold timeoutEvent
  split <;> rfl

@[simp] theorem nackEvent_id (opts : EngineOptions) (now now' sequence : UInt64) (id : MessageId) (rt : MessageRuntime)
    (requeue : Bool) : (nackEvent opts now now' sequence id rt requeue).id = id := by
  unfold nackEvent
  split
  · rfl
  · split <;> rfl

/-- Events are logged for ids with a runtime entry only. -/
theorem Fires.known {env : Env} {opts : EngineOptions} {g : CString} {read : UInt64 → StatusOr Record} {op : GroupOp}
    {group : ConsumerGroupState} {event : TransitionEvent} (h : Fires env opts g read op group event) :
    ∃ rt, group.runtime.lookup event.id = some rt := by
  cases h with
  | timeout id entry rt _ _ _ hrt => exact ⟨rt, by rw [timeoutEvent_id]; exact hrt⟩
  | deliver id0 rt0 record rt _ _ _ _ _ _ hrt => exact ⟨rt, hrt⟩
  | ack id entry rt _ _ hrt => exact ⟨rt, hrt⟩
  | nack id requeue entry rt _ _ hrt => exact ⟨rt, by rw [nackEvent_id]; exact hrt⟩

/-- What became of an event that an operation made: applied, logged but not
applied, or neither. -/
inductive Fate
  | applied
  | lost
  | unlogged
  deriving DecidableEq

/-- What a move shows: nothing, an attempted transition with the group after
it, or a snapshot. -/
inductive Label
  | still
  | attempt (event : TransitionEvent) (fate : Fate) (after : ConsumerGroupState)
  | saved (sizes : List Nat) (policy : FsyncPolicy) (data : Bytes)

def Label.acts : Label → List Act
  | .still => []
  | .attempt _ .unlogged _ => []
  | .attempt event _ _ => [.log event]
  | .saved sizes policy data => [.snap sizes policy data]

/-- The attempted transitions, with the messages of the group after each. -/
abbrev Trace := List (TransitionEvent × Map MessageId MessageRuntime)

def Label.trace : Label → Trace
  | .attempt event _ after => [(event, after.runtime)]
  | _ => []

def actsOf (labels : List Label) : List Act := labels.flatMap Label.acts

def traceOf (labels : List Label) : Trace := labels.flatMap Label.trace

@[simp] theorem actsOf_nil : actsOf [] = [] := rfl
@[simp] theorem traceOf_nil : traceOf [] = [] := rfl

@[simp] theorem actsOf_append (a b : List Label) : actsOf (a ++ b) = actsOf a ++ actsOf b := by simp [actsOf]
@[simp] theorem traceOf_append (a b : List Label) : traceOf (a ++ b) = traceOf a ++ traceOf b := by simp [traceOf]

theorem actsOf_cons (l : Label) (ls : List Label) : actsOf (l :: ls) = l.acts ++ actsOf ls := by simp [actsOf]

/-- One move of operation `op`. Events are lost or not logged only if something
can fail (`faulty`). -/
inductive Move (faulty : Prop) (env : Env) (opts : EngineOptions) (group_id : CString)
    (read : UInt64 → StatusOr Record) (op : GroupOp) : ConsumerGroupState → Label → ConsumerGroupState → Prop
  /-- Only the schedule changes. -/
  | sched {a b} (h : SameCore a b) : Move faulty env opts group_id read op a .still b
  /-- An inflight entry without a runtime entry is dropped. -/
  | forget {a} (id) (h : a.runtime.lookup id = none) :
      Move faulty env opts group_id read op a .still { a with inflight := a.inflight.erase id }
  /-- `Consume` meets a record whose id has no runtime entry. -/
  | meet {a} (id0 rt0 record) (rt : MessageRuntime) (h0 : a.runtime.lookup id0 = some rt0)
      (hread : read rt0.offset = .ok record) (hnone : a.runtime.lookup (idOf record) = none) (hrt : rt.state = .kReady) :
      Move faulty env opts group_id read op a .still { a with runtime := a.runtime.insert (idOf record) rt }
  | fire {a event} (h : Fires env opts group_id read op a event) :
      Move faulty env opts group_id read op a
        (.attempt event .applied (applyTransition env opts (bump a) event)) (applyTransition env opts (bump a) event)
  | lose {a event} (hf : faulty) (h : Fires env opts group_id read op a event) :
      Move faulty env opts group_id read op a (.attempt event .lost (bump a)) (bump a)
  | skip {a event} (hf : faulty) (h : Fires env opts group_id read op a event) :
      Move faulty env opts group_id read op a (.attempt event .unlogged (bump a)) (bump a)
  | persist {a} :
      Move faulty env opts group_id read op a (.saved env.spills opts.fsync_policy (snapshotBytes env a)) a

inductive Moves (faulty : Prop) (env : Env) (opts : EngineOptions) (group_id : CString)
    (read : UInt64 → StatusOr Record) (op : GroupOp) : ConsumerGroupState → List Label → ConsumerGroupState → Prop
  | nil {a} : Moves faulty env opts group_id read op a [] a
  | cons {a b c l ls} (h : Move faulty env opts group_id read op a l b)
      (hs : Moves faulty env opts group_id read op b ls c) : Moves faulty env opts group_id read op a (l :: ls) c

variable {faulty : Prop} {env : Env} {opts : EngineOptions} {group_id : CString} {read : UInt64 → StatusOr Record}
  {op : GroupOp}

theorem Moves.trans {a b c : ConsumerGroupState} {ls ls' : List Label}
    (h : Moves faulty env opts group_id read op a ls b) (h' : Moves faulty env opts group_id read op b ls' c) :
    Moves faulty env opts group_id read op a (ls ++ ls') c := by
  induction h with
  | nil => exact h'
  | cons hm _ ih => exact .cons hm (ih h')

theorem Moves.one {a b : ConsumerGroupState} {l : Label} (h : Move faulty env opts group_id read op a l b) :
    Moves faulty env opts group_id read op a [l] b := .cons h .nil

/-- A first part of the acts is also the acts of some moves. -/
theorem Moves.split {a c : ConsumerGroupState} {ls : List Label} (h : Moves faulty env opts group_id read op a ls c)
    {done rest : List Act} (heq : actsOf ls = done ++ rest) :
    ∃ ls1 ls2 b, ls = ls1 ++ ls2 ∧ actsOf ls1 = done ∧ Moves faulty env opts group_id read op a ls1 b := by
  induction h generalizing done with
  | @nil a =>
    obtain rfl : done = [] := (List.append_eq_nil_iff.1 heq.symm).1
    exact ⟨[], [], a, rfl, rfl, .nil⟩
  | @cons a b c l ls hm hs ih =>
    rw [actsOf_cons] at heq
    -- A label has at most one act.
    have hl : l.acts = [] ∨ ∃ act, l.acts = [act] := by
      cases l with
      | still => exact .inl rfl
      | attempt event fate after => cases fate <;> simp [Label.acts]
      | saved sizes policy data => exact .inr ⟨_, rfl⟩
    rcases hl with hl | ⟨act, hl⟩
    · rw [hl, List.nil_append] at heq
      obtain ⟨ls1, ls2, b', rfl, hd, hb⟩ := ih heq
      exact ⟨l :: ls1, ls2, b', rfl, by rw [actsOf_cons, hl, hd, List.nil_append], .cons hm hb⟩
    · cases done with
      | nil => exact ⟨[], l :: ls, a, rfl, rfl, .nil⟩
      | cons x done =>
        rw [hl] at heq
        simp only [List.cons_append, List.nil_append, List.cons.injEq] at heq
        obtain ⟨rfl, heq⟩ := heq
        obtain ⟨ls1, ls2, b', rfl, hd, hb⟩ := ih heq
        exact ⟨l :: ls1, ls2, b', rfl, by rw [actsOf_cons, hl, hd]; rfl, .cons hm hb⟩

/-- A property that every move keeps. -/
theorem Moves.keeps {P : ConsumerGroupState → Prop} {a b : ConsumerGroupState} {ls : List Label}
    (h : Moves faulty env opts group_id read op a ls b)
    (hm : ∀ {a l b}, Move faulty env opts group_id read op a l b → P a → P b) (ha : P a) : P b := by
  induction h with
  | nil => exact ha
  | cons hmove _ ih => exact ih (hm hmove ha)

end PomaiQueue.Engine
