import PomaiQueue.Steps
/-!
# One group over its whole life

A `Node` is what there is of one group of one queue: its event log, the
snapshots it has written, and the group in memory while a process has it
loaded. `Next` is what can happen to it: it is loaded, a move is made, the
process is killed. `Rules` says what the moves can meet.

The engine is brought down to nodes in `Tracks.lean`. What holds in every state
of a group is then an induction over `Steps`.
-/

namespace PomaiQueue.Engine

open Wire Posix Assoc Storage

/-- What can happen to a group: the records that can be read, the environments
and options of the operations, whether something can fail. When the group is
loaded, `covers` says that every message with an event is in the segment,
`settled` that the log leaves no message in flight, and the messages `present` are
in the segment. -/
structure Rules where
  group_id : CString
  site : UInt64 → Record → Prop
  env : Env → Prop
  opts : EngineOptions → Prop
  faulty : Prop
  covers : Prop
  settled : Prop
  present : MessageId → Prop

/-- The last snapshot is the one in the file. `marks` are the lengths the log had
when the process was killed. -/
structure Node where
  log : List TransitionEvent := []
  snaps : List Bytes := []
  marks : List Nat := []
  group : Option ConsumerGroupState := none

def Label.logged : Label → List TransitionEvent
  | .attempt _ .unlogged _ => []
  | .attempt event _ _ => [event]
  | _ => []

def Label.saves : Label → List Bytes
  | .saved _ _ data => [data]
  | _ => []

/-- What a move leaves of a node. -/
def Node.moved (n : Node) (l : Label) (b : ConsumerGroupState) : Node :=
  { n with log := n.log ++ l.logged, snaps := n.snaps ++ l.saves, group := some b }

/-- The messages are records that can be read. -/
def Sited (site : UInt64 → Record → Prop) (messages : List (UInt64 × Message)) : Prop :=
  ∀ om ∈ messages, ∃ r, site om.1 r ∧ idOf r = om.2.id ∧ r.header.enqueue_ts = om.2.enqueue_ts

/-- What a load takes from the snapshot, if there is one. -/
def Restores (snap : Option Bytes) (group base : ConsumerGroupState) : Prop :=
  match snap with
  | none => base = group
  | some file => loadSnapshot file group = .ok base

/-- The last part of a load. -/
def rebuilt (env : Env) (opts : EngineOptions) (log : List TransitionEvent) (base : ConsumerGroupState) :
    ConsumerGroupState :=
  buildReadyQueue env (recoverInflight (env.now .loadGroupState) (replay env opts log base))

inductive Happening
  | loaded
  | moved (label : Label)
  | crashed

inductive Next (rules : Rules) : Node → Happening → Node → Prop
  | loaded {n env opts messages base} (hg : n.group = none) (henv : rules.env env) (hopts : rules.opts opts)
      (hsite : Sited rules.site messages)
      (hcov : rules.covers → ∀ event ∈ n.log, ∃ om ∈ messages, om.2.id = event.id)
      (hset : rules.settled → ∀ id event, lastEvent n.log id = some event → event.state ≠ .kInFlight)
      (hpres : ∀ id, rules.present id → ∃ om ∈ messages, om.2.id = id)
      (hbase : Restores n.snaps.getLast? (defaultGroup env opts messages) base) :
      Next rules n .loaded { n with group := some (rebuilt env opts n.log base) }
  | moved {n env opts read op a b l} (hg : n.group = some a) (henv : rules.env env) (hopts : rules.opts opts)
      (hread : ∀ o r, read o = .ok r → rules.site o r)
      (hm : Move rules.faulty env opts rules.group_id read op a l b) :
      Next rules n (.moved l) (n.moved l b)
  | crashed {n} : Next rules n .crashed { n with marks := n.marks ++ [n.log.length], group := none }

inductive Steps (rules : Rules) : Node → List Happening → Node → Prop
  | nil {n} : Steps rules n [] n
  | snoc {a b c hs h} (hpre : Steps rules a hs b) (hlast : Next rules b h c) : Steps rules a (hs ++ [h]) c

theorem Steps.trans {rules : Rules} {a b c : Node} {hs hs' : List Happening} (h : Steps rules a hs b)
    (h' : Steps rules b hs' c) : Steps rules a (hs ++ hs') c := by
  induction h' with
  | nil => rwa [List.append_nil]
  | snoc _ hlast ih =>
    rw [← List.append_assoc]
    exact .snoc ih hlast

theorem Steps.one {rules : Rules} {a b : Node} {h : Happening} (hn : Next rules a h b) : Steps rules a [h] b :=
  .snoc .nil hn

/-- An invariant that every happening keeps. -/
theorem Steps.keeps {rules : Rules} {P : Node → Prop} {a b : Node} {hs : List Happening} (h : Steps rules a hs b)
    (hn : ∀ {a h b}, Next rules a h b → P a → P b) (ha : P a) : P b := by
  induction h with
  | nil => exact ha
  | snoc _ hlast ih => exact hn hlast ih

/-! ## Fewer rules -/

/-- Whatever `rules` lets happen, `rules'` does. -/
structure Rules.Le (rules rules' : Rules) : Prop where
  group_id : rules.group_id = rules'.group_id
  site : ∀ o r, rules.site o r → rules'.site o r
  env : ∀ env, rules.env env → rules'.env env
  opts : ∀ opts, rules.opts opts → rules'.opts opts
  faulty : rules.faulty → rules'.faulty
  covers : rules'.covers → rules.covers
  settled : rules'.settled → rules.settled
  present : ∀ id, rules'.present id → rules.present id

theorem Move.mono {faulty faulty' : Prop} (hf : faulty → faulty') {env : Env} {opts : EngineOptions} {g : CString}
    {read : UInt64 → StatusOr Record} {op : GroupOp} {a b : ConsumerGroupState} {l : Label}
    (h : Move faulty env opts g read op a l b) : Move faulty' env opts g read op a l b := by
  cases h with
  | sched h => exact .sched h
  | forget id h => exact .forget id h
  | meet id0 rt0 record rt h0 hread hnone hrt => exact .meet id0 rt0 record rt h0 hread hnone hrt
  | fire h => exact .fire h
  | lose hf' h => exact .lose (hf hf') h
  | skip hf' h => exact .skip (hf hf') h
  | persist => exact .persist

theorem Moves.mono {faulty faulty' : Prop} (hf : faulty → faulty') {env : Env} {opts : EngineOptions} {g : CString}
    {read : UInt64 → StatusOr Record} {op : GroupOp} {a b : ConsumerGroupState} {ls : List Label}
    (h : Moves faulty env opts g read op a ls b) : Moves faulty' env opts g read op a ls b := by
  induction h with
  | nil => exact .nil
  | cons hm _ ih => exact .cons (hm.mono hf) ih

theorem Next.mono {rules rules' : Rules} (hle : rules.Le rules') {a b : Node} {h : Happening} (hn : Next rules a h b) :
    Next rules' a h b := by
  cases hn with
  | loaded hg henv hopts hsite hcov hset hpres hbase =>
    refine .loaded hg (hle.env _ henv) (hle.opts _ hopts) ?_ (fun hc => hcov (hle.covers hc))
      (fun hs => hset (hle.settled hs)) (fun id h => hpres id (hle.present id h)) hbase
    intro om hom
    obtain ⟨r, hr, hid, hts⟩ := hsite om hom
    exact ⟨r, hle.site _ _ hr, hid, hts⟩
  | moved hg henv hopts hread hm =>
    rw [hle.group_id] at hm
    exact .moved hg (hle.env _ henv) (hle.opts _ hopts) (fun o r h => hle.site o r (hread o r h)) (hm.mono hle.faulty)
  | crashed => exact .crashed

theorem Steps.mono {rules rules' : Rules} (hle : rules.Le rules') {a b : Node} {hs : List Happening}
    (h : Steps rules a hs b) : Steps rules' a hs b := by
  induction h with
  | nil => exact .nil
  | snoc _ hlast ih => exact .snoc ih (hlast.mono hle)

/-! ## A sequence of moves -/

def Node.movedAll (n : Node) (ls : List Label) (b : ConsumerGroupState) : Node :=
  { n with log := n.log ++ ls.flatMap Label.logged, snaps := n.snaps ++ ls.flatMap Label.saves, group := some b }

theorem Steps.moves {rules : Rules} {n : Node} {env : Env} {opts : EngineOptions} {read : UInt64 → StatusOr Record}
    {op : GroupOp} {a b : ConsumerGroupState} {ls : List Label} (henv : rules.env env) (hopts : rules.opts opts)
    (hread : ∀ o r, read o = .ok r → rules.site o r) (hm : Moves rules.faulty env opts rules.group_id read op a ls b)
    (hg : n.group = some a) : Steps rules n (ls.map .moved) (n.movedAll ls b) := by
  induction hm generalizing n with
  | @nil a =>
    have heq : n.movedAll [] a = n := by
      rw [Node.movedAll, ← hg]
      simp
    rw [heq]
    exact .nil
  | @cons a b c l ls hmove _ ih =>
    have hrest := ih (n := n.moved l b) rfl
    have heq : (n.moved l b).movedAll ls c = n.movedAll (l :: ls) c := by
      simp [Node.movedAll, Node.moved]
    rw [heq] at hrest
    exact (Steps.one (.moved hg henv hopts hread hmove)).trans hrest

/-- What the files show after the acts of some labels. -/
theorem view_labels (log : List TransitionEvent) (snaps : List Bytes) (ls : List Label) :
    (actsOf ls).foldl Act.onView (encodeEvents log, snaps.getLast?) =
      (encodeEvents (log ++ ls.flatMap Label.logged), (snaps ++ ls.flatMap Label.saves).getLast?) := by
  induction ls generalizing log snaps with
  | nil => simp
  | cons l ls ih =>
    have hone : l.acts.foldl Act.onView (encodeEvents log, snaps.getLast?) =
        (encodeEvents (log ++ l.logged), (snaps ++ l.saves).getLast?) := by
      cases l with
      | still => simp [Label.acts, Label.logged, Label.saves]
      | attempt event fate after => cases fate <;> simp [Label.acts, Label.logged, Label.saves, Act.onView]
      | saved sizes policy data => simp [Label.acts, Label.logged, Label.saves, Act.onView]
    rw [actsOf_cons, List.foldl_append, hone, ih, List.flatMap_cons, List.flatMap_cons, List.append_assoc,
      List.append_assoc]

end PomaiQueue.Engine
