import PomaiQueue.Counts
/-!
# When a queue is full

`Produce` compares `max_queue_depth` with the next offset of the segment, which only
ever grows: it counts the messages that were accepted (`Takes`), whatever became of
them. `full_only_behind_iff`: a rejection means that the group is `max_queue_depth`
messages behind exactly as long as no accepted message is acked or dead when it comes.
-/

namespace PomaiQueue.Engine

open Wire Posix Assoc Storage

/-! ## The next offset -/

/-- `Append` takes the next offset or leaves it. It does not say `kUnavailable`. -/
theorem append_next (io : Io) (record : Record) (log : SegmentLog) (fs : Fs) :
    (∃ o, (SegmentLog.append io record log fs).1 = .ok o ∧
        (SegmentLog.append io record log fs).2.1.next_offset = log.next_offset + 1) ∨
      ∃ code text, (SegmentLog.append io record log fs).1 = .error (.status code text) ∧ code ≠ .kUnavailable ∧
        (SegmentLog.append io record log fs).2.1.next_offset = log.next_offset := by
  unfold SegmentLog.append
  cases hfd : log.fd with
  | none => exact .inr ⟨_, _, rfl, by decide, rfl⟩
  | some pos =>
    have henc : ∀ r : Record, encodeRecord io.pad r = .ok (recordBytes io.pad r) := fun _ => rfl
    dsimp only
    rw [henc]
    dsimp only
    rcases SegmentLog.writeAll log.path io.writes pos _ fs with ⟨took, pos', fs'⟩
    cases took with
    | false => exact .inr ⟨_, _, rfl, by decide, rfl⟩
    | true =>
      dsimp only
      by_cases hpolicy : log.fsync_policy = .kAlways
      · rw [if_pos hpolicy]
        unfold fsyncFile
        split_ifs
        · exact .inr ⟨_, _, rfl, by decide, rfl⟩
        · exact .inr ⟨_, _, rfl, by decide, rfl⟩
        · exact .inl ⟨_, rfl, rfl⟩
      · rw [if_neg hpolicy]
        exact .inl ⟨_, rfl, rfl⟩

def queueIsFull : Failure := .status .kUnavailable "queue is full"

/-- What `Produce` does to the next offset of the queue. -/
theorem produce_next (env : Env) (q : Path) (m : Message) (e : QueueEngine) :
    (e.queues.lookup q = none ∧ produceOnShard env q m e = (queueNotFound, e)) ∨
      ∃ queue, e.queues.lookup q = some queue ∧
        ((e.options.max_queue_depth.toNat ≤ queue.segment.next_offset.toNat ∧
            produceOnShard env q m e = (.error queueIsFull, e)) ∨
          ∃ queue', (produceOnShard env q m e).2.queues.lookup q = some queue' ∧
            queue.segment.next_offset.toNat < e.options.max_queue_depth.toNat ∧
            ((∃ o, (produceOnShard env q m e).1 = .ok o ∧ queue'.segment.next_offset = queue.segment.next_offset + 1) ∨
              ∃ err, (produceOnShard env q m e).1 = .error err ∧ err ≠ queueIsFull ∧
                queue'.segment.next_offset = queue.segment.next_offset)) := by
  unfold produceOnShard
  cases hqueue : e.queues.lookup q with
  | none => exact .inl ⟨rfl, rfl⟩
  | some queue =>
    refine .inr ⟨queue, rfl, ?_⟩
    by_cases hdepth : e.options.max_queue_depth.toNat ≤ queue.segment.next_offset.toNat
    · exact .inl ⟨hdepth, by simp only [if_pos hdepth]; rfl⟩
    · simp only [if_neg hdepth]
      by_cases hsize : e.options.max_segment_size_bytes.toNat ≤ queue.segment.sizeBytes e.fs
      · simp only [if_pos hsize]
        exact .inr ⟨queue, hqueue, Nat.lt_of_not_le hdepth, .inr ⟨_, rfl, by decide, rfl⟩⟩
      · simp only [if_neg hsize]
        refine .inr ⟨_, AList.lookup_insert _, Nat.lt_of_not_le hdepth, ?_⟩
        rcases append_next env.toIo (recordOf m) queue.segment e.fs with ⟨o, ho, hnext⟩ | ⟨code, text, herr, hcode, hnext⟩
        · exact .inl ⟨o, ho, hnext⟩
        · refine .inr ⟨_, herr, fun heq => ?_, hnext⟩
          cases heq
          exact hcode rfl

theorem produce_full_iff (env : Env) (q : Path) (m : Message) (e : QueueEngine) :
    (runOp env e (.produce q m)).1 = .error queueIsFull ↔
      ∃ queue, e.queues.lookup q = some queue ∧ e.options.max_queue_depth.toNat ≤ queue.segment.next_offset.toNat := by
  change (produceOnShard env q m e).1.map Reply.offset = .error queueIsFull ↔ _
  rcases produce_next env q m e with ⟨hnone, heq⟩ | ⟨queue, hqueue, ⟨hfull, heq⟩ | ⟨queue', -, hroom, hor⟩⟩
  · simp [hnone, heq, queueNotFound, queueIsFull, Except.map]
  · exact ⟨fun _ => ⟨queue, hqueue, hfull⟩, fun _ => by rw [heq]; rfl⟩
  · constructor
    · intro hrejected
      rcases hor with ⟨o, ho, -⟩ | ⟨err, herr, hne, -⟩
      · rw [ho] at hrejected
        cases hrejected
      · rw [herr] at hrejected
        exact absurd (Except.error.inj hrejected) hne
    · rintro ⟨queue₁, hqueue₁, hfull⟩
      rw [hqueue] at hqueue₁
      obtain rfl := Option.some.inj hqueue₁
      omega

/-! ## The next offset counts the accepted messages -/

/-- The queue, if it is there, has taken `taken` messages, and no more than it may. -/
def Takes (q : Path) (e : QueueEngine) (taken : Nat) : Prop :=
  ∀ queue, e.queues.lookup q = some queue →
    queue.segment.next_offset.toNat = taken ∧ taken ≤ e.options.max_queue_depth.toNat

/-- A step of `Produce`, `Consume`, `Ack`, `Nack` or `GetStats` on the queue and its group. -/
def Step.Uses (q : Path) (g : CString) (s : Step) : Prop :=
  ∃ env, (∃ m, s = .op env (.produce q m)) ∨ ∃ op, s = .op env (.group q g op)

theorem accepted_produce (q : Path) (e : QueueEngine) (env : Env) (m : Message) :
    Step.accepted q e (.op env (.produce q m)) = if (produceOnShard env q m e).1.isOk then [m] else [] := by
  have hok : (runOp env e (.produce q m)).1.isOk = (produceOnShard env q m e).1.isOk := by
    change ((produceOnShard env q m e).1.map Reply.offset).isOk = _
    cases (produceOnShard env q m e).1 <;> rfl
  simp only [Step.accepted, hok, true_and]

theorem Takes.produce {q : Path} {e : QueueEngine} {taken : Nat} (h : Takes q e taken) (env : Env) (m : Message) :
    Takes q (step e (.op env (.produce q m))) (taken + (Step.accepted q e (.op env (.produce q m))).length) := by
  have hopts : (produceOnShard env q m e).2.options = e.options := runOp_options env e (.produce q m)
  change Takes q (produceOnShard env q m e).2 _
  rw [accepted_produce]
  rcases produce_next env q m e with ⟨-, heq⟩ | ⟨queue, hqueue, ⟨-, heq⟩ | ⟨queue', hqueue', hlt, hor⟩⟩
  · rw [heq]
    exact h
  · rw [heq]
    exact h
  · obtain ⟨hnext, hle⟩ := h queue hqueue
    have hdepth := e.options.max_queue_depth.toNat_lt
    intro queue'' hqueue''
    rw [hqueue'] at hqueue''
    obtain rfl := Option.some.inj hqueue''
    rw [hopts]
    rcases hor with ⟨o, ho, hnext'⟩ | ⟨err, herr, -, hnext'⟩
    · have hlen : (if (produceOnShard env q m e).1.isOk then [m] else []).length = 1 := by rw [ho]; rfl
      rw [hlen, hnext', toNat_succ (by omega)]
      omega
    · rw [herr, hnext']
      exact ⟨hnext, hle⟩

theorem Takes.step {q : Path} {g : CString} {e : QueueEngine} {taken : Nat} (h : Takes q e taken) {s : Step} (hs : s.Uses q g) :
    Takes q (step e s) (taken + (s.accepted q e).length) := by
  obtain ⟨env, ⟨m, rfl⟩ | ⟨op, rfl⟩⟩ := hs
  · exact h.produce env m
  · have hstep : Engine.step e (.op env (.group q g op)) = (onGroup env q g op e).2 := by
      rw [← runOp_group]
      rfl
    rw [hstep, show Step.accepted q e (.op env (.group q g op)) = [] from rfl]
    rcases onGroup_cases env q g op e with ⟨err, heq, -⟩ | ⟨queue, group, hqueue, -, heq⟩
    · rw [heq]
      exact h
    · rw [heq]
      intro queue' hqueue'
      rw [AList.lookup_insert] at hqueue'
      obtain rfl := Option.some.inj hqueue'
      exact h queue hqueue

theorem Takes.run {q : Path} {g : CString} {steps : List Step} (hs : ∀ s ∈ steps, s.Uses q g) {e : QueueEngine} {taken : Nat}
    (h : Takes q e taken) : Takes q (run e steps) (taken + (acceptedIn q e steps).length) := by
  induction steps generalizing e taken with
  | nil => exact h
  | cons s steps ih =>
    have hrest := ih (fun s' hs' => hs s' (List.mem_cons_of_mem _ hs')) (h.step (hs s List.mem_cons_self))
    rw [acceptedIn, List.length_append, ← Nat.add_assoc]
    exact hrest

/-- A queue that was just created on an empty data directory has taken nothing. -/
theorem takes_create (opts : EngineOptions) (q : Path) (env : Env) : Takes q (createQueueOnShard env q (freshEngine opts)).2 0 := by
  intro queue hqueue
  refine ⟨?_, Nat.zero_le _⟩
  cases hopen : env.fault (.creat (segmentPath opts.data_dir q)) with
  | none =>
    have hcreated : QueueHolds (createQueueOnShard env q (freshEngine opts)).2 q [] := queueHolds_create rfl hopen rfl
    obtain ⟨queue', hqueue', hholds⟩ := hcreated
    rw [hqueue] at hqueue'
    obtain rfl := Option.some.inj hqueue'
    rw [hholds.next]
    rfl
  | some n =>
    have hnone : (createQueueOnShard env q (freshEngine opts)).2.queues.lookup q = none := by
      obtain ⟨err, herr⟩ := openError_error (α := Unit) n "open segment failed"
      have hre := SegmentLog.reopen_refused hopen opts.fsync_policy (freshEngine opts).fs
      rw [herr] at hre
      unfold createQueueOnShard
      rw [show (freshEngine opts).queues.lookup q = none from rfl]
      dsimp only
      rw [show (freshEngine opts).options = opts from rfl, hre]
      rfl
    rw [hnone] at hqueue
    cases hqueue

/-! ## The backlog -/

/-- The group has the message as acked or dead. -/
def dealtWith (e : QueueEngine) (q : Path) (g : CString) (id : MessageId) : Bool :=
  match (groupAt e q g).bind (·.runtime.lookup id) with
  | none => false
  | some rt => rt.state = .kAcked ∨ rt.state = .kDead

/-- The messages that are neither acked nor dead. -/
def backlog (e : QueueEngine) (q : Path) (g : CString) (accepted : List Message) : List Message :=
  accepted.filter fun m => !dealtWith e q g m.id

/-- Whenever `Produce` says that the queue is full, at least `max_queue_depth` of the
accepted messages are neither acked nor dead. -/
def FullOnlyBehind (q : Path) (g : CString) (e : QueueEngine) (steps : List Step) : Prop :=
  ∀ before env m after, steps = before ++ .op env (.produce q m) :: after →
    (runOp env (run e before) (.produce q m)).1 = .error queueIsFull →
      (run e before).options.max_queue_depth.toNat ≤ (backlog (run e before) q g (acceptedIn q e before)).length

/-- When `Produce` comes to a queue whose next offset has reached `max_queue_depth`, no
accepted message is acked or dead. -/
def NoneDealtWithWhenFull (q : Path) (g : CString) (e : QueueEngine) (steps : List Step) : Prop :=
  ∀ before env m after, steps = before ++ .op env (.produce q m) :: after →
    ∀ queue, (run e before).queues.lookup q = some queue →
      (run e before).options.max_queue_depth.toNat ≤ queue.segment.next_offset.toNat →
        ∀ m' ∈ acceptedIn q e before, dealtWith (run e before) q g m'.id = false

/-- In every run of a queue with one group, from an empty data directory on, a rejection
means a backlog of `max_queue_depth` messages exactly if no message was dealt with when the
queue was found full. -/
theorem full_only_behind_iff (opts : EngineOptions) (q : Path) (g : CString) (env : Env) (steps : List Step)
    (hs : ∀ s ∈ steps, s.Uses q g) :
    FullOnlyBehind q g (createQueueOnShard env q (freshEngine opts)).2 steps ↔
      NoneDealtWithWhenFull q g (createQueueOnShard env q (freshEngine opts)).2 steps := by
  generalize hstart : (createQueueOnShard env q (freshEngine opts)).2 = e
  have htakes0 : Takes q e 0 := hstart ▸ takes_create opts q env
  have htakes : ∀ before env m after, steps = before ++ .op env (.produce q m) :: after →
      Takes q (run e before) (acceptedIn q e before).length := by
    intro before env m after hsteps
    have huses : ∀ s ∈ before, s.Uses q g := fun s hmem => hs s (hsteps ▸ List.mem_append_left _ hmem)
    have h := htakes0.run huses
    rwa [Nat.zero_add] at h
  constructor
  · intro h before env m after hsteps queue hqueue hfull m' hm'
    -- The queue holds as many messages as it may, so all of them are in the backlog.
    obtain ⟨-, hle⟩ := htakes before env m after hsteps queue hqueue
    have hall := h before env m after hsteps ((produce_full_iff _ _ _ _).2 ⟨queue, hqueue, hfull⟩)
    have hfilter : backlog (run e before) q g (acceptedIn q e before) = acceptedIn q e before :=
      List.filter_sublist.eq_of_length_le (by unfold backlog at hall; omega)
    have hkept := List.filter_eq_self.1 hfilter m' hm'
    simpa using hkept
  · intro h before env m after hsteps hrejected
    obtain ⟨queue, hqueue, hfull⟩ := (produce_full_iff _ _ _ _).1 hrejected
    obtain ⟨hnext, -⟩ := htakes before env m after hsteps queue hqueue
    have hopen := h before env m after hsteps queue hqueue hfull
    have hfilter : backlog (run e before) q g (acceptedIn q e before) = acceptedIn q e before :=
      List.filter_eq_self.2 fun m' hm' => by simp [hopen m' hm']
    rw [hfilter]
    omega

/-! ## A queue of one message -/

def depthOne : EngineOptions := { max_queue_depth := 1 }

/-- The queue on an empty data directory. -/
def oneDeep : QueueEngine := (createQueueOnShard {} someQueue (freshEngine depthOne)).2

/-- A message, and one more while the first is leased. -/
def twice : List Step :=
  [.op {} (.produce someQueue someMessage), .op {} (.group someQueue someGroup .consume), .op {} (.produce someQueue someMessage)]

/-- The first message is acked before the second comes. -/
def ackedBetween : List Step :=
  [.op {} (.produce someQueue someMessage), .op {} (.group someQueue someGroup .consume),
    .op {} (.group someQueue someGroup (.ack ⟨1, 2⟩)), .op {} (.produce someQueue someMessage)]

/-- Whether the answer is that the queue is full. -/
def saysFull : StatusOr Reply → Bool
  | .error failure => failure = queueIsFull
  | .ok _ => false

theorem eq_of_saysFull {answer : StatusOr Reply} (h : saysFull answer = true) : answer = .error queueIsFull := by
  cases answer with
  | error failure => exact congrArg Except.error (of_decide_eq_true h)
  | ok reply => cases h

theorem twice_uses : ∀ s ∈ twice, s.Uses someQueue someGroup := by
  intro s hs
  simp only [twice, List.mem_cons, List.not_mem_nil, or_false] at hs
  rcases hs with rfl | rfl | rfl
  · exact ⟨{}, .inl ⟨_, rfl⟩⟩
  · exact ⟨{}, .inr ⟨_, rfl⟩⟩
  · exact ⟨{}, .inl ⟨_, rfl⟩⟩

theorem full_only_behind_twice :
    (runOp {} (run oneDeep (twice.take 2)) (.produce someQueue someMessage)).1 = .error queueIsFull ∧
      FullOnlyBehind someQueue someGroup oneDeep twice := by
  refine ⟨eq_of_saysFull (by decide +kernel), (full_only_behind_iff depthOne someQueue someGroup {} twice twice_uses).2 ?_⟩
  intro before env m after hsteps queue hqueue hfull m' hm'
  have hopen : (twice.inits.all fun before => (acceptedIn someQueue oneDeep before).all fun m =>
      !dealtWith (run oneDeep before) someQueue someGroup m.id) = true := by
    decide +kernel
  have hprefix : before ∈ twice.inits := (List.mem_inits _ _).2 ⟨_, hsteps.symm⟩
  have hnot := List.all_eq_true.1 (List.all_eq_true.1 hopen before hprefix) m' hm'
  exact Bool.not_eq_true' _ ▸ hnot

/-- Every message is acked, and still the queue is full. The segment is below its limit and
there is no I/O error. -/
theorem acked_still_full :
    (∀ s ∈ ackedBetween, s.Uses someQueue someGroup) ∧ (∀ s ∈ ackedBetween, s.Quiet) ∧
      noIoError oneDeep ackedBetween = true ∧
      (∃ queue, (run oneDeep ackedBetween).queues.lookup someQueue = some queue ∧
        queue.segment.sizeBytes (run oneDeep ackedBetween).fs < depthOne.max_segment_size_bytes.toNat) ∧
      ¬ FullOnlyBehind someQueue someGroup oneDeep ackedBetween := by
  refine ⟨?_, ?_, by decide +kernel, ?_, fun h => ?_⟩
  · intro s hs
    simp only [ackedBetween, List.mem_cons, List.not_mem_nil, or_false] at hs
    rcases hs with rfl | rfl | rfl | rfl
    · exact ⟨{}, .inl ⟨_, rfl⟩⟩
    · exact ⟨{}, .inr ⟨_, rfl⟩⟩
    · exact ⟨{}, .inr ⟨_, rfl⟩⟩
    · exact ⟨{}, .inl ⟨_, rfl⟩⟩
  · intro s hs
    simp only [ackedBetween, List.mem_cons, List.not_mem_nil, or_false] at hs
    rcases hs with rfl | rfl | rfl | rfl <;> exact quiet_default
  · have hsize : ((run oneDeep ackedBetween).queues.lookup someQueue).any
        (fun queue => queue.segment.sizeBytes (run oneDeep ackedBetween).fs < depthOne.max_segment_size_bytes.toNat) = true := by
      decide +kernel
    obtain ⟨queue, hqueue, hlt⟩ := (Option.any_eq_true _ _).1 hsize
    exact ⟨queue, hqueue, of_decide_eq_true hlt⟩
  · have hle := h (ackedBetween.take 3) {} someMessage [] rfl (eq_of_saysFull (by decide +kernel))
    revert hle
    decide +kernel

end PomaiQueue.Engine
