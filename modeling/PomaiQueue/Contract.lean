import PomaiQueue.Refinement
/-!
# What the clients can rely on

`docs/QUEUE_CONTRACT.md`, in terms of what `Consume`, `Ack` and `Nack` answer. In every run
without I/O errors whose messages fit the record format, over any number of restarts:

* a message that was given to a consumer is given to another one only after the first lease
  may have ended (`lease_exclusive`),
* a message that was acknowledged or given up is given to nobody, and no answer for it is
  accepted (`settled_for_good`),
* whoever takes and acknowledges one message after the other gets all of them, in the order
  in which they were produced (`drained`).

All of them hold of the abstract queue, and the engine shows the same (`Faultless.represents`).
-/

namespace PomaiQueue.Engine

open Wire Posix Assoc Storage

/-! ## Parts of a run -/

section parts

variable {q : Path} {g : CString} {e : QueueEngine}

theorem seenIn_append {a b : List Step} {seen : List Seen} (h : seenIn q g e (a ++ b) = some seen) :
    ∃ xs ys, seenIn q g e a = some xs ∧ seenIn q g (run e a) b = some ys ∧ seen = xs ++ ys := by
  induction a generalizing e seen with
  | nil => exact ⟨[], seen, rfl, h, rfl⟩
  | cons s a ih =>
    rw [List.cons_append, seenIn, Option.bind_eq_some_iff] at h
    obtain ⟨zs, hzs, hrest⟩ := h
    obtain ⟨more, hmore, rfl⟩ := Option.map_eq_some_iff.1 hrest
    obtain ⟨xs, ys, hxs, hys, rfl⟩ := ih hmore
    refine ⟨zs ++ xs, ys, ?_, hys, (List.append_assoc _ _ _).symm⟩
    rw [seenIn, hzs, Option.bind_some, hxs]
    rfl

theorem seenIn_cons {s : Step} {steps : List Step} {seen : List Seen} (h : seenIn q g e (s :: steps) = some seen) :
    ∃ xs ys, s.seen q g e = some xs ∧ seenIn q g (step e s) steps = some ys ∧ seen = xs ++ ys := by
  rw [seenIn, Option.bind_eq_some_iff] at h
  obtain ⟨xs, hxs, hrest⟩ := h
  obtain ⟨ys, hys, rfl⟩ := Option.map_eq_some_iff.1 hrest
  exact ⟨xs, ys, hxs, hys, rfl⟩

/-- What is seen is seen of some step. -/
theorem mem_seenIn {steps : List Step} {seen : List Seen} (h : seenIn q g e steps = some seen) {x : Seen} (hx : x ∈ seen) :
    ∃ pre s post xs, steps = pre ++ s :: post ∧ s.seen q g (run e pre) = some xs ∧ x ∈ xs := by
  induction steps generalizing e seen with
  | nil =>
    obtain rfl := Option.some.inj h
    cases hx
  | cons s steps ih =>
    obtain ⟨xs, ys, hxs, hys, rfl⟩ := seenIn_cons h
    rcases List.mem_append.1 hx with hx | hx
    · exact ⟨[], s, steps, xs, rfl, hxs, hx⟩
    · obtain ⟨pre, s', post, zs, rfl, hzs, hmem⟩ := ih hys hx
      exact ⟨s :: pre, s', post, zs, rfl, hzs, hmem⟩

/-- What an operation on the group shows. -/
theorem seen_reply (env : Env) (op : GroupOp) {reply : StatusOr Reply} (hreply : (runOp env e (.group q g op)).1 = reply)
    {answer : LeaseQueue.Answer Message UInt32} (hanswer : answerOf reply = some answer) :
    Step.seen q g e (.op env (.group q g op)) = some [.served e.options.policy env.readings op.asked answer] := by
  rw [Step.seen, if_pos ⟨rfl, rfl⟩, hreply, seenReply_of_answer hanswer]
  rfl

/-- What a reply shows. -/
theorem seenReply_cases {opts : EngineOptions} {env : Env} {op : GroupOp} {reply : StatusOr Reply} {x : Seen}
    (h : seenReply opts env op reply = some x) :
    x = .absent ∧ reply = queueNotFound ∨
      ∃ answer, answerOf reply = some answer ∧ x = .served opts.policy env.readings op.asked answer := by
  unfold seenReply at h
  split at h
  · split_ifs at h with hmessage
    · rw [hmessage]
      exact .inl ⟨(Option.some.inj h).symm, rfl⟩
    · obtain ⟨answer, hanswer, rfl⟩ := Option.map_eq_some_iff.1 h
      exact .inr ⟨answer, hanswer, rfl⟩
  · obtain ⟨answer, hanswer, rfl⟩ := Option.map_eq_some_iff.1 h
    exact .inr ⟨answer, hanswer, rfl⟩

theorem seen_own {env : Env} {op : GroupOp} {xs : List Seen} (h : Step.seen q g e (.op env (.group q g op)) = some xs) :
    ∃ x, seenReply e.options env op (runOp env e (.group q g op)).1 = some x ∧ xs = [x] := by
  rw [Step.seen, if_pos ⟨rfl, rfl⟩] at h
  obtain ⟨x, hx, rfl⟩ := Option.map_eq_some_iff.1 h
  exact ⟨x, hx, rfl⟩

/-- A message that is handed out. -/
theorem answerOf_hands {id : MessageId} {reply : StatusOr Reply} (h : hands id reply = true) :
    ∃ i r count, answerOf reply = some (.taken i r count) ∧ r.id = id := by
  unfold hands at h
  split at h
  · rename_i result
    exact ⟨_, _, _, rfl, of_decide_eq_true h⟩
  · cases h

theorem run_middle (e : QueueEngine) (before : List Step) (s : Step) (after : List Step) :
    run e (before ++ s :: after) = run (step (run e before) s) after := by simp [run]

theorem answerOf_done {reply : StatusOr Reply} (h : answerOf reply = some .done) : reply = .ok .done := by
  unfold answerOf at h
  split at h
  · cases h
  · cases h
  · rfl
  · cases h
  · split_ifs at h
    cases h
  · cases h

theorem answerOf_unleased {reply : StatusOr Reply} (h : answerOf reply = some .unleased) :
    reply = .error (.status .kNotFound "inflight not found") := by
  unfold answerOf at h
  split at h
  · cases h
  · cases h
  · cases h
  · cases h
  · split_ifs at h with hm
    rw [hm]
  · cases h

end parts

/-! ## Leases -/

/-- The step may end a lease of the message until `deadline`. -/
inductive EndsLease (q : Path) (g : CString) (id : MessageId) (deadline : UInt64) (e : QueueEngine) : Step → Prop
  | kill {env o k options} : EndsLease q g id deadline e (.kill env o k options)
  | consume {env} (h : deadline ≤ env.now .reapExpiredInflight) : EndsLease q g id deadline e (.op env (.group q g .consume))
  | getStats {env} (h : deadline ≤ env.now .reapExpiredInflight) : EndsLease q g id deadline e (.op env (.group q g .getStats))
  | nack {env} (h : (runOp env e (.group q g (.nack id true))).1 = .ok .done) :
      EndsLease q g id deadline e (.op env (.group q g (.nack id true)))

theorem endsLease_of_seen {q : Path} {g : CString} {id : MessageId} {deadline : UInt64} {e : QueueEngine} {s : Step} {xs : List Seen}
    (h : s.seen q g e = some xs) {x : Seen} (hx : x ∈ xs) (hend : x.Ends id deadline) : EndsLease q g id deadline e s := by
  cases s with
  | kill env o k options => exact .kill
  | op env o =>
    cases o with
    | createQueue q' =>
      obtain rfl := Option.some.inj h
      split_ifs at hx
      · rw [List.mem_singleton.1 hx] at hend
        cases hend
      · cases hx
    | produce q' m =>
      obtain rfl := Option.some.inj h
      split_ifs at hx
      · split at hx
        · rw [List.mem_singleton.1 hx] at hend
          cases hend
        · cases hx
      · cases hx
    | group q' g' op =>
      rw [Step.seen] at h
      split_ifs at h with hown
      · obtain ⟨rfl, rfl⟩ := hown
        obtain ⟨y, hy, rfl⟩ := Option.map_eq_some_iff.1 h
        rw [List.mem_singleton.1 hx] at hend
        rcases seenReply_cases hy with ⟨rfl, -⟩ | ⟨answer, hanswer, rfl⟩
        · cases hend
        cases op with
        | consume =>
          cases hend with
          | take hd => exact .consume hd
        | ack id' => cases hend
        | nack id' requeue =>
          cases hend with
          | nack => exact .nack (answerOf_done hanswer)
        | getStats =>
          cases hend with
          | count hd => exact .getStats hd
      · obtain rfl := Option.some.inj h
        cases hx

/-- A message that a consumer was given is given to another one only after a step that may
have ended the first lease. -/
theorem lease_exclusive (opts : EngineOptions) (q : Path) (g : CString) (before between : List Step) (env env' : Env)
    (h : Faultless opts q g (before ++ .op env (.group q g .consume) :: (between ++ [.op env' (.group q g .consume)])))
    (hdistinct : ((offeredIn q (freshEngine opts)
      (before ++ .op env (.group q g .consume) :: (between ++ [.op env' (.group q g .consume)]))).map (·.id)).Nodup)
    (id : MessageId) (hgiven : hands id (runOp env (run (freshEngine opts) before) (.group q g .consume)).1 = true)
    (hagain : hands id (runOp env' (run (freshEngine opts) (before ++ .op env (.group q g .consume) :: between))
      (.group q g .consume)).1 = true) :
    ∃ pre s post, between ++ [.op env' (.group q g .consume)] = pre ++ s :: post ∧
      EndsLease q g id (env.now .consume + (run (freshEngine opts) before).options.visibility_timeout.toUInt64)
        (run (freshEngine opts) (before ++ .op env (.group q g .consume) :: pre)) s := by
  obtain ⟨seen, s, -, -, -, -, hseen, hruns, -, -⟩ := h.represents hdistinct
  obtain ⟨xs, ys, -, hys, rfl⟩ := seenIn_append hseen
  obtain ⟨first, rest, hfirst, hrest, rfl⟩ := seenIn_cons hys
  obtain ⟨i, r, count, hanswer, rfl⟩ := answerOf_hands hgiven
  rw [seen_reply env .consume rfl hanswer] at hfirst
  obtain rfl := Option.some.inj hfirst
  obtain ⟨s1, -, hruns1⟩ := hruns.split
  cases hruns1 with
  | @cons _ s2 _ _ _ hstep hruns2 =>
    have hname : ∀ (m r : Message), r.Same m → r.id = m.id := fun _ _ hsame => hsame.id
    obtain ⟨hline, hleased⟩ := hstep.taken hname
    by_contra hnone
    -- Nothing ends the lease, so nobody is given the message.
    have hend : ∀ x ∈ rest, ¬ x.Ends r.id (env.now .consume +
        (run (freshEngine opts) before).options.visibility_timeout.toUInt64) := by
      intro x hx hends
      obtain ⟨pre, s, post, zs, hsplit, hzs, hmem⟩ := mem_seenIn hrest hx
      refine hnone ⟨pre, s, post, hsplit, ?_⟩
      rw [run_middle]
      exact endsLease_of_seen hzs hmem hends
    have hnot := hruns2.leased hname hline hleased hend
    obtain ⟨us, vs, -, hvs, rfl⟩ := seenIn_append hrest
    obtain ⟨last, rest', hlast, -, rfl⟩ := seenIn_cons hvs
    rw [run_middle] at hagain
    obtain ⟨i', r', count', hanswer', hid⟩ := answerOf_hands hagain
    rw [seen_reply env' .consume rfl hanswer'] at hlast
    obtain rfl := Option.some.inj hlast
    exact hnot _ (List.mem_append_right us (List.mem_append_left rest' List.mem_cons_self)) ⟨_, _, _, _, _, _, rfl, hid⟩

/-- The process is killed while a consumer has the message. -/
def killedInLease : List Step := [.kill {} (.group someQueue someGroup .getStats) 0 {}, .op {} (.createQueue someQueue)]

def leaseThenKill : List Step :=
  [.op {} (.createQueue someQueue), .op {} (.produce someQueue someMessage)] ++
    .op {} (.group someQueue someGroup .consume) :: (killedInLease ++ [.op {} (.group someQueue someGroup .consume)])

theorem faultless_leaseThenKill : Faultless {} someQueue someGroup leaseThenKill := by
  refine faultless_of_everyday ?_ (by decide +kernel) (by simp [leaseThenKill, killedInLease, Step.operation, Step.kills])
  simp only [leaseThenKill, killedInLease, List.cons_append, List.nil_append, List.forall_mem_cons]
  exact ⟨.createQueue, .produce (by decide), .group, .kill .group, .createQueue, .group, List.forall_mem_nil _⟩

theorem lease_exclusive_killed : ∃ pre s post, killedInLease ++ [.op {} (.group someQueue someGroup .consume)] = pre ++ s :: post ∧
    EndsLease someQueue someGroup ⟨1, 2⟩ 30000
      (run (freshEngine {}) ([.op {} (.createQueue someQueue), .op {} (.produce someQueue someMessage)] ++
        .op {} (.group someQueue someGroup .consume) :: pre)) s :=
  lease_exclusive {} someQueue someGroup _ killedInLease {} {} faultless_leaseThenKill (by decide +kernel) ⟨1, 2⟩ (by decide +kernel)
    (by decide +kernel)

/-! ## Messages that are done with -/

/-- A message that was acknowledged or given up is given to nobody afterwards, and no answer
for it is accepted. -/
theorem settled_for_good (opts : EngineOptions) (q : Path) (g : CString) (before after : List Step) (env env' : Env)
    (op op' : GroupOp)
    (h : Faultless opts q g (before ++ .op env (.group q g op) :: (after ++ [.op env' (.group q g op')])))
    (hdistinct : ((offeredIn q (freshEngine opts)
      (before ++ .op env (.group q g op) :: (after ++ [.op env' (.group q g op')]))).map (·.id)).Nodup)
    (id : MessageId) (hop : op = .ack id ∨ op = .nack id false)
    (hdone : (runOp env (run (freshEngine opts) before) (.group q g op)).1 = .ok .done) :
    hands id (runOp env' (run (freshEngine opts) (before ++ .op env (.group q g op) :: after)) (.group q g op')).1 = false ∧
      ((op' = .ack id ∨ ∃ requeue, op' = .nack id requeue) →
        ∃ message, (runOp env' (run (freshEngine opts) (before ++ .op env (.group q g op) :: after)) (.group q g op')).1 =
          .error (.status .kNotFound message)) := by
  obtain ⟨seen, s, -, -, -, -, hseen, hruns, -, -⟩ := h.represents hdistinct
  obtain ⟨xs, ys, -, hys, rfl⟩ := seenIn_append hseen
  obtain ⟨first, rest, hfirst, hrest, rfl⟩ := seenIn_cons hys
  rw [seen_reply env op hdone rfl] at hfirst
  obtain rfl := Option.some.inj hfirst
  obtain ⟨s1, -, hruns1⟩ := hruns.split
  cases hruns1 with
  | @cons _ s2 _ _ _ hstep hruns2 =>
    have hname : ∀ (m r : Message), r.Same m → r.id = m.id := fun _ _ hsame => hsame.id
    have hsettled : LeaseQueue.Settled (s2.place id) := by
      apply hstep.answered
      rcases hop with rfl | rfl
      · exact .inl rfl
      · exact .inr rfl
    obtain ⟨us, vs, -, hvs, rfl⟩ := seenIn_append hrest
    obtain ⟨last, rest', hlast, -, rfl⟩ := seenIn_cons hvs
    obtain ⟨x, hx, rfl⟩ := seen_own hlast
    obtain ⟨hnot, hlate⟩ := hruns2.settled hname hsettled x (List.mem_append_right us (List.mem_append_left rest' List.mem_cons_self))
    rw [run_middle]
    rcases seenReply_cases hx with ⟨rfl, hreply⟩ | ⟨answer, hanswer, rfl⟩
    · rw [hreply]
      exact ⟨rfl, fun _ => ⟨_, rfl⟩⟩
    · refine ⟨?_, fun hop' => ?_⟩
      · by_contra hgives
        obtain ⟨i, r, count, hanswer', hid⟩ := answerOf_hands (Bool.eq_true_of_not_eq_false hgives)
        rw [hanswer] at hanswer'
        obtain rfl := Option.some.inj hanswer'
        exact hnot ⟨_, _, _, _, _, _, rfl, hid⟩
      · have hunleased := hlate _ _ _ answer rfl (by
          rcases hop' with rfl | ⟨requeue, rfl⟩
          · exact .inl rfl
          · exact .inr ⟨requeue, rfl⟩)
        rw [hunleased] at hanswer
        exact ⟨_, answerOf_unleased hanswer⟩

/-- The message is acknowledged, and once more after the process was killed. -/
def ackedTwice : List Step :=
  [.op {} (.createQueue someQueue), .op {} (.produce someQueue someMessage), .op {} (.group someQueue someGroup .consume)] ++
    .op {} (.group someQueue someGroup (.ack ⟨1, 2⟩)) :: (killedInLease ++ [.op {} (.group someQueue someGroup (.ack ⟨1, 2⟩))])

theorem faultless_ackedTwice : Faultless {} someQueue someGroup ackedTwice := by
  refine faultless_of_everyday ?_ (by decide +kernel) (by simp [ackedTwice, killedInLease, Step.operation, Step.kills])
  simp only [ackedTwice, killedInLease, List.cons_append, List.nil_append, List.forall_mem_cons]
  exact ⟨.createQueue, .produce (by decide), .group, .group, .kill .group, .createQueue, .group, List.forall_mem_nil _⟩

def isDone : StatusOr Reply → Bool
  | .ok .done => true
  | _ => false

theorem eq_done_of {reply : StatusOr Reply} (h : isDone reply = true) : reply = .ok .done := by
  unfold isDone at h
  split at h
  · rfl
  · cases h

theorem settled_for_good_acked : ∃ message,
    (runOp {} (run (freshEngine {}) ([.op {} (.createQueue someQueue), .op {} (.produce someQueue someMessage),
        .op {} (.group someQueue someGroup .consume)] ++ .op {} (.group someQueue someGroup (.ack ⟨1, 2⟩)) :: killedInLease))
      (.group someQueue someGroup (.ack ⟨1, 2⟩))).1 = .error (.status .kNotFound message) :=
  (settled_for_good {} someQueue someGroup _ killedInLease {} {} (.ack ⟨1, 2⟩) (.ack ⟨1, 2⟩) faultless_ackedTwice (by decide +kernel)
    ⟨1, 2⟩ (.inl rfl) (eq_done_of (by decide +kernel))).2 (.inl rfl)

/-! ## One message after the other -/

/-- The process is killed, and the queue is opened again. -/
structure Restart where
  env : Env
  calls : Nat
  options : EngineOptions
  reopen : Env

def Restart.steps (q : Path) (r : Restart) : List Step := [.kill r.env (.createQueue q) r.calls r.options, .op r.reopen (.createQueue q)]

/-- A message, and how it is consumed: maybe after a restart, and then acknowledged or given
up. -/
structure Job where
  produce : Env
  message : Message
  restart : Option Restart := none
  take : Env
  settle : Env
  ack : Bool := true

def Job.producing (q : Path) (x : Job) : Step := .op x.produce (.produce q x.message)

def Job.settling (x : Job) : GroupOp := if x.ack then .ack x.message.id else .nack x.message.id false

def Job.consuming (q : Path) (g : CString) (x : Job) : List Step :=
  (x.restart.elim [] (·.steps q)) ++ [.op x.take (.group q g .consume), .op x.settle (.group q g x.settling)]

/-- All messages are produced, and then one after the other is consumed. -/
def workThrough (q : Path) (g : CString) (create : Env) (jobs : List Job) (last : Env) : List Step :=
  .op create (.createQueue q) :: (jobs.map (·.producing q) ++ (jobs.flatMap (·.consuming q g) ++ [.op last (.group q g .consume)]))

def allAccepted (q : Path) : QueueEngine → List Job → Bool
  | _, [] => true
  | e, x :: jobs => (produceOnShard x.produce q x.message e).1.isOk && allAccepted q (step e (x.producing q)) jobs

/-- The job was given its message, for the first time. -/
structure Job.Got (x : Job) (i : Nat) (r : ConsumeResult) : Prop where
  message : r.message.Same x.message
  offset : r.offset.toNat = i
  first : r.delivery_count = 1

/-- The reply, if the step is an operation on the group. -/
def Step.reply (q : Path) (g : CString) (e : QueueEngine) : Step → List (StatusOr Reply)
  | .op env (.group q' g' o) => if q' = q ∧ g' = g then [(runOp env e (.group q' g' o)).1] else []
  | _ => []

def repliesIn (q : Path) (g : CString) : QueueEngine → List Step → List (StatusOr Reply)
  | _, [] => []
  | e, s :: steps => s.reply q g e ++ repliesIn q g (step e s) steps

section work

variable {q : Path} {g : CString} {e : QueueEngine}

theorem repliesIn_append (e : QueueEngine) (a b : List Step) :
    repliesIn q g e (a ++ b) = repliesIn q g e a ++ repliesIn q g (run e a) b := by
  induction a generalizing e with
  | nil => rfl
  | cons s a ih => rw [List.cons_append, repliesIn, ih, repliesIn, List.append_assoc, run_cons]

theorem offeredIn_append (e : QueueEngine) (a b : List Step) : offeredIn q e (a ++ b) = offeredIn q e a ++ offeredIn q (run e a) b := by
  induction a generalizing e with
  | nil => rfl
  | cons s a ih => rw [List.cons_append, offeredIn, ih, offeredIn, List.append_assoc, run_cons]

theorem offeredIn_producing (e : QueueEngine) (jobs : List Job) :
    (offeredIn q e (jobs.map (·.producing q))).Sublist (jobs.map (·.message)) := by
  induction jobs generalizing e with
  | nil => exact .slnil
  | cons x jobs ih =>
    have hone : (Step.offers q e (x.producing q)).Sublist [x.message] := by
      simp only [Job.producing, Step.offers, Step.accepted, true_and]
      split_ifs
      · exact .refl _
      · exact List.nil_sublist _
    exact hone.append (ih _)

theorem offeredIn_consuming (e : QueueEngine) (jobs : List Job) : offeredIn q e (jobs.flatMap (·.consuming q g)) = [] := by
  induction jobs generalizing e with
  | nil => rfl
  | cons x jobs ih =>
    rw [List.flatMap_cons, offeredIn_append, ih, List.append_nil]
    cases hr : x.restart with
    | none => simp [Job.consuming, hr, offeredIn, Step.offers, Step.accepted]
    | some r => simp [Job.consuming, hr, Restart.steps, offeredIn, Step.offers, Step.accepted]

theorem seen_createQueue {env : Env} (hq : env.toIo.Quiet) (hnone : e.queues.lookup q = none) :
    Step.seen q g e (.op env (.createQueue q)) = some [.created] := by
  rw [Step.seen, if_pos ⟨rfl, createQueue_quiet hq hnone⟩]

/-- What the queue answers when it is there. -/
theorem served_of_seen {env : Env} {op : GroupOp} {xs : List Seen} (h : Step.seen q g e (.op env (.group q g op)) = some xs)
    {s s' : AbstractQueue} (hruns : SeenRuns s xs s') (hthere : s.there = true) :
    ∃ answer, answerOf (runOp env e (.group q g op)).1 = some answer ∧
      SeenStep s (.served e.options.policy env.readings op.asked answer) s' ∧ s'.there = true ∧ s'.published = s.published := by
  obtain ⟨x, hx, rfl⟩ := seen_own h
  cases hruns with
  | cons hstep hnil =>
    cases hnil
    rcases seenReply_cases hx with ⟨rfl, -⟩ | ⟨answer, hanswer, rfl⟩
    · cases hstep with
      | absent habsent =>
        rw [hthere] at habsent
        cases habsent
    · refine ⟨answer, hanswer, hstep, ?_⟩
      cases hstep with
      | served _ _ => exact ⟨hthere, rfl⟩

theorem answerOf_nothing {reply : StatusOr Reply} (h : answerOf reply = some .nothing) : reply = .ok (.consumed none) := by
  unfold answerOf at h
  split at h
  · rfl
  · cases h
  · cases h
  · cases h
  · split_ifs at h
    cases h
  · cases h

theorem answerOf_taken {reply : StatusOr Reply} {i : Nat} {m : Message} {count : UInt32} (h : answerOf reply = some (.taken i m count)) :
    ∃ result, reply = .ok (.consumed (some result)) ∧ result.offset.toNat = i ∧ result.message = m ∧ result.delivery_count = count := by
  unfold answerOf at h
  split at h
  · cases h
  · rename_i result
    cases h
    exact ⟨result, rfl, rfl, rfl, rfl⟩
  · cases h
  · cases h
  · split_ifs at h
    cases h
  · cases h

/-- Messages are published in the order in which they are produced. -/
theorem published_producing {jobs : List Job} (hall : allAccepted q e jobs = true) {seen : List Seen}
    (hseen : seenIn q g e (jobs.map (·.producing q)) = some seen) {s s' : AbstractQueue} (hruns : SeenRuns s seen s') :
    s' = { s with published := s.published ++ jobs.map (·.message) } := by
  induction jobs generalizing e seen s with
  | nil =>
    obtain rfl := Option.some.inj hseen
    cases hruns
    rw [List.map_nil, List.append_nil]
  | cons x jobs ih =>
    obtain ⟨hok, hrest⟩ := Bool.and_eq_true_iff.1 hall
    obtain ⟨xs, ys, hxs, hys, rfl⟩ := seenIn_cons hseen
    dsimp only [Job.producing, Step.seen] at hxs
    rw [if_pos rfl] at hxs
    obtain ⟨offset, hres⟩ : ∃ offset, (produceOnShard x.produce q x.message e).1 = .ok offset := by
      cases hres : (produceOnShard x.produce q x.message e).1 with
      | ok offset => exact ⟨offset, rfl⟩
      | error err =>
        rw [hres] at hok
        cases hok
    rw [hres] at hxs
    obtain rfl := Option.some.inj hxs
    cases hruns with
    | cons hstep hruns' =>
      generalize offset.toNat = i at hstep
      cases hstep with
      | published _ =>
        rw [ih hrest hys hruns', List.append_assoc]
        rfl

theorem newPlace_deliverable (times : LeaseQueue.Reading → UInt64) : LeaseQueue.Deliverable times newPlace :=
  ⟨0, rfl, UInt64.zero_le⟩

theorem repliesIn_restart (restart : Option Restart) : repliesIn q g e (restart.elim [] (·.steps q)) = [] := by
  cases restart with
  | none => rfl
  | some r => rfl

theorem options_restart (restart : Option Restart) :
    (run e (restart.elim [] (·.steps q))).options = restart.elim e.options (·.options) := by
  cases restart with
  | none => rfl
  | some r => exact runOp_options r.reopen (step e (.kill r.env (.createQueue q) r.calls r.options)) (.createQueue q)

/-- The process is killed and the queue is opened again, maybe. Nothing changes for the
messages. -/
theorem drained_restart {i : Nat} {s : AbstractQueue} (h : LeaseQueue.Drained (·.id) newPlace i s) (hthere : s.there = true)
    {restart : Option Restart} (hquiet : ∀ r ∈ restart, r.reopen.toIo.Quiet) {seen : List Seen}
    (hseen : seenIn q g e (restart.elim [] (·.steps q)) = some seen) {s' : AbstractQueue} (hruns : SeenRuns s seen s') :
    LeaseQueue.Drained (·.id) newPlace i s' ∧ s'.there = true ∧ s'.published = s.published := by
  cases restart with
  | none =>
    obtain rfl := Option.some.inj hseen
    cases hruns
    exact ⟨h, hthere, rfl⟩
  | some r =>
    obtain ⟨xs, ys, hxs, hys, rfl⟩ := seenIn_cons hseen
    obtain ⟨zs, ws, hzs, hws, rfl⟩ := seenIn_cons hys
    rw [seen_createQueue (hquiet r rfl) rfl] at hzs
    obtain rfl := Option.some.inj hxs
    obtain rfl := Option.some.inj hzs
    obtain rfl := Option.some.inj hws
    cases hruns with
    | cons hstop hruns' =>
      cases hruns' with
      | cons hcreate hnil =>
        cases hnil
        obtain ⟨-, hstopped⟩ := h.stop hstop rfl
        obtain ⟨hthere', hcreated⟩ := hstopped.create hcreate
        refine ⟨hcreated, hthere', ?_⟩
        cases hcreate with
        | created _ =>
          cases hstop with
          | stopped => rfl

/-- One job: its message is given out, and settled. -/
theorem drained_job {i : Nat} {s : AbstractQueue} (h : LeaseQueue.Drained (·.id) newPlace i s) (hthere : s.there = true) {x : Job}
    (hquiet : ∀ r ∈ x.restart, r.reopen.toIo.Quiet) (hroom : 0 < e.options.max_inflight)
    (hroom' : ∀ r ∈ x.restart, 0 < r.options.max_inflight) (hm : s.published[i]? = some x.message) {seen : List Seen}
    (hseen : seenIn q g e (x.consuming q g) = some seen) {s' : AbstractQueue} (hruns : SeenRuns s seen s') :
    LeaseQueue.Drained (·.id) newPlace (i + 1) s' ∧ s'.there = true ∧ s'.published = s.published ∧
      ∃ r, repliesIn q g e (x.consuming q g) = [.ok (.consumed (some r)), .ok .done] ∧ x.Got i r := by
  obtain ⟨xs, ys, hxs, hys, rfl⟩ := seenIn_append hseen
  obtain ⟨takes, rest, htakes, hrest, rfl⟩ := seenIn_cons hys
  obtain ⟨settles, none', hsettles, hnil, rfl⟩ := seenIn_cons hrest
  obtain rfl := Option.some.inj hnil
  obtain ⟨s1, hruns1, hruns2⟩ := hruns.split
  obtain ⟨s2, hruns2, hruns3⟩ := hruns2.split
  rw [List.append_nil] at hruns3
  obtain ⟨h1, hthere1, hpub1⟩ := drained_restart h hthere hquiet hxs hruns1
  -- The message is given out.
  have hroom1 : 0 < (run e (x.restart.elim [] (·.steps q))).options.policy.room := by
    rw [options_restart]
    change 0 < (x.restart.elim e.options (·.options)).max_inflight.toNat
    cases hr : x.restart with
    | none => exact hroom
    | some r => exact hroom' r hr
  obtain ⟨answer, hanswer, hstep, hthere2, hpub2⟩ := served_of_seen htakes hruns2 hthere1
  rw [← hpub1] at hm
  obtain ⟨m, rfl, hsame, htaking⟩ := h1.take newPlace_deliverable hroom1 hm hstep
  obtain ⟨r, hreply, hoffset, hmessage, hcount⟩ := answerOf_taken hanswer
  -- It is settled.
  obtain ⟨answer', hanswer', hstep', hthere3, hpub3⟩ := served_of_seen hsettles hruns3 hthere2
  obtain ⟨rfl, h3⟩ := htaking.settle (by
    unfold Job.settling
    split
    · exact .inl rfl
    · exact .inr rfl) hstep'
  have hdone := answerOf_done hanswer'
  refine ⟨h3, hthere3, by rw [hpub3, hpub2, hpub1], r, ?_, by rw [hmessage]; exact hsame, hoffset, hcount⟩
  rw [Job.consuming, repliesIn_append, repliesIn_restart, List.nil_append]
  simp only [repliesIn, Step.reply, true_and, if_true, List.append_nil, List.cons_append, List.nil_append]
  rw [hreply, hdone]

theorem options_consuming (x : Job) : (run e (x.consuming q g)).options = x.restart.elim e.options (·.options) := by
  rw [Job.consuming, run_middle, run_cons, run_nil]
  rw [step, runOp_options, step, runOp_options, options_restart]

/-- One job after the other. -/
theorem drained_jobs {jobs : List Job} {i : Nat} {s : AbstractQueue} (h : LeaseQueue.Drained (·.id) newPlace i s)
    (hthere : s.there = true) (hquiet : ∀ x ∈ jobs, ∀ r ∈ x.restart, r.reopen.toIo.Quiet) (hroom : 0 < e.options.max_inflight)
    (hroom' : ∀ x ∈ jobs, ∀ r ∈ x.restart, 0 < r.options.max_inflight)
    (hm : ∀ j x, jobs[j]? = some x → s.published[i + j]? = some x.message) {seen : List Seen}
    (hseen : seenIn q g e (jobs.flatMap (·.consuming q g)) = some seen) {s' : AbstractQueue} (hruns : SeenRuns s seen s') :
    LeaseQueue.Drained (·.id) newPlace (i + jobs.length) s' ∧ s'.there = true ∧ s'.published = s.published ∧
      ∃ rs : List ConsumeResult, repliesIn q g e (jobs.flatMap (·.consuming q g)) =
          rs.flatMap (fun r => [.ok (.consumed (some r)), .ok .done]) ∧ rs.length = jobs.length ∧
        ∀ j r, rs[j]? = some r → ∃ x : Job, jobs[j]? = some x ∧ x.Got (i + j) r := by
  induction jobs generalizing e i s seen with
  | nil =>
    obtain rfl := Option.some.inj hseen
    cases hruns
    exact ⟨h, hthere, rfl, [], rfl, rfl, fun j r hr => by cases hr⟩
  | cons x jobs ih =>
    obtain ⟨xs, ys, hxs, hys, rfl⟩ := seenIn_append hseen
    obtain ⟨s1, hruns1, hruns2⟩ := hruns.split
    have hrestart := hroom' x List.mem_cons_self
    obtain ⟨h1, hthere1, hpub1, r, hreplies, hgot⟩ := drained_job h hthere (hquiet x List.mem_cons_self) hroom hrestart
      (hm 0 x rfl) hxs hruns1
    have hroom1 : 0 < (run e (x.consuming q g)).options.max_inflight := by
      rw [options_consuming]
      cases hr : x.restart with
      | none => exact hroom
      | some r => exact hrestart r hr
    have hm1 : ∀ j y, jobs[j]? = some y → s1.published[i + 1 + j]? = some y.message := by
      intro j y hy
      rw [hpub1, show i + 1 + j = i + (j + 1) by omega]
      exact hm (j + 1) y hy
    obtain ⟨h2, hthere2, hpub2, rs, hreplies2, hlen, hgot2⟩ := ih h1 hthere1 (fun y hy => hquiet y (List.mem_cons_of_mem _ hy)) hroom1
      (fun y hy => hroom' y (List.mem_cons_of_mem _ hy)) hm1 hys hruns2
    refine ⟨?_, hthere2, hpub2.trans hpub1, r :: rs, ?_, by rw [List.length_cons, List.length_cons, hlen], fun j r' hr' => ?_⟩
    · rw [List.length_cons, show i + (jobs.length + 1) = i + 1 + jobs.length by omega]
      exact h2
    · rw [List.flatMap_cons, List.flatMap_cons, repliesIn_append, hreplies, hreplies2]
    · cases j with
      | zero =>
        obtain rfl := Option.some.inj hr'
        exact ⟨x, rfl, hgot⟩
      | succ j =>
        obtain ⟨y, hy, hgot'⟩ := hgot2 j r' hr'
        rw [show i + 1 + j = i + (j + 1) by omega] at hgot'
        exact ⟨y, hy, hgot'⟩

theorem options_producing (jobs : List Job) : (run e (jobs.map (·.producing q))).options = e.options := by
  induction jobs generalizing e with
  | nil => rfl
  | cons x jobs ih =>
    rw [List.map_cons, run_cons, ih]
    exact runOp_options x.produce e (.produce q x.message)

theorem repliesIn_producing (jobs : List Job) : repliesIn q g e (jobs.map (·.producing q)) = [] := by
  induction jobs generalizing e with
  | nil => rfl
  | cons x jobs ih => exact ih

/-- All messages are there, and none was taken. -/
theorem drained_start {opts : EngineOptions} {create : Env} (hquiet : create.toIo.Quiet) {jobs : List Job}
    (hdistinct : (jobs.map (·.message.id)).Nodup)
    (hall : allAccepted q (step (freshEngine opts) (.op create (.createQueue q))) jobs = true) {seen : List Seen}
    (hseen : seenIn q g (freshEngine opts) (.op create (.createQueue q) :: jobs.map (·.producing q)) = some seen) {s : AbstractQueue}
    (hruns : SeenRuns emptyQueue seen s) :
    LeaseQueue.Drained (·.id) newPlace 0 s ∧ s.there = true ∧ s.published = jobs.map (·.message) := by
  obtain ⟨xs, ys, hxs, hys, rfl⟩ := seenIn_cons hseen
  rw [seen_createQueue hquiet rfl] at hxs
  obtain rfl := Option.some.inj hxs
  cases hruns with
  | cons hstep hruns =>
    cases hstep with
    | created _ =>
      rw [published_producing hall hys hruns]
      refine ⟨⟨?_, rfl, fun j hj => absurd hj (Nat.not_lt_zero j), fun _ _ _ _ => rfl, fun _ => rfl⟩, rfl, rfl⟩
      change ((jobs.map (·.message)).map (·.id)).Nodup
      rw [List.map_map]
      exact hdistinct

end work

/-- Whoever takes and settles one message after the other gets all of them, in the order in
which they were produced, each once, no matter when the process is killed in between. -/
theorem drained (opts : EngineOptions) (q : Path) (g : CString) (create last : Env) (jobs : List Job)
    (h : Faultless opts q g (workThrough q g create jobs last)) (hdistinct : (jobs.map (·.message.id)).Nodup)
    (hall : allAccepted q (step (freshEngine opts) (.op create (.createQueue q))) jobs = true) (hroom : 0 < opts.max_inflight)
    (hroom' : ∀ x ∈ jobs, ∀ r ∈ x.restart, 0 < r.options.max_inflight) :
    ∃ rs : List ConsumeResult, repliesIn q g (freshEngine opts) (workThrough q g create jobs last) =
        rs.flatMap (fun r => [.ok (.consumed (some r)), .ok .done]) ++ [.ok (.consumed none)] ∧ rs.length = jobs.length ∧
      ∀ i r, rs[i]? = some r → ∃ x : Job, jobs[i]? = some x ∧ x.Got i r := by
  have hoffered : (offeredIn q (freshEngine opts) (workThrough q g create jobs last)).Sublist (jobs.map (·.message)) := by
    rw [workThrough, offeredIn, offeredIn_append, offeredIn_append, offeredIn_consuming]
    simpa [offeredIn, Step.offers, Step.accepted] using offeredIn_producing _ jobs
  have hnodup : ((jobs.map (·.message)).map (·.id)).Nodup := by
    rw [List.map_map]
    exact hdistinct
  obtain ⟨seen, s, -, -, -, -, hseen, hruns, -, -⟩ := h.represents (hnodup.sublist (hoffered.map _))
  rw [workThrough, ← List.cons_append] at hseen
  obtain ⟨xs, ys, hxs, hys, rfl⟩ := seenIn_append hseen
  obtain ⟨zs, ws, hzs, hws, rfl⟩ := seenIn_append hys
  obtain ⟨us, vs, hus, hvs, rfl⟩ := seenIn_cons hws
  obtain rfl := Option.some.inj hvs
  obtain ⟨s1, hruns1, hruns⟩ := hruns.split
  obtain ⟨s2, hruns2, hruns3⟩ := hruns.split
  rw [List.append_nil] at hruns3
  have hquiet : ∀ x ∈ jobs, ∀ r ∈ x.restart, r.reopen.toIo.Quiet := by
    intro x hx r hr
    have hmem : Step.op r.reopen (.createQueue q) ∈ x.consuming q g := by
      rw [Job.consuming, hr]
      exact List.mem_append_left _ (List.mem_cons_of_mem _ List.mem_cons_self)
    refine h.quiet (.op r.reopen (.createQueue q)) ?_
    apply List.mem_cons_of_mem
    apply List.mem_append_right
    apply List.mem_append_left
    exact List.mem_flatMap.2 ⟨x, hx, hmem⟩
  have hoptions : (run (freshEngine opts) (.op create (.createQueue q) :: jobs.map (·.producing q))).options = opts := by
    rw [run_cons, options_producing]
    exact runOp_options create (freshEngine opts) (.createQueue q)
  obtain ⟨h1, hthere1, hpub1⟩ := drained_start (h.quiet (.op create (.createQueue q)) List.mem_cons_self) hdistinct hall hxs hruns1
  obtain ⟨h2, hthere2, hpub2, rs, hreplies, hlen, hgot⟩ := drained_jobs h1 hthere1 hquiet (by rw [hoptions]; exact hroom) hroom'
    (fun j x hx => by rw [hpub1, Nat.zero_add, List.getElem?_map, hx]; rfl) hzs hruns2
  -- Nothing is left.
  obtain ⟨answer, hanswer, hstep, -, -⟩ := served_of_seen hus hruns3 hthere2
  obtain rfl := h2.nothing (by rw [hpub2, hpub1, List.length_map, Nat.zero_add]) hstep
  refine ⟨rs, ?_, hlen, fun i r hr => ?_⟩
  · rw [workThrough, ← List.cons_append, repliesIn_append, repliesIn_append, hreplies]
    have hnone : repliesIn q g (freshEngine opts) (.op create (.createQueue q) :: jobs.map (·.producing q)) = [] :=
      repliesIn_producing jobs
    rw [hnone, List.nil_append]
    simp only [repliesIn, Step.reply, true_and, if_true, List.append_nil]
    rw [answerOf_nothing hanswer]
  · obtain ⟨x, hx, hgot'⟩ := hgot i r hr
    rw [Nat.zero_add] at hgot'
    exact ⟨x, hx, hgot'⟩

/-- Two messages. The process is killed between them, and the second is given up. -/
def twoJobs : List Job :=
  [{ produce := {}, message := someMessage, take := {}, settle := {} },
    { produce := {}, message := { id := ⟨3, 4⟩, payload := [8] }, restart := some ⟨{}, 1, {}, {}⟩, take := {}, settle := {}, ack := false }]

theorem faultless_twoJobs : Faultless {} someQueue someGroup (workThrough someQueue someGroup {} twoJobs {}) := by
  refine faultless_of_everyday ?_ (by decide +kernel) ?_
  · simp only [workThrough, twoJobs, Job.producing, Job.consuming, Restart.steps, List.map_cons, List.map_nil, List.flatMap_cons,
      List.flatMap_nil, Option.elim_none, Option.elim_some, List.cons_append, List.nil_append, List.forall_mem_cons]
    exact ⟨.createQueue, .produce (by decide), .produce (by decide), .group, .group, .kill .createQueue, .createQueue, .group, .group,
      .group, List.forall_mem_nil _⟩
  · simp [workThrough, twoJobs, Job.producing, Job.consuming, Restart.steps, Step.operation, Step.kills]

theorem drained_twoJobs : ∃ rs : List ConsumeResult,
    repliesIn someQueue someGroup (freshEngine {}) (workThrough someQueue someGroup {} twoJobs {}) =
        rs.flatMap (fun r => [.ok (.consumed (some r)), .ok .done]) ++ [.ok (.consumed none)] ∧ rs.length = twoJobs.length ∧
      ∀ i r, rs[i]? = some r → ∃ x : Job, twoJobs[i]? = some x ∧ x.Got i r :=
  drained {} someQueue someGroup {} {} twoJobs faultless_twoJobs (by decide) (by decide +kernel) (by decide) (by simp [twoJobs])

end PomaiQueue.Engine
