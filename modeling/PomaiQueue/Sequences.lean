import PomaiQueue.Membership
import PomaiQueue.Tracks
/-!
# Sequence numbers and lease tokens

A sequence number is taken before the event is appended, so a failed append
leaves a gap, and a load goes on after the larger of the snapshot's number and
the log's last one. `Numbered` is what this keeps: the numbers in the log grow,
and the next one is above them and at most one more than there were attempts.

A lease token ends in the decimal sequence number, which gives the number back
(`leaseToken_sequence`).
-/

namespace PomaiQueue.Engine

open Wire Posix Assoc Storage

/-! ## Decimal numbers -/

/-- The number that digits stand for. -/
def undecimal (digits : Bytes) : Nat := digits.foldl (fun n d => 10 * n + (d.toNat - 48)) 0

theorem digit_toNat (n : Nat) : (UInt8.ofNat (48 + n % 10)).toNat = 48 + n % 10 := by
  have hsize : UInt8.size = 256 := rfl
  exact UInt8.toNat_ofNat_of_lt' (by omega)

theorem undecimal_digits (fuel n : Nat) (h : n < 10 ^ fuel) : undecimal (decimal.digits fuel n) = n := by
  induction fuel generalizing n with
  | zero =>
    obtain rfl : n = 0 := by omega
    rfl
  | succ fuel ih =>
    rw [decimal.digits, undecimal, List.foldl_append, List.foldl_cons, List.foldl_nil, digit_toNat]
    split
    · simp only [List.foldl_nil]
      omega
    · have hrest := ih (n / 10) (by rw [pow_succ] at h; omega)
      rw [undecimal] at hrest
      rw [hrest]
      omega

theorem undecimal_decimal (n : UInt64) : undecimal (decimal n) = n.toNat := by
  exact undecimal_digits 20 n.toNat (lt_of_lt_of_le n.toNat_lt (by decide))

theorem digits_ne_colon (fuel n : Nat) : ∀ d ∈ decimal.digits fuel n, d ≠ 58 := by
  induction fuel generalizing n with
  | zero => simp [decimal.digits]
  | succ fuel ih =>
    intro d hd
    rw [decimal.digits, List.mem_append, List.mem_singleton] at hd
    rcases hd with hd | rfl
    · split at hd
      · cases hd
      · exact ih _ d hd
    · intro hc
      have := congrArg UInt8.toNat hc
      rw [digit_toNat] at this
      have h58 : (58 : UInt8).toNat = 58 := rfl
      omega

/-- What stands behind the last separator. -/
theorem behind_last {α : Type} [DecidableEq α] {c : α} {a a' b b' : List α} (h : a ++ c :: b = a' ++ c :: b')
    (hb : ∀ d ∈ b, d ≠ c) (hb' : ∀ d ∈ b', d ≠ c) : b = b' := by
  have hside : ∀ (x y : List α), (∀ d ∈ y, d ≠ c) → (x ++ c :: y).reverse.takeWhile (· ≠ c) = y.reverse := by
    intro x y hy
    rw [List.reverse_append, List.reverse_cons, List.append_assoc,
      List.takeWhile_append_of_pos (fun d hd => by simpa using hy d (List.mem_reverse.1 hd))]
    simp
  have := congrArg (fun l => l.reverse.takeWhile (· ≠ c)) h
  simp only [hside _ _ hb, hside _ _ hb'] at this
  exact List.reverse_injective this

theorem leaseToken_sequence {id id' : MessageId} {s s' : UInt64} (h : leaseToken id s = leaseToken id' s') : s = s' := by
  have hbytes := congrArg Subtype.val h
  have hcolon : ascii ":" = [58] := by decide
  simp only [leaseToken, hcolon, List.append_assoc, List.singleton_append] at hbytes
  have hsplit : (decimal id.high ++ 58 :: decimal id.low) ++ 58 :: decimal s =
      (decimal id'.high ++ 58 :: decimal id'.low) ++ 58 :: decimal s' := by simpa using hbytes
  have hlast := behind_last hsplit (digits_ne_colon _ _) (digits_ne_colon _ _)
  apply UInt64.toNat_inj.1
  rw [← undecimal_decimal, ← undecimal_decimal, hlast]

/-! ## What is logged -/

section fires

variable {faulty : Prop} {env : Env} {opts : EngineOptions} {g : CString} {read : UInt64 → StatusOr Record} {op : GroupOp}
  {group : ConsumerGroupState} {event : TransitionEvent}

theorem Fires.sequence (h : Fires env opts g read op group event) : event.sequence = group.next_sequence := by
  cases h with
  | timeout id entry rt hop hin hdl hrt =>
    unfold timeoutEvent
    split <;> rfl
  | deliver => rfl
  | ack => rfl
  | nack id requeue entry rt hop hin hrt =>
    unfold nackEvent
    split
    · rfl
    · split <;> rfl

/-- A delivery carries the token made of its id and sequence. -/
theorem Fires.token (h : Fires env opts g read op group event) (hr : event.reason = .kDelivered) :
    event.lease_token = leaseToken event.id event.sequence := by
  cases h with
  | timeout id entry rt hop hin hdl hrt =>
    unfold timeoutEvent at hr
    split at hr <;> cases hr
  | deliver => rfl
  | ack => cases hr
  | nack id requeue entry rt hop hin hrt =>
    unfold nackEvent at hr
    split at hr
    · cases hr
    · split at hr <;> cases hr

end fires

/-! ## Numbered -/

/-- The number a snapshot carries, whatever else is in it. -/
theorem loadSnapshot_next {env : Env} {a group base : ConsumerGroupState} (h : loadSnapshot (snapshotBytes env a) group = .ok base) :
    base.next_sequence = a.next_sequence := by
  have hcount : IStream.read ⟨snapshotBytes env a, false⟩ 8 =
      (putU64 (UInt64.ofNat (env.runtime_order.order a.runtime.entries).length),
        ⟨putU64 a.next_sequence ++ (env.runtime_order.order a.runtime.entries).flatMap encodeItem, false⟩) :=
    IStream.read_append _ _ 8 (putU64_length _)
  have hnext : IStream.read
      ⟨putU64 a.next_sequence ++ (env.runtime_order.order a.runtime.entries).flatMap encodeItem, false⟩ 8 =
      (putU64 a.next_sequence, ⟨(env.runtime_order.order a.runtime.entries).flatMap encodeItem, false⟩) :=
    IStream.read_append _ _ 8 (putU64_length _)
  simp only [loadSnapshot, hcount, hnext, getU64_putU64, Bool.false_eq_true, if_false] at h
  split at h
  · cases h
  · rw [← Except.ok.inj h]

/-- The number after a replay is above the log's and no larger than it has to be. -/
theorem replay_next (env : Env) (opts : EngineOptions) (log : List TransitionEvent) (group : ConsumerGroupState) (bound : Nat)
    (hlog : ∀ event ∈ log, event.sequence.toNat + 1 ≤ bound) (hgroup : group.next_sequence.toNat ≤ bound)
    (hbound : bound < 2 ^ 64) :
    (∀ event ∈ log, event.sequence.toNat < (replay env opts log group).next_sequence.toNat) ∧
      group.next_sequence.toNat ≤ (replay env opts log group).next_sequence.toNat ∧
      (replay env opts log group).next_sequence.toNat ≤ bound := by
  induction log using List.reverseRecOn with
  | nil => exact ⟨by simp, Nat.le_refl _, hgroup⟩
  | append_singleton log event ih =>
    obtain ⟨hlt, hge, hle⟩ := ih fun e he => hlog e (List.mem_append_left _ he)
    have hev := hlog event (by simp)
    have hsucc : (event.sequence + 1).toNat = event.sequence.toNat + 1 := by
      rw [UInt64.toNat_add]
      exact Nat.mod_eq_of_lt (by simpa using (by omega : event.sequence.toNat + 1 < 2 ^ 64))
    rw [replay_concat]
    dsimp only
    by_cases h : (replay env opts log group).next_sequence < event.sequence + 1
    · rw [if_pos h, hsucc]
      rw [UInt64.lt_iff_toNat_lt, hsucc] at h
      refine ⟨fun e he => ?_, by omega, hev⟩
      rcases List.mem_append.1 he with he | he
      · have := hlt e he
        omega
      · rw [List.mem_singleton.1 he]
        omega
    · rw [if_neg h]
      rw [UInt64.lt_iff_toNat_lt, hsucc] at h
      refine ⟨fun e he => ?_, hge, hle⟩
      rcases List.mem_append.1 he with he | he
      · exact hlt e he
      · rw [List.mem_singleton.1 he]
        omega

/-- The numbers in the log, in memory and in the snapshots after `attempts`
attempted transitions. -/
structure Numbered (n : Node) (attempts : Nat) : Prop where
  sorted : n.log.Pairwise fun a b => a.sequence < b.sequence
  log : ∀ event ∈ n.log, 0 < event.sequence.toNat ∧ event.sequence.toNat ≤ attempts
  tokens : ∀ event ∈ n.log, event.reason = .kDelivered → event.lease_token = leaseToken event.id event.sequence
  above : ∀ group, n.group = some group → ∀ event ∈ n.log, event.sequence.toNat < group.next_sequence.toNat
  memory : ∀ group, n.group = some group → 0 < group.next_sequence.toNat ∧ group.next_sequence.toNat ≤ attempts + 1
  snaps : ∀ data ∈ n.snaps, ∃ env a, data = snapshotBytes env a ∧ 0 < a.next_sequence.toNat ∧
    a.next_sequence.toNat ≤ attempts + 1

theorem numbered_empty : Numbered {} 0 where
  sorted := .nil
  log := by simp
  tokens := by simp
  above := by simp
  memory := by simp
  snaps := by simp

theorem bump_next {a : ConsumerGroupState} (h : a.next_sequence.toNat + 1 < 2 ^ 64) :
    (bump a).next_sequence.toNat = a.next_sequence.toNat + 1 := by
  rw [bump, UInt64.toNat_add]
  exact Nat.mod_eq_of_lt (by simpa using h)

/-- A move that attempts nothing and keeps the next number. -/
theorem Numbered.still {n : Node} {attempts : Nat} (h : Numbered n attempts) {a b : ConsumerGroupState}
    (hg : n.group = some a) (hb : b.next_sequence = a.next_sequence) : Numbered (n.moved .still b) attempts where
  sorted := by simpa [Node.moved, Label.logged] using h.sorted
  log := by simpa [Node.moved, Label.logged] using h.log
  tokens := by simpa [Node.moved, Label.logged] using h.tokens
  above := by
    rintro group hgroup event hev
    obtain rfl := Option.some.inj hgroup
    rw [hb]
    exact h.above a hg event (by simpa [Node.moved, Label.logged] using hev)
  memory := by
    rintro group hgroup
    obtain rfl := Option.some.inj hgroup
    rw [hb]
    exact h.memory a hg
  snaps := by simpa [Node.moved, Label.saves] using h.snaps

theorem Numbered.mono {n : Node} {attempts attempts' : Nat} (h : Numbered n attempts) (hle : attempts ≤ attempts') :
    Numbered n attempts' where
  sorted := h.sorted
  log event hev := ⟨(h.log event hev).1, (h.log event hev).2.trans hle⟩
  tokens := h.tokens
  above := h.above
  memory group hg := ⟨(h.memory group hg).1, (h.memory group hg).2.trans (by omega)⟩
  snaps data hd := by
    obtain ⟨env, a, hdata, hpos, ha⟩ := h.snaps data hd
    exact ⟨env, a, hdata, hpos, by omega⟩

/-- An attempt takes the next number, and whatever becomes of it the group goes
on with the one after. -/
theorem Numbered.attempt {n : Node} {attempts : Nat} (h : Numbered n attempts) {env : Env} {opts : EngineOptions}
    {g : CString} {read : UInt64 → StatusOr Record} {op : GroupOp} {a b : ConsumerGroupState} {event : TransitionEvent}
    (fate : Fate) (hg : n.group = some a) (hf : Fires env opts g read op a event)
    (hb : b.next_sequence = (bump a).next_sequence) (hbound : attempts + 2 < 2 ^ 64) :
    Numbered (n.moved (.attempt event fate b) b) (attempts + 1) := by
  have hmem := h.memory a hg
  have hnext : b.next_sequence.toNat = a.next_sequence.toNat + 1 := by rw [hb, bump_next (by omega)]
  have hseq : event.sequence.toNat = a.next_sequence.toNat := by rw [hf.sequence]
  have hlogged : ∀ e ∈ (Label.attempt event fate b).logged, e = event := by
    intro e he
    cases fate with
    | applied | lost => exact List.mem_singleton.1 he
    | unlogged => cases he
  -- Every event of the new log is an old one or this one.
  have hlog : ∀ e ∈ (n.moved (.attempt event fate b) b).log, e ∈ n.log ∨ e = event := by
    intro e he
    rcases List.mem_append.1 he with he | he
    · exact .inl he
    · exact .inr (hlogged e he)
  refine ⟨?_, fun e he => ?_, fun e he hr => ?_, fun group hgroup e he => ?_, fun group hgroup => ?_, fun data hd => ?_⟩
  · have hone : (Label.attempt event fate b).logged.Pairwise fun x y => x.sequence < y.sequence := by
      cases fate <;> simp [Label.logged]
    refine List.pairwise_append.2 ⟨h.sorted, hone, fun x hx y hy => ?_⟩
    rw [hlogged y hy, UInt64.lt_iff_toNat_lt, hseq]
    exact h.above a hg x hx
  · rcases hlog e he with he | rfl
    · have := h.log e he
      omega
    · omega
  · rcases hlog e he with he | rfl
    · exact h.tokens e he hr
    · exact hf.token hr
  · obtain rfl := Option.some.inj hgroup
    rw [hnext]
    rcases hlog e he with he | rfl
    · have := h.above a hg e he
      omega
    · omega
  · obtain rfl := Option.some.inj hgroup
    omega
  · have hd' : data ∈ n.snaps := by
      rcases List.mem_append.1 hd with hd | hd
      · exact hd
      · cases fate <;> cases hd
    exact (h.mono (Nat.le_succ attempts)).snaps data hd'

theorem Numbered.next {rules : Rules} {n n' : Node} {x : Happening} {attempts : Nat} (h : Numbered n attempts)
    (hn : Next rules n x n') (hbound : attempts + x.trace.length + 1 < 2 ^ 64) :
    Numbered n' (attempts + x.trace.length) := by
  cases hn with
  | @loaded env opts messages base hg henv hopts hsite hcov hset hpres hbase =>
    have hstart : 0 < base.next_sequence.toNat ∧ base.next_sequence.toNat ≤ attempts + 1 := by
      unfold Restores at hbase
      cases hl : n.snaps.getLast? with
      | none =>
        rw [hl] at hbase
        rw [hbase]
        change 0 < 1 ∧ 1 ≤ attempts + 1
        omega
      | some file =>
        rw [hl] at hbase
        obtain ⟨env', a, rfl, ha⟩ := h.snaps file (List.mem_of_getLast? hl)
        rw [loadSnapshot_next hbase]
        exact ha
    have hreplay := replay_next env opts n.log base (attempts + 1)
      (fun event hev => Nat.succ_le_succ (h.log event hev).2) hstart.2 (by simpa [Happening.trace] using hbound)
    exact ⟨h.sorted, h.log, h.tokens, fun group hgroup => by
      obtain rfl := Option.some.inj hgroup
      exact hreplay.1, fun group hgroup => by
      obtain rfl := Option.some.inj hgroup
      exact ⟨Nat.lt_of_lt_of_le hstart.1 hreplay.2.1, hreplay.2.2⟩, h.snaps⟩
  | @moved env opts read op a b l hg henv hopts hread hm =>
    cases hm with
    | sched hc => exact h.still hg hc.next_sequence
    | forget => exact h.still hg rfl
    | meet => exact h.still hg rfl
    | fire hf => exact h.attempt .applied hg hf (applyTransition_next _ _ _ _) (by simpa [Happening.trace, Label.trace] using hbound)
    | lose _ hf => exact h.attempt .lost hg hf rfl (by simpa [Happening.trace, Label.trace] using hbound)
    | skip _ hf => exact h.attempt .unlogged hg hf rfl (by simpa [Happening.trace, Label.trace] using hbound)
    | persist =>
      rw [show (Happening.moved (.saved env.spills opts.fsync_policy (snapshotBytes env a))).trace.length = 0 from rfl]
      refine ⟨by simpa [Node.moved, Label.logged] using h.sorted, by simpa [Node.moved, Label.logged] using h.log,
        by simpa [Node.moved, Label.logged] using h.tokens, fun group hgroup event hev => ?_, fun group hgroup => ?_,
        fun data hd => ?_⟩
      · obtain rfl := Option.some.inj hgroup
        exact h.above _ hg event (by simpa [Node.moved, Label.logged] using hev)
      · obtain rfl := Option.some.inj hgroup
        exact h.memory _ hg
      · rcases List.mem_append.1 hd with hd | hd
        · exact h.snaps data hd
        · rw [List.mem_singleton.1 hd]
          exact ⟨env, _, rfl, h.memory _ hg⟩
  | crashed => exact ⟨h.sorted, h.log, h.tokens, by simp, by simp, h.snaps⟩

theorem Numbered.steps {rules : Rules} {n : Node} {hs : List Happening} (h : Steps rules {} hs n)
    (hbound : (traceAll hs).length + 1 < 2 ^ 64) : Numbered n (traceAll hs).length := by
  generalize hstart : ({} : Node) = start at h
  induction h with
  | nil => rw [← hstart]; exact numbered_empty
  | @snoc b c hs x hpre hlast ih =>
    have hlen : (traceAll (hs ++ [x])).length = (traceAll hs).length + x.trace.length := by
      simp [traceAll]
    rw [hlen] at hbound ⊢
    exact (ih (by omega)).next hlast (by omega)

/-! ## Runs -/

/-- The number of transitions that are attempted on the group in a run. -/
def attempted (q : Path) (g : CString) : QueueEngine → List Step → Nat
  | _, [] => 0
  | e, s :: steps => (opTrace q g s.env e s.operation).length + attempted q g (step e s) steps

theorem attempted_append (q : Path) (g : CString) (e : QueueEngine) (a b : List Step) :
    attempted q g e (a ++ b) = attempted q g e a + attempted q g (run e a) b := by
  induction a generalizing e with
  | nil => simp [attempted]
  | cons s a ih => rw [List.cons_append, attempted, ih, attempted, run_cons, Nat.add_assoc]

/-- Rules that leave everything open. -/
def anyRules (g : CString) : Rules where
  group_id := g
  site _ _ := True
  env _ := True
  opts _ := True
  faulty := True
  covers := False
  settled := False
  present _ := False

theorem meets_any (g : CString) (env : Env) (e : QueueEngine) (q : Path) (o : Op) (n : Node) :
    Meets (anyRules g) env e q o n where
  env_ok := trivial
  opts_ok := trivial
  faulty _ := trivial
  read _ _ _ _ _ := trivial
  covers h := h.elim
  settled h := h.elim
  present _ _ _ h := h.elim

theorem Tracks.step_any {dir q : Path} {g : CString} {e : QueueEngine} {n : Node} (ht : Tracks dir q g e n) {s : Step}
    (hs : s.Fair dir q g) :
    ∃ hs n', Steps (anyRules g) n hs n' ∧ Tracks dir q g (step e s) n' ∧
      (traceAll hs).length ≤ (opTrace q g s.env e s.operation).length := by
  cases s with
  | op env o =>
    obtain ⟨hs', n', hsteps, htr, -, htrace, -⟩ := ht.op rfl (meets_any g env e q o n) hs.whole hs.apart
    exact ⟨hs', n', hsteps, htr, by rw [htrace]; rfl⟩
  | kill env o k options =>
    obtain ⟨hs', n', hsteps, htr, -, hpre⟩ := ht.kill (k := k) rfl (meets_any g env e q o n) hs.whole hs.apart
      (hs.data_dir env o k options rfl)
    refine ⟨hs' ++ [.crashed], n', hsteps, htr, ?_⟩
    have hnone : traceAll [.crashed] = [] := rfl
    rw [traceAll_append, hnone, List.append_nil]
    exact hpre.length_le

theorem Tracks.run_any {dir q : Path} {g : CString} {e : QueueEngine} {n : Node} (ht : Tracks dir q g e n) {steps : List Step}
    (hs : ∀ s ∈ steps, s.Fair dir q g) :
    ∃ hs n', Steps (anyRules g) n hs n' ∧ Tracks dir q g (run e steps) n' ∧
      (traceAll hs).length ≤ attempted q g e steps := by
  induction steps generalizing e n with
  | nil => exact ⟨[], n, .nil, ht, Nat.le_refl _⟩
  | cons s steps ih =>
    obtain ⟨h1, n1, hs1, ht1, hlen1⟩ := ht.step_any (hs s List.mem_cons_self)
    obtain ⟨h2, n2, hs2, ht2, hlen2⟩ := ih ht1 fun s' hs' => hs s' (List.mem_cons_of_mem _ hs')
    refine ⟨h1 ++ h2, n2, hs1.trans hs2, ht2, ?_⟩
    rw [traceAll_append, List.length_append, attempted]
    omega

/-- Whatever fails and however often the process is restarted, the sequence
numbers in the event log grow and no two deliveries carry the same token. -/
theorem sequences_increase_tokens_differ (opts : EngineOptions) (q : Path) (g : CString) (steps : List Step)
    (hfair : ∀ s ∈ steps, s.Fair opts.data_dir q g) (hfew : attempted q g (freshEngine opts) steps < 2 ^ 64 - 1) :
    ∃ log, (run (freshEngine opts) steps).fs.content (groupEventPath opts.data_dir q g) = encodeEvents log ∧
      log.Pairwise (fun a b => a.sequence < b.sequence) ∧
      log.Pairwise (fun a b => a.reason = .kDelivered → b.reason = .kDelivered → a.lease_token ≠ b.lease_token) := by
  obtain ⟨hs, n, hsteps, ht, hlen⟩ := (tracks_fresh opts q g).run_any hfair
  have hnum := Numbered.steps hsteps (by omega)
  refine ⟨n.log, (Prod.mk.inj ht.files).1, hnum.sorted, hnum.sorted.imp_of_mem fun {a b} ha hb hlt hra hrb heq => ?_⟩
  rw [hnum.tokens a ha hra, hnum.tokens b hb hrb] at heq
  rw [leaseToken_sequence heq] at hlt
  exact UInt64.lt_irrefl _ hlt

/-- A run in which an event is logged and not applied, and one in which the
process is killed before it can save the snapshot. -/
def failingRestart : List Step :=
  [.op {} (.createQueue someQueue), .op {} (.produce someQueue someMessage),
    .op { failpoint := some .after_log_append } (.group someQueue someGroup .consume),
    .op {} (.group someQueue someGroup .consume), .kill {} (.group someQueue someGroup (.nack ⟨1, 2⟩ true)) 2 {},
    .op {} (.createQueue someQueue), .op { now := fun _ => 5000 } (.group someQueue someGroup .consume)]

theorem sequences_increase_failing_restart :
    ∃ log, (run (freshEngine {}) failingRestart).fs.content (groupEventPath [] someQueue someGroup) = encodeEvents log ∧
      log.Pairwise (fun a b => a.sequence < b.sequence) ∧
      log.Pairwise (fun a b => a.reason = .kDelivered → b.reason = .kDelivered → a.lease_token ≠ b.lease_token) := by
  refine sequences_increase_tokens_differ {} someQueue someGroup failingRestart ?_ (by decide +kernel)
  intro s hs
  simp only [failingRestart, List.mem_cons, List.not_mem_nil, or_false] at hs
  rcases hs with rfl | rfl | rfl | rfl | rfl | rfl | rfl
  all_goals
    refine ⟨fun data n h => (by cases h), ?_, ?_⟩
    · simp [Op.Apart, Step.operation]
    · rintro env o calls options heq
      cases heq
      try rfl

end PomaiQueue.Engine
