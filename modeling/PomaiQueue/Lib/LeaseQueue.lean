import Mathlib.Data.List.Basic
import Mathlib.Data.List.Infix
import Mathlib.Logic.Function.Basic
/-!
# A queue with leases

The queue that an at-least-once consumer sees. Messages are published to a line. The
first that is ready is taken, with a lease up to a deadline. It is done with when it
is acknowledged or given up, and is ready again when its lease has expired or it was
sent back. The server may stop at any time, also in the middle of an operation, and
finds the leased messages ready again, with their leases, when the queue is used
next.

What a lease is worth is `Runs.leased`: while it lasts, nobody is given the message.
A message that is done with stays so (`Runs.settled`).
-/

namespace LeaseQueue

/-- What an operation reads the clock for. -/
inductive Reading
  | opening
  | expiry
  | look
  | lease
  | backoff

inductive Status (T : Type)
  | ready (since : T)
  | leased
  | acked
  | dead

/-- Where a message is, the deadline of its lease, and how often it was retried. -/
structure Place (T C : Type) where
  status : Status T
  lease : Option T
  count : C

structure Policy (T C : Type) where
  lease : T → T
  backoff : T → T
  next : C → C
  spent : C → Bool
  room : Nat

/-! ## Moves -/

section moves

variable {K T C : Type}

/-- The message is retried, unless it was retried often enough. -/
def Place.retried (policy : Policy T C) (t : T) (p : Place T C) : Place T C :=
  if policy.spent (policy.next p.count) then ⟨.dead, none, policy.next p.count⟩
  else ⟨.ready (policy.backoff t), none, policy.next p.count⟩

/-- The message after the server has stopped. -/
def Place.reopened (t : T) (p : Place T C) : Place T C := if p.lease.isSome then { p with status := .ready t } else p

inductive Move (K : Type)
  | expire (k : K)
  | lease (k : K)
  | ack (k : K)
  | nack (k : K) (requeue : Bool)

def Move.key : Move K → K
  | .expire k => k
  | .lease k => k
  | .ack k => k
  | .nack k _ => k

def Place.moved (policy : Policy T C) (times : Reading → T) (p : Place T C) : Move K → Place T C
  | .expire _ => p.retried policy (times .expiry)
  | .lease _ => { p with status := .leased, lease := some (policy.lease (times .lease)) }
  | .ack _ => { p with status := .acked, lease := none }
  | .nack _ true => p.retried policy (times .backoff)
  | .nack _ false => { p with status := .dead, lease := none }

variable [DecidableEq K]

def move (policy : Policy T C) (times : Reading → T) (place : K → Place T C) (x : Move K) : K → Place T C :=
  Function.update place x.key ((place x.key).moved policy times x)

def moves (policy : Policy T C) (times : Reading → T) (place : K → Place T C) (xs : List (Move K)) : K → Place T C :=
  xs.foldl (move policy times) place

@[simp] theorem moves_nil (policy : Policy T C) (times : Reading → T) (place : K → Place T C) :
    moves policy times place [] = place := rfl

@[simp] theorem moves_cons (policy : Policy T C) (times : Reading → T) (place : K → Place T C) (x : Move K) (xs : List (Move K)) :
    moves policy times place (x :: xs) = moves policy times (move policy times place x) xs := rfl

@[simp] theorem moves_append (policy : Policy T C) (times : Reading → T) (place : K → Place T C) (xs ys : List (Move K)) :
    moves policy times place (xs ++ ys) = moves policy times (moves policy times place xs) ys := List.foldl_append

theorem move_self (policy : Policy T C) (times : Reading → T) (place : K → Place T C) (x : Move K) :
    move policy times place x x.key = (place x.key).moved policy times x := Function.update_self _ _ _

theorem move_other {policy : Policy T C} {times : Reading → T} {place : K → Place T C} {k : K} {x : Move K}
    (h : x.key ≠ k) : move policy times place x k = place k := Function.update_of_ne (Ne.symm h) _ _

theorem moves_other {policy : Policy T C} {times : Reading → T} {place : K → Place T C} {k : K} {xs : List (Move K)}
    (h : ∀ x ∈ xs, x.key ≠ k) : moves policy times place xs k = place k := by
  induction xs generalizing place with
  | nil => rfl
  | cons x xs ih =>
    rw [moves_cons, ih fun y hy => h y (List.mem_cons_of_mem _ hy)]
    exact move_other (h x List.mem_cons_self)

end moves

/-! ## Operations -/

inductive Op (K : Type)
  | take
  | ack (k : K)
  | nack (k : K) (requeue : Bool)
  | count

inductive Answer (R C : Type)
  | nothing
  | taken (i : Nat) (r : R) (count : C)
  | done
  | unleased
  | counts (ready leased acked dead : Nat)

section operations

variable {M K T C R : Type} [LE T]

/-- Leases that have expired end, one after the other. -/
inductive Expires [DecidableEq K] (policy : Policy T C) (times : Reading → T) : (K → Place T C) → List (Move K) → Prop
  | nil {place} : Expires policy times place []
  | cons {place k d xs} (h : (place k).lease = some d) (hd : d ≤ times .expiry)
      (hrest : Expires policy times (move policy times place (.expire k)) xs) : Expires policy times place (.expire k :: xs)

/-- The message can be given to a consumer now. -/
def Deliverable (times : Reading → T) (p : Place T C) : Prop := ∃ t, p.status = .ready t ∧ t ≤ times .look

def Status.isReady : Status T → Bool
  | .ready _ => true
  | _ => false

def Status.isLeased : Status T → Bool
  | .leased => true
  | _ => false

def Status.isAcked : Status T → Bool
  | .acked => true
  | _ => false

def Status.isDead : Status T → Bool
  | .dead => true
  | _ => false

variable (key : M → K)

/-- How many leases there are. -/
def held (ms : List M) (place : K → Place T C) : Nat := ms.countP fun m => (place (key m)).lease.isSome

def tally (ms : List M) (place : K → Place T C) (p : Status T → Bool) : Nat :=
  ms.countP fun m => p (place (key m)).status

variable [DecidableEq K] (reads : M → R → Prop)

/-- What an operation on the line answers, and the moves it makes. `reads m r` says that `r`
is what a consumer gets of the message. -/
inductive Serves (policy : Policy T C) (times : Reading → T) (ms : List M) (place : K → Place T C) :
    Op K → Answer R C → List (Move K) → Prop
  | nothing {xs} (he : Expires policy times place xs)
      (h : policy.room ≤ held key ms (moves policy times place xs) ∨
        ∀ m ∈ ms, ¬ Deliverable times (moves policy times place xs (key m))) :
      Serves policy times ms place .take .nothing xs
  | taken {xs i m r} (he : Expires policy times place xs) (hroom : held key ms (moves policy times place xs) < policy.room)
      (hm : ms[i]? = some m) (hd : Deliverable times (moves policy times place xs (key m)))
      (hfirst : ∀ j < i, ∀ m', ms[j]? = some m' → ¬ Deliverable times (moves policy times place xs (key m')))
      (hr : reads m r) :
      Serves policy times ms place .take (.taken i r (policy.next (moves policy times place xs (key m)).count))
        (xs ++ [.lease (key m)])
  | acked {k} (h : (place k).lease.isSome) : Serves policy times ms place (.ack k) .done [.ack k]
  | unacked {k} (h : (place k).lease = none) : Serves policy times ms place (.ack k) .unleased []
  | nacked {k requeue} (h : (place k).lease.isSome) :
      Serves policy times ms place (.nack k requeue) .done [.nack k requeue]
  | unnacked {k requeue} (h : (place k).lease = none) : Serves policy times ms place (.nack k requeue) .unleased []
  | counted {xs} (he : Expires policy times place xs) :
      Serves policy times ms place .count
        (.counts (tally key ms (moves policy times place xs) Status.isReady)
          (tally key ms (moves policy times place xs) Status.isLeased)
          (tally key ms (moves policy times place xs) Status.isAcked)
          (tally key ms (moves policy times place xs) Status.isDead)) xs

end operations

/-! ## Runs -/

/-- The queue: whether the server has it, what was published, the line that the
consumers are served from, and where the messages are. Without a line the queue is not
in use yet. -/
structure Queue (M K T C : Type) where
  there : Bool
  published : List M
  line : Option (List M)
  place : K → Place T C

/-- What the clients see. `cut` is an operation during which the server stops, and
`stopped` one of another kind, such as publishing a message. -/
inductive Seen (M K T C R : Type)
  | created
  | published (m : M) (i : Nat)
  | absent
  | served (policy : Policy T C) (times : Reading → T) (op : Op K) (answer : Answer R C)
  | cut (policy : Policy T C) (times : Reading → T) (op : Op K)
  | stopped (publishing : Option M)

section runs

variable {M K T C R : Type}

/-- The line that an operation finds. -/
def Queue.found (s : Queue M K T C) : List M := s.line.getD s.published

/-- Where an operation finds the messages. -/
def Queue.finds (s : Queue M K T C) (times : Reading → T) : K → Place T C :=
  if s.line.isSome then s.place else fun k => (s.place k).reopened (times .opening)

def Queue.stopped (s : Queue M K T C) : Queue M K T C := { s with there := false, line := none }

variable [LE T] [DecidableEq K] (key : M → K) (reads : M → R → Prop)

inductive Step : Queue M K T C → Seen M K T C R → Queue M K T C → Prop
  | created {s} (h : s.there = false) : Step s .created { s with there := true }
  | published {s m} (h : s.there = true) : Step s (.published m s.published.length) { s with published := s.published ++ [m] }
  | absent {s} (h : s.there = false) : Step s .absent s
  | served {s policy times op answer xs} (h : s.there = true)
      (hs : Serves key reads policy times s.found (s.finds times) op answer xs) :
      Step s (.served policy times op answer)
        { s with line := some s.found, place := moves policy times (s.finds times) xs }
  | cut {s policy times op answer xs ys} (h : s.there = true)
      (hs : Serves key reads policy times s.found (s.finds times) op answer xs) (hys : ys <+: xs) :
      Step s (.cut policy times op) { s.stopped with place := moves policy times (s.finds times) ys }
  | cutAbsent {s policy times op} (h : s.there = false) : Step s (.cut policy times op) s.stopped
  | stopped {s publishing} : Step s (.stopped publishing) s.stopped
  | stoppedPublished {s m} : Step s (.stopped (some m)) { s.stopped with published := s.published ++ [m] }

inductive Runs : Queue M K T C → List (Seen M K T C R) → Queue M K T C → Prop
  | nil {s} : Runs s [] s
  | cons {s s' s'' x xs} (h : Step key reads s x s') (hs : Runs s' xs s'') : Runs s (x :: xs) s''

variable {key reads}

theorem Runs.append {s s' s'' : Queue M K T C} {xs ys : List (Seen M K T C R)} (h : Runs key reads s xs s')
    (h' : Runs key reads s' ys s'') : Runs key reads s (xs ++ ys) s'' := by
  induction h with
  | nil => exact h'
  | cons hx _ ih => exact .cons hx (ih h')

theorem Runs.split {s s'' : Queue M K T C} {xs ys : List (Seen M K T C R)} (h : Runs key reads s (xs ++ ys) s'') :
    ∃ s', Runs key reads s xs s' ∧ Runs key reads s' ys s'' := by
  induction xs generalizing s with
  | nil => exact ⟨s, .nil, h⟩
  | cons x xs ih =>
    cases h with
    | cons hx hrest =>
      obtain ⟨s', hxs, hys⟩ := ih hrest
      exact ⟨s', .cons hx hxs, hys⟩

theorem Runs.one {s s' : Queue M K T C} {x : Seen M K T C R} (h : Step key reads s x s') : Runs key reads s [x] s' := .cons h .nil

end runs

/-! ## What a lease is worth -/

/-- The message is done with. -/
structure Settled {T C : Type} (p : Place T C) : Prop where
  lease : p.lease = none
  status : p.status = .acked ∨ p.status = .dead

/-- The message is leased until `d`. -/
structure LeasedUntil {T C : Type} (d : T) (p : Place T C) : Prop where
  lease : p.lease = some d
  status : p.status = .leased

section worth

variable {M K T C R : Type}

/-- A consumer is given the message. -/
def Seen.Gives (name : R → K) (k : K) (x : Seen M K T C R) : Prop :=
  ∃ policy times op i r count, x = .served policy times op (.taken i r count) ∧ name r = k

/-- A lease of the message until `d` may end: the server stops, looks for expired leases
after `d`, or the message is sent back. -/
inductive Seen.Ends [LE T] (k : K) (d : T) : Seen M K T C R → Prop
  | cut {policy times op} : Ends k d (.cut policy times op)
  | stopped {publishing} : Ends k d (.stopped publishing)
  | take {policy times answer} (h : d ≤ times .expiry) : Ends k d (.served policy times .take answer)
  | count {policy times answer} (h : d ≤ times .expiry) : Ends k d (.served policy times .count answer)
  | nack {policy times} : Ends k d (.served policy times (.nack k true) .done)

theorem Settled.reopened {p : Place T C} (h : Settled p) (t : T) : p.reopened t = p := by
  rw [Place.reopened, h.lease]
  rfl

theorem finds_settled {s : Queue M K T C} {k : K} (h : Settled (s.place k)) (times : Reading → T) : s.finds times k = s.place k := by
  unfold Queue.finds
  split
  · rfl
  · exact h.reopened _

variable [LE T]

theorem Settled.not_deliverable {p : Place T C} (h : Settled p) (times : Reading → T) : ¬ Deliverable times p := by
  rintro ⟨t, ht, -⟩
  rcases h.status with hs | hs
  · rw [hs] at ht
    cases ht
  · rw [hs] at ht
    cases ht

theorem LeasedUntil.not_deliverable {d : T} {p : Place T C} (h : LeasedUntil d p) (times : Reading → T) :
    ¬ Deliverable times p := by
  rintro ⟨t, ht, -⟩
  rw [h.status] at ht
  cases ht

variable [DecidableEq K] {policy : Policy T C} {times : Reading → T} {place : K → Place T C} {k : K}

/-- Only leases that have expired end. -/
theorem Expires.spares {xs : List (Move K)} (h : Expires policy times place xs)
    (hk : ∀ d, (place k).lease = some d → ¬ d ≤ times .expiry) : ∀ x ∈ xs, x.key ≠ k := by
  induction h with
  | nil =>
    intro x hx
    cases hx
  | @cons place k' d xs hl hd _ ih =>
    have hne : k' ≠ k := by
      rintro rfl
      exact hk d hl hd
    intro x hx
    rcases List.mem_cons.1 hx with rfl | hx
    · exact hne
    · refine ih (fun d' hd' => hk d' ?_) x hx
      rwa [move_other (show (Move.expire k').key ≠ k from hne)] at hd'

variable {key : M → K} {reads : M → R → Prop} {name : R → K}

/-- A message that cannot be delivered is not taken. -/
theorem Expires.takes_other {xs : List (Move K)} (h : Expires policy times place xs)
    (hk : ∀ d, (place k).lease = some d → ¬ d ≤ times .expiry) (hnot : ¬ Deliverable times (place k)) {k' : K}
    (hd : Deliverable times (moves policy times place xs k')) : k' ≠ k ∧ ∀ x ∈ xs ++ [.lease k'], x.key ≠ k := by
  have hspares := h.spares hk
  have hne : k' ≠ k := by
    rintro rfl
    rw [moves_other hspares] at hd
    exact hnot hd
  refine ⟨hne, fun x hx => ?_⟩
  rcases List.mem_append.1 hx with hx | hx
  · exact hspares x hx
  · rw [List.mem_singleton.1 hx]
    exact hne

/-- No operation touches a message that is done with. -/
theorem Serves.settled {ms : List M} {op : Op K} {answer : Answer R C} {xs : List (Move K)}
    (h : Serves key reads policy times ms place op answer xs) (hname : ∀ m r, reads m r → name r = key m)
    (hk : Settled (place k)) : (∀ x ∈ xs, x.key ≠ k) ∧ ∀ i r count, answer = .taken i r count → name r ≠ k := by
  have hlease : ∀ d, (place k).lease = some d → ¬ d ≤ times .expiry := by
    intro d hd
    rw [hk.lease] at hd
    cases hd
  have hother : ∀ k', (place k').lease.isSome → k' ≠ k := by
    rintro k' hl rfl
    rw [hk.lease] at hl
    cases hl
  cases h with
  | nothing he _ => exact ⟨he.spares hlease, fun _ _ _ heq => nomatch heq⟩
  | counted he => exact ⟨he.spares hlease, fun _ _ _ heq => nomatch heq⟩
  | @taken xs i m r he _ _ hd _ hr =>
    obtain ⟨hne, hspares⟩ := he.takes_other hlease (hk.not_deliverable times) hd
    refine ⟨hspares, fun i' r' count heq => ?_⟩
    obtain rfl : r = r' := by injection heq
    rw [hname m r hr]
    exact hne
  | acked hl =>
    refine ⟨fun x hx => ?_, fun _ _ _ heq => nomatch heq⟩
    rw [List.mem_singleton.1 hx]
    exact hother _ hl
  | nacked hl =>
    refine ⟨fun x hx => ?_, fun _ _ _ heq => nomatch heq⟩
    rw [List.mem_singleton.1 hx]
    exact hother _ hl
  | unacked _ => exact ⟨fun x hx => absurd hx List.not_mem_nil, fun _ _ _ heq => nomatch heq⟩
  | unnacked _ => exact ⟨fun x hx => absurd hx List.not_mem_nil, fun _ _ _ heq => nomatch heq⟩

/-- What an operation does that does not end the lease: nothing, or it settles the message. -/
theorem Serves.leased {ms : List M} {op : Op K} {answer : Answer R C} {xs : List (Move K)} {d : T}
    (h : Serves key reads policy times ms place op answer xs) (hname : ∀ m r, reads m r → name r = key m)
    (hk : LeasedUntil d (place k)) (hend : ¬ (Seen.served (M := M) policy times op answer).Ends k d) :
    (moves policy times place xs k = place k ∨ Settled (moves policy times place xs k)) ∧
      ∀ i r count, answer = .taken i r count → name r ≠ k := by
  have hlease : ¬ d ≤ times .expiry → ∀ d', (place k).lease = some d' → ¬ d' ≤ times .expiry := by
    intro hd d' hd'
    rw [hk.lease] at hd'
    rwa [← Option.some.inj hd']
  cases h with
  | nothing he _ => exact ⟨.inl (moves_other (he.spares (hlease fun hd => hend (.take hd)))), fun _ _ _ heq => nomatch heq⟩
  | counted he => exact ⟨.inl (moves_other (he.spares (hlease fun hd => hend (.count hd)))), fun _ _ _ heq => nomatch heq⟩
  | @taken xs i m r he _ _ hd _ hr =>
    obtain ⟨hne, hspares⟩ := he.takes_other (hlease fun hd => hend (.take hd)) (hk.not_deliverable times) hd
    refine ⟨.inl (moves_other hspares), fun i' r' count heq => ?_⟩
    obtain rfl : r = r' := by injection heq
    rw [hname m r hr]
    exact hne
  | @acked k' _ =>
    refine ⟨?_, fun _ _ _ heq => nomatch heq⟩
    by_cases hne : k' = k
    · subst hne
      have hmove := move_self policy times place (.ack k')
      exact .inr ⟨congrArg Place.lease hmove, .inl (congrArg Place.status hmove)⟩
    · exact .inl (move_other hne)
  | @nacked k' requeue _ =>
    refine ⟨?_, fun _ _ _ heq => nomatch heq⟩
    by_cases hne : k' = k
    · subst hne
      cases requeue with
      | true => exact absurd .nack hend
      | false =>
        have hmove := move_self policy times place (.nack k' false)
        exact .inr ⟨congrArg Place.lease hmove, .inr (congrArg Place.status hmove)⟩
    · exact .inl (move_other hne)
  | unacked _ => exact ⟨.inl rfl, fun _ _ _ heq => nomatch heq⟩
  | unnacked _ => exact ⟨.inl rfl, fun _ _ _ heq => nomatch heq⟩

theorem Step.settled {s s' : Queue M K T C} {x : Seen M K T C R} (h : Step key reads s x s')
    (hname : ∀ m r, reads m r → name r = key m) (hk : Settled (s.place k)) : Settled (s'.place k) ∧ ¬ x.Gives name k := by
  cases h with
  | @served policy times op answer xs _ hs =>
    have hfinds := finds_settled hk times
    obtain ⟨hspares, hnot⟩ := hs.settled hname (k := k) (by rw [hfinds]; exact hk)
    refine ⟨?_, ?_⟩
    · change Settled (moves policy times (s.finds times) xs k)
      rw [moves_other hspares, hfinds]
      exact hk
    · rintro ⟨_, _, _, i, r, count, heq, hr⟩
      injection heq with _ _ _ hanswer
      exact hnot i r count hanswer hr
  | @cut policy times op answer xs ys _ hs hys =>
    have hfinds := finds_settled hk times
    obtain ⟨hspares, -⟩ := hs.settled hname (k := k) (by rw [hfinds]; exact hk)
    refine ⟨?_, fun ⟨_, _, _, _, _, _, heq, _⟩ => nomatch heq⟩
    change Settled (moves policy times (s.finds times) ys k)
    rw [moves_other fun x hx => hspares x (hys.subset hx), hfinds]
    exact hk
  | created | published | absent | cutAbsent | stopped | stoppedPublished =>
    exact ⟨hk, fun ⟨_, _, _, _, _, _, heq, _⟩ => nomatch heq⟩

/-- An answer for a message that is done with comes too late. -/
theorem Step.late {s s' : Queue M K T C} {op : Op K} {answer : Answer R C} (h : Step key reads s (.served policy times op answer) s')
    (hk : Settled (s.place k)) (hop : op = .ack k ∨ ∃ requeue, op = .nack k requeue) : answer = .unleased := by
  cases h with
  | @served _ _ _ _ xs _ hs =>
    have hlease : (s.finds times k).lease = none := by
      rw [finds_settled hk times]
      exact hk.lease
    rcases hop with rfl | ⟨requeue, rfl⟩
    · cases hs with
      | unacked _ => rfl
      | acked hl =>
        rw [hlease] at hl
        cases hl
    · cases hs with
      | unnacked _ => rfl
      | nacked hl =>
        rw [hlease] at hl
        cases hl

/-- A message that is done with stays so, nobody is given it, and no answer for it is accepted. -/
theorem Runs.settled {s s' : Queue M K T C} {xs : List (Seen M K T C R)} (h : Runs key reads s xs s')
    (hname : ∀ m r, reads m r → name r = key m) (hk : Settled (s.place k)) :
    ∀ x ∈ xs, ¬ x.Gives name k ∧ ∀ policy times op answer, x = .served policy times op answer →
      (op = .ack k ∨ ∃ requeue, op = .nack k requeue) → answer = .unleased := by
  induction h with
  | nil =>
    intro x hx
    cases hx
  | cons hx _ ih =>
    obtain ⟨hk', hnot⟩ := hx.settled hname hk
    intro y hy
    rcases List.mem_cons.1 hy with rfl | hy
    · refine ⟨hnot, ?_⟩
      rintro policy times op answer rfl hop
      exact hx.late hk hop
    · exact ih hk' y hy

/-- A message that is taken is leased. -/
theorem Step.taken {s s' : Queue M K T C} {i : Nat} {r : R} {count : C}
    (h : Step key reads s (.served policy times .take (.taken i r count)) s') (hname : ∀ m r, reads m r → name r = key m) :
    s'.line.isSome ∧ LeasedUntil (policy.lease (times .lease)) (s'.place (name r)) := by
  cases h with
  | served _ hs =>
    cases hs with
    | @taken xs i m r he _ _ _ _ hr =>
      refine ⟨rfl, ?_⟩
      change LeasedUntil _ (moves policy times (s.finds times) (xs ++ [.lease (key m)]) (name r))
      rw [moves_append, hname m r hr]
      have hmove := move_self policy times (moves policy times (s.finds times) xs) (.lease (key m))
      exact ⟨congrArg Place.lease hmove, congrArg Place.status hmove⟩

/-- A message is settled by an answer for it. -/
theorem Step.answered {s s' : Queue M K T C} {op : Op K} (h : Step key reads s (.served policy times op .done) s')
    (hop : op = .ack k ∨ op = .nack k false) : Settled (s'.place k) := by
  cases h with
  | @served _ _ _ _ xs _ hs =>
    rcases hop with rfl | rfl
    · cases hs with
      | acked _ =>
        have hmove := move_self policy times (s.finds times) (.ack k)
        exact ⟨congrArg Place.lease hmove, .inl (congrArg Place.status hmove)⟩
    · cases hs with
      | nacked _ =>
        have hmove := move_self policy times (s.finds times) (.nack k false)
        exact ⟨congrArg Place.lease hmove, .inr (congrArg Place.status hmove)⟩

theorem Step.leased {s s' : Queue M K T C} {x : Seen M K T C R} {d : T} (h : Step key reads s x s')
    (hname : ∀ m r, reads m r → name r = key m) (hline : s.line.isSome) (hk : LeasedUntil d (s.place k)) (hend : ¬ x.Ends k d) :
    (s'.line.isSome ∧ LeasedUntil d (s'.place k) ∨ Settled (s'.place k)) ∧ ¬ x.Gives name k := by
  cases h with
  | @served policy times op answer xs _ hs =>
    have hfinds : s.finds times = s.place := if_pos hline
    rw [hfinds] at hs
    obtain ⟨hplace, hnot⟩ := hs.leased hname hk hend
    refine ⟨?_, ?_⟩
    · rw [hfinds]
      rcases hplace with hplace | hplace
      · left
        refine ⟨rfl, ?_⟩
        change LeasedUntil d (moves policy times s.place xs k)
        rw [hplace]
        exact hk
      · exact .inr hplace
    · rintro ⟨_, _, _, i, r, count, heq, hr⟩
      injection heq with _ _ _ hanswer
      exact hnot i r count hanswer hr
  | cut | cutAbsent => exact absurd .cut hend
  | stopped | stoppedPublished => exact absurd .stopped hend
  | created | published | absent => exact ⟨.inl ⟨hline, hk⟩, fun ⟨_, _, _, _, _, _, heq, _⟩ => nomatch heq⟩

/-- While the lease lasts, nobody is given the message. -/
theorem Runs.leased {s s' : Queue M K T C} {xs : List (Seen M K T C R)} {d : T} (h : Runs key reads s xs s')
    (hname : ∀ m r, reads m r → name r = key m) (hline : s.line.isSome) (hk : LeasedUntil d (s.place k))
    (hend : ∀ x ∈ xs, ¬ x.Ends k d) : ∀ x ∈ xs, ¬ x.Gives name k := by
  induction h with
  | nil =>
    intro x hx
    cases hx
  | cons hx hrest ih =>
    obtain ⟨hk', hnot⟩ := hx.leased hname hline hk (hend _ List.mem_cons_self)
    intro y hy
    rcases List.mem_cons.1 hy with rfl | hy
    · exact hnot
    · rcases hk' with ⟨hline', hk'⟩ | hk'
      · exact ih hline' hk' (fun x hx => hend x (List.mem_cons_of_mem _ hx)) y hy
      · exact (hrest.settled hname hk' y hy).1

end worth

/-! ## One message after the other -/

section drain

variable {M K T C R : Type} (key : M → K)

/-- Nobody has a lease, the first `i` messages are done with, and the others were never
taken. -/
structure Drained (start : Place T C) (i : Nat) (s : Queue M K T C) : Prop where
  distinct : (s.published.map key).Nodup
  found : s.found = s.published
  settled : ∀ j < i, ∀ m, s.published[j]? = some m → Settled (s.place (key m))
  waiting : ∀ j, i ≤ j → ∀ m, s.published[j]? = some m → s.place (key m) = start
  free : ∀ k, (s.place k).lease = none

variable {key} {start : Place T C} {i : Nat} {s s' : Queue M K T C} {policy : Policy T C} {times : Reading → T}

theorem Drained.finds (h : Drained key start i s) (times : Reading → T) : s.finds times = s.place := by
  unfold Queue.finds
  split
  · rfl
  · funext k
    rw [Place.reopened, h.free k]
    rfl

theorem Drained.held (h : Drained key start i s) : held key s.published s.place = 0 := by
  rw [LeaseQueue.held, List.countP_eq_zero]
  intro m _ hsome
  rw [h.free] at hsome
  cases hsome

theorem key_ne_of_index (h : (s.published.map key).Nodup) {j j' : Nat} {m m' : M} (hm : s.published[j]? = some m)
    (hm' : s.published[j']? = some m') (hne : j ≠ j') : key m ≠ key m' := by
  intro heq
  have hj : j < (s.published.map key).length := by
    rw [List.length_map]
    exact (List.getElem?_eq_some_iff.1 hm).1
  apply hne
  apply (List.getElem?_inj hj h).1
  rw [List.getElem?_map, List.getElem?_map, hm, hm', Option.map_some, Option.map_some, heq]

variable [LE T] [DecidableEq K] {reads : M → R → Prop}

theorem Expires.none {place : K → Place T C} {xs : List (Move K)} (h : Expires policy times place xs)
    (hfree : ∀ k, (place k).lease = none) : xs = [] := by
  cases h with
  | nil => rfl
  | @cons _ k d _ hl _ _ =>
    rw [hfree k] at hl
    cases hl

theorem Drained.stop (h : Drained key start i s) {publishing : Option M} (hx : Step key reads s (.stopped publishing) s')
    (hnone : publishing = none) : s'.there = false ∧ Drained key start i s' := by
  cases hx with
  | stopped => exact ⟨rfl, h.distinct, rfl, h.settled, h.waiting, h.free⟩
  | stoppedPublished => cases hnone

theorem Drained.create (h : Drained key start i s) (hx : Step key reads s .created s') : s'.there = true ∧ Drained key start i s' := by
  cases hx with
  | created _ => exact ⟨rfl, h.distinct, h.found, h.settled, h.waiting, h.free⟩

/-- The message that is taken next. -/
structure Taking (key : M → K) (start : Place T C) (i : Nat) (m : M) (d : T) (s : Queue M K T C) : Prop where
  distinct : (s.published.map key).Nodup
  line : s.line = some s.published
  at_i : s.published[i]? = some m
  settled : ∀ j < i, ∀ m, s.published[j]? = some m → Settled (s.place (key m))
  leased : LeasedUntil d (s.place (key m))
  waiting : ∀ j, i < j → ∀ m, s.published[j]? = some m → s.place (key m) = start
  free : ∀ k, k ≠ key m → (s.place k).lease = none

theorem Drained.take (h : Drained key start i s) (hstart : ∀ times, Deliverable times start) (hroom : 0 < policy.room) {m : M}
    (hm : s.published[i]? = some m) {answer : Answer R C} (hx : Step key reads s (.served policy times .take answer) s') :
    ∃ r, answer = .taken i r (policy.next start.count) ∧ reads m r ∧ Taking key start i m (policy.lease (times .lease)) s' := by
  have hplace := h.waiting i (Nat.le_refl i) m hm
  cases hx with
  | @served _ _ _ _ xs _ hs =>
    rw [h.finds, h.found] at hs
    cases hs with
    | nothing he hnone =>
      obtain rfl := he.none h.free
      rw [moves_nil, h.held] at hnone
      rcases hnone with hle | hnone
      · omega
      · have hd := hnone m (List.mem_of_getElem? hm)
        rw [hplace] at hd
        exact absurd (hstart times) hd
    | @taken xs i' m' r he _ hm' hd hfirst hr =>
      obtain rfl := he.none h.free
      rw [moves_nil] at hd hfirst ⊢
      have hi : i' = i := by
        rcases Nat.lt_trichotomy i' i with hlt | heq | hgt
        · exact absurd hd ((h.settled i' hlt m' hm').not_deliverable times)
        · exact heq
        · have hnot := hfirst i hgt m hm
          rw [hplace] at hnot
          exact absurd (hstart times) hnot
      subst hi
      obtain rfl : m' = m := Option.some.inj (hm'.symm.trans hm)
      have hmove := move_self policy times s.place (.lease (key m'))
      have hother : ∀ k, k ≠ key m' → move policy times s.place (.lease (key m')) k = s.place k :=
        fun k hk => move_other (x := .lease (key m')) (Ne.symm hk)
      have hfinds := h.finds times
      refine ⟨r, by rw [hplace], hr, h.distinct, congrArg some h.found, hm, fun j hj m'' hm'' => ?_, ?_, fun j hj m'' hm'' => ?_,
        fun k hk => ?_⟩
      · change Settled (move policy times (s.finds times) (.lease (key m')) (key m''))
        rw [hfinds, hother _ (key_ne_of_index h.distinct hm'' hm (Nat.ne_of_lt hj))]
        exact h.settled j hj m'' hm''
      · change LeasedUntil _ (move policy times (s.finds times) (.lease (key m')) (key m'))
        rw [hfinds]
        exact ⟨congrArg Place.lease hmove, congrArg Place.status hmove⟩
      · change move policy times (s.finds times) (.lease (key m')) (key m'') = start
        rw [hfinds, hother _ (key_ne_of_index h.distinct hm'' hm (Nat.ne_of_gt hj))]
        exact h.waiting j (Nat.le_of_lt hj) m'' hm''
      · change (move policy times (s.finds times) (.lease (key m')) k).lease = none
        rw [hfinds, hother k hk]
        exact h.free k

theorem Drained.nothing (h : Drained key start i s) (hi : s.published.length ≤ i) {answer : Answer R C}
    (hx : Step key reads s (.served policy times .take answer) s') : answer = .nothing := by
  cases hx with
  | @served _ _ _ _ xs _ hs =>
    rw [h.finds, h.found] at hs
    cases hs with
    | nothing _ _ => rfl
    | @taken xs j m r he _ hm hd _ _ =>
      obtain rfl := he.none h.free
      have hj : j < s.published.length := (List.getElem?_eq_some_iff.1 hm).1
      exact absurd hd ((h.settled j (by omega) m hm).not_deliverable times)

/-- The message is acknowledged or given up. -/
theorem Taking.settle {m : M} {d : T} (h : Taking key start i m d s) {op : Op K} (hop : op = .ack (key m) ∨ op = .nack (key m) false)
    {answer : Answer R C} (hx : Step key reads s (.served policy times op answer) s') :
    answer = .done ∧ Drained key start (i + 1) s' := by
  cases hx with
  | @served _ _ _ _ xs _ hs =>
    have hfinds : s.finds times = s.place := by
      rw [Queue.finds, h.line]
      rfl
    have hfound : s.found = s.published := by
      rw [Queue.found, h.line]
      rfl
    rw [hfinds, hfound] at hs
    -- Either way, one move settles the message.
    obtain ⟨rfl, x, rfl, hkey, hsettled⟩ : answer = .done ∧ ∃ x, xs = [x] ∧ x.key = key m ∧
        Settled ((s.place (key m)).moved policy times x) := by
      rcases hop with rfl | rfl
      · cases hs with
        | acked _ => exact ⟨rfl, _, rfl, rfl, rfl, .inl rfl⟩
        | unacked hl =>
          rw [h.leased.lease] at hl
          cases hl
      · cases hs with
        | nacked _ => exact ⟨rfl, _, rfl, rfl, rfl, .inr rfl⟩
        | unnacked hl =>
          rw [h.leased.lease] at hl
          cases hl
    have hself : move policy times s.place x (key m) = (s.place (key m)).moved policy times x := by
      rw [← hkey]
      exact move_self policy times s.place x
    have hother : ∀ k, k ≠ key m → move policy times s.place x k = s.place k := by
      intro k hk
      refine move_other fun heq => hk ?_
      rw [← heq, hkey]
    refine ⟨rfl, h.distinct, hfound, fun j hj m' hm' => ?_, fun j hj m' hm' => ?_, fun k => ?_⟩
    · change Settled (move policy times (s.finds times) x (key m'))
      rw [hfinds]
      by_cases heq : j = i
      · subst heq
        obtain rfl : m = m' := Option.some.inj (h.at_i.symm.trans hm')
        rw [hself]
        exact hsettled
      · rw [hother _ (key_ne_of_index h.distinct hm' h.at_i heq)]
        exact h.settled j (by omega) m' hm'
    · change move policy times (s.finds times) x (key m') = start
      rw [hfinds, hother _ (key_ne_of_index h.distinct hm' h.at_i (by omega))]
      exact h.waiting j (by omega) m' hm'
    · change (move policy times (s.finds times) x k).lease = none
      rw [hfinds]
      by_cases heq : k = key m
      · rw [heq, hself]
        exact hsettled.lease
      · rw [hother k heq]
        exact h.free k heq

end drain

end LeaseQueue
