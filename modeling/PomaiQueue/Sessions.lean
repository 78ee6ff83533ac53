import PomaiQueue.Lib.RoundRobin
import PomaiQueue.Model
/-!
# Consumer sessions

`src/core/consumer_session.cc`: the credit of a session, and the scheduler that looks for
the next session that can take a message.

The scheduler takes turns (`RoundRobin`), so no session that can dispatch waits for more
calls than there are sessions (`sessions_take_turns`). Credit is a `uint32_t` and wraps: the
balance is right exactly as long as no grant passes its range (`credit_balanced_iff`).
-/

namespace PomaiQueue.Core

open Wire Assoc

structure ConsumerSession where
  session_id : CString
  max_inflight : UInt32 := 0
  credit_window : UInt32 := 0
  inflight : UInt32 := 0
  last_heartbeat_ts_ms : UInt64 := 0

namespace ConsumerSession

def canDispatch (s : ConsumerSession) : Bool := 0 < s.credit_window ∧ s.inflight < s.max_inflight

def tryDispatch (s : ConsumerSession) : Bool × ConsumerSession :=
  if s.canDispatch then (true, { s with credit_window := s.credit_window - 1, inflight := s.inflight + 1 })
  else (false, s)

def addCredit (s : ConsumerSession) (credit : UInt32) : ConsumerSession :=
  { s with credit_window := s.credit_window + credit }

def ackOne (s : ConsumerSession) : ConsumerSession :=
  if 0 < s.inflight then { s with inflight := s.inflight - 1 } else s

def expired (s : ConsumerSession) (now_ms heartbeat_timeout_ms : UInt64) : Bool :=
  s.last_heartbeat_ts_ms < now_ms ∧ heartbeat_timeout_ms < now_ms - s.last_heartbeat_ts_ms

end ConsumerSession

/-! ## The scheduler -/

structure ConsumerSessionScheduler where
  sessions : List ConsumerSession
  cursor : Nat := 0

namespace ConsumerSessionScheduler

/-- The constructor. `std::sort` leaves sessions with the same id in any order. -/
def ofSessions (ties : IterOrder ConsumerSession) (sessions : List ConsumerSession) : ConsumerSessionScheduler where
  sessions := (ties.order sessions).insertionSort fun a b => a.session_id.1 ≤ b.session_id.1

/-- Whether the session at `idx` can dispatch. -/
def readyAt (sessions : List ConsumerSession) (idx : Nat) : Bool := sessions[idx]?.any (·.canDispatch)

/-- The loop over `scanned` looks at `(cursor_ + scanned) % sessions_.size()`. -/
def nextDispatchable (s : ConsumerSessionScheduler) : Option Nat × ConsumerSessionScheduler :=
  if s.sessions.isEmpty then (none, s)
  else
    match RoundRobin.scan s.sessions.length s.cursor (readyAt s.sessions) s.sessions.length 0 with
    | some idx => (some idx, { s with cursor := (idx + 1) % s.sessions.length })
    | none => (none, s)

/-- Successive calls, with what the sessions are at each. -/
def dispatches : ConsumerSessionScheduler → List (List ConsumerSession) → List (Option Nat)
  | _, [] => []
  | s, sessions :: rest =>
    (nextDispatchable { s with sessions }).1 :: dispatches (nextDispatchable { s with sessions }).2 rest

theorem nextDispatchable_eq_turn {n : Nat} (hn : 0 < n) {s : ConsumerSessionScheduler} (hlen : s.sessions.length = n) :
    (nextDispatchable s).1 = (RoundRobin.turn n (readyAt s.sessions) s.cursor).1 ∧
      (nextDispatchable s).2.cursor = (RoundRobin.turn n (readyAt s.sessions) s.cursor).2 := by
  have hne : s.sessions.isEmpty = false := by
    rw [List.isEmpty_eq_false_iff]
    rintro hnil
    rw [hnil] at hlen
    exact absurd hlen (Nat.ne_of_lt hn)
  unfold nextDispatchable RoundRobin.turn
  rw [hne, hlen]
  cases RoundRobin.scan n s.cursor (readyAt s.sessions) n 0 <;> exact ⟨rfl, rfl⟩

/-- The scheduler takes turns. -/
theorem dispatches_eq_turns {n : Nat} (hn : 0 < n) {calls : List (List ConsumerSession)}
    (hlen : ∀ sessions ∈ calls, sessions.length = n) (s : ConsumerSessionScheduler) :
    dispatches s calls = RoundRobin.turns n (calls.map readyAt) s.cursor := by
  induction calls generalizing s with
  | nil => rfl
  | cons sessions calls ih =>
    obtain ⟨hanswer, hcursor⟩ := nextDispatchable_eq_turn hn (s := { s with sessions }) (hlen sessions List.mem_cons_self)
    have hrest := ih (fun sessions' h => hlen sessions' (List.mem_cons_of_mem _ h)) (nextDispatchable { s with sessions }).2
    rw [List.map_cons, RoundRobin.turns, dispatches, hrest, hanswer, hcursor]

theorem readyAt_iff {sessions : List ConsumerSession} {idx : Nat} :
    readyAt sessions idx = true ↔ ∃ session, sessions[idx]? = some session ∧ session.canDispatch = true :=
  Option.any_eq_true _ _

/-- Let the sessions change in any way between the calls, but not in number. Each call gives
a session that can dispatch, if there is one, and a session that can dispatch at as many
calls in a row as there are sessions is given by one of these calls. -/
theorem sessions_take_turns (n : Nat) (hn : 0 < n) (s : ConsumerSessionScheduler) (calls : List (List ConsumerSession))
    (hlen : ∀ sessions ∈ calls, sessions.length = n) :
    (dispatches s calls).length = calls.length ∧
    (∀ (k : Nat) (sessions : List ConsumerSession) (answer : Option Nat), calls[k]? = some sessions →
      (dispatches s calls)[k]? = some answer →
      (answer.isSome ↔ ∃ session ∈ sessions, session.canDispatch = true) ∧
        ∀ idx, answer = some idx → ∃ session, sessions[idx]? = some session ∧ session.canDispatch = true) ∧
    (∀ k i : Nat, k + n ≤ calls.length →
      (∀ j < n, ∃ (sessions : List ConsumerSession) (session : ConsumerSession), calls[k + j]? = some sessions ∧
        sessions[i]? = some session ∧ session.canDispatch = true) →
        ∃ j < n, (dispatches s calls)[k + j]? = some (some i)) := by
  rw [dispatches_eq_turns hn hlen]
  refine ⟨by rw [RoundRobin.turns_length, List.length_map], fun k sessions answer hk hanswer => ?_, fun k i hwindow hready => ?_⟩
  · rw [RoundRobin.turns_getElem?, List.getElem?_map, hk] at hanswer
    have hturn := Option.some.inj hanswer
    have hgiven : ∀ idx, answer = some idx → ∃ session, sessions[idx]? = some session ∧ session.canDispatch = true := by
      rintro idx rfl
      exact readyAt_iff.1 (RoundRobin.turn_some hturn).2
    refine ⟨⟨fun hsome => ?_, fun hex => ?_⟩, hgiven⟩
    · obtain ⟨idx, hidx⟩ := Option.isSome_iff_exists.1 hsome
      obtain ⟨session, hsession, hcan⟩ := hgiven idx hidx
      exact ⟨session, List.mem_of_getElem? hsession, hcan⟩
    · obtain ⟨session, hmem, hcan⟩ := hex
      obtain ⟨i, hi⟩ := List.getElem?_of_mem hmem
      cases answer with
      | some idx => rfl
      | none =>
        -- A call that gives nothing has found no session ready.
        have hin : i < n := by
          rw [← hlen sessions (List.mem_of_getElem? hk)]
          exact (List.getElem?_eq_some_iff.1 hi).1
        have hidle := RoundRobin.turn_none hn hturn hin
        rw [readyAt_iff.2 ⟨session, hi, hcan⟩] at hidle
        cases hidle
  · obtain ⟨sessions, session, hsessions, hsession, -⟩ := hready 0 hn
    have hin : i < n := by
      rw [← hlen sessions (List.mem_of_getElem? hsessions)]
      exact (List.getElem?_eq_some_iff.1 hsession).1
    refine RoundRobin.served_between hn hin (by rwa [List.length_map]) ?_ s.cursor
    intro j hj r hr
    obtain ⟨sessions, session, hsessions, hsession, hcan⟩ := hready j hj
    rw [List.getElem?_map, hsessions] at hr
    obtain rfl := Option.some.inj hr
    exact readyAt_iff.2 ⟨session, hsession, hcan⟩

/-- Two sessions, of which the second can always dispatch. -/
def twoCalls : List (List ConsumerSession) :=
  [[⟨Engine.emptyString, 1, 1, 0, 0⟩, ⟨Engine.emptyString, 1, 1, 0, 0⟩],
    [⟨Engine.emptyString, 1, 0, 0, 0⟩, ⟨Engine.emptyString, 1, 1, 0, 0⟩]]

theorem sessions_take_turns_two : ∃ j < 2, (dispatches ⟨[], 0⟩ twoCalls)[0 + j]? = some (some 1) := by
  refine (sessions_take_turns 2 (by decide) ⟨[], 0⟩ twoCalls ?_).2.2 0 1 (by decide) ?_
  · simp [twoCalls]
  · intro j hj
    match j, hj with
    | 0, _ => exact ⟨_, _, rfl, rfl, by decide⟩
    | 1, _ => exact ⟨_, _, rfl, rfl, by decide⟩

end ConsumerSessionScheduler

/-! ## Credit -/

inductive SessionCall
  | tryDispatch
  | addCredit (credit : UInt32)
  | ackOne

def SessionCall.run (s : ConsumerSession) : SessionCall → ConsumerSession
  | .tryDispatch => s.tryDispatch.2
  | .addCredit credit => s.addCredit credit
  | .ackOne => s.ackOne

/-- Credit that the call grants. -/
def SessionCall.granted : SessionCall → Nat
  | .addCredit credit => credit.toNat
  | _ => 0

/-- 1 for a `TryDispatch` that returns true. -/
def SessionCall.spent (s : ConsumerSession) : SessionCall → Nat
  | .tryDispatch => if s.tryDispatch.1 then 1 else 0
  | _ => 0

def runCalls (s : ConsumerSession) (calls : List SessionCall) : ConsumerSession := calls.foldl SessionCall.run s

def granted (calls : List SessionCall) : Nat := (calls.map SessionCall.granted).sum

def spent : ConsumerSession → List SessionCall → Nat
  | _, [] => 0
  | s, c :: calls => c.spent s + spent (c.run s) calls

theorem runCalls_concat (s : ConsumerSession) (calls : List SessionCall) (c : SessionCall) :
    runCalls s (calls ++ [c]) = c.run (runCalls s calls) := by
  simp [runCalls]

theorem granted_concat (calls : List SessionCall) (c : SessionCall) : granted (calls ++ [c]) = granted calls + c.granted := by
  simp [granted]

theorem spent_concat (s : ConsumerSession) (calls : List SessionCall) (c : SessionCall) :
    spent s (calls ++ [c]) = spent s calls + c.spent (runCalls s calls) := by
  induction calls generalizing s with
  | nil => exact Nat.add_comm _ _
  | cons d calls ih =>
    rw [List.cons_append, spent, spent, ih, Nat.add_assoc]
    rfl

/-- What was granted is there or was spent, and no more is in flight than may be. -/
structure Balanced (s : ConsumerSession) (calls : List SessionCall) : Prop where
  inflight : (runCalls s calls).inflight ≤ (runCalls s calls).max_inflight
  credit : (runCalls s calls).credit_window.toNat + spent s calls = s.credit_window.toNat + granted calls

/-- The call does not take the credit past the last `uint32_t`. -/
def SessionCall.InRange (s : ConsumerSession) (c : SessionCall) : Prop := s.credit_window.toNat + c.granted < 2 ^ 32

theorem pred_toNat {x : UInt32} (h : 0 < x) : (x - 1).toNat = x.toNat - 1 := by
  have hpos := UInt32.lt_iff_toNat_lt.1 h
  rw [UInt32.toNat_zero] at hpos
  exact UInt32.toNat_sub_of_le _ _ (UInt32.le_iff_toNat_le.2 hpos)

theorem run_inflight {s : ConsumerSession} (h : s.inflight ≤ s.max_inflight) (c : SessionCall) :
    (c.run s).inflight ≤ (c.run s).max_inflight := by
  have hmax := s.max_inflight.toNat_lt
  cases c with
  | tryDispatch =>
    change s.tryDispatch.2.inflight ≤ s.tryDispatch.2.max_inflight
    unfold ConsumerSession.tryDispatch
    split
    · rename_i hcan
      have hlt := UInt32.lt_iff_toNat_lt.1 (of_decide_eq_true hcan).2
      rw [UInt32.le_iff_toNat_le, UInt32.toNat_add, UInt32.toNat_one]
      dsimp only
      omega
    · exact h
  | addCredit credit => exact h
  | ackOne =>
    change s.ackOne.inflight ≤ s.ackOne.max_inflight
    unfold ConsumerSession.ackOne
    split
    · rename_i hpos
      rw [UInt32.le_iff_toNat_le] at h ⊢
      rw [pred_toNat hpos]
      dsimp only
      omega
    · exact h

theorem runCalls_inflight {s : ConsumerSession} (h : s.inflight ≤ s.max_inflight) (calls : List SessionCall) :
    (runCalls s calls).inflight ≤ (runCalls s calls).max_inflight := by
  induction calls using List.reverseRecOn with
  | nil => exact h
  | append_singleton calls c ih =>
    rw [runCalls_concat]
    exact run_inflight ih c

/-- One call moves the balance by what it grants and spends, up to wrapping. -/
theorem run_credit (s : ConsumerSession) (c : SessionCall) :
    (c.run s).credit_window.toNat + c.spent s = (s.credit_window.toNat + c.granted) % 2 ^ 32 := by
  have hlt := s.credit_window.toNat_lt
  cases c with
  | tryDispatch =>
    change s.tryDispatch.2.credit_window.toNat + (if s.tryDispatch.1 then 1 else 0) = (s.credit_window.toNat + 0) % 2 ^ 32
    rw [Nat.add_zero, Nat.mod_eq_of_lt hlt]
    unfold ConsumerSession.tryDispatch
    split
    · rename_i hcan
      have hpos := (of_decide_eq_true hcan).1
      have hpos' := UInt32.lt_iff_toNat_lt.1 hpos
      rw [UInt32.toNat_zero] at hpos'
      rw [pred_toNat hpos, if_pos rfl]
      omega
    · rfl
  | addCredit credit =>
    change (s.credit_window + credit).toNat + 0 = (s.credit_window.toNat + credit.toNat) % 2 ^ 32
    rw [UInt32.toNat_add, Nat.add_zero]
  | ackOne =>
    change s.ackOne.credit_window.toNat + 0 = (s.credit_window.toNat + 0) % 2 ^ 32
    rw [Nat.add_zero, Nat.add_zero, Nat.mod_eq_of_lt hlt]
    unfold ConsumerSession.ackOne
    split <;> rfl

/-- From a session with no more in flight than may be, the account is right at every point
exactly if no grant finds so much credit that the sum passes the last `uint32_t`. -/
theorem credit_balanced_iff (s : ConsumerSession) (h : s.inflight ≤ s.max_inflight) (calls : List SessionCall) :
    (∀ before, before <+: calls → Balanced s before) ↔
      ∀ before c after, calls = before ++ c :: after → c.InRange (runCalls s before) := by
  constructor
  · rintro hbal before c after rfl
    -- The account is right before and after the call, so the sum did not wrap.
    have h1 := (hbal before (List.prefix_append _ _)).credit
    have h2 := (hbal (before ++ [c]) ⟨after, by simp⟩).credit
    have hrun := run_credit (runCalls s before) c
    rw [runCalls_concat, spent_concat, granted_concat] at h2
    unfold SessionCall.InRange
    have hmod := Nat.mod_lt ((runCalls s before).credit_window.toNat + c.granted) (by decide : 0 < 2 ^ 32)
    omega
  · intro hrange before hbefore
    refine ⟨runCalls_inflight h before, ?_⟩
    induction before using List.reverseRecOn with
    | nil => rfl
    | append_singleton before c ih =>
      obtain ⟨after, hcalls⟩ := hbefore
      have hprev := ih ⟨c :: after, by rw [← hcalls]; simp⟩
      have hin := hrange before c after (by rw [← hcalls]; simp)
      have hrun := run_credit (runCalls s before) c
      rw [Nat.mod_eq_of_lt hin] at hrun
      rw [runCalls_concat, spent_concat, granted_concat]
      omega

/-- A session with one credit. -/
def oneCredit : ConsumerSession := { session_id := Engine.emptyString, max_inflight := 2, credit_window := 1 }

/-- Credit is granted and spent, and a message is acked. -/
def threeCalls : List SessionCall := [.addCredit 3, .tryDispatch, .ackOne]

theorem credit_balanced_small : Balanced oneCredit threeCalls ∧ (runCalls oneCredit threeCalls).credit_window = 3 := by
  refine ⟨(credit_balanced_iff oneCredit (by decide) threeCalls).2 ?_ _ List.prefix_rfl, by decide⟩
  intro before c after hcalls
  have hbefore : threeCalls.take before.length = before := by rw [hcalls, List.take_left']; rfl
  have hc : threeCalls[before.length]? = some c := by rw [hcalls, List.getElem?_append_right le_rfl]; simp
  have hlt : before.length < 3 := (List.getElem?_eq_some_iff.1 hc).1
  have hall : ∀ n < 3, ∀ c ∈ threeCalls[n]?, (runCalls oneCredit (threeCalls.take n)).credit_window.toNat + c.granted < 2 ^ 32 := by
    decide
  rw [← hbefore]
  exact hall before.length hlt c hc

/-- A session with all the credit there is loses it with one more. -/
theorem credit_wraps : ({ oneCredit with credit_window := 0xFFFFFFFF } : ConsumerSession).inflight ≤ oneCredit.max_inflight ∧
    ¬ Balanced { oneCredit with credit_window := 0xFFFFFFFF } [.addCredit 1] := by
  refine ⟨by decide, fun h => ?_⟩
  have := h.credit
  revert this
  decide

end PomaiQueue.Core
