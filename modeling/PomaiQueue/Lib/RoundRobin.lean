import Mathlib.Data.List.Basic
import Mathlib.Data.Nat.ModEq
/-!
# Taking turns

`n` places in a circle and a cursor. `scan` looks at each place once, from the cursor on,
and gives the first that is ready; the next scan starts behind it. What is ready may
change from one scan to the next.

`served`: a place that is ready in `n` scans in a row is given by one of them. A scan that
passes it by brings the cursor closer to it (`scan_closer`).
-/

namespace RoundRobin

/-- The places from the `scanned`-th behind the cursor on, `left` of them. -/
def scan (n cursor : Nat) (ready : Nat → Bool) : Nat → Nat → Option Nat
  | 0, _ => none
  | left + 1, scanned =>
    let idx := (cursor + scanned) % n
    if ready idx then some idx else scan n cursor ready left (scanned + 1)

/-- One turn: the place that is given, and the cursor after it. -/
def turn (n : Nat) (ready : Nat → Bool) (cursor : Nat) : Option Nat × Nat :=
  match scan n cursor ready n 0 with
  | some idx => (some idx, (idx + 1) % n)
  | none => (none, cursor)

/-- Successive turns, with what is ready at each. -/
def turns (n : Nat) : List (Nat → Bool) → Nat → List (Option Nat)
  | [], _ => []
  | ready :: rest, cursor => (turn n ready cursor).1 :: turns n rest (turn n ready cursor).2

variable {n cursor : Nat} {ready : Nat → Bool}

theorem scan_some {left scanned idx : Nat} (h : scan n cursor ready left scanned = some idx) :
    ∃ k < left, idx = (cursor + (scanned + k)) % n ∧ ready idx = true ∧
      ∀ j < k, ready ((cursor + (scanned + j)) % n) = false := by
  induction left generalizing scanned with
  | zero => cases h
  | succ left ih =>
    unfold scan at h
    dsimp only at h
    split at h
    · rename_i hready
      obtain rfl := Option.some.inj h
      exact ⟨0, Nat.succ_pos _, rfl, hready, fun j hj => absurd hj (Nat.not_lt_zero _)⟩
    · rename_i hready
      obtain ⟨k, hk, hidx, hr, hbefore⟩ := ih h
      refine ⟨k + 1, Nat.succ_lt_succ hk, by rw [hidx]; congr 2; omega, hr, fun j hj => ?_⟩
      cases j with
      | zero => exact Bool.eq_false_iff.2 hready
      | succ j =>
        have := hbefore j (Nat.lt_of_succ_lt_succ hj)
        rwa [show scanned + 1 + j = scanned + (j + 1) by omega] at this

theorem scan_none {left scanned : Nat} (h : scan n cursor ready left scanned = none) :
    ∀ k < left, ready ((cursor + (scanned + k)) % n) = false := by
  induction left generalizing scanned with
  | zero => exact fun k hk => absurd hk (Nat.not_lt_zero _)
  | succ left ih =>
    unfold scan at h
    dsimp only at h
    split at h
    · cases h
    · rename_i hready
      intro k hk
      cases k with
      | zero => exact Bool.eq_false_iff.2 hready
      | succ k =>
        have := ih h k (Nat.lt_of_succ_lt_succ hk)
        rwa [show scanned + 1 + k = scanned + (k + 1) by omega] at this

/-! ## Distances -/

/-- How many places the cursor has to go to `i`. -/
def ahead (n cursor i : Nat) : Nat := (i + (n - cursor % n)) % n

theorem ahead_lt (hn : 0 < n) (cursor i : Nat) : ahead n cursor i < n := Nat.mod_lt _ hn

theorem add_ahead (hn : 0 < n) (cursor : Nat) {i : Nat} (hi : i < n) : (cursor + ahead n cursor i) % n = i := by
  have hlt := Nat.mod_lt cursor hn
  have hsum : cursor % n + (i + (n - cursor % n)) = i + n := by omega
  rw [ahead, Nat.add_mod, Nat.mod_mod, ← Nat.add_mod, ← Nat.mod_add_mod, hsum, Nat.add_mod_right, Nat.mod_eq_of_lt hi]

/-- The only distance below `n` that leads to `i`. -/
theorem eq_ahead (hn : 0 < n) {i k : Nat} (hi : i < n) (hk : k < n) (h : (cursor + k) % n = i) : k = ahead n cursor i := by
  have hmod : (cursor + k) % n = (cursor + ahead n cursor i) % n := h.trans (add_ahead hn cursor hi).symm
  have hk' : k % n = ahead n cursor i % n := Nat.ModEq.add_left_cancel' cursor hmod
  rwa [Nat.mod_eq_of_lt hk, Nat.mod_eq_of_lt (ahead_lt hn cursor i)] at hk'

/-- A turn that passes a ready place by ends closer to it. -/
theorem turn_closer (hn : 0 < n) (cursor : Nat) {i : Nat} (hi : i < n) (hready : ready i = true) :
    (turn n ready cursor).1 = some i ∨ ahead n (turn n ready cursor).2 i < ahead n cursor i := by
  have hreach := add_ahead hn cursor hi
  unfold turn
  cases hscan : scan n cursor ready n 0 with
  | none =>
    have := scan_none hscan _ (ahead_lt hn cursor i)
    rw [Nat.zero_add, hreach, hready] at this
    cases this
  | some idx =>
    obtain ⟨k, hk, hidx, -, hbefore⟩ := scan_some hscan
    rw [Nat.zero_add] at hidx
    rcases Nat.lt_trichotomy k (ahead n cursor i) with hlt | heq | hgt
    · right
      -- From behind `idx` it is `k + 1` places less.
      have hnext : ((idx + 1) % n + (ahead n cursor i - (k + 1))) % n = i := by
        rw [hidx, Nat.mod_add_mod, Nat.add_assoc, Nat.mod_add_mod,
          show cursor + k + (1 + (ahead n cursor i - (k + 1))) = cursor + ahead n cursor i by omega, hreach]
      have hlt' := ahead_lt hn cursor i
      rw [← eq_ahead hn hi (by omega) hnext]
      omega
    · left
      rw [hidx, heq, hreach]
    · have := hbefore _ hgt
      rw [Nat.zero_add, hreach, hready] at this
      cases this

/-- A place that is ready in more turns than the cursor is away from it gets one. -/
theorem served_of_ahead (hn : 0 < n) {i : Nat} (hi : i < n) {calls : List (Nat → Bool)} (hready : ∀ r ∈ calls, r i = true)
    (hlen : ahead n cursor i < calls.length) : some i ∈ turns n calls cursor := by
  induction calls generalizing cursor with
  | nil => exact absurd hlen (Nat.not_lt_zero _)
  | cons r calls ih =>
    rcases turn_closer hn cursor hi (hready r List.mem_cons_self) with hnow | hcloser
    · rw [turns, hnow]
      exact List.mem_cons_self
    · refine List.mem_cons_of_mem _ (ih (fun r' hr' => hready r' (List.mem_cons_of_mem _ hr')) ?_)
      rw [List.length_cons] at hlen
      omega

/-- A place that is ready in `n` turns in a row gets one of them. -/
theorem served (hn : 0 < n) {i : Nat} (hi : i < n) {calls : List (Nat → Bool)} (hready : ∀ r ∈ calls, r i = true)
    (hlen : n ≤ calls.length) : some i ∈ turns n calls cursor :=
  served_of_ahead hn hi hready (Nat.lt_of_lt_of_le (ahead_lt hn cursor i) hlen)

theorem turn_some {i : Nat} (h : (turn n ready cursor).1 = some i) : i < n ∧ ready i = true := by
  unfold turn at h
  split at h
  · rename_i idx hscan
    obtain rfl := Option.some.inj h
    obtain ⟨k, hk, rfl, hr, -⟩ := scan_some hscan
    exact ⟨Nat.mod_lt _ (by omega), hr⟩
  · cases h

theorem turn_none (hn : 0 < n) (h : (turn n ready cursor).1 = none) {i : Nat} (hi : i < n) : ready i = false := by
  by_contra hnot
  rcases turn_closer hn cursor hi (by simpa using hnot) with hsome | hcloser
  · rw [h] at hsome
    cases hsome
  · -- No turn was given, so the cursor has not moved.
    have hstay : (turn n ready cursor).2 = cursor := by
      unfold turn at h ⊢
      split at h
      · cases h
      · rfl
    rw [hstay] at hcloser
    exact Nat.lt_irrefl _ hcloser

/-! ## Many turns -/

/-- The cursor after the turns. -/
def cursorAfter (n : Nat) : List (Nat → Bool) → Nat → Nat
  | [], cursor => cursor
  | ready :: rest, cursor => cursorAfter n rest (turn n ready cursor).2

@[simp] theorem turns_length (calls : List (Nat → Bool)) (cursor : Nat) : (turns n calls cursor).length = calls.length := by
  induction calls generalizing cursor with
  | nil => rfl
  | cons r calls ih => rw [turns, List.length_cons, List.length_cons, ih]

theorem turns_append (a b : List (Nat → Bool)) (cursor : Nat) :
    turns n (a ++ b) cursor = turns n a cursor ++ turns n b (cursorAfter n a cursor) := by
  induction a generalizing cursor with
  | nil => rfl
  | cons r a ih => rw [List.cons_append, turns, ih]; rfl

/-- Each call is a turn from where the calls before it left the cursor. -/
theorem turns_getElem? (calls : List (Nat → Bool)) (cursor k : Nat) :
    (turns n calls cursor)[k]? = calls[k]?.map fun ready => (turn n ready (cursorAfter n (calls.take k) cursor)).1 := by
  induction calls generalizing cursor k with
  | nil => rfl
  | cons r calls ih =>
    cases k with
    | zero => rfl
    | succ k =>
      rw [turns, List.getElem?_cons_succ, ih]
      rfl

/-- `served`, for `n` calls in a row of a longer run. -/
theorem served_between (hn : 0 < n) {i : Nat} (hi : i < n) {calls : List (Nat → Bool)} {k : Nat} (hlen : k + n ≤ calls.length)
    (hready : ∀ j < n, ∀ r, calls[k + j]? = some r → r i = true) (cursor : Nat) :
    ∃ j < n, (turns n calls cursor)[k + j]? = some (some i) := by
  have hcalls : calls = calls.take k ++ ((calls.drop k).take n ++ (calls.drop k).drop n) := by
    rw [List.take_append_drop, List.take_append_drop]
  have hwindow : ((calls.drop k).take n).length = n := by
    rw [List.length_take, List.length_drop]
    omega
  have hmem : some i ∈ turns n ((calls.drop k).take n) (cursorAfter n (calls.take k) cursor) := by
    refine served hn hi ?_ (Nat.le_of_eq hwindow.symm)
    intro r hr
    obtain ⟨j, hj⟩ := List.getElem?_of_mem hr
    have hjn : j < n := by
      have := (List.getElem?_eq_some_iff.1 hj).1
      omega
    rw [List.getElem?_take_of_lt hjn, List.getElem?_drop] at hj
    exact hready j hjn r hj
  obtain ⟨j, hj⟩ := List.getElem?_of_mem hmem
  have hjn : j < n := by
    have := (List.getElem?_eq_some_iff.1 hj).1
    rwa [turns_length, hwindow] at this
  refine ⟨j, hjn, ?_⟩
  have hk : (turns n (calls.take k) cursor).length = k := by
    rw [turns_length, List.length_take]
    omega
  rw [hcalls, turns_append, turns_append, List.getElem?_append_right (by omega), hk, Nat.add_sub_cancel_left,
    List.getElem?_append_left (by rw [turns_length]; omega)]
  exact hj

end RoundRobin
