import PomaiQueue.StaleAnswers
/-!
# The deadline wheel

`ReapExpiredInflight` takes the ids out of the slots of the ticks that have
passed and looks each of them up in the inflight map. `Reaps` says what it does to
one id, `Reaped` what it does to a bucket and to a row of ticks. `InWheel` is the
invariant of the wheel: a leased message is in the slot of its bucket tick. It is
lost when a slot is passed a revolution too early and when a timeout cannot be
logged, and in no other way (`inWheel_reapTicks`).
-/

namespace PomaiQueue.Engine

open Wire Posix Assoc Storage

/-! ## Slots -/

/-- The message is in the slot of the tick. -/
def FiledAt (group : ConsumerGroupState) (tick : UInt64) (id : MessageId) : Prop :=
  id ∈ group.deadline_wheel.getD (slotOf group tick) []

/-- Every leased message is in the slot of its bucket tick. -/
def InWheel (group : ConsumerGroupState) : Prop :=
  ∀ id entry, group.inflight.lookup id = some entry → FiledAt group entry.bucket_tick id

/-- The groups have the same wheel and the same leases. -/
structure SameSchedule (a b : ConsumerGroupState) : Prop where
  wheel : b.deadline_wheel = a.deadline_wheel
  base : b.wheel_base_tick = a.wheel_base_tick
  inflight : b.inflight = a.inflight

theorem SameSchedule.filedAt {a b : ConsumerGroupState} (h : SameSchedule a b) {tick : UInt64} {id : MessageId} :
    FiledAt b tick id ↔ FiledAt a tick id := by
  rw [FiledAt, FiledAt, slotOf, slotOf, h.wheel]

theorem SameSchedule.inWheel {a b : ConsumerGroupState} (h : SameSchedule a b) (ha : InWheel a) : InWheel b := by
  intro id entry hin
  rw [h.inflight] at hin
  exact h.filedAt.2 (ha id entry hin)

theorem SameSchedule.trans {a b c : ConsumerGroupState} (h : SameSchedule a b) (h' : SameSchedule b c) : SameSchedule a c :=
  ⟨h'.wheel.trans h.wheel, h'.base.trans h.base, h'.inflight.trans h.inflight⟩

@[simp] theorem pushSlot_length (group : ConsumerGroupState) (slot : Nat) (id : MessageId) :
    (pushSlot group slot id).deadline_wheel.length = group.deadline_wheel.length :=
  List.length_modify _ _ _

@[simp] theorem slotOf_pushSlot (group : ConsumerGroupState) (slot : Nat) (id : MessageId) (tick : UInt64) :
    slotOf (pushSlot group slot id) tick = slotOf group tick := by
  rw [slotOf, pushSlot_length, slotOf]

theorem mem_pushSlot {group : ConsumerGroupState} {s : Nat} {id' : MessageId}
    (h : id' ∈ group.deadline_wheel.getD s []) (slot : Nat) (id : MessageId) :
    id' ∈ (pushSlot group slot id).deadline_wheel.getD s [] := by
  rw [List.getD_eq_getElem?_getD] at h ⊢
  rw [pushSlot, List.getElem?_modify]
  cases hs : group.deadline_wheel[s]? with
  | none =>
    rw [hs] at h
    cases h
  | some ids =>
    rw [hs] at h
    by_cases hslot : slot = s
    · simp only [hslot, if_true]
      exact List.mem_append_left _ h
    · simp only [hslot, if_false]
      exact h

theorem mem_pushSlot_self {group : ConsumerGroupState} {slot : Nat} (h : slot < group.deadline_wheel.length) (id : MessageId) :
    id ∈ (pushSlot group slot id).deadline_wheel.getD slot [] := by
  rw [List.getD_eq_getElem?_getD, pushSlot, List.getElem?_modify, List.getElem?_eq_getElem h]
  simp

theorem slotOf_lt {group : ConsumerGroupState} (h : 0 < group.deadline_wheel.length) (tick : UInt64) :
    slotOf group tick < group.deadline_wheel.length :=
  Nat.mod_lt _ h

/-! ## Transitions -/

section transitions

variable (env : Env) (opts : EngineOptions) {group : ConsumerGroupState} (event : TransitionEvent)

/-- Only a delivery changes the wheel, and it adds to it. -/
theorem applyTransition_wheel (hlen : 0 < group.deadline_wheel.length) :
    (applyTransition env opts group event).wheel_base_tick = group.wheel_base_tick ∧
      ((applyTransition env opts group event).deadline_wheel = group.deadline_wheel ∧
          (event.state = .kInFlight → group.runtime.lookup event.id = none) ∨
        event.state = .kInFlight ∧ (applyTransition env opts group event).deadline_wheel =
          (pushSlot group (slotOf group (event.deadline_ms / opts.tickMs)) event.id).deadline_wheel) := by
  cases hrt : group.runtime.lookup event.id with
  | none =>
    rw [applyTransition_none _ _ _ _ hrt]
    exact ⟨rfl, .inl ⟨rfl, fun _ => rfl⟩⟩
  | some rt =>
    have hne : group.deadline_wheel.isEmpty = false := by
      rw [List.isEmpty_eq_false_iff]
      exact List.ne_nil_of_length_pos hlen
    by_cases hs : event.state = .kInFlight
    · simp only [applyTransition, hrt, hs, if_true, scheduleInflight, hne, Bool.false_eq_true, if_false]
      exact ⟨rfl, .inr ⟨trivial, rfl⟩⟩
    · simp only [applyTransition, hrt, hs, if_false]
      exact ⟨trivial, .inl ⟨trivial, fun h => h.elim⟩⟩

theorem applyTransition_length (hlen : 0 < group.deadline_wheel.length) :
    (applyTransition env opts group event).deadline_wheel.length = group.deadline_wheel.length := by
  rcases (applyTransition_wheel env opts event hlen).2 with ⟨h, -⟩ | ⟨-, h⟩
  · rw [h]
  · rw [h, pushSlot_length]

theorem InWheel.applyTransition (h : InWheel group) (hlen : 0 < group.deadline_wheel.length) :
    InWheel (applyTransition env opts group event) := by
  intro id entry hin
  have hlength := applyTransition_length env opts event hlen
  rw [FiledAt, slotOf, hlength]
  obtain ⟨-, hwheel⟩ := applyTransition_wheel env opts event hlen
  by_cases hid : id = event.id
  · subst hid
    cases hrt : group.runtime.lookup event.id with
    | none =>
      rw [applyTransition_none _ _ _ _ hrt] at hin ⊢
      exact h _ entry hin
    | some rt =>
      rw [inflight_applyTransition_self env opts group event hrt] at hin
      split at hin
      · rename_i hs
        obtain rfl := Option.some.inj hin
        rcases hwheel with ⟨-, hno⟩ | ⟨-, hw⟩
        · rw [hno hs] at hrt
          cases hrt
        · rw [hw]
          exact mem_pushSlot_self (slotOf_lt hlen _) event.id
      · cases hin
  · rw [inflight_applyTransition_ne env opts group event hid] at hin
    rcases hwheel with ⟨hw, -⟩ | ⟨-, hw⟩
    · rw [hw]
      exact h id entry hin
    · rw [hw]
      exact mem_pushSlot (h id entry hin) _ _

end transitions

/-! ## One id -/

/-- The timeouts of a group whose log is at `path` can be logged. -/
structure Env.LogsTimeouts (env : Env) (path : Path) : Prop where
  transition : env.failpoint ≠ some .before_timeout_transition
  before_append : env.failpoint ≠ some .before_log_append
  after_append : env.failpoint ≠ some .after_log_append
  opens : ∀ data, env.refused data = false
  appends : ∀ data, env.fault (.append path data) = none

theorem Env.LogsTimeouts.of_quiet {env : Env} (h : env.toIo.Quiet) (path : Path) : env.LogsTimeouts path := by
  have hp := h.failpoint
  exact ⟨by simp [hp], by simp [hp], by simp [hp], h.refused, fun _ => h.fault _⟩

/-- What becomes of the schedule when the id is looked at, at time `now`. -/
inductive Reaps (env : Env) (path : Path) (now : UInt64) (id : MessageId) (a : ConsumerGroupState) :
    ConsumerGroupState → Prop
  | absent {b} (hin : a.inflight.lookup id = none) (hs : SameSchedule a b) : Reaps env path now id a b
  /-- The slot is passed before the tick of the message. -/
  | early {b} (entry) (hin : a.inflight.lookup id = some entry) (hlt : a.wheel_base_tick < entry.bucket_tick)
      (hs : SameSchedule a b) : Reaps env path now id a b
  /-- The deadline is later in the tick. -/
  | refiled (entry) (hin : a.inflight.lookup id = some entry) (hle : entry.bucket_tick ≤ a.wheel_base_tick)
      (hlt : now < entry.deadline_ms) : Reaps env path now id a (pushSlot a (slotOf a entry.bucket_tick) id)
  | expired {b} (entry) (hin : a.inflight.lookup id = some entry) (hle : entry.bucket_tick ≤ a.wheel_base_tick)
      (hdl : entry.deadline_ms ≤ now) (hwheel : b.deadline_wheel = a.deadline_wheel)
      (hbase : b.wheel_base_tick = a.wheel_base_tick) (herase : b.inflight = a.inflight.erase id) : Reaps env path now id a b
  | failed {b} (entry) (hin : a.inflight.lookup id = some entry) (hdl : entry.deadline_ms ≤ now)
      (hfail : ¬ env.LogsTimeouts path) (hs : SameSchedule a b) : Reaps env path now id a b

theorem timeoutEvent_state (opts : EngineOptions) (now sequence : UInt64) (id : MessageId) (rt : MessageRuntime) :
    (timeoutEvent opts now sequence id rt).state ≠ .kInFlight := by
  unfold timeoutEvent
  split <;> simp

/-- An appended event is applied, or the group stays. -/
theorem appendTransition_group (env : Env) (opts : EngineOptions) (q : Path) (g : CString) (group : ConsumerGroupState)
    (event : TransitionEvent) (fs : Fs) :
    (appendTransition env opts q g group event fs).2.1 = applyTransition env opts group event ∨
      (appendTransition env opts q g group event fs).2.1 = group ∧
        ¬ env.LogsTimeouts (groupEventPath opts.data_dir q g) := by
  unfold appendTransition
  dsimp only
  split_ifs with h1 h2 h3
  · exact .inr ⟨rfl, fun h => h.before_append h1⟩
  · refine .inr ⟨rfl, fun h => ?_⟩
    rw [h.opens] at h2
    cases h2
  all_goals
    cases hw : env.fault (.append (groupEventPath opts.data_dir q g) (encodeEvent event)) with
    | some n =>
      refine .inr ⟨rfl, fun h => ?_⟩
      rw [h.appends] at hw
      cases hw
    | none => first | exact .inr ⟨rfl, fun h => h.after_append h3⟩ | exact .inl rfl

theorem reapOne_reaps (env : Env) (opts : EngineOptions) (q : Path) (g : CString) (now : UInt64) (id : MessageId)
    (group : ConsumerGroupState) (fs : Fs) (hlen : 0 < group.deadline_wheel.length) :
    Reaps env (groupEventPath opts.data_dir q g) now id group (reapOne env opts q g now id group fs).1 := by
  unfold reapOne
  cases hin : group.inflight.lookup id with
  | none => exact .absent hin ⟨rfl, rfl, rfl⟩
  | some entry =>
    dsimp only
    split_ifs with h1 h2 h3
    · exact .early entry hin h1 ⟨rfl, rfl, rfl⟩
    · exact .refiled entry hin (UInt64.not_lt.1 h1) h2
    all_goals
      have hle := UInt64.not_lt.1 h1
      have hdl := UInt64.not_lt.1 h2
      cases hrt : group.runtime.lookup id with
      | none => exact .expired entry hin hle hdl rfl rfl rfl
      | some rt => ?_
    · exact .failed entry hin hdl (fun h => h.transition h3) ⟨rfl, rfl, rfl⟩
    · dsimp only
      rcases appendTransition_group env opts q g (bump group) (timeoutEvent opts now group.next_sequence id rt) fs with
        happ | ⟨hsame, hfail⟩
      · rw [happ]
        have hrt' : (bump group).runtime.lookup (timeoutEvent opts now group.next_sequence id rt).id = some rt := by
          rw [timeoutEvent_id]
          exact hrt
        have hlen' : 0 < (bump group).deadline_wheel.length := hlen
        obtain ⟨hbase, hwheel⟩ := applyTransition_wheel env opts (timeoutEvent opts now group.next_sequence id rt) hlen'
        have hstate := timeoutEvent_state opts now group.next_sequence id rt
        refine .expired entry hin hle hdl ?_ hbase ?_
        · rcases hwheel with ⟨hw, -⟩ | ⟨hs, -⟩
          · exact hw
          · exact absurd hs hstate
        · rw [(applyTransition_some env opts (bump group) _ hrt').2.1, if_neg hstate, timeoutEvent_id]
          rfl
      · rw [hsame]
        exact .failed entry hin hdl hfail ⟨rfl, rfl, rfl⟩

/-! ## A bucket -/

/-- Leases have ended, and none before its deadline. -/
structure Reaped (now : UInt64) (a b : ConsumerGroupState) : Prop where
  length : b.deadline_wheel.length = a.deadline_wheel.length
  kept : ∀ id entry, b.inflight.lookup id = some entry → a.inflight.lookup id = some entry
  spared : ∀ id entry, a.inflight.lookup id = some entry → now < entry.deadline_ms → b.inflight.lookup id = some entry

theorem Reaped.refl (now : UInt64) (a : ConsumerGroupState) : Reaped now a a := ⟨rfl, fun _ _ h => h, fun _ _ h _ => h⟩

theorem Reaped.trans {now : UInt64} {a b c : ConsumerGroupState} (h : Reaped now a b) (h' : Reaped now b c) : Reaped now a c where
  length := h'.length.trans h.length
  kept id entry hin := h.kept id entry (h'.kept id entry hin)
  spared id entry hin hlt := h'.spared id entry (h.spared id entry hin hlt) hlt

theorem SameSchedule.reaped {a b : ConsumerGroupState} (h : SameSchedule a b) (now : UInt64) : Reaped now a b where
  length := by rw [h.wheel]
  kept id entry hin := by rwa [h.inflight] at hin
  spared id entry hin _ := by rwa [h.inflight]

theorem Reaps.reaped {env : Env} {path : Path} {now : UInt64} {id : MessageId} {a b : ConsumerGroupState}
    (h : Reaps env path now id a b) : Reaped now a b ∧ b.wheel_base_tick = a.wheel_base_tick := by
  cases h with
  | absent _ hs => exact ⟨hs.reaped now, hs.base⟩
  | early _ _ _ hs => exact ⟨hs.reaped now, hs.base⟩
  | refiled entry _ _ _ => exact ⟨⟨pushSlot_length _ _ _, fun _ _ h => h, fun _ _ h _ => h⟩, rfl⟩
  | expired entry hin _ hdl hwheel hbase herase =>
    refine ⟨⟨by rw [hwheel], fun id' entry' hin' => ?_, fun id' entry' hin' hlt => ?_⟩, hbase⟩
    · rw [herase] at hin'
      by_cases hid : id' = id
      · rw [hid, AList.lookup_erase] at hin'
        cases hin'
      · rwa [AList.lookup_erase_ne hid] at hin'
    · rw [herase]
      have hid : id' ≠ id := by
        rintro rfl
        rw [hin] at hin'
        obtain rfl := Option.some.inj hin'
        exact absurd hlt (UInt64.not_lt.2 hdl)
      rwa [AList.lookup_erase_ne hid]
  | failed _ _ _ _ hs => exact ⟨hs.reaped now, hs.base⟩

/-- A message that was looked at has no expired lease of a tick that was reached. -/
theorem Reaps.visited {env : Env} {path : Path} {now : UInt64} {id : MessageId} {a b : ConsumerGroupState}
    (h : Reaps env path now id a b) {entry : InflightEntry} (hlog : entry.deadline_ms ≤ now → env.LogsTimeouts path)
    (hin : b.inflight.lookup id = some entry) (hle : entry.bucket_tick ≤ a.wheel_base_tick) :
    now < entry.deadline_ms := by
  have hbefore := h.reaped.1.kept id entry hin
  cases h with
  | absent hnone _ =>
    rw [hnone] at hbefore
    cases hbefore
  | early entry' hin' hlt _ =>
    rw [hin'] at hbefore
    obtain rfl := Option.some.inj hbefore
    exact absurd hlt (UInt64.not_lt.2 hle)
  | refiled entry' hin' _ hlt =>
    rw [hin'] at hbefore
    obtain rfl := Option.some.inj hbefore
    exact hlt
  | expired _ _ _ _ _ _ herase =>
    rw [herase, AList.lookup_erase] at hin
    cases hin
  | failed entry' hin' hdl hfail _ =>
    rw [hin'] at hbefore
    obtain rfl := Option.some.inj hbefore
    exact absurd (hlog hdl) hfail

/-- Every leased message is in its slot, or still to be looked at. -/
def InWheelBut (slot : Nat) (rest : List MessageId) (group : ConsumerGroupState) : Prop :=
  ∀ id entry, group.inflight.lookup id = some entry →
    FiledAt group entry.bucket_tick id ∨ slotOf group entry.bucket_tick = slot ∧ id ∈ rest

theorem SameSchedule.slotOf {a b : ConsumerGroupState} (h : SameSchedule a b) (tick : UInt64) : slotOf b tick = slotOf a tick := by
  rw [Engine.slotOf, Engine.slotOf, h.wheel]

theorem Reaps.inWheelBut {env : Env} {path : Path} {now : UInt64} {id : MessageId} {a b : ConsumerGroupState}
    (h : Reaps env path now id a b) (hlen : 0 < a.deadline_wheel.length) {slot : Nat} {rest : List MessageId}
    (hpass : ∀ id entry, a.inflight.lookup id = some entry → slotOf a entry.bucket_tick = slot →
      entry.bucket_tick ≤ a.wheel_base_tick)
    (hlog : ∀ id entry, a.inflight.lookup id = some entry → slotOf a entry.bucket_tick = slot → entry.deadline_ms ≤ now →
      env.LogsTimeouts path)
    (hin : InWheelBut slot (id :: rest) a) : InWheelBut slot rest b := by
  -- Another message, or one that is in its slot, stays where it is.
  have hother : ∀ {b : ConsumerGroupState}, SameSchedule a b → (∀ entry, a.inflight.lookup id = some entry →
      slotOf a entry.bucket_tick ≠ slot) → InWheelBut slot rest b := by
    intro b hs hno id' entry' hin'
    rw [hs.inflight] at hin'
    rw [hs.filedAt, hs.slotOf]
    rcases hin id' entry' hin' with hf | ⟨hslot, hmem⟩
    · exact .inl hf
    · rcases List.mem_cons.1 hmem with rfl | hmem
      · exact absurd hslot (hno entry' hin')
      · exact .inr ⟨hslot, hmem⟩
  cases h with
  | absent hnone hs =>
    refine hother hs fun entry hin' => ?_
    rw [hnone] at hin'
    cases hin'
  | early entry hin' hlt hs =>
    refine hother hs fun entry' hin'' hslot => ?_
    rw [hin'] at hin''
    obtain rfl := Option.some.inj hin''
    exact absurd (hpass id entry hin' hslot) (UInt64.not_le.2 hlt)
  | refiled entry hin' _ _ =>
    intro id' entry' hin''
    rw [FiledAt, slotOf_pushSlot]
    by_cases hid : id' = id
    · subst hid
      have heq : a.inflight.lookup id' = some entry' := hin''
      rw [hin'] at heq
      obtain rfl := Option.some.inj heq
      exact .inl (mem_pushSlot_self (slotOf_lt hlen _) id')
    · rcases hin id' entry' hin'' with hf | ⟨hslot, hmem⟩
      · exact .inl (mem_pushSlot hf _ _)
      · exact .inr ⟨hslot, (List.mem_cons.1 hmem).resolve_left hid⟩
  | expired entry hin' _ _ hwheel _ herase =>
    intro id' entry' hin''
    rw [herase] at hin''
    have hid : id' ≠ id := by
      rintro rfl
      rw [AList.lookup_erase] at hin''
      cases hin''
    rw [AList.lookup_erase_ne hid] at hin''
    rw [FiledAt, slotOf, hwheel]
    rcases hin id' entry' hin'' with hf | ⟨hslot, hmem⟩
    · exact .inl hf
    · exact .inr ⟨hslot, (List.mem_cons.1 hmem).resolve_left hid⟩
  | failed entry hin' hdl hfail hs =>
    refine hother hs fun entry' hin'' hslot => ?_
    rw [hin'] at hin''
    obtain rfl := Option.some.inj hin''
    exact hfail (hlog id entry hin' hslot hdl)

section reap

variable (env : Env) (opts : EngineOptions) (q : Path) (g : CString) (now : UInt64)

theorem reapBucket_reaped (bucket : List MessageId) (group : ConsumerGroupState) (fs : Fs)
    (hlen : 0 < group.deadline_wheel.length) :
    Reaped now group (reapBucket env opts q g now bucket group fs).1 ∧
      (reapBucket env opts q g now bucket group fs).1.wheel_base_tick = group.wheel_base_tick := by
  induction bucket generalizing group fs with
  | nil => exact ⟨.refl now group, rfl⟩
  | cons id bucket ih =>
    obtain ⟨hone, hbase⟩ := (reapOne_reaps env opts q g now id group fs hlen).reaped
    obtain ⟨hrest, hbase'⟩ := ih _ (reapOne env opts q g now id group fs).2 (by rw [hone.length]; exact hlen)
    exact ⟨hone.trans hrest, hbase'.trans hbase⟩

theorem reapBucket_visited (bucket : List MessageId) (group : ConsumerGroupState) (fs : Fs)
    (hlen : 0 < group.deadline_wheel.length) {id : MessageId} (hid : id ∈ bucket) {entry : InflightEntry}
    (hlog : entry.deadline_ms ≤ now → env.LogsTimeouts (groupEventPath opts.data_dir q g))
    (hin : (reapBucket env opts q g now bucket group fs).1.inflight.lookup id = some entry)
    (hle : entry.bucket_tick ≤ group.wheel_base_tick) : now < entry.deadline_ms := by
  induction bucket generalizing group fs with
  | nil => cases hid
  | cons id' bucket ih =>
    have hone := reapOne_reaps env opts q g now id' group fs hlen
    obtain ⟨hreaped, hbase⟩ := hone.reaped
    have hlen' : 0 < (reapOne env opts q g now id' group fs).1.deadline_wheel.length := by rw [hreaped.length]; exact hlen
    rcases List.mem_cons.1 hid with rfl | hid
    · have hrest := (reapBucket_reaped env opts q g now bucket _ (reapOne env opts q g now id group fs).2 hlen').1
      exact hone.visited hlog (hrest.kept id entry hin) hle
    · exact ih _ _ hlen' hid hin (by rw [hbase]; exact hle)

theorem reapBucket_inWheel {slot : Nat} (bucket : List MessageId) (group : ConsumerGroupState) (fs : Fs)
    (hlen : 0 < group.deadline_wheel.length)
    (hpass : ∀ id entry, group.inflight.lookup id = some entry → slotOf group entry.bucket_tick = slot →
      entry.bucket_tick ≤ group.wheel_base_tick)
    (hlog : ∀ id entry, group.inflight.lookup id = some entry → slotOf group entry.bucket_tick = slot →
      entry.deadline_ms ≤ now → env.LogsTimeouts (groupEventPath opts.data_dir q g))
    (hin : InWheelBut slot bucket group) : InWheel (reapBucket env opts q g now bucket group fs).1 := by
  induction bucket generalizing group fs with
  | nil =>
    intro id entry h
    exact (hin id entry h).resolve_right fun hr => (by cases hr.2)
  | cons id bucket ih =>
    have hone := reapOne_reaps env opts q g now id group fs hlen
    obtain ⟨hreaped, hbase⟩ := hone.reaped
    refine ih (reapOne env opts q g now id group fs).1 _ (by rw [hreaped.length]; exact hlen) (fun id' entry' h hslot => ?_)
      (fun id' entry' h hslot => ?_) (hone.inWheelBut hlen hpass hlog hin)
    · rw [hbase]
      rw [slotOf, hreaped.length] at hslot
      exact hpass id' entry' (hreaped.kept id' entry' h) hslot
    · rw [slotOf, hreaped.length] at hslot
      exact hlog id' entry' (hreaped.kept id' entry' h) hslot

/-! ## A row of ticks -/

theorem toNat_succ {x : UInt64} (h : x.toNat + 1 < 2 ^ 64) : (x + 1).toNat = x.toNat + 1 := by
  rw [UInt64.toNat_add, UInt64.toNat_one]
  exact Nat.mod_eq_of_lt h

/-- The group when the slot of its base tick has been taken out. -/
def takeSlot (group : ConsumerGroupState) : ConsumerGroupState :=
  { group with deadline_wheel := group.deadline_wheel.set (slotOf group group.wheel_base_tick) [] }

theorem takeSlot_length (group : ConsumerGroupState) : (takeSlot group).deadline_wheel.length = group.deadline_wheel.length :=
  List.length_set

theorem inWheelBut_takeSlot {group : ConsumerGroupState} (h : InWheel group) :
    InWheelBut (slotOf group group.wheel_base_tick)
      (group.deadline_wheel.getD (slotOf group group.wheel_base_tick) []) (takeSlot group) := by
  intro id entry hin
  have hfiled : FiledAt group entry.bucket_tick id := h id entry hin
  rw [FiledAt, slotOf, takeSlot_length, ← slotOf]
  by_cases hslot : slotOf group entry.bucket_tick = slotOf group group.wheel_base_tick
  · refine .inr ⟨hslot, ?_⟩
    rw [← hslot]
    exact hfiled
  · refine .inl ?_
    rw [FiledAt, List.getD_eq_getElem?_getD] at hfiled
    rw [List.getD_eq_getElem?_getD, takeSlot, List.getElem?_set_ne (Ne.symm hslot)]
    exact hfiled

/-- One round of the loop. -/
theorem reapTicks_succ (rounds : Nat) (group : ConsumerGroupState) (fs : Fs) :
    reapTicks env opts q g now (rounds + 1) group fs =
      reapTicks env opts q g now rounds
        { (reapBucket env opts q g now (group.deadline_wheel.getD (slotOf group group.wheel_base_tick) []) (takeSlot group) fs).1 with
          wheel_base_tick := (reapBucket env opts q g now
            (group.deadline_wheel.getD (slotOf group group.wheel_base_tick) []) (takeSlot group) fs).1.wheel_base_tick + 1 }
        (reapBucket env opts q g now (group.deadline_wheel.getD (slotOf group group.wheel_base_tick) []) (takeSlot group) fs).2 :=
  rfl

theorem reapTicks_reaped (rounds : Nat) (group : ConsumerGroupState) (fs : Fs) (hlen : 0 < group.deadline_wheel.length)
    (hsum : group.wheel_base_tick.toNat + rounds < 2 ^ 64) :
    Reaped now group (reapTicks env opts q g now rounds group fs).1 ∧
      (reapTicks env opts q g now rounds group fs).1.wheel_base_tick.toNat = group.wheel_base_tick.toNat + rounds := by
  induction rounds generalizing group fs with
  | zero => exact ⟨.refl now group, rfl⟩
  | succ rounds ih =>
    rw [reapTicks_succ]
    obtain ⟨hreaped, hbase⟩ := reapBucket_reaped env opts q g now
      (group.deadline_wheel.getD (slotOf group group.wheel_base_tick) []) (takeSlot group) fs (by rw [takeSlot_length]; exact hlen)
    have htake : Reaped now group (takeSlot group) := ⟨takeSlot_length group, fun _ _ h => h, fun _ _ h _ => h⟩
    generalize reapBucket env opts q g now _ (takeSlot group) fs = out at hreaped hbase
    have hbase1 : (out.1.wheel_base_tick + 1).toNat = group.wheel_base_tick.toNat + 1 := by
      rw [show out.1.wheel_base_tick = group.wheel_base_tick from hbase]
      exact toNat_succ (by omega)
    have hnext : Reaped now out.1 { out.1 with wheel_base_tick := out.1.wheel_base_tick + 1 } :=
      ⟨rfl, fun _ _ h => h, fun _ _ h _ => h⟩
    obtain ⟨hrest, hbase'⟩ := ih { out.1 with wheel_base_tick := out.1.wheel_base_tick + 1 } out.2
      (by rw [hnext.length, hreaped.length, takeSlot_length]; exact hlen) (by rw [hbase1]; omega)
    refine ⟨htake.trans (hreaped.trans (hnext.trans hrest)), ?_⟩
    rw [hbase', hbase1]
    omega

/-- The reap keeps the wheel in order when it passes no slot before its time and
every timeout can be logged, and it ends the leases of the ticks it visits. -/
theorem inWheel_reapTicks (rounds : Nat) (group : ConsumerGroupState) (fs : Fs) (hlen : 0 < group.deadline_wheel.length)
    (hsum : group.wheel_base_tick.toNat + rounds < 2 ^ 64)
    (hpass : ∀ v, group.wheel_base_tick.toNat ≤ v → v < group.wheel_base_tick.toNat + rounds → ∀ id entry,
      group.inflight.lookup id = some entry →
      v % group.deadline_wheel.length = entry.bucket_tick.toNat % group.deadline_wheel.length → entry.bucket_tick.toNat ≤ v)
    (hlog : ∀ v, group.wheel_base_tick.toNat ≤ v → v < group.wheel_base_tick.toNat + rounds → ∀ id entry,
      group.inflight.lookup id = some entry →
      v % group.deadline_wheel.length = entry.bucket_tick.toNat % group.deadline_wheel.length →
      entry.deadline_ms ≤ now → env.LogsTimeouts (groupEventPath opts.data_dir q g))
    (h : InWheel group) :
    InWheel (reapTicks env opts q g now rounds group fs).1 ∧
      ∀ id entry, (reapTicks env opts q g now rounds group fs).1.inflight.lookup id = some entry →
        ∀ v, group.wheel_base_tick.toNat ≤ v → v < group.wheel_base_tick.toNat + rounds →
        v % group.deadline_wheel.length = entry.bucket_tick.toNat % group.deadline_wheel.length → now < entry.deadline_ms := by
  induction rounds generalizing group fs with
  | zero => exact ⟨h, fun id entry _ v hge hlt => absurd hlt (by omega)⟩
  | succ rounds ih =>
    rw [reapTicks_succ]
    have hlen' : 0 < (takeSlot group).deadline_wheel.length := by rw [takeSlot_length]; exact hlen
    have hhere : ∀ id entry, (takeSlot group).inflight.lookup id = some entry →
        slotOf (takeSlot group) entry.bucket_tick = slotOf group group.wheel_base_tick →
        entry.bucket_tick ≤ (takeSlot group).wheel_base_tick := by
      intro id entry hl hslot
      rw [slotOf, takeSlot_length] at hslot
      exact UInt64.le_iff_toNat_le.2 (hpass group.wheel_base_tick.toNat le_rfl (by omega) id entry hl hslot.symm)
    have hlogs : ∀ id entry, (takeSlot group).inflight.lookup id = some entry →
        slotOf (takeSlot group) entry.bucket_tick = slotOf group group.wheel_base_tick →
        entry.deadline_ms ≤ now → env.LogsTimeouts (groupEventPath opts.data_dir q g) := by
      intro id entry hl hslot
      rw [slotOf, takeSlot_length] at hslot
      exact hlog group.wheel_base_tick.toNat le_rfl (by omega) id entry hl hslot.symm
    have hin := reapBucket_inWheel env opts q g now _ (takeSlot group) fs hlen' hhere hlogs (inWheelBut_takeSlot h)
    obtain ⟨hreaped, hbase⟩ := reapBucket_reaped env opts q g now
      (group.deadline_wheel.getD (slotOf group group.wheel_base_tick) []) (takeSlot group) fs hlen'
    have hvisited := fun id (hid : id ∈ group.deadline_wheel.getD (slotOf group group.wheel_base_tick) []) =>
      @reapBucket_visited env opts q g now _ (takeSlot group) fs hlen' id hid
    generalize reapBucket env opts q g now _ (takeSlot group) fs = out at hin hreaped hbase hvisited
    have hbase1 : (out.1.wheel_base_tick + 1).toNat = group.wheel_base_tick.toNat + 1 := by
      rw [show out.1.wheel_base_tick = group.wheel_base_tick from hbase]
      exact toNat_succ (by omega)
    have hlength : out.1.deadline_wheel.length = group.deadline_wheel.length := hreaped.length.trans (takeSlot_length group)
    have hlen1 : 0 < out.1.deadline_wheel.length := by rw [hlength]; exact hlen
    have hsum1 : (out.1.wheel_base_tick + 1).toNat + rounds < 2 ^ 64 := by rw [hbase1]; omega
    have hthere : ∀ v, (out.1.wheel_base_tick + 1).toNat ≤ v → v < (out.1.wheel_base_tick + 1).toNat + rounds → ∀ id entry,
        out.1.inflight.lookup id = some entry →
        v % out.1.deadline_wheel.length = entry.bucket_tick.toNat % out.1.deadline_wheel.length →
        entry.bucket_tick.toNat ≤ v := by
      intro v hge hlt id entry hl hv
      rw [hbase1] at hge hlt
      rw [hlength] at hv
      exact hpass v (by omega) (by omega) id entry (hreaped.kept id entry hl) hv
    have hlogs' : ∀ v, (out.1.wheel_base_tick + 1).toNat ≤ v → v < (out.1.wheel_base_tick + 1).toNat + rounds → ∀ id entry,
        out.1.inflight.lookup id = some entry →
        v % out.1.deadline_wheel.length = entry.bucket_tick.toNat % out.1.deadline_wheel.length →
        entry.deadline_ms ≤ now → env.LogsTimeouts (groupEventPath opts.data_dir q g) := by
      intro v hge hlt id entry hl hv
      rw [hbase1] at hge hlt
      rw [hlength] at hv
      exact hlog v (by omega) (by omega) id entry (hreaped.kept id entry hl) hv
    obtain ⟨hrest, hlater⟩ := ih { out.1 with wheel_base_tick := out.1.wheel_base_tick + 1 } out.2 hlen1 hsum1 hthere hlogs' hin
    refine ⟨hrest, fun id entry hl v hge hlt hv => ?_⟩
    rcases Nat.eq_or_lt_of_le hge with rfl | hgt
    · -- The message was in the slot of this tick.
      have hkept := (reapTicks_reaped env opts q g now rounds { out.1 with wheel_base_tick := out.1.wheel_base_tick + 1 }
        out.2 hlen1 hsum1).1.kept id entry hl
      have hfiled := h id entry (hreaped.kept id entry hkept)
      rw [FiledAt, slotOf, ← hv, ← slotOf] at hfiled
      have hslot : slotOf (takeSlot group) entry.bucket_tick = slotOf group group.wheel_base_tick := by
        rw [slotOf, takeSlot_length]
        exact hv.symm
      have hkept' := hreaped.kept id entry hkept
      exact hvisited id hfiled (hlogs id entry hkept' hslot) hkept (hhere id entry hkept' hslot)
    · exact hlater id entry hl v (by rw [hbase1]; omega) (by rw [hbase1]; omega) (by rw [hlength]; exact hv)

end reap

end PomaiQueue.Engine
