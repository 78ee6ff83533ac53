import PomaiQueue.Stored
/-!
# The entries of a group

`Entries`: in memory and in every snapshot, the entry of a message has the offset
and the time of its record, and is the default entry if no event was logged
for the message. It holds in every state of a node, whatever fails
(`Entries.steps`), because a snapshot is older than the log it is read with.
-/

namespace PomaiQueue.Engine

open Wire Posix Assoc Storage

/-- One record at each offset, and not too many of them. -/
structure Rules.Sound (rules : Rules) : Prop where
  functional : ∀ o r r', rules.site o r → rules.site o r' → r = r'
  small : ∃ ids : List MessageId, ids.length < 2 ^ 64 ∧ ∀ o r, rules.site o r → idOf r ∈ ids

/-- The entry of `id` belongs to a record with that id. -/
def Filed (site : UInt64 → Record → Prop) (id : MessageId) (rt : MessageRuntime) : Prop :=
  ∃ r, site rt.offset r ∧ idOf r = id ∧ rt.enqueue_ts = r.header.enqueue_ts

def MessageRuntime.IsDefault (rt : MessageRuntime) : Prop := rt = defaultRuntime rt.offset rt.enqueue_ts

/-- An entry while the log is `log`. -/
structure EntryOk (rules : Rules) (log : List TransitionEvent) (id : MessageId) (rt : MessageRuntime) : Prop where
  filed : Filed rules.site id rt
  default : lastEvent log id = none → rt.IsDefault

structure Entries (rules : Rules) (n : Node) : Prop where
  memory : ∀ group, n.group = some group → ∀ id rt, group.runtime.lookup id = some rt → EntryOk rules n.log id rt
  snaps : ∀ data ∈ n.snaps, ∃ next items, data = encodeSnapshot next items ∧ items.length < 2 ^ 64 ∧
    ∀ item ∈ items, EntryOk rules n.log item.1 item.2
  log : ∀ event ∈ n.log, ∃ o r, rules.site o r ∧ idOf r = event.id

theorem lastEvent_none {log : List TransitionEvent} {id : MessageId} : lastEvent log id = none ↔ ∀ e ∈ log, e.id ≠ id := by
  induction log using List.reverseRecOn with
  | nil => simp
  | append_singleton log e ih =>
    rw [lastEvent_concat]
    constructor
    · intro h e' he'
      split at h
      · cases h
      · rename_i hid
        rcases List.mem_append.1 he' with he' | he'
        · exact ih.1 h e' he'
        · rw [List.mem_singleton.1 he']
          exact hid
    · intro h
      rw [if_neg (h e (by simp))]
      exact ih.2 fun e' he' => h e' (List.mem_append_left _ he')

theorem EntryOk.grow {rules : Rules} {log more : List TransitionEvent} {id : MessageId} {rt : MessageRuntime}
    (h : EntryOk rules log id rt) : EntryOk rules (log ++ more) id rt where
  filed := h.filed
  default hnone := h.default (lastEvent_none.2 fun e he => lastEvent_none.1 hnone e (List.mem_append_left _ he))

/-! ## Loading -/

/-- A snapshot sets entries that are there and the next number. -/
theorem Restores.shape {snap : Option Bytes} {group base : ConsumerGroupState} (h : Restores snap group base) :
    ∃ runtime next, base = { group with runtime := runtime, next_sequence := next } ∧ runtime.keys = group.runtime.keys := by
  cases snap with
  | none =>
    rw [show base = group from h]
    exact ⟨group.runtime, group.next_sequence, rfl, rfl⟩
  | some file =>
    have h' : loadSnapshot file group = .ok base := h
    unfold loadSnapshot at h'
    dsimp only at h'
    split at h'
    · cases h'
    · split at h'
      · cases h'
      · rename_i runtime hitems
        obtain rfl := Except.ok.inj h'
        exact ⟨runtime, _, rfl, loadItems_keys hitems⟩

theorem Restores.keys {snap : Option Bytes} {group base : ConsumerGroupState} (h : Restores snap group base) :
    base.runtime.keys = group.runtime.keys ∧ base.inflight = group.inflight := by
  obtain ⟨runtime, next, rfl, hkeys⟩ := h.shape
  exact ⟨hkeys, rfl⟩

/-- Messages of the segment have an entry. -/
theorem Restores.known {env : Env} {opts : EngineOptions} {messages : List (UInt64 × Message)} {snap : Option Bytes}
    {base : ConsumerGroupState} (h : Restores snap (defaultGroup env opts messages) base) {id : MessageId}
    (hid : ∃ om ∈ messages, om.2.id = id) : ∃ rt, base.runtime.lookup id = some rt := by
  obtain ⟨om, hom, hom'⟩ := hid
  rw [← mem_keys_iff, h.keys.1]
  exact mem_defaultRuntimes _ _ _ (.inr ⟨om, (env.offset_order.mem _ _).2 hom, hom'⟩)

/-- What an entry is after a load. -/
theorem lookup_rebuilt (env : Env) (opts : EngineOptions) (log : List TransitionEvent) (base : ConsumerGroupState)
    (id : MessageId) :
    (rebuilt env opts log base).runtime.lookup id = (base.runtime.lookup id).map fun rt =>
      (rt.restored (lastEvent log id)).recovered (env.now .loadGroupState) := by
  have hl : (rebuilt env opts log base).runtime.lookup id =
      ((replay env opts log base).runtime.lookup id).map (MessageRuntime.recovered (env.now .loadGroupState)) :=
    lookup_mapValues _ _ _
  rw [hl, lookup_replay, Option.map_map]
  rfl

@[simp] theorem MessageRuntime.recovered_offset (now : UInt64) (rt : MessageRuntime) : (rt.recovered now).offset = rt.offset := by
  unfold MessageRuntime.recovered
  split <;> rfl

@[simp] theorem MessageRuntime.recovered_enqueue_ts (now : UInt64) (rt : MessageRuntime) :
    (rt.recovered now).enqueue_ts = rt.enqueue_ts := by
  unfold MessageRuntime.recovered
  split <;> rfl

@[simp] theorem MessageRuntime.restored_offset (rt : MessageRuntime) (last : Option TransitionEvent) :
    (rt.restored last).offset = rt.offset := by
  cases last <;> rfl

@[simp] theorem MessageRuntime.restored_enqueue_ts (rt : MessageRuntime) (last : Option TransitionEvent) :
    (rt.restored last).enqueue_ts = rt.enqueue_ts := by
  cases last <;> rfl

/-- The entries that a load starts from. -/
theorem Entries.base {rules : Rules} {n : Node} (h : Entries rules n) {env : Env} {opts : EngineOptions}
    {messages : List (UInt64 × Message)} {base : ConsumerGroupState} (hsite : Sited rules.site messages)
    {snap : Option Bytes} (hsnap : ∀ data, snap = some data → data ∈ n.snaps)
    (hbase : Restores snap (defaultGroup env opts messages) base) {id : MessageId} {rt : MessageRuntime}
    (hrt : base.runtime.lookup id = some rt) : EntryOk rules n.log id rt := by
  have hdefault : ∀ rt, (defaultGroup env opts messages).runtime.lookup id = some rt → EntryOk rules n.log id rt := by
    intro rt hrt
    obtain ⟨om, hom, rfl, rfl⟩ := lookup_defaultRuntimes hrt
    obtain ⟨r, hr, hid, hts⟩ := hsite om ((env.offset_order.mem _ _).1 hom)
    exact ⟨⟨r, hr, hid, hts.symm⟩, fun _ => rfl⟩
  cases snap with
  | none =>
    have hb : base = defaultGroup env opts messages := hbase
    rw [hb] at hrt
    exact hdefault rt hrt
  | some file =>
    obtain ⟨next, items, rfl, hlen, hitems⟩ := h.snaps file (hsnap file rfl)
    have hb : loadSnapshot (encodeSnapshot next items) (defaultGroup env opts messages) = .ok base := hbase
    rw [loadSnapshot_encode next items hlen] at hb
    obtain rfl := Except.ok.inj hb
    -- The entry is the default one, or the snapshot's.
    cases hd : (defaultGroup env opts messages).runtime.lookup id with
    | none =>
      have hnot : id ∉ (overlay items (defaultGroup env opts messages).runtime).keys := by
        rw [overlay_keys, mem_keys_iff, hd]
        simp
      exact absurd ((mem_keys_iff _ _).2 ⟨rt, hrt⟩) hnot
    | some rt0 =>
      obtain ⟨rt', hrt', hor⟩ := overlay_lookup items _ id rt0 hd
      have heq : rt' = rt := Option.some.inj (hrt'.symm.trans hrt)
      subst heq
      rcases hor with rfl | hmem
      · exact hdefault rt' hd
      · exact hitems _ hmem

/-- Every snapshot of the group can be read. -/
theorem Entries.restores {rules : Rules} {n : Node} (h : Entries rules n) (group : ConsumerGroupState) {snap : Option Bytes}
    (hsnap : ∀ data, snap = some data → data ∈ n.snaps) : ∃ base, Restores snap group base := by
  cases snap with
  | none => exact ⟨group, rfl⟩
  | some file =>
    obtain ⟨next, items, rfl, hlen, -⟩ := h.snaps file (hsnap file rfl)
    exact ⟨_, loadSnapshot_encode next items hlen group⟩

/-! ## Moves -/

/-- A record that is read for an entry is the one the entry is filed under. -/
theorem Entries.read_known {rules : Rules} (hr : rules.Sound) {n : Node} (h : Entries rules n) {a : ConsumerGroupState}
    (hg : n.group = some a) {read : UInt64 → StatusOr Record} (hread : ∀ o r, read o = .ok r → rules.site o r)
    {id : MessageId} {rt : MessageRuntime} (hrt : a.runtime.lookup id = some rt) {record : Record}
    (hrec : read rt.offset = .ok record) : idOf record = id := by
  obtain ⟨r, hs, hid, -⟩ := (h.memory a hg id rt hrt).filed
  rw [hr.functional _ _ _ (hread _ _ hrec) hs]
  exact hid

/-- A map of messages of the segment is not too large. -/
theorem Rules.Sound.keys_lt {rules : Rules} (hr : rules.Sound) {runtime : Map MessageId MessageRuntime}
    (h : ∀ id rt, runtime.lookup id = some rt → Filed rules.site id rt) : runtime.entries.length < 2 ^ 64 := by
  obtain ⟨ids, hlen, hids⟩ := hr.small
  have hsub : runtime.keys ⊆ ids := by
    intro id hid
    obtain ⟨rt, hrt⟩ := (mem_keys_iff _ _).1 hid
    obtain ⟨r, hs, rfl, -⟩ := h id rt hrt
    exact hids _ _ hs
  have hle := (List.subperm_of_subset runtime.keys_nodup hsub).length_le
  rw [AList.keys, List.keys, List.length_map] at hle
  omega

/-- A move that keeps the entries in memory and the snapshots. -/
theorem Entries.still {rules : Rules} {n : Node} (h : Entries rules n) {a b : ConsumerGroupState} (hg : n.group = some a)
    (hb : b.runtime = a.runtime) : Entries rules (n.moved .still b) where
  memory := by
    rintro group hgroup id rt hrt
    obtain rfl := Option.some.inj hgroup
    rw [hb] at hrt
    simpa [Node.moved, Label.logged] using h.memory a hg id rt hrt
  snaps := by simpa [Node.moved, Label.saves, Label.logged] using h.snaps
  log := by simpa [Node.moved, Label.logged] using h.log

/-- An attempt, whatever becomes of it. -/
theorem Entries.attempt {rules : Rules} {n : Node} (h : Entries rules n) {env : Env} {opts : EngineOptions}
    {g : CString} {read : UInt64 → StatusOr Record} {op : GroupOp} {a b : ConsumerGroupState} {event : TransitionEvent}
    (fate : Fate) (hg : n.group = some a) (hf : Fires env opts g read op a event)
    (hb : ∀ id rt, b.runtime.lookup id = some rt → a.runtime.lookup id = some rt ∨
      fate ≠ .unlogged ∧ id = event.id ∧ ∃ rt0, a.runtime.lookup id = some rt0 ∧ rt = rt0.after event) :
    Entries rules (n.moved (.attempt event fate b) b) where
  memory := by
    rintro group hgroup id rt hrt
    obtain rfl := Option.some.inj hgroup
    rcases hb id rt hrt with hold | ⟨hfate, rfl, rt0, hrt0, rfl⟩
    · exact (h.memory a hg id rt hold).grow
    · refine ⟨(h.memory a hg _ rt0 hrt0).filed, fun hnone => ?_⟩
      have hmem : event ∈ (n.moved (.attempt event fate b) b).log := by
        apply List.mem_append_right _
        cases fate with
        | applied | lost => exact List.mem_singleton.2 rfl
        | unlogged => exact absurd rfl hfate
      exact absurd rfl (lastEvent_none.1 hnone event hmem)
  snaps := by
    intro data hd
    have hd' : data ∈ n.snaps := by
      rcases List.mem_append.1 hd with hd | hd
      · exact hd
      · cases fate <;> cases hd
    obtain ⟨next, items, rfl, hlen, hitems⟩ := h.snaps data hd'
    exact ⟨next, items, rfl, hlen, fun item hi => (hitems item hi).grow⟩
  log := by
    intro e he
    rcases List.mem_append.1 he with he | he
    · exact h.log e he
    · have heq : e = event := by
        cases fate with
        | applied | lost => exact List.mem_singleton.1 he
        | unlogged => cases he
      obtain ⟨rt, hrt⟩ := hf.known
      obtain ⟨r, hs, hid, -⟩ := (h.memory a hg _ rt hrt).filed
      exact ⟨rt.offset, r, hs, by rw [heq]; exact hid⟩

theorem Entries.next {rules : Rules} (hr : rules.Sound) {n n' : Node} {x : Happening} (h : Entries rules n)
    (hn : Next rules n x n') : Entries rules n' := by
  cases hn with
  | @loaded env opts messages base hg henv hopts hsite hcov hset hpres hbase =>
    refine ⟨fun group hgroup id rt hrt => ?_, h.snaps, h.log⟩
    obtain rfl := Option.some.inj hgroup
    rw [lookup_rebuilt, Option.map_eq_some_iff] at hrt
    obtain ⟨rt0, hrt0, rfl⟩ := hrt
    have hok := h.base hsite (fun _ => List.mem_of_getLast?) hbase hrt0
    obtain ⟨r, hs, hid, hts⟩ := hok.filed
    refine ⟨⟨r, by simpa using hs, hid, by simpa using hts⟩, fun hnone => ?_⟩
    have hd := hok.default hnone
    have hready : rt0.state ≠ .kInFlight := by
      rw [hd]
      exact fun hc => by cases hc
    have heq : (rt0.restored (lastEvent n.log id)).recovered (env.now .loadGroupState) = rt0 := by
      rw [hnone]
      exact if_neg hready
    rw [heq]
    exact hd
  | @moved env opts read op a b l hg henv hopts hread hm =>
    cases hm with
    | sched hc => exact h.still hg hc.runtime
    | forget id hnone => exact h.still hg rfl
    | meet id0 rt0 record rt h0 hrec hnone hrt =>
      -- The record is the one the entry is filed under, so its id has an entry.
      rw [h.read_known hr hg hread h0 hrec, h0] at hnone
      cases hnone
    | @fire event hf =>
      refine h.attempt .applied hg hf fun id rt hrt => ?_
      rw [lookup_applyTransition] at hrt
      split at hrt
      · rename_i hid
        obtain ⟨rt0, hrt0, rfl⟩ := Option.map_eq_some_iff.1 hrt
        exact .inr ⟨by simp, hid, rt0, hrt0, rfl⟩
      · exact .inl hrt
    | lose _ hf => exact h.attempt .lost hg hf fun id rt hrt => .inl hrt
    | skip _ hf => exact h.attempt .unlogged hg hf fun id rt hrt => .inl hrt
    | persist =>
      have hmem := h.memory a hg
      refine ⟨fun group hgroup id rt hrt => ?_, fun data hd => ?_, by simpa [Node.moved, Label.logged] using h.log⟩
      · obtain rfl := Option.some.inj hgroup
        simpa [Node.moved, Label.logged] using hmem id rt hrt
      · rcases List.mem_append.1 hd with hd | hd
        · obtain ⟨next, items, rfl, hlen, hitems⟩ := h.snaps data hd
          exact ⟨next, items, rfl, hlen, fun item hi => (hitems item hi).grow⟩
        · refine ⟨a.next_sequence, env.runtime_order.order a.runtime.entries, List.mem_singleton.1 hd, ?_, fun item hi => ?_⟩
          · rw [(env.runtime_order.perm _).length_eq]
            exact hr.keys_lt fun id rt hrt => (hmem id rt hrt).filed
          · obtain ⟨id, rt⟩ := item
            exact (hmem id rt ((mem_entries_iff _ _ _).1 ((env.runtime_order.mem _ _).1 hi))).grow
  | crashed => exact ⟨by simp, h.snaps, h.log⟩

theorem Entries.steps {rules : Rules} (hr : rules.Sound) {n : Node} {hs : List Happening} (h : Steps rules {} hs n) :
    Entries rules n :=
  h.keeps (fun hn he => he.next hr hn) ⟨by simp, by simp, by simp⟩

end PomaiQueue.Engine
