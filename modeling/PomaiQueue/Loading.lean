import PomaiQueue.Framing
import PomaiQueue.PointInTime
/-!
# What a load makes of its files

`LoadGroupState` takes the offset of a message from the segment and then, if the
snapshot lists the id, from the snapshot (`lookup_load`). So the offsets point at
the right records exactly if the snapshot's do (`loaded_offsets_point`), and a
snapshot that is ahead of a segment that lost its end breaks that
(`snapshot_ahead`).

The map is keyed by the id and filled in the order of another map, so of several
records with one id it keeps the one that comes last (`load_keeps_records`).
-/

namespace PomaiQueue.Storage

open Wire Posix

/-- Whatever a record's body is read as, its header is its own. -/
theorem Holds.read_header {log : SegmentLog} {fs : Fs} {rs : List Frame} (h : Holds log fs rs) {i : Nat} {f : Frame}
    (hi : rs[i]? = some f) {r : Record} (hread : log.read fs (UInt64.ofNat i) = .ok r) :
    r.header = sealedHeader (f.2.withOffset (UInt64.ofNat i)) := by
  have hlt : i < rs.length := (List.getElem?_eq_some_iff.1 hi).1
  have hlen := h.length_lt
  have hto : (UInt64.ofNat i).toNat = i := u64_toNat (by omega)
  have hs : (stamped rs)[i]? = some (f.1, f.2.withOffset (UInt64.ofNat i)) := by rw [stamped_getElem?, hi]; rfl
  have hix : log.offset_to_position.lookup (UInt64.ofNat i) = some (layout ((stamped rs).take i)).length := by
    rw [h.index, lookup_stamped rs (by omega), hto, if_pos hlt]
  have hfile := h.content.trans (layout_split _ i _ hs)
  simp only [SegmentLog.read, hix, h.fd, hfile, header_of_frame, putHeader_length, lt_irrefl, if_false] at hread
  cases hsize : recordSize (layout ((stamped rs).take i) ++ Frame.bytes (f.1, f.2.withOffset (UInt64.ofNat i)) ++
      layout ((stamped rs).drop (i + 1))) (layout ((stamped rs).take i)).length
      (getHeader (putHeader f.1 (sealedHeader (f.2.withOffset (UInt64.ofNat i))))) with
  | none => simp only [hsize] at hread; cases hread
  | some size =>
    have h64 := (recordSize_lt hsize).1
    simp only [hsize, SegmentLog.readAt] at hread
    split at hread
    · cases hread
    · rename_i hbuf
      split at hbuf
      · cases hbuf
      · obtain rfl := Except.ok.inj hbuf
        obtain ⟨-, -, -, -, -, -, -, hheader, -⟩ := decodeRecord_ok hread
        have hhead := header_of_frame (layout ((stamped rs).take i)) (layout ((stamped rs).drop (i + 1)))
          (f.1, f.2.withOffset (UInt64.ofNat i))
        rw [pread, field] at hhead
        rw [hheader, ← getHeader_take, pread, field, List.take_take, Nat.min_eq_left h64, hhead]
        exact getHeader_frame _

end PomaiQueue.Storage

namespace PomaiQueue.Engine

open Wire Posix Assoc Storage

/-- A load that goes through has read every record. -/
theorem readMessages_reads {segment : SegmentLog} {fs : Fs} {offsets : List UInt64} {messages : List (UInt64 × Message)}
    (h : readMessages segment fs offsets = .ok messages) {off : UInt64} (hoff : off ∈ offsets) :
    ∃ record, segment.read fs off = .ok record := by
  induction offsets generalizing messages with
  | nil => cases hoff
  | cons offset offsets ih =>
    unfold readMessages at h
    split at h
    · cases h
    · rename_i record hrec
      split at h
      · cases h
      · rename_i rest hrest
        rcases List.mem_cons.1 hoff with rfl | hoff
        · exact ⟨record, hrec⟩
        · exact ih hrest hoff

theorem loadTransitions_none {io : Io} {opts : EngineOptions} {q : Path} {g : CString} {fs : Fs} {max_sequence : UInt64}
    (h : fs.disk (groupEventPath opts.data_dir q g) = none) : loadTransitions io opts q g max_sequence fs = .ok [] := by
  unfold loadTransitions
  simp only [h]

/-! ## Snapshots -/

/-- What the last entry for `id` says. -/
def lastListed (items : List Item) (id : MessageId) : Option MessageRuntime :=
  ((items.filter (·.1 = id)).getLast?).map (·.2)

theorem lastListed_concat (items : List Item) (item : Item) (id : MessageId) :
    lastListed (items ++ [item]) id = if item.1 = id then some item.2 else lastListed items id := by
  unfold lastListed
  by_cases h : item.1 = id
  · rw [List.filter_append, List.filter_singleton]
    simp [h]
  · rw [List.filter_append, List.filter_singleton]
    simp [h]

theorem lastListed_of_mem {items : List Item} {id : MessageId} {rt : MessageRuntime} (hmem : (⟨id, rt⟩ : Item) ∈ items)
    (honly : ∀ rt', (⟨id, rt'⟩ : Item) ∈ items → rt' = rt) : lastListed items id = some rt := by
  have hne : items.filter (·.1 = id) ≠ [] := List.ne_nil_of_mem (List.mem_filter.2 ⟨hmem, decide_eq_true rfl⟩)
  obtain ⟨item, hlast⟩ := Option.isSome_iff_exists.1 (List.getLast?_isSome.2 hne)
  obtain ⟨hitem, hid⟩ := List.mem_filter.1 (List.mem_of_getLast? hlast)
  obtain ⟨id', rt'⟩ := item
  obtain rfl : id' = id := of_decide_eq_true hid
  rw [lastListed, hlast, Option.map_some, honly rt' hitem]

/-- The entries of a map list each id once, whatever order they come in. -/
theorem lastListed_order (order : IterOrder Item) (runtime : Map MessageId MessageRuntime) (id : MessageId) :
    lastListed (order.order runtime.entries) id = runtime.lookup id := by
  have hentry : ∀ rt, (⟨id, rt⟩ : Item) ∈ order.order runtime.entries ↔ runtime.lookup id = some rt := by
    intro rt
    rw [order.mem, mem_entries_iff]
  cases hl : runtime.lookup id with
  | none =>
    have hnone : (order.order runtime.entries).filter (·.1 = id) = [] := by
      rw [List.filter_eq_nil_iff]
      rintro ⟨id', rt⟩ hmem hid
      obtain rfl : id' = id := of_decide_eq_true hid
      rw [(hentry rt).1 hmem] at hl
      cases hl
    rw [lastListed, hnone]
    rfl
  | some rt =>
    refine lastListed_of_mem ((hentry rt).2 hl) fun rt' hrt' => ?_
    exact Option.some.inj (((hentry rt').1 hrt').symm.trans hl)

/-- A snapshot replaces an entry by what it lists last for the id. -/
theorem lookup_overlay (items : List Item) (runtime : Map MessageId MessageRuntime) (id : MessageId) :
    (overlay items runtime).lookup id = (runtime.lookup id).map fun rt => (lastListed items id).getD rt := by
  induction items using List.reverseRecOn with
  | nil => simp [overlay, lastListed]
  | append_singleton items item ih =>
    have hover : overlay (items ++ [item]) runtime = adjust item.1 (fun _ => item.2) (overlay items runtime) := by
      simp [overlay]
    rw [hover, lookup_adjust, lastListed_concat, ih]
    by_cases h : id = item.1
    · rw [if_pos h, if_pos h.symm, Option.map_map]
      rfl
    · rw [if_neg h, if_neg (Ne.symm h)]

/-- A state file that `PersistGroupState` can write: the next sequence and the entries. -/
structure StateFile where
  next_sequence : UInt64
  items : List Item
  small : items.length < 2 ^ 64

def StateFile.bytes (file : StateFile) : Bytes := encodeSnapshot file.next_sequence file.items

/-- What the state file, if there is one, says about `id`. -/
def listed (state : Option StateFile) (id : MessageId) : Option MessageRuntime := state.bind fun file => lastListed file.items id

/-- The group after the state file was read. -/
def listedGroup (state : Option StateFile) (group : ConsumerGroupState) : ConsumerGroupState :=
  match state with
  | none => group
  | some file => { group with next_sequence := file.next_sequence, runtime := overlay file.items group.runtime }

theorem lookup_listedGroup (state : Option StateFile) (group : ConsumerGroupState) (id : MessageId) :
    (listedGroup state group).runtime.lookup id = (group.runtime.lookup id).map fun rt => (listed state id).getD rt := by
  cases state with
  | none =>
    cases hl : group.runtime.lookup id with
    | none => exact hl
    | some rt => exact hl
  | some file => exact lookup_overlay file.items group.runtime id

/-! ## The loaded group -/

section load

variable {env : Env} {opts : EngineOptions} {q : Path} {g : CString} {segment : SegmentLog} {fs : Fs}
  {state : Option StateFile} {messages : List (UInt64 × Message)} {events : List TransitionEvent}

theorem loadStateFile_eq {io : Io} (hr : io.Reads)
    (hstate : fs.disk (groupStatePath opts.data_dir q g) = state.map StateFile.bytes) (group : ConsumerGroupState) :
    loadStateFile io opts q g fs group = .ok (listedGroup state group) := by
  rw [loadStateFile_reads hr, hstate]
  cases state with
  | none => rfl
  | some file => exact loadSnapshot_encode file.next_sequence file.items file.small group

/-- A load whose files can all be read. -/
theorem loadGroupState_eq (hr : env.toIo.Reads) (hm : readMessages segment fs segment.offsets = .ok messages)
    (hstate : fs.disk (groupStatePath opts.data_dir q g) = state.map StateFile.bytes)
    (hev : loadTransitions {} opts q g allSequences fs = .ok events) :
    loadGroupState env opts q g segment fs =
      .ok (rebuilt env opts events (listedGroup state (defaultGroup env opts messages))) := by
  simp only [loadGroupState, hm, loadStateFile_eq hr hstate, loadTransitions_readable hr, hev]
  rfl

/-- A load of a group without files. -/
theorem loadGroupState_bare (hm : readMessages segment fs segment.offsets = .ok messages)
    (hnostate : fs.disk (groupStatePath opts.data_dir q g) = none) (hnoevents : fs.disk (groupEventPath opts.data_dir q g) = none) :
    loadGroupState env opts q g segment fs = .ok (rebuilt env opts [] (listedGroup none (defaultGroup env opts messages))) := by
  have hstate : ∀ group, loadStateFile env.toIo opts q g fs group = .ok group := by
    intro group
    unfold loadStateFile
    simp only [hnostate]
  simp only [loadGroupState, hm, hstate, loadTransitions_none hnoevents]
  rfl

/-- An entry of a loaded group. -/
theorem lookup_load (env : Env) (opts : EngineOptions) (state : Option StateFile) (messages : List (UInt64 × Message))
    (events : List TransitionEvent) (id : MessageId) :
    (rebuilt env opts events (listedGroup state (defaultGroup env opts messages))).runtime.lookup id =
      ((defaultRuntimes (env.offset_order.order messages) ∅).lookup id).map fun rt =>
        (((listed state id).getD rt).restored (lastEvent events id)).recovered (env.now .loadGroupState) := by
  rw [lookup_rebuilt, lookup_listedGroup, Option.map_map]
  rfl

/-- A group that was loaded with the snapshot `state`. -/
theorem loadGroupState_listed {group : ConsumerGroupState}
    (hstate : fs.disk (groupStatePath opts.data_dir q g) = state.map StateFile.bytes)
    (hload : loadGroupState env opts q g segment fs = .ok group) :
    ∃ messages events, readMessages segment fs segment.offsets = .ok messages ∧
      group = rebuilt env opts events (listedGroup state (defaultGroup env opts messages)) := by
  obtain ⟨messages, base, events, hm, hbase, -, rfl⟩ := loadGroupState_ok hload
  rw [loadStateFile_eq (fun _ => rfl) hstate] at hbase
  obtain rfl := Except.ok.inj hbase
  exact ⟨messages, events, hm, rfl⟩

/-! ## Where the offsets point -/

/-- The offset of every entry is one of the segment, and the record there has
the id of the entry. -/
def PointsRight (segment : SegmentLog) (fs : Fs) (runtime : Map MessageId MessageRuntime) : Prop :=
  ∀ id rt, runtime.lookup id = some rt → rt.offset ∈ segment.offsets ∧
    ∃ record, segment.read fs rt.offset = .ok record ∧ idOf record = id

/-- After every load that returns Ok the offsets point at the right records
exactly if those do that the snapshot lists for ids of the segment. -/
theorem loaded_offsets_point (env : Env) (opts : EngineOptions) (q : Path) (g : CString) (segment : SegmentLog) (fs : Fs)
    (state : Option StateFile) (group : ConsumerGroupState)
    (hstate : fs.disk (groupStatePath opts.data_dir q g) = state.map StateFile.bytes)
    (hload : loadGroupState env opts q g segment fs = .ok group) :
    PointsRight segment fs group.runtime ↔
      ∀ id rt, InSegment segment fs id → listed state id = some rt →
        rt.offset ∈ segment.offsets ∧ ∃ record, segment.read fs rt.offset = .ok record ∧ idOf record = id := by
  obtain ⟨messages, events, hm, rfl⟩ := loadGroupState_listed hstate hload
  constructor
  · intro h id rt hin hlist
    have hkey : id ∈ (defaultGroup env opts messages).runtime.keys := (load_known hm id).2 hin
    obtain ⟨rt0, hrt0⟩ := (mem_keys_iff _ _).1 hkey
    have hrt0 : (defaultRuntimes (env.offset_order.order messages) ∅).lookup id = some rt0 := hrt0
    have hl := lookup_load env opts state messages events id
    rw [hrt0, hlist] at hl
    simpa using h id _ hl
  · intro h id rt hrt
    rw [lookup_load, Option.map_eq_some_iff] at hrt
    obtain ⟨rt0, hrt0, rfl⟩ := hrt
    obtain ⟨om, hom, rfl, rfl⟩ := lookup_defaultRuntimes hrt0
    obtain ⟨hoff, record, hread, hid, -⟩ := readMessages_ok hm om ((env.offset_order.mem _ _).1 hom)
    cases hlist : listed state om.2.id with
    | none =>
      simp only [Option.getD_none, MessageRuntime.recovered_offset, MessageRuntime.restored_offset]
      exact ⟨hoff, record, hread, hid⟩
    | some rt =>
      simp only [Option.getD_some, MessageRuntime.recovered_offset, MessageRuntime.restored_offset]
      exact h om.2.id rt ⟨om.1, hoff, record, hread, hid⟩ hlist

/-- One message, with id 7. -/
def soleRecord : Record := { header := { msg_id_low := 7 } }

/-- A state file that lists message 7 at offset `o`. -/
def soleState (o : UInt64) : StateFile := ⟨3, [⟨⟨0, 7⟩, defaultRuntime o 0⟩], by simp⟩

/-- A segment with message 7 at offset 0, and the state file. -/
def soleFs (o : UInt64) : Fs where
  base := Function.update (Function.update (fun _ => none) (segmentPath [] (ascii "q")) (some (recordBytes {} soleRecord)))
    (groupStatePath [] (ascii "q") emptyString) (some (soleState o).bytes)

/-- The segment, recovered. -/
def soleSegment : SegmentLog := (SegmentLog.reopen {} (segmentPath [] (ascii "q")) .kAlways (soleFs 0)).2.1

theorem ok_of_toOption {α : Type} {x : StatusOr α} {a : α} (h : x.toOption = some a) : x = .ok a := by
  cases x with
  | error e => cases h
  | ok b => exact congrArg Except.ok (Option.some.inj h)

/-- The offset that a load gives message 7. -/
theorem sole_load {o : UInt64}
    (h : ((loadGroupState {} {} (ascii "q") emptyString soleSegment (soleFs o)).toOption.bind
      fun group => (group.runtime.lookup ⟨0, 7⟩).map (·.offset)) = some o) :
    ∃ group rt, loadGroupState {} {} (ascii "q") emptyString soleSegment (soleFs o) = .ok group ∧
      group.runtime.lookup ⟨0, 7⟩ = some rt ∧ rt.offset = o := by
  obtain ⟨group, hgroup, hlookup⟩ := Option.bind_eq_some_iff.1 h
  obtain ⟨rt, hrt, ho⟩ := Option.map_eq_some_iff.1 hlookup
  exact ⟨group, rt, ok_of_toOption hgroup, hrt, ho⟩

/-- With a snapshot that lists the message where it is. -/
theorem loaded_offsets_point_sole : ∃ group, loadGroupState {} {} (ascii "q") emptyString soleSegment (soleFs 0) = .ok group ∧
    PointsRight soleSegment (soleFs 0) group.runtime := by
  obtain ⟨group, rt, hload, -, -⟩ := sole_load (o := 0) (by decide +kernel)
  refine ⟨group, hload, (loaded_offsets_point {} {} (ascii "q") emptyString soleSegment (soleFs 0) (some (soleState 0)) group
    rfl hload).2 ?_⟩
  intro id rt' hin hlist
  obtain ⟨off, hoff, record, hread, hid⟩ := hin
  have hoffs : soleSegment.offsets = [0] := by decide +kernel
  rw [hoffs, List.mem_singleton] at hoff
  subst hoff
  have hrt : rt' = defaultRuntime 0 0 := by
    have hl : listed (some (soleState 0)) id = if (⟨0, 7⟩ : MessageId) = id then some (defaultRuntime 0 0) else none :=
      lastListed_concat [] ⟨⟨0, 7⟩, defaultRuntime 0 0⟩ id
    rw [hl] at hlist
    split at hlist
    · exact (Option.some.inj hlist).symm
    · cases hlist
  rw [hrt]
  exact ⟨by rw [hoffs]; exact List.mem_singleton.2 rfl, record, hread, hid⟩

/-- With a snapshot from before the end of the segment was lost and the message
was produced again. -/
theorem snapshot_ahead : ∃ group rt, loadGroupState {} {} (ascii "q") emptyString soleSegment (soleFs 1) = .ok group ∧
    group.runtime.lookup ⟨0, 7⟩ = some rt ∧ rt.offset ∉ soleSegment.offsets := by
  obtain ⟨group, rt, hload, hrt, ho⟩ := sole_load (o := 1) (by decide +kernel)
  refine ⟨group, rt, hload, hrt, ?_⟩
  rw [ho]
  decide +kernel

end load

/-! ## The order of the records -/

/-- The runtime map that `ReplayToSequence` builds. -/
def replayedRuntime (env : Env) (opts : EngineOptions) (q : Path) (g : CString) (until_sequence : UInt64)
    (segment : SegmentLog) (fs : Fs) : StatusOr (Map MessageId MessageRuntime) :=
  match readMessages segment fs segment.offsets with
  | .error e => .error e
  | .ok messages =>
    match loadTransitions env.toIo opts q g until_sequence fs with
    | .error e => .error e
    | .ok events =>
      .ok (events.foldl (applyTransition env opts) { initScheduler env opts {} with runtime := replayRuntimes messages ∅ }).runtime

/-- The same entries and the same ready queue. -/
structure LoadedAlike (a b : ConsumerGroupState) : Prop where
  runtime : ∀ id, a.runtime.lookup id = b.runtime.lookup id
  ready : a.ready_offsets = b.ready_offsets

/-- Two loads end the same way. -/
def SameLoad : StatusOr ConsumerGroupState → StatusOr ConsumerGroupState → Prop
  | .ok a, .ok b => LoadedAlike a b
  | .error e, .error e' => e = e'
  | _, _ => False

theorem ready_offsets_congr {env env' : Env} (hnow : env'.now = env.now) {a b : ConsumerGroupState}
    (h : ∀ id, a.runtime.lookup id = b.runtime.lookup id) :
    (buildReadyQueue env a).ready_offsets = (buildReadyQueue env' b).ready_offsets := by
  have hperm : (env.runtime_order.order a.runtime.entries).Perm (env'.runtime_order.order b.runtime.entries) :=
    (env.runtime_order.perm _).trans ((perm_entries_of_lookup h).trans (env'.runtime_order.perm _).symm)
  have htotal : Std.Total (fun a b : UInt64 => a ≤ b) := ⟨UInt64.le_total⟩
  have htrans : IsTrans UInt64 (· ≤ ·) := ⟨fun _ _ _ h1 h2 => UInt64.le_trans h1 h2⟩
  simp only [buildReadyQueue, hnow]
  refine List.Perm.eq_of_pairwise (fun a b _ _ h1 h2 => UInt64.le_antisymm h1 h2)
    (List.pairwise_insertionSort (fun a b : UInt64 => a ≤ b) _) (List.pairwise_insertionSort (fun a b : UInt64 => a ≤ b) _) ?_
  exact (List.perm_insertionSort _ _).trans (((hperm.filter _).map _).trans (List.perm_insertionSort _ _).symm)

/-- Offsets that the events of a log leave as they are. -/
theorem offset_foldl_applyTransition (env : Env) (opts : EngineOptions) (events : List TransitionEvent)
    (group : ConsumerGroupState) (id : MessageId) :
    ((events.foldl (applyTransition env opts) group).runtime.lookup id).map (·.offset) =
      (group.runtime.lookup id).map (·.offset) := by
  induction events generalizing group with
  | nil => rfl
  | cons event events ih =>
    rw [List.foldl_cons, ih, lookup_applyTransition]
    split
    · rw [Option.map_map]
      rfl
    · rfl

/-! ## A queue that messages were produced to -/

/-- The messages that are read are those that were produced, under their numbers. -/
structure FromProduces (ops : List (Env × Message)) (messages : List (UInt64 × Message)) : Prop where
  origin : ∀ om ∈ messages, ∃ i op, ops[i]? = some op ∧ om.1 = UInt64.ofNat i ∧ om.2.id = op.2.id ∧
    om.2.enqueue_ts = op.2.enqueue_ts
  found : ∀ (i : Nat) (op : Env × Message), ops[i]? = some op → ∃ om ∈ messages, om.1 = UInt64.ofNat i ∧ om.2.id = op.2.id ∧
    om.2.enqueue_ts = op.2.enqueue_ts

section produced

variable {segment : SegmentLog} {fs : Fs} {ops : List (Env × Message)} {messages : List (UInt64 × Message)}

theorem produced_offsets (h : Holds segment fs (ops.map messageFrame)) :
    segment.offsets = (List.range ops.length).map UInt64.ofNat := by
  have hlen := h.length_lt
  have := offsets_stamped segment _ (by omega) h.index
  rwa [List.length_map] at this

theorem fromProduces_of (h : Holds segment fs (ops.map messageFrame))
    (hm : readMessages segment fs segment.offsets = .ok messages) : FromProduces ops messages := by
  have hread : ∀ (i : Nat) (op : Env × Message) (r : Record), ops[i]? = some op → segment.read fs (UInt64.ofNat i) = .ok r →
      idOf r = op.2.id ∧ r.header.enqueue_ts = op.2.enqueue_ts := by
    intro i op r hi hr
    have hheader := h.read_header (f := messageFrame op) (by rw [List.getElem?_map, hi]; rfl) hr
    rw [idOf, hheader]
    exact ⟨rfl, rfl⟩
  constructor
  · intro om hom
    obtain ⟨hoff, r, hr, hid, hts⟩ := readMessages_ok hm om hom
    rw [produced_offsets h, List.mem_map] at hoff
    obtain ⟨i, hi, ho⟩ := hoff
    obtain ⟨op, hop⟩ : ∃ op, ops[i]? = some op := ⟨_, List.getElem?_eq_getElem (List.mem_range.1 hi)⟩
    rw [← ho] at hr
    obtain ⟨hid', hts'⟩ := hread i _ r hop hr
    exact ⟨i, _, hop, ho.symm, hid.symm.trans hid', hts.symm.trans hts'⟩
  · intro i op hi
    have hoff : UInt64.ofNat i ∈ segment.offsets := by
      rw [produced_offsets h]
      exact List.mem_map.2 ⟨i, List.mem_range.2 (List.getElem?_eq_some_iff.1 hi).1, rfl⟩
    obtain ⟨r, hr⟩ := readMessages_reads hm hoff
    obtain ⟨hid, hts⟩ := hread i op r hi hr
    exact ⟨_, readMessages_mem hm hoff hr, rfl, hid, hts⟩

/-- Different ids are found at different offsets. -/
theorem FromProduces.distinct (h : FromProduces ops messages) (hnodup : (ops.map (·.2.id)).Nodup) :
    ∀ x ∈ messages, ∀ y ∈ messages, x.2.id = y.2.id → x.1 = y.1 ∧ x.2.enqueue_ts = y.2.enqueue_ts := by
  intro x hx y hy hid
  obtain ⟨i, op, hi, hxo, hxid, hxts⟩ := h.origin x hx
  obtain ⟨j, op', hj, hyo, hyid, hyts⟩ := h.origin y hy
  have hij : i = j := by
    have hi' : (ops.map (·.2.id))[i]? = some op.2.id := by rw [List.getElem?_map, hi]; rfl
    have hj' : (ops.map (·.2.id))[j]? = some op.2.id := by
      rw [List.getElem?_map, hj, Option.map_some, ← hxid, hid, hyid]
    have hlt := (List.getElem?_eq_some_iff.1 hi').1
    exact (List.getElem?_inj hlt hnodup).1 (hi'.trans hj'.symm)
  subst hij
  obtain rfl := Option.some.inj (hi.symm.trans hj)
  exact ⟨hxo.trans hyo.symm, hxts.trans hyts.symm⟩

/-- Where a load finds a message, before it reads the group's files. -/
theorem FromProduces.lookup_default (h : FromProduces ops messages) (hnodup : (ops.map (·.2.id)).Nodup) (env : Env) {i : Nat}
    {op : Env × Message} (hi : ops[i]? = some op) :
    (defaultRuntimes (env.offset_order.order messages) ∅).lookup op.2.id =
      some (defaultRuntime (UInt64.ofNat i) op.2.enqueue_ts) := by
  obtain ⟨om, hom, ho, hid, hts⟩ := h.found i op hi
  rw [← hid, ← ho, ← hts]
  refine lookup_fill_of_mem (fun om : UInt64 × Message => om.2.id) (fun om => defaultRuntime om.1 om.2.enqueue_ts) ?_
    ((env.offset_order.mem _ _).2 hom)
  intro x hx y hy hxy
  obtain ⟨h1, h2⟩ := h.distinct hnodup x ((env.offset_order.mem _ _).1 hx) y ((env.offset_order.mem _ _).1 hy) hxy
  rw [h1, h2]

theorem FromProduces.lookup_replay (h : FromProduces ops messages) (hnodup : (ops.map (·.2.id)).Nodup) {i : Nat}
    {op : Env × Message} (hi : ops[i]? = some op) :
    (replayRuntimes messages ∅).lookup op.2.id = some (replayRuntime (UInt64.ofNat i) op.2.enqueue_ts) := by
  obtain ⟨om, hom, ho, hid, hts⟩ := h.found i op hi
  rw [← hid, ← ho, ← hts]
  refine lookup_fill_of_mem (fun om : UInt64 × Message => om.2.id) (fun om => replayRuntime om.1 om.2.enqueue_ts) ?_ hom
  intro x hx y hy hxy
  obtain ⟨h1, h2⟩ := h.distinct hnodup x hx y hy hxy
  rw [h1, h2]

/-- Only ids that were produced are found. -/
theorem FromProduces.lookup_none (h : FromProduces ops messages) {id : MessageId}
    (hid : ∀ (i : Nat) op, ops[i]? = some op → op.2.id ≠ id) (env : Env) :
    (defaultRuntimes (env.offset_order.order messages) ∅).lookup id = none ∧ (replayRuntimes messages ∅).lookup id = none := by
  have hmem : ∀ om ∈ messages, om.2.id ≠ id := by
    intro om hom hc
    obtain ⟨i, op, hi, -, hop, -⟩ := h.origin om hom
    exact hid i op hi (hop.symm.trans hc)
  constructor
  · cases hl : (defaultRuntimes (env.offset_order.order messages) ∅).lookup id with
    | none => rfl
    | some rt =>
      obtain ⟨om, hom, hc, -⟩ := lookup_fill hl
      exact absurd hc (hmem om ((env.offset_order.mem _ _).1 hom))
  · cases hl : (replayRuntimes messages ∅).lookup id with
    | none => rfl
    | some rt =>
      obtain ⟨om, hom, hc, -⟩ := lookup_fill hl
      exact absurd hc (hmem om hom)

variable {opts : EngineOptions} {q : Path} {g : CString} {state : Option StateFile} {events : List TransitionEvent}

/-- The order in which the records come does not show. -/
theorem FromProduces.order (h : FromProduces ops messages) (hnodup : (ops.map (·.2.id)).Nodup)
    (hm : readMessages segment fs segment.offsets = .ok messages)
    (hstate : fs.disk (groupStatePath opts.data_dir q g) = state.map StateFile.bytes)
    (hev : loadTransitions {} opts q g allSequences fs = .ok events) {env env' : Env} (hr : env.toIo.Reads)
    (hr' : env'.toIo.Reads) (hnow : env'.now = env.now) :
    SameLoad (loadGroupState env opts q g segment fs) (loadGroupState env' opts q g segment fs) := by
  rw [loadGroupState_eq hr hm hstate hev, loadGroupState_eq hr' hm hstate hev]
  have hdefault : ∀ id, (defaultRuntimes (env.offset_order.order messages) ∅).lookup id =
      (defaultRuntimes (env'.offset_order.order messages) ∅).lookup id := by
    refine lookup_fill_congr (fun om : UInt64 × Message => om.2.id) (fun om => defaultRuntime om.1 om.2.enqueue_ts) ?_ ?_
    · intro om
      rw [IterOrder.mem, IterOrder.mem]
    · intro x hx y hy hxy
      obtain ⟨h1, h2⟩ := h.distinct hnodup x ((env.offset_order.mem _ _).1 hx) y ((env.offset_order.mem _ _).1 hy) hxy
      rw [h1, h2]
  have hruntime : ∀ id, (rebuilt env opts events (listedGroup state (defaultGroup env opts messages))).runtime.lookup id =
      (rebuilt env' opts events (listedGroup state (defaultGroup env' opts messages))).runtime.lookup id := by
    intro id
    rw [lookup_load, lookup_load, hdefault id, hnow]
  exact ⟨hruntime, ready_offsets_congr hnow hruntime⟩

/-- The offsets are those of a replay if the snapshot does not say otherwise. -/
theorem replayedRuntime_offset (hm : readMessages segment fs segment.offsets = .ok messages) {env : Env} {until_sequence : UInt64}
    {runtime : Map MessageId MessageRuntime} (hr : replayedRuntime env opts q g until_sequence segment fs = .ok runtime)
    (id : MessageId) : (runtime.lookup id).map (·.offset) = ((replayRuntimes messages ∅).lookup id).map (·.offset) := by
  unfold replayedRuntime at hr
  simp only [hm] at hr
  split at hr
  · cases hr
  · obtain rfl := Except.ok.inj hr
    rw [offset_foldl_applyTransition]

theorem FromProduces.replay (h : FromProduces ops messages) (hnodup : (ops.map (·.2.id)).Nodup)
    (hm : readMessages segment fs segment.offsets = .ok messages) {env env' : Env} {until_sequence : UInt64}
    {runtime : Map MessageId MessageRuntime} (hr : replayedRuntime env' opts q g until_sequence segment fs = .ok runtime) {i : Nat}
    {op : Env × Message} (hi : ops[i]? = some op) :
    ((rebuilt env opts events (listedGroup state (defaultGroup env opts messages))).runtime.lookup op.2.id).map (·.offset) =
        some (((listed state op.2.id).map (·.offset)).getD (UInt64.ofNat i)) ∧
      (runtime.lookup op.2.id).map (·.offset) = some (UInt64.ofNat i) := by
  constructor
  · rw [lookup_load, h.lookup_default hnodup env hi]
    cases hl : listed state op.2.id with
    | none => simp [defaultRuntime]
    | some rt => simp
  · rw [replayedRuntime_offset hm hr, h.lookup_replay hnodup hi]
    rfl

/-- Where the state file has the offsets right, a load and a replay find the same ones. -/
theorem FromProduces.replay_same (h : FromProduces ops messages) (hnodup : (ops.map (·.2.id)).Nodup)
    (hm : readMessages segment fs segment.offsets = .ok messages)
    (hlisted : ∀ (i : Nat) (op : Env × Message) (rt : MessageRuntime), ops[i]? = some op → listed state op.2.id = some rt →
      rt.offset = UInt64.ofNat i)
    {env env' : Env} {until_sequence : UInt64} {runtime : Map MessageId MessageRuntime}
    (hr : replayedRuntime env' opts q g until_sequence segment fs = .ok runtime) (id : MessageId) :
    ((rebuilt env opts events (listedGroup state (defaultGroup env opts messages))).runtime.lookup id).map (·.offset) =
      (runtime.lookup id).map (·.offset) := by
  by_cases hid : ∃ (i : Nat) (op : Env × Message), ops[i]? = some op ∧ op.2.id = id
  · obtain ⟨i, op, hi, rfl⟩ := hid
    obtain ⟨h1, h2⟩ := h.replay hnodup hm hr hi
    rw [h1, h2]
    cases hl : listed state op.2.id with
    | none => rfl
    | some rt => rw [Option.map_some, Option.getD_some, hlisted i op rt hi hl]
  · obtain ⟨h1, h2⟩ := h.lookup_none (fun i op hi hc => hid ⟨i, op, hi, hc⟩) env
    rw [lookup_load, h1, replayedRuntime_offset hm hr, h2]
    rfl

/-- Without files of the group every message is ready. -/
theorem FromProduces.ready (h : FromProduces ops messages) (hnodup : (ops.map (·.2.id)).Nodup) (env : Env) {i : Nat}
    (hi : i < ops.length) :
    UInt64.ofNat i ∈ (rebuilt env opts [] (listedGroup none (defaultGroup env opts messages))).ready_offsets := by
  have hop : ops[i]? = some ops[i] := List.getElem?_eq_getElem hi
  have hl : (rebuilt env opts [] (listedGroup none (defaultGroup env opts messages))).runtime.lookup ops[i].2.id =
      some (defaultRuntime (UInt64.ofNat i) ops[i].2.enqueue_ts) := by
    rw [lookup_load, h.lookup_default hnodup env hop]
    rfl
  exact ready_mem hl rfl UInt64.zero_le

/-- If all offsets are ready, no two records have the same id. -/
theorem FromProduces.nodup (h : FromProduces ops messages) (hlen : ops.length < 2 ^ 64) (env : Env)
    (hready : ∀ i < ops.length,
      UInt64.ofNat i ∈ (rebuilt env opts [] (listedGroup none (defaultGroup env opts messages))).ready_offsets) :
    (ops.map (·.2.id)).Nodup := by
  -- The entry that has offset `i` is the one of message `i`.
  have hentry : ∀ (i : Nat) (op : Env × Message), ops[i]? = some op →
      ∃ rt, (defaultRuntimes (env.offset_order.order messages) ∅).lookup op.2.id = some rt ∧ rt.offset = UInt64.ofNat i := by
    intro i op hi
    have hlt := (List.getElem?_eq_some_iff.1 hi).1
    obtain ⟨id, rt, hrt, -, -, ho⟩ := mem_buildReadyQueue (hready i hlt)
    have hl := lookup_load env opts none messages [] id
    rw [show (rebuilt env opts [] (listedGroup none (defaultGroup env opts messages))).runtime.lookup id = some rt from hrt,
      eq_comm, Option.map_eq_some_iff] at hl
    obtain ⟨rt0, hrt0, rfl⟩ := hl
    have ho0 : rt0.offset = UInt64.ofNat i := by simpa [listed] using ho
    obtain ⟨om, hom, rfl, rfl⟩ := lookup_defaultRuntimes hrt0
    obtain ⟨j, op', hj, hjo, hid, -⟩ := h.origin om ((env.offset_order.mem _ _).1 hom)
    have hjlt := (List.getElem?_eq_some_iff.1 hj).1
    have hij : j = i := by
      have := congrArg UInt64.toNat (hjo.symm.trans ho0)
      rwa [u64_toNat (by omega), u64_toNat (by omega)] at this
    subst hij
    obtain rfl := Option.some.inj (hj.symm.trans hi)
    exact ⟨_, hid ▸ hrt0, ho0⟩
  rw [List.nodup_iff_getElem?_ne_getElem?]
  intro i j hij hj hc
  rw [List.length_map] at hj
  have hi' : ops[i]? = some ops[i] := List.getElem?_eq_getElem (Nat.lt_trans hij hj)
  have hj' : ops[j]? = some ops[j] := List.getElem?_eq_getElem hj
  obtain ⟨rt, hrt, ho⟩ := hentry i _ hi'
  obtain ⟨rt', hrt', ho'⟩ := hentry j _ hj'
  rw [List.getElem?_map, List.getElem?_map, hi', hj', Option.map_some, Option.map_some, Option.some.injEq] at hc
  rw [hc, hrt'] at hrt
  obtain rfl := Option.some.inj hrt
  have := congrArg UInt64.toNat (ho.symm.trans ho')
  rw [u64_toNat (by omega), u64_toNat (by omega)] at this
  omega

end produced

/-- What a load of group `g` should do with `n` records, whatever the order in
which it comes across them: the same runtime map and ready queue, the offsets
of `ReplayToSequence`, and all records ready where the group has no files. -/
structure KeepsRecords (opts : EngineOptions) (q : Path) (g : CString) (segment : SegmentLog) (fs bare : Fs) (n : Nat) : Prop where
  order : ∀ env env' : Env, env.toIo.Reads → env'.toIo.Reads → env'.now = env.now →
    SameLoad (loadGroupState env opts q g segment fs) (loadGroupState env' opts q g segment fs)
  replay : ∀ (env env' : Env) (until_sequence : UInt64) (group : ConsumerGroupState) (runtime : Map MessageId MessageRuntime),
    loadGroupState env opts q g segment fs = .ok group →
    replayedRuntime env' opts q g until_sequence segment fs = .ok runtime →
    ∀ id, (group.runtime.lookup id).map (·.offset) = (runtime.lookup id).map (·.offset)
  ready : ∀ env : Env, ∃ group, loadGroupState env opts q g segment bare = .ok group ∧
    ∀ i < n, UInt64.ofNat i ∈ group.ready_offsets

/-- Where all records are ready they were read, and their ids are distinct. -/
theorem KeepsRecords.produced {opts : EngineOptions} {q : Path} {g : CString} {segment : SegmentLog} {fs bare : Fs}
    {ops : List (Env × Message)} (h : KeepsRecords opts q g segment fs bare ops.length)
    (hfs : Holds segment fs (ops.map messageFrame)) (hbare : bare.disk segment.path = fs.disk segment.path)
    (hnostate : bare.disk (groupStatePath opts.data_dir q g) = none)
    (hnoevents : bare.disk (groupEventPath opts.data_dir q g) = none) :
    ∃ messages, readMessages segment fs segment.offsets = .ok messages ∧ FromProduces ops messages ∧ (ops.map (·.2.id)).Nodup := by
  have hreads : segment.read bare = segment.read fs := SegmentLog.read_congr (by rw [Fs.content, hbare, Fs.content])
  have hlen := hfs.length_lt
  rw [List.length_map] at hlen
  obtain ⟨group, hload, hready⟩ := h.ready {}
  obtain ⟨messages, -, -, hm', -, -, -⟩ := loadGroupState_ok hload
  have hm : readMessages segment fs segment.offsets = .ok messages := by
    rw [← hm', readMessages_congr (congrFun hreads)]
  have hfrom := fromProduces_of hfs hm
  rw [loadGroupState_bare hm' hnostate hnoevents] at hload
  obtain rfl := Except.ok.inj hload
  exact ⟨messages, hm, hfrom, hfrom.nodup (by omega) {} hready⟩

/-- After any accepted calls of `Produce` on a fresh queue a load keeps the
records exactly if they can all be read, their ids are distinct and the snapshot
lists them where they are. -/
theorem load_keeps_records (opts : EngineOptions) (q : Path) (env : Env) (ops : List (Env × Message)) (queue : QueueState)
    (g : CString) (fs bare : Fs) (state : Option StateFile) (events : List TransitionEvent)
    (hopen : env.fault (.creat (segmentPath opts.data_dir q)) = none) (hok : AllOk (produceFresh opts q env ops).1)
    (hqueue : (produceFresh opts q env ops).2.queues.lookup q = some queue)
    (hseg : fs.disk queue.segment.path = (produceFresh opts q env ops).2.fs.disk queue.segment.path)
    (hstate : fs.disk (groupStatePath opts.data_dir q g) = state.map StateFile.bytes)
    (hev : loadTransitions {} opts q g allSequences fs = .ok events)
    (hbare : bare.disk queue.segment.path = fs.disk queue.segment.path)
    (hnostate : bare.disk (groupStatePath opts.data_dir q g) = none)
    (hnoevents : bare.disk (groupEventPath opts.data_dir q g) = none) :
    KeepsRecords opts q g queue.segment fs bare ops.length ↔
      (∀ i < ops.length, ∃ r, queue.segment.read fs (UInt64.ofNat i) = .ok r) ∧ (ops.map (·.2.id)).Nodup ∧
      ∀ (i : Nat) (op : Env × Message) (rt : MessageRuntime), ops[i]? = some op → listed state op.2.id = some rt →
        rt.offset = UInt64.ofNat i := by
  obtain ⟨queue', hqueue', hholds⟩ := queueHolds_fresh hopen hok
  obtain rfl := Option.some.inj (hqueue.symm.trans hqueue')
  have hfs : Holds queue.segment fs (ops.map messageFrame) :=
    ⟨⟨hseg.trans hholds.file, hholds.fd, hholds.small⟩, hholds.next, hholds.index⟩
  have hreads : queue.segment.read bare = queue.segment.read fs :=
    SegmentLog.read_congr (by rw [Fs.content, hbare, Fs.content])
  constructor
  · intro h
    obtain ⟨messages, hm, hfrom, hnodup⟩ := h.produced hfs hbare hnostate hnoevents
    refine ⟨?_, hnodup, ?_⟩
    · intro i hi
      apply readMessages_reads hm
      rw [produced_offsets hfs]
      exact List.mem_map.2 ⟨i, List.mem_range.2 hi, rfl⟩
    · intro i op rt hi hlist
      obtain ⟨runtime, hr⟩ : ∃ runtime, replayedRuntime {} opts q g allSequences queue.segment fs = .ok runtime := by
        unfold replayedRuntime
        simp only [hm, hev]
        exact ⟨_, rfl⟩
      have hsame := h.replay {} {} allSequences _ _ (loadGroupState_eq (fun _ => rfl) hm hstate hev) hr op.2.id
      obtain ⟨h1, h2⟩ := hfrom.replay hnodup hm hr hi
      rw [h1, h2, hlist] at hsame
      exact Option.some.inj hsame
  · rintro ⟨hread, hnodup, hlisted⟩
    have hall : ∀ o ∈ queue.segment.offsets, ∃ r, queue.segment.read fs o = .ok r := by
      intro o ho
      rw [produced_offsets hfs, List.mem_map] at ho
      obtain ⟨i, hi, rfl⟩ := ho
      exact hread i (List.mem_range.1 hi)
    obtain ⟨messages, hm⟩ := readMessages_total hall
    have hfrom := fromProduces_of hfs hm
    refine ⟨fun env env' hr hr' hnow => hfrom.order hnodup hm hstate hev hr hr' hnow, ?_, ?_⟩
    · intro env env' until_sequence group runtime hload hr id
      obtain ⟨messages', events', hm', rfl⟩ := loadGroupState_listed hstate hload
      obtain rfl := Except.ok.inj (hm'.symm.trans hm)
      exact hfrom.replay_same hnodup hm hlisted hr id
    · intro env'
      have hm' : readMessages queue.segment bare queue.segment.offsets = .ok messages := by
        rw [readMessages_congr (congrFun hreads), hm]
      exact ⟨_, loadGroupState_bare hm' hnostate hnoevents, fun i hi => hfrom.ready hnodup env' hi⟩

/-- Two messages, with ids `a` and `b`. -/
def pairOps (a b : UInt64) : List (Env × Message) := [({}, { id := ⟨0, a⟩ }), ({}, { id := ⟨0, b⟩ })]

theorem load_keeps_two : ∃ queue, (produceFresh {} (ascii "q") {} (pairOps 7 8)).2.queues.lookup (ascii "q") = some queue ∧
    KeepsRecords {} (ascii "q") emptyString queue.segment (produceFresh {} (ascii "q") {} (pairOps 7 8)).2.fs
      (produceFresh {} (ascii "q") {} (pairOps 7 8)).2.fs 2 := by
  have hok : AllOk (produceFresh {} (ascii "q") {} (pairOps 7 8)).1 := by decide +kernel
  have hnostate : (produceFresh {} (ascii "q") {} (pairOps 7 8)).2.fs.disk (groupStatePath [] (ascii "q") emptyString) = none := by
    decide +kernel
  have hnoevents : (produceFresh {} (ascii "q") {} (pairOps 7 8)).2.fs.disk (groupEventPath [] (ascii "q") emptyString) = none := by
    decide +kernel
  obtain ⟨queue, hqueue, hholds⟩ := queueHolds_fresh rfl hok
  refine ⟨queue, hqueue, (load_keeps_records {} (ascii "q") {} (pairOps 7 8) queue emptyString _ _ none [] rfl hok hqueue rfl
    hnostate ?_ rfl hnostate hnoevents).2 ⟨?_, by decide, ?_⟩⟩
  · exact loadTransitions_none hnoevents
  · intro i hi
    have hfit : ∀ f ∈ (pairOps 7 8).map messageFrame, f.2.Fits := by decide
    have hr : (((pairOps 7 8).map messageFrame).map Prod.snd)[i]? = some _ :=
      List.getElem?_eq_getElem (by rw [List.length_map, List.length_map]; exact hi)
    obtain ⟨got, hgot, -⟩ := (hholds.yields hfit).read i _ hr
    exact ⟨got, hgot⟩
  · intro i op rt hi hl
    cases hl

theorem repeated_id_lost : ∃ queue, (produceFresh {} (ascii "q") {} (pairOps 7 7)).2.queues.lookup (ascii "q") = some queue ∧
    AllOk (produceFresh {} (ascii "q") {} (pairOps 7 7)).1 ∧
    ¬ KeepsRecords {} (ascii "q") emptyString queue.segment (produceFresh {} (ascii "q") {} (pairOps 7 7)).2.fs
      (produceFresh {} (ascii "q") {} (pairOps 7 7)).2.fs 2 := by
  have hok : AllOk (produceFresh {} (ascii "q") {} (pairOps 7 7)).1 := by decide +kernel
  obtain ⟨queue, hqueue, hholds⟩ := queueHolds_fresh rfl hok
  refine ⟨queue, hqueue, hok, fun h => ?_⟩
  have h : KeepsRecords {} (ascii "q") emptyString queue.segment _ _ (pairOps 7 7).length := h
  obtain ⟨messages, -, -, hnodup⟩ := h.produced hholds rfl (by decide +kernel) (by decide +kernel)
  revert hnodup
  decide

end PomaiQueue.Engine
