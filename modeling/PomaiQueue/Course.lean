import PomaiQueue.Entries
import PomaiQueue.Sequences
/-!
# A group and its segment over a run

`Course`: what an engine has done so far is steps of the node of one group, on a
segment that holds known records. `Course.step` takes one step of the engine
further. `Setting` collects what a theorem fixes about the run, and
`Setting.Allows` is what is asked of each step.
-/

namespace PomaiQueue.Engine

open Wire Posix Assoc Storage

/-- The group, and the environments and options its operations run with. -/
structure Setting where
  dir : Path
  queue : Path
  group : CString
  env : Env → Prop
  opts : EngineOptions → Prop
  faulty : Prop
  settled : Prop
  present : MessageId → Prop

/-- What can happen to the group when the segment holds `rs`. -/
def Setting.rules (σ : Setting) (rs : List Frame) : Rules where
  group_id := σ.group
  site := siteOf rs
  env := σ.env
  opts := σ.opts
  faulty := σ.faulty
  covers := True
  settled := σ.settled
  present := σ.present

theorem Setting.rules_sound (σ : Setting) {rs : List Frame} (h : rs.length < 2 ^ 57) : (σ.rules rs).Sound where
  functional := by
    rintro o r r' ⟨f, hf, rfl⟩ ⟨f', hf', rfl⟩
    rw [hf] at hf'
    rw [Option.some.inj hf']
  small := by
    refine ⟨rs.map fun f => idOf f.2, by rw [List.length_map]; omega, ?_⟩
    rintro o r ⟨f, hf, rfl⟩
    exact List.mem_map.2 ⟨f, List.mem_of_getElem? hf, rfl⟩

theorem Setting.rules_mono (σ : Setting) {rs rs' : List Frame} (h : rs <+: rs') : (σ.rules rs).Le (σ.rules rs') where
  group_id := rfl
  site _ _ hs := siteOf_mono h hs
  env _ h := h
  opts _ h := h
  faulty h := h
  covers _ := trivial
  settled h := h
  present _ h := h

/-- The step does not load the group with a message left in flight. -/
def Step.Settled (q : Path) (g : CString) (e : QueueEngine) (s : Step) : Prop :=
  ∀ op, s.operation = .group q g op → ∀ queue, e.queues.lookup q = some queue → queue.groups.lookup g = none →
    ¬ LeftInFlight e q g

/-- What a step of the engine may be. Messages are produced in the first life
only, without an I/O error, and fit the record format. -/
structure Setting.Allows (σ : Setting) (e : QueueEngine) (fresh : Bool) (s : Step) : Prop where
  apart : s.operation.Apart σ.dir σ.queue σ.group
  clear : s.operation.Clear σ.dir σ.queue
  env : σ.env s.env
  whole : s.env.Whole (groupEventPath σ.dir σ.queue σ.group)
  faulty : ¬ s.env.toIo.Quiet → σ.faulty
  produce : ∀ m, s.operation = .produce σ.queue m → fresh = true ∧ s.env.toIo.Quiet ∧ (recordOf m).Fits
  io : ∀ env m, s = .op env (.produce σ.queue m) → ∀ msg, (produceOnShard env σ.queue m e).1 ≠ .error (.status .kIOError msg)
  options : ∀ env o calls options, s = .kill env o calls options → options.data_dir = σ.dir ∧ σ.opts options
  settled : σ.settled → s.Settled σ.queue σ.group e

/-- `hs` have happened to the node `n` of the group, whose segment holds `rs`. -/
structure Course (σ : Setting) (e : QueueEngine) (rs : List Frame) (fresh : Bool) (hs : List Happening) (n : Node) :
    Prop where
  tracks : Tracks σ.dir σ.queue σ.group e n
  stored : Stored σ.dir σ.queue e rs fresh
  opts : σ.opts e.options
  steps : Steps (σ.rules rs) {} hs n
  present : ∀ id, σ.present id → ∃ f ∈ rs, idOf f.2 = id

def Step.kills : Step → Bool
  | .op _ _ => false
  | .kill _ _ _ _ => true

/-- The events in the log of the group. -/
def loggedEvents (e : QueueEngine) (q : Path) (g : CString) : List TransitionEvent :=
  match loadTransitions {} e.options q g allSequences e.fs with
  | .ok events => events
  | .error _ => []

/-- The lengths that the log has when the process is killed. -/
def killMarks (q : Path) (g : CString) : QueueEngine → List Step → List Nat
  | _, [] => []
  | e, s :: steps => (if s.kills then [(loggedEvents (step e s) q g).length] else []) ++ killMarks q g (step e s) steps

section course

variable {σ : Setting} {e : QueueEngine} {rs : List Frame} {fresh : Bool} {hs : List Happening} {n : Node}

theorem Course.sound (h : Course σ e rs fresh hs n) : (σ.rules rs).Sound := σ.rules_sound h.stored.length_lt

theorem Course.loggedEvents (h : Course σ e rs fresh hs n) : loggedEvents e σ.queue σ.group = n.log := by
  rw [Engine.loggedEvents, loadTransitions_view (fun _ => rfl) h.tracks.data_dir h.tracks.files]

theorem Course.entries (h : Course σ e rs fresh hs n) : Entries (σ.rules rs) n := .steps h.sound h.steps

/-- Every record is in the segment. -/
theorem Course.inSegment (h : Course σ e rs fresh hs n) {queue : QueueState} (hqueue : e.queues.lookup σ.queue = some queue)
    {f : Frame} (hf : f ∈ rs) : InSegment queue.segment e.fs (idOf f.2) := by
  obtain ⟨i, hi⟩ := List.getElem?_of_mem hf
  have hlen := h.stored.length_lt
  have hlt : i < rs.length := (List.getElem?_eq_some_iff.1 hi).1
  have hi' : (UInt64.ofNat i).toNat = i := by
    rw [UInt64.toNat_ofNat']
    exact Nat.mod_eq_of_lt (by omega)
  exact h.stored.inSegment hqueue (r := Frame.stored (f.1, f.2.withOffset (UInt64.ofNat i)))
    ⟨f, by rw [hi']; exact hi, rfl⟩

theorem Course.meets (h : Course σ e rs fresh hs n) {s : Step} (ha : σ.Allows e fresh s) :
    Meets (σ.rules rs) s.env e σ.queue s.operation n where
  env_ok := ha.env
  opts_ok := h.opts
  faulty := ha.faulty
  read queue hqueue _ _ hread := h.stored.read_site hqueue hread
  covers _ queue hqueue event hev := by
    obtain ⟨o, r, hs, hid⟩ := h.entries.log event hev
    rw [← hid]
    exact h.stored.inSegment hqueue hs
  settled hset op hop queue hqueue hnone id event hlast hfly := by
    have hgroup : queue.groups.lookup σ.group = none := by
      rw [← hnone, h.tracks.memory, groupAt, hqueue, Option.bind_some]
    refine ha.settled hset op hop queue hqueue hgroup ⟨queue, n.log, id, event, hqueue, ?_, ?_, hlast, hfly⟩
    · exact loadTransitions_view (fun _ => rfl) h.tracks.data_dir h.tracks.files
    · obtain ⟨hmem, rfl⟩ := lastEvent_mem hlast
      obtain ⟨o, r, hs, hid⟩ := h.entries.log event hmem
      rw [← hid]
      exact h.stored.inSegment hqueue hs
  present queue hqueue id hid := by
    obtain ⟨f, hf, rfl⟩ := h.present id hid
    exact h.inSegment hqueue hf

/-- The records a step can add. -/
def Adds (σ : Setting) (s : Step) (rs rs' : List Frame) : Prop :=
  rs' = rs ∨ ∃ m, s.operation = .produce σ.queue m ∧ rs' = rs ++ [messageFrame (s.env, m)]

theorem Adds.grows {s : Step} {rs rs' : List Frame} (h : Adds σ s rs rs') : rs <+: rs' := by
  rcases h with rfl | ⟨m, -, rfl⟩
  · exact List.prefix_rfl
  · exact List.prefix_append _ _

theorem fills_cases {q : Path} {o : Op} (h : o.Fills q) : o = .createQueue q ∨ ∃ m, o = .produce q m := by
  cases o with
  | createQueue q' => exact .inl (congrArg _ h)
  | produce q' m => exact .inr ⟨m, congrArg (Op.produce · m) h⟩
  | group q' g' op => exact h.elim

/-- The record that the operation adds to the queue, if any. -/
def addedBy (q : Path) (env : Env) (e : QueueEngine) : Op → List Frame
  | .produce q' m => if q' = q ∧ (produceOnShard env q' m e).1.isOk = true then [messageFrame (env, m)] else []
  | _ => []

theorem addedBy_unfilled {q : Path} {o : Op} (h : ¬ o.Fills q) (env : Env) (e : QueueEngine) : addedBy q env e o = [] := by
  cases o with
  | produce q' m => exact if_neg fun hand => h hand.1
  | createQueue q' => rfl
  | group q' g' op => rfl

theorem Course.stored_op (h : Course σ e rs fresh hs n) {env : Env} {o : Op} (ha : σ.Allows e fresh (.op env o)) :
    Stored σ.dir σ.queue (runOp env e o).2 (rs ++ addedBy σ.queue env e o) fresh := by
  by_cases hfills : o.Fills σ.queue
  · rcases fills_cases hfills with rfl | ⟨m, rfl⟩
    · rw [show addedBy σ.queue env e (.createQueue σ.queue) = [] from rfl, List.append_nil]
      exact h.stored.create env h.tracks.data_dir
    · obtain ⟨rfl, hq, hfit⟩ : fresh = true ∧ env.toIo.Quiet ∧ (recordOf m).Fits := ha.produce m rfl
      change Stored σ.dir σ.queue (produceOnShard env σ.queue m e).2
        (rs ++ if σ.queue = σ.queue ∧ (produceOnShard env σ.queue m e).1.isOk = true then _ else []) true
      rcases h.stored.produce hq hfit (ha.io env m rfl) with ⟨⟨o, ho⟩, hst⟩ | ⟨⟨err, herr⟩, hst⟩
      · rw [if_pos ⟨rfl, by rw [ho]; rfl⟩]
        exact hst
      · rw [if_neg (by rw [herr]; rintro ⟨-, hok⟩; cases hok), List.append_nil]
        exact hst
  · have hclear : o.Clear σ.dir σ.queue := ha.clear
    obtain ⟨hseg, calls, hc, hsp⟩ := runOp_spares env h.tracks.data_dir h.tracks.placed hclear hfills
    rw [addedBy_unfilled hfills, List.append_nil]
    apply h.stored.congr hseg
    rw [hc, Fs.disk_after, foldl_spares hsp]

theorem adds_addedBy (σ : Setting) (env : Env) (e : QueueEngine) (o : Op) (rs : List Frame) :
    Adds σ (.op env o) rs (rs ++ addedBy σ.queue env e o) := by
  cases o with
  | produce q m =>
    simp only [addedBy]
    split_ifs with hand
    · exact .inr ⟨m, by rw [← hand.1]; rfl, rfl⟩
    · exact .inl (List.append_nil _)
  | createQueue q => exact .inl (List.append_nil _)
  | group q g op => exact .inl (List.append_nil _)

theorem Course.stored_kill (h : Course σ e rs fresh hs n) {env : Env} {o : Op} {k : Nat} {options : EngineOptions}
    (ha : σ.Allows e fresh (.kill env o k options)) :
    ∃ rs', Adds σ (.kill env o k options) rs rs' ∧ Stored σ.dir σ.queue (step e (.kill env o k options)) rs' false := by
  have hnone : (step e (.kill env o k options)).queues.lookup σ.queue = none := rfl
  by_cases hfills : o.Fills σ.queue
  · rcases fills_cases hfills with rfl | ⟨m, rfl⟩
    · exact ⟨rs, .inl rfl, h.stored.create_cut env h.tracks.data_dir k hnone rfl⟩
    · obtain ⟨rfl, -, hfit⟩ := ha.produce m rfl
      rcases h.stored.produce_cut env hfit k hnone rfl with hst | hst
      · exact ⟨rs, .inl rfl, hst⟩
      · exact ⟨_, .inr ⟨m, rfl, rfl⟩, hst⟩
  · have hclear : o.Clear σ.dir σ.queue := ha.clear
    obtain ⟨-, calls, hc, hsp⟩ := runOp_spares env h.tracks.data_dir h.tracks.placed hclear hfills
    refine ⟨rs, .inl rfl, h.stored.restart hnone ?_⟩
    rw [step_kill env o k options hc, Fs.disk_after, foldl_spares fun c hmem => hsp c (List.mem_of_mem_take hmem)]

theorem Course.present_grows (h : Course σ e rs fresh hs n) {rs' : List Frame} (hle : rs <+: rs') :
    ∀ id, σ.present id → ∃ f ∈ rs', idOf f.2 = id := by
  intro id hid
  obtain ⟨f, hf, hfid⟩ := h.present id hid
  exact ⟨f, hle.subset hf, hfid⟩

/-- An operation takes the course further. -/
theorem Course.op (h : Course σ e rs fresh hs n) {env : Env} {o : Op} (ha : σ.Allows e fresh (.op env o)) :
    ∃ hs' n', Course σ (step e (.op env o)) (rs ++ addedBy σ.queue env e o) fresh (hs ++ hs') n' ∧
      Steps (σ.rules (rs ++ addedBy σ.queue env e o)) n hs' n' ∧
      n'.marks = n.marks ∧ traceAll hs' = opTrace σ.queue σ.group env e o ∧
      Replies σ.queue σ.group o (runOp env e o).1 hs' := by
  obtain ⟨hs', n', hsteps, htr, hmarks, htrace, hrep⟩ := h.tracks.op rfl (h.meets ha) ha.whole ha.apart
  have hgrows := (adds_addedBy σ env e o rs).grows
  have hle := σ.rules_mono hgrows
  refine ⟨hs', n', ⟨htr, h.stored_op ha, ?_, (h.steps.trans hsteps).mono hle, h.present_grows hgrows⟩, hsteps.mono hle,
    hmarks, htrace, hrep⟩
  change σ.opts (runOp env e o).2.options
  rw [runOp_options]
  exact h.opts

/-- A kill takes the course further. -/
theorem Course.kill (h : Course σ e rs fresh hs n) {env : Env} {o : Op} {k : Nat} {options : EngineOptions}
    (ha : σ.Allows e fresh (.kill env o k options)) :
    ∃ rs' hs' n', Course σ (step e (.kill env o k options)) rs' false (hs ++ (hs' ++ [.crashed])) n' ∧
      Steps (σ.rules rs') n (hs' ++ [.crashed]) n' ∧ Adds σ (.kill env o k options) rs rs' ∧
      n'.marks = n.marks ++ [n'.log.length] ∧ traceAll hs' <+: opTrace σ.queue σ.group env e o := by
  obtain ⟨rs', hadds, hst⟩ := h.stored_kill ha
  obtain ⟨hdir, hopts⟩ := ha.options env o k options rfl
  obtain ⟨hs', n', hsteps, htr, hmarks, htrace⟩ := h.tracks.kill (k := k) rfl (h.meets ha) ha.whole ha.apart hdir
  have hle := σ.rules_mono hadds.grows
  exact ⟨rs', hs', n', ⟨htr, hst, hopts, (h.steps.trans hsteps).mono hle, h.present_grows hadds.grows⟩, hsteps.mono hle, hadds,
    hmarks, htrace⟩

/-! ## Runs -/

/-- Every step is one that the setting allows. -/
def Setting.Follows (σ : Setting) : QueueEngine → Bool → List Step → Prop
  | _, _, [] => True
  | e, fresh, s :: steps => σ.Allows e fresh s ∧ σ.Follows (step e s) (fresh && !s.kills) steps

/-- Whether no process has been killed after `steps`. -/
def freshAfter (fresh : Bool) (steps : List Step) : Bool := steps.foldl (fun fresh s => fresh && !s.kills) fresh

theorem Setting.Follows.append {a b : List Step} (h : σ.Follows e fresh (a ++ b)) :
    σ.Follows e fresh a ∧ σ.Follows (run e a) (freshAfter fresh a) b := by
  induction a generalizing e fresh with
  | nil => exact ⟨trivial, h⟩
  | cons s a ih =>
    obtain ⟨hs, hrest⟩ := h
    exact ⟨⟨hs, (ih hrest).1⟩, (ih hrest).2⟩

theorem Course.step {s : Step} (h : Course σ e rs fresh hs n) (ha : σ.Allows e fresh s) :
    ∃ rs' hs' n', Course σ (step e s) rs' (fresh && !s.kills) (hs ++ hs') n' ∧ Steps (σ.rules rs') n hs' n' ∧
      Adds σ s rs rs' ∧ traceAll hs' <+: opTrace σ.queue σ.group s.env e s.operation ∧
      n'.marks = n.marks ++ if s.kills then [n'.log.length] else [] := by
  cases s with
  | op env o =>
    obtain ⟨hs', n', hc, hsteps, hmarks, htrace, -⟩ := h.op ha
    refine ⟨_, hs', n', by simpa [Step.kills] using hc, hsteps, adds_addedBy σ env e o rs,
      by rw [htrace]; exact List.prefix_rfl, ?_⟩
    simp [Step.kills, hmarks]
  | kill env o k options =>
    obtain ⟨rs', hs', n', hc, hsteps, hadds, hmarks, htrace⟩ := h.kill ha
    refine ⟨rs', _, n', by simpa [Step.kills] using hc, hsteps, hadds, ?_, by simpa [Step.kills] using hmarks⟩
    have hnone : traceAll [.crashed] = [] := rfl
    rw [traceAll_append, hnone, List.append_nil]
    exact htrace

theorem Course.run {steps : List Step} (h : Course σ e rs fresh hs n) (hf : σ.Follows e fresh steps) :
    ∃ rs' hs' n', Course σ (run e steps) rs' (freshAfter fresh steps) (hs ++ hs') n' ∧ Steps (σ.rules rs') n hs' n' ∧
      rs <+: rs' ∧ (traceAll hs').length ≤ attempted σ.queue σ.group e steps ∧
      n'.marks = n.marks ++ killMarks σ.queue σ.group e steps := by
  induction steps generalizing e rs fresh hs n with
  | nil => exact ⟨rs, [], n, by rwa [List.append_nil], .nil, List.prefix_rfl, Nat.le_refl _, by simp [killMarks]⟩
  | cons s steps ih =>
    obtain ⟨rs1, hs1, n1, hc1, hst1, hadds, htrace1, hmarks1⟩ := h.step hf.1
    obtain ⟨rs2, hs2, n2, hc2, hst2, hrs2, hlen2, hmarks2⟩ := ih hc1 hf.2
    refine ⟨rs2, hs1 ++ hs2, n2, by rwa [← List.append_assoc], (hst1.mono (σ.rules_mono hrs2)).trans hst2,
      hadds.grows.trans hrs2, ?_, ?_⟩
    · have hlen1 := htrace1.length_le
      rw [traceAll_append, List.length_append, attempted]
      omega
    · rw [hmarks2, hmarks1, killMarks, hc1.loggedEvents, List.append_assoc]

end course

/-- The group `g` of queue `q`, with options that stay, when nothing fails. -/
def quietSetting (opts : EngineOptions) (q : Path) (g : CString) (env : Env → Prop) : Setting where
  dir := opts.data_dir
  queue := q
  group := g
  env := env
  opts := (· = opts)
  faulty := False
  settled := False
  present _ := False

theorem course_fresh (opts : EngineOptions) (q : Path) (g : CString) (env : Env → Prop) :
    Course (quietSetting opts q g env) (freshEngine opts) [] true [] {} :=
  ⟨tracks_fresh opts q g, .absent rfl rfl, rfl, .nil, fun _ h => h.elim⟩

/-- A run without I/O errors in which the options stay. Messages are produced to
the queue before the first restart only, and they fit the record format. Other
queues and groups may be used if their files and the directories in front of these
are elsewhere. -/
structure Orderly (opts : EngineOptions) (q : Path) (g : CString) (steps : List Step) : Prop where
  quiet : ∀ s ∈ steps, s.Quiet
  accepted : EachStep (fun e s => ∀ env o, s = .op env o → ∀ msg, (runOp env e o).1 ≠ .error (.status .kIOError msg))
    (freshEngine opts) steps
  options : ∀ env o k options, Step.kill env o k options ∈ steps → options = opts
  apart : ∀ s ∈ steps, s.operation.Apart opts.data_dir q g
  clear : ∀ s ∈ steps, s.operation.Clear opts.data_dir q
  produce_first : steps.Pairwise fun s s' => s.kills = true → ∀ m, s'.operation ≠ .produce q m
  fits : ∀ s ∈ steps, ∀ m, s.operation = .produce q m → (recordOf m).Fits

/-- No operation returns an I/O error. -/
def noIoError : QueueEngine → List Step → Bool
  | _, [] => true
  | e, .op env o :: steps =>
    (match (runOp env e o).1 with
      | .error (.status .kIOError _) => false
      | _ => true) && noIoError (step e (.op env o)) steps
  | e, .kill env o k options :: steps => noIoError (step e (.kill env o k options)) steps

theorem accepted_of_noIoError {e : QueueEngine} {steps : List Step} (h : noIoError e steps = true) :
    EachStep (fun e s => ∀ env o, s = .op env o → ∀ msg, (runOp env e o).1 ≠ .error (.status .kIOError msg)) e steps := by
  induction steps generalizing e with
  | nil => trivial
  | cons s steps ih =>
    cases s with
    | op env o =>
      obtain ⟨hthis, hrest⟩ := Bool.and_eq_true_iff.1 h
      refine ⟨fun env' o' heq msg hio => ?_, ih hrest⟩
      cases heq
      rw [hio] at hthis
      cases hthis
    | kill env o k options => exact ⟨fun env' o' heq => (by cases heq), ih h⟩

/-- What the steps of the examples are. -/
inductive Everyday : Step → Prop
  | createQueue : Everyday (.op {} (.createQueue someQueue))
  | produce {m} (h : (recordOf m).Fits) : Everyday (.op {} (.produce someQueue m))
  | group {op} : Everyday (.op {} (.group someQueue someGroup op))
  | kill {o k} (h : Everyday (.op {} o)) : Everyday (.kill {} o k {})

theorem Everyday.operation {s : Step} (h : Everyday s) : s.env = {} ∧ Everyday (.op {} s.operation) := by
  cases h with
  | createQueue => exact ⟨rfl, .createQueue⟩
  | produce hm => exact ⟨rfl, .produce hm⟩
  | group => exact ⟨rfl, .group⟩
  | kill ho => exact ⟨rfl, ho⟩

theorem orderly_of_everyday {steps : List Step} (h : ∀ s ∈ steps, Everyday s) (hio : noIoError (freshEngine {}) steps = true)
    (hfirst : steps.Pairwise fun s s' => s.kills = true → ∀ m, s'.operation ≠ .produce someQueue m) :
    Orderly {} someQueue someGroup steps where
  quiet s hs := by
    rw [Step.Quiet, (h s hs).operation.1]
    exact quiet_default
  accepted := accepted_of_noIoError hio
  options env o k options hk := by
    cases h _ hk with
    | kill _ => rfl
  apart s hs := by
    have hop := (h s hs).operation.2
    generalize s.operation = o at hop
    cases hop with
    | createQueue => exact .inl rfl
    | produce _ => exact .inl rfl
    | group => exact .inl ⟨rfl, rfl⟩
  clear s hs := by
    have hop := (h s hs).operation.2
    generalize s.operation = o at hop
    cases hop with
    | createQueue => exact .inl rfl
    | produce _ => exact .inl rfl
    | group => trivial
  produce_first := hfirst
  fits s hs m hm := by
    have hop := (h s hs).operation.2
    rw [hm] at hop
    cases hop with
    | produce hfits => exact hfits

theorem follows_of_quiet {σ : Setting} {steps : List Step} (hset : ¬ σ.settled)
    (henv : ∀ s ∈ steps, σ.env s.env) (hquiet : ∀ s ∈ steps, s.Quiet)
    (hopts : ∀ env o k options, Step.kill env o k options ∈ steps → options.data_dir = σ.dir ∧ σ.opts options)
    (hapart : ∀ s ∈ steps, s.operation.Apart σ.dir σ.queue σ.group) (hclear : ∀ s ∈ steps, s.operation.Clear σ.dir σ.queue)
    (hfirst : steps.Pairwise fun s s' => s.kills = true → ∀ m, s'.operation ≠ .produce σ.queue m)
    (hfits : ∀ s ∈ steps, ∀ m, s.operation = .produce σ.queue m → (recordOf m).Fits) {e : QueueEngine} {fresh : Bool}
    (hfresh : fresh = true ∨ ∀ s ∈ steps, ∀ m, s.operation ≠ .produce σ.queue m)
    (hok : EachStep (fun e s => ∀ env o, s = .op env o → ∀ msg, (runOp env e o).1 ≠ .error (.status .kIOError msg)) e steps) :
    σ.Follows e fresh steps := by
  induction steps generalizing e fresh with
  | nil => trivial
  | cons s steps ih =>
    have hmem := List.mem_cons_self (a := s) (l := steps)
    have hq : s.env.toIo.Quiet := hquiet s hmem
    refine ⟨⟨hapart s hmem, hclear s hmem, henv s hmem, fun data n h => ?_, fun h => absurd hq h, fun m hm => ⟨?_, hq, hfits s hmem m hm⟩,
      fun env m hs msg heq => ?_, ?_, fun h => absurd h hset⟩, ih (fun s' hs' => henv s' (List.mem_cons_of_mem _ hs'))
      (fun s' hs' => hquiet s' (List.mem_cons_of_mem _ hs'))
      (fun env o k options hs' => hopts env o k options (List.mem_cons_of_mem _ hs'))
      (fun s' hs' => hapart s' (List.mem_cons_of_mem _ hs')) (fun s' hs' => hclear s' (List.mem_cons_of_mem _ hs'))
      (List.pairwise_cons.1 hfirst).2 (fun s' hs' => hfits s' (List.mem_cons_of_mem _ hs')) ?_ hok.2⟩
    · rw [hq.fault] at h
      cases h
    · exact hfresh.resolve_right fun hnone => hnone s hmem m hm
    · apply hok.1 env _ hs msg
      change (produceOnShard env σ.queue m e).1.map Reply.offset = _
      have heq' : (produceOnShard env σ.queue m e).1 = .error (.status .kIOError msg) := heq
      rw [heq']
      rfl
    · rintro env o calls options rfl
      exact hopts env o calls options hmem
    · rcases hfresh with rfl | hnone
      · cases hk : s.kills with
        | false => exact .inl rfl
        | true => exact .inr fun s' hs' => (List.pairwise_cons.1 hfirst).1 s' hs' hk
      · exact .inr fun s' hs' => hnone s' (List.mem_cons_of_mem _ hs')

theorem follows_of_steps {opts : EngineOptions} {q : Path} {g : CString} {env : Env → Prop} {steps : List Step}
    (henv : ∀ s ∈ steps, env s.env) (hquiet : ∀ s ∈ steps, s.Quiet)
    (hopts : ∀ env o k options, Step.kill env o k options ∈ steps → options = opts)
    (hapart : ∀ s ∈ steps, s.operation.Apart opts.data_dir q g) (hclear : ∀ s ∈ steps, s.operation.Clear opts.data_dir q)
    (hfirst : steps.Pairwise fun s s' => s.kills = true → ∀ m, s'.operation ≠ .produce q m)
    (hfits : ∀ s ∈ steps, ∀ m, s.operation = .produce q m → (recordOf m).Fits) {e : QueueEngine} {fresh : Bool}
    (hfresh : fresh = true ∨ ∀ s ∈ steps, ∀ m, s.operation ≠ .produce q m)
    (hok : EachStep (fun e s => ∀ env o, s = .op env o → ∀ msg, (runOp env e o).1 ≠ .error (.status .kIOError msg)) e steps) :
    (quietSetting opts q g env).Follows e fresh steps := by
  refine follows_of_quiet id henv hquiet (fun env o k options hk => ?_) hapart hclear hfirst hfits hfresh hok
  have ho := hopts env o k options hk
  exact ⟨congrArg _ ho, ho⟩

theorem Orderly.follows {opts : EngineOptions} {q : Path} {g : CString} {steps : List Step} (h : Orderly opts q g steps)
    {P : Env → Prop} (henv : ∀ s ∈ steps, P s.env) : (quietSetting opts q g P).Follows (freshEngine opts) true steps :=
  follows_of_steps henv h.quiet h.options h.apart h.clear h.produce_first h.fits (.inl rfl) h.accepted

theorem Orderly.course {opts : EngineOptions} {q : Path} {g : CString} {steps : List Step} (h : Orderly opts q g steps)
    {P : Env → Prop} (henv : ∀ s ∈ steps, P s.env) :
    ∃ rs hs n, Course (quietSetting opts q g P) (run (freshEngine opts) steps) rs (freshAfter true steps) hs n ∧
      (traceAll hs).length ≤ attempted q g (freshEngine opts) steps := by
  obtain ⟨rs, hs, n, hc, -, -, hlen, -⟩ := (course_fresh opts q g P).run (h.follows henv)
  exact ⟨rs, hs, n, hc, hlen⟩

/-! ## A fixed segment -/

/-- The disk holds a segment of queue `q` with the records `rs`, and nothing yet
of group `g`. -/
structure OnSegment (base : Disk) (dir q : Path) (g : CString) (rs : List Frame) : Prop where
  segment : base (segmentPath dir q) = some (layout (stamped rs))
  fits : ∀ f ∈ rs, f.2.Fits
  size : (layout (stamped rs)).length ≤ maxOff
  events : base (groupEventPath dir q g) = none
  state : base (groupStatePath dir q g) = none

/-- An engine that is started on a disk. -/
def engineOn (opts : EngineOptions) (base : Disk) : QueueEngine := { options := opts, fs := { base } }

theorem OnSegment.course {base : Disk} {σ : Setting} {rs : List Frame} (h : OnSegment base σ.dir σ.queue σ.group rs)
    {opts : EngineOptions} (hdir : opts.data_dir = σ.dir) (ho : σ.opts opts)
    (hpres : ∀ id, σ.present id → ∃ f ∈ rs, idOf f.2 = id) :
    Course σ (engineOn opts base) rs false [] {} := by
  refine ⟨⟨hdir, fun q queue hq => (by cases hq), ?_, rfl⟩, .closed (t := []) rfl ?_ (.inl rfl) ?_ h.fits, ho, .nil, hpres⟩
  · have hv : view (groupFiles σ.dir σ.queue σ.group) base = ([], none) := by
      change ((base (groupEventPath σ.dir σ.queue σ.group)).getD [], base (groupStatePath σ.dir σ.queue σ.group)) = ([], none)
      rw [h.events, h.state]
      rfl
    exact hv
  · have hc : (base (segmentPath σ.dir σ.queue)).getD [] = layout (stamped rs) := by
      rw [h.segment]
      rfl
    rw [List.append_nil]
    exact hc
  · have hge := layout_length_ge (stamped rs)
    have hsize := h.size
    simp only [headerSize, stamped_length, maxOff] at hge hsize
    omega

/-- A step that does not produce to the queue. Anything may fail, but events are
appended whole or not at all. -/
structure Step.Keeps (opts : EngineOptions) (q : Path) (g : CString) (s : Step) : Prop where
  whole : s.env.Whole (groupEventPath opts.data_dir q g)
  apart : s.operation.Apart opts.data_dir q g
  clear : s.operation.Clear opts.data_dir q
  produce : ∀ m, s.operation ≠ .produce q m
  options : ∀ env o k options, s = .kill env o k options → options = opts

theorem follows_of_keeps {opts : EngineOptions} {q : Path} {g : CString} {σ : Setting} {steps : List Step}
    (hs : ∀ s ∈ steps, s.Keeps opts q g) (hdir : σ.dir = opts.data_dir) (hqueue : σ.queue = q) (hgroup : σ.group = g)
    (hopts : σ.opts opts) (henv : ∀ s ∈ steps, σ.env s.env) (hfaulty : ∀ s ∈ steps, ¬ s.Quiet → σ.faulty) {e : QueueEngine}
    {fresh : Bool} (hset : σ.settled → EachStep (fun e s => s.Settled q g e) e steps) : σ.Follows e fresh steps := by
  subst hqueue hgroup
  induction steps generalizing e fresh with
  | nil => trivial
  | cons s steps ih =>
    have hmem := List.mem_cons_self (a := s) (l := steps)
    have hk := hs s hmem
    refine ⟨⟨by rw [hdir]; exact hk.apart, by rw [hdir]; exact hk.clear, henv s hmem, by rw [hdir]; exact hk.whole,
      hfaulty s hmem, fun m hm => absurd hm (hk.produce m),
      fun env m heq => ?_, fun env o k options heq => ?_, fun h => (hset h).1⟩,
      ih (fun s' hs' => henv s' (List.mem_cons_of_mem _ hs')) (fun s' hs' => hfaulty s' (List.mem_cons_of_mem _ hs'))
      (fun s' hs' => hs s' (List.mem_cons_of_mem _ hs')) fun h => (hset h).2⟩
    · exact absurd (by rw [heq]; rfl) (hk.produce m)
    · have ho := hk.options env o k options heq
      rw [ho]
      exact ⟨hdir.symm, hopts⟩

end PomaiQueue.Engine
