import PomaiQueue.Lib.Posix
/-!
# Losing power

What is on the medium behind a `Disk`. A file has the bytes that were synced and
the changes since, a path has the files it was the name of since its directory
was synced, and after a power loss each path shows one of these files, with the
synced bytes and a first part of what was written since (`Media.Lost`).

`Steady Q m p` says that whatever is found at `p` after a loss satisfies `Q`, and
`Durable Q m p` that it is a file whose content does. `Steady.replaced` is the rule for
replacing a file: write another one, sync it, rename it and sync the directory.

Trusted: `Media.step` is what the calls do to the medium. A `rename` may be lost
on one of its paths and not on the other, and two names of one file need not show
the same part of it, so losses are taken to be worse than they are.
-/

namespace Posix

open Wire

/-! ## The medium -/

/-- A file, whatever it is called: one that was there, or the `n`-th new one. -/
inductive Ino
  | old (p : Path)
  | new (n : Nat)
  deriving DecidableEq

inductive Change
  | put (pos : Nat) (data : Bytes)
  | cut (len : Nat)
  deriving DecidableEq

def Change.apply (content : Bytes) : Change → Bytes
  | .put pos data => overwrite content pos data
  | .cut len => content.take len

structure File where
  synced : Bytes := []
  since : List Change := []
  deriving DecidableEq

namespace File

/-- What a process reads. -/
def now (f : File) : Bytes := f.since.foldl Change.apply f.synced

def add (x : Change) (f : File) : File := { f with since := f.since ++ [x] }

/-- `data` is written at the end. -/
def append (data : Bytes) (f : File) : File := f.add (.put f.now.length data)

def sync (f : File) : File := { synced := f.now }

@[simp] theorem now_add (f : File) (x : Change) : (f.add x).now = x.apply f.now := by
  rw [now, add, List.foldl_append]
  rfl

@[simp] theorem now_sync (f : File) : f.sync.now = f.now := rfl

end File

/-- The synced bytes and a first part of the bytes that the changes write. -/
inductive Left : Bytes → List Change → Bytes → Prop
  | nothing (content changes) : Left content changes content
  | part (content pos data n changes) : Left content (.put pos data :: changes) (overwrite content pos (data.take n))
  | next (content x changes left) (h : Left (x.apply content) changes left) : Left content (x :: changes) left

theorem left_all (content : Bytes) (changes : List Change) : Left content changes (changes.foldl Change.apply content) := by
  induction changes generalizing content with
  | nil => exact .nothing content []
  | cons x changes ih => exact .next content x changes _ (ih _)

theorem Left.synced {content left : Bytes} (h : Left content [] left) : left = content := by
  cases h
  rfl

structure Media where
  files : Ino → File
  /-- The files the path was the name of since its directory was synced, the
  present one last. -/
  names : Path → List (Option Ino)
  next : Nat

namespace Media

/-- A medium on which everything is synced. -/
def ofDisk (base : Disk) : Media where
  files
    | .old p => { synced := (base p).getD [] }
    | .new _ => {}
  names p := [(base p).map fun _ => .old p]
  next := 0

/-- The file that the path is the name of. -/
def cur (m : Media) (p : Path) : Option Ino := (m.names p).getLast?.join

/-- What a process reads. -/
def disk (m : Media) : Disk := fun p => (m.cur p).map fun i => (m.files i).now

/-- Create the file if it is missing. -/
def touch (p : Path) (m : Media) : Media :=
  match m.cur p with
  | some _ => m
  | none =>
    { files := Function.update m.files (.new m.next) {}
      names := Function.update m.names p (m.names p ++ [some (.new m.next)])
      next := m.next + 1 }

def alter (p : Path) (change : File → File) (m : Media) : Media :=
  match m.cur p with
  | none => m
  | some i => { m with files := Function.update m.files i (change (m.files i)) }

/-- The path becomes the name of another file, or of none. -/
def link (p : Path) (i : Option Ino) (m : Media) : Media := { m with names := Function.update m.names p (m.names p ++ [i]) }

/-- `parent` is the directory of a path. -/
def step (parent : Path → Path) (m : Media) : Call → Media
  | .creat p => m.touch p
  | .trunc p => (m.touch p).alter p (.add (.cut 0))
  | .write p pos data => (m.touch p).alter p (.add (.put pos data))
  | .append p data => (m.touch p).alter p (.append data)
  | .ftruncate p len => m.alter p (.add (.cut len))
  | .fsync p => m.alter p .sync
  | .rename src dst => (m.link dst (m.cur src)).link src none
  | .fsyncDir dir => { m with names := fun p => if parent p = dir then [m.cur p] else m.names p }

/-- A disk that a power loss can leave. -/
def Lost (m : Media) (d : Disk) : Prop :=
  ∀ p, ∃ t ∈ m.names p,
    match t with
    | none => d p = none
    | some i => ∃ content, d p = some content ∧ Left (m.files i).synced (m.files i).since content

/-- A disk that a power loss can leave when the blocks of a file reach the medium in
any order: a file that is not synced may hold anything. -/
def Wrecked (m : Media) (d : Disk) : Prop :=
  ∀ p, ∃ t ∈ m.names p,
    match t with
    | none => d p = none
    | some i => ∃ content, d p = some content ∧ ((m.files i).since = [] → content = (m.files i).synced)

theorem Lost.wrecked {m : Media} {d : Disk} (h : m.Lost d) : m.Wrecked d := by
  intro p
  obtain ⟨t, ht, hleft⟩ := h p
  refine ⟨t, ht, ?_⟩
  cases t with
  | none => exact hleft
  | some i =>
    obtain ⟨content, hc, hl⟩ := hleft
    refine ⟨content, hc, fun hsince => ?_⟩
    rw [hsince] at hl
    exact hl.synced

/-! ## Names -/

theorem cur_mem {m : Media} {p : Path} {i : Ino} (h : m.cur p = some i) : some i ∈ m.names p := by
  unfold cur at h
  cases hl : (m.names p).getLast? with
  | none => rw [hl] at h; cases h
  | some t =>
    rw [hl, Option.join_some] at h
    rw [← h]
    exact List.mem_of_getLast? hl

theorem cur_link (m : Media) (p : Path) (i : Option Ino) (p' : Path) :
    (m.link p i).cur p' = if p' = p then i else m.cur p' := by
  unfold cur link
  by_cases h : p' = p
  · subst h
    simp
  · simp [h]

theorem cur_fsyncDir (parent : Path → Path) (m : Media) (dir p : Path) : (m.step parent (.fsyncDir dir)).cur p = m.cur p := by
  change ((if parent p = dir then [m.cur p] else m.names p).getLast?).join = m.cur p
  split
  · rfl
  · rfl

/-- No path is the name of a file that is not there yet, and no file has two names. -/
structure Ok (m : Media) : Prop where
  named : ∀ p, m.names p ≠ []
  fresh : ∀ p n, some (.new n) ∈ m.names p → n < m.next
  alone : ∀ p p' i, m.cur p = some i → m.cur p' = some i → p = p'

/-- A path that is missing becomes the name of a new file. -/
theorem touch_none {m : Media} {p : Path} (h : m.cur p = none) :
    m.touch p = { files := Function.update m.files (.new m.next) {}
                  names := Function.update m.names p (m.names p ++ [some (.new m.next)])
                  next := m.next + 1 } := by
  unfold touch
  rw [h]

theorem touch_some {m : Media} {p : Path} {i : Ino} (h : m.cur p = some i) : m.touch p = m := by
  unfold touch
  rw [h]

theorem cur_touch (m : Media) (p p' : Path) :
    (m.touch p).cur p' = if p' = p then some ((m.cur p).getD (.new m.next)) else m.cur p' := by
  cases h : m.cur p with
  | some i =>
    rw [touch_some h]
    split
    · rename_i heq
      rw [heq, h]
      rfl
    · rfl
  | none =>
    rw [touch_none h]
    exact cur_link m p (some (.new m.next)) p'

@[simp] theorem cur_alter (m : Media) (p : Path) (change : File → File) (p' : Path) : (m.alter p change).cur p' = m.cur p' := by
  unfold alter
  split <;> rfl

@[simp] theorem names_alter (m : Media) (p : Path) (change : File → File) : (m.alter p change).names = m.names := by
  unfold alter
  split <;> rfl

@[simp] theorem next_alter (m : Media) (p : Path) (change : File → File) : (m.alter p change).next = m.next := by
  unfold alter
  split <;> rfl

theorem Ok.cur_fresh {m : Media} (h : m.Ok) (p : Path) : m.cur p ≠ some (.new m.next) := by
  intro hc
  exact Nat.lt_irrefl _ (h.fresh p _ (cur_mem hc))

theorem Ok.touch {m : Media} (h : m.Ok) (p : Path) : (m.touch p).Ok := by
  cases hc : m.cur p with
  | some i => rwa [touch_some hc]
  | none =>
    constructor
    · intro p'
      rw [touch_none hc]
      by_cases hp : p' = p
      · subst hp
        simp
      · simp only [Function.update_of_ne hp]
        exact h.named p'
    · intro p' n hn
      rw [touch_none hc] at hn ⊢
      by_cases hp : p' = p
      · subst hp
        simp only [Function.update_self, List.mem_append, List.mem_singleton, Option.some.injEq, Ino.new.injEq] at hn
        rcases hn with hn | rfl
        · exact Nat.lt_succ_of_lt (h.fresh p' n hn)
        · exact Nat.lt_succ_self _
      · simp only [Function.update_of_ne hp] at hn
        exact Nat.lt_succ_of_lt (h.fresh p' n hn)
    · intro p1 p2 i h1 h2
      rw [cur_touch, hc, Option.getD_none] at h1 h2
      split at h1
      · split at h2
        · rename_i e1 e2
          exact e1.trans e2.symm
        · rw [← h1] at h2
          exact absurd h2 (h.cur_fresh p2)
      · split at h2
        · rw [← h2] at h1
          exact absurd h1 (h.cur_fresh p1)
        · exact h.alone p1 p2 i h1 h2

theorem Ok.alter {m : Media} (h : m.Ok) (p : Path) (change : File → File) : (m.alter p change).Ok := by
  constructor
  · rw [names_alter]
    exact h.named
  · intro p' n hn
    rw [names_alter] at hn
    rw [next_alter]
    exact h.fresh p' n hn
  · intro p1 p2 i h1 h2
    rw [cur_alter] at h1 h2
    exact h.alone p1 p2 i h1 h2

theorem mem_link {m : Media} {p p' : Path} {i t : Option Ino} (h : t ∈ (m.link p i).names p') :
    t ∈ m.names p' ∨ p' = p ∧ t = i := by
  unfold link at h
  by_cases hp : p' = p
  · subst hp
    simp only [Function.update_self, List.mem_append, List.mem_singleton] at h
    rcases h with h | h
    · exact .inl h
    · exact .inr ⟨rfl, h⟩
  · simp only [Function.update_of_ne hp] at h
    exact .inl h

theorem named_link {m : Media} {p : Path} (h : m.names p ≠ []) (p' : Path) (i : Option Ino) : (m.link p' i).names p ≠ [] := by
  unfold link
  by_cases hp : p = p'
  · subst hp
    simp
  · simp only [Function.update_of_ne hp]
    exact h

/-- What the paths are the names of after a `rename`. -/
theorem cur_rename (parent : Path → Path) (m : Media) (src dst p : Path) :
    (m.step parent (.rename src dst)).cur p = if p = src then none else if p = dst then m.cur src else m.cur p := by
  change ((m.link dst (m.cur src)).link src none).cur p = _
  rw [cur_link, cur_link]

theorem Ok.step {m : Media} (h : m.Ok) (parent : Path → Path) (c : Call) : (m.step parent c).Ok := by
  cases c with
  | creat p => exact h.touch p
  | trunc p => exact (h.touch p).alter p _
  | write p pos data => exact (h.touch p).alter p _
  | append p data => exact (h.touch p).alter p _
  | ftruncate p len => exact h.alter p _
  | fsync p => exact h.alter p _
  | rename src dst =>
    constructor
    · intro p
      exact named_link (named_link (h.named p) _ _) _ _
    · intro p n hn
      rcases mem_link hn with hn | ⟨-, hn⟩
      · rcases mem_link hn with hn | ⟨-, hn⟩
        · exact h.fresh p n hn
        · exact h.fresh src n (cur_mem hn.symm)
      · cases hn
    · intro p1 p2 i h1 h2
      rw [cur_rename] at h1 h2
      split at h1
      · cases h1
      · rename_i n1
        split at h2
        · cases h2
        · rename_i n2
          split at h1
          · rename_i e1
            split at h2
            · rename_i e2
              exact e1.trans e2.symm
            · exact absurd (h.alone p2 src i h2 h1) n2
          · split at h2
            · exact absurd (h.alone p1 src i h1 h2) n1
            · exact h.alone p1 p2 i h1 h2
  | fsyncDir dir =>
    constructor
    · intro p
      change (if parent p = dir then [m.cur p] else m.names p) ≠ []
      split
      · simp
      · exact h.named p
    · intro p n hn
      change some (Ino.new n) ∈ (if parent p = dir then [m.cur p] else m.names p) at hn
      split at hn
      · exact h.fresh p n (cur_mem (List.mem_singleton.1 hn).symm)
      · exact h.fresh p n hn
    · intro p1 p2 i h1 h2
      rw [cur_fsyncDir] at h1 h2
      exact h.alone p1 p2 i h1 h2

/-! ## What a process reads -/

theorem disk_touch {m : Media} (h : m.Ok) (p : Path) :
    (m.touch p).disk = Function.update m.disk p (some ((m.disk p).getD [])) := by
  funext p'
  unfold disk
  rw [cur_touch]
  by_cases hp : p' = p
  · subst hp
    rw [if_pos rfl, Function.update_self]
    cases hc : m.cur p' with
    | some i => rw [touch_some hc]; rfl
    | none =>
      rw [touch_none hc]
      simp [File.now]
  · rw [if_neg hp, Function.update_of_ne hp]
    cases hc : m.cur p with
    | some i => rw [touch_some hc]
    | none =>
      rw [touch_none hc]
      apply Option.map_congr
      intro i hi
      have hne : i ≠ .new m.next := by
        rintro rfl
        exact h.cur_fresh p' hi
      simp only [Function.update_of_ne hne]

theorem disk_alter {m : Media} (h : m.Ok) {p : Path} {i : Ino} (hc : m.cur p = some i) (change : File → File) :
    (m.alter p change).disk = Function.update m.disk p (some (change (m.files i)).now) := by
  have hfiles : (m.alter p change).files = Function.update m.files i (change (m.files i)) := by
    unfold alter
    rw [hc]
  funext p'
  unfold disk
  rw [cur_alter, hfiles]
  by_cases hp : p' = p
  · subst hp
    rw [Function.update_self, hc, Option.map_some, Function.update_self]
  · rw [Function.update_of_ne hp]
    apply Option.map_congr
    intro j hj
    have hne : j ≠ i := by
      rintro rfl
      exact hp (h.alone p' p j hj hc)
    rw [Function.update_of_ne hne]

theorem disk_change {m : Media} (h : m.Ok) (p : Path) (change : File → File) (f : Bytes → Bytes)
    (hf : ∀ file : File, (change file).now = f file.now) :
    ((m.touch p).alter p change).disk = Function.update m.disk p (some (f ((m.disk p).getD []))) := by
  obtain ⟨i, hi⟩ : ∃ i, (m.touch p).cur p = some i := ⟨_, by rw [cur_touch, if_pos rfl]⟩
  have hread : ((m.touch p).files i).now = (m.disk p).getD [] := by
    have hd := congrFun (disk_touch h p) p
    rw [Function.update_self, disk, hi] at hd
    exact Option.some.inj hd
  rw [disk_alter (h.touch p) hi, hf, hread, disk_touch h, Function.update_idem]

/-- Processes read what `exec` says. -/
theorem disk_step {m : Media} (h : m.Ok) (parent : Path → Path) (c : Call) : (m.step parent c).disk = exec m.disk c := by
  cases c with
  | creat p => exact disk_touch h p
  | trunc p => exact disk_change h p _ (fun _ => []) fun file => by rw [File.now_add]; rfl
  | write p pos data => exact disk_change h p _ (overwrite · pos data) fun file => by rw [File.now_add]; rfl
  | append p data =>
    refine disk_change h p _ (· ++ data) fun file => ?_
    rw [File.append, File.now_add]
    exact overwrite_end _ _
  | ftruncate p len =>
    change (m.alter p (.add (.cut len))).disk = Function.update m.disk p ((m.disk p).map (·.take len))
    cases hc : m.cur p with
    | none =>
      have hd : m.disk p = none := by rw [disk, hc]; rfl
      unfold alter
      rw [hc, hd, Option.map_none, ← hd, Function.update_eq_self]
    | some i =>
      rw [disk_alter h hc, File.now_add]
      congr 1
      rw [disk, hc]
      rfl
  | fsync p =>
    change (m.alter p .sync).disk = m.disk
    cases hc : m.cur p with
    | none =>
      unfold alter
      rw [hc]
    | some i =>
      rw [disk_alter h hc, File.now_sync]
      conv_rhs => rw [← Function.update_eq_self p m.disk]
      congr 1
      rw [disk, hc]
      rfl
  | rename src dst =>
    funext p
    change ((m.step parent (.rename src dst)).cur p).map (fun i => (m.files i).now) =
      Function.update (Function.update m.disk dst (m.disk src)) src none p
    rw [cur_rename]
    by_cases hs : p = src
    · rw [if_pos hs, hs, Function.update_self]
      rfl
    · rw [if_neg hs, Function.update_of_ne hs]
      by_cases hd : p = dst
      · rw [if_pos hd, hd, Function.update_self]
        rfl
      · rw [if_neg hd, Function.update_of_ne hd]
        rfl
  | fsyncDir dir =>
    funext p
    change ((m.step parent (.fsyncDir dir)).cur p).map (fun i => (m.files i).now) = m.disk p
    rw [cur_fsyncDir]
    rfl

theorem ok_ofDisk (base : Disk) : (ofDisk base).Ok := by
  have hcur : ∀ p i, (ofDisk base).cur p = some i → i = .old p := by
    intro p i hi
    change ((base p).map fun _ => Ino.old p) = some i at hi
    obtain ⟨b, -, rfl⟩ := Option.map_eq_some_iff.1 hi
    rfl
  constructor
  · intro p
    exact List.cons_ne_nil _ _
  · intro p n hn
    obtain ⟨b, -, hb⟩ := Option.map_eq_some_iff.1 (List.mem_singleton.1 hn).symm
    cases hb
  · intro p p' i h h'
    have := (hcur p i h).symm.trans (hcur p' i h')
    cases this
    rfl

theorem disk_ofDisk (base : Disk) : (ofDisk base).disk = base := by
  funext p
  change ((base p).map fun _ => Ino.old p).map _ = base p
  cases h : base p with
  | none => rfl
  | some b =>
    change some ((base p).getD []) = some b
    rw [h]
    rfl

/-- A path is the name of one of the files it was the name of. -/
theorem Ok.cur_mem {m : Media} (h : m.Ok) (p : Path) : m.cur p ∈ m.names p := by
  obtain ⟨t, ht⟩ := Option.isSome_iff_exists.1 (List.getLast?_isSome.2 (h.named p))
  rw [cur, ht, Option.join_some]
  exact List.mem_of_getLast? ht

/-- A loss may leave everything but the end of one file. -/
theorem Ok.lost {m : Media} (h : m.Ok) {p : Path} {i : Ino} {content : Bytes} (hi : m.cur p = some i)
    (hleft : Left (m.files i).synced (m.files i).since content) : m.Lost (Function.update m.disk p (some content)) := by
  intro p'
  refine ⟨m.cur p', h.cur_mem p', ?_⟩
  by_cases hp : p' = p
  · subst hp
    rw [hi]
    exact ⟨content, Function.update_self _ _ _, hleft⟩
  · rw [Function.update_of_ne hp, disk]
    cases m.cur p' with
    | none => rfl
    | some j => exact ⟨_, rfl, left_all _ _⟩

/-- A loss may take nothing. -/
theorem Ok.wrecked {m : Media} (h : m.Ok) : m.Wrecked m.disk := by
  refine Lost.wrecked fun p => ⟨m.cur p, h.cur_mem p, ?_⟩
  rw [disk]
  cases m.cur p with
  | none => rfl
  | some j => exact ⟨_, rfl, left_all _ _⟩

/-- A loss may leave any of the files that a path was the name of. -/
theorem Ok.wrecked_at {m : Media} (h : m.Ok) {p : Path} {t : Option Ino} (ht : t ∈ m.names p) :
    m.Wrecked (Function.update m.disk p (t.map fun i => (m.files i).synced)) := by
  intro p'
  by_cases hp : p' = p
  · subst hp
    refine ⟨t, ht, ?_⟩
    rw [Function.update_self]
    cases t with
    | none => rfl
    | some i => exact ⟨_, rfl, fun _ => rfl⟩
  · rw [Function.update_of_ne hp]
    exact h.wrecked p'

/-! ## What a loss cannot take -/

/-- Whatever is found at `p` after a loss satisfies `Q`, also if it is nothing: each
file it can be is synced, and is at no other path. -/
structure Steady (Q : Option Bytes → Prop) (m : Media) (p : Path) : Prop where
  synced : ∀ t ∈ m.names p, (∀ i, t = some i → (m.files i).since = []) ∧ Q (t.map fun i => (m.files i).synced)
  alone : ∀ i, some i ∈ m.names p → ∀ p', m.cur p' = some i → p' = p

section steady

variable {Q : Option Bytes → Prop} {m : Media} {p : Path}

theorem Steady.wrecked (h : m.Steady Q p) {d : Disk} (hd : m.Wrecked d) : Q (d p) := by
  obtain ⟨t, ht, hleft⟩ := hd p
  obtain ⟨hsince, hQ⟩ := h.synced t ht
  cases t with
  | none => rwa [show d p = none from hleft]
  | some i =>
    obtain ⟨content, hc, hl⟩ := hleft
    rw [hc, hl (hsince i rfl)]
    exact hQ

/-- What a process reads. -/
theorem Steady.disk (h : m.Steady Q p) (hok : m.Ok) : Q (m.disk p) := h.wrecked hok.wrecked

/-- Of all that is found there is nothing to be lost. -/
theorem Steady.found (h : m.Steady Q p) (hok : m.Ok) : m.Steady (fun c => ∃ d, m.Wrecked d ∧ d p = c) p :=
  ⟨fun t ht => ⟨(h.synced t ht).1, _, hok.wrecked_at ht, Function.update_self _ _ _⟩, h.alone⟩

theorem Steady.mono (h : m.Steady Q p) {Q' : Option Bytes → Prop} (hQ : ∀ c, Q c → Q' c) : m.Steady Q' p :=
  ⟨fun t ht => ⟨(h.synced t ht).1, hQ _ (h.synced t ht).2⟩, h.alone⟩

/-- The names of `p` and the files behind them are as they were. -/
theorem Steady.frame (h : m.Steady Q p) {m' : Media} (hnames : ∀ t ∈ m'.names p, t ∈ m.names p)
    (hfiles : ∀ i, some i ∈ m.names p → m'.files i = m.files i)
    (halone : ∀ i, some i ∈ m.names p → ∀ p', m'.cur p' = some i → p' = p) : m'.Steady Q p := by
  refine ⟨fun t ht => ?_, fun i hi => halone i (hnames _ hi)⟩
  have hold := h.synced t (hnames t ht)
  cases t with
  | none =>
    refine ⟨?_, hold.2⟩
    intro i hi
    cases hi
  | some i =>
    refine ⟨?_, ?_⟩
    · intro j hj
      obtain rfl := Option.some.inj hj
      rw [hfiles i (hnames _ ht)]
      exact hold.1 i rfl
    · rw [Option.map_some, hfiles i (hnames _ ht)]
      exact hold.2

/-- Other files are created. -/
theorem Steady.touch (h : m.Steady Q p) (hok : m.Ok) {p' : Path} (hne : p ≠ p') : (m.touch p').Steady Q p := by
  cases hc : m.cur p' with
  | some i => rwa [touch_some hc]
  | none =>
    have hnames : (m.touch p').names p = m.names p := by
      rw [touch_none hc]
      exact Function.update_of_ne hne _ _
    refine h.frame (fun t ht => hnames ▸ ht) ?_ ?_
    · intro i hi
      have hi : i ≠ .new m.next := by
        rintro rfl
        exact Nat.lt_irrefl _ (hok.fresh p _ hi)
      rw [touch_none hc]
      exact Function.update_of_ne hi _ _
    · intro i hi q hq
      rw [cur_touch, hc] at hq
      split at hq
      · obtain rfl := Option.some.inj hq
        exact absurd (hok.fresh p _ hi) (Nat.lt_irrefl _)
      · exact h.alone i hi q hq

/-- Other files are changed. -/
theorem Steady.alter (h : m.Steady Q p) {p' : Path} (hne : p ≠ p') (change : File → File) : (m.alter p' change).Steady Q p := by
  refine h.frame (fun t ht => by rwa [names_alter] at ht) ?_ ?_
  · intro j hj
    unfold Media.alter
    split
    · rfl
    · rename_i i hi
      have hji : j ≠ i := by
        rintro rfl
        exact hne (h.alone j hj p' hi).symm
      exact Function.update_of_ne hji _ _
  · intro i hi q hq
    rw [cur_alter] at hq
    exact h.alone i hi q hq

/-- A sync of the file changes nothing. -/
theorem Steady.sync (h : m.Steady Q p) : (m.alter p .sync).Steady Q p := by
  refine h.frame (fun t ht => by rwa [names_alter] at ht) ?_ ?_
  · intro j hj
    unfold Media.alter
    split
    · rfl
    · rename_i i hi
      by_cases hji : j = i
      · subst hji
        have hsince := (h.synced _ hj).1 j rfl
        have hsync : (m.files j).sync = m.files j := by
          rw [File.sync, File.now]
          cases hfile : m.files j with
          | mk synced since =>
            rw [hfile] at hsince
            obtain rfl : since = [] := hsince
            rfl
        simp only [Function.update_self, hsync]
      · exact Function.update_of_ne hji _ _
  · intro i hi q hq
    rw [cur_alter] at hq
    exact h.alone i hi q hq

theorem Steady.fsyncDir (h : m.Steady Q p) (hok : m.Ok) (parent : Path → Path) (dir : Path) :
    (m.step parent (.fsyncDir dir)).Steady Q p := by
  refine h.frame ?_ (fun i hi => rfl) ?_
  · intro t ht
    change t ∈ (if parent p = dir then [m.cur p] else m.names p) at ht
    split at ht
    · rw [List.mem_singleton.1 ht]
      exact hok.cur_mem p
    · exact ht
  · intro i hi q hq
    rw [cur_fsyncDir] at hq
    exact h.alone i hi q hq

/-- Another file is put in the place of the one at `p`. -/
theorem Steady.renamed (h : m.Steady Q p) (hok : m.Ok) (parent : Path → Path) {src : Path} {j : Ino} (hne : p ≠ src)
    (hsrc : m.cur src = some j) (hsince : (m.files j).since = []) (hQ : Q (some (m.files j).synced)) :
    (m.step parent (.rename src p)).Steady Q p := by
  have hmem : ∀ t ∈ (m.step parent (.rename src p)).names p, t ∈ m.names p ∨ t = some j := by
    intro t ht
    rcases mem_link ht with ht | ⟨hp, -⟩
    · rcases mem_link ht with ht | ⟨-, ht⟩
      · exact .inl ht
      · exact .inr (ht.trans hsrc)
    · exact absurd hp hne
  refine ⟨?_, ?_⟩
  · intro t ht
    rcases hmem t ht with ht | rfl
    · exact h.synced t ht
    · refine ⟨?_, hQ⟩
      intro i hi
      obtain rfl := Option.some.inj hi
      exact hsince
  · intro i hi q hq
    rw [cur_rename, hsrc] at hq
    split at hq
    · cases hq
    · rename_i hqs
      split at hq
      · assumption
      · rcases hmem _ hi with hi | hi
        · exact h.alone i hi q hq
        · obtain rfl := Option.some.inj hi
          exact absurd (hok.alone q src i hq hsrc) hqs

/-- Calls that do not touch the file. -/
theorem Steady.step (h : m.Steady Q p) (hok : m.Ok) (parent : Path → Path) {c : Call} (hc : c.Spares p) :
    (m.step parent c).Steady Q p := by
  cases c with
  | creat p' => exact h.touch hok hc
  | trunc p' => exact (h.touch hok hc).alter hc _
  | write p' pos data => exact (h.touch hok hc).alter hc _
  | append p' data => exact (h.touch hok hc).alter hc _
  | ftruncate p' len => exact h.alter hc _
  | fsync p' =>
    by_cases hp : p = p'
    · subst hp
      exact h.sync
    · exact h.alter hp _
  | rename src dst =>
    have hnames : (m.step parent (.rename src dst)).names p = m.names p := by
      change Function.update (Function.update m.names dst _) src _ p = m.names p
      rw [Function.update_of_ne hc.1, Function.update_of_ne hc.2]
    apply h.frame (fun t ht => hnames ▸ ht) (fun i hi => rfl)
    intro i hi q hq
    rw [cur_rename] at hq
    split at hq
    · cases hq
    · split at hq
      · exact absurd (h.alone i hi src hq).symm hc.1
      · exact h.alone i hi q hq
  | fsyncDir dir => exact h.fsyncDir hok parent dir

theorem steady_ofDisk (base : Disk) (p : Path) : (ofDisk base).Steady (· = base p) p := by
  have hname : (ofDisk base).names p = [(base p).map fun _ => .old p] := rfl
  refine ⟨fun t ht => ?_, fun i hi q hq => ?_⟩
  · rw [hname, List.mem_singleton] at ht
    subst ht
    refine ⟨?_, ?_⟩
    · intro i hi
      obtain ⟨b, -, rfl⟩ := Option.map_eq_some_iff.1 hi
      rfl
    · cases hb : base p with
      | none => rfl
      | some content =>
        change some ((base p).getD []) = some content
        rw [hb]
        rfl
  · rw [hname, List.mem_singleton] at hi
    obtain ⟨b, -, rfl⟩ := Option.map_eq_some_iff.1 hi.symm
    obtain ⟨b', -, hb'⟩ := Option.map_eq_some_iff.1 (show ((base q).map fun _ => Ino.old q) = some (.old p) from hq)
    cases hb'
    rfl

end steady

/-! ## Many calls -/

def run (parent : Path → Path) (m : Media) (calls : List Call) : Media := calls.foldl (step parent) m

section run

variable {m : Media} {p : Path} {parent : Path → Path}

theorem run_append (a b : List Call) : m.run parent (a ++ b) = (m.run parent a).run parent b := List.foldl_append

theorem Ok.run (h : m.Ok) (calls : List Call) : (m.run parent calls).Ok := by
  induction calls generalizing m with
  | nil => exact h
  | cons c calls ih => exact ih (h.step parent c)

theorem disk_run (h : m.Ok) (calls : List Call) : (m.run parent calls).disk = calls.foldl exec m.disk := by
  induction calls generalizing m with
  | nil => rfl
  | cons c calls ih =>
    rw [List.foldl_cons, ← disk_step h parent c]
    exact ih (h.step parent c)

variable {Q : Option Bytes → Prop}

theorem Steady.run (h : m.Steady Q p) (hok : m.Ok) {calls : List Call} (hc : ∀ c ∈ calls, c.Spares p) :
    (m.run parent calls).Steady Q p := by
  induction calls generalizing m with
  | nil => exact h
  | cons c calls ih =>
    exact ih (h.step hok parent (hc c List.mem_cons_self)) (hok.step parent c) fun c' hc' => hc c' (List.mem_cons_of_mem _ hc')

/-- The file at `p` holds `data`, all of it synced. -/
def Synced (m : Media) (p : Path) (data : Bytes) : Prop :=
  ∃ i, m.cur p = some i ∧ (m.files i).since = [] ∧ (m.files i).synced = data

theorem synced_fsync {data : Bytes} (h : m.disk p = some data) : (m.step parent (.fsync p)).Synced p data := by
  obtain ⟨i, hi, rfl⟩ := Option.map_eq_some_iff.1 h
  have hfiles : (m.alter p .sync).files i = (m.files i).sync := by
    unfold alter
    rw [hi]
    exact Function.update_self _ _ _
  exact ⟨i, (cur_alter m p _ p).trans hi, congrArg File.since hfiles, congrArg File.synced hfiles⟩

/-- While a file is replaced by another one that is synced, one of the two is found. -/
theorem Steady.replaced (h : m.Steady Q p) (hok : m.Ok) {src : Path} (hne : p ≠ src) {pre post : List Call}
    (hpre : ∀ c ∈ pre, c.Spares p) (hpost : ∀ c ∈ post, c.Spares p) {data : Bytes} (hQ : Q (some data))
    (hfile : (m.run parent pre).Synced src data) (k : Nat) :
    (m.run parent ((pre ++ .rename src p :: post).take k)).Steady Q p := by
  by_cases hk : k ≤ pre.length
  · rw [List.take_append_of_le_length hk]
    exact h.run hok fun c hc => hpre c (List.mem_of_mem_take hc)
  · obtain ⟨j, rfl⟩ : ∃ j, k = pre.length + (j + 1) := ⟨k - pre.length - 1, by omega⟩
    rw [List.take_length_add_append, List.take_succ_cons, run_append]
    obtain ⟨i, hi, hsince, rfl⟩ := hfile
    have hbefore : (m.run parent pre).Steady Q p := h.run hok hpre
    have hafter := hbefore.renamed (hok.run pre) parent hne hi hsince hQ
    exact hafter.run ((hok.run pre).step parent _) fun c hc => hpost c (List.mem_of_mem_take hc)

/-- Once the directory is synced, only the new file is found. -/
theorem steady_replaced (hok : m.Ok) {src : Path} (hne : p ≠ src) {data : Bytes} (hfile : m.Synced src data) :
    (m.run parent [.rename src p, .fsyncDir (parent p)]).Steady (· = some data) p := by
  obtain ⟨i, hi, hsince, hdata⟩ := hfile
  have hcur : ∀ q, (m.run parent [.rename src p, .fsyncDir (parent p)]).cur q =
      if q = src then none else if q = p then some i else m.cur q := by
    intro q
    change ((m.step parent (.rename src p)).step parent (.fsyncDir (parent p))).cur q = _
    rw [cur_fsyncDir, cur_rename, hi]
  have hnames : (m.run parent [.rename src p, .fsyncDir (parent p)]).names p = [some i] := by
    change (if parent p = parent p then [(m.step parent (.rename src p)).cur p] else _) = _
    rw [if_pos rfl, cur_rename, if_neg hne, if_pos rfl, hi]
  refine ⟨?_, ?_⟩
  · intro t ht
    rw [hnames, List.mem_singleton] at ht
    subst ht
    refine ⟨?_, congrArg some hdata⟩
    intro j hj
    obtain rfl := Option.some.inj hj
    exact hsince
  · intro j hj q hq
    rw [hnames] at hj
    obtain rfl := Option.some.inj (List.mem_singleton.1 hj)
    rw [hcur] at hq
    split at hq
    · cases hq
    · rename_i hqs
      split at hq
      · assumption
      · exact absurd (hok.alone q src j hq hi) hqs

end run

/-! ## Files that are always there -/

/-- Whatever file is found at `p` after a loss, all of it is synced, its content
satisfies `Q`, and it is at no other path. -/
structure Durable (Q : Bytes → Prop) (m : Media) (p : Path) : Prop where
  here : ∃ i, m.cur p = some i
  synced : ∀ t ∈ m.names p, ∃ i, t = some i ∧ (m.files i).since = [] ∧ Q (m.files i).synced
  alone : ∀ i, some i ∈ m.names p → ∀ p', m.cur p' = some i → p' = p

section durable

variable {Q : Bytes → Prop} {m : Media} {p : Path} {parent : Path → Path}

/-- A file is found, and its content satisfies `Q`. -/
def Content (Q : Bytes → Prop) (c : Option Bytes) : Prop := ∃ content, c = some content ∧ Q content

theorem Durable.steady (h : m.Durable Q p) : m.Steady (Content Q) p := by
  refine ⟨fun t ht => ?_, h.alone⟩
  obtain ⟨i, rfl, hsince, hQ⟩ := h.synced t ht
  refine ⟨?_, _, rfl, hQ⟩
  intro j hj
  obtain rfl := Option.some.inj hj
  exact hsince

theorem Steady.durable (h : m.Steady (Content Q) p) (hok : m.Ok) : m.Durable Q p := by
  have hsynced : ∀ t ∈ m.names p, ∃ i, t = some i ∧ (m.files i).since = [] ∧ Q (m.files i).synced := by
    intro t ht
    obtain ⟨hsince, content, hcontent, hQ⟩ := h.synced t ht
    obtain ⟨i, rfl, rfl⟩ := Option.map_eq_some_iff.1 hcontent
    exact ⟨i, rfl, hsince i rfl, hQ⟩
  obtain ⟨i, hi, -⟩ := hsynced _ (hok.cur_mem p)
  exact ⟨⟨i, hi⟩, hsynced, h.alone⟩

theorem Durable.lost (h : m.Durable Q p) {d : Disk} (hd : m.Lost d) : ∃ content, d p = some content ∧ Q content :=
  h.steady.wrecked hd.wrecked

/-- What a process reads. -/
theorem Durable.disk (h : m.Durable Q p) (hok : m.Ok) : ∃ content, m.disk p = some content ∧ Q content :=
  h.steady.disk hok

theorem Durable.mono (h : m.Durable Q p) {Q' : Bytes → Prop} (hQ : ∀ content, Q content → Q' content) : m.Durable Q' p := by
  refine ⟨h.here, fun t ht => ?_, h.alone⟩
  obtain ⟨i, hi, hsince, hc⟩ := h.synced t ht
  exact ⟨i, hi, hsince, hQ _ hc⟩

/-- Calls that do not touch the file, or only look whether it is there. -/
theorem Durable.step (h : m.Durable Q p) (hok : m.Ok) (parent : Path → Path) {c : Call} (hc : c.Spares p ∨ c = .creat p) :
    (m.step parent c).Durable Q p := by
  rcases hc with hc | rfl
  · exact (h.steady.step hok parent hc).durable (hok.step parent c)
  · obtain ⟨i, hi⟩ := h.here
    change (m.touch p).Durable Q p
    rwa [touch_some hi]

theorem Durable.run (h : m.Durable Q p) (hok : m.Ok) {calls : List Call} (hc : ∀ c ∈ calls, c.Spares p ∨ c = .creat p) :
    (m.run parent calls).Durable Q p := by
  induction calls generalizing m with
  | nil => exact h
  | cons c calls ih =>
    exact ih (h.step hok parent (hc c List.mem_cons_self)) (hok.step parent c) fun c' hc' => hc c' (List.mem_cons_of_mem _ hc')

/-- `Steady.replaced`, for a file that is there. -/
theorem Durable.replaced (h : m.Durable Q p) (hok : m.Ok) {src : Path} (hne : p ≠ src) {pre post : List Call}
    (hpre : ∀ c ∈ pre, c.Spares p) (hpost : ∀ c ∈ post, c.Spares p) {data : Bytes} (hQ : Q data)
    (hfile : (m.run parent pre).Synced src data) (k : Nat) :
    (m.run parent ((pre ++ .rename src p :: post).take k)).Durable Q p :=
  (h.steady.replaced hok hne hpre hpost ⟨data, rfl, hQ⟩ hfile k).durable (hok.run _)

theorem durable_replaced (hok : m.Ok) {src : Path} (hne : p ≠ src) {data : Bytes} (hfile : m.Synced src data) :
    (m.run parent [.rename src p, .fsyncDir (parent p)]).Durable (· = data) p :=
  ((steady_replaced hok hne hfile).mono fun _ hc => ⟨data, hc, rfl⟩).durable (hok.run _)

theorem durable_ofDisk {base : Disk} {content : Bytes} (h : base p = some content) :
    (ofDisk base).Durable (· = content) p :=
  ((steady_ofDisk base p).mono fun _ hc => ⟨content, hc.trans h, rfl⟩).durable (ok_ofDisk base)

end durable

end Media

/-- The medium behind a file system whose first disk was all synced. -/
def Fs.media (parent : Path → Path) (fs : Fs) : Media := (Media.ofDisk fs.base).run parent fs.calls

theorem Fs.media_after (parent : Path → Path) (fs : Fs) (calls : List Call) :
    (fs.after calls).media parent = (fs.media parent).run parent calls := Media.run_append _ _

theorem Fs.media_ok (parent : Path → Path) (fs : Fs) : (fs.media parent).Ok := (Media.ok_ofDisk fs.base).run fs.calls

/-- Processes read what the medium holds. -/
theorem Fs.disk_media (parent : Path → Path) (fs : Fs) : (fs.media parent).disk = fs.disk := by
  rw [Fs.media, Media.disk_run (Media.ok_ofDisk fs.base), Media.disk_ofDisk]
  rfl

end Posix
