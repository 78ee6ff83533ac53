import Mathlib.Data.List.Infix
import Mathlib.Data.Set.Basic
import PomaiQueue.Lib.Paths
/-!
# Directories and files

A `Tree` is what there is under the names from the root. Everything in it is in a
directory, so what is below something that is not there is not there either.
`Tree.find` follows a path through the directories on its way, `Tree.mkdirs` makes
directories, and `Tree.exec` is what a system call of a process in directory `cwd`
does. A call that cannot be made does nothing. No name is too long.

`Changes own new`: nothing but the places `own` and `new` are changed, and a
directory is made at places of `new` only. `Changes.find` says when a path leads to
the same as before.
-/

namespace Posix

open Wire

inductive Inode
  | dir
  | file (content : Bytes)
  deriving DecidableEq

structure Tree where
  node : List Bytes → Option Inode
  root : node [] = some .dir
  closed : ∀ k name, node (k ++ [name]) ≠ none → node k = some .dir

namespace Tree

/-- Only the root. -/
def bare : Tree where
  node k := if k = [] then some .dir else none
  root := rfl
  closed k name h := absurd (if_neg (by simp)) h

/-- What is above something is a directory. -/
theorem above (t : Tree) {k k' : List Bytes} (hk : k <+: k') (hne : k ≠ k') (h : t.node k' ≠ none) : t.node k = some .dir := by
  obtain ⟨rest, rfl⟩ := hk
  induction rest using List.reverseRecOn with
  | nil => exact absurd (List.append_nil k).symm hne
  | append_singleton rest name ih =>
    rw [← List.append_assoc] at h
    have hdir := t.closed _ _ h
    by_cases hrest : rest = []
    · rwa [hrest, List.append_nil] at hdir
    · exact ih (by simpa using hrest) (by rw [hdir]; simp)

/-- What is above a directory is a directory. -/
theorem dir_of_prefix (t : Tree) {k k' : List Bytes} (hk : k <+: k') (h : t.node k' = some .dir) : t.node k = some .dir := by
  by_cases hne : k = k'
  · rwa [hne]
  · exact t.above hk hne (by rw [h]; simp)

/-! ## Calls -/

/-- There is something else at `k`, where no directory is. -/
def replace (t : Tree) (k : List Bytes) (i : Option Inode) (hk : t.node k ≠ some .dir)
    (hup : i ≠ none → t.node k.dropLast = some .dir) : Tree where
  node := Function.update t.node k i
  root := by
    rw [Function.update_of_ne, t.root]
    rintro rfl
    exact hk t.root
  closed k' name h := by
    have hne : k' ≠ k := by
      rintro rfl
      rw [Function.update_of_ne (by simp)] at h
      exact hk (t.closed _ _ h)
    rw [Function.update_of_ne hne]
    by_cases heq : k' ++ [name] = k
    · subst heq
      rw [Function.update_self] at h
      simpa using hup h
    · rw [Function.update_of_ne heq] at h
      exact t.closed _ _ h

theorem replace_self (t : Tree) {k : List Bytes} {i : Option Inode} (hk : t.node k ≠ some .dir)
    (hup : i ≠ none → t.node k.dropLast = some .dir) : (t.replace k i hk hup).node k = i :=
  Function.update_self ..

theorem replace_ne (t : Tree) {k k' : List Bytes} {i : Option Inode} (hk : t.node k ≠ some .dir)
    (hup : i ≠ none → t.node k.dropLast = some .dir) (hne : k' ≠ k) : (t.replace k i hk hup).node k' = t.node k' :=
  Function.update_of_ne hne ..

/-- What leads to `ks`, with other contents of the files. -/
def prune (t : Tree) (ks : List (List Bytes)) (content : List Bytes → Bytes) : Tree where
  node k := if k = [] ∨ ∃ k' ∈ ks, k <+: k' then (t.node k).map fun
    | .dir => .dir
    | .file _ => .file (content k) else none
  root := by
    rw [if_pos (.inl rfl), t.root]
    rfl
  closed k name h := by
    have hin : k ++ [name] = [] ∨ ∃ k' ∈ ks, k ++ [name] <+: k' := by
      by_contra hn
      exact h (if_neg hn)
    rw [if_pos hin] at h
    have hdir := t.closed k name fun hnone => h (by rw [hnone]; rfl)
    obtain ⟨k', hk', hpre⟩ := hin.resolve_left (by simp)
    rw [if_pos (.inr ⟨k', hk', (List.prefix_append k [name]).trans hpre⟩), hdir]
    rfl

theorem prune_dir (t : Tree) {ks : List (List Bytes)} {k : List Bytes} (hin : ∃ k' ∈ ks, k <+: k') (h : t.node k = some .dir)
    (content : List Bytes → Bytes) : (t.prune ks content).node k = some .dir := by
  have hk : (t.prune ks content).node k = (t.node k).map _ := if_pos (.inr hin)
  rw [hk, h]
  rfl

theorem prune_file (t : Tree) {ks : List (List Bytes)} {k : List Bytes} {c : Bytes} (hin : ∃ k' ∈ ks, k <+: k')
    (h : t.node k = some (.file c)) (content : List Bytes → Bytes) : (t.prune ks content).node k = some (.file (content k)) := by
  have hk : (t.prune ks content).node k = (t.node k).map _ := if_pos (.inr hin)
  rw [hk, h]
  rfl

theorem prune_none (t : Tree) {ks : List (List Bytes)} {k : List Bytes} (hne : k ≠ []) (hout : ∀ k' ∈ ks, ¬ k <+: k')
    (content : List Bytes → Bytes) : (t.prune ks content).node k = none := by
  refine if_neg ?_
  rintro (hk | ⟨k', hk', hpre⟩)
  · exact hne hk
  · exact hout k' hk' hpre

theorem file_of_prune {t : Tree} {ks : List (List Bytes)} {k : List Bytes} {c : Bytes} {content : List Bytes → Bytes}
    (h : (t.prune ks content).node k = some (.file c)) : (∃ c', t.node k = some (.file c')) ∧ ∃ k' ∈ ks, k <+: k' := by
  unfold prune at h
  dsimp only at h
  split at h
  · next hin =>
    cases hn : t.node k with
    | none =>
      rw [hn] at h
      cases h
    | some i =>
      cases i with
      | dir =>
        rw [hn] at h
        cases h
      | file c' =>
        refine ⟨⟨c', rfl⟩, hin.resolve_left ?_⟩
        rintro rfl
        rw [t.root] at hn
        cases hn
  · cases h

/-- A file can be at `k`. -/
def Room (t : Tree) (k : List Bytes) : Prop := t.node k ≠ some .dir ∧ t.node k.dropLast = some .dir

instance (t : Tree) (k : List Bytes) : Decidable (t.Room k) := inferInstanceAs (Decidable (_ ∧ _))

def mkdir (t : Tree) (k : List Bytes) : Tree :=
  if h : t.node k = none ∧ t.node k.dropLast = some .dir then
    t.replace k (some .dir) (by rw [h.1]; simp) fun _ => h.2
  else t

/-- `create_directories` stops where it cannot make one. -/
def mkdirs : Tree → List (List Bytes) → Tree
  | t, [] => t
  | t, k :: ks => if (t.mkdir k).node k = some .dir then (t.mkdir k).mkdirs ks else t

def put (t : Tree) (k : List Bytes) (content : Bytes) : Tree :=
  if h : t.Room k then t.replace k (some (.file content)) h.1 fun _ => h.2 else t

def remove (t : Tree) (k : List Bytes) : Tree :=
  if h : t.node k ≠ some .dir then t.replace k none h (by simp) else t

/-- The directories on the way to `p` are there. -/
def reaches (t : Tree) (cwd : List Bytes) (p : Path) : Bool := (ways cwd (upToNul p)).all fun k => t.node k = some .dir

/-- What `p` leads to. -/
def find (t : Tree) (cwd : List Bytes) (p : Path) : Option Inode := if t.reaches cwd p then t.node (place cwd p) else none

/-- The file at `p` gets another content, and is made if it is not there. -/
def amend (t : Tree) (cwd : List Bytes) (p : Path) (f : Bytes → Bytes) : Tree :=
  if t.reaches cwd p then
    match t.node (place cwd p) with
    | none => t.put (place cwd p) (f [])
    | some (.file content) => t.put (place cwd p) (f content)
    | some .dir => t
  else t

/-- A rename of a file to its own place does nothing. -/
def move (t : Tree) (cwd : List Bytes) (src dst : Path) : Tree :=
  match t.find cwd src with
  | some (.file content) =>
    if place cwd src ≠ place cwd dst ∧ t.reaches cwd dst ∧ t.Room (place cwd dst) then
      (t.put (place cwd dst) content).remove (place cwd src)
    else t
  | _ => t

def exec (cwd : List Bytes) (t : Tree) : Call → Tree
  | .creat p => t.amend cwd p id
  | .trunc p => t.amend cwd p fun _ => []
  | .write p pos data => t.amend cwd p (overwrite · pos data)
  | .append p data => t.amend cwd p (· ++ data)
  | .ftruncate p len => t.amend cwd p (·.take len)
  | .rename src dst => t.move cwd src dst
  | .fsync _ | .fsyncDir _ => t

theorem mkdir_there (t : Tree) (k : List Bytes) {k' : List Bytes} (h : t.node k' ≠ none) : (t.mkdir k).node k' = t.node k' := by
  unfold mkdir
  split
  · next hk =>
    have hne : k' ≠ k := by
      rintro rfl
      exact h hk.1
    exact t.replace_ne _ _ hne
  · rfl

theorem mkdirs_there (t : Tree) (ks : List (List Bytes)) {k : List Bytes} (h : t.node k ≠ none) : (t.mkdirs ks).node k = t.node k := by
  induction ks generalizing t with
  | nil => rfl
  | cons k' ks ih =>
    unfold mkdirs
    split
    · have hthere := t.mkdir_there k' h
      rw [ih _ (by rwa [hthere]), hthere]
    · rfl

/-- Directories can be made where there are no files, if each one is in a directory that is
there or was made before. -/
theorem mkdirs_made (t : Tree) (ks : List (List Bytes)) (hfile : ∀ k ∈ ks, ∀ content, t.node k ≠ some (.file content))
    (hup : ∀ a k b, ks = a ++ k :: b → ∃ k', (t.node k' = some .dir ∨ k' ∈ a) ∧ k.dropLast <+: k') :
    ∀ k ∈ ks, (t.mkdirs ks).node k = some .dir := by
  induction ks generalizing t with
  | nil => simp
  | cons k ks ih =>
    have hmade : (t.mkdir k).node k = some .dir := by
      obtain ⟨k', hk', hpre⟩ := hup [] k ks rfl
      have hdir := t.dir_of_prefix hpre (hk'.resolve_right List.not_mem_nil)
      unfold mkdir
      split
      · exact t.replace_self _ _
      · next hnot =>
        cases hn : t.node k with
        | none => exact absurd ⟨hn, hdir⟩ hnot
        | some i =>
          cases i with
          | dir => rfl
          | file content => exact absurd hn (hfile k List.mem_cons_self content)
    have hrest := ih (t.mkdir k) ?_ ?_
    · rw [mkdirs, if_pos hmade]
      intro k' hk'
      rcases List.mem_cons.1 hk' with rfl | hk'
      · rw [mkdirs_there _ _ (by rw [hmade]; simp), hmade]
      · exact hrest k' hk'
    · intro k' hk' content hc
      by_cases hthere : t.node k' = none
      · unfold mkdir at hc
        split at hc
        · by_cases hne : k' = k
          · subst hne
            rw [t.replace_self] at hc
            cases hc
          · rw [t.replace_ne _ _ hne, hthere] at hc
            cases hc
        · rw [hthere] at hc
          cases hc
      · rw [t.mkdir_there k hthere] at hc
        exact hfile k' (List.mem_cons_of_mem _ hk') content hc
    · intro a k₁ b heq
      obtain ⟨k', hk', hpre⟩ := hup (k :: a) k₁ b (by rw [heq]; rfl)
      refine ⟨k', ?_, hpre⟩
      rcases hk' with hk' | hk'
      · exact .inl ((t.mkdir_there k (by rw [hk']; simp)).trans hk')
      · rcases List.mem_cons.1 hk' with rfl | hk'
        · exact .inl hmade
        · exact .inr hk'

theorem reaches_iff (t : Tree) (cwd : List Bytes) (p : Path) :
    t.reaches cwd p = true ↔ ∀ k ∈ ways cwd (upToNul p), t.node k = some .dir := by
  rw [reaches, List.all_eq_true]
  simp only [decide_eq_true_eq]

theorem find_some {t : Tree} {cwd : List Bytes} {p : Path} {i : Inode} (h : t.find cwd p = some i) :
    (∀ k ∈ ways cwd (upToNul p), t.node k = some .dir) ∧ t.node (place cwd p) = some i := by
  unfold find at h
  split at h
  · next hr => exact ⟨(t.reaches_iff cwd p).1 hr, h⟩
  · cases h

theorem find_none {t : Tree} {cwd : List Bytes} {p : Path} (h : t.node (place cwd p) = none) : t.find cwd p = none := by
  unfold find
  split
  · exact h
  · rfl

/-! ## What changes -/

/-- Directories are made at places of `new`, and otherwise nothing is changed but at places of `own`. -/
structure Changes (own new : Set (List Bytes)) (t t' : Tree) : Prop where
  stay : ∀ k, t.node k = some .dir → t'.node k = some .dir
  made : ∀ k, t'.node k = some .dir → t.node k = some .dir ∨ k ∈ new
  rest : ∀ k, k ∉ own → k ∉ new → t'.node k = t.node k

section changes

variable {own new : Set (List Bytes)} {t t' t'' : Tree} {cwd : List Bytes}

theorem Changes.refl (own new : Set (List Bytes)) (t : Tree) : Changes own new t t :=
  ⟨fun _ h => h, fun _ h => .inl h, fun _ _ _ => rfl⟩

theorem Changes.trans (h : Changes own new t t') (h' : Changes own new t' t'') : Changes own new t t'' where
  stay k hk := h'.stay k (h.stay k hk)
  made k hk := (h'.made k hk).elim (h.made k) .inr
  rest k ho hn := (h'.rest k ho hn).trans (h.rest k ho hn)

theorem changes_replace {k : List Bytes} {i : Option Inode} (hi : i ≠ some .dir) (hown : k ∈ own) (hk : t.node k ≠ some .dir)
    (hup : i ≠ none → t.node k.dropLast = some .dir) : Changes own new t (t.replace k i hk hup) where
  stay k' h := by
    have hne : k' ≠ k := fun heq => hk (heq ▸ h)
    exact (t.replace_ne hk hup hne).trans h
  made k' h := by
    have hne : k' ≠ k := by
      rintro rfl
      exact hi ((t.replace_self hk hup).symm.trans h)
    exact .inl ((t.replace_ne hk hup hne).symm.trans h)
  rest k' ho _ := by
    have hne : k' ≠ k := fun heq => ho (heq ▸ hown)
    exact t.replace_ne hk hup hne

theorem changes_mkdir {k : List Bytes} (hnew : t.node k = none → k ∈ new) : Changes own new t (t.mkdir k) := by
  unfold mkdir
  split
  · next hk =>
    refine ⟨fun k' h => ?_, fun k' h => ?_, fun k' _ hn => ?_⟩
    · have hne : k' ≠ k := by
        rintro rfl
        rw [hk.1] at h
        cases h
      exact (t.replace_ne _ _ hne).trans h
    · by_cases hne : k' = k
      · exact .inr (hne ▸ hnew hk.1)
      · exact .inl ((t.replace_ne _ _ hne).symm.trans h)
    · have hne : k' ≠ k := fun heq => hn (heq ▸ hnew hk.1)
      exact t.replace_ne _ _ hne
  · exact .refl ..

/-- Directories are made where there was nothing. -/
theorem changes_mkdirs {ks : List (List Bytes)} (hnew : ∀ k ∈ ks, t.node k = none → k ∈ new) :
    Changes own new t (t.mkdirs ks) := by
  induction ks generalizing t with
  | nil => exact .refl ..
  | cons k ks ih =>
    unfold mkdirs
    split
    · refine (changes_mkdir (hnew k List.mem_cons_self)).trans (ih fun k' hk' hnone => ?_)
      refine hnew k' (List.mem_cons_of_mem _ hk') ?_
      by_contra hthere
      rw [t.mkdir_there k hthere] at hnone
      exact hthere hnone
    · exact .refl ..

theorem changes_put {k : List Bytes} (hown : k ∈ own) (content : Bytes) (t : Tree) : Changes own new t (t.put k content) := by
  unfold put
  split
  · exact changes_replace (by simp) hown _ _
  · exact .refl ..

theorem changes_remove {k : List Bytes} (hown : k ∈ own) (t : Tree) : Changes own new t (t.remove k) := by
  unfold remove
  split
  · exact changes_replace (by simp) hown _ _
  · exact .refl ..

theorem changes_amend {p : Path} (hown : place cwd p ∈ own) (f : Bytes → Bytes) (t : Tree) :
    Changes own new t (t.amend cwd p f) := by
  unfold amend
  split
  · split
    · exact changes_put hown _ t
    · exact changes_put hown _ t
    · exact .refl ..
  · exact .refl ..

theorem changes_exec {c : Call} (hown : ∀ p ∈ c.targets, place cwd p ∈ own) (t : Tree) : Changes own new t (t.exec cwd c) := by
  cases c with
  | creat p | trunc p | write p pos data | append p data | ftruncate p len =>
    unfold exec
    exact changes_amend (hown p List.mem_cons_self) _ t
  | rename src dst =>
    rw [exec, move]
    split
    · split
      · refine Changes.trans ?_ (changes_remove (hown src List.mem_cons_self) _)
        exact changes_put (hown dst (List.mem_cons_of_mem _ List.mem_cons_self)) _ t
      · exact .refl ..
    · exact .refl ..
  | fsync p | fsyncDir dir => exact .refl ..

theorem changes_calls {calls : List Call} (hown : ∀ c ∈ calls, ∀ p ∈ c.targets, place cwd p ∈ own) (t : Tree) :
    Changes own new t (calls.foldl (exec cwd) t) := by
  induction calls generalizing t with
  | nil => exact .refl ..
  | cons c calls ih =>
    exact (changes_exec (hown c List.mem_cons_self) t).trans (ih (fun c' hc' => hown c' (List.mem_cons_of_mem _ hc')) _)

/-- A path leads to the same if what is there does not change, and if it is below the new directories
that it goes through. It may go through one that has to be there for another directory on the way. -/
theorem Changes.find (h : Changes own new t t') {p : Path} (hown : place cwd p ∉ own)
    (hnew : place cwd p ∈ new → t.node (place cwd p) = some .dir)
    (hpass : ∀ k ∈ ways cwd (upToNul p), k ∈ new → t.node k ≠ some .dir →
      (∀ k' ∈ ways cwd (upToNul p), k <+: k' → k' ∈ new) → k <+: place cwd p ∧ k ≠ place cwd p) :
    t'.find cwd p = t.find cwd p := by
  have hsame : t'.node (place cwd p) = t.node (place cwd p) := by
    by_cases hn : place cwd p ∈ new
    · rw [hnew hn, h.stay _ (hnew hn)]
    · exact h.rest _ hown hn
  unfold Tree.find
  by_cases hr : t.reaches cwd p = true
  · have hr' : t'.reaches cwd p = true := (t'.reaches_iff cwd p).2 fun k hk => h.stay k ((t.reaches_iff cwd p).1 hr k hk)
    rw [if_pos hr, if_pos hr', hsame]
  · rw [if_neg hr]
    by_cases hr' : t'.reaches cwd p = true
    · -- A directory was missing in front of the file, so the file was missing too.
      rw [if_pos hr', hsame]
      rw [t.reaches_iff] at hr
      push Not at hr
      obtain ⟨k, hk, hmissing⟩ := hr
      have hmade : ∀ k' ∈ ways cwd (upToNul p), k <+: k' → k' ∈ new := fun k' hk' hpre =>
        (h.made k' ((t'.reaches_iff cwd p).1 hr' k' hk')).resolve_left fun hdir => hmissing (t.dir_of_prefix hpre hdir)
      obtain ⟨hpre, hne⟩ := hpass k hk (hmade k hk List.prefix_rfl) hmissing hmade
      by_contra hthere
      exact hmissing (t.above hpre hne hthere)
    · rw [if_neg hr']

end changes

end Tree

end Posix
