import Mathlib.Data.List.TakeWhile
import PomaiQueue.Lib.Posix
/-!
# Which file a path names

A path is a byte string, and several of them can name one file. `enter dir p` is
the place that `p` leads to from the directory `dir`, as the list of names from
the root: a leading slash starts there, doubled slashes and `.` do nothing, `..`
goes up. A system call gets the path up to its first NUL byte, which leads to
`place dir p` through the directories `ways dir p`.

Trusted: there are no symbolic links.
-/

namespace Posix

open Wire

/-- What stands between the slashes. -/
def parts (p : Path) : List Bytes := p.splitOn 47

def enterPart (dir : List Bytes) (part : Bytes) : List Bytes :=
  if part = [] ∨ part = [46] then dir else if part = [46, 46] then dir.dropLast else dir ++ [part]

/-- Where the names of `p` start if `dir` is the working directory. -/
def startOf (dir : List Bytes) (p : Path) : List Bytes := if p.head? = some 47 then [] else dir

def enter (dir : List Bytes) (p : Path) : List Bytes := (parts p).foldl enterPart (startOf dir p)

/-- The directory in which the last part of `p` is looked up, and that part. -/
def leaf (dir : List Bytes) (p : Path) : List Bytes × Bytes :=
  ((parts p).dropLast.foldl enterPart (startOf dir p), (parts p).getLastD [])

theorem parts_slash (a b : Path) : parts (a ++ 47 :: b) = parts a ++ parts b := List.splitOn_append_cons_self a b

theorem parts_of_no_slash {p : Path} (h : 47 ∉ p) : parts p = [p] := List.splitOn_eq_singleton h

/-- A path without a slash, or what is before and behind its last one. -/
theorem last_slash (p : Path) : 47 ∉ p ∨ ∃ a b, p = a ++ 47 :: b ∧ 47 ∉ b := by
  induction p with
  | nil => simp
  | cons c p ih =>
    rcases ih with hn | ⟨a, b, rfl, hb⟩
    · by_cases hc : c = 47
      · exact .inr ⟨[], p, by rw [hc]; rfl, hn⟩
      · exact .inl (by simp [hn, Ne.symm hc])
    · exact .inr ⟨c :: a, b, rfl, hb⟩

/-- More bytes at the end of a path belong to its last part. -/
theorem parts_suffix {s : Bytes} (hs : 47 ∉ s) (p : Path) : parts (p ++ s) = (parts p).dropLast ++ [(parts p).getLastD [] ++ s] := by
  rcases last_slash p with hn | ⟨a, b, rfl, hb⟩
  · rw [parts_of_no_slash hn, parts_of_no_slash (by simp [hn, hs])]
    rfl
  · have hbs : 47 ∉ b ++ s := by simp [hb, hs]
    rw [List.append_assoc, List.cons_append, parts_slash, parts_slash, parts_of_no_slash hb, parts_of_no_slash hbs]
    simp

/-- A long enough ending makes the last part a name. -/
theorem enter_suffix {s : Bytes} (hs : 47 ∉ s) (hlen : 2 < s.length) (dir : List Bytes) (p : Path) :
    enter dir (p ++ s) = (leaf dir p).1 ++ [(leaf dir p).2 ++ s] := by
  have hstart : startOf dir (p ++ s) = startOf dir p := by
    cases p with
    | nil =>
      cases s with
      | nil => rfl
      | cons c s =>
        have hc : c ≠ 47 := fun h => hs (by simp [h])
        simp [startOf, hc]
    | cons c p => rfl
  have hname : ∀ d b, enterPart d (b ++ s) = d ++ [b ++ s] := by
    intro d b
    have hl : (b ++ s).length = b.length + s.length := List.length_append
    unfold enterPart
    rw [if_neg, if_neg]
    · intro hc
      rw [hc, List.length_cons, List.length_singleton] at hl
      omega
    · rintro (hc | hc)
      · rw [hc, List.length_nil] at hl
        omega
      · rw [hc, List.length_singleton] at hl
        omega
  rw [enter, hstart, parts_suffix hs, List.foldl_append, List.foldl_cons, List.foldl_nil, hname]
  rfl

theorem enter_nil (dir : List Bytes) : enter dir [] = dir := rfl

/-- A relative path behind a slash leads on from where the path before it leads. -/
theorem enter_slash (dir : List Bytes) {a b : Path} (ha : a ≠ []) (hb : b.head? ≠ some 47) :
    enter dir (a ++ 47 :: b) = enter (enter dir a) b := by
  have hstart : startOf dir (a ++ 47 :: b) = startOf dir a := by
    cases a with
    | nil => exact absurd rfl ha
    | cons c a => rfl
  have hrel : startOf (enter dir a) b = enter dir a := if_neg hb
  rw [enter, hstart, parts_slash, List.foldl_append, enter, hrel]
  rfl

/-- A leading slash is the root. -/
theorem enter_root (dir : List Bytes) (b : Path) : enter dir (47 :: b) = enter [] b := by
  have hparts : parts (47 :: b) = [] :: parts b := parts_slash [] b
  have hstart : startOf [] b = [] := ite_self _
  rw [enter, hparts, List.foldl_cons, enter, hstart]
  rfl

/-! ## What a system call is given -/

/-- A path ends at its first NUL byte. -/
def upToNul (p : Path) : Path := p.takeWhile (· ≠ 0)

/-- Where `p` leads if `cwd` is the working directory. -/
def place (cwd : List Bytes) (p : Path) : List Bytes := enter cwd (upToNul p)

/-- What stands before each slash, the shortest first. -/
def fronts : Path → List Path
  | [] => []
  | c :: p => (if c = 47 then [[]] else []) ++ (fronts p).map (c :: ·)

/-- The places of the directories that `create_directories` makes for a file at `p`. -/
def ways (cwd : List Bytes) (p : Path) : List (List Bytes) := (fronts p).map (place cwd)

/-- From every working directory `p` and `p'` are two places, and `p'` is no directory on the way to `p`. -/
def Away (p p' : Path) : Prop := ∀ cwd, place cwd p ≠ place cwd p' ∧ place cwd p' ∉ ways cwd p

theorem Away.ne {p p' : Path} (h : Away p p') : p ≠ p' := fun heq => (h []).1 (congrArg (place []) heq)

theorem upToNul_eq {p : Path} (h : 0 ∉ p) : upToNul p = p :=
  List.takeWhile_eq_self_iff.2 fun _ hc => decide_eq_true fun h0 => h (h0 ▸ hc)

theorem place_eq {p : Path} (h : 0 ∉ p) (cwd : List Bytes) : place cwd p = enter cwd p := by
  rw [place, upToNul_eq h]

theorem mem_fronts (p a : Path) : a ∈ fronts p ↔ ∃ b, p = a ++ 47 :: b := by
  induction p generalizing a with
  | nil => simp [fronts]
  | cons c p ih =>
    have hslash : a ∈ (if c = 47 then [[]] else []) ↔ c = 47 ∧ a = [] := by
      split
      · next hc => simp [hc]
      · next hc => simp [hc]
    rw [fronts, List.mem_append, hslash, List.mem_map]
    constructor
    · rintro (⟨rfl, rfl⟩ | ⟨a', ha', rfl⟩)
      · exact ⟨p, rfl⟩
      · obtain ⟨b, rfl⟩ := (ih a').1 ha'
        exact ⟨b, rfl⟩
    · rintro ⟨b, hb⟩
      cases a with
      | nil =>
        injection hb with hc
        exact .inl ⟨hc, rfl⟩
      | cons c' a' =>
        injection hb with hc hp
        exact .inr ⟨a', (ih a').2 ⟨b, hp⟩, by rw [hc]⟩

theorem mem_ways {cwd : List Bytes} {p : Path} {k : List Bytes} : k ∈ ways cwd p ↔ ∃ a b, p = a ++ 47 :: b ∧ place cwd a = k := by
  rw [ways, List.mem_map]
  constructor
  · rintro ⟨a, ha, rfl⟩
    obtain ⟨b, hb⟩ := (mem_fronts p a).1 ha
    exact ⟨a, b, hb, rfl⟩
  · rintro ⟨a, b, hb, rfl⟩
    exact ⟨a, (mem_fronts p a).2 ⟨b, hb⟩, rfl⟩

/-- An ending without a slash has nothing in front of it. -/
theorem fronts_append {s : Bytes} (hs : 47 ∉ s) (p : Path) : fronts (p ++ s) = fronts p := by
  induction p with
  | nil =>
    refine List.eq_nil_iff_forall_not_mem.2 fun a ha => ?_
    obtain ⟨b, hb⟩ := (mem_fronts s a).1 ha
    exact hs (by simp [hb])
  | cons c p ih => rw [List.cons_append, fronts, fronts, ih]

/-- The directories that a system call goes through are among those that were made for it. -/
theorem ways_upToNul (cwd : List Bytes) (p : Path) {k : List Bytes} (h : k ∈ ways cwd (upToNul p)) : k ∈ ways cwd p := by
  obtain ⟨a, b, hb, rfl⟩ := mem_ways.1 h
  refine mem_ways.2 ⟨a, b ++ p.dropWhile (· ≠ 0), ?_, rfl⟩
  rw [← List.cons_append, ← List.append_assoc, ← hb, upToNul, List.takeWhile_append_dropWhile]

theorem fronts_sorted (p : Path) : (fronts p).Pairwise fun a b => a.length < b.length := by
  induction p with
  | nil => exact .nil
  | cons c p ih =>
    rw [fronts, List.pairwise_append]
    refine ⟨?_, ?_, ?_⟩
    · split
      · exact List.pairwise_singleton ..
      · exact .nil
    · rw [List.pairwise_map]
      exact ih.imp fun h => Nat.succ_lt_succ h
    · intro a ha b hb
      obtain ⟨b', -, rfl⟩ := List.mem_map.1 hb
      split at ha
      · rw [List.mem_singleton.1 ha]
        exact Nat.succ_pos _
      · cases ha

/-- Every part adds a name to a directory, or stays there, or goes up. -/
theorem enterPart_up (dir : List Bytes) (part : Bytes) : (enterPart dir part).dropLast <+: dir := by
  unfold enterPart
  split
  · exact List.dropLast_prefix dir
  · split
    · exact (List.dropLast_prefix _).trans (List.dropLast_prefix dir)
    · exact List.dropLast_concat ▸ List.prefix_rfl

/-- Each directory on the way is in one that comes before it. -/
theorem ways_up {cwd : List Bytes} {p : Path} (h0 : 0 ∉ p) {a b : List (List Bytes)} {k : List Bytes} (h : ways cwd p = a ++ k :: b) :
    ∃ k', (k' = cwd ∨ k' = [] ∨ k' ∈ a) ∧ k.dropLast <+: k' := by
  obtain ⟨fa, fb, hfronts, rfl, hfb⟩ := List.map_eq_append_iff.1 h
  obtain ⟨f, fb, rfl, rfl, -⟩ := List.map_eq_cons_iff.1 hfb
  have hmem : ∀ {f'}, f' ∈ fronts p → 0 ∉ f' := by
    intro f' hf' h0'
    obtain ⟨y, rfl⟩ := (mem_fronts p f').1 hf'
    exact h0 (List.mem_append_left _ h0')
  have hf : f ∈ fronts p := by simp [hfronts]
  rw [place_eq (hmem hf)]
  rcases last_slash f with hno | ⟨x, y, rfl, hy⟩
  · refine ⟨cwd, .inl rfl, ?_⟩
    have hstart : startOf cwd f = cwd := if_neg fun hc => hno (List.mem_of_mem_head? hc)
    rw [enter, hstart, parts_of_no_slash hno, List.foldl_cons, List.foldl_nil]
    exact enterPart_up cwd f
  · have hrel : y.head? ≠ some 47 := fun hc => hy (List.mem_of_mem_head? hc)
    have hlast : ∀ d, (enter d y).dropLast <+: d := by
      intro d
      have hstart : startOf d y = d := if_neg hrel
      rw [enter, hstart, parts_of_no_slash hy, List.foldl_cons, List.foldl_nil]
      exact enterPart_up d y
    by_cases hx : x = []
    · refine ⟨[], .inr (.inl rfl), ?_⟩
      rw [hx, List.nil_append, enter_root]
      exact hlast []
    · -- What is before the last slash comes earlier.
      obtain ⟨z, hz⟩ := (mem_fronts p _).1 hf
      have hxf : x ∈ fronts p := (mem_fronts p x).2 ⟨y ++ 47 :: z, by rw [hz]; simp⟩
      refine ⟨place cwd x, .inr (.inr ?_), ?_⟩
      · rw [hfronts, List.mem_append, List.mem_cons] at hxf
        have hsorted := fronts_sorted p
        rw [hfronts, List.pairwise_append, List.pairwise_cons] at hsorted
        rcases hxf with hxa | heq | hxb
        · exact List.mem_map_of_mem hxa
        · have := congrArg List.length heq
          simp at this
        · have := hsorted.2.1.1 x hxb
          simp at this
      · rw [place_eq (hmem hxf), enter_slash cwd hx hrel]
        exact hlast _

/-! ## Calls on files -/

/-- The paths whose files the call changes. -/
def Call.targets : Call → List Path
  | .creat p | .trunc p | .write p _ _ | .append p _ | .ftruncate p _ => [p]
  | .rename src dst => [src, dst]
  | .fsync _ | .fsyncDir _ => []

theorem Call.spares_iff (c : Call) (p : Path) : c.Spares p ↔ p ∉ c.targets := by
  cases c <;> simp [Call.Spares, Call.targets]

end Posix
