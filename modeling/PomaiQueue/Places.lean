import PomaiQueue.Lib.Paths
import PomaiQueue.Model
/-!
# Where the files of a queue and of a group are

The names of queues and groups go into paths as they are. `enter_groupStatePath`
and the like say where the paths lead: to the directory and the last part that
`groupPlace` gives, with the endings. The files of a group have the same directories on
their way (`ways_groupFile`), and `fronts_join` tells which of them the segment does not need.
-/

namespace PomaiQueue.Engine

open Wire Posix Storage

theorem enter_join (cwd : List Bytes) (a b : Path) : enter cwd (join a b) = enter (enter cwd a) b := by
  unfold join
  by_cases hb : b.head? = some 47
  · rw [if_pos hb, enter, enter, startOf, if_pos hb, startOf, if_pos hb]
  · rw [if_neg hb]
    by_cases ha : a = []
    · rw [if_pos (.inl ha), ha, enter_nil]
      rfl
    · by_cases hl : a.getLast? = some 47
      · obtain ⟨a', rfl⟩ := List.getLast?_eq_some_iff.1 hl
        rw [if_pos (.inr hl), List.append_assoc, List.singleton_append]
        cases a' with
        | nil =>
          rw [List.nil_append, List.nil_append, enter_root, enter_root]
          rfl
        | cons c a' =>
          have hne : c :: a' ≠ [] := List.cons_ne_nil c a'
          rw [enter_slash cwd hne hb, enter_slash cwd hne (by simp), enter_nil]
      · rw [if_neg (by simp [ha, hl])]
        exact List.append_assoc a _ b ▸ enter_slash cwd ha hb

/-- More bytes at the end of the right path. -/
theorem join_append {s : Bytes} (hs : s.head? ≠ some 47) (a b : Path) : join a (b ++ s) = join a b ++ s := by
  have hhead : (b ++ s).head? = some 47 ↔ b.head? = some 47 := by
    cases b with
    | nil => simp [hs]
    | cons c b => rfl
  unfold join
  by_cases hb : b.head? = some 47
  · rw [if_pos hb, if_pos (hhead.2 hb)]
  · rw [if_neg hb, if_neg fun h => hb (hhead.1 h)]
    split
    · rw [List.append_assoc]
    · rw [List.append_assoc, List.append_assoc, List.append_assoc]

/-- Where the files of a group are: the directory, and the part of the id that
the endings are put to. -/
def groupPlace (cwd : List Bytes) (dir q : Path) (g : CString) : List Bytes × Bytes := leaf (enter (enter cwd dir) q) g.1

theorem enter_groupFile {s : Bytes} (hs : 47 ∉ s) (hlen : 2 < s.length) (cwd : List Bytes) (dir q : Path) (g : CString) :
    enter cwd (join (join dir q) (g.1 ++ s)) = (groupPlace cwd dir q g).1 ++ [(groupPlace cwd dir q g).2 ++ s] := by
  rw [enter_join, enter_join, enter_suffix hs hlen]
  rfl

theorem enter_groupStatePath (cwd : List Bytes) (dir q : Path) (g : CString) :
    enter cwd (groupStatePath dir q g) = (groupPlace cwd dir q g).1 ++ [(groupPlace cwd dir q g).2 ++ ascii ".state"] :=
  enter_groupFile (by decide) (by decide) cwd dir q g

theorem enter_groupEventPath (cwd : List Bytes) (dir q : Path) (g : CString) :
    enter cwd (groupEventPath dir q g) = (groupPlace cwd dir q g).1 ++ [(groupPlace cwd dir q g).2 ++ ascii ".events"] :=
  enter_groupFile (by decide) (by decide) cwd dir q g

theorem enter_segmentPath (cwd : List Bytes) (dir q : Path) :
    enter cwd (segmentPath dir q) = enter (enter cwd dir) q ++ [ascii "seg-000001.log"] := by
  have h := enter_suffix (s := ascii "seg-000001.log") (by decide) (by decide) (enter (enter cwd dir) q) []
  rw [segmentPath, enter_join, enter_join]
  exact h

theorem enter_tmpPath (cwd : List Bytes) (dir q : Path) (g : CString) :
    enter cwd (tmpPath (groupStatePath dir q g)) = (groupPlace cwd dir q g).1 ++ [(groupPlace cwd dir q g).2 ++ ascii ".state.tmp"] := by
  rw [tmpPath, groupStatePath, ← join_append (by decide), List.append_assoc]
  exact enter_groupFile (by decide) (by decide) cwd dir q g

/-- The last byte of a file's name. -/
def lastByte (k : List Bytes) : Option UInt8 := k.getLast?.bind List.getLast?

theorem lastByte_concat (a : List Bytes) (x : Bytes) {s : Bytes} {c : UInt8} (hs : s.getLast? = some c) :
    lastByte (a ++ [x ++ s]) = some c := by
  rw [lastByte, List.getLast?_append]
  simp [hs]

theorem place_inj {a b : List Bytes} {x y s : Bytes} (h : a ++ [x ++ s] = b ++ [y ++ s]) : (a, x) = (b, y) := by
  obtain ⟨rfl, hlast⟩ := List.append_inj' h rfl
  rw [List.singleton_inj, List.append_cancel_right_eq] at hlast
  rw [hlast]

/-! ## Names without NUL bytes -/

theorem mem_join {c : UInt8} {a b : Path} (h : c ∈ join a b) : c ∈ a ∨ c = 47 ∨ c ∈ b := by
  unfold join at h
  split at h
  · exact .inr (.inr h)
  · split at h
    · exact (List.mem_append.1 h).imp id .inr
    · rcases List.mem_append.1 h with h | h
      · exact (List.mem_append.1 h).imp id fun hc => .inl (List.mem_singleton.1 hc)
      · exact .inr (.inr h)

/-- No name has a NUL byte. -/
structure NulFree (dir q : Path) (g : CString) : Prop where
  dir : 0 ∉ dir
  queue : 0 ∉ q
  group : 0 ∉ g.1

theorem NulFree.file {dir q : Path} {g : CString} (h : NulFree dir q g) {x : Path} (hx : 0 ∉ x) : 0 ∉ join (join dir q) x := by
  intro hmem
  rcases mem_join hmem with h0 | h0 | h0
  · rcases mem_join h0 with h0 | h0 | h0
    · exact h.dir h0
    · cases h0
    · exact h.queue h0
  · cases h0
  · exact hx h0

theorem NulFree.groupFile {dir q : Path} {g : CString} (h : NulFree dir q g) {s : Bytes} (hs : 0 ∉ s) :
    0 ∉ join (join dir q) (g.1 ++ s) :=
  h.file fun hmem => (List.mem_append.1 hmem).elim h.group hs

section nulFree

variable {dir q : Path} {g : CString}

theorem NulFree.place_events (h : NulFree dir q g) (cwd : List Bytes) :
    place cwd (groupEventPath dir q g) = (groupPlace cwd dir q g).1 ++ [(groupPlace cwd dir q g).2 ++ ascii ".events"] :=
  (place_eq (h.groupFile (by decide)) cwd).trans (enter_groupEventPath cwd dir q g)

theorem NulFree.place_state (h : NulFree dir q g) (cwd : List Bytes) :
    place cwd (groupStatePath dir q g) = (groupPlace cwd dir q g).1 ++ [(groupPlace cwd dir q g).2 ++ ascii ".state"] :=
  (place_eq (h.groupFile (by decide)) cwd).trans (enter_groupStatePath cwd dir q g)

theorem NulFree.place_tmp (h : NulFree dir q g) (cwd : List Bytes) :
    place cwd (tmpPath (groupStatePath dir q g)) = (groupPlace cwd dir q g).1 ++ [(groupPlace cwd dir q g).2 ++ ascii ".state.tmp"] := by
  refine (place_eq (fun hmem => ?_) cwd).trans (enter_tmpPath cwd dir q g)
  rcases List.mem_append.1 hmem with h0 | h0
  · exact h.groupFile (by decide) h0
  · exact absurd h0 (by decide)

theorem NulFree.place_segment (h : NulFree dir q g) (cwd : List Bytes) :
    place cwd (segmentPath dir q) = enter (enter cwd dir) q ++ [[] ++ ascii "seg-000001.log"] :=
  (place_eq (h.file (by decide)) cwd).trans (enter_segmentPath cwd dir q)

end nulFree

/-! ## The directories on the way -/

/-- What is before a slash is before one in front of the last name, or it goes into the last name. -/
theorem fronts_join {b x f : Path} (hf : f ∈ fronts (join b x)) (y : Path) (hy : y.head? ≠ some 47) :
    f = [] ∨ f ∈ fronts (join b y) ∨ ∃ f', f' ≠ [] ∧ f' ∈ fronts x ∧ f = join b f' := by
  obtain ⟨z, hz⟩ := (mem_fronts _ _).1 hf
  have hhead : ∀ {f' : Path}, f' ≠ [] → x = f' ++ 47 :: z → f'.head? = x.head? := by
    rintro f' hne rfl
    cases f' with
    | nil => exact absurd rfl hne
    | cons c f' => rfl
  -- The name goes on behind `d`, which `y` follows too.
  have hbehind : ∀ d : Path, d ++ x = f ++ 47 :: z → x.head? ≠ some 47 →
      f ∈ fronts (d ++ y) ∨ ∃ f', f' ≠ [] ∧ x = f' ++ 47 :: z ∧ f = d ++ f' := by
    intro d heq hx
    rcases List.append_eq_append_iff.1 heq with ⟨f', rfl, rfl⟩ | ⟨d', rfl, hd'⟩
    · refine .inr ⟨f', ?_, rfl, rfl⟩
      rintro rfl
      exact hx rfl
    · cases d' with
      | nil =>
        rw [List.nil_append] at hd'
        exact absurd (congrArg List.head? hd'.symm) hx
      | cons c d' =>
        injection hd' with hc
        exact .inl ((mem_fronts _ _).2 ⟨d' ++ y, by rw [← hc]; simp⟩)
  unfold join at hz ⊢
  rw [if_neg hy]
  by_cases hx : x.head? = some 47
  · rw [if_pos hx] at hz
    by_cases hnil : f = []
    · exact .inl hnil
    · refine .inr (.inr ⟨f, hnil, (mem_fronts _ _).2 ⟨z, hz⟩, ?_⟩)
      rw [if_pos ((hhead hnil hz).trans hx)]
  · rw [if_neg hx] at hz
    by_cases hb : b = [] ∨ b.getLast? = some 47
    · rw [if_pos hb] at hz ⊢
      rcases hbehind b hz hx with h | ⟨f', hne, hx', rfl⟩
      · exact .inr (.inl h)
      · refine .inr (.inr ⟨f', hne, (mem_fronts _ _).2 ⟨z, hx'⟩, ?_⟩)
        rw [if_neg (by rwa [hhead hne hx']), if_pos hb]
    · rw [if_neg hb] at hz ⊢
      rcases hbehind (b ++ ascii "/") hz hx with h | ⟨f', hne, hx', rfl⟩
      · exact .inr (.inl h)
      · refine .inr (.inr ⟨f', hne, (mem_fronts _ _).2 ⟨z, hx'⟩, ?_⟩)
        rw [if_neg (by rwa [hhead hne hx']), if_neg hb]

/-- The files of a group have the same directories on their way. -/
theorem ways_groupFile {s : Bytes} (hs : 47 ∉ s) (cwd : List Bytes) (dir q : Path) (g : CString) :
    ways cwd (join (join dir q) (g.1 ++ s)) = ways cwd (join (join dir q) g.1) := by
  have hhead : s.head? ≠ some 47 := fun h => hs (List.mem_of_mem_head? h)
  rw [join_append hhead, ways, fronts_append hs, ways]

/-! ## Names that are one part -/

/-- A name that is one part of a path. -/
def Plain (name : Bytes) : Prop := 47 ∉ name ∧ name ≠ [] ∧ name ≠ [46] ∧ name ≠ [46, 46]

instance (name : Bytes) : Decidable (Plain name) := inferInstanceAs (Decidable (_ ∧ _ ∧ _ ∧ _))

/-- Queue names that are one part and group ids without a slash never share files. -/
theorem groupPlace_injective {cwd : List Bytes} {dir q q' : Path} {g g' : CString} (hq : Plain q) (hq' : Plain q') (hg : 47 ∉ g.1)
    (hg' : 47 ∉ g'.1) (h : groupPlace cwd dir q g = groupPlace cwd dir q' g') : q = q' ∧ g = g' := by
  have hstart : ∀ (d : List Bytes) {p : Path}, 47 ∉ p → startOf d p = d := by
    intro d p hp
    refine if_neg fun hc => hp ?_
    obtain ⟨t, rfl⟩ := List.head?_eq_some_iff.1 hc
    exact List.mem_cons_self
  have henter : ∀ {p : Path}, Plain p → enter (enter cwd dir) p = enter cwd dir ++ [p] := by
    rintro p ⟨hp, h0, h1, h2⟩
    rw [enter, hstart _ hp, parts_of_no_slash hp, List.foldl_cons, List.foldl_nil, enterPart, if_neg (by simp [h0, h1]), if_neg h2]
  have hleaf : ∀ (d : List Bytes) {p : Path}, 47 ∉ p → leaf d p = (d, p) := by
    intro d p hp
    rw [leaf, hstart _ hp, parts_of_no_slash hp]
    rfl
  rw [groupPlace, groupPlace, henter hq, henter hq', hleaf _ hg, hleaf _ hg', Prod.mk.injEq] at h
  exact ⟨List.singleton_inj.1 (List.append_cancel_left h.1), Subtype.ext h.2⟩

end PomaiQueue.Engine
