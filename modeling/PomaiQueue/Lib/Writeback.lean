import PomaiQueue.Lib.PowerLoss
/-!
# Losing power while a file is written

`Steady` is for files that are replaced. `Leaves P m p` is for a file that is written in
place: after a loss there is no file at `p`, or one whose content satisfies `P`. Every write
can be lost, or the end of it, until the file is synced. A sync leaves only what
was written then (`Leaves.fsync`), and it is the only way to promise more than before.
-/

namespace Posix

open Wire

/-- The last change is lost, or a part of it is not. -/
theorem left_concat {content left : Bytes} {changes : List Change} {x : Change} (h : Left content (changes ++ [x]) left) :
    Left content changes left ∨ left = x.apply (changes.foldl Change.apply content) ∨
      ∃ pos data n, x = .put pos data ∧ left = overwrite (changes.foldl Change.apply content) pos (data.take n) := by
  induction changes generalizing content with
  | nil =>
    cases h with
    | nothing => exact .inl (.nothing _ _)
    | part _ pos data n _ => exact .inr (.inr ⟨pos, data, n, rfl, rfl⟩)
    | next _ _ _ _ hnil => exact .inr (.inl hnil.synced)
  | cons y changes ih =>
    cases h with
    | nothing => exact .inl (.nothing _ _)
    | part => exact .inl (.part _ _ _ _ _)
    | next _ _ _ _ hrest =>
      rcases ih hrest with hleft | hlast
      · exact .inl (.next _ _ _ _ hleft)
      · exact .inr hlast

namespace Media

/-- After a loss there is no file at `p`, or one whose content satisfies `P`. -/
structure Leaves (P : Bytes → Prop) (m : Media) (p : Path) : Prop where
  names : ∀ i, some i ∈ m.names p → m.cur p = some i
  content : ∀ i, m.cur p = some i → ∀ c, Left (m.files i).synced (m.files i).since c → P c

section leaves

variable {P : Bytes → Prop} {m : Media} {p : Path}

theorem Leaves.lost (h : m.Leaves P p) {d : Disk} (hd : m.Lost d) : d p = none ∨ ∃ c, d p = some c ∧ P c := by
  obtain ⟨t, ht, hleft⟩ := hd p
  cases t with
  | none => exact .inl hleft
  | some i =>
    obtain ⟨c, hc, hl⟩ := hleft
    exact .inr ⟨c, hc, h.content i (h.names i ht) c hl⟩

theorem Leaves.mono (h : m.Leaves P p) {P' : Bytes → Prop} (hP : ∀ c, P c → P' c) : m.Leaves P' p :=
  ⟨h.names, fun i hi c hc => hP c (h.content i hi c hc)⟩

/-- The names of `p` and the files behind them are as they were. -/
theorem Leaves.frame (h : m.Leaves P p) {m' : Media} (hnames : ∀ i, some i ∈ m'.names p → some i ∈ m.names p)
    (hcur : m'.cur p = m.cur p) (hfiles : ∀ i, m.cur p = some i → m'.files i = m.files i) : m'.Leaves P p := by
  refine ⟨fun i hi => hcur.trans (h.names i (hnames i hi)), fun i hi c hc => ?_⟩
  rw [hcur] at hi
  rw [hfiles i hi] at hc
  exact h.content i hi c hc

theorem Leaves.touch_other (h : m.Leaves P p) (hok : m.Ok) {p' : Path} (hne : p ≠ p') : (m.touch p').Leaves P p := by
  cases hc : m.cur p' with
  | some i => rwa [touch_some hc]
  | none =>
    refine h.frame (fun i hi => ?_) ?_ fun i hi => ?_
    · rw [touch_none hc] at hi
      simpa [Function.update_of_ne hne] using hi
    · rw [cur_touch, if_neg hne]
    · have hi : i ≠ .new m.next := by
        rintro rfl
        exact hok.cur_fresh p hi
      rw [touch_none hc]
      exact Function.update_of_ne hi _ _

theorem Leaves.alter_other (h : m.Leaves P p) (hok : m.Ok) {p' : Path} (hne : p ≠ p') (change : File → File) :
    (m.alter p' change).Leaves P p := by
  refine h.frame (fun i hi => by rwa [names_alter] at hi) (cur_alter _ _ _ _) fun i hi => ?_
  unfold alter
  split
  · rfl
  · rename_i j hj
    have hij : i ≠ j := by
      rintro rfl
      exact hne (hok.alone p p' i hi hj)
    exact Function.update_of_ne hij _ _

/-- The file is changed. -/
theorem Leaves.altered (h : m.Leaves P p) (change : File → File) {P' : Bytes → Prop}
    (hP : ∀ i, m.cur p = some i → ∀ c, Left (change (m.files i)).synced (change (m.files i)).since c → P' c) :
    (m.alter p change).Leaves P' p := by
  refine ⟨fun i hi => ?_, fun i hi c hc => ?_⟩
  · rw [names_alter] at hi
    rw [cur_alter]
    exact h.names i hi
  · rw [cur_alter] at hi
    refine hP i hi c ?_
    unfold alter at hc
    rw [hi] at hc
    simpa using hc

theorem now_of_cur {i : Ino} (hi : m.cur p = some i) : (m.files i).now = (m.disk p).getD [] := by
  rw [disk, hi]
  rfl

/-- A sync leaves what was written. -/
theorem Leaves.fsync (h : m.Leaves P p) (parent : Path → Path) {P' : Bytes → Prop} (hP : P' ((m.disk p).getD [])) :
    (m.step parent (.fsync p)).Leaves P' p := by
  refine h.altered File.sync fun i hi c hc => ?_
  rw [← now_of_cur hi] at hP
  rw [Left.synced hc]
  exact hP

/-- The file is created, or is there already. -/
theorem Leaves.creat (h : m.Leaves P p) (parent : Path → Path) (hP : m.disk p = none → P []) :
    (m.step parent (.creat p)).Leaves P p := by
  change (m.touch p).Leaves P p
  cases hc : m.cur p with
  | some i => rwa [touch_some hc]
  | none =>
    have hcur : (m.touch p).cur p = some (.new m.next) := by rw [cur_touch, if_pos rfl, hc, Option.getD_none]
    refine ⟨fun i hi => ?_, fun i hi c hleft => ?_⟩
    · rw [hcur]
      rw [touch_none hc] at hi
      simp only [Function.update_self, List.mem_append, List.mem_singleton] at hi
      rcases hi with hi | hi
      · rw [h.names i hi] at hc
        cases hc
      · exact hi.symm
    · rw [hcur] at hi
      obtain rfl := Option.some.inj hi
      rw [touch_none hc] at hleft
      simp only [Function.update_self] at hleft
      rw [hleft.synced]
      apply hP
      rw [disk, hc]
      rfl

/-- A change is added to those that can be lost. -/
theorem Leaves.add (h : m.Leaves P p) {x : Change} (hall : P (x.apply ((m.disk p).getD [])))
    (hpart : ∀ pos data, x = .put pos data → ∀ n, P (overwrite ((m.disk p).getD []) pos (data.take n))) :
    (m.alter p (.add x)).Leaves P p := by
  refine h.altered (File.add x) fun i hi c hc => ?_
  rw [← now_of_cur hi] at hall hpart
  rcases left_concat hc with hc | rfl | ⟨pos, data, n, hx, rfl⟩
  · exact h.content i hi c hc
  · exact hall
  · exact hpart pos data hx n

/-- Some of the bytes are written. -/
theorem Leaves.write (h : m.Leaves P p) (parent : Path → Path) {content : Bytes} (hc : m.disk p = some content) {pos : Nat}
    {data : Bytes} (hP : ∀ n, P (overwrite content pos (data.take n))) : (m.step parent (.write p pos data)).Leaves P p := by
  change ((m.touch p).alter p (.add (.put pos data))).Leaves P p
  obtain ⟨i, hi, -⟩ := Option.map_eq_some_iff.1 hc
  rw [touch_some hi]
  refine h.add ?_ fun pos' data' heq n => ?_
  · have hall := hP data.length
    rw [List.take_length] at hall
    rw [hc]
    exact hall
  · injection heq with hpos hdata
    subst hpos hdata
    rw [hc]
    exact hP n

theorem Leaves.ftruncate (h : m.Leaves P p) (parent : Path → Path) {len : Nat} (hP : P (((m.disk p).getD []).take len)) :
    (m.step parent (.ftruncate p len)).Leaves P p := by
  change (m.alter p (.add (.cut len))).Leaves P p
  exact h.add hP fun pos data heq => by cases heq

/-- Calls that do not change the file. -/
theorem Leaves.step (h : m.Leaves P p) (hok : m.Ok) (parent : Path → Path) {c : Call} (hc : c.Spares p) :
    (m.step parent c).Leaves P p := by
  cases c with
  | creat p' => exact h.touch_other hok hc
  | trunc p' => exact (h.touch_other hok hc).alter_other (hok.touch p') hc _
  | write p' pos data => exact (h.touch_other hok hc).alter_other (hok.touch p') hc _
  | append p' data => exact (h.touch_other hok hc).alter_other (hok.touch p') hc _
  | ftruncate p' len => exact h.alter_other hok hc _
  | fsync p' =>
    by_cases hp : p = p'
    · subst hp
      refine h.altered File.sync fun i hi c hc => ?_
      rw [Left.synced hc]
      exact h.content i hi _ (left_all _ _)
    · exact h.alter_other hok hp _
  | rename src dst =>
    refine h.frame (fun i hi => ?_) ?_ fun i hi => rfl
    · rcases mem_link hi with hi | ⟨hp, -⟩
      · rcases mem_link hi with hi | ⟨hp, -⟩
        · exact hi
        · exact absurd hp hc.2
      · exact absurd hp hc.1
    · rw [cur_rename, if_neg hc.1, if_neg hc.2]
  | fsyncDir dir =>
    refine h.frame (fun i hi => ?_) (cur_fsyncDir parent m dir p) fun i hi => rfl
    change some i ∈ (if parent p = dir then [m.cur p] else m.names p) at hi
    split at hi
    · rw [List.mem_singleton.1 hi]
      exact hok.cur_mem p
    · exact hi

theorem Leaves.run (h : m.Leaves P p) (hok : m.Ok) {parent : Path → Path} {calls : List Call} (hc : ∀ c ∈ calls, c.Spares p) :
    (m.run parent calls).Leaves P p := by
  induction calls generalizing m with
  | nil => exact h
  | cons c calls ih =>
    exact ih (h.step hok parent (hc c List.mem_cons_self)) (hok.step parent c) fun c' hc' => hc c' (List.mem_cons_of_mem _ hc')

/-- Chunks are written one after the other, from the end of the file on. -/
theorem Leaves.writeCalls (h : m.Leaves P p) (hok : m.Ok) {parent : Path → Path} {content : Bytes} (hc : m.disk p = some content)
    {chunks : List Bytes} (hP : ∀ t, t <+: chunks.flatten → P (content ++ t)) :
    (m.run parent (writeCalls p content.length chunks)).Leaves P p := by
  induction chunks generalizing m content with
  | nil => exact h
  | cons c chunks ih =>
    have hfirst : (m.step parent (.write p content.length c)).Leaves P p := by
      refine h.write parent hc fun n => ?_
      rw [overwrite_end]
      exact hP _ ((List.take_prefix n c).trans (List.prefix_append c chunks.flatten))
    have hdisk : (m.step parent (.write p content.length c)).disk p = some (content ++ c) := by
      rw [disk_step hok, exec, Function.update_self, hc, Option.getD_some, overwrite_end]
    have hrest := ih hfirst (hok.step parent _) hdisk fun t ht => by
      rw [List.append_assoc]
      exact hP _ ((List.prefix_append_right_inj c).2 ht)
    rw [List.length_append] at hrest
    exact hrest

end leaves

end Media

end Posix
