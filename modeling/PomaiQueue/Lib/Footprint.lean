import Mathlib.Data.List.Induction
import PomaiQueue.Lib.Paths
/-!
# Calls on some of the files

`Within S calls` says that the calls change files of `S` only. What they leave there
depends on what was there (`foldl_exec_congr`), and calls of several owners of
different files do the same in every order in which each owner's stay in order
(`foldl_exec_owned`).
-/

namespace Posix

open Wire

/-- The calls change files of `S` only. -/
def Within (S : Path → Prop) (calls : List Call) : Prop := ∀ c ∈ calls, ∀ p ∈ c.targets, S p

theorem Within.mono {S T : Path → Prop} {calls : List Call} (h : Within S calls) (hST : ∀ p, S p → T p) : Within T calls :=
  fun c hc p hp => hST p (h c hc p hp)

theorem Within.sublist {S : Path → Prop} {a b : List Call} (h : Within S b) (hab : a.Sublist b) : Within S a :=
  fun c hc => h c (hab.subset hc)

/-- Calls that spare every other file. -/
theorem within_of_spares {S : Path → Prop} {calls : List Call} (h : ∀ p, ¬ S p → ∀ c ∈ calls, c.Spares p) : Within S calls := by
  intro c hc p hp
  by_contra hS
  exact (c.spares_iff p).1 (h p hS c hc) hp

theorem Within.spares {S : Path → Prop} {calls : List Call} (h : Within S calls) {p : Path} (hp : ¬ S p) :
    ∀ c ∈ calls, c.Spares p :=
  fun c hc => (c.spares_iff p).2 fun hmem => hp (h c hc p hmem)

/-- Files of `S` are changed alike where they are alike. -/
theorem exec_congr {S : Path → Prop} {c : Call} (hc : ∀ p ∈ c.targets, S p) {d d' : Disk} (h : ∀ p, S p → d p = d' p) :
    ∀ p, S p → exec d c p = exec d' c p := by
  intro p hp
  cases c with
  | creat p' | trunc p' | write p' pos data | append p' data | ftruncate p' len =>
    have hp' : d p' = d' p' := h p' (hc p' List.mem_cons_self)
    simp only [exec, Function.update_apply, hp', h p hp]
  | rename src dst =>
    have hsrc : d src = d' src := h src (hc src List.mem_cons_self)
    simp only [exec, Function.update_apply, hsrc, h p hp]
  | fsync p' | fsyncDir dir => exact h p hp

theorem foldl_exec_congr {S : Path → Prop} {calls : List Call} (hc : Within S calls) {d d' : Disk} (h : ∀ p, S p → d p = d' p) :
    ∀ p, S p → calls.foldl exec d p = calls.foldl exec d' p := by
  induction calls generalizing d d' with
  | nil => exact h
  | cons c calls ih =>
    have hrest : Within S calls := fun c' hc' => hc c' (List.mem_cons_of_mem _ hc')
    exact ih hrest (exec_congr (hc c List.mem_cons_self) h)

/-! ## Several owners -/

section owners

variable {κ : Type} [DecidableEq κ]

/-- The calls of one owner. -/
def callsOf (k : κ) (made : List (κ × Call)) : List Call := (made.filter (·.1 = k)).map (·.2)

/-- An owner's files show its own calls. -/
theorem foldl_exec_owned (own : κ → Path → Prop) (hapart : ∀ k k' p, own k p → own k' p → k = k') {made : List (κ × Call)}
    (hmade : ∀ x ∈ made, ∀ p ∈ x.2.targets, own x.1 p) (d : Disk) (k : κ) {p : Path} (hp : own k p) :
    (made.map (·.2)).foldl exec d p = (callsOf k made).foldl exec d p := by
  induction made using List.reverseRecOn generalizing p with
  | nil => rfl
  | append_singleton made x ih =>
    have hprev : ∀ y ∈ made, ∀ p ∈ y.2.targets, own y.1 p := fun y hy => hmade y (List.mem_append_left _ hy)
    have hx : ∀ p ∈ x.2.targets, own x.1 p := hmade x (List.mem_append_right _ List.mem_cons_self)
    rw [List.map_append, List.map_singleton, List.foldl_append, List.foldl_cons, List.foldl_nil]
    by_cases hk : x.1 = k
    · have hcalls : callsOf k (made ++ [x]) = callsOf k made ++ [x.2] := by simp [callsOf, hk]
      rw [hcalls, List.foldl_append]
      subst hk
      exact exec_congr hx (fun p hp => ih hprev hp) p hp
    · have hcalls : callsOf k (made ++ [x]) = callsOf k made := by simp [callsOf, hk]
      have hspares : x.2.Spares p := (x.2.spares_iff p).2 fun hmem => hk (hapart _ _ p (hx p hmem) hp)
      rw [hcalls, exec_spares hspares, ih hprev hp]

end owners

end Posix
