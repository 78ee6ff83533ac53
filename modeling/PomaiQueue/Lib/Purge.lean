import Mathlib.Logic.Basic
/-!
# What an observer can tell

A machine takes actions and answers each of them. An observer sees some of the
actions, and may see another action in place of one (`see`). If what it does not see
changes nothing that it can tell about the state, and what it sees is answered
alike in states it cannot tell apart (`Unwinds`), then its answers are those of a
run of nothing but what it sees (`Unwinds.run`).
-/

namespace Purge

variable {σ α ω : Type}

/-- The state after the actions. -/
def run (step : σ → α → ω × σ) (s : σ) (acts : List α) : σ := acts.foldl (fun s a => (step s a).2) s

@[simp] theorem run_cons (step : σ → α → ω × σ) (s : σ) (a : α) (acts : List α) :
    run step s (a :: acts) = run step (step s a).2 acts := rfl

theorem run_append (step : σ → α → ω × σ) (s : σ) (a b : List α) : run step s (a ++ b) = run step (run step s a) b :=
  List.foldl_append

/-- The answers to the actions that are seen. -/
def answers (step : σ → α → ω × σ) (see : α → Option α) : σ → List α → List ω
  | _, [] => []
  | s, a :: acts => ((see a).map fun _ => (step s a).1).toList ++ answers step see (step s a).2 acts

theorem answers_append (step : σ → α → ω × σ) (see : α → Option α) (s : σ) (a b : List α) :
    answers step see s (a ++ b) = answers step see s a ++ answers step see (run step s a) b := by
  induction a generalizing s with
  | nil => rfl
  | cons x a ih => simp only [List.cons_append, answers, ih, run_cons, List.append_assoc]

/-- `R` relates the states that look alike, for actions that are `ok`. -/
structure Unwinds (step : σ → α → ω × σ) (see : α → Option α) (ok : α → Prop) (R : σ → σ → Prop) : Prop where
  hidden : ∀ {s t a}, ok a → see a = none → R s t → R (step s a).2 t
  shown : ∀ {s t a b}, ok a → see a = some b → R s t → (step s a).1 = (step t b).1 ∧ R (step s a).2 (step t b).2

/-- The observer gets the answers of the run without the actions that it does not see. -/
theorem Unwinds.run {step : σ → α → ω × σ} {see : α → Option α} {ok : α → Prop} {R : σ → σ → Prop}
    (h : Unwinds step see ok R) {s t : σ} (hR : R s t) {acts : List α} (hok : ∀ a ∈ acts, ok a) :
    answers step see s acts = answers step some t (acts.filterMap see) ∧
      R (Purge.run step s acts) (Purge.run step t (acts.filterMap see)) := by
  induction acts generalizing s t with
  | nil => exact ⟨rfl, hR⟩
  | cons a acts ih =>
    have ha := hok a List.mem_cons_self
    have hacts : ∀ x ∈ acts, ok x := fun x hx => hok x (List.mem_cons_of_mem _ hx)
    cases hsee : see a with
    | none =>
      rw [List.filterMap_cons_none hsee, answers, hsee]
      exact ih (h.hidden ha hsee hR) hacts
    | some b =>
      obtain ⟨hans, hnext⟩ := h.shown ha hsee hR
      obtain ⟨hrest, hfinal⟩ := ih hnext hacts
      rw [List.filterMap_cons_some hsee, answers, answers, hsee, Option.map_some, Option.map_some, hans, hrest]
      exact ⟨rfl, hfinal⟩

end Purge
