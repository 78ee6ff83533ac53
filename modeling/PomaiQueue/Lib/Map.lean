import Mathlib.Data.List.AList
import Mathlib.Data.List.Induction
import Mathlib.Tactic.Tauto
/-!
# Maps

What a program with `std::unordered_map` does to a map beyond `insert` and
`erase`: changing values in place, which keeps the keys, and iterating over it
in an order that is not specified.
-/

namespace Assoc

variable {α β : Type}

/-- A map from `α` to `β`. -/
abbrev Map (α β : Type) := AList fun _ : α => β

/-- Some order in which to iterate over a collection. -/
structure IterOrder (γ : Type) where
  order : List γ → List γ
  perm : ∀ l, (order l).Perm l

instance (γ : Type) : Inhabited (IterOrder γ) := ⟨⟨id, fun _ => .refl _⟩⟩

theorem IterOrder.mem {γ : Type} (o : IterOrder γ) (l : List γ) (x : γ) : x ∈ o.order l ↔ x ∈ l := (o.perm l).mem_iff

/-! ## Changing values in place -/

theorem keys_mapValues (f : α → β → β) (l : List (Sigma fun _ : α => β)) :
    (l.map fun e => (⟨e.1, f e.1 e.2⟩ : Sigma fun _ : α => β)).keys = l.keys := by
  simp [List.keys, Function.comp_def]

/-- Every value changed by `f`. -/
def mapValues (f : α → β → β) (m : Map α β) : Map α β :=
  ⟨m.entries.map fun e => ⟨e.1, f e.1 e.2⟩, by
    rw [List.NodupKeys, keys_mapValues]
    exact m.nodupKeys⟩

@[simp] theorem mapValues_keys (f : α → β → β) (m : Map α β) : (mapValues f m).keys = m.keys := keys_mapValues f _

variable [DecidableEq α]

@[simp] theorem lookup_mapValues (f : α → β → β) (m : Map α β) (k : α) :
    (mapValues f m).lookup k = (m.lookup k).map (f k) := by
  obtain ⟨l, hl⟩ := m
  simp only [mapValues, AList.lookup]
  clear hl
  induction l with
  | nil => rfl
  | cons e l ih =>
    obtain ⟨k', v⟩ := e
    by_cases h : k = k'
    · subst h; simp
    · have h' : k ≠ (⟨k', v⟩ : Sigma fun _ : α => β).1 := h
      have h'' : k ≠ (⟨k', f k' v⟩ : Sigma fun _ : α => β).1 := h
      rw [List.map_cons, List.dlookup_cons_ne _ _ h'', ih, List.dlookup_cons_ne _ _ h']

/-- The value at `k` changed by `f`, if there is one. -/
def adjust (k : α) (f : β → β) (m : Map α β) : Map α β := mapValues (fun k' v => if k' = k then f v else v) m

@[simp] theorem adjust_keys (k : α) (f : β → β) (m : Map α β) : (adjust k f m).keys = m.keys := mapValues_keys _ _

theorem lookup_adjust (k k' : α) (f : β → β) (m : Map α β) :
    (adjust k f m).lookup k' = if k' = k then (m.lookup k').map f else m.lookup k' := by
  rw [adjust, lookup_mapValues]
  split <;> simp

/-- Maps with the same keys in the same order and the same values are equal. -/
theorem ext_of_keys {m m' : Map α β} (hk : m.keys = m'.keys) (h : ∀ k, m.lookup k = m'.lookup k) : m = m' := by
  obtain ⟨l, nd⟩ := m
  obtain ⟨l', nd'⟩ := m'
  simp only [AList.keys, AList.lookup, AList.mk.injEq] at hk h ⊢
  induction l generalizing l' with
  | nil => simpa [List.keys] using hk.symm
  | cons e l ih =>
    obtain ⟨k, v⟩ := e
    cases l' with
    | nil => simp [List.keys] at hk
    | cons e' l' =>
      obtain ⟨k', v'⟩ := e'
      simp only [List.keys_cons, List.cons.injEq] at hk
      obtain ⟨rfl, hk⟩ := hk
      have hv : v = v' := by simpa using h k
      subst hv
      rw [List.nodupKeys_cons] at nd nd'
      refine congrArg _ (ih nd.2 l' nd'.2 hk fun x => ?_)
      by_cases hx : x = k
      · subst hx
        rw [List.dlookup_eq_none.2 nd.1, List.dlookup_eq_none.2 nd'.1]
      · have hx' : x ≠ (⟨k, v⟩ : Sigma fun _ : α => β).1 := hx
        have := h x
        rwa [List.dlookup_cons_ne _ _ hx', List.dlookup_cons_ne _ _ hx'] at this

theorem mem_keys_iff (m : Map α β) (k : α) : k ∈ m.keys ↔ ∃ v, m.lookup k = some v := by
  rw [← AList.mem_keys, ← AList.lookup_isSome, Option.isSome_iff_exists]

theorem mem_entries_iff (m : Map α β) (k : α) (v : β) : ⟨k, v⟩ ∈ m.entries ↔ m.lookup k = some v := by
  rw [← AList.mem_lookup_iff, Option.mem_def]

theorem perm_entries_of_lookup {m m' : Map α β} (h : ∀ k, m.lookup k = m'.lookup k) : m.entries.Perm m'.entries := by
  apply (List.perm_ext_iff_of_nodup m.nodupKeys.nodup m'.nodupKeys.nodup).2
  rintro ⟨k, v⟩
  rw [mem_entries_iff, mem_entries_iff, h k]

/-! ## Filling a map -/

section fill

variable {γ : Type} {key : γ → α} {val : γ → β}

/-- An entry for every element of a list, a later one in place of an earlier one. -/
def fill (key : γ → α) (val : γ → β) (l : List γ) (m : Map α β) : Map α β := l.foldl (fun m x => m.insert (key x) (val x)) m

theorem mem_fill (l : List γ) (m : Map α β) (k : α) : k ∈ (fill key val l m).keys ↔ k ∈ m.keys ∨ ∃ x ∈ l, key x = k := by
  induction l generalizing m with
  | nil => simp [fill]
  | cons x l ih =>
    have hcons : fill key val (x :: l) m = fill key val l (m.insert (key x) (val x)) := rfl
    rw [hcons, ih, ← AList.mem_keys, AList.mem_insert, AList.mem_keys]
    simp only [List.mem_cons, exists_eq_or_imp, eq_comm (a := k)]
    tauto

/-- Every entry is some element's. -/
theorem lookup_fill {l : List γ} {k : α} {v : β} (h : (fill key val l ∅).lookup k = some v) : ∃ x ∈ l, key x = k ∧ v = val x := by
  induction l using List.reverseRecOn with
  | nil => simp [fill] at h
  | append_singleton l x ih =>
    have hlast : fill key val (l ++ [x]) ∅ = (fill key val l ∅).insert (key x) (val x) := by simp [fill]
    rw [hlast] at h
    by_cases hk : k = key x
    · subst hk
      rw [AList.lookup_insert, Option.some.injEq] at h
      exact ⟨x, by simp, rfl, h.symm⟩
    · rw [AList.lookup_insert_ne hk] at h
      obtain ⟨y, hy, hr⟩ := ih h
      exact ⟨y, List.mem_append_left _ hy, hr⟩

theorem lookup_fill_of_mem (key : γ → α) (val : γ → β) {l : List γ}
    (hkey : ∀ x ∈ l, ∀ y ∈ l, key x = key y → val x = val y) {x : γ} (hx : x ∈ l) :
    (fill key val l ∅).lookup (key x) = some (val x) := by
  obtain ⟨v, hv⟩ := (mem_keys_iff _ _).1 ((mem_fill l ∅ (key x)).2 (.inr ⟨x, hx, rfl⟩))
  obtain ⟨y, hy, hyx, rfl⟩ := lookup_fill hv
  rw [hv, hkey y hy x hx hyx]

/-- Elements with different keys give the same entries in every order. -/
theorem lookup_fill_congr (key : γ → α) (val : γ → β) {l l' : List γ} (hmem : ∀ x, x ∈ l ↔ x ∈ l')
    (hkey : ∀ x ∈ l, ∀ y ∈ l, key x = key y → val x = val y) (k : α) :
    (fill key val l ∅).lookup k = (fill key val l' ∅).lookup k := by
  have hkey' : ∀ x ∈ l', ∀ y ∈ l', key x = key y → val x = val y :=
    fun x hx y hy => hkey x ((hmem x).2 hx) y ((hmem y).2 hy)
  by_cases hk : ∃ x ∈ l, key x = k
  · obtain ⟨x, hx, rfl⟩ := hk
    rw [lookup_fill_of_mem key val hkey hx, lookup_fill_of_mem key val hkey' ((hmem x).1 hx)]
  · have hnone : ∀ l₁ : List γ, (∀ x ∈ l₁, x ∈ l) → (fill key val l₁ ∅).lookup k = none := by
      intro l₁ hsub
      cases hl : (fill key val l₁ ∅).lookup k with
      | none => rfl
      | some v =>
        obtain ⟨x, hx, hxk, -⟩ := lookup_fill hl
        exact absurd ⟨x, hsub x hx, hxk⟩ hk
    rw [hnone l fun _ h => h, hnone l' fun x h => (hmem x).2 h]

end fill

end Assoc
