import Mathlib.Data.List.AList

/-! Maps with values of one type: association lists, and functions to `Option`. -/

namespace Garnet.Assoc
open List

variable {α β γ : Type}

/-- The map with `f` of every value. -/
def mapValues (f : β → γ) (m : AList fun _ : α => β) : AList fun _ : α => γ where
  entries := m.entries.map fun e => ⟨e.1, f e.2⟩
  nodupKeys := by
    have hkeys : (m.entries.map fun e => (⟨e.1, f e.2⟩ : Sigma fun _ : α => γ)).keys =
        m.entries.keys := by
      unfold List.keys
      rw [map_map]
      rfl
    unfold List.NodupKeys
    rw [hkeys]
    exact m.nodupKeys

variable [DecidableEq α] {m : AList fun _ : α => β} {a k : α} {y : β}

@[simp] theorem lookup_mapValues (f : β → γ) (m : AList fun _ : α => β) (a : α) :
    (mapValues f m).lookup a = (m.lookup a).map f := by
  unfold mapValues AList.lookup
  dsimp only
  induction m.entries with
  | nil => rfl
  | cons e l ih =>
    rw [map_cons]
    by_cases he : a = e.1
    · subst he
      rw [dlookup_cons_eq, dlookup_cons_eq]
      rfl
    · rw [dlookup_cons_ne l e he, ← ih]
      exact @List.dlookup_cons_ne α (fun _ => γ) _ _ _ ⟨e.1, f e.2⟩ he

theorem lookup_erase (m : AList fun _ : α => β) (a k : α) :
    (m.erase k).lookup a = if a = k then none else m.lookup a := by
  split
  next h =>
    rw [h, AList.lookup_erase]
  next h =>
    rw [AList.lookup_erase_ne h]

theorem lookup_insert (m : AList fun _ : α => β) (a k : α) (x : β) :
    (m.insert k x).lookup a = if a = k then some x else m.lookup a := by
  split
  next h =>
    rw [h, AList.lookup_insert]
  next h =>
    rw [AList.lookup_insert_ne h]

theorem lookup_insert_cases {x : β} (h : (m.insert k x).lookup a = some y) :
    (a = k ∧ y = x) ∨ (a ≠ k ∧ m.lookup a = some y) := by
  rw [lookup_insert] at h
  split at h
  next ha => exact .inl ⟨ha, (Option.some.inj h).symm⟩
  next ha => exact .inr ⟨ha, h⟩

theorem lookup_erase_cases (h : (m.erase k).lookup a = some y) : a ≠ k ∧ m.lookup a = some y := by
  rw [lookup_erase] at h
  split at h
  next => cases h
  next ha => exact ⟨ha, h⟩

end Garnet.Assoc

namespace Garnet
open Function (update)

variable {κ α : Type} {A : κ → Option α} {o : Option α} {a : α} {i j : κ}

theorem ne_of_none (hi : A i = none) (hj : A j = some a) : j ≠ i := by
  rintro rfl
  rw [hi] at hj
  cases hj

variable [DecidableEq κ]

theorem update_eq_some : update A i o j = some a ↔ j = i ∧ o = some a ∨ j ≠ i ∧ A j = some a := by
  by_cases hji : j = i
  · simp [hji]
  · simp [hji]

theorem of_update_none (hj : update A i none j = some a) : j ≠ i ∧ A j = some a :=
  (update_eq_some.mp hj).resolve_left fun h => nomatch h.2

end Garnet
