import Garnet.Stash.Accessor

/-! What the iterators of `list_prefix` and `get_prefix` yield, against what the accessor sees. -/

namespace Garnet.Stash
open List

section Merge
variable {μ : Type → Type} [Monad μ] [LawfulMonad μ] {τ : Type}
variable {f : Value → μ τ} {g : Value → τ} {rs : List (Item τ)} {us : List Update}

/-- `mergeField` for a reading of values that cannot fail. -/
def overwrite (g : Value → τ) (results : List (Item τ)) (u : Update) : List (Item τ) :=
  match u.2 with
  | none => results
  | some v =>
    let merged :=
      results.map fun item => if item.key = u.1 then { item with payload := g v } else item
    if results.any (·.key = u.1) then merged else merged ++ [⟨u.1, g v⟩]

end Merge

section Chunks
variable {α : Type} {n : Nat}

end Chunks

section View
variable {K : Kernel} {a : Accessor} {m : StoreManager} {pre : Key} {τ : Type}
  {g : Value → τ} {client : ClientName} {item : Item τ} {rs : List (Item τ)} {us : List Update}

def Accessor.view (a : Accessor) (m : StoreManager) (key : Key) : Option Value :=
  (a.fieldsUpdated.lookup key).getD (m.getValue a.clientName key)

def StoreManager.under (g : Value → τ) (m : StoreManager) (client : ClientName) (pre : Key) :
    List (Item τ) :=
  (((m.store.data.lookup client).getD ∅).entries.filter fun e => pre.isPrefixOf e.1).map
    fun e => ⟨e.1, g e.2⟩

theorem fieldsUnder_eq {μ : Type → Type} [Monad μ] [LawfulMonad μ] {f : Value → μ τ}
    (hf : ∀ v, f v = pure (g v)) (client : ClientName) :
    m.fieldsUnder f client pre = pure (m.under g client pre) := by
  unfold StoreManager.fieldsUnder StoreManager.under
  split
  next hnone => simp [hnone, AList.empty_entries]
  next fields hsome => simp [hsome, hf]

theorem mem_under : item ∈ m.under g client pre ↔
    pre <+: item.key ∧ ∃ v, m.getValue client item.key = some v ∧ item.payload = g v := by
  have hlook : ∀ key v, (⟨key, v⟩ ∈ ((m.store.data.lookup client).getD ∅).entries) ↔
      m.getValue client key = some v := by
    intro key v
    rw [← AList.mem_lookup_iff, Option.mem_def, StoreManager.getValue]
    cases m.store.data.lookup client <;> simp
  obtain ⟨key, payload⟩ := item
  simp only [StoreManager.under, mem_map, mem_filter, isPrefixOf_iff_prefix, Item.mk.injEq]
  constructor
  · rintro ⟨e, ⟨he, hp⟩, rfl, rfl⟩
    exact ⟨hp, e.2, (hlook _ _).mp he, rfl⟩
  · rintro ⟨hp, v, hv, rfl⟩
    exact ⟨⟨key, v⟩, ⟨(hlook _ _).mpr hv, hp⟩, rfl, rfl⟩

def merged (g : Value → τ) (a : Accessor) (m : StoreManager) (pre : Key) : List (Item τ) :=
  a.fieldsUpdated.entries.foldl (overwrite g)
    ((m.under g a.clientName pre).filter fun item => fieldHasBeenDeleted (a.fieldsUpdated.lookup item.key))

end View

section Queries
variable {K : Kernel} {a : Accessor} {m : StoreManager} {pre : Key} {τ : Type}

/-- A drained iterator gave each key that starts with the prefix and has a value exactly once, with
`g` of the value, and nothing else. -/
def Exact (K : Kernel) (a : Accessor) (m : StoreManager) (pre : Key) (g : Value → τ)
    (items : List (Item τ)) : Prop :=
  (items.map Item.key).Nodup ∧ ∀ key x, ⟨key, x⟩ ∈ items ↔
    pre <+: key ∧ ∃ v, a.getValue K m key = .ok (some v) ∧ x = g v

def noClients : StoreManager := ⟨⟨∅⟩, none, none, []⟩

end Queries

end Garnet.Stash
