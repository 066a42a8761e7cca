import Garnet.Stash.Accessor

/-! What `commit` leaves in memory when some of the saves that it makes fail. -/

namespace Garnet.Stash
open List
open Accessor (commit commitUpdates revert store)
open StoreManager (getValue modifyFields saveStore)

abbrev Memory := ClientName → Key → Option Value

def putAll (client : ClientName) (us : List Update) (g : Memory) : Memory := fun c k =>
  if c = client then (us.dlookup k).getD (g c k) else g c k

/-- The first of the next `n` saves that fails. -/
def faultAt (saves : List (Option SaveFault)) (n : Nat) : Option Nat :=
  (saves.take n).findIdx? Option.isSome

section Memory
variable {client : ClientName} {us : List Update} {u : Update} {g : Memory}

theorem putAll_nil : putAll client [] g = g := by
  funext c k
  simp [putAll]

theorem putAll_cons (hu : u.1 ∉ us.keys) :
    putAll client us (putAll client [u] g) = putAll client (u :: us) g := by
  funext c k
  by_cases hc : c = client
  · by_cases hk : k = u.1
    · obtain ⟨key, o⟩ := u
      subst hk
      simp [putAll, hc, dlookup_eq_none.mpr hu]
    · simp [putAll, hc, dlookup_cons_ne _ u hk]
  · simp [putAll, hc]

theorem putAll_of_notMem {k : Key} (hk : k ∉ us.keys) (c : ClientName) :
    putAll client us g c k = g c k := by
  simp [putAll, dlookup_eq_none.mpr hk]

theorem putAll_of_mem (hus : us.NodupKeys) (hu : u ∈ us) : putAll client us g client u.1 = u.2 := by
  have hlook : us.dlookup u.1 = some u.2 := mem_dlookup hus hu
  simp [putAll, hlook]

theorem putAll_of_ne {c : ClientName} (hc : c ≠ client) (k : Key) : putAll client us g c k =
    g c k := if_neg hc

end Memory

section Saves
variable {saves : List (Option SaveFault)} {n : Nat}

theorem faultAt_succ : faultAt saves (n + 1) =
    if saves.head?.join.isSome then some 0 else (faultAt saves.tail n).map (· + 1) := by
  rcases saves with _ | ⟨_ | f, saves⟩
  · simp [faultAt]
  · simp [faultAt, List.findIdx?_cons]
  · simp [faultAt, List.findIdx?_cons]

theorem faultAt_later (h : saves.head?.join = none) :
    faultAt saves (n + 1) = (faultAt saves.tail n).map (· + 1) := by
  rw [faultAt_succ, h]
  rfl

theorem faultAt_now {f : SaveFault} (h : saves.head?.join = some f) :
    faultAt saves (n + 1) = some 0 := by
  rw [faultAt_succ, h]
  rfl

end Saves

section Steps
variable {K : Kernel} {client : ClientName} {m : StoreManager} {key : Key} {us : List Update}

theorem saveStore_cases (m : StoreManager) : ∃ m',
    ((m.saves.head?.join = none ∧ saveStore m = .ok () m') ∨
      ∃ f, m.saves.head?.join = some f ∧ saveStore m = .error (.error f.message) m') ∧
    m'.store = m.store ∧ m'.saves = m.saves.tail := by
  unfold saveStore
  rcases m.saves.head?.join with _ | ⟨_ | _ | _ | _, msg⟩
  · exact ⟨_, .inl ⟨rfl, rfl⟩, rfl, rfl⟩
  all_goals exact ⟨_, .inr ⟨_, rfl, rfl⟩, rfl, rfl⟩

theorem getValue_modifyFields {f : HashMap Key Value → HashMap Key Value} {o : Option Value}
    (hf : ∀ fields k, (f fields).lookup k = if k = key then o else fields.lookup k) :
    (m.modifyFields client f).getValue = putAll client [⟨key, o⟩] m.getValue := by
  funext c k
  by_cases hc : c = client
  · subst hc
    have hlook : (m.modifyFields c f).getValue c k =
        (f ((m.store.data.lookup c).getD ∅)).lookup k := by
      simp [getValue, modifyFields]
    have hold : m.getValue c k = ((m.store.data.lookup c).getD ∅).lookup k := by
      unfold getValue
      cases m.store.data.lookup c <;> simp
    rw [hlook, hf, ← hold]
    by_cases hk : k = key
    · subst hk
      simp [putAll]
    · simp [putAll, hk, dlookup_cons_ne [] (⟨key, o⟩ : Update) hk]
  · simp [putAll, hc, getValue, modifyFields, AList.lookup_insert_ne hc]

def updateFields (u : Update) (fields : HashMap Key Value) : HashMap Key Value :=
  match u.2 with
  | some v => fields.insert u.1 v
  | none => fields.erase u.1

theorem store_eq_save (hK : K.Clones) (client : ClientName) (u : Update) (m : StoreManager) :
    store K client u.1 u.2 m = saveStore (m.modifyFields client (updateFields u)) := by
  obtain ⟨key, _ | v⟩ := u
  · rfl
  · simp only [store, hK.cloneValue]
    rfl

theorem lookup_updateFields (u : Update) (fields : HashMap Key Value) (k : Key) :
    (updateFields u fields).lookup k = if k = u.1 then u.2 else fields.lookup k := by
  obtain ⟨key, _ | v⟩ := u
  · change (fields.erase key).lookup k = _
    split
    next hk => rw [hk, AList.lookup_erase]
    next hk => exact AList.lookup_erase_ne hk
  · change (fields.insert key v).lookup k = _
    split
    next hk => rw [hk, AList.lookup_insert]
    next hk => exact AList.lookup_insert_ne hk

theorem mapM_cloneValue (hK : K.Clones) (o : Option Value) : o.mapM (cloneValue K) = .ok o := by
  cases o with
  | none => rfl
  | some v =>
    simp only [Option.mapM_some, hK.cloneValue]
    rfl

theorem store_cases (hK : K.Clones) (m : StoreManager) (client : ClientName) (u : Update) :
    ∃ m', m'.getValue = putAll client [u] m.getValue ∧ m'.saves = m.saves.tail ∧
      ((m.saves.head?.join = none ∧ store K client u.1 u.2 m = .ok () m') ∨
        ∃ f e, m.saves.head?.join = some f ∧ store K client u.1 u.2 m = .error e m') := by
  obtain ⟨m', hcases, hstore, hsaves⟩ := saveStore_cases (m.modifyFields client (updateFields u))
  refine ⟨m', Eq.trans ?_ (getValue_modifyFields (lookup_updateFields u)), hsaves, ?_⟩
  · funext c k
    rw [getValue, getValue, hstore]
  · rw [store_eq_save hK]
    exact hcases.imp id fun ⟨f, hsome, herr⟩ => ⟨f, _, hsome, herr⟩

def record (client : ClientName) (g : Memory) (us : List Update)
    (olds : HashMap Key (Option Value)) : HashMap Key (Option Value) :=
  us.foldl (fun h u => h.insert u.1 (g client u.1)) olds

theorem record_congr {g g' : Memory} (hg : ∀ k ∈ us.keys, g client k = g' client k)
    (olds : HashMap Key (Option Value)) : record client g us olds = record client g' us olds := by
  induction us generalizing olds with
  | nil => rfl
  | cons u us ih =>
    simp only [record, foldl_cons, hg u.1 (mem_keys_of_mem mem_cons_self)]
    exact ih (fun k hk => hg k (mem_cons_of_mem _ hk)) _

theorem lookup_record {g : Memory} (olds : HashMap Key (Option Value)) (k : Key) :
    (record client g us olds).lookup k =
    if k ∈ us.keys then some (g client k) else olds.lookup k := by
  induction us generalizing olds with
  | nil => simp [record]
  | cons u us ih =>
    rw [record, foldl_cons]
    refine (ih _).trans ?_
    by_cases hk : k ∈ us.keys
    · simp [hk]
    · by_cases hu : k = u.1
      · subst hu
        simp [hk]
      · simp [hk, hu, AList.lookup_insert_ne hu]

theorem revert_cases (client : ClientName) (hK : K.Clones) (hus : us.NodupKeys) (m : StoreManager) :
    (∃ m', faultAt m.saves us.length = none ∧ revert K client us m = .ok () m' ∧
      m'.getValue = putAll client us m.getValue) ∨
    ∃ j e m', faultAt m.saves us.length = some j ∧ revert K client us m = .error e m' ∧
      m'.getValue = putAll client (us.take (j + 1)) m.getValue := by
  induction us generalizing m with
  | nil => exact .inl ⟨m, rfl, rfl, putAll_nil.symm⟩
  | cons u us ih =>
    obtain ⟨hu, hus⟩ := nodupKeys_cons.mp hus
    obtain ⟨m1, hget1, hsaves1, ⟨hnone, hrun⟩ | ⟨f, e, hsome, hrun⟩⟩ := store_cases hK m client u
    · have hrest : revert K client (u :: us) m = revert K client us m1 := bind_ok hrun _
      rw [hrest, length_cons, faultAt_later hnone, ← hsaves1]
      rcases ih hus m1 with ⟨m', hn, hr, hg⟩ | ⟨j, e, m', hs, hr, hg⟩
      · exact .inl ⟨m', by rw [hn]; rfl, hr, by rw [hg, hget1, putAll_cons hu]⟩
      · refine .inr ⟨j + 1, e, m', by rw [hs]; rfl, hr, ?_⟩
        have hu' : u.1 ∉ (us.take (j + 1)).keys :=
          fun h => hu ((take_sublist (j + 1) us).map Sigma.fst |>.subset h)
        rw [hg, hget1, putAll_cons hu', take_succ_cons]
    · refine .inr ⟨0, e, m1, faultAt_now hsome, bind_error hrun _, ?_⟩
      rw [hget1, take_succ_cons, take_zero]

/-- The updates are made up to the first one whose save fails, that one included, and their old
values are recorded. -/
theorem commitUpdates_cases (client : ClientName) (hK : K.Clones) (hus : us.NodupKeys)
    (m : StoreManager) (olds : HashMap Key (Option Value)) :
    (∃ s, faultAt m.saves us.length = none ∧ commitUpdates K client us (m, olds) = .ok () s) ∨
    ∃ i e m', faultAt m.saves us.length = some i ∧ commitUpdates K client us (m, olds) =
        .error e (m', record client m.getValue (us.take (i + 1)) olds) ∧
      m'.getValue = putAll client (us.take (i + 1)) m.getValue ∧
        m'.saves = m.saves.drop (i + 1) := by
  induction us generalizing m olds with
  | nil => exact .inl ⟨_, rfl, rfl⟩
  | cons u us ih =>
    obtain ⟨hu, hus⟩ := nodupKeys_cons.mp hus
    obtain ⟨m1, hget1, hsaves1, ⟨hnone, hrun⟩ | ⟨f, e, hsome, hrun⟩⟩ := store_cases hK m client u
    · simp only [commitUpdates, mapM_cloneValue hK, hrun, length_cons, faultAt_later hnone, ← hsaves1]
      rcases ih hus m1 (olds.insert u.1 (m.getValue client u.1)) with
          ⟨s, hn, hr⟩ | ⟨i, e, m', hs, hr, hg, hd⟩
      · exact .inl ⟨s, by rw [hn]; rfl, hr⟩
      · have hu' : u.1 ∉ (us.take (i + 1)).keys :=
          fun h => hu ((take_sublist (i + 1) us).map Sigma.fst |>.subset h)
        -- the keys that come later still have their first values
        have hsame : ∀ k ∈ (us.take (i + 1)).keys, m1.getValue client k = m.getValue client k := by
          intro k hk
          rw [hget1]
          refine putAll_of_notMem (fun hin => hu' ?_) client
          rwa [← mem_singleton.mp hin]
        refine .inr ⟨i + 1, e, m', by rw [hs]; rfl, ?_, ?_, ?_⟩
        · rw [hr, record_congr hsame, take_succ_cons]
          rfl
        · rw [hg, hget1, putAll_cons hu', take_succ_cons]
        · rw [hd, hsaves1, drop_tail]
    · refine .inr ⟨0, e, m1, faultAt_now hsome, ?_, ?_, ?_⟩
      · simp only [commitUpdates, mapM_cloneValue hK, hrun]
        rfl
      · rw [hget1, take_succ_cons, take_zero]
      · rw [hsaves1, drop_one]

end Steps

section Commit
variable {K : Kernel} {m : StoreManager} {a : Accessor}
variable {order : HashMap Key (Option Value) → List Update}

/-- The old values recorded when the update with index `i` fails, in the order of the revert. -/
def reverted (order : HashMap Key (Option Value) → List Update) (m : StoreManager) (a : Accessor)
    (i : Nat) : List Update :=
  order (record a.clientName m.getValue (a.fieldsUpdated.entries.take (i + 1)) ∅)

/-- When an update fails, and a save of the revert fails too, then the keys that the revert has not
reached are ones whose update was to the value they had. -/
def RevertCovers (order : HashMap Key (Option Value) → List Update) (m : StoreManager)
    (a : Accessor) : Prop :=
  a.readOnly = false → ∀ i j, faultAt m.saves a.fieldsUpdated.entries.length = some i →
    faultAt (m.saves.drop (i + 1)) (reverted order m a i).length = some j →
    ∀ u ∈ (reverted order m a i).drop (j + 1),
      a.fieldsUpdated.lookup u.1 = some (m.getValue a.clientName u.1)

section
variable (horder : ∀ h, (order h).Perm h.entries)
include horder

theorem reverted_nodup (i : Nat) : (reverted order m a i).NodupKeys :=
  (perm_nodupKeys (horder _)).mpr (AList.nodupKeys _)

theorem mem_reverted {i : Nat} {u : Update} : u ∈ reverted order m a i ↔
      u.1 ∈ (a.fieldsUpdated.entries.take (i + 1)).keys ∧ u.2 = m.getValue a.clientName u.1 := by
  obtain ⟨key, o⟩ := u
  rw [reverted, (horder _).mem_iff, ← AList.mem_lookup_iff, Option.mem_def, lookup_record]
  split
  next hk => simp [hk, eq_comm]
  next hk => simp [hk]

theorem partly_reverted {i : Nat} {rs qs : List Update} (hrs : rs ++ qs = reverted order m a i) :
    (∀ c k, putAll a.clientName rs (putAll a.clientName (a.fieldsUpdated.entries.take (i + 1)) m.getValue) c k =
      m.getValue c k) ↔
    ∀ u ∈ qs, a.fieldsUpdated.lookup u.1 = some (m.getValue a.clientName u.1) := by
  have hnodup : (rs ++ qs).NodupKeys := hrs ▸ reverted_nodup horder i
  have hmem : ∀ u, u ∈ rs ∨ u ∈ qs ↔ u.1 ∈ (a.fieldsUpdated.entries.take (i + 1)).keys ∧
      u.2 = m.getValue a.clientName u.1 :=
    fun u => mem_append.symm.trans (hrs ▸ mem_reverted horder)
  have htake : (a.fieldsUpdated.entries.take (i + 1)).NodupKeys :=
    List.NodupKeys.sublist (take_sublist ..) a.fieldsUpdated.nodupKeys
  have hlook : ∀ {k o}, ⟨k, o⟩ ∈ a.fieldsUpdated.entries.take (i + 1) →
      a.fieldsUpdated.lookup k = some o :=
    fun h => AList.mem_lookup_iff.mpr (mem_of_mem_take h)
  constructor
  · intro hall u hu
    have hnot : u.1 ∉ rs.keys := by
      intro hin
      have hdis := (nodup_append.mp (map_append ▸ hnodup : (rs.keys ++ qs.keys).Nodup)).2.2
      exact hdis _ hin _ (mem_keys_of_mem hu) rfl
    obtain ⟨o, ho⟩ := mem_keys.mp ((hmem u).mp (.inr hu)).1
    have hput := (hall a.clientName u.1).symm.trans (putAll_of_notMem hnot a.clientName)
    rw [hput, putAll_of_mem htake ho]
    exact hlook ho
  · intro hall c k
    by_cases hc : c = a.clientName
    swap
    · rw [putAll_of_ne hc, putAll_of_ne hc]
    subst hc
    by_cases hk : k ∈ rs.keys
    · obtain ⟨o, ho⟩ := mem_keys.mp hk
      have hrs' := List.NodupKeys.sublist (sublist_append_left rs qs) hnodup
      rw [putAll_of_mem hrs' ho]
      exact ((hmem ⟨k, o⟩).mp (.inl ho)).2
    · rw [putAll_of_notMem hk]
      by_cases hu : k ∈ (a.fieldsUpdated.entries.take (i + 1)).keys
      · obtain ⟨o, ho⟩ := mem_keys.mp hu
        have hq : ⟨k, m.getValue a.clientName k⟩ ∈ qs :=
          ((hmem ⟨k, m.getValue a.clientName k⟩).mpr ⟨hu, rfl⟩).resolve_left
            fun h => hk (mem_keys_of_mem h)
        rw [putAll_of_mem htake ho]
        exact Option.some.inj ((hlook ho).symm.trans (hall _ hq))
      · exact putAll_of_notMem hu _

end

/-- A failed commit leaves memory as it was exactly when its revert gets far enough. -/
theorem commit_atomic_iff (hK : K.Clones) (horder : ∀ h, (order h).Perm h.entries) :
    (∀ e s, Accessor.commit K order (m, a) = .error e s →
      ∀ c k, s.1.getValue c k = m.getValue c k) ↔
      RevertCovers order m a := by
  by_cases hro : a.readOnly = true
  · simp only [commit, hro, if_true, RevertCovers, Bool.true_eq_false, false_implies, iff_true]
    rintro e s ⟨⟩ c k
    rfl
  have hro' : a.readOnly = false := Bool.eq_false_iff.mpr hro
  rcases commitUpdates_cases a.clientName hK a.fieldsUpdated.nodupKeys m ∅ with
    ⟨s, hnone, hrun⟩ | ⟨i, e, m1, hsome, hrun, hget, hsaves⟩
  · simp only [commit, hro', hrun, RevertCovers, hnone]
    simp
  · have hfails : ∀ {e s}, commit K order (m, a) = .error e s →
        ((∀ e s, commit K order (m, a) = .error e s → ∀ c k, s.1.getValue c k = m.getValue c k) ↔
          ∀ c k, s.1.getValue c k = m.getValue c k) := by
      intro e s hs
      refine ⟨fun h => h e s hs, fun h e' s' hs' => ?_⟩
      cases hs.symm.trans hs'
      exact h
    rcases revert_cases a.clientName hK (reverted_nodup (m := m) (a := a) horder i) m1 with
      ⟨m2, hnone, hr, hg⟩ | ⟨j, e', m2, hfault, hr, hg⟩
    · have hc : commit K order (m, a) = .error e (m2, { a with fieldsUpdated := ∅ }) := by
        rw [reverted] at hr
        simp only [commit, hro', hrun, hr]
        rfl
      rw [hfails hc, hg, hget, partly_reverted horder (append_nil _)]
      simp only [not_mem_nil, false_implies, implies_true, true_iff]
      intro _ i' j hi hj
      obtain rfl : i = i' := Option.some.inj (hsome.symm.trans hi)
      rw [← hsaves, hnone] at hj
      cases hj
    · have hc : commit K order (m, a) = .error e' (m2, { a with fieldsUpdated := ∅ }) := by
        rw [reverted] at hr
        simp only [commit, hro', hrun, hr]
        rfl
      rw [hfails hc, hg, hget, partly_reverted horder (take_append_drop ..)]
      refine ⟨fun h _ i' j' hi hj => ?_, fun h => h hro' i j hsome (hsaves ▸ hfault)⟩
      obtain rfl : i = i' := Option.some.inj (hsome.symm.trans hi)
      obtain rfl : j = j' := Option.some.inj (hfault.symm.trans (hsaves ▸ hj))
      exact h

/-- Two pending sets, the second of which cannot be saved, and saves of the revert that go as
given. -/
def setsTwo : Accessor :=
  ⟨[], true, false,
    AList.insert [97] (some (.boolval true)) (AList.singleton [98] (some (.boolval true)))⟩

def failing (saves : List (Option SaveFault)) : StoreManager :=
  ⟨⟨∅⟩, none, none, none :: some ⟨.rename, "io"⟩ :: saves⟩

theorem commit_atomic_revert_ok : ∃ e s,
    Accessor.commit .copying AList.entries (failing [], setsTwo) = .error e s ∧
    ∀ c k, s.1.getValue c k = (failing []).getValue c k := by
  refine ⟨_, _, rfl, (@commit_atomic_iff .copying _ setsTwo AList.entries
    Kernel.copying_clones (fun _ => .refl _)).mpr ?_ _ _ rfl⟩
  intro _ i j hi hj
  obtain rfl : 1 = i := Option.some.inj ((by rfl : faultAt _ _ = some 1).symm.trans hi)
  cases hj

/-- When the first save of the revert fails, the other key keeps its new value. -/
theorem commit_half_reverted : ∃ e s,
    Accessor.commit .copying AList.entries (failing [some ⟨.rename, "io"⟩], setsTwo) = .error e s ∧
    s.1.getValue [] [97] = some (.boolval true) ∧
    (failing [some ⟨.rename, "io"⟩]).getValue [] [97] = none :=
  ⟨_, _, rfl, rfl, rfl⟩

end Commit

end Garnet.Stash
