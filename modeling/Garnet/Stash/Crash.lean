import Garnet.Stash.Commit
import Garnet.Stash.Load

/-! What a process that stops in the middle of a commit leaves on disk. A save opens a temporary
file, writes it byte by byte and renames it over the backing file; the process may stop between
any two of these operations. -/

namespace Garnet.Stash
open List
open StoreManager (getValue saveStore)

structure Files where
  backing : Option (List UInt8)
  temp : Option (List UInt8)

inductive FileOp where
  | openTemp
  | writeTemp (b : UInt8)
  | rename

def FileOp.apply (f : Files) : FileOp → Files
  | .openTemp => { f with temp := some [] }
  | .writeTemp b => { f with temp := f.temp.map (· ++ [b]) }
  | .rename => ⟨f.temp, none⟩

def runOps (ops : List FileOp) (f : Files) : Files := ops.foldl FileOp.apply f

variable (m : StoreManager)

def StoreManager.files : Files := ⟨m.backingFile, m.tempFile⟩

def fillTemp (bytes : List UInt8) : List FileOp := .openTemp :: bytes.map .writeTemp

/-- The file operations of one `save_store`. -/
def saveOps : List FileOp :=
  match m.saves.head?.join with
  | none => fillTemp m.store.serialize ++ [.rename]
  | some ⟨.read, _⟩ => []
  | some ⟨.openTemp, _⟩ => []
  | some ⟨.write n, _⟩ => fillTemp (m.store.serialize.take n)
  | some ⟨.rename, _⟩ => fillTemp m.store.serialize

def storeOps (client : ClientName) (u : Update) (m : StoreManager) : List FileOp :=
  saveOps (m.modifyFields client (updateFields u))

def storesOps (K : Kernel) (client : ClientName) : List Update → StoreManager → List FileOp
  | [], _ => []
  | u :: us, m => storeOps client u m ++
    match Accessor.store K client u.1 u.2 m with
    | .ok () m' => storesOps K client us m'
    | .error _ _ => []

/-- The file operations of `commit`. -/
def commitOps (K : Kernel) (order : HashMap Key (Option Value) → List Update) (m : StoreManager)
    (a : Accessor) : List FileOp :=
  if a.readOnly then []
  else
    storesOps K a.clientName a.fieldsUpdated.entries m ++
      match Accessor.commitUpdates K a.clientName a.fieldsUpdated.entries (m, ∅) with
      | .ok () _ => []
      | .error _ (m', olds) => storesOps K a.clientName (order olds) m'

section Ops

theorem runOps_append (ops ops' : List FileOp) (f : Files) :
    runOps (ops ++ ops') f = runOps ops' (runOps ops f) :=
  foldl_append

theorem runOps_writes (bytes done : List UInt8) (backing : Option (List UInt8)) :
    runOps (bytes.map FileOp.writeTemp) ⟨backing, some done⟩ = ⟨backing, some (done ++ bytes)⟩ := by
  induction bytes generalizing done with
  | nil => simp [runOps]
  | cons b bytes ih =>
    refine (ih (done ++ [b])).trans ?_
    rw [append_assoc]
    rfl

theorem runOps_fillTemp (bytes : List UInt8) (f : Files) :
    runOps (fillTemp bytes) f = ⟨f.backing, some bytes⟩ :=
  runOps_writes bytes [] f.backing

theorem saveStore_files : ∃ m', (saveStore m = .ok () m' ∨
    ∃ e, saveStore m = .error e m') ∧ m'.files = runOps (saveOps m) m.files ∧
      m'.store = m.store := by
  unfold saveStore saveOps
  rcases m.saves.head?.join with _ | ⟨_ | _ | n | _, msg⟩
  · refine ⟨_, .inl rfl, ?_, rfl⟩
    rw [runOps_append, runOps_fillTemp]
    rfl
  · exact ⟨_, .inr ⟨_, rfl⟩, rfl, rfl⟩
  · exact ⟨_, .inr ⟨_, rfl⟩, rfl, rfl⟩
  all_goals
    refine ⟨_, .inr ⟨_, rfl⟩, ?_, rfl⟩
    rw [runOps_fillTemp]
    rfl

end Ops

section Stops
variable {I : Store → Prop} {f : Files} {ops ops' : List FileOp}

/-- The backing file holds a store with `I`. -/
def Holds (I : Store → Prop) (f : Files) : Prop := ∃ s, I s ∧ f.backing = some s.serialize

def AlwaysHolds (I : Store → Prop) (f : Files) (ops : List FileOp) : Prop :=
  ∀ n, Holds I (runOps (ops.take n) f)

theorem AlwaysHolds.nil (h : Holds I f) : AlwaysHolds I f [] := by
  intro n
  rw [take_nil]
  exact h

theorem AlwaysHolds.append (h : AlwaysHolds I f ops) (h' : AlwaysHolds I (runOps ops f) ops') :
    AlwaysHolds I f (ops ++ ops') := by
  intro n
  rw [take_append]
  rcases le_total n ops.length with hle | hge
  · rw [Nat.sub_eq_zero_of_le hle, take_zero, append_nil]
    exact h n
  · rw [take_of_length_le hge, runOps_append]
    exact h' _

theorem AlwaysHolds.last (h : AlwaysHolds I f ops) : Holds I (runOps ops f) := by
  have hlast := h ops.length
  rwa [take_length] at hlast

theorem AlwaysHolds.fillTemp (h : Holds I f) (bytes : List UInt8) :
    AlwaysHolds I f (fillTemp bytes) := by
  intro n
  cases n with
  | zero => exact h
  | succ n =>
    have htake : (Stash.fillTemp bytes).take (n + 1) = Stash.fillTemp (bytes.take n) := by
      rw [Stash.fillTemp, Stash.fillTemp, take_succ_cons, map_take]
    rw [htake, runOps_fillTemp]
    exact h

theorem AlwaysHolds.save {m : StoreManager} (h : Holds I m.files) (hm : I m.store) :
    AlwaysHolds I m.files (saveOps m) := by
  unfold saveOps
  rcases m.saves.head?.join with _ | ⟨_ | _ | n | _, msg⟩
  · apply (AlwaysHolds.fillTemp h _).append
    rw [runOps_fillTemp]
    intro n
    cases n with
    | zero => exact h
    | succ n =>
      rw [take_of_length_le (by rw [length_singleton]; omega)]
      exact ⟨m.store, hm, rfl⟩
  · exact AlwaysHolds.nil h
  · exact AlwaysHolds.nil h
  · exact AlwaysHolds.fillTemp h _
  · exact AlwaysHolds.fillTemp h _

end Stops

/-- A store in the middle of a commit: each key has its old or its new value. -/
structure Between (m₀ : StoreManager) (a : Accessor) (s : Store) : Prop where
  names : ∀ c ∈ s.data.keys, c ∈ m₀.store.data.keys ∨ c = a.clientName
  mixed : ∀ c k, s.getValue c k = m₀.getValue c k ∨
    s.getValue c k = putAll a.clientName a.fieldsUpdated.entries m₀.getValue c k

/-- The update gives its key the old or the new value. -/
def OldOrNew (m₀ : StoreManager) (a : Accessor) (u : Update) : Prop :=
  u.2 = m₀.getValue a.clientName u.1 ∨
    u.2 = putAll a.clientName a.fieldsUpdated.entries m₀.getValue a.clientName u.1

theorem StoreManager.getValue_eq : m.getValue = m.store.getValue := by
  funext c k
  unfold getValue Store.getValue
  cases m.store.data.lookup c <;> rfl

section Commit
variable {K : Kernel} {m₀ m : StoreManager} {a : Accessor}
  {order : HashMap Key (Option Value) → List Update}

theorem Between.start : Between m₀ a m₀.store :=
  ⟨fun c hc => .inl hc, fun c k => .inl (by rw [StoreManager.getValue_eq])⟩

theorem Between.update (h : Between m₀ a m.store) {u : Update} (hu : OldOrNew m₀ a u) :
    Between m₀ a (m.modifyFields a.clientName (updateFields u)).store := by
  have hget : (m.modifyFields a.clientName (updateFields u)).getValue =
      putAll a.clientName [u] m.getValue :=
    getValue_modifyFields (lookup_updateFields u)
  refine ⟨?_, ?_⟩
  · intro c hc
    have hkeys : c = a.clientName ∨ c ∈ m.store.data :=
      (AList.mem_insert _).mp (AList.mem_keys.mpr hc)
    rcases hkeys with rfl | hc
    · exact .inr rfl
    · exact h.names c (AList.mem_keys.mp hc)
  · intro c k
    have hold := h.mixed c k
    rw [← StoreManager.getValue_eq] at hold ⊢
    rw [hget]
    by_cases hc : c = a.clientName
    · by_cases hk : k = u.1
      · subst hc hk
        have hput : putAll a.clientName [u] m.getValue a.clientName u.1 = u.2 :=
          putAll_of_mem (nodupKeys_singleton u) (mem_singleton_self u)
        rw [hput]
        exact hu
      · have hput : putAll a.clientName [u] m.getValue c k = m.getValue c k :=
          putAll_of_notMem (fun hin => hk (mem_singleton.mp hin)) c
        rw [hput]
        exact hold
    · rw [putAll_of_ne hc]
      exact hold

section
variable (hK : K.Clones)
include hK

theorem store_end (client : ClientName) (u : Update) (m : StoreManager) :
    ∃ m', (Accessor.store K client u.1 u.2 m = .ok () m' ∨
      ∃ e, Accessor.store K client u.1 u.2 m = .error e m') ∧
      m'.files = runOps (storeOps client u m) m.files ∧
        m'.store = (m.modifyFields client (updateFields u)).store := by
  rw [store_eq_save hK]
  exact saveStore_files _

theorem store_ok (client : ClientName) (u : Update) (hsaves : m.saves = []) :
    ∃ m', Accessor.store K client u.1 u.2 m = .ok () m' ∧ m'.saves = [] ∧
      m'.backingFile = some m'.store.serialize ∧ m'.getValue = putAll client [u] m.getValue ∧
      m'.store = (m.modifyFields client (updateFields u)).store ∧
        m'.files = runOps (storeOps client u m) m.files := by
  have hsaved : saveStore (m.modifyFields client (updateFields u)) =
      .ok () { m.modifyFields client (updateFields u) with
        saves := m.saves.tail, backingFile := some (m.modifyFields client (updateFields u)).store.serialize,
        tempFile := none } := by
    simp only [saveStore, StoreManager.modifyFields, hsaves]
    rfl
  obtain ⟨m', hend, hfiles, hstore⟩ := store_end hK client u m
  rw [store_eq_save hK, hsaved] at hend ⊢
  rcases hend with hend | ⟨_, hend⟩ <;> cases hend
  refine ⟨_, rfl, ?_, rfl, ?_, hstore, hfiles⟩
  · rw [hsaves]
    rfl
  · exact getValue_modifyFields (lookup_updateFields u)

section
variable {us : List Update} (hus : ∀ u ∈ us, OldOrNew m₀ a u) (hm : Between m₀ a m.store)
include hus hm

theorem storesOps_between (hf : Holds (Between m₀ a) m.files) :
    AlwaysHolds (Between m₀ a) m.files (storesOps K a.clientName us m) := by
  induction us generalizing m with
  | nil => exact AlwaysHolds.nil hf
  | cons u us ih =>
    have hnext := hm.update (hus u mem_cons_self)
    have hsave : AlwaysHolds (Between m₀ a) m.files (storeOps a.clientName u m) :=
      AlwaysHolds.save hf hnext
    obtain ⟨m', hok | ⟨e, herr⟩, hfiles, hstore⟩ := store_end hK a.clientName u m
    · rw [storesOps, hok]
      apply hsave.append
      have hlast := hsave.last
      rw [← hfiles] at hlast ⊢
      exact ih (fun v hv => hus v (mem_cons_of_mem _ hv)) (hstore ▸ hnext) hlast
    · rw [storesOps, herr, append_nil]
      exact hsave

theorem commitUpdates_end {olds olds' : HashMap Key (Option Value)} {m' : StoreManager}
    (hrun : Accessor.commitUpdates K a.clientName us (m, olds) = .ok () (m', olds') ∨
      ∃ e, Accessor.commitUpdates K a.clientName us (m, olds) = .error e (m', olds')) :
    Between m₀ a m'.store ∧ m'.files = runOps (storesOps K a.clientName us m) m.files := by
  induction us generalizing m olds with
  | nil =>
    rcases hrun with hrun | ⟨_, hrun⟩ <;> cases hrun
    exact ⟨hm, rfl⟩
  | cons u us ih =>
    have hnext := hm.update (hus u mem_cons_self)
    obtain ⟨m₁, hok | ⟨e', herr⟩, hfiles, hstore⟩ := store_end hK a.clientName u m
    · simp only [Accessor.commitUpdates, mapM_cloneValue hK, hok] at hrun
      obtain ⟨hbetween, hrest⟩ := ih (fun v hv => hus v (mem_cons_of_mem _ hv)) (hstore ▸ hnext) hrun
      refine ⟨hbetween, ?_⟩
      rw [hrest, hfiles, ← runOps_append, storesOps, hok]
    · simp only [Accessor.commitUpdates, mapM_cloneValue hK, herr] at hrun
      rcases hrun with hrun | ⟨_, hrun⟩ <;> cases hrun
      refine ⟨hstore ▸ hnext, ?_⟩
      rw [hfiles, storesOps, herr, append_nil]

end

end

theorem new_values : ∀ u ∈ a.fieldsUpdated.entries, OldOrNew m a u :=
  fun _ hu => .inr (putAll_of_mem a.fieldsUpdated.nodupKeys hu).symm

theorem commitOps_between (hK : K.Clones) (horder : ∀ h, (order h).Perm h.entries)
    (hf : m.backingFile = some m.store.serialize) :
    AlwaysHolds (Between m a) m.files (commitOps K order m a) := by
  have hstart : Holds (Between m a) m.files := ⟨m.store, Between.start, hf⟩
  unfold commitOps
  split
  next => exact AlwaysHolds.nil hstart
  next =>
    have hloop := storesOps_between hK new_values Between.start hstart
    split
    next =>
      rw [append_nil]
      exact hloop
    next e m' olds hrun =>
      obtain ⟨hbetween, hfiles⟩ := commitUpdates_end hK new_values Between.start (.inr ⟨e, hrun⟩)
      have hlast := hloop.last
      apply hloop.append
      rw [← hfiles] at hlast ⊢
      apply storesOps_between hK _ hbetween hlast
      -- the recorded values are the old ones
      intro u hu
      left
      rcases commitUpdates_cases a.clientName hK a.fieldsUpdated.nodupKeys m ∅ with
        ⟨s, _, hok⟩ | ⟨i, e', m'', _, herr, _, _⟩
      · exact nomatch hok.symm.trans hrun
      · obtain ⟨_, hstate⟩ := EStateM.Result.error.inj (herr.symm.trans hrun)
        obtain ⟨_, holds⟩ := Prod.mk.inj hstate
        subst holds
        exact ((mem_reverted (a := a) (m := m) horder (i := i)).mp hu).2

end Commit

/-- Stores, keys and values that a process can hold, with room for the pending updates. -/
structure CommitFits (a : Accessor) : Prop where
  store : m.store.Storable
  client : Text a.clientName
  updates : ∀ u ∈ a.fieldsUpdated.entries, Text u.1 ∧ ∀ v, u.2 = some v → v.Storable
  room : ∀ c ∈ m.store.data.entries, c.2.entries.length + a.fieldsUpdated.entries.length < 2 ^ 64
  count : a.fieldsUpdated.entries.length < 2 ^ 64

section Load
variable {m : StoreManager} {a : Accessor}

theorem Between.field {s : Store} (h : Between m a s) {c : Σ _ : ClientName, HashMap Key Value}
    (hc : c ∈ s.data.entries) {e : Σ _ : Key, Value} (he : e ∈ c.2.entries) :
    (∃ fields, m.store.data.lookup c.1 = some fields ∧ e ∈ fields.entries) ∨
    ⟨e.1, some e.2⟩ ∈ a.fieldsUpdated.entries := by
  have hget : s.getValue c.1 e.1 = some e.2 := by
    rw [Store.getValue, AList.mem_lookup_iff.mpr hc]
    exact AList.mem_lookup_iff.mpr he
  have hold (hv : m.getValue c.1 e.1 = some e.2) :
      ∃ fields, m.store.data.lookup c.1 = some fields ∧ e ∈ fields.entries := by
    rw [StoreManager.getValue_eq] at hv
    obtain ⟨fields, hfields, hlook⟩ := Option.bind_eq_some_iff.mp hv
    exact ⟨fields, hfields, AList.mem_lookup_iff.mp hlook⟩
  rcases h.mixed c.1 e.1 with hv | hv
  · exact .inl (hold (hv.symm.trans hget))
  · rw [hget] at hv
    unfold putAll at hv
    split at hv
    next =>
      cases hlook : a.fieldsUpdated.entries.dlookup e.1 with
      | none =>
        rw [hlook] at hv
        exact .inl (hold hv.symm)
      | some o =>
        rw [hlook] at hv
        obtain rfl : some e.2 = o := hv
        exact .inr (of_mem_dlookup hlook)
    next => exact .inl (hold hv.symm)

theorem Between.storable {s : Store} (h : Between m a s) (hfits : CommitFits m a) : s.Storable := by
  intro c hc
  have hold {fields : HashMap Key Value} (hf : m.store.data.lookup c.1 = some fields) :
      (⟨c.1, fields⟩ : Σ _ : ClientName, HashMap Key Value) ∈ m.store.data.entries :=
        AList.mem_lookup_iff.mp hf
  refine ⟨?_, ?_, ?_⟩
  · rcases h.names c.1 (mem_keys_of_mem hc) with hname | hname
    · obtain ⟨fields, hfields⟩ := mem_keys.mp hname
      exact (hfits.store _ hfields).1
    · rw [hname]
      exact hfits.client
  · -- the keys are among the old ones and the updated ones
    have hsub : c.2.keys ⊆ ((m.store.data.lookup c.1).getD ∅).keys ++
        a.fieldsUpdated.entries.keys := by
      intro k hk
      obtain ⟨v, hv⟩ := mem_keys.mp hk
      rcases h.field hc hv with ⟨fields, hf, he⟩ | he
      · rw [hf]
        exact mem_append_left _ (mem_keys_of_mem he)
      · exact mem_append_right _ (mem_keys_of_mem he)
    have hle := (subperm_of_subset c.2.keys_nodup hsub).length_le
    simp only [length_append, AList.keys, List.keys, length_map] at hle
    cases hlook : m.store.data.lookup c.1 with
    | none =>
      rw [hlook] at hle
      have hcount := hfits.count
      change c.2.entries.length ≤ 0 + _ at hle
      omega
    | some fields =>
      rw [hlook] at hle
      have hroom := hfits.room _ (hold hlook)
      change c.2.entries.length ≤ fields.entries.length + _ at hle
      change fields.entries.length + _ < _ at hroom
      omega
  · intro e he
    rcases h.field hc he with ⟨fields, hf, hmem⟩ | hmem
    · exact (hfits.store _ (hold hf)).2.entries e hmem
    · obtain ⟨hkey, hval⟩ := hfits.updates _ hmem
      exact ⟨hkey, hval e.2 rfl⟩

end Load

def Changes (a : Accessor) (u : Update) : Prop :=
  u.2.map reload ≠ (m.getValue a.clientName u.1).map reload

/-- Wherever the process stops, whatever saves fail before, the store that is loaded next is the
one before the commit or the one with all the updates. -/
def AtomicOnDisk (K : Kernel) (order : HashMap Key (Option Value) → List Update) (m : StoreManager)
    (a : Accessor) : Prop :=
  ∀ saves n, ∃ s, Store.load (runOps ((commitOps K order { m with saves } a).take n)
    m.files).backing = .ok s ∧
    ((∀ c k, s.getValue c k = (m.getValue c k).map reload) ∨
      ∀ c k, s.getValue c k = (putAll a.clientName a.fieldsUpdated.entries m.getValue c k).map reload)

section Atomic
variable {K : Kernel} {m : StoreManager} {a : Accessor}
  {order : HashMap Key (Option Value) → List Update}

theorem Between.ends {s : Store} (h : Between m a s)
    (hone : ∀ u ∈ a.fieldsUpdated.entries, ∀ v ∈ a.fieldsUpdated.entries, Changes m a u →
      Changes m a v → u = v) :
    (∀ c k, (s.getValue c k).map reload = (m.getValue c k).map reload) ∨
      ∀ c k, (s.getValue c k).map reload =
        (putAll a.clientName a.fieldsUpdated.entries m.getValue c k).map reload := by
  -- away from a key that is changed, the old and the new value are the same after a reload
  have hsame (c : ClientName) (k : Key) (hnot : ∀ u ∈ a.fieldsUpdated.entries, c = a.clientName →
    u.1 = k → ¬ Changes m a u) :
      (putAll a.clientName a.fieldsUpdated.entries m.getValue c k).map reload =
        (m.getValue c k).map reload := by
    by_cases hc : c = a.clientName
    · subst hc
      by_cases hk : k ∈ a.fieldsUpdated.entries.keys
      · obtain ⟨o, ho⟩ := mem_keys.mp hk
        rw [putAll_of_mem a.fieldsUpdated.nodupKeys ho]
        exact not_not.mp (hnot _ ho rfl rfl)
      · rw [putAll_of_notMem hk]
    · rw [putAll_of_ne hc]
  have hmixed (c : ClientName) (k : Key) : (s.getValue c k).map reload = (m.getValue c k).map reload ∨
      (s.getValue c k).map reload =
        (putAll a.clientName a.fieldsUpdated.entries m.getValue c k).map reload :=
    (h.mixed c k).imp (congrArg _) (congrArg _)
  by_cases hold : (∀ c k, (s.getValue c k).map reload = (m.getValue c k).map reload)
  · exact .inl hold
  · obtain ⟨c₀, k₀, hne⟩ : ∃ c k, (s.getValue c k).map reload ≠ (m.getValue c k).map reload := by
      simpa only [not_forall] using hold
    right
    intro c k
    rcases hmixed c k with hv | hv
    · rw [hv]
      refine (hsame c k ?_).symm
      rintro u hu rfl rfl hu'
      -- the key where the store is not the old one is changed too, so it is this one
      apply hne
      rw [(hmixed c₀ k₀).resolve_left hne]
      apply hsame
      rintro v hv' rfl rfl hv''
      obtain rfl := hone u hu v hv' hu' hv''
      exact hne hv
    · exact hv

theorem storesOps_split (hK : K.Clones) {client : ClientName} {us : List Update}
    (hus : us.NodupKeys) (hsaves : m.saves = []) (hf : m.backingFile = some m.store.serialize)
    (us' : List Update) {I : Store → Prop}
    (hI : ∀ (m : StoreManager), ∀ u ∈ us, I m.store →
      I (m.modifyFields client (updateFields u)).store)
    (hm : I m.store) :
    ∃ ops m', storesOps K client (us ++ us') m = ops ++ storesOps K client us' m' ∧
      m'.files = runOps ops m.files ∧ m'.backingFile = some m'.store.serialize ∧
      m'.getValue = putAll client us m.getValue ∧ I m'.store := by
  induction us generalizing m with
  | nil => exact ⟨[], m, rfl, rfl, hf, putAll_nil.symm, hm⟩
  | cons u us ih =>
    obtain ⟨hu, hus⟩ := nodupKeys_cons.mp hus
    obtain ⟨m₁, hok, hsaves₁, hback₁, hget, hstore, hfiles⟩ := store_ok hK client u hsaves
    obtain ⟨ops, m', hops, hfiles', hback, hget', hI'⟩ := ih (m := m₁) hus hsaves₁ hback₁
      (fun m v hv => hI m v (mem_cons_of_mem _ hv)) (hstore ▸ hI m u mem_cons_self hm)
    refine ⟨storeOps client u m ++ ops, m', ?_, ?_, hback, ?_, hI'⟩
    · rw [cons_append, storesOps, hok]
      simp only [hops, append_assoc]
    · rw [hfiles', hfiles, runOps_append]
    · rw [hget', hget, putAll_cons hu]

/-- A commit that stops right after an update that changes its key, with another one to come,
leaves a store that is neither the old one nor the new one. -/
theorem AtomicOnDisk.same (hK : K.Clones) (hf : m.backingFile = some m.store.serialize)
    (hfits : CommitFits m a) (hro : a.readOnly = false) (h : AtomicOnDisk K order m a)
    {us vs : List Update} {u v : Update} (hentries : a.fieldsUpdated.entries = us ++ u :: vs)
    (hv : v ∈ vs) (hu' : Changes m a u) (hv' : Changes m a v) : False := by
  have hnodup := a.fieldsUpdated.nodupKeys
  have hmem : v ∈ a.fieldsUpdated.entries := by
    rw [hentries]
    exact mem_append_right _ (mem_cons_of_mem _ hv)
  have hsplit : a.fieldsUpdated.entries = (us ++ [u]) ++ vs := by rw [hentries, append_assoc]; rfl
  have hdone : (us ++ [u]).NodupKeys := by
    rw [hsplit] at hnodup
    exact hnodup.sublist (sublist_append_left _ _)
  have hmem' : ∀ w ∈ us ++ [u], w ∈ a.fieldsUpdated.entries := by
    intro w hw
    rw [hsplit]
    exact mem_append_left _ hw
  obtain ⟨ops, m', hops, hfiles, hback, hget, hbetween⟩ :=
    @storesOps_split K { m with saves := [] } hK a.clientName _ hdone
    rfl hf vs (Between m a) (fun m' w hw h' => h'.update (new_values w (hmem' w hw))) Between.start
  have hget : m'.getValue = putAll a.clientName (us ++ [u]) m.getValue := hget
  have hfiles : m'.files = runOps ops m.files := hfiles
  have htake : (commitOps K order { m with saves := [] } a).take ops.length = ops := by
    rw [commitOps, hro, hsplit, hops, append_assoc]
    exact take_left
  obtain ⟨s, hload, hs⟩ := h [] ops.length
  rw [htake, ← hfiles] at hload
  obtain ⟨s', hload', hvalues⟩ := Store.load_serialize (hbetween.storable hfits)
  have hback' : m'.files.backing = some m'.store.serialize := hback
  rw [hback', hload'] at hload
  obtain rfl := Except.ok.inj hload
  have hat (k : Key) : s'.getValue a.clientName k =
      (putAll a.clientName (us ++ [u]) m.getValue a.clientName k).map reload := by
    rw [hvalues, ← hget, StoreManager.getValue_eq]
  have hnotin : v.1 ∉ (us ++ [u]).keys := by
    rw [hsplit] at hnodup
    intro hin
    have hdis := (nodup_append.mp (map_append ▸ hnodup : ((us ++ [u]).keys ++ vs.keys).Nodup)).2.2
    exact hdis _ hin _ (mem_keys_of_mem hv) rfl
  rcases hs with hs | hs
  · apply hu'
    rw [← hs, hat, putAll_of_mem hdone (mem_append_right _ (mem_singleton_self u))]
  · apply hv'
    have hnew := hs a.clientName v.1
    rw [hat, putAll_of_notMem hnotin, putAll_of_mem a.fieldsUpdated.nodupKeys hmem] at hnew
    exact hnew.symm

/-- A commit is atomic on disk exactly when it changes the value of one key at most. -/
theorem commit_atomic_on_disk_iff (hK : K.Clones) (horder : ∀ h, (order h).Perm h.entries)
    (hf : m.backingFile = some m.store.serialize) (hfits : CommitFits m a) :
    AtomicOnDisk K order m a ↔ a.readOnly = true ∨
      ∀ u ∈ a.fieldsUpdated.entries, ∀ v ∈ a.fieldsUpdated.entries, Changes m a u → Changes m a v →
        u = v := by
  constructor
  · intro h
    rcases hro : a.readOnly with _ | _
    swap
    · exact .inl rfl
    right
    intro u hu v hv hu' hv'
    by_contra hne
    obtain ⟨us, vs, hentries⟩ := append_of_mem hu
    have hv₀ := hv
    rw [hentries, mem_append, mem_cons] at hv₀
    rcases hv₀ with hin | rfl | hin
    · -- the other one comes first
      obtain ⟨us', vs', hus⟩ := append_of_mem hin
      have hfirst : a.fieldsUpdated.entries = us' ++ v :: (vs' ++ u :: vs) := by
        rw [hentries, hus, append_assoc]
        rfl
      exact AtomicOnDisk.same hK hf hfits hro h hfirst (mem_append_right _ mem_cons_self) hv' hu'
    · exact hne rfl
    · exact AtomicOnDisk.same hK hf hfits hro h hentries hin hu' hv'
  · intro h saves n
    rcases h with hro | hone
    · obtain ⟨s, hload, hvalues⟩ := Store.load_serialize hfits.store
      refine ⟨s, ?_, .inl fun c k => by rw [hvalues, StoreManager.getValue_eq]⟩
      rw [commitOps, if_pos hro, take_nil]
      rw [← hload, ← hf]
      rfl
    · obtain ⟨s, hs, hback⟩ := commitOps_between (m := { m with saves }) (a := a) hK horder hf n
      have hs : Between m a s := ⟨hs.names, hs.mixed⟩
      obtain ⟨s', hload, hvalues⟩ := Store.load_serialize (hs.storable hfits)
      refine ⟨s', ?_, ?_⟩
      · rw [← hload, ← hback]
        rfl
      · simp only [hvalues]
        exact hs.ends hone

def blank : StoreManager := ⟨⟨∅⟩, some (Store.serialize ⟨∅⟩), none, []⟩

def pendsOne : Accessor := ⟨[], true, false, AList.singleton [97] (some (.boolval true))⟩

theorem pendsOne_atomic_on_disk : AtomicOnDisk .copying AList.entries blank pendsOne := by
  refine (commit_atomic_on_disk_iff Kernel.copying_clones (fun _ => .refl _) rfl
    ⟨?_, ?_, ?_, ?_, ?_⟩).mpr (.inr ?_)
  · exact fun c hc => nomatch hc
  · exact ⟨rfl, by decide⟩
  · intro u hu
    obtain rfl := mem_singleton.mp hu
    refine ⟨⟨by decide, by decide⟩, ?_⟩
    rintro v ⟨⟩
    trivial
  · exact fun c hc => nomatch hc
  · decide
  · intro u hu v hv _ _
    exact (mem_singleton.mp hu).trans (mem_singleton.mp hv).symm

/-- Two pending sets, and a process that stops after the first rename. -/
theorem commit_stops_halfway : ∃ s,
    Store.load (runOps ((commitOps .copying AList.entries blank setsTwo).take 37)
      blank.files).backing = .ok s ∧
    s.getValue [] [97] = some (.boolval true) ∧ blank.getValue [] [97] = none ∧
    s.getValue [] [98] = none ∧
      putAll [] setsTwo.fieldsUpdated.entries blank.getValue [] [98] = some (.boolval true) := by
  have hback : (runOps ((commitOps .copying AList.entries blank setsTwo).take 37)
    blank.files).backing =
      some (Store.serialize ⟨AList.singleton []
        (AList.singleton [97] (.boolval true))⟩) := by decide +kernel
  have hstorable : Store.Storable ⟨AList.singleton [] (AList.singleton [97] (.boolval true))⟩ := by
    intro c hc
    obtain rfl := mem_singleton.mp hc
    refine ⟨⟨rfl, by decide⟩, by decide, fun e he => ?_⟩
    obtain rfl := mem_singleton.mp he
    exact ⟨⟨rfl, by decide⟩, trivial⟩
  obtain ⟨s, hload, hvalues⟩ := Store.load_serialize hstorable
  refine ⟨s, ?_, ?_, rfl, ?_, rfl⟩
  · rw [hback, hload]
  · rw [hvalues]
    rfl
  · rw [hvalues]
    rfl

end Atomic

end Garnet.Stash
