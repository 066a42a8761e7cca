import Garnet.Stash.Crash
import Garnet.Stash.Prefix

/-! Several accessors over one store manager, in any interleaving of their operations. They are
compared with a ledger, which has the committed values and, for each accessor, the updates that it
has not committed. -/

namespace Garnet.Stash
open List
set_option autoImplicit false

inductive Op where
  | setValue (key : Key) (val : Value)
  | deleteValue (key : Key)
  | deletePrefix (pre : Key)
  | getValue (key : Key)
  | commit

structure System (ι : Type) where
  manager : StoreManager
  accessors : ι → Accessor

structure Config where
  clientName : ClientName
  enableBytes : Bool
  readOnly : Bool

def Accessor.config (a : Accessor) : Config := ⟨a.clientName, a.enableBytes, a.readOnly⟩

/-- The committed values, and the uncommitted update of each key by each accessor. -/
@[ext] structure Ledger (ι : Type) where
  committed : Memory
  pending : ι → Key → Option (Option Value)

section Steps
variable {ι : Type} [DecidableEq ι]

def System.update (s : System ι) (i : ι) :
    Except Fault Accessor → Except Fault (Option Value) × System ι
  | .ok a => (.ok none, { s with accessors := Function.update s.accessors i a })
  | .error e => (.error e, s)

/-- An operation of one accessor. Only `get_value` replies with a value. -/
def System.perform (K : Kernel) (order : HashMap Key (Option Value) → List Update) (s : System ι)
    (i : ι) : Op → Except Fault (Option Value) × System ι
  | .setValue key val => s.update i ((s.accessors i).setValue key val)
  | .deleteValue key => s.update i ((s.accessors i).deleteValue key)
  | .deletePrefix pre => s.update i ((s.accessors i).deletePrefix s.manager pre)
  | .getValue key => ((s.accessors i).getValue K s.manager key, s)
  | .commit =>
    match Accessor.commit K order (s.manager, s.accessors i) with
    | .ok () (m, a) => (.ok none, ⟨m, Function.update s.accessors i a⟩)
    | .error e (m, a) => (.error e, ⟨m, Function.update s.accessors i a⟩)

/-- What a client reads: its own uncommitted update of the key, or else the committed value. -/
def Ledger.view (l : Ledger ι) (client : ClientName) (i : ι) (key : Key) : Option Value :=
  (l.pending i key).getD (l.committed client key)

def Ledger.put (l : Ledger ι) (i : ι) (updates : Key → Option (Option Value)) : Ledger ι :=
  { l with pending := Function.update l.pending i updates }

/-- What an operation does to the ledger. An accessor that may not make an update makes none. -/
def Ledger.perform (cfg : Config) (l : Ledger ι) (i : ι) : Op → Ledger ι
  | .setValue key val =>
    if cfg.readOnly ∨ (cfg.enableBytes = false ∧ valueToType val = .bytesVal) then l
    else l.put i fun k => if k = key then some (some val) else l.pending i k
  | .deleteValue key =>
    if cfg.readOnly then l else l.put i fun k => if k = key then some none else l.pending i k
  | .deletePrefix pre =>
    if cfg.readOnly then l
    else l.put i fun k =>
      -- a key that is neither committed nor pending gets no update
      if pre <+: k ∧ (l.pending i k ≠ none ∨ l.committed cfg.clientName k ≠ none) then some none
      else l.pending i k
  | .getValue _ => l
  | .commit =>
    if cfg.readOnly then l
    else ⟨fun c k => if c = cfg.clientName then l.view c i k else l.committed c k,
      Function.update l.pending i fun _ => none⟩

/-- The reply to a `get_value`: an accessor without bytes cannot read a value of bytes. -/
def Config.reply (cfg : Config) : Option Value → Except Fault (Option Value)
  | some (.bytesval b) =>
    if cfg.enableBytes then .ok (some (.bytesval b)) else .error Accessor.bytesDisabled
  | o => .ok o

def Op.Fits : Op → Prop
  | .setValue key val => Text key ∧ val.Storable
  | .deleteValue key => Text key
  | _ => True

def System.Room (s : System ι) (i : ι) : Prop :=
  (s.accessors i).fieldsUpdated.entries.length < 2 ^ 64 ∧
    ∀ c ∈ s.manager.store.data.entries, c.2.entries.length +
      (s.accessors i).fieldsUpdated.entries.length < 2 ^ 64

/-- A store manager over a file that it has loaded, with no save that fails. -/
structure Opened (m : StoreManager) (cfg : ι → Config) : Prop where
  loaded : Store.load m.backingFile = .ok m.store
  saves : m.saves = []
  storable : m.store.Storable
  names : ∀ i, Text (cfg i).clientName

inductive Run (K : Kernel) (order : HashMap Key (Option Value) → List Update) (m : StoreManager)
    (cfg : ι → Config) :
    List (ι × Op) → System ι → Prop
  | start : Run K order m cfg []
      ⟨m, fun i => Accessor.new (cfg i).enableBytes (cfg i).readOnly (cfg i).clientName⟩
  | step {ops : List (ι × Op)} {s : System ι} (h : Run K order m cfg ops s) (i : ι) (op : Op) (hop : op.Fits)
      (hroom : s.Room i) : Run K order m cfg ((i, op) :: ops) (s.perform K order i op).2

def ledgerOf (m : StoreManager) (cfg : ι → Config) : List (ι × Op) → Ledger ι
  | [] => ⟨m.getValue, fun _ _ => none⟩
  | (i, op) :: ops => (ledgerOf m cfg ops).perform (cfg i) i op

def OnDisk (m : StoreManager) : Prop :=
  ∃ t, Store.load m.backingFile = .ok t ∧ ∀ c k, (t.getValue c k).map reload =
    (m.getValue c k).map reload

def Accessor.Fits (a : Accessor) : Prop :=
  ∀ u ∈ a.fieldsUpdated.entries, Text u.1 ∧ ∀ v, u.2 = some v → v.Storable

structure InStep (cfg : ι → Config) (l : Ledger ι) (s : System ι) : Prop where
  config : ∀ i, (s.accessors i).config = cfg i
  committed : s.manager.getValue = l.committed
  pending : ∀ i k, (s.accessors i).fieldsUpdated.lookup k = l.pending i k
  fits : ∀ i, (s.accessors i).Fits
  names : ∀ i, Text (cfg i).clientName
  saves : s.manager.saves = []
  storable : s.manager.store.Storable
  onDisk : OnDisk s.manager

end Steps

section Updates
variable {a : Accessor} {m : StoreManager}

theorem Accessor.Fits.of_lookup {fields : HashMap Key (Option Value)}
    (h : ∀ k o, fields.lookup k = some o → Text k ∧ ∀ v, o = some v → v.Storable) :
    ({ a with fieldsUpdated := fields } : Accessor).Fits := by
  intro u hu
  exact h u.1 u.2 (AList.mem_lookup_iff.mpr hu)

variable {κ ν : Type}

theorem dlookup_kreplace [DecidableEq κ] (key k : κ) (v : ν) (es : List (Σ _ : κ, ν)) :
    (es.kreplace key v).dlookup k =
      if k = key then (es.dlookup k).map fun _ => v else es.dlookup k := by
  induction es with
  | nil => simp [List.kreplace]
  | cons e es ih =>
    obtain ⟨key', v'⟩ := e
    by_cases he : key = key'
    · subst he
      have hrep : List.kreplace key v (⟨key, v'⟩ :: es) = ⟨key, v⟩ :: es :=
        lookmap_cons_some _ _ (if_pos rfl)
      rw [hrep]
      by_cases hk : k = key
      · subst hk
        simp
      · rw [dlookup_cons_ne _ _ hk, dlookup_cons_ne _ _ hk, if_neg hk]
    · have hrep : List.kreplace key v (⟨key', v'⟩ :: es) = ⟨key', v'⟩ :: es.kreplace key v :=
        lookmap_cons_none _ _ (if_neg he)
      rw [hrep]
      by_cases hk : k = key'
      · subst hk
        rw [dlookup_cons_eq, dlookup_cons_eq, if_neg (Ne.symm he)]
      · rw [dlookup_cons_ne _ _ hk, dlookup_cons_ne _ _ hk, ih]

theorem lookup_replace [DecidableEq κ] (key k : κ) (v : ν) (h : HashMap κ ν) :
    (h.replace key v).lookup k = if k = key then (h.lookup k).map fun _ => v else h.lookup k :=
  dlookup_kreplace key k v h.entries

theorem lookup_cleared (pre k : Key) (es : List Update) (h : HashMap Key (Option Value)) :
    (es.foldl (fun h (u : Update) => if pre.isPrefixOf u.1 then h.replace u.1 none
      else h) h).lookup k =
      if pre <+: k ∧ k ∈ es.keys then (h.lookup k).map fun _ => none else h.lookup k := by
  induction es generalizing h with
  | nil => simp
  | cons u es ih =>
    rw [foldl_cons, ih]
    have hstep : (if pre.isPrefixOf u.1 then h.replace u.1 none else h).lookup k =
        if pre <+: k ∧ k = u.1 then (h.lookup k).map fun _ => none else h.lookup k := by
      have hiff : pre.isPrefixOf u.1 = true ↔ pre <+: u.1 := List.isPrefixOf_iff_prefix
      by_cases hp : pre <+: u.1
      · rw [if_pos (hiff.mpr hp), lookup_replace]
        by_cases hk : k = u.1
        · rw [if_pos hk, if_pos ⟨hk ▸ hp, hk⟩]
        · rw [if_neg hk, if_neg (fun h => hk h.2)]
      · rw [if_neg (mt hiff.mp hp), if_neg]
        rintro ⟨hp', rfl⟩
        exact hp hp'
    rw [hstep]
    by_cases hp : pre <+: k
    · by_cases hk : k = u.1
      · subst hk
        by_cases hin : u.1 ∈ es.keys <;> simp [hp, hin, Function.comp_def]
      · simp [hp, hk, keys_cons]
    · simp [hp]

theorem lookup_deletions {τ : Type} (k : Key) (items : List (Item τ))
    (h : HashMap Key (Option Value)) :
    (items.foldl (fun h item => h.insert item.key none) h).lookup k =
      if k ∈ items.map Item.key then some none else h.lookup k := by
  induction items generalizing h with
  | nil => simp
  | cons item items ih =>
    rw [foldl_cons, ih, map_cons]
    split
    next hin =>
      rw [if_pos (mem_cons_of_mem _ hin)]
    next hin =>
      by_cases hk : k = item.key
      · rw [hk, AList.lookup_insert, if_pos mem_cons_self]
      · rw [AList.lookup_insert_ne hk, if_neg]
        exact fun h => (mem_cons.mp h).elim hk hin

theorem deletePrefix_ok (hro : a.readOnly = false) (pre : Key) : ∃ fields,
    a.deletePrefix m pre = .ok { a with fieldsUpdated := fields } ∧ ∀ k, fields.lookup k =
      if pre <+: k ∧ (a.fieldsUpdated.lookup k ≠ none ∨ m.getValue a.clientName k ≠ none) then
        some none
      else a.fieldsUpdated.lookup k := by
  unfold Accessor.deletePrefix
  rw [if_neg (by rw [hro]; exact Bool.false_ne_true)]
  refine ⟨_, rfl, fun k => ?_⟩
  have hlist : m.listPrefix a.clientName pre = m.under valueToType a.clientName pre :=
    fieldsUnder_eq (fun _ => rfl) a.clientName
  have hkeys : k ∈ (m.listPrefix a.clientName pre).map Item.key ↔ pre <+: k ∧
      m.getValue a.clientName k ≠ none := by
    rw [hlist, mem_map]
    constructor
    · rintro ⟨item, hitem, rfl⟩
      obtain ⟨hp, v, hv, _⟩ := mem_under.mp hitem
      exact ⟨hp, by rw [hv]; exact Option.some_ne_none v⟩
    · rintro ⟨hp, hne⟩
      obtain ⟨v, hv⟩ := Option.ne_none_iff_exists'.mp hne
      exact ⟨⟨k, valueToType v⟩, mem_under.mpr ⟨hp, v, hv, rfl⟩, rfl⟩
  have hpending : k ∈ a.fieldsUpdated.entries.keys ↔ a.fieldsUpdated.lookup k ≠ none := by
    rw [← Option.isSome_iff_ne_none, AList.lookup_isSome, AList.mem_keys]
    rfl
  rw [lookup_deletions, lookup_cleared]
  simp only [hpending, hkeys]
  by_cases hp : pre <+: k
  · rcases hlook : a.fieldsUpdated.lookup k with _ | o
    · by_cases hm : m.getValue a.clientName k = none <;> simp [hp, hm]
    · by_cases hm : m.getValue a.clientName k = none <;> simp [hp, hm]
  · simp [hp]

theorem commitUpdates_ok {K : Kernel} (hK : K.Clones) {client : ClientName} {us : List Update}
    (hus : us.NodupKeys) (hsaves : m.saves = []) (olds : HashMap Key (Option Value)) :
    ∃ m' olds', Accessor.commitUpdates K client us (m, olds) = .ok () (m', olds') ∧ m'.saves = [] ∧
      m'.getValue = putAll client us m.getValue ∧
        (m' = m ∨ m'.backingFile = some m'.store.serialize) := by
  induction us generalizing m olds with
  | nil => exact ⟨m, olds, rfl, hsaves, putAll_nil.symm, .inl rfl⟩
  | cons u us ih =>
    obtain ⟨hu, hus⟩ := nodupKeys_cons.mp hus
    obtain ⟨m₁, hok, hsaves₁, hback₁, hget₁, _, _⟩ := store_ok hK client u hsaves
    obtain ⟨m', olds', hrun, hsaves', hget, hback⟩ :=
      ih hus hsaves₁ (olds.insert u.1 (m.getValue client u.1))
    refine ⟨m', olds', ?_, hsaves', ?_, .inr ?_⟩
    · simp only [Accessor.commitUpdates, mapM_cloneValue hK, hok]
      exact hrun
    · rw [hget, hget₁, putAll_cons hu]
    · rcases hback with rfl | hback
      · exact hback₁
      · exact hback

theorem commit_ok {K : Kernel} {order : HashMap Key (Option Value) → List Update} (hK : K.Clones)
    (hro : a.readOnly = false) (hsaves : m.saves = []) (hfits : CommitFits m a) (hdisk : OnDisk m) :
    ∃ m', Accessor.commit K order (m, a) = .ok () (m', { a with fieldsUpdated := ∅ }) ∧
      m'.saves = [] ∧
      m'.getValue = putAll a.clientName a.fieldsUpdated.entries m.getValue ∧ m'.store.Storable ∧
        OnDisk m' := by
  obtain ⟨m', olds', hrun, hsaves', hget, hback⟩ :=
    @commitUpdates_ok m K hK a.clientName _ a.fieldsUpdated.nodupKeys hsaves ∅
  have hstorable : m'.store.Storable :=
    (commitUpdates_end hK new_values Between.start (.inl hrun)).1.storable hfits
  refine ⟨m', ?_, hsaves', hget, hstorable, ?_⟩
  · simp only [Accessor.commit, hro, hrun]
    rfl
  · rcases hback with rfl | hback
    · exact hdisk
    · obtain ⟨t, hload, hvalues⟩ := Store.load_serialize hstorable
      refine ⟨t, hback ▸ hload, fun c k => ?_⟩
      rw [hvalues, StoreManager.getValue_eq, Option.map_map]
      congr 1
      funext v
      cases v with
      | bytesval b => rfl
      | _ => rfl

end Updates

section InStep
open Function (forall_update_iff update update_of_ne update_self)
variable {ι : Type} [DecidableEq ι] {K : Kernel} {order : HashMap Key (Option Value) → List Update}
variable {cfg : ι → Config} {l : Ledger ι} {s : System ι} {i : ι}

section
variable (h : InStep cfg l s)
include h

theorem InStep.replace {m : StoreManager} {c : Memory} {fields : HashMap Key (Option Value)}
    {updates : Key → Option (Option Value)} (hlook : ∀ k, fields.lookup k = updates k)
    (hfits : Accessor.Fits { s.accessors i with fieldsUpdated := fields })
    (hcommitted : m.getValue = c) (hsaves : m.saves = []) (hstorable : m.store.Storable)
    (hdisk : OnDisk m) :
    InStep cfg ⟨c, update l.pending i updates⟩
      ⟨m, update s.accessors i { s.accessors i with fieldsUpdated := fields }⟩ := by
  refine ⟨?_, hcommitted, fun j k => ?_, ?_, h.names, hsaves, hstorable, hdisk⟩
  · exact (forall_update_iff s.accessors fun j a => a.config = cfg j).mpr
      ⟨h.config i, fun j _ => h.config j⟩
  · by_cases hj : j = i
    · subst hj
      simp only [update_self, hlook]
    · simp only [update_of_ne hj, h.pending]
  · exact (forall_update_iff s.accessors fun _ a => a.Fits).mpr ⟨hfits, fun j _ => h.fits j⟩

theorem InStep.put {fields : HashMap Key (Option Value)} {updates : Key → Option (Option Value)}
    (hlook : ∀ k, fields.lookup k = updates k)
    (hfits : ∀ k o, updates k = some o → Text k ∧ ∀ v, o = some v → v.Storable) :
    InStep cfg (l.put i updates)
      (s.update i (.ok { s.accessors i with fieldsUpdated := fields })).2 :=
  h.replace hlook (Accessor.Fits.of_lookup fun k o hk => hfits k o (hlook k ▸ hk)) h.committed
    h.saves h.storable
    h.onDisk

variable {o : Option Value}

omit [DecidableEq ι] in
theorem InStep.pending_fits {k : Key} (hk : l.pending i k = some o) :
    Text k ∧ ∀ v, o = some v → v.Storable :=
  h.fits i ⟨k, o⟩ (AList.mem_lookup_iff.mp ((h.pending i k).trans hk))

variable {key : Key}

theorem InStep.putKey (hkey : Text key) (ho : ∀ v, o = some v → v.Storable) :
    InStep cfg (l.put i fun k => if k = key then some o else l.pending i k) (s.update i
      (.ok { s.accessors i with fieldsUpdated := (s.accessors i).fieldsUpdated.insert key o })).2 := by
  apply h.put
  · intro k
    split
    next hk =>
      rw [hk, AList.lookup_insert]
    next hk =>
      rw [AList.lookup_insert_ne hk, h.pending]
  · intro k o' hko
    split at hko
    next hk =>
      cases hko
      exact ⟨hk ▸ hkey, ho⟩
    next => exact h.pending_fits hko

omit [DecidableEq ι] in
theorem InStep.readOnly (i : ι) : (s.accessors i).readOnly = (cfg i).readOnly :=
  congrArg Config.readOnly (h.config i)

omit [DecidableEq ι] in
theorem InStep.enableBytes (i : ι) : (s.accessors i).enableBytes = (cfg i).enableBytes :=
  congrArg Config.enableBytes (h.config i)

omit [DecidableEq ι] in
theorem InStep.clientName (i : ι) : (s.accessors i).clientName = (cfg i).clientName :=
  congrArg Config.clientName (h.config i)

theorem InStep.refused {r : Except Fault Accessor} (hr : ∃ e, r = .error e) :
    InStep cfg l (s.update i r).2 := by
  obtain ⟨e, rfl⟩ := hr
  exact h

theorem InStep.setValue {val : Value} (hkey : Text key) (hval : val.Storable) :
    InStep cfg (l.perform (cfg i) i (.setValue key val))
      (s.perform K order i (.setValue key val)).2 := by
  simp only [Ledger.perform, System.perform]
  split
  next hno =>
    apply h.refused
    rw [← h.readOnly, ← h.enableBytes] at hno
    unfold Accessor.setValue
    rcases hno with hro | ⟨hb, htype⟩
    · exact ⟨_, if_pos hro⟩
    · split
      next => exact ⟨_, rfl⟩
      next => exact ⟨_, if_pos (by rw [hb, htype]; rfl)⟩
  next hyes =>
    rw [← h.readOnly, ← h.enableBytes, not_or] at hyes
    have hbytes : ¬ ((!(s.accessors i).enableBytes && decide (valueToType val = .bytesVal)) =
        true) := by
      intro hall
      rw [Bool.and_eq_true, Bool.not_eq_true', decide_eq_true_iff] at hall
      exact hyes.2 hall
    rw [Accessor.setValue, if_neg hyes.1, if_neg hbytes]
    exact h.putKey hkey fun v hv => Option.some.inj hv ▸ hval

theorem InStep.deleteValue (hkey : Text key) :
    InStep cfg (l.perform (cfg i) i (.deleteValue key))
      (s.perform K order i (.deleteValue key)).2 := by
  simp only [Ledger.perform, System.perform]
  split
  next hro => exact h.refused ⟨_, if_pos ((h.readOnly i).trans hro)⟩
  next hro =>
    rw [Accessor.deleteValue, if_neg (by rw [h.readOnly]; exact hro)]
    exact h.putKey hkey fun v hv => nomatch hv

end

variable {m : StoreManager}

theorem text_of_getValue (h : m.store.Storable) {c : ClientName} {k : Key}
    (hk : m.getValue c k ≠ none) : Text k := by
  obtain ⟨v, hv⟩ := Option.ne_none_iff_exists'.mp hk
  rw [StoreManager.getValue_eq] at hv
  obtain ⟨fields, hfields, hlook⟩ := Option.bind_eq_some_iff.mp hv
  exact ((h ⟨c, fields⟩ (AList.mem_lookup_iff.mp hfields)).2.entries ⟨k, v⟩
    (AList.mem_lookup_iff.mp hlook)).1

theorem InStep.deletePrefix (h : InStep cfg l s) (pre : Key) :
    InStep cfg (l.perform (cfg i) i (.deletePrefix pre))
      (s.perform K order i (.deletePrefix pre)).2 := by
  simp only [Ledger.perform, System.perform]
  split
  next hro => exact h.refused ⟨_, if_pos ((h.readOnly i).trans hro)⟩
  next hro =>
    have hro' : (s.accessors i).readOnly = false := (h.readOnly i).trans (Bool.eq_false_iff.mpr hro)
    obtain ⟨fields, hok, hlook⟩ := deletePrefix_ok (m := s.manager) hro' pre
    rw [hok]
    apply h.put
    · intro k
      rw [hlook, h.pending, h.clientName, h.committed]
    · intro k o hko
      split at hko
      next hk =>
        cases hko
        refine ⟨?_, fun v hv => nomatch hv⟩
        rcases hk.2 with hk | hk
        · obtain ⟨o, ho⟩ := Option.ne_none_iff_exists'.mp hk
          exact (h.pending_fits ho).1
        · exact text_of_getValue h.storable (h.committed ▸ hk)
      next => exact h.pending_fits hko

omit [DecidableEq ι] in
theorem InStep.commitFits (h : InStep cfg l s) (hroom : s.Room i) :
    CommitFits s.manager (s.accessors i) :=
  ⟨h.storable, (h.clientName i).symm ▸ h.names i, h.fits i, hroom.2, hroom.1⟩

omit [DecidableEq ι] in
theorem InStep.putAll_eq (h : InStep cfg l s) (i : ι) :
    putAll (s.accessors i).clientName (s.accessors i).fieldsUpdated.entries s.manager.getValue =
      fun c k => if c = (cfg i).clientName then l.view c i k else l.committed c k := by
  funext c k
  rw [putAll, h.clientName, ← h.committed, Ledger.view, ← h.pending, ← h.committed]
  rfl

theorem InStep.commit (order : HashMap Key (Option Value) → List Update) (hK : K.Clones)
    (h : InStep cfg l s) (hro : (cfg i).readOnly = false) (hroom : s.Room i) :
    (s.perform K order i .commit).1 = .ok none ∧
      InStep cfg (l.perform (cfg i) i .commit) (s.perform K order i .commit).2 := by
  obtain ⟨m', hrun, hsaves, hget, hstorable, hdisk⟩ :=
    @commit_ok _ _ K order hK ((h.readOnly i).trans hro) h.saves (h.commitFits hroom) h.onDisk
  have hperform : s.perform K order i .commit =
      (.ok none, ⟨m', update s.accessors i { s.accessors i with fieldsUpdated := ∅ }⟩) := by
    simp only [System.perform, hrun]
  rw [hperform, Ledger.perform, hro, if_neg Bool.false_ne_true]
  exact ⟨rfl,
    h.replace AList.lookup_empty (fun u hu => nomatch hu)
      (hget.trans (h.putAll_eq i)) hsaves hstorable hdisk⟩

theorem InStep.perform (hK : K.Clones) (h : InStep cfg l s) {op : Op} (hop : op.Fits)
    (hroom : s.Room i) : InStep cfg (l.perform (cfg i) i op) (s.perform K order i op).2 := by
  cases op with
  | setValue key val => exact h.setValue hop.1 hop.2
  | deleteValue key => exact h.deleteValue hop
  | deletePrefix pre => exact h.deletePrefix pre
  | getValue key => exact h
  | commit =>
    rcases hro : (cfg i).readOnly with _ | _
    · exact (h.commit order hK hro hroom).2
    · have hrun : ∃ e, Accessor.commit K order (s.manager, s.accessors i) =
          .error e (s.manager, s.accessors i) :=
        ⟨_, if_pos ((h.readOnly i).trans hro)⟩
      obtain ⟨e, hrun⟩ := hrun
      simp only [System.perform, hrun, Ledger.perform, hro, if_true, Function.update_eq_self]
      exact h

theorem Run.inStep (hK : K.Clones) (hm : Opened m cfg) {ops : List (ι × Op)}
    (h : Run K order m cfg ops s) : InStep cfg (ledgerOf m cfg ops) s := by
  induction h with
  | start =>
    refine ⟨fun _ => rfl, rfl, fun _ _ => rfl, fun _ u hu => (nomatch hu), hm.names, hm.saves,
      hm.storable, ?_⟩
    refine ⟨m.store, hm.loaded, fun c k => ?_⟩
    rw [StoreManager.getValue_eq]
  | step _ i op hop hroom ih => exact ih.perform hK hop hroom

theorem getValue_eq_reply (hK : K.Clones) (a : Accessor) (m : StoreManager) (key : Key) :
    a.getValue K m key = a.config.reply (a.view m key) := by
  unfold Accessor.getValue Accessor.view
  rcases a.fieldsUpdated.lookup key with _ | _ | v
  · rcases m.getValue a.clientName key with _ | v
    · rfl
    · rcases hb : a.enableBytes with _ | _ <;> cases v <;>
        simp [Config.reply, Accessor.config, hb, hK.cloneValue, ok_bind, except_pure]
  · cases a.enableBytes <;> rfl
  · rcases hb : a.enableBytes with _ | _ <;> cases v <;>
      simp [Config.reply, Accessor.config, hb, hK.cloneValue, ok_bind, except_pure]

theorem InStep.reply (hK : K.Clones) (h : InStep cfg l s) (i : ι) (key : Key) :
    (s.perform K order i (.getValue key)).1 = (cfg i).reply (l.view (cfg i).clientName i key) := by
  have hview : (s.accessors i).view s.manager key = l.view (cfg i).clientName i key := by
    rw [Accessor.view, Ledger.view, h.pending, h.committed, h.clientName]
  rw [← hview, ← h.config i]
  exact getValue_eq_reply hK (s.accessors i) s.manager key

end InStep

section Transactions
variable {ι : Type} [DecidableEq ι] {K : Kernel} {order : HashMap Key (Option Value) → List Update}
variable {m : StoreManager} {cfg : ι → Config} {ops : List (ι × Op)} {s : System ι}

structure Transactional (K : Kernel) (order : HashMap Key (Option Value) → List Update)
    (cfg : ι → Config) (l : Ledger ι)
    (s : System ι) : Prop where
  /-- Each `get_value` gives the own uncommitted update or the committed value. -/
  reads : ∀ i key, (s.perform K order i (.getValue key)).1 =
    (cfg i).reply (l.view (cfg i).clientName i key)
  /-- Until it commits, an accessor changes nothing that another one reads. -/
  invisible : ∀ i j op key, j ≠ i → op ≠ Op.commit →
    ((s.perform K order i op).2.perform K order j (.getValue key)).1 =
      (s.perform K order j (.getValue key)).1
  /-- A commit makes the updates of its accessor and no others. -/
  commits : ∀ i, (cfg i).readOnly = false → s.Room i → (s.perform K order i .commit).1 = .ok none ∧
    ∀ c key, (s.perform K order i .commit).2.manager.getValue c key =
      if c = (cfg i).clientName then (l.pending i key).getD (s.manager.getValue c key)
      else s.manager.getValue c key
  /-- The file that it leaves loads to what is in memory. -/
  durable : ∀ i, s.Room i → OnDisk (s.perform K order i .commit).2.manager

theorem perform_frame (K : Kernel) (order : HashMap Key (Option Value) → List Update) (s : System ι)
    {i j : ι} {op : Op} (hj : j ≠ i) (hop : op ≠ .commit) :
    (s.perform K order i op).2.manager = s.manager ∧
    (s.perform K order i op).2.accessors j = s.accessors j := by
  have hupdate (r : Except Fault Accessor) :
      (s.update i r).2.manager = s.manager ∧ (s.update i r).2.accessors j = s.accessors j := by
    cases r with
    | ok a => exact ⟨rfl, Function.update_of_ne hj ..⟩
    | error e => exact ⟨rfl, rfl⟩
  cases op with
  | setValue key val | deleteValue key | deletePrefix pre => exact hupdate _
  | getValue key => exact ⟨rfl, rfl⟩
  | commit => exact absurd rfl hop

/-- Accessors that share one manager see, commit and keep what the ledger of their calls says. -/
theorem transactions (hK : K.Clones) (hm : Opened m cfg) (h : Run K order m cfg ops s) :
    Transactional K order cfg (ledgerOf m cfg ops) s := by
  have hstep := h.inStep hK hm
  refine ⟨hstep.reply hK, ?_, ?_, ?_⟩
  · intro i j op key hj hop
    obtain ⟨hmanager, haccessor⟩ := perform_frame K order s hj hop
    change (((s.perform K order i op).2.accessors j).getValue K (s.perform K order i op).2.manager key) = _
    rw [hmanager, haccessor]
    rfl
  · intro i hro hroom
    obtain ⟨hok, hnext⟩ := hstep.commit order hK hro hroom
    refine ⟨hok, fun c key => ?_⟩
    rw [hnext.committed, Ledger.perform, hro, if_neg Bool.false_ne_true, hstep.committed]
    rfl
  · intro i hroom
    exact (h.step i .commit trivial hroom).inStep hK hm |>.onDisk

def bytesForOne : Bool → Config
  | false => ⟨[], true, false⟩
  | true => ⟨[], false, false⟩

theorem noClients_opened : Opened noClients bytesForOne :=
  ⟨rfl, rfl, fun _ hc => (nomatch hc), fun i => by cases i <;> exact ⟨rfl, by decide⟩⟩

/-- Both accessors have set a value, and the first one has committed. -/
def bothSet : List (Bool × Op) :=
  [(false, .commit), (true, .setValue [98] (.boolval false)), (false, .setValue [97] (.boolval true))]

theorem transactions_committed : ∃ s, Run .copying AList.entries noClients bytesForOne bothSet s ∧
    Transactional .copying AList.entries bytesForOne (ledgerOf noClients bytesForOne bothSet) s := by
  have hrun := (((@Run.start _ _ .copying AList.entries noClients bytesForOne).step false
    (.setValue [97] (.boolval true)) ⟨⟨rfl, by decide⟩, trivial⟩
      ⟨by decide, fun _ hc => nomatch hc⟩).step true
    (.setValue [98] (.boolval false)) ⟨⟨rfl, by decide⟩, trivial⟩
      ⟨by decide, fun _ hc => nomatch hc⟩).step false
    .commit trivial ⟨by decide, fun _ hc => nomatch hc⟩
  exact ⟨_, hrun, transactions Kernel.copying_clones noClients_opened hrun⟩

/-- The first accessor commits bytes, and the second one cannot read them. -/
theorem committed_bytes_unreadable : ∃ s,
    Run .copying AList.entries noClients bytesForOne
      [(false, .commit), (false, .setValue [97] (.bytesval ⟨[1], 1, le_rfl⟩))] s ∧
    s.manager.getValue [] [97] = some (.bytesval ⟨[1], 1, le_rfl⟩) ∧
    (s.perform .copying AList.entries true (.getValue [97])).1 = .error Accessor.bytesDisabled := by
  have hset := (@Run.start _ _ .copying AList.entries noClients bytesForOne).step false
    (.setValue [97] (.bytesval ⟨[1], 1, le_rfl⟩)) ⟨⟨rfl, by decide⟩, by decide, by decide⟩
      ⟨by decide, fun _ hc => nomatch hc⟩
  exact ⟨_, hset.step false .commit trivial ⟨by decide, fun _ hc => nomatch hc⟩, rfl, rfl⟩

end Transactions

end Garnet.Stash
