import Garnet.Stash.Store

/-! An accessor of the stash: a client's pending updates over the committed store, the iterators
that list what the client sees, and the commit. -/

namespace Garnet.Stash

def channelMaxMsgBytes : Nat := 65536
def maxKeySize : Nat := 256
def maxStringSize : Nat := 12000

def listPrefixChunkSize : Nat := (channelMaxMsgBytes - 16) / (maxKeySize + 16 + 1)

def getPrefixChunkSize : Nat := (channelMaxMsgBytes - 16) / (maxKeySize + 16 + maxStringSize + 16)

abbrev Update := Σ _ : Key, Option Value

structure Accessor where
  clientName : ClientName
  enableBytes : Bool
  readOnly : Bool
  fieldsUpdated : HashMap Key (Option Value)

/-- `field_has_been_deleted`, which is true of the fields to keep. -/
def fieldHasBeenDeleted {τ : Type} : Option (Option τ) → Bool
  | none => true
  | some none => false
  | some (some _) => true

/-- One round of the loop over the pending updates: the items with the key are overwritten, and
when there is none a new one is appended. -/
def mergeField {μ : Type → Type} [Monad μ] {τ : Type} (f : Value → μ τ) (results : List (Item τ))
    (u : Update) : μ (List (Item τ)) :=
  match u.2 with
  | none => pure results
  | some v => do
    let merged ← results.mapM fun item =>
      if item.key = u.1 then do pure { item with payload := ← f v } else pure item
    if results.any (·.key = u.1) then pure merged
    else do pure (merged ++ [⟨u.1, ← f v⟩])

/-- The results from the committed store with the pending updates merged in. -/
def mergeFields {μ : Type → Type} [Monad μ] {τ : Type} (f : Value → μ τ)
    (updates : HashMap Key (Option Value)) (results : List (Item τ)) : μ (List (Item τ)) :=
  if updates.entries.isEmpty then pure results
  else updates.entries.foldlM (mergeField f)
    (results.filter fun item => fieldHasBeenDeleted (updates.lookup item.key))

/-- `split_off` of the last chunk: the chunk and what is left for the next call. -/
def nextChunk {α : Type} (size : Nat) (results : List α) : List α × List α :=
  let splitAt := results.length - min size results.length
  (results.drop splitAt, results.take splitAt)

/-- A client of an iterator calls `GetNext` until it gets an empty chunk. -/
def drain {α : Type} (next : List α → Except Fault (List α × List α)) :
    Nat → List α → Except Fault (List α)
  | 0, _ => .error .diverge
  | fuel + 1, results => do
    let (chunk, rest) ← next results
    if chunk.isEmpty then pure [] else do pure (chunk ++ (← drain next fuel rest))

namespace Accessor

def new (enableBytes readOnly : Bool) (clientName : ClientName) : Accessor :=
  ⟨clientName, enableBytes, readOnly, ∅⟩

def bytesDisabled : Fault := .error "client attempted to access bytes when the type is disabled"

def getValue (K : Kernel) (a : Accessor) (m : StoreManager) (key : Key) :
    Except Fault (Option Value) :=
  match a.fieldsUpdated.lookup key with
  | some oVal =>
    match a.enableBytes, oVal with
    | false, some (.bytesval _) => .error bytesDisabled
    | _, some val => do pure (some (← cloneValue K val))
    | _, none => .ok none
  | none =>
    match a.enableBytes, m.getValue a.clientName key with
    | _, none => .ok none
    | false, some (.bytesval _) => .error bytesDisabled
    | _, some val => do pure (some (← cloneValue K val))

def setValue (a : Accessor) (key : Key) (val : Value) : Except Fault Accessor :=
  if a.readOnly then .error (.error "client attempted to set a value with a read-only accessor")
  else if !a.enableBytes && valueToType val = .bytesVal then
    .error (.error "client attempted to set bytes when the type is disabled")
  else .ok { a with fieldsUpdated := a.fieldsUpdated.insert key (some val) }

def deleteValue (a : Accessor) (key : Key) : Except Fault Accessor :=
  if a.readOnly then .error (.error "client attempted to delete a value with a read-only accessor")
  else .ok { a with fieldsUpdated := a.fieldsUpdated.insert key none }

/-- The items that the iterator of `list_prefix` starts with. -/
def listPrefix (a : Accessor) (m : StoreManager) (pre : Key) : List ListItem :=
  Id.run (mergeFields (fun v => pure (valueToType v)) a.fieldsUpdated (m.listPrefix a.clientName pre))

/-- The chunk of the next response and what is left behind it. `respond` sends the chunk, which may
fail. -/
def listNext (results : List ListItem) : Except Fault (List ListItem × List ListItem) :=
  .ok (nextChunk listPrefixChunkSize results)

def getNext (enableBytes : Bool) (results : List KeyValue) :
    Except Fault (List KeyValue × List KeyValue) :=
  let (chunk, rest) := nextChunk getPrefixChunkSize results
  if !enableBytes && chunk.any (fun item => valueToType item.payload = .bytesVal) then .error bytesDisabled
  else .ok (chunk, rest)

def deletePrefix (a : Accessor) (m : StoreManager) (pre : Key) : Except Fault Accessor :=
  if a.readOnly then .error (.error "client attempted to delete a prefix with a read-only accessor")
  else
    let cleared := a.fieldsUpdated.entries.foldl
      (fun h (u : Update) => if pre.isPrefixOf u.1 then h.replace u.1 none else h) a.fieldsUpdated
    .ok { a with fieldsUpdated :=
      (m.listPrefix a.clientName pre).foldl (fun h item => h.insert item.key none) cleared }

def store (K : Kernel) (client : ClientName) (key : Key) : Option Value → StoreM Unit
  | some val => fun m =>
    match cloneValue K val with
    | .ok v => StoreManager.setValue client key v m
    | .error e => .error e m
  | none => StoreManager.deleteValue client key

/-- The loop of `commit` over the pending updates. The state has the values recorded so far, which
are there also after a failure. -/
def commitUpdates (K : Kernel) (client : ClientName) :
    List Update → EStateM Fault (StoreManager × HashMap Key (Option Value)) Unit
  | [] => pure ()
  | u :: us => fun (m, olds) =>
    match (m.getValue client u.1).mapM (cloneValue K) with
    | .error e => .error e (m, olds)
    | .ok old =>
      match store K client u.1 u.2 m with
      | .error e m' => .error e (m', olds.insert u.1 old)
      | .ok () m' => commitUpdates K client us (m', olds.insert u.1 old)

/-- The loop of `commit` that puts the recorded values back. -/
def revert (K : Kernel) (client : ClientName) : List Update → StoreM Unit
  | [] => pure ()
  | u :: us => do
    store K client u.1 u.2
    revert K client us

/-- `commit`. The order in which the recorded values are iterated is not known, so it is a
parameter. -/
def commit (K : Kernel) (order : HashMap Key (Option Value) → List Update) :
    EStateM Fault (StoreManager × Accessor) Unit := fun (m, a) =>
  if a.readOnly then .error (.error "client attempted to commit with a read-only accessor") (m, a)
  else
    let cleared := { a with fieldsUpdated := ∅ }
    match commitUpdates K a.clientName a.fieldsUpdated.entries (m, ∅) with
    | .ok () (m', _) => .ok () (m', cleared)
    | .error e (m', olds) =>
      match revert K a.clientName (order olds) m' with
      | .ok () m'' => .error e (m'', cleared)
      | .error e' m'' => .error e' (m'', cleared)

end Accessor

end Garnet.Stash
