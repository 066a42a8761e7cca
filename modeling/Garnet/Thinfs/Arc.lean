import Garnet.Lib.Outcome
import Mathlib.Data.List.AList

/-! The object cache of thinfs, with an adaptive replacement policy. An entry is known by its key
in the map of entries; an element of a list is known by a number that is never given twice. -/

namespace Garnet.Arc

/-- The four lists: recently used, frequently used, and the history of either. -/
inductive ListName where
  | lru
  | lruhist
  | lfu
  | lfuhist
  deriving Repr, DecidableEq

structure Element (κ : Type) where
  id : Nat
  key : κ
  deriving Repr, DecidableEq

structure Entry (κ ν : Type) where
  elem : Option (Element κ)
  list : Option ListName
  value : Option ν
  isDirty : Bool

structure BackingStore (κ ν σ ε : Type) where
  get : κ → EStateM ε σ (Option ν)
  put : κ → Option ν → EStateM ε σ Unit

structure C (κ ν σ : Type) where
  lists : ListName → List (Element κ)
  p : Int
  size : Nat
  bs : σ
  entries : AList fun _ : κ => Entry κ ν
  fresh : Nat

inductive Panic (ε : Type) where
  | nilPointer
  | divideByZero
  | store (e : ε)

section Calls
variable {κ ν σ ε : Type} [DecidableEq κ]

abbrev CacheM (κ ν σ ε : Type) := EStateM (Panic ε) (C κ ν σ)

def new (size : Nat) (bs : σ) : C κ ν σ := ⟨fun _ => [], 0, size, bs, ∅, 0⟩

def onStore {α : Type} (x : EStateM ε σ α) : CacheM κ ν σ ε α := fun c =>
  match x c.bs with
  | .ok a s => .ok a { c with bs := s }
  | .error e s => .error (.store e) { c with bs := s }

def entryOf (k : κ) : CacheM κ ν σ ε (Entry κ ν) := fun c =>
  match c.entries.lookup k with
  | some e => .ok e c
  | none => .error .nilPointer c

def setEntry (k : κ) (e : Entry κ ν) : CacheM κ ν σ ε Unit :=
  modify fun c => { c with entries := c.entries.insert k e }

/-- `list.Back().Value`. -/
def back (l : ListName) : CacheM κ ν σ ε κ := fun c =>
  match (c.lists l).getLast? with
  | some el => .ok el.key c
  | none => .error .nilPointer c

/-- `list.Remove`. -/
def listRemove (l : ListName) : Option (Element κ) → CacheM κ ν σ ε Unit
  | some el => modify fun c => { c with lists := Function.update c.lists l ((c.lists l).erase el) }
  | none => throw .nilPointer

/-- `list.PushFront`. -/
def pushFront (l : ListName) (k : κ) : CacheM κ ν σ ε (Element κ) := fun c =>
  .ok ⟨c.fresh, k⟩ { c with
    lists := Function.update c.lists l (⟨c.fresh, k⟩ :: c.lists l), fresh := c.fresh + 1 }

variable (store : BackingStore κ ν σ ε)

def commit (k : κ) (e : Entry κ ν) : CacheM κ ν σ ε Unit :=
  if e.isDirty then onStore (store.put k e.value) else pure ()

def evict (top bottom : ListName) : CacheM κ ν σ ε Unit := do
  let k ← back top
  let victim ← entryOf k
  commit store k victim
  listRemove top victim.elem
  let elem ← pushFront bottom k
  setEntry k ⟨some elem, some bottom, none, false⟩

variable (e : Entry κ ν)

def replace : CacheM κ ν σ ε Unit := do
  let c ← get
  let lrulen := (c.lists .lru).length
  if lrulen ≥ 1 ∧ ((e.list = some .lfuhist ∧ lrulen = c.p) ∨ lrulen > c.p) then evict store .lru .lruhist
  else evict store .lfu .lfuhist

def remove (k : κ) : CacheM κ ν σ ε Unit := do
  let e ← entryOf k
  commit store k e
  match e.list with
  | some l => listRemove l e.elem
  | none => throw .nilPointer
  modify fun c => { c with entries := c.entries.erase k }

/-- The room that `handleMiss` makes. -/
def makeRoom : CacheM κ ν σ ε Unit := do
  let c ← get
  let l1len := (c.lists .lru).length + (c.lists .lruhist).length
  let l2len := (c.lists .lfu).length + (c.lists .lfuhist).length
  if c.size = l1len then
    if (c.lists .lru).length < c.size then do
      remove store (← back .lruhist)
      replace store e
    else do remove store (← back .lru)
  else if l1len < c.size ∧ l1len + l2len ≥ c.size then
    if l1len + l2len = 2 * c.size then do
      remove store (← back .lfuhist)
      replace store e
    else replace store e
  else pure ()

def handleMiss (k : κ) : CacheM κ ν σ ε Unit := do
  let e ← entryOf k
  makeRoom store e
  let elem ← pushFront .lru k
  setEntry k { e with elem := some elem }

def handleHit (k : κ) : CacheM κ ν σ ε Unit := do
  let e ← entryOf k
  match e.list with
  | some l => listRemove l e.elem
  | none => throw .nilPointer
  let elem ← pushFront .lfu k
  setEntry k { e with elem := some elem, list := some .lfu }

/-- `a / b` of two lengths. -/
def quotient (a b : Nat) : CacheM κ ν σ ε Int :=
  if b = 0 then throw .divideByZero else pure (a / b : Nat)

def adapt : CacheM κ ν σ ε Unit := do
  let c ← get
  if e.list = some .lruhist then do
    let q ← quotient (c.lists .lfuhist).length (c.lists .lruhist).length
    modify fun c => { c with p := min c.size (c.p + max q 1) }
  else do
    let q ← quotient (c.lists .lruhist).length (c.lists .lfuhist).length
    modify fun c => { c with p := max 0 (c.p - max q 1) }

def handleFakeHit (k : κ) : CacheM κ ν σ ε Unit := do
  let e ← entryOf k
  adapt e
  replace store e
  handleHit k

def Entry.inHistory : Bool := e.list = some .lruhist || e.list = some .lfuhist

/-- `Get` and `Put`: the entry, which may be new, gets a value and a flag. -/
def access (k : κ) (load : Option (Entry κ ν) → CacheM κ ν σ ε (Option ν × Bool)) :
    CacheM κ ν σ ε Unit := do
  let c ← get
  match c.entries.lookup k with
  | none => do
    let (v, dirty) ← load none
    setEntry k ⟨none, some .lru, v, dirty⟩
    handleMiss store k
  | some e => do
    let (v, dirty) ← load (some e)
    setEntry k { e with value := v, isDirty := dirty }
    if e.inHistory then handleFakeHit store k else handleHit k

/-- The value and the flag that `Get` gives the entry. -/
def fetch (k : κ) : Option (Entry κ ν) → CacheM κ ν σ ε (Option ν × Bool)
  | none => do pure (← onStore (store.get k), false)
  | some e =>
    if e.inHistory then do pure (← onStore (store.get k), e.isDirty) else pure (e.value, e.isDirty)

/-- `Get`. The entry that it returns is the one of the key. -/
def getEntry (k : κ) : CacheM κ ν σ ε Unit := access store k (fetch store k)

def put (k : κ) (v : Option ν) : CacheM κ ν σ ε Unit :=
  access store k fun _ => pure (v, true)

/-- `Flush`, with the order in which the map is iterated. -/
def flush (store : BackingStore κ ν σ ε) : List κ → CacheM κ ν σ ε Unit
  | [] => pure ()
  | k :: ks => do
    let e ← entryOf k
    commit store k e
    setEntry k { e with isDirty := false }
    flush store ks

/-- What a caller of `Get` writes to the entry that it got. -/
def setValue (k : κ) (v : Option ν) (dirty : Bool) : CacheM κ ν σ ε Unit := do
  let e ← entryOf k
  setEntry k { e with value := v, isDirty := dirty }

end Calls

end Garnet.Arc
