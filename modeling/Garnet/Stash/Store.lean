import Mathlib.Data.List.AList
import Garnet.Lib.LittleEndian
import Garnet.Lib.Outcome

/-! The stash store: values of clients under keys, kept in memory and saved as a whole to a
backing file after each change. -/

namespace Garnet.Stash
open LittleEndian

/-- A map of the source. The order of the entries is the one in which it is iterated. -/
abbrev HashMap (κ ν : Type) := AList fun _ : κ => ν

abbrev ClientName := List UInt8
abbrev Key := List UInt8

/-- A buffer by its contents: the first `size` bytes of its VMO, fewer if the VMO is shorter. -/
structure Buffer where
  vmo : List UInt8
  size : Nat
  short : vmo.length ≤ size
  deriving DecidableEq

inductive Value where
  | intval (x : Int64)
  | floatval (bits : UInt64)
  | boolval (x : Bool)
  | stringval (x : List UInt8)
  | bytesval (x : Buffer)
  deriving DecidableEq

inductive ValueType where
  | intVal
  | floatVal
  | boolVal
  | stringVal
  | bytesVal
  deriving Repr, DecidableEq

structure Kernel where
  createChild : List UInt8 → Nat → Except Fault (List UInt8)

/-- A child has the first `size` bytes of its parent. -/
def Kernel.Clones (K : Kernel) : Prop :=
  ∀ vmo size, ∃ child, K.createChild vmo size = .ok child ∧ child.take size = vmo.take size

def Kernel.copying : Kernel := ⟨fun vmo _ => .ok vmo⟩

theorem Kernel.copying_clones : Kernel.copying.Clones := fun vmo _ => ⟨vmo, rfl, rfl⟩

def cloneBuffer (K : Kernel) (b : Buffer) : Except Fault Buffer := do
  let child ← K.createChild b.vmo b.size
  pure ⟨child.take b.size, b.size, List.length_take_le ..⟩

def cloneValue (K : Kernel) : Value → Except Fault Value
  | .bytesval b => do pure (.bytesval (← cloneBuffer K b))
  | v => pure v

theorem Kernel.Clones.cloneValue {K : Kernel} (hK : K.Clones) (v : Value) :
    cloneValue K v = .ok v := by
  cases v with
  | bytesval b =>
    obtain ⟨child, hrun, htake⟩ := hK b.vmo b.size
    rw [List.take_of_length_le b.short] at htake
    simp only [Stash.cloneValue, cloneBuffer, hrun, htake, ok_bind, except_pure]
  | _ => rfl

def valueToType : Value → ValueType
  | .intval _ => .intVal
  | .floatval _ => .floatVal
  | .boolval _ => .boolVal
  | .stringval _ => .stringVal
  | .bytesval _ => .bytesVal

structure Store where
  data : HashMap ClientName (HashMap Key Value)

def valueTypeAsBytes (v : Value) : List UInt8 :=
  match v with
  | .intval _ => [0x00]
  | .floatval _ => [0x01]
  | .boolval _ => [0x02]
  | .stringval _ => [0x03]
  | .bytesval _ => [0x04]

def valueIntoBytes (v : Value) : List UInt8 :=
  match v with
  | .intval x => toLe 8 x.toUInt64.toNat
  | .floatval bits => toLe 8 bits.toNat
  | .boolval x => [if x then 0x01 else 0x00]
  | .stringval s => s
  | .bytesval b => b.vmo

def Store.serializeEntry (e : Σ _ : Key, Value) : List UInt8 :=
  toLe 8 e.1.length ++ e.1 ++ valueTypeAsBytes e.2 ++ toLe 8 (valueIntoBytes e.2).length ++
    valueIntoBytes e.2

def Store.serialize (s : Store) : List UInt8 :=
  s.data.entries.flatMap fun c =>
    toLe 8 c.1.length ++ c.1 ++ toLe 8 c.2.entries.length ++ c.2.entries.flatMap serializeEntry

/-- The step of `save_store` that fails: reading a VMO, opening the temporary file, writing it
after some bytes, or renaming it. -/
inductive SaveStep where
  | read
  | openTemp
  | write (written : Nat)
  | rename
  deriving Repr, DecidableEq

structure SaveFault where
  step : SaveStep
  message : String
  deriving Repr, DecidableEq

/-- A store with the files it is saved to. `saves` says how the calls of `save_store` to come end;
those behind its end succeed. -/
structure StoreManager where
  store : Store
  backingFile : Option (List UInt8)
  tempFile : Option (List UInt8)
  saves : List (Option SaveFault)

abbrev StoreM := EStateM Fault StoreManager

namespace StoreManager

def saveStore : StoreM Unit := fun m =>
  let contents := m.store.serialize
  let m' := { m with saves := m.saves.tail }
  match m.saves.head?.join with
  | none => .ok () { m' with backingFile := some contents, tempFile := none }
  | some ⟨.read, msg⟩ => .error (.error msg) m'
  | some ⟨.openTemp, msg⟩ => .error (.error msg) m'
  | some ⟨.write n, msg⟩ => .error (.error msg) { m' with tempFile := some (contents.take n) }
  | some ⟨.rename, msg⟩ => .error (.error msg) { m' with tempFile := some contents }

def getValue (m : StoreManager) (client : ClientName) (key : Key) : Option Value :=
  match m.store.data.lookup client with
  | none => none
  | some fields => fields.lookup key

/-- `entry(client).or_insert(HashMap::new())` followed by a change of the fields. -/
def modifyFields (client : ClientName) (f : HashMap Key Value → HashMap Key Value)
    (m : StoreManager) : StoreManager :=
  let fields := (m.store.data.lookup client).getD ∅
  { m with store := ⟨m.store.data.insert client (f fields)⟩ }

def setValue (client : ClientName) (key : Key) (field : Value) : StoreM Unit := do
  modify (modifyFields client fun fields => fields.insert key field)
  saveStore

def deleteValue (client : ClientName) (key : Key) : StoreM Unit := do
  modify (modifyFields client fun fields => fields.erase key)
  saveStore

end StoreManager

/-- `ListItem` and `KeyValue`: a key with the type, respectively the value, under it. -/
structure Item (τ : Type) where
  key : Key
  payload : τ
  deriving Repr, DecidableEq

abbrev ListItem := Item ValueType
abbrev KeyValue := Item Value

/-- The fields of a client under a prefix, each read by `f`. -/
def StoreManager.fieldsUnder {μ : Type → Type} [Monad μ] {τ : Type} (f : Value → μ τ)
    (m : StoreManager) (client : ClientName) (pre : Key) : μ (List (Item τ)) :=
  match m.store.data.lookup client with
  | none => pure []
  | some fields =>
    (fields.entries.filter fun e => pre.isPrefixOf e.1).mapM fun e => do pure ⟨e.1, ← f e.2⟩

def StoreManager.listPrefix (m : StoreManager) (client : ClientName) (pre : Key) : List ListItem :=
  Id.run (m.fieldsUnder (fun v => pure (valueToType v)) client pre)

end Garnet.Stash
