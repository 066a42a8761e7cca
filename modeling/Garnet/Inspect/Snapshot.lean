import Garnet.Inspect.Block

/-! Snapshots of an Inspect VMO: which blocks they have, and when a copy of the VMO is one. -/

namespace Garnet.Inspect

/-- The first `n` bytes of a slice. -/
def Slice.firstBytes (s : Slice) (n : Nat) : Slice := ⟨min n s.len, s.byte⟩

/-- The blocks that `BlockIterator` returns from `offset` on. Every block has at least 16 bytes, so
`fuel` bounds their number. -/
def scanFrom (container : Slice) : Nat → Nat → Except Fault (List Nat)
  | 0, _ => .error .diverge
  | fuel + 1, offset =>
    if container.len ≤ offset then pure []
    else do
      let index ← indexForOffset offset
      let order ← Block.order container index
      if container.len - offset < orderToSize order then pure []
      else
        let rest ← scanFrom container fuel (offset + orderToSize order)
        pure (index :: rest)

def scanSlice (container : Slice) : Except Fault (List Nat) :=
  scanFrom container (container.len / minOrderSize + 2) 0

/-- The block is a header of the version that this reader knows, and passes `test`. -/
def isHeader (s : Slice) (index : Nat) (test : Except Fault Bool) : Except Fault Bool := do
  let type ← Block.blockType s index
  if type = .header then
    let magic ← unwrap (Block.headerMagic s index)
    if magic = headerMagicNumber then
      let version ← unwrap (Block.headerVersion s index)
      if version = headerVersionNumber then test else pure false
    else pure false
  else pure false

/-- The generation count in the header, when the header is valid and not locked. -/
def headerGenerationCount (bytes : Slice) : Except Fault (Option Nat) :=
  if bytes.len < 16 then pure none
  else do
    let blocks ← scanSlice bytes
    let found ← blocks.findM? fun block => isHeader bytes block do
      let locked ← unwrap (Block.headerIsLocked bytes block)
      pure !locked
    match found with
    | none => pure none
    | some block =>
      match Block.headerGenerationCount bytes block with
      | .ok generation => pure (some generation)
      | .error (.error _) => pure none
      | .error e => .error e

/-- The copied header has the generation count that was read before the copy. -/
def sameGeneration (buffer : Slice) (generation : Nat) : Except Fault Bool := do
  let blocks ← scanSlice (buffer.firstBytes 16)
  let found ← blocks.findM? fun block => isHeader (buffer.firstBytes 16) block do
    let count ← unwrap (Block.headerGenerationCount (buffer.firstBytes 16) block)
    pure (count == generation)
  pure found.isSome

structure Snapshot where
  buffer : Slice

namespace Snapshot

def scan (s : Snapshot) : Except Fault (List Nat) := scanSlice s.buffer

def getBlock (s : Snapshot) (index : Nat) : Option Nat :=
  if offsetForIndex index < s.buffer.len then some index else none

/-- `SNAPSHOT_TRIES`. -/
def tries : Nat := 1024

/-- The loop of `try_from_with_callback`: each try reads the 16 bytes of the header, and then the
whole VMO if the header allows it. `header` and `vmo` say what the reads of each try return. -/
def tryFromLoop (header vmo : Nat → Slice) : Nat → Except Fault Snapshot
  | 0 => .error (.error "Failed to read snapshot from vmo")
  | left + 1 => do
    let generation ← headerGenerationCount (header left)
    match generation with
    | none => tryFromLoop header vmo left
    | some gen =>
      let same ← sameGeneration (vmo left) gen
      if same then pure ⟨vmo left⟩ else tryFromLoop header vmo left

/-- `Snapshot::try_from` of a VMO that nobody writes meanwhile. -/
def tryFrom (vmo : Slice) : Except Fault Snapshot :=
  tryFromLoop (fun _ => vmo.firstBytes 16) (fun _ => vmo) tries

/-- `Snapshot::try_from` of a byte vector. The slice of the first 16 bytes panics on a shorter
one. -/
def tryFromBytes (bytes : Slice) : Except Fault Snapshot :=
  if bytes.len < 16 then .error .panic
  else do
    let generation ← Inspect.headerGenerationCount (bytes.firstBytes 16)
    match generation with
    | some _ => pure ⟨bytes⟩
    | none => .error (.error "expected block with at least a header")

end Snapshot

end Garnet.Inspect
