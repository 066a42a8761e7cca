import Garnet.Merkle.Builder

/-! The Merkle tree of the Go package: a linked list of levels, each with its hashes as bytes. -/

namespace Garnet.Merkle.GoTree
open LittleEndian

/-- A level of the tree. Offset and level are the 64-bit numbers of the source; only their low
bytes are hashed, so they are kept without a bound. -/
structure Node where
  level : Nat
  hashes : List UInt8
  offset : Nat

/-- The part of `addBlock` before it goes on to the next level. -/
def absorb (sha : Sha) (t : Node) (b : List UInt8) : Except Fault Node :=
  if blockSize < b.length then .error .panic
  else
    let sum :=
      sha (toLe 8 (t.offset ||| t.level) ++ toLe 4 b.length ++ b ++
        List.replicate (blockSize - b.length) 0)
    .ok { t with offset := t.offset + b.length, hashes := t.hashes ++ sum.bytes }

/-- What `getNext` makes above a level that has none. -/
def fresh (t : Node) : Node := ⟨t.level + 1, [], 0⟩

def lastBlock (hashes : List UInt8) : List UInt8 := hashes.drop (hashes.length - blockSize)

/-- `addBlock` on a level and the levels linked above it. -/
def addBlock (sha : Sha) (t : Node) (b : List UInt8) : List Node → Except Fault (List Node)
  | [] => do
    let t ← absorb sha t b
    if t.hashes.length > 0 ∧ t.hashes.length % blockSize = 0 then do
      -- the new level has one hash, which does not fill a block
      let next ← absorb sha (fresh t) (lastBlock t.hashes)
      pure [t, next]
    else pure [t]
  | next :: rest => do
    let t ← absorb sha t b
    if t.hashes.length > 0 ∧ t.hashes.length % blockSize = 0 then do
      let above ← addBlock sha next (lastBlock t.hashes) rest
      pure (t :: above)
    else pure (t :: next :: rest)

/-- `t.getNext().addBlock(block)`. -/
def addNext (sha : Sha) (t : Node) (block : List UInt8) : List Node → Except Fault (List Node)
  | [] => addBlock sha (fresh t) block []
  | next :: rest => addBlock sha next block rest

def padRemainder (sha : Sha) (t : Node) (above : List Node) : Except Fault (List Node) :=
  let remainder := t.hashes.length % blockSize
  if remainder ≠ 0 then
    addNext sha t (t.hashes.drop (t.hashes.length - remainder) ++
      List.replicate (blockSize - remainder) 0) above
  else pure above

/-- `finish`: the top of the tree. The number of levels is bounded by `fuel`. -/
def finish (sha : Sha) : Nat → Node → List Node → Except Fault Node
  | 0, _, _ => .error .diverge
  | fuel + 1, t, above => do
    if t.hashes.length = 0 ∨ t.hashes.length = hashSize then pure t
    else
      match ← padRemainder sha t above with
      | [] => finish sha fuel (fresh t) []
      | next :: rest => finish sha fuel next rest

/-- What `ReadFrom` returns, and the tree it leaves. -/
structure ReadResult where
  levels : List Node
  total : Nat
  err : Option Fault

def takeBlock (sha : Sha) (t : Node) (above : List Node) (buf : List UInt8) :
    Except Fault (List Node) :=
  if buf.length > 0 then addBlock sha t buf above else pure (t :: above)

/-- `ReadFrom`: blocks are read with `io.ReadFull` until the reader ends. -/
def readFrom (sha : Sha) : Nat → List Node → Nat → Reader UInt8 → Except Fault ReadResult
  | 0, _, _, _ => .error .diverge
  | _, [], _, _ => .error .panic
  | fuel + 1, t :: above, total, r => do
    let (buf, pieces, ended) := Reader.takeFull blockSize r.pieces
    let levels ← takeBlock sha t above buf
    if ended then pure ⟨levels, total + buf.length, r.failure⟩
    else readFrom sha fuel levels (total + buf.length) { r with pieces := pieces }

def empty : List Node := [⟨0, [], 0⟩]

/-- `Root`. There are at most as many levels above a level as it has bytes of hashes. -/
def root (sha : Sha) : List Node → Except Fault (List UInt8)
  | [] => .error .panic
  | t :: above => do
    let top ← finish sha (t.hashes.length + 1) t above
    if top.hashes.length = 0 then pure (sha (List.replicate 12 0)).bytes else pure top.hashes

end Garnet.Merkle.GoTree
