import Garnet.Lib.LittleEndian
import Garnet.Lib.Chunks
import Garnet.Lib.Reader

/-! The Merkle tree builder: data is written in pieces of any length, full blocks are hashed as
they come, and full blocks of hashes are hashed into the level above. -/

namespace Garnet.Merkle
open LittleEndian

def blockSize : Nat := 8192
def hashSize : Nat := 32
def hashesPerBlock : Nat := blockSize / hashSize

structure Hash where
  bytes : List UInt8
  length_eq : bytes.length = hashSize

def makeIdentity (length level offset : Nat) : List UInt8 :=
  toLe 8 (offset ||| level) ++ toLe 4 length

/-- The hash function is any function of the bytes that the hasher is given. -/
abbrev Sha := List UInt8 → Hash

variable (sha : Sha)

def hashBlock (block : List UInt8) (offset : Nat) : Except Fault Hash :=
  if block.length ≤ blockSize ∧ offset % blockSize = 0 then
    let fill := if block.length ≠ blockSize ∧ ¬ (block.length = 0 ∧ offset = 0) then
      List.replicate (blockSize - block.length) 0 else []
    .ok (sha (makeIdentity block.length 0 offset ++ block ++ fill))
  else .error .panic

def hashHashes (hashes : List Hash) (level offset : Nat) : Except Fault Hash :=
  if hashes.length ≠ 0 ∧ hashes.length ≤ hashesPerBlock ∧ level > 0 ∧ offset % blockSize = 0 then
    .ok (sha (makeIdentity blockSize level offset ++ hashes.flatMap Hash.bytes ++
      (List.replicate (hashesPerBlock - hashes.length) (List.replicate hashSize 0)).flatten))
  else .error .panic

structure MerkleTree where
  levels : List (List Hash)

def MerkleTree.root (t : MerkleTree) : Except Fault Hash :=
  match t.levels.getLast? with
  | some (hash :: _) => .ok hash
  | _ => .error .panic

/-- Hash the last block of hashes of a level, complete or not, into the levels `above` it. -/
def commitTailBlock (sha : Sha) (level : Nat) (hashes : List Hash) :
    List (List Hash) → Except Fault (List (List Hash))
  | [] => do
    -- the new level has one hash, which does not fill a block
    let hash ← hashHashes sha (hashes.drop (firstHash hashes.length)) (level + 1) (0 * blockSize)
    pure [[hash]]
  | next :: rest => do
    let hash ← hashHashes sha (hashes.drop (firstHash hashes.length)) (level + 1) (next.length * blockSize)
    let next := next ++ [hash]
    if next.length % hashesPerBlock = 0 then do
      let rest ← commitTailBlock sha (level + 1) next rest
      pure (next :: rest)
    else pure (next :: rest)
where
  firstHash (len : Nat) : Nat :=
    if len % hashesPerBlock = 0 then len - hashesPerBlock else len - len % hashesPerBlock

structure MerkleTreeBuilder where
  block : List UInt8
  levels : List (List Hash)

variable (b : MerkleTreeBuilder)

namespace MerkleTreeBuilder

def new : MerkleTreeBuilder := ⟨[], [[]]⟩

/-- `hash_block` with the offset of the next hash of level 0. -/
def hashBlock (sha : Sha) (b : MerkleTreeBuilder) (block : List UInt8) : Except Fault Hash :=
  match b.levels with
  | [] => .error .panic
  | leaves :: _ => Merkle.hashBlock sha block (leaves.length * blockSize)

def pushDataHash (hash : Hash) : Except Fault MerkleTreeBuilder :=
  match b.levels with
  | [] => .error .panic
  | leaves :: above => do
    let leaves := leaves ++ [hash]
    if leaves.length % hashesPerBlock = 0 then do
      let above ← commitTailBlock sha 0 leaves above
      pure ⟨[], leaves :: above⟩
    else pure ⟨[], leaves :: above⟩

/-- Fill the current partial block, if it exists, and return what is left of the buffer. -/
def fillBlock (buf : List UInt8) : Except Fault (MerkleTreeBuilder × List UInt8) :=
  if b.block.isEmpty then pure (b, buf)
  else do
    let left := blockSize - b.block.length
    let pre := min buf.length left
    let b := { b with block := b.block ++ buf.take pre }
    if b.block.length = blockSize then do
      let b ← b.pushDataHash sha (← b.hashBlock sha b.block)
      pure (b, buf.drop pre)
    else pure (b, buf.drop pre)

/-- A full block is hashed; the final partial block is kept for later writes. -/
def writeBlock (block : List UInt8) : Except Fault MerkleTreeBuilder := do
  if block.length = blockSize then b.pushDataHash sha (← b.hashBlock sha block)
  else pure { b with block := b.block ++ block }

def write (buf : List UInt8) : Except Fault MerkleTreeBuilder := do
  let (b, buf) ← b.fillBlock sha buf
  (chunks blockSize buf).foldlM (writeBlock sha) b

/-- One round of the loop of `finish`: a level with a partial block of hashes is finalized. -/
def finishLevel (level : Nat) (hashes : List Hash) (above : List (List Hash)) :
    Except Fault (List (List Hash)) :=
  if hashes.length > 1 ∧ hashes.length % hashesPerBlock ≠ 0 then commitTailBlock sha level hashes above
  else pure above

/-- The loop of `finish` over the levels from `level` up. Levels can be added on the way, so the
number of rounds is bounded by `fuel`. -/
def finishLevels (sha : Sha) :
    Nat → Nat → List Hash → List (List Hash) → Except Fault (List (List Hash))
  | 0, _, _, _ => .error .diverge
  | fuel + 1, level, hashes, above => do
    match ← finishLevel sha level hashes above with
    | [] => pure [hashes]
    | next :: rest => do pure (hashes :: (← finishLevels sha fuel (level + 1) next rest))

/-- A partial data block, or the empty block of an empty tree, is hashed before the levels. -/
def finishBlock : Except Fault MerkleTreeBuilder := do
  if !b.block.isEmpty || (b.levels.headD []).isEmpty then b.pushDataHash sha (← b.hashBlock sha b.block)
  else pure b

/-- `finish`. There are at most as many levels as there are blocks of data. -/
def finish : Except Fault MerkleTree := do
  let b ← b.finishBlock sha
  match b.levels with
  | [] => .error .panic
  | leaves :: above => do pure ⟨← finishLevels sha leaves.length 0 leaves above⟩

end MerkleTreeBuilder

/-- The loop of `MerkleTree::from_reader`. -/
def readAll (sha : Sha) : Nat → Reader UInt8 → MerkleTreeBuilder → Except Fault MerkleTree
  | 0, _, _ => .error .diverge
  | fuel + 1, reader, builder => do
    let (buf, reader) ← reader.read blockSize
    if buf.isEmpty then builder.finish sha
    else do readAll sha fuel reader (← builder.write sha buf)

def MerkleTree.fromReader (fuel : Nat) (reader : Reader UInt8) : Except Fault MerkleTree :=
  readAll sha fuel reader .new

end Garnet.Merkle
