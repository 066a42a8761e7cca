import Garnet.Lib.Splice
import Garnet.Gpt.Table

/-! Writing a GUID Partition Table to a seekable disk, reading it back, and its validation. -/

namespace Garnet.Gpt

/-- `int64(x)`. -/
def toInt64 (x : UInt64) : Int := if x.toNat < 2 ^ 63 then x.toNat else x.toNat - 2 ^ 64

/-- The disk being written, the position in it, and the running total of `WriteTo`. -/
structure Out where
  disk : List UInt8
  pos : Nat
  total : Int

namespace Out

def write (b : List UInt8) (o : Out) : Except Fault Out :=
  if o.pos + b.length ≤ o.disk.length then .ok ⟨splice o.pos b o.disk, o.pos + b.length, o.total + b.length⟩
  else .error (.error "short write")

/-- `io.CopyN` from the null reader: a count that is not positive copies nothing. -/
def zeros (n : Int) (o : Out) : Except Fault Out :=
  if n ≤ 0 then .ok o else o.write (List.replicate n.toNat 0)

/-- `seekOrWrite` on a seeker moves on and reports nothing written. -/
def seekOrWrite (n : Int) (o : Out) : Except Fault Out :=
  if o.pos + n < 0 then .error (.error "negative position") else .ok { o with pos := (o.pos + n).toNat }

def fillBlock (logical : Int) (o : Out) : Except Fault Out :=
  if o.total.tmod logical ≠ 0 then o.zeros (logical - o.total.tmod logical) else .ok o

def writeEntries : List PartitionEntry → Out → Except Fault Out
  | [], o => .ok o
  | p :: rest, o => do
    let o ← o.write (entryCodec.encode p)
    writeEntries rest o

end Out

/-- `PartitionArrayPad`. -/
def PartitionTable.arrayPad (pt : PartitionTable) : Int :=
  ((pt.header.numberOfPartitionEntries * pt.header.sizeOfPartitionEntry).toNat : Int) -
    ((pt.partitions.length * pt.header.sizeOfPartitionEntry.toNat : Nat) : Int)

def FallbackLogicalBlockSize : UInt64 := 512

/-- `WriteTo` up to the end of the primary table. -/
def GPT.writePrimary (g : GPT) (logical : Int) (disk : List UInt8) : Except Fault Out := do
  let o ← Out.write (mbrCodec.encode g.mbr) ⟨disk, 0, 0⟩
  let o ← o.zeros (o.total - logical)
  let o ← o.write (headerCodec.encode g.primary.header)
  let o ← o.fillBlock logical
  let o ← o.writeEntries g.primary.partitions
  o.zeros g.primary.arrayPad

/-- The rest of `WriteTo`. -/
def GPT.writeBackup (g : GPT) (block : UInt64) (logical : Int) (o : Out) : Except Fault Out := do
  let o ← o.seekOrWrite (toInt64 (g.backup.header.partitionEntryLBA * block) - o.total)
  let o ← o.writeEntries g.backup.partitions
  let o ← o.zeros g.primary.arrayPad
  let o ← o.fillBlock logical
  let o ← o.write (headerCodec.encode g.backup.header)
  o.fillBlock logical

def GPT.writeTo (g : GPT) (disk : List UInt8) : Except Fault (List UInt8) := do
  let block := if g.logical = 0 then FallbackLogicalBlockSize else g.logical
  let o ← g.writePrimary (toInt64 block) disk
  let o ← g.writeBackup block (toInt64 block) o
  return o.disk

def seek (pos : Int) : Except Fault Unit :=
  if pos < 0 then .error (.error "negative position") else .ok ()

/-- `binary.Read` of `n` bytes at a position that was sought to. -/
def readAt (disk : List UInt8) (n : Nat) (pos : Int) : Except Fault (List UInt8) :=
  if pos < 0 then .error (.error "negative position")
  else if pos.toNat + n ≤ disk.length then .ok (slice n pos.toNat disk)
  else .error (.error "unexpected EOF")

def readEntries (disk : List UInt8) (pad : Int) : Nat → Int → Except Fault (List PartitionEntry)
  | 0, _ => .ok []
  | n + 1, pos => do
    let b ← readAt disk entryCodec.size pos
    let rest ← readEntries disk pad n (pos + entryCodec.size + pad)
    return entryCodec.decode b :: rest

/-- The half of `ReadGPT` that reads a header and, if its checksum is right, the partitions. -/
def readTable (crc : List UInt8 → UInt32) (blockSize : UInt64) (disk : List UInt8) (pos : Int) :
    Except Fault PartitionTable := do
  let b ← readAt disk headerCodec.size pos
  let header := headerCodec.decode b
  if PartitionTable.computeHeaderCRC32 crc ⟨header, []⟩ = header.headerCRC32 then
    let ptLoc := toInt64 (header.partitionEntryLBA * blockSize)
    seek ptLoc
    let header := if header.sizeOfPartitionEntry = 0 then
      { header with sizeOfPartitionEntry := PartitionEntrySize } else header
    let numPartitions := MinPartitionEntryArraySize / header.sizeOfPartitionEntry
    let numPartitions :=
      if numPartitions < header.numberOfPartitionEntries then header.numberOfPartitionEntries else numPartitions
    let pePad : Int := (header.sizeOfPartitionEntry - PartitionEntrySize).toNat
    let partitions ← readEntries disk pePad numPartitions.toNat ptLoc
    return ⟨header, partitions⟩
  else
    return ⟨header, []⟩

/-- `ReadGPT` from a reader that stands at the start of the disk. -/
def readGPT (crc : List UInt8 → UInt32) (blockSize diskSize : UInt64) (disk : List UInt8) :
    Except Fault GPT := do
  let b ← readAt disk mbrCodec.size 0
  let primary ← readTable crc blockSize disk (toInt64 blockSize)
  let backup ← readTable crc blockSize disk (toInt64 (diskSize - blockSize))
  return ⟨mbrCodec.decode b, primary, backup, 0, 0, 0, 0⟩

inductive ErrInvalidGPT where
  | invalidSignature
  | invalidAddress
  | headerCRC
  deriving DecidableEq

/-- The errors that `Validate` collects; none is `nil`. -/
def GPT.validate (crc : List UInt8 → UInt32) (g : GPT) : List ErrInvalidGPT :=
  (if g.primary.header.signature ≠ EFISignature ∨ g.backup.header.signature ≠ EFISignature then
      [.invalidSignature] else []) ++
    (if g.primary.header.myLBA ≠ 1 ∨ g.backup.header.alternateLBA ≠ 1 then [.invalidAddress] else []) ++
      (if g.primary.header.alternateLBA ≠ g.backup.header.myLBA ∨
          g.backup.header.alternateLBA ≠ g.primary.header.myLBA
        then [.invalidAddress] else []) ++
        (if g.primary.computeHeaderCRC32 crc ≠ g.primary.header.headerCRC32 ∨
            g.backup.computeHeaderCRC32 crc ≠ g.backup.header.headerCRC32 then [.headerCRC] else [])

end Garnet.Gpt
