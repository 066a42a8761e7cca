import Garnet.Lib.Codec
import Garnet.Lib.Outcome

/-! The records of a GUID Partition Table as they stand on the disk, the table, and the update of
its geometry and checksums. The checksum is a parameter, and so is the GUID that is drawn at
random. -/

namespace Garnet.Gpt

structure GUID where
  timeLow : UInt32
  timeMid : UInt16
  timeHi : UInt16
  seqHi : UInt8
  seqLo : UInt8
  node : ByteArr 6
  deriving DecidableEq

def GUIDUnused : GUID := ⟨0, 0, 0, 0, 0, ⟨List.replicate 6 0, rfl⟩⟩

def GUID.isZero (g : GUID) : Bool :=
  if g.timeLow ≠ 0 ∨ g.timeMid ≠ 0 ∨ g.timeHi ≠ 0 ∨ g.seqHi ≠ 0 ∨ g.seqLo ≠ 0 then false
  else g.node.val.all fun b => b == 0

def guidCodec : Codec GUID :=
  (Codec.uint32.pair (Codec.uint16.pair (Codec.uint16.pair
    (Codec.uint8.pair (Codec.uint8.pair (Codec.bytes 6)))))).map
    (fun g => (g.timeLow, g.timeMid, g.timeHi, g.seqHi, g.seqLo, g.node))
    (fun (a, b, c, d, e, f) => ⟨a, b, c, d, e, f⟩) (fun _ => rfl) fun _ => rfl

/-- `EFI PART`. -/
def EFISignature : ByteArr 8 := ⟨[0x45, 0x46, 0x49, 0x20, 0x50, 0x41, 0x52, 0x54], rfl⟩

def EFIRevision : ByteArr 4 := ⟨[0, 0, 1, 0], rfl⟩

def HeaderSize : UInt32 := 92

structure Header where
  signature : ByteArr 8
  revision : ByteArr 4
  headerSize : UInt32
  headerCRC32 : UInt32
  reserved : ByteArr 4
  myLBA : UInt64
  alternateLBA : UInt64
  firstUsableLBA : UInt64
  lastUsableLBA : UInt64
  diskGUID : GUID
  partitionEntryLBA : UInt64
  numberOfPartitionEntries : UInt32
  sizeOfPartitionEntry : UInt32
  partitionEntryArrayCRC32 : UInt32
  deriving DecidableEq

def headerCodec : Codec Header :=
  ((Codec.bytes 8).pair ((Codec.bytes 4).pair
    (Codec.uint32.pair (Codec.uint32.pair ((Codec.bytes 4).pair
    (Codec.uint64.pair (Codec.uint64.pair (Codec.uint64.pair (Codec.uint64.pair (guidCodec.pair
      (Codec.uint64.pair (Codec.uint32.pair (Codec.uint32.pair Codec.uint32))))))))))))).map
    (fun h => (h.signature, h.revision, h.headerSize, h.headerCRC32, h.reserved, h.myLBA,
      h.alternateLBA,
      h.firstUsableLBA, h.lastUsableLBA, h.diskGUID, h.partitionEntryLBA, h.numberOfPartitionEntries,
      h.sizeOfPartitionEntry, h.partitionEntryArrayCRC32))
    (fun (a, b, c, d, e, f, g, h, i, j, k, l, m, n) => ⟨a, b, c, d, e, f, g, h, i, j, k, l, m, n⟩)
    (fun _ => rfl) fun _ => rfl

def MinPartitionEntryArraySize : UInt32 := 16384

def PartitionEntrySize : UInt32 := 128

structure PartitionEntry where
  partitionTypeGUID : GUID
  uniquePartitionGUID : GUID
  startingLBA : UInt64
  endingLBA : UInt64
  attributes : UInt64
  partitionName : ByteArr 72
  deriving DecidableEq

def entryCodec : Codec PartitionEntry :=
  (guidCodec.pair (guidCodec.pair (Codec.uint64.pair
    (Codec.uint64.pair (Codec.uint64.pair (Codec.bytes 72)))))).map
    (fun p => (p.partitionTypeGUID, p.uniquePartitionGUID, p.startingLBA, p.endingLBA, p.attributes,
      p.partitionName))
    (fun (a, b, c, d, e, f) => ⟨a, b, c, d, e, f⟩) (fun _ => rfl) fun _ => rfl

def zeroEntry : PartitionEntry :=
  ⟨GUIDUnused, GUIDUnused, 0, 0, 0, ⟨List.replicate 72 0, List.length_replicate⟩⟩

def PartitionEntry.isZero (p : PartitionEntry) : Bool := p.uniquePartitionGUID = GUIDUnused

structure PartitionRecord where
  bootIndicator : UInt8
  startingCHS : ByteArr 3
  osType : UInt8
  endingCHS : ByteArr 3
  startingLBA : UInt32
  sizeInLBA : UInt32
  deriving DecidableEq

def recordCodec : Codec PartitionRecord :=
  (Codec.uint8.pair ((Codec.bytes 3).pair
    (Codec.uint8.pair ((Codec.bytes 3).pair (Codec.uint32.pair Codec.uint32))))).map
    (fun r => (r.bootIndicator, r.startingCHS, r.osType, r.endingCHS, r.startingLBA, r.sizeInLBA))
    (fun (a, b, c, d, e, f) => ⟨a, b, c, d, e, f⟩) (fun _ => rfl) fun _ => rfl

structure MBR where
  bootCode : ByteArr 424
  pad : ByteArr 16
  uniqueMBRDiskSignature : UInt32
  unknown : ByteArr 2
  partitionRecord : PartitionRecord × PartitionRecord × PartitionRecord × PartitionRecord
  signature : UInt16
  deriving DecidableEq

def mbrCodec : Codec MBR :=
  ((Codec.bytes 424).pair ((Codec.bytes 16).pair (Codec.uint32.pair ((Codec.bytes 2).pair
    ((recordCodec.pair (recordCodec.pair (recordCodec.pair recordCodec))).pair Codec.uint16))))).map
    (fun m => (m.bootCode, m.pad, m.uniqueMBRDiskSignature, m.unknown, m.partitionRecord,
      m.signature))
    (fun (a, b, c, d, e, f) => ⟨a, b, c, d, e, f⟩) (fun _ => rfl) fun _ => rfl

structure PartitionTable where
  header : Header
  partitions : List PartitionEntry

structure GPT where
  mbr : MBR
  primary : PartitionTable
  backup : PartitionTable
  /-- the block and transfer sizes and the disk size, in bytes -/
  logical : UInt64
  physical : UInt64
  optimal : UInt64
  size : UInt64

variable (crc : List UInt8 → UInt32) (pt : PartitionTable)

namespace PartitionTable

/-- The partition array as it is summed: the entries, then empty ones up to the number in the
header. -/
def arrayEntries : List PartitionEntry :=
  pt.partitions ++
    List.replicate (pt.header.numberOfPartitionEntries.toNat -
      (UInt32.ofNat pt.partitions.length).toNat) zeroEntry

def computePartitionArrayCRC32 : UInt32 :=
  crc (entryCodec.encodeAll pt.arrayEntries)

def computeHeaderCRC32 : UInt32 :=
  crc (headerCodec.encode { pt.header with headerCRC32 := 0 })

/-- The checksums at the end of `Update`. -/
def withCRCs : PartitionTable :=
  let pt := { pt with header := { pt.header with partitionEntryArrayCRC32 := pt.computePartitionArrayCRC32 crc } }
  { pt with header := { pt.header with headerCRC32 := pt.computeHeaderCRC32 crc } }

end PartitionTable

def nextAlignedLBA (nextLBA logical physical optimal : UInt64) : UInt64 :=
  let alignTo := logical
  let alignTo := if alignTo < physical then physical else alignTo
  let alignTo := if alignTo < optimal then optimal else alignTo
  let alignTo := alignTo / logical
  let d := nextLBA % alignTo
  if d ≠ 0 then nextLBA + (alignTo - d) else nextLBA

/-- The sizes that `Update` is given. -/
structure Geometry where
  blockSize : UInt64
  physicalBlockSize : UInt64
  optimalTransferLengthGranularity : UInt64
  diskSize : UInt64

/-- The loop of `Update` over the partitions. -/
def layOut (s : Geometry) : UInt64 → List PartitionEntry → Except Fault (List PartitionEntry)
  | _, [] => .ok []
  | nextUsableLBA, p :: rest =>
    if p.isZero then do
      let rest ← layOut s nextUsableLBA rest
      return p :: rest
    else
      let start := if p.startingLBA = 0 then nextUsableLBA else p.startingLBA
      let start :=
        nextAlignedLBA start s.blockSize s.physicalBlockSize s.optimalTransferLengthGranularity
      if p.endingLBA ≤ start then .error (.error "partition has invalid geometry after alignment")
      else if s.diskSize / s.blockSize < p.endingLBA then
        .error (.error "partition extends beyond disk geometry")
      else do
        let rest ← layOut s (p.endingLBA + 1) rest
        return { p with startingLBA := start } :: rest

def arraySize (n : Nat) : UInt32 :=
  let paSize := UInt32.ofNat n * PartitionEntrySize
  if paSize < MinPartitionEntryArraySize then MinPartitionEntryArraySize else paSize

def primaryHeader (random : GUID) (s : Geometry) (n : Nat) (h : Header) : Header :=
  let paSize := arraySize n
  let ptBlockSize := paSize.toUInt64 / s.blockSize
  let diskBlockSize := s.diskSize / s.blockSize
  let headerBlockSize :=
    if HeaderSize.toUInt64 < s.blockSize then s.blockSize else HeaderSize.toUInt64
  let headerBlockSize := headerBlockSize / s.blockSize
  { h with
    signature := EFISignature
    revision := EFIRevision
    headerSize := HeaderSize
    reserved := ⟨List.replicate 4 0, rfl⟩
    sizeOfPartitionEntry := PartitionEntrySize
    partitionEntryLBA := 2
    numberOfPartitionEntries := paSize / PartitionEntrySize
    myLBA := 1
    firstUsableLBA := 2 + ptBlockSize
    lastUsableLBA := diskBlockSize - ptBlockSize - headerBlockSize - 1
    alternateLBA := diskBlockSize - 1
    diskGUID := if h.diskGUID.isZero then random else h.diskGUID }

def backupTable (primary : PartitionTable) : PartitionTable :=
  { primary with
    header := { primary.header with
      myLBA := primary.header.alternateLBA
      alternateLBA := primary.header.myLBA
      partitionEntryLBA := primary.header.lastUsableLBA + 1 } }

def update (random : GUID) (s : Geometry) (g : GPT) : Except Fault GPT :=
  -- the divisions by the block size
  if s.blockSize = 0 then .error .panic
  else do
    let header := primaryHeader random s g.primary.partitions.length g.primary.header
    let partitions ← layOut s header.firstUsableLBA g.primary.partitions
    let primary : PartitionTable := ⟨header, partitions⟩
    return { g with
      primary := primary.withCRCs crc
      backup := (backupTable primary).withCRCs crc
      logical := s.blockSize
      physical := s.physicalBlockSize
      optimal := s.optimalTransferLengthGranularity
      size := s.diskSize }

end Garnet.Gpt
