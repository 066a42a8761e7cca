import Garnet.Lib.LittleEndian
import Garnet.Lib.Outcome
import Garnet.Lib.Splice

/-! The boot record of a FAT volume: the fields of its first sector, the checks that `New` makes,
and the places of the entries and of the clusters. Sums, products and differences of `uint32`s
wrap. -/

namespace Garnet.Msdosfs
open LittleEndian

/-- A number as a `uint32`. -/
def u32 (n : Nat) : Nat := n % 2 ^ 32

/-- The difference of two `uint32`s. -/
def sub32 (a b : Nat) : Nat := (a + 2 ^ 32 - b) % 2 ^ 32

def numReservedClusters : Nat := 2

inductive FATType where
  | fat12
  | fat16
  | fat32
  deriving Repr, DecidableEq

structure Sector where
  bytes : List UInt8
  length : bytes.length = 512

namespace Sector

/-- The little endian number of `n` bytes at an offset. -/
def le (n off : Nat) (s : Sector) : Nat := ofLe (slice n off s.bytes)

-- bootsectorPrefix
def jmpBoot0 : Sector → Nat := le 1 0
def jmpBoot2 : Sector → Nat := le 1 2
-- bpbShared
def bytesPerSec : Sector → Nat := le 2 11
def sectorsPerCluster : Sector → Nat := le 1 13
def numSectorsReserved : Sector → Nat := le 2 14
def numFATs : Sector → Nat := le 1 16
def numRootEntries : Sector → Nat := le 2 17
def totalSectors16 : Sector → Nat := le 2 19
def sectorsPerFAT16 : Sector → Nat := le 2 22
def totalSectors32 : Sector → Nat := le 4 32
-- bpbLarge
def sectorsPerFAT32 : Sector → Nat := le 4 36
def extFlags : Sector → Nat := le 2 40
def rootCluster : Sector → Nat := le 4 44
def fsInfoSector : Sector → Nat := le 2 48
def backupSector : Sector → Nat := le 2 50
-- bootsectorSuffix, behind bpbShared in a small record and behind bpbLarge in a large one
def driveNumber (large : Bool) : Sector → Nat := le 1 (if large then 64 else 36)
def extBootSig (large : Bool) : Sector → Nat := le 1 (if large then 66 else 38)
def bootSectorSig : Sector → Nat := le 2 510

variable (s : Sector)

def totalSectors : Nat := if s.totalSectors16 ≠ 0 then s.totalSectors16 else s.totalSectors32

def guessFATType : Bool := s.numRootEntries = 0

def totalClusters (firstDataSector : Nat) (s : Sector) : Nat :=
  sub32 s.totalSectors firstDataSector / s.sectorsPerCluster

def numRootDirSectors : Nat :=
  u32 (u32 (s.numRootEntries * 32) + sub32 s.bytesPerSec 1) / s.bytesPerSec

/-- `brSmall.FirstDataSector`. -/
def firstDataSectorSmall : Nat :=
  u32 (u32 (s.numSectorsReserved + u32 (s.numFATs * s.sectorsPerFAT16)) + s.numRootDirSectors)

/-- `brLarge.FirstDataSector`. -/
def firstDataSectorLarge : Nat := u32 (s.numSectorsReserved + u32 (s.numFATs * s.sectorsPerFAT32))

def mirroringInfo : Bool × Nat :=
  if s.extFlags &&& 0x80 = 0 then (true, 0) else (false, s.extFlags &&& 0x0F)

def fail {α : Type} (message : String) : Except Fault α := .error (.error message)

def hex (n : Nat) : String := String.ofList (Nat.toDigits 16 n)

def bootSectorSignatureValid : Except Fault Unit :=
  if s.bootSectorSig ≠ 0xAA55 then
    fail ("Expected boot signature: aa55, but got " ++ hex s.bootSectorSig) else .ok ()

def validatePrefix : Except Fault Unit :=
  if s.jmpBoot0 = 0xE9 then .ok ()
  else if s.jmpBoot0 = 0xEB ∧ s.jmpBoot2 = 0x90 then .ok ()
  else fail "Invalid jmpBoot instruction"

/-- `bpbShared.validate`. -/
def validate (large : Bool) (s : Sector) : Except Fault Unit :=
  if s.bytesPerSec ∉ [512, 1024, 2048, 4096] then fail ("Bytes/Sector invalid: " ++ toString s.bytesPerSec)
  else if s.sectorsPerCluster ∉ [1, 2, 4, 8, 16, 32, 64, 128] then
    fail ("Sectors/Cluster invalid: " ++ toString s.sectorsPerCluster)
  else if u32 (s.bytesPerSec * s.sectorsPerCluster) > 32 * 1024 then
    fail ("Byte/Cluster greater than 32K: " ++ toString (u32 (s.bytesPerSec * s.sectorsPerCluster)))
  else if large ∧ s.numSectorsReserved = 0 then fail "FAT32 cannot have zero reserved sectors"
  else if ¬ large ∧ s.numSectorsReserved ≠ 1 then
    fail "FAT12/16 cannot have any number of reserved sectors other than one"
  else if s.numFATs = 0 then fail "NumFATs cannot be zero"
  else if large ∧ s.numRootEntries ≠ 0 then fail "FAT32 must set numRootEntries to zero"
  else if ¬ large ∧ s.numRootEntries = 0 then fail "FAT12/16 must have at least one root entry"
  else if ¬ large ∧ u32 (s.numRootEntries * 32) % s.bytesPerSec ≠ 0 then
    fail "NumRootEntries * 32 must be an even multiple of bytes per sector"
  else if large ∧ s.totalSectors16 ≠ 0 then fail "FAT32 must set totalSectors16 to zero"
  else if large ∧ s.totalSectors32 = 0 then fail "FAT32 must set totalSectors32 to something other than zero"
  else if ¬ large ∧ s.totalSectors16 = 0 ∧ s.totalSectors32 = 0 then
    fail "FAT12/16 must set either totalSectors16 or totalSectors32, not neither"
  else if ¬ large ∧ s.totalSectors16 ≠ 0 ∧ s.totalSectors32 ≠ 0 then
    fail "FAT12/16 must set at most one of totalSectors16 or totalSectors32, not both"
  else if large ∧ s.sectorsPerFAT16 ≠ 0 then fail "FAT32 must set sectorsPerFAT16 to zero"
  else if ¬ large ∧ s.sectorsPerFAT16 = 0 then
    fail "FAT12/16 must set sectorsPerFAT16 to something other than zero"
  else .ok ()

def validateSuffix (large : Bool) (s : Sector) : Except Fault Unit :=
  if s.driveNumber large ≠ 0x80 ∧ s.driveNumber large ≠ 0x00 then
    fail ("Expected drive number 80, found: " ++ hex (s.driveNumber large))
  else if s.extBootSig large ≠ 0x29 then
    fail ("Expected boot signature: 29, found " ++ hex (s.extBootSig large))
  else .ok ()

def validateType : Except Fault Unit :=
  if s.numRootEntries ≠ 0 then fail "FAT32 should not reserve space for root directories outside cluster space"
  else if s.totalClusters s.firstDataSectorLarge < 65525 then
    fail ("Expected at least 65525 clusters for FAT32, but only saw: " ++
      toString (s.totalClusters s.firstDataSectorLarge))
  else .ok ()

/-- What `brLarge.Validate` checks of its own fields. -/
def validateExtended : Except Fault Unit :=
  if s.sectorsPerFAT32 = 0 then fail "FAT32 must set sectorsPerFAT32 to a nonzero value"
  else if s.backupSector = 0 ∨ s.backupSector = s.fsInfoSector ∨ s.numSectorsReserved ≤ s.backupSector then
    fail "Invalid backup boot sector"
  else if s.fsInfoSector = 0 ∨ s.numSectorsReserved ≤ s.fsInfoSector then fail "Invalid fsInfo sector"
  else if ¬ s.mirroringInfo.1 ∧ s.numFATs ≤ s.mirroringInfo.2 then
    fail "Mirroring disabled, but selected primary FAT is invalid"
  else .ok ()

/-- `brLarge.Validate`. -/
def validateLarge : Except Fault Unit := do
  s.bootSectorSignatureValid
  s.validatePrefix
  s.validate true
  s.validateSuffix true
  s.validateType
  s.validateExtended

def smallType : Except Fault FATType :=
  if s.totalClusters s.firstDataSectorSmall = 0 then fail "No usable clusters"
  else if s.totalClusters s.firstDataSectorSmall < 4085 then .ok .fat12
  else if s.totalClusters s.firstDataSectorSmall < 65525 then .ok .fat16
  else fail "Too many clusters for FAT12/16"

/-- `brSmall.Validate`. -/
def validateSmall : Except Fault FATType := do
  s.bootSectorSignatureValid
  s.validatePrefix
  s.validate false
  s.validateSuffix false
  s.smallType

end Sector

/-- The types that `New` loads, so that the accessors below need no case for the others. -/
inductive Variant where
  | fat16
  | fat32
  deriving Repr, DecidableEq

structure Bootrecord where
  t : Variant
  totalSectors : Nat
  sectorSize : Nat
  clusterSize : Nat
  sectorsPerCluster : Nat
  numUsableClusters : Nat
  sectorsPerFAT : Nat
  reservedSectors : Nat
  numFATs : Nat
  firstDataSector : Nat
  mirroringActive : Bool
  primaryFAT : Nat
  rootCluster : Nat
  fsInfoOffset : Nat
  numRootEntriesMax : Nat
  deriving Repr, DecidableEq

variable (b : Bootrecord)

namespace Bootrecord

def fatEntrySize : Nat :=
  match b.t with
  | .fat32 => 4
  | .fat16 => 2

def maxCluster : Nat := u32 (numReservedClusters + b.numUsableClusters)

def clusterInValidRange (cluster : Nat) : Bool :=
  numReservedClusters ≤ cluster && cluster ≤ b.maxCluster

/-- In bytes, as an `int64`. -/
def volumeSize : Nat := b.totalSectors * b.sectorSize

def clusterLocationFAT (indexFAT cluster : Nat) : Nat :=
  u32 (u32 (u32 (b.reservedSectors + u32 (indexFAT * b.sectorsPerFAT)) * b.sectorSize) +
    u32 (cluster * b.fatEntrySize))

def clusterLocationFATPrimary (cluster : Nat) : Nat := b.clusterLocationFAT b.primaryFAT cluster

def clusterLocationData (cluster : Nat) : Nat :=
  u32 (u32 (sub32 cluster 2 * b.sectorsPerCluster) + b.firstDataSector) * b.sectorSize

/-- Where the root directory of FAT16 starts, and how many entries it has. -/
def rootReservedInfo : Nat × Nat :=
  (u32 (b.sectorSize * u32 (b.reservedSectors + u32 (b.numFATs * b.sectorsPerFAT))),
    b.numRootEntriesMax)

end Bootrecord

def Sector.cached (s : Sector) (t : Variant) (firstDataSector : Nat) : Bootrecord where
  t := t
  totalSectors := s.totalSectors
  sectorSize := s.bytesPerSec
  sectorsPerCluster := s.sectorsPerCluster
  clusterSize := u32 (s.sectorsPerCluster * s.bytesPerSec)
  numUsableClusters := sub32 (s.totalClusters firstDataSector) numReservedClusters
  firstDataSector := firstDataSector
  reservedSectors := s.numSectorsReserved
  numFATs := s.numFATs
  sectorsPerFAT := 0
  mirroringActive := false
  primaryFAT := 0
  rootCluster := 0
  fsInfoOffset := 0
  numRootEntriesMax := 0

def Sector.cachedLarge (s : Sector) : Bootrecord :=
  { s.cached .fat32 s.firstDataSectorLarge with
    sectorsPerFAT := s.sectorsPerFAT32
    mirroringActive := s.mirroringInfo.1
    primaryFAT := s.mirroringInfo.2
    rootCluster := s.rootCluster
    -- the sector is used only when it is a reserved one
    fsInfoOffset := if 0 < s.fsInfoSector ∧ s.fsInfoSector < s.numSectorsReserved then
      u32 (s.fsInfoSector * s.bytesPerSec) else 0 }

def Sector.cachedSmall (s : Sector) : Bootrecord :=
  { s.cached .fat16 s.firstDataSectorSmall with
    sectorsPerFAT := s.sectorsPerFAT16
    mirroringActive := true
    primaryFAT := 0
    numRootEntriesMax := s.numRootEntries }

structure BootDevice where
  first : Except Fault Sector
  deviceSize : Nat

def checkSize (deviceSize : Nat) (b : Bootrecord) : Except Fault Bootrecord :=
  if deviceSize < b.volumeSize then
    Sector.fail "Cannot load filesystem: expects more sectors than device provides"
  else .ok b

/-- `bootrecord.New`. -/
def Bootrecord.new (d : BootDevice) : Except Fault Bootrecord := do
  let s ← d.first
  if s.guessFATType then
    s.validateLarge
    if ¬ s.cachedLarge.clusterInValidRange s.rootCluster then Sector.fail "Invalid root cluster"
    else checkSize d.deviceSize s.cachedLarge
  else
    match ← s.validateSmall with
    | .fat16 => checkSize d.deviceSize s.cachedSmall
    | _ => Sector.fail "Unsupported version of FAT"

end Garnet.Msdosfs
