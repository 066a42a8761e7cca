import Garnet.Lib.Device
import Garnet.Msdosfs.Bootrecord

/-! The File Allocation Table on a device whose reads and writes succeed, and the manager that
builds chains of clusters with it. Mounting, the dirty and error bits and the hints of FSInfo are
left out. -/

namespace Garnet.Msdosfs
open LittleEndian

def ErrNoSpace : Fault := .error "a filesystem resource has been exhausted"
def ErrReadOnly : Fault := .error "permission denied"
def ErrNotOpen : Fault := .error "FAT: FAT not open"
def ErrInvalidCluster : Fault := .error "FAT: Attempting to access FAT with invalid cluster"

namespace Bootrecord

variable (b : Bootrecord)

def clusterMask : Nat :=
  match b.t with
  | .fat32 => 0x0FFFFFFF
  | .fat16 => 0xFFFF

def eofValue : Nat :=
  match b.t with
  | .fat32 => 0x0FFFFFF8
  | .fat16 => 0xFFF8

def badValue : Nat :=
  match b.t with
  | .fat32 => 0x0FFFFFF7
  | .fat16 => 0xFFF7

def isEOF (e : Nat) : Bool := b.eofValue ≤ e

def isBad (e : Nat) : Bool := e = b.badValue

end Bootrecord

def freeValue : Nat := 0

def isFree (e : Nat) : Bool := e = freeValue

structure FAT where
  device : Device
  readonly : Bool
  closed : Bool
  freeCount : Nat
  nextFree : Nat

/-- `getRawEntry`. -/
def getRawEntry (b : Bootrecord) (offset : Nat) (d : Device) : Nat :=
  ofLe (d.readAt b.fatEntrySize offset)

/-- `setRawEntry`: as many low bytes of the value as an entry has. -/
def setRawEntry (b : Bootrecord) (value offset : Nat) (d : Device) : Device :=
  d.writeAt (toLe b.fatEntrySize value) offset

inductive FreeStatus where
  | becameFree
  | becameAllocated
  | unchanged
  deriving DecidableEq

def mergeEntry (b : Bootrecord) (v value : Nat) : Nat :=
  (v &&& (2 ^ 32 - 1 - b.clusterMask)) ||| (b.clusterMask &&& value)

def setValueAt (b : Bootrecord) (value offset : Nat) (d : Device) :
    Except Fault (FreeStatus × Device) :=
  let v := getRawEntry b offset d
  let freeBefore := isFree (v &&& b.clusterMask)
  let freeAfter := isFree value
  if b.isBad (v &&& b.clusterMask) then .error ErrInvalidCluster
  else
    .ok (if freeBefore ∧ ¬ freeAfter then .becameAllocated
      else if ¬ freeBefore ∧ freeAfter then .becameFree else .unchanged,
      setRawEntry b (mergeEntry b v value) offset d)

def mirrorValue (b : Bootrecord) (value cluster : Nat) (d : Device) : Device :=
  (List.range b.numFATs).foldl (fun d indexFAT =>
    if indexFAT = b.primaryFAT then d
    else match setValueAt b value (b.clusterLocationFAT indexFAT cluster) d with
      | .ok (_, d) => d
      | .error _ => d) d

namespace FAT

variable (b : Bootrecord)

def get (cluster : Nat) (f : FAT) : Except Fault Nat :=
  if f.closed then .error ErrNotOpen
  else if ¬ b.clusterInValidRange cluster then .error ErrInvalidCluster
  else .ok (getRawEntry b (b.clusterLocationFATPrimary cluster) f.device &&& b.clusterMask)

def set (value cluster : Nat) : EStateM Fault FAT Unit := fun f =>
  if f.closed then .error ErrNotOpen f
  else if f.readonly then .error ErrReadOnly f
  else if ¬ b.clusterInValidRange cluster then .error ErrInvalidCluster f
  -- a cluster that points to itself is a loop
  else if value = cluster then .error ErrInvalidCluster f
  else match setValueAt b value (b.clusterLocationFATPrimary cluster) f.device with
    | .error e => .error e f
    | .ok (status, d) =>
      .ok () { f with
        device := if b.mirroringActive then mirrorValue b value cluster d else d
        freeCount := match status with
          | .becameFree => u32 (f.freeCount + 1)
          | .becameAllocated => sub32 f.freeCount 1
          | .unchanged => f.freeCount }

/-- The closure in `Allocate`. The number that marks bad clusters is not given out. -/
def isFreeAt (cluster : Nat) (f : FAT) : Except Fault Bool :=
  match f.get b cluster with
  | .error _ => .error .panic
  | .ok entry => .ok (isFree entry && !b.isBad cluster)

/-- The first free cluster among the `n` from `cluster` on. -/
def findFree (b : Bootrecord) (f : FAT) : Nat → Nat → Except Fault (Option Nat)
  | _, 0 => .ok none
  | cluster, n + 1 => do
    if ← f.isFreeAt b cluster then return some cluster
    else findFree b f (cluster + 1) n

/-- The end of `Allocate` when a cluster is found. -/
def take (cluster : Nat) : EStateM Fault FAT Nat := fun f =>
  match set b b.eofValue cluster { f with nextFree := cluster } with
  | .ok _ f => .ok cluster f
  | .error e f => .error e f

def allocate : EStateM Fault FAT Nat := fun f =>
  if f.closed then .error ErrNotOpen f
  else if f.readonly then .error ErrReadOnly f
  else
    let start := if b.clusterInValidRange f.nextFree then f.nextFree else numReservedClusters
    match f.findFree b start (b.maxCluster - start) with
    | .error e => .error e f
    | .ok (some cluster) => take b cluster f
    | .ok none =>
      match f.findFree b numReservedClusters (start - numReservedClusters) with
      | .error e => .error e f
      | .ok (some cluster) => take b cluster f
      | .ok none => .error ErrNoSpace { f with nextFree := start }

end FAT

structure Manager where
  fat : FAT
  unmounted : Bool

def Manager.onFAT {α : Type} (x : EStateM Fault FAT α) : EStateM Fault Manager α := fun m =>
  match x m.fat with
  | .ok a f => .ok a { m with fat := f }
  | .error e f => .error e { m with fat := f }

namespace Manager

def unmountedError : Fault := .error "FAT unmounted; cannot access clusters"

variable (b : Bootrecord) (cluster : Nat)

def extensionRequested : Bool := cluster ≠ 0 && !b.isEOF cluster

def checkTail (f : FAT) : Except Fault Unit := do
  let tail ← f.get b cluster
  if isFree tail then .error (.error "Trying to extend a free cluster")
  else if ¬ b.isEOF tail then
    .error (.error "Trying to extend middle of cluster chain: would orphan the tail clusters")
  else return ()

def clearCluster (f : FAT) : FAT :=
  { f with device := f.device.writeAt (List.replicate b.clusterSize 0) (b.clusterLocationData cluster) }

/-- The old cluster gets to point to the new one, which is freed again if that fails. -/
def linkTail (newCluster cluster : Nat) : EStateM Fault FAT Nat := fun f =>
  match FAT.set b newCluster cluster f with
  | .ok _ f => .ok newCluster f
  | .error e f =>
    match FAT.set b freeValue newCluster f with
    | .ok _ f => .error e f
    | .error _ f => .error e f

def clusterExtend : EStateM Fault Manager Nat := fun m =>
  if m.fat.readonly then .error ErrReadOnly m
  else if m.unmounted then .error unmountedError m
  else
    match if extensionRequested b cluster then checkTail b cluster m.fat else .ok () with
    | .error e => .error e m
    | .ok () =>
      onFAT (fun f =>
        match FAT.allocate b f with
        | .error e f => .error e f
        | .ok newCluster f =>
          if extensionRequested b cluster then linkTail b newCluster cluster (clearCluster b newCluster f)
          else .ok newCluster (clearCluster b newCluster f)) m

/-- The loop of `removeAllAfter`, for at most `fuel` clusters. -/
def freeTail (b : Bootrecord) : Nat → Nat → EStateM Fault FAT Unit
  | 0, _ => fun f => .error .diverge f
  | fuel + 1, cluster => fun f =>
    if b.isEOF cluster then .ok () f
    else match f.get b cluster with
      | .error e => .error e f
      | .ok tail =>
        if isFree tail then .error (.error "Malformed cluster chain does not point to EOF") f
        else match FAT.set b freeValue cluster f with
          | .error e f => .error e f
          | .ok _ f => freeTail b fuel tail f

/-- Every turn of the loop frees a cluster that was not free, so there are fewer turns than
clusters. -/
def removeAllAfter (removeStart : Bool) : EStateM Fault Manager Unit := fun m =>
  if m.fat.readonly then .error (.error "Cannot modify clusters in read-only filesystem") m
  else if b.isEOF cluster || isFree cluster then .ok () m
  else if m.unmounted then .error unmountedError m
  else match m.fat.get b cluster with
    | .error e => .error e m
    | .ok tail =>
      onFAT (fun f =>
        match FAT.set b (if removeStart then freeValue else b.eofValue) cluster f with
        | .error e f => .error e f
        | .ok _ f => freeTail b (b.maxCluster + 1) tail f) m

def clusterDelete : EStateM Fault Manager Unit := removeAllAfter b cluster true

def clusterTruncate : EStateM Fault Manager Unit := removeAllAfter b cluster false

/-- The loop of `ClusterCollect`, with the clusters it has met. -/
def collectFrom (b : Bootrecord) (f : FAT) : Nat → List Nat → Nat → Except Fault (List Nat)
  | 0, _, _ => .error .diverge
  | fuel + 1, clusterSet, cluster =>
    if b.isEOF cluster || isFree cluster then .ok []
    else do
      let tail ← f.get b cluster
      if isFree tail then .error (.error "Malformed cluster chain does not point to EOF")
      else if tail ∈ cluster :: clusterSet then .error (.error "Malformed cluster chain contains a loop")
      else
        let rest ← collectFrom b f fuel (cluster :: clusterSet) tail
        return cluster :: rest

def clusterCollect (m : Manager) : Except Fault (List Nat) :=
  if m.unmounted then .error unmountedError
  else collectFrom b m.fat (b.maxCluster + 1) [] cluster

end Manager

end Garnet.Msdosfs
