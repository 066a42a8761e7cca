import Garnet.Msdosfs.FAT

/-! Files and directories as nodes: their clusters and their size, and reading, writing and resizing
them. Offsets are `int64`s. Who has a node open, its parent and its time are left out. -/

namespace Garnet.Msdosfs

def ErrInvalidArgs : Fault := .error "invalid argument"
def ErrBadArgument : Fault := ErrInvalidArgs
def ErrEOF : Fault := .error "EOF hit before operation completed"

structure Node where
  directory : Bool
  startCluster : Nat
  clusters : List Nat
  size : Nat

variable (b : Bootrecord)

def Node.isRoot (n : Node) : Bool := b.t = .fat32 && n.directory && n.startCluster = b.rootCluster

def maxSizeFile : Nat := 0xFFFFFFFF

def maxSizeDirectory : Nat := 2 ^ 16 * 32

structure FileState where
  manager : Manager
  node : Node

def FileState.device (s : FileState) : Device := s.manager.fat.device

def FileState.withDevice (d : Device) (s : FileState) : FileState :=
  { s with manager := { s.manager with fat := { s.manager.fat with device := d } } }

def FileState.write (b : List UInt8) (off : Nat) (s : FileState) : FileState :=
  s.withDevice (s.device.writeAt b off)

def FileState.withNode (n : Node) (s : FileState) : FileState := { s with node := n }

def FileState.onManager {α : Type} (x : EStateM Fault Manager α) : EStateM Fault FileState α :=
  fun s =>
  match x s.manager with
  | .ok a m => .ok a { s with manager := m }
  | .error e m => .error e { s with manager := m }

namespace Node

/-- `SetSize`. The clusters that are not needed any more are freed, and errors of that are
ignored. -/
def setSize (size : Nat) : EStateM Fault FileState Unit := fun s =>
  let n := s.node
  if b.clusterSize * n.clusters.length < size then .error .panic s
  else if ¬ n.isRoot b ∧ n.directory ∧ size = 0 then .error .panic s
  else
    let required := (size + b.clusterSize - 1) / b.clusterSize
    let required := if n.isRoot b ∧ required = 0 then 1 else required
    let n := { n with size := size }
    match n.clusters[required]? with
    | none => .ok () (s.withNode n)
    | some clusterToDelete =>
      let n := { n with clusters := n.clusters.take required }
      let s := s.withNode n
      let free := match n.clusters.getLast? with
        | some last => Manager.clusterTruncate b last
        | none => Manager.clusterDelete b clusterToDelete
      match FileState.onManager free s with
      | .ok _ s => .ok () s
      | .error _ s => .ok () s

/-- The loop of `readAt`: what was read so far and the offset. -/
def readLoop (b : Bootrecord) (s : FileState) (len : Nat) :
    Nat → List UInt8 → Nat → Except Fault (List UInt8)
  | 0, _, _ => .error .diverge
  | fuel + 1, got, off =>
    if len ≤ got.length then .ok got
    else
      match s.node.clusters[off / b.clusterSize]? with
      | none => .ok got
      | some cluster =>
        let clusterStart := off % b.clusterSize
        let deviceOffset := b.clusterLocationData cluster + clusterStart
        let count := b.clusterSize - clusterStart
        -- the buffer or the file may end before the cluster
        let short := len < got.length + count
        let count := if short then len - got.length else count
        let short' := s.node.size < off + count
        let count := if short' then s.node.size - off else count
        let got := got ++ s.device.readAt count deviceOffset
        if short ∨ short' then .ok got else readLoop b s len fuel got (off + count)

/-- `readAt` into a buffer of `len` bytes. -/
def readAt (len : Nat) (off : Int) (s : FileState) : Except Fault (List UInt8 × Option Fault) :=
  if off < 0 then .ok ([], some ErrBadArgument)
  else if s.node.size ≤ off then .ok ([], some ErrEOF)
  else do
    let got ← readLoop b s len (len + 1) [] off.toNat
    return (got, if got.length < len then some ErrEOF else none)

/-- `buf[:k]`. -/
def sliceTo (buf : List UInt8) (k : Int) : Except Fault (List UInt8) :=
  if k < 0 ∨ buf.length < k then .error .panic else .ok (buf.take k.toNat)

/-- How the loop that obtains clusters ends: with what can be written, or, for a directory, an
error. -/
inductive Expanded where
  | write (buf : List UInt8)
  | fail (e : Fault)

/-- The loop that obtains the clusters up to `maxPotentialSize`. -/
def expand (b : Bootrecord) (maxPotentialSize : Int) (writeBuf : List UInt8) :
    Nat → EStateM Fault FileState Expanded
  | 0 => fun s => .error .diverge s
  | fuel + 1 => fun s =>
    let have_ : Int := (b.clusterSize * s.node.clusters.length : Nat)
    if maxPotentialSize ≤ have_ then .ok (.write writeBuf) s
    else
      match FileState.onManager (Manager.clusterExtend b (s.node.clusters.getLast?.getD 0)) s with
      | .ok newCluster s =>
        expand b maxPotentialSize writeBuf fuel
          (s.withNode { s.node with clusters := s.node.clusters ++ [newCluster] })
      | .error e s =>
        if s.node.directory then .ok (.fail e) s
        else match sliceTo writeBuf (writeBuf.length - (maxPotentialSize - have_)) with
          | .ok buf => .ok (.write buf) s
          | .error e => .error e s

/-- The loop that writes to the clusters: what is left to write and the offset. -/
def writeLoop (b : Bootrecord) : Nat → List UInt8 → Nat → EStateM Fault FileState Unit
  | 0, _, _ => fun s => .error .diverge s
  | fuel + 1, buf, off => fun s =>
    if buf = [] then .ok () s
    else
      match s.node.clusters[off / b.clusterSize]? with
      | none => .error .panic s
      | some cluster =>
        let clusterStart := off % b.clusterSize
        let count := min (b.clusterSize - clusterStart) buf.length
        let s := s.write (buf.take count) (b.clusterLocationData cluster + clusterStart)
        let off := off + count
        writeLoop b fuel (buf.drop count) off (s.withNode { s.node with size := max s.node.size off })

/-- `writeAt`: how many bytes were written, and the error. -/
def writeAt (buf : List UInt8) (off : Int) : EStateM Fault FileState (Nat × Option Fault) := fun s =>
  if s.manager.fat.readonly then .ok (0, some ErrReadOnly) s
  else if off < 0 then .ok (0, some ErrBadArgument) s
  else
    let maxPotentialSize := (off + buf.length).bmod (2 ^ 64)
    let maxNodeSize : Int := if s.node.directory then maxSizeDirectory else maxSizeFile
    if maxNodeSize < maxPotentialSize ∧ s.node.directory then .ok (0, some ErrNoSpace) s
    else
      match if maxNodeSize < maxPotentialSize then
          sliceTo buf (buf.length - (maxPotentialSize - maxNodeSize)) else .ok buf with
      | .error e => .error e s
      | .ok writeBuf =>
        match expand b (min maxPotentialSize maxNodeSize) writeBuf (b.maxCluster + 1) s with
        | .error e s => .error e s
        | .ok (.fail e) s => .ok (0, some e) s
        | .ok (.write writeBuf) s =>
          match writeLoop b (writeBuf.length + 1) writeBuf off.toNat s with
          | .error e s => .error e s
          | .ok _ s =>
            .ok (writeBuf.length, if writeBuf.length ≠ buf.length then some ErrNoSpace else none) s

end Node

/-- The loop of `Truncate` that writes zeros to the end of the file, at most `fuel` times. -/
def growLoop (b : Bootrecord) (size : Nat) : Nat → EStateM Fault FileState Unit
  | 0 => fun s => .error .diverge s
  | fuel + 1 => fun s =>
    if size ≤ s.node.size then .ok () s
    else
      match Node.writeAt b (List.replicate (min (2 ^ 14) (size - s.node.size)) 0) s.node.size s with
      | .ok _ s => growLoop b size fuel s
      | .error e s => .error e s

/-- `file.Truncate` of an open file. Without space for the new size it does not end. -/
def truncate (size fuel : Nat) : EStateM Fault FileState (Option Fault) := fun s =>
  if maxSizeFile < size then .ok (some ErrInvalidArgs) s
  else
    match growLoop b size fuel s with
    | .error e s => .error e s
    | .ok _ s =>
      if size < s.node.size then
        match Node.setSize b size s with
        | .ok _ s => .ok none s
        | .error e s => .error e s
      else .ok none s

end Garnet.Msdosfs
