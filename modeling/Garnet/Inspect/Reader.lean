import Garnet.Inspect.Snapshot

/-! The reader of Inspect data: it scans the blocks of a snapshot and puts the nodes together,
children before parents. -/

namespace Garnet.Inspect
open Std (TreeMap)

/-- A named property. Texts are their UTF-8 bytes, numbers their bit patterns. -/
inductive Property where
  | string (name value : List UInt8)
  | bytes (name value : List UInt8)
  | int (name : List UInt8) (value : Nat)
  | uint (name : List UInt8) (value : Nat)
  | double (name : List UInt8) (value : Nat)
  | doubleArray (name : List UInt8) (values : List Nat) (format : ArrayFormat)
  | intArray (name : List UInt8) (values : List Nat) (format : ArrayFormat)
  | uintArray (name : List UInt8) (values : List Nat) (format : ArrayFormat)
  deriving Repr, DecidableEq

structure NodeHierarchy where
  name : List UInt8
  properties : List Property
  children : List NodeHierarchy
  deriving Repr

def NodeHierarchy.new : NodeHierarchy := ⟨[], [], []⟩

structure ScannedNode where
  hierarchy : NodeHierarchy
  childNodesCount : Nat
  parentIndex : Nat

namespace ScannedNode

def new : ScannedNode := ⟨.new, 0, 0⟩

def initializeNode (node : ScannedNode) (name : List UInt8) (parentIndex : Nat) : ScannedNode :=
  { node with hierarchy := { node.hierarchy with name := name }, parentIndex := parentIndex }

def isComplete (node : ScannedNode) : Bool :=
  node.hierarchy.children.length == node.childNodesCount

def count (node : ScannedNode) : ScannedNode :=
  { node with childNodesCount := node.childNodesCount + 1 }

def pushProperty (property : Property) (node : ScannedNode) : ScannedNode :=
  { node with hierarchy :=
    { node.hierarchy with properties := node.hierarchy.properties ++ [property] } }

def pushChild (child : NodeHierarchy) (node : ScannedNode) : ScannedNode :=
  { node with hierarchy :=
    { node.hierarchy with children := node.hierarchy.children ++ [child] } }

end ScannedNode

abbrev Nodes := TreeMap Nat ScannedNode

/-- The macro `get_or_create_scanned_node!`, with what is done to the node. -/
def Nodes.update (nodes : Nodes) (index : Nat) (f : ScannedNode → ScannedNode) : Nodes :=
  nodes.alter index fun node => some (f (node.getD .new))

namespace Reader
variable (s : Snapshot)

def getName (index : Nat) : Except Fault (List UInt8) :=
  match s.getBlock index with
  | none => .error (.error "failed to parse name")
  | some block =>
    match Block.nameContents s.buffer block with
    | .error (.error _) => .error (.error "failed to parse name")
    | name => name

variable (nodes : Nodes) (block : Nat)

def parseNode : Except Fault Nodes := do
  let nameIndex ← Block.nameIndex s.buffer block
  let name ← getName s nameIndex
  let parentIndex ← Block.parentIndex s.buffer block
  let nodes := nodes.update block (·.initializeNode name parentIndex)
  if parentIndex ≠ 0 ∧ parentIndex ≠ block then pure (nodes.update parentIndex .count)
  else pure nodes

def numericProperty (type : BlockType) (name : List UInt8) (block : Nat) :
    Except Fault (Option Property) :=
  match type with
  | .intValue => do
    let value ← Block.intValue s.buffer block
    pure (some (.int name value))
  | .uintValue => do
    let value ← Block.uintValue s.buffer block
    pure (some (.uint name value))
  | .doubleValue => do
    let value ← Block.doubleValue s.buffer block
    pure (some (.double name value))
  | _ => pure none

def parseNumericProperty : Except Fault Nodes := do
  let nameIndex ← Block.nameIndex s.buffer block
  let name ← getName s nameIndex
  let parentIndex ← Block.parentIndex s.buffer block
  let type ← Block.blockType s.buffer block
  match ← numericProperty s type name block with
  | some property => pure (nodes.update parentIndex (.pushProperty property))
  | none => pure (nodes.update parentIndex id)

/-- The slots of an array, each read with its `unwrap`. -/
def arrayValues (entryType : BlockType) (block slots : Nat) : Except Fault (List Nat) :=
  (List.range slots).mapM fun i => unwrap (Block.arrayGetSlot entryType s.buffer block i)

def arrayProperty (name : List UInt8) (block : Nat) : Except Fault Property := do
  let arraySlots ← Block.arraySlots s.buffer block
  let order ← Block.order s.buffer block
  if arrayCapacity order < arraySlots then
    .error (.error "Tried to read more slots than available")
  else
    let entryType ← Block.arrayEntryType s.buffer block
    match entryType with
    | .intValue => do
      let values ← arrayValues s .intValue block arraySlots
      let format ← unwrap (Block.arrayFormat s.buffer block)
      pure (.intArray name values format)
    | .uintValue => do
      let values ← arrayValues s .uintValue block arraySlots
      let format ← unwrap (Block.arrayFormat s.buffer block)
      pure (.uintArray name values format)
    | .doubleValue => do
      let values ← arrayValues s .doubleValue block arraySlots
      let format ← unwrap (Block.arrayFormat s.buffer block)
      pure (.doubleArray name values format)
    | _ => .error (.error "Unexpected array entry type format")

def parseArrayProperty : Except Fault Nodes := do
  let nameIndex ← Block.nameIndex s.buffer block
  let name ← getName s nameIndex
  let parentIndex ← Block.parentIndex s.buffer block
  let property ← arrayProperty s name block
  pure (nodes.update parentIndex (.pushProperty property))

/-- The loop of `parse_property` over the extents; `read` is the filled part of its buffer. Each
extent fills at least one byte. -/
def readExtents (totalLength : Nat) : Nat → Nat → List UInt8 → Except Fault (List UInt8)
  | 0, _, _ => .error .diverge
  | fuel + 1, extentIndex, read =>
    if extentIndex ≠ 0 ∧ read.length < totalLength then
      match s.getBlock extentIndex with
      | none => .error (.error "failed to get extent")
      | some extent => do
        let content ← Block.extentContents s.buffer extent
        let next ← Block.nextExtent s.buffer extent
        readExtents totalLength fuel next (read ++ content.take (totalLength - read.length))
    else pure read

def extentsProperty (name : List UInt8) (block : Nat) : Except Fault Property := do
  let totalLength ← Block.propertyTotalLength s.buffer block
  let extentIndex ← Block.propertyExtentIndex s.buffer block
  let read ← readExtents s totalLength (totalLength + 1) extentIndex []
  let buffer := read ++ List.replicate (totalLength - read.length) 0
  match ← Block.propertyFormat s.buffer block with
  | .string => pure (.string name (Utf8.lossy buffer))
  | .bytes => pure (.bytes name buffer)

def parseProperty : Except Fault Nodes := do
  let nameIndex ← Block.nameIndex s.buffer block
  let name ← getName s nameIndex
  let parentIndex ← Block.parentIndex s.buffer block
  let property ← extentsProperty s name block
  pure (nodes.update parentIndex (.pushProperty property))

/-- The body of the loop of `scan_blocks`. -/
def scanBlock : Except Fault Nodes := do
  let type ← Block.blockType s.buffer block
  if block = 0 ∧ type ≠ .header then .error (.error "expected header block on index 0")
  else
    match type with
    | .nodeValue => parseNode s nodes block
    | .intValue | .uintValue | .doubleValue => parseNumericProperty s nodes block
    | .arrayValue => parseArrayProperty s nodes block
    | .propertyValue => parseProperty s nodes block
    | _ => pure nodes

def scanBlocks : Except Fault Nodes := do
  let blocks ← s.scan
  blocks.foldlM (scanBlock s) ∅

/-- The nodes split by `is_complete`: a stack of complete nodes, and the others by index. -/
def split : List ScannedNode × Nodes :=
  nodes.toList.foldl (fun (complete, pending) (index, node) =>
    if node.isComplete then (node :: complete, pending) else (complete, pending.insert index node))
    ([], ∅)

/-- The loop of `reduce`. Each round takes one node off, so `fuel` bounds their number. -/
def reduceLoop : Nat → List ScannedNode → Nodes → Except Fault NodeHierarchy
  | 0, _, _ => .error .diverge
  | _ + 1, [], _ => .error (.error "Malformed tree, no complete node with parent=0")
  | fuel + 1, node :: complete, pending =>
    if node.parentIndex = 0 then pure node.hierarchy
    else
      match pending[node.parentIndex]? with
      | none => .error (.error ("Cannot find index " ++ toString node.parentIndex))
      | some parent =>
        let parent := parent.pushChild node.hierarchy
        if parent.isComplete then
          reduceLoop fuel (parent :: complete) (pending.erase node.parentIndex)
        else reduceLoop fuel complete (pending.insert node.parentIndex parent)

def reduce : Except Fault NodeHierarchy :=
  let (complete, pending) := split nodes
  reduceLoop (nodes.size + 1) complete pending

def read : Except Fault NodeHierarchy := do
  let nodes ← scanBlocks s
  reduce nodes

end Reader

/-- `NodeHierarchy::try_from` of a VMO that nobody writes meanwhile. -/
def NodeHierarchy.tryFrom (vmo : Slice) : Except Fault NodeHierarchy := do
  let snapshot ← Snapshot.tryFrom vmo
  Reader.read snapshot

/-- `Snapshot::try_from` of a byte vector, and `NodeHierarchy::try_from` of that snapshot. -/
def NodeHierarchy.tryFromBytes (bytes : Slice) : Except Fault NodeHierarchy := do
  let snapshot ← Snapshot.tryFromBytes bytes
  Reader.read snapshot

end Garnet.Inspect
