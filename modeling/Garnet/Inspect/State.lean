import Garnet.Inspect.Heap

/-! The Inspect VMO API on top of the heap. From `State::create` on, the header block is the one
at index 0, so a state is its heap. -/

namespace Garnet.Inspect

variable (index : Nat) (value : List UInt8) (op : BlockType → Nat → Nat → Except Fault Nat)
  (type : BlockType)

namespace State
open Heap

/-- Run `code` and keep an `Err` of it as a value; a panic is not caught. -/
def attempt {α : Type} (code : HeapM α) : HeapM (Except Fault α) := fun h =>
  match code h with
  | .ok a h' => .ok (.ok a) h'
  | .error (.error msg) h' => .ok (.error (.error msg)) h'
  | .error e h' => .error e h'

/-- The macro `with_header_lock!`. -/
def withHeaderLock {α : Type} (code : HeapM α) : HeapM α := do
  onBlock (Block.lockHeader · headerIndex)
  let result ← attempt code
  onBlock (Block.unlockHeader · headerIndex)
  compute result

/-- `get_block` of the heap. -/
def getBlock (index : Nat) : HeapM Nat := reading id (Heap.getBlock · index)

def create : HeapM Unit := do
  let block ← allocateBlock 16
  onBlock (Block.becomeHeader · block)

/-- The step of `allocate_reserved_value` that counts the new child. -/
def adopt (parentIndex : Nat) : HeapM Unit := do
  let parentBlock ← getBlock parentIndex
  let t ← block (Block.blockType · parentBlock)
  match t with
  | .nodeValue | .tombstone =>
    let count ← block fun m => unwrap (Block.childCount m parentBlock)
    onBlock (Block.setChildCount · parentBlock (count + 1))
  | .header => pure ()
  | _ => throw (.error ("Invalid block type:" ++ t.display))

def allocateReservedValue (name : List UInt8) (parentIndex blockSize : Nat) : HeapM (Nat × Nat) := do
  let value ← allocateBlock blockSize
  let bytes := name.take (maxOrderSize - headerSizeBytes)
  let allocated ← attempt (allocateBlock (blockSizeForPayload bytes.length))
  match allocated with
  | .error err =>
    freeBlock value
    throw err
  | .ok nameBlock =>
    unwrapS (onBlock (Block.becomeName · nameBlock name))
    let result ← attempt (adopt parentIndex)
    match result with
    | .ok () => pure (value, nameBlock)
    | .error err =>
      unwrapS (freeBlock nameBlock)
      unwrapS (freeBlock value)
      throw (.error ("Invalid parent index " ++ toString parentIndex ++ ": " ++ err.message))

/-- The step of `delete_value` that uncounts the child. -/
def disown (parentIndex : Nat) : HeapM Unit :=
  if parentIndex = headerIndex then pure ()
  else do
    let parent ← reading id fun h => unwrap (Heap.getBlock h parentIndex)
    let count ← block fun m => unwrap (Block.childCount m parent)
    let childCount ← compute (checkedSub count 1)
    let t ← block (Block.blockType · parent)
    if t = .tombstone ∧ childCount = 0 then unwrapS (freeBlock parent)
    else unwrapS (onBlock (Block.setChildCount · parent childCount))

/-- The test of `delete_value` that asks whether the block has to stay as a tombstone. -/
def hasChildren : HeapM Bool := do
  let t ← block (Block.blockType · index)
  if t = .nodeValue then
    let count ← block (Block.childCount · index)
    pure (count != 0)
  else pure false

def deleteValue : HeapM Unit := do
  let parentIndex ← block (Block.parentIndex · index)
  disown parentIndex
  let nameIndex ← block (Block.nameIndex · index)
  let name ← reading id fun h => unwrap (Heap.getBlock h nameIndex)
  unwrapS (freeBlock name)
  let keep ← hasChildren index
  if keep then onBlock (Block.becomeTombstone · index) else freeBlock index

/-- The loop of `free_extents`; `fuel` bounds the length of the chain. -/
def freeExtentsLoop : Nat → Nat → HeapM Unit
  | 0, _ => throw .diverge
  | fuel + 1, index =>
    if index = headerIndex then pure ()
    else do
      let extent ← reading id fun h => unwrap (Heap.getBlock h index)
      let next ← block (Block.nextExtent · extent)
      freeBlock extent
      freeExtentsLoop fuel next

def freeExtents (headExtentIndex : Nat) : HeapM Unit := do
  let h ← get
  freeExtentsLoop (h.currentSizeBytes / minOrderSize + 1) headExtentIndex

/-- `extent_set_contents`, which also returns the number of bytes written. -/
def setContents : HeapM Nat := fun h =>
  match Block.extentSetContents h.mapping index value with
  | .ok (m, written) => .ok written (h.withMapping m)
  | .error e => .error e h

/-- The loop of `write_extents`: `rest` is the part of the value that is not yet written, and
`extent` the block that takes its front. -/
def writeExtentsLoop : Nat → Nat → List UInt8 → HeapM Unit
  | 0, _, _ => throw .diverge
  | fuel + 1, extent, rest =>
    if rest.length = 0 then pure ()
    else do
      onBlock (Block.becomeExtent · extent 0)
      let written ← setContents extent rest
      let rest := rest.drop written
      if rest.length = 0 then pure ()
      else do
        let next ← allocateBlock (blockSizeForPayload rest.length)
        onBlock (Block.setExtentNextIndex · extent next)
        writeExtentsLoop fuel next rest

def writeExtents : HeapM Nat :=
  if value.length = 0 then pure headerIndex
  else do
    let extent ← allocateBlock (blockSizeForPayload value.length)
    writeExtentsLoop (value.length + 1) extent value
    pure extent

/-- `to_u32().unwrap()` of a length. -/
def lengthU32 (n : Nat) : Except Fault Nat := if n < 2 ^ 32 then .ok n else .error .panic

def innerSetPropertyValue : HeapM Unit := do
  let old ← block (Block.propertyExtentIndex · index)
  freeExtents old
  let extentIndex ← writeExtents value
  let length ← compute (lengthU32 value.length)
  onBlock (Block.setPropertyTotalLength · index length)
  onBlock (Block.setPropertyExtentIndex · index extentIndex)

def createNode (name : List UInt8) (parentIndex : Nat) : HeapM Nat := withHeaderLock do
  let (value, nameBlock) ← allocateReservedValue name parentIndex minOrderSize
  onBlock (Block.becomeNode · value nameBlock parentIndex)
  pure value

def freeValue : HeapM Unit := withHeaderLock do
  let value ← getBlock index
  unwrapS (deleteValue value)

def createProperty (name value : List UInt8) (format : PropertyFormat) (parentIndex : Nat) :
    HeapM Nat := withHeaderLock do
  let (property, nameBlock) ← allocateReservedValue name parentIndex minOrderSize
  onBlock (Block.becomeProperty · property nameBlock parentIndex format)
  let result ← attempt (innerSetPropertyValue property value)
  match result with
  | .ok () => pure property
  | .error err =>
    unwrapS (freeBlock property)
    unwrapS (freeBlock nameBlock)
    throw err

def freeProperty : HeapM Unit := withHeaderLock do
  let property ← getBlock index
  let extent ← block (Block.propertyExtentIndex · property)
  freeExtents extent
  deleteValue property

def setProperty : HeapM Unit := withHeaderLock do
  let property ← getBlock index
  innerSetPropertyValue property value

/-- Addition and subtraction of values, by type and bit pattern. A debug build panics on an
overflow of integers, a release build wraps. -/
structure Arith where
  add : BlockType → Nat → Nat → Except Fault Nat
  sub : BlockType → Nat → Nat → Except Fault Nat

variable (a : Arith)

section Metrics

/-- `metric_fns!`: the functions for one type of number. -/
def createMetric (name : List UInt8) (value parentIndex : Nat) : HeapM Nat :=
  withHeaderLock do
    let (metric, nameBlock) ← allocateReservedValue name parentIndex minOrderSize
    onBlock (Block.becomeNumericValue type · metric value nameBlock parentIndex)
    pure metric

def setMetric (index value : Nat) : HeapM Unit := withHeaderLock do
  let metric ← getBlock index
  onBlock (Block.setNumericValue type · metric value)

/-- `add_*_metric` and `subtract_*_metric`. -/
def updateMetric
    (index value : Nat) : HeapM Unit := withHeaderLock do
  let metric ← getBlock index
  let current ← block (Block.payloadField type Payload.numericValue · metric)
  let result ← compute (op type current value)
  onBlock (Block.setNumericValue type · metric result)

def getMetric (index : Nat) : HeapM Nat := withHeaderLock do
  let metric ← getBlock index
  block (Block.payloadField type Payload.numericValue · metric)

def createIntMetric := createMetric .intValue
def createUintMetric := createMetric .uintValue
def createDoubleMetric := createMetric .doubleValue
def setIntMetric := setMetric .intValue
def setUintMetric := setMetric .uintValue
def setDoubleMetric := setMetric .doubleValue
def addIntMetric := updateMetric a.add .intValue
def addUintMetric := updateMetric a.add .uintValue
def addDoubleMetric := updateMetric a.add .doubleValue
def subtractIntMetric := updateMetric a.sub .intValue
def subtractUintMetric := updateMetric a.sub .uintValue
def subtractDoubleMetric := updateMetric a.sub .doubleValue
def getIntMetric := getMetric .intValue
def getUintMetric := getMetric .uintValue
def getDoubleMetric := getMetric .doubleValue

end Metrics

section Arrays

/-- `array_fns!`: the functions for one type of entries. -/
def createArray (entryType : BlockType) (name : List UInt8) (slots : Nat) (format : ArrayFormat)
    (parentIndex : Nat) : HeapM Nat :=
  let blockSize := slots * 8 + minOrderSize
  if maxOrderSize < blockSize then
    throw (.error ("cannot allocate block of size " ++ toString blockSize))
  else withHeaderLock do
    let (array, nameBlock) ← allocateReservedValue name parentIndex blockSize
    onBlock (Block.becomeArrayValue · array slots format entryType nameBlock parentIndex)
    pure array

def setArraySlot (entryType : BlockType) (index slotIndex value : Nat) : HeapM Unit :=
  withHeaderLock do
    let array ← getBlock index
    onBlock (Block.arraySetSlot entryType · array slotIndex value)

/-- `add_array_*_slot` and `subtract_array_*_slot`. -/
def updateArraySlot (entryType : BlockType)
    (index slotIndex value : Nat) : HeapM Unit := withHeaderLock do
  let array ← getBlock index
  let previous ← block (Block.arrayGetSlot entryType · array slotIndex)
  let result ← compute (op entryType previous value)
  onBlock (Block.arraySetSlot entryType · array slotIndex result)

def createIntArray := createArray .intValue
def createUintArray := createArray .uintValue
def createDoubleArray := createArray .doubleValue
def setArrayIntSlot := setArraySlot .intValue
def setArrayUintSlot := setArraySlot .uintValue
def setArrayDoubleSlot := setArraySlot .doubleValue
def addArrayIntSlot := updateArraySlot a.add .intValue
def addArrayUintSlot := updateArraySlot a.add .uintValue
def addArrayDoubleSlot := updateArraySlot a.add .doubleValue
def subtractArrayIntSlot := updateArraySlot a.sub .intValue
def subtractArrayUintSlot := updateArraySlot a.sub .uintValue
def subtractArrayDoubleSlot := updateArraySlot a.sub .doubleValue

end Arrays

end State

end Garnet.Inspect
