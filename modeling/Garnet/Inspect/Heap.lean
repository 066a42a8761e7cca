import Garnet.Inspect.Block

/-! The buddy heap of an Inspect VMO. A block is named by its index; the container of every
block is the mapping of the heap. -/

namespace Garnet.Inspect

structure Heap where
  mapping : Mapping
  currentSizeBytes : Nat
  freeHeadPerOrder : Nat → Nat

abbrev HeapM := EStateM Fault Heap

namespace Heap

def withMapping (h : Heap) (m : Mapping) : Heap := { h with mapping := m }

def withHead (h : Heap) (order index : Nat) : Heap :=
  { h with freeHeadPerOrder := Function.update h.freeHeadPerOrder order index }

def block {α : Type} (f : Mapping → Except Fault α) : HeapM α := reading Heap.mapping f

def onBlock (f : Mapping → Except Fault Mapping) : HeapM Unit :=
  writing Heap.mapping (fun m h => h.withMapping m) f

def compute {α : Type} (r : Except Fault α) : HeapM α := reading id fun _ => r

/-- `free_head_per_order[order]`; an order out of the array panics. -/
def freeHead (order : Nat) : HeapM Nat := fun h =>
  if order < numOrders then .ok (h.freeHeadPerOrder order) h else .error .panic h

def setFreeHead (order index : Nat) : HeapM Unit := fun h =>
  if order < numOrders then .ok () (h.withHead order index) else .error .panic h

/-- A `usize` or `u32` subtraction that must not wrap. -/
def checkedSub (a b : Nat) : Except Fault Nat := if a < b then .error .panic else .ok (a - b)

def getBlock (h : Heap) (index : Nat) : Except Fault Nat :=
  let offset := offsetForIndex index
  if h.currentSizeBytes ≤ offset then .error (.error "invalid index")
  else do
    let k ← Block.order h.mapping index
    if h.currentSizeBytes - offset < orderToSize k then .error (.error "invalid_index")
    else pure index

def isFreeBlock (h : Heap) (index expectedOrder : Nat) : Except Fault Bool :=
  if h.currentSizeBytes / minOrderSize ≤ index then .ok false
  else match getBlock h index with
    | .error (.error _) => .ok false
    | .error e => .error e
    | .ok b => do
      let t ← Block.blockType h.mapping b
      if t = .free then
        let k ← Block.order h.mapping b
        pure (k == expectedOrder)
      else pure false

def buddy (index order : Nat) : Except Fault Nat := do
  let size ← indexForOffset (orderToSize order)
  pure (index ^^^ size)

/-- The search of `remove_free`; `fuel` bounds the number of blocks it looks at. -/
def removeFreeLoop : Nat → Nat → Nat → Nat → HeapM Bool
  | 0, _, _, _ => throw .diverge
  | fuel + 1, order, index, nextIndex => do
    let free ← reading id (isFreeBlock · nextIndex order)
    if free then
      let curr ← reading id fun h => unwrap (getBlock h nextIndex)
      let next ← block (Block.freeNextIndex · curr)
      if next = index then
        let after ← block (Block.freeNextIndex · index)
        onBlock (Block.setFreeNextIndex · curr after)
        pure true
      else removeFreeLoop fuel order index next
    else pure false

def removeFree (index : Nat) : HeapM Bool := do
  let order ← block (Block.order · index)
  if numOrders ≤ order then pure false
  else
    let head ← freeHead order
    if head = index then
      let next ← block (Block.freeNextIndex · index)
      setFreeHead order next
      pure true
    else
      let h ← get
      removeFreeLoop (h.currentSizeBytes / minOrderSize + 1) order index head

def splitBlock (index : Nat) : HeapM Unit := do
  let k ← block (Block.order · index)
  if numOrders ≤ k then
    throw (.error ("order " ++ toString k ++ " in block " ++ toString index ++ " is invalid"))
  else
    let _ ← removeFree index
    let order ← block (Block.order · index)
    let lower ← compute (checkedSub order 1)
    let buddyIndex ← compute (buddy index lower)
    onBlock (Block.setOrder · index lower)
    onBlock (Block.becomeFree · index buddyIndex)
    onBlock (Block.setOrder · buddyIndex lower)
    let head ← freeHead lower
    onBlock (Block.becomeFree · buddyIndex head)
    setFreeHead lower index

/-- The loop of `grow_heap`, from the end of the heap downwards; returns the last index. -/
def growLoop : Nat → Nat → Nat → Nat → HeapM Nat
  | 0, _, _, _ => throw .diverge
  | fuel + 1, minIndex, currIndex, lastIndex => do
    let size ← compute (indexForOffset maxOrderSize)
    let curr ← compute (checkedSub currIndex size)
    unwrapS (onBlock (Block.newFree · curr (numOrders - 1) lastIndex))
    if curr ≤ minIndex then pure curr else growLoop fuel minIndex curr curr

def growHeap (requestedSize : Nat) : HeapM Unit := do
  let h ← get
  let mappingSize := h.mapping.len
  if h.currentSizeBytes = mappingSize ∧ mappingSize < requestedSize then
    throw (.error "Heap already at maxium size")
  else
    let newSize := min mappingSize requestedSize
    let minIndex ← compute (indexForOffset h.currentSizeBytes)
    let lastIndex ← freeHead (numOrders - 1)
    let currIndex ← compute (indexForOffset (newSize - newSize % pageSizeBytes))
    let last ← growLoop (currIndex + 1) minIndex currIndex lastIndex
    setFreeHead (numOrders - 1) last
    modify fun h => { h with currentSizeBytes := newSize }

def new (mapping : Mapping) : Except Fault Heap :=
  match growHeap pageSizeBytes ⟨mapping, 0, fun _ => 0⟩ with
  | .ok _ h => .ok h
  | .error e _ => .error e

/-- The first of the given orders whose list starts with a free block of that order. -/
def findOrder (h : Heap) : List Nat → Except Fault (Option Nat)
  | [] => .ok none
  | k :: ks => do
    let free ← isFreeBlock h (h.freeHeadPerOrder k) k
    if free then pure (some k) else findOrder h ks

/-- `while block.order() > min_fit_order`; the order of a block is below 16. -/
def splitLoop : Nat → Nat → Nat → HeapM Unit
  | 0, _, _ => throw .diverge
  | fuel + 1, index, minFitOrder => do
    let k ← block (Block.order · index)
    if minFitOrder < k then do
      splitBlock index
      splitLoop fuel index minFitOrder
    else pure ()

/-- The second half of `allocate_block`: the first block of the list of `nextOrder` is split
down to `minFitOrder`. -/
def carve (nextOrder minFitOrder : Nat) : HeapM Nat := do
  let nextBlockIndex ← freeHead nextOrder
  let index ← reading id fun h => unwrap (getBlock h nextBlockIndex)
  splitLoop 16 index minFitOrder
  let _ ← removeFree index
  unwrapS (onBlock (Block.becomeReserved · index))
  pure index

def allocateBlock (minSize : Nat) : HeapM Nat := do
  let minFitOrder ← compute (fitOrder minSize)
  if numOrders ≤ minFitOrder then throw (.error "order is bigger than maximum order")
  else
    let found ← reading id
      (findOrder · (List.range' minFitOrder (numOrders - minFitOrder)))
    match found with
    | some nextOrder => carve nextOrder minFitOrder
    | none =>
      let h ← get
      growHeap (h.currentSizeBytes * 2)
      carve (numOrders - 1) minFitOrder

/-- `if buddy_block.index() < block.index() { block.swap(&mut buddy_block)?; }`; the first
component is the block that goes on. -/
def swapIfLower (index buddyBlock : Nat) : HeapM (Nat × Nat) :=
  if buddyBlock < index then block (Block.swap · index buddyBlock) else pure (index, buddyBlock)

/-- The merge loop of `free_block`; returns the block that is to be freed in the end. -/
def freeLoop : Nat → Nat → Nat → HeapM Nat
  | 0, _, _ => throw .diverge
  | fuel + 1, index, buddyBlock => do
    let t ← block (Block.blockType · buddyBlock)
    if t = .free then
      let k ← block (Block.order · index)
      if k < numOrders - 1 then
        let l ← block (Block.order · buddyBlock)
        if k = l then
          let _ ← removeFree buddyBlock
          let (toFree, _) ← swapIfLower index buddyBlock
          let k ← block (Block.order · toFree)
          onBlock (Block.setOrder · toFree (k + 1))
          let k ← block (Block.order · toFree)
          let buddyIndex ← compute (buddy toFree k)
          let next ← reading id fun h => unwrap (getBlock h buddyIndex)
          freeLoop fuel toFree next
        else pure index
      else pure index
    else pure index

def freeBlock (index : Nat) : HeapM Unit := do
  let t ← block (Block.blockType · index)
  if t = .free then throw (.error ("can't free block of type " ++ t.display))
  else
    let k ← block (Block.order · index)
    let buddyIndex ← compute (buddy index k)
    let buddyBlock ← reading id fun h => unwrap (getBlock h buddyIndex)
    let toFree ← freeLoop 16 index buddyBlock
    let k ← block (Block.order · toFree)
    let head ← freeHead k
    onBlock (Block.becomeFree · toFree head)
    let k ← block (Block.order · toFree)
    setFreeHead k toFree

end Heap

end Garnet.Inspect
