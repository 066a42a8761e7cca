import Garnet.Lib.LittleEndian
import Garnet.Lib.Outcome
import Garnet.Lib.Utf8

/-! Blocks of an Inspect VMO: constants, index and size arithmetic, header and payload bit
fields, and the accessors of one block. An index counts cells of 16 bytes. -/

namespace Garnet.Inspect
open LittleEndian

abbrev pageSizeBytes : Nat := 4096
abbrev headerSizeBytes : Nat := 8
abbrev rootParentIndex : Nat := 0
abbrev headerIndex : Nat := 0
abbrev headerMagicNumber : Nat := 0x50534e49
abbrev headerVersionNumber : Nat := 0
abbrev numOrders : Nat := 8
abbrev minOrderShift : Nat := 4
abbrev minOrderSize : Nat := 16
abbrev maxOrderSize : Nat := 2048
abbrev arrayPayloadMetadataSizeBytes : Nat := 8

/-- `usize::leading_zeros` on a 64-bit target. -/
def leadingZeros (n : Nat) : Nat := if n = 0 then 64 else 63 - n.log2

def fitOrder (size : Nat) : Except Fault Nat :=
  if size = 0 then .error .panic
  else
    let used := 64 - leadingZeros (size - 1)
    if used < minOrderShift then .error .panic else .ok (used - minOrderShift)

/-- `to_u32().unwrap()` panics on an index that does not fit. -/
def indexForOffset (offset : Nat) : Except Fault Nat :=
  if offset / minOrderSize < 2 ^ 32 then .ok (offset / minOrderSize) else .error .panic

def offsetForIndex (index : Nat) : Nat := index * minOrderSize

def orderToSize (order : Nat) : Nat := minOrderSize <<< order

def blockSizeForPayload (payloadSize : Nat) : Nat :=
  min maxOrderSize (max (payloadSize + headerSizeBytes) minOrderSize)

def payloadSizeForOrder (order : Nat) : Nat := orderToSize order - headerSizeBytes

def arrayCapacity (order : Nat) : Nat :=
  (orderToSize order - headerSizeBytes - arrayPayloadMetadataSizeBytes) / 8

inductive BlockType where
  | free | reserved | header | nodeValue | intValue | uintValue | doubleValue | propertyValue
  | extent | name | tombstone | arrayValue
  deriving Repr, DecidableEq

namespace BlockType

def toU8 : BlockType → Nat
  | free => 0 | reserved => 1 | header => 2 | nodeValue => 3 | intValue => 4 | uintValue => 5
  | doubleValue => 6 | propertyValue => 7 | extent => 8 | name => 9 | tombstone => 10
  | arrayValue => 11

def fromU8 : Nat → Option BlockType
  | 0 => some free | 1 => some reserved | 2 => some header | 3 => some nodeValue
  | 4 => some intValue | 5 => some uintValue | 6 => some doubleValue | 7 => some propertyValue
  | 8 => some extent | 9 => some name | 10 => some tombstone | 11 => some arrayValue
  | _ => none

/-- The text of `Display`. -/
def display : BlockType → String
  | free => "FREE" | reserved => "RESERVED" | header => "HEADER" | nodeValue => "NODE_VALUE"
  | intValue => "INT_VALUE" | uintValue => "UINT_VALUE" | doubleValue => "DOUBLE_VALUE"
  | propertyValue => "PROPERTY_VALUE" | extent => "EXTENT" | name => "NAME"
  | tombstone => "TOMBSTONE" | arrayValue => "ARRAY_VALUE"

def isAnyValue : BlockType → Bool
  | nodeValue | intValue | uintValue | doubleValue | propertyValue | arrayValue => true
  | _ => false

def isNumericValue : BlockType → Bool
  | intValue | uintValue | doubleValue => true
  | _ => false

def isNodeOrTombstone : BlockType → Bool
  | nodeValue | tombstone => true
  | _ => false

@[simp] theorem fromU8_toU8 (t : BlockType) : fromU8 t.toU8 = some t := by cases t <;> rfl

theorem toU8_lt (t : BlockType) : t.toU8 < 16 := by cases t <;> decide

theorem toU8_injective {s t : BlockType} (h : s.toU8 = t.toU8) : s = t :=
  Option.some.inj (by rw [← fromU8_toU8 s, ← fromU8_toU8 t, h])

end BlockType

inductive PropertyFormat where
  | string | bytes
  deriving Repr, DecidableEq

namespace PropertyFormat

def toU8 : PropertyFormat → Nat
  | string => 0 | bytes => 1

def fromU8 : Nat → Option PropertyFormat
  | 0 => some string | 1 => some bytes | _ => none

@[simp] theorem fromU8_toU8 (f : PropertyFormat) : fromU8 f.toU8 = some f := by cases f <;> rfl

end PropertyFormat

inductive ArrayFormat where
  | default | linearHistogram | exponentialHistogram
  deriving Repr, DecidableEq

namespace ArrayFormat

def toU8 : ArrayFormat → Nat
  | default => 0 | linearHistogram => 1 | exponentialHistogram => 2

def fromU8 : Nat → Option ArrayFormat
  | 0 => some default | 1 => some linearHistogram | 2 => some exponentialHistogram | _ => none

@[simp] theorem fromU8_toU8 (f : ArrayFormat) : fromU8 f.toU8 = some f := by cases f <;> rfl

theorem toU8_lt (f : ArrayFormat) : f.toU8 < 16 := by cases f <;> decide

end ArrayFormat

/-! The first eight bytes of every block. Bits 8 and up are read according to the type. -/
variable (w v : Nat)

namespace BlockHeader

def order (w : Nat) : Nat := bits w 0 4
def setOrder : Nat := setBits w 0 4 v
def blockType (w : Nat) : Nat := bits w 4 4
def setBlockType : Nat := setBits w 4 4 v
def headerVersion (w : Nat) : Nat := bits w 8 24
def setHeaderVersion : Nat := setBits w 8 24 v
def headerMagic (w : Nat) : Nat := bits w 32 32
def setHeaderMagic : Nat := setBits w 32 32 v
def valueNameIndex (w : Nat) : Nat := bits w 36 28
def setValueNameIndex : Nat := setBits w 36 28 v
def valueParentIndex (w : Nat) : Nat := bits w 8 28
def setValueParentIndex : Nat := setBits w 8 28 v
def freeNextIndex (w : Nat) : Nat := bits w 8 28
def setFreeNextIndex : Nat := setBits w 8 28 v
def nameLength (w : Nat) : Nat := bits w 8 12
def setNameLength : Nat := setBits w 8 12 v
def extentNextIndex (w : Nat) : Nat := bits w 8 28
def setExtentNextIndex : Nat := setBits w 8 28 v

end BlockHeader

/-! The eight bytes behind the header. -/
namespace Payload

def propertyTotalLength (w : Nat) : Nat := bits w 0 32
def setPropertyTotalLength : Nat := setBits w 0 32 v
def propertyExtentIndex (w : Nat) : Nat := bits w 32 28
def setPropertyExtentIndex : Nat := setBits w 32 28 v
def propertyFlags (w : Nat) : Nat := bits w 60 4
def setPropertyFlags : Nat := setBits w 60 4 v
def numericValue (w : Nat) : Nat := bits w 0 64
def setNumericValue : Nat := setBits w 0 64 v
def headerGenerationCount (w : Nat) : Nat := bits w 0 64
def setHeaderGenerationCount : Nat := setBits w 0 64 v
def arrayEntryType (w : Nat) : Nat := bits w 0 4
def setArrayEntryType : Nat := setBits w 0 4 v
def arrayFlags (w : Nat) : Nat := bits w 4 4
def setArrayFlags : Nat := setBits w 4 4 v
def arraySlotsCount (w : Nat) : Nat := bits w 8 8
def setArraySlotsCount : Nat := setBits w 8 8 v

end Payload

/-- A buffer of `len` bytes that several views share. -/
structure Mapping where
  len : Nat
  byte : Nat → UInt8

structure Slice where
  len : Nat
  byte : Nat → UInt8

/-- `readBytes` fills the part of its zeroed destination that the container has. -/
class ReadableBlockContainer (c : Type) where
  len : c → Nat
  byte : c → Nat → UInt8
  readBytes : c → Nat → Nat → Except Fault (List UInt8)
  readBytes_of_le : ∀ (s : c) (offset n : Nat), offset + n ≤ len s →
    readBytes s offset n = .ok ((List.range n).map fun j => byte s (offset + j))

def copyOut (len : Nat) (byte : Nat → UInt8) (offset n : Nat) : List UInt8 :=
  (List.range n).map fun j => if offset + j < len then byte (offset + j) else 0

theorem copyOut_of_le {len offset n : Nat} (byte : Nat → UInt8) (h : offset + n ≤ len) :
    copyOut len byte offset n = (List.range n).map fun j => byte (offset + j) := by
  apply List.map_congr_left
  intro j hj
  have := List.mem_range.mp hj
  rw [if_pos (by omega)]

instance : ReadableBlockContainer Mapping where
  len := Mapping.len
  byte := Mapping.byte
  readBytes m offset n :=
    if m.len < offset then .error .panic else .ok (copyOut m.len m.byte offset n)
  readBytes_of_le m offset n h := by
    rw [if_neg (by omega), copyOut_of_le m.byte h]

instance : ReadableBlockContainer Slice where
  len := Slice.len
  byte := Slice.byte
  readBytes s offset n := .ok (copyOut s.len s.byte offset n)
  readBytes_of_le s offset n h := by rw [copyOut_of_le s.byte h]

variable (m : Mapping)

namespace Mapping

/-- The bytes that do not fit behind `offset` are dropped. -/
def writeBytes (offset : Nat) (bytes : List UInt8) : Except Fault Mapping :=
  if m.len < offset then .error .panic
  else
    let copied := min bytes.length (m.len - offset)
    .ok ⟨m.len, fun a =>
      if offset ≤ a ∧ a < offset + copied then bytes.getD (a - offset) 0 else m.byte a⟩

end Mapping

def headerOffset (index : Nat) : Nat := offsetForIndex index

def payloadOffset (index : Nat) : Nat := offsetForIndex index + headerSizeBytes

namespace Block
variable {c : Type} [ReadableBlockContainer c]
open ReadableBlockContainer (readBytes)

variable (s : c) (index : Nat)

def readHeader : Except Fault Nat := do
  let bytes ← readBytes s (headerOffset index) 8
  pure (ofLe bytes)

def readPayload : Except Fault Nat := do
  let bytes ← readBytes s (payloadOffset index) 8
  pure (ofLe bytes)

def order (s : c) (index : Nat) : Except Fault Nat := do
  let header ← readHeader s index
  pure (BlockHeader.order header)

/-- `BlockType::from_u8(..).unwrap()`. -/
def blockType (s : c) (index : Nat) : Except Fault BlockType := do
  let header ← readHeader s index
  match BlockType.fromU8 (BlockHeader.blockType header) with
  | some t => pure t
  | none => .error .panic

variable (expected : BlockType)

def checkType : Except Fault Unit := do
  let actual ← blockType s index
  if actual = expected then pure ()
  else .error (.error ("Expected type " ++ expected.display ++ ", got type " ++ actual.display))

def checkNodeOrTombstone : Except Fault Unit := do
  let actual ← blockType s index
  if actual.isNodeOrTombstone then pure ()
  else .error (.error ("Expected NODE|TOMBSTONE, got: " ++ actual.display))

def checkAnyValue : Except Fault Unit := do
  let actual ← blockType s index
  if actual.isAnyValue then pure ()
  else .error (.error ("Block type " ++ actual.display ++ " is not *_VALUE"))

def headerField (field : Nat → Nat) (s : c) (index : Nat) :
    Except Fault Nat := do
  checkType s index expected
  let header ← readHeader s index
  pure (field header)

def payloadField (field : Nat → Nat) (s : c) (index : Nat) :
    Except Fault Nat := do
  checkType s index expected
  let payload ← readPayload s index
  pure (field payload)

def headerMagic (s : c) (index : Nat) : Except Fault Nat :=
  headerField .header BlockHeader.headerMagic s index

def headerVersion (s : c) (index : Nat) : Except Fault Nat :=
  headerField .header BlockHeader.headerVersion s index

def headerGenerationCount (s : c) (index : Nat) : Except Fault Nat :=
  payloadField .header Payload.headerGenerationCount s index

def headerIsLocked : Except Fault Bool := do
  checkType s index .header
  let payload ← readPayload s index
  pure (Payload.headerGenerationCount payload % 2 == 1)

def doubleValue (s : c) (index : Nat) : Except Fault Nat :=
  payloadField .doubleValue Payload.numericValue s index

def intValue (s : c) (index : Nat) : Except Fault Nat :=
  payloadField .intValue Payload.numericValue s index

def uintValue (s : c) (index : Nat) : Except Fault Nat :=
  payloadField .uintValue Payload.numericValue s index

def propertyExtentIndex (s : c) (index : Nat) : Except Fault Nat :=
  payloadField .propertyValue Payload.propertyExtentIndex s index

def propertyTotalLength (s : c) (index : Nat) : Except Fault Nat :=
  payloadField .propertyValue Payload.propertyTotalLength s index

def propertyFormat : Except Fault PropertyFormat := do
  let flags ← payloadField .propertyValue Payload.propertyFlags s index
  match PropertyFormat.fromU8 flags with
  | some f => pure f
  | none => .error .panic

def nextExtent : Except Fault Nat :=
  headerField .extent BlockHeader.extentNextIndex s index

def extentContents : Except Fault (List UInt8) := do
  checkType s index .extent
  let k ← order s index
  readBytes s (payloadOffset index) (payloadSizeForOrder k)

def nameIndex : Except Fault Nat := do
  checkAnyValue s index
  let header ← readHeader s index
  pure (BlockHeader.valueNameIndex header)

def parentIndex : Except Fault Nat := do
  checkAnyValue s index
  let header ← readHeader s index
  pure (BlockHeader.valueParentIndex header)

def childCount : Except Fault Nat := do
  checkNodeOrTombstone s index
  let payload ← readPayload s index
  pure (Payload.numericValue payload)

def freeNextIndex (s : c) (index : Nat) : Except Fault Nat :=
  headerField .free BlockHeader.freeNextIndex s index

def nameLength (s : c) (index : Nat) : Except Fault Nat :=
  headerField .name BlockHeader.nameLength s index

/-- A Rust string is its UTF-8 bytes; `from_utf8(..).unwrap()` panics on other bytes. -/
def nameContents : Except Fault (List UInt8) := do
  checkType s index .name
  let length ← nameLength s index
  let bytes ← readBytes s (payloadOffset index) length
  if Utf8.valid bytes then pure bytes else .error .panic

def arrayFormat : Except Fault ArrayFormat := do
  let flags ← payloadField .arrayValue Payload.arrayFlags s index
  match ArrayFormat.fromU8 flags with
  | some f => pure f
  | none => .error .panic

def arraySlots : Except Fault Nat :=
  payloadField .arrayValue Payload.arraySlotsCount s index

def arrayEntryType (s : c) (index : Nat) : Except Fault BlockType := do
  let entry ← payloadField .arrayValue Payload.arrayEntryType s index
  match BlockType.fromU8 entry with
  | some t => pure t
  | none => .error .panic

def checkArrayEntryType : Except Fault Unit := do
  let actual ← arrayEntryType s index
  if actual = expected then pure ()
  else .error (.error ("Invalid array entry type. Expected: " ++ expected.display ++ ", got: " ++
    actual.display))

/-- The bound is the one of the source: the slot just behind the last one passes it. -/
def checkSlot (index slotIndex : Nat) : Except Fault Unit := do
  let k ← order s index
  if arrayCapacity k < slotIndex then
    .error (.error ("Index out of bounds: " ++ toString slotIndex))
  else pure ()

def slotOffset (index slotIndex : Nat) : Nat := offsetForIndex (index + 1) + slotIndex * 8

/-- `array_get_int_slot`, `array_get_uint_slot` and `array_get_double_slot`: the bit pattern
of one slot of an array with entries of the given type. -/
def arrayGetSlot (entryType : BlockType) (s : c) (index slotIndex : Nat) : Except Fault Nat := do
  checkArrayEntryType s index entryType
  checkSlot s index slotIndex
  let bytes ← readBytes s (slotOffset index slotIndex) 8
  pure (ofLe bytes)

def arrayGetIntSlot : Nat → Nat → Except Fault Nat := arrayGetSlot .intValue s
def arrayGetUintSlot : Nat → Nat → Except Fault Nat := arrayGetSlot .uintValue s
def arrayGetDoubleSlot : Nat → Nat → Except Fault Nat := arrayGetSlot .doubleValue s

/-- The test of `lock_header` and `unlock_header`. -/
def checkLocked (value : Bool) : Except Fault Unit := do
  let payload ← readPayload s index
  if (Payload.headerGenerationCount payload % 2 == 1) = value then pure ()
  else .error (.error ("Expected locked=" ++ toString value ++ ", actual=" ++ toString (!value)))

def writeHeader (index header : Nat) : Except Fault Mapping :=
  m.writeBytes (headerOffset index) (toLe 8 header)

def writePayloadFromBytes (bytes : List UInt8) : Except Fault Mapping :=
  m.writeBytes (payloadOffset index) bytes

def writePayload (index payload : Nat) : Except Fault Mapping :=
  writePayloadFromBytes m index (toLe 8 payload)

def newFree (index order nextFree : Nat) : Except Fault Mapping :=
  if numOrders ≤ order then
    .error (.error ("Order " ++ toString order ++ " must be less than " ++ toString numOrders))
  else
    let header := BlockHeader.setFreeNextIndex
      (BlockHeader.setBlockType (BlockHeader.setOrder 0 order) BlockType.free.toU8) nextFree
    writeHeader m index header

def swap (m : Mapping) (index other : Nat) : Except Fault (Nat × Nat) := do
  let k ← order m index
  let l ← order m other
  if k = l then pure (other, index)
  else .error (.error "cannot swap blocks of different order or container")

def setOrder (m : Mapping) (index order : Nat) : Except Fault Mapping :=
  if numOrders ≤ order then
    .error (.error ("Order " ++ toString order ++ " must be less than max " ++ toString numOrders))
  else do
    let header ← readHeader m index
    writeHeader m index (BlockHeader.setOrder header order)

def becomeHeader : Except Fault Mapping := do
  checkType m index .reserved
  let header := BlockHeader.setHeaderVersion (BlockHeader.setHeaderMagic
    (BlockHeader.setBlockType (BlockHeader.setOrder 0 0) BlockType.header.toU8)
    headerMagicNumber) headerVersionNumber
  let m ← writeHeader m headerIndex header
  writePayload m headerIndex 0

def incrementGenerationCount : Except Fault Mapping := do
  let payload ← readPayload m index
  let value := Payload.headerGenerationCount payload
  let newValue := if value = 2 ^ 64 - 1 then 0 else value + 1
  writePayload m index (Payload.setHeaderGenerationCount payload newValue)

def lockHeader : Except Fault Mapping := do
  checkType m index .header
  checkLocked m index false
  incrementGenerationCount m index

def unlockHeader : Except Fault Mapping := do
  checkType m index .header
  checkLocked m index true
  incrementGenerationCount m index

def becomeTombstone : Except Fault Mapping := do
  checkType m index .nodeValue
  let header ← readHeader m index
  writeHeader m index (BlockHeader.setBlockType header BlockType.tombstone.toU8)

def becomeReserved : Except Fault Mapping := do
  checkType m index .free
  let header ← readHeader m index
  writeHeader m index (BlockHeader.setBlockType header BlockType.reserved.toU8)

def becomeFree (index next : Nat) : Except Fault Mapping := do
  let header ← readHeader m index
  writeHeader m index
    (BlockHeader.setFreeNextIndex (BlockHeader.setBlockType header BlockType.free.toU8) next)

def setFreeNextIndex (m : Mapping) (index nextFree : Nat) : Except Fault Mapping := do
  checkType m index .free
  let header ← readHeader m index
  writeHeader m index (BlockHeader.setFreeNextIndex header nextFree)

def writeValueHeader (type : BlockType) (nameIndex parentIndex : Nat) : Except Fault Mapping :=
  if type.isAnyValue then do
    checkType m index .reserved
    let header ← readHeader m index
    writeHeader m index (BlockHeader.setValueParentIndex (BlockHeader.setValueNameIndex
      (BlockHeader.setBlockType header type.toU8) nameIndex) parentIndex)
  else .error (.error ("Block type " ++ type.display ++ " is not *_VALUE"))

def becomeArrayValue (index slots : Nat) (format : ArrayFormat)
    (entryType : BlockType) (nameIndex parentIndex : Nat) : Except Fault Mapping :=
  if entryType.isNumericValue then do
    let m ← writeValueHeader m index .arrayValue nameIndex parentIndex
    writePayload m index (Payload.setArraySlotsCount (Payload.setArrayFlags
      (Payload.setArrayEntryType 0 entryType.toU8) format.toU8) slots)
  else .error (.error "Invalid entry type")

/-- `array_set_int_slot`, `array_set_uint_slot` and `array_set_double_slot`. -/
def arraySetSlot (entryType : BlockType) (m : Mapping) (index slotIndex value : Nat) :
    Except Fault Mapping := do
  checkArrayEntryType m index entryType
  checkSlot m index slotIndex
  m.writeBytes (slotOffset index slotIndex) (toLe 8 value)

def arraySetIntSlot : Mapping → Nat → Nat → Nat → Except Fault Mapping := arraySetSlot .intValue
def arraySetUintSlot : Mapping → Nat → Nat → Nat → Except Fault Mapping := arraySetSlot .uintValue
def arraySetDoubleSlot : Mapping → Nat → Nat → Nat → Except Fault Mapping :=
  arraySetSlot .doubleValue

def becomeExtent (index nextExtentIndex : Nat) : Except Fault Mapping := do
  checkType m index .reserved
  let header ← readHeader m index
  writeHeader m index (BlockHeader.setExtentNextIndex
    (BlockHeader.setBlockType header BlockType.extent.toU8) nextExtentIndex)

def setExtentNextIndex (m : Mapping) (index nextExtentIndex : Nat) : Except Fault Mapping := do
  checkType m index .extent
  let header ← readHeader m index
  writeHeader m index (BlockHeader.setExtentNextIndex header nextExtentIndex)

def extentSetContents (value : List UInt8) :
    Except Fault (Mapping × Nat) := do
  checkType m index .extent
  let k ← order m index
  let bytes := value.take (payloadSizeForOrder k)
  let m ← writePayloadFromBytes m index bytes
  pure (m, bytes.length)

/-- `set_int_value`, `set_uint_value` and `set_double_value`, by block type and bit pattern. -/
def setNumericValue (type : BlockType) (m : Mapping) (index value : Nat) : Except Fault Mapping := do
  checkType m index type
  let payload ← readPayload m index
  writePayload m index (Payload.setNumericValue payload value)

def setIntValue : Mapping → Nat → Nat → Except Fault Mapping := setNumericValue .intValue
def setUintValue : Mapping → Nat → Nat → Except Fault Mapping := setNumericValue .uintValue
def setDoubleValue : Mapping → Nat → Nat → Except Fault Mapping := setNumericValue .doubleValue

/-- `become_int_value`, `become_uint_value` and `become_double_value`. -/
def becomeNumericValue (type : BlockType) (m : Mapping) (index value nameIndex parentIndex : Nat) :
    Except Fault Mapping := do
  let m ← writeValueHeader m index type nameIndex parentIndex
  setNumericValue type m index value

def becomeIntValue : Mapping → Nat → Nat → Nat → Nat → Except Fault Mapping :=
  becomeNumericValue .intValue
def becomeUintValue : Mapping → Nat → Nat → Nat → Nat → Except Fault Mapping :=
  becomeNumericValue .uintValue
def becomeDoubleValue : Mapping → Nat → Nat → Nat → Nat → Except Fault Mapping :=
  becomeNumericValue .doubleValue

def becomeNode (index nameIndex parentIndex : Nat) : Except Fault Mapping := do
  let m ← writeValueHeader m index .nodeValue nameIndex parentIndex
  writePayload m index 0

def becomeProperty (index nameIndex parentIndex : Nat) (format : PropertyFormat) :
    Except Fault Mapping := do
  let m ← writeValueHeader m index .propertyValue nameIndex parentIndex
  writePayload m index (Payload.setPropertyFlags 0 format.toU8)

def setPropertyTotalLength (m : Mapping) (index length : Nat) : Except Fault Mapping := do
  checkType m index .propertyValue
  let payload ← readPayload m index
  writePayload m index (Payload.setPropertyTotalLength payload length)

def setPropertyExtentIndex (m : Mapping) (index extentIndex : Nat) : Except Fault Mapping := do
  checkType m index .propertyValue
  let payload ← readPayload m index
  writePayload m index (Payload.setPropertyExtentIndex payload extentIndex)

def setChildCount (index count : Nat) : Except Fault Mapping := do
  checkNodeOrTombstone m index
  writePayload m index count

/-- `u16::from_usize(..).unwrap()` cannot fail: a payload has at most 2040 bytes. -/
def becomeName (name : List UInt8) : Except Fault Mapping := do
  checkType m index .reserved
  let k ← order m index
  let bytes := name.take (payloadSizeForOrder k)
  let header ← readHeader m index
  let m ← writeHeader m index (BlockHeader.setNameLength
    (BlockHeader.setBlockType header BlockType.name.toU8) bytes.length)
  writePayloadFromBytes m index bytes

end Block

end Garnet.Inspect
