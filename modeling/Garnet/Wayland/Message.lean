import Garnet.Lib.Cursor
import Garnet.Lib.LittleEndian
import Garnet.Lib.Utf8

/-! Messages of the wire protocol: arguments in a byte buffer with a position, and handles in a
queue of their own. Words are stored little-endian; strings are their UTF-8 bytes. -/

namespace Garnet.Wayland
open LittleEndian

inductive ArgKind where
  | int
  | uint
  | fixed
  | string
  | object
  | newId
  | array
  | handle
  deriving DecidableEq

structure Fixed where
  bits : Int32
  deriving DecidableEq

variable {H : Type}

/-- An argument. Of an array only its data matters, not where its own cursor stands. -/
inductive Arg (H : Type) where
  | int (i : Int32)
  | uint (i : UInt32)
  | fixed (i : Fixed)
  | string (s : List UInt8)
  | object (i : UInt32)
  | newId (i : UInt32)
  | array (a : List UInt8)
  | handle (h : H)

def Arg.kind : Arg H → ArgKind
  | .int _ => .int
  | .uint _ => .uint
  | .fixed _ => .fixed
  | .string _ => .string
  | .object _ => .object
  | .newId _ => .newId
  | .array _ => .array
  | .handle _ => .handle

structure MessageHeader where
  sender : UInt32
  opcode : UInt16
  length : UInt16
  deriving DecidableEq

structure Message (H : Type) where
  byteBuf : Cursor
  handleBuf : List H

def computePadding (size : Nat) : Nat := (-(BitVec.ofNat 64 size) &&& 3#64).toNat

namespace Message

def new : Message H := ⟨⟨[], 0⟩, []⟩

def isEmpty (m : Message H) : Bool := m.byteBuf.bytes.length = m.byteBuf.pos && m.handleBuf.isEmpty

def rewind (m : Message H) : Message H := { m with byteBuf := { m.byteBuf with pos := 0 } }

def writeAll (b : List UInt8) : EStateM Fault (Message H) Unit := fun m =>
  let s := m.byteBuf
  if b = [] then .ok () m
  else .ok () { m with
    byteBuf := ⟨Cursor.grow s.pos (s.bytes.take s.pos) ++ b ++ s.bytes.drop (s.pos + b.length),
      s.pos + b.length⟩ }

def readExact (n : Nat) : EStateM Fault (Message H) (List UInt8) := fun m =>
  match Cursor.readExact n m.byteBuf with
  | .ok b s => .ok b { m with byteBuf := s }
  | .error e s => .error e { m with byteBuf := s }

def position : EStateM Fault (Message H) Nat := fun m => .ok m.byteBuf.pos m

def assert (p : Prop) [Decidable p] : EStateM Fault (Message H) Unit :=
  if p then pure () else throw .panic

def writeU32 (v : UInt32) : EStateM Fault (Message H) Unit := writeAll (toLe 4 v.toNat)

def readU32 : EStateM Fault (Message H) UInt32 := do
  let b ← readExact 4
  return UInt32.ofNat (ofLe b)

def writeI32 (v : Int32) : EStateM Fault (Message H) Unit := writeU32 v.toUInt32

def readI32 : EStateM Fault (Message H) Int32 := do
  let v ← readU32
  return v.toInt32

/-- The end of a string or an array that starts at `pos`. -/
def readPadding (pos : Nat) : EStateM Fault (Message H) Unit := do
  let pad := computePadding ((← position) - pos)
  if 0 < pad then
    let _ ← readExact pad
  assert ((← position) % 4 = 0)

def writePadding (pos : Nat) : EStateM Fault (Message H) Unit := do
  let pad := computePadding ((← position) - pos)
  if 0 < pad then writeAll (toLe pad 0)
  assert ((← position) % 4 = 0)

def popTerm (vec : List UInt8) : EStateM Fault (Message H) (List UInt8) :=
  match vec.getLast? with
  | some term =>
    if term ≠ 0 then throw (.error s!"Expected null terminator; found {term}") else pure vec.dropLast
  | none => throw (.error "Missing null terminator on string argument")

def readSlice (nullTerm : Bool) : EStateM Fault (Message H) (List UInt8) := do
  let pos ← position
  let len ← readU32
  if len = 0 then return []
  let vec ← readExact len.toNat
  let vec ← if nullTerm then popTerm vec else pure vec
  readPadding pos
  return vec

def writeSlice (s : List UInt8) (nullTerm : Bool) : EStateM Fault (Message H) Unit := do
  let pos ← position
  let len := UInt32.ofNat s.length
  let len := if nullTerm then len + 1 else len
  writeU32 len
  writeAll s
  if nullTerm then writeAll [0]
  writePadding pos

def writeArg : Arg H → EStateM Fault (Message H) Unit
  | .int i => writeI32 i
  | .uint i => writeU32 i
  | .fixed i => writeI32 i.bits
  | .object i => writeU32 i
  | .newId i => writeU32 i
  | .string s => writeSlice s true
  | .array a => writeSlice a false
  | .handle h => modify fun m => { m with handleBuf := m.handleBuf ++ [h] }

def readArg : ArgKind → EStateM Fault (Message H) (Arg H)
  | .int => Arg.int <$> readI32
  | .uint => Arg.uint <$> readU32
  | .fixed => (fun i => Arg.fixed ⟨i⟩) <$> readI32
  | .object => Arg.object <$> readU32
  | .newId => Arg.newId <$> readU32
  | .string => (fun vec => Arg.string (Utf8.lossy vec)) <$> readSlice true
  | .array => Arg.array <$> readSlice false
  | .handle => fun m =>
    match m.handleBuf with
    | h :: handleBuf => .ok (.handle h) { m with handleBuf := handleBuf }
    | [] => .error (.error "Unable to read handle from Message") m

def readArgs : List ArgKind → EStateM Fault (Message H) (List (Arg H))
  | [] => pure []
  | kind :: args => do
    let arg ← readArg kind
    let more ← readArgs args
    return arg :: more

def writeArgs : List (Arg H) → EStateM Fault (Message H) Unit
  | [] => pure ()
  | arg :: args => do
    writeArg arg
    writeArgs args

def readHeader : EStateM Fault (Message H) MessageHeader := do
  let sender ← readU32
  let word ← readU32
  return ⟨sender, word.toUInt16, (word >>> 16).toUInt16⟩

def writeHeader (header : MessageHeader) : EStateM Fault (Message H) Unit := do
  writeU32 header.sender
  writeU32 ((header.length.toUInt32 <<< 16) ||| header.opcode.toUInt32)

end Message

end Garnet.Wayland
