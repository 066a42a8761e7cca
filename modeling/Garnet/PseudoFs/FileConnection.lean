import Garnet.Lib.Growable
import Garnet.Lib.Outcome
import Garnet.PseudoFs.Flags

/-!
The buffered connection of one client to a pseudo file (`file/connection.rs`,
`file/simple.rs`).

Offsets and lengths are `u64` in the source. Every sum it takes stays at or
below the larger of the capacity and the buffer's length, so they are natural
numbers here. A slice outside the buffer is a panic.
-/

namespace Garnet.PseudoFs

open Bits Growable

structure PseudoFile where
  onRead : Bool
  capacity : Nat
  onWrite : Bool

structure FileConnection where
  flags : Word
  seek : Nat
  capacity : Nat
  buffer : List UInt8
  wasWritten : Bool

inductive SeekOrigin where
  | start | current | «end»
  deriving DecidableEq, Repr

inductive FileRequest where
  | read (count : Nat)
  | readAt (offset count : Nat)
  | write (data : List UInt8)
  | writeAt (offset : Nat) (data : List UInt8)
  | seek (offset : Int) (origin : SeekOrigin)
  | truncate (length : Nat)

inductive FileReply where
  | read (status : Status) (content : List UInt8)
  | write (status : Status) (actual : Nat)
  | seek (status : Status) (offset : Nat)
  | truncate (status : Status)
  deriving DecidableEq, Repr

variable (io : Io)

/-- `init_buffer`, with what the read handler returns when it is called. -/
def PseudoFile.initBuffer (file : PseudoFile) (onRead : Except Status (List UInt8)) (flags : Word) :
    Except Status (List UInt8 × Bool) :=
  if flags &&& bit io.readable = 0 then .ok ([], false)
  else if file.onRead then
    -- The contents are about to be erased, which counts as a change.
    if flags &&& bit io.truncate ≠ 0 then .ok ([], true)
    else do
      let buffer ← onRead
      .ok (buffer, false)
  else .ok ([], false)

/-- `add_connection` of a pseudo file. -/
def PseudoFile.connect (file : PseudoFile) (onRead : Except Status (List UInt8))
    (flags mode : Word) : Except Status FileConnection := do
  let flags ← File.newConnectionValidateFlags io flags mode file.onRead file.onWrite
  let (buffer, wasWritten) ← file.initBuffer io onRead flags
  .ok ⟨flags, 0, file.capacity, buffer, wasWritten⟩

/-- `buffer[from..to]`. -/
def sliceOf (buffer : List UInt8) (first last : Nat) : Except Fault (List UInt8) :=
  if first ≤ last ∧ last ≤ buffer.length then .ok (slice (last - first) first buffer)
  else .error .panic

/-- `write_all` of `source` to `buffer[from..to]`. -/
def writeSlice (buffer source : List UInt8) (first last : Nat) : Except Fault (List UInt8) := do
  let target ← sliceOf buffer first last
  if source.length ≤ target.length then .ok (splice first source buffer) else .error .panic

variable (c : FileConnection)

namespace FileConnection

def effectiveCapacity : Nat := max c.buffer.length c.capacity

/-- `handle_read_at`: the reply, and how many bytes were read. -/
def handleReadAt (offset count : Nat) : Except Fault (FileReply × Nat) :=
  if c.flags &&& bit io.readable = 0 then .ok (.read .accessDenied [], 0)
  else if c.buffer.length ≤ offset then .ok (.read .ok [], 0)
  else do
    let count := min count (c.buffer.length - offset)
    let content ← sliceOf c.buffer offset (offset + count)
    .ok (.read .ok content, count)

/-- `handle_write_at`: the reply, how many bytes were written, and the connection. -/
def handleWriteAt (offset : Nat) (content : List UInt8) :
    Except Fault (FileReply × Nat × FileConnection) :=
  if c.flags &&& bit io.writable = 0 then .ok (.write .accessDenied 0, 0, c)
  else if c.effectiveCapacity ≤ offset then .ok (.write .outOfRange 0, 0, c)
  else do
    let actual := min (c.effectiveCapacity - offset) content.length
    let buffer :=
      if c.buffer.length ≤ offset + actual then resize 0 (offset + actual) c.buffer else c.buffer
    let source ← sliceOf content 0 actual
    let buffer ← writeSlice buffer source offset (offset + actual)
    .ok (.write .ok actual, actual, { c with buffer := buffer, wasWritten := true })

def newSeek (offset : Int) : SeekOrigin → Int
  | .start => offset
  | .current => c.seek + offset
  | .end => c.buffer.length + offset

def handleSeek (offset : Int) (origin : SeekOrigin) : FileReply × FileConnection :=
  let newSeek := c.newSeek offset origin
  if newSeek < 0 ∨ (c.effectiveCapacity : Int) ≤ newSeek then (.seek .outOfRange c.seek, c)
  else (.seek .ok newSeek.toNat, { c with seek := newSeek.toNat })

/-- `handle_truncate`. The position moves only when the limit falls below it. -/
def handleTruncate (length : Nat) : FileReply × FileConnection :=
  if c.flags &&& bit io.writable = 0 then (.truncate .accessDenied, c)
  else if c.effectiveCapacity < length then (.truncate .outOfRange, c)
  else
    (.truncate .ok,
      { c with buffer := resize 0 length c.buffer, seek := min c.seek (max length c.capacity) })

def handleRequest : FileRequest → Except Fault (FileReply × FileConnection)
  | .read count => do
    let (reply, actual) ← c.handleReadAt io c.seek count
    .ok (reply, { c with seek := c.seek + actual })
  | .readAt offset count => do
    let (reply, _) ← c.handleReadAt io offset count
    .ok (reply, c)
  | .write data => do
    let (reply, actual, c) ← c.handleWriteAt io c.seek data
    .ok (reply, { c with seek := c.seek + actual })
  | .writeAt offset data => do
    let (reply, _, c) ← c.handleWriteAt io offset data
    .ok (reply, c)
  | .seek offset origin => .ok (c.handleSeek offset origin)
  | .truncate length => .ok (c.handleTruncate io length)

def handleRequests : List FileRequest → FileConnection →
    Except Fault (List FileReply × FileConnection)
  | [], c => .ok ([], c)
  | r :: rest, c => do
    let (reply, c) ← c.handleRequest io r
    let (replies, c) ← handleRequests rest c
    .ok (reply :: replies, c)

end FileConnection

end Garnet.PseudoFs
