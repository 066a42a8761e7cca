import Garnet.Lib.Outcome

/-! Byte buffers with a prefix, a body and a suffix, and the views through which packets are parsed
from a body and written into it. -/

namespace Garnet.Packet

/-- The body is `[start, stop)`. -/
@[ext] structure Buf where
  bytes : List UInt8
  start : Nat
  stop : Nat
  ordered : start ≤ stop
  inside : stop ≤ bytes.length
  deriving DecidableEq

variable (b : Buf)

namespace Buf

def len : Nat := b.stop - b.start
def prefixLen : Nat := b.start
def suffixLen : Nat := b.bytes.length - b.stop

def growFront (n : Nat) : Except Fault Buf :=
  if n ≤ b.start then .ok ⟨b.bytes, b.start - n, b.stop, Nat.le_trans (Nat.sub_le ..) b.ordered, b.inside⟩
  else .error .panic

def growBack (n : Nat) : Except Fault Buf :=
  if h : n ≤ b.bytes.length - b.stop then
    .ok ⟨b.bytes, b.start, b.stop + n, Nat.le_add_right_of_le b.ordered, Nat.add_le_of_le_sub' b.inside h⟩
  else .error .panic

/-- `zero` on a part of the buffer. -/
def zero (lo hi : Nat) : Buf :=
  ⟨b.bytes.mapIdx fun i x => if lo ≤ i ∧ i < hi then 0 else x, b.start, b.stop, b.ordered,
    by rw [List.length_mapIdx]; exact b.inside⟩

end Buf

structure ParseMetadata where
  headerLen : Nat
  bodyLen : Nat
  footerLen : Nat
  deriving Repr, DecidableEq

def ParseMetadata.fromPacket (headerLen bodyLen footerLen : Nat) : ParseMetadata :=
  ⟨headerLen, bodyLen, footerLen⟩

def ParseMetadata.fromInnerPacket (len : Nat) : ParseMetadata := ⟨len, 0, 0⟩

/-- The start of `undo_parse`: the padding that the encapsulated packet stripped comes back. -/
def Buf.addPadding (bodyLen : Nat) : Except Fault Buf :=
  if b.len < bodyLen then b.growBack (bodyLen - b.len) else .ok b

def Buf.undoParse (metadata : ParseMetadata) : Except Fault Buf := do
  let b ← b.addPadding metadata.bodyLen
  let b ← b.growFront metadata.headerLen
  b.growBack metadata.footerLen

/-- Bytes that a view handed out, as positions in the buffer. -/
abbrev Region := Nat × Nat

/-- `BufView` and `BufViewMut`: a slice of the buffer, and the range of the buffer that they
change. -/
@[ext] structure BufView where
  buf : Buf
  lo : Nat
  hi : Nat
  front : lo = buf.start
  back : hi = buf.stop

def Buf.bufferView : BufView := ⟨b, b.start, b.stop, rfl, rfl⟩

variable (v : BufView) (size : Nat)

namespace BufView

def len : Nat := v.hi - v.lo

theorem len_eq : v.len = v.buf.len := by
  rw [len, v.front, v.back, Buf.len]

def takeFront (n : Nat) : Option (Region × BufView) :=
  if h : v.len < n then none
  else
    have hle : v.buf.start + n ≤ v.buf.stop := by
      have hlen := v.len_eq
      have hord := v.buf.ordered
      rw [Buf.len] at hlen
      omega
    some ((v.lo, v.lo + n), ⟨⟨v.buf.bytes, v.buf.start + n, v.buf.stop, hle, v.buf.inside⟩,
      v.lo + n, v.hi, congrArg (· + n) v.front, v.back⟩)

def takeBack (n : Nat) : Option (Region × BufView) :=
  if h : v.len < n then none
  else
    have hle : v.buf.start ≤ v.buf.stop - n := by
      have hlen := v.len_eq
      have hord := v.buf.ordered
      rw [Buf.len] at hlen
      omega
    some ((v.hi - n, v.hi), ⟨⟨v.buf.bytes, v.buf.start, v.buf.stop - n, hle,
      Nat.le_trans (Nat.sub_le ..) v.buf.inside⟩, v.lo, v.hi - n, v.front, congrArg (· - n) v.back⟩)

/-- `unwrap` of an option. -/
def expect {α : Type} : Option α → Except Fault α
  | some a => .ok a
  | none => .error .panic

def takeRestFront : Except Fault (Region × BufView) := expect (v.takeFront v.len)

def takeRestBack : Except Fault (Region × BufView) := expect (v.takeBack v.len)

/-- `LayoutVerified::new_unaligned` for a type of this size: it refuses other lengths. -/
def newUnaligned (r : Region) : Option Region := if r.2 - r.1 = size then some r else none

/-- An object of this size, from the bytes that were taken. -/
def object : Option (Region × BufView) → Except Fault (Option (Region × BufView))
  | none => .ok none
  | some (bytes, v) => do
    let obj ← expect (newUnaligned size bytes)
    pure (some (obj, v))

def takeObjFront : Except Fault (Option (Region × BufView)) :=
  object size (v.takeFront size)

def takeObjBack : Except Fault (Option (Region × BufView)) :=
  object size (v.takeBack size)

def zeroed (taken : Region × BufView) : Region × BufView :=
  (taken.1, ⟨taken.2.buf.zero taken.1.1 taken.1.2, taken.2.lo, taken.2.hi, taken.2.front,
    taken.2.back⟩)

def takeFrontZero (n : Nat) : Option (Region × BufView) := (v.takeFront n).map zeroed

def takeBackZero (n : Nat) : Option (Region × BufView) := (v.takeBack n).map zeroed

def takeRestFrontZero : Except Fault (Region × BufView) := expect (v.takeFrontZero v.len)

def takeRestBackZero : Except Fault (Region × BufView) := expect (v.takeFrontZero v.len)

/-- `LayoutVerified::new_unaligned_zeroed` on the bytes that were taken. -/
def objectZeroed : Option (Region × BufView) → Except Fault (Option (Region × BufView))
  | none => .ok none
  | some (bytes, v) => do
    let obj ← expect (newUnaligned size bytes)
    pure (some (zeroed (obj, v)))

def takeObjFrontZero : Except Fault (Option (Region × BufView)) :=
  objectZeroed size (v.takeFront size)

def takeObjBackZero : Except Fault (Option (Region × BufView)) :=
  objectZeroed size (v.takeBack size)

end BufView

end Garnet.Packet
