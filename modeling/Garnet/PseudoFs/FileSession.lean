import Garnet.PseudoFs.FileConnection

/-! A connection against an array of bytes with a position. -/

namespace Garnet.PseudoFs
open List

open Bits Growable

structure Contents where
  bytes : List UInt8
  position : Nat

variable (capacity : Nat) (a : Contents)

namespace Contents

def limit : Nat := max capacity a.bytes.length

/-- The longest part of `data` that fits below the limit, written at `offset`. -/
def fitting (offset : Nat) (data : List UInt8) : List UInt8 :=
  data.take (a.limit capacity - offset)

def target (offset : Int) : SeekOrigin → Int
  | .start => offset
  | .current => a.position + offset
  | .end => a.bytes.length + offset

def step : FileRequest → FileReply × Contents
  | .read count =>
    let content := slice count a.position a.bytes
    (.read .ok content, { a with position := a.position + content.length })
  | .readAt offset count => (.read .ok (slice count offset a.bytes), a)
  | .write data =>
    if a.position < a.limit capacity then
      let stored := a.fitting capacity a.position data
      (.write .ok stored.length, ⟨put 0 a.position stored a.bytes, a.position + stored.length⟩)
    else (.write .outOfRange 0, a)
  | .writeAt offset data =>
    if offset < a.limit capacity then
      let stored := a.fitting capacity offset data
      (.write .ok stored.length, { a with bytes := put 0 offset stored a.bytes })
    else (.write .outOfRange 0, a)
  | .seek offset origin =>
    if 0 ≤ a.target offset origin ∧ a.target offset origin < a.limit capacity then
      (.seek .ok (a.target offset origin).toNat,
        { a with position := (a.target offset origin).toNat })
    else (.seek .outOfRange a.position, a)
  | .truncate length =>
    if length ≤ a.limit capacity then
      (.truncate .ok, ⟨resize 0 length a.bytes, min a.position (max capacity length)⟩)
    else (.truncate .outOfRange, a)

def steps (capacity : Nat) : List FileRequest → Contents → List FileReply × Contents
  | [], a => ([], a)
  | r :: rest, a =>
    ((a.step capacity r).1 :: (steps capacity rest (a.step capacity r).2).1,
      (steps capacity rest (a.step capacity r).2).2)

def Writes : FileRequest → Bool
  | .write _ => a.position < a.limit capacity
  | .writeAt offset _ => offset < a.limit capacity
  | _ => false

/-- Some request of the sequence satisfies `p` of the array it meets. -/
def meets (p : Contents → FileRequest → Bool) (capacity : Nat) : List FileRequest → Contents → Bool
  | [], _ => false
  | r :: rest, a => p a r || meets p capacity rest (a.step capacity r).2

end Contents

/-- The connection `c` holds both rights and keeps the array `a`. -/
structure Keeps (io : Io) (c : FileConnection) (capacity : Nat) (a : Contents) : Prop where
  readable : has c.flags io.readable = true
  writable : has c.flags io.writable = true
  bytes : c.buffer = a.bytes
  position : c.seek = a.position
  capacity : c.capacity = capacity

section Connection
variable {io : Io} {c : FileConnection}

theorem mask_ne_zero {x : Word} {k : Fin 32} (h : has x k = true) : ¬ x &&& bit k = 0 := by
  rw [and_bit_eq_zero_iff, h]
  exact nofun

theorem sliceOf_eq {buffer : List UInt8} {first last : Nat} (h : first ≤ last)
    (hlast : last ≤ buffer.length) :
    sliceOf buffer first last = .ok (slice (last - first) first buffer) := by
  unfold sliceOf
  rw [if_pos ⟨h, hlast⟩]

theorem handleReadAt_spec (hread : has c.flags io.readable = true) (offset count : Nat) :
    c.handleReadAt io offset count =
      .ok (.read .ok (slice count offset c.buffer), (slice count offset c.buffer).length) := by
  unfold FileConnection.handleReadAt
  rw [if_neg (mask_ne_zero hread)]
  by_cases hlen : c.buffer.length ≤ offset
  · have hnone : slice count offset c.buffer = [] := by
      unfold slice
      rw [drop_eq_nil_of_le hlen, take_nil]
    rw [if_pos hlen, hnone]
    rfl
  · have hmin : min count (c.buffer.length - offset) = (slice count offset c.buffer).length := by
      unfold slice
      rw [length_take, length_drop]
    have hslice : slice (min count (c.buffer.length - offset)) offset c.buffer =
        slice count offset c.buffer := by
      unfold slice
      rw [take_eq_take_iff, length_drop]
      omega
    rw [if_neg hlen]
    dsimp only
    rw [sliceOf_eq (Nat.le_add_right _ _) (by omega), Nat.add_sub_cancel_left, hslice, ← hmin]
    rfl

theorem splice_resize (buffer source : List UInt8) (offset : Nat) :
    splice offset source
      (if buffer.length ≤ offset + source.length then resize 0 (offset + source.length) buffer
        else buffer) =
      put 0 offset source buffer := by
  unfold put
  split
  next h =>
    rw [resize_of_ge h]
  next =>
    rw [grow_of_le (by omega)]

theorem handleWriteAt_spec (hwrite : has c.flags io.writable = true) {offset : Nat}
    (hoffset : offset < c.effectiveCapacity) (content : List UInt8) :
    let stored := content.take (c.effectiveCapacity - offset)
    c.handleWriteAt io offset content =
      .ok (.write .ok stored.length, stored.length,
        { c with buffer := put 0 offset stored c.buffer, wasWritten := true }) := by
  intro stored
  have hactual : min (c.effectiveCapacity - offset) content.length = stored.length :=
    length_take.symm
  have hsource : slice (stored.length - 0) 0 content = stored := by
    unfold slice
    rw [drop_zero, Nat.sub_zero, ← hactual]
    exact (take_eq_take_min).symm
  have hshort : stored.length ≤ content.length := length_take_le' _ _
  have hroom : offset + stored.length ≤
      (if c.buffer.length ≤ offset + stored.length then
        resize 0 (offset + stored.length) c.buffer else c.buffer).length := by
    split
    · exact Nat.le_of_eq resize_length.symm
    · omega
  unfold FileConnection.handleWriteAt
  rw [if_neg (mask_ne_zero hwrite), if_neg (by omega)]
  dsimp only
  rw [hactual, sliceOf_eq (Nat.zero_le _) hshort, ok_bind, hsource]
  unfold writeSlice
  rw [sliceOf_eq (Nat.le_add_right _ _) hroom, ok_bind, if_pos, ok_bind,
    splice_resize]
  rw [slice_length]
  · omega
  · rw [Nat.add_sub_cancel_left]
    exact hroom

end Connection

section Session
variable {io : Io} {c : FileConnection} {capacity : Nat} {a : Contents}

section
variable (h : Keeps io c capacity a)
include h

theorem Keeps.effectiveCapacity : c.effectiveCapacity = a.limit capacity := by
  unfold FileConnection.effectiveCapacity Contents.limit
  rw [h.bytes, h.capacity, Nat.max_comm]

theorem Keeps.handleWriteAt_ok {offset : Nat} (hoffset : offset < a.limit capacity)
    (data : List UInt8) :
    c.handleWriteAt io offset data =
      .ok (.write .ok (a.fitting capacity offset data).length,
        (a.fitting capacity offset data).length,
        { c with buffer := put 0 offset (a.fitting capacity offset data) a.bytes,
                 wasWritten := true }) := by
  rw [← h.effectiveCapacity] at hoffset
  have hrun := handleWriteAt_spec h.writable hoffset data
  rw [h.effectiveCapacity, h.bytes] at hrun
  exact hrun

theorem Keeps.handleWriteAt_outOfRange {offset : Nat} (hoffset : ¬ offset < a.limit capacity)
    (data : List UInt8) : c.handleWriteAt io offset data = .ok (.write .outOfRange 0, 0, c) := by
  unfold FileConnection.handleWriteAt
  rw [if_neg (mask_ne_zero h.writable), h.effectiveCapacity, if_pos (by omega)]

theorem Keeps.handleSeek (offset : Int) (origin : SeekOrigin) : c.handleSeek offset origin =
      if 0 ≤ a.target offset origin ∧ a.target offset origin < a.limit capacity then
        (.seek .ok (a.target offset origin).toNat,
          { c with seek := (a.target offset origin).toNat })
      else (.seek .outOfRange a.position, c) := by
  have htarget : c.newSeek offset origin = a.target offset origin := by
    cases origin with
    | start => rfl
    | current => exact congrArg (fun p : Nat => (p : Int) + offset) h.position
    | «end» => exact congrArg (fun b : List UInt8 => (b.length : Int) + offset) h.bytes
  unfold FileConnection.handleSeek
  dsimp only
  rw [htarget, h.effectiveCapacity, h.position]
  split
  · rw [if_neg (by omega)]
  · rw [if_pos (by omega)]

theorem Keeps.handleRequest (r : FileRequest) :
    ∃ c', c.handleRequest io r = .ok ((a.step capacity r).1, c') ∧
      Keeps io c' capacity (a.step capacity r).2 ∧
      c'.wasWritten = (c.wasWritten || a.Writes capacity r) := by
  cases r with
  | read count =>
    refine ⟨{ c with seek := c.seek + (slice count c.seek c.buffer).length }, ?_, ?_, ?_⟩
    · dsimp only [FileConnection.handleRequest]
      rw [handleReadAt_spec h.readable, h.bytes, h.position]
      rfl
    · refine ⟨h.readable, h.writable, h.bytes, ?_, h.capacity⟩
      dsimp only
      rw [h.bytes, h.position]
      rfl
    · exact (Bool.or_false _).symm
  | readAt offset count =>
    refine ⟨c, ?_, h, (Bool.or_false _).symm⟩
    dsimp only [FileConnection.handleRequest]
    rw [handleReadAt_spec h.readable, h.bytes]
    rfl
  | write data =>
    dsimp only [FileConnection.handleRequest, Contents.step, Contents.Writes]
    by_cases hoffset : a.position < a.limit capacity
    · rw [if_pos hoffset, h.position, h.handleWriteAt_ok hoffset, decide_eq_true hoffset]
      refine ⟨_, rfl, ⟨h.readable, h.writable, rfl, ?_, h.capacity⟩, (Bool.or_true _).symm⟩
      dsimp only
      rw [h.position]
    · rw [if_neg hoffset, h.position, h.handleWriteAt_outOfRange hoffset,
        decide_eq_false hoffset]
      exact ⟨_, rfl, ⟨h.readable, h.writable, h.bytes, h.position, h.capacity⟩,
        (Bool.or_false _).symm⟩
  | writeAt offset data =>
    dsimp only [FileConnection.handleRequest, Contents.step, Contents.Writes]
    split
    next hoffset =>
      rw [h.handleWriteAt_ok hoffset, decide_eq_true hoffset]
      exact ⟨_, rfl, ⟨h.readable, h.writable, rfl, h.position, h.capacity⟩,
        (Bool.or_true _).symm⟩
    next hoffset =>
      rw [h.handleWriteAt_outOfRange hoffset, decide_eq_false hoffset]
      exact ⟨c, rfl, h, (Bool.or_false _).symm⟩
  | seek offset origin =>
    dsimp only [FileConnection.handleRequest, Contents.step, Contents.Writes]
    rw [h.handleSeek]
    by_cases hin : 0 ≤ a.target offset origin ∧ a.target offset origin < a.limit capacity
    · rw [if_pos hin, if_pos hin]
      exact ⟨_, rfl, ⟨h.readable, h.writable, h.bytes, rfl, h.capacity⟩, (Bool.or_false _).symm⟩
    · rw [if_neg hin, if_neg hin]
      exact ⟨c, rfl, h, (Bool.or_false _).symm⟩
  | truncate length =>
    dsimp only [FileConnection.handleRequest, Contents.step, Contents.Writes]
    unfold FileConnection.handleTruncate
    rw [if_neg (mask_ne_zero h.writable), h.effectiveCapacity]
    by_cases hin : length ≤ a.limit capacity
    · rw [if_neg (by omega), if_pos hin, h.bytes, h.position, h.capacity, Nat.max_comm]
      exact ⟨_, rfl, ⟨h.readable, h.writable, rfl, rfl, rfl⟩, (Bool.or_false _).symm⟩
    · rw [if_pos (by omega), if_neg hin]
      exact ⟨c, rfl, h, (Bool.or_false _).symm⟩

theorem Keeps.handleRequests (rs : List FileRequest) :
    ∃ c', FileConnection.handleRequests io rs c = .ok ((a.steps capacity rs).1, c') ∧
      Keeps io c' capacity (a.steps capacity rs).2 ∧
      c'.wasWritten = (c.wasWritten || Contents.meets (Contents.Writes capacity) capacity rs a) := by
  induction rs generalizing c a with
  | nil => exact ⟨c, rfl, h, (Bool.or_false _).symm⟩
  | cons r rest ih =>
    obtain ⟨c₁, hrun, hkeeps, hmark⟩ := h.handleRequest r
    obtain ⟨c₂, hrest, hkeeps', hmark'⟩ := ih hkeeps
    refine ⟨c₂, ?_, hkeeps', ?_⟩
    · unfold FileConnection.handleRequests
      rw [hrun, ok_bind]
      dsimp only
      rw [hrest]
      rfl
    · rw [hmark', hmark, Bool.or_assoc]
      rfl

end

end Session

end Garnet.PseudoFs
