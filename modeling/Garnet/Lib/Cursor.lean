import Mathlib.Data.List.Basic
import Garnet.Lib.Outcome

/-! A byte source with a position: reads of an exact length, and seeks from the start. A file
that is open for reading and writing is one too, with positions that are signed 64-bit numbers. -/

namespace Garnet
open List

structure Cursor where
  bytes : List UInt8
  pos : Nat
  deriving Repr, DecidableEq

namespace Cursor

def readExact (n : Nat) : EStateM Fault Cursor (List UInt8) := fun s =>
  if n ≤ s.bytes.length - s.pos then .ok ((s.bytes.drop s.pos).take n) { s with pos := s.pos + n }
  else .error (.error "failed to fill whole buffer") s

def seek (pos : Nat) : EStateM Fault Cursor Unit := fun s => .ok () { s with pos }

/-- `lseek` from the start. An offset of `2 ^ 63` or more is negative as an `off_t`. -/
def lseek (offset : Nat) (s : Cursor) : Option Cursor :=
  if offset < 2 ^ 63 then some { s with pos := offset } else none

/-- Data brought to length `n` by zeros behind it. -/
def grow (n : Nat) (b : List UInt8) : List UInt8 := b ++ List.replicate (n - b.length) 0

/-- Writes all of `b`. A position behind the end leaves a hole that reads as zeros. -/
def writeAll (b : List UInt8) (s : Cursor) : Option Cursor :=
  if b = [] then some s
  else if s.pos + b.length < 2 ^ 63 then
    some ⟨grow s.pos (s.bytes.take s.pos) ++ b ++ s.bytes.drop (s.pos + b.length), s.pos + b.length⟩
  else none

def ftruncate (n : Nat) (s : Cursor) : Option Cursor :=
  if n < 2 ^ 63 then some { s with bytes := grow n (s.bytes.take n) } else none

def put (b : List UInt8) (s : Cursor) : Cursor :=
  if b = [] then s else ⟨grow s.pos s.bytes ++ b, s.pos + b.length⟩

section Posix
variable {a b : List UInt8} {s : Cursor}

theorem grow_of_le {n : Nat} (h : n ≤ b.length) : grow n b = b := by
  rw [grow, Nat.sub_eq_zero_of_le h, replicate_zero, append_nil]

theorem grow_length {n : Nat} (h : b.length ≤ n) : (grow n b).length = n := by
  rw [grow, length_append, length_replicate]
  omega

theorem grow_replicate {k n : Nat} (h : b.length + k ≤ n) :
    grow n (b ++ List.replicate k 0) = grow n b := by
  rw [grow, grow, append_assoc, append_cancel_left_eq, length_append, length_replicate,
    replicate_append_replicate]
  congr 1
  omega

theorem writeAll_eq (hend : s.bytes.length ≤ s.pos) (hlim : s.pos + b.length < 2 ^ 63) :
    writeAll b s = some (put b s) := by
  rw [writeAll, put]
  by_cases hb : b = []
  · rw [if_pos hb, if_pos hb]
  · rw [if_neg hb, if_neg hb, if_pos hlim, take_of_length_le hend, drop_of_length_le (by omega),
      append_nil]

theorem put_pos (b : List UInt8) (s : Cursor) : (put b s).pos = s.pos + b.length := by
  rw [put]
  split
  next h => rw [h, length_nil, Nat.add_zero]
  next => rfl

variable (hend : s.bytes.length ≤ s.pos)
include hend

theorem put_length_le : (put b s).bytes.length ≤ s.pos + b.length := by
  rw [put]
  split
  next => omega
  next => exact Nat.le_of_eq (by rw [length_append, grow_length hend])

theorem put_append (a b : List UInt8) : put (a ++ b) s = put b (put a s) := by
  by_cases ha : a = []
  · rw [ha, nil_append, put.eq_def [], if_pos rfl]
  · by_cases hb : b = []
    · rw [hb, append_nil, put.eq_def [], if_pos rfl]
    · have hab : a ++ b ≠ [] := fun h => ha (append_eq_nil_iff.mp h).1
      have hgrow : grow (s.pos + a.length) (grow s.pos s.bytes ++ a) = grow s.pos s.bytes ++ a := by
        apply grow_of_le
        exact Nat.le_of_eq (by rw [length_append, grow_length hend])
      rw [put, if_neg hab, put, if_neg hb, put, if_neg ha, hgrow, append_assoc, length_append,
        Nat.add_assoc]

theorem grow_put {n : Nat} (hn : s.pos + b.length ≤ n) :
    grow n (put b s).bytes = grow s.pos s.bytes ++ grow (n - s.pos) b := by
  rw [put]
  split
  next h =>
    rw [h, grow, grow, grow, nil_append, append_assoc, append_cancel_left_eq, length_nil,
      replicate_append_replicate]
    rw [h, length_nil] at hn
    congr 1
    omega
  next =>
    rw [grow, grow.eq_def (n - s.pos), length_append, grow_length hend, append_assoc, Nat.sub_add_eq]

end Posix

section Rules
variable {β : Type} {bytes pre mid post : List UInt8}

theorem readExact_append (hb : bytes = pre ++ (mid ++ post)) :
    readExact mid.length ⟨bytes, pre.length⟩ = .ok mid ⟨bytes, pre.length + mid.length⟩ := by
  subst hb
  have hle : mid.length ≤ (pre ++ (mid ++ post)).length - pre.length := by
    rw [length_append, length_append]
    omega
  simp only [readExact, if_pos hle, drop_left, take_left]

theorem readExact_bind (hb : bytes = pre ++ (mid ++ post)) {n pos : Nat} (hn : n = mid.length)
    (hpos : pos = pre.length) (f : List UInt8 → EStateM Fault Cursor β) :
    (readExact n >>= f) ⟨bytes, pos⟩ = f mid ⟨bytes, pos + n⟩ := by
  subst hn hpos
  exact bind_ok (readExact_append hb) f

theorem seek_bind (pos : Nat) (s : Cursor) (f : Unit → EStateM Fault Cursor β) :
    (seek pos >>= f) s = f () ⟨s.bytes, pos⟩ := rfl

end Rules

end Cursor

end Garnet
