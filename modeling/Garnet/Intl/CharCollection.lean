import Garnet.Lib.Outcome

/-! Collections of characters as sorted vectors of ranges. A `Char` is a Unicode scalar value, so
the character behind U+D7FF is U+E000. -/

namespace Garnet.Intl

def ord (c : Char) : Nat := c.ordinal.val

def ofOrd (n : Nat) : Char := Char.ofOrdinal (Fin.ofNat Char.numCodePoints n)

def forward (c : Char) : Char := ofOrd (ord c + 1)
def backward (c : Char) : Char := ofOrd (ord c - 1)

/-- `std::char::MAX`. -/
def charMax : Char := Char.ofNat 0x10FFFF

def charMin : Char := Char.ofNat 0

structure CharRange where
  low : Char
  high : Char
  deriving Repr, DecidableEq

variable (start stop : Char)

namespace CharRange

def isEmpty (r : CharRange) : Bool := decide (r.high < r.low)

def empty : CharRange := ⟨Char.ofNat 1, Char.ofNat 0⟩

def closed : CharRange := ⟨start, stop⟩
def openRight : CharRange := if start < stop then ⟨start, backward stop⟩ else empty
def openLeft : CharRange := if start < stop then ⟨forward start, stop⟩ else empty
def «open» : CharRange :=
  if start < stop ∧ forward start < stop then ⟨forward start, backward stop⟩ else empty
def all : CharRange := closed charMin charMax

def nextBack (r : CharRange) : Option Char := if r.isEmpty then none else some r.high

instance : BEq CharRange := ⟨fun r s => (r.isEmpty && s.isEmpty) || (r.low == s.low && r.high == s.high)⟩

/-- How the range lies to a character. There is no order for an empty range. -/
def cmpChar (r : CharRange) (ch : Char) : Except Fault Ordering :=
  if r.isEmpty then .error .panic
  else if r.high < ch then .ok .lt
  else if ch < r.low then .ok .gt
  else .ok .eq

end CharRange

/-- Whatever gives ranges: its `iter_ranges` and its `range_count`. -/
structure MultiCharRange where
  iterRanges : List CharRange
  rangeCount : Nat

def MultiCharRange.ofChar (c : Char) : MultiCharRange := ⟨[CharRange.closed c c], 1⟩
def MultiCharRange.ofRange (r : CharRange) : MultiCharRange := ⟨[r], 1⟩

def areCharsAdjacent (left right : Char) : Bool :=
  match (CharRange.openRight left right).nextBack with
  | none => false
  | some nextRight => left == nextRight

/-- `Vec::splice`. -/
def spliceVec {α : Type} (v : List α) (start stop : Nat) (new : List α) : Except Fault (List α) :=
  if start ≤ stop ∧ stop ≤ v.length then .ok (v.take start ++ new ++ v.drop stop) else .error .panic

/-- `binary_search_by` of a vector in the order of `f`: where the element is, or where it would
go. -/
def binarySearchBy {α : Type} (f : α → Except Fault Ordering) :
    List α → Nat → Except Fault (Except Nat (Nat × α))
  | [], i => .ok (.error i)
  | x :: xs, i => do
    match ← f x with
    | .lt => binarySearchBy f xs (i + 1)
    | .eq => pure (.ok (i, x))
    | .gt => pure (.error i)

structure CharCollection where
  ranges : List CharRange
  deriving BEq

variable (c : CharCollection) (rhs : MultiCharRange)

namespace CharCollection

def new : CharCollection := ⟨[]⟩

def toMulti : MultiCharRange := ⟨c.ranges, c.ranges.length⟩

def findContainingRange (query : Char) : Except Fault (Except Nat (Nat × CharRange)) :=
  binarySearchBy (fun range => range.cmpChar query) c.ranges 0

def contains (ch : Char) : Except Fault Bool := do
  match ← c.findContainingRange ch with
  | .ok _ => pure true
  | .error _ => pure false

def sameRange : Except Nat (Nat × CharRange) → Except Nat (Nat × CharRange) → Bool
  | .ok (i, r), .ok (j, s) => i == j && r == s
  | _, _ => false

/-- The new range and the index where it starts, with the range on its left if they are adjacent. -/
def coalesceLeft (ranges : List CharRange) (range : CharRange) (start : Nat) :
    Except Fault (CharRange × Nat) :=
  if start > 0 then
    match ranges[start - 1]? with
    | none => .error .panic
    | some prev =>
      if areCharsAdjacent prev.high range.low then .ok (⟨prev.low, range.high⟩, start - 1) else .ok (range, start)
  else .ok (range, start)

def coalesceRight (ranges : List CharRange) (range : CharRange) (stop : Nat) :
    Except Fault (CharRange × Nat) :=
  if stop < ranges.length then
    match ranges[stop]? with
    | none => .error .panic
    | some next =>
      if areCharsAdjacent range.high next.low then .ok (⟨range.low, next.high⟩, stop + 1) else .ok (range, stop)
  else .ok (range, stop)

def replaceRanges (range : CharRange) (start stop : Nat) : Except Fault CharCollection := do
  let (range, start) ← coalesceLeft c.ranges range start
  let (range, stop) ← coalesceRight c.ranges range stop
  return ⟨← spliceVec c.ranges start stop [range]⟩

def insertCharRange (newRange : CharRange) : Except Fault CharCollection :=
  if newRange.isEmpty then .ok c
  else do
    let lower ← c.findContainingRange newRange.low
    let upper ← c.findContainingRange newRange.high
    if sameRange lower upper then .ok c
    else
      let (newLow, removeFrom) := match lower with
        | .ok (idx, existing) => (existing.low, idx)
        | .error idx => (newRange.low, idx)
      let (newHigh, removeTo) := match upper with
        | .ok (idx, existing) => (existing.high, idx + 1)
        | .error idx => (newRange.high, idx)
      c.replaceRanges (CharRange.closed newLow newHigh) removeFrom removeTo

def removeCharRange (range : CharRange) : Except Fault CharCollection :=
  if range.isEmpty then .ok c
  else do
    let lower ← c.findContainingRange range.low
    let upper ← c.findContainingRange range.high
    let (left, removeFrom) := match lower with
      | .ok (idx, existing) =>
        (if existing.low < range.low then [CharRange.openRight existing.low range.low] else [], idx)
      | .error idx => ([], idx)
    let (right, removeTo) := match upper with
      | .ok (idx, existing) =>
        (if range.high < existing.high then [CharRange.openLeft range.high existing.high] else [],
          idx + 1)
      | .error idx => ([], idx)
    return ⟨← spliceVec c.ranges removeFrom removeTo (left ++ right)⟩

def insert (toAdd : MultiCharRange) : Except Fault CharCollection :=
  toAdd.iterRanges.foldlM insertCharRange c

def remove (toRemove : MultiCharRange) : Except Fault CharCollection :=
  toRemove.iterRanges.foldlM removeCharRange c

def clear (_ : CharCollection) : CharCollection := ⟨[]⟩

/-- `From<&T> for CharCollection`. -/
def ofMulti (source : MultiCharRange) : Except Fault CharCollection := new.insert source

def union : Except Fault CharCollection :=
  if c.ranges.length > rhs.rangeCount then c.insert rhs
  else do (← ofMulti rhs).insert c.toMulti

def gaps (prevHigh : Char) : List CharRange → List CharRange
  | [] => if prevHigh ≠ charMax then [CharRange.openLeft prevHigh charMax] else []
  | r :: rs => CharRange.open prevHigh r.low :: gaps r.high rs

def complement : Except Fault CharCollection :=
  match c.ranges with
  | [] => ofMulti (.ofRange CharRange.all)
  | r :: rs =>
    .ok ⟨(if r.low ≠ charMin then [CharRange.openRight charMin r.low] else []) ++ gaps r.high rs⟩

def intersection : Except Fault CharCollection :=
  if c.ranges.length > rhs.rangeCount then do
    let rhs ← ofMulti rhs
    c.remove (← rhs.complement).toMulti
  else do
    let result ← ofMulti rhs
    result.remove (← c.complement).toMulti

def difference : Except Fault CharCollection := c.remove rhs

/-! The operators. -/

def bitor : Except Fault CharCollection := c.union rhs
def add : Except Fault CharCollection := c.union rhs
def bitorAssign : Except Fault CharCollection := c.insert rhs
def addAssign : Except Fault CharCollection := c.insert rhs
def sub : Except Fault CharCollection := c.difference rhs
def subAssign : Except Fault CharCollection := c.remove rhs
def bitand : Except Fault CharCollection := c.intersection rhs
def bitandAssign : Except Fault CharCollection := c.intersection rhs
def not : Except Fault CharCollection := c.complement

end CharCollection

end Garnet.Intl
