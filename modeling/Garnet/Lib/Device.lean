import Mathlib.Data.List.Basic

/-! A device of bytes whose reads and writes succeed. -/

namespace Garnet
open List

abbrev Device := Nat → UInt8

namespace Device
variable {d : Device} {b : List UInt8} {n off i : Nat}

/-- The `n` bytes from `off` on. -/
def readAt (n off : Nat) (d : Device) : List UInt8 := (List.range n).map fun i => d (off + i)

/-- The device with `b` from `off` on. -/
def writeAt (b : List UInt8) (off : Nat) (d : Device) : Device :=
  fun i => if off ≤ i then (b[i - off]?).getD (d i) else d i

@[simp] theorem readAt_length : (d.readAt n off).length = n := by
  rw [readAt, length_map, length_range]

theorem getElem?_readAt (hi : i < n) : (d.readAt n off)[i]? = some (d (off + i)) := by
  rw [readAt, List.getElem?_map, List.getElem?_range hi]
  rfl

theorem writeAt_outside (h : i < off ∨ off + b.length ≤ i) : d.writeAt b off i = d i := by
  unfold writeAt
  split
  · rw [List.getElem?_eq_none (by omega)]
    rfl
  · rfl

theorem writeAt_inside (h : i < b.length) : d.writeAt b off (off + i) = b.get ⟨i, h⟩ := by
  unfold writeAt
  rw [if_pos (Nat.le_add_right _ _), Nat.add_sub_cancel_left, List.getElem?_eq_getElem h]
  rfl

theorem readAt_congr {d' : Device} (h : ∀ i, off ≤ i → i < off + n → d' i = d i) :
    d'.readAt n off = d.readAt n off := by
  apply map_congr_left
  intro i hi
  rw [mem_range] at hi
  exact h _ (Nat.le_add_right _ _) (Nat.add_lt_add_left hi off)

theorem readAt_writeAt_self : (d.writeAt b off).readAt b.length off = b := by
  apply ext_getElem?
  intro i
  by_cases hi : i < b.length
  · rw [getElem?_readAt hi, writeAt_inside hi, List.getElem?_eq_getElem hi]
    rfl
  · rw [List.getElem?_eq_none (by rw [readAt_length]; omega), List.getElem?_eq_none (by omega)]

theorem readAt_writeAt_apart {k : Nat} (h : k + n ≤ off ∨ off + b.length ≤ k) :
    (d.writeAt b off).readAt n k = d.readAt n k := by
  apply readAt_congr
  intro i hi hi'
  exact writeAt_outside (by omega)

end Device

end Garnet
