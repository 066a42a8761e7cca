import Mathlib.Data.List.Basic

/-! Binary search for the first element of a list that a test does not put before the one
sought, as the C++ standard library does it. -/

namespace Garnet

variable {α : Type} {before : α → Bool} {xs : List α} {m : Nat}

/-- The search among the `count` elements from `first` on; `fuel` bounds the number of steps. -/
def lowerBoundFrom (before : α → Bool) (xs : List α) : Nat → Nat → Nat → Nat
  | 0, first, _ => first
  | fuel + 1, first, count =>
    if count = 0 then first
    else
      let step := count / 2
      if (xs[first + step]?).any before then lowerBoundFrom before xs fuel (first + step + 1) (count - (step + 1))
      else lowerBoundFrom before xs fuel first step

def lowerBound (before : α → Bool) (xs : List α) : Nat :=
  lowerBoundFrom before xs xs.length 0 xs.length

/-- The elements that the test puts before are those below index `m`. -/
def PartitionedAt (before : α → Bool) (xs : List α) (m : Nat) : Prop :=
  ∀ i x, xs[i]? = some x → (before x = true ↔ i < m)

theorem lowerBoundFrom_eq (h : PartitionedAt before xs m) {fuel first count : Nat}
    (hfuel : count ≤ fuel) (hlow : first ≤ m) (hhigh : m ≤ first + count)
    (hin : first + count ≤ xs.length) : lowerBoundFrom before xs fuel first count = m := by
  induction fuel generalizing first count with
  | zero =>
    rw [lowerBoundFrom]
    omega
  | succ fuel ih =>
    rw [lowerBoundFrom]
    split
    next hzero => omega
    next hpos =>
      -- the middle element decides which half the partition lies in
      have hmid : first + count / 2 < xs.length := by omega
      have hiff := h _ _ (List.getElem?_eq_getElem hmid)
      simp only [List.getElem?_eq_getElem hmid, Option.any_some]
      split
      next hbefore =>
        have hlt := hiff.mp hbefore
        apply ih <;> omega
      next hnot =>
        have hge : ¬ first + count / 2 < m := fun hlt => hnot (hiff.mpr hlt)
        apply ih <;> omega

theorem lowerBound_eq (h : PartitionedAt before xs m) (hm : m ≤ xs.length) :
    lowerBound before xs = m :=
  lowerBoundFrom_eq h (Nat.le_refl _) (Nat.zero_le _) (by omega) (by omega)

end Garnet
