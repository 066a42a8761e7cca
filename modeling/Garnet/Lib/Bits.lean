import Mathlib.Data.List.Basic

/-!
Words whose bits are flags: a flag is a bit position, a set of flags is the
word with those bits set, and the usual mask tests say which flags are there.
-/

namespace Garnet.Bits

variable {w : Nat}

/-- The word with the one flag `k`. -/
def bit (k : Fin w) : BitVec w := BitVec.twoPow w k

/-- The word `x` has the flag `k`. -/
def has (x : BitVec w) (k : Fin w) : Bool := x.getLsbD k

@[simp] theorem has_bit (j k : Fin w) : has (bit j) k = decide (k = j) := by
  unfold has bit
  rw [BitVec.getLsbD_twoPow]
  have hj : decide (j.val < w) = true := decide_eq_true j.isLt
  rw [hj, Bool.true_and, decide_eq_decide, Fin.ext_iff]
  exact eq_comm

@[simp] theorem has_and (x y : BitVec w) (k : Fin w) : has (x &&& y) k = (has x k && has y k) :=
  BitVec.getLsbD_and

@[simp] theorem has_or (x y : BitVec w) (k : Fin w) : has (x ||| y) k = (has x k || has y k) :=
  BitVec.getLsbD_or

@[simp] theorem has_not (x : BitVec w) (k : Fin w) : has (~~~x) k = !has x k := by
  unfold has
  rw [BitVec.getLsbD_not, decide_eq_true k.isLt, Bool.true_and]

@[simp] theorem has_zero (k : Fin w) : has (0 : BitVec w) k = false :=
  BitVec.getLsbD_zero

theorem eq_of_has {x y : BitVec w} (h : ∀ k, has x k = has y k) : x = y := by
  apply BitVec.eq_of_getLsbD_eq
  intro i hi
  exact h ⟨i, hi⟩

theorem eq_zero_iff (x : BitVec w) : x = 0 ↔ ∀ k, has x k = false := by
  constructor
  · intro h k
    rw [h]
    exact has_zero k
  · intro h
    apply eq_of_has
    intro k
    rw [h k, has_zero]

theorem and_bit_eq_zero_iff (x : BitVec w) (k : Fin w) : x &&& bit k = 0 ↔ has x k = false := by
  rw [eq_zero_iff]
  constructor
  · intro h
    have hk := h k
    rw [has_and, has_bit, decide_eq_true rfl, Bool.and_true] at hk
    exact hk
  · intro h j
    rw [has_and, has_bit]
    by_cases hj : j = k
    · rw [hj, h, Bool.false_and]
    · rw [decide_eq_false hj, Bool.and_false]

theorem and_not_eq_zero_iff (x y : BitVec w) :
    x &&& ~~~y = 0 ↔ ∀ k, has x k = true → has y k = true := by
  rw [eq_zero_iff]
  apply forall_congr'
  intro k
  rw [has_and, has_not]
  cases has x k <;> cases has y k <;> simp

end Garnet.Bits
