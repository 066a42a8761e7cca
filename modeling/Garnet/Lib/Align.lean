import Mathlib.Data.Nat.Bitwise
import Mathlib.Data.List.Basic
import Mathlib.Tactic.Ring

/-! Rounding a position up to a boundary, and data padded to it. -/

namespace Garnet

/-- The first multiple of `m` that is not below `n`. -/
def roundUp (m n : Nat) : Nat := (n + (m - 1)) / m * m

section RoundUp
variable {m : Nat}

theorem dvd_roundUp (m n : Nat) : m ∣ roundUp m n := dvd_mul_left ..

theorem roundUp_eq (hm : 0 < m) (n : Nat) :
    roundUp m n = n - n % m + (if 0 < n % m then m else 0) := by
  have hdiv := Nat.div_add_mod n m
  have hlt := Nat.mod_lt n hm
  have hsub : n - n % m = n / m * m := by
    rw [mul_comm]
    omega
  rw [roundUp, hsub]
  split
  next hpos =>
    have hq : (n + (m - 1)) / m = n / m + 1 := by
      apply Nat.div_eq_of_lt_le
      · rw [add_mul, mul_comm]
        omega
      · rw [add_mul, add_mul, mul_comm]
        omega
    rw [hq, add_mul, one_mul]
  next hzero =>
    have hq : (n + (m - 1)) / m = n / m := by
      apply Nat.div_eq_of_lt_le
      · rw [mul_comm]
        omega
      · rw [add_mul, mul_comm]
        omega
    rw [hq, add_zero]

theorem le_roundUp (hm : 0 < m) (n : Nat) : n ≤ roundUp m n := by
  have hle := Nat.mod_le n m
  have hlt := Nat.mod_lt n hm
  rw [roundUp_eq hm]
  split <;> omega

theorem roundUp_lt (hm : 0 < m) (n : Nat) : roundUp m n < n + m := by
  have hle := Nat.mod_le n m
  rw [roundUp_eq hm]
  split <;> omega

theorem roundUp_mono (m : Nat) {a b : Nat} (h : a ≤ b) : roundUp m a ≤ roundUp m b :=
  Nat.mul_le_mul_right m (Nat.div_le_div_right (Nat.add_le_add_right h _))

theorem roundUp_add_of_dvd (hm : 0 < m) {a : Nat} (h : m ∣ a) (b : Nat) :
    roundUp m (a + b) = a + roundUp m b := by
  obtain ⟨k, rfl⟩ := h
  rw [roundUp, roundUp, add_assoc, Nat.mul_add_div hm]
  ring

end RoundUp

theorem and_high_bits {w k x : Nat} (hk : k ≤ w) (hx : x < 2 ^ w) :
    x &&& (2 ^ w - 2 ^ k) = x / 2 ^ k * 2 ^ k := by
  have hmask : 2 ^ w - 2 ^ k = 2 ^ k * (2 ^ (w - k) - 1) := by
    rw [Nat.mul_sub, ← pow_add, Nat.add_sub_cancel' hk, mul_one]
  rw [hmask, mul_comm (x / 2 ^ k)]
  apply Nat.eq_of_testBit_eq
  intro i
  rw [Nat.testBit_and, Nat.testBit_two_pow_mul, Nat.testBit_two_pow_sub_one,
    Nat.testBit_two_pow_mul, Nat.testBit_div_two_pow]
  by_cases hi : k ≤ i
  · by_cases hw : i < w
    · simp [hi, Nat.sub_lt_sub_right hi hw, Nat.sub_add_cancel hi]
    · have hbit : x.testBit i = false :=
        Nat.testBit_lt_two_pow (lt_of_lt_of_le hx
          (Nat.pow_le_pow_right Nat.two_pos (Nat.le_of_not_lt hw)))
      simp [hbit, Nat.sub_add_cancel hi]
  · simp [hi]

theorem and_high_bits_roundUp {w k x : Nat} (hk : k ≤ w) (hx : x + (2 ^ k - 1) < 2 ^ w) :
    ((x + (2 ^ k - 1)) % 2 ^ w) &&& (2 ^ w - 2 ^ k) = roundUp (2 ^ k) x := by
  rw [Nat.mod_eq_of_lt hx, and_high_bits hk hx]
  rfl

section PadTo
variable {α : Type} {m : Nat}

/-- Data with as many copies of `z` behind it as its length needs to be a multiple of `m`. -/
def padTo (m : Nat) (z : α) (b : List α) : List α :=
  b ++ List.replicate (roundUp m b.length - b.length) z

theorem padTo_length (hm : 0 < m) (z : α) (b : List α) :
    (padTo m z b).length = roundUp m b.length := by
  have hle := le_roundUp hm b.length
  rw [padTo, List.length_append, List.length_replicate]
  omega

end PadTo

end Garnet
