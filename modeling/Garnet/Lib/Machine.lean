import Garnet.Lib.Outcome
import Mathlib.Data.Int.Order.Basic

/-! Machine integers as integers in a range. Arithmetic that leaves the range panics in a
debug build and wraps around in a release build. -/

namespace Garnet

inductive Build where
  | debug | release
  deriving DecidableEq, Repr

structure IntType where
  width : Nat
  signed : Bool
  deriving DecidableEq, Repr

variable (t : IntType)

namespace IntType

def i64 : IntType := ⟨64, true⟩

def lo : Int := if t.signed then -(2 ^ (t.width - 1)) else 0
def hi : Int := if t.signed then 2 ^ (t.width - 1) - 1 else 2 ^ t.width - 1

def InRange (x : Int) : Prop := t.lo ≤ x ∧ x ≤ t.hi

instance (x : Int) : Decidable (t.InRange x) := inferInstanceAs (Decidable (_ ∧ _))

def wrap (x : Int) : Int := (x - t.lo) % 2 ^ t.width + t.lo

/-- The result of an operation whose exact value is `x`. -/
def fit (b : Build) (x : Int) : Except Fault Int :=
  if t.InRange x then .ok x
  else
    match b with
    | .debug => .error .panic
    | .release => .ok (t.wrap x)

variable {t : IntType} {b : Build} {x : Int}

theorem lo_nonpos : t.lo ≤ 0 := by
  unfold lo
  split
  · exact Int.neg_nonpos_of_nonneg (Int.pow_nonneg (by decide))
  · exact Int.le_refl 0

theorem fit_ok (h : t.InRange x) : t.fit b x = .ok x := if_pos h

theorem fit_debug_panic (h : ¬ t.InRange x) : t.fit .debug x = .error .panic := if_neg h

end IntType

end Garnet
