import Mathlib.Tactic.Ring

/-! Little-endian numbers as byte lists, and bit fields of a machine word.
A word is a natural number; the number of bytes or bits is always explicit. -/

namespace Garnet.LittleEndian

/-- The `n` low bytes of `v`, least significant first. -/
def toLe : Nat → Nat → List UInt8
  | 0, _ => []
  | n + 1, v => UInt8.ofNat v :: toLe n (v / 256)

def ofLe : List UInt8 → Nat
  | [] => 0
  | b :: bs => b.toNat + 256 * ofLe bs

@[simp] theorem toLe_length (n v : Nat) : (toLe n v).length = n := by
  induction n generalizing v with
  | zero => rfl
  | succ n ih => simp [toLe, ih]

theorem ofLe_toLe (n v : Nat) : ofLe (toLe n v) = v % 256 ^ n := by
  induction n generalizing v with
  | zero => simp [toLe, ofLe, Nat.mod_one]
  | succ n ih =>
    have hb : (UInt8.ofNat v).toNat = v % 256 := by simp
    simp only [toLe, ofLe, ih, hb, Nat.pow_succ', Nat.mod_mul]

theorem ofLe_toLe_of_lt {n v : Nat} (h : v < 256 ^ n) : ofLe (toLe n v) = v := by
  rw [ofLe_toLe, Nat.mod_eq_of_lt h]

theorem ofLe_lt (bs : List UInt8) : ofLe bs < 256 ^ bs.length := by
  induction bs with
  | nil => simp [ofLe]
  | cons b bs ih =>
    have hb : b.toNat < 256 := b.toNat_lt
    simp only [ofLe, List.length_cons, Nat.pow_succ']
    omega

theorem toLe_ofLe (bs : List UInt8) : toLe bs.length (ofLe bs) = bs := by
  induction bs with
  | nil => rfl
  | cons b bs ih =>
    have hb : b.toNat < 256 := b.toNat_lt
    have hd : (b.toNat + 256 * ofLe bs) / 256 = ofLe bs := by omega
    simp only [ofLe, List.length_cons, toLe, hd, ih]
    congr 1
    apply UInt8.toNat.inj
    simp

/-- The field of `width` bits that starts at bit `lo`. -/
def bits (w lo width : Nat) : Nat := w / 2 ^ lo % 2 ^ width

/-- `w` with the field of `width` bits at bit `lo` replaced by the low bits of `v`. -/
def setBits (w lo width v : Nat) : Nat :=
  w % 2 ^ lo + v % 2 ^ width * 2 ^ lo + w / 2 ^ (lo + width) * 2 ^ (lo + width)

theorem bits_lt (w lo width : Nat) : bits w lo width < 2 ^ width :=
  Nat.mod_lt _ (Nat.two_pow_pos width)

section
variable (w lo width v : Nat)
include w lo width v

theorem setBits_eq : setBits w lo width v =
    w % 2 ^ lo + 2 ^ lo * (v % 2 ^ width + w / 2 ^ (lo + width) * 2 ^ width) := by
  unfold setBits
  rw [pow_add]
  ring

theorem setBits_div :
    setBits w lo width v / 2 ^ lo = v % 2 ^ width + w / 2 ^ (lo + width) * 2 ^ width := by
  have hp := Nat.two_pow_pos lo
  rw [setBits_eq, Nat.add_mul_div_left _ _ hp, Nat.div_eq_of_lt (Nat.mod_lt _ hp), zero_add]

@[simp] theorem bits_setBits_self : bits (setBits w lo width v) lo width = v % 2 ^ width := by
  rw [bits, setBits_div, Nat.add_mul_mod_self_right, Nat.mod_mod]

theorem setBits_mod : setBits w lo width v % 2 ^ lo = w % 2 ^ lo := by
  rw [setBits_eq, Nat.add_mul_mod_self_left, Nat.mod_mod]

theorem setBits_high : setBits w lo width v / 2 ^ (lo + width) = w / 2 ^ (lo + width) := by
  have hp := Nat.two_pow_pos width
  rw [pow_add, ← Nat.div_div_eq_div_mul, setBits_div, ← pow_add,
    Nat.add_mul_div_right _ _ hp, Nat.div_eq_of_lt (Nat.mod_lt _ hp), zero_add]

end

theorem bits_eq_mod (w lo width : Nat) : bits w lo width = w % 2 ^ (lo + width) / 2 ^ lo := by
  rw [bits, pow_add, Nat.mod_mul_right_div_self]

variable {lo width lo' width' : Nat}

theorem bits_setBits_below (h : lo' + width' ≤ lo) (w v : Nat) :
    bits (setBits w lo width v) lo' width' = bits w lo' width' := by
  have hd : 2 ^ (lo' + width') ∣ 2 ^ lo := pow_dvd_pow 2 h
  rw [bits_eq_mod, bits_eq_mod, ← Nat.mod_mod_of_dvd _ hd, setBits_mod, Nat.mod_mod_of_dvd _ hd]

theorem bits_setBits_above (h : lo + width ≤ lo') (w v : Nat) :
    bits (setBits w lo width v) lo' width' = bits w lo' width' := by
  obtain ⟨d, rfl⟩ := Nat.le.dest h
  rw [bits, bits, pow_add _ (lo + width) d, ← Nat.div_div_eq_div_mul, setBits_high,
    Nat.div_div_eq_div_mul]

theorem setBits_lt {n w : Nat} (hw : w < 2 ^ n) (h : lo + width ≤ n) (v : Nat) :
    setBits w lo width v < 2 ^ n := by
  obtain ⟨d, rfl⟩ := Nat.le.dest h
  have hq : w / 2 ^ (lo + width) < 2 ^ d := by
    rw [Nat.div_lt_iff_lt_mul (Nat.two_pow_pos _), ← pow_add, add_comm d]
    exact hw
  rw [pow_add _ (lo + width) d, mul_comm, ← Nat.div_lt_iff_lt_mul (Nat.two_pow_pos _),
    setBits_high]
  exact hq

end Garnet.LittleEndian
