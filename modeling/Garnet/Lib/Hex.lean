import Mathlib.Data.List.Basic

/-! Bytes as hexadecimal text. -/

namespace Garnet.Hex
open List

def digit (n : Nat) : UInt8 := UInt8.ofNat (if n < 10 then 48 + n else 87 + n)

def value (c : UInt8) : Option Nat :=
  if 48 ≤ c.toNat ∧ c.toNat ≤ 57 then some (c.toNat - 48)
  else if 97 ≤ c.toNat ∧ c.toNat ≤ 102 then some (c.toNat - 87)
  else if 65 ≤ c.toNat ∧ c.toNat ≤ 70 then some (c.toNat - 55)
  else none

def encode (bytes : List UInt8) : List UInt8 :=
  bytes.flatMap fun b => [digit (b.toNat / 16), digit (b.toNat % 16)]

/-- Pairs of digits; no value for an odd number of them, or for another character. -/
def decode : List UInt8 → Option (List UInt8)
  | [] => some []
  | [_] => none
  | high :: low :: rest => do
    let h ← value high
    let l ← value low
    let bytes ← decode rest
    some (UInt8.ofNat (16 * h + l) :: bytes)

theorem digit_toNat {n : Nat} (h : n < 16) :
    (digit n).toNat = if n < 10 then 48 + n else 87 + n := by
  unfold digit
  apply UInt8.toNat_ofNat_of_lt'
  change _ < 2 ^ 8
  split <;> omega

theorem value_digit {n : Nat} (h : n < 16) : value (digit n) = some n := by
  unfold value
  rw [digit_toNat h]
  split
  · rw [if_pos (by omega), Nat.add_sub_cancel_left]
  · rw [if_neg (by omega), if_pos (by omega), Nat.add_sub_cancel_left]

theorem encode_length (bytes : List UInt8) : (encode bytes).length = 2 * bytes.length := by
  induction bytes with
  | nil => rfl
  | cons b rest ih =>
    unfold encode at ih ⊢
    rw [flatMap_cons, length_append, ih, length_cons]
    simp only [length_cons, length_nil]
    omega

theorem decode_encode (bytes : List UInt8) : decode (encode bytes) = some bytes := by
  induction bytes with
  | nil => rfl
  | cons b rest ih =>
    have hb := b.toNat_lt
    change decode (digit (b.toNat / 16) :: digit (b.toNat % 16) :: encode rest) = _
    unfold decode
    rw [value_digit (by omega), value_digit (by omega), ih]
    have hsum : 16 * (b.toNat / 16) + b.toNat % 16 = b.toNat := by omega
    simp only [Option.bind_eq_bind, Option.bind_some, hsum, UInt8.ofNat_toNat]

theorem mem_encode {bytes : List UInt8} {c : UInt8} (h : c ∈ encode bytes) :
    48 ≤ c.toNat ∧ c.toNat ≤ 57 ∨ 97 ≤ c.toNat ∧ c.toNat ≤ 102 := by
  obtain ⟨b, -, hc⟩ := mem_flatMap.mp h
  have hb := b.toNat_lt
  have hdigit : ∃ n, n < 16 ∧ c = digit n := by
    rcases mem_cons.mp hc with rfl | hc
    · exact ⟨_, by omega, rfl⟩
    · rw [mem_singleton.mp hc]
      exact ⟨_, by omega, rfl⟩
  obtain ⟨n, hn, rfl⟩ := hdigit
  rw [digit_toNat hn]
  split <;> omega

end Garnet.Hex
