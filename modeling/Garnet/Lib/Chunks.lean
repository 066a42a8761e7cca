import Mathlib.Data.List.Basic

/-! A list cut into chunks of a fixed size, the last of which can be shorter. -/

namespace Garnet
open List

variable {α : Type} {n : Nat} {l : List α} {i : Nat}

/-- The chunk with index `i`; what is behind the end of the list is missing from it. -/
def chunk (n : Nat) (l : List α) (i : Nat) : List α := (l.drop (n * i)).take n

/-- How many chunks it takes to cover `len` elements. -/
def chunkCount (n len : Nat) : Nat := (len + n - 1) / n

def chunks (n : Nat) (l : List α) : List (List α) :=
  (List.range (chunkCount n l.length)).map (chunk n l)

theorem chunkCount_zero (hn : 0 < n) : chunkCount n 0 = 0 := Nat.div_eq_of_lt (by omega)

theorem chunkCount_add (hn : 0 < n) {len : Nat} (hlen : 0 < len) :
    chunkCount n len = chunkCount n (len - n) + 1 := by
  unfold chunkCount
  by_cases h : len ≤ n
  · rw [Nat.sub_eq_zero_of_le h, Nat.zero_add, Nat.div_eq_of_lt (by omega : n - 1 < n)]
    exact Nat.div_eq_of_lt_le (by omega) (by omega)
  · rw [← Nat.add_div_right _ hn]
    congr 1
    omega

theorem chunkCount_eq (hn : 0 < n) (len : Nat) :
    chunkCount n len = if len % n = 0 then len / n else len / n + 1 := by
  have hdiv := Nat.div_add_mod len n
  have hmod := Nat.mod_lt len hn
  unfold chunkCount
  split
  next h => exact Nat.div_eq_of_lt_le (by rw [Nat.mul_comm]; omega) (by rw [Nat.succ_mul, Nat.mul_comm]; omega)
  next h =>
    refine Nat.div_eq_of_lt_le ?_ ?_
    · rw [Nat.succ_mul, Nat.mul_comm]
      omega
    · rw [Nat.succ_mul, Nat.succ_mul, Nat.mul_comm]
      omega

theorem chunk_zero (l : List α) : chunk n l 0 = l.take n := by simp [chunk]

theorem chunk_succ (l : List α) (i : Nat) : chunk n l (i + 1) = chunk n (l.drop n) i := by
  rw [chunk, chunk, drop_drop, Nat.mul_succ, Nat.add_comm n]

theorem chunk_append (hi : n * (i + 1) ≤ l.length) (l' : List α) :
    chunk n (l ++ l') i = chunk n l i := by
  have hle : n * i + n ≤ l.length := by rwa [Nat.mul_succ] at hi
  rw [chunk, chunk, drop_append_of_le_length (by omega), take_append_of_le_length]
  rw [length_drop]
  omega

theorem chunk_last (hi : l.length ≤ n * (i + 1)) : chunk n l i = l.drop (n * i) := by
  rw [Nat.mul_succ] at hi
  exact take_of_length_le (by rw [length_drop]; omega)

theorem chunks_nil (hn : 0 < n) : chunks n ([] : List α) = [] := by
  simp [chunks, chunkCount_zero hn]

theorem chunks_of_ne_nil (hn : 0 < n) (hl : l ≠ []) :
    chunks n l = l.take n :: chunks n (l.drop n) := by
  have hcount := chunkCount_add hn (length_pos_iff.mpr hl)
  simp only [chunks, hcount, length_drop, range_succ_eq_map, map_cons, map_map, chunk_zero]
  congr 2
  funext i
  exact chunk_succ l i

end Garnet
