import Garnet.Lib.Splice

/-! A list that grows: what is written behind its end is preceded by a filling. -/

namespace Garnet.Growable
open List

variable {α : Type} {z : α} {n m off i : Nat} {b l : List α}

/-- At least `n` elements. -/
def grow (z : α) (n : Nat) (l : List α) : List α := l ++ List.replicate (n - l.length) z

/-- `b` at `off`. -/
def put (z : α) (off : Nat) (b l : List α) : List α := splice off b (grow z (off + b.length) l)

/-- Exactly `n` elements. -/
def resize (z : α) (n : Nat) (l : List α) : List α := (grow z n l).take n

theorem grow_length : (grow z n l).length = max l.length n := by
  unfold grow
  rw [length_append, length_replicate]
  omega

theorem grow_of_le (h : n ≤ l.length) : grow z n l = l := by
  unfold grow
  rw [Nat.sub_eq_zero_of_le h, replicate_zero, append_nil]

theorem grow_grow (h : m ≤ n) : grow z n (grow z m l) = grow z n l := by
  rw [grow, grow_length, grow, grow, append_assoc, ← replicate_add]
  congr 2
  omega

theorem getElem?_grow (i : Nat) :
    (grow z n l)[i]? = if i < l.length then l[i]? else if i < n then some z else none := by
  unfold grow
  split
  next hi =>
    rw [List.getElem?_append_left hi]
  next =>
    rw [List.getElem?_append_right (by omega), List.getElem?_replicate]
    split
    · rw [if_pos (by omega)]
    · rw [if_neg (by omega)]

theorem getElem?_put (i : Nat) : (put z off b l)[i]? =
    if off ≤ i ∧ i < off + b.length then b[i - off]? else if i < l.length then l[i]? else if i <
      off + b.length then some z else none := by
  have hoff : off ≤ (grow z (off + b.length) l).length := by
    rw [grow_length]
    omega
  unfold put
  rw [getElem?_splice hoff, getElem?_grow]
  split
  · rw [if_neg (fun h : off ≤ i ∧ i < off + b.length => by omega)]
  · split
    next hhigh =>
      rw [if_pos ⟨by omega, hhigh⟩]
    next hhigh =>
      rw [if_neg (fun h : off ≤ i ∧ i < off + b.length => hhigh h.2)]

theorem put_replicate (n : Nat) :
    put z l.length (List.replicate n z) l = grow z (l.length + n) l := by
  apply ext_getElem?
  intro i
  rw [getElem?_put, getElem?_grow, length_replicate]
  by_cases hi : i < l.length
  · rw [if_neg (fun h : l.length ≤ i ∧ i < l.length + n => by omega)]
  · rw [if_neg hi]
    by_cases hn : i < l.length + n
    · rw [if_pos ⟨by omega, hn⟩, if_pos hn, List.getElem?_replicate, if_pos (by omega)]
    · rw [if_neg (fun h : l.length ≤ i ∧ i < l.length + n => hn h.2)]

theorem resize_of_ge (h : l.length ≤ n) : resize z n l = grow z n l := by
  unfold resize
  apply take_of_length_le
  rw [grow_length]
  omega

theorem resize_length : (resize z n l).length = n := by
  unfold resize
  rw [length_take, grow_length]
  omega

end Garnet.Growable
