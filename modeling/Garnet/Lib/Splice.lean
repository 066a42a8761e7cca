import Mathlib.Data.List.Basic

/-! Parts of a list, and a list with a part replaced. Both are known by their elements. -/

namespace Garnet
open List

variable {α : Type} {l a b : List α} {n m k off i : Nat}

/-- `n` elements from `off` on. -/
def slice (n off : Nat) (l : List α) : List α := (l.drop off).take n

/-- The list with `b` in place of what stood at `off`. -/
def splice (off : Nat) (b l : List α) : List α := l.take off ++ b ++ l.drop (off + b.length)

theorem slice_length (h : off + n ≤ l.length) : (slice n off l).length = n := by
  rw [slice, length_take, length_drop]
  omega

theorem splice_length (h : off + b.length ≤ l.length) : (splice off b l).length = l.length := by
  rw [splice, length_append, length_append, length_take, length_drop]
  omega

theorem getElem?_slice (i : Nat) : (slice n off l)[i]? = if i < n then l[off + i]? else none := by
  rw [slice, List.getElem?_take, List.getElem?_drop]

theorem getElem?_splice (h : off ≤ l.length) (i : Nat) :
    (splice off b l)[i]? =
    if i < off then l[i]? else if i < off + b.length then b[i - off]? else l[i]? := by
  have htake : (l.take off).length = off := by
    rw [length_take]
    omega
  rw [splice, append_assoc, List.getElem?_append, htake]
  split
  next hi => rw [List.getElem?_take, if_pos hi]
  next hi =>
    rw [List.getElem?_append]
    split
    next hb => rw [if_pos (by omega)]
    next hb =>
      rw [if_neg (by omega), List.getElem?_drop]
      congr 1
      omega

theorem slice_zero : slice 0 off l = [] := take_zero

theorem take_slice (n m off : Nat) (l : List α) :
    (slice n off l).take m = slice (min m n) off l := by
  rw [slice, slice, take_take]

theorem drop_slice (n k off : Nat) (l : List α) :
    (slice n off l).drop k = slice (n - k) (off + k) l := by
  rw [slice, slice, drop_take, drop_drop]

theorem eq_of_slices (hn : 0 < n) (hlen : a.length = b.length)
    (h : ∀ k, k * n < a.length → slice n (k * n) a = slice n (k * n) b) : a = b := by
  apply ext_getElem?
  intro i
  by_cases hi : i < a.length
  · have hdiv : i / n * n + i % n = i := by
      rw [Nat.mul_comm]
      exact Nat.div_add_mod i n
    have hslices := congrArg (fun l => l[i % n]?) (h (i / n) (by omega))
    simp only [getElem?_slice, Nat.mod_lt i hn, if_true, hdiv] at hslices
    exact hslices
  · rw [List.getElem?_eq_none (by omega), List.getElem?_eq_none (by omega)]

theorem slice_slice (h : k + m ≤ n) : slice m k (slice n off l) = slice m (off + k) l := by
  apply ext_getElem?
  intro i
  rw [getElem?_slice, getElem?_slice, getElem?_slice]
  split
  next => rw [if_pos (by omega), Nat.add_assoc]
  next => rfl

theorem slice_append (h : off + n ≤ l.length) :
    slice n off l ++ slice m (off + n) l = slice (n + m) off l := by
  apply ext_getElem?
  intro i
  rw [List.getElem?_append, slice_length h, getElem?_slice, getElem?_slice, getElem?_slice]
  split
  next hi => rw [if_pos (by omega)]
  next hi =>
    split
    · rw [if_pos (by omega)]
      congr 1
      omega
    · rw [if_neg (by omega)]

theorem slice_splice_self (h : off ≤ l.length) : slice b.length off (splice off b l) = b := by
  apply ext_getElem?
  intro i
  rw [getElem?_slice, getElem?_splice h]
  split
  next hi =>
    rw [if_neg (by omega), if_pos (by omega)]
    congr 1
    omega
  next hi => exact (List.getElem?_eq_none (by omega)).symm

theorem slice_splice_apart (h : off ≤ l.length) (hk : k + n ≤ off ∨ off + b.length ≤ k) :
    slice n k (splice off b l) = slice n k l := by
  apply ext_getElem?
  intro i
  rw [getElem?_slice, getElem?_slice, getElem?_splice h]
  split
  next hi =>
    rcases hk with hk | hk
    · rw [if_pos (by omega)]
    · rw [if_neg (by omega), if_neg (by omega)]
  next => rfl

theorem splice_splice (h : off + a.length ≤ l.length) :
    splice (off + a.length) b (splice off a l) = splice off (a ++ b) l := by
  apply ext_getElem?
  intro i
  rw [getElem?_splice (by rw [splice_length h]; exact h), getElem?_splice (by omega),
    getElem?_splice (by omega), length_append]
  by_cases h1 : i < off
  · rw [if_pos (by omega), if_pos h1, if_pos h1]
  · by_cases h2 : i < off + a.length
    · rw [if_pos h2, if_neg h1, if_pos h2, if_neg h1, if_pos (by omega), List.getElem?_append,
        if_pos (by omega)]
    · by_cases h3 : i < off + a.length + b.length
      · rw [if_neg h2, if_pos h3, if_neg h1, if_pos (by omega), List.getElem?_append,
          if_neg (by omega)]
        congr 1
        omega
      · rw [if_neg h2, if_neg h3, if_neg h1, if_neg h2, if_neg h1, if_neg (by omega)]

theorem splice_nil : splice off ([] : List α) l = l := by
  rw [splice, append_nil, length_nil, Nat.add_zero, take_append_drop]

theorem splice_mid {p q r : List α} (h : off + b.length ≤ q.length) :
    splice (p.length + off) b (p ++ (q ++ r)) = p ++ (splice off b q ++ r) := by
  unfold splice
  rw [take_length_add_append, Nat.add_assoc, drop_length_add_append,
    take_append_of_le_length (by omega), drop_append_of_le_length h]
  simp only [append_assoc]

theorem splice_slice (h : off + n ≤ l.length) (hb : k + b.length ≤ n) :
    splice off (splice k b (slice n off l)) l = splice (off + k) b l := by
  have hlen : (slice n off l).length = n := slice_length h
  have hlen' : (splice k b (slice n off l)).length = n :=
    (splice_length (by rw [hlen]; exact hb)).trans hlen
  apply ext_getElem?
  intro i
  have hleft : (splice off (splice k b (slice n off l)) l)[i]? = _ := getElem?_splice (by omega) i
  have hright : (splice (off + k) b l)[i]? = _ := getElem?_splice (by omega) i
  rw [hleft, hright, hlen']
  by_cases h1 : i < off
  · rw [if_pos h1, if_pos (by omega)]
  by_cases h2 : i < off + n
  · have hi : off + (i - off) = i := by omega
    have hmid : (splice k b (slice n off l))[i - off]? = _ := getElem?_splice (by omega) (i - off)
    rw [if_neg h1, if_pos h2, hmid, getElem?_slice, if_pos (show i - off < n by omega), hi]
    by_cases h3 : i < off + k
    · rw [if_pos (by omega), if_pos h3]
    · rw [if_neg (by omega), if_neg h3]
      by_cases h4 : i < off + k + b.length
      · rw [if_pos (by omega), if_pos h4]
        congr 1
        omega
      · rw [if_neg (by omega), if_neg h4]
  · rw [if_neg h1, if_neg h2, if_neg (by omega), if_neg (by omega)]

end Garnet
