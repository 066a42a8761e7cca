import Mathlib.Tactic.Ring
import Garnet.Lib.Chunks

/-! Trees of a fixed arity that are kept as levels, from the leaves up, and that grow at the right:
each full group of nodes is handed up as one node of the next level, and at the end what is left
of each level is handed up too. The node for a group is any function of the level, of the place in
the level and of the group. -/

namespace Garnet.LevelTree
open List

variable {α : Type} (B : Nat) (node : Nat → Nat → List α → α)

/-- The nodes of `level` for the first `n` groups of the level below. -/
def parents (level : Nat) (xs : List α) (n : Nat) : List α :=
  (List.range n).map fun i => node level i (chunk B xs i)

/-- The levels above `xs` when each full group has been handed up and nothing else. -/
def Grown : Nat → List α → List (List α) → Prop
  | _, xs, [] => xs.length < B
  | level, xs, next :: rest =>
    B ≤ xs.length ∧ next = parents B node (level + 1) xs (xs.length / B) ∧ Grown (level + 1) next rest

/-- Hand up the last group of `xs`, and whatever becomes full by that. -/
def commit : Nat → List α → List (List α) → List (List α)
  | level, xs, [] => [[node (level + 1) 0 xs]]
  | level, xs, next :: rest =>
    let next' := next ++ [node (level + 1) next.length (xs.drop (B * next.length))]
    next' :: if next'.length % B = 0 then commit (level + 1) next' rest else rest

/-- The levels above `xs` in a finished tree. -/
inductive Tree : Nat → List α → List (List α) → Prop
  | root {level : Nat} {x : α} : Tree level [x] []
  | above {level : Nat} {xs : List α} {rest : List (List α)} : 1 < xs.length →
      Tree (level + 1) (parents B node (level + 1) xs (chunkCount B xs.length)) rest →
      Tree level xs (parents B node (level + 1) xs (chunkCount B xs.length) :: rest)

variable {B : Nat} {node : Nat → Nat → List α → α} {level n : Nat} {xs : List α}
  {above : List (List α)}

@[simp] theorem parents_length : (parents B node level xs n).length = n := by simp [parents]

theorem parents_succ : parents B node level xs (n + 1) =
    parents B node level xs n ++ [node level n (chunk B xs n)] := by
  simp [parents, range_succ]

theorem parents_append (h : B * n ≤ xs.length) (ys : List α) :
    parents B node level (xs ++ ys) n = parents B node level xs n := by
  refine map_congr_left fun i hi => ?_
  have hin : B * (i + 1) ≤ B * n := Nat.mul_le_mul_left B (mem_range.mp hi)
  rw [chunk_append (le_trans hin h)]

/-- The levels above `xs` when the first `n` groups have been handed up. -/
def HandedUp (B : Nat) (node : Nat → Nat → List α → α) (level : Nat) (xs : List α) (n : Nat) :
    List (List α) → Prop
  | [] => n = 0
  | next :: rest =>
    0 < n ∧ next = parents B node (level + 1) xs n ∧ Grown B node (level + 1) next rest

theorem grown_iff (hB : 0 < B) :
    Grown B node level xs above ↔ HandedUp B node level xs (xs.length / B) above := by
  cases above with
  | nil => exact (Nat.div_eq_zero_iff_lt hB).symm
  | cons next rest => simp only [Grown, HandedUp, Nat.div_pos_iff, hB, true_and]

theorem Grown.handedUp_append (hB : 0 < B) (hg : Grown B node level xs above) (ys : List α) :
    HandedUp B node level (xs ++ ys) (xs.length / B) above := by
  rw [grown_iff hB] at hg
  cases above with
  | nil => exact hg
  | cons next rest =>
    obtain ⟨hpos, hnext, hrest⟩ := hg
    exact ⟨hpos, hnext.trans (parents_append (Nat.mul_div_le ..) ys).symm, hrest⟩

theorem HandedUp.commit (hB : 1 < B) : ∀ {level n : Nat} {xs : List α} {above : List (List α)},
    HandedUp B node level xs n above → xs.length ≤ B * (n + 1) →
    HandedUp B node level xs (n + 1) (commit B node level xs above) := by
  intro level n xs above
  induction above generalizing level n xs with
  | nil =>
    intro hn hlen
    obtain rfl : n = 0 := hn
    refine ⟨Nat.one_pos, ?_, hB⟩
    rw [parents_succ, chunk_last hlen, mul_zero, drop_zero]
    rfl
  | cons next rest ih =>
    rintro ⟨hn, rfl, hrest⟩ hlen
    have hnext : parents B node (level + 1) xs n ++ [node (level + 1) n (xs.drop (B * n))] =
        parents B node (level + 1) xs (n + 1) := by rw [parents_succ, chunk_last hlen]
    simp only [LevelTree.commit, parents_length, hnext]
    refine ⟨Nat.succ_pos n, rfl, (grown_iff (by omega)).mpr ?_⟩
    rw [parents_length]
    -- what has been handed up from the next level, its new node not counted
    have hup := hrest.handedUp_append (by omega) [node (level + 1) n (xs.drop (B * n))]
    rw [hnext, parents_length] at hup
    split
    next hfull =>
      have hdiv : (n + 1) / B = n / B + 1 := by
        rw [Nat.succ_div, if_pos (Nat.dvd_of_mod_eq_zero hfull)]
      rw [hdiv]
      refine ih hup (le_of_eq ?_)
      rw [parents_length, ← hdiv, Nat.mul_div_cancel' (Nat.dvd_of_mod_eq_zero hfull)]
    next hpart =>
      have hdiv : (n + 1) / B = n / B := by
        rw [Nat.succ_div, if_neg fun h => hpart (Nat.mod_eq_zero_of_dvd h)]
        rfl
      rwa [hdiv]

theorem Grown.push (hB : 1 < B) (hg : Grown B node level xs above) (x : α) :
    Grown B node level (xs ++ [x])
      (if (xs ++ [x]).length % B = 0 then commit B node level (xs ++ [x]) above else above) := by
  have hup := hg.handedUp_append (by omega) [x]
  rw [grown_iff (by omega), length_append, length_singleton]
  by_cases hfull : B ∣ xs.length + 1
  · have hdiv : (xs.length + 1) / B = xs.length / B + 1 := by rw [Nat.succ_div, if_pos hfull]
    rw [if_pos (Nat.mod_eq_zero_of_dvd hfull), hdiv]
    refine hup.commit hB (le_of_eq ?_)
    rw [← hdiv, Nat.mul_div_cancel' hfull, length_append, length_singleton]
  · rwa [if_neg fun h => hfull (Nat.dvd_of_mod_eq_zero h), Nat.succ_div, if_neg hfull, add_zero]

theorem Grown.finish (hB : 1 < B) (hg : Grown B node level xs above) :
    HandedUp B node level xs (chunkCount B xs.length)
      (if xs.length % B = 0 then above else commit B node level xs above) := by
  rw [chunkCount_eq (by omega)]
  split
  next => exact (grown_iff (by omega)).mp hg
  next =>
    refine ((grown_iff (by omega)).mp hg).commit hB ?_
    exact le_of_lt (Nat.lt_mul_div_succ xs.length (by omega))

theorem chunkCount_lt (hB : 1 < B) (len : Nat) (hlen : 1 < len) : chunkCount B len < len := by
  obtain ⟨a, rfl⟩ := Nat.exists_eq_add_of_lt hlen
  obtain ⟨b, rfl⟩ := Nat.exists_eq_add_of_lt hB
  rw [chunkCount, Nat.div_lt_iff_lt_mul (by omega)]
  have hexp : (1 + a + 1) * (1 + b + 1) = a * b + 2 * a + 2 * b + 4 := by ring
  omega

theorem chunkCount_pos (hB : 0 < B) {len : Nat} (hlen : 0 < len) : 0 < chunkCount B len := by
  rw [chunkCount_add hB hlen]
  exact Nat.succ_pos _

theorem Tree.unique {ys zs : List (List α)} (hy : Tree B node level xs ys)
    (hz : Tree B node level xs zs) : ys = zs := by
  induction hy generalizing zs with
  | root =>
    cases hz with
    | root => rfl
    | above hlen _ => exact absurd hlen (lt_irrefl 1)
  | above hlen _ ih =>
    cases hz with
    | root => exact absurd hlen (lt_irrefl 1)
    | above _ hz => rw [ih hz]

variable (ht : Tree B node level xs above)
include ht

theorem Tree.last : ∃ root, (xs :: above).getLast? = some [root] := by
  induction ht with
  | root => exact ⟨_, rfl⟩
  | above _ _ ih =>
    obtain ⟨root, hroot⟩ := ih
    exact ⟨root, by rw [List.getLast?_cons_cons, hroot]⟩

theorem Tree.one_lt_length {k : Nat} {ys : List α}
    (hys : (xs :: above)[k]? = some ys) (hk : k < above.length) : 1 < ys.length := by
  induction ht generalizing k with
  | root => exact absurd hk (Nat.not_lt_zero k)
  | above hlen _ ih =>
    cases k with
    | zero =>
      cases hys
      exact hlen
    | succ k => exact ih hys (Nat.lt_of_succ_lt_succ hk)

theorem Tree.level_above {k : Nat} {ys zs : List α} (hys : (xs :: above)[k]? = some ys)
    (hzs : above[k]? = some zs) :
    zs = parents B node (level + k + 1) ys (chunkCount B ys.length) := by
  induction ht generalizing k with
  | root => cases hzs
  | above hlen _ ih =>
    cases k with
    | zero =>
      cases hys
      cases hzs
      rfl
    | succ k => rw [ih hys hzs, Nat.add_right_comm _ 1 k, add_assoc _ k 1]

end Garnet.LevelTree
