import Mathlib.Data.List.Basic
import Garnet.Lib.Outcome

/-! A source of data that is read piece by piece: a read returns at most what was asked for and
often less, and after the last piece there is the end of the data or an error. -/

namespace Garnet
open List

structure Reader (α : Type) where
  pieces : List (List α)
  failure : Option Fault

namespace Reader
variable {α : Type}

def data (r : Reader α) : List α := r.pieces.flatten

/-- One read of at most `n` elements. At the end of the data it returns none. -/
def read (n : Nat) (r : Reader α) : Except Fault (List α × Reader α) :=
  match r.pieces with
  | [] =>
    match r.failure with
    | none => .ok ([], r)
    | some e => .error e
  | p :: ps =>
    if p.length ≤ n then .ok (p, { r with pieces := ps })
    else .ok (p.take n, { r with pieces := p.drop n :: ps })

/-- Reads until there are `n` elements or the pieces end; what was read, what is left of the
pieces, and whether the end was met. -/
def takeFull : Nat → List (List α) → List α × List (List α) × Bool
  | 0, ps => ([], ps, false)
  | _ + 1, [] => ([], [], true)
  | n + 1, p :: ps =>
    if p.length ≤ n + 1 then
      let (q, rest, ended) := takeFull (n + 1 - p.length) ps
      (p ++ q, rest, ended)
    else (p.take (n + 1), p.drop (n + 1) :: ps, false)

theorem read_data {n : Nat} (hn : 0 < n) {r : Reader α} (hf : r.failure = none)
    (hp : ∀ p ∈ r.pieces, p ≠ []) :
    ∃ buf r', r.read n = .ok (buf, r') ∧ r.data = buf ++ r'.data ∧ buf.length ≤ n ∧
      (buf = [] ↔ r.data = []) ∧
      r'.failure = none ∧ ∀ p ∈ r'.pieces, p ≠ [] := by
  obtain ⟨pieces, failure⟩ := r
  obtain rfl : failure = none := hf
  cases pieces with
  | nil => exact ⟨[], _, rfl, rfl, Nat.zero_le n, Iff.rfl, rfl, hp⟩
  | cons p ps =>
    have hne : p ≠ [] := hp p mem_cons_self
    have hlen := length_pos_iff.mpr hne
    simp only [read, data, flatten_cons]
    split
    next hle =>
      exact ⟨p, _, rfl, rfl, hle, by simp [hne], rfl, fun q hq => hp q (mem_cons_of_mem _ hq)⟩
    next hgt =>
      refine ⟨p.take n, _, rfl, ?_, length_take_le .., ?_, rfl, ?_⟩
      · rw [flatten_cons, ← append_assoc, take_append_drop]
      · simp [hne, Nat.ne_of_gt hn]
      · refine forall_mem_cons.mpr ⟨?_, fun q hq => hp q (mem_cons_of_mem _ hq)⟩
        exact ne_nil_of_length_pos (by rw [length_drop]; omega)

theorem takeFull_data (n : Nat) (ps : List (List α)) : ∃ rest ended,
    takeFull n ps = (ps.flatten.take n, rest, ended) ∧ rest.flatten = ps.flatten.drop n ∧
      (ended = true ↔ ps.flatten.length < n) := by
  induction ps generalizing n with
  | nil =>
    cases n with
    | zero => exact ⟨[], false, by rw [takeFull, take_zero], rfl, by simp⟩
    | succ n => exact ⟨[], true, rfl, rfl, by simp⟩
  | cons p ps ih =>
    cases n with
    | zero => exact ⟨p :: ps, false, by rw [takeFull, take_zero], rfl, by simp⟩
    | succ n =>
      by_cases hle : p.length ≤ n + 1
      · obtain ⟨rest, ended, hrun, hrest, hend⟩ := ih (n + 1 - p.length)
        refine ⟨rest, ended, ?_, ?_, ?_⟩
        · rw [takeFull, if_pos hle, hrun, flatten_cons, take_append, take_of_length_le hle]
        · rw [hrest, flatten_cons, drop_append, drop_of_length_le hle, nil_append]
        · rw [hend, flatten_cons, length_append]
          omega
      · refine ⟨p.drop (n + 1) :: ps, false, ?_, ?_, ?_⟩
        · rw [takeFull, if_neg hle, flatten_cons, take_append_of_le_length (by omega)]
        · rw [flatten_cons, flatten_cons, drop_append_of_le_length (by omega)]
        · simp only [Bool.false_eq_true, flatten_cons, length_append, false_iff]
          omega

end Reader

end Garnet
