import Mathlib.Data.List.Basic

/-! Singly linked lists threaded through a `next` function. The list value that is
represented is kept beside the links, so the terminator may itself be a list member. -/

namespace Garnet.LinkedList

variable {α : Type} {nil : α} {next next' : α → α} {l xs ys : List α} {head p i : α}

/-- Starting at `head` and following `next`, the members of the list are met in order
and the link of the last one is `nil`. -/
def Linked (nil : α) (next : α → α) : α → List α → Prop
  | head, [] => head = nil
  | head, a :: l => head = a ∧ Linked nil next (next a) l

@[simp] theorem linked_nil (head : α) : Linked nil next head [] ↔ head = nil := Iff.rfl

@[simp] theorem linked_cons (head a : α) (l : List α) :
    Linked nil next head (a :: l) ↔ head = a ∧ Linked nil next (next a) l := Iff.rfl

theorem Linked.congr (hn : ∀ a ∈ l, next' a = next a)
    (h : Linked nil next head l) : Linked nil next' head l := by
  induction l generalizing head with
  | nil => exact h
  | cons a l ih =>
    refine ⟨h.1, ?_⟩
    rw [hn a List.mem_cons_self]
    exact ih (fun b hb => hn b (List.mem_cons_of_mem a hb)) h.2

theorem Linked.head_eq (h : Linked nil next head l) : head = l.headD nil := by
  cases l with
  | nil => exact h
  | cons a l => exact h.1

theorem linked_append : Linked nil next head (xs ++ ys) ↔
      ∃ mid, Linked mid next head xs ∧ Linked nil next mid ys := by
  induction xs generalizing head with
  | nil => simp
  | cons a xs ih =>
    simp only [List.cons_append, linked_cons, ih]
    constructor
    · rintro ⟨he, mid, hx, hy⟩
      exact ⟨mid, ⟨he, hx⟩, hy⟩
    · rintro ⟨mid, ⟨he, hx⟩, hy⟩
      exact ⟨he, mid, hx, hy⟩

theorem Linked.head_ne (h : Linked nil next head (xs ++ p :: i :: ys))
    (hnd : (xs ++ p :: i :: ys).Nodup) : head ≠ i := by
  rintro rfl
  cases xs with
  | nil | cons a xs =>
    obtain ⟨rfl, _⟩ := h
    simp at hnd

theorem Linked.unlink (h : Linked nil next head (xs ++ p :: i :: ys)) (hp : next' p = next i)
    (hx : ∀ a ∈ xs, next' a = next a) (hy : ∀ a ∈ ys, next' a = next a) :
    Linked nil next' head (xs ++ p :: ys) := by
  obtain ⟨mid, hxs, hmid, _, hys⟩ := linked_append.mp h
  refine linked_append.mpr ⟨mid, hxs.congr hx, hmid, ?_⟩
  rw [hp]
  exact hys.congr hy

theorem linked_range' (f : Nat → α) (a n : Nat)
    (h : ∀ q, a ≤ q → q < a + n → next (f q) = if q + 1 < a + n then f (q + 1) else nil) :
    Linked nil next (if n = 0 then nil else f a) ((List.range' a n).map f) := by
  induction n generalizing a with
  | zero => simp
  | succ n ih =>
    rw [List.range'_succ, List.map_cons, if_neg (Nat.succ_ne_zero n), linked_cons]
    refine ⟨rfl, ?_⟩
    have hnext := h a (Nat.le_refl a) (by omega)
    have hrest := ih (a + 1) fun q hq hlt => by
      rw [h q (by omega) (by omega)]
      simp only [show a + (n + 1) = a + 1 + n by omega]
    rw [hnext]
    by_cases hn : n = 0
    · subst hn
      simp
    · rw [if_neg hn] at hrest
      rw [if_pos (by omega)]
      exact hrest

section Follow
variable [DecidableEq α]

end Follow

end Garnet.LinkedList
