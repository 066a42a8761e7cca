import Garnet.Lib.Outcome
import Mathlib.Data.List.Infix

/-! The buffer of old messages: bounded by the recorded sizes, not by their number. -/

namespace Garnet.Logger
open List

variable {T : Type}

structure MemoryBoundedBuffer (T : Type) where
  inner : List (T × Nat)
  totalSize : Nat
  capacity : Nat

variable (capacity : Nat)

namespace MemoryBoundedBuffer

def new : Except Fault (MemoryBoundedBuffer T) :=
  if 0 < capacity then .ok ⟨[], 0, capacity⟩ else .error .panic

/-- The loop of `push`: the oldest items go until the rest fits. -/
def evict (capacity : Nat) : List (T × Nat) → Nat → Except Fault (List (T × Nat) × Nat)
  | [], totalSize => if capacity < totalSize then .error .panic else .ok ([], totalSize)
  | (item, size) :: inner, totalSize =>
    if capacity < totalSize then evict capacity inner (totalSize - size)
    else .ok ((item, size) :: inner, totalSize)

def push (item : T) (size : Nat) (b : MemoryBoundedBuffer T) : Except Fault (MemoryBoundedBuffer T) := do
  let (inner, totalSize) ← evict b.capacity (b.inner ++ [(item, size)]) (b.totalSize + size)
  return { b with inner := inner, totalSize := totalSize }

end MemoryBoundedBuffer

def sizes (l : List (T × Nat)) : Nat := (l.map Prod.snd).sum

@[simp] theorem sizes_cons (x : T × Nat) (l : List (T × Nat)) : sizes (x :: l) = x.2 + sizes l := rfl

@[simp] theorem sizes_append (l l' : List (T × Nat)) : sizes (l ++ l') = sizes l + sizes l' := by
  unfold sizes
  rw [map_append, sum_append]

structure LongestSuffix (l b : List (T × Nat)) : Prop where
  suffix : b <:+ l
  fits : sizes b ≤ capacity
  longest : ∀ b', b' <:+ l → sizes b' ≤ capacity → b'.length ≤ b.length

theorem evict_spec (l : List (T × Nat)) :
    ∃ b, MemoryBoundedBuffer.evict capacity l (sizes l) = .ok (b, sizes b) ∧
    LongestSuffix capacity l b := by
  induction l with
  | nil =>
    refine ⟨[], if_neg (Nat.not_lt_zero _), suffix_rfl, Nat.zero_le _, fun b' hb' _ => ?_⟩
    rw [suffix_nil.mp hb']
  | cons x l ih =>
    unfold MemoryBoundedBuffer.evict
    by_cases hfull : capacity < sizes (x :: l)
    · obtain ⟨b, hrun, hb⟩ := ih
      rw [if_pos hfull, sizes_cons, Nat.add_sub_cancel_left]
      refine ⟨b, hrun, hb.suffix.trans (suffix_cons _ _), hb.fits, fun b' hb' hfits => ?_⟩
      cases suffix_cons_iff.mp hb' with
      | inl heq =>
        rw [heq] at hfits
        omega
      | inr hsuffix => exact hb.longest b' hsuffix hfits
    · rw [if_neg hfull]
      exact ⟨x :: l, rfl, suffix_rfl, Nat.le_of_not_lt hfull, fun b' hb' _ => hb'.length_le⟩

theorem LongestSuffix.snoc {capacity : Nat} {l b b' : List (T × Nat)} {x : T × Nat}
    (h : LongestSuffix capacity l b) (h' : LongestSuffix capacity (b ++ [x]) b') :
    LongestSuffix capacity (l ++ [x]) b' := by
  refine ⟨h'.suffix.trans ((suffix_append_self_iff).mpr h.suffix), h'.fits, fun c hc hfits => ?_⟩
  cases suffix_concat_iff.mp hc with
  | inl hnil =>
    rw [hnil]
    exact Nat.zero_le _
  | inr hsome =>
    obtain ⟨t, rfl, ht⟩ := hsome
    have hsmall : sizes t ≤ capacity := by
      rw [sizes_append] at hfits
      omega
    have hinner : t <:+ b := suffix_of_suffix_length_le ht h.suffix (h.longest t ht hsmall)
    exact h'.longest _ (suffix_append_self_iff.mpr hinner) hfits

/-- The total is that of the items, and they are what fits of all that was pushed. -/
structure Holds (pushed : List (T × Nat)) (b : MemoryBoundedBuffer T) : Prop where
  limit : b.capacity = capacity
  total : b.totalSize = sizes b.inner
  inner : LongestSuffix capacity pushed b.inner

theorem holds_new : Holds capacity [] (⟨[], 0, capacity⟩ : MemoryBoundedBuffer T) :=
  ⟨rfl, rfl, suffix_rfl, Nat.zero_le _, fun _ hb' _ => hb'.length_le⟩

theorem push_spec {capacity : Nat} {pushed : List (T × Nat)} {b : MemoryBoundedBuffer T}
    (h : Holds capacity pushed b) (item : T) (size : Nat) :
    ∃ b', b.push item size = .ok b' ∧ Holds capacity (pushed ++ [(item, size)]) b' := by
  obtain ⟨inner, hrun, hinner⟩ := evict_spec b.capacity (b.inner ++ [(item, size)])
  have htotal : b.totalSize + size = sizes (b.inner ++ [(item, size)]) := by
    rw [h.total, sizes_append]
    rfl
  refine ⟨{ b with inner := inner, totalSize := sizes inner }, ?_, h.limit, rfl, ?_⟩
  · unfold MemoryBoundedBuffer.push
    rw [htotal, hrun]
    rfl
  · rw [h.limit] at hinner
    exact h.inner.snoc hinner

end Garnet.Logger
