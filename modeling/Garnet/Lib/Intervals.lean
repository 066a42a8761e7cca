import Mathlib.Data.List.Basic
import Mathlib.Data.List.Pairwise

/-! Sets of numbers as lists of intervals in ascending order with gaps between them. The intervals
are values of any type that have a lower and an upper end. -/

namespace Garnet.Intervals
open List

variable {α : Type} {lo hi : α → Nat} {l l' : List α} {n : Nat} {r : α}

structure Canonical (lo hi : α → Nat) (l : List α) : Prop where
  nonempty : ∀ r ∈ l, lo r ≤ hi r
  ascending : l.Pairwise fun r s => hi r + 1 < lo s

def Covers (lo hi : α → Nat) (l : List α) (n : Nat) : Prop := ∃ r ∈ l, lo r ≤ n ∧ n ≤ hi r

@[simp] theorem not_covers_nil : ¬ Covers lo hi [] n := by
  rintro ⟨r, hr, _⟩
  exact not_mem_nil hr

@[simp] theorem covers_cons :
    Covers lo hi (r :: l) n ↔ (lo r ≤ n ∧ n ≤ hi r) ∨ Covers lo hi l n := by
  simp [Covers]

@[simp] theorem covers_append :
    Covers lo hi (l ++ l') n ↔ Covers lo hi l n ∨ Covers lo hi l' n := by
  simp [Covers, or_and_right, exists_or]

theorem canonical_nil : Canonical lo hi [] := ⟨fun _ hr => (nomatch hr), List.Pairwise.nil⟩

theorem canonical_singleton (h : lo r ≤ hi r) : Canonical lo hi [r] := by
  refine ⟨fun s hs => ?_, pairwise_singleton _ _⟩
  rw [mem_singleton.mp hs]
  exact h

theorem canonical_append : Canonical lo hi (l ++ l') ↔
    Canonical lo hi l ∧ Canonical lo hi l' ∧ ∀ r ∈ l, ∀ s ∈ l', hi r + 1 < lo s := by
  constructor
  · intro h
    obtain ⟨hl, hl', hbetween⟩ := pairwise_append.mp h.ascending
    exact ⟨⟨fun r hr => h.nonempty r (mem_append_left _ hr), hl⟩,
      ⟨fun r hr => h.nonempty r (mem_append_right _ hr), hl'⟩, hbetween⟩
  · rintro ⟨hl, hl', hbetween⟩
    refine ⟨fun r hr => ?_, pairwise_append.mpr ⟨hl.ascending, hl'.ascending, hbetween⟩⟩
    exact (mem_append.mp hr).elim (hl.nonempty r) (hl'.nonempty r)

theorem canonical_cons : Canonical lo hi (r :: l) ↔
    lo r ≤ hi r ∧ Canonical lo hi l ∧ ∀ s ∈ l, hi r + 1 < lo s := by
  rw [← singleton_append, canonical_append]
  constructor
  · rintro ⟨hr, hl, hbetween⟩
    exact ⟨hr.nonempty r (mem_singleton_self r), hl, hbetween r (mem_singleton_self r)⟩
  · rintro ⟨hr, hl, hbetween⟩
    refine ⟨canonical_singleton hr, hl, fun s hs => ?_⟩
    rw [mem_singleton.mp hs]
    exact hbetween

section
variable (h : Canonical lo hi (r :: l))
include h

theorem Canonical.lo_le_of_covers (hn : Covers lo hi (r :: l) n) : lo r ≤ n := by
  obtain ⟨hr, _, hbetween⟩ := canonical_cons.mp h
  rcases covers_cons.mp hn with ⟨hlow, _⟩ | ⟨s, hs, hlow, _⟩
  · exact hlow
  · have hlt := hbetween s hs
    omega

theorem Canonical.not_covers_succ : ¬ Covers lo hi (r :: l) (hi r + 1) := by
  obtain ⟨hr, _, hbetween⟩ := canonical_cons.mp h
  intro hn
  rcases covers_cons.mp hn with ⟨_, hle⟩ | ⟨s, hs, hlow, _⟩
  · omega
  · have hlt := hbetween s hs
    omega

theorem Canonical.head_le {s : α} (h' : Canonical lo hi (s :: l'))
    (hsame : ∀ n, Covers lo hi (r :: l) n ↔ Covers lo hi (s :: l') n) :
    lo s ≤ lo r ∧ (lo r = lo s → hi r ≤ hi s) := by
  have hr := (canonical_cons.mp h).1
  have hs := (canonical_cons.mp h').1
  constructor
  · exact h'.lo_le_of_covers ((hsame (lo r)).mp (covers_cons.mpr (.inl ⟨Nat.le_refl _, hr⟩)))
  · intro hlo
    by_contra hlt
    have hcovered : Covers lo hi (r :: l) (hi s + 1) := covers_cons.mpr (.inl ⟨by omega, by omega⟩)
    exact h'.not_covers_succ ((hsame _).mp hcovered)

end

theorem eq_of_covers (hinj : ∀ r s, lo r = lo s → hi r = hi s → r = s) (h : Canonical lo hi l)
    (h' : Canonical lo hi l') (hsame : ∀ n, Covers lo hi l n ↔ Covers lo hi l' n) : l = l' := by
  induction l generalizing l' with
  | nil =>
    cases l' with
    | nil => rfl
    | cons s l' =>
      have hs := (canonical_cons.mp h').1
      exact absurd ((hsame (lo s)).mpr (covers_cons.mpr (.inl ⟨Nat.le_refl _, hs⟩))) not_covers_nil
  | cons r l ih =>
    cases l' with
    | nil =>
      have hr := (canonical_cons.mp h).1
      exact absurd ((hsame (lo r)).mp (covers_cons.mpr (.inl ⟨Nat.le_refl _, hr⟩))) not_covers_nil
    | cons s l' =>
      obtain ⟨hle, hends⟩ := h.head_le h' hsame
      obtain ⟨hge, hends'⟩ := h'.head_le h fun n => (hsame n).symm
      have hlo : lo r = lo s := by omega
      have hhi : hi r = hi s := by
        have h₁ := hends hlo
        have h₂ := hends' hlo.symm
        omega
      obtain rfl := hinj r s hlo hhi
      obtain ⟨_, hl, hbetween⟩ := canonical_cons.mp h
      obtain ⟨_, hl', hbetween'⟩ := canonical_cons.mp h'
      -- behind the first interval both cover the same
      have htail : ∀ n, Covers lo hi l n ↔ Covers lo hi l' n := by
        intro n
        have hn := hsame n
        rw [covers_cons, covers_cons] at hn
        constructor
        · rintro ⟨s, hs, hlow, hhigh⟩
          have hlt := hbetween s hs
          exact (hn.mp (.inr ⟨s, hs, hlow, hhigh⟩)).resolve_left (by omega)
        · rintro ⟨s, hs, hlow, hhigh⟩
          have hlt := hbetween' s hs
          exact (hn.mpr (.inr ⟨s, hs, hlow, hhigh⟩)).resolve_left (by omega)
      rw [ih hl hl' htail]

end Garnet.Intervals
