import Std.Data.TreeMap
import Mathlib.Data.List.Nodup

/-! Lists in the order of a comparison: a strictly ordered list is known by its members. -/

namespace Garnet.Ordered
open List
open Std

variable {α : Type} {cmp : α → α → Ordering} [TransCmp cmp] {l l' : List α}

section
variable (h : l.Pairwise fun a b => cmp a b = .lt)
include h

theorem nodup : l.Nodup := by
  apply h.imp
  intro a b hab heq
  subst heq
  have hself : cmp a a = .eq := ReflCmp.compare_self
  rw [hself] at hab
  cases hab

theorem eq_of_perm (h' : l'.Pairwise fun a b => cmp a b = .lt) (hp : l.Perm l') : l = l' := by
  apply List.Perm.eq_of_pairwise _ h h' hp
  intro a b _ _ hab hba
  exact absurd hba (OrientedCmp.not_lt_of_lt hab)

theorem eq_of_mem_iff (h' : l'.Pairwise fun a b => cmp a b = .lt) (hmem : ∀ a, a ∈ l ↔ a ∈ l') :
    l = l' :=
  eq_of_perm h h' ((perm_ext_iff_of_nodup (nodup h) (nodup h')).mpr hmem)

end

theorem pairwise_mergeSort [LawfulEqCmp cmp] (hnodup : l.Nodup) :
    (l.mergeSort fun a b => cmp a b ≠ .gt).Pairwise fun a b => cmp a b = .lt := by
  have hsorted : (l.mergeSort fun a b => cmp a b ≠ .gt).Pairwise fun a b => decide (cmp a b ≠ .gt) =
      true := by
    apply List.pairwise_mergeSort
    · intro a b c hab hbc
      rw [decide_eq_true_iff] at hab hbc ⊢
      exact Ordering.isLE_iff_ne_gt.mp (TransCmp.isLE_trans (Ordering.isLE_iff_ne_gt.mpr hab)
        (Ordering.isLE_iff_ne_gt.mpr hbc))
    · intro a b
      rw [Bool.or_eq_true, decide_eq_true_iff, decide_eq_true_iff]
      by_contra hno
      rw [not_or, not_not, not_not] at hno
      exact absurd (OrientedCmp.gt_iff_lt.mp hno.1) (by rw [hno.2]; decide)
  have hdistinct := (mergeSort_perm l fun a b => cmp a b ≠ .gt).nodup_iff.mpr hnodup
  apply (hsorted.and hdistinct).imp
  intro a b ⟨hle, hne⟩
  rw [decide_eq_true_iff] at hle
  cases hcmp : cmp a b with
  | lt => rfl
  | eq => exact absurd (LawfulEqCmp.eq_of_compare hcmp) hne
  | gt => exact absurd hcmp hle

theorem mergeSort_eq [LawfulEqCmp cmp] (hp : l.Perm l')
    (h' : l'.Pairwise fun a b => cmp a b = .lt) : (l.mergeSort fun a b => cmp a b ≠ .gt) = l' :=
  eq_of_perm (pairwise_mergeSort (hp.nodup_iff.mpr (nodup h'))) h' ((mergeSort_perm ..).trans hp)

theorem lt_iff (h : l.Pairwise fun a b => cmp a b = .lt) {i j : Nat} {a b : α} (hi : l[i]? = some a)
    (hj : l[j]? = some b) : cmp a b = .lt ↔ i < j := by
  obtain ⟨hil, rfl⟩ := List.getElem?_eq_some_iff.mp hi
  obtain ⟨hjl, rfl⟩ := List.getElem?_eq_some_iff.mp hj
  have hplaces := pairwise_iff_getElem.mp h
  constructor
  · intro hlt
    rcases Nat.lt_trichotomy i j with hij | rfl | hji
    · exact hij
    · have hself : cmp l[i] l[i] = .eq := ReflCmp.compare_self
      rw [hself] at hlt
      cases hlt
    · exact absurd hlt (OrientedCmp.not_lt_of_lt (hplaces j i hjl hil hji))
  · intro hij
    exact hplaces i j hil hjl hij

end Garnet.Ordered
