import Garnet.Msdosfs.ClusterRun
import Garnet.Msdosfs.Node

/-! The bytes that the clusters of a node hold, as one list. -/

namespace Garnet.Msdosfs
open List
open Device (getElem?_readAt readAt_length writeAt_outside)

def stored (b : Bootrecord) (d : Device) (clusters : List Nat) : List UInt8 :=
  clusters.flatMap fun c => d.readAt b.clusterSize (b.clusterLocationData c)

section Stored
variable {v : Volume} {d d' : Device} {c e : Nat} {clusters : List Nat}

theorem stored_cons (b : Bootrecord) (d : Device) (c : Nat) (clusters : List Nat) :
    stored b d (c :: clusters) = d.readAt b.clusterSize (b.clusterLocationData c) ++
      stored b d clusters := flatMap_cons

theorem stored_append (b : Bootrecord) (d : Device) (l l' : List Nat) :
    stored b d (l ++ l') = stored b d l ++ stored b d l' :=
  flatMap_append

@[simp] theorem stored_length (b : Bootrecord) (d : Device) (clusters : List Nat) :
    (stored b d clusters).length = b.clusterSize * clusters.length := by
  induction clusters with
  | nil => rfl
  | cons c clusters ih =>
    rw [stored_cons, length_append, readAt_length, ih, length_cons]
    ring

section
variable (hc : v.b.clusterInValidRange c = true)
include hc

theorem location_data : v.b.clusterLocationData c = (c - 2) * v.b.clusterSize + v.dataStart := by
  obtain ⟨htwo, hmax⟩ := (valid_iff _ _).mp hc
  have hlt : v.b.maxCluster < 2 ^ 32 := u32_lt _
  rw [Sector.Cached.locationData_exact htwo (by omega) (v.consistent.noWrap.locationData c hc),
    v.clusterSize]
  unfold Volume.dataStart
  ring

theorem dataStart_le : v.dataStart ≤ v.b.clusterLocationData c := by
  rw [location_data hc]
  exact Nat.le_add_left _ _

theorem clusters_apart (he : v.b.clusterInValidRange e = true) (hne : c ≠ e) :
    v.b.clusterLocationData c + v.b.clusterSize ≤ v.b.clusterLocationData e ∨
      v.b.clusterLocationData e + v.b.clusterSize ≤ v.b.clusterLocationData c := by
  have htwo := ((valid_iff _ _).mp hc).1
  have htwo' := ((valid_iff _ _).mp he).1
  rw [location_data hc, location_data he]
  rcases lt_or_gt_of_ne hne with hlt | hgt
  · have hmul := Nat.mul_le_mul_right v.b.clusterSize (by omega : c - 2 + 1 ≤ e - 2)
    rw [add_mul] at hmul
    omega
  · have hmul := Nat.mul_le_mul_right v.b.clusterSize (by omega : e - 2 + 1 ≤ c - 2)
    rw [add_mul] at hmul
    omega

end

theorem stored_congr
    (h : ∀ c ∈ clusters, ∀ k, v.b.clusterLocationData c ≤ k →
      k < v.b.clusterLocationData c + v.b.clusterSize →
    d' k = d k) : stored v.b d' clusters = stored v.b d clusters := by
  apply flatMap_congr
  intro c hc
  exact Device.readAt_congr (h c hc)

theorem stored_write {xs ys : List Nat} {w : List UInt8} {start : Nat}
    (hvalid : ∀ e ∈ xs ++ c :: ys, v.b.clusterInValidRange e = true)
    (hnodup : (xs ++ c :: ys).Nodup) (hfits : start + w.length ≤ v.b.clusterSize) :
    stored v.b (d.writeAt w (v.b.clusterLocationData c + start)) (xs ++ c :: ys) =
      splice (v.b.clusterSize * xs.length + start) w (stored v.b d (xs ++ c :: ys)) := by
  have hc := hvalid c (mem_append_right _ mem_cons_self)
  rw [nodup_append, nodup_cons] at hnodup
  have hother : ∀ e ∈ xs ++ ys, ∀ k, v.b.clusterLocationData e ≤ k →
    k < v.b.clusterLocationData e + v.b.clusterSize →
      d.writeAt w (v.b.clusterLocationData c + start) k = d k := by
    intro e he k hle hlt
    have hne : c ≠ e := by
      rintro rfl
      cases mem_append.mp he with
      | inl hx => exact hnodup.2.2 c hx c mem_cons_self rfl
      | inr hy => exact hnodup.2.1.1 hy
    have hmem : e ∈ xs ++ c :: ys := by
      rw [mem_append] at he ⊢
      exact he.imp id (mem_cons_of_mem _)
    have happart := clusters_apart hc (hvalid e hmem) hne
    exact writeAt_outside (by omega)
  have hself : (d.writeAt w (v.b.clusterLocationData c + start)).readAt v.b.clusterSize
      (v.b.clusterLocationData c) =
      splice start w (d.readAt v.b.clusterSize (v.b.clusterLocationData c)) := by
    apply ext_getElem?
    intro i
    rw [getElem?_splice (by rw [readAt_length]; omega)]
    by_cases hi : i < v.b.clusterSize
    · rw [getElem?_readAt hi]
      split
      next =>
        rw [getElem?_readAt hi, writeAt_outside (by omega)]
      next hlow =>
        by_cases hin : i < start + w.length
        · obtain ⟨j, rfl⟩ := Nat.exists_eq_add_of_le (Nat.le_of_not_lt hlow)
          rw [if_pos hin, Nat.add_sub_cancel_left, ← add_assoc, Device.writeAt_inside (by omega),
            get_eq_getElem, List.getElem?_eq_getElem (by omega)]
        · rw [if_neg hin, getElem?_readAt hi, writeAt_outside (by omega)]
    · rw [if_neg (by omega), if_neg (by omega), List.getElem?_eq_none (by rw [readAt_length]; omega),
        List.getElem?_eq_none (by rw [readAt_length]; omega)]
  rw [stored_append, stored_cons, stored_append, stored_cons, hself,
    stored_congr fun e he => hother e (mem_append_left _ he),
      stored_congr fun e he => hother e (mem_append_right _ he)]
  rw [← stored_length v.b d xs, splice_mid (by rw [readAt_length]; exact hfits)]

theorem stored_cleared {f f' : FAT} (hclear : Cleared v c f f')
    (hvalid : ∀ e ∈ clusters ++ [c], v.b.clusterInValidRange e = true) (hnew : c ∉ clusters) :
    stored v.b f'.device (clusters ++ [c]) =
    stored v.b f.device clusters ++ List.replicate v.b.clusterSize 0 := by
  have hc := hvalid c (mem_append_right _ mem_cons_self)
  have hold : stored v.b f'.device clusters = stored v.b f.device clusters := by
    apply stored_congr
    intro e he k hle hlt
    have hne : c ≠ e := by
      rintro rfl
      exact hnew he
    have hvalid' := hvalid e (mem_append_left _ he)
    have happart := clusters_apart hc hvalid' hne
    have hstart := dataStart_le hvalid'
    rw [hclear k (by omega), if_neg (by omega)]
  have hzero : f'.device.readAt v.b.clusterSize (v.b.clusterLocationData c) =
      List.replicate v.b.clusterSize 0 := by
    apply ext_getElem?
    intro i
    by_cases hi : i < v.b.clusterSize
    · have hstart := dataStart_le hc
      rw [getElem?_readAt hi, hclear _ (by omega), if_pos (by omega), List.getElem?_replicate,
        if_pos hi]
    · rw [List.getElem?_eq_none (by rw [readAt_length]; omega),
        List.getElem?_eq_none (by rw [length_replicate]; omega)]
  rw [stored_append, hold, stored_cons, hzero]
  exact congrArg _ (append_nil _)

end Stored

end Garnet.Msdosfs
