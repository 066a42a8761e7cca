import Garnet.Msdosfs.BootLayout
import Garnet.Msdosfs.FAT

/-! The entries of the FATs on a volume of consistent layout: what stands in them, and that `Set`
changes one of them. -/

namespace Garnet.Msdosfs
open List
open LittleEndian
open Bootrecord (badValue clusterMask eofValue regions)

structure Volume where
  b : Bootrecord
  deviceSize : Nat
  consistent : b.Consistent deviceSize
  primary : b.primaryFAT < b.numFATs
  clusterSize : b.clusterSize = b.sectorsPerCluster * b.sectorSize
  positive : 0 < b.clusterSize

def entry (b : Bootrecord) (i c : Nat) (d : Device) : Nat :=
  getRawEntry b (b.clusterLocationFAT i c) d

def valueBits (b : Bootrecord) (e : Nat) : Nat := e &&& b.clusterMask

def topBits (b : Bootrecord) (e : Nat) : Nat := e &&& (2 ^ 32 - 1 - b.clusterMask)

/-- The value that `Get` finds. -/
def value (b : Bootrecord) (f : FAT) (c : Nat) : Nat := valueBits b (entry b b.primaryFAT c f.device)

section Bits
variable (b : Bootrecord) (e x : Nat)

theorem valueBits_merge : valueBits b (mergeEntry b e x) = x &&& b.clusterMask := by
  have hapart : (2 ^ 32 - 1 - b.clusterMask) &&& b.clusterMask = 0 := by
    unfold clusterMask
    cases b.t <;> rfl
  unfold valueBits mergeEntry
  rw [Nat.and_or_distrib_right, Nat.and_assoc, hapart, Nat.and_zero, Nat.zero_or,
    Nat.and_comm b.clusterMask x, Nat.and_assoc, Nat.and_self]

theorem topBits_merge : topBits b (mergeEntry b e x) = topBits b e := by
  have hapart : b.clusterMask &&& (2 ^ 32 - 1 - b.clusterMask) = 0 := by
    unfold clusterMask
    cases b.t <;> rfl
  unfold topBits mergeEntry
  rw [Nat.and_or_distrib_right, Nat.and_assoc, Nat.and_self, Nat.and_comm b.clusterMask x,
    Nat.and_assoc, hapart, Nat.and_zero, Nat.or_zero]

theorem entry_lt (i c : Nat) (d : Device) : entry b i c d < 256 ^ b.fatEntrySize := by
  have hlt := ofLe_lt (d.readAt b.fatEntrySize (b.clusterLocationFAT i c))
  rw [Device.readAt_length] at hlt
  exact hlt

theorem mergeEntry_lt (he : e < 256 ^ b.fatEntrySize) :
    mergeEntry b e x < 256 ^ b.fatEntrySize := by
  have hpow : 256 ^ b.fatEntrySize = 2 ^ (8 * b.fatEntrySize) := by rw [Nat.pow_mul]
  have hmask : b.clusterMask < 2 ^ (8 * b.fatEntrySize) := by
    unfold clusterMask Bootrecord.fatEntrySize
    cases b.t <;> decide
  rw [hpow] at he ⊢
  exact Nat.or_lt_two_pow (lt_of_le_of_lt Nat.and_le_left he) (lt_of_le_of_lt Nat.and_le_left hmask)

theorem and_mask {x : Nat} (hx : x ≤ b.clusterMask) : x &&& b.clusterMask = x := by
  unfold clusterMask at hx ⊢
  cases ht : b.t with
  | fat32 =>
    rw [ht] at hx
    exact Nat.and_two_pow_sub_one_of_lt_two_pow (n := 28) (Nat.lt_succ_of_le hx)
  | fat16 =>
    rw [ht] at hx
    exact Nat.and_two_pow_sub_one_of_lt_two_pow (n := 16) (Nat.lt_succ_of_le hx)

theorem eofValue_le_mask : b.eofValue ≤ b.clusterMask := by
  unfold eofValue clusterMask
  cases b.t <;> decide

theorem badValue_lt_eof : 0 < b.badValue ∧ b.badValue < b.eofValue := by
  unfold badValue eofValue
  cases b.t <;> decide

end Bits

namespace Volume
variable (v : Volume) {i j c e : Nat} {d : Device}

def fatStart (i : Nat) : Nat := (v.b.reservedSectors + i * v.b.sectorsPerFAT) * v.b.sectorSize

def dataStart : Nat := v.b.firstDataSector * v.b.sectorSize

section
variable (htwo : 2 ≤ v.b.maxCluster) (hi : i < v.b.numFATs) (hc : c ≤ v.b.maxCluster)
include htwo hi hc

theorem location_exact : v.b.clusterLocationFAT i c = v.fatStart i + c * v.b.fatEntrySize := by
  have hvalid : v.b.clusterInValidRange (max c 2) = true :=
    (Sector.Cached.valid_iff _ _).mpr ⟨by omega, by omega⟩
  have hlt := v.consistent.noWrap.locationFAT _ hvalid i hi
  have hle : c * v.b.fatEntrySize ≤ max c 2 * v.b.fatEntrySize :=
    Nat.mul_le_mul_right _ (le_max_left _ _)
  exact Sector.Cached.locationFAT_exact (by omega)

theorem entry_inside :
    v.fatStart i ≤ v.b.clusterLocationFAT i c ∧
    v.b.clusterLocationFAT i c + v.b.fatEntrySize ≤ v.fatStart (i + 1) := by
  have hvalid : v.b.clusterInValidRange (max c 2) = true :=
    (Sector.Cached.valid_iff _ _).mpr ⟨by omega, by omega⟩
  obtain ⟨_, hend⟩ := v.consistent.entry _ hvalid i hi
  have hle : c * v.b.fatEntrySize ≤ max c 2 * v.b.fatEntrySize :=
    Nat.mul_le_mul_right _ (le_max_left _ _)
  rw [v.location_exact htwo hi (by omega)] at hend ⊢
  refine ⟨Nat.le_add_right _ _, ?_⟩
  change _ ≤ v.fatStart (i + 1) at hend
  omega

end

theorem fatStart_le (hij : i ≤ j) : v.fatStart i ≤ v.fatStart j :=
  Nat.mul_le_mul_right _ (Nat.add_le_add_left (Nat.mul_le_mul_right _ hij) _)

theorem fat_before_data (hi : i < v.b.numFATs) : v.fatStart (i + 1) ≤ v.dataStart := by
  have hordered := v.consistent.ordered
  unfold regions at hordered
  rw [pairwise_append] at hordered
  have hmem : ((v.b.reservedSectors + i * v.b.sectorsPerFAT) * v.b.sectorSize,
    v.b.sectorsPerFAT * v.b.sectorSize) ∈
      (0, v.b.reservedSectors * v.b.sectorSize) :: (List.range v.b.numFATs).map
        (fun i => ((v.b.reservedSectors + i * v.b.sectorsPerFAT) * v.b.sectorSize,
          v.b.sectorsPerFAT * v.b.sectorSize)) :=
    mem_cons_of_mem _ (mem_map.mpr ⟨i, mem_range.mpr hi, rfl⟩)
  have hle := hordered.2.2 _ hmem _ (mem_cons_of_mem _ mem_cons_self)
  have hsucc : v.fatStart (i + 1) = v.fatStart i + v.b.sectorsPerFAT * v.b.sectorSize := by
    unfold fatStart
    ring
  rw [hsucc]
  exact hle

variable (htwo : 2 ≤ v.b.maxCluster) (hi : i < v.b.numFATs)
include htwo hi

theorem entries_apart (hj : j < v.b.numFATs) (hc : c ≤ v.b.maxCluster)
    (he : e ≤ v.b.maxCluster) (hne : ¬ (i = j ∧ c = e)) :
    v.b.clusterLocationFAT i c + v.b.fatEntrySize ≤ v.b.clusterLocationFAT j e ∨
      v.b.clusterLocationFAT j e + v.b.fatEntrySize ≤ v.b.clusterLocationFAT i c := by
  obtain ⟨hstart, hend⟩ := v.entry_inside htwo hi hc
  obtain ⟨hstart', hend'⟩ := v.entry_inside htwo hj he
  rcases Nat.lt_trichotomy i j with hlt | heq | hgt
  · have hle := v.fatStart_le (i := i + 1) (j := j) hlt
    omega
  · subst heq
    rw [v.location_exact htwo hi hc, v.location_exact htwo hi he]
    rcases lt_or_gt_of_ne (fun h => hne ⟨rfl, h⟩ : c ≠ e) with hlt | hgt
    · have hmul := Nat.mul_le_mul_right v.b.fatEntrySize (Nat.succ_le_of_lt hlt)
      rw [Nat.succ_mul] at hmul
      omega
    · have hmul := Nat.mul_le_mul_right v.b.fatEntrySize (Nat.succ_le_of_lt hgt)
      rw [Nat.succ_mul] at hmul
      omega
  · have hle := v.fatStart_le (i := j + 1) (j := i) hgt
    omega

theorem entry_setRaw {x : Nat} (hj : j < v.b.numFATs) (hc : c ≤ v.b.maxCluster)
    (he : e ≤ v.b.maxCluster) (hx : x < 256 ^ v.b.fatEntrySize) :
    entry v.b j e (setRawEntry v.b x (v.b.clusterLocationFAT i c) d) = if i = j ∧
    c = e then x else entry v.b j e d := by
  split
  next heq =>
    obtain ⟨rfl, rfl⟩ := heq
    have hself := @Device.readAt_writeAt_self d (toLe v.b.fatEntrySize x) (v.b.clusterLocationFAT i c)
    rw [toLe_length] at hself
    unfold entry getRawEntry setRawEntry
    rw [hself, ofLe_toLe_of_lt hx]
  next heq =>
    unfold entry getRawEntry setRawEntry
    rw [Device.readAt_writeAt_apart]
    rw [toLe_length]
    exact (v.entries_apart htwo hi hj hc he heq).symm

theorem entry_writeData {x : List UInt8} {off : Nat} (hc : c ≤ v.b.maxCluster)
    (hoff : v.dataStart ≤ off) : entry v.b i c (d.writeAt x off) = entry v.b i c d := by
  have hinside := (v.entry_inside htwo hi hc).2
  have hbefore := v.fat_before_data hi
  unfold entry getRawEntry
  rw [Device.readAt_writeAt_apart (.inl (by omega))]

theorem data_setRaw {x k : Nat} (hc : c ≤ v.b.maxCluster) (hk : v.dataStart ≤ k) :
    setRawEntry v.b x (v.b.clusterLocationFAT i c) d k = d k := by
  have hinside := (v.entry_inside htwo hi hc).2
  have hbefore := v.fat_before_data hi
  apply Device.writeAt_outside
  rw [toLe_length]
  omega

end Volume

end Garnet.Msdosfs
