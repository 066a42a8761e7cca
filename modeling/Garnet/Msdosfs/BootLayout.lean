import Garnet.Msdosfs.Bootrecord
import Mathlib.Data.List.Pairwise

/-! The layout that an accepted boot record describes, in exact arithmetic, and the records for
which the accessors stay inside it. -/

namespace Garnet.Msdosfs
open List
open LittleEndian

section Words
variable {n a b : Nat}

theorem u32_of_lt (h : n < 2 ^ 32) : u32 n = n := Nat.mod_eq_of_lt h

theorem u32_lt (n : Nat) : u32 n < 2 ^ 32 := Nat.mod_lt _ (by decide)

theorem u32_add_left (a b : Nat) : u32 (u32 a + b) = u32 (a + b) := Nat.mod_add_mod _ _ _

theorem u32_add_right (a b : Nat) : u32 (a + u32 b) = u32 (a + b) := Nat.add_mod_mod _ _ _

theorem u32_mul_left (a b : Nat) : u32 (u32 a * b) = u32 (a * b) := Nat.mod_mul_mod _ _ _

theorem sub32_of_le (hle : b ≤ a) (ha : a < 2 ^ 32) : sub32 a b = a - b := by
  unfold sub32
  omega

end Words

namespace Bootrecord

/-- The bytes of the reserved sectors, of each FAT, of the FAT16 root directory and of the clusters:
where each region starts and its length. -/
def regions (b : Bootrecord) : List (Nat × Nat) :=
  (0, b.reservedSectors * b.sectorSize) ::
    (List.range b.numFATs).map
      (fun i => ((b.reservedSectors + i * b.sectorsPerFAT) * b.sectorSize, b.sectorsPerFAT * b.sectorSize)) ++
    [((b.reservedSectors + b.numFATs * b.sectorsPerFAT) * b.sectorSize, b.numRootEntriesMax * 32),
      (b.firstDataSector * b.sectorSize, b.volumeSize - b.firstDataSector * b.sectorSize)]

/-- No sum, product or difference of `uint32`s in the offsets leaves the `uint32`s. Every part of an
exact value is below the value itself. -/
structure NoWrap (b : Bootrecord) : Prop where
  clusterSize : b.sectorsPerCluster * b.sectorSize < 2 ^ 32
  firstDataSector : b.reservedSectors + b.numFATs * b.sectorsPerFAT +
    (b.numRootEntriesMax * 32 + (b.sectorSize - 1)) / b.sectorSize < 2 ^ 32
  numDataSectors : b.firstDataSector ≤ b.totalSectors
  locationFAT : ∀ cluster, b.clusterInValidRange cluster = true → ∀ i < b.numFATs,
    (b.reservedSectors + i * b.sectorsPerFAT) * b.sectorSize + cluster * b.fatEntrySize < 2 ^ 32
  locationData : ∀ cluster, b.clusterInValidRange cluster = true →
    (cluster - 2) * b.sectorsPerCluster + b.firstDataSector < 2 ^ 32
  locationRoot : b.t = .fat16 → b.sectorSize * (b.reservedSectors + b.numFATs * b.sectorsPerFAT) <
    2 ^ 32

/-- The regions follow each other inside the volume, and the accessors stay inside their regions. -/
structure Consistent (b : Bootrecord) (deviceSize : Nat) : Prop where
  ordered : b.regions.Pairwise fun r s => r.1 + r.2 ≤ s.1
  inside : ∀ r ∈ b.regions, r.1 + r.2 ≤ b.volumeSize
  onDevice : b.volumeSize ≤ deviceSize
  entry : ∀ cluster, b.clusterInValidRange cluster = true → ∀ i < b.numFATs,
    (b.reservedSectors + i * b.sectorsPerFAT) * b.sectorSize ≤ b.clusterLocationFAT i cluster ∧
      b.clusterLocationFAT i cluster + b.fatEntrySize ≤
        (b.reservedSectors + (i + 1) * b.sectorsPerFAT) * b.sectorSize
  data : ∀ cluster, b.clusterInValidRange cluster = true →
    b.firstDataSector * b.sectorSize ≤ b.clusterLocationData cluster ∧
      b.clusterLocationData cluster + b.clusterSize ≤ b.volumeSize
  noWrap : b.NoWrap

end Bootrecord

namespace Sector

/-! The exact numbers that a sector gives. -/

variable (s : Sector)

def sectorsPerFAT : Nat := if s.guessFATType then s.sectorsPerFAT32 else s.sectorsPerFAT16
def entrySize : Nat := if s.guessFATType then 4 else 2
def dataStart : Nat :=
  s.numSectorsReserved + s.numFATs * s.sectorsPerFAT + s.numRootEntries * 32 / s.bytesPerSec
def clusters : Nat := (s.totalSectors - s.dataStart) / s.sectorsPerCluster

/-- What the checks leave out: the FATs and the root directory fit in the volume, a FAT has an entry
for every cluster, and the last entry of the last FAT (for FAT16 the root directory, too) starts
below 4 GiB. -/
structure Sound : Prop where
  fits : s.dataStart ≤ s.totalSectors
  entries : (s.clusters + 1) * s.entrySize ≤ s.sectorsPerFAT * s.bytesPerSec
  lastEntry : (s.numSectorsReserved + (s.numFATs - 1) * s.sectorsPerFAT) * s.bytesPerSec +
    s.clusters * s.entrySize < 2 ^ 32
  root : s.guessFATType = false → s.bytesPerSec * (s.numSectorsReserved +
    s.numFATs * s.sectorsPerFAT) < 2 ^ 32

theorem le_lt (n off : Nat) (s : Sector) : s.le n off < 256 ^ n := by
  have hlen : (slice n off s.bytes).length ≤ n := by
    rw [slice, length_take]
    exact min_le_left _ _
  exact lt_of_lt_of_le (ofLe_lt _) (Nat.pow_le_pow_right (by decide) hlen)

theorem totalSectors_lt : s.totalSectors < 2 ^ 32 := by
  unfold totalSectors
  split
  · exact lt_trans (le_lt 2 19 s) (by decide)
  · exact le_lt 4 32 s

theorem numRootEntries_lt : s.numRootEntries < 2 ^ 16 := le_lt 2 17 s

/-- What `bpbShared.validate` accepts. -/
structure Validated (large : Bool) (s : Sector) : Prop where
  bytesPerSec : s.bytesPerSec ∈ [512, 1024, 2048, 4096]
  sectorsPerCluster : s.sectorsPerCluster ∈ [1, 2, 4, 8, 16, 32, 64, 128]
  numFATs : 0 < s.numFATs
  rootEntries : large = true → s.numRootEntries = 0
  rootSectors : large = false → u32 (s.numRootEntries * 32) % s.bytesPerSec = 0

variable {large : Bool} {s : Sector}

theorem validate_ok (h : s.validate large = .ok ()) : s.Validated large := by
  obtain ⟨hsec, h⟩ := ok_of_check h
  obtain ⟨hclu, h⟩ := ok_of_check h
  obtain ⟨_, h⟩ := ok_of_check h
  obtain ⟨_, h⟩ := ok_of_check h
  obtain ⟨_, h⟩ := ok_of_check h
  obtain ⟨hfats, h⟩ := ok_of_check h
  obtain ⟨hroot, h⟩ := ok_of_check h
  obtain ⟨_, h⟩ := ok_of_check h
  obtain ⟨hmult, _⟩ := ok_of_check h
  refine ⟨not_not.mp hsec, not_not.mp hclu, Nat.pos_of_ne_zero hfats, ?_, ?_⟩
  · intro hlarge
    by_contra hne
    exact hroot ⟨hlarge, hne⟩
  · intro hsmall
    by_contra hne
    exact hmult ⟨by rw [hsmall]; exact Bool.false_ne_true, hne⟩

/-- What an accepted record takes from the sector, the same for both types. -/
structure Cached (b : Bootrecord) : Prop where
  totalSectors : b.totalSectors = s.totalSectors
  sectorSize : b.sectorSize = s.bytesPerSec
  sectorsPerCluster : b.sectorsPerCluster = s.sectorsPerCluster
  clusterSize : b.clusterSize = s.sectorsPerCluster * s.bytesPerSec
  reservedSectors : b.reservedSectors = s.numSectorsReserved
  numFATs : b.numFATs = s.numFATs
  sectorsPerFAT : b.sectorsPerFAT = s.sectorsPerFAT
  numRootEntriesMax : b.numRootEntriesMax = s.numRootEntries
  fatEntrySize : b.fatEntrySize = s.entrySize
  firstDataSector : b.firstDataSector = u32 s.dataStart
  small : b.t = .fat16 ↔ s.guessFATType = false
  maxCluster : b.maxCluster = sub32 s.totalSectors b.firstDataSector / s.sectorsPerCluster
  many : 4085 ≤ b.maxCluster
  -- from the checks
  bytesPos : 0 < s.bytesPerSec
  clusterPos : 0 < s.sectorsPerCluster
  clusterSize_lt : s.sectorsPerCluster * s.bytesPerSec < 2 ^ 32
  fatsPos : 0 < s.numFATs
  rootSectors : s.numRootEntries * 32 / s.bytesPerSec * s.bytesPerSec = s.numRootEntries * 32

theorem Validated.bytesPos (h : s.Validated large) : 0 < s.bytesPerSec ∧ s.bytesPerSec ≤ 4096 := by
  have hmem := h.bytesPerSec
  simp only [mem_cons, not_mem_nil, or_false] at hmem
  omega

theorem Validated.clusterPos (h : s.Validated large) :
    0 < s.sectorsPerCluster ∧ s.sectorsPerCluster ≤ 128 := by
  have hmem := h.sectorsPerCluster
  simp only [mem_cons, not_mem_nil, or_false] at hmem
  omega

theorem Validated.clusterSize_lt (h : s.Validated large) :
    s.sectorsPerCluster * s.bytesPerSec < 2 ^ 32 :=
  lt_of_le_of_lt (Nat.mul_le_mul h.clusterPos.2 h.bytesPos.2) (by decide)

theorem rootBytes_lt : s.numRootEntries * 32 < 2 ^ 32 := by
  have hlt := s.numRootEntries_lt
  omega

theorem Validated.rootSectors_exact (h : s.Validated large) :
    s.numRootEntries * 32 / s.bytesPerSec * s.bytesPerSec = s.numRootEntries * 32 := by
  apply Nat.div_mul_cancel
  cases large with
  | true =>
    rw [h.rootEntries rfl, zero_mul]
    exact dvd_zero _
  | false =>
    have hmod := h.rootSectors rfl
    rw [u32_of_lt s.rootBytes_lt] at hmod
    exact Nat.dvd_of_mod_eq_zero hmod

theorem Validated.numRootDirSectors_exact (h : s.Validated large) :
    s.numRootDirSectors = s.numRootEntries * 32 / s.bytesPerSec := by
  obtain ⟨hpos, hle⟩ := h.bytesPos
  have hlt := s.numRootEntries_lt
  have hexact := h.rootSectors_exact
  unfold numRootDirSectors
  rw [u32_of_lt s.rootBytes_lt, sub32_of_le hpos (by omega), u32_of_lt (by omega)]
  generalize s.numRootEntries * 32 / s.bytesPerSec = k at *
  rw [← hexact, mul_comm k, Nat.mul_add_div hpos, Nat.div_eq_of_lt (by omega), add_zero]

theorem maxCluster_eq {t : Variant} {first : Nat} (hmany : 4085 ≤ s.totalClusters first) :
    (s.cached t first).maxCluster = s.totalClusters first := by
  have hlt : s.totalClusters first < 2 ^ 32 :=
    lt_of_le_of_lt (Nat.div_le_self _ _) (Nat.mod_lt _ (by decide))
  change u32 (2 + sub32 (s.totalClusters first) 2) = _
  rw [sub32_of_le (by omega) hlt, u32_of_lt (by omega)]
  omega

theorem cachedLarge_cached (hguess : s.guessFATType = true) (hv : s.Validated true)
    (hmany : 65525 ≤ s.totalClusters s.firstDataSectorLarge) : s.Cached s.cachedLarge where
  totalSectors := rfl
  sectorSize := rfl
  sectorsPerCluster := rfl
  clusterSize := u32_of_lt hv.clusterSize_lt
  reservedSectors := rfl
  numFATs := rfl
  sectorsPerFAT := by
    rw [sectorsPerFAT, if_pos hguess]
    rfl
  numRootEntriesMax := (hv.rootEntries rfl).symm
  fatEntrySize := by
    rw [entrySize, if_pos hguess]
    rfl
  firstDataSector := by
    rw [dataStart, sectorsPerFAT, if_pos hguess, hv.rootEntries rfl, zero_mul, Nat.zero_div, add_zero]
    exact u32_add_right _ _
  small := by
    rw [hguess]
    exact iff_of_false nofun nofun
  maxCluster := @maxCluster_eq s .fat32 _ (by omega)
  many := by
    have heq : s.cachedLarge.maxCluster = _ := @maxCluster_eq s .fat32 _ (by omega)
    omega
  bytesPos := hv.bytesPos.1
  clusterPos := hv.clusterPos.1
  clusterSize_lt := hv.clusterSize_lt
  fatsPos := hv.numFATs
  rootSectors := hv.rootSectors_exact

theorem cachedSmall_cached (hguess : s.guessFATType = false) (hv : s.Validated false)
    (hmany : 4085 ≤ s.totalClusters s.firstDataSectorSmall) : s.Cached s.cachedSmall where
  totalSectors := rfl
  sectorSize := rfl
  sectorsPerCluster := rfl
  clusterSize := u32_of_lt hv.clusterSize_lt
  reservedSectors := rfl
  numFATs := rfl
  sectorsPerFAT := by
    rw [sectorsPerFAT, hguess, if_neg Bool.false_ne_true]
    rfl
  numRootEntriesMax := rfl
  fatEntrySize := by
    rw [entrySize, hguess, if_neg Bool.false_ne_true]
    rfl
  firstDataSector := by
    rw [dataStart, sectorsPerFAT, hguess, if_neg Bool.false_ne_true, ← hv.numRootDirSectors_exact]
    change u32 (u32 (_ + u32 _) + _) = _
    rw [u32_add_left, add_assoc, add_comm (u32 _), ← add_assoc, u32_add_right]
    congr 1
    omega
  small := by
    rw [hguess]
    exact iff_of_true rfl rfl
  maxCluster := @maxCluster_eq s .fat16 _ hmany
  many := by
    have heq : s.cachedSmall.maxCluster = _ := @maxCluster_eq s .fat16 _ hmany
    omega
  bytesPos := hv.bytesPos.1
  clusterPos := hv.clusterPos.1
  clusterSize_lt := hv.clusterSize_lt
  fatsPos := hv.numFATs
  rootSectors := hv.rootSectors_exact

end Sector

theorem checkSize_ok {size : Nat} {b b' : Bootrecord} (h : checkSize size b = .ok b') :
    b' = b ∧ b.volumeSize ≤ size := by
  obtain ⟨hsize, h⟩ := ok_of_check h
  cases h
  exact ⟨rfl, Nat.not_lt.mp hsize⟩

theorem Sector.primary_lt {s : Sector} (hext : s.validateExtended = .ok ())
    (hfats : 0 < s.numFATs) : s.mirroringInfo.2 < s.numFATs := by
  obtain ⟨_, hext⟩ := ok_of_check hext
  obtain ⟨_, hext⟩ := ok_of_check hext
  obtain ⟨_, hext⟩ := ok_of_check hext
  obtain ⟨hprimary, _⟩ := ok_of_check hext
  unfold mirroringInfo at hprimary ⊢
  by_cases hflag : s.extFlags &&& 0x80 = 0
  · rw [if_pos hflag]
    exact hfats
  · rw [if_neg hflag] at hprimary ⊢
    exact Nat.lt_of_not_le fun hle => hprimary ⟨nofun, hle⟩

theorem Bootrecord.new_cases {d : BootDevice} {b : Bootrecord} (h : Bootrecord.new d = .ok b) :
    ∃ s, d.first = .ok s ∧ s.Cached b ∧ b.volumeSize ≤ d.deviceSize ∧ b.primaryFAT < b.numFATs := by
  obtain ⟨s, hfirst, h⟩ := ok_of_bind h
  refine ⟨s, hfirst, ?_⟩
  cases hguess : s.guessFATType with
  | true =>
    rw [hguess, if_pos rfl] at h
    obtain ⟨_, hlarge, h⟩ := ok_of_bind h
    obtain ⟨_, h⟩ := ok_of_check h
    obtain ⟨rfl, hsize⟩ := checkSize_ok h
    obtain ⟨_, _, hlarge⟩ := ok_of_bind hlarge
    obtain ⟨_, _, hlarge⟩ := ok_of_bind hlarge
    obtain ⟨_, hvalidate, hlarge⟩ := ok_of_bind hlarge
    obtain ⟨_, _, hlarge⟩ := ok_of_bind hlarge
    obtain ⟨_, htype, hext⟩ := ok_of_bind hlarge
    obtain ⟨_, htype⟩ := ok_of_check htype
    obtain ⟨hmany, _⟩ := ok_of_check htype
    have hvalid := Sector.validate_ok hvalidate
    exact ⟨Sector.cachedLarge_cached hguess hvalid (Nat.not_lt.mp hmany), hsize,
      Sector.primary_lt hext hvalid.numFATs⟩
  | false =>
    rw [hguess, if_neg Bool.false_ne_true] at h
    obtain ⟨t, hsmall, h⟩ := ok_of_bind h
    obtain ⟨_, _, hsmall⟩ := ok_of_bind hsmall
    obtain ⟨_, _, hsmall⟩ := ok_of_bind hsmall
    obtain ⟨_, hvalidate, hsmall⟩ := ok_of_bind hsmall
    obtain ⟨_, _, hsmall⟩ := ok_of_bind hsmall
    obtain ⟨_, hsmall⟩ := ok_of_check hsmall
    cases t with
    | fat12 | fat32 => exact nomatch h
    | fat16 =>
      obtain ⟨rfl, hsize⟩ := checkSize_ok h
      have hmany : 4085 ≤ s.totalClusters s.firstDataSectorSmall := by
        by_contra hfew
        rw [if_pos (Nat.not_le.mp hfew)] at hsmall
        exact nomatch hsmall
      have hvalid := Sector.validate_ok hvalidate
      exact ⟨Sector.cachedSmall_cached hguess hvalid hmany, hsize, hvalid.numFATs⟩

namespace Sector.Cached
variable {s : Sector} {b : Bootrecord} {i cluster size : Nat}

theorem rounded (h : s.Cached b) :
    (b.numRootEntriesMax * 32 + (b.sectorSize - 1)) / b.sectorSize =
    s.numRootEntries * 32 / s.bytesPerSec := by
  have hpos := h.bytesPos
  have hexact := h.rootSectors
  rw [h.numRootEntriesMax, h.sectorSize]
  generalize s.numRootEntries * 32 / s.bytesPerSec = k at *
  rw [← hexact, mul_comm k, Nat.mul_add_div hpos, Nat.div_eq_of_lt (by omega), add_zero]

theorem exact_of_fits (h : s.Cached b) (hfits : s.dataStart ≤ s.totalSectors) :
    b.firstDataSector = s.dataStart ∧ b.maxCluster = s.clusters := by
  have hlt := s.totalSectors_lt
  have hfirst : b.firstDataSector = s.dataStart := by
    rw [h.firstDataSector, u32_of_lt (by omega)]
  refine ⟨hfirst, ?_⟩
  rw [h.maxCluster, hfirst, sub32_of_le hfits hlt]
  rfl

theorem valid_iff (b : Bootrecord) (cluster : Nat) :
    b.clusterInValidRange cluster = true ↔ 2 ≤ cluster ∧ cluster ≤ b.maxCluster := by
  rw [Bootrecord.clusterInValidRange, Bool.and_eq_true, decide_eq_true_iff, decide_eq_true_iff]
  rfl

theorem locationFAT_exact
    (hlt : (b.reservedSectors + i * b.sectorsPerFAT) * b.sectorSize + cluster * b.fatEntrySize <
      2 ^ 32) :
    b.clusterLocationFAT i cluster =
      (b.reservedSectors + i * b.sectorsPerFAT) * b.sectorSize + cluster * b.fatEntrySize := by
  unfold Bootrecord.clusterLocationFAT
  rw [u32_add_left, u32_add_right, u32_add_right, add_comm (u32 _ * _), ← u32_add_right,
    u32_mul_left, u32_add_right, u32_of_lt (by omega)]
  omega

theorem locationData_exact (hc : 2 ≤ cluster) (hlt : cluster < 2 ^ 32)
    (hsum : (cluster - 2) * b.sectorsPerCluster + b.firstDataSector < 2 ^ 32) :
    b.clusterLocationData cluster =
    ((cluster - 2) * b.sectorsPerCluster + b.firstDataSector) * b.sectorSize := by
  unfold Bootrecord.clusterLocationData
  rw [sub32_of_le hc hlt, u32_add_left, u32_of_lt hsum]

theorem sound_of_consistent (h : s.Cached b) (hcons : b.Consistent size) : s.Sound := by
  have hstart := hcons.noWrap.firstDataSector
  rw [h.rounded, h.reservedSectors, h.numFATs, h.sectorsPerFAT] at hstart
  have hfirst : b.firstDataSector = s.dataStart := by
    rw [h.firstDataSector]
    exact u32_of_lt hstart
  have hfits : s.dataStart ≤ s.totalSectors := by
    have hle := hcons.noWrap.numDataSectors
    rw [hfirst, h.totalSectors] at hle
    exact hle
  obtain ⟨_, hmax⟩ := h.exact_of_fits hfits
  have hmany := h.many
  have hfats := h.fatsPos
  -- the last cluster in the last FAT
  have hvalid := (valid_iff b b.maxCluster).mpr ⟨by omega, le_refl _⟩
  have hindex : s.numFATs - 1 < b.numFATs := by
    rw [h.numFATs]
    omega
  have hlast := hcons.noWrap.locationFAT _ hvalid _ hindex
  obtain ⟨_, hend⟩ := hcons.entry _ hvalid _ hindex
  rw [locationFAT_exact hlast, add_mul _ 1, one_mul, ← add_assoc, add_mul _ b.sectorsPerFAT] at hend
  rw [h.reservedSectors, h.sectorsPerFAT, h.sectorSize, h.fatEntrySize, hmax] at hlast hend
  refine ⟨hfits, ?_, hlast, ?_⟩
  · rw [add_mul, one_mul]
    omega
  · intro hsmall
    have hroot := hcons.noWrap.locationRoot (h.small.mpr hsmall)
    rw [h.sectorSize, h.reservedSectors, h.numFATs, h.sectorsPerFAT] at hroot
    exact hroot

theorem fat_le (s : Sector) {j : Nat} (hij : i ≤ j) :
    (s.numSectorsReserved + i * s.sectorsPerFAT) * s.bytesPerSec ≤
      (s.numSectorsReserved + j * s.sectorsPerFAT) * s.bytesPerSec :=
  Nat.mul_le_mul_right _ (Nat.add_le_add_left (Nat.mul_le_mul_right _ hij) _)

theorem fat_succ (s : Sector) (i : Nat) :
    (s.numSectorsReserved + i * s.sectorsPerFAT) * s.bytesPerSec + s.sectorsPerFAT * s.bytesPerSec =
      (s.numSectorsReserved + (i + 1) * s.sectorsPerFAT) * s.bytesPerSec := by
  ring

variable (h : s.Cached b)
include h

theorem dataStart_bytes : s.dataStart * s.bytesPerSec =
    (s.numSectorsReserved + s.numFATs * s.sectorsPerFAT) * s.bytesPerSec + s.numRootEntries * 32 := by
  rw [Sector.dataStart, add_mul, h.rootSectors]

section
variable (hfirst : b.firstDataSector = s.dataStart)
include hfirst

theorem regions_eq :
    b.regions = (0, s.numSectorsReserved * s.bytesPerSec) :: (List.range s.numFATs).map
        (fun i => ((s.numSectorsReserved + i * s.sectorsPerFAT) * s.bytesPerSec,
          s.sectorsPerFAT * s.bytesPerSec)) ++
      [((s.numSectorsReserved + s.numFATs * s.sectorsPerFAT) * s.bytesPerSec, s.numRootEntries * 32),
        (s.dataStart * s.bytesPerSec, b.volumeSize - s.dataStart * s.bytesPerSec)] := by
  rw [Bootrecord.regions, h.reservedSectors, h.sectorSize, h.numFATs, h.sectorsPerFAT,
    h.numRootEntriesMax, hfirst]

theorem regions_ordered : b.regions.Pairwise fun r t => r.1 + r.2 ≤ t.1 := by
  have hdata := h.dataStart_bytes
  have hzero : s.numSectorsReserved * s.bytesPerSec =
      (s.numSectorsReserved + 0 * s.sectorsPerFAT) * s.bytesPerSec := by
    rw [zero_mul, add_zero]
  rw [h.regions_eq hfirst]
  refine pairwise_append.mpr ⟨pairwise_cons.mpr ⟨?_, ?_⟩, ?_, ?_⟩
  · intro r hr
    obtain ⟨i, _, rfl⟩ := mem_map.mp hr
    rw [zero_add, hzero]
    exact fat_le s (Nat.zero_le i)
  · rw [pairwise_map]
    refine List.Pairwise.imp ?_ pairwise_lt_range
    intro i j hij
    rw [fat_succ]
    exact fat_le s hij
  · refine pairwise_cons.mpr ⟨?_, pairwise_singleton _ _⟩
    intro r hr
    rw [mem_singleton.mp hr]
    exact le_of_eq hdata.symm
  · -- everything before the root directory ends where it starts
    intro r hr t ht
    have hend : r.1 + r.2 ≤ (s.numSectorsReserved + s.numFATs * s.sectorsPerFAT) * s.bytesPerSec := by
      rcases mem_cons.mp hr with rfl | hr
      · rw [zero_add, hzero]
        exact fat_le s (Nat.zero_le _)
      · obtain ⟨i, hi, rfl⟩ := mem_map.mp hr
        rw [fat_succ]
        exact fat_le s (mem_range.mp hi)
    rcases mem_cons.mp ht with rfl | ht
    · exact hend
    · rw [mem_singleton.mp ht]
      exact le_trans hend (by rw [hdata]; exact Nat.le_add_right _ _)

theorem regions_inside (hfits : s.dataStart ≤ s.totalSectors) :
    ∀ r ∈ b.regions, r.1 + r.2 ≤ b.volumeSize := by
  have hordered := h.regions_ordered hfirst
  have hvolume : s.dataStart * s.bytesPerSec ≤ b.volumeSize := by
    rw [Bootrecord.volumeSize, h.totalSectors, h.sectorSize]
    exact Nat.mul_le_mul_right _ hfits
  rw [h.regions_eq hfirst] at hordered ⊢
  rw [← singleton_append (l := [_]), ← append_assoc] at hordered ⊢
  intro r hr
  rcases mem_append.mp hr with hr | hr
  · have hle := (pairwise_append.mp hordered).2.2 r hr _ (mem_singleton_self _)
    exact le_trans hle hvolume
  · rw [mem_singleton.mp hr]
    exact le_of_eq (Nat.add_sub_cancel' hvolume)

end

theorem consistent_of_sound (hsize : b.volumeSize ≤ size) (hs : s.Sound) : b.Consistent size := by
  obtain ⟨hfirst, hmax⟩ := h.exact_of_fits hs.fits
  have htotal := s.totalSectors_lt
  -- every entry lies before the last one
  have hentry : ∀ cluster, b.clusterInValidRange cluster = true → ∀ i < b.numFATs,
      (b.reservedSectors + i * b.sectorsPerFAT) * b.sectorSize + cluster * b.fatEntrySize <
        2 ^ 32 := by
    intro cluster hvalid i hi
    obtain ⟨_, hle⟩ := (valid_iff b cluster).mp hvalid
    rw [h.numFATs] at hi
    rw [hmax] at hle
    rw [h.reservedSectors, h.sectorsPerFAT, h.sectorSize, h.fatEntrySize]
    have hfat := fat_le s (show i ≤ s.numFATs - 1 by omega)
    have hclu : cluster * s.entrySize ≤ s.clusters * s.entrySize := Nat.mul_le_mul_right _ hle
    have hlast := hs.lastEntry
    omega
  -- the clusters of the data region
  have hcluster : ∀ cluster, b.clusterInValidRange cluster = true →
      (cluster - 2) * b.sectorsPerCluster + b.firstDataSector + b.sectorsPerCluster ≤
        b.totalSectors := by
    intro cluster hvalid
    obtain ⟨hge, hle⟩ := (valid_iff b cluster).mp hvalid
    rw [h.sectorsPerCluster, hfirst, h.totalSectors]
    have hmul : (cluster - 2) * s.sectorsPerCluster + s.sectorsPerCluster ≤
        s.clusters * s.sectorsPerCluster := by
      rw [← Nat.succ_mul]
      exact Nat.mul_le_mul_right _ (by omega)
    have hdiv : s.clusters * s.sectorsPerCluster ≤ s.totalSectors - s.dataStart :=
      Nat.div_mul_le_self _ _
    have hfits := hs.fits
    omega
  refine ⟨h.regions_ordered hfirst, h.regions_inside hfirst hs.fits, hsize, ?_, ?_, ?_⟩
  · intro cluster hvalid i hi
    obtain ⟨_, hle⟩ := (valid_iff b cluster).mp hvalid
    rw [locationFAT_exact (hentry cluster hvalid i hi)]
    refine ⟨Nat.le_add_right _ _, ?_⟩
    rw [h.reservedSectors, h.sectorsPerFAT, h.sectorSize, h.fatEntrySize, ← fat_succ]
    have hfit : (cluster + 1) * s.entrySize ≤ s.sectorsPerFAT * s.bytesPerSec :=
      le_trans (Nat.mul_le_mul_right _ (by omega)) hs.entries
    rw [add_mul, one_mul] at hfit
    omega
  · intro cluster hvalid
    obtain ⟨hge, hle⟩ := (valid_iff b cluster).mp hvalid
    have hfit := hcluster cluster hvalid
    have htotal' := h.totalSectors
    have hmaxlt : b.maxCluster < 2 ^ 32 := u32_lt _
    rw [locationData_exact hge (by omega) (by omega)]
    constructor
    · exact Nat.mul_le_mul_right _ (Nat.le_add_left _ _)
    · rw [h.clusterSize, ← h.sectorSize, ← h.sectorsPerCluster, ← add_mul, Bootrecord.volumeSize]
      exact Nat.mul_le_mul_right _ hfit
  · refine ⟨?_, ?_, ?_, hentry, ?_, ?_⟩
    · rw [h.sectorsPerCluster, h.sectorSize]
      exact h.clusterSize_lt
    · rw [h.rounded, h.reservedSectors, h.numFATs, h.sectorsPerFAT]
      exact lt_of_le_of_lt hs.fits htotal
    · rw [hfirst, h.totalSectors]
      exact hs.fits
    · intro cluster hvalid
      have hfit := hcluster cluster hvalid
      have htotal' := h.totalSectors
      omega
    · intro hsmall
      rw [h.sectorSize, h.reservedSectors, h.numFATs, h.sectorsPerFAT]
      exact hs.root (h.small.mp hsmall)

end Sector.Cached

/-- An accepted boot record describes a consistent layout exactly when its sector is sound. -/
theorem bootrecord_consistent_iff (d : BootDevice) (b : Bootrecord) (h : Bootrecord.new d = .ok b) :
    b.Consistent d.deviceSize ↔ ∃ s, d.first = .ok s ∧ s.Sound := by
  obtain ⟨s, hfirst, hcached, hsize, _⟩ := Bootrecord.new_cases h
  constructor
  · intro hcons
    exact ⟨s, hfirst, hcached.sound_of_consistent hcons⟩
  · rintro ⟨s', hfirst', hsound⟩
    rw [hfirst] at hfirst'
    cases hfirst'
    exact hcached.consistent_of_sound hsize hsound

def shortFAT : Sector where
  bytes := [0xE9, 0, 0] ++ List.replicate 8 0 ++ [0, 2, 1, 1, 0, 1, 16, 0, 0xF8, 0x0F, 0, 1, 0] ++
    List.replicate 14 0 ++
    [0x29] ++ List.replicate 471 0 ++ [0x55, 0xAA]
  length := by simp only [length_append, length_replicate, length_cons, length_nil]

/-- It is accepted, but the entries of most clusters lie behind the FAT. -/
theorem shortFAT_accepted_inconsistent : ∃ b, Bootrecord.new ⟨.ok shortFAT, 4088 * 512⟩ = .ok b ∧
    ¬ b.Consistent (4088 * 512) := by
  refine ⟨shortFAT.cachedSmall, by decide +kernel, ?_⟩
  intro h
  have hentry := h.entry 300 (by decide +kernel) 0 (by decide +kernel)
  exact absurd hentry.2 (by decide +kernel)

def longFAT : Sector where
  bytes := [0xE9, 0, 0] ++ List.replicate 8 0 ++ [0, 2, 1, 1, 0, 1, 16, 0, 0x07, 0x10, 0, 16, 0] ++
    List.replicate 14 0 ++
    [0x29] ++ List.replicate 471 0 ++ [0x55, 0xAA]
  length := by simp only [length_append, length_replicate, length_cons, length_nil]

theorem longFAT_consistent : longFAT.cachedSmall.Consistent (4103 * 512) :=
  (bootrecord_consistent_iff ⟨.ok longFAT, 4103 * 512⟩ _ (by decide +kernel)).mpr
    ⟨longFAT, rfl, by decide +kernel, by decide +kernel, by decide +kernel, by decide +kernel⟩

end Garnet.Msdosfs
