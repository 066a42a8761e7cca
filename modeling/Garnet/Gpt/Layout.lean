import Garnet.Lib.Align
import Garnet.Gpt.Table

/-! Which layouts `Update` accepts. The regions of the disk and the ranges of the partitions are
compared in exact arithmetic, while `Update` computes with words and rounds down. -/

namespace Garnet.Gpt
open List
open UInt64 (lt_iff_toNat_lt toNat toNat_add toNat_div toNat_sub)

def Apart (r q : Nat × Nat) : Prop := r.2 ≤ q.1 ∨ q.2 ≤ r.1

/-- The bytes of a partition array: the entries that exist, and at least those the header counts. -/
def PartitionTable.arrayBytes (pt : PartitionTable) : Nat :=
  128 * max pt.header.numberOfPartitionEntries.toNat pt.partitions.length

/-- Protective MBR, primary header and array, usable blocks, backup array and header, in bytes. -/
def GPT.regions (bs : Nat) (g : GPT) : List (Nat × Nat) :=
  [(0, max bs 512),
    (g.primary.header.myLBA.toNat * bs, g.primary.header.myLBA.toNat * bs + 92),
    (g.primary.header.partitionEntryLBA.toNat * bs,
      g.primary.header.partitionEntryLBA.toNat * bs + g.primary.arrayBytes),
    (g.primary.header.firstUsableLBA.toNat * bs, (g.primary.header.lastUsableLBA.toNat + 1) * bs),
    (g.backup.header.partitionEntryLBA.toNat * bs,
      g.backup.header.partitionEntryLBA.toNat * bs + g.backup.arrayBytes),
    (g.backup.header.myLBA.toNat * bs, g.backup.header.myLBA.toNat * bs + 92)]

def usedRanges (l : List PartitionEntry) : List (Nat × Nat) :=
  (l.filter fun p => !p.isZero).map fun p => (p.startingLBA.toNat, p.endingLBA.toNat)

variable (s : Geometry)

def Geometry.unit : Nat :=
  max (max s.blockSize.toNat s.physicalBlockSize.toNat) s.optimalTransferLengthGranularity.toNat

/-- Block ranges within the usable blocks, aligned, and apart from each other. -/
structure RangesFit (first last : Nat) (l : List (Nat × Nat)) : Prop where
  inside : ∀ r ∈ l, first ≤ r.1 ∧ r.1 ≤ r.2 ∧ r.2 ≤ last
  aligned : ∀ r ∈ l, s.unit ∣ r.1 * s.blockSize.toNat
  apart : l.Pairwise fun r q => r.2 < q.1 ∨ q.2 < r.1

structure Realizable (g : GPT) : Prop where
  inside : ∀ r ∈ g.regions s.blockSize.toNat, r.2 ≤ s.diskSize.toNat
  apart : (g.regions s.blockSize.toNat).Pairwise Apart
  partitions : RangesFit s g.primary.header.firstUsableLBA.toNat g.primary.header.lastUsableLBA.toNat
    (usedRanges g.primary.partitions)

/-- The partition array for `n` entries, in bytes and in whole blocks. -/
def exactArray (n : Nat) : Nat := max 16384 (128 * n)

def Geometry.arrayBlocks (n : Nat) : Nat := exactArray n / s.blockSize.toNat

def Geometry.blocks : Nat := s.diskSize.toNat / s.blockSize.toNat

/-- The ranges that are asked for: each used partition from the first aligned block at or behind its
start, or behind the partition before it if it has none. -/
def askedRanges (alignTo : Nat) : Nat → List PartitionEntry → List (Nat × Nat)
  | _, [] => []
  | next, p :: rest =>
    if p.isZero then askedRanges alignTo next rest
    else
      (roundUp alignTo (if p.startingLBA = 0 then next else p.startingLBA.toNat),
        p.endingLBA.toNat) ::
        askedRanges alignTo (p.endingLBA.toNat + 1) rest

/-- What the arguments of `Update` must satisfy. -/
structure Placeable (l : List PartitionEntry) : Prop where
  block : 512 ≤ s.blockSize.toNat
  entries : 128 * l.length < 2 ^ 32
  whole : s.blockSize.toNat ∣ exactArray l.length
  room : 2 * s.arrayBlocks l.length + 3 ≤ s.blocks
  partitions : RangesFit s (2 + s.arrayBlocks l.length) (s.blocks - s.arrayBlocks l.length - 2)
    (askedRanges (s.unit / s.blockSize.toNat) (2 + s.arrayBlocks l.length) l)

section Align
variable {s : Geometry}

theorem toNat_larger (a b : UInt64) : (if a < b then b else a).toNat = max a.toNat b.toNat := by
  split
  next h =>
    have hlt := lt_iff_toNat_lt.mp h
    omega
  next h =>
    have hge := mt lt_iff_toNat_lt.mpr h
    omega

/-- `alignTo` at the end of `nextAlignedLBA`. -/
def Geometry.alignTo (s : Geometry) : UInt64 :=
  let alignTo := if s.blockSize < s.physicalBlockSize then s.physicalBlockSize else s.blockSize
  (if alignTo < s.optimalTransferLengthGranularity then s.optimalTransferLengthGranularity else alignTo) / s.blockSize

theorem toNat_alignTo : s.alignTo.toNat = s.unit / s.blockSize.toNat := by
  rw [Geometry.alignTo, toNat_div, toNat_larger, toNat_larger]
  rfl

theorem alignTo_pos (hs : 0 < s.blockSize.toNat) : 0 < s.unit / s.blockSize.toNat := by
  apply Nat.div_pos ?_ hs
  exact le_trans (le_max_left _ _) (le_max_left _ _)

theorem toNat_nextAlignedLBA (hs : 0 < s.blockSize.toNat) (x : UInt64) :
    (nextAlignedLBA x s.blockSize s.physicalBlockSize s.optimalTransferLengthGranularity).toNat =
      roundUp (s.unit / s.blockSize.toNat) x.toNat % 2 ^ 64 := by
  have hpos := alignTo_pos hs
  have hx := x.toNat_lt
  rw [← toNat_alignTo] at hpos ⊢
  change toNat (if x % s.alignTo ≠ 0 then x + (s.alignTo - x % s.alignTo) else x) = _
  generalize s.alignTo = a at hpos ⊢
  have hmod := UInt64.toNat_mod x a
  have hlt := Nat.mod_lt x.toNat hpos
  have hle := Nat.mod_le x.toNat a.toNat
  rw [roundUp_eq hpos]
  by_cases hd : x % a = 0
  · have hzero : x.toNat % a.toNat = 0 := by
      rw [← hmod, hd]
      rfl
    rw [if_neg (not_not.mpr hd), hzero, if_neg (lt_irrefl 0), Nat.sub_zero, add_zero,
      Nat.mod_eq_of_lt hx]
  · have hne : 0 < x.toNat % a.toNat := by
      rw [← hmod]
      exact Nat.pos_of_ne_zero fun h => hd (toNat.inj h)
    have hsub : (a - x % a).toNat = a.toNat - x.toNat % a.toNat := by
      rw [UInt64.toNat_sub_of_le _ _ (UInt64.le_iff_toNat_le.mpr (by rw [hmod]; omega)), hmod]
    rw [if_pos hd, if_pos hne, toNat_add, hsub]
    congr 1
    omega

end Align

section LayOut
variable {s : Geometry} {l l' : List PartitionEntry} {p : PartitionEntry} {next : UInt64}

theorem usedRanges_zero (hp : p.isZero = true) : usedRanges (p :: l) = usedRanges l := by
  simp [usedRanges, hp]

theorem usedRanges_cons (hp : p.isZero = false) :
    usedRanges (p :: l) = (p.startingLBA.toNat, p.endingLBA.toNat) :: usedRanges l := by
  simp [usedRanges, hp]

theorem layOut_cons {start : UInt64} (hp : p.isZero = false)
    (hstart : nextAlignedLBA (if p.startingLBA = 0 then next else p.startingLBA) s.blockSize
      s.physicalBlockSize
      s.optimalTransferLengthGranularity = start) (h : layOut s next (p :: l) = .ok l') :
    ∃ rest, ¬ p.endingLBA ≤ start ∧ ¬ s.diskSize / s.blockSize < p.endingLBA ∧
      layOut s (p.endingLBA + 1) l = .ok rest ∧ l' = { p with startingLBA := start } :: rest := by
  unfold layOut at h
  rw [if_neg (by rw [hp]; exact Bool.false_ne_true)] at h
  dsimp only at h
  rw [hstart] at h
  obtain ⟨hend, h⟩ := ok_of_check h
  obtain ⟨hdisk, h⟩ := ok_of_check h
  obtain ⟨rest, hrest, hok⟩ := ok_of_bind h
  cases hok
  exact ⟨rest, hend, hdisk, hrest, rfl⟩

theorem layOut_zero (hp : p.isZero = true) (h : layOut s next (p :: l) = .ok l') :
    ∃ rest, layOut s next l = .ok rest ∧ l' = p :: rest := by
  unfold layOut at h
  rw [if_pos hp] at h
  obtain ⟨rest, hrest, hok⟩ := ok_of_bind h
  cases hok
  exact ⟨rest, hrest, rfl⟩

theorem layOut_length (h : layOut s next l = .ok l') : l'.length = l.length := by
  induction l generalizing next l' with
  | nil =>
    cases h
    rfl
  | cons p l ih =>
    cases hp : p.isZero with
    | true =>
      obtain ⟨rest, hrest, rfl⟩ := layOut_zero hp h
      rw [length_cons, length_cons, ih hrest]
    | false =>
      obtain ⟨rest, _, _, hrest, rfl⟩ := layOut_cons hp rfl h
      rw [length_cons, length_cons, ih hrest]

/-- The partitions are laid out as asked, unless a start does not fit a word: then what is asked for
is not a range, and some start is less than the unit. -/
theorem layOut_ranges (hs : 2 ≤ s.blockSize.toNat) (h : layOut s next l = .ok l') :
    usedRanges l' = askedRanges (s.unit / s.blockSize.toNat) next.toNat l ∨
      (∃ r ∈ usedRanges l', r.1 < s.unit / s.blockSize.toNat) ∧
        ∃ r ∈ askedRanges (s.unit / s.blockSize.toNat) next.toNat l, r.2 < r.1 := by
  induction l generalizing next l' with
  | nil =>
    cases h
    exact .inl rfl
  | cons p l ih =>
    cases hp : p.isZero with
    | true =>
      obtain ⟨rest, hrest, rfl⟩ := layOut_zero hp h
      rw [usedRanges_zero hp, askedRanges, if_pos hp]
      exact ih hrest
    | false =>
      have hpos : 0 < s.blockSize.toNat := by omega
      have hstart := toNat_nextAlignedLBA hpos (if p.startingLBA = 0 then next else p.startingLBA)
      generalize hx : nextAlignedLBA (if p.startingLBA = 0 then next else p.startingLBA) s.blockSize
        s.physicalBlockSize
        s.optimalTransferLengthGranularity = start at hstart
      obtain ⟨rest, _, hdisk, hrest, rfl⟩ := layOut_cons hp hx h
      have hranges := ih hrest
      -- the blocks of a disk can be counted by a word
      have hnext : (p.endingLBA + 1).toNat = p.endingLBA.toNat + 1 := by
        have hle : p.endingLBA.toNat ≤ s.diskSize.toNat / s.blockSize.toNat := by
          rw [← toNat_div]
          exact Nat.le_of_not_lt (mt lt_iff_toNat_lt.mpr hdisk)
        have hhalf := Nat.div_le_div_left hs (by decide : 0 < 2) (a := s.diskSize.toNat)
        have hlt := s.diskSize.toNat_lt
        rw [toNat_add]
        exact Nat.mod_eq_of_lt (by change _ + 1 < _; omega)
      rw [hnext] at hranges
      have hasked : askedRanges (s.unit / s.blockSize.toNat) next.toNat (p :: l) =
          (roundUp (s.unit / s.blockSize.toNat)
            (if p.startingLBA = 0 then next else p.startingLBA).toNat, p.endingLBA.toNat) ::
            askedRanges (s.unit / s.blockSize.toNat) (p.endingLBA.toNat + 1) l := by
        rw [askedRanges, if_neg (by rw [hp]; exact Bool.false_ne_true)]
        split <;> rfl
      have hused : usedRanges ({ p with startingLBA := start } :: rest) =
          (start.toNat, p.endingLBA.toNat) :: usedRanges rest := usedRanges_cons hp
      have hround :=
        roundUp_lt (alignTo_pos hpos) (if p.startingLBA = 0 then next else p.startingLBA).toNat
      have hword := (if p.startingLBA = 0 then next else p.startingLBA).toNat_lt
      have hending := p.endingLBA.toNat_lt
      rw [hasked, hused]
      generalize (if p.startingLBA = 0 then next else p.startingLBA).toNat = x at hstart hround hword ⊢
      by_cases hfits : roundUp (s.unit / s.blockSize.toNat) x < 2 ^ 64
      · rw [Nat.mod_eq_of_lt hfits] at hstart
        rw [hstart]
        rcases hranges with heq | ⟨⟨r, hr, hlow⟩, ⟨q, hq, hbad⟩⟩
        · exact .inl (by rw [heq])
        · exact .inr ⟨⟨r, mem_cons_of_mem _ hr, hlow⟩, ⟨q, mem_cons_of_mem _ hq, hbad⟩⟩
      · refine .inr ⟨⟨_, mem_cons_self, ?_⟩, ⟨_, mem_cons_self, ?_⟩⟩
        · dsimp only
          omega
        · dsimp only
          omega

end LayOut

section Words

theorem toNat_arraySize (n : Nat) : (arraySize n).toNat = max 16384 (128 * n % 2 ^ 32) := by
  have hproduct : (UInt32.ofNat n * PartitionEntrySize).toNat = 128 * n % 2 ^ 32 := by
    rw [UInt32.toNat_mul, UInt32.toNat_ofNat', show PartitionEntrySize.toNat = 128 from rfl,
      Nat.mod_mul_mod, mul_comm]
  unfold arraySize
  dsimp only
  split
  next h =>
    have hlt := UInt32.lt_iff_toNat_lt.mp h
    rw [hproduct, show MinPartitionEntryArraySize.toNat = 16384 from rfl] at hlt
    change 16384 = _
    omega
  next h =>
    have hge := mt UInt32.lt_iff_toNat_lt.mpr h
    rw [hproduct, show MinPartitionEntryArraySize.toNat = 16384 from rfl] at hge
    rw [hproduct]
    omega

variable (random : GUID) (s : Geometry) (n : Nat) (h : Header)

theorem toNat_numberOfPartitionEntries :
    (primaryHeader random s n h).numberOfPartitionEntries.toNat = (arraySize n).toNat / 128 :=
  UInt32.toNat_div _ _

theorem toNat_firstUsableLBA :
    (primaryHeader random s n h).firstUsableLBA.toNat =
    2 + (arraySize n).toNat / s.blockSize.toNat := by
  change (2 + (arraySize n).toUInt64 / s.blockSize).toNat = _
  have hle := Nat.div_le_self (arraySize n).toNat s.blockSize.toNat
  have hlt := (arraySize n).toNat_lt
  rw [toNat_add, toNat_div, UInt32.toNat_toUInt64]
  exact Nat.mod_eq_of_lt (by change 2 + _ < _; omega)

theorem toNat_alternateLBA :
    (primaryHeader random s n h).alternateLBA.toNat = (s.blocks + (2 ^ 64 - 1)) % 2 ^ 64 := by
  change (s.diskSize / s.blockSize - 1).toNat = _
  rw [toNat_sub, toNat_div]
  unfold Geometry.blocks
  change (2 ^ 64 - 1 + _) % _ = _
  rw [add_comm]

theorem toNat_lastUsableLBA (hs : 92 ≤ s.blockSize.toNat) :
    (primaryHeader random s n h).lastUsableLBA.toNat =
      (s.blocks + (2 ^ 64 - 2) + (2 ^ 64 - (arraySize n).toNat / s.blockSize.toNat)) % 2 ^ 64 := by
  have hheader : (if HeaderSize.toUInt64 < s.blockSize then s.blockSize else HeaderSize.toUInt64) /
      s.blockSize = 1 := by
    apply toNat.inj
    rw [toNat_div, toNat_larger, show HeaderSize.toUInt64.toNat = 92 from rfl, max_eq_right hs]
    exact Nat.div_self (by omega)
  change (s.diskSize / s.blockSize - (arraySize n).toUInt64 / s.blockSize -
    (if HeaderSize.toUInt64 < s.blockSize then s.blockSize else HeaderSize.toUInt64) / s.blockSize -
      1).toNat = _
  rw [hheader, toNat_sub, toNat_sub, toNat_sub, toNat_div, toNat_div, UInt32.toNat_toUInt64]
  unfold Geometry.blocks
  change (2 ^ 64 - 1 + (2 ^ 64 - 1 + _) % _) % _ = _
  omega

end Words

theorem update_ok {crc : List UInt8 → UInt32} {random : GUID} {s : Geometry} {g g' : GPT}
    (h : update crc random s g = .ok g') :
    0 < s.blockSize.toNat ∧ ∃ partitions,
      let primary : PartitionTable :=
        ⟨primaryHeader random s g.primary.partitions.length g.primary.header, partitions⟩
      layOut s primary.header.firstUsableLBA g.primary.partitions = .ok partitions ∧
        g' = { g with
          primary := primary.withCRCs crc
          backup := (backupTable primary).withCRCs crc
          logical := s.blockSize
          physical := s.physicalBlockSize
          optimal := s.optimalTransferLengthGranularity
          size := s.diskSize } := by
  unfold update at h
  by_cases hzero : s.blockSize = 0
  · rw [if_pos hzero] at h
    exact nomatch h
  · rw [if_neg hzero] at h
    obtain ⟨partitions, hlay, hok⟩ := ok_of_bind h
    cases hok
    exact ⟨Nat.pos_of_ne_zero fun h0 => hzero (toNat.inj h0), partitions, hlay, rfl⟩

/-- The regions by their numbers: block size, bytes of an array, first and last usable block, and
the blocks of the backup array and header. -/
def regionList (bs array first last backup final : Nat) : List (Nat × Nat) :=
  [(0, max bs 512), (1 * bs, 1 * bs + 92), (2 * bs, 2 * bs + array), (first * bs, (last + 1) * bs),
    (backup * bs, backup * bs + array), (final * bs, final * bs + 92)]

section Regions
variable {bs array first last backup final disk : Nat}

theorem regionList_apart (h : (regionList bs array first last backup final).Pairwise Apart)
    (harray : 0 < array) (hlast : last < 2 ^ 64) (hbackup : backup = (last + 1) % 2 ^ 64) :
    512 ≤ bs ∧ backup = last + 1 ∧ 2 * bs + array ≤ backup * bs ∧ 2 * bs + array ≤ first * bs := by
  simp only [regionList, pairwise_cons, forall_mem_cons, Apart] at h
  obtain ⟨⟨hmbr, -, -, hmbrBackup, -⟩, ⟨-, -, hheader, -⟩, ⟨husable, harrays, -⟩, -⟩ := h
  have hblock : 512 ≤ bs := by omega
  -- the backup array is behind the two blocks at the start
  have hfirst : backup ≠ 0 := by
    rintro rfl
    omega
  have hsecond : backup ≠ 1 := by
    rintro rfl
    omega
  have htwo : 2 * bs ≤ backup * bs := Nat.mul_le_mul_right bs (by omega)
  have hsame : backup = last + 1 := by omega
  rw [← hsame] at husable
  exact ⟨hblock, hsame, by omega, by omega⟩

theorem backup_mem_regionList :
    (backup * bs, backup * bs + array) ∈ regionList bs array first last backup final := by
  simp [regionList]

section
variable (hbs : 512 ≤ bs) (hfirst : first * bs = 2 * bs + array) (hle : first ≤ backup)
  (hlast : last + 1 = backup)
variable (hfinal : final * bs = backup * bs + array)
include hbs hfirst hle hlast hfinal

theorem regionList_inside (hdisk : final * bs + bs ≤ disk) :
    ∀ r ∈ regionList bs array first last backup final, r.2 ≤ disk := by
  have hmul : first * bs ≤ backup * bs := Nat.mul_le_mul_right bs hle
  simp only [regionList, forall_mem_cons, hlast]
  refine ⟨?_, ?_, ?_, ?_, ?_, ?_, nofun⟩ <;> omega

theorem apart_regionList : (regionList bs array first last backup final).Pairwise Apart := by
  have hmul : first * bs ≤ backup * bs := Nat.mul_le_mul_right bs hle
  simp only [regionList, pairwise_cons, forall_mem_cons, Apart, hlast]
  refine ⟨⟨?_, ?_, ?_, ?_, ?_, nofun⟩, ⟨?_, ?_, ?_, ?_, nofun⟩, ⟨?_, ?_, ?_, nofun⟩,
    ⟨?_, ?_, nofun⟩, ⟨?_, nofun⟩, nofun, List.Pairwise.nil⟩ <;> omega

end

end Regions

section Update
variable {s : Geometry} {n : Nat} {l : List PartitionEntry}
  {crc : List UInt8 → UInt32}

theorem regions_eq {random : GUID} {h : Header} (hn : l.length = n) {g : GPT}
    (hprimary : g.primary = PartitionTable.withCRCs crc ⟨primaryHeader random s n h, l⟩)
    (hbackup : g.backup = (backupTable ⟨primaryHeader random s n h, l⟩).withCRCs crc) :
    g.regions s.blockSize.toNat = regionList s.blockSize.toNat
      (128 * max ((arraySize n).toNat / 128) n)
      (2 + (arraySize n).toNat / s.blockSize.toNat) (primaryHeader random s n h).lastUsableLBA.toNat
        (((primaryHeader random s n h).lastUsableLBA.toNat + 1) % 2 ^ 64)
        ((s.blocks + (2 ^ 64 - 1)) % 2 ^ 64) := by
  have hcount := toNat_numberOfPartitionEntries random s n h
  have hfirst := toNat_firstUsableLBA random s n h
  have halternate := toNat_alternateLBA random s n h
  have hnext : ((primaryHeader random s n h).lastUsableLBA + 1).toNat =
      ((primaryHeader random s n h).lastUsableLBA.toNat + 1) % 2 ^ 64 := toNat_add _ _
  unfold GPT.regions regionList PartitionTable.arrayBytes
  rw [hprimary, hbackup]
  simp only [PartitionTable.withCRCs, backupTable]
  rw [hcount, hfirst, halternate, hnext, hn]
  rfl

theorem not_rangesFit {first last : Nat} (hs : 0 < s.blockSize.toNat) (hfirst : 0 < first)
    {ranges : List (Nat × Nat)} (h : ∃ r ∈ ranges, r.1 < s.unit / s.blockSize.toNat) :
    ¬ RangesFit s first last ranges := by
  obtain ⟨r, hr, hlt⟩ := h
  intro hfit
  have hlow := (hfit.inside r hr).1
  have hbytes : r.1 * s.blockSize.toNat < s.unit :=
    lt_of_lt_of_le (Nat.mul_lt_mul_of_pos_right hlt hs) (Nat.div_mul_le_self _ _)
  have hzero := Nat.eq_zero_of_dvd_of_lt (hfit.aligned r hr) hbytes
  rcases Nat.mul_eq_zero.mp hzero with hzero' | hzero' <;> omega

end Update

theorem numbers_of_apart {bs n D disk last : Nat} (hD : D = disk / bs) (hdisk : disk < 2 ^ 64)
    (hlast : 92 ≤ bs → last = (D + (2 ^ 64 - 2) + (2 ^ 64 - (arraySize n).toNat / bs)) % 2 ^ 64)
    (hword : last < 2 ^ 64)
    (hapart : (regionList bs (128 * max ((arraySize n).toNat / 128) n) (2 + (arraySize n).toNat / bs) last
      ((last + 1) % 2 ^ 64) ((D + (2 ^ 64 - 1)) % 2 ^ 64)).Pairwise Apart)
    (hinside : (last + 1) % 2 ^ 64 * bs + 128 * max ((arraySize n).toNat / 128) n ≤ disk) :
    512 ≤ bs ∧ 128 * n < 2 ^ 32 ∧ (arraySize n).toNat = exactArray n ∧ bs ∣ exactArray n ∧
      2 * (exactArray n / bs) + 3 ≤ D ∧ last = D - exactArray n / bs - 2 := by
  have hsize := toNat_arraySize n
  generalize (arraySize n).toNat = pw at *
  obtain ⟨hbs, hbackup, harrays, husable⟩ := regionList_apart hapart (by omega) hword rfl
  rw [hbackup] at harrays hinside
  rw [add_mul] at husable
  have hdiv := Nat.div_mul_le_self pw bs
  have hexact : pw = exactArray n := by
    unfold exactArray
    omega
  have hwhole : pw / bs * bs = pw := by omega
  have hlow : 2 + pw / bs ≤ last + 1 := by
    apply Nat.le_of_mul_le_mul_right ?_ (by omega : 0 < bs)
    rw [add_mul]
    omega
  have hhigh : last + 1 + pw / bs ≤ D := by
    rw [hD, Nat.le_div_iff_mul_le (by omega), add_mul]
    omega
  have hvalue := hlast (by omega)
  have hDlt : D < 2 ^ 64 := by
    have hle := Nat.div_le_self disk bs
    omega
  have hdvd : bs ∣ pw := ⟨pw / bs, by rw [mul_comm, hwhole]⟩
  rw [← hexact]
  refine ⟨hbs, by omega, rfl, hdvd, ?_⟩
  generalize pw / bs = blocks at hlow hhigh hvalue
  omega

/-- An update that succeeds leaves a realizable layout exactly for the arguments that ask for
one. -/
theorem update_realizable_iff {crc : List UInt8 → UInt32} {random : GUID} {s : Geometry}
    {g g' : GPT} (h : update crc random s g = .ok g') :
    Realizable s g' ↔ Placeable s g.primary.partitions := by
  obtain ⟨hs, partitions, hlay, hg⟩ := update_ok h
  have hprimary := congrArg GPT.primary hg
  have hregions := regions_eq (layOut_length hlay) hprimary (congrArg GPT.backup hg)
  clear hg h
  generalize g.primary.partitions = l at *
  generalize g.primary.header = header at *
  have hfirst := toNat_firstUsableLBA random s l.length header
  have hlast := toNat_lastUsableLBA random s l.length header
  have hword := (primaryHeader random s l.length header).lastUsableLBA.toNat_lt
  have hranges : RangesFit s g'.primary.header.firstUsableLBA.toNat
    g'.primary.header.lastUsableLBA.toNat
        (usedRanges g'.primary.partitions) ↔
      RangesFit s (primaryHeader random s l.length header).firstUsableLBA.toNat
        (primaryHeader random s l.length header).lastUsableLBA.toNat (usedRanges partitions) := by
    rw [hprimary]
    rfl
  have hblocks : 2 ≤ s.blockSize.toNat → _ := fun hb => layOut_ranges hb hlay
  dsimp only at hblocks
  rw [hfirst] at hblocks hranges
  generalize (primaryHeader random s l.length header).lastUsableLBA.toNat = last at *
  constructor
  · intro hreal
    have hapart := hreal.apart
    have hinside := hreal.inside
    rw [hregions] at hapart hinside
    obtain ⟨hb, hentries, hexact, hdvd, hroom, hvalue⟩ :=
      numbers_of_apart rfl s.diskSize.toNat_lt hlast hword hapart
      (hinside _ backup_mem_regionList)
    have hfit := hranges.mp hreal.partitions
    rw [hexact] at hfit hblocks
    refine ⟨hb, hentries, hdvd, hroom, ?_⟩
    rcases hblocks (by omega) with heq | ⟨hlow, _⟩
    · rw [heq, hvalue] at hfit
      exact hfit
    · exact absurd hfit (not_rangesFit hs (by omega) hlow)
  · intro hplace
    obtain ⟨hb, hentries, hdvd, hroom, hfit⟩ := hplace
    have hexact : (arraySize l.length).toNat = exactArray l.length := by
      rw [toNat_arraySize, Nat.mod_eq_of_lt hentries]
      rfl
    have hcount : 128 * max (exactArray l.length / 128) l.length =
        exactArray l.length := by
      unfold exactArray
      omega
    have hvalue := hlast (by omega)
    rw [hexact] at hregions hblocks hranges hvalue
    rw [hcount] at hregions
    have hdisk := Nat.div_mul_le_self s.diskSize.toNat s.blockSize.toNat
    have hsmall := Nat.div_le_self s.diskSize.toNat s.blockSize.toNat
    have hsize := s.diskSize.toNat_lt
    have hwhole := Nat.div_mul_cancel hdvd
    change s.blocks * _ ≤ _ at hdisk
    change s.blocks ≤ _ at hsmall
    unfold Geometry.arrayBlocks at hroom hfit
    generalize exactArray l.length / s.blockSize.toNat = blocks at *
    have hlastValue : last = s.blocks - blocks - 2 := by omega
    have hbackup : (last + 1) % 2 ^ 64 = s.blocks - blocks - 1 := by omega
    have hfinal : (s.blocks + (2 ^ 64 - 1)) % 2 ^ 64 = s.blocks - 1 := by omega
    rw [hbackup, hfinal] at hregions
    have hfirstBytes : (2 + blocks) * s.blockSize.toNat =
        2 * s.blockSize.toNat + exactArray l.length := by rw [add_mul, hwhole]
    have hfinalBytes : (s.blocks - 1) * s.blockSize.toNat =
        (s.blocks - blocks - 1) * s.blockSize.toNat + exactArray l.length := by
      have hsum : s.blocks - 1 = s.blocks - blocks - 1 + blocks := by omega
      rw [hsum, add_mul, hwhole]
    have hend : (s.blocks - 1) * s.blockSize.toNat + s.blockSize.toNat ≤ s.diskSize.toNat := by
      have hone : s.blockSize.toNat ≤ s.blocks * s.blockSize.toNat :=
        Nat.le_mul_of_pos_left _ (by omega)
      rw [Nat.sub_mul, one_mul, Nat.sub_add_cancel hone]
      exact hdisk
    refine ⟨?_, ?_, hranges.mpr ?_⟩
    · rw [hregions]
      exact regionList_inside hb hfirstBytes (by omega) (by omega) hfinalBytes hend
    · rw [hregions]
      exact apart_regionList hb hfirstBytes (by omega) (by omega) hfinalBytes
    · rw [hlastValue]
      rcases hblocks (by omega) with heq | ⟨_, ⟨r, hr, hbad⟩⟩
      · rw [heq]
        exact hfit
      · have hrange := (hfit.inside r hr).2.1
        omega

section Samples

def bareGPT (l : List PartitionEntry) : GPT :=
  let record : PartitionRecord := ⟨0, zeroBytes 3, 0, zeroBytes 3, 0, 0⟩
  let header : Header :=
    ⟨zeroBytes 8, zeroBytes 4, 0, 0, zeroBytes 4, 0, 0, 0, 0, GUIDUnused, 0, 0, 0, 0⟩
  ⟨⟨zeroBytes 424, zeroBytes 16, 0, zeroBytes 2, (record, record, record, record), 0⟩, ⟨header, l⟩,
    ⟨header, []⟩, 0, 0, 0, 0⟩

def bareEntry (first last : UInt64) : PartitionEntry :=
  ⟨GUIDUnused, ⟨1, 0, 0, 0, 0, zeroBytes 6⟩, first, last, 0, zeroBytes 72⟩

/-- Two partitions, one without a start, on a disk of one mebibyte. -/
theorem twoPartitions_realizable :
    ∃ g', update (fun _ => 0) GUIDUnused ⟨512, 4096, 0, 1048576⟩
      (bareGPT [bareEntry 0 100, bareEntry 104 200]) = .ok g' ∧
      Realizable ⟨512, 4096, 0, 1048576⟩ g' := by
  have hplace : Placeable ⟨512, 4096, 0, 1048576⟩ [bareEntry 0 100, bareEntry 104 200] := by
    refine ⟨by decide, by decide, by decide, by decide, ?_⟩
    exact ⟨by decide +kernel, by decide +kernel, by decide +kernel⟩
  obtain ⟨g', h⟩ : ∃ g', update (fun _ => 0) GUIDUnused ⟨512, 4096, 0, 1048576⟩
      (bareGPT [bareEntry 0 100, bareEntry 104 200]) = .ok g' := ⟨_, rfl⟩
  exact ⟨g', h, (update_realizable_iff h).mpr hplace⟩

/-- Two partitions on the same blocks are accepted. -/
theorem overlapping_partitions_accepted :
    ∃ g', update (fun _ => 0) GUIDUnused ⟨512, 512, 0, 1048576⟩
      (bareGPT [bareEntry 34 100, bareEntry 34 100]) = .ok g' ∧
      ¬ Realizable ⟨512, 512, 0, 1048576⟩ g' := by
  refine ⟨_, rfl, fun hreal => ?_⟩
  exact absurd hreal.partitions.apart (by decide +kernel)

end Samples

end Garnet.Gpt
