import Garnet.Gpt.RoundTrip

/-! For which geometries a table that was updated and written is read back. With blocks of 512 bytes
the primary table is always in its place; the backup header is behind the backup array and the zeros
that complete the running total, and `ReadGPT` looks for it one block before the end of the disk.
With larger blocks the primary header is written too early. -/

namespace Garnet.Gpt
open List
open List (replicate)

/-- The geometries the round trip is asked of: blocks of a power of two, and room for both tables on
a disk that can be sought in. -/
structure Geometry.Large (s : Geometry) (n : Nat) : Prop where
  power : ∃ k, s.blockSize.toNat = 2 ^ k
  least : 512 ≤ s.blockSize.toNat
  word : s.diskSize.toNat < 2 ^ 63
  room : 3 * s.blockSize.toNat + 2 * roundUp s.blockSize.toNat (exactArray n) ≤ s.diskSize.toNat

/-- A table of `n` entries after `Update`, with the entries as they were laid out. -/
structure Updated (crc : List UInt8 → UInt32) (random : GUID) (s : Geometry) (n : Nat) (h : Header)
    (l : List PartitionEntry)
    (g : GPT) : Prop where
  primary : g.primary = updatedPrimary crc random s n h l
  backup : g.backup = updatedBackup crc random s n h l
  logical : g.logical = s.blockSize
  length : l.length = n
  laid : ∃ next asked, layOut s next asked = .ok l

variable {crc : List UInt8 → UInt32} {random : GUID} {s : Geometry} {n : Nat} {h : Header}
  {l : List PartitionEntry} {g : GPT}

theorem updated_of_update {g' : GPT} (hupdate : update crc random s g = .ok g') :
    ∃ l, Updated crc random s g.primary.partitions.length g.primary.header l g' := by
  obtain ⟨_, l, hlaid, hg⟩ := update_ok hupdate
  refine ⟨l, ?_, ?_, ?_, layOut_length hlaid, _, _, hlaid⟩
  · rw [hg]
    rfl
  · rw [hg]
    rfl
  · rw [hg]

def EndsAtHeader (s : Geometry) (n : Nat) : Prop :=
  s.diskSize.toNat % 512 = exactArray n % 512 + backupFill (2 * exactArray n)

theorem backupFill_array (n : Nat) :
    backupFill (1024 + exactArray n + exactArray n) = backupFill (2 * exactArray n) := by
  unfold backupFill
  omega

namespace Updated

theorem exact_array (hentries : 128 * n < 2 ^ 32) : (arraySize n).toNat = exactArray n := by
  rw [toNat_arraySize, Nat.mod_eq_of_lt hentries]
  rfl

variable (hu : Updated crc random s n h l g)
include hu

theorem padding (hentries : 128 * n < 2 ^ 32) :
    g.primary.header.numberOfPartitionEntries.toNat = max 128 n ∧
    g.primary.arrayPad = (exactArray n - n * 128 : Nat) := by
  have hcount := toNat_numberOfPartitionEntries random s n h
  rw [exact_array hentries] at hcount
  have hmax : max 128 n * 128 = exactArray n := by
    unfold exactArray
    omega
  have hsmall : exactArray n < 2 ^ 32 := by
    unfold exactArray
    omega
  have hnumber : (primaryHeader random s n h).numberOfPartitionEntries.toNat = max 128 n := by omega
  refine ⟨?_, ?_⟩
  · rw [hu.primary]
    exact hnumber
  · have hproduct : ((primaryHeader random s n h).numberOfPartitionEntries * PartitionEntrySize).toNat =
        exactArray n := by
      rw [UInt32.toNat_mul, hnumber]
      change max 128 n * 128 % 2 ^ 32 = _
      rw [hmax, Nat.mod_eq_of_lt hsmall]
    rw [hu.primary]
    change (((primaryHeader random s n h).numberOfPartitionEntries * PartitionEntrySize).toNat : Int) -
      ((l.length * 128 : Nat) : Int) = _
    rw [hproduct, hu.length]
    omega

theorem place (hlarge : s.Large n) (hentries : 128 * n < 2 ^ 32) :
    toInt64 (g.backup.header.partitionEntryLBA * s.blockSize) =
      ((s.blocks - exactArray n / s.blockSize.toNat - 1) * s.blockSize.toNat : Nat) ∧
        3 + 2 * (exactArray n / s.blockSize.toNat) ≤ s.blocks := by
  have hword := hlarge.word
  have hleast := hlarge.least
  have hlast := toNat_lastUsableLBA random s n h (by omega)
  rw [exact_array hentries] at hlast
  have hroom : 3 + 2 * (exactArray n / s.blockSize.toNat) ≤ s.blocks := by
    have hround : exactArray n / s.blockSize.toNat * s.blockSize.toNat ≤
        roundUp s.blockSize.toNat (exactArray n) :=
      le_trans (Nat.div_mul_le_self _ _) (le_roundUp (by omega) _)
    unfold Geometry.blocks
    rw [Nat.le_div_iff_mul_le (by omega), add_mul, mul_assoc]
    have hlarge := hlarge.room
    omega
  have htotal : s.blocks * s.blockSize.toNat ≤ s.diskSize.toNat := Nat.div_mul_le_self _ _
  have hblocks : s.blocks ≤ s.diskSize.toNat := Nat.div_le_self _ _
  refine ⟨?_, hroom⟩
  have hplace : (g.backup.header.partitionEntryLBA * s.blockSize).toNat =
      (s.blocks - exactArray n / s.blockSize.toNat - 1) * s.blockSize.toNat := by
    rw [hu.backup]
    change (((primaryHeader random s n h).lastUsableLBA + 1) * s.blockSize).toNat = _
    rw [UInt64.toNat_mul, UInt64.toNat_add]
    change ((primaryHeader random s n h).lastUsableLBA.toNat + 1) % 2 ^ 64 * _ % 2 ^ 64 = _
    generalize exactArray n / s.blockSize.toNat = array at *
    have hless := Nat.mul_le_mul_right s.blockSize.toNat (by omega : s.blocks - array - 1 ≤ s.blocks)
    have hindex : ((primaryHeader random s n h).lastUsableLBA.toNat + 1) % 2 ^ 64 =
        s.blocks - array - 1 := by omega
    rw [hindex, Nat.mod_eq_of_lt (by omega)]
  have hless := Nat.mul_le_mul_right s.blockSize.toNat
    (by omega : s.blocks - exactArray n / s.blockSize.toNat - 1 ≤ s.blocks)
  rw [toInt64_of_lt (by omega), hplace]

/-- With blocks of 512 bytes: where the backup array is, and that it leaves no more than its block
behind the array for the header. -/
theorem numbers (hlarge : s.Large n) (hblock : s.blockSize = 512) (hentries : 128 * n < 2 ^ 32) :
    g.primary.header.numberOfPartitionEntries.toNat = max 128 n ∧
      g.primary.arrayPad = (exactArray n - n * 128 : Nat) ∧
      ∃ place, toInt64 (g.backup.header.partitionEntryLBA * 512) = (place : Nat) ∧
        1024 + exactArray n ≤ place ∧
        place + exactArray n + 512 + s.diskSize.toNat % 512 =
          s.diskSize.toNat + exactArray n % 512 := by
  have hbs : s.blockSize.toNat = 512 := by
    rw [hblock]
    rfl
  have hroom := hlarge.room
  have hround := le_roundUp (m := 512) (by decide) (exactArray n)
  obtain ⟨k, hk⟩ := dvd_roundUp 512 (exactArray n)
  obtain ⟨hplace, _⟩ := hu.place hlarge hentries
  have hblocks : s.blocks = s.diskSize.toNat / 512 := by rw [Geometry.blocks, hbs]
  rw [hbs] at hroom hplace
  rw [hblock] at hplace
  obtain ⟨hcount, hpad⟩ := hu.padding hentries
  refine ⟨hcount, hpad, (s.blocks - exactArray n / 512 - 1) * 512, hplace, ?_, ?_⟩
  · omega
  · omega

section
variable (hcount : g.primary.header.numberOfPartitionEntries.toNat = max 128 n)
include hcount

theorem filled_array :
    g.primary.filled = ⟨g.primary.header, l ++ replicate (max 128 n - n) zeroEntry⟩ ∧
      g.backup.filled = ⟨g.backup.header, l ++ replicate (max 128 n - n) zeroEntry⟩ ∧
        entryCodec.encodeAll l ++ replicate (exactArray n - n * 128) 0 =
          entryCodec.encodeAll (l ++ replicate (max 128 n - n) zeroEntry) ∧
            (l ++ replicate (max 128 n - n) zeroEntry).length = max 128 n := by
  have hlen := hu.length
  have hparts : g.primary.partitions = l := by
    rw [hu.primary]
    rfl
  have hparts' : g.backup.partitions = l := by
    rw [hu.backup]
    rfl
  have hcount' : g.backup.header.numberOfPartitionEntries.toNat = max 128 n := by
    rw [hu.backup]
    rw [hu.primary] at hcount
    exact hcount
  refine ⟨?_, ?_, ?_, ?_⟩
  · unfold PartitionTable.filled
    rw [hcount, hparts, hlen]
  · unfold PartitionTable.filled
    rw [hcount', hparts', hlen]
  · have hexact : max 128 n * 128 = exactArray n := by
      unfold exactArray
      omega
    rw [Codec.encodeAll_append, encodeAll_zeroEntry, Nat.sub_mul, hexact]
  · rw [length_append, length_replicate, hlen]
    omega

theorem read_primary {disk rest : List UInt8}
    (hdisk : disk = primaryImage g 512 (exactArray n - n * 128) ++ rest) :
    readAt disk mbrCodec.size 0 = .ok (mbrCodec.encode g.mbr) ∧
      readTable crc 512 disk (toInt64 512) = .ok g.primary.filled := by
  obtain ⟨hfilled, _, harray, hlength⟩ := hu.filled_array hcount
  have hmbr := mbr_length g.mbr
  have hheader := header_length g.primary.header
  have hparts : g.primary.partitions = l := by
    rw [hu.primary]
    rfl
  generalize l ++ replicate (max 128 n - n) zeroEntry = filled at *
  have hat : disk = mbrCodec.encode g.mbr ++ (headerCodec.encode g.primary.header ++
      (replicate 420 0 ++ (entryCodec.encodeAll filled ++ rest))) := by
    rw [hdisk, primaryImage, hparts, ← harray]
    simp only [append_assoc]
  constructor
  · have hstart : disk = [] ++ (mbrCodec.encode g.mbr ++ disk.drop 512) := by
      rw [hat, drop_left' hmbr]
      rfl
    exact readAt_eq hstart (mbrCodec.encode_length _) rfl
  · have hentries : disk = (mbrCodec.encode g.mbr ++
      (headerCodec.encode g.primary.header ++ replicate 420 0)) ++
        (entryCodec.encodeAll filled ++ rest) := by
      rw [hat]
      simp only [append_assoc]
    have htwo : g.primary.header.partitionEntryLBA = 2 := by
      rw [hu.primary]
      rfl
    rw [hfilled]
    apply readTable_eq hat (by rw [hmbr]; rfl) ?_ ?_ (by rw [hlength]; exact hcount)
      (by omega) hentries
    · simp only [length_append, length_replicate, hmbr, hheader, htwo]
      decide
    · rw [hu.primary]
      rfl
    · rw [hu.primary]
      rfl

theorem read_backup {disk before between after : List UInt8} {pos : Int}
    (hdisk : disk = before ++ entryCodec.encodeAll g.backup.partitions ++
      replicate (exactArray n - n * 128) 0 ++ between ++
      headerCodec.encode g.backup.header ++ after)
    (hplace : toInt64 (g.backup.header.partitionEntryLBA * 512) = before.length)
    (hpos : pos = (before.length + exactArray n + between.length : Nat)) :
    readTable crc 512 disk pos = .ok g.backup.filled := by
  obtain ⟨_, hfilled, harray, hlength⟩ := hu.filled_array hcount
  have hexact : max 128 n * 128 = exactArray n := by
    unfold exactArray
    omega
  have hparts : g.backup.partitions = l := by
    rw [hu.backup]
    rfl
  have hcount' : g.backup.header.numberOfPartitionEntries.toNat = max 128 n := by
    rw [hu.backup]
    rw [hu.primary] at hcount
    exact hcount
  generalize l ++ replicate (max 128 n - n) zeroEntry = filled at *
  have hbytes := entries_length filled
  rw [hlength, hexact] at hbytes
  have hat : disk = before ++ (entryCodec.encodeAll filled ++
      (between ++ (headerCodec.encode g.backup.header ++ after))) := by
    rw [hdisk, hparts, ← harray]
    simp only [append_assoc]
  have hheaderAt : disk = (before ++ (entryCodec.encodeAll filled ++ between)) ++
      (headerCodec.encode g.backup.header ++ after) := by
    rw [hat]
    simp only [append_assoc]
  rw [hfilled]
  apply readTable_eq hheaderAt ?_ ?_ ?_ (by rw [hlength]; exact hcount') (by omega) hat hplace
  · rw [hpos, length_append, length_append, hbytes]
    omega
  · rw [hu.backup]
    rfl
  · rw [hu.backup]
    rfl

end

theorem array_length : g.primary.partitions.length * 128 + (exactArray n - n * 128) = exactArray n ∧
      g.backup.partitions.length * 128 + (exactArray n - n * 128) = exactArray n := by
  have hle : n * 128 + (exactArray n - n * 128) = exactArray n := by
    unfold exactArray
    omega
  have hprimary : g.primary.partitions.length = n := by
    rw [hu.primary]
    exact hu.length
  have hbackup : g.backup.partitions.length = n := by
    rw [hu.backup]
    exact hu.length
  rw [hprimary, hbackup]
  exact ⟨hle, hle⟩

theorem write_primary (hpad : g.primary.arrayPad = (exactArray n - n * 128 : Nat))
    (disk : List UInt8) (hroom : 1024 + exactArray n ≤ disk.length) :
    (primaryImage g 512 (exactArray n - n * 128)).length = 1024 + exactArray n ∧
      ∃ o, g.writePrimary 512 disk = .ok o ∧
        o.Behind disk.length (primaryImage g 512 (exactArray n - n * 128))
          (primaryImage g 512 (exactArray n - n * 128)).length := by
  have harray := hu.array_length.1
  have hlength : (primaryImage g 512 (exactArray n - n * 128)).length = 1024 + exactArray n := by
    rw [primaryImage_length]
    omega
  exact ⟨hlength, writePrimary_eq (by decide : 512 ≤ 512) hpad (by rw [hlength]; exact hroom)⟩

theorem writeTo_split (hlarge : s.Large n) (disk : List UInt8) : g.writeTo disk = (do
      let o ← g.writePrimary s.blockSize.toNat disk
      let o ← g.writeBackup s.blockSize s.blockSize.toNat o
      return o.disk) := by
  have hroom := hlarge.room
  have hword := hlarge.word
  have hleast := hlarge.least
  have hzero : ¬ s.blockSize = 0 := by
    intro hzero
    rw [hzero] at hleast
    exact absurd hleast (by decide)
  unfold GPT.writeTo
  rw [hu.logical, if_neg hzero]
  dsimp only
  rw [toInt64_of_lt (by omega)]

section
variable {disk : List UInt8} (hlarge : s.Large n) (hblock : s.blockSize = 512)
  (hentries : 128 * n < 2 ^ 32)
include hlarge hblock hentries

theorem written {place : Nat} (hplace : toInt64 (g.backup.header.partitionEntryLBA * 512) = place)
    (hlow : 1024 + exactArray n ≤ place)
    (hend : place + exactArray n + 512 + s.diskSize.toNat % 512 =
      s.diskSize.toNat + exactArray n % 512)
    {disk' : List UInt8} (hdisk : disk.length = s.diskSize.toNat)
    (hok : g.writeTo disk = .ok disk') :
    ∃ gap rest, 1024 + exactArray n + gap.length = place ∧
      place + exactArray n + backupFill (2 * exactArray n) + 512 ≤ s.diskSize.toNat ∧
        disk' = primaryImage g 512 (exactArray n - n * 128) ++ gap ++
          entryCodec.encodeAll g.backup.partitions ++
          replicate (exactArray n - n * 128) 0 ++ replicate (backupFill (2 * exactArray n)) 0 ++
            headerCodec.encode g.backup.header ++ (replicate 420 0 ++ rest) := by
  obtain ⟨_, hpad⟩ := hu.padding hentries
  have hword := Nat.mod_lt s.diskSize.toNat (by decide : 0 < 512)
  have hmod := Nat.mod_lt (exactArray n) (by decide : 0 < 512)
  obtain ⟨hlength, o, hprimary, hbehind⟩ := hu.write_primary hpad disk (by omega)
  have harray := hu.array_length.2
  rw [hu.writeTo_split hlarge, hblock, show ((512 : UInt64).toNat : Int) = 512 from rfl, hprimary,
    ok_bind] at hok
  obtain ⟨o', hbackup, hdone⟩ := ok_of_bind hok
  cases hdone
  obtain ⟨hfits, gap, rest, hgap, himage⟩ :=
    writeBackup_ok hbehind hpad (by rw [harray, hlength, backupFill_array]) hplace
    (by omega) (by omega) hbackup
  refine ⟨gap, rest, by omega, by omega, ?_⟩
  rw [himage, backupImage]
  simp only [append_assoc]

theorem roundTrip (hend : EndsAtHeader s n) (hdisk : disk.length = s.diskSize.toNat) :
    RoundTrip crc s disk g := by
  obtain ⟨hcount, hpad, place, hplace, hlow, hsum⟩ := hu.numbers hlarge hblock hentries
  unfold EndsAtHeader at hend
  have hword := Nat.mod_lt s.diskSize.toNat (by decide : 0 < 512)
  obtain ⟨hlength, o, hprimary, hbehind⟩ := hu.write_primary hpad disk (by omega)
  have harray := hu.array_length.2
  obtain ⟨o', hbackup⟩ :=
    writeBackup_eq hbehind hpad (by rw [harray, hlength, backupFill_array]) hplace
    (by omega) (by omega)
  have hwrite : g.writeTo disk = .ok o'.disk := by
    rw [hu.writeTo_split hlarge, hblock, show ((512 : UInt64).toNat : Int) = 512 from rfl, hprimary,
      ok_bind, hbackup]
    rfl
  obtain ⟨gap, rest, hgap, hfits, himage⟩ :=
    hu.written hlarge hblock hentries hplace hlow hsum hdisk hwrite
  have hfront := himage
  simp only [append_assoc] at hfront
  have hreadPrimary := hu.read_primary hcount hfront
  have hreadBackup : readTable crc 512 o'.disk (toInt64 (s.diskSize - 512)) =
      .ok g.backup.filled := by
    have hsub : (s.diskSize - 512).toNat = s.diskSize.toNat - 512 :=
      UInt64.toNat_sub_of_le _ _ (UInt64.le_iff_toNat_le.mpr (by change 512 ≤ _; omega))
    have hlimit := hlarge.word
    apply hu.read_backup hcount himage
    · rw [hplace, length_append, hlength]
      omega
    · rw [toInt64_of_lt (by omega), hsub, length_append, length_replicate, hlength]
      omega
  refine ⟨o'.disk, ⟨g.mbr, g.primary.filled, g.backup.filled, 0, 0, 0, 0⟩, hwrite, ?_, rfl, rfl,
    rfl, ?_⟩
  · unfold readGPT
    rw [hblock, hreadPrimary.1, ok_bind, hreadPrimary.2, ok_bind, hreadBackup,
      ok_bind, mbrCodec.decode_encode]
    rfl
  · exact validate_updated (by rw [hu.primary]; rfl) (by rw [hu.backup]; rfl)

end

end Updated

end Garnet.Gpt
