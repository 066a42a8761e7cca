import Garnet.Gpt.Disk

/-! Which checksums hold of a table that was read and validated. `Validate` recomputes those of the
headers; those of the partition arrays are in the headers, and nothing compares them with the
arrays. -/

namespace Garnet.Gpt

section Validate
variable {crc : List UInt8 → UInt32} {blockSize : UInt64} {disk : List UInt8} {pos : Int}

/-- The bytes of `n` entries on the disk, with `pad` bytes after each. -/
def entryBytes (disk : List UInt8) (pad : Int) : Nat → Int → List UInt8
  | 0, _ => []
  | n + 1, pos =>
    slice entryCodec.size pos.toNat disk ++ entryBytes disk pad n (pos + entryCodec.size + pad)

theorem readEntries_bytes {pad : Int} {n : Nat} {l : List PartitionEntry}
    (h : readEntries disk pad n pos = .ok l) :
    l.length = n ∧ entryCodec.encodeAll l = entryBytes disk pad n pos := by
  induction n generalizing pos l with
  | zero =>
    cases h
    exact ⟨rfl, rfl⟩
  | succ n ih =>
    obtain ⟨b, hb, h⟩ := ok_of_bind h
    obtain ⟨rest, hrest, h⟩ := ok_of_bind h
    cases h
    obtain ⟨hlen, hbytes⟩ := ih hrest
    have hslice : b = slice entryCodec.size pos.toNat disk ∧ b.length = entryCodec.size := by
      obtain ⟨-, hb⟩ := ok_of_check hb
      obtain ⟨hin, hb⟩ := ok_of_guard hb
      cases hb
      exact ⟨rfl, slice_length hin⟩
    refine ⟨congrArg (· + 1) hlen, ?_⟩
    rw [entryBytes, ← hbytes, ← hslice.1]
    exact congrArg (· ++ entryCodec.encodeAll rest) (entryCodec.encode_decode b hslice.2)

/-- How many entries `ReadGPT` reads: those of the smallest array, or as many as the header says. -/
def Header.entries (h : Header) : UInt32 :=
  if MinPartitionEntryArraySize / h.sizeOfPartitionEntry < h.numberOfPartitionEntries then
    h.numberOfPartitionEntries
  else MinPartitionEntryArraySize / h.sizeOfPartitionEntry

/-- The header at a position of the disk, with the usual size of an entry in place of none. -/
def headerAt (disk : List UInt8) (pos : Int) : Header :=
  let header := headerCodec.decode (slice headerCodec.size pos.toNat disk)
  if header.sizeOfPartitionEntry = 0 then { header with sizeOfPartitionEntry := PartitionEntrySize } else header

/-- The checksum in the header at `pos` is the one of the array on the disk. -/
def ArrayIntact (crc : List UInt8 → UInt32) (blockSize : UInt64) (disk : List UInt8) (pos : Int) :
    Prop :=
  let header := headerAt disk pos
  header.partitionEntryArrayCRC32 = crc (entryBytes disk
    (header.sizeOfPartitionEntry - PartitionEntrySize).toNat
    header.entries.toNat (toInt64 (header.partitionEntryLBA * blockSize)))

theorem Header.le_entries (h : Header) : h.numberOfPartitionEntries ≤ h.entries := by
  unfold Header.entries
  split
  next => exact UInt32.le_refl _
  next hge => exact UInt32.not_lt.mp hge

theorem readTable_array {pt : PartitionTable} (h : readTable crc blockSize disk pos = .ok pt)
    (hcrc : pt.computeHeaderCRC32 crc = pt.header.headerCRC32) :
    pt.header.partitionEntryArrayCRC32 = pt.computePartitionArrayCRC32 crc ↔
    ArrayIntact crc blockSize disk pos := by
  obtain ⟨b, hb, h⟩ := ok_of_bind h
  obtain ⟨-, hb⟩ := ok_of_check hb
  obtain ⟨-, hb⟩ := ok_of_guard hb
  obtain rfl := Except.ok.inj hb
  unfold ArrayIntact headerAt
  dsimp only at h ⊢
  generalize headerCodec.decode (slice headerCodec.size pos.toNat disk) = raw at h ⊢
  split at h
  next =>
    obtain ⟨_, -, h⟩ := ok_of_bind h
    obtain ⟨l, hl, h⟩ := ok_of_bind h
    obtain ⟨hlen, hbytes⟩ := readEntries_bytes hl
    obtain rfl := Except.ok.inj h
    have hloc : (if raw.sizeOfPartitionEntry = 0 then
      { raw with sizeOfPartitionEntry := PartitionEntrySize }
        else raw).partitionEntryLBA = raw.partitionEntryLBA := by
      split <;> rfl
    generalize (if raw.sizeOfPartitionEntry = 0 then _ else raw) = header at *
    have hnone : header.numberOfPartitionEntries.toNat - (UInt32.ofNat l.length).toNat = 0 := by
      have hle := UInt32.le_iff_toNat_le.mp header.le_entries
      change l.length = header.entries.toNat at hlen
      rw [hlen, UInt32.ofNat_toNat]
      omega
    rw [PartitionTable.computePartitionArrayCRC32, PartitionTable.arrayEntries, hnone,
      List.replicate_zero, List.append_nil, hbytes, ← hloc]
    rfl
  next hne =>
    obtain rfl := Except.ok.inj h
    exact absurd hcrc hne

/-- `Validate` recomputes the checksums of the headers only. -/
theorem validate_checksums_iff (crc : List UInt8 → UInt32) (blockSize diskSize : UInt64)
    (disk : List UInt8) (g : GPT) (hread : readGPT crc blockSize diskSize disk = .ok g)
    (hvalid : g.validate crc = []) :
    (∀ pt ∈ [g.primary, g.backup], pt.header.headerCRC32 = pt.computeHeaderCRC32 crc ∧
        pt.header.partitionEntryArrayCRC32 = pt.computePartitionArrayCRC32 crc) ↔
      ArrayIntact crc blockSize disk (toInt64 blockSize) ∧
        ArrayIntact crc blockSize disk (toInt64 (diskSize - blockSize)) := by
  obtain ⟨b, -, hread⟩ := ok_of_bind hread
  obtain ⟨primary, hprimary, hread⟩ := ok_of_bind hread
  obtain ⟨backup, hbackup, hread⟩ := ok_of_bind hread
  obtain rfl := Except.ok.inj hread
  have hcrc : primary.computeHeaderCRC32 crc = primary.header.headerCRC32 ∧
      backup.computeHeaderCRC32 crc = backup.header.headerCRC32 := by
    have hlast := (List.append_eq_nil_iff.mp hvalid).2
    by_contra hne
    rw [if_pos (not_and_or.mp hne)] at hlast
    cases hlast
  rw [← readTable_array hprimary hcrc.1, ← readTable_array hbackup hcrc.2]
  simp [hcrc.1, hcrc.2]

def byteSum (b : List UInt8) : UInt32 := b.foldl (fun sum x => sum + x.toUInt32) 0

def lonePartition (endingLBA : UInt64) : PartitionEntry :=
  ⟨GUIDUnused, ⟨1, 2, 3, 4, 5, zeroBytes 6⟩, 3, endingLBA, 0, zeroBytes 72⟩

/-- A header for one large entry, which has the checksums of the partition `[3, 5]`. -/
def loneHeader (myLBA alternateLBA entryLBA : UInt64) : Header :=
  (PartitionTable.withCRCs byteSum ⟨⟨EFISignature, EFIRevision, HeaderSize, 0, zeroBytes 4, myLBA,
    alternateLBA, 3, 5, GUIDUnused, entryLBA, 1, 16384, 0⟩, [lonePartition 5]⟩).header

/-- Blocks of 512 bytes: the MBR, the primary table with this entry, and the backup table. -/
def loneDisk (entry : PartitionEntry) : List UInt8 :=
  List.replicate 512 0 ++ headerCodec.encode (loneHeader 1 4 2) ++ List.replicate 420 0 ++
    entryCodec.encode entry ++ List.replicate 384 0 ++ entryCodec.encode (lonePartition 5) ++
      List.replicate 384 0 ++
      headerCodec.encode (loneHeader 4 1 3) ++ List.replicate 420 0

theorem loneDisk_checksums : ∃ g, readGPT byteSum 512 2560 (loneDisk (lonePartition 5)) = .ok g ∧
    ∀ pt ∈ [g.primary, g.backup], pt.header.headerCRC32 = pt.computeHeaderCRC32 byteSum ∧
      pt.header.partitionEntryArrayCRC32 = pt.computePartitionArrayCRC32 byteSum := by
  have hrun : (readGPT byteSum 512 2560 (loneDisk (lonePartition 5))).toOption.any
      (fun g => g.validate byteSum = []) = true := by decide +kernel
  obtain ⟨g, hg, hvalid⟩ := (Option.any_eq_true _ _).mp hrun
  refine ⟨g, ok_of_toOption hg, (validate_checksums_iff byteSum 512 2560 _ g (ok_of_toOption hg)
    (of_decide_eq_true hvalid)).mpr ?_⟩
  unfold ArrayIntact
  decide +kernel

/-- The end of the partition in the primary table is another one than the one the checksum is
for. -/
theorem stale_array_validates : ∃ g, readGPT byteSum 512 2560 (loneDisk (lonePartition 4)) = .ok g ∧
    g.validate byteSum = [] ∧
    g.primary.header.partitionEntryArrayCRC32 ≠ g.primary.computePartitionArrayCRC32 byteSum := by
  have hrun : (readGPT byteSum 512 2560 (loneDisk (lonePartition 4))).toOption.any
    (fun g => g.validate byteSum = [] ∧
      g.primary.header.partitionEntryArrayCRC32 ≠ g.primary.computePartitionArrayCRC32 byteSum) =
        true := by
    decide +kernel
  obtain ⟨g, hg, htest⟩ := (Option.any_eq_true _ _).mp hrun
  exact ⟨g, ok_of_toOption hg, of_decide_eq_true htest⟩

end Validate

end Garnet.Gpt
