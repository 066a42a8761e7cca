import Garnet.Gpt.Disk
import Garnet.Gpt.Layout

/-! A table that was updated, written and read back. -/

namespace Garnet.Gpt
open List

def PartitionTable.filled (pt : PartitionTable) : PartitionTable :=
  { pt with partitions := pt.partitions ++
      List.replicate (pt.header.numberOfPartitionEntries.toNat - pt.partitions.length) zeroEntry }

/-- Writing the table to the disk and reading it gives the same table, and it is valid. -/
def RoundTrip (crc : List UInt8 → UInt32) (s : Geometry) (disk : List UInt8) (g : GPT) : Prop :=
  ∃ disk' r, g.writeTo disk = .ok disk' ∧ readGPT crc s.blockSize s.diskSize disk' = .ok r ∧
    r.mbr = g.mbr ∧ r.primary = g.primary.filled ∧ r.backup = g.backup.filled ∧ r.validate crc = []

/-- The writer has left `written` in front of it on a disk of `size` bytes. -/
structure Out.Behind (size : Nat) (written : List UInt8) (total : Int) (o : Out) : Prop where
  disk : ∃ rest, o.disk = written ++ rest ∧ (written ++ rest).length = size
  pos : o.pos = written.length
  total : o.total = total

theorem Out.write_bind {o : Out} {a b : List UInt8} {k : Out → Except Fault Out}
    (hk : ∀ o', o.write a = .ok o' → k o' = o'.write b) : (o.write a >>= k) = o.write (a ++ b) := by
  by_cases ha : o.pos + a.length ≤ o.disk.length
  · have hw : o.write a = .ok ⟨splice o.pos a o.disk, o.pos + a.length, o.total + a.length⟩ :=
      if_pos ha
    rw [hw, ok_bind, hk _ hw]
    simp only [Out.write, splice_length ha, splice_splice ha, length_append, Int.natCast_add,
      add_assoc]
  · have hw : o.write a = .error (.error "short write") := if_neg ha
    rw [hw, Out.write, if_neg (by rw [length_append]; omega)]
    rfl

namespace Out.Behind
variable {size n : Nat} {written b : List UInt8} {total : Int} {o : Out}

variable (h : o.Behind size written total)
include h

theorem write (hb : written.length + b.length ≤ size) :
    ∃ o', o.write b = .ok o' ∧ o'.Behind size (written ++ b) (total + b.length) := by
  obtain ⟨rest, hdisk, hsize⟩ := h.disk
  have hlen : o.pos + b.length ≤ o.disk.length := by
    rw [h.pos, hdisk, hsize]
    exact hb
  refine ⟨_, if_pos hlen, ⟨rest.drop b.length, ?_, ?_⟩, ?_, ?_⟩
  · change splice o.pos b o.disk = _
    rw [splice, h.pos, hdisk, take_left, drop_append, drop_of_length_le (by omega), nil_append,
      Nat.add_sub_cancel_left]
  · rw [length_append] at hsize
    rw [length_append, length_append, length_drop]
    omega
  · rw [length_append, ← h.pos]
  · rw [← h.total]

theorem of_write {o' : Out} (hw : o.write b = .ok o') :
    written.length + b.length ≤ size ∧ o'.Behind size (written ++ b) (total + b.length) := by
  by_cases hb : written.length + b.length ≤ size
  · obtain ⟨o'', hw', h'⟩ := h.write hb
    cases hw.symm.trans hw'
    exact ⟨hb, h'⟩
  · obtain ⟨rest, hdisk, hsize⟩ := h.disk
    unfold Out.write at hw
    rw [if_neg (by rw [h.pos, hdisk, hsize]; exact hb)] at hw
    exact nomatch hw

theorem write_nil : o.write [] = .ok o := by
  obtain ⟨o', hw, _⟩ :=
    h.write (b := []) (by obtain ⟨rest, _, hsize⟩ := h.disk; simp at hsize ⊢; omega)
  rw [hw]
  unfold Out.write at hw
  split at hw
  · rw [← hw, splice_nil, length_nil, add_zero, Int.natCast_zero, Int.add_zero]
  · exact nomatch hw

theorem zeros_eq (n : Nat) : o.zeros n = o.write (List.replicate n 0) := by
  cases n with
  | zero => exact h.write_nil.symm
  | succ k => exact if_neg (by omega)

theorem fillBlock_eq {t block : Nat} (ht : total = t) (hblock : 0 < block) :
    o.fillBlock block = o.zeros ((block - t % block) % block : Nat) := by
  have hmod : total.tmod block = (t % block : Nat) := by
    rw [ht]
    rfl
  have hlt := Nat.mod_lt t hblock
  unfold Out.fillBlock
  rw [h.total, hmod]
  generalize t % block = used at hlt ⊢
  cases used with
  | zero =>
    rw [Nat.sub_zero, Nat.mod_self]
    rfl
  | succ k =>
    rw [if_pos (by omega), Nat.mod_eq_of_lt (by omega)]
    congr 1
    omega

theorem seekOrWrite (hn : written.length + n ≤ size) :
    ∃ o' gap, o.seekOrWrite n = .ok o' ∧ gap.length = n ∧
    o'.Behind size (written ++ gap) total := by
  obtain ⟨rest, hdisk, hsize⟩ := h.disk
  rw [length_append] at hsize
  have hgap : (rest.take n).length = n := by
    rw [length_take]
    omega
  refine ⟨_, rest.take n, if_neg (by omega), hgap, ⟨rest.drop n, ?_, ?_⟩, ?_, h.total⟩
  · rw [append_assoc, take_append_drop]
    exact hdisk
  · rw [append_assoc, take_append_drop, length_append]
    exact hsize
  · rw [length_append, hgap, ← h.pos]
    change ((o.pos : Int) + n).toNat = _
    omega

theorem writeEntries_eq (l : List PartitionEntry) :
    o.writeEntries l = o.write (entryCodec.encodeAll l) := by
  induction l generalizing o written total with
  | nil => exact h.write_nil.symm
  | cons p l ih => exact Out.write_bind fun o' hw => ih (h.of_write hw).2

end Out.Behind

section Write
variable {g : GPT} {disk : List UInt8} {pad array block : Nat}

theorem mbr_length (m : MBR) : (mbrCodec.encode m).length = 512 := mbrCodec.encode_length m

theorem header_length (h : Header) : (headerCodec.encode h).length = 92 :=
  headerCodec.encode_length h

theorem entries_length (l : List PartitionEntry) :
    (entryCodec.encodeAll l).length = l.length * 128 :=
  entryCodec.encodeAll_length l

def primaryImage (g : GPT) (block pad : Nat) : List UInt8 :=
  mbrCodec.encode g.mbr ++ headerCodec.encode g.primary.header ++
    List.replicate ((block - 604 % block) % block) 0 ++
    entryCodec.encodeAll g.primary.partitions ++ List.replicate pad 0

theorem primaryImage_length : (primaryImage g block pad).length =
    604 + (block - 604 % block) % block + g.primary.partitions.length * 128 + pad := by
  simp only [primaryImage, length_append, length_replicate, mbr_length, header_length, entries_length]

theorem writePrimary_eq (hblock : 512 ≤ block) (hpad : g.primary.arrayPad = pad)
    (hsize : (primaryImage g block pad).length ≤ disk.length) :
    ∃ o, g.writePrimary block disk = .ok o ∧
    o.Behind disk.length (primaryImage g block pad) (primaryImage g block pad).length := by
  have h₀ : Out.Behind disk.length [] 0 ⟨disk, 0, 0⟩ := ⟨⟨disk, rfl, rfl⟩, rfl, rfl⟩
  have heq : g.writePrimary block disk = Out.write (primaryImage g block pad) ⟨disk, 0, 0⟩ := by
    unfold GPT.writePrimary primaryImage
    simp only [append_assoc]
    refine Out.write_bind fun o₁ hw₁ => ?_
    have h₁ := (h₀.of_write hw₁).2
    have hzero : o₁.zeros (o₁.total - block) = .ok o₁ := by
      rw [h₁.total, mbr_length]
      exact if_pos (by omega)
    rw [hzero, ok_bind]
    refine Out.write_bind fun o₂ hw₂ => ?_
    have h₂ := (h₁.of_write hw₂).2
    rw [h₂.fillBlock_eq (t := 604) (by rw [mbr_length, header_length]; rfl) (by omega), h₂.zeros_eq]
    refine Out.write_bind fun o₃ hw₃ => ?_
    have h₃ := (h₂.of_write hw₃).2
    rw [h₃.writeEntries_eq]
    refine Out.write_bind fun o₄ hw₄ => ?_
    rw [hpad, (h₃.of_write hw₄).2.zeros_eq]
  rw [heq]
  simpa using h₀.write (b := primaryImage g block pad) (by simpa using hsize)

/-- The zeros between the backup array and its header: they complete the running total, which does
not count what was skipped. -/
def backupFill (t : Nat) : Nat := (512 - t % 512) % 512

def backupImage (g : GPT) (pad fill : Nat) : List UInt8 :=
  entryCodec.encodeAll g.backup.partitions ++ List.replicate pad 0 ++ List.replicate fill 0 ++
    headerCodec.encode g.backup.header ++ List.replicate 420 0

section Backup
variable {o : Out} {size place fill : Nat} {written : List UInt8}

theorem backupFill_total (t : Nat) : (t + backupFill t) % 512 = 0 := by
  unfold backupFill
  omega

theorem backupImage_length :
    (backupImage g pad fill).length = 512 + (g.backup.partitions.length * 128 + pad + fill) := by
  simp only [backupImage, length_append, length_replicate, header_length, entries_length]
  omega

section
variable (h : o.Behind size written written.length) (hpad : g.primary.arrayPad = pad)
  (hfill : backupFill (written.length + (g.backup.partitions.length * 128 + pad)) = fill)
  (hplace : toInt64 (g.backup.header.partitionEntryLBA * 512) = place) (hlow : written.length ≤ place)
include h hpad hfill hplace hlow

theorem writeBackup_write (hhigh : place ≤ size) :
    ∃ (gap : List UInt8) (o' : Out), gap.length = place - written.length ∧
    o'.Behind size (written ++ gap) written.length ∧
      g.writeBackup 512 512 o = o'.write (backupImage g pad fill) := by
  have hskip : toInt64 (g.backup.header.partitionEntryLBA * 512) - o.total =
      (place - written.length : Nat) := by
    rw [hplace, h.total]
    omega
  obtain ⟨o₁, gap, hw₁, hgap, h₁⟩ := h.seekOrWrite (n := place - written.length) (by omega)
  refine ⟨gap, o₁, hgap, h₁, ?_⟩
  have htotal := backupFill_total (written.length + (g.backup.partitions.length * 128 + pad))
  unfold GPT.writeBackup backupImage
  rw [hskip, hw₁, ok_bind, h₁.writeEntries_eq]
  simp only [append_assoc]
  refine Out.write_bind fun o₂ hw₂ => ?_
  have h₂ := (h₁.of_write hw₂).2
  rw [hpad, h₂.zeros_eq]
  refine Out.write_bind fun o₃ hw₃ => ?_
  have h₃ := (h₂.of_write hw₃).2
  rw [entries_length, length_replicate] at h₃
  have hfirst : o₃.fillBlock 512 = o₃.zeros (backupFill (written.length +
      (g.backup.partitions.length * 128 + pad)) : Nat) :=
    h₃.fillBlock_eq (by omega) (by decide : 0 < 512)
  rw [hfirst, hfill, h₃.zeros_eq]
  refine Out.write_bind fun o₄ hw₄ => ?_
  have h₄ := (h₃.of_write hw₄).2
  refine Out.write_bind fun o₅ hw₅ => ?_
  have h₅ := (h₄.of_write hw₅).2
  rw [header_length, length_replicate] at h₅
  rw [hfill] at htotal
  have hlast :=
    h₅.fillBlock_eq (t := written.length + (g.backup.partitions.length * 128 + pad) + fill +
      92) (by omega)
    (by decide : 0 < 512)
  rw [show (512 - _ % 512) % 512 = 420 by omega] at hlast
  exact hlast.trans (h₅.zeros_eq 420)

theorem writeBackup_ok (hhigh : place ≤ size) {o' : Out} (hok : g.writeBackup 512 512 o = .ok o') :
    place + (g.backup.partitions.length * 128 + pad) + fill + 512 ≤ size ∧
      ∃ gap rest, gap.length = place - written.length ∧
        o'.disk = written ++ gap ++ backupImage g pad fill ++ rest := by
  obtain ⟨gap, o₁, hgap, h₁, heq⟩ := writeBackup_write h hpad hfill hplace hlow hhigh
  obtain ⟨hfits, h₂⟩ := h₁.of_write (heq.symm.trans hok)
  rw [length_append, hgap, backupImage_length] at hfits
  obtain ⟨rest, hdisk, _⟩ := h₂.disk
  exact ⟨by omega, gap, rest, hgap, hdisk⟩

theorem writeBackup_eq
    (hhigh : place + (g.backup.partitions.length * 128 + pad) + fill + 512 ≤ size) :
    ∃ o', g.writeBackup 512 512 o = .ok o' := by
  obtain ⟨gap, o₁, hgap, h₁, heq⟩ := writeBackup_write h hpad hfill hplace hlow (by omega)
  obtain ⟨o₂, hw₂, _⟩ :=
    h₁.write (b := backupImage g pad fill) (by rw [length_append, hgap, backupImage_length]; omega)
  exact ⟨o₂, heq.trans hw₂⟩

end

end Backup

end Write

section Read
variable {disk before b after : List UInt8} {crc : List UInt8 → UInt32} {blockSize : UInt64}
  {pos : Int} {l : List PartitionEntry}

theorem readAt_eq (hdisk : disk = before ++ (b ++ after)) {n : Nat} (hn : b.length = n)
    (hpos : pos = before.length) : readAt disk n pos = .ok b := by
  subst hpos hn hdisk
  unfold readAt
  rw [if_neg (by omega), if_pos (by simp only [length_append, Int.toNat_natCast]; omega),
    Int.toNat_natCast, slice, drop_left, take_left]

theorem readEntries_eq (hdisk : disk = before ++ (entryCodec.encodeAll l ++ after))
    (hpos : pos = before.length) : readEntries disk 0 l.length pos = .ok l := by
  induction l generalizing before pos with
  | nil => rfl
  | cons p l ih =>
    have hcons : entryCodec.encodeAll (p :: l) ++ after =
        entryCodec.encode p ++ (entryCodec.encodeAll l ++ after) := by
      rw [← append_assoc]
      rfl
    rw [hcons] at hdisk
    have hread := readAt_eq hdisk (entryCodec.encode_length p) hpos
    have hdisk' : disk = (before ++ entryCodec.encode p) ++ (entryCodec.encodeAll l ++ after) := by
      rw [append_assoc]
      exact hdisk
    have hrest : readEntries disk 0 l.length (pos + entryCodec.size + 0) = .ok l := by
      apply ih hdisk'
      rw [length_append, entryCodec.encode_length, hpos]
      omega
    rw [length_cons, readEntries, hread, ok_bind, hrest, ok_bind,
      entryCodec.decode_encode]
    rfl

theorem readTable_eq {h : Header} {before' after' : List UInt8}
    (hheader : disk = before ++ (headerCodec.encode h ++ after)) (hpos : pos = before.length)
    (hcrc : PartitionTable.computeHeaderCRC32 crc ⟨h, []⟩ = h.headerCRC32)
    (hsize : h.sizeOfPartitionEntry = 128) (hcount : h.numberOfPartitionEntries.toNat = l.length)
    (hmin : 128 ≤ l.length) (harray : disk = before' ++ (entryCodec.encodeAll l ++ after'))
    (hloc : toInt64 (h.partitionEntryLBA * blockSize) = before'.length) :
    readTable crc blockSize disk pos = .ok ⟨h, l⟩ := by
  have hread := readAt_eq hheader (headerCodec.encode_length h) hpos
  have hnum : (if MinPartitionEntryArraySize / 128 < h.numberOfPartitionEntries then
    h.numberOfPartitionEntries
      else MinPartitionEntryArraySize / 128).toNat = l.length := by
    rw [← hcount]
    split
    · rfl
    next hge =>
      have hle := mt UInt32.lt_iff_toNat_lt.mpr hge
      change ¬ 128 < _ at hle
      change 128 = _
      omega
  have hentries : readEntries disk ((128 - PartitionEntrySize).toNat : Nat) l.length
      (toInt64 (h.partitionEntryLBA * blockSize)) = .ok l := readEntries_eq harray hloc
  have hseek : seek (toInt64 (h.partitionEntryLBA * blockSize)) = .ok () := if_neg (by omega)
  unfold readTable
  rw [hread, ok_bind, headerCodec.decode_encode]
  dsimp only
  rw [if_pos hcrc, hseek, ok_bind, hsize, if_neg (by decide), hsize, hnum, hentries]
  rfl

theorem encodeAll_zeroEntry (n : Nat) :
    entryCodec.encodeAll (List.replicate n zeroEntry) = List.replicate (n * 128) 0 := by
  have hzero : entryCodec.encode zeroEntry = List.replicate 128 0 := by decide +kernel
  induction n with
  | zero => rfl
  | succ n ih =>
    rw [replicate_succ, Nat.succ_mul, add_comm, replicate_add, ← ih, ← hzero]
    rfl

end Read

section Main
variable {crc : List UInt8 → UInt32} {random : GUID} {s : Geometry} {n : Nat} {h : Header}
  {l : List PartitionEntry} {m : MBR}

/-- The tables that `Update` makes. -/
def updatedPrimary (crc : List UInt8 → UInt32) (random : GUID) (s : Geometry) (n : Nat) (h : Header)
    (l : List PartitionEntry) :
    PartitionTable := PartitionTable.withCRCs crc ⟨primaryHeader random s n h, l⟩

def updatedBackup (crc : List UInt8 → UInt32) (random : GUID) (s : Geometry) (n : Nat) (h : Header)
    (l : List PartitionEntry) :
    PartitionTable := PartitionTable.withCRCs crc (backupTable ⟨primaryHeader random s n h, l⟩)

theorem validate_updated {primary backup : PartitionTable}
    (hprimary : primary.header = (updatedPrimary crc random s n h l).header)
    (hbackup : backup.header = (updatedBackup crc random s n h l).header) :
    GPT.validate crc ⟨m, primary, backup, 0, 0, 0, 0⟩ = [] := by
  have hcrc : primary.computeHeaderCRC32 crc = primary.header.headerCRC32 := by
    unfold PartitionTable.computeHeaderCRC32
    rw [hprimary]
    rfl
  have hcrc' : backup.computeHeaderCRC32 crc = backup.header.headerCRC32 := by
    unfold PartitionTable.computeHeaderCRC32
    rw [hbackup]
    rfl
  have hsignature : (updatedPrimary crc random s n h l).header.signature = EFISignature := rfl
  have hsignature' : (updatedBackup crc random s n h l).header.signature = EFISignature := rfl
  have hmy : (updatedPrimary crc random s n h l).header.myLBA = 1 := rfl
  have hother : (updatedBackup crc random s n h l).header.alternateLBA = 1 := rfl
  have hlast : (updatedPrimary crc random s n h l).header.alternateLBA =
      (updatedBackup crc random s n h l).header.myLBA := rfl
  unfold GPT.validate
  dsimp only
  rw [hcrc, hcrc', hprimary, hbackup, hsignature, hsignature', hmy, hother, hlast]
  simp

theorem toInt64_of_lt {x : UInt64} (h : x.toNat < 2 ^ 63) : toInt64 x = x.toNat := if_pos h

end Main

end Garnet.Gpt
