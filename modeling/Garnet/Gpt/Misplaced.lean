import Garnet.Gpt.Readback

/-! The geometries for which a table that was updated and written is not read back. -/

namespace Garnet.Gpt
open List

variable {crc : List UInt8 → UInt32} {random : GUID} {s : Geometry} {n : Nat} {h : Header}
  {l : List PartitionEntry} {g : GPT}

section Inversion
variable {disk : List UInt8} {blockSize : UInt64} {pos : Int} {t : PartitionTable}

theorem readAt_ok {k : Nat} {b : List UInt8} (h : readAt disk k pos = .ok b) :
    0 ≤ pos ∧ b = slice k pos.toNat disk ∧ b.length = k := by
  unfold readAt at h
  obtain ⟨hneg, h⟩ := ok_of_check h
  obtain ⟨hfits, h⟩ := ok_of_guard h
  cases h
  exact ⟨by omega, rfl, slice_length hfits⟩

theorem readEntries_length {pad : Int} {k : Nat} {l : List PartitionEntry}
    (h : readEntries disk pad k pos = .ok l) : l.length = k := by
  induction k generalizing pos l with
  | zero =>
    cases h
    rfl
  | succ k ih =>
    unfold readEntries at h
    obtain ⟨b, _, h⟩ := ok_of_bind h
    obtain ⟨rest, hrest, h⟩ := ok_of_bind h
    cases h
    rw [length_cons, ih hrest]

theorem count_le (k : UInt32) :
    (if MinPartitionEntryArraySize / 128 < k then k else MinPartitionEntryArraySize / 128).toNat ≤
    max 128 k.toNat := by
  split
  · exact le_max_right _ _
  · exact le_max_left _ _

/-- A table that was read: its header is what stands there, but for a missing entry size, and it has
no more entries than the header and the smallest array have. -/
theorem readTable_ok (h : readTable crc blockSize disk pos = .ok t)
    (hsize : t.header.sizeOfPartitionEntry = 128) :
    ∃ b, b = slice 92 pos.toNat disk ∧ b.length = 92 ∧
      (t.header = headerCodec.decode b ∨
        t.header = { headerCodec.decode b with sizeOfPartitionEntry := 128 }) ∧
        t.partitions.length ≤ max 128 t.header.numberOfPartitionEntries.toNat := by
  unfold readTable at h
  obtain ⟨b, hread, h⟩ := ok_of_bind h
  obtain ⟨_, hb, hlength⟩ := readAt_ok hread
  refine ⟨b, hb, hlength, ?_⟩
  dsimp only at h
  by_cases hcrc : PartitionTable.computeHeaderCRC32 crc ⟨headerCodec.decode b, []⟩ =
    (headerCodec.decode b).headerCRC32
  · rw [if_pos hcrc] at h
    obtain ⟨_, -, h⟩ := ok_of_bind h
    obtain ⟨partitions, hentries, h⟩ := ok_of_bind h
    cases h
    have hlen := readEntries_length hentries
    dsimp only at hsize hlen ⊢
    rw [hsize] at hlen
    rw [hlen]
    refine ⟨?_, count_le _⟩
    split
    · exact .inr rfl
    · exact .inl rfl
  · rw [if_neg hcrc] at h
    cases h
    exact ⟨.inl rfl, Nat.zero_le _⟩

end Inversion

theorem RoundTrip.tables {disk : List UInt8} (hr : RoundTrip crc s disk g) :
    ∃ disk', g.writeTo disk = .ok disk' ∧
      readTable crc s.blockSize disk' (toInt64 s.blockSize) = .ok g.primary.filled ∧
      readTable crc s.blockSize disk' (toInt64 (s.diskSize - s.blockSize)) =
        .ok g.backup.filled := by
  obtain ⟨disk', r, hwrite, hread, _, hprimary, hbackup, _⟩ := hr
  unfold readGPT at hread
  obtain ⟨_, _, hread⟩ := ok_of_bind hread
  obtain ⟨primary, htable, hread⟩ := ok_of_bind hread
  obtain ⟨backup, htable', hread⟩ := ok_of_bind hread
  cases hread
  dsimp only at hprimary hbackup
  rw [hprimary] at htable
  rw [hbackup] at htable'
  exact ⟨disk', hwrite, htable, htable'⟩

namespace Updated

theorem entries_of_roundTrip (hu : Updated crc random s n h l g) {disk : List UInt8}
    (hr : RoundTrip crc s disk g) : 128 * n < 2 ^ 32 := by
  obtain ⟨disk', _, htable, _⟩ := hr.tables
  rw [PartitionTable.filled, hu.primary] at htable
  obtain ⟨_, _, _, _, hle⟩ := readTable_ok htable rfl
  have hcount : (updatedPrimary crc random s n h l).header.numberOfPartitionEntries.toNat =
      (arraySize n).toNat / 128 :=
    toNat_numberOfPartitionEntries random s n h
  have hparts : (updatedPrimary crc random s n h l).partitions.length = n := hu.length
  rw [length_append, hparts] at hle
  dsimp only at hle
  rw [hcount] at hle
  have hword := (arraySize n).toNat_lt
  omega

end Updated

section Shift

theorem encode_header_size (h : Header) : ∃ front back : List UInt8, front.length = 84 ∧
    ∀ v, headerCodec.encode { h with sizeOfPartitionEntry := v } =
      front ++ (Codec.uint32.encode v ++ back) := by
  refine ⟨h.signature.val ++ (h.revision.val ++
    (Codec.uint32.encode h.headerSize ++ (Codec.uint32.encode h.headerCRC32 ++
    (h.reserved.val ++ (Codec.uint64.encode h.myLBA ++ (Codec.uint64.encode h.alternateLBA ++
      (Codec.uint64.encode h.firstUsableLBA ++
        (Codec.uint64.encode h.lastUsableLBA ++ (guidCodec.encode h.diskGUID ++
        (Codec.uint64.encode h.partitionEntryLBA ++
          Codec.uint32.encode h.numberOfPartitionEntries)))))))))),
    Codec.uint32.encode h.partitionEntryArrayCRC32, ?_, ?_⟩
  · simp only [length_append, Codec.encode_length, h.signature.property, h.revision.property,
      h.reserved.property]
    rfl
  · intro v
    simp only [append_assoc]
    rfl

theorem getElem?_append_at {front rest : List UInt8} {k : Nat} (hk : front.length = k) (i : Nat) :
    (front ++ rest)[k + i]? = rest[i]? := by
  rw [← hk, List.getElem?_append_right (Nat.le_add_right _ _), Nat.add_sub_cancel_left]

/-- A header does not stand `d` bytes behind itself in its block: the first letter of the signature
would be found again and again, up to the zeros behind the header. -/
theorem not_shifted {header b rest : List UInt8} {d : Nat} (hlen : header.length = 92) (hd : 0 < d)
    (hblock : d < 512) (hfirst : header[0]? = some 0x45)
    (hsize : ∀ i, 84 ≤ i → i < 88 → header[i]? ≠ some 0x45)
    (hsame : ∀ i, i < 92 → i < 84 ∨ 88 ≤ i → b[i]? = header[i]?)
    (hb : ∀ i, i < 92 → b[i]? = (header ++ (List.replicate 420 0 ++ rest))[d + i]?) : False := by
  have hagain : ∀ k i, 92 - i ≤ k → i < 92 → i = 0 ∨ d < 92 → header[i]? ≠ some 0x45 := by
    intro k
    induction k with
    | zero =>
      intro i hk hi
      omega
    | succ k ih =>
      intro i hk hi hsmall hletter
      by_cases hin : 84 ≤ i ∧ i < 88
      · exact hsize i hin.1 hin.2 hletter
      · have hshift := hb i hi
        rw [hsame i hi (by omega), hletter] at hshift
        by_cases hnext : d + i < 92
        · rw [List.getElem?_append_left (by omega)] at hshift
          exact ih (d + i) (by omega) hnext (by omega) hshift.symm
        · rw [List.getElem?_append_right (by omega),
            List.getElem?_append_left (by rw [length_replicate]; omega),
            List.getElem?_replicate, if_pos (by omega)] at hshift
          exact absurd hshift (by decide)
  exact hagain 92 0 (by omega) (by omega) (.inl rfl) hfirst

end Shift

theorem Updated.endsAtHeader_of_roundTrip (hu : Updated crc random s n h l g) (hlarge : s.Large n)
    (hblock : s.blockSize = 512) (hentries : 128 * n < 2 ^ 32) {disk : List UInt8}
    (hdisk : disk.length = s.diskSize.toNat) (hr : RoundTrip crc s disk g) : EndsAtHeader s n := by
  obtain ⟨disk', hwrite, _, htable⟩ := hr.tables
  obtain ⟨_, _, place, hplace, hlow, hsum⟩ := hu.numbers hlarge hblock hentries
  obtain ⟨gap, rest, hgap, hfits, himage⟩ :=
    hu.written hlarge hblock hentries hplace hlow hsum hdisk hwrite
  have hsub : (s.diskSize - 512).toNat = s.diskSize.toNat - 512 :=
    UInt64.toNat_sub_of_le _ _ (UInt64.le_iff_toNat_le.mpr (by change 512 ≤ _; omega))
  have hword := hlarge.word
  have hlast := Nat.mod_lt s.diskSize.toNat (by decide : 0 < 512)
  rw [hblock, toInt64_of_lt (by omega), hsub] at htable
  obtain ⟨b, hb, hblen, hheader, _⟩ :=
    readTable_ok htable (by rw [PartitionTable.filled, hu.backup]; rfl)
  rw [Int.toNat_natCast] at hb
  change g.backup.header = _ ∨ g.backup.header = _ at hheader
  unfold EndsAtHeader
  apply Classical.byContradiction
  intro hends
  -- the bytes that were read are those `d` bytes behind the start of the header
  obtain ⟨d, hd⟩ : ∃ d, s.diskSize.toNat - 512 =
      place + exactArray n + backupFill (2 * exactArray n) + d :=
    ⟨s.diskSize.toNat - 512 - (place + exactArray n + backupFill (2 * exactArray n)), by omega⟩
  have hlen := header_length g.backup.header
  obtain ⟨front, back, hfront, hsize⟩ := encode_header_size (headerCodec.decode b)
  have hencode : headerCodec.encode (headerCodec.decode b) = b := headerCodec.encode_decode b hblen
  have hown : headerCodec.encode g.backup.header = front ++ (Codec.uint32.encode 128 ++ back) := by
    rw [← hsize]
    cases hheader with
    | inl heq =>
      rw [← heq, show (128 : UInt32) = g.backup.header.sizeOfPartitionEntry by rw [hu.backup]; rfl]
    | inr heq => rw [heq]
  have hread : b = front ++ (Codec.uint32.encode (headerCodec.decode b).sizeOfPartitionEntry ++
      back) := by
    rw [← hsize]
    exact hencode.symm
  have hfour : ∀ v, (Codec.uint32.encode v).length = 4 := Codec.uint32.encode_length
  apply @not_shifted _ b rest d hlen (by omega) (by omega)
  · rw [hu.backup]
    rfl
  · intro i hi hi'
    have hbytes : ∀ k, k < 4 → (Codec.uint32.encode 128)[k]? ≠ some 0x45 := by decide
    rw [hown, List.getElem?_append_right (by omega), hfront,
      List.getElem?_append_left (by rw [hfour]; omega)]
    exact hbytes _ (by omega)
  · intro i hi hside
    rw [hown, hread]
    cases hside with
    | inl hlt => rw [List.getElem?_append_left (by omega), List.getElem?_append_left (by omega)]
    | inr hge =>
      rw [List.getElem?_append_right (by omega), List.getElem?_append_right (by rw [hfour]; omega),
        List.getElem?_append_right (by omega), List.getElem?_append_right (by rw [hfour]; omega), hfour, hfour]
  · intro i hi
    have harray := hu.array_length
    rw [hb, getElem?_slice, if_pos hi, hd, add_assoc, himage, append_assoc _ (headerCodec.encode _),
      getElem?_append_at]
    simp only [length_append, length_replicate, entries_length, primaryImage_length]
    omega

/-- The writer is behind `front` and will not come back to it. -/
structure Out.Keeps (front : List UInt8) (o : Out) : Prop where
  disk : ∃ rest, o.disk = front ++ rest
  pos : front.length ≤ o.pos

namespace Out.Keeps
variable {front b : List UInt8} {o o' : Out} {n logical : Int}

theorem write (h : o.Keeps front) (hw : o.write b = .ok o') : o'.Keeps front := by
  obtain ⟨rest, hdisk⟩ := h.disk
  have hpos := h.pos
  unfold Out.write at hw
  obtain ⟨hfits, hw⟩ := ok_of_guard hw
  cases hw
  refine ⟨⟨splice (o.pos - front.length) b rest, ?_⟩, le_trans hpos (Nat.le_add_right _ _)⟩
  change splice o.pos b o.disk = _
  rw [splice, splice, hdisk, take_append, take_of_length_le hpos, drop_append,
    drop_of_length_le (by omega), nil_append, append_assoc, append_assoc, append_assoc,
    Nat.sub_add_comm hpos]

theorem zeros (h : o.Keeps front) (hw : o.zeros n = .ok o') : o'.Keeps front := by
  unfold Out.zeros at hw
  split at hw
  · cases hw
    exact h
  · exact h.write hw

theorem fillBlock (h : o.Keeps front) (hw : o.fillBlock logical = .ok o') : o'.Keeps front := by
  unfold Out.fillBlock at hw
  split at hw
  · exact h.zeros hw
  · cases hw
    exact h

theorem seekOrWrite (hn : 0 ≤ n) (h : o.Keeps front) (hw : o.seekOrWrite n = .ok o') :
    o'.Keeps front := by
  have hpos := h.pos
  unfold Out.seekOrWrite at hw
  rw [if_neg (by omega)] at hw
  cases hw
  refine ⟨h.disk, ?_⟩
  change front.length ≤ (o.pos + n).toNat
  omega

theorem writeEntries {l : List PartitionEntry} (h : o.Keeps front)
    (hw : o.writeEntries l = .ok o') : o'.Keeps front := by
  induction l generalizing o with
  | nil =>
    cases hw
    exact h
  | cons p l ih =>
    unfold Out.writeEntries at hw
    obtain ⟨o₁, hp, hw⟩ := ok_of_bind hw
    exact ih (h.write hp) hw

theorem writeBackup {block : UInt64} (h : o.Keeps front)
    (hon : o.total ≤ toInt64 (g.backup.header.partitionEntryLBA * block))
    (hw : g.writeBackup block logical o = .ok o') : o'.Keeps front := by
  unfold GPT.writeBackup at hw
  obtain ⟨o₁, h₁, hw⟩ := ok_of_bind hw
  obtain ⟨o₂, h₂, hw⟩ := ok_of_bind hw
  obtain ⟨o₃, h₃, hw⟩ := ok_of_bind hw
  obtain ⟨o₄, h₄, hw⟩ := ok_of_bind hw
  obtain ⟨o₅, h₅, hw⟩ := ok_of_bind hw
  have hsought := h.seekOrWrite (by omega) h₁
  exact ((((hsought.writeEntries h₂).zeros h₃).fillBlock h₄).write h₅).fillBlock hw

end Out.Keeps

section Fields

theorem decode_header (b : List UInt8) :
    (headerCodec.decode b).myLBA = Codec.uint64.decode (slice 8 24 b) ∧
    (headerCodec.decode b).alternateLBA = Codec.uint64.decode (slice 8 32 b) ∧
      (headerCodec.decode b).firstUsableLBA = Codec.uint64.decode (slice 8 40 b) := by
  simp only [headerCodec, Codec.map, Codec.pair, Codec.bytes, Codec.uint32, Codec.uint64, drop_drop,
    slice, and_self]

theorem decode_entry (b : List UInt8) :
    (entryCodec.decode b).uniquePartitionGUID = guidCodec.decode (slice 16 16 b) ∧
    (entryCodec.decode b).startingLBA = Codec.uint64.decode (slice 8 32 b) ∧
      (entryCodec.decode b).endingLBA = Codec.uint64.decode (slice 8 40 b) := by
  simp only [entryCodec, Codec.map, Codec.pair, Codec.uint64, drop_drop, slice]
  exact ⟨rfl, rfl, rfl⟩

/-- A partition entry read as the header of the first block is that of a used partition, whose
bounds are taken for those of the usable blocks. -/
theorem entry_as_header {p : PartitionEntry} {b more : List UInt8}
    (hb : b = slice 92 0 (entryCodec.encode p ++ more)) (hmy : (headerCodec.decode b).myLBA = 1) :
    p.isZero = false ∧ (headerCodec.decode b).alternateLBA = p.startingLBA ∧
      (headerCodec.decode b).firstUsableLBA = p.endingLBA := by
  obtain ⟨hown, hstart, hend⟩ := decode_entry (entryCodec.encode p)
  obtain ⟨hfirst, hsecond, hthird⟩ := decode_header b
  have hlen : (entryCodec.encode p).length = 128 := entryCodec.encode_length p
  have hpart : ∀ k, k + 8 ≤ 92 → slice 8 k b = slice 8 k (entryCodec.encode p) := by
    intro k hk
    rw [hb, slice_slice hk, zero_add, slice, drop_append_of_le_length (by omega),
      take_append_of_le_length (by rw [length_drop]; omega), slice]
  rw [entryCodec.decode_encode] at hown hstart hend
  rw [hpart _ (by decide)] at hfirst hsecond hthird
  refine ⟨?_, hsecond.trans hstart.symm, hthird.trans hend.symm⟩
  rw [PartitionEntry.isZero, decide_eq_false_iff_not]
  intro hunused
  have hguid := guidCodec.encode_decode (slice 16 16 (entryCodec.encode p)) (slice_length (by omega))
  have hzero : slice 8 8 (slice 16 16 (entryCodec.encode p)) = slice 8 24 (entryCodec.encode p) :=
    slice_slice (by omega)
  rw [hmy, ← hzero, ← hguid, ← hown, hunused] at hfirst
  exact absurd hfirst (by decide)

end Fields

theorem layOut_bounds {next : UInt64} {asked : List PartitionEntry}
    (hok : layOut s next asked = .ok l) :
    ∀ p ∈ l, p.isZero = false → ¬ p.endingLBA ≤ p.startingLBA := by
  induction asked generalizing next l with
  | nil =>
    cases hok
    exact fun p hp => nomatch hp
  | cons q asked ih =>
    intro p hp hused
    by_cases hq : q.isZero = true
    · obtain ⟨rest, hrest, rfl⟩ := layOut_zero hq hok
      cases mem_cons.mp hp with
      | inl heq =>
        rw [heq, hq] at hused
        exact nomatch hused
      | inr hmem => exact ih hrest p hmem hused
    · obtain ⟨rest, hbounds, _, hrest, rfl⟩ := layOut_cons (Bool.eq_false_iff.mpr hq) rfl hok
      cases mem_cons.mp hp with
      | inl heq =>
        rw [heq]
        exact hbounds
      | inr hmem => exact ih hrest p hmem hused

/-- In front of the first entry there is a whole block if the blocks are larger than the MBR and the
header together. -/
theorem primaryImage_large {block pad : Nat} (hblock : 604 < block) :
    ∃ front : List UInt8, front.length = block ∧
    primaryImage g block pad =
      front ++ (entryCodec.encodeAll g.primary.partitions ++ List.replicate pad 0) := by
  refine ⟨mbrCodec.encode g.mbr ++ headerCodec.encode g.primary.header ++ List.replicate
    ((block - 604 % block) % block) 0, ?_, ?_⟩
  · rw [length_append, length_append, mbr_length, header_length, length_replicate,
      Nat.mod_eq_of_lt hblock, Nat.mod_eq_of_lt (by omega)]
    omega
  · simp only [primaryImage, append_assoc]

namespace Updated

section
variable {disk : List UInt8} (hu : Updated crc random s n h l g) (hlarge : s.Large n)
include hu hlarge

theorem written_large (hblock : 604 < s.blockSize.toNat) (hentries : 128 * n < 2 ^ 32)
    {disk' : List UInt8} (hdisk : disk.length = s.diskSize.toNat)
    (hok : g.writeTo disk = .ok disk') : ∃ front rest, front.length = s.blockSize.toNat ∧
      disk' = front ++ (entryCodec.encodeAll l ++
        (List.replicate (exactArray n - n * 128) 0 ++ rest)) := by
  have hroom := hlarge.room
  have hround := le_roundUp (m := s.blockSize.toNat) (by omega) (exactArray n)
  have hword := hlarge.word
  obtain ⟨_, hpad⟩ := hu.padding hentries
  obtain ⟨hplace, hblocks⟩ := hu.place hlarge hentries
  obtain ⟨front, hfront, himage⟩ := @primaryImage_large g _ (exactArray n - n * 128) hblock
  have harray := hu.array_length.1
  have hlength : (primaryImage g s.blockSize.toNat (exactArray n - n * 128)).length =
      s.blockSize.toNat + exactArray n := by
    rw [himage, length_append, length_append, length_replicate, entries_length, hfront, harray]
  obtain ⟨o, hprimary, hbehind⟩ :=
    @writePrimary_eq g disk _ _ hlarge.least hpad (by rw [hlength]; omega)
  rw [hu.writeTo_split hlarge, hprimary, ok_bind] at hok
  obtain ⟨o', hbackup, hdone⟩ := ok_of_bind hok
  cases hdone
  obtain ⟨rest, hrest, _⟩ := hbehind.disk
  have hkeeps : o.Keeps (primaryImage g s.blockSize.toNat (exactArray n - n * 128)) :=
    ⟨⟨rest, hrest⟩, le_of_eq hbehind.pos.symm⟩
  have hon : o.total ≤ toInt64 (g.backup.header.partitionEntryLBA * s.blockSize) := by
    have hparts := Nat.div_mul_le_self (exactArray n) s.blockSize.toNat
    have hwhole : s.diskSize.toNat < s.blocks * s.blockSize.toNat + s.blockSize.toNat := by
      rw [← Nat.succ_mul, ← Nat.div_lt_iff_lt_mul (by omega)]
      exact Nat.lt_succ_self _
    rw [hbehind.total, hlength, hplace, Nat.sub_mul, Nat.sub_mul, one_mul]
    omega
  obtain ⟨rest', hdisk'⟩ := (hkeeps.writeBackup hon hbackup).disk
  refine ⟨front, rest', hfront, ?_⟩
  have hparts : g.primary.partitions = l := by
    rw [hu.primary]
    rfl
  rw [hdisk', himage, hparts]
  simp only [append_assoc]

theorem block_of_roundTrip (hentries : 128 * n < 2 ^ 32) (hdisk : disk.length = s.diskSize.toNat)
    (hr : RoundTrip crc s disk g) : s.blockSize = 512 := by
  apply Classical.byContradiction
  intro hother
  have hblock : 604 < s.blockSize.toNat := by
    obtain ⟨k, hk⟩ := hlarge.power
    have hleast := hlarge.least
    have hne : s.blockSize.toNat ≠ 512 := fun heq => hother (UInt64.toNat.inj heq)
    have hten : 10 ≤ k := by
      apply Nat.le_of_not_lt
      intro hlt
      have hpow := Nat.pow_le_pow_right (by decide : 0 < 2) (by omega : k ≤ 9)
      omega
    have hpow := Nat.pow_le_pow_right (by decide : 0 < 2) hten
    omega
  obtain ⟨disk', hwrite, htable, _⟩ := hr.tables
  obtain ⟨front, rest, hfront, himage⟩ := hu.written_large hlarge hblock hentries hdisk hwrite
  have hroom := hlarge.room
  have hword := hlarge.word
  rw [toInt64_of_lt (by omega)] at htable
  obtain ⟨b, hb, hlen, hheader, _⟩ :=
    readTable_ok htable (by rw [PartitionTable.filled, hu.primary]; rfl)
  rw [Int.toNat_natCast, himage, slice, drop_left' hfront] at hb
  change g.primary.header = _ ∨ g.primary.header = _ at hheader
  have hfields : (headerCodec.decode b).signature = g.primary.header.signature ∧
      (headerCodec.decode b).myLBA = g.primary.header.myLBA ∧
        (headerCodec.decode b).alternateLBA = g.primary.header.alternateLBA ∧
          (headerCodec.decode b).firstUsableLBA = g.primary.header.firstUsableLBA := by
    cases hheader with
    | inl heq | inr heq => rw [heq]; exact ⟨rfl, rfl, rfl, rfl⟩
  obtain ⟨hsignature, hmy, halternate, hfirst⟩ := hfields
  rw [hu.primary] at hsignature hmy halternate hfirst
  cases l with
  | nil =>
    have hn : n = 0 := hu.length.symm
    have hzeros : b = List.replicate 92 0 := by
      rw [hb, hn]
      change ([] ++ (List.replicate 16384 0 ++ rest)).take 92 = _
      rw [nil_append, take_append_of_le_length (by rw [length_replicate]; decide), take_replicate]
      rfl
    have hmagic : (updatedPrimary crc random s n h []).header.signature = EFISignature := rfl
    rw [hzeros, hmagic] at hsignature
    exact absurd hsignature (by decide +kernel)
  | cons p l =>
    have hcons : entryCodec.encodeAll (p :: l) = entryCodec.encode p ++ entryCodec.encodeAll l := rfl
    rw [hcons, append_assoc] at hb
    obtain ⟨hused, hstart, hlast⟩ := entry_as_header hb hmy
    obtain ⟨next, asked, hlaid⟩ := hu.laid
    apply layOut_bounds hlaid p mem_cons_self hused
    rw [← hstart, ← hlast, halternate, hfirst, UInt64.le_iff_toNat_le]
    have hfirst' := toNat_firstUsableLBA random s n h
    have halternate' := toNat_alternateLBA random s n h
    obtain ⟨_, hblocks⟩ := hu.place hlarge hentries
    rw [exact_array hentries] at hfirst'
    change (primaryHeader random s n h).firstUsableLBA.toNat ≤
      (primaryHeader random s n h).alternateLBA.toNat
    have htotal : s.blocks ≤ s.diskSize.toNat := Nat.div_le_self _ _
    rw [hfirst', halternate']
    generalize exactArray n / s.blockSize.toNat = array at *
    omega

end

end Updated

/-- A table that `Update` accepted, for a disk with room for it, is read back from what `WriteTo`
made of the disk exactly if the blocks are of 512 bytes, the entries are counted in a word, and the
disk ends where the backup header does. -/
theorem gpt_roundTrip_iff {g' : GPT} (hupdate : update crc random s g = .ok g')
    (hlarge : s.Large g.primary.partitions.length) {disk : List UInt8}
    (hdisk : disk.length = s.diskSize.toNat) :
    RoundTrip crc s disk g' ↔
      s.blockSize = 512 ∧ 128 * g.primary.partitions.length < 2 ^ 32 ∧
        EndsAtHeader s g.primary.partitions.length := by
  have hu := updated_of_update hupdate
  obtain ⟨l, hu⟩ := hu
  constructor
  · intro hr
    have hentries := hu.entries_of_roundTrip hr
    have hblock := hu.block_of_roundTrip hlarge hentries hdisk hr
    exact ⟨hblock, hentries, hu.endsAtHeader_of_roundTrip hlarge hblock hentries hdisk hr⟩
  · intro hwhen
    obtain ⟨hblock, hentries, hend⟩ := hwhen
    exact hu.roundTrip hlarge hblock hentries hend hdisk

theorem onePartition_roundTrip :
    ∃ g', update (fun _ => 0) GUIDUnused ⟨512, 512, 0, 1048576⟩ (bareGPT [bareEntry 34 100]) =
      .ok g' ∧
    RoundTrip (fun _ => 0) ⟨512, 512, 0, 1048576⟩ (List.replicate 1048576 0) g' := by
  have hlarge : Geometry.Large ⟨512, 512, 0, 1048576⟩ 1 := ⟨⟨9, rfl⟩, by decide, by decide, by decide⟩
  obtain ⟨g', hupdate⟩ : ∃ g', update (fun _ => 0) GUIDUnused ⟨512, 512, 0, 1048576⟩ (bareGPT [bareEntry 34 100]) = .ok g' :=
    ⟨_, rfl⟩
  exact ⟨g', hupdate, (gpt_roundTrip_iff hupdate hlarge length_replicate).mpr
    ⟨rfl, by decide, by unfold EndsAtHeader; decide⟩⟩

/-- On a disk with blocks of 1024 bytes the header is not found. -/
theorem large_blocks_not_read_back : ∃ g',
    update (fun _ => 0) GUIDUnused ⟨1024, 1024, 0, 1048576⟩ (bareGPT [bareEntry 34 100]) = .ok g' ∧
      ¬ RoundTrip (fun _ => 0) ⟨1024, 1024, 0, 1048576⟩ (List.replicate 1048576 0) g' := by
  have hlarge : Geometry.Large ⟨1024, 1024, 0, 1048576⟩ 1 :=
    ⟨⟨10, rfl⟩, by decide, by decide, by decide⟩
  obtain ⟨g', hupdate⟩ : ∃ g', update (fun _ => 0) GUIDUnused ⟨1024, 1024, 0, 1048576⟩
      (bareGPT [bareEntry 34 100]) = .ok g' :=
    ⟨_, rfl⟩
  obtain ⟨l, hu⟩ := updated_of_update hupdate
  refine ⟨g', hupdate, fun hr => ?_⟩
  exact absurd (hu.block_of_roundTrip hlarge (by decide) length_replicate hr) (by decide)

end Garnet.Gpt
