import Garnet.Lib.Ordered
import Garnet.Far.Reader

/-! What the reader finds in an archive: its directory lists the files, and each file is read
back from where its entry says. -/

namespace Garnet.Far
open List
open Cursor Std

section Chunks
variable {fs : List File}

theorem readIndex_archive (fs : List File) :
    readIndex ⟨archive fs, 0⟩ = .ok archiveIndex ⟨archive fs, indexLen⟩ := by
  obtain ⟨rest, harch⟩ := archive_chunks fs
  have hread : deserializeIndex ⟨archive fs, 0⟩ = .ok archiveIndex ⟨archive fs, indexLen⟩ := by
    have hlen := archiveIndex_fits.bytes_length
    obtain ⟨behind, hbehind⟩ : ∃ behind, archive fs = archiveIndex.bytes ++ behind := ⟨_, harch⟩
    have hfront : archive fs = [] ++ (archiveIndex.bytes ++ behind) := hbehind
    have hzero : 0 = ([] : Bytes).length := rfl
    rw [deserializeIndex, readExact_bind hfront hlen.symm hzero, archiveIndex_fits.ofBytes_bytes,
      zero_add]
    rfl
  rw [readIndex, bind_ok hread]
  rfl

theorem readIndexEntries_archive (hlen : archiveLength fs < 2 ^ 64) :
    readIndexEntries archiveIndex 2 none none none ⟨archive fs, indexLen⟩ =
      .ok (some (dirIndex fs), some (nameIndex fs)) ⟨archive fs, indexLen + 2 * indexEntryLen⟩ := by
  obtain ⟨rest, harch⟩ := archive_chunks fs
  have hindex := archiveIndex_fits.bytes_length
  have hdir : deserializeIndexEntry ⟨archive fs, indexLen⟩ =
      .ok (dirIndex fs) ⟨archive fs, indexLen + indexEntryLen⟩ := by
    rw [deserializeIndexEntry, readExact_bind harch (IndexEntry.bytes_length _).symm hindex.symm,
      (dirIndex_fits hlen).ofBytes_bytes]
    rfl
  have hnames : deserializeIndexEntry ⟨archive fs, indexLen + indexEntryLen⟩ =
      .ok (nameIndex fs) ⟨archive fs, indexLen + indexEntryLen + indexEntryLen⟩ := by
    rw [← append_assoc] at harch
    have hpre : indexLen + indexEntryLen = (archiveIndex.bytes ++ (dirIndex fs).bytes).length := by
      rw [length_append, hindex, IndexEntry.bytes_length]
    rw [deserializeIndexEntry, readExact_bind harch (IndexEntry.bytes_length _).symm hpre,
      (nameIndex_fits hlen).ofBytes_bytes]
    rfl
  have hshort : ¬ (nameIndex fs).offset < archiveIndex.length := by
    change ¬ indexLen + 2 * indexEntryLen + fs.length * directoryEntryLen < 2 * indexEntryLen
    omega
  rw [readIndexEntries, bind_ok hdir]
  change readIndexEntries archiveIndex 1 (some dirChunk) (some (dirIndex fs)) none _ = _
  rw [readIndexEntries, bind_ok hnames]
  change (if (nameIndex fs).offset < archiveIndex.length then _ else _ : EStateM Fault Cursor _) _ = _
  rw [if_neg hshort]
  rfl

end Chunks

section Directory

def listing (nameOffset start : Nat) (fs : List File) : List (Bytes × DirectoryEntry) :=
  (fs.map Prod.fst).zip (directory nameOffset start fs)

theorem listing_keys (nameOffset start : Nat) (fs : List File) :
    (listing nameOffset start fs).map Prod.fst = fs.map Prod.fst := by
  apply map_fst_zip
  rw [length_map, directory_length]

theorem mem_listing {nameOffset start : Nat} {fs : List File} {p : Bytes} {e : DirectoryEntry} :
    (p, e) ∈ listing nameOffset start fs ↔
      ∃ gs f hs, fs = gs ++ f :: hs ∧ p = f.1 ∧ e = entryAfter nameOffset start gs f := by
  induction fs generalizing nameOffset start with
  | nil => simp [listing, directory]
  | cons f fs ih =>
    have hcons : listing nameOffset start (f :: fs) =
        (f.1, entryAfter nameOffset start [] f) ::
          listing (nameOffset + f.1.length) (roundUp contentAlignment (start + f.2.length)) fs := rfl
    have hafter (gs : List File) (g : File) : entryAfter nameOffset start (f :: gs) g =
        entryAfter (nameOffset + f.1.length) (roundUp contentAlignment (start + f.2.length)) gs g := by
      rw [entryAfter, entryAfter, names_cons, length_append, add_assoc, contentEnd]
    rw [hcons, mem_cons, ih]
    constructor
    · rintro (h | ⟨gs, g, hs, rfl, hp, he⟩)
      · cases h
        exact ⟨[], f, fs, rfl, rfl, rfl⟩
      · exact ⟨f :: gs, g, hs, rfl, hp, he.trans (hafter gs g).symm⟩
    · rintro ⟨gs, g, hs, hfs, hp, he⟩
      cases gs with
      | nil =>
        cases hfs
        left
        rw [hp, he]
      | cons f' gs =>
        cases hfs
        right
        exact ⟨gs, g, hs, rfl, hp, he.trans (hafter gs g)⟩

theorem readDirectoryEntries_listing {fs : List File} (hutf : ∀ f ∈ fs, Utf8.valid f.1 = true)
    {start : Nat} {before behind pathData : Bytes}
    (hpath : pathData = before ++ (names fs ++ behind))
    (hfits : ∀ e ∈ directory before.length start fs, e.Fits) {bytes pre post : Bytes}
    (hb : bytes = pre ++ (directoryBytes (directory before.length start fs) ++ post))
    (m : DirectoryEntries) :
    ∃ pos, readDirectoryEntries pathData fs.length m ⟨bytes, pre.length⟩ =
      .ok (m.insertMany (listing before.length start fs)) ⟨bytes, pos⟩ := by
  induction fs generalizing start before pre m with
  | nil => exact ⟨_, rfl⟩
  | cons f fs ih =>
    set e := entryAfter before.length start [] f with he
    set next := roundUp contentAlignment (start + f.2.length)
    have hdir : directory before.length start (f :: fs) =
        e :: directory (before ++ f.1).length next fs := by
      rw [length_append]
      rfl
    have hlist : listing before.length start (f :: fs) =
        (f.1, e) :: listing (before ++ f.1).length next fs := by
      rw [length_append]
      rfl
    rw [hdir] at hb hfits
    have hefits : e.Fits := hfits e mem_cons_self
    have hcons (es : List DirectoryEntry) : directoryBytes (e :: es) =
        e.bytes ++ directoryBytes es := rfl
    rw [hcons, append_assoc] at hb
    have hread : deserializeDirectoryEntry ⟨bytes, pre.length⟩ =
        .ok e ⟨bytes, pre.length + directoryEntryLen⟩ := by
      rw [deserializeDirectoryEntry, readExact_bind hb e.bytes_length.symm rfl, hefits.ofBytes_bytes]
      rfl
    rw [names_cons, append_assoc] at hpath
    have hend : ¬ pathData.length < e.nameOffset + e.nameLength := by
      have hlen := congrArg List.length hpath
      simp only [length_append] at hlen
      change ¬ pathData.length < before.length + 0 + f.1.length
      omega
    have hname : (pathData.take (e.nameOffset + e.nameLength)).drop e.nameOffset = f.1 := by
      change (pathData.take (before.length + 0 + f.1.length)).drop (before.length + 0) = f.1
      rw [hpath, add_zero, take_length_add_append, drop_left, take_left]
    rw [← append_assoc] at hb hpath
    have hpos : pre.length + directoryEntryLen = (pre ++ e.bytes).length := by
      rw [length_append, e.bytes_length]
    obtain ⟨pos, hrest⟩ := ih (fun g hg => hutf g (mem_cons_of_mem _ hg)) hpath
      (fun d hd => hfits d (mem_cons_of_mem _ hd)) hb (m.insert f.1 e)
    refine ⟨pos, ?_⟩
    rw [length_cons, readDirectoryEntries, bind_ok hread]
    simp only [if_neg hend, hname, hutf f mem_cons_self, if_true]
    rw [hpos, hrest, hlist, TreeMap.insertMany_cons]

end Directory

section Entries
variable {fs : List File}

def directoryOf (fs : List File) : DirectoryEntries :=
  TreeMap.ofList (listing 0 (contentStart fs) fs)

theorem readDirectory_archive (h : Admissible fs) (hutf : ∀ f ∈ fs, Utf8.valid f.1 = true)
    (hlen : archiveLength fs < 2 ^ 64) :
    ∃ pos, Reader.readDirectory ⟨archive fs, 0⟩ = .ok (directoryOf fs) ⟨archive fs, pos⟩ := by
  have hcount : archiveIndex.length / indexEntryLen = 2 := rfl
  have hround := roundUp_lt (show 0 < 8 by decide) (names fs).length
  have htotal := h.namesTotal
  have halloc : allocate (nameIndex fs).length ⟨archive fs, (nameIndex fs).offset⟩ =
      .ok () ⟨archive fs, (nameIndex fs).offset⟩ := by
    have hsmall : (nameIndex fs).length < 2 ^ 63 := by
      change roundUp 8 (names fs).length < 2 ^ 63
      omega
    rw [allocate, if_pos hsmall]
    rfl
  obtain ⟨_, _, hdir, hdirpos⟩ := archive_directory fs
  obtain ⟨_, _, hnames, hnamepos⟩ := archive_names fs
  obtain ⟨pos, hloop⟩ :=
    readDirectoryEntries_listing hutf (show padTo 8 0 (names fs) = [] ++ (names fs ++ _) from rfl)
    (fun e he => h.entry_fits hlen he) hdir ∅
  refine ⟨pos, ?_⟩
  rw [Reader.readDirectory, bind_ok (readIndex_archive fs), hcount,
    bind_ok (readIndexEntries_archive hlen)]
  simp only [required, pure_bind]
  rw [seek_bind, bind_ok halloc, readExact_bind hnames (nameIndex_length fs) hnamepos, seek_bind,
    dirIndex_count, hdirpos, hloop]
  rw [directoryOf, TreeMap.ofList_eq_insertMany_empty]
  rfl

theorem directoryOf_getElem? (hnames : fs.Pairwise fun f g => compare f.1 g.1 = .lt) {p : Bytes}
    {e : DirectoryEntry} :
    (directoryOf fs)[p]? = some e ↔
      ∃ gs f hs, fs = gs ++ f :: hs ∧ p = f.1 ∧ e = entryAfter 0 (contentStart fs) gs f := by
  have hkeys := listing_keys 0 (contentStart fs) fs
  have hdistinct : (listing 0 (contentStart fs) fs).Pairwise fun a b => ¬ compare a.1 b.1 = .eq := by
    rw [← pairwise_map (f := Prod.fst) (R := fun a b => ¬ compare a b = .eq), hkeys, pairwise_map]
    apply hnames.imp
    intro f g hlt heq
    rw [hlt] at heq
    cases heq
  rw [← mem_listing]
  constructor
  · intro hget
    have hmem : p ∈ directoryOf fs := TreeMap.mem_iff_isSome_getElem?.mpr (by rw [hget]; rfl)
    have hlist := TreeMap.mem_ofList.mp hmem
    rw [contains_iff_mem] at hlist
    obtain ⟨⟨q, d⟩, hqd, rfl⟩ := mem_map.mp hlist
    have hd : (TreeMap.ofList (listing 0 (contentStart fs) fs))[q]? = some d :=
      TreeMap.getElem?_ofList_of_mem ReflCmp.compare_self hdistinct hqd
    rw [directoryOf, hd] at hget
    cases hget
    exact hqd
  · intro hmem
    exact TreeMap.getElem?_ofList_of_mem ReflCmp.compare_self hdistinct hmem

theorem directoryOf_keys (hnames : fs.Pairwise fun f g => compare f.1 g.1 = .lt) :
    (directoryOf fs).keys = fs.map Prod.fst := by
  apply Ordered.eq_of_mem_iff TreeMap.ordered_keys (pairwise_map.mpr hnames)
  intro p
  rw [TreeMap.mem_keys, directoryOf, TreeMap.mem_ofList, contains_iff_mem, listing_keys]

end Entries

section Files
variable {fs : List File}

theorem readAt_archive {gs : List File} {f : File} {hs : List File} (hfs : fs = gs ++ f :: hs)
    (hlen : archiveLength fs < 2 ^ 64) (pos : Nat) {k : Nat} (hk : k ≤ f.2.length) :
    EntryReader.readAt ⟨contentEnd (contentStart fs) gs, f.2.length, ⟨archive fs, pos⟩⟩ k =
      if f.2.length - k < 2 ^ 63 then
        .ok (f.2.drop k) ⟨archive fs, contentEnd (contentStart fs) gs + f.2.length⟩
      else .error .panic ⟨archive fs, contentEnd (contentStart fs) gs + k⟩ := by
  obtain ⟨pre, post, harch, hpre⟩ := archive_split gs f hs
  rw [← hfs] at harch hpre
  have hend := contentEnd_snoc_le (contentStart fs) gs f hs
  rw [← hfs] at hend
  change contentEnd (contentStart fs) fs < 2 ^ 64 at hlen
  have hadd : addU64 (contentEnd (contentStart fs) gs) k =
      .ok (contentEnd (contentStart fs) gs + k) :=
    addU64_ok (by omega)
  have hsplit : archive fs = (pre ++ f.2.take k) ++ (f.2.drop k ++ post) := by
    rw [harch, append_assoc, ← append_assoc (f.2.take k), take_append_drop]
  have hat : contentEnd (contentStart fs) gs + k = (pre ++ f.2.take k).length := by
    rw [length_append, hpre, length_take_of_le hk]
  have hrest : f.2.length - k = (f.2.drop k).length := (length_drop ..).symm
  rw [EntryReader.readAt, if_neg (Nat.not_lt.mpr hk)]
  simp only [hadd]
  rw [seek_bind]
  by_cases hvec : f.2.length - k < 2 ^ 63
  · have hread := readExact_append hsplit
    rw [← hat, ← hrest] at hread
    have hsum : contentEnd (contentStart fs) gs + k + (f.2.length - k) =
        contentEnd (contentStart fs) gs + f.2.length := by
      omega
    rw [hsum] at hread
    simp only [allocate, if_pos hvec, pure_bind]
    exact hread
  · simp only [allocate, if_neg hvec]
    rfl

end Files

/-- The reader with its source at another position, as other reads leave it. -/
def Reader.at (r : Reader) (pos : Nat) : Reader := { r with source := { r.source with pos } }

/-- The map given to `write`, with the size of each file. -/
def supplied (files : Std.TreeMap Bytes Bytes) : PathContentMap :=
  files.map fun _ c => (c.length, .ok c)

structure Placed (bytes : Bytes) (r : Reader) : Prop where
  aligned : ∀ (p : Bytes) (e : DirectoryEntry), r.directoryEntries[p]? = some e →
    contentAlignment ∣ e.dataOffset
  inside : ∀ (p : Bytes) (e : DirectoryEntry), r.directoryEntries[p]? = some e →
    e.dataOffset + e.dataLength ≤ bytes.length
  disjoint : ∀ (p q : Bytes) (e d : DirectoryEntry), r.directoryEntries[p]? = some e →
    r.directoryEntries[q]? = some d → p ≠ q →
    e.dataOffset + e.dataLength ≤ d.dataOffset ∨ d.dataOffset + d.dataLength ≤ e.dataOffset
  /-- The index, the directory and the names end before the data. -/
  chunks : ∃ index dirIndex nameIndex s s', readIndex ⟨bytes, 0⟩ = .ok index s ∧
    readIndexEntries index (index.length / indexEntryLen) none none none s =
      .ok (some dirIndex, some nameIndex) s' ∧
    ∀ (p : Bytes) (e : DirectoryEntry), r.directoryEntries[p]? = some e →
      indexLen + index.length ≤ e.dataOffset ∧
      dirIndex.offset + dirIndex.length ≤ e.dataOffset ∧
        nameIndex.offset + nameIndex.length ≤ e.dataOffset

theorem split_cases {α : Type} {gs gs' hs hs' : List α} {f f' : α}
    (h : gs ++ f :: hs = gs' ++ f' :: hs') :
    (∃ mid, gs' = gs ++ f :: mid) ∨ f = f' ∨ ∃ mid, gs = gs' ++ f' :: mid := by
  rcases append_eq_append_iff.mp h with ⟨mid, hgs, hhs⟩ | ⟨mid, hgs, hhs⟩
  · cases mid with
    | nil =>
      cases hhs
      exact .inr (.inl rfl)
    | cons g mid =>
      cases hhs
      exact .inl ⟨mid, hgs⟩
  · cases mid with
    | nil =>
      cases hhs
      exact .inr (.inl rfl)
    | cons g mid =>
      cases hhs
      exact .inr (.inr ⟨mid, hgs⟩)

variable {fs : List File} {r : Reader} {p : Bytes} {e : DirectoryEntry}
  {files : Std.TreeMap Bytes Bytes}

theorem archive_placed (hlen : archiveLength fs < 2 ^ 64)
    (hnames : fs.Pairwise fun f g => compare f.1 g.1 = .lt) (source : Cursor) :
    Placed (archive fs) ⟨source, directoryOf fs⟩ := by
  refine ⟨?_, ?_, ?_, ?_⟩
  · intro p e he
    obtain ⟨gs, f, hs, _, _, rfl⟩ := (directoryOf_getElem? hnames).mp he
    exact contentEnd_dvd (contentStart_dvd fs) gs
  · intro p e he
    obtain ⟨gs, f, hs, hfs, _, rfl⟩ := (directoryOf_getElem? hnames).mp he
    have hend := contentEnd_snoc_le (contentStart fs) gs f hs
    rw [← hfs] at hend
    rw [archive_length]
    exact hend
  · intro p q e d he hd hne
    obtain ⟨gs, f, hs, hfs, hp, rfl⟩ := (directoryOf_getElem? hnames).mp he
    obtain ⟨gs', f', hs', hfs', hq, rfl⟩ := (directoryOf_getElem? hnames).mp hd
    rcases split_cases (hfs.symm.trans hfs') with ⟨mid, rfl⟩ | rfl | ⟨mid, rfl⟩
    · exact .inl (contentEnd_snoc_le (contentStart fs) gs f mid)
    · exact absurd (hp.trans hq.symm) hne
    · exact .inr (contentEnd_snoc_le (contentStart fs) gs' f' mid)
  · refine ⟨archiveIndex, dirIndex fs, nameIndex fs, _, _, readIndex_archive fs,
      readIndexEntries_archive hlen, ?_⟩
    intro p e he
    obtain ⟨gs, f, hs, _, _, rfl⟩ := (directoryOf_getElem? hnames).mp he
    have hstart := le_contentEnd (contentStart fs) gs
    have hchunks := chunksEnd_le fs
    unfold chunksEnd at hchunks
    change indexLen + 2 * indexEntryLen ≤ contentEnd (contentStart fs) gs ∧
      indexLen + 2 * indexEntryLen + fs.length * directoryEntryLen ≤ contentEnd (contentStart fs) gs ∧
      indexLen + 2 * indexEntryLen + fs.length * directoryEntryLen + namesLength fs ≤
        contentEnd (contentStart fs) gs
    omega

theorem supplied_toList (files : Std.TreeMap Bytes Bytes) :
    (supplied files).toList = files.toList.map supply := by
  rw [supplied, TreeMap.toList_map]
  rfl

theorem Reader.open_at (he : r.directoryEntries[p]? = some e) (pos : Nat) :
    (r.at pos).open p = .ok ⟨e.dataOffset, e.dataLength, { r.source with pos }⟩ := by
  simp only [Reader.open, Reader.findDirectoryEntry, Reader.at, he]
  rfl

theorem Reader.readFile_at (he : r.directoryEntries[p]? = some e) (pos : Nat) :
    (r.at pos).readFile p =
      match EntryReader.readAt ⟨e.dataOffset, e.dataLength, { r.source with pos }⟩ 0 with
      | .ok data source => (.ok data, { r with source })
      | .error fault source => (.error fault, { r with source }) := by
  simp only [Reader.readFile, Reader.open_at he]
  rfl

theorem mem_of_toList {f : File} (hf : f ∈ files.toList) : f.1 ∈ files := by
  have hget : files[f.1]? = some f.2 := TreeMap.mem_toList_iff_getElem?_eq_some.mp hf
  exact TreeMap.mem_iff_isSome_getElem?.mpr (by rw [hget]; rfl)

theorem admissible_toList (hname : ∀ p ∈ files, p.length ≤ 65535)
    (hnames : (names files.toList).length < 2 ^ 32) : Admissible files.toList :=
  ⟨fun f hf => hname f.1 (mem_of_toList hf), hnames⟩

theorem write_new (hutf : ∀ p ∈ files, Utf8.valid p = true) (hname : ∀ p ∈ files, p.length ≤ 65535)
    (hnames : (names files.toList).length < 2 ^ 32) (hlen : archiveLength files.toList < 2 ^ 64) :
    ∃ pos, write (supplied files) = .ok (archive files.toList) ∧
      Reader.new ⟨archive files.toList, 0⟩ =
        .ok ⟨⟨archive files.toList, pos⟩, directoryOf files.toList⟩ := by
  have hadm := admissible_toList hname hnames
  obtain ⟨pos, hdir⟩ := readDirectory_archive hadm (fun f hf => hutf f.1 (mem_of_toList hf)) hlen
  refine ⟨pos, write_eq hadm hlen (supplied_toList files), ?_⟩
  simp only [Reader.new, hdir]

theorem readFile_panic {gs hs : List File} {f : File} (hfs : fs = gs ++ f :: hs)
    (hsorted : fs.Pairwise fun f g => compare f.1 g.1 = .lt) (hlen : archiveLength fs < 2 ^ 64)
    (hvec : 2 ^ 63 ≤ f.2.length) (pos : Nat) :
    (Reader.readFile ⟨⟨archive fs, pos⟩, directoryOf fs⟩ f.1).1 = .error .panic := by
  have hentry := (directoryOf_getElem? hsorted).mpr ⟨gs, f, hs, hfs, rfl, rfl⟩
  have hread := readAt_archive hfs hlen pos (Nat.zero_le _)
  rw [Nat.sub_zero, if_neg (Nat.not_lt.mpr hvec)] at hread
  have hfile := @Reader.readFile_at ⟨⟨archive fs, pos⟩, directoryOf fs⟩ f.1 _ hentry pos
  simp only [entryAfter, hread] at hfile
  exact congrArg Prod.fst hfile

theorem entry_reads (hlen : archiveLength files.toList < 2 ^ 64) {c : Bytes}
    (hp : files[p]? = some c) (hvec : c.length < 2 ^ 63) :
    ∃ e, (directoryOf files.toList)[p]? = some e ∧ ∀ pos {k}, k ≤ c.length →
      EntryReader.readAt ⟨e.dataOffset, e.dataLength, ⟨archive files.toList, pos⟩⟩ k =
        .ok (c.drop k) ⟨archive files.toList, e.dataOffset + c.length⟩ := by
  have hsorted : files.toList.Pairwise fun f g => compare f.1 g.1 = .lt := TreeMap.ordered_keys_toList
  obtain ⟨gs, hs, hfs⟩ := append_of_mem (TreeMap.mem_toList_iff_getElem?_eq_some.mpr hp)
  refine ⟨_, (directoryOf_getElem? hsorted).mpr ⟨gs, (p, c), hs, hfs, rfl, rfl⟩, ?_⟩
  intro pos k hk
  exact (readAt_archive hfs hlen pos hk).trans (if_pos (Nat.lt_of_le_of_lt (Nat.sub_le ..) hvec))

/-- Archives round trip, as long as offsets are 64-bit numbers and a file fits in a vector. -/
theorem archive_round_trip (files : Std.TreeMap Bytes Bytes)
    (hutf : ∀ p ∈ files, Utf8.valid p = true) (hname : ∀ p ∈ files, p.length ≤ 65535)
    (hnames : (names files.toList).length < 2 ^ 32) (hlen : archiveLength files.toList < 2 ^ 64)
    (hvec : ∀ p c : Bytes, files[p]? = some c → c.length < 2 ^ 63) :
    ∃ bytes r, write (supplied files) = .ok bytes ∧ Reader.new ⟨bytes, 0⟩ = .ok r ∧
      r.list = files.keys ∧
      contentAlignment ∣ bytes.length ∧ Placed bytes r ∧
      ∀ p c : Bytes, files[p]? = some c →
        ∀ pos, (∃ pos', (r.at pos).readFile p = (.ok c, r.at pos')) ∧
        ∃ e, (r.at pos).open p = .ok e ∧ ∀ k ≤ c.length, ∃ s, e.readAt k = .ok (c.drop k) s := by
  have hsorted : files.toList.Pairwise fun f g => compare f.1 g.1 = .lt := TreeMap.ordered_keys_toList
  obtain ⟨start, hwrite, hnew⟩ := write_new hutf hname hnames hlen
  refine ⟨_, _, hwrite, hnew, ?_, ?_, archive_placed hlen hsorted _, ?_⟩
  · exact (directoryOf_keys hsorted).trans TreeMap.map_fst_toList_eq_keys
  · rw [archive_length]
    exact contentEnd_dvd (contentStart_dvd _) _
  · intro p c hp pos
    obtain ⟨e, hentry, hread⟩ := entry_reads hlen hp (hvec p c hp)
    constructor
    · refine ⟨e.dataOffset + c.length, ?_⟩
      rw [Reader.readFile_at hentry]
      simp only [hread pos (Nat.zero_le _), drop_zero]
      rfl
    · exact ⟨_, Reader.open_at hentry pos, fun k hk => ⟨_, hread pos hk⟩⟩

def twoFiles : Std.TreeMap Bytes Bytes := .ofList [(([98] : Bytes), ([] : Bytes)), ([97], [1, 2, 3])]

theorem archive_round_trip_two_files : ∃ bytes r, write (supplied twoFiles) = .ok bytes ∧
    Reader.new ⟨bytes, 0⟩ = .ok r ∧ r.list = [[97], [98]] ∧ Placed bytes r ∧
    (r.readFile [97]).1 = .ok [1, 2, 3] ∧ (r.readFile [98]).1 = .ok [] := by
  have hkeys : ∀ p ∈ twoFiles.keys, Utf8.valid p = true ∧ p.length ≤ 65535 := by decide +kernel
  have hfiles : ∀ f ∈ twoFiles.toList, f.2.length < 2 ^ 63 := by decide +kernel
  obtain ⟨bytes, r, hwrite, hnew, hlist, _, hplaced, hread⟩ := archive_round_trip twoFiles
    (fun p hp => (hkeys p (TreeMap.mem_keys.mpr hp)).1)
      (fun p hp => (hkeys p (TreeMap.mem_keys.mpr hp)).2)
    (by decide +kernel) (by decide +kernel)
    (fun p c hp => hfiles (p, c) (TreeMap.mem_toList_iff_getElem?_eq_some.mpr hp))
  obtain ⟨⟨_, ha⟩, _⟩ := hread [97] [1, 2, 3] (by decide +kernel) r.source.pos
  obtain ⟨⟨_, hb⟩, _⟩ := hread [98] [] (by decide +kernel) r.source.pos
  exact ⟨bytes, r, hwrite, hnew, hlist.trans (by decide +kernel), hplaced, congrArg Prod.fst ha,
    congrArg Prod.fst hb⟩

variable (c : Bytes)

def twice : Std.TreeMap Bytes Bytes := .ofList [(([97] : Bytes), c), ([98], c)]

def once : Std.TreeMap Bytes Bytes := .ofList [(([97] : Bytes), c)]

theorem twice_toList : (twice c).toList = [([97], c), ([98], c)] := rfl

theorem twice_start : contentStart [([97], c), ([98], c)] = 4096 := by
  simp [contentStart, chunksEnd, namesLength, names]
  decide

theorem once_start : contentStart [([97], c)] = 4096 := by
  simp [contentStart, chunksEnd, namesLength, names]
  decide

theorem once_toList : (once c).toList = [([97], c)] := rfl

/-- Two files of `2 ^ 63` bytes do not fit in an archive, and one of them is not read into a
vector. -/
theorem huge_files_fail : write (supplied (twice (List.replicate (2 ^ 63) 0))) = .error .panic ∧
    ∃ bytes r, write (supplied (once (List.replicate (2 ^ 63) 0))) = .ok bytes ∧
      Reader.new ⟨bytes, 0⟩ = .ok r ∧ (r.readFile [97]).1 = .error .panic := by
  have hlen : (List.replicate (2 ^ 63) 0 : Bytes).length = 2 ^ 63 := length_replicate
  -- only the length matters from here on
  generalize (List.replicate (2 ^ 63) 0 : Bytes) = c at hlen ⊢
  constructor
  · have hend : archiveLength [([97], c), ([98], c)] = 2 ^ 64 + 4096 := by
      simp only [archiveLength, contentEnd, hlen, twice_start]
      decide
    refine @write_panic (twice c).toList _ ?_ ?_ ?_ (supplied_toList _)
    · rw [twice_toList]
      exact ⟨by simp, by simp [names]⟩
    · rw [twice_toList, twice_start]
      decide
    · rw [twice_toList, hend]
      decide
  · have hend : archiveLength [([97], c)] = 2 ^ 63 + 4096 := by
      simp only [archiveLength, contentEnd, hlen, once_start]
      decide
    have hkeys : ∀ p ∈ once c, p = [97] := by
      intro p hp
      have hmem := TreeMap.mem_keys.mpr hp
      rw [← TreeMap.map_fst_toList_eq_keys, once_toList] at hmem
      exact mem_singleton.mp hmem
    have hfit : archiveLength (once c).toList < 2 ^ 64 := by
      rw [once_toList, hend]
      decide
    obtain ⟨pos, hwrite, hnew⟩ := @write_new (once c) (fun p hp => by rw [hkeys p hp]; decide)
      (fun p hp => by rw [hkeys p hp]; decide) (by rw [once_toList]; simp [names]) hfit
    refine ⟨_, _, hwrite, hnew, ?_⟩
    exact readFile_panic (show (once c).toList = [] ++ ([97], c) :: [] from once_toList c)
      TreeMap.ordered_keys_toList
      hfit (Nat.le_of_eq hlen.symm) pos

end Garnet.Far
