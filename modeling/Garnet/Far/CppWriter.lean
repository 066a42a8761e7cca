import Mathlib.Data.List.Sort
import Garnet.Lib.Cursor
import Garnet.Far.Writer

/-! The archive writer of the C++ library, on an open file. A call that returns false has written
its message to the error output. -/

namespace Garnet.Far.Cpp
open List
open LittleEndian Cursor

def kMagic : Nat := 0x11c5abad480bbfc8

def alignToPage (offset : Nat) : Nat := ((offset + 4095) % 2 ^ 64) &&& (2 ^ 64 - 1 - 4095)

def alignTo8ByteBoundary (offset : Nat) : Nat := ((offset + 7) % 2 ^ 64) &&& (2 ^ 64 - 1 - 7)

structure ArchiveEntry where
  srcPath : Bytes
  dstPath : Bytes
  deriving DecidableEq

variable (entries : List ArchiveEntry)

def pathData : Bytes := entries.flatMap ArchiveEntry.dstPath

/-- `std::sort`, by the destination path. -/
def sortEntries : List ArchiveEntry :=
  entries.mergeSort fun a b => compare a.dstPath b.dstPath ≠ .gt

theorem pathData_sortEntries :
    (pathData (sortEntries entries)).length = (pathData entries).length :=
  ((mergeSort_perm ..).flatMap_right _).length_eq

structure ArchiveWriter where
  entries : List ArchiveEntry
  dirty : Bool
  totalPathLength : Nat
  total_eq : totalPathLength = (pathData entries).length
  total_le : totalPathLength ≤ 2 ^ 32 - 1

namespace ArchiveWriter

def new : ArchiveWriter := ⟨[], true, 0, rfl, Nat.zero_le _⟩

def add (w : ArchiveWriter) (entry : ArchiveEntry) : Bool × ArchiveWriter :=
  let size := entry.dstPath.length
  if size > 65535 then (false, w)
  else if h : size > 2 ^ 32 - 1 - w.totalPathLength then (false, w)
  else
    (true, {
      entries := w.entries ++ [entry]
      dirty := true
      totalPathLength := w.totalPathLength + size
      total_eq := by
        rw [w.total_eq, pathData, pathData, flatMap_append, length_append, flatMap_singleton]
      total_le := by
        have hle := w.total_le
        omega })

/-- The calls of `add` that put entries into a new writer. -/
def addAll : Bool × ArchiveWriter :=
  entries.foldl (fun (ok, w) entry => let (added, w) := w.add entry; (ok && added, w)) (true, new)

def sort (w : ArchiveWriter) : ArchiveWriter :=
  if w.dirty then
    { w with
      entries := sortEntries w.entries
      dirty := false
      total_eq := w.total_eq.trans (pathData_sortEntries _).symm }
  else w

end ArchiveWriter

def duplicateEntry : List ArchiveEntry → Option Bytes
  | a :: b :: rest => if a.dstPath = b.dstPath then some a.dstPath else duplicateEntry (b :: rest)
  | _ => none

def check (message : String) (op : Cursor → Option Cursor) : EStateM Fault Cursor Unit := fun s =>
  match op s with
  | some s' => .ok () s'
  | none => .error (.error message) s

def kBufferSize : Nat := 64 * 1024

/-- `CopyFileToFile` from the place in `src` that is reached; `fuel` bounds the number of reads. -/
def copyFileToFile (length : Nat) : Nat → Bytes → Nat → Cursor → Option Cursor
  | 0, _, _, _ => none
  | fuel + 1, src, copied, dst =>
    if copied < length then
      let buffer := src.take (min kBufferSize (length - copied))
      if buffer = [] then none
      else
        match writeAll buffer dst with
        | none => none
        | some dst => copyFileToFile length fuel (src.drop buffer.length) (copied + buffer.length) dst
    else some dst

def copyPathToFile (disk : Disk) (srcPath : Bytes) (length : Nat) (dst : Cursor) : Option Cursor :=
  match disk srcPath with
  | none => none
  | some src => copyFileToFile length (length + 1) src 0 dst

/-- `stat`: a size is an `off_t`. -/
def fileLength (disk : Disk) (path : Bytes) : Option Nat :=
  (disk path).bind fun data => if data.length < 2 ^ 63 then some data.length else none

def directoryTable (disk : Disk) :
    List ArchiveEntry → Nat → Nat → Except Fault (List DirectoryEntry)
  | [], _, _ => pure []
  | entry :: entries, nameOffset, dataOffset =>
    match fileLength disk entry.srcPath with
    | none => .error (.error ("error: Failed to read length of file: " ++ text entry.srcPath))
    | some dataLength =>
      if dataLength > 2 ^ 64 - 1 - dataOffset then
        .error (.error ("error: File overflowed total archive size: " ++ text entry.srcPath))
      else do
        let nameLength := entry.dstPath.length % 2 ^ 16
        let rest ← directoryTable disk entries ((nameOffset + nameLength) % 2 ^ 32)
          (alignToPage ((dataOffset + dataLength) % 2 ^ 64))
        pure (⟨nameOffset, nameLength, 0, dataOffset, dataLength, 0⟩ :: rest)

def writeFiles (disk : Disk) : List ArchiveEntry → List DirectoryEntry → EStateM Fault Cursor Unit
  | entry :: entries, directoryEntry :: table => do
    check "error: Failed to seek to data offset." (lseek directoryEntry.dataOffset)
    check ("error: Failed to write file data: " ++ text entry.srcPath)
      (copyPathToFile disk entry.srcPath directoryEntry.dataLength)
    writeFiles disk entries table
  | _, _ => pure ()

/-- `Write` from the directory index on, for a writer that has entries. -/
def writeEntries (disk : Disk) (w : ArchiveWriter) (nextChunk : Nat) : EStateM Fault Cursor Unit := do
  let dirEntry : IndexEntry := ⟨dirChunk, nextChunk, w.entries.length * directoryEntryLen % 2 ^ 64⟩
  let nextChunk := (nextChunk + dirEntry.length) % 2 ^ 64
  check "error: Failed to write directory index chunk." (writeAll dirEntry.bytes)
  let dirnamesEntry : IndexEntry := ⟨dirNamesChunk, nextChunk, alignTo8ByteBoundary w.totalPathLength⟩
  let nextChunk := (nextChunk + dirnamesEntry.length) % 2 ^ 64
  check "error: Failed to write directory names index chunk" (writeAll dirnamesEntry.bytes)
  let table ← reading id fun _ => directoryTable disk w.entries 0 (alignToPage nextChunk)
  check "error: Failed to write directory table." (writeAll (directoryBytes table))
  check "error: Failed to write path data." (writeAll (pathData w.entries))
  writeFiles disk w.entries table
  match table.getLast? with
  | some directoryEntry =>
    check "error: Failed to truncate archive to proper length."
      (ftruncate (alignToPage ((directoryEntry.dataOffset + directoryEntry.dataLength) % 2 ^ 64)))
  | none => pure ()

/-- `Write`. The writer that is left has its entries in order. -/
def write (disk : Disk) (w : ArchiveWriter) : EStateM Fault Cursor ArchiveWriter := do
  let w := w.sort
  match duplicateEntry w.entries with
  | some path => throw (.error ("error: Archive has duplicate path: '" ++ text path ++ "'"))
  | none => do
    check "error: Failed to seek to beginning of archive." (lseek 0)
    let indexCount := if w.entries = [] then 0 else 2
    let index : Index := ⟨toLe 8 kMagic, indexCount * indexEntryLen⟩
    check "error: Failed to write index chunk." (writeAll index.bytes)
    if w.entries = [] then pure w
    else do
      writeEntries disk w (indexLen + index.length)
      pure w

section Files

theorem alignToPage_eq {i : Nat} (h : roundUp contentAlignment i < 2 ^ 63) :
    alignToPage i = roundUp contentAlignment i := by
  have hle := le_roundUp contentAlignment_pos i
  exact @and_high_bits_roundUp 64 12 i (by decide) (by omega)

theorem alignTo8ByteBoundary_eq {i : Nat} (h : i < 2 ^ 63) : alignTo8ByteBoundary i = roundUp 8 i :=
  @and_high_bits_roundUp 64 3 i (by decide) (by omega)

theorem check_ok {message : String} {op : Cursor → Option Cursor} {s s' : Cursor}
    (h : op s = some s') : check message op s = .ok () s' := by
  simp only [check, h]

theorem copyFileToFile_eq {length : Nat} {src : Bytes} {copied : Nat}
    (hsrc : copied + src.length = length) {dst : Cursor} (hend : dst.bytes.length ≤ dst.pos)
    (hlim : dst.pos + src.length < 2 ^ 63) {fuel : Nat} (hfuel : src.length < fuel) :
    copyFileToFile length fuel src copied dst = some (put src dst) := by
  induction fuel generalizing src copied dst with
  | zero => omega
  | succ fuel ih =>
    rw [copyFileToFile]
    by_cases hdone : copied < length
    · set buffer := src.take (min kBufferSize (length - copied)) with hbuffer
      have hlen : buffer.length = min kBufferSize src.length := by
        rw [hbuffer, length_take, ← hsrc, Nat.add_sub_cancel_left, Nat.min_assoc, Nat.min_self]
      have hpos : 0 < buffer.length := by
        rw [hlen]
        have hsize : 0 < kBufferSize := by decide
        omega
      have hsplit : src = buffer ++ src.drop buffer.length := by
        conv_lhs => rw [← take_append_drop buffer.length src]
        rw [hlen, hbuffer, ← hsrc, Nat.add_sub_cancel_left, ← take_eq_take_min]
      have hdrop : (src.drop buffer.length).length = src.length - buffer.length := length_drop
      have hwrite : writeAll buffer dst = some (put buffer dst) := writeAll_eq hend (by omega)
      have hrest := @ih (src.drop buffer.length) (copied + buffer.length) (by omega) (put buffer dst)
        (by rw [put_pos]; exact put_length_le hend) (by rw [put_pos]; omega) (by omega)
      simp only [if_pos hdone, if_neg (ne_nil_of_length_pos hpos), hwrite]
      rw [hrest, ← put_append hend, ← hsplit]
    · have hnil : src = [] := length_eq_zero_iff.mp (by omega)
      rw [if_neg hdone, hnil, put, if_pos rfl]

def Holds (disk : Disk) : List ArchiveEntry → List File → Prop :=
  List.Forall₂ fun entry f => entry.dstPath = f.1 ∧ disk entry.srcPath = some f.2

theorem directoryTable_eq {disk : Disk} {entries : List ArchiveEntry} {fs : List File}
    (hd : Holds disk entries fs) (hname : ∀ f ∈ fs, f.1.length ≤ 65535) {nameOffset start : Nat}
    (htotal : nameOffset + (names fs).length < 2 ^ 32) (hend : contentEnd start fs < 2 ^ 63) :
    directoryTable disk entries nameOffset start = .ok (directory nameOffset start fs) := by
  induction hd generalizing nameOffset start with
  | nil => rfl
  | @cons entry f entries fs hf _ ih =>
    obtain ⟨hround, hnext, hend⟩ := contentEnd_cons_lt hend
    have hlen : f.1.length ≤ 65535 := hname f mem_cons_self
    rw [names_cons, length_append] at htotal
    have hstat : fileLength disk entry.srcPath = some f.2.length := by
      rw [fileLength, hf.2]
      exact if_pos (by omega)
    have hfit : ¬ f.2.length > 2 ^ 64 - 1 - start := by omega
    have hmod : entry.dstPath.length % 2 ^ 16 = f.1.length := by
      rw [hf.1]
      exact Nat.mod_eq_of_lt (by omega)
    have hsum : (start + f.2.length) % 2 ^ 64 = start + f.2.length := Nat.mod_eq_of_lt (by omega)
    have hnames : (nameOffset + f.1.length) % 2 ^ 32 = nameOffset + f.1.length :=
      Nat.mod_eq_of_lt (by omega)
    have hrest := ih (fun g hg => hname g (mem_cons_of_mem _ hg))
      (show nameOffset + f.1.length + (names fs).length < 2 ^ 32 by omega) hend
    simp only [directoryTable, hstat, if_neg hfit, hmod, hsum, hnames, alignToPage_eq hnext,
      hrest, ok_bind, directory, except_pure]

/-- The loop over the files: once the file is brought to its final length, their contents stand
in it one after the other, each padded to a page. -/
theorem writeFiles_eq {disk : Disk} {entries : List ArchiveEntry} {fs : List File}
    (hd : Holds disk entries fs) {start : Nat} (hstart : contentAlignment ∣ start)
    (hend : contentEnd start fs < 2 ^ 63) (nameOffset : Nat) {s : Cursor}
    (hs : s.bytes.length ≤ start) :
    ∃ s', writeFiles disk entries (directory nameOffset start fs) s = .ok () s' ∧
      s'.bytes.length ≤ contentEnd start fs ∧
      grow (contentEnd start fs) s'.bytes = grow start s.bytes ++ contents fs := by
  induction hd generalizing start nameOffset s with
  | nil => exact ⟨s, rfl, hs, (append_nil _).symm⟩
  | @cons entry f entries fs hf _ ih =>
    obtain ⟨hround, hnext, hend⟩ := contentEnd_cons_lt hend
    have hseek : lseek start s = some ⟨s.bytes, start⟩ := if_pos (by omega)
    have hcopy : copyPathToFile disk entry.srcPath f.2.length ⟨s.bytes, start⟩ =
        some (put f.2 ⟨s.bytes, start⟩) := by
      simp only [copyPathToFile, hf.2]
      exact copyFileToFile_eq (zero_add _) hs (show start + f.2.length < 2 ^ 63 by omega)
        (Nat.lt_succ_self _)
    have hput : (put f.2 ⟨s.bytes, start⟩).bytes.length ≤ start + f.2.length := put_length_le hs
    obtain ⟨s', hrest, hlen, hgrow⟩ := ih (dvd_roundUp ..) hend (nameOffset + f.1.length)
      (le_trans hput hround)
    refine ⟨s', ?_, hlen, ?_⟩
    · rw [directory, writeFiles, bind_ok (check_ok hseek), bind_ok (check_ok hcopy)]
      exact hrest
    · have hpad : roundUp contentAlignment (start + f.2.length) - start =
          roundUp contentAlignment f.2.length := by
        rw [roundUp_add_of_dvd contentAlignment_pos hstart, Nat.add_sub_cancel_left]
      rw [contentEnd, hgrow, grow_put hs hround, hpad, contents_cons, append_assoc]
      rfl

theorem contentEnd_concat (start : Nat) (gs : List File) (f : File) :
    contentEnd start (gs ++ [f]) = roundUp contentAlignment (contentEnd start gs + f.2.length) := by
  rw [contentEnd_append]
  rfl

end Files

section Write

theorem kMagic_bytes : toLe 8 kMagic = magicIndexValue := by decide

variable {disk : Disk} {fs : List File} {w : ArchiveWriter}

theorem pathData_eq {entries : List ArchiveEntry} (hd : Holds disk entries fs) :
    pathData entries = names fs := by
  induction hd with
  | nil => rfl
  | cons hf _ ih =>
    rw [names_cons, ← ih, ← hf.1]
    rfl

/-- The chunks as this writer puts them, without the padding of the names. -/
def rawChunks (fs : List File) : Bytes :=
  archiveIndex.bytes ++ ((dirIndex fs).bytes ++ ((nameIndex fs).bytes ++
    (directoryBytes (directory 0 (contentStart fs) fs) ++ names fs)))

theorem rawChunks_length (fs : List File) :
    (rawChunks fs).length + (namesLength fs - (names fs).length) = chunksEnd fs := by
  have hle := le_roundUp (show 0 < 8 by decide) (names fs).length
  rw [rawChunks, length_append, length_append, length_append, length_append,
    archiveIndex_fits.bytes_length, IndexEntry.bytes_length, IndexEntry.bytes_length,
      directoryBytes_length,
    directory_length, chunksEnd, namesLength]
  omega

theorem grow_rawChunks (fs : List File) :
    grow (contentStart fs) (rawChunks fs) = padTo contentAlignment 0 (chunks fs) := by
  have hchunks :
      chunks fs = rawChunks fs ++ List.replicate (namesLength fs - (names fs).length) 0 := by
    rw [chunks, rawChunks, padTo]
    simp only [append_assoc]
    rfl
  have hle := chunksEnd_le fs
  have hlen := rawChunks_length fs
  rw [← grow_replicate
    (show (rawChunks fs).length + (namesLength fs - (names fs).length) ≤ contentStart fs by omega),
    ← hchunks, grow, padTo, chunks_length]
  rfl

theorem directory_getLast? (hne : fs ≠ []) (nameOffset start : Nat) :
    ∃ d, (directory nameOffset start fs).getLast? = some d ∧
      roundUp contentAlignment (d.dataOffset + d.dataLength) = contentEnd start fs := by
  rcases eq_nil_or_concat fs with hnil | ⟨gs, f, rfl⟩
  · exact absurd hnil hne
  · refine ⟨entryAfter nameOffset start gs f, ?_, ?_⟩
    · rw [concat_eq_append, directory_append]
      exact List.getLast?_concat
    · rw [concat_eq_append, contentEnd_concat]
      rfl

theorem check_append {message : String} {p b : Bytes} (hlim : p.length + b.length < 2 ^ 63) :
    check message (writeAll b) ⟨p, p.length⟩ = .ok () ⟨p ++ b, (p ++ b).length⟩ := by
  have hput : put b ⟨p, p.length⟩ = ⟨p ++ b, (p ++ b).length⟩ := by
    rw [put, grow_of_le (le_refl _), length_append]
    split
    next h => rw [h, append_nil, length_nil, add_zero]
    next => rfl
  rw [← hput]
  exact check_ok (writeAll_eq (le_refl _) hlim)

theorem writeEntries_eq (hd : Holds disk w.entries fs)
    (h : Admissible fs) (hlen : archiveLength fs < 2 ^ 63) (hne : fs ≠ []) :
    ∃ pos, writeEntries disk w (indexLen + 2 * indexEntryLen)
      ⟨archiveIndex.bytes, archiveIndex.bytes.length⟩ =
      .ok () ⟨archive fs, pos⟩ := by
  have hchunks := chunksEnd_le fs
  have hstart := contentStart_le fs
  have hraw := rawChunks_length fs
  have hcount : w.entries.length * directoryEntryLen % 2 ^ 64 = fs.length * directoryEntryLen := by
    rw [List.Forall₂.length_eq hd]
    unfold chunksEnd at hchunks
    exact Nat.mod_eq_of_lt (by omega)
  have hnames : alignTo8ByteBoundary w.totalPathLength = namesLength fs := by
    have hle := w.total_le
    rw [alignTo8ByteBoundary_eq (by omega), w.total_eq, pathData_eq hd]
    rfl
  have hoff : (indexLen + 2 * indexEntryLen + fs.length * directoryEntryLen) % 2 ^ 64 =
      indexLen + 2 * indexEntryLen + fs.length * directoryEntryLen := by
    unfold chunksEnd at hchunks
    exact Nat.mod_eq_of_lt (by omega)
  have hend : (indexLen + 2 * indexEntryLen + fs.length * directoryEntryLen +
      namesLength fs) % 2 ^ 64 = chunksEnd fs :=
    Nat.mod_eq_of_lt (show chunksEnd fs < 2 ^ 64 by omega)
  have hpage : alignToPage (chunksEnd fs) = contentStart fs :=
    alignToPage_eq (lt_of_le_of_lt hstart hlen)
  have htable : directoryTable disk w.entries 0 (contentStart fs) =
      .ok (directory 0 (contentStart fs) fs) :=
    directoryTable_eq hd h.nameLength (by simpa using h.namesTotal) hlen
  obtain ⟨s, hfiles, hsize, hgrow⟩ :=
    @writeFiles_eq disk w.entries fs hd _ (contentStart_dvd fs) hlen 0
    ⟨rawChunks fs, (rawChunks fs).length⟩ (show (rawChunks fs).length ≤ contentStart fs by omega)
  obtain ⟨d, hlast, hdend⟩ := directory_getLast? hne 0 (contentStart fs)
  change contentEnd (contentStart fs) fs < 2 ^ 63 at hlen
  have htrunc : ftruncate (alignToPage ((d.dataOffset + d.dataLength) % 2 ^ 64)) s =
      some ⟨archive fs, s.pos⟩ := by
    have hdle := le_roundUp contentAlignment_pos (d.dataOffset + d.dataLength)
    have hmod : (d.dataOffset + d.dataLength) % 2 ^ 64 = d.dataOffset + d.dataLength :=
      Nat.mod_eq_of_lt (by omega)
    rw [hmod, alignToPage_eq (by rw [hdend]; exact hlen), hdend, ftruncate, if_pos hlen,
      take_of_length_le hsize, hgrow, grow_rawChunks]
    rfl
  -- the chunks are written one behind the other
  have hrawlt : (rawChunks fs).length < 2 ^ 63 := by
    change contentStart fs ≤ contentEnd (contentStart fs) fs at hstart
    omega
  have hall : archiveIndex.bytes ++ (dirIndex fs).bytes ++ (nameIndex fs).bytes ++
      directoryBytes (directory 0 (contentStart fs) fs) ++ pathData w.entries = rawChunks fs := by
    rw [pathData_eq hd, rawChunks]
    simp only [append_assoc]
  have hlens := congrArg List.length hall
  simp only [length_append] at hlens
  refine ⟨s.pos, ?_⟩
  rw [writeEntries, hcount]
  simp only [hoff, hnames, hend, hpage]
  change (check _ (writeAll (dirIndex fs).bytes) >>= fun _ => check _ (writeAll (nameIndex fs).bytes) >>= _) _ = _
  rw [bind_ok (check_append (by omega)), bind_ok (check_append (by rw [length_append]; omega)),
    reading_bind, htable]
  dsimp only
  rw [bind_ok (check_append (by simp only [length_append]; omega)),
    bind_ok (check_append (by simp only [length_append]; omega)), hall, bind_ok hfiles, hlast]
  exact check_ok htrunc

theorem write_eq_archive (hd : Holds disk w.sort.entries fs) (h : Admissible fs)
    (hlen : archiveLength fs < 2 ^ 63) (hne : fs ≠ [])
    (hdup : duplicateEntry w.sort.entries = none) :
    ∃ pos, write disk w ⟨[], 0⟩ = .ok w.sort ⟨archive fs, pos⟩ := by
  have hentries : w.sort.entries ≠ [] := by
    intro hnil
    rw [hnil] at hd
    cases hd
    exact hne rfl
  obtain ⟨pos, hwrite⟩ := writeEntries_eq hd h hlen hne
  have hseek : lseek 0 ⟨[], 0⟩ = some ⟨[], 0⟩ := rfl
  refine ⟨pos, ?_⟩
  simp only [write, hdup, if_neg hentries, kMagic_bytes]
  rw [bind_ok (check_ok hseek)]
  change (check _ (writeAll archiveIndex.bytes) >>= _) _ = _
  exact (bind_ok (check_append (p := []) (by decide)) _).trans (bind_ok hwrite _)

end Write

end Garnet.Far.Cpp
