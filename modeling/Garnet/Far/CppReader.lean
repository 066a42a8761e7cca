import Garnet.Lib.LowerBound
import Garnet.Lib.Ordered
import Garnet.Far.CppWriter

/-! The archive reader of the C++ library: it checks the index, keeps the directory and the
names, and finds a path by binary search. -/

namespace Garnet.Far.Cpp
open List
open LittleEndian Cursor

def attempt {α : Type} (message : String) (op : EStateM Fault Cursor α) : EStateM Fault Cursor α :=
  fun s =>
  match op s with
  | .ok a s' => .ok a s'
  | .error _ s' => .error (.error message) s'

/-- `resize` of a vector, to this many bytes. -/
def resize (count : Nat) : EStateM Fault Cursor Unit :=
  if count < 2 ^ 63 then pure () else throw .panic

def elements {α : Type} (ofBytes : Bytes → α) (size : Nat) : Nat → Bytes → List α
  | 0, _ => []
  | count + 1, b => ofBytes (b.take size) :: elements ofBytes size count (b.drop size)

/-- The loop over the index: its chunks are packed tightly, from `nextOffset` on. -/
def checkIndex : List IndexEntry → Nat → Except Fault Unit
  | [], _ => pure ()
  | entry :: rest, nextOffset =>
    if entry.offset ≠ nextOffset then
      .error (.error ("error: Chunk at offset " ++ toString entry.offset ++ " not tightly packed."))
    else if entry.length % 8 ≠ 0 then
      .error (.error ("error: Chunk length " ++ toString entry.length ++
        " not aligned to 8 byte boundary."))
    else if entry.length > 2 ^ 64 - 1 - entry.offset then
      .error (.error ("error: Chunk length " ++ toString entry.length ++
        " overflowed total archive size."))
    else checkIndex rest (entry.offset + entry.length)

def readIndex : EStateM Fault Cursor (List IndexEntry) := do
  check "error: Failed to seek to beginning of archive." (lseek 0)
  let b ← attempt "error: Failed read index chunk. Is this file an archive?" (readExact indexLen)
  let indexChunk := Index.ofBytes b
  if ofLe indexChunk.magic ≠ kMagic then
    throw (.error "error: Index chunk missing magic. Is this file an archive?")
  else if indexChunk.length % indexEntryLen ≠ 0 ∨ indexChunk.length > 2 ^ 64 - 1 - indexLen then
    throw (.error "error: Invalid index chunk length.")
  else do
    resize indexChunk.length
    let b ← attempt "error: Failed to read contents of index chunk." (readExact indexChunk.length)
    let index := elements IndexEntry.ofBytes indexEntryLen (indexChunk.length / indexEntryLen) b
    reading id fun _ => checkIndex index (indexLen + indexChunk.length)
    pure index

def getIndexEntry (index : List IndexEntry) (type : Nat) : Option IndexEntry :=
  index.find? (·.chunkType = type)

def readDirectory (index : List IndexEntry) :
    EStateM Fault Cursor (List DirectoryEntry × Bytes) := do
  match getIndexEntry index dirChunk with
  | none => throw (.error "error: Cannot find directory chunk.")
  | some dirEntry =>
    if dirEntry.length % directoryEntryLen ≠ 0 then
      throw (.error ("error: Invalid directory chunk length: " ++ toString dirEntry.length ++ "."))
    else do
      resize dirEntry.length
      check "error: Failed to seek to directory chunk." (lseek dirEntry.offset)
      let b ← attempt "error: Failed to read directory table." (readExact dirEntry.length)
      let table :=
        elements DirectoryEntry.ofBytes directoryEntryLen (dirEntry.length / directoryEntryLen) b
      match getIndexEntry index dirNamesChunk with
      | none => throw (.error "error: Cannot find directory names chunk.")
      | some dirnamesEntry => do
        resize dirnamesEntry.length
        check "error: Failed to seek to directory names chunk." (lseek dirnamesEntry.offset)
        let pathData ← attempt "error: Failed to read directory names." (readExact dirnamesEntry.length)
        pure (table, pathData)

structure ArchiveReader where
  fd : Cursor
  index : List IndexEntry
  directoryTable : List DirectoryEntry
  pathData : Bytes

namespace ArchiveReader

def read (fd : Cursor) : Except Fault ArchiveReader :=
  match (do let index ← readIndex; let rest ← readDirectory index; pure (index, rest)
    : EStateM Fault Cursor _) fd with
  | .ok (index, table, pathData) fd => .ok ⟨fd, index, table, pathData⟩
  | .error e _ => .error e

/-- The bytes of a name. The source does not check that they lie in the path data. -/
def getPathView (r : ArchiveReader) (entry : DirectoryEntry) : Bytes :=
  (r.pathData.drop entry.nameOffset).take entry.nameLength

def getDirectoryIndexByPath (r : ArchiveReader) (archivePath : Bytes) : Option Nat :=
  let it := lowerBound (fun entry => decide (compare (r.getPathView entry) archivePath = .lt)) r.directoryTable
  match r.directoryTable[it]? with
  | none => none
  | some entry => if r.getPathView entry ≠ archivePath then none else some it

end ArchiveReader

section Spec

variable {message : String} {fs : List File}

theorem attempt_ok {α : Type} {op : EStateM Fault Cursor α} {s s' : Cursor} {a : α}
    (h : op s = .ok a s') : attempt message op s = .ok a s' := by
  simp only [attempt, h]

theorem resize_ok {count : Nat} (h : count < 2 ^ 63) (s : Cursor) : resize count s = .ok () s := by
  rw [resize, if_pos h]
  rfl

theorem attempt_read {bytes pre mid post : Bytes} (hb : bytes = pre ++ (mid ++ post)) {n pos : Nat}
    (hn : n = mid.length) (hpos : pos = pre.length) :
    attempt message (readExact n) ⟨bytes, pos⟩ = .ok mid ⟨bytes, pos + n⟩ := by
  subst hn hpos
  exact attempt_ok (readExact_append hb)

theorem elements_directory {es : List DirectoryEntry} (h : ∀ e ∈ es, e.Fits) :
    elements DirectoryEntry.ofBytes directoryEntryLen es.length (directoryBytes es) = es := by
  induction es with
  | nil => rfl
  | cons e es ih =>
    have hcons : directoryBytes (e :: es) = e.bytes ++ directoryBytes es := rfl
    rw [length_cons, elements, hcons, take_left' e.bytes_length, drop_left' e.bytes_length,
      (h e mem_cons_self).ofBytes_bytes, ih fun d hd => h d (mem_cons_of_mem _ hd)]

theorem elements_index (hlen : archiveLength fs < 2 ^ 64) :
    elements IndexEntry.ofBytes indexEntryLen 2 ((dirIndex fs).bytes ++ (nameIndex fs).bytes) =
    [dirIndex fs, nameIndex fs] := by
  have hdir := IndexEntry.bytes_length (dirIndex fs)
  have hname := IndexEntry.bytes_length (nameIndex fs)
  rw [elements, elements, elements, take_left' hdir, drop_left' hdir,
    take_of_length_le (le_of_eq hname),
    (dirIndex_fits hlen).ofBytes_bytes, (nameIndex_fits hlen).ofBytes_bytes]

theorem checkIndex_archive (hlen : archiveLength fs < 2 ^ 64) :
    checkIndex [dirIndex fs, nameIndex fs] (indexLen + archiveIndex.length) = .ok () := by
  have hchunks := chunksEnd_le fs
  have hstart := contentStart_le fs
  have hdir : (dirIndex fs).length % 8 = 0 := by
    change fs.length * 32 % 8 = 0
    omega
  have hname : (nameIndex fs).length % 8 = 0 := Nat.mod_eq_zero_of_dvd (dvd_roundUp 8 _)
  have hends : (dirIndex fs).offset + (dirIndex fs).length + (nameIndex fs).length = chunksEnd fs :=
    rfl
  have hoff : (dirIndex fs).offset = indexLen + archiveIndex.length := rfl
  have hnext : (nameIndex fs).offset = (dirIndex fs).offset + (dirIndex fs).length := rfl
  rw [checkIndex, if_neg (not_not_intro hoff), if_neg (not_not_intro hdir), if_neg (by omega),
    checkIndex, if_neg (not_not_intro hnext), if_neg (not_not_intro hname), if_neg (by omega)]
  rfl

theorem readIndex_archive (fs : List File) (hlen : archiveLength fs < 2 ^ 64) (pos : Nat) :
    readIndex ⟨archive fs, pos⟩ =
      .ok [dirIndex fs, nameIndex fs] ⟨archive fs, indexLen + 2 * indexEntryLen⟩ := by
  obtain ⟨rest, harch⟩ := archive_chunks fs
  have hindex := archiveIndex_fits.bytes_length
  obtain ⟨behind, hbehind⟩ : ∃ behind, archive fs = archiveIndex.bytes ++ behind := ⟨_, harch⟩
  have hfront : archive fs = [] ++ (archiveIndex.bytes ++ behind) := hbehind
  rw [← append_assoc (dirIndex fs).bytes] at harch
  have hsize : archiveIndex.length = ((dirIndex fs).bytes ++ (nameIndex fs).bytes).length := by
    rw [length_append, IndexEntry.bytes_length, IndexEntry.bytes_length]
    rfl
  have hmagic : ¬ ofLe archiveIndex.magic ≠ kMagic := by decide +kernel
  have hlength : ¬ (archiveIndex.length % indexEntryLen ≠ 0 ∨
      archiveIndex.length > 2 ^ 64 - 1 - indexLen) := by decide +kernel
  have hcount : archiveIndex.length / indexEntryLen = 2 := rfl
  have hseek : check "error: Failed to seek to beginning of archive." (lseek 0) ⟨archive fs, pos⟩ =
      .ok () ⟨archive fs, 0⟩ :=
    check_ok rfl
  have hzero : 0 = ([] : Bytes).length := rfl
  rw [readIndex, bind_ok hseek, bind_ok (attempt_read hfront hindex.symm hzero),
    archiveIndex_fits.ofBytes_bytes]
  simp only [if_neg hmagic, if_neg hlength]
  rw [bind_ok (resize_ok (show archiveIndex.length < 2 ^ 63 by decide) _), zero_add,
    bind_ok (attempt_read harch hsize hindex.symm), hcount, elements_index hlen, reading_bind]
  simp only [checkIndex_archive hlen]
  rfl

section
variable (h : Admissible fs) (hlen : archiveLength fs < 2 ^ 63) (pos : Nat)
include h hlen pos

theorem readDirectory_archive :
    ∃ pos', readDirectory [dirIndex fs, nameIndex fs] ⟨archive fs, pos⟩ =
      .ok (directory 0 (contentStart fs) fs, padTo 8 0 (names fs)) ⟨archive fs, pos'⟩ := by
  have hchunks := chunksEnd_le fs
  have hstart := contentStart_le fs
  have hends : (dirIndex fs).offset + (dirIndex fs).length + (nameIndex fs).length = chunksEnd fs :=
    rfl
  have hnext : (nameIndex fs).offset = (dirIndex fs).offset + (dirIndex fs).length := rfl
  have hdirfind : getIndexEntry [dirIndex fs, nameIndex fs] dirChunk = some (dirIndex fs) := rfl
  have hnamefind : getIndexEntry [dirIndex fs, nameIndex fs] dirNamesChunk = some (nameIndex fs) :=
    rfl
  have hmod : ¬ (dirIndex fs).length % directoryEntryLen ≠ 0 := not_not_intro (Nat.mul_mod_left ..)
  have hcount : fs.length = (directory 0 (contentStart fs) fs).length := (directory_length ..).symm
  have hfits (e : DirectoryEntry) (he : e ∈ directory 0 (contentStart fs) fs) : e.Fits :=
    h.entry_fits (lt_trans hlen (by decide)) he
  obtain ⟨_, _, hdir, hdirpos⟩ := archive_directory fs
  obtain ⟨_, _, hnames, hnamepos⟩ := archive_names fs
  have hseek {message : String} {offset : Nat} (hoff : offset < 2 ^ 63) (p : Nat) :
      check message (lseek offset) ⟨archive fs, p⟩ =
        .ok () ⟨archive fs, offset⟩ := check_ok (if_pos hoff)
  refine ⟨(nameIndex fs).offset + (nameIndex fs).length, ?_⟩
  simp only [readDirectory, hdirfind, if_neg hmod, hnamefind]
  rw [bind_ok (resize_ok (by omega) _), bind_ok (hseek (by omega) _),
    bind_ok (attempt_read hdir (dirIndex_length fs) hdirpos), dirIndex_count, hcount,
      elements_directory hfits,
    bind_ok (resize_ok (by omega) _), bind_ok (hseek (by omega) _),
    bind_ok (attempt_read hnames (nameIndex_length fs) hnamepos)]
  rfl

theorem ArchiveReader.read_archive :
    ∃ pos', ArchiveReader.read ⟨archive fs, pos⟩ =
      .ok ⟨⟨archive fs, pos'⟩, [dirIndex fs, nameIndex fs],
      directory 0 (contentStart fs) fs, padTo 8 0 (names fs)⟩ := by
  obtain ⟨pos', hdir⟩ := readDirectory_archive h hlen (indexLen + 2 * indexEntryLen)
  refine ⟨pos', ?_⟩
  rw [ArchiveReader.read, bind_ok (readIndex_archive fs (lt_trans hlen (by decide)) pos),
    bind_ok hdir]
  rfl

end

end Spec

section Search

variable {fs : List File} {r : ArchiveReader}

theorem map_getPathView {before behind : Bytes}
    (hpath : r.pathData = before ++ (names fs ++ behind)) (start : Nat) :
    (directory before.length start fs).map r.getPathView = fs.map Prod.fst := by
  induction fs generalizing before start with
  | nil => rfl
  | cons f fs ih =>
    rw [names_cons, append_assoc] at hpath
    have hview (o l : Nat) : r.getPathView ⟨before.length, f.1.length, 0, o, l, 0⟩ = f.1 := by
      rw [ArchiveReader.getPathView, hpath, drop_left, take_left]
    rw [← append_assoc] at hpath
    have hrest := ih hpath (roundUp contentAlignment (start + f.2.length))
    rw [length_append] at hrest
    rw [directory, map_cons, map_cons, hview, hrest]

theorem getDirectoryIndexByPath_eq_some (hsorted : fs.Pairwise fun f g => compare f.1 g.1 = .lt)
    (hviews : r.directoryTable.map r.getPathView = fs.map Prod.fst) (p : Bytes) (i : Nat) :
    r.getDirectoryIndexByPath p = some i ↔ (fs.map Prod.fst)[i]? = some p := by
  set before := fun entry => decide (compare (r.getPathView entry) p = .lt)
  have hkey {j : Nat} {entry : DirectoryEntry} (hj : r.directoryTable[j]? = some entry) :
      (fs.map Prod.fst)[j]? = some (r.getPathView entry) := by
    rw [← hviews, List.getElem?_map, hj]
    rfl
  constructor
  · intro hget
    simp only [ArchiveReader.getDirectoryIndexByPath] at hget
    split at hget
    next => cases hget
    next entry hentry =>
      split at hget
      next => cases hget
      next heq =>
        cases hget
        rw [hkey hentry, not_ne_iff.mp heq]
  · intro hp
    have hpart : PartitionedAt before r.directoryTable i := by
      intro j entry hj
      rw [decide_eq_true_iff]
      exact Ordered.lt_iff (pairwise_map.mpr hsorted) (hkey hj) hp
    have hi : i < r.directoryTable.length := by
      have hlen := congrArg List.length hviews
      have hlt := (List.getElem?_eq_some_iff.mp hp).1
      rw [length_map] at hlen
      omega
    have hfound := lowerBound_eq hpart (le_of_lt hi)
    have hentry := List.getElem?_eq_getElem hi
    have hsame : r.getPathView r.directoryTable[i] = p := by
      have hk := hkey hentry
      rw [hp] at hk
      exact (Option.some.inj hk).symm
    simp only [ArchiveReader.getDirectoryIndexByPath]
    rw [hfound, hentry]
    simp only [hsame, ne_eq, not_true_eq_false, if_false]

end Search

end Garnet.Far.Cpp
