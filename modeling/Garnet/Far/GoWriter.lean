import Mathlib.Data.List.AList
import Mathlib.Data.List.Sort
import Garnet.Lib.Ordered
import Garnet.Far.Writer

/-! The archive writer of the Go package. Arithmetic on `uint64` wraps around. -/

namespace Garnet.Far.Go
open List

def align (i n : Nat) : Nat :=
  let n := n - 1
  ((i + n) % 2 ^ 64) &&& (2 ^ 64 - 1 - n)

/-- A size is an `int64`. -/
def fileSize (disk : Disk) (path : Bytes) : Except Fault Nat :=
  match disk path with
  | some data =>
    if data.length < 2 ^ 63 then .ok data.length else .error (.error "value too large for defined data type")
  | none => .error (.error "no such file or directory")

def openFile (disk : Disk) (path : Bytes) : Except Fault Bytes :=
  match disk path with
  | some data => .ok data
  | none => .error (.error "no such file or directory")

/-- A map from names in the archive to paths on disk, in the order in which it is ranged over. -/
abbrev Inputs := AList fun _ : Bytes => Bytes

/-- `inputs[name]`, which is empty for a name that is not there. -/
def input (inputs : Inputs) (name : Bytes) : Bytes := (inputs.lookup name).getD []

def sortStrings (names : List Bytes) : List Bytes := names.mergeSort fun a b => compare a b ≠ .gt

def collectEntries : List Bytes → Bytes → List DirectoryEntry → Bytes × List DirectoryEntry
  | [], pathData, entries => (pathData, entries)
  | name :: rest, pathData, entries => collectEntries rest (pathData ++ name)
      (entries ++ [⟨pathData.length % 2 ^ 32, name.length % 2 ^ 16, 0, 0, 0, 0⟩])

def placeEntries (disk : Disk) (inputs : Inputs) : List Bytes → List DirectoryEntry → Nat →
    Except Fault (List DirectoryEntry)
  | name :: filenames, entry :: entries, contentOffset => do
    let n ← fileSize disk (input inputs name)
    let rest ← placeEntries disk inputs filenames entries (align ((contentOffset + n) % 2 ^ 64) contentAlignment)
    pure ({ entry with dataOffset := contentOffset, dataLength := n } :: rest)
  | _, _, _ => pure []

/-- `align(pos, contentAlignment) - pos`. -/
def pad (pos : Nat) : Nat := (align pos contentAlignment + 2 ^ 64 - pos) % 2 ^ 64

def writeContents (disk : Disk) (inputs : Inputs) :
    List Bytes → List DirectoryEntry → Except Fault Bytes
  | name :: filenames, entry :: entries => do
    let data ← openFile disk (input inputs name)
    let pos := (entry.dataOffset + entry.dataLength) % 2 ^ 64
    let rest ← writeContents disk inputs filenames entries
    pure (data ++ zeros (pad pos) ++ rest)
  | _, _ => pure []

/-- What `Write` puts into its writer. -/
def write (disk : Disk) (inputs : Inputs) : Except Fault Bytes := do
  let filenames := sortStrings inputs.keys
  let (pathData, entries) := collectEntries filenames [] []
  let index : Index := ⟨magicIndexValue, indexEntryLen * 2⟩
  let dirIndex : IndexEntry :=
    ⟨dirChunk, indexLen + indexEntryLen * 2, entries.length * directoryEntryLen % 2 ^ 64⟩
  let nameIndex : IndexEntry :=
    ⟨dirNamesChunk, (dirIndex.offset + dirIndex.length) % 2 ^ 64, align pathData.length 8⟩
  let pos := (nameIndex.offset + nameIndex.length) % 2 ^ 64
  let entries ← placeEntries disk inputs filenames entries (align pos contentAlignment)
  let contents ← writeContents disk inputs filenames entries
  pure (index.bytes ++ dirIndex.bytes ++ nameIndex.bytes ++ directoryBytes entries ++ pathData ++
    zeros (nameIndex.length - pathData.length) ++ zeros (pad pos) ++ contents)

section Spec

variable {i start : Nat} {fs : List File} {disk : Disk} {inputs : Inputs}

theorem align_eq {k : Nat} (hk : k ≤ 64) (h : i + (2 ^ k - 1) < 2 ^ 64) :
    align i (2 ^ k) = roundUp (2 ^ k) i := by
  have hpos := Nat.two_pow_pos k
  have hmask : 2 ^ 64 - 1 - (2 ^ k - 1) = 2 ^ 64 - 2 ^ k := by omega
  rw [align, hmask]
  exact and_high_bits_roundUp hk h

theorem align_content (h : roundUp contentAlignment i < 2 ^ 63) :
    align i contentAlignment = roundUp contentAlignment i := by
  have hle := le_roundUp contentAlignment_pos i
  exact align_eq (k := 12) (by decide) (by omega)

theorem pad_eq {pos : Nat} (h : roundUp contentAlignment pos < 2 ^ 63) :
    pad pos = roundUp contentAlignment pos - pos := by
  have hle := le_roundUp contentAlignment_pos pos
  rw [pad, align_content h]
  omega

def unsized : Nat → List File → List DirectoryEntry
  | _, [] => []
  | nameOffset, f :: fs =>
    ⟨nameOffset, f.1.length, 0, 0, 0, 0⟩ :: unsized (nameOffset + f.1.length) fs

theorem unsized_length (nameOffset : Nat) (fs : List File) :
    (unsized nameOffset fs).length = fs.length := by
  induction fs generalizing nameOffset with
  | nil => rfl
  | cons f fs ih => rw [unsized, length_cons, ih, length_cons]

theorem collectEntries_names (hname : ∀ f ∈ fs, f.1.length ≤ 65535) (pathData : Bytes)
    (htotal : pathData.length + (names fs).length < 2 ^ 32) (entries : List DirectoryEntry) :
    collectEntries (fs.map Prod.fst) pathData entries =
      (pathData ++ names fs, entries ++ unsized pathData.length fs) := by
  induction fs generalizing pathData entries with
  | nil => simp [collectEntries, names, unsized]
  | cons f fs ih =>
    obtain ⟨hpos, hmod, hrest⟩ := name_fits hname htotal
    rw [map_cons, collectEntries, ih (fun g hg => hname g (mem_cons_of_mem _ hg)) _ hrest, hpos,
      hmod, length_append, names_cons, unsized, append_assoc, append_assoc]
    rfl

/-- The inputs name the files `fs`, and the disk has them. -/
def Holds (disk : Disk) (inputs : Inputs) (fs : List File) : Prop :=
  ∀ f ∈ fs, disk (input inputs f.1) = some f.2

theorem placeEntries_unsized (hd : Holds disk inputs fs) (hend : contentEnd start fs < 2 ^ 63)
    (nameOffset : Nat) :
    placeEntries disk inputs (fs.map Prod.fst) (unsized nameOffset fs) start =
    .ok (directory nameOffset start fs) := by
  induction fs generalizing start nameOffset with
  | nil => rfl
  | cons f fs ih =>
    obtain ⟨hround, hnext, hend⟩ := contentEnd_cons_lt hend
    have hsize : fileSize disk (input inputs f.1) = .ok f.2.length := by
      simp only [fileSize, hd f mem_cons_self]
      exact if_pos (by omega)
    have hmod : (start + f.2.length) % 2 ^ 64 = start + f.2.length := Nat.mod_eq_of_lt (by omega)
    simp only [map_cons, unsized, placeEntries, hsize, ok_bind, hmod, align_content hnext,
      ih (fun g hg => hd g (mem_cons_of_mem _ hg)) hend, directory, except_pure]

theorem writeContents_files (hd : Holds disk inputs fs) (hstart : contentAlignment ∣ start)
    (hend : contentEnd start fs < 2 ^ 63) (nameOffset : Nat) :
    writeContents disk inputs (fs.map Prod.fst) (directory nameOffset start fs) =
    .ok (contents fs) := by
  induction fs generalizing start nameOffset with
  | nil => rfl
  | cons f fs ih =>
    obtain ⟨hround, hnext, hend⟩ := contentEnd_cons_lt hend
    have hopen : openFile disk (input inputs f.1) = .ok f.2 := by
      simp only [openFile, hd f mem_cons_self]
    have hmod : (start + f.2.length) % 2 ^ 64 = start + f.2.length := Nat.mod_eq_of_lt (by omega)
    have hpad : pad (start + f.2.length) = roundUp contentAlignment f.2.length - f.2.length := by
      rw [pad_eq hnext, roundUp_add_of_dvd contentAlignment_pos hstart, Nat.add_sub_add_left]
    simp only [map_cons, directory, writeContents, hopen, ok_bind, hmod, hpad,
      ih (fun g hg => hd g (mem_cons_of_mem _ hg)) (dvd_roundUp ..) hend, except_pure,
        contents_cons, padTo, zeros]

theorem write_eq_archive (h : Admissible fs) (hlen : archiveLength fs < 2 ^ 63)
    (hd : Holds disk inputs fs) (hkeys : sortStrings inputs.keys = fs.map Prod.fst) :
    write disk inputs = .ok (archive fs) := by
  have hchunks := chunksEnd_le fs
  have hstart := contentStart_le fs
  have hcollect := collectEntries_names h.nameLength [] (by simpa using h.namesTotal) []
  have hround : chunksEnd fs = indexLen + indexEntryLen * 2 + fs.length * directoryEntryLen +
      namesLength fs := by
    rw [chunksEnd, mul_comm 2]
  have hmul : fs.length * directoryEntryLen % 2 ^ 64 = fs.length * directoryEntryLen :=
    Nat.mod_eq_of_lt (by omega)
  have hoff : (indexLen + indexEntryLen * 2 + fs.length * directoryEntryLen) % 2 ^ 64 =
      indexLen + indexEntryLen * 2 + fs.length * directoryEntryLen := Nat.mod_eq_of_lt (by omega)
  have htotal := h.namesTotal
  have hnames : align (names fs).length 8 = namesLength fs := align_eq (k := 3) (by decide) (by omega)
  have hpos : (indexLen + indexEntryLen * 2 + fs.length * directoryEntryLen +
      namesLength fs) % 2 ^ 64 = chunksEnd fs := by
    rw [← hround]
    exact Nat.mod_eq_of_lt (by omega)
  have hcontent : align (chunksEnd fs) contentAlignment = contentStart fs :=
    align_content (lt_of_le_of_lt hstart hlen)
  have hpad : pad (chunksEnd fs) = contentStart fs - chunksEnd fs :=
    pad_eq (lt_of_le_of_lt hstart hlen)
  have hplace := placeEntries_unsized hd hlen 0
  have hwrite := writeContents_files hd (contentStart_dvd fs) hlen 0
  simp only [write, hkeys, hcollect, nil_append, length_nil, unsized_length, hmul, hoff, hnames,
    hpos, hcontent, hplace, ok_bind, hwrite, hpad]
  rw [archive, padTo.eq_def contentAlignment, chunks_length, chunks, padTo]
  simp only [append_assoc]
  rfl

end Spec

end Garnet.Far.Go
