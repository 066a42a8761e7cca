import Std.Data.TreeMap
import Garnet.Far.Layout

/-! The archive writer of the Rust crate. Arithmetic on `u64` panics where it overflows. -/

namespace Garnet.Far
open List

def addU64 (a b : Nat) : Except Fault Nat := if a + b < 2 ^ 64 then .ok (a + b) else .error .panic

def mulU64 (a b : Nat) : Except Fault Nat := if a * b < 2 ^ 64 then .ok (a * b) else .error .panic

def align (unroundedValue multiple : Nat) : Except Fault Nat :=
  -- `checked_rem` of zero is unwrapped
  if multiple = 0 then .error .panic
  else
    let rem := unroundedValue % multiple
    if rem > 0 then addU64 (unroundedValue - rem) multiple else .ok unroundedValue

/-- A `Box<dyn Read>`, by what reading it to its end gives. -/
abbrev Contents := Except Fault Bytes

/-- A path is a `&str`, here by its bytes, so that the order of the map is the order of bytes. -/
abbrev PathContentMap := Std.TreeMap Bytes (Nat × Contents)

/-- The files on disk by their path. They do not change while an archive is written. -/
abbrev Disk := Bytes → Option Bytes

def text (b : Bytes) : String := (String.fromUTF8? ⟨b.toArray⟩).getD ""

def zeros (count : Nat) : Bytes := List.replicate count 0

/-- The entries of the directory, without their data offsets, and the names. -/
def collectEntries : List (Bytes × Nat × Contents) → Bytes → List DirectoryEntry →
    Except Fault (Bytes × List DirectoryEntry)
  | [], pathData, entries => pure (pathData, entries)
  | (destinationName, size, _) :: rest, pathData, entries =>
    if destinationName.length > 65535 then .error (.error "Destination name is too long")
    else collectEntries rest (pathData ++ destinationName)
      (entries ++ [⟨pathData.length % 2 ^ 32, destinationName.length % 2 ^ 16, 0, 0, size, 0⟩])

def placeEntries : List DirectoryEntry → Nat → Except Fault (List DirectoryEntry)
  | [], _ => pure []
  | entry :: rest, contentOffset => do
    let next ← align (← addU64 contentOffset entry.dataLength) contentAlignment
    let rest ← placeEntries rest next
    pure ({ entry with dataOffset := contentOffset } :: rest)

def sizeMismatch (archivePath : Bytes) (expected bytesRead : Nat) : Fault :=
  .error ("File at archive path '" ++ text archivePath ++ "' had expected size " ++
    toString expected ++
    " but Reader supplied " ++ toString bytesRead ++ " bytes.")

def writeContents : List (Bytes × Nat × Contents) → List DirectoryEntry → Except Fault Bytes
  | [], _ => pure []
  | _ :: _, [] => .error .panic
  | (archivePath, _, contents) :: rest, entry :: entries => do
    let data ← contents
    if data.length ≠ entry.dataLength then .error (sizeMismatch archivePath entry.dataLength data.length)
    else do
      let pos ← addU64 entry.dataOffset entry.dataLength
      let paddingCount := (← align pos contentAlignment) - pos
      let rest ← writeContents rest entries
      pure (data ++ zeros paddingCount ++ rest)

/-- What `write` puts into the target. -/
def write (pathContentMap : PathContentMap) : Except Fault Bytes := do
  let (pathData, directoryEntries) ← collectEntries pathContentMap.toList [] []
  let index : Index := ⟨magicIndexValue, 2 * indexEntryLen⟩
  let dirIndex : IndexEntry :=
    ⟨dirChunk, indexLen + indexEntryLen * 2, ← mulU64 directoryEntries.length directoryEntryLen⟩
  let nameIndex : IndexEntry :=
    ⟨dirNamesChunk, ← addU64 dirIndex.offset dirIndex.length, ← align pathData.length 8⟩
  let pos ← addU64 nameIndex.offset nameIndex.length
  let contentOffset ← align pos contentAlignment
  let directoryEntries ← placeEntries directoryEntries contentOffset
  let contents ← writeContents pathContentMap.toList directoryEntries
  pure (index.bytes ++ dirIndex.bytes ++ nameIndex.bytes ++ directoryBytes directoryEntries ++
    pathData ++
    zeros (nameIndex.length - pathData.length) ++ zeros (contentOffset - pos) ++ contents)

section Spec

theorem addU64_ok {a b : Nat} (h : a + b < 2 ^ 64) : addU64 a b = .ok (a + b) := if_pos h

variable {n start : Nat} {fs : List File} {m : PathContentMap}

theorem align_ok {m : Nat} (hm : 0 < m) (h : roundUp m n < 2 ^ 64) :
    align n m = .ok (roundUp m n) := by
  rw [roundUp_eq hm] at h ⊢
  rw [align, if_neg (Nat.ne_of_gt hm)]
  by_cases hrem : 0 < n % m
  · simp only [hrem, if_true] at h ⊢
    exact addU64_ok h
  · have hzero : n % m = 0 := by omega
    simp [hzero]

def supply (f : File) : Bytes × Nat × Contents := (f.1, f.2.length, .ok f.2)

def unplaced : Nat → List File → List DirectoryEntry
  | _, [] => []
  | nameOffset, f :: fs =>
    ⟨nameOffset, f.1.length, 0, 0, f.2.length, 0⟩ :: unplaced (nameOffset + f.1.length) fs

theorem unplaced_length (nameOffset : Nat) (fs : List File) :
    (unplaced nameOffset fs).length = fs.length := by
  induction fs generalizing nameOffset with
  | nil => rfl
  | cons f fs ih => rw [unplaced, length_cons, ih, length_cons]

/-- The offset and the length of the name of a file, and the bound for the files behind it. -/
theorem name_fits {f : File} {pathData : Bytes} (hname : ∀ g ∈ f :: fs, g.1.length ≤ 65535)
    (htotal : pathData.length + (names (f :: fs)).length < 2 ^ 32) :
    pathData.length % 2 ^ 32 = pathData.length ∧ f.1.length % 2 ^ 16 = f.1.length ∧
      (pathData ++ f.1).length + (names fs).length < 2 ^ 32 := by
  have hlen := hname f mem_cons_self
  rw [names_cons, length_append] at htotal
  refine ⟨Nat.mod_eq_of_lt (by omega), Nat.mod_eq_of_lt (by omega), ?_⟩
  rw [length_append]
  omega

theorem collectEntries_supply (hname : ∀ f ∈ fs, f.1.length ≤ 65535) (pathData : Bytes)
    (htotal : pathData.length + (names fs).length < 2 ^ 32) (entries : List DirectoryEntry) :
    collectEntries (fs.map supply) pathData entries =
      .ok (pathData ++ names fs, entries ++ unplaced pathData.length fs) := by
  induction fs generalizing pathData entries with
  | nil => simp [collectEntries, names, unplaced]
  | cons f fs ih =>
    obtain ⟨hpos, hmod, hrest⟩ := name_fits hname htotal
    rw [map_cons, supply, collectEntries, if_neg (Nat.not_lt.mpr (hname f mem_cons_self)),
      ih (fun g hg => hname g (mem_cons_of_mem _ hg)) _ hrest, hpos, hmod, length_append, names_cons,
      unplaced, append_assoc, append_assoc]
    rfl

theorem placeEntries_unplaced (hend : contentEnd start fs < 2 ^ 64) (nameOffset : Nat) :
    placeEntries (unplaced nameOffset fs) start = .ok (directory nameOffset start fs) := by
  induction fs generalizing start nameOffset with
  | nil => rfl
  | cons f fs ih =>
    obtain ⟨hround, hnext, hend⟩ := contentEnd_cons_lt hend
    have hadd : addU64 start f.2.length = .ok (start + f.2.length) := addU64_ok (by omega)
    have halign := align_ok (n := start + f.2.length) contentAlignment_pos (by omega)
    simp only [unplaced, placeEntries, hadd, halign, ok_bind, ih hend, directory, except_pure]

theorem writeContents_supply (hstart : contentAlignment ∣ start)
    (hend : contentEnd start fs < 2 ^ 64) (nameOffset : Nat) :
    writeContents (fs.map supply) (directory nameOffset start fs) = .ok (contents fs) := by
  induction fs generalizing start nameOffset with
  | nil => rfl
  | cons f fs ih =>
    obtain ⟨hround, hnext, hend⟩ := contentEnd_cons_lt hend
    have hadd : addU64 start f.2.length = .ok (start + f.2.length) := addU64_ok (by omega)
    have halign := align_ok (n := start + f.2.length) contentAlignment_pos (by omega)
    have hpad : roundUp contentAlignment (start + f.2.length) - (start + f.2.length) =
        roundUp contentAlignment f.2.length - f.2.length := by
      rw [roundUp_add_of_dvd contentAlignment_pos hstart, Nat.add_sub_add_left]
    simp only [map_cons, supply, directory, writeContents, ok_bind, hadd, halign, hpad,
      ih (dvd_roundUp ..) hend, ne_eq, not_true_eq_false, if_false, except_pure, contents_cons,
        padTo, zeros]

theorem write_steps (h : Admissible fs) (hstart : contentStart fs < 2 ^ 64)
    (hm : m.toList = fs.map supply) : write m = (do
      let entries ← placeEntries (unplaced 0 fs) (contentStart fs)
      let contents ← writeContents (fs.map supply) entries
      pure (archiveIndex.bytes ++ ((dirIndex fs).bytes ++
        ((nameIndex fs).bytes ++ (directoryBytes entries ++
        (padTo 8 0 (names fs) ++ (zeros (contentStart fs - chunksEnd fs) ++ contents))))))) := by
  have hchunks := chunksEnd_le fs
  have hcollect := collectEntries_supply h.nameLength [] (by simpa using h.namesTotal) []
  have hround : chunksEnd fs = indexLen + indexEntryLen * 2 + fs.length * directoryEntryLen +
      namesLength fs := by
    rw [chunksEnd, mul_comm 2]
  have hmul : mulU64 fs.length directoryEntryLen = .ok (fs.length * directoryEntryLen) :=
    if_pos (by omega)
  have hoff : addU64 (indexLen + indexEntryLen * 2) (fs.length * directoryEntryLen) =
      .ok (indexLen + indexEntryLen * 2 + fs.length * directoryEntryLen) := addU64_ok (by omega)
  have hnames : align (names fs).length 8 = .ok (namesLength fs) :=
    align_ok (by decide) (show namesLength fs < 2 ^ 64 by omega)
  have hpos : addU64 (indexLen + indexEntryLen * 2 + fs.length * directoryEntryLen) (namesLength fs) =
      .ok (chunksEnd fs) := by
    rw [hround]
    exact addU64_ok (by omega)
  have hcontent : align (chunksEnd fs) contentAlignment = .ok (contentStart fs) :=
    align_ok contentAlignment_pos hstart
  simp only [write, hm, hcollect, nil_append, length_nil, ok_bind, unplaced_length, hmul,
    hoff, hnames, hpos, hcontent, padTo, append_assoc]
  rfl

theorem write_eq (h : Admissible fs) (hlen : archiveLength fs < 2 ^ 64)
    (hm : m.toList = fs.map supply) : write m = .ok (archive fs) := by
  have hplace := placeEntries_unplaced hlen 0
  have hwrite := writeContents_supply (contentStart_dvd fs) hlen 0
  rw [write_steps h (lt_of_le_of_lt (contentStart_le fs) hlen) hm, hplace, ok_bind, hwrite,
    ok_bind, archive, padTo.eq_def contentAlignment, chunks_length, chunks]
  simp only [append_assoc]
  rfl

theorem align_panic {m : Nat} (hm : 0 < m) (hn : n < 2 ^ 64) (h : 2 ^ 64 ≤ roundUp m n) :
    align n m = .error .panic := by
  rw [roundUp_eq hm] at h
  have hrem : 0 < n % m := by
    by_contra hzero
    rw [if_neg hzero] at h
    omega
  rw [if_pos hrem] at h
  rw [align, if_neg (Nat.ne_of_gt hm)]
  simp only [gt_iff_lt, hrem, if_true]
  exact if_neg (Nat.not_lt.mpr h)

theorem placeEntries_panic (hstart : start < 2 ^ 64) (hend : 2 ^ 64 ≤ contentEnd start fs)
    (nameOffset : Nat) : placeEntries (unplaced nameOffset fs) start = .error .panic := by
  induction fs generalizing start nameOffset with
  | nil =>
    rw [contentEnd] at hend
    omega
  | cons f fs ih =>
    rw [contentEnd] at hend
    by_cases hsum : start + f.2.length < 2 ^ 64
    · by_cases hround : roundUp contentAlignment (start + f.2.length) < 2 ^ 64
      · simp only [unplaced, placeEntries, addU64_ok hsum, align_ok contentAlignment_pos hround,
          ok_bind, ih hround hend, error_bind]
      · have halign := align_panic contentAlignment_pos hsum (Nat.le_of_not_lt hround)
        simp only [unplaced, placeEntries, addU64_ok hsum, halign, ok_bind, error_bind]
    · have hadd : addU64 start f.2.length = .error .panic := if_neg hsum
      simp only [unplaced, placeEntries, hadd, error_bind]

theorem write_panic (h : Admissible fs) (hstart : contentStart fs < 2 ^ 64)
    (hlen : 2 ^ 64 ≤ archiveLength fs) (hm : m.toList = fs.map supply) :
    write m = .error .panic := by
  rw [write_steps h hstart hm, placeEntries_panic hstart hlen, error_bind]

end Spec

end Garnet.Far
