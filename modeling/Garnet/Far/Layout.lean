import Garnet.Far.Format

/-! The archive of a list of files, as the format describes it: the index, the directory and the
names, padded to a page, and then the contents of each file, each padded to a page. -/

namespace Garnet.Far
open List
open IndexEntry (bytes_length)

abbrev File := Bytes × Bytes

def names (fs : List File) : Bytes := fs.flatMap Prod.fst

def namesLength (fs : List File) : Nat := roundUp 8 (names fs).length

def chunksEnd (fs : List File) : Nat :=
  indexLen + 2 * indexEntryLen + fs.length * directoryEntryLen + namesLength fs

def contentStart (fs : List File) : Nat := roundUp contentAlignment (chunksEnd fs)

/-- Where the files end if the first of them starts at `start`. -/
def contentEnd : Nat → List File → Nat
  | start, [] => start
  | start, f :: fs => contentEnd (roundUp contentAlignment (start + f.2.length)) fs

def archiveLength (fs : List File) : Nat := contentEnd (contentStart fs) fs

/-- The directory of files whose names start at `nameOffset` and whose contents start at `start`. -/
def directory : Nat → Nat → List File → List DirectoryEntry
  | _, _, [] => []
  | nameOffset, start, f :: fs =>
    ⟨nameOffset, f.1.length, 0, start, f.2.length, 0⟩ ::
      directory (nameOffset + f.1.length) (roundUp contentAlignment (start + f.2.length)) fs

def archiveIndex : Index := ⟨magicIndexValue, 2 * indexEntryLen⟩

def dirIndex (fs : List File) : IndexEntry :=
  ⟨dirChunk, indexLen + 2 * indexEntryLen, fs.length * directoryEntryLen⟩

def nameIndex (fs : List File) : IndexEntry :=
  ⟨dirNamesChunk, (dirIndex fs).offset + (dirIndex fs).length, namesLength fs⟩

def directoryBytes (es : List DirectoryEntry) : Bytes := es.flatMap DirectoryEntry.bytes

def chunks (fs : List File) : Bytes :=
  archiveIndex.bytes ++ ((dirIndex fs).bytes ++ ((nameIndex fs).bytes ++
    (directoryBytes (directory 0 (contentStart fs) fs) ++ padTo 8 0 (names fs))))

def contents (fs : List File) : Bytes := fs.flatMap fun f => padTo contentAlignment 0 f.2

def archive (fs : List File) : Bytes := padTo contentAlignment 0 (chunks fs) ++ contents fs

theorem contentAlignment_pos : 0 < contentAlignment := by decide

theorem archiveIndex_fits : archiveIndex.Fits := ⟨rfl, by decide⟩

variable (nameOffset start : Nat)

section Lengths

@[simp] theorem names_cons (f : File) (fs : List File) : names (f :: fs) = f.1 ++ names fs := rfl

theorem names_append (gs hs : List File) : names (gs ++ hs) = names gs ++ names hs := flatMap_append

theorem contents_append (gs hs : List File) : contents (gs ++ hs) = contents gs ++ contents hs :=
  flatMap_append

@[simp] theorem contents_cons (f : File) (fs : List File) :
    contents (f :: fs) = padTo contentAlignment 0 f.2 ++ contents fs := rfl

theorem directoryBytes_length (es : List DirectoryEntry) :
    (directoryBytes es).length = es.length * directoryEntryLen := by
  induction es with
  | nil => rfl
  | cons e es ih =>
    have hcons : directoryBytes (e :: es) = e.bytes ++ directoryBytes es := rfl
    rw [hcons, length_append, ih, e.bytes_length, length_cons]
    ring

theorem directory_length (fs : List File) : (directory nameOffset start fs).length = fs.length := by
  induction fs generalizing nameOffset start with
  | nil => rfl
  | cons f fs ih => rw [directory, length_cons, ih, length_cons]

variable (fs : List File)

theorem chunks_length : (chunks fs).length = chunksEnd fs := by
  have hpad := padTo_length (show 0 < 8 by decide) 0 (names fs)
  rw [chunks, length_append, length_append, length_append, length_append,
    archiveIndex_fits.bytes_length, bytes_length, bytes_length, directoryBytes_length,
    directory_length, hpad, chunksEnd, namesLength]
  ring

variable {start : Nat}

theorem contentEnd_eq (h : contentAlignment ∣ start) (fs : List File) :
    contentEnd start fs = start + (contents fs).length := by
  induction fs generalizing start with
  | nil => rfl
  | cons f fs ih =>
    have hstep := roundUp_add_of_dvd contentAlignment_pos h f.2.length
    rw [contentEnd, ih (dvd_roundUp ..), hstep, contents_cons, length_append,
      padTo_length contentAlignment_pos, add_assoc]

theorem contentStart_dvd : contentAlignment ∣ contentStart fs := dvd_roundUp ..

theorem archive_length : (archive fs).length = archiveLength fs := by
  rw [archive, length_append, padTo_length contentAlignment_pos, chunks_length, archiveLength,
    contentEnd_eq (contentStart_dvd fs)]
  rfl

theorem contentEnd_dvd (h : contentAlignment ∣ start) (fs : List File) :
    contentAlignment ∣ contentEnd start fs := by
  induction fs generalizing start with
  | nil => exact h
  | cons f fs ih => exact ih (dvd_roundUp ..)

theorem le_contentEnd (start : Nat) (fs : List File) : start ≤ contentEnd start fs := by
  induction fs generalizing start with
  | nil => exact le_refl _
  | cons f fs ih =>
    have hround := le_roundUp contentAlignment_pos (start + f.2.length)
    have hrest := ih (roundUp contentAlignment (start + f.2.length))
    rw [contentEnd]
    omega

theorem contentEnd_cons_lt {n : Nat} {f : File} {fs : List File} (h : contentEnd start (f :: fs) < n) :
    let next := roundUp contentAlignment (start + f.2.length)
    start + f.2.length ≤ next ∧ next < n ∧ contentEnd next fs < n :=
  ⟨le_roundUp contentAlignment_pos _, lt_of_le_of_lt (le_contentEnd ..) h, h⟩

theorem chunksEnd_le : chunksEnd fs ≤ contentStart fs := le_roundUp contentAlignment_pos _

theorem contentStart_le : contentStart fs ≤ archiveLength fs := le_contentEnd ..

end Lengths

section Split

theorem contentEnd_append (start : Nat) (gs hs : List File) :
    contentEnd start (gs ++ hs) = contentEnd (contentEnd start gs) hs := by
  induction gs generalizing start with
  | nil => rfl
  | cons g gs ih => exact ih _

theorem directory_append (gs hs : List File) :
    directory nameOffset start (gs ++ hs) =
      directory nameOffset start gs ++
        directory (nameOffset + (names gs).length) (contentEnd start gs) hs := by
  induction gs generalizing nameOffset start with
  | nil => rfl
  | cons g gs ih =>
    rw [cons_append, directory, directory, ih, names_cons, length_append, add_assoc, contentEnd]
    rfl

/-- The entry of `f` in an archive in which the files `gs` stand before it. -/
def entryAfter (gs : List File) (f : File) : DirectoryEntry :=
  ⟨nameOffset + (names gs).length, f.1.length, 0, contentEnd start gs, f.2.length, 0⟩

theorem mem_directory {nameOffset start : Nat} {fs : List File} {e : DirectoryEntry}
    (he : e ∈ directory nameOffset start fs) :
    ∃ gs f hs, fs = gs ++ f :: hs ∧ e = entryAfter nameOffset start gs f := by
  induction fs generalizing nameOffset start with
  | nil => cases he
  | cons f fs ih =>
    rcases mem_cons.mp he with rfl | he
    · exact ⟨[], f, fs, rfl, rfl⟩
    · obtain ⟨gs, g, hs, rfl, rfl⟩ := ih he
      refine ⟨f :: gs, g, hs, rfl, ?_⟩
      rw [entryAfter, entryAfter, names_cons, length_append, add_assoc, contentEnd]

theorem archive_split (gs : List File) (f : File) (hs : List File) :
    ∃ pre post, archive (gs ++ f :: hs) = pre ++ (f.2 ++ post) ∧
      pre.length = contentEnd (contentStart (gs ++ f :: hs)) gs := by
  refine ⟨padTo contentAlignment 0 (chunks (gs ++ f :: hs)) ++ contents gs,
    List.replicate (roundUp contentAlignment f.2.length - f.2.length) 0 ++ contents hs, ?_, ?_⟩
  · rw [archive, contents_append, contents_cons, padTo.eq_def contentAlignment 0 f.2]
    simp only [append_assoc]
  · rw [length_append, padTo_length contentAlignment_pos, chunks_length,
      contentEnd_eq (contentStart_dvd _)]
    rfl

section
variable (fs : List File)
include fs

theorem archive_chunks : ∃ rest, archive fs = archiveIndex.bytes ++ ((dirIndex fs).bytes ++
    ((nameIndex fs).bytes ++ (directoryBytes (directory 0 (contentStart fs) fs) ++
      (padTo 8 0 (names fs) ++ rest)))) := by
  refine ⟨List.replicate (roundUp contentAlignment (chunks fs).length - (chunks fs).length) 0 ++
    contents fs, ?_⟩
  rw [archive, padTo, chunks]
  simp only [append_assoc]

theorem archive_directory : ∃ head rest,
    archive fs = head ++ (directoryBytes (directory 0 (contentStart fs) fs) ++ rest) ∧
      (dirIndex fs).offset = head.length := by
  obtain ⟨rest, harch⟩ := archive_chunks fs
  refine ⟨archiveIndex.bytes ++ ((dirIndex fs).bytes ++ (nameIndex fs).bytes),
    padTo 8 0 (names fs) ++ rest, ?_, ?_⟩
  · rw [harch]
    simp only [append_assoc]
  · rw [length_append, length_append, archiveIndex_fits.bytes_length, bytes_length,
      bytes_length]
    rfl

theorem dirIndex_length :
    (dirIndex fs).length = (directoryBytes (directory 0 (contentStart fs) fs)).length := by
  rw [directoryBytes_length, directory_length]
  rfl

theorem archive_names : ∃ head rest,
    archive fs = head ++ (padTo 8 0 (names fs) ++ rest) ∧ (nameIndex fs).offset = head.length := by
  obtain ⟨rest, harch⟩ := archive_chunks fs
  refine ⟨archiveIndex.bytes ++ ((dirIndex fs).bytes ++ ((nameIndex fs).bytes ++
    directoryBytes (directory 0 (contentStart fs) fs))), rest, ?_, ?_⟩
  · rw [harch]
    simp only [append_assoc]
  · rw [length_append, length_append, length_append, archiveIndex_fits.bytes_length,
      bytes_length, bytes_length, ← dirIndex_length, ← add_assoc, ← add_assoc]
    rfl

theorem nameIndex_length : (nameIndex fs).length = (padTo 8 0 (names fs)).length :=
  (padTo_length (by decide) 0 (names fs)).symm

theorem dirIndex_count : (dirIndex fs).length / directoryEntryLen = fs.length :=
  Nat.mul_div_cancel _ (show 0 < directoryEntryLen by decide)

end

theorem contentEnd_snoc_le (start : Nat) (gs : List File) (f : File) (hs : List File) :
    contentEnd start gs + f.2.length ≤ contentEnd start (gs ++ f :: hs) := by
  have hround := le_roundUp contentAlignment_pos (contentEnd start gs + f.2.length)
  have hrest := le_contentEnd (roundUp contentAlignment (contentEnd start gs + f.2.length)) hs
  rw [contentEnd_append, contentEnd]
  omega

end Split

structure Admissible (fs : List File) : Prop where
  nameLength : ∀ f ∈ fs, f.1.length ≤ 65535
  namesTotal : (names fs).length < 2 ^ 32

variable {fs : List File}

theorem Admissible.entry_fits (h : Admissible fs) (hlen : archiveLength fs < 2 ^ 64)
    {e : DirectoryEntry} (he : e ∈ directory 0 (contentStart fs) fs) : e.Fits := by
  obtain ⟨gs, f, hs, rfl, rfl⟩ := mem_directory he
  have hname := h.nameLength f (by simp)
  have hend := contentEnd_snoc_le (contentStart (gs ++ f :: hs)) gs f hs
  have hnames := h.namesTotal
  rw [names_append, length_append] at hnames
  change contentEnd (contentStart (gs ++ f :: hs)) (gs ++ f :: hs) < 2 ^ 64 at hlen
  refine ⟨?_, ?_, Nat.two_pow_pos _, ?_, ?_, Nat.two_pow_pos _⟩
  · change 0 + (names gs).length < 2 ^ 32
    omega
  · change f.1.length < 2 ^ 16
    omega
  · change contentEnd (contentStart (gs ++ f :: hs)) gs < 2 ^ 64
    omega
  · change f.2.length < 2 ^ 64
    omega

theorem dirIndex_fits (hlen : archiveLength fs < 2 ^ 64) : (dirIndex fs).Fits := by
  have h1 := chunksEnd_le fs
  have h2 := contentStart_le fs
  unfold chunksEnd at h1
  refine ⟨by show dirChunk < 2 ^ 64; decide, by show indexLen + 2 * indexEntryLen < 2 ^ 64; decide, ?_⟩
  change fs.length * directoryEntryLen < 2 ^ 64
  omega

theorem nameIndex_fits (hlen : archiveLength fs < 2 ^ 64) : (nameIndex fs).Fits := by
  have h1 := chunksEnd_le fs
  have h2 := contentStart_le fs
  unfold chunksEnd at h1
  refine ⟨by show dirNamesChunk < 2 ^ 64; decide, ?_, ?_⟩
  · change indexLen + 2 * indexEntryLen + fs.length * directoryEntryLen < 2 ^ 64
    omega
  · change namesLength fs < 2 ^ 64
    omega

end Garnet.Far
