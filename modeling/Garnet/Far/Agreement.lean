import Garnet.Far.RoundTrip
import Garnet.Far.GoWriter
import Garnet.Far.CppReader

/-! The three writers produce the same archive, and the binary search of the C++ reader finds
the paths in it. -/

namespace Garnet.Far
open List
open Cursor Std
open Keeps (bind pure)

section Cpp
open Cpp

variable {entries : List ArchiveEntry}

theorem addAll_eq (hname : ∀ e ∈ entries, e.dstPath.length ≤ 65535)
    (htotal : (Cpp.pathData entries).length < 2 ^ 32) :
    (ArchiveWriter.addAll entries).1 = true ∧ (ArchiveWriter.addAll entries).2.entries = entries ∧
      (ArchiveWriter.addAll entries).2.dirty = true := by
  suffices h : ∀ (rest : List ArchiveEntry) (w : ArchiveWriter),
    (∀ e ∈ rest, e.dstPath.length ≤ 65535) →
      (Cpp.pathData (w.entries ++ rest)).length < 2 ^ 32 → w.dirty = true →
      let r := rest.foldl (fun (x : Bool × ArchiveWriter) entry =>
        (x.1 && (x.2.add entry).1, (x.2.add entry).2)) (true, w)
      r.1 = true ∧ r.2.entries = w.entries ++ rest ∧ r.2.dirty = true by
    exact h entries ArchiveWriter.new hname htotal rfl
  intro rest
  induction rest with
  | nil => exact fun w _ _ hdirty => ⟨rfl, (append_nil _).symm, hdirty⟩
  | cons e rest ih =>
    intro w hname htotal _
    have hlen : e.dstPath.length ≤ 65535 := hname e mem_cons_self
    have hsum : (Cpp.pathData w.entries).length + (e.dstPath.length + (Cpp.pathData rest).length) <
        2 ^ 32 := by
      rw [Cpp.pathData, flatMap_append, length_append, flatMap_cons, length_append] at htotal
      exact htotal
    have hroom : ¬ e.dstPath.length > 2 ^ 32 - 1 - w.totalPathLength := by
      rw [w.total_eq]
      omega
    have hadd : (w.add e).1 = true ∧ (w.add e).2.entries = w.entries ++ [e] ∧
        (w.add e).2.dirty = true := by
      simp only [ArchiveWriter.add, if_neg (Nat.not_lt.mpr hlen), dif_neg hroom, and_self]
    have hmore : (Cpp.pathData ((w.add e).2.entries ++ rest)).length < 2 ^ 32 := by
      rw [hadd.2.1, append_assoc]
      exact htotal
    have hrest := ih (w.add e).2 (fun d hd => hname d (mem_cons_of_mem _ hd)) hmore hadd.2.2
    simp only [foldl_cons, Bool.true_and]
    rw [hadd.1]
    rw [hadd.2.1, append_assoc] at hrest
    exact hrest

theorem duplicateEntry_none (h : (entries.map ArchiveEntry.dstPath).Nodup) :
    duplicateEntry entries = none := by
  induction entries with
  | nil => rfl
  | cons a rest ih =>
    rw [map_cons, nodup_cons] at h
    cases rest with
    | nil => rfl
    | cons b rest =>
      have hne : a.dstPath ≠ b.dstPath := fun heq => h.1 (heq ▸ mem_cons_self)
      rw [duplicateEntry, if_neg hne]
      exact ih h.2

theorem map_sortEntries (entries : List ArchiveEntry) :
    (sortEntries entries).map ArchiveEntry.dstPath =
    (entries.map ArchiveEntry.dstPath).mergeSort fun a b => compare a b ≠ .gt := by
  apply map_mergeSort
  intro a _ b _
  rfl

end Cpp

variable (disk : Disk)

section Limit
open Cpp

def Short (s : Cursor) : Prop := s.bytes.length < 2 ^ 63

variable {s s' : Cursor}

theorem writeAll_short {b : Bytes} (hs : Short s) (h : writeAll b s = some s') : Short s' := by
  unfold writeAll at h
  split at h
  next =>
    cases h
    exact hs
  next =>
    split at h
    next hlim =>
      cases h
      change (grow s.pos (s.bytes.take s.pos) ++ b ++ s.bytes.drop (s.pos + b.length)).length < 2 ^ 63
      unfold Short at hs
      rw [length_append, length_append, grow_length (length_take_le ..), length_drop]
      omega
    next => cases h

theorem copyFileToFile_short {length fuel : Nat} {src : Bytes} {copied : Nat} (hs : Short s)
    (h : copyFileToFile length fuel src copied s = some s') : Short s' := by
  induction fuel generalizing src copied s with
  | zero => cases h
  | succ fuel ih =>
    simp only [copyFileToFile] at h
    split at h
    next =>
      split at h
      next => cases h
      next =>
        split at h
        next => cases h
        next s₁ hwrite => exact ih (writeAll_short hs hwrite) h
    next =>
      cases h
      exact hs

theorem check_keeps {message : String} {op : Cursor → Option Cursor}
    (hop : ∀ s s', Short s → op s = some s' → Short s') : Keeps Short (check message op) := by
  intro s a s' hs h
  unfold check at h
  split at h
  next s₁ hs₁ =>
    cases h
    exact hop s _ hs hs₁
  next => cases h

theorem lseek_short (offset : Nat) (s s' : Cursor) (hs : Short s) (h : lseek offset s = some s') :
    Short s' := by
  unfold lseek at h
  split at h
  · cases h
    exact hs
  · cases h

theorem ftruncate_short (n : Nat) (s s' : Cursor) (_ : Short s) (h : ftruncate n s = some s') :
    Short s' := by
  unfold ftruncate at h
  split at h
  next hn =>
    cases h
    change (grow n (s.bytes.take n)).length < 2 ^ 63
    rw [grow_length (length_take_le ..)]
    exact hn
  next => cases h

theorem copyPathToFile_short (path : Bytes) (length : Nat) (s s' : Cursor) (hs : Short s)
    (h : copyPathToFile disk path length s = some s') : Short s' := by
  unfold copyPathToFile at h
  split at h
  · cases h
  · exact copyFileToFile_short hs h

theorem writeFiles_keeps (entries : List ArchiveEntry) (table : List DirectoryEntry) :
    Keeps Short (writeFiles disk entries table) := by
  induction entries generalizing table with
  | nil => exact pure ()
  | cons entry entries ih =>
    cases table with
    | nil => exact pure ()
    | cons d table =>
      apply bind (check_keeps (lseek_short _))
      intro _
      apply bind (check_keeps (copyPathToFile_short disk _ _))
      intro _
      exact ih table

theorem reading_keeps {α : Type} (f : Cursor → Except Fault α) : Keeps Short (reading id f) := by
  intro s a s' hs h
  unfold reading at h
  split at h
  · cases h
    exact hs
  · cases h

theorem write_keeps (w : ArchiveWriter) : Keeps Short (Cpp.write disk w) := by
  have hput {message : String} (b : Bytes) : Keeps Short (check message (writeAll b)) :=
    check_keeps fun _ _ => writeAll_short
  unfold Cpp.write
  dsimp only
  split
  next => exact Keeps.throw _
  next =>
    apply bind (check_keeps (lseek_short 0))
    intro _
    apply bind (hput _)
    intro _
    split
    next => exact pure _
    next =>
      refine bind ?_ fun _ => pure _
      unfold writeEntries
      apply bind (hput _)
      intro _
      apply bind (hput _)
      intro _
      apply bind (reading_keeps _)
      intro table
      apply bind (hput _)
      intro _
      apply bind (hput _)
      intro _
      apply bind (writeFiles_keeps disk _ _)
      intro _
      split
      next => exact check_keeps (ftruncate_short _)
      next => exact pure ()

end Limit

/-- The inputs of the Go writer are these files, wherever they lie on disk. -/
structure GoInputs (inputs : Go.Inputs) (files : Std.TreeMap Bytes Bytes) : Prop where
  names : ∀ p, p ∈ inputs ↔ p ∈ files
  contents : ∀ p c : Bytes, files[p]? = some c → disk (Go.input inputs p) = some c

structure CppEntries (entries : List Cpp.ArchiveEntry) (files : Std.TreeMap Bytes Bytes) : Prop where
  names : (entries.map Cpp.ArchiveEntry.dstPath).Perm files.keys
  contents : ∀ e ∈ entries, disk e.srcPath = files[e.dstPath]?

variable {disk : Disk} {files : Std.TreeMap Bytes Bytes}

theorem GoInputs.sorted {inputs : Go.Inputs} (h : GoInputs disk inputs files) :
    Go.sortStrings inputs.keys = files.toList.map Prod.fst := by
  have hordered : files.keys.Pairwise fun a b => compare a b = .lt := TreeMap.ordered_keys
  rw [TreeMap.map_fst_toList_eq_keys]
  apply Ordered.mergeSort_eq _ hordered
  apply (perm_ext_iff_of_nodup inputs.keys_nodup (Ordered.nodup hordered)).mpr
  intro p
  rw [← AList.mem_keys, h.names p, TreeMap.mem_keys]

theorem CppEntries.holds {entries : List Cpp.ArchiveEntry} (h : CppEntries disk entries files) :
    Cpp.Holds disk (Cpp.sortEntries entries) files.toList := by
  have hordered : files.keys.Pairwise fun a b => compare a b = .lt := TreeMap.ordered_keys
  have hnames : (Cpp.sortEntries entries).map Cpp.ArchiveEntry.dstPath =
      files.toList.map Prod.fst := by
    rw [map_sortEntries, TreeMap.map_fst_toList_eq_keys]
    exact Ordered.mergeSort_eq h.names hordered
  have hmem : ∀ e ∈ Cpp.sortEntries entries, disk e.srcPath = files[e.dstPath]? :=
    fun e he => h.contents e ((mergeSort_perm ..).mem_iff.mp he)
  have hfiles : ∀ f ∈ files.toList, files[f.1]? = some f.2 :=
    fun f hf => TreeMap.mem_toList_iff_getElem?_eq_some.mp hf
  generalize Cpp.sortEntries entries = es at hnames hmem
  generalize files.toList = fs at hnames hfiles
  induction es generalizing fs with
  | nil =>
    cases fs with
    | nil => exact List.Forall₂.nil
    | cons f fs => cases hnames
  | cons e es ih =>
    cases fs with
    | nil => cases hnames
    | cons f fs =>
      rw [map_cons, map_cons, List.cons.injEq] at hnames
      have hcontents : disk e.srcPath = some f.2 := by
        rw [hmem e mem_cons_self, hnames.1]
        exact hfiles f mem_cons_self
      exact List.Forall₂.cons ⟨hnames.1, hcontents⟩
        (ih (fun d hd => hmem d (mem_cons_of_mem _ hd)) fs hnames.2 fun g hg => hfiles g (mem_cons_of_mem _ hg))

theorem names_in_bounds {fs : List File} {e : DirectoryEntry}
    (he : e ∈ directory 0 (contentStart fs) fs) :
    e.nameOffset + e.nameLength ≤ (padTo 8 0 (names fs)).length := by
  obtain ⟨gs, f, hs, rfl, rfl⟩ := mem_directory he
  have hle := le_roundUp (show 0 < 8 by decide) (names (gs ++ f :: hs)).length
  rw [padTo_length (by decide)]
  rw [names_append, length_append, names_cons, length_append] at hle
  change 0 + (names gs).length + f.1.length ≤ _
  rw [names_append, length_append, names_cons, length_append]
  omega

/-- The three writers agree on archives that are shorter than the largest file offset. -/
theorem writers_agree (files : Std.TreeMap Bytes Bytes) (hne : files.toList ≠ [])
    (hname : ∀ p ∈ files, p.length ≤ 65535) (hnames : (names files.toList).length < 2 ^ 32)
    (hlen : archiveLength files.toList < 2 ^ 63) (disk : Disk) (inputs : Go.Inputs)
    (hgo : GoInputs disk inputs files) (entries : List Cpp.ArchiveEntry)
    (hcpp : CppEntries disk entries files) :
    ∃ bytes, write (supplied files) = .ok bytes ∧ Go.write disk inputs = .ok bytes ∧
      (Cpp.ArchiveWriter.addAll entries).1 = true ∧
      (∃ w pos, Cpp.write disk (Cpp.ArchiveWriter.addAll entries).2 ⟨[], 0⟩ = .ok w ⟨bytes, pos⟩) ∧
      ∃ r, Cpp.ArchiveReader.read ⟨bytes, 0⟩ = .ok r ∧
        (∀ e ∈ r.directoryTable, e.nameOffset + e.nameLength ≤ r.pathData.length) ∧
        ∀ p i, r.getDirectoryIndexByPath p = some i ↔ files.keys[i]? = some p := by
  have hadm := admissible_toList hname hnames
  have hholds : Go.Holds disk inputs files.toList :=
    fun f hf => hgo.contents f.1 f.2 (TreeMap.mem_toList_iff_getElem?_eq_some.mp hf)
  have hdst : ∀ e ∈ entries, e.dstPath ∈ files :=
    fun e he => TreeMap.mem_keys.mp (hcpp.names.mem_iff.mp (mem_map_of_mem he))
  have hpaths : (Cpp.pathData entries).length < 2 ^ 32 := by
    have hsort := Cpp.pathData_sortEntries entries
    rw [Cpp.pathData_eq hcpp.holds] at hsort
    rw [← hsort]
    exact hnames
  obtain ⟨hadded, hentries, hdirty⟩ := addAll_eq (fun e he => hname _ (hdst e he)) hpaths
  generalize Cpp.ArchiveWriter.addAll entries = added at hadded hentries hdirty ⊢
  have hsort : added.2.sort.entries = Cpp.sortEntries entries := by
    rw [Cpp.ArchiveWriter.sort, if_pos hdirty]
    exact congrArg Cpp.sortEntries hentries
  have hcppholds : Cpp.Holds disk added.2.sort.entries files.toList := by
    rw [hsort]
    exact hcpp.holds
  have hdup : Cpp.duplicateEntry added.2.sort.entries = none := by
    apply duplicateEntry_none
    rw [hsort]
    apply (((mergeSort_perm ..).map _).trans hcpp.names).nodup_iff.mpr
    exact Ordered.nodup TreeMap.ordered_keys
  obtain ⟨pos, hwrite⟩ := Cpp.write_eq_archive hcppholds hadm hlen hne hdup
  obtain ⟨pos', hread⟩ := Cpp.ArchiveReader.read_archive hadm hlen 0
  refine ⟨archive files.toList, write_eq hadm (Nat.lt_trans hlen (by decide)) (supplied_toList files),
    Go.write_eq_archive hadm hlen hholds hgo.sorted, hadded, ⟨_, pos, hwrite⟩, _, hread,
      fun e => names_in_bounds, ?_⟩
  intro p i
  have hviews := @Cpp.map_getPathView files.toList ⟨⟨archive files.toList, pos'⟩,
    [dirIndex files.toList, nameIndex files.toList],
      directory 0 (contentStart files.toList) files.toList,
    padTo 8 0 (names files.toList)⟩ [] _ rfl (contentStart files.toList)
  rw [← TreeMap.map_fst_toList_eq_keys]
  exact Cpp.getDirectoryIndexByPath_eq_some TreeMap.ordered_keys_toList hviews p i

/-- The files `a` and `b`, kept on disk as `x` and `y`. -/
def twoOnDisk : Disk :=
  fun path => if path = [120] then some [1, 2, 3] else if path = [121] then some [] else none

/-- The C++ writer gets the files in another order. -/
theorem writers_agree_two_files : ∃ bytes, write (supplied twoFiles) = .ok bytes ∧
    Go.write twoOnDisk (AList.insert [97] [120] (AList.singleton [98] [121])) = .ok bytes ∧
    (∃ w pos, Cpp.write twoOnDisk (Cpp.ArchiveWriter.addAll [⟨[121], [98]⟩, ⟨[120], [97]⟩]).2
      ⟨[], 0⟩ =
      .ok w ⟨bytes, pos⟩) ∧
    ∃ r, Cpp.ArchiveReader.read ⟨bytes, 0⟩ = .ok r ∧ r.getDirectoryIndexByPath [98] = some 1 := by
  have hlist : twoFiles.toList = [([97], [1, 2, 3]), ([98], [])] := rfl
  have hkeys : twoFiles.keys = [[97], [98]] := rfl
  have hmem (p : Bytes) : p ∈ twoFiles ↔ p = [97] ∨ p = [98] := by
    rw [← TreeMap.mem_keys, hkeys]
    simp
  have hfile (p c : Bytes) (h : twoFiles[p]? = some c) : p = [97] ∧ c = [1, 2, 3] ∨ p = [98] ∧
      c = [] := by
    have hin := TreeMap.mem_toList_iff_getElem?_eq_some.mpr h
    rw [hlist] at hin
    simpa using hin
  have hgo : GoInputs twoOnDisk (AList.insert [97] [120] (AList.singleton [98] [121])) twoFiles := by
    refine ⟨fun p => ?_, fun p c h => ?_⟩
    · rw [hmem]
      simp [AList.mem_keys]
    · obtain ⟨rfl, rfl⟩ | ⟨rfl, rfl⟩ := hfile p c h <;> rfl
  have hcpp : CppEntries twoOnDisk [⟨[121], [98]⟩, ⟨[120], [97]⟩] twoFiles := by
    refine ⟨?_, fun e he => ?_⟩
    · rw [hkeys]
      exact .swap _ _ _
    · simp only [mem_cons, not_mem_nil, or_false] at he
      obtain rfl | rfl := he <;> rfl
  obtain ⟨bytes, hrust, hgo, _, hcpp, r, hread, _, hfind⟩ :=
    writers_agree twoFiles (by rw [hlist]; simp)
    (fun p hp => by rcases (hmem p).mp hp with rfl | rfl <;> decide) (by decide +kernel) (by decide +kernel)
    twoOnDisk _ hgo _ hcpp
  exact ⟨bytes, hrust, hgo, hcpp, r, hread, (hfind [98] 1).mpr (by rw [hkeys]; rfl)⟩

/-- Two files of `2 ^ 62` bytes: the archive is longer than any file the C++ writer leaves. -/
theorem writers_disagree :
    ∃ bytes, write (supplied (twice (List.replicate (2 ^ 62) 0))) = .ok bytes ∧
    ∀ disk entries w fd, Cpp.write disk (Cpp.ArchiveWriter.addAll entries).2 ⟨[], 0⟩ = .ok w fd →
      fd.bytes ≠ bytes := by
  have hlen : (List.replicate (2 ^ 62) 0 : Bytes).length = 2 ^ 62 := length_replicate
  generalize (List.replicate (2 ^ 62) 0 : Bytes) = c at hlen ⊢
  have hend : archiveLength [([97], c), ([98], c)] = 2 ^ 63 + 4096 := by
    simp only [archiveLength, contentEnd, hlen, twice_start]
    decide
  have hadm : Admissible (twice c).toList := by
    rw [twice_toList]
    exact ⟨by simp, by simp [names]⟩
  have hfit : archiveLength (twice c).toList < 2 ^ 64 := by
    rw [twice_toList, hend]
    decide
  refine ⟨_, write_eq hadm hfit (supplied_toList _), ?_⟩
  intro disk entries w fd hwrite heq
  have hshort : Short fd := write_keeps disk _ ⟨[], 0⟩ w fd (by unfold Short; decide) hwrite
  unfold Short at hshort
  rw [heq, archive_length, twice_toList, hend] at hshort
  exact absurd hshort (by decide)

end Garnet.Far
