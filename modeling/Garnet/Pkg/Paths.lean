import Garnet.Pkg.Contents

/-! Which paths a "meta/contents" file has. Those of a map are checked, those of a file that is read
are not. -/

namespace Garnet.Pkg
open List
open Std Merkle

theorem checkAll_ok {ε : Type} {check : Bytes → Except ε Unit} {l : List Bytes} :
    checkAll check l = .ok () ↔ ∀ p ∈ l, check p = .ok () := by
  induction l with
  | nil => exact ⟨fun _ => nofun, fun _ => rfl⟩
  | cons p rest ih =>
    unfold checkAll
    cases hp : check p with
    | error e =>
      refine iff_of_false nofun ?_
      intro hall
      have hbad := hall p mem_cons_self
      rw [hp] at hbad
      cases hbad
    | ok u =>
      rw [ok_bind, ih, forall_mem_cons, hp]
      exact ⟨fun h => ⟨rfl, h⟩, And.right⟩

structure ValidSegment (s : Bytes) : Prop where
  nonempty : s ≠ []
  length : s.length ≤ 255
  notDot : s ≠ ascii "."
  notDotDot : s ≠ ascii ".."
  noNull : 0 ∉ s
  noNewline : Lines.newline ∉ s

def ValidPath (path : Bytes) : Prop := ∀ s ∈ path.splitOn slash, ValidSegment s

theorem checkSegments_ok {segments : List Bytes} (h : checkSegments segments = .ok ()) :
    ∀ s ∈ segments, ValidSegment s := by
  induction segments with
  | nil => exact nofun
  | cons segment rest ih =>
    unfold checkSegments at h
    obtain ⟨_, hs, h⟩ := ok_of_bind h
    rw [forall_mem_cons]
    refine ⟨?_, ih h⟩
    unfold checkSegment at hs
    obtain ⟨hnull, hs⟩ := ok_of_check hs
    obtain ⟨hdot, hs⟩ := ok_of_check hs
    obtain ⟨hdots, hs⟩ := ok_of_check hs
    obtain ⟨hempty, hs⟩ := ok_of_check hs
    obtain ⟨hlong, hs⟩ := ok_of_check hs
    obtain ⟨hline, -⟩ := ok_of_check hs
    exact ⟨hempty, Nat.le_of_not_lt hlong, hdot, hdots, hnull, hline⟩

theorem checkResourcePath_ok {path : Bytes} (h : checkResourcePath path = .ok ()) :
    ValidPath path := by
  unfold checkResourcePath at h
  obtain ⟨-, h⟩ := ok_of_check h
  obtain ⟨-, h⟩ := ok_of_check h
  obtain ⟨-, h⟩ := ok_of_check h
  exact checkSegments_ok h

theorem mem_intercalate {sep : Bytes} {ls : List Bytes} {c : UInt8} (h : c ∈ sep.intercalate ls) :
    c ∈ sep ∨ ∃ l ∈ ls, c ∈ l := by
  induction ls with
  | nil => cases h
  | cons l rest ih =>
    cases rest with
    | nil =>
      change c ∈ l ++ [] at h
      rw [append_nil] at h
      exact .inr ⟨l, mem_cons_self, h⟩
    | cons l' rest =>
      change c ∈ l ++ (sep ++ sep.intercalate (l' :: rest)) at h
      rcases mem_append.mp h with hl | h
      · exact .inr ⟨l, mem_cons_self, hl⟩
      · rcases mem_append.mp h with hsep | h
        · exact .inl hsep
        · rcases ih h with hsep | ⟨m, hm, hc⟩
          · exact .inl hsep
          · exact .inr ⟨m, mem_cons_of_mem l hm, hc⟩

theorem ValidPath.newline {path : Bytes} (h : ValidPath path) : Lines.newline ∉ path := by
  intro hmem
  rw [← @List.intercalate_splitOn _ path _ _ slash] at hmem
  rcases mem_intercalate hmem with hslash | ⟨segment, hsegment, hc⟩
  · cases mem_singleton.mp hslash
  · exact (h segment hsegment).noNewline hc

namespace MetaContents
variable {m : MetaContents} {map : TreeMap Bytes Hash} {bytes : Bytes}

theorem fromMap_iff : fromMap map = .ok m ↔
    m = ⟨map⟩ ∧ ∀ p ∈ map, checkResourcePath p = .ok () ∧ inMetaDirectory p = false := by
  unfold fromMap
  constructor
  · intro h
    obtain ⟨_, hall, h⟩ := ok_of_bind h
    rw [checkAll_ok] at hall
    cases h
    refine ⟨rfl, fun p hp => ?_⟩
    have hcheck := hall p (TreeMap.mem_keys.mpr hp)
    split at hcheck
    next hpath =>
      obtain ⟨houtside, -⟩ := ok_of_check hcheck
      exact ⟨hpath, eq_false_of_ne_true houtside⟩
    next => cases hcheck
  · rintro ⟨rfl, hall⟩
    rw [checkAll_ok.mpr]
    · rfl
    · intro p hp
      obtain ⟨hpath, houtside⟩ := hall p (TreeMap.mem_keys.mp hp)
      rw [hpath, houtside]
      rfl

def Outside (path : Bytes) : Prop := ValidPath path ∧ inMetaDirectory path = false

/-- The paths are what they should be, and the file is read back as it was written. -/
structure WellFormed (m : MetaContents) : Prop where
  paths : ∀ p ∈ m.contents, Outside p
  roundTrip : ∃ m', deserialize m.serialize = .ok m' ∧ ∀ p : Bytes, m'.contents[p]? = m.contents[p]?

theorem wellFormed_iff (hvalid : ∀ p ∈ m.contents, Utf8.valid p = true) :
    m.WellFormed ↔ ∀ p ∈ m.contents, Outside p :=
  ⟨WellFormed.paths, fun h => ⟨h, deserialize_serialize hvalid fun p hp => (h p hp).1.newline⟩⟩

theorem valid_path {line path text : Bytes} (h : Utf8.valid line = true)
    (hsplit : Lines.splitLast equalsSign line = some (path, text)) : Utf8.valid path = true := by
  obtain rfl := Lines.splitLast_eq hsplit
  have htake :=
    (Utf8.valid_take_iff h (i := path.length) (by simp)).mpr (by simp [Utf8.isCharBoundary]; decide)
  rwa [take_left] at htake

theorem mem_deserializeLines {ls : List Bytes} {contents contents' : TreeMap Bytes Hash}
    (h : deserializeLines ls contents = .ok contents') : (∀ line ∈ ls, Utf8.valid line = true) ∧
      ∀ p, p ∈ contents' ↔ p ∈ contents ∨
        ∃ line ∈ ls, ∃ text, Lines.splitLast equalsSign line = some (p, text) := by
  induction ls generalizing contents with
  | nil =>
    cases h
    simp
  | cons line ls ih =>
    unfold deserializeLines at h
    obtain ⟨hvalid, h⟩ := ok_of_guard h
    split at h
    next => cases h
    next path text hsplit =>
      split at h
      next => cases h
      next hash _ =>
        obtain ⟨-, h⟩ := ok_of_check h
        obtain ⟨hlines, hmem⟩ := ih h
        refine ⟨forall_mem_cons.mpr ⟨hvalid, hlines⟩, fun p => ?_⟩
        have hpath : compare path p = .eq ↔ ∃ text, Lines.splitLast equalsSign line =
            some (p, text) := by
          rw [hsplit, LawfulEqCmp.compare_eq_iff_eq]
          simp
        rw [hmem, TreeMap.mem_insert, hpath, exists_mem_cons_iff, or_comm (b := p ∈ contents),
          or_assoc]

/-- The paths of a map are checked. A file that was read is well formed if and only if its lines
are. -/
theorem wellFormed_of_fromMap_or_lines (hmap : ∀ p ∈ map, Utf8.valid p = true) :
    (∀ m, fromMap map = .ok m → m.WellFormed) ∧ ∀ m, deserialize bytes = .ok m →
      (m.WellFormed ↔ ∀ line ∈ Lines.lines bytes, ∀ path text,
        Lines.splitLast equalsSign line = some (path, text) → Outside path) := by
  constructor
  · intro m h
    obtain ⟨rfl, hall⟩ := fromMap_iff.mp h
    exact (wellFormed_iff hmap).mpr fun p hp => ⟨checkResourcePath_ok (hall p hp).1, (hall p hp).2⟩
  · intro m h
    obtain ⟨contents, hread, hm⟩ := ok_of_bind h
    cases hm
    obtain ⟨hlines, hmem⟩ := mem_deserializeLines hread
    have hpath (p : Bytes) : p ∈ contents ↔ ∃ line ∈ Lines.lines bytes, ∃ text,
        Lines.splitLast equalsSign line = some (p, text) :=
      (hmem p).trans (or_iff_right TreeMap.not_mem_emptyc)
    rw [wellFormed_iff]
    · constructor
      · intro h line hline path text hsplit
        exact h path ((hpath path).mpr ⟨line, hline, text, hsplit⟩)
      · intro h p hp
        obtain ⟨line, hline, text, hsplit⟩ := (hpath p).mp hp
        exact h line hline p text hsplit
    · intro p hp
      obtain ⟨line, hline, text, hsplit⟩ := (hpath p).mp hp
      exact valid_path (hlines line hline) hsplit

/-- One path, with a hash of zeros. -/
def single (path : Bytes) : TreeMap Bytes Hash := TreeMap.insert ∅ path ⟨List.replicate 32 0, rfl⟩

theorem mem_single {path p : Bytes} : p ∈ single path ↔ p = path := by
  rw [single, TreeMap.mem_insert, LawfulEqCmp.compare_eq_iff_eq, or_iff_left TreeMap.not_mem_emptyc,
    eq_comm]

/-- A map with the path `a`, and the file that has it. -/
theorem wellFormed_single : (∃ m, fromMap (single [97]) = .ok m ∧ m.WellFormed) ∧
    ∃ m, deserialize (mk (single [97])).serialize = .ok m := by
  have hpath : ∀ p ∈ single [97], Utf8.valid p = true := fun p hp => by rw [mem_single.mp hp]; rfl
  have hmap : fromMap (single [97]) = .ok ⟨single [97]⟩ := by
    refine fromMap_iff.mpr ⟨rfl, fun p hp => ?_⟩
    rw [mem_single.mp hp]
    exact ⟨rfl, rfl⟩
  have hform := (@wellFormed_of_fromMap_or_lines _ [] hpath).1 _ hmap
  obtain ⟨m, hm, -⟩ := hform.roundTrip
  exact ⟨⟨_, hmap, hform⟩, m, hm⟩

/-- The path `..` is read. -/
theorem dotDot_read :
    ∃ m, deserialize (mk (single [46, 46])).serialize = .ok m ∧ ¬ m.WellFormed := by
  obtain ⟨m, hm, hsame⟩ := deserialize_serialize (m := ⟨single [46, 46]⟩)
    (fun p hp => by rw [mem_single.mp hp]; rfl) (fun p hp => by rw [mem_single.mp hp]; decide)
  refine ⟨m, hm, fun h => ?_⟩
  have hin : [46, 46] ∈ m.contents := by
    rw [TreeMap.mem_iff_isSome_getElem?, hsame, ← TreeMap.mem_iff_isSome_getElem?]
    exact mem_single.mpr rfl
  exact ((h.paths _ hin).1 [46, 46] (by decide)).notDotDot rfl

end MetaContents

end Garnet.Pkg
