import Garnet.Pkg.MetaContents

/-! The "meta/contents" file is read back as it was written. -/

namespace Garnet.Pkg
open List
open Std Merkle
open MetaContents (deserialize deserializeLines entryLine serialize)

section Lines
variable {path : Bytes} {hash : Hash}

theorem displayHash_range {c : UInt8} (h : c ∈ displayHash hash) :
    48 ≤ c.toNat ∧ c.toNat ≤ 102 ∧ c.toNat ≠ 61 := by
  have hrange := Hex.mem_encode h
  omega

theorem displayHash_ne_nil (hash : Hash) : displayHash hash ≠ [] := by
  intro h
  have hlen := Hex.encode_length hash.bytes
  unfold displayHash at h
  rw [h, hash.length_eq] at hlen
  cases hlen

theorem hashFromStr_displayHash (hash : Hash) : hashFromStr (displayHash hash) = some hash := by
  unfold hashFromStr displayHash
  rw [Hex.decode_encode]
  exact dif_pos hash.length_eq

theorem entryLine_newline (h : Lines.newline ∉ path) : Lines.newline ∉ entryLine (path, hash) := by
  intro hmem
  rcases mem_append.mp hmem with hpath | hrest
  · exact h hpath
  · rcases mem_cons.mp hrest with heq | hhash
    · cases heq
    · have hrange := displayHash_range hhash
      change 48 ≤ 10 ∧ _ at hrange
      omega

theorem entryLine_getLast : (entryLine (path, hash)).getLast? ≠ some Lines.carriageReturn := by
  intro h
  have hmem : Lines.carriageReturn ∈ displayHash hash := by
    unfold entryLine at h
    obtain ⟨c, hc⟩ :=
      List.getLast?_isSome.mpr (displayHash_ne_nil hash) |> Option.isSome_iff_exists.mp
    have hlast : (path ++ equalsSign :: displayHash hash).getLast? = some c := by
      rw [List.getLast?_append, List.getLast?_cons, hc]
      rfl
    rw [hlast] at h
    cases h
    exact mem_of_getLast? hc
  have hrange := displayHash_range hmem
  change 48 ≤ 13 ∧ _ at hrange
  omega

theorem entryLine_split : Lines.splitLast equalsSign (entryLine (path, hash)) =
    some (path, displayHash hash) := by
  apply Lines.splitLast_append
  intro hmem
  exact (displayHash_range hmem).2.2 rfl

theorem entryLine_valid (h : Utf8.valid path = true) :
    Utf8.valid (entryLine (path, hash)) = true := by
  apply Utf8.valid_append h
  apply Utf8.valid_of_ascii
  intro c hc
  rw [UInt8.lt_iff_toNat_lt]
  rcases mem_cons.mp hc with rfl | hc
  · decide
  · have hrange := displayHash_range hc
    change c.toNat < 128
    omega

end Lines

theorem deserializeLines_entries {l : List (Bytes × Hash)} {contents : TreeMap Bytes Hash}
    (hvalid : ∀ e ∈ l, Utf8.valid e.1 = true) (hnodup : (l.map Prod.fst).Nodup)
    (hnew : ∀ e ∈ l, e.1 ∉ contents) :
    ∃ m, deserializeLines (l.map entryLine) contents = .ok m ∧
      ∀ (p : Bytes) (h : Hash), m[p]? = some h ↔ contents[p]? = some h ∨ (p, h) ∈ l := by
  induction l generalizing contents with
  | nil => exact ⟨contents, rfl, fun p h => by simp⟩
  | cons e rest ih =>
    obtain ⟨path, hash⟩ := e
    rw [map_cons, nodup_cons] at hnodup
    have habsent : contents.contains path = false := by
      rw [← Bool.not_eq_true, TreeMap.contains_iff_mem]
      exact hnew _ mem_cons_self
    obtain ⟨m, hrun, hm⟩ := @ih (contents.insert path hash)
      (fun e he => hvalid e (mem_cons_of_mem _ he)) hnodup.2 (by
        intro e he hmem
        rcases TreeMap.mem_insert.mp hmem with heq | hmem
        · have hsame : path = e.1 := LawfulEqCmp.eq_of_compare heq
          have hmem : e.1 ∈ rest.map Prod.fst := mem_map_of_mem he
          exact hnodup.1 (hsame ▸ hmem)
        · exact hnew e (mem_cons_of_mem _ he) hmem)
    refine ⟨m, ?_, ?_⟩
    · rw [map_cons]
      unfold deserializeLines
      rw [if_pos (entryLine_valid (hvalid _ mem_cons_self)), entryLine_split]
      dsimp only
      rw [hashFromStr_displayHash]
      dsimp only
      rw [habsent, if_neg Bool.false_ne_true]
      exact hrun
    · intro p h
      rw [hm, TreeMap.getElem?_insert, mem_cons]
      by_cases hp : compare path p = .eq
      · have hsame : path = p := LawfulEqCmp.eq_of_compare hp
        subst hsame
        have hnone : contents[path]? = none :=
          TreeMap.getElem?_eq_none (hnew _ mem_cons_self)
        rw [if_pos hp, hnone]
        constructor
        · rintro (heq | hmem)
          · cases heq
            exact .inr (.inl rfl)
          · exact .inr (.inr hmem)
        · rintro (hno | heq | hmem)
          · cases hno
          · cases heq
            exact .inl rfl
          · exact .inr hmem
      · rw [if_neg hp]
        constructor
        · rintro (hold | hmem)
          · exact .inl hold
          · exact .inr (.inr hmem)
        · rintro (hold | heq | hmem)
          · exact .inl hold
          · cases heq
            exact absurd ReflCmp.compare_self hp
          · exact .inr hmem

theorem deserialize_serialize {m : MetaContents} (hvalid : ∀ p ∈ m.contents, Utf8.valid p = true)
    (hline : ∀ p ∈ m.contents, Lines.newline ∉ p) :
    ∃ m', deserialize m.serialize = .ok m' ∧
      ∀ p : Bytes, m'.contents[p]? = m.contents[p]? := by
  have hin {e : Bytes × Hash} (he : e ∈ m.contents.toList) : e.1 ∈ m.contents := by
    have hget : m.contents[e.1]? = some e.2 := TreeMap.mem_toList_iff_getElem?_eq_some.mp he
    exact TreeMap.mem_iff_isSome_getElem?.mpr (by rw [hget]; rfl)
  have hlines : Lines.lines m.serialize = m.contents.toList.map entryLine := by
    unfold serialize
    have hmap : (m.contents.toList.flatMap fun entry => entryLine entry ++ [Lines.newline]) =
        (m.contents.toList.map entryLine).flatMap fun l => l ++ [Lines.newline] := by
      rw [flatMap_map]
    rw [hmap, Lines.lines_flatMap]
    · intro l hl
      obtain ⟨e, he, rfl⟩ := mem_map.mp hl
      exact entryLine_newline (hline e.1 (hin he))
    · intro l hl
      obtain ⟨e, he, rfl⟩ := mem_map.mp hl
      exact entryLine_getLast
  have hnodup : (m.contents.toList.map Prod.fst).Nodup := by
    rw [TreeMap.map_fst_toList_eq_keys]
    exact TreeMap.nodup_keys
  obtain ⟨contents, hrun, hcontents⟩ := @deserializeLines_entries m.contents.toList ∅
    (fun e he => hvalid e.1 (hin he)) hnodup (fun e _ => TreeMap.not_mem_emptyc)
  refine ⟨⟨contents⟩, ?_, ?_⟩
  · unfold deserialize
    rw [hlines, hrun]
    rfl
  · intro p
    apply Option.ext
    intro h
    rw [hcontents, TreeMap.mem_toList_iff_getElem?_eq_some, TreeMap.getElem?_emptyc]
    exact ⟨fun hor => hor.resolve_left nofun, .inr⟩

end Garnet.Pkg
