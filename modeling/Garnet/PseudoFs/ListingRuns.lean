import Garnet.Lib.Ordered
import Garnet.PseudoFs.Traversal

/-! Whole listings: what the replies between two Rewinds amount to. -/

namespace Garnet.PseudoFs
open List

open Std

variable {io : DirentIo}

def Increasing (ds : List Dirent) : Prop := ds.Pairwise fun a b => compare a.name b.name = .lt

def returned (named : List (Record io × List Dirent)) : List Dirent := named.flatMap Prod.snd

/-- The first reply starts with ".", and behind it there are only the named entries. -/
def Decoded : List (Record io × List Dirent) → Prop
  | [] => True
  | (r, ds) :: rest => decodeReply r.bytes = some (dotDirent io :: ds) ∧
    ∀ p ∈ rest, decodeReply p.1.bytes = some p.2

/-- The calls `records` returned nothing up to some call, and from there "." and
then the entries of `named`, each there when it was returned. -/
structure Traversed (records silent : List (Record io)) (named : List (Record io × List Dirent)) :
    Prop where
  split : records = silent ++ named.map Prod.fst
  silent_empty : ∀ r ∈ silent, r.bytes = []
  decoded : Decoded named
  increasing : Increasing (returned named)
  present : ∀ p ∈ named, ∀ d ∈ p.2, p.1.directory.entries[d.name]? = some d.info

def Throughout (records : List (Record io)) (m : Name) : Prop :=
  ∀ r ∈ records, m ∈ r.directory.entries

/-- The position `seek` tells which entries have been returned. -/
structure At (records silent : List (Record io)) (named : List (Record io × List Dirent))
    (seek : AlphabeticalTraversal) : Prop extends Traversed records silent named where
  begun : seek = .start ↔ named = []
  behind : ∀ d ∈ returned named, passed seek d.name = true
  covered : ∀ m, Throughout records m → passed seek m = true →
    m ∈ (returned named).map Dirent.name

section Step
variable {records silent : List (Record io)} {named : List (Record io × List Dirent)}
  {seek seek' : AlphabeticalTraversal} {r : Record io} {shown : List Dirent}

theorem Decoded.append (h : Decoded named) (hne : named ≠ [])
    (hr : decodeReply r.bytes = some shown) : Decoded (named ++ [(r, shown)]) := by
  cases named with
  | nil => exact absurd rfl hne
  | cons p rest =>
    exact ⟨h.1, forall_mem_append.mpr ⟨h.2, forall_mem_singleton.mpr hr⟩⟩

theorem returned_append : returned (named ++ [(r, shown)]) = returned named ++ shown := by
  unfold returned
  rw [flatMap_append, flatMap_singleton]

theorem At.wait (h : At records silent named .start) (hbytes : r.bytes = []) :
    At (records ++ [r]) (silent ++ [r]) named .start := by
  have hnone : named = [] := h.begun.mp rfl
  subst hnone
  refine ⟨⟨?_, ?_, h.decoded, h.increasing, h.present⟩, h.begun, h.behind, nofun⟩
  · rw [h.split, map_nil, append_nil, append_nil]
  · exact forall_mem_append.mpr ⟨h.silent_empty, forall_mem_singleton.mpr hbytes⟩

theorem At.extend (h : At records silent named seek)
    (hdecode : decodeReply r.bytes = some (lead io seek ++ shown)) (hincreasing : Increasing shown)
    (hpresent : ∀ d ∈ shown, r.directory.entries[d.name]? = some d.info)
    (hnew : ∀ d ∈ shown, passed seek d.name = false) (hbegun : seek' ≠ .start)
    (hbehind : ∀ d ∈ shown, passed seek' d.name = true)
    (hmono : ∀ m, passed seek m = true → passed seek' m = true)
    (hcovered : ∀ m ∈ r.directory.entries, passed seek' m = true →
      passed seek m = true ∨ m ∈ shown.map Dirent.name) :
    At (records ++ [r]) silent (named ++ [(r, shown)]) seek' := by
  refine ⟨⟨?_, h.silent_empty, ?_, ?_, ?_⟩, ?_, ?_, ?_⟩
  · rw [h.split, map_append, append_assoc]
    rfl
  · by_cases hstart : seek = .start
    · have hnone := h.begun.mp hstart
      subst hnone
      unfold lead at hdecode
      rw [if_pos hstart] at hdecode
      exact ⟨hdecode, nofun⟩
    · unfold lead at hdecode
      rw [if_neg hstart] at hdecode
      exact h.decoded.append (fun hnone => hstart (h.begun.mpr hnone)) hdecode
  · rw [returned_append]
    unfold Increasing
    rw [pairwise_append]
    exact ⟨h.increasing, hincreasing, fun a ha b hb => lt_of_passed (h.behind a ha) (hnew b hb)⟩
  · exact forall_mem_append.mpr ⟨h.present, forall_mem_singleton.mpr hpresent⟩
  · refine iff_of_false hbegun ?_
    simp
  · rw [returned_append]
    exact forall_mem_append.mpr ⟨fun d hd => hmono _ (h.behind d hd), hbehind⟩
  · intro m hm hpassed
    rw [returned_append, map_append, mem_append]
    rcases hcovered m (hm r (mem_append_right _ mem_cons_self)) hpassed with hold | hnew
    · exact .inl (h.covered m (fun r' hr' => hm r' (mem_append_left _ hr')) hold)
    · exact .inr hnew

end Step

section Pending
variable {dir : SimpleDirectory io} {seek : AlphabeticalTraversal} {shown hidden : List Dirent}

section
variable (h : (pending dir seek).map ofEntry = shown ++ hidden)
include h

theorem pending_increasing : Increasing (shown ++ hidden) := by
  rw [← h]
  unfold Increasing
  rw [pairwise_map]
  exact TreeMap.ordered_keys_toList.filter _

theorem mem_pending_map (d : Dirent) :
    d ∈ shown ++ hidden ↔ dir.entries[d.name]? = some d.info ∧ passed seek d.name = false := by
  rw [← h, mem_map]
  constructor
  · rintro ⟨e, he, rfl⟩
    exact mem_pending.mp he
  · intro hd
    exact ⟨(d.name, d.info), mem_pending.mpr hd, rfl⟩

theorem passed_or_pending {m : Name} (hm : m ∈ dir.entries) :
    passed seek m = true ∨ ∃ d ∈ shown ++ hidden, d.name = m := by
  cases hpassed : passed seek m with
  | true => exact .inl rfl
  | false =>
    obtain ⟨info, hinfo⟩ := Option.isSome_iff_exists.mp (TreeMap.mem_iff_isSome_getElem?.mp hm)
    exact .inr ⟨⟨m, info⟩, (mem_pending_map h _).mpr ⟨hinfo, hpassed⟩, rfl⟩

end

theorem passed_base (m : Name) : passed (base seek) m = passed seek m := by
  unfold base
  split
  · rename_i h
    rw [h]
    rfl
  · rfl

section
variable (h : (pending dir seek).map ofEntry = shown ++ hidden)
include h

theorem passed_positionAfter {m : Name} (hm : passed (positionAfter (base seek) shown) m = true) :
    passed seek m = true ∨ ∀ d ∈ hidden, d.name ≠ m := by
  unfold positionAfter at hm
  cases hlast : shown.getLast? with
  | none =>
    rw [hlast] at hm
    exact .inl (passed_base m ▸ hm)
  | some l =>
    rw [hlast] at hm
    right
    intro d hd heq
    have hlt := (pairwise_append.mp (pending_increasing h)).2.2 l (mem_of_getLast? hlast) d hd
    rw [heq] at hlt
    exact passed_name.mp hm hlt

theorem passed_shown {d : Dirent} (hd : d ∈ shown) :
    passed (positionAfter (base seek) shown) d.name = true := by
  have hincreasing := (pairwise_append.mp (pending_increasing h)).1
  unfold positionAfter
  cases hlast : shown.getLast? with
  | none =>
    rw [List.getLast?_eq_none_iff.mp hlast] at hd
    cases hd
  | some l =>
    obtain ⟨front, rfl⟩ := List.getLast?_eq_some_iff.mp hlast
    rw [passed_name]
    rcases mem_append.mp hd with hd | hd
    · have hlt := (pairwise_append.mp hincreasing).2.2 d hd l mem_cons_self
      exact fun hgt => OrientedCmp.not_lt_of_lt hlt hgt
    · rw [mem_singleton.mp hd]
      intro hself
      rw [@ReflCmp.compare_self _ compare] at hself
      cases hself

theorem passed_mono {m : Name} (hm : passed seek m = true) :
    passed (positionAfter (base seek) shown) m = true := by
  unfold positionAfter
  cases hlast : shown.getLast? with
  | none => exact (passed_base m).trans hm
  | some l =>
    have hmem := mem_of_getLast? hlast
    have hnew := ((mem_pending_map h l).mp (mem_append_left _ hmem)).2
    rw [passed_name]
    exact fun hgt => OrientedCmp.not_lt_of_lt (lt_of_passed hm hnew) hgt

end

theorem positionAfter_ne_start : positionAfter (base seek) shown ≠ .start := by
  unfold positionAfter
  cases shown.getLast? with
  | some l => exact nofun
  | none =>
    unfold base
    by_cases h : seek = .start
    · rw [if_pos h]
      exact nofun
    · rw [if_neg h]
      exact h

end Pending

section Runs
variable {records silent : List (Record io)} {named : List (Record io × List Dirent)}
  {dir : SimpleDirectory io} {seek seek' : AlphabeticalTraversal} {r : Record io}
    {led shown hidden : List Dirent}

/-- The entry that a listing at the position `seek` returns next. -/
def nextEntry (dir : SimpleDirectory io) (seek : AlphabeticalTraversal) : Option Dirent :=
  (lead io seek ++ (pending dir seek).map ofEntry).head?

/-- A reply to ReadDirents fails exactly when the next entry does not fit, and it is empty otherwise
only when there is no next entry. -/
structure Replies (r : Record io) (maxBytes : Nat) : Prop where
  bounded : r.bytes.length ≤ maxBytes
  tooSmall : r.status = .bufferTooSmall ↔
    ∃ d, nextEntry r.directory r.seek = some d ∧ maxBytes < d.encode.length
  empty : r.status = .ok → r.bytes = [] → nextEntry r.directory r.seek = none

structure Orderly (r : Record io) : Prop where
  replies : ∀ maxBytes, r.call = .readDirents maxBytes → Replies r maxBytes
  tooSmall : r.status = .bufferTooSmall → r.bytes = [] ∧ r.seekAfter = r.seek
  finished : ∀ maxBytes, r.call = .readDirents maxBytes → r.status = .ok → r.bytes = [] →
    r.seekAfter = .end

theorem At.stay (h : At records silent named seek) (hbytes : r.bytes = []) :
    ∃ silent' named', At (records ++ [r]) silent' named' seek := by
  by_cases hstart : seek = .start
  · subst hstart
    exact ⟨_, _, h.wait hbytes⟩
  · refine ⟨silent, named ++ [(r, [])], h.extend ?_ List.Pairwise.nil nofun nofun hstart nofun
      (fun _ hm => hm) (fun _ _ hm => .inl hm)⟩
    unfold lead
    rw [hbytes, if_neg hstart]
    rfl

theorem At.advance (h : At records silent named seek)
    {status : Status} (hdir : r.directory = dir) (hbytes : r.bytes = encodeAll (led ++ shown))
    (hpending : (pending dir seek).map ofEntry = shown ++ hidden)
    {maxBytes : Nat} (hadvance : Advance io maxBytes seek led shown hidden status seek') :
    ∃ silent' named', At (records ++ [r]) silent' named' seek' := by
  subst hdir
  have hmem : ∀ d ∈ shown, r.directory.entries[d.name]? = some d.info ∧ passed seek d.name = false :=
    fun d hd => (mem_pending_map hpending d).mp (mem_append_left _ hd)
  have hincreasing : Increasing shown :=
    (pairwise_append.mp (pending_increasing hpending)).1
  have hdecode : decodeReply (encodeAll (lead io seek ++ shown)) = some (lead io seek ++ shown) := by
    refine decodeDirents_encodeAll ?_ (length_le_encodeAll _)
    intro d hd
    rcases mem_append.mp hd with hd | hd
    · unfold lead at hd
      split at hd
      · rw [mem_singleton.mp hd]
        exact (by decide : dotName.length ≤ 255)
      · cases hd
    · have hshort : d.name.length < io.maxFilename := by
        apply r.directory.short
        rw [TreeMap.mem_iff_isSome_getElem?, (hmem d hd).1]
        rfl
      have hbyte := io.byteFits
      omega
  cases hadvance with
  | stuck => exact h.stay hbytes
  | finished =>
    refine ⟨silent, named ++ [(r, shown)], h.extend (hbytes ▸ hdecode) hincreasing
      (fun d hd => (hmem d hd).1) (fun d hd => (hmem d hd).2) nofun (fun _ _ => rfl)
      (fun _ _ => rfl) ?_⟩
    intro m hm _
    rcases passed_or_pending hpending hm with hold | ⟨d, hd, hname⟩
    · exact .inl hold
    · rw [append_nil] at hd
      exact .inr (mem_map.mpr ⟨d, hd, hname⟩)
  | moved =>
    refine ⟨silent, named ++ [(r, shown)], h.extend (hbytes ▸ hdecode) hincreasing
      (fun d hd => (hmem d hd).1) (fun d hd => (hmem d hd).2) positionAfter_ne_start
      (fun d hd => passed_shown hpending hd) (fun m hm => passed_mono hpending hm) ?_⟩
    intro m hm hpassed
    rcases passed_positionAfter hpending hpassed with hold | hhidden
    · exact .inl hold
    · rcases passed_or_pending hpending hm with hold | ⟨d, hd, hname⟩
      · exact .inl hold
      · rcases mem_append.mp hd with hd | hd
        · exact .inr (mem_map.mpr ⟨d, hd, hname⟩)
        · exact absurd hname (hhidden d hd)

theorem encode_head_le {d : Dirent} {ds : List Dirent} (hd : ds.head? = some d) :
    d.encode.length ≤ (encodeAll ds).length := by
  obtain ⟨rest, rfl⟩ := List.head?_eq_some_iff.mp hd
  unfold encodeAll
  rw [flatMap_cons, length_append]
  exact Nat.le_add_right _ _

theorem Advance.orderly {maxBytes : Nat}
    (hcall : r.call = .readDirents maxBytes) (hbytes : r.bytes = encodeAll (led ++ shown))
    (hlen : (encodeAll (led ++ shown)).length ≤ maxBytes)
    (hpending : (pending r.directory r.seek).map ofEntry = shown ++ hidden)
    (h : Advance io maxBytes r.seek led shown hidden r.status r.seekAfter) : Orderly r := by
  obtain ⟨call, directory, seek, status, bytes, seekAfter⟩ := r
  dsimp only at hcall hbytes hpending h
  subst hcall hbytes
  have hnext : nextEntry directory seek = (lead io seek ++ (shown ++ hidden)).head? := by
    unfold nextEntry
    rw [hpending]
  have hfits : ∀ d, (led ++ shown).head? = some d → ¬ maxBytes < d.encode.length :=
    fun d hd => Nat.not_lt.mpr ((encode_head_le hd).trans hlen)
  cases h with
  | stuck hhead hlong =>
    refine ⟨?_, fun _ => ⟨rfl, rfl⟩, nofun⟩
    rintro _ ⟨⟩
    exact ⟨hlen, iff_of_true rfl ⟨_, hnext.trans hhead, hlong⟩, nofun⟩
  | finished =>
    rw [append_nil] at hnext
    refine ⟨?_, nofun, fun _ _ _ _ => rfl⟩
    rintro _ ⟨⟩
    refine ⟨hlen, iff_of_false nofun ?_, fun _ hempty => ?_⟩
    · exact fun ⟨d, hd, hlong⟩ => hfits d (hnext.symm.trans hd) hlong
    · exact hnext.trans (congrArg head? (encodeAll_eq_nil hempty))
  | moved hne =>
    rw [← append_assoc, List.head?_append_of_ne_nil _ hne] at hnext
    refine ⟨?_, nofun, fun _ _ _ hempty => absurd (encodeAll_eq_nil hempty) hne⟩
    rintro _ ⟨⟩
    refine ⟨hlen, iff_of_false nofun ?_, fun _ hempty => absurd (encodeAll_eq_nil hempty) hne⟩
    exact fun ⟨d, hd, hlong⟩ => hfits d (hnext.symm.trans hd) hlong

variable (dir : SimpleDirectory io)

theorem addEntry_ok (name : Name) (entry : EntryInfo) :
    ∃ status dir', addEntry dir name entry = .ok (status, dir') ∧ status ≠ .bufferTooSmall := by
  unfold addEntry
  split
  · exact ⟨_, _, rfl, nofun⟩
  · rename_i hlength
    split
    · exact ⟨_, _, rfl, nofun⟩
    · unfold sendEvent
      rw [if_neg hlength]
      exact ⟨_, _, rfl, nofun⟩

theorem removeEntry_ok (name : Name) :
    ∃ status dir', removeEntry dir name = .ok (status, dir') ∧ status ≠ .bufferTooSmall := by
  unfold removeEntry
  split
  · exact ⟨_, _, rfl, nofun⟩
  · rename_i hlength
    unfold sendEvent
    rw [if_neg hlength]
    exact ⟨_, _, rfl, nofun⟩

theorem At.serveCall (h : At records silent named seek) (dir : SimpleDirectory io)
    (call : DirectoryCall) :
    ∃ r dir', PseudoFs.serveCall dir seek call = .ok (r, dir') ∧ Orderly r ∧
      ∃ silent' named', At (records ++ [r]) silent' named' r.seekAfter := by
  cases call with
  | readDirents maxBytes =>
    obtain ⟨led, shown, hidden, status, seek', hrun, hlen, hpending, hadvance⟩ :=
      handleReadDirents_spec dir seek maxBytes
    refine ⟨⟨.readDirents maxBytes, dir, seek, status, encodeAll (led ++ shown), seek'⟩, dir, ?_,
      Advance.orderly rfl rfl hlen hpending hadvance, h.advance rfl rfl hpending hadvance⟩
    dsimp only [PseudoFs.serveCall]
    rw [hrun]
    rfl
  | addEntry name entry =>
    obtain ⟨status, dir', hrun, hstatus⟩ := addEntry_ok dir name entry
    refine ⟨⟨.addEntry name entry, dir, seek, status, [], seek⟩, dir', ?_,
      ⟨nofun, fun hsmall => absurd hsmall hstatus, nofun⟩, h.stay rfl⟩
    dsimp only [PseudoFs.serveCall]
    rw [hrun]
    rfl
  | removeEntry name =>
    obtain ⟨status, dir', hrun, hstatus⟩ := removeEntry_ok dir name
    refine ⟨⟨.removeEntry name, dir, seek, status, [], seek⟩, dir', ?_,
      ⟨nofun, fun hsmall => absurd hsmall hstatus, nofun⟩, h.stay rfl⟩
    dsimp only [PseudoFs.serveCall]
    rw [hrun]
    rfl

theorem At.serveCalls (h : At records silent named seek) (horderly : ∀ r ∈ records, Orderly r)
    (hlast : ∀ r, records.getLast? = some r → r.seekAfter = seek) (calls : List DirectoryCall)
    (dir : SimpleDirectory io) :
    ∃ new, PseudoFs.serveCalls calls dir seek = .ok new ∧ (∀ r ∈ records ++ new, Orderly r) ∧
      ∃ silent' named' seek', At (records ++ new) silent' named' seek' ∧
        ∀ r, (records ++ new).getLast? = some r → r.seekAfter = seek' := by
  induction calls generalizing records silent named seek dir with
  | nil =>
    refine ⟨[], rfl, ?_⟩
    rw [append_nil]
    exact ⟨horderly, silent, named, seek, h, hlast⟩
  | cons call rest ih =>
    obtain ⟨r, dir', hrun, hr, silent₁, named₁, hat⟩ := h.serveCall dir call
    have hall : ∀ r' ∈ records ++ [r], Orderly r' :=
      forall_mem_append.mpr ⟨horderly, forall_mem_singleton.mpr hr⟩
    have hend : ∀ r', (records ++ [r]).getLast? = some r' → r'.seekAfter = r.seekAfter := by
      intro r' hr'
      rw [List.getLast?_append] at hr'
      cases hr'
      rfl
    obtain ⟨new, hrest, hall', hat'⟩ := ih hat hall hend dir'
    rw [append_assoc] at hall' hat'
    refine ⟨r :: new, ?_, hall', hat'⟩
    unfold PseudoFs.serveCalls
    rw [hrun, ok_bind]
    dsimp only
    rw [hrest]
    rfl

end Runs

end Garnet.PseudoFs
