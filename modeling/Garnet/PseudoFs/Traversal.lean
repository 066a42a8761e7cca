import Garnet.PseudoFs.Listing

/-! A listing between two Rewinds, with entries added and removed under it. -/

namespace Garnet.PseudoFs
open List

open Std LittleEndian

variable {io : DirentIo}

section Encoding

def Dirent.encode (d : Dirent) : List UInt8 :=
  toLe 8 d.info.inode.toNat ++ [UInt8.ofNat d.name.length] ++ [d.info.type] ++ d.name

def encodeAll (ds : List Dirent) : List UInt8 := ds.flatMap Dirent.encode

theorem Dirent.encode_length (d : Dirent) : d.encode.length = 10 + d.name.length := by
  unfold Dirent.encode
  simp only [length_append, toLe_length, length_cons, length_nil]

theorem Dirent.encode_ne_nil (d : Dirent) : d.encode ≠ [] := by
  intro h
  have hlen := d.encode_length
  rw [h, length_nil] at hlen
  omega

variable {ds : List Dirent} {fuel : Nat}

theorem encodeAll_eq_nil (h : encodeAll ds = []) : ds = [] := by
  cases ds with
  | nil => rfl
  | cons d rest =>
    unfold encodeAll at h
    rw [flatMap_cons, append_eq_nil_iff] at h
    exact absurd h.1 d.encode_ne_nil

theorem length_le_encodeAll (ds : List Dirent) : ds.length ≤ (encodeAll ds).length := by
  induction ds with
  | nil => exact Nat.le_refl 0
  | cons d rest ih =>
    unfold encodeAll at ih ⊢
    rw [flatMap_cons, length_append, d.encode_length, length_cons]
    omega

theorem decodeDirents_encode {d : Dirent} (h : d.name.length ≤ 255) (rest : List UInt8) :
    decodeDirents (fuel + 1) (d.encode ++ rest) =
      (decodeDirents fuel rest).map fun ds => d :: ds := by
  have hhead : (d.encode ++ rest).take 8 = toLe 8 d.info.inode.toNat := by
    unfold Dirent.encode
    rw [append_assoc, append_assoc, append_assoc, take_append_of_le_length,
      take_of_length_le]
    · rw [toLe_length]
    · rw [toLe_length]
  have htail : (d.encode ++ rest).drop 8 =
      UInt8.ofNat d.name.length :: d.info.type :: (d.name ++ rest) := by
    unfold Dirent.encode
    rw [append_assoc, append_assoc, append_assoc,
      drop_append_of_le_length (by rw [toLe_length]), drop_of_length_le (by rw [toLe_length])]
    rfl
  have hlength : (UInt8.ofNat d.name.length).toNat = d.name.length :=
    UInt8.toNat_ofNat_of_lt' (by change _ < 2 ^ 8; omega)
  have hinode : UInt64.ofNat (ofLe (toLe 8 d.info.inode.toNat)) = d.info.inode := by
    rw [ofLe_toLe_of_lt d.info.inode.toNat_lt, UInt64.ofNat_toNat]
  have hne : d.encode ++ rest ≠ [] := fun h => d.encode_ne_nil (append_eq_nil_iff.mp h).1
  conv_lhs => unfold decodeDirents
  rw [if_neg hne, htail]
  dsimp only
  rw [hlength, if_pos (by rw [length_append]; omega), hhead, hinode,
    drop_left' rfl, take_left' rfl]

theorem decodeDirents_encodeAll (h : ∀ d ∈ ds, d.name.length ≤ 255) (hfuel : ds.length ≤ fuel) :
    decodeDirents fuel (encodeAll ds) = some ds := by
  induction ds generalizing fuel with
  | nil => cases fuel <;> rfl
  | cons d rest ih =>
    cases fuel with
    | zero => exact absurd hfuel (Nat.not_succ_le_zero _)
    | succ fuel =>
      have hrest := ih (fun e he => h e (mem_cons_of_mem d he)) (Nat.le_of_succ_le_succ hfuel)
      unfold encodeAll at hrest ⊢
      rw [flatMap_cons, decodeDirents_encode (h d mem_cons_self), hrest]
      rfl

end Encoding

section Reading
variable {maxBytes : Nat} {buf : List UInt8}

def ofEntry (e : Name × EntryInfo) : Dirent := ⟨e.1, e.2⟩

theorem encodeDirent_spec (buf : List UInt8) (maxBytes : Nat) (info : EntryInfo) {name : Name}
    (h : name.length < io.maxFilename) :
    encodeDirent io buf maxBytes info name =
      .ok (if maxBytes < (buf ++ Dirent.encode ⟨name, info⟩).length then none
        else some (buf ++ Dirent.encode ⟨name, info⟩)) := by
  unfold encodeDirent
  rw [length_append, Dirent.encode_length]
  dsimp only
  by_cases hfit : maxBytes < buf.length + (10 + name.length)
  · rw [if_pos hfit, if_pos (by omega)]
  · rw [if_neg hfit, if_neg (by omega), if_neg (not_not.mpr h), if_neg (not_not.mpr io.byteFits)]
    unfold Dirent.encode
    simp only [append_assoc]

/-- The position after `shown`, counted from `last`. -/
def positionAfter (last : AlphabeticalTraversal) (shown : List Dirent) : AlphabeticalTraversal :=
  match shown.getLast? with
  | none => last
  | some d => .name d.name

/-- How the loop ends: everything is shown, or the next entry does not fit. -/
def Ends (fitOne : Bool) (last : AlphabeticalTraversal) (shown hidden : List Dirent)
    (status : Status) (seek : AlphabeticalTraversal) : Prop :=
  (hidden = [] ∧ status = .ok ∧ seek = .end) ∨
    (hidden ≠ [] ∧ seek = positionAfter last shown ∧
      status = if fitOne = true ∨ shown ≠ [] then .ok else .bufferTooSmall)

theorem positionAfter_cons (last : AlphabeticalTraversal) (d : Dirent) (shown : List Dirent) :
    positionAfter last (d :: shown) = positionAfter (.name d.name) shown := by
  unfold positionAfter
  rw [List.getLast?_cons]
  cases shown.getLast? with
  | none => rfl
  | some e => rfl

theorem readEntries_spec {l : List (Name × EntryInfo)}
    (hshort : ∀ e ∈ l, e.1.length < io.maxFilename) (hbuf : buf.length ≤ maxBytes) (fitOne : Bool)
    (last : AlphabeticalTraversal) :
    ∃ shown hidden status seek, l.map ofEntry = shown ++ hidden ∧
      readEntries io maxBytes l buf fitOne last = .ok (status, buf ++ encodeAll shown, seek) ∧
      (buf ++ encodeAll shown).length ≤ maxBytes ∧ Ends fitOne last shown hidden status seek ∧
      ∀ d ∈ hidden.head?, maxBytes < (buf ++ encodeAll shown ++ d.encode).length := by
  have hnil : buf ++ encodeAll [] = buf := append_nil buf
  induction l generalizing buf fitOne last with
  | nil =>
    refine ⟨[], [], .ok, .end, rfl, ?_, ?_, .inl ⟨rfl, rfl, rfl⟩, nofun⟩
    · rw [hnil, readEntries]
    · rwa [hnil]
  | cons e rest ih =>
    obtain ⟨name, info⟩ := e
    have henc := encodeDirent_spec buf maxBytes info (hshort (name, info) mem_cons_self)
    by_cases hfit : maxBytes < (buf ++ Dirent.encode ⟨name, info⟩).length
    · refine ⟨[], ofEntry (name, info) :: rest.map ofEntry,
        if fitOne then .ok else .bufferTooSmall, last, rfl, ?_, ?_, .inr ⟨nofun, rfl, ?_⟩, ?_⟩
      · rw [hnil, readEntries, henc, if_pos hfit]
        rfl
      · rwa [hnil]
      · cases fitOne <;> rfl
      · rintro d ⟨⟩
        rwa [hnil]
    · obtain ⟨shown, hidden, status, seek, hl, hrun, hlen, hends, hnext⟩ :=
        ih (fun e he => hshort e (mem_cons_of_mem _ he)) (Nat.le_of_not_lt hfit) true (.name name)
          (append_nil _)
      have hbytes : buf ++ encodeAll (ofEntry (name, info) :: shown) =
          buf ++ Dirent.encode ⟨name, info⟩ ++ encodeAll shown := (append_assoc ..).symm
      refine ⟨ofEntry (name, info) :: shown, hidden, status, seek, ?_, ?_, ?_, ?_, hbytes.symm ▸ hnext⟩
      · rw [map_cons, hl, cons_append]
      · rw [hbytes]
        rw [readEntries, henc, if_neg hfit]
        exact hrun
      · rwa [hbytes]
      · rcases hends with hends | ⟨hhidden, hseek, hstatus⟩
        · exact .inl hends
        · refine .inr ⟨hhidden, ?_, ?_⟩
          · rw [hseek, positionAfter_cons]
            rfl
          · rw [hstatus, if_pos (.inl rfl), if_pos (.inr nofun)]

end Reading

section Position

def passed : AlphabeticalTraversal → Name → Bool
  | .start, _ => false
  | .dot, _ => false
  | .name last, m => compare last m != .lt
  | .end, _ => true

def pending (dir : SimpleDirectory io) (seek : AlphabeticalTraversal) : List (Name × EntryInfo) :=
  dir.entries.toList.filter fun e => !passed seek e.1

variable {last m : Name} {seek : AlphabeticalTraversal} {dir : SimpleDirectory io}

theorem passed_name_eq_false : passed (.name last) m = false ↔ compare last m = .lt := by
  change (compare last m != .lt) = false ↔ _
  cases compare last m <;> decide

theorem passed_name : passed (.name last) m = true ↔ compare last m ≠ .lt := by
  rw [← Bool.not_eq_false, passed_name_eq_false]

theorem lt_of_passed {x y : Name} (hx : passed seek x = true)
    (hy : passed seek y = false) : compare x y = .lt := by
  cases seek with
  | start | dot => cases hx
  | «end» => cases hy
  | name last =>
    rw [passed_name] at hx
    rw [passed_name_eq_false] at hy
    have hle : compare x last ≠ .gt := fun h => hx (OrientedCmp.gt_iff_lt.mp h)
    exact TransCmp.lt_of_isLE_of_lt (Ordering.isLE_iff_ne_gt.mpr hle) hy

theorem mem_pending {e : Name × EntryInfo} :
    e ∈ pending dir seek ↔ dir.entries[e.1]? = some e.2 ∧ passed seek e.1 = false := by
  unfold pending
  rw [mem_filter, Bool.not_eq_true', TreeMap.mem_toList_iff_getElem?_eq_some]

theorem pending_short : ∀ e ∈ pending dir seek, e.1.length < io.maxFilename := by
  intro e he
  obtain ⟨hmem, -⟩ := mem_pending.mp he
  apply dir.short
  rw [TreeMap.mem_iff_isSome_getElem?, hmem]
  rfl

theorem handleReadDirents_pending (dir : SimpleDirectory io)
    (hstart : seek ≠ .start) (hend : seek ≠ .end) (maxBytes : Nat) :
    handleReadDirents dir seek maxBytes =
      readEntries io maxBytes (pending dir seek) [] false seek := by
  have hall : dir.entries.toList.filter (fun _ => true) = dir.entries.toList :=
    filter_true _
  cases seek with
  | start => exact absurd rfl hstart
  | dot =>
    unfold pending
    change readEntries io maxBytes dir.entries.toList [] false .dot =
      readEntries io maxBytes (dir.entries.toList.filter fun _ => true) [] false .dot
    rw [hall]
  | name last =>
    unfold pending
    have hsame : (fun e : Name × EntryInfo => !passed (.name last) e.1) =
        fun e => decide (compare last e.1 = .lt) := by
      funext e
      change (!(compare last e.1 != .lt)) = _
      cases compare last e.1 <;> rfl
    rw [hsame]
    rfl
  | «end» => exact absurd rfl hend

def dotDirent (io : DirentIo) : Dirent := ⟨dotName, dotInfo io⟩

def lead (io : DirentIo) (seek : AlphabeticalTraversal) : List Dirent :=
  if seek = .start then [dotDirent io] else []

def base (seek : AlphabeticalTraversal) : AlphabeticalTraversal :=
  if seek = .start then .dot else seek

/-- What one call can do: it returns the next entries and moves behind them, up
to the end if there are no more, or the next entry does not fit and nothing changes. -/
inductive Advance (io : DirentIo) (maxBytes : Nat) (seek : AlphabeticalTraversal) :
    List Dirent → List Dirent → List Dirent → Status → AlphabeticalTraversal → Prop
  | stuck {hidden : List Dirent} {d : Dirent} (h : (lead io seek ++ hidden).head? = some d)
    (hlong : maxBytes < d.encode.length) : Advance io maxBytes seek [] [] hidden .bufferTooSmall seek
  | finished {shown : List Dirent} : Advance io maxBytes seek (lead io seek) shown [] .ok .end
  | moved {shown hidden : List Dirent} (h : lead io seek ++ shown ≠ []) :
    Advance io maxBytes seek (lead io seek) shown hidden .ok (positionAfter (base seek) shown)

theorem handleReadDirents_start (dir : SimpleDirectory io) (maxBytes : Nat) :
    ∃ led shown hidden status seek',
      handleReadDirents dir .start maxBytes = .ok (status, encodeAll (led ++ shown), seek') ∧
      (encodeAll (led ++ shown)).length ≤ maxBytes ∧
      (pending dir .start).map ofEntry = shown ++ hidden ∧
      Advance io maxBytes .start led shown hidden status seek' := by
  have henc := @encodeDirent_spec io [] maxBytes (dotInfo io) dotName io.dotFits
  rw [nil_append] at henc
  have hpending : pending dir .start = dir.entries.toList := filter_true _
  by_cases hfit : maxBytes < (Dirent.encode ⟨dotName, dotInfo io⟩).length
  · refine ⟨[], [], (pending dir .start).map ofEntry, .bufferTooSmall, .start, ?_, Nat.zero_le _,
      rfl, .stuck rfl hfit⟩
    rw [handleReadDirents, henc, if_pos hfit]
    rfl
  · obtain ⟨shown, hidden, status, seek', hl, hrun, hlen, hends, -⟩ :=
      readEntries_spec (pending_short : ∀ e ∈ pending dir .start, _) (Nat.le_of_not_lt hfit) true .dot
    have hbytes : encodeAll ([dotDirent io] ++ shown) = (dotDirent io).encode ++ encodeAll shown :=
      flatMap_cons
    refine ⟨[dotDirent io], shown, hidden, status, seek', ?_, ?_, hl, ?_⟩
    · rw [handleReadDirents, henc, if_neg hfit, hbytes, ← hpending]
      exact hrun
    · rwa [hbytes]
    · rcases hends with ⟨rfl, rfl, rfl⟩ | ⟨-, rfl, hstatus⟩
      · exact Advance.finished
      · rw [hstatus, if_pos (.inl rfl)]
        exact @Advance.moved io maxBytes .start shown hidden nofun

theorem handleReadDirents_spec (dir : SimpleDirectory io) (seek : AlphabeticalTraversal)
    (maxBytes : Nat) :
    ∃ led shown hidden status seek',
      handleReadDirents dir seek maxBytes = .ok (status, encodeAll (led ++ shown), seek') ∧
      (encodeAll (led ++ shown)).length ≤ maxBytes ∧
      (pending dir seek).map ofEntry = shown ++ hidden ∧
      Advance io maxBytes seek led shown hidden status seek' := by
  by_cases hend : seek = .end
  · subst hend
    refine ⟨lead io .end, [], [], .ok, .end, rfl, Nat.zero_le _, ?_, .finished⟩
    unfold pending
    change (dir.entries.toList.filter fun _ => false).map ofEntry = []
    rw [filter_false]
    rfl
  by_cases hstart : seek = .start
  · subst hstart
    exact handleReadDirents_start dir maxBytes
  · have hled : lead io seek = [] := if_neg hstart
    have hbase : base seek = seek := if_neg hstart
    obtain ⟨shown, hidden, status, seek', hl, hrun, hlen, hends, hnext⟩ :=
      @readEntries_spec io maxBytes [] (pending dir seek) pending_short (Nat.zero_le _) false seek
    rw [nil_append] at hrun hlen
    refine ⟨[], shown, hidden, status, seek', ?_, hlen, hl, ?_⟩
    · rw [handleReadDirents_pending dir hstart hend]
      exact hrun
    · rcases hends with ⟨rfl, rfl, rfl⟩ | ⟨hhidden, rfl, hstatus⟩
      · have hfinished := @Advance.finished io maxBytes seek shown
        rw [hled] at hfinished
        exact hfinished
      · by_cases hshown : shown = []
        · subst hshown
          obtain ⟨d, rest, rfl⟩ := exists_cons_of_ne_nil hhidden
          rw [hstatus, if_neg (by simp)]
          exact .stuck (by rw [hled]; rfl) (hnext d rfl)
        · have hmoved := @Advance.moved io maxBytes seek shown hidden (by rw [hled]; exact hshown)
          rw [hled, hbase] at hmoved
          rw [hstatus, if_pos (.inr hshown)]
          exact hmoved

end Position

end Garnet.PseudoFs
