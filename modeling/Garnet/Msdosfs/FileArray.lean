import Garnet.Lib.Growable
import Garnet.Msdosfs.FileWrite

/-! A file against an array of bytes that grows. -/

namespace Garnet.Msdosfs
open List
open Growable

variable {v : Volume} {s s' : FileState} {rest : List (List Nat)} {buf : List UInt8} {off n : Nat}

theorem Held.stored_length (_ : Held v s rest) :
    (s.stored v.b).length = v.b.clusterSize * s.node.clusters.length :=
  Msdosfs.stored_length _ _ _

theorem Held.contents_length (h : Held v s rest) : (s.contents v.b).length = s.node.size := by
  have hfits := h.fits
  unfold FileState.contents
  rw [length_take, h.stored_length]
  omega

section Read

theorem read_piece (hlt : off < v.b.clusterSize * s.node.clusters.length)
    (hfits : off % v.b.clusterSize + n ≤ v.b.clusterSize) :
    ∃ c, s.node.clusters[off / v.b.clusterSize]? = some c ∧
      s.device.readAt n (v.b.clusterLocationData c + off % v.b.clusterSize) =
        slice n off (s.stored v.b) := by
  obtain ⟨xs, c, ys, hclusters, hxs, hget⟩ := cluster_at v.positive hlt
  refine ⟨c, hget, ?_⟩
  have hdiv := Nat.div_add_mod off v.b.clusterSize
  have hlength : (Msdosfs.stored v.b s.device xs).length =
      v.b.clusterSize * (off / v.b.clusterSize) := by
    rw [Msdosfs.stored_length, hxs]
  apply ext_getElem?
  intro i
  unfold FileState.stored
  rw [hclusters, stored_append, stored_cons, getElem?_slice]
  by_cases hi : i < n
  · have hindex : off + i - v.b.clusterSize * (off / v.b.clusterSize) =
        off % v.b.clusterSize + i := by omega
    rw [if_pos hi, Device.getElem?_readAt hi, List.getElem?_append_right (by omega), hlength, hindex,
      List.getElem?_append_left (by rw [Device.readAt_length]; omega), Device.getElem?_readAt (by omega), add_assoc]
  · rw [if_neg hi, List.getElem?_eq_none (by rw [Device.readAt_length]; omega)]

theorem slice_contents (hle : off + n ≤ s.node.size) :
    slice n off (s.contents v.b) = slice n off (s.stored v.b) := by
  apply ext_getElem?
  intro i
  unfold FileState.contents
  rw [getElem?_slice, getElem?_slice, List.getElem?_take]
  by_cases hi : i < n
  · rw [if_pos hi, if_pos (by omega), if_pos hi]
  · rw [if_neg hi, if_neg hi]

theorem slice_contents_end (h : Held v s rest) (hle : s.node.size - off ≤ n) :
    slice n off (s.contents v.b) = slice (s.node.size - off) off (s.contents v.b) := by
  have hlength := h.contents_length
  unfold slice
  rw [take_of_length_le (by rw [length_drop]; omega), take_of_length_le (by rw [length_drop]; omega)]

theorem read_contents (hlt : off < v.b.clusterSize * s.node.clusters.length)
    (hfits : off % v.b.clusterSize + n ≤ v.b.clusterSize) (hle : off + n ≤ s.node.size) :
    ∃ c, s.node.clusters[off / v.b.clusterSize]? = some c ∧
      s.device.readAt n (v.b.clusterLocationData c + off % v.b.clusterSize) =
        slice n off (s.contents v.b) := by
  rw [slice_contents hle]
  exact read_piece hlt hfits

theorem readLoop_spec {len fuel : Nat} {got : List UInt8} (h : Held v s rest)
    (hoff : off ≤ s.node.size) (hgot : got.length ≤ len) (hfuel : len - got.length < fuel) :
    Node.readLoop v.b s len fuel got off =
    .ok (got ++ slice (len - got.length) off (s.contents v.b)) := by
  induction fuel generalizing got off with
  | zero => omega
  | succ fuel ih =>
    unfold Node.readLoop
    split
    next hfull =>
      rw [Nat.sub_eq_zero_of_le hfull, slice_zero, append_nil]
    next =>
      by_cases hlt : off < v.b.clusterSize * s.node.clusters.length
      · have hmod := Nat.mod_lt off v.positive
        by_cases hshort : len < got.length + (v.b.clusterSize - off % v.b.clusterSize)
        · by_cases hend : s.node.size < off + (len - got.length)
          · obtain ⟨c, hget, hread⟩ :=
              @read_contents v s off (s.node.size - off) hlt (by omega) (by omega)
            rw [hget]
            dsimp only
            rw [if_pos hshort, if_pos hend, hread, if_pos (.inl hshort),
              ← @slice_contents_end v s rest off (len - got.length) h (by omega)]
          · obtain ⟨c, hget, hread⟩ :=
              @read_contents v s off (len - got.length) hlt (by omega) (by omega)
            rw [hget]
            dsimp only
            rw [if_pos hshort, if_neg hend, hread, if_pos (.inl hshort)]
        · by_cases hend : s.node.size < off + (v.b.clusterSize - off % v.b.clusterSize)
          · obtain ⟨c, hget, hread⟩ :=
              @read_contents v s off (s.node.size - off) hlt (by omega) (by omega)
            rw [hget]
            dsimp only
            rw [if_neg hshort, if_pos hend, hread, if_pos (.inr hend),
              ← @slice_contents_end v s rest off (len - got.length) h (by omega)]
          · -- A whole rest of a cluster: the loop goes on behind it.
            obtain ⟨count, hcount⟩ : ∃ count, v.b.clusterSize - off % v.b.clusterSize = count :=
              ⟨_, rfl⟩
            rw [hcount] at hshort hend
            obtain ⟨c, hget, hread⟩ := @read_contents v s off count hlt (by omega) (by omega)
            have hlength := h.contents_length
            have hpiece : (slice count off (s.contents v.b)).length = count := slice_length (by omega)
            rw [hget]
            dsimp only
            rw [hcount, if_neg hshort, if_neg hend, hread,
              if_neg (fun h : _ ∨ _ => h.elim hshort hend),
              ih (by omega) (by rw [length_append, hpiece]; omega) (by rw [length_append, hpiece]; omega),
              length_append, hpiece, append_assoc, slice_append (by omega)]
            congr 3
            omega
      · have hnone : s.node.clusters[off / v.b.clusterSize]? = none := by
          rw [List.getElem?_eq_none_iff, Nat.le_div_iff_mul_le v.positive, mul_comm]
          exact Nat.le_of_not_lt hlt
        have hfits := h.fits
        have hpast : s.node.size - off = 0 := by omega
        rw [hnone, slice_contents_end h (by omega), hpast, slice_zero, append_nil]

theorem readAt_spec (h : Held v s rest) (len off : Nat) :
    ∃ err, Node.readAt v.b len off s = .ok (slice len off (s.contents v.b), err) := by
  unfold Node.readAt
  rw [if_neg (by omega)]
  by_cases hend : s.node.size ≤ off
  · have hpast : s.node.size - off = 0 := by omega
    rw [if_pos (by omega), slice_contents_end h (by omega), hpast, slice_zero]
    exact ⟨_, rfl⟩
  · rw [if_neg (by omega), Int.toNat_natCast,
      readLoop_spec h (by omega) (Nat.zero_le _) (by rw [length_nil]; omega)]
    exact ⟨_, rfl⟩

end Read

variable (b : Bootrecord)

section Write

/-- Between the end of the file and `off` its clusters hold zeros. -/
def Clear (s : FileState) (off : Nat) : Prop :=
  ∀ x ∈ slice (off - s.node.size) s.node.size (s.stored b), x = 0

instance (s : FileState) (off : Nat) : Decidable (Clear b s off) := inferInstanceAs (Decidable (∀ x ∈ _, x = 0))

theorem Clear.zero {b : Bootrecord} {i : Nat} (h : Clear b s off) (hsize : s.node.size ≤ i)
    (hi : i < off) (hlt : i < (s.stored b).length) : (s.stored b)[i]? = some 0 := by
  have hget : (slice (off - s.node.size) s.node.size (s.stored b))[i - s.node.size]? =
      (s.stored b)[i]? := by
    rw [getElem?_slice, if_pos (by omega), Nat.add_sub_cancel' hsize]
  rw [List.getElem?_eq_getElem hlt] at hget ⊢
  rw [h _ (mem_of_getElem? hget)]

/-- A file into which a write fits, and which has no old bytes before it. -/
structure Fits (s : FileState) (off : Nat) (buf : List UInt8) : Prop where
  limit : off + buf.length ≤ maxSizeFile
  space : off + buf.length ≤ reachable b s
  start : off ≤ s.node.size ∨ buf ≠ [] ∧ Clear b s off

theorem take_put {k : Nat} (h : Held v s rest) (hfits : Fits v.b s off buf)
    (hroom : off + buf.length ≤ v.b.clusterSize * (s.node.clusters.length + k)) :
    (splice off buf (s.stored v.b ++ List.replicate (v.b.clusterSize * k) 0)).take
      (max s.node.size (off + buf.length)) =
      put 0 off buf (s.contents v.b) := by
  have hlength := h.stored_length
  have hsize := h.fits
  have htotal : (s.stored v.b ++ List.replicate (v.b.clusterSize * k) 0).length =
      v.b.clusterSize * (s.node.clusters.length + k) := by
    rw [length_append, length_replicate, hlength, mul_add]
  apply ext_getElem?
  intro i
  rw [List.getElem?_take, getElem?_splice (by omega), getElem?_put, h.contents_length]
  by_cases hin : off ≤ i ∧ i < off + buf.length
  · rw [if_pos hin, if_pos (by omega), if_neg (by omega), if_pos hin.2]
  · rw [if_neg hin]
    by_cases hold : i < s.node.size
    · -- The old contents.
      have hsame : (s.stored v.b ++ List.replicate (v.b.clusterSize * k) 0)[i]? =
          (s.contents v.b)[i]? := by
        unfold FileState.contents
        rw [List.getElem?_append_left (by omega), List.getElem?_take, if_pos hold]
      rw [if_pos (by omega), if_pos hold, hsame]
      split
      · rfl
      · rw [if_neg (by omega)]
    · rw [if_neg hold]
      by_cases hlow : i < off + buf.length
      · -- The gap: what the clusters held already, or the zeros of the new ones.
        have hgap : i < off := by omega
        have hclear := (hfits.start.resolve_left (by omega)).2
        rw [if_pos (by omega), if_pos hgap, if_pos hlow]
        by_cases hfirst : i < (s.stored v.b).length
        · rw [List.getElem?_append_left hfirst]
          exact hclear.zero (by omega) hgap hfirst
        · rw [List.getElem?_append_right (by omega), List.getElem?_replicate, if_pos]
          rw [hlength, mul_add] at *
          omega
      · rw [if_neg (by omega), if_neg hlow]

theorem writeAt_put (h : HeldFile v s rest) (hfits : Fits v.b s off buf) :
    ∃ s', Node.writeAt v.b buf off s = .ok (buf.length, none) s' ∧ HeldFile v s' rest ∧
      reachable v.b s' = reachable v.b s ∧ s'.contents v.b = put 0 off buf (s.contents v.b) := by
  have hlimit := hfits.limit
  have hspace := hfits.space
  have hword : off + buf.length < 2 ^ 63 := lt_of_le_of_lt hlimit (by unfold maxSizeFile; omega)
  obtain ⟨n, new, s', hn, hrun, hheld, hnode, hreach, hroom, hstored⟩ :=
    writeAt_ok h (by omega) (by omega) hword
  obtain rfl : buf.length = n := by
    rw [← hn, prefixLength]
    omega
  rw [take_length] at hnode hstored
  have hsize : s'.node.size = max s.node.size (off + buf.length) := by
    rw [hnode]
    by_cases hbuf : buf = []
    · have hstart := hfits.start.resolve_right fun hne => hne.1 hbuf
      rw [if_pos hbuf, hbuf, length_nil, add_zero, max_eq_left hstart]
    · rw [if_neg hbuf]
  refine ⟨s', ?_, hheld, hreach, ?_⟩
  · rw [hrun, if_neg fun hne => hne rfl]
  · unfold FileState.contents
    rw [hstored, hsize]
    exact take_put h.toHeld hfits hroom

theorem growLoop_spec {size fuel : Nat} (h : HeldFile v s rest) (hlimit : size ≤ maxSizeFile)
    (hspace : size ≤ reachable v.b s) (hfuel : size - s.node.size < fuel) :
    ∃ s', growLoop v.b size fuel s = .ok () s' ∧ HeldFile v s' rest ∧
      s'.contents v.b = grow 0 size (s.contents v.b) := by
  induction fuel generalizing s with
  | zero => omega
  | succ fuel ih =>
    have hlength := h.contents_length
    unfold growLoop
    by_cases henough : size ≤ s.node.size
    · refine ⟨s, if_pos henough, h, ?_⟩
      rw [grow_of_le (by omega)]
    · obtain ⟨count, hcount⟩ : ∃ count, min (2 ^ 14) (size - s.node.size) = count := ⟨_, rfl⟩
      have hfits : Fits v.b s s.node.size (List.replicate count 0) := by
        refine ⟨?_, ?_, .inl (le_refl _)⟩ <;> rw [length_replicate] <;> omega
      obtain ⟨s₁, hrun, hheld, hreach, hcontents⟩ := writeAt_put h hfits
      have hgrown : s₁.contents v.b = grow 0 (s.node.size + count) (s.contents v.b) := by
        rw [hcontents, ← hlength, put_replicate]
      have hsize : s₁.node.size = s.node.size + count := by
        rw [← hheld.contents_length, hgrown, grow_length, hlength]
        omega
      obtain ⟨s', hrun', hheld', hcontents'⟩ := ih hheld (by omega) (by omega)
      refine ⟨s', ?_, hheld', ?_⟩
      · rw [if_neg henough, hcount, hrun]
        exact hrun'
      · rw [hcontents', hgrown, grow_grow (by omega)]

end Write

section SetSize
variable {xs ys : List Nat} {c : Nat}

theorem split_clusters {l : List Nat} {k : Nat} (hget : l[k]? = some c) :
    ∃ xs ys, l = xs ++ c :: ys ∧ xs.length = k ∧ l.take k = xs := by
  obtain ⟨hlt, heq⟩ := List.getElem?_eq_some_iff.mp hget
  refine ⟨l.take k, l.drop (k + 1), ?_, ?_, rfl⟩
  · rw [← heq, getElem_cons_drop, take_append_drop]
  · rw [length_take]
    omega

theorem stored_sameData {f f' : FAT} {l : List Nat} (hdata : SameData v f f')
    (hvalid : ∀ e ∈ l, v.b.clusterInValidRange e = true) :
    Msdosfs.stored v.b f'.device l = Msdosfs.stored v.b f.device l := by
  apply stored_congr
  intro e he k hle _
  exact hdata k (le_trans (dataStart_le (hvalid e he)) hle)

theorem free_rest (h : Held v s rest) (hmark : v.b.maxCluster < v.b.eofValue)
    (hclusters : s.node.clusters = xs ++ c :: ys) :
    ∃ f, (match xs.getLast? with
        | some last => Manager.clusterTruncate v.b last
        | none => Manager.clusterDelete v.b c) s.manager = .ok () { s.manager with fat := f } ∧
      Kept v s.manager.fat f ∧ Chained v.b f (own xs ++ rest) ∧ SameData v s.manager.fat f := by
  have hmarks := badValue_lt_eof v.b
  have halloc : ∀ e ∈ xs ++ c :: ys, Allocated v.b s.manager.fat e :=
    fun e he => h.allocated (by rw [hclusters]; exact he)
  have hchained := h.chained
  unfold own at hchained
  rw [if_neg (by rw [hclusters]; simp), hclusters, singleton_append] at hchained
  rcases eq_nil_or_concat xs with hnil | ⟨front, last, hlast⟩
  · subst hnil
    obtain ⟨f, hrun, hchange, hdata⟩ := removeAllAfter_spec h.ready hmark hchained true
    refine ⟨f, hrun, kept_removed hchange ?_ halloc, chained_delete hchained hchange, hdata⟩
    change freeValue ≠ v.b.badValue
    unfold Bootrecord.badValue
    cases v.b.t <;> decide
  · rw [concat_eq_append] at hlast
    subst hlast
    rw [append_assoc] at hchained
    obtain ⟨f, hrun, hchange, hdata⟩ := removeAllAfter_spec h.ready hmark hchained false
    refine ⟨f, ?_, kept_removed hchange ?_ ?_, ?_, hdata⟩
    · rw [List.getLast?_concat]
      exact hrun
    · change v.b.eofValue ≠ v.b.badValue
      omega
    · intro e he
      apply halloc
      rw [append_assoc]
      exact mem_append_right _ he
    · have hown : own (front ++ [last]) = [front ++ [last]] := if_neg (by simp)
      rw [hown]
      exact chained_truncate hchained hchange

theorem setSize_spec {size : Nat} (h : HeldFile v s rest) (hsize : size ≤ s.node.size) :
    ∃ s', Node.setSize v.b size s = .ok () s' ∧ HeldFile v s' rest ∧
      s'.contents v.b = (s.contents v.b).take size := by
  have hfits := h.fits
  have hroot : s.node.isRoot v.b = false := by
    unfold Node.isRoot
    rw [h.file, Bool.and_false, Bool.false_and]
  obtain ⟨required, hrequired⟩ : ∃ required, (size + v.b.clusterSize - 1) / v.b.clusterSize =
      required := ⟨_, rfl⟩
  have henough : size ≤ v.b.clusterSize * required := by
    have hpos := v.positive
    have hdiv := Nat.lt_mul_div_succ (size + v.b.clusterSize - 1) hpos
    rw [hrequired, mul_add, mul_one] at hdiv
    omega
  unfold Node.setSize
  dsimp only
  rw [h.file, hroot, hrequired, if_neg (by omega), if_neg (fun h => nomatch h.2.1),
    if_neg (fun h => nomatch h.1)]
  cases hget : s.node.clusters[required]? with
  | none =>
    refine ⟨_, rfl, ⟨⟨h.ready, h.chained, le_trans hsize hfits⟩, h.mark, rfl⟩, ?_⟩
    unfold FileState.contents
    rw [take_take, min_eq_left hsize]
    rfl
  | some c =>
    obtain ⟨xs, ys, hclusters, hxs, htake⟩ := split_clusters hget
    obtain ⟨f, hrun, hkept, hchained, hdata⟩ := free_rest h.toHeld h.mark hclusters
    have hvalid : ∀ e ∈ xs, v.b.clusterInValidRange e = true :=
      fun e he => h.valid (hclusters ▸ mem_append_left _ he)
    dsimp only
    have hmanager : (s.withNode ⟨false, s.node.startCluster, xs, size⟩).manager = s.manager := rfl
    rw [htake, onManager_ok (hmanager ▸ hrun)]
    refine ⟨_, rfl, ⟨⟨ready_of_kept h.ready hkept, hchained, ?_⟩, h.mark, rfl⟩, ?_⟩
    · change size ≤ v.b.clusterSize * xs.length
      rw [hxs]
      exact henough
    · change (Msdosfs.stored v.b f.device xs).take size = _
      unfold FileState.contents FileState.stored
      rw [stored_sameData hdata hvalid, take_take, min_eq_left hsize, hclusters, stored_append,
        take_append_of_le_length (by rw [Msdosfs.stored_length, hxs]; exact henough)]
      rfl

end SetSize

section Truncate
variable {size : Nat} (h : HeldFile v s rest)
include h

section
variable (hlimit : size ≤ maxSizeFile)
include hlimit

theorem truncate_spec (hspace : size ≤ reachable v.b s) :
    ∃ s', truncate v.b size (size + 1) s = .ok none s' ∧ HeldFile v s' rest ∧
      s'.contents v.b = resize 0 size (s.contents v.b) := by
  obtain ⟨s₁, hgrow, hheld, hcontents⟩ :=
    @growLoop_spec v s rest size (size + 1) h hlimit hspace (by omega)
  have hlength := h.contents_length
  have hlength' := hheld.contents_length
  rw [hcontents, grow_length, hlength] at hlength'
  unfold truncate
  rw [if_neg (by omega), hgrow]
  dsimp only
  by_cases hcut : size < s₁.node.size
  · obtain ⟨s', hset, hheld', hcontents'⟩ := setSize_spec hheld (le_of_lt hcut)
    refine ⟨s', ?_, hheld', ?_⟩
    · rw [if_pos hcut, hset]
    · rw [hcontents', hcontents]
      rfl
  · refine ⟨s₁, if_neg hcut, hheld, ?_⟩
    rw [hcontents, resize_of_ge (by omega)]

end

end Truncate

inductive FileCall where
  | writeAt (buf : List UInt8) (off : Nat)
  | readAt (len off : Nat)
  | truncate (size : Nat)

namespace FileCall

/-- A call on the file, with the bytes that it returns. Every piece that `Truncate` writes has a
byte at least. -/
def exec : FileCall → EStateM Fault FileState (List UInt8)
  | .writeAt buf off => do
    let _ ← Node.writeAt b buf off
    return []
  | .readAt len off => fun s =>
    match Node.readAt b len off s with
    | .ok (got, _) => .ok got s
    | .error e => .error e s
  | .truncate size => do
    let _ ← Msdosfs.truncate b size (size + 1)
    return []

def onArray : FileCall → List UInt8 → List UInt8 × List UInt8
  | .writeAt buf off, l => ([], put 0 off buf l)
  | .readAt len off, l => (slice len off l, l)
  | .truncate size, l => ([], resize 0 size l)

/-- There is space for the call, and a write does not leave a gap with old bytes in it. -/
def Meets (s : FileState) : FileCall → Prop
  | .writeAt buf off => Fits b s off buf
  | .readAt _ _ => True
  | .truncate size => size ≤ maxSizeFile ∧ size ≤ reachable b s

theorem exec_spec (c : FileCall) (h : HeldFile v s rest) (hmeets : c.Meets v.b s) :
    ∃ s', c.exec v.b s = .ok (c.onArray (s.contents v.b)).1 s' ∧ HeldFile v s' rest ∧
      s'.contents v.b = (c.onArray (s.contents v.b)).2 := by
  cases c with
  | writeAt buf off =>
    obtain ⟨s', hrun, hheld, -, hcontents⟩ := writeAt_put h hmeets
    exact ⟨s', bind_ok hrun _, hheld, hcontents⟩
  | readAt len off =>
    obtain ⟨err, hrun⟩ := readAt_spec h.toHeld len off
    refine ⟨s, ?_, h, rfl⟩
    change (match Node.readAt v.b len off s with
      | .ok (got, _) => EStateM.Result.ok got s
      | .error e => EStateM.Result.error e s) = _
    rw [hrun]
    rfl
  | truncate size =>
    obtain ⟨s', hrun, hheld, hcontents⟩ := truncate_spec h hmeets.1 hmeets.2
    exact ⟨s', bind_ok hrun _, hheld, hcontents⟩

end FileCall

def runFile (b : Bootrecord) : List FileCall → EStateM Fault FileState (List (List UInt8))
  | [] => pure []
  | c :: calls => do
    let got ← c.exec b
    let more ← runFile b calls
    return got :: more

def runArray : List FileCall → List UInt8 → List (List UInt8) × List UInt8
  | [], l => ([], l)
  | c :: calls, l =>
    let (got, l) := c.onArray l
    let (more, l) := runArray calls l
    (got :: more, l)

def RunMeets (b : Bootrecord) : List FileCall → FileState → Prop
  | [], _ => True
  | c :: calls, s => c.Meets b s ∧ ∀ got s', c.exec b s = .ok got s' → RunMeets b calls s'

/-- Reads, writes and truncations of an open file are those of an array of bytes. -/
theorem file_is_array (calls : List FileCall) (h : Held v s rest)
    (hmark : v.b.maxCluster < v.b.eofValue) (hfile : s.node.directory = false)
    (hmeets : RunMeets v.b calls s) :
    ∃ s', runFile v.b calls s = .ok (runArray calls (s.contents v.b)).1 s' ∧
      s'.contents v.b = (runArray calls (s.contents v.b)).2 ∧ Held v s' rest := by
  induction calls generalizing s with
  | nil => exact ⟨s, rfl, rfl, h⟩
  | cons c calls ih =>
    obtain ⟨s₁, hrun, hheld, hcontents⟩ := c.exec_spec ⟨h, hmark, hfile⟩ hmeets.1
    obtain ⟨s', hrun', hcontents', hheld'⟩ := ih hheld.toHeld hheld.file (hmeets.2 _ _ hrun)
    rw [hcontents] at hrun' hcontents'
    exact ⟨s', (bind_ok hrun _).trans (bind_ok hrun' _), hcontents', hheld'⟩

def outputs {α : Type} (r : EStateM.Result Fault FileState α) : Option α :=
  match r with
  | .ok got _ => some got
  | .error _ _ => none

theorem file_is_array_short :
    ∃ s', runFile longFAT.cachedSmall [.writeAt [1, 2] 0, .readAt 3 0] emptyFile =
    .ok [[], [1, 2]] s' := by
  obtain ⟨v, hv, hmark⟩ := longFAT_volume
  have hspace : 2 ≤ reachable v.b emptyFile := by
    rw [hv]
    decide +kernel
  have hfits : Fits v.b emptyFile 0 [1, 2] := ⟨by decide, hspace, .inl (Nat.zero_le _)⟩
  obtain ⟨s', hrun, -⟩ := file_is_array [.writeAt [1, 2] 0, .readAt 3 0] (emptyFile_held v) hmark rfl
    ⟨hfits, fun _ _ _ => ⟨trivial, fun _ _ _ => trivial⟩⟩
  rw [hv] at hrun
  exact ⟨s', hrun⟩

/-- The second byte is cut off, and stands in the gap before the last one again. -/
theorem cut_byte_read :
    outputs (runFile longFAT.cachedSmall
      [.writeAt [1, 2] 0, .truncate 1, .writeAt [3] 3, .readAt 4 0] emptyFile) =
        some [[], [], [], [1, 2, 0, 3]] ∧
      (runArray [.writeAt [1, 2] 0, .truncate 1, .writeAt [3] 3, .readAt 4 0]
        (emptyFile.contents longFAT.cachedSmall)).1 =
        [[], [], [], [1, 0, 0, 3]] := by
  decide +kernel

end Garnet.Msdosfs
