import Garnet.Merkle.BuilderSpec
import Garnet.Merkle.GoTree

/-! The Go tree computes the root that the builder computes: its linked levels hold, as bytes, the
levels of the same growing tree. -/

namespace Garnet.Merkle.GoTree
open List
open LittleEndian LevelTree

structure Node.Holds (t : Node) (level : Nat) (hs : List Hash) : Prop where
  level : t.level = level
  hashes : t.hashes = hs.flatMap Hash.bytes

/-- The linked levels above one hold these levels, with the offset behind their last block. -/
def Linked : Nat → List (List Hash) → List Node → Prop
  | _, [], [] => True
  | level, hs :: above, t :: rest =>
    t.Holds level hs ∧ t.offset = hs.length * blockSize ∧ Linked (level + 1) above rest
  | _, _, _ => False

theorem linked_nil (level : Nat) : Linked level [] [] := trivial

theorem grown_nil (sha : Sha) (level : Nat) : Grown hashesPerBlock (nodeHash sha) level [] [] := by
  show 0 < hashesPerBlock
  decide

section Bytes
variable {hs : List Hash}

theorem drop_hashes (hs : List Hash) (n : Nat) :
    (hs.flatMap Hash.bytes).drop (hashSize * n) = (hs.drop n).flatMap Hash.bytes := by
  induction hs generalizing n with
  | nil => simp
  | cons h hs ih =>
    cases n with
    | zero => simp
    | succ n =>
      have hle : h.bytes.length ≤ hashSize * (n + 1) := by rw [h.length_eq, Nat.mul_succ]; omega
      have hsub : hashSize * (n + 1) - h.bytes.length = hashSize * n := by
        rw [h.length_eq, Nat.mul_succ]; omega
      rw [flatMap_cons, drop_append, drop_of_length_le hle, nil_append, hsub, ih,
        drop_succ_cons]

theorem Node.Holds.length {t : Node} {level : Nat} (ht : t.Holds level hs) :
    t.hashes.length = hashSize * hs.length := by
  rw [ht.hashes, hashes_length]

end Bytes

section Blocks
variable {sha : Sha} {t : Node} {level : Nat} {hs : List Hash} {b : List UInt8}
variable {above : List (List Hash)} {rest : List Node}

def blockSum (sha : Sha) (t : Node) (b : List UInt8) : Hash :=
  sha (toLe 8 (t.offset ||| t.level) ++ toLe 4 b.length ++ b.rightpad blockSize 0)

variable (sha) in
theorem absorb_ok (hb : b.length ≤ blockSize) (ht : t.Holds level hs) :
    ∃ t', absorb sha t b = .ok t' ∧
    t'.Holds level (hs ++ [blockSum sha t b]) ∧ t'.offset = t.offset + b.length := by
  refine ⟨_, if_neg (Nat.not_lt.mpr hb), ⟨ht.level, ?_⟩, rfl⟩
  simp only [blockSum, List.rightpad, ht.hashes, flatMap_append, flatMap_singleton, append_assoc]

theorem full_iff (ht : t.Holds level hs) (hne : hs ≠ []) :
    (t.hashes.length > 0 ∧ t.hashes.length % blockSize = 0) ↔ hs.length % hashesPerBlock = 0 := by
  have hpos := length_pos_iff.mpr hne
  have hB : hashesPerBlock = 256 := rfl
  rw [ht.length, hashSize, blockSize, hB]
  omega

theorem lastBlock_eq (ht : t.Holds level hs) {q : Nat}
    (hlen : hs.length = hashesPerBlock * (q + 1)) :
    lastBlock t.hashes = (hs.drop (hashesPerBlock * q)).flatMap Hash.bytes ∧
      (lastBlock t.hashes).length = blockSize := by
  have hB : hashesPerBlock = 256 := rfl
  have hdrop : t.hashes.length - blockSize = hashSize * (hashesPerBlock * q) := by
    rw [ht.length, hlen, hB, hashSize, blockSize]
    omega
  refine ⟨by rw [lastBlock, hdrop, ht.hashes, drop_hashes], ?_⟩
  rw [lastBlock, length_drop, ht.length, hlen, hB, hashSize, blockSize]
  omega

theorem fresh_holds (ht : t.Holds level hs) : (fresh t).Holds (level + 1) [] :=
  ⟨by rw [fresh, ht.level], rfl⟩

variable (sha) in
theorem blockSum_eq {q : Nat} (ht : t.level = level) (hoff : t.offset = q * blockSize)
    (hb : b.length = blockSize) (hbytes : b = (hs.flatMap Hash.bytes).rightpad blockSize 0) :
    blockSum sha t b = nodeHash sha level q hs := by
  rw [blockSum, ht, hoff, hb, nodeHash, ← hbytes, List.rightpad, hb, Nat.sub_self, replicate_zero,
    append_nil]

theorem rightpad_full {l : List UInt8} (hl : l.length = blockSize) :
    l.rightpad blockSize 0 = l := by
  rw [List.rightpad, hl, Nat.sub_self, replicate_zero, append_nil]

variable (sha) in
theorem addBlock_ok (hb : b.length ≤ blockSize) (ht : t.Holds level hs)
    (hg : Grown hashesPerBlock (nodeHash sha) level hs above) (hl : Linked (level + 1) above rest) :
    ∃ t' rest',
    addBlock sha t b rest = .ok (t' :: rest') ∧ t'.Holds level (hs ++ [blockSum sha t b]) ∧
      t'.offset = t.offset + b.length ∧
      Linked (level + 1) (if (hs ++ [blockSum sha t b]).length % hashesPerBlock = 0 then
        commit hashesPerBlock (nodeHash sha) level (hs ++ [blockSum sha t b]) above
          else above) rest' := by
  have hB : hashesPerBlock = 256 := rfl
  induction above generalizing t level hs b rest with
  | nil =>
    obtain rfl : rest = [] := by
      cases rest with
      | nil => rfl
      | cons => exact False.elim hl
    obtain ⟨t1, hrun1, ht1, hoff1⟩ := absorb_ok sha hb ht
    have hfull := full_iff ht1 (by simp)
    simp only [addBlock, hrun1, ok_bind]
    split
    next hc =>
      have hmod := hfull.mp hc
      rw [if_pos hmod]
      have hlen : (hs ++ [blockSum sha t b]).length = hashesPerBlock * (0 + 1) := by
        have hlt : hs.length < hashesPerBlock := hg
        rw [length_append, length_singleton] at hmod ⊢
        rw [hB] at hmod hlt ⊢
        omega
      obtain ⟨hlast, hlast8⟩ := lastBlock_eq ht1 hlen
      obtain ⟨t2, hrun2, ht2, hoff2⟩ := absorb_ok sha (le_of_eq hlast8) (fresh_holds ht1)
      have hsum : blockSum sha (fresh t1) (lastBlock t1.hashes) =
          nodeHash sha (level + 1) 0 (hs ++ [blockSum sha t b]) := by
        refine blockSum_eq sha (by rw [fresh, ht1.level]) (by rw [fresh, zero_mul]) hlast8 ?_
        rw [mul_zero, drop_zero] at hlast
        rw [← hlast, rightpad_full hlast8]
      rw [nil_append, hsum] at ht2
      rw [hrun2]
      refine ⟨t1, [t2], rfl, ht1, hoff1, ht2, ?_, trivial⟩
      rw [hoff2, hlast8, fresh, zero_add]
      exact (one_mul _).symm
    next hc =>
      rw [if_neg fun h => hc (hfull.mpr h)]
      exact ⟨t1, [], rfl, ht1, hoff1, trivial⟩
  | cons next above ih =>
    obtain ⟨u, rest, rfl⟩ : ∃ u rest', rest = u :: rest' := by
      cases rest with
      | nil => exact False.elim hl
      | cons u rest => exact ⟨u, rest, rfl⟩
    obtain ⟨hu, huoff, hrest⟩ := hl
    obtain ⟨hlow, hnext, hgrest⟩ := hg
    obtain ⟨t1, hrun1, ht1, hoff1⟩ := absorb_ok sha hb ht
    have hfull := full_iff ht1 (by simp)
    simp only [addBlock, hrun1, ok_bind]
    split
    next hc =>
      have hmod := hfull.mp hc
      rw [if_pos hmod]
      have hnlen : next.length = hs.length / hashesPerBlock := by rw [hnext, parents_length]
      have hlen : (hs ++ [blockSum sha t b]).length = hashesPerBlock * (next.length + 1) := by
        rw [length_append, length_singleton] at hmod ⊢
        rw [hnlen, hB] at *
        omega
      obtain ⟨hlast, hlast8⟩ := lastBlock_eq ht1 hlen
      have hsum : blockSum sha u (lastBlock t1.hashes) = nodeHash sha (level + 1) next.length
          ((hs ++ [blockSum sha t b]).drop (hashesPerBlock * next.length)) := by
        refine blockSum_eq sha hu.level huoff hlast8 ?_
        rw [← hlast, rightpad_full hlast8]
      obtain ⟨u', rest', hrun, hu', huoff', hl'⟩ := ih (le_of_eq hlast8) hu hgrest hrest
      rw [hrun]
      refine ⟨t1, u' :: rest', rfl, ht1, hoff1, ?_⟩
      simp only [LevelTree.commit, ← hsum]
      refine ⟨hu', ?_, hl'⟩
      rw [huoff', huoff, hlast8, length_append, length_singleton, Nat.succ_mul]
    next hc =>
      rw [if_neg fun h => hc (hfull.mpr h)]
      exact ⟨t1, u :: rest, rfl, ht1, hoff1, hu, huoff, hrest⟩

end Blocks

section Finish
variable {sha : Sha} {t : Node} {level : Nat} {hs : List Hash} {above : List (List Hash)}
  {rest : List Node}

theorem addNext_ok {block : List UInt8} (hb : block.length = blockSize) (ht : t.Holds level hs)
    (hg : Grown hashesPerBlock (nodeHash sha) level hs above) (hl : Linked (level + 1) above rest)
    (hbytes : block =
      ((hs.drop (hashesPerBlock * (hs.length / hashesPerBlock))).flatMap Hash.bytes).rightpad
        blockSize 0) :
    ∃ rest', addNext sha t block rest = .ok rest' ∧
      Linked (level + 1) (commit hashesPerBlock (nodeHash sha) level hs above) rest' := by
  cases above with
  | nil =>
    obtain rfl : rest = [] := by
      cases rest with
      | nil => rfl
      | cons => exact False.elim hl
    have hlt : hs.length < hashesPerBlock := hg
    rw [Nat.div_eq_of_lt hlt, mul_zero, drop_zero] at hbytes
    have hsum : blockSum sha (fresh t) block = nodeHash sha (level + 1) 0 hs :=
      blockSum_eq sha (by rw [fresh, ht.level]) (by rw [fresh, zero_mul]) hb hbytes
    obtain ⟨t', rest', hrun, ht', hoff, hl'⟩ := addBlock_ok sha (le_of_eq hb) (fresh_holds ht)
      (grown_nil sha (level + 1)) (linked_nil _)
    rw [nil_append, hsum] at ht' hl'
    rw [if_neg (by show ¬ 1 % hashesPerBlock = 0; decide)] at hl'
    refine ⟨_, hrun, ht', ?_, hl'⟩
    rw [hoff, hb, fresh, zero_add]
    exact (one_mul _).symm
  | cons next above =>
    obtain ⟨u, rest, rfl⟩ : ∃ u rest', rest = u :: rest' := by
      cases rest with
      | nil => exact False.elim hl
      | cons u rest => exact ⟨u, rest, rfl⟩
    obtain ⟨hu, huoff, hrest⟩ := hl
    obtain ⟨-, hnext, hgrest⟩ := hg
    have hnlen : next.length = hs.length / hashesPerBlock := by rw [hnext, parents_length]
    rw [← hnlen] at hbytes
    have hsum := blockSum_eq sha hu.level huoff hb hbytes
    obtain ⟨u', rest', hrun, hu', huoff', hl'⟩ := addBlock_ok sha (le_of_eq hb) hu hgrest hrest
    rw [hsum] at hu' hl'
    refine ⟨_, hrun, hu', ?_, hl'⟩
    rw [huoff', huoff, hb, length_append, length_singleton, Nat.succ_mul]

theorem padRemainder_ok (ht : t.Holds level hs)
    (hg : Grown hashesPerBlock (nodeHash sha) level hs above) (hl : Linked (level + 1) above rest) :
    ∃ rest', padRemainder sha t rest = .ok rest' ∧
      Linked (level + 1) (if hs.length % hashesPerBlock = 0 then above else
        commit hashesPerBlock (nodeHash sha) level hs above) rest' := by
  have hB : hashesPerBlock = 256 := rfl
  have hlen := ht.length
  have hrem : t.hashes.length % blockSize = hashSize * (hs.length % hashesPerBlock) := by
    rw [hlen, hB, hashSize, blockSize]
    omega
  unfold padRemainder
  by_cases hpart : hs.length % hashesPerBlock = 0
  · rw [if_neg (by simp [hrem, hpart]), if_pos hpart]
    exact ⟨rest, rfl, hl⟩
  have hdrop : t.hashes.length - t.hashes.length % blockSize =
      hashSize * (hashesPerBlock * (hs.length / hashesPerBlock)) := by
    rw [hlen, hB, hashSize, blockSize]
    omega
  have hlen' : ((hs.drop (hashesPerBlock * (hs.length / hashesPerBlock))).flatMap Hash.bytes).length =
      t.hashes.length % blockSize := by
    rw [hashes_length, length_drop, hrem]
    congr 1
    rw [hB]
    omega
  have hlt : t.hashes.length % blockSize < blockSize := Nat.mod_lt _ (by decide)
  rw [if_pos, if_neg hpart, hdrop]
  · refine addNext_ok ?_ ht hg hl ?_
    · rw [ht.hashes, drop_hashes, length_append, hlen', length_replicate, ← ht.hashes]
      omega
    · rw [ht.hashes, drop_hashes, List.rightpad, hlen', ← ht.hashes]
  · rw [hrem, hashSize]
    omega

theorem finish_ok (fuel : Nat) (ht : t.Holds level hs)
    (hg : Grown hashesPerBlock (nodeHash sha) level hs above) (hl : Linked (level + 1) above rest)
    (hne : hs ≠ []) (hfuel : hs.length ≤ fuel) : ∃ top root above',
    finish sha fuel t rest = .ok top ∧ top.hashes = root.bytes ∧
      Tree hashesPerBlock (nodeHash sha) level hs above' ∧
        (hs :: above').getLast? = some [root] := by
  have hB : 1 < hashesPerBlock := by decide
  have hpos := length_pos_iff.mpr hne
  induction fuel generalizing t level hs above rest with
  | zero => omega
  | succ fuel ih =>
    have hlen := ht.length
    rw [finish]
    by_cases hone : hs.length = 1
    · obtain ⟨h, rfl⟩ := length_eq_one_iff.mp hone
      rw [if_pos (.inr (by rw [hlen, hone, mul_one]))]
      exact ⟨t, h, [], rfl, by rw [ht.hashes, flatMap_singleton], .root, rfl⟩
    obtain ⟨rest', hrun, hl'⟩ := padRemainder_ok ht hg hl
    have hup := hg.finish hB
    rw [if_neg (by rw [hlen, hashSize]; omega), hrun, ok_bind]
    revert hup hl'
    generalize (if hs.length % hashesPerBlock = 0 then above else
      commit hashesPerBlock (nodeHash sha) level hs above) = above'
    intro hl' hup
    have hcount := chunkCount_pos (B := hashesPerBlock) (by omega) hpos
    have hless := chunkCount_lt hB hs.length (by omega)
    cases above' with
    | nil => exact absurd hup (by unfold HandedUp; omega)
    | cons next above' =>
      obtain ⟨-, rfl, hg'⟩ := hup
      cases rest' with
      | nil => exact False.elim hl'
      | cons u rest' =>
        obtain ⟨hu, -, hl'⟩ := hl'
        obtain ⟨top, root, above2, hfin, htop, htree, hlast⟩ := ih hu hg' hl'
          (ne_nil_of_length_pos (by rwa [parents_length])) (by rw [parents_length]; omega)
          (by rwa [parents_length])
        exact ⟨top, root, _, hfin, htop, .above (by omega) htree, by rwa [List.getLast?_cons_cons]⟩

end Finish

section Reads
variable {sha : Sha} {t : Node} {d0 : List UInt8} {above : List (List Hash)} {rest : List Node}

structure Filled (sha : Sha) (d0 : List UInt8) (t : Node) (above : List (List Hash))
    (rest : List Node) : Prop where
  aligned : blockSize ∣ d0.length
  holds : t.Holds 0 (fullLeaves sha d0)
  offset : t.offset = d0.length
  grown : Grown hashesPerBlock (nodeHash sha) 0 (fullLeaves sha d0) above
  linked : Linked 1 above rest

variable (sha) in
theorem filled_empty : Filled sha [] ⟨0, [], 0⟩ [] [] :=
  ⟨by simp, ⟨rfl, rfl⟩, rfl, grown_nil sha 0, linked_nil 1⟩

theorem Filled.blockSum (hF : Filled sha d0 t above rest) (b : List UInt8) :
    blockSum sha t b = leafHash sha (d0.length / blockSize) b := by
  rw [GoTree.blockSum, hF.holds.level, hF.offset, leafHash, Nat.or_zero,
    Nat.div_mul_cancel hF.aligned]

/-- The levels when all data has been read; without data they are still empty. -/
def ReadAll (sha : Sha) (d : List UInt8) (levels : List Node) : Prop :=
  ∃ t rest above, levels = t :: rest ∧ t.Holds 0 (if d = [] then [] else leaves sha d) ∧
    Grown hashesPerBlock (nodeHash sha) 0 (if d = [] then [] else leaves sha d) above ∧
      Linked 1 above rest

theorem readFrom_ok {fuel : Nat} (total : Nat) {r : Reader UInt8} (hF : Filled sha d0 t above rest)
    (hf : r.failure = none) (hfuel : r.data.length < fuel) : ∃ levels,
    readFrom sha fuel (t :: rest) total r = .ok ⟨levels, total + r.data.length, none⟩ ∧
      ReadAll sha (d0 ++ r.data) levels := by
  induction fuel generalizing t d0 above rest total r with
  | zero => omega
  | succ fuel ih =>
    obtain ⟨pieces, ended, htake, hpieces, hended⟩ := Reader.takeFull_data blockSize r.pieces
    change _ = r.data.drop blockSize at hpieces
    change _ ↔ r.data.length < blockSize at hended
    have hbuf : (r.data.take blockSize).length ≤ blockSize := length_take_le ..
    obtain ⟨t1, rest1, hrun1, ht1, hoff1, hl1⟩ := addBlock_ok sha hbuf hF.holds hF.grown hF.linked
    have hg1 := hF.grown.push (by decide) (GoTree.blockSum sha t (r.data.take blockSize))
    rw [hF.blockSum] at ht1 hl1 hg1
    change _ = (r.data.take blockSize, pieces, ended) at htake
    simp only [readFrom, htake, takeBlock]
    by_cases hshort : r.data.length < blockSize
    · have hall : r.data.take blockSize = r.data := take_of_length_le (le_of_lt hshort)
      rw [hall] at hrun1 ht1 hl1 hg1 ⊢
      rw [hended.mpr hshort, hf]
      by_cases hdata : r.data = []
      · refine ⟨t :: rest, by simp [hdata], t, rest, above, rfl, ?_⟩
        have hleaves : (if d0 ++ r.data = [] then [] else leaves sha (d0 ++ r.data)) =
            fullLeaves sha d0 := by
          rw [hdata, append_nil]
          split
          next hd => rw [hd]; rfl
          next hd => exact leaves_of_aligned sha hF.aligned hd
        rw [hleaves]
        exact ⟨hF.holds, hF.grown, hF.linked⟩
      · have hleaves := leaves_append sha hF.aligned hshort hdata
        rw [← hleaves] at ht1 hl1 hg1
        have hne : d0 ++ r.data ≠ [] := fun h => hdata (append_eq_nil_iff.mp h).2
        refine ⟨t1 :: rest1, ?_, t1, rest1, _, rfl,
          by rwa [if_neg hne], by rw [if_neg hne]; exact hg1, hl1⟩
        rw [if_pos (length_pos_iff.mpr hdata), hrun1, ok_bind, if_pos rfl]
        rfl
    · have hlen : (r.data.take blockSize).length = blockSize := length_take_of_le (by omega)
      rw [← fullLeaves_append hF.aligned hlen] at ht1 hl1 hg1
      have hF1 : Filled sha (d0 ++ r.data.take blockSize) t1 _ rest1 :=
        ⟨by rw [length_append, hlen]; exact Nat.dvd_add hF.aligned (Nat.dvd_refl _), ht1,
          by rw [hoff1, hF.offset, length_append], hg1, hl1⟩
      have hrest : ({ r with pieces := pieces } : Reader UInt8).data = r.data.drop blockSize :=
        hpieces
      obtain ⟨levels, hrun, hall⟩ :=
        ih (total + blockSize) (r := { r with pieces := pieces }) hF1 hf (by
        rw [hrest, length_drop]
        have : 0 < blockSize := by decide
        omega)
      rw [hrest, append_assoc, take_append_drop] at hall
      refine ⟨levels, ?_, hall⟩
      have hend : ended = false := Bool.eq_false_iff.mpr fun h => hshort (hended.mp h)
      have htotal : total + blockSize + (r.data.length - blockSize) = total + r.data.length := by omega
      rw [hrest, length_drop, htotal] at hrun
      rw [if_pos (by rw [hlen]; decide), hrun1, ok_bind, hend, hlen, if_neg (by decide), hrun]

theorem root_ok {d : List UInt8} {levels : List Node} (h : ReadAll sha d levels) : ∃ root above,
    GoTree.root sha levels = .ok root.bytes ∧
      Tree hashesPerBlock (nodeHash sha) 0 (leaves sha d) above ∧
      (leaves sha d :: above).getLast? = some [root] := by
  obtain ⟨t, rest, above, rfl, ht, hg, hl⟩ := h
  by_cases hd : d = []
  · rw [if_pos hd] at ht
    subst hd
    refine ⟨sha (toLe 8 0 ++ toLe 4 0), [], ?_, .root, rfl⟩
    have hlen : t.hashes.length = 0 := ht.length
    simp only [GoTree.root, finish, hlen, true_or, if_true, except_pure, ok_bind]
    rfl
  · rw [if_neg hd] at ht hg
    have hlen := ht.length
    obtain ⟨top, root, above', hfin, htop, htree, hlast⟩ :=
      finish_ok (t.hashes.length + 1) ht hg hl leaves_ne_nil
      (by rw [hlen, hashSize]; omega)
    refine ⟨root, above', ?_, htree, hlast⟩
    have hsome : ¬ root.bytes.length = 0 := by
      rw [root.length_eq]
      decide
    simp only [GoTree.root, hfin, ok_bind, htop, hsome, if_false, except_pure]

/-- The Go tree after one `ReadFrom` has the root of the builder's tree over the same data. -/
theorem go_root_eq (sha : Sha) (bufs : List (List UInt8)) (r : Reader UInt8) (hf : r.failure = none)
    (hd : r.data = bufs.flatten) (fuel : Nat) (hfuel : r.data.length < fuel) : ∃ t root levels,
    (do (← bufs.foldlM (MerkleTreeBuilder.write sha) .new).finish sha) = .ok t ∧ t.root = .ok root ∧
    readFrom sha fuel GoTree.empty 0 r = .ok ⟨levels, r.data.length, none⟩ ∧
    GoTree.root sha levels = .ok root.bytes := by
  obtain ⟨b, d0, above0, hrun, hw⟩ := writes_ok bufs (written_new sha)
  rw [nil_append] at hw
  obtain ⟨above, hfinish, htree⟩ := Merkle.finish_ok hw
  obtain ⟨levels, hread, hall⟩ := readFrom_ok 0 (filled_empty sha) hf hfuel
  rw [nil_append, hd] at hall
  obtain ⟨root, above', hroot, htree', hlast⟩ := root_ok hall
  refine ⟨_, root, levels, by rw [hrun, ok_bind, hfinish], ?_, ?_, hroot⟩
  · rw [MerkleTree.root, htree.unique htree', hlast]
  · rw [zero_add] at hread
    exact hread

theorem go_root_eq_two_blocks : ∃ t root levels,
    (do (← twoBlocks.foldlM (MerkleTreeBuilder.write lengthSha) .new).finish lengthSha) = .ok t ∧
      t.root = .ok root ∧
    readFrom lengthSha 8195 GoTree.empty 0 ⟨twoBlocks, none⟩ =
      .ok ⟨levels, (⟨twoBlocks, none⟩ : Reader UInt8).data.length, none⟩ ∧
    GoTree.root lengthSha levels = .ok root.bytes := by
  apply go_root_eq lengthSha twoBlocks ⟨twoBlocks, none⟩ rfl rfl 8195
  simp only [Reader.data, twoBlocks, flatten_cons, length_append, length_replicate]
  decide

end Reads

end Garnet.Merkle.GoTree
