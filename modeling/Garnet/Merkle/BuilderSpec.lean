import Garnet.Lib.LevelTree
import Garnet.Merkle.Builder

/-! The builder against the definition of the tree: the levels it returns are the hashes of the
blocks of data, the hashes of the blocks of these, and so on up to a single hash. -/

namespace Garnet.Merkle
open List
open LittleEndian LevelTree
open MerkleTreeBuilder (fillBlock finish finishBlock finishLevel finishLevels new pushDataHash write
  writeBlock)

/-- The hash of a block of data: offset, real length, and the block filled with zeros. -/
def leafHash (sha : Sha) (i : Nat) (block : List UInt8) : Hash :=
  sha (toLe 8 (i * blockSize) ++ toLe 4 block.length ++ block.rightpad blockSize 0)

/-- The hash of a block of hashes: offset or-ed with the level, the size of a block, and the hashes
filled with zeros. -/
def nodeHash (sha : Sha) (level i : Nat) (hashes : List Hash) : Hash :=
  sha (toLe 8 (i * blockSize ||| level) ++ toLe 4 blockSize ++
    (hashes.flatMap Hash.bytes).rightpad blockSize 0)

/-- Level 0. Without data there is a single empty block, which is not filled. -/
def leaves (sha : Sha) (d : List UInt8) : List Hash :=
  if d = [] then [sha (toLe 8 0 ++ toLe 4 0)]
  else (List.range (chunkCount blockSize d.length)).map fun i => leafHash sha i (chunk blockSize d i)

/-- The levels of the Merkle tree of `d`. -/
structure IsTreeOf (sha : Sha) (d : List UInt8) (levels : List (List Hash)) : Prop where
  bottom : levels[0]? = some (leaves sha d)
  above : ∀ {k xs ys}, levels[k]? = some xs → levels[k + 1]? = some ys →
    ys = (List.range (chunkCount hashesPerBlock xs.length)).map fun i =>
      nodeHash sha (k + 1) i (chunk hashesPerBlock xs i)
  below : ∀ {k xs}, levels[k]? = some xs → k + 1 < levels.length → 1 < xs.length
  last : ∃ root, levels.getLast? = some [root]

section Hashes
variable {sha : Sha} {hs : List Hash} {block : List UInt8} {level i : Nat}

theorem hashes_length (hs : List Hash) : (hs.flatMap Hash.bytes).length = hashSize * hs.length := by
  induction hs with
  | nil => rfl
  | cons h hs ih => rw [flatMap_cons, length_append, ih, h.length_eq, length_cons, Nat.mul_succ,
      add_comm]

theorem hashBlock_ok (hblock : block.length ≤ blockSize) (hne : block ≠ []) :
    hashBlock sha block (i * blockSize) = .ok (leafHash sha i block) := by
  have hlen : block.length ≠ 0 := fun h => hne (length_eq_zero_iff.mp h)
  rw [hashBlock, if_pos ⟨hblock, Nat.mul_mod_left ..⟩]
  simp only [leafHash, makeIdentity, List.rightpad, Nat.or_zero, append_assoc, hlen, false_and,
    not_false_eq_true, and_true]
  split
  next => rfl
  next hfull => rw [not_not.mp hfull, Nat.sub_self, replicate_zero]

theorem hashBlock_empty : hashBlock sha [] 0 = .ok (sha (toLe 8 0 ++ toLe 4 0)) := by
  simp [hashBlock, makeIdentity]

theorem hashHashes_ok (hne : hs ≠ []) (hlen : hs.length ≤ hashesPerBlock) :
    hashHashes sha hs (level + 1) (i * blockSize) = .ok (nodeHash sha (level + 1) i hs) := by
  have hlen0 : hs.length ≠ 0 := fun h => hne (length_eq_zero_iff.mp h)
  rw [hashHashes, if_pos ⟨hlen0, hlen, Nat.succ_pos _, Nat.mul_mod_left ..⟩]
  have hzeros : hashSize * (hashesPerBlock - hs.length) = blockSize - hashSize * hs.length := by
    rw [Nat.mul_sub]
    rfl
  simp only [nodeHash, makeIdentity, List.rightpad, hashes_length, append_assoc,
    flatten_replicate_replicate, mul_comm _ hashSize, hzeros]

end Hashes

section Levels
variable {sha : Sha} {level n : Nat} {hs : List Hash} {above : List (List Hash)}

section
variable (hlow : hashesPerBlock * n < hs.length) (hhigh : hs.length ≤ hashesPerBlock * (n + 1))
include hlow hhigh

theorem firstHash_eq : commitTailBlock.firstHash hs.length = hashesPerBlock * n := by
  have hB : hashesPerBlock = 256 := rfl
  rw [hB] at hlow hhigh
  unfold commitTailBlock.firstHash
  rw [hB]
  split <;> omega

theorem hashTail_ok (level i : Nat) :
    hashHashes sha (hs.drop (commitTailBlock.firstHash hs.length)) (level + 1) (i * blockSize) =
      .ok (nodeHash sha (level + 1) i (hs.drop (hashesPerBlock * n))) := by
  rw [Nat.mul_succ] at hhigh
  rw [firstHash_eq hlow (by rwa [Nat.mul_succ])]
  refine hashHashes_ok (ne_nil_of_length_pos ?_) ?_ <;> rw [length_drop] <;> omega

end

theorem commitTailBlock_ok (hup : HandedUp hashesPerBlock (nodeHash sha) level hs n above)
    (hlow : hashesPerBlock * n < hs.length) (hhigh : hs.length ≤ hashesPerBlock * (n + 1)) :
    commitTailBlock sha level hs above =
    .ok (commit hashesPerBlock (nodeHash sha) level hs above) := by
  induction above generalizing level n hs with
  | nil =>
    obtain rfl : n = 0 := hup
    rw [commitTailBlock, hashTail_ok hlow hhigh, ok_bind, mul_zero, drop_zero]
    rfl
  | cons next rest ih =>
    obtain ⟨hn, rfl, hrest⟩ := hup
    have hup' :=
      hrest.handedUp_append (by decide) [nodeHash sha (level + 1) n (hs.drop (hashesPerBlock * n))]
    simp only [commitTailBlock, parents_length, hashTail_ok hlow hhigh, ok_bind,
      LevelTree.commit, length_append, length_singleton] at hup' ⊢
    split
    next hfull =>
      have hB : hashesPerBlock = 256 := rfl
      rw [ih hup']
      · rfl
      all_goals
        rw [length_append, parents_length, length_singleton]
        rw [hB] at hfull ⊢
        omega
    next => rfl

theorem finishLevels_ok {fuel : Nat} (hg : Grown hashesPerBlock (nodeHash sha) level hs above)
    (hne : hs ≠ []) (hfuel : hs.length ≤ fuel) :
    ∃ above', finishLevels sha fuel level hs above = .ok (hs :: above') ∧
      Tree hashesPerBlock (nodeHash sha) level hs above' := by
  have hB : 1 < hashesPerBlock := by decide
  have hpos := length_pos_iff.mpr hne
  induction fuel generalizing level hs above with
  | zero => omega
  | succ fuel ih =>
    by_cases hone : hs.length = 1
    · obtain ⟨h, rfl⟩ := length_eq_one_iff.mp hone
      have habove : above = [] := by
        cases above with
        | nil => rfl
        | cons next rest =>
          have hle : hashesPerBlock ≤ 1 := hg.1
          exact absurd hle (by decide)
      refine ⟨[], ?_, .root⟩
      rw [habove, finishLevels, finishLevel, if_neg (by simp)]
      rfl
    have hup := hg.finish hB
    have hrun : finishLevel sha level hs above =
        .ok (if hs.length % hashesPerBlock = 0 then above else
          commit hashesPerBlock (nodeHash sha) level hs above) := by
      unfold finishLevel
      by_cases hpart : hs.length % hashesPerBlock = 0
      · simp [hpart]
      · rw [if_pos ⟨by omega, hpart⟩, if_neg hpart]
        refine commitTailBlock_ok ((grown_iff (by omega)).mp hg) ?_
          (le_of_lt (Nat.lt_mul_div_succ _ (by omega)))
        have hdiv := Nat.div_add_mod hs.length hashesPerBlock
        omega
    rw [finishLevels, hrun, ok_bind]
    revert hup
    generalize (if hs.length % hashesPerBlock = 0 then above else
      commit hashesPerBlock (nodeHash sha) level hs above) = above'
    intro hup
    have hcount := chunkCount_pos (B := hashesPerBlock) (by omega) hpos
    have hless := chunkCount_lt hB hs.length (by omega)
    cases above' with
    | nil => exact absurd hup (by unfold HandedUp; omega)
    | cons next rest =>
      obtain ⟨-, rfl, hrest⟩ := hup
      obtain ⟨rest', hrun', htree⟩ := ih hrest
        (ne_nil_of_length_pos (by rwa [parents_length])) (by rw [parents_length]; omega)
        (by rwa [parents_length])
      refine ⟨_, ?_, .above (by omega) htree⟩
      simp only [hrun', ok_bind, except_pure]

end Levels

section Writes
variable {sha : Sha} {d c : List UInt8} {b : MerkleTreeBuilder}

def fullLeaves (sha : Sha) (d : List UInt8) : List Hash :=
  (List.range (d.length / blockSize)).map fun i => leafHash sha i (chunk blockSize d i)

/-- The builder after `d` has been written: the blocks `d0` are hashed, the rest is kept. -/
structure Written (sha : Sha) (d d0 : List UInt8) (b : MerkleTreeBuilder)
    (above : List (List Hash)) : Prop where
  data : d = d0 ++ b.block
  aligned : blockSize ∣ d0.length
  partly : b.block.length < blockSize
  levels : b.levels = fullLeaves sha d0 :: above
  grown : Grown hashesPerBlock (nodeHash sha) 0 (fullLeaves sha d0) above

theorem fullLeaves_length (d : List UInt8) : (fullLeaves sha d).length = d.length / blockSize := by
  simp [fullLeaves]

theorem leafHash_last (hd : blockSize ∣ d.length) (hc : c.length ≤ blockSize) :
    chunk blockSize (d ++ c) (d.length / blockSize) = c := by
  have hmul := Nat.mul_div_cancel' hd
  rw [chunk_last, hmul, drop_left]
  rw [Nat.mul_succ, hmul, length_append]
  omega

theorem fullLeaves_append (hd : blockSize ∣ d.length) (hc : c.length = blockSize) :
    fullLeaves sha (d ++ c) = fullLeaves sha d ++ [leafHash sha (d.length / blockSize) c] := by
  have hcount : (d ++ c).length / blockSize = d.length / blockSize + 1 := by
    rw [length_append, hc, Nat.add_div_right _ (by decide)]
  rw [fullLeaves, hcount, range_succ, map_append, map_singleton, leafHash_last hd (by omega)]
  congr 1
  refine map_congr_left fun i hi => ?_
  have hin : blockSize * (i + 1) ≤ d.length :=
    le_trans (Nat.mul_le_mul_left _ (mem_range.mp hi)) (Nat.mul_div_le ..)
  rw [chunk_append hin]

variable (sha) in
theorem written_new : Written sha [] [] .new [] := by
  refine ⟨rfl, by simp, by rw [new]; decide, rfl, ?_⟩
  show 0 < hashesPerBlock
  decide

variable {above : List (List Hash)}

theorem pushDataHash_ok {hs : List Hash} (hlevels : b.levels = hs :: above)
    (hg : Grown hashesPerBlock (nodeHash sha) 0 hs above) (h : Hash) : ∃ above',
    b.pushDataHash sha h = .ok ⟨[], (hs ++ [h]) :: above'⟩ ∧
      Grown hashesPerBlock (nodeHash sha) 0 (hs ++ [h]) above' := by
  refine ⟨_, ?_, hg.push (by decide) h⟩
  rw [pushDataHash, hlevels]
  simp only
  split
  next hfull =>
    have hB : hashesPerBlock = 256 := rfl
    rw [commitTailBlock_ok (hg.handedUp_append (by decide) [h])]
    · rfl
    all_goals
      rw [length_append, length_singleton] at hfull ⊢
      rw [hB] at hfull ⊢
      omega
  next => rfl

section
variable {d0 : List UInt8} {above : List (List Hash)}

theorem pushBlock_ok (hd : blockSize ∣ d0.length) (hlevels : b.levels = fullLeaves sha d0 :: above)
    (hg : Grown hashesPerBlock (nodeHash sha) 0 (fullLeaves sha d0) above)
    (hc : c.length = blockSize) :
    ∃ b' above', (do b.pushDataHash sha (← b.hashBlock sha c)) = .ok b' ∧ b'.block = [] ∧
      Written sha (d0 ++ c) (d0 ++ c) b' above' := by
  have hne : c ≠ [] := ne_nil_of_length_pos (by rw [hc]; decide)
  have hhash : b.hashBlock sha c = .ok (leafHash sha (d0.length / blockSize) c) := by
    rw [MerkleTreeBuilder.hashBlock, hlevels]
    simp only [fullLeaves_length]
    exact hashBlock_ok (by omega) hne
  obtain ⟨above', hpush, hg'⟩ := pushDataHash_ok hlevels hg (leafHash sha (d0.length / blockSize) c)
  rw [← fullLeaves_append hd hc] at hpush hg'
  refine ⟨_, above',
    by rw [hhash, ok_bind, hpush], rfl, by simp, ?_, by simp [blockSize], rfl, hg'⟩
  rw [length_append, hc]
  exact Nat.dvd_add hd (Nat.dvd_refl _)

theorem writeBlocks_ok (buf : List UInt8) (hw : Written sha d d0 b above) (hempty : b.block = []) :
    ∃ b' d1 above',
    (chunks blockSize buf).foldlM (writeBlock sha) b = .ok b' ∧
      Written sha (d ++ buf) d1 b' above' := by
  have hpos : 0 < blockSize := by decide
  induction hn : buf.length using Nat.strong_induction_on generalizing buf d d0 b above with
  | _ n ih =>
    obtain rfl : d = d0 := by rw [hw.data, hempty, append_nil]
    by_cases hbuf : buf = []
    · subst hbuf
      rw [chunks_nil hpos, append_nil]
      exact ⟨b, d, above, rfl, hw⟩
    have hlen := length_pos_iff.mpr hbuf
    rw [chunks_of_ne_nil hpos hbuf, foldlM_cons]
    by_cases hfull : blockSize ≤ buf.length
    · have htake : (buf.take blockSize).length = blockSize := length_take_of_le hfull
      obtain ⟨b1, above1, hpush, hempty1, hw1⟩ := pushBlock_ok hw.aligned hw.levels hw.grown htake
      obtain ⟨b2, d2, above2, hrun, hw2⟩ :=
        ih _ (by rw [length_drop]; omega) (buf.drop blockSize) hw1 hempty1 rfl
      rw [append_assoc, take_append_drop] at hw2
      refine ⟨b2, d2, above2, ?_, hw2⟩
      rw [writeBlock, if_pos htake, hpush, ok_bind, hrun]
    · have htake : buf.take blockSize = buf := take_of_length_le (by omega)
      rw [htake, drop_of_length_le (by omega), chunks_nil hpos]
      refine ⟨{ b with block := b.block ++ buf }, d, above, ?_, ?_, hw.aligned, ?_, hw.levels,
        hw.grown⟩
      · rw [writeBlock, if_neg (by omega)]
        rfl
      · rw [hempty, nil_append]
      · simp only [hempty, nil_append]
        omega

theorem write_ok (buf : List UInt8) (hw : Written sha d d0 b above) :
    ∃ b' d1 above', b.write sha buf = .ok b' ∧ Written sha (d ++ buf) d1 b' above' := by
  unfold write
  by_cases hempty : b.block = []
  · rw [fillBlock, if_pos (isEmpty_iff.mpr hempty)]
    exact writeBlocks_ok buf hw hempty
  have hpart := hw.partly
  rw [fillBlock, if_neg fun h => hempty (isEmpty_iff.mp h)]
  simp only
  by_cases hfill : blockSize ≤ b.block.length + buf.length
  · have hmin : min buf.length (blockSize - b.block.length) = blockSize - b.block.length := by omega
    have hlen : (b.block ++ buf.take (blockSize - b.block.length)).length = blockSize := by
      rw [length_append, length_take_of_le (by omega)]
      omega
    obtain ⟨b1, above1, hpush, hempty1, hw1⟩ := pushBlock_ok
      (b := { b with block := b.block ++ buf.take (blockSize - b.block.length) }) hw.aligned
        hw.levels hw.grown hlen
    obtain ⟨b2, d2, above2, hrun, hw2⟩ :=
      writeBlocks_ok (buf.drop (blockSize - b.block.length)) hw1 hempty1
    refine ⟨b2, d2, above2, ?_, ?_⟩
    · rw [hmin, if_pos hlen]
      simp only [← bind_assoc]
      rw [bind_assoc, hpush]
      exact hrun
    · rw [hw.data]
      simpa only [append_assoc, take_append_drop] using hw2
  · have hmin : min buf.length (blockSize - b.block.length) = buf.length := by omega
    rw [hmin, take_length, drop_length, if_neg (by rw [length_append]; omega)]
    refine ⟨{ b with block := b.block ++ buf }, d0, above, ?_, ?_, hw.aligned, ?_, hw.levels,
      hw.grown⟩
    · simp only [except_pure, ok_bind, chunks_nil (by decide : 0 < blockSize), foldlM_nil]
    · rw [hw.data, append_assoc]
    · rw [length_append]
      omega

theorem writes_ok (bufs : List (List UInt8)) (hw : Written sha d d0 b above) :
    ∃ b' d1 above', bufs.foldlM (write sha) b = .ok b' ∧
      Written sha (d ++ bufs.flatten) d1 b' above' := by
  induction bufs generalizing d d0 b above with
  | nil => exact ⟨b, d0, above, rfl, by rwa [flatten_nil, append_nil]⟩
  | cons buf bufs ih =>
    obtain ⟨b1, d1, above1, hrun1, hw1⟩ := write_ok buf hw
    obtain ⟨b2, d2, above2, hrun2, hw2⟩ := ih hw1
    refine ⟨b2, d2, above2, ?_, by rwa [flatten_cons, ← append_assoc]⟩
    rw [foldlM_cons, hrun1, ok_bind, hrun2]

end

variable (sha) in
theorem leaves_of_aligned (hd : blockSize ∣ d.length) (hne : d ≠ []) :
    leaves sha d = fullLeaves sha d := by
  rw [leaves, if_neg hne, chunkCount_eq (by decide), if_pos (Nat.mod_eq_zero_of_dvd hd), fullLeaves]

variable (sha) in
theorem leaves_append (hd : blockSize ∣ d.length) (hc : c.length < blockSize) (hne : c ≠ []) :
    leaves sha (d ++ c) = fullLeaves sha d ++ [leafHash sha (d.length / blockSize) c] := by
  have hpos := length_pos_iff.mpr hne
  have hcount : chunkCount blockSize (d ++ c).length = d.length / blockSize + 1 := by
    obtain ⟨q, hq⟩ := hd
    rw [chunkCount_eq (by decide), length_append, hq, Nat.mul_add_mod, Nat.mod_eq_of_lt hc,
      if_neg (by omega),
      Nat.mul_add_div (by decide), Nat.div_eq_of_lt hc, Nat.mul_div_cancel_left _ (by decide),
        add_zero]
  rw [leaves, if_neg (by simp [hne]), hcount, range_succ, map_append, map_singleton,
    leafHash_last hd (by omega)]
  congr 1
  refine map_congr_left fun i hi => ?_
  have hin : blockSize * (i + 1) ≤ d.length :=
    le_trans (Nat.mul_le_mul_left _ (mem_range.mp hi)) (Nat.mul_div_le ..)
  rw [chunk_append hin]

variable {d0 : List UInt8}

theorem finishBlock_ok (hw : Written sha d d0 b above) :
    ∃ block above', b.finishBlock sha = .ok ⟨block, leaves sha d :: above'⟩ ∧
      Grown hashesPerBlock (nodeHash sha) 0 (leaves sha d) above' := by
  have hd := hw.data
  unfold finishBlock
  simp only [hw.levels, headD_cons]
  by_cases hblock : b.block = []
  · rw [hblock, append_nil] at hd
    subst hd
    by_cases hne : d = []
    · subst hne
      have hhash : b.hashBlock sha b.block = .ok (sha (toLe 8 0 ++ toLe 4 0)) := by
        rw [MerkleTreeBuilder.hashBlock, hw.levels, hblock]
        simp only [fullLeaves_length, length_nil, Nat.zero_div, zero_mul]
        exact hashBlock_empty
      obtain ⟨above', hpush, hg'⟩ := pushDataHash_ok hw.levels hw.grown (sha (toLe 8 0 ++ toLe 4 0))
      refine ⟨[], above', ?_, hg'⟩
      rw [if_pos (by simp [hblock, fullLeaves]), hhash, ok_bind, hpush]
      rfl
    · have hleaves := leaves_of_aligned sha hw.aligned hne
      have hsome : (fullLeaves sha d).length ≠ 0 := by
        rw [fullLeaves_length]
        have hle := Nat.le_of_dvd (length_pos_iff.mpr hne) hw.aligned
        exact Nat.ne_of_gt (Nat.div_pos hle (by decide))
      refine ⟨b.block, above, ?_, hleaves ▸ hw.grown⟩
      rw [if_neg, hleaves, ← hw.levels]
      · rfl
      · simpa [hblock] using fun h => hsome (by rw [h]; rfl)
  · have hhash : b.hashBlock sha b.block = .ok (leafHash sha (d0.length / blockSize) b.block) := by
      rw [MerkleTreeBuilder.hashBlock, hw.levels]
      simp only [fullLeaves_length]
      exact hashBlock_ok (le_of_lt hw.partly) hblock
    obtain ⟨above', hpush, hg'⟩ :=
      pushDataHash_ok hw.levels hw.grown (leafHash sha (d0.length / blockSize) b.block)
    rw [hd, leaves_append sha hw.aligned hw.partly hblock]
    refine ⟨[], above', ?_, hg'⟩
    rw [if_pos (by simp [hblock]), hhash, ok_bind, hpush]

theorem leaves_ne_nil : leaves sha d ≠ [] := by
  unfold leaves
  split
  next => exact cons_ne_nil _ _
  next hne =>
    refine ne_nil_of_length_pos ?_
    rw [length_map, length_range]
    exact chunkCount_pos (by decide) (length_pos_iff.mpr hne)

theorem finish_ok (hw : Written sha d d0 b above) :
    ∃ above', b.finish sha = .ok ⟨leaves sha d :: above'⟩ ∧
      Tree hashesPerBlock (nodeHash sha) 0 (leaves sha d) above' := by
  obtain ⟨block, above1, hrun1, hg1⟩ := finishBlock_ok hw
  obtain ⟨above2, hrun2, htree⟩ := finishLevels_ok hg1 leaves_ne_nil (le_refl _)
  refine ⟨above2, ?_, htree⟩
  simp only [finish, hrun1, ok_bind, hrun2, except_pure]

theorem readAll_ok {fuel : Nat} {r : Reader UInt8} (hf : r.failure = none)
    (hp : ∀ p ∈ r.pieces, p ≠ []) (hw : Written sha d d0 b above) (hfuel : r.data.length < fuel) :
    ∃ above', readAll sha fuel r b = .ok ⟨leaves sha (d ++ r.data) :: above'⟩ ∧
      Tree hashesPerBlock (nodeHash sha) 0 (leaves sha (d ++ r.data)) above' := by
  induction fuel generalizing r b d d0 above with
  | zero => omega
  | succ fuel ih =>
    obtain ⟨buf, r', hread, hdata, -, hend, hf', hp'⟩ :=
      Reader.read_data (n := blockSize) (by decide) hf hp
    simp only [readAll, hread, ok_bind]
    by_cases hbuf : buf = []
    · rw [if_pos (isEmpty_iff.mpr hbuf), hend.mp hbuf, append_nil]
      exact finish_ok hw
    · rw [if_neg fun h => hbuf (isEmpty_iff.mp h)]
      obtain ⟨b1, d1, above1, hrun1, hw1⟩ := write_ok buf hw
      have hpos := length_pos_iff.mpr hbuf
      have hlen := congrArg List.length hdata
      rw [length_append] at hlen
      rw [hrun1, ok_bind, hdata, ← append_assoc]
      exact ih hf' hp' hw1 (by omega)

end Writes

section Trees
variable {sha : Sha} {above : List (List Hash)}

theorem isTreeOf {d : List UInt8} (ht : Tree hashesPerBlock (nodeHash sha) 0 (leaves sha d) above) :
    IsTreeOf sha d (leaves sha d :: above) where
  bottom := rfl
  above hxs hys := by
    rw [ht.level_above hxs hys, zero_add]
    rfl
  below hxs hk := ht.one_lt_length hxs (Nat.lt_of_succ_lt_succ hk)
  last := ht.last

/-- Any sequence of writes, and any reader that yields the same data, gives the tree of the data. -/
theorem builder_returns_tree (sha : Sha) (bufs : List (List UInt8)) : ∃ t root,
    (do (← bufs.foldlM (MerkleTreeBuilder.write sha) .new).finish sha) = .ok t ∧
    IsTreeOf sha bufs.flatten t.levels ∧ t.levels.getLast? = some [root] ∧ t.root = .ok root ∧
    ∀ (r : Reader UInt8) (fuel : Nat), r.failure = none → (∀ p ∈ r.pieces, p ≠ []) →
      r.data = bufs.flatten →
      r.data.length < fuel → MerkleTree.fromReader sha fuel r = .ok t := by
  obtain ⟨b, d0, above0, hrun, hw⟩ := writes_ok bufs (written_new sha)
  rw [nil_append] at hw
  obtain ⟨above, hfinish, htree⟩ := finish_ok hw
  obtain ⟨root, hroot⟩ := htree.last
  refine ⟨_, root, by rw [hrun, ok_bind, hfinish], isTreeOf htree, hroot, ?_, ?_⟩
  · rw [MerkleTree.root, hroot]
  · intro r fuel hf hp hdata hfuel
    obtain ⟨above', hread, htree'⟩ := readAll_ok hf hp (written_new sha) hfuel
    rw [nil_append, hdata] at hread htree'
    rw [MerkleTree.fromReader, hread, htree.unique htree']

def lengthSha : Sha := fun b => ⟨List.replicate hashSize (UInt8.ofNat b.length), length_replicate⟩

/-- A full block and two bytes of the next: two leaves under a root. -/
def twoBlocks : List (List UInt8) := [List.replicate blockSize 1, [], [2, 3]]

theorem builder_returns_tree_two_blocks : ∃ t root,
    (do (← twoBlocks.foldlM (MerkleTreeBuilder.write lengthSha) .new).finish lengthSha) = .ok t ∧
    t.root = .ok root ∧
    MerkleTree.fromReader lengthSha 8195 ⟨[List.replicate blockSize 1 ++ [2], [3]], none⟩ =
      .ok t := by
  obtain ⟨t, root, hrun, -, -, hroot, hread⟩ := builder_returns_tree lengthSha twoBlocks
  refine ⟨t, root, hrun, hroot, hread _ _ rfl (by simp) ?_ ?_⟩
  · have hjoin (block : List UInt8) : [block ++ [2], [3]].flatten =
        [block, [], [2, 3]].flatten := by simp
    exact hjoin _
  · simp only [Reader.data, flatten_cons, length_append, length_replicate]
    decide

end Trees

end Garnet.Merkle
