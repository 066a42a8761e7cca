import Garnet.Msdosfs.NodeWrite

/-! When `writeAt` of a file returns, and what it has written then. -/

namespace Garnet.Msdosfs
open List
open Node (expand sliceTo writeAt writeLoop)

variable {v : Volume} {s s' : FileState} {rest : List (List Nat)} {buf : List UInt8} {off : Nat}

variable (b : Bootrecord)

def reachable (s : FileState) : Nat :=
  b.clusterSize * (s.node.clusters.length + (freeClusters b s.manager.fat).length)

/-- How much of a buffer fits below the limit of a file and in the clusters that can be obtained. -/
def prefixLength (s : FileState) (off len : Nat) : Nat :=
  min len (min (maxSizeFile - off) (reachable b s - off))

theorem bmod_small {x : Int} (hlow : 0 ≤ x) (hhigh : x < 2 ^ 63) : x.bmod (2 ^ 64) = x := by
  unfold Int.bmod
  dsimp only
  split <;> omega

theorem writeAt_file (h : HeldFile v s rest) {target : Int}
    (htarget : ((off : Int) + buf.length).bmod (2 ^ 64) = target) :
    writeAt v.b buf off s =
      match if (maxSizeFile : Int) <
        target then sliceTo buf (buf.length - (target - maxSizeFile)) else .ok buf with
      | .error e => .error e s
      | .ok writeBuf =>
        match expand v.b (min target maxSizeFile) writeBuf (v.b.maxCluster + 1) s with
        | .error e s => .error e s
        | .ok (.fail e) s => .ok (0, some e) s
        | .ok (.write writeBuf) s =>
          match writeLoop v.b (writeBuf.length + 1) writeBuf off s with
          | .error e s => .error e s
          | .ok _ s => .ok (writeBuf.length, if writeBuf.length ≠ buf.length then some ErrNoSpace
            else none) s := by
  unfold writeAt
  rw [h.ready.writable.readonly, if_neg nofun, if_neg (by omega), htarget, h.file]
  dsimp only
  rw [if_neg (fun h => nomatch h.2)]
  rfl

theorem sliceTo_ok {k : Nat} (hk : k ≤ buf.length) : sliceTo buf k = .ok (buf.take k) := by
  unfold sliceTo
  rw [if_neg (by omega), Int.toNat_natCast]

theorem below_limit (hlimit : off ≤ maxSizeFile) :
    (if (maxSizeFile : Int) < (off : Int) + buf.length then
      sliceTo buf (buf.length - ((off : Int) + buf.length - maxSizeFile)) else .ok buf) =
        .ok (buf.take (min buf.length (maxSizeFile - off))) := by
  by_cases hlt : (maxSizeFile : Int) < (off : Int) + buf.length
  · have hindex : (buf.length : Int) - ((off : Int) + buf.length - maxSizeFile) =
        (maxSizeFile - off : Nat) := by omega
    rw [if_pos hlt, hindex, sliceTo_ok (by omega), min_eq_right (by omega)]
  · rw [if_neg hlt, min_eq_left (by omega), take_length]

theorem expand_file (h : HeldFile v s rest) (hspace : off ≤ reachable v.b s) :
    ∃ new s', HeldFile v s' rest ∧ s'.node = { s.node with clusters := s.node.clusters ++ new } ∧
      s'.stored v.b = s.stored v.b ++ List.replicate (v.b.clusterSize * new.length) 0 ∧
        new.length + (freeClusters v.b s'.manager.fat).length =
          (freeClusters v.b s.manager.fat).length ∧
          off + min buf.length (reachable v.b s - off) ≤
            v.b.clusterSize * (s.node.clusters.length + new.length) ∧
            expand v.b (off + buf.length : Nat) buf (v.b.maxCluster + 1) s =
              .ok (.write (buf.take (min buf.length (reachable v.b s - off)))) s' := by
  have hfree := freeClusters_length_le v.b s.manager.fat
  obtain ⟨new, s', hheld, hnode, hstored, hle, hcases⟩ :=
    @expand_spec v s rest (v.b.maxCluster + 1) (off + buf.length : Nat) buf h (by omega)
  have hmul : v.b.clusterSize * (s.node.clusters.length + new.length) ≤ reachable v.b s :=
    Nat.mul_le_mul_left _ (by omega)
  rcases hcases with ⟨hfits, hrun⟩ | ⟨hnew, hlt, hrun⟩
  · refine ⟨new, s', hheld, hnode, hstored, hle, by omega, ?_⟩
    rw [hrun, min_eq_left (by omega), take_length]
  · have hall : reachable v.b s = v.b.clusterSize * (s.node.clusters.length + new.length) := by
      unfold reachable
      rw [hnew]
    rw [← hall] at hrun hlt
    have hindex : (buf.length : Int) - ((off + buf.length : Nat) - (reachable v.b s : Nat)) =
        (reachable v.b s - off : Nat) := by
      omega
    refine ⟨new, s', hheld, hnode, hstored, hle, by omega, ?_⟩
    rw [hrun, hindex, sliceTo_ok (by omega), min_eq_right (by omega)]

theorem part_length (buf : List UInt8) (hlimit : off ≤ maxSizeFile) :
    ∃ part, buf.take (min buf.length (maxSizeFile - off)) = part ∧
      part.length = min buf.length (maxSizeFile - off) ∧
      min ((off : Int) + buf.length) maxSizeFile = (off + part.length : Nat) := by
  refine ⟨_, rfl, ?_⟩
  rw [length_take]
  omega

theorem writeAt_ok (h : HeldFile v s rest) (hlimit : off ≤ maxSizeFile)
    (hspace : off ≤ reachable v.b s) (hword : off + buf.length < 2 ^ 63) :
    ∃ n new s', prefixLength v.b s off buf.length = n ∧
      writeAt v.b buf off s = .ok (n, if n ≠ buf.length then some ErrNoSpace else none) s' ∧
        HeldFile v s' rest ∧
      s'.node = { s.node with
        clusters := s.node.clusters ++ new
        size := if buf.take n = [] then s.node.size else max s.node.size (off + n) } ∧
        reachable v.b s' = reachable v.b s ∧
          off + n ≤ v.b.clusterSize * (s.node.clusters.length + new.length) ∧
            s'.stored v.b = splice off (buf.take n) (s.stored v.b ++
              List.replicate (v.b.clusterSize * new.length) 0) := by
  have htarget : ((off : Int) + buf.length).bmod (2 ^ 64) = (off : Int) + buf.length :=
    bmod_small (by omega) (by omega)
  obtain ⟨part, hpart, hlength, hmin⟩ := part_length buf hlimit
  obtain ⟨new, s₁, hheld, hnode, hstored, hle, hfits, hexpand⟩ :=
    @expand_file v s rest part off h hspace
  obtain ⟨n, hn⟩ : ∃ n, prefixLength v.b s off buf.length = n := ⟨_, rfl⟩
  have hmins : min part.length (reachable v.b s - off) = n := by
    rw [← hn, prefixLength, hlength, Nat.min_assoc]
  have hwritten : part.take n = buf.take n := by
    rw [← hpart, take_take, min_eq_left (by omega)]
  have hcount : (buf.take n).length = n := length_take_of_le (by omega)
  have hroom : off + (buf.take n).length ≤ v.b.clusterSize * s₁.node.clusters.length := by
    rw [hcount, hnode, length_append]
    exact hmins ▸ hfits
  obtain ⟨s', hloop, hheld', hnode', hstored', hfree⟩ :=
    writeLoop_spec hheld.toHeld hroom (Nat.lt_succ_self _)
  refine ⟨n, new, s', hn, ?_, ⟨hheld', h.mark, hnode' ▸ hheld.file⟩, ?_, ?_, hmins ▸ hfits, ?_⟩
  · rw [writeAt_file h htarget, below_limit hlimit]
    dsimp only
    rw [hpart, hmin, hexpand]
    dsimp only
    rw [hmins, hwritten, hloop]
    dsimp only
    rw [hcount]
  · rw [hnode', hnode, hcount]
  · unfold reachable
    rw [hfree, hnode', hnode, length_append, add_assoc, hle]
  · rw [hstored', hstored]

theorem Held.length_lt (h : Held v s rest) (hmark : v.b.maxCluster < v.b.eofValue) :
    v.b.clusterSize * s.node.clusters.length < 2 ^ 63 := by
  have hcount := clusters_length (fun c hc => h.valid hc) h.nodup
  have hmask := eofValue_le_mask v.b
  have hsmall : v.b.clusterMask ≤ 0x0FFFFFFF := by
    unfold Bootrecord.clusterMask
    cases v.b.t <;> decide
  have hsize : v.b.clusterSize < 2 ^ 32 := by
    have hwrap := v.consistent.noWrap.clusterSize
    rw [v.clusterSize]
    exact hwrap
  calc v.b.clusterSize * s.node.clusters.length ≤ 2 ^ 32 * 2 ^ 29 := Nat.mul_le_mul hsize.le (by omega)
    _ < 2 ^ 63 := by decide

section
variable (h : HeldFile v s rest) (hword : off + buf.length < 2 ^ 63)
include h hword

end

def FileState.contents (s : FileState) : List UInt8 := (s.stored b).take s.node.size

/-- After `writeAt` of `n` bytes at `off` they stand there, and the earlier contents elsewhere. -/
structure Wrote (buf : List UInt8) (off n : Nat) (s s' : FileState) : Prop where
  written : ∀ i < n, (s'.contents b)[off + i]? = buf[i]?
  kept : ∀ i < s.node.size, i < off ∨ off + n ≤ i → (s'.contents b)[i]? = (s.contents b)[i]?
  size : 0 < n → s'.node.size = max s.node.size (off + n)

/-- The end of the write fits in a word, and it starts within the limit of a file and the clusters
that can be obtained. -/
def Starts (s : FileState) (off len : Nat) : Prop :=
  off + len < 2 ^ 63 ∧ off ≤ maxSizeFile ∧ off ≤ reachable b s

instance (s : FileState) (off len : Nat) : Decidable (Starts b s off len) :=
  inferInstanceAs (Decidable (_ ∧ _ ∧ _))

def emptyFile : FileState := ⟨emptyManager, ⟨false, 0, [], 0⟩⟩

theorem emptyFile_held (v : Volume) : Held v emptyFile [] :=
  ⟨⟨⟨rfl, rfl⟩, rfl⟩, emptyManager_chained v.b, Nat.zero_le _⟩

end Garnet.Msdosfs
