import Garnet.Msdosfs.NodeData

/-! Writing to the clusters of a node and obtaining new ones. -/

namespace Garnet.Msdosfs
open List
open FileState (onManager)
open Node (expand writeLoop)

def own (clusters : List Nat) : List (List Nat) := if clusters = [] then [] else [clusters]

/-- The node has the clusters of a chain and a size within them; `rest` are the other chains. -/
structure Held (v : Volume) (s : FileState) (rest : List (List Nat)) : Prop where
  ready : s.manager.Ready
  chained : Chained v.b s.manager.fat (own s.node.clusters ++ rest)
  fits : s.node.size ≤ v.b.clusterSize * s.node.clusters.length

def FileState.stored (b : Bootrecord) (s : FileState) : List UInt8 :=
  Msdosfs.stored b s.device s.node.clusters

variable {v : Volume} {s s' : FileState} {rest : List (List Nat)}

theorem chained_same {f f' : FAT} {cs : List (List Nat)} (hchange : Change v (fun _ => none) f f')
    (hcs : Chained v.b f cs) : Chained v.b f' cs := by
  have hvalue : ∀ c, v.b.clusterInValidRange c = true → value v.b f' c = value v.b f c :=
    fun c hc => hchange.value c hc
  have halloc : ∀ c, Allocated v.b f' c ↔ Allocated v.b f c := by
    intro c
    by_cases hc : v.b.clusterInValidRange c = true
    · unfold Allocated
      rw [hvalue c hc]
    · exact ⟨fun h => absurd h.1 hc, fun h => absurd h.1 hc⟩
  refine ⟨fun l hl => (hcs.chain l hl).congr fun c hc => ?_, hcs.nodup,
    fun c => (hcs.members c).trans (halloc c).symm⟩
  exact hvalue c ((hcs.members c).mp (mem_flatten.mpr ⟨l, hl, hc⟩)).1

namespace Held

theorem own_flatten (clusters : List Nat) : (own clusters).flatten = clusters := by
  unfold own
  split
  next hnil =>
    rw [hnil]
    rfl
  next =>
    rw [flatten_singleton]

section
variable (h : Held v s rest)
include h

theorem allocated {c : Nat} (hc : c ∈ s.node.clusters) : Allocated v.b s.manager.fat c := by
  rw [← h.chained.members, flatten_append, own_flatten]
  exact mem_append_left _ hc

theorem valid {c : Nat} (hc : c ∈ s.node.clusters) : v.b.clusterInValidRange c = true :=
  (h.allocated hc).1

theorem nodup : s.node.clusters.Nodup := by
  have hnodup := h.chained.nodup
  rw [flatten_append, own_flatten] at hnodup
  exact hnodup.of_append_left

theorem withDevice {d : Device} {size : Nat}
    (hentry : ∀ i < v.b.numFATs, ∀ c ≤ v.b.maxCluster, entry v.b i c d = entry v.b i c s.device)
    (hsize : size ≤ v.b.clusterSize * s.node.clusters.length) :
    Held v ((s.withDevice d).withNode { s.node with size := size }) rest := by
  have hchange : Change v (fun _ => none) s.manager.fat { s.manager.fat with device := d } :=
    Change.of_device hentry
  exact ⟨⟨hchange.writable h.ready.writable, h.ready.mounted⟩, chained_same hchange h.chained, hsize⟩

end

end Held

theorem cluster_at {clusters : List Nat} {size off : Nat} (hpos : 0 < size)
    (hlt : off < size * clusters.length) :
    ∃ xs c ys, clusters = xs ++ c :: ys ∧ xs.length = off / size ∧
    clusters[off / size]? = some c := by
  have hindex : off / size < clusters.length := by
    rw [Nat.div_lt_iff_lt_mul hpos, mul_comm]
    exact hlt
  refine ⟨clusters.take (off / size), clusters.get ⟨off / size, hindex⟩,
    clusters.drop (off / size + 1), ?_, ?_, ?_⟩
  · rw [get_eq_getElem, getElem_cons_drop, take_append_drop]
  · rw [length_take]
    omega
  · rw [List.getElem?_eq_getElem hindex]
    rfl

section Free
variable {f f' : FAT} {c d : Nat}

def freeClusters (b : Bootrecord) (f : FAT) : List Nat :=
  (List.range b.maxCluster).filter fun c => decide (Allocatable b c) && isFree (value b f c)

theorem mem_freeClusters {b : Bootrecord} :
    c ∈ freeClusters b f ↔ Allocatable b c ∧ value b f c = freeValue := by
  unfold freeClusters
  rw [mem_filter, mem_range, Bool.and_eq_true, decide_eq_true_iff, isFree_iff]
  exact ⟨fun h => h.2, fun h => ⟨h.1.2.1, h⟩⟩

theorem freeClusters_nodup (b : Bootrecord) (f : FAT) : (freeClusters b f).Nodup :=
  nodup_range.filter _

theorem freeClusters_length_le (b : Bootrecord) (f : FAT) :
    (freeClusters b f).length ≤ b.maxCluster := by
  have hle :=
    length_filter_le (fun c => decide (Allocatable b c) && isFree (value b f c))
      (List.range b.maxCluster)
  rw [length_range] at hle
  exact hle

theorem freeClusters_device {device : Device}
    (hentry : ∀ i < v.b.numFATs, ∀ c ≤ v.b.maxCluster, entry v.b i c device =
      entry v.b i c f.device) :
    freeClusters v.b { f with device := device } = freeClusters v.b f := by
  unfold freeClusters
  apply filter_congr
  intro c hc
  have hvalue : value v.b { f with device := device } c = value v.b f c := by
    unfold value
    rw [hentry _ v.primary c (le_of_lt (mem_range.mp hc))]
  rw [hvalue]

theorem freeClusters_linked (hchange : Change v (linked v.b c d) f f') (hd : Allocatable v.b d)
    (hfree : value v.b f d = freeValue) (hc : c = 0 ∨ Allocated v.b f c) :
    (freeClusters v.b f).length = (freeClusters v.b f').length + 1 := by
  have hmarks := badValue_lt_eof v.b
  have hvalue : ∀ e, Allocatable v.b e → (value v.b f' e = freeValue ↔ e ≠ d ∧
      value v.b f e = freeValue) := by
    intro e he
    rw [linked_value hchange he.valid]
    split
    next hce =>
      have htwo := hd.1
      refine iff_of_false (by unfold freeValue; omega) fun h => ?_
      exact (hc.resolve_left hce.1).2.1 (hce.2 ▸ h.2)
    next =>
      split
      next hde => exact iff_of_false (by unfold freeValue; omega) fun h => h.1 hde.symm
      next hde => exact (and_iff_right (Ne.symm hde)).symm
  have hmem : ∀ e, e ∈ d :: freeClusters v.b f' ↔ e ∈ freeClusters v.b f := by
    intro e
    rw [mem_cons, mem_freeClusters, mem_freeClusters, and_congr_right (hvalue e)]
    by_cases heq : e = d
    · simp [heq, hd, hfree]
    · simp [heq]
  have hnodup : (d :: freeClusters v.b f').Nodup := by
    refine nodup_cons.mpr ⟨fun h => ?_, freeClusters_nodup _ _⟩
    exact ((hvalue d hd).mp (mem_freeClusters.mp h).2).1 rfl
  have hperm := (perm_ext_iff_of_nodup hnodup (freeClusters_nodup v.b f)).mpr hmem
  rw [← hperm.length_eq, length_cons]

end Free

section WriteLoop

theorem write_piece {off : Nat} {w : List UInt8} (h : Held v s rest)
    (hlt : off < v.b.clusterSize * s.node.clusters.length)
    (hfits : off % v.b.clusterSize + w.length ≤ v.b.clusterSize) :
    ∃ c d, s.node.clusters[off / v.b.clusterSize]? = some c ∧
      s.write w (v.b.clusterLocationData c + off % v.b.clusterSize) = s.withDevice d ∧
        (∀ i < v.b.numFATs, ∀ e ≤ v.b.maxCluster, entry v.b i e d = entry v.b i e s.device) ∧
          stored v.b d s.node.clusters = splice off w (s.stored v.b) := by
  obtain ⟨xs, c, ys, hclusters, hxs, hget⟩ := cluster_at v.positive hlt
  have hmem : c ∈ s.node.clusters := by
    rw [hclusters]
    exact mem_append_right _ mem_cons_self
  have hvalid := h.valid hmem
  obtain ⟨htwo, hmax⟩ := (valid_iff _ _).mp hvalid
  refine ⟨c, _, hget, rfl, ?_, ?_⟩
  · intro i hi e he
    exact v.entry_writeData (le_trans htwo hmax) hi he
      (le_trans (dataStart_le hvalid) (Nat.le_add_right _ _))
  · unfold FileState.stored
    have hall := fun e (he : e ∈ s.node.clusters) => h.valid he
    have hnodup := h.nodup
    rw [hclusters] at hall hnodup ⊢
    rw [stored_write hall hnodup hfits, hxs, Nat.div_add_mod]

theorem writeLoop_step {off : Nat} {buf : List UInt8} (h : Held v s rest) (hbuf : buf ≠ [])
    (hlt : off < v.b.clusterSize * s.node.clusters.length) :
    ∃ count s₁, 0 < count ∧ count ≤ buf.length ∧
      off + count ≤ v.b.clusterSize * s.node.clusters.length ∧
      (∀ fuel, writeLoop v.b (fuel + 1) buf off s =
        writeLoop v.b fuel (buf.drop count) (off + count) s₁) ∧
        s₁.node = { s.node with size := max s.node.size (off + count) } ∧ Held v s₁ rest ∧
          s₁.stored v.b = splice off (buf.take count) (s.stored v.b) ∧
            freeClusters v.b s₁.manager.fat = freeClusters v.b s.manager.fat := by
  have hlen : 0 < buf.length := length_pos_iff.mpr hbuf
  have hmod := Nat.mod_lt off v.positive
  obtain ⟨count, hcount⟩ : ∃ count, min (v.b.clusterSize - off % v.b.clusterSize) buf.length =
      count := ⟨_, rfl⟩
  have htake : (buf.take count).length = count := by
    rw [length_take]
    omega
  have hquot : off / v.b.clusterSize + 1 ≤ s.node.clusters.length :=
    (Nat.div_lt_iff_lt_mul v.positive).mpr (by rwa [mul_comm])
  have hpiece := Nat.mul_le_mul_left v.b.clusterSize hquot
  rw [mul_add, mul_one] at hpiece
  have hdiv := Nat.div_add_mod off v.b.clusterSize
  obtain ⟨c, d, hget, hwrite, hentry, hstored⟩ :=
    @write_piece v s rest off (buf.take count) h hlt (by omega)
  have hsize := h.fits
  refine ⟨count, (s.withDevice d).withNode { s.node with size := max s.node.size (off + count) },
    by omega, by omega,
    by omega, fun fuel => ?_, rfl, h.withDevice hentry (by omega), hstored, freeClusters_device hentry⟩
  rw [writeLoop]
  dsimp only
  rw [if_neg hbuf, hget]
  dsimp only
  rw [hcount, hwrite]
  rfl

theorem writeLoop_spec {fuel off : Nat} {buf : List UInt8} (h : Held v s rest)
    (hfits : off + buf.length ≤ v.b.clusterSize * s.node.clusters.length) (hfuel : buf.length < fuel) :
    ∃ s', writeLoop v.b fuel buf off s = .ok () s' ∧ Held v s' rest ∧
      s'.node = { s.node with size := if buf = [] then s.node.size else max s.node.size (off + buf.length) } ∧
        s'.stored v.b = splice off buf (s.stored v.b) ∧
          freeClusters v.b s'.manager.fat = freeClusters v.b s.manager.fat := by
  induction fuel generalizing off buf s with
  | zero => omega
  | succ fuel ih =>
    by_cases hbuf : buf = []
    · subst hbuf
      refine ⟨s, ?_, h, ?_, splice_nil.symm, rfl⟩
      · unfold writeLoop
        exact if_pos rfl
      · rw [if_pos rfl]
    · have hlen : 0 < buf.length := length_pos_iff.mpr hbuf
      obtain ⟨count, s₁, hpos, hle, hend, hstep, hnode₁, hheld, hstored, hfree⟩ :=
        @writeLoop_step v s rest off buf h hbuf (by omega)
      have hdrop : (buf.drop count).length = buf.length - count := length_drop
      obtain ⟨s', hrun, hheld', hnode, hstored', hfree'⟩ := @ih s₁ (off + count) (buf.drop count) hheld
        (by rw [hnode₁]; dsimp only; omega) (by omega)
      refine ⟨s', (hstep fuel).trans hrun, hheld', ?_, ?_, hfree'.trans hfree⟩
      · rw [hnode, hnode₁, if_neg hbuf]
        dsimp only
        congr 1
        by_cases hrest : buf.drop count = []
        · have hall : buf.length ≤ count := drop_eq_nil_iff.mp hrest
          rw [if_pos hrest]
          omega
        · rw [if_neg hrest]
          omega
      · have htake : (buf.take count).length = count := length_take_of_le hle
        have hlength : off + (buf.take count).length ≤ (s.stored v.b).length := by
          unfold FileState.stored
          rw [stored_length, htake]
          exact hend
        have hsplice := splice_splice (b := buf.drop count) hlength
        rw [htake, take_append_drop, ← hstored] at hsplice
        rw [hstored', hsplice]

end WriteLoop

section Expand

variable {α : Type} {x : EStateM Fault Manager α} {m : Manager}

theorem onManager_ok {a : α} (h : x s.manager = .ok a m) :
    onManager x s = .ok a { s with manager := m } := by
  unfold onManager
  rw [h]

theorem onManager_error {e : Fault} (h : x s.manager = .error e m) :
    onManager x s = .error e { s with manager := m } := by
  unfold onManager
  rw [h]

def Node.tail (n : Node) : Nat := n.clusters.getLast?.getD 0

theorem Held.tail_cases (h : Held v s rest) :
    s.node.clusters = [] ∧ s.node.tail = 0 ∧ Chained v.b s.manager.fat rest ∨
      ∃ xs c, s.node.clusters = xs ++ [c] ∧ s.node.tail = c ∧
        Chained v.b s.manager.fat ((xs ++ [c]) :: rest) := by
  have hchained := h.chained
  unfold own at hchained
  by_cases hnil : s.node.clusters = []
  · rw [if_pos hnil] at hchained
    refine .inl ⟨hnil, ?_, hchained⟩
    unfold Node.tail
    rw [hnil]
    rfl
  · rw [if_neg hnil] at hchained
    obtain ⟨xs, c, hxs⟩ : ∃ xs c, s.node.clusters = xs ++ [c] :=
      ⟨_, _, (dropLast_concat_getLast hnil).symm⟩
    refine .inr ⟨xs, c, hxs, ?_, ?_⟩
    · unfold Node.tail
      rw [hxs, List.getLast?_concat]
      rfl
    · rw [hxs] at hchained
      exact hchained

theorem extend_node (h : Held v s rest) (hmark : v.b.maxCluster < v.b.eofValue) :
    (∃ d f, onManager (Manager.clusterExtend v.b s.node.tail) s =
      .ok d { s with manager := { s.manager with fat := f } } ∧
      Held v (FileState.mk { s.manager with fat := f }
        { s.node with clusters := s.node.clusters ++ [d] }) rest ∧
        stored v.b f.device (s.node.clusters ++ [d]) =
          s.stored v.b ++ List.replicate v.b.clusterSize 0 ∧
          (freeClusters v.b s.manager.fat).length = (freeClusters v.b f).length + 1) ∨
    (∃ hint, onManager (Manager.clusterExtend v.b s.node.tail) s =
      .error ErrNoSpace { s with manager := { s.manager with fat := { s.manager.fat with nextFree := hint } } }) ∧
        (freeClusters v.b s.manager.fat).length = 0 := by
  have hpre : s.node.tail = 0 ∨ Allocated v.b s.manager.fat s.node.tail ∧
      v.b.isEOF (value v.b s.manager.fat s.node.tail) = true := by
    rcases h.tail_cases with ⟨-, hzero, -⟩ | ⟨xs, c, hxs, htail, hchained⟩
    · exact .inl hzero
    · rw [htail]
      refine .inr ⟨h.allocated ?_, (hchained.chain _ mem_cons_self).eof_last⟩
      rw [hxs]
      exact mem_append_right _ mem_cons_self
  rcases clusterExtend_spec h.ready hmark (hpre.imp id fun hp => ⟨hp.1.1, hp.2⟩) with
    ⟨d, f, hrun, hd, hfree, hchange, hclear⟩ | ⟨⟨hint, hrun⟩, hall⟩
  case inr =>
    refine .inr ⟨⟨hint, onManager_error hrun⟩, ?_⟩
    rw [length_eq_zero_iff, eq_nil_iff_forall_not_mem]
    intro c hc
    have hfree := mem_freeClusters.mp hc
    exact hall c hfree.1 hfree.2
  case inl =>
    have hvalid := hd.valid
    have hnew : d ∉ s.node.clusters := fun hmem => (h.allocated hmem).2.1 hfree
    have hall : ∀ e ∈ s.node.clusters ++ [d], v.b.clusterInValidRange e = true :=
      forall_mem_append.mpr ⟨fun e => h.valid, forall_mem_singleton.mpr hvalid⟩
    have halloc := hpre.imp id fun hp => hp.1
    have hkept : Kept v s.manager.fat f := kept_linked hchange (.inr hd.2.2) hfree halloc
    refine .inl ⟨d, f, onManager_ok hrun,
      ⟨ready_of_kept h.ready hkept, ?_, ?_⟩, stored_cleared hclear hall hnew,
      freeClusters_linked hchange hd hfree halloc⟩
    · change Chained v.b f (own (s.node.clusters ++ [d]) ++ rest)
      have hown : own (s.node.clusters ++ [d]) = [s.node.clusters ++ [d]] := if_neg (by simp)
      rw [hown]
      rcases h.tail_cases with ⟨hclusters, htail, hchained⟩ | ⟨xs, c, hxs, htail, hchained⟩
      · rw [htail] at hchange
        rw [hclusters]
        exact chained_start hchained hchange hvalid hfree
      · rw [htail] at hchange
        rw [hxs]
        exact chained_extend hmark hchained hchange hd hfree
    · change s.node.size ≤ v.b.clusterSize * (s.node.clusters ++ [d]).length
      have hsize := h.fits
      rw [length_append, mul_add]
      omega

theorem Held.hint (h : Held v s rest) (hint : Nat) :
    Held v { s with manager := { s.manager with fat := { s.manager.fat with nextFree := hint } } }
      rest :=
  ⟨⟨⟨h.ready.writable.closed, h.ready.writable.readonly⟩, h.ready.mounted⟩, h.chained, h.fits⟩

/-- The same of a file, where the last cluster is below the end mark. -/
structure HeldFile (v : Volume) (s : FileState)
    (rest : List (List Nat)) : Prop extends Held v s rest where
  mark : v.b.maxCluster < v.b.eofValue
  file : s.node.directory = false

/-- The loop that obtains clusters for a file: it stops when there are enough of them, or when there
are no more, and then shortens what is to be written. -/
theorem expand_spec {fuel : Nat} {target : Int} {buf : List UInt8} (h : HeldFile v s rest)
    (hfuel : (freeClusters v.b s.manager.fat).length < fuel) :
    ∃ new s', HeldFile v s' rest ∧ s'.node = { s.node with clusters := s.node.clusters ++ new } ∧
      s'.stored v.b = s.stored v.b ++ List.replicate (v.b.clusterSize * new.length) 0 ∧
        new.length + (freeClusters v.b s'.manager.fat).length =
          (freeClusters v.b s.manager.fat).length ∧
          (target ≤ (v.b.clusterSize * (s.node.clusters.length + new.length) : Nat) ∧
              expand v.b target buf fuel s = .ok (.write buf) s' ∨
            new.length = (freeClusters v.b s.manager.fat).length ∧
              (v.b.clusterSize * (s.node.clusters.length + new.length) : Nat) < target ∧
                expand v.b target buf fuel s =
                  match Node.sliceTo buf (buf.length -
                      (target - (v.b.clusterSize * (s.node.clusters.length + new.length) : Nat))) with
                  | .ok buf => .ok (.write buf) s'
                  | .error e => .error e s') := by
  induction fuel generalizing s with
  | zero => omega
  | succ fuel ih =>
    by_cases henough : target ≤ (v.b.clusterSize * s.node.clusters.length : Nat)
    · refine ⟨[], s, h, ?_, ?_, zero_add _, .inl ⟨henough, ?_⟩⟩
      · rw [append_nil]
      · rw [length_nil, mul_zero, replicate_zero, append_nil]
      · unfold expand
        exact if_pos henough
    · have hlt : (v.b.clusterSize * s.node.clusters.length : Nat) < target := by omega
      rcases extend_node h.toHeld h.mark with
          ⟨d, f, hrun, hheld, hstored, hcount⟩ | ⟨⟨hint, hrun⟩, hzero⟩
      case inr =>
        refine ⟨[], _, ⟨h.hint hint, h.mark, h.file⟩, ?_, ?_, zero_add _, .inr ⟨hzero.symm, hlt, ?_⟩⟩
        · rw [append_nil]
        · rw [length_nil, mul_zero, replicate_zero, append_nil]
          rfl
        · unfold expand
          dsimp only
          rw [if_neg henough]
          unfold Node.tail at hrun
          rw [hrun]
          dsimp only
          rw [h.file]
          rfl
      case inl =>
        obtain ⟨new, s', hheld', hnode, hstored', hle, hcases⟩ := ih ⟨hheld, h.mark, h.file⟩ (by
          change (freeClusters v.b f).length < fuel
          omega)
        have hlength : s.node.clusters.length + (d :: new).length =
            (s.node.clusters ++ [d]).length + new.length := by
          rw [length_append, length_cons, length_cons, length_nil]
          omega
        have hstep : expand v.b target buf (fuel + 1) s = expand v.b target buf fuel
            (FileState.mk { s.manager with fat := f }
              { s.node with clusters := s.node.clusters ++ [d] }) := by
          rw [expand]
          dsimp only
          rw [if_neg henough]
          unfold Node.tail at hrun
          rw [hrun]
          rfl
        refine ⟨d :: new, s', hheld', ?_, ?_, ?_, ?_⟩
        · rw [hnode, append_assoc]
          rfl
        · rw [hstored']
          change stored v.b f.device (s.node.clusters ++ [d]) ++ _ = _
          rw [hstored, append_assoc, ← replicate_add, length_cons]
          congr 2
          ring
        · change _ = (freeClusters v.b f).length at hle
          rw [length_cons]
          omega
        · rw [hstep, hlength]
          refine hcases.imp id fun hmore => ⟨?_, hmore.2⟩
          have hsame : new.length = (freeClusters v.b f).length := hmore.1
          rw [length_cons]
          omega

end Expand

end Garnet.Msdosfs
