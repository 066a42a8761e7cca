import Garnet.Inspect.HeapRun
import Mathlib.Data.Finset.Card

/-! The links of the free lists have 28 bits. A heap that grows past `2 ^ 32` bytes has blocks
whose indices do not fit, and its lists are no longer exact. -/

namespace Garnet.Inspect
open Tiling LinkedList BlockHeader
open Heap (IsFree allocateBlock carve cells get_bind)

variable {m : Mapping} {h h' : Heap} {R : Live} {A : Used} {F : Lists} {i k : Nat}
variable {pinned : Nat → Prop} {start : Heap → Live → Prop}

def usedCount (A : Used) : Nat := ((Finset.range (2 ^ 28)).filter fun i => A i ≠ none).card

theorem usedCount_le (A : Used) : usedCount A ≤ 2 ^ 28 := by
  refine (Finset.card_filter_le _ _).trans ?_
  rw [Finset.card_range]

theorem usedCount_update (hi : A i = none) (hlt : i < 2 ^ 28) (k : Nat) :
    usedCount (Function.update A i (some k)) = usedCount A + 1 := by
  have hset : (Finset.range (2 ^ 28)).filter (fun j => Function.update A i (some k) j ≠ none) =
      insert i ((Finset.range (2 ^ 28)).filter fun j => A j ≠ none) := by
    ext j
    by_cases hj : j = i
    · subst j
      simpa using hlt
    · simp [hj]
  rw [usedCount, hset, Finset.card_insert_of_notMem (by simp [hi])]
  rfl

/-- The heap of a mapping of `2 ^ 33` bytes has a block of the largest order, until it has `2 ^ 32`
bytes and none of its free blocks is one. -/
theorem allocate_top (I : HeapInv h A F) (hlen : h.mapping.len = 2 ^ 33)
    (hsize : ∃ j ≤ 20, h.currentSizeBytes = 4096 * 2 ^ j)
    (hroom : ¬ (F 7 = [] ∧ h.currentSizeBytes = 2 ^ 32)) :
    ∃ i h' F', allocateBlock 2048 h = .ok i h' ∧ Heap.Allocated h A F 7 i h' F' ∧
      ∃ j ≤ 20, h'.currentSizeBytes = 4096 * 2 ^ j := by
  obtain ⟨j, hj, hs⟩ := hsize
  have hgrow : (∀ k, 7 ≤ k → k < numOrders → F k = []) →
      j + 1 ≤ 20 ∧ min h.mapping.len (h.currentSizeBytes * 2) = 4096 * 2 ^ (j + 1) := by
    intro hF
    have hj20 : j + 1 ≤ 20 := by
      by_contra hno
      obtain rfl : j = 20 := by omega
      exact hroom ⟨hF 7 (by decide) (by decide), by rw [hs]; decide⟩
    have hp := Nat.pow_le_pow_right (n := 2) (by decide) hj20
    rw [hlen, hs, pow_succ] at *
    omega
  have hlt : h.currentSizeBytes < h.mapping.len := by
    have := Nat.pow_le_pow_right (n := 2) (by decide) hj
    rw [hlen, hs]
    omega
  obtain ⟨i, h', F', hrun, hal, hsz, -⟩ := Heap.allocateBlock_ok I (n := 2048) (m := 7) (by decide)
    (by decide) (.inr hlt) (by rw [hlen]; decide) (by
      intro hF
      obtain ⟨hj20, hmin⟩ := hgrow hF
      have := Nat.pow_le_pow_right (n := 2) (by decide) hj20
      rw [hmin]
      omega)
  refine ⟨i, h', F', hrun, hal, ?_⟩
  rcases hsz with hsz | ⟨hF, hsz⟩
  · exact ⟨j, hj, hsz.trans hs⟩
  · exact ⟨j + 1, (hgrow hF).1, hsz.trans (hgrow hF).2⟩

/-- Blocks of the largest order can be allocated until the heap has `2 ^ 32` bytes and its list
of such blocks is empty. -/
theorem exists_full (hlen : m.len = 2 ^ 33) (d : Nat) (hr : Reach pinned start h R)
    (I : RunInv m h R A F) (hsize : ∃ j ≤ 20, h.currentSizeBytes = 4096 * 2 ^ j)
    (hd : 2 ^ 28 < usedCount A + d) :
    ∃ h' R' A' F', Reach pinned start h' R' ∧ RunInv m h' R' A' F' ∧
      h'.currentSizeBytes = 2 ^ 32 ∧ F' 7 = [] := by
  induction d generalizing h R A F with
  | zero =>
    have := usedCount_le A
    omega
  | succ d ih =>
    by_cases hfull : F 7 = [] ∧ h.currentSizeBytes = 2 ^ 32
    · exact ⟨h, R, A, F, hr, I, hfull.2, hfull.1⟩
    · obtain ⟨i, h', F', hrun, hal, hs⟩ := allocate_top I.inv (I.len.trans hlen) hsize hfull
      have hlt := hal.inv.layout.index_lt (.inl (Function.update_self i (some 7) A))
      refine ih (hr.step (.allocate (by decide) (by decide) hrun)) (I.allocated hal (by decide)) hs ?_
      rw [usedCount_update hal.fresh hlt]
      omega

theorem carve_top (hhead : h.freeHeadPerOrder 7 = i) (hb : 16 * i + 2048 ≤ h.currentSizeBytes)
    (hle : h.currentSizeBytes ≤ h.mapping.len) (ho : order (h.hdr i) = 7) (ht : h.IsFree i) :
    carve 7 7 h = .ok i ((h.withHead 7 (h.next i)).putHdr i
      (setBlockType (h.hdr i) BlockType.reserved.toU8)) := by
  have hlen : 16 * i + 8 ≤ h.mapping.len := by omega
  have hord : Block.order h.mapping i = .ok 7 := by
    rw [Block.order_eq (s := h.mapping) hlen]
    exact congrArg Except.ok ho
  have hget : Heap.getBlock h i = .ok i := Heap.getBlock_eq (by rw [ho]; exact hb) hle
  have hsplit : Heap.splitLoop 16 i 7 h = .ok () h := by
    simp only [Heap.splitLoop, Heap.block_bind, hord]
    rfl
  have hremove : Heap.removeFree i h = .ok true (h.withHead 7 (h.next i)) := by
    have hnext : Block.freeNextIndex h.mapping i = .ok (h.next i) :=
      Block.headerField_eq (s := h.mapping) hlen ht
    simp only [Heap.removeFree, Heap.block_bind, hord, if_neg (by decide : ¬ numOrders ≤ 7),
      Heap.freeHead_bind (by decide : 7 < numOrders), if_pos hhead, hnext,
      bind_ok (Heap.setFreeHead_ok (by decide : 7 < numOrders) (h.next i) h)]
    rfl
  rw [carve, Heap.freeHead_bind (by decide), hhead]
  simp only [reading_bind, id, hget, unwrap_ok]
  rw [bind_ok hsplit, bind_ok hremove,
    Heap.becomeReserved_bind (h := h.withHead 7 (h.next i)) hlen ht]
  rfl

/-- The state after the heap has grown past `2 ^ 32` bytes for one more block. -/
structure Overgrown (h : Heap) (h' : Heap) : Prop where
  size : h'.currentSizeBytes = 2 ^ 33
  len : h'.mapping.len = 2 ^ 33
  head : h'.freeHeadPerOrder 7 = 128
  bytes : ∀ x < 2 ^ 32, h'.mapping.byte x = h.mapping.byte x
  reserved : blockType (h'.hdr (2 ^ 28)) = BlockType.reserved.toU8
  orders : ∀ q < 2 ^ 21, order (h'.hdr (2 ^ 28 + q * 2 ^ 7)) = 7
  frees : ∀ q < 2 ^ 21, 0 < q → h'.IsFree (2 ^ 28 + q * 2 ^ 7)

theorem overgrow (I : HeapInv h A F) (hlen : h.mapping.len = 2 ^ 33)
    (hsize : h.currentSizeBytes = 2 ^ 32) (hF : F 7 = []) :
    ∃ h', allocateBlock 2048 h = .ok (2 ^ 28) h' ∧ Overgrown h h' := by
  have hmin : min h.mapping.len (h.currentSizeBytes * 2) = 2 ^ 33 := by
    rw [hlen, hsize]
    decide
  have hcells : h.cells = 2 ^ 28 := by
    rw [cells, hsize]
    decide
  obtain ⟨m, n, hrun, hn, hml, hbytes, -, hhdrs⟩ := Heap.growHeap_run (h := h)
    (h.currentSizeBytes * 2) I.layout.size_page (by rw [hmin, hsize]; decide)
    (by rw [hmin]; decide) (by rw [hmin]; decide)
  rw [hmin, hsize] at hn hbytes
  rw [hmin] at hrun
  rw [hcells] at hhdrs hrun
  have hq : n + 1 = 2 ^ 21 := by omega
  rw [hq] at hhdrs
  have hfirst := hhdrs 0 (by decide)
  rw [zero_mul, add_zero, if_pos (by decide)] at hfirst
  obtain ⟨ho, ht, hnx⟩ := hfirst
  have hcarve := carve_top (h := ⟨m, 2 ^ 33, Function.update h.freeHeadPerOrder 7 (2 ^ 28)⟩)
    (i := 2 ^ 28) (by simp) (by simp) (by rw [hml, hlen]) ho ht
  have hne : ∀ q : Nat, 0 < q → 2 ^ 28 + q * 2 ^ 7 ≠ 2 ^ 28 := by
    intro q hq
    omega
  have hrun' : allocateBlock 2048 h =
      carve 7 7 ⟨m, 2 ^ 33, Function.update h.freeHeadPerOrder 7 (2 ^ 28)⟩ := by
    have hfind := Heap.findOrder_range I 7
    rw [Heap.find_free.mpr (fun k h7 h8 => by
      obtain rfl : k = 7 := by
        simp only [numOrders] at h8
        omega
      exact hF)] at hfind
    simp only [allocateBlock, Heap.compute_bind, (by decide : fitOrder 2048 = .ok 7),
      if_neg (by decide : ¬ numOrders ≤ 7), reading_bind, id, hfind, get_bind]
    rw [bind_ok hrun]
    rfl
  refine ⟨_, hrun'.trans hcarve, ⟨rfl, hml.trans hlen, ?_, ?_, ?_, ?_, ?_⟩⟩
  · rw [Heap.putHdr_heads, Heap.withHead_heads, Function.update_self, Heap.next, hnx]
    decide
  · intro x hx
    exact (Mapping.putHdr_byte (.inl (by omega))).trans (hbytes x (.inl hx))
  · rw [Heap.hdr_putHdr_self, blockType_mod, blockType_setBlockType]
  · intro q hq
    rcases Nat.eq_zero_or_pos q with rfl | hpos
    · rw [zero_mul, add_zero, Heap.hdr_putHdr_self, order_mod, order_setBlockType]
      exact ho
    · rw [Heap.hdr_putHdr_ne _ _ _ (hne q hpos), Heap.withHead_hdr]
      exact (hhdrs q hq).1
  · intro q hq hpos
    rw [IsFree, Heap.hdr_putHdr_ne _ _ _ (hne q hpos), Heap.withHead_hdr]
    exact (hhdrs q hq).2.1

theorem Overgrown.old (O : Overgrown h h') {j : Nat} (hj : j < 2 ^ 28) : h'.hdr j = h.hdr j :=
  word_congr fun x _ hr => O.bytes x (by omega)

theorem grown_blocks (I : HeapInv h A F) (hsize : h.currentSizeBytes = 2 ^ 32)
    (hsize' : h'.currentSizeBytes = 2 ^ 33) (hold : ∀ j < 2 ^ 28, h'.hdr j = h.hdr j)
    (hnew : ∀ q < 2 ^ 21, order (h'.hdr (2 ^ 28 + q * 2 ^ 7)) = 7) :
    ∃ bs, h'.blocks = some bs ∧ (∀ i k, (i, k) ∈ bs → order (h'.hdr i) = k) ∧
      ∀ q < 2 ^ 21, (2 ^ 28 + q * 2 ^ 7, 7) ∈ bs := by
  have hcells : h.cells = 2 ^ 28 := by
    rw [cells, hsize]
    decide
  have hcells' : h'.cells = h.cells + 2 ^ 21 * 2 ^ 7 := by
    rw [hcells, cells, hsize']
    decide
  have ht := I.layout.tiles.grow I.layout.cells_aligned (2 ^ 21)
  rw [hcells] at ht hcells'
  have hord : ∀ {i k}, Starts A F i k ∨ k = 7 ∧ (∃ q < 2 ^ 21, i = 2 ^ 28 + q * 2 ^ 7) →
      order (h'.hdr i) = k := by
    rintro i k (hs | ⟨rfl, q, hq, rfl⟩)
    · rw [hold i (hcells ▸ I.layout.tiles.lt_cells hs)]
      exact I.layout.starts_order hs
    · exact hnew q hq
  obtain ⟨bs, hw, -, hm⟩ := ht.walk_zero (fun i => order (h'.hdr i)) hord
  rw [← hcells'] at hw
  exact ⟨bs, hw, fun i k hi => hord ((hm i k).mp hi),
    fun q hq => (hm _ _).mpr (.inr ⟨rfl, q, hq, rfl⟩)⟩

theorem Overgrown.blocks (I : HeapInv h A F) (hsize : h.currentSizeBytes = 2 ^ 32)
    (O : Overgrown h h') :
    ∃ bs, h'.blocks = some bs ∧ (∀ i k, (i, k) ∈ bs → order (h'.hdr i) = k) ∧
      ∀ q < 2 ^ 21, (2 ^ 28 + q * 2 ^ 7, 7) ∈ bs :=
  grown_blocks I hsize O.size (fun _ hj => O.old hj) O.orders

section Block128

variable (I : HeapInv h A F) (hsize : h.currentSizeBytes = 2 ^ 32) (O : Overgrown h h')
include I hsize O

theorem Overgrown.starts : ∃ l, Starts A F 128 l ∧ h'.hdr 128 = h.hdr 128 := by
  have hcells : h.cells = 2 ^ 28 := by
    rw [cells, hsize]
    decide
  obtain ⟨l, hl⟩ :=
    I.layout.tiles.aligned_start (n := 7) (c := 128) (by rw [hcells]; decide) (by decide)
  exact ⟨l, hl, O.old (by decide)⟩

theorem Overgrown.order_lt : order (h'.hdr 128) ≤ 7 := by
  obtain ⟨l, hl, he⟩ := O.starts I hsize
  rw [he, I.layout.starts_order hl]
  exact Nat.le_of_lt_succ (I.layout.tiles.order_lt hl)

theorem Overgrown.typed : ∃ t : BlockType, blockType (h'.hdr 128) = t.toU8 := by
  obtain ⟨l, hA | hF, he⟩ := O.starts I hsize
  · obtain ⟨t, -, ht⟩ := I.typed 128 l hA
    exact ⟨t, he ▸ ht⟩
  · exact ⟨.free, he ▸ I.layout.free_type hF⟩

theorem Overgrown.not_free (hF : F 7 = []) : ¬ (order (h'.hdr 128) = 7 ∧ h'.IsFree 128) := by
  rintro ⟨ho, hf⟩
  obtain ⟨l, hl, he⟩ := O.starts I hsize
  rw [he] at ho
  rw [IsFree, he] at hf
  obtain rfl := (I.layout.starts_order hl).symm.trans ho
  have hm := (I.isFree_iff hl).mp hf
  rw [hF] at hm
  cases hm

end Block128

/-- A mapping of `2 ^ 33` bytes, all zero. -/
def hugeMapping : Mapping := ⟨2 ^ 33, fun _ => 0⟩

theorem exists_overgrown (hr : Reach pinned start h R) (I : RunInv hugeMapping h R A F)
    (hsize : h.currentSizeBytes = pageSizeBytes) :
    ∃ h1 R1 A1 F1 h2 R2, RunInv hugeMapping h1 R1 A1 F1 ∧ h1.currentSizeBytes = 2 ^ 32 ∧ F1 7 = [] ∧
      Reach pinned start h2 R2 ∧ Overgrown h1 h2 := by
  obtain ⟨h1, R1, A1, F1, hr1, I1, hs1, hF1⟩ := exists_full (m := hugeMapping) rfl (2 ^ 28 + 1) hr I
    ⟨0, by decide, hsize⟩ (by omega)
  obtain ⟨h2, hrun, O⟩ := overgrow I1.inv I1.len hs1 hF1
  exact ⟨h1, R1, A1, F1, h2, _, I1, hs1, hF1, hr1.step (.allocate (by decide) (by decide) hrun), O⟩

/-- Without a bound on the mapping the lists are not exact: the list of order 7 leads to a block
that is not a free block of order 7. -/
theorem free_lists_inexact : ∃ h R, pageSizeBytes ∣ hugeMapping.len ∧
    Reach (· = 0) (Created hugeMapping) h R ∧ ∃ bs, h.blocks = some bs ∧
      ¬ ∃ l, Linked 0 h.next (h.freeHeadPerOrder 7) l ∧ ∀ i, i ∈ l ↔ (i, 7) ∈ bs ∧ h.IsFree i := by
  obtain ⟨h0, h, F, hnew, hcreate, -, -, hsize, -⟩ :=
    create_ok (m := hugeMapping) (by decide) (by decide)
  have hc : Created hugeMapping h (Function.update (fun _ => none) 0 (some 16)) :=
    ⟨h0, hnew, hcreate, rfl⟩
  obtain ⟨A, F, I⟩ := RunInv.of_created (by decide) (by decide) hc
  obtain ⟨h1, R1, A1, F1, h2, R2, I1, hs1, hF1, hr2, O⟩ :=
    exists_overgrown (Reach.start hc : Reach (· = 0) _ _ _) I hsize
  obtain ⟨bs, hbs, hord, -⟩ := O.blocks I1.inv hs1
  refine ⟨h2, R2, by decide, hr2, bs, hbs, ?_⟩
  rintro ⟨l, hl, hm⟩
  rw [O.head] at hl
  cases l with
  | nil => cases hl
  | cons a l =>
    obtain ⟨rfl, -⟩ := hl
    obtain ⟨hin, hfree⟩ := (hm 128).mp List.mem_cons_self
    exact O.not_free I1.inv hs1 hF1 ⟨hord _ _ hin, hfree⟩

/-- Without a bound on the mapping an allocation can fail although a free block is large enough. -/
theorem allocation_fails_early : ∃ h R, pageSizeBytes ∣ hugeMapping.len ∧
    Reach (fun _ => False) (Started hugeMapping) h R ∧ ∃ bs msg h', h.blocks = some bs ∧
      Heap.allocateBlock 2048 h = .error (.error msg) h' ∧ ∃ i, (i, 7) ∈ bs ∧ h.IsFree i := by
  obtain ⟨h, l, hnew, -, -, -, hsize, -⟩ := Heap.new_ok (m := hugeMapping) (by decide) (by decide)
  have hc : Started hugeMapping h (fun _ => none) := ⟨hnew, rfl⟩
  obtain ⟨A, F, I⟩ := RunInv.of_started (by decide) (by decide) hc
  obtain ⟨h1, R1, A1, F1, h2, R2, I1, hs1, hF1, hr2, O⟩ :=
    exists_overgrown (Reach.start hc : Reach (fun _ => False) _ _ _) I hsize
  obtain ⟨bs, hbs, -, hnewBlocks⟩ := O.blocks I1.inv hs1
  refine ⟨h2, R2, by decide, hr2, bs, "Heap already at maxium size", h2, hbs, ?_,
    2 ^ 28 + 1 * 2 ^ 7, hnewBlocks 1 (by decide), O.frees 1 (by decide) (by decide)⟩
  have hfind : Heap.findOrder h2 (List.range' 7 (numOrders - 7)) = .ok none := by
    obtain ⟨t, ht⟩ := O.typed I1.inv hs1
    have hno := O.not_free I1.inv hs1 hF1
    have hlt := O.order_lt I1.inv hs1
    have hp : 2 ^ order (h2.hdr 128) ≤ 2 ^ 7 := Nat.pow_le_pow_right (by decide) hlt
    have hfree := Heap.isFreeBlock_eq (h := h2) (i := 128) (by rw [O.size]; omega)
      (by rw [O.size, O.len]) ht 7
    rw [show List.range' 7 (numOrders - 7) = [7] from rfl, Heap.findOrder, O.head, hfree]
    have hd : decide (t = .free ∧ order (h2.hdr 128) = 7) = false := by
      refine decide_eq_false fun hboth => hno ⟨hboth.2, ?_⟩
      rw [IsFree, ht, hboth.1]
    rw [hd]
    rfl
  simp only [allocateBlock, Heap.compute_bind, (by decide : fitOrder 2048 = .ok 7),
    if_neg (by decide : ¬ numOrders ≤ 7), reading_bind, id, hfind, get_bind]
  refine bind_error ?_ _
  simp only [Heap.growHeap, get_bind, O.size, O.len]
  rfl

end Garnet.Inspect
