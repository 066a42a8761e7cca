import Garnet.Inspect.HeapInvariant
import Garnet.Inspect.State

/-! Runs of the heap: allocations, frees and writes of the owners, in any order. -/

namespace Garnet.Inspect
open List
open Function (update update_of_ne update_self)
open Tiling LinkedList BlockHeader

/-- The requested size of each block that was returned and not freed since. -/
abbrev Live := Nat → Option Nat

variable (h : Heap)

namespace Heap

def sizeAt (i : Nat) : Nat := orderToSize (order (h.hdr i))

/-- The blocks met from index 0 on, with their orders, when the walk ends at the end of the heap. -/
def blocks : Option (List (Nat × Nat)) :=
  walk (fun i => order (h.hdr i)) h.cells (h.cells + 1) 0

def IsFree (i : Nat) : Prop := blockType (h.hdr i) = BlockType.free.toU8

instance (i : Nat) : Decidable (h.IsFree i) :=
  inferInstanceAs (Decidable (blockType (h.hdr i) = BlockType.free.toU8))

/-- The free blocks of order `k`. -/
def freeBlocks (k : Nat) : List Nat :=
  ((h.blocks.getD []).map Prod.fst).filter fun i => order (h.hdr i) = k ∧ h.IsFree i

end Heap

/-- The owner of a block wrote into it. The order stays, and a new type is not `FREE`. -/
structure OwnerWrite (i : Nat) (h' : Heap) : Prop where
  size : h'.currentSizeBytes = h.currentSizeBytes
  len : h'.mapping.len = h.mapping.len
  heads : h'.freeHeadPerOrder = h.freeHeadPerOrder
  bytes : ∀ x, x < 16 * i ∨ 16 * i + h.sizeAt i ≤ x → h'.mapping.byte x = h.mapping.byte x
  order : order (h'.hdr i) = order (h.hdr i)
  type : blockType (h'.hdr i) = blockType (h.hdr i) ∨ Typed h' i

/-- One call or write. The blocks of `pinned` are never freed. -/
inductive Step (pinned : Nat → Prop) : Heap → Live → Heap → Live → Prop
  | allocate {h h' : Heap} {R : Live} {n i : Nat} : 16 ≤ n → n < 2 ^ 64 →
      Heap.allocateBlock n h = .ok i h' → Step pinned h R h' (update R i (some n))
  | allocateErr {h h' : Heap} {R : Live} {n : Nat} {msg : String} : 16 ≤ n → n < 2 ^ 64 →
      Heap.allocateBlock n h = .error (.error msg) h' → Step pinned h R h' R
  | free {h h' : Heap} {R : Live} {n i : Nat} : R i = some n → ¬ pinned i →
      Heap.freeBlock i h = .ok () h' → Step pinned h R h' (update R i none)
  | freeErr {h h' : Heap} {R : Live} {n i : Nat} {msg : String} : R i = some n → ¬ pinned i →
      Heap.freeBlock i h = .error (.error msg) h' → Step pinned h R h' R
  | write {h h' : Heap} {R : Live} {n i : Nat} : R i = some n → OwnerWrite h i h' → Step pinned h R h' R

inductive Reach (pinned : Nat → Prop) (start : Heap → Live → Prop) : Heap → Live → Prop
  | start {h : Heap} {R : Live} : start h R → Reach pinned start h R
  | step {h h' : Heap} {R R' : Live} : Reach pinned start h R → Step pinned h R h' R' →
      Reach pinned start h' R'

def Started (m : Mapping) (h : Heap) (R : Live) : Prop := Heap.new m = .ok h ∧ R = fun _ => none

/-- A new heap after `State::create`, which owns block 0. -/
def Created (m : Mapping) (h : Heap) (R : Live) : Prop :=
  ∃ h0, Heap.new m = .ok h0 ∧ State.create h0 = .ok () h ∧ R = update (fun _ => none) 0 (some 16)

/-- The live blocks are the ones outside the free lists, and large enough. -/
structure RunInv (m : Mapping) (h : Heap) (R : Live) (A : Used) (F : Lists) : Prop where
  inv : HeapInv h A F
  len : h.mapping.len = m.len
  live : ∀ i, A i = none ↔ R i = none
  fits : ∀ i k n, A i = some k → R i = some n → n ≤ 16 * 2 ^ k

section Runs
variable {m : Mapping} {h h' : Heap} {R R' : Live} {A : Used} {F F' : Lists} {i j k l n : Nat}
variable {pinned : Nat → Prop} {start : Heap → Live → Prop}

section
variable (I : HeapInv h A F)
include I

theorem HeapInv.blocks : ∃ bs, h.blocks = some bs ∧ ∀ i k, (i, k) ∈ bs ↔ Starts A F i k := by
  obtain ⟨bs, hw, -, hm⟩ := I.layout.tiles.walk_zero (fun i => order (h.hdr i))
    fun hs => I.layout.starts_order hs
  exact ⟨bs, hw, hm⟩

theorem HeapInv.blocks_sorted {bs : List (Nat × Nat)} (hbs : h.blocks = some bs) :
    (bs.map Prod.fst).Pairwise (· < ·) := by
  obtain ⟨bs', hw, hs, -⟩ := I.layout.tiles.walk_zero (fun i => order (h.hdr i))
    fun hs => I.layout.starts_order hs
  obtain rfl : bs' = bs := Option.some.inj (hw.symm.trans hbs)
  exact hs

theorem HeapInv.isFree_iff (hs : Starts A F i k) : h.IsFree i ↔ i ∈ F k := by
  refine ⟨fun hf => hs.resolve_left fun hA => ?_, fun hm => I.layout.free_type hm⟩
  obtain ⟨t, hne, ht⟩ := I.typed i k hA
  exact hne (BlockType.toU8_injective (ht.symm.trans hf))

theorem HeapInv.freeBlocks_perm (k : Nat) : (h.freeBlocks k).Perm (F k) := by
  obtain ⟨bs, hbs, hmem⟩ := I.blocks
  have hnd : (bs.map Prod.fst).Nodup := (I.blocks_sorted hbs).imp ne_of_lt
  rw [Heap.freeBlocks, hbs, Option.getD_some]
  refine (perm_ext_iff_of_nodup (hnd.filter _) (I.layout.nodup k)).mpr fun i => ?_
  simp only [mem_filter, mem_map, Prod.exists, exists_and_right, exists_eq_right, hmem,
    decide_eq_true_eq]
  constructor
  · rintro ⟨⟨l, hs⟩, ho, hf⟩
    rw [I.layout.starts_order hs] at ho
    exact ho ▸ (I.isFree_iff hs).mp hf
  · intro hi
    have hs : Starts A F i k := .inr hi
    exact ⟨⟨k, hs⟩, I.layout.starts_order hs, I.layout.free_type hi⟩

theorem HeapInv.isFree_iff_none (hs : Starts A F i k) : h.IsFree i ↔ A i = none := by
  rw [I.isFree_iff hs]
  refine ⟨fun hm => I.layout.apart hm, fun hA => hs.resolve_left ?_⟩
  rw [hA]
  exact Option.some_ne_none k ∘ Eq.symm

theorem HeapInv.sizeAt_eq (hs : Starts A F i k) : h.sizeAt i = 16 * 2 ^ k := by
  rw [Heap.sizeAt, I.layout.starts_order hs, orderToSize_eq]

theorem HeapInv.disjoint (hi : Starts A F i k) (hj : Starts A F j l) (hne : i ≠ j) :
    16 * i + h.sizeAt i ≤ 16 * j ∨ 16 * j + h.sizeAt j ≤ 16 * i := by
  have h1 := I.layout.tiles.disjoint hi hj hne (c := j)
  have h2 := I.layout.tiles.disjoint hj hi hne.symm (c := i)
  rw [I.sizeAt_eq hi, I.sizeAt_eq hj]
  by_contra hcon
  rcases lt_or_gt_of_ne hne with hlt | hlt
  · exact h1 ⟨by omega, by omega⟩ (covers_start j l)
  · exact h2 ⟨by omega, by omega⟩ (covers_start i k)

end

theorem HeapInv.write (I : HeapInv h A F) (hi : A i = some k) (W : OwnerWrite h i h') :
    HeapInv h' A F := by
  have hother : ∀ {j l}, Starts A F j l → j ≠ i → h'.hdr j = h.hdr j := by
    intro j l hj hne
    have hd := I.disjoint (.inl hi) hj hne.symm
    have hp := Nat.two_pow_pos l
    rw [I.sizeAt_eq hj] at hd
    exact word_congr fun x hl hr => W.bytes x (by omega)
  have hfree : ∀ j l, j ∈ F l → h'.hdr j = h.hdr j := fun j l hj =>
    hother (.inr hj) (I.layout.ne_of_mem hi hj)
  refine ⟨I.layout.write W.size W.len W.heads ?_ hfree, W.size ▸ I.size_pos, I.coalesced, ?_⟩
  · intro j l hj
    by_cases hji : j = i
    · subst j
      rw [W.order]
      exact I.layout.used_order hj
    · rw [hother (.inl hj) hji]
      exact I.layout.used_order hj
  · intro j l hj
    obtain ⟨t, hne, ht⟩ := I.typed j l hj
    by_cases hji : j = i
    · subst j
      rcases W.type with he | ht'
      · exact ⟨t, hne, he.trans ht⟩
      · exact ht'
    · exact ⟨t, hne, by rw [hother (.inl hj) hji, ht]⟩

section
variable (I : RunInv m h R A F)
include I

theorem RunInv.used (hi : R i = some n) : ∃ k, A i = some k := by
  refine Option.ne_none_iff_exists'.mp fun hn => ?_
  rw [(I.live i).mp hn] at hi
  cases hi

theorem RunInv.grows (hmax : m.len ≤ 2 ^ 32) :
    min h.mapping.len (h.currentSizeBytes * 2) ≤ 2 ^ 32 := by
  rw [I.len]
  omega

theorem RunInv.set {v w : Option Nat} (hinv : HeapInv h' (update A i v) F')
    (hlen : h'.mapping.len = h.mapping.len) (hnone : v = none ↔ w = none)
    (hfit : ∀ l q, v = some l → w = some q → q ≤ 16 * 2 ^ l) :
    RunInv m h' (update R i w) (update A i v) F' := by
  refine ⟨hinv, hlen.trans I.len, fun j => ?_, fun j l q hj hq => ?_⟩
  · by_cases hj : j = i
    · rw [hj, update_self, update_self]
      exact hnone
    · rw [update_of_ne hj, update_of_ne hj]
      exact I.live j
  · rcases update_eq_some.mp hj with ⟨rfl, hv⟩ | ⟨hne, hA⟩
    · rw [update_self] at hq
      exact hfit l q hv hq
    · rw [update_of_ne hne] at hq
      exact I.fits j l q hA hq

theorem RunInv.allocated (hal : Heap.Allocated h A F k i h' F') (hle : n ≤ 16 * 2 ^ k) :
    RunInv m h' (update R i (some n)) (update A i (some k)) F' := by
  refine I.set hal.inv hal.frame.len (by simp) ?_
  rintro _ _ ⟨⟩ ⟨⟩
  exact hle

theorem RunInv.allocate (hpage : pageSizeBytes ∣ m.len)
    (hmax : min h.mapping.len (h.currentSizeBytes * 2) ≤ 2 ^ 32) (h16 : 16 ≤ n) (h64 : n < 2 ^ 64)
    (hrun : Heap.allocateBlock n h = .ok i h') :
    ∃ A' F', RunInv m h' (update R i (some n)) A' F' := by
  rcases Heap.allocateBlock_cases I.inv h16 (le_of_lt h64) (I.len ▸ hpage) hmax with
    ⟨i', h1, F', k, hrun', hal, -, hle, -⟩ | ⟨msg, hrun', -⟩ <;> rw [hrun] at hrun' <;> cases hrun'
  exact ⟨_, F', I.allocated hal hle⟩

theorem RunInv.free (hi : R i = some n) :
    ∃ h', Heap.freeBlock i h = .ok () h' ∧ ∃ A' F', RunInv m h' (update R i none) A' F' := by
  obtain ⟨k, hA⟩ := I.used hi
  obtain ⟨h1, F', hrun, hinv, hfr, -⟩ := Heap.freeBlock_ok I.inv hA
  exact ⟨h1, hrun, _, F', I.set hinv hfr.len Iff.rfl nofun⟩

theorem RunInv.step (hpage : pageSizeBytes ∣ m.len)
    (hmax : min h.mapping.len (h.currentSizeBytes * 2) ≤ 2 ^ 32) (s : Step pinned h R h' R') :
    ∃ A' F', RunInv m h' R' A' F' := by
  cases s with
  | allocate h16 h64 hrun => exact I.allocate hpage hmax h16 h64 hrun
  | allocateErr h16 h64 hrun =>
    rcases Heap.allocateBlock_cases I.inv h16 (le_of_lt h64) (I.len ▸ hpage) hmax with
      ⟨_, _, _, _, hrun', -⟩ | ⟨_, hrun', -⟩ <;> rw [hrun] at hrun' <;> cases hrun'
    exact ⟨A, F, I⟩
  | free hi _ hrun =>
    obtain ⟨h1, hrun', hI⟩ := I.free hi
    rw [hrun] at hrun'
    cases hrun'
    exact hI
  | freeErr hi _ hrun =>
    obtain ⟨h1, hrun', -⟩ := I.free hi
    rw [hrun] at hrun'
    cases hrun'
  | write hi W =>
    obtain ⟨k, hA⟩ := I.used hi
    exact ⟨A, F, I.inv.write hA W, W.len.trans I.len, I.live, I.fits⟩

end

theorem RunInv.reach (hpage : pageSizeBytes ∣ m.len) (hmax : m.len ≤ 2 ^ 32)
    (hstart : ∀ h R, start h R → ∃ A F, RunInv m h R A F) (hr : Reach pinned start h R) :
    ∃ A F, RunInv m h R A F := by
  induction hr with
  | start hs => exact hstart _ _ hs
  | step _ hstep ih =>
    obtain ⟨A, F, I⟩ := ih
    exact I.step hpage (I.grows hmax) hstep

theorem RunInv.of_started (hpos : 0 < m.len) (hpage : pageSizeBytes ∣ m.len) (hs : Started m h R) :
    ∃ A F, RunInv m h R A F := by
  obtain ⟨h0, l, hnew, -, hinv, hlen, -⟩ := Heap.new_ok hpos hpage
  obtain ⟨hnew', rfl⟩ := hs
  rw [hnew] at hnew'
  cases hnew'
  exact ⟨_, _, hinv, hlen, fun _ => Iff.rfl, fun _ _ _ hA => by cases hA⟩

/-- The header word that `become_header` writes. -/
def headerWord : Nat := setHeaderVersion (setHeaderMagic (setBlockType (setOrder 0 0)
  BlockType.header.toU8) headerMagicNumber) headerVersionNumber

theorem order_headerWord : order headerWord = 0 := by decide

theorem blockType_headerWord : blockType headerWord = BlockType.header.toU8 := by decide

theorem becomeHeader_eq {m : Mapping} (hlen : 16 ≤ m.len)
    (ht : blockType (hdr m.byte 0) = BlockType.reserved.toU8) :
    Block.becomeHeader m 0 = .ok ((m.putHdr 0 headerWord).putPay 0 0) := by
  simp only [Block.becomeHeader, Block.checkType_eq (s := m) (i := 0)
    (by simp only [ReadableBlockContainer.len]; omega) ht, ok_bind]
  rw [Block.writeHeader_eq (by simp only [headerIndex]; omega), ok_bind]
  exact Block.writePayload_eq (by simp only [headerIndex, Mapping.putHdr_len]; omega) 0

theorem create_ok (hpos : 0 < m.len) (hpage : pageSizeBytes ∣ m.len) :
    ∃ h0 h F, Heap.new m = .ok h0 ∧ State.create h0 = .ok () h ∧
      HeapInv h (update (fun _ => none) 0 (some 0)) F ∧ h.mapping.len = m.len ∧
      h.currentSizeBytes = pageSizeBytes ∧ h.hdr 0 = headerWord ∧ pay h.mapping.byte 0 = 0 ∧
      ∀ x, pageSizeBytes ≤ x → h.mapping.byte x = m.byte x := by
  obtain ⟨h0, l, hnew, hl, I0, hlen, hsize, hhead, htail⟩ := Heap.new_ok hpos hpage
  have hfound : Heap.firstOrder (update (fun _ => []) 7 l) 0 = some 7 := by
    obtain ⟨a, l, rfl⟩ := exists_cons_of_ne_nil hl
    rfl
  obtain ⟨h1, F1, hrun, hal, hsize1, -⟩ := Heap.carve_ok I0 (k := 7) (m := 0)
    (by rw [update_self]; exact hl) (by decide)
  rw [hhead] at hrun hal
  have h16 : 16 ≤ h1.mapping.len := by
    have := hal.inv.layout.size_le
    have := hsize1.trans hsize
    simp only [pageSizeBytes] at this
    omega
  have hbe := becomeHeader_eq h16 hal.reserved
  have hhdr : (h1.withMapping ((h1.mapping.putHdr 0 headerWord).putPay 0 0)).hdr 0 = headerWord := by
    rw [Heap.hdr, Heap.withMapping_mapping, Mapping.hdr_putPay, Mapping.hdr_putHdr_self]
    decide
  have hone : update (fun _ => none) 0 (some 0) 0 = some 0 := update_self ..
  have hother : ∀ x, 16 ≤ x → ((h1.mapping.putHdr 0 headerWord).putPay 0 0).byte x =
      h1.mapping.byte x :=
    fun x hx => (Mapping.putPay_byte (by omega)).trans (Mapping.putHdr_byte (by omega))
  have W : OwnerWrite h1 0 (h1.withMapping ((h1.mapping.putHdr 0 headerWord).putPay 0 0)) := by
    refine ⟨rfl, rfl, rfl, ?_, ?_, .inr ⟨.header, by decide, ?_⟩⟩
    · intro x hx
      rw [hal.inv.sizeAt_eq (.inl hone)] at hx
      exact hother x (by omega)
    · rw [hhdr, order_headerWord]
      exact (hal.inv.layout.used_order hone).symm
    · rw [hhdr, blockType_headerWord]
  refine ⟨h0, _, F1, hnew, ?_, hal.inv.write hone W, hal.frame.len.trans hlen, hsize1.trans hsize,
    hhdr, ?_, ?_⟩
  · have halloc := (Heap.allocateBlock_found I0 (n := 16) (m := 0) rfl (by decide) hfound).trans hrun
    rw [State.create, bind_ok halloc]
    simp only [Heap.onBlock, writing, hbe]
  · rw [Heap.withMapping_mapping, Mapping.pay_putPay_self, Nat.zero_mod]
  · intro x hx
    rw [Heap.withMapping_mapping, hother x (le_trans (by decide) hx),
      hal.frame.tail (by rw [hsize1, hsize]; exact hx), htail x hx]

theorem RunInv.of_created (hpos : 0 < m.len) (hpage : pageSizeBytes ∣ m.len) (hs : Created m h R) :
    ∃ A F, RunInv m h R A F := by
  obtain ⟨h0, h1, F, hnew, hcreate, I, hlen, -⟩ := create_ok hpos hpage
  obtain ⟨h0', hnew', hcreate', rfl⟩ := hs
  rw [hnew] at hnew'
  cases hnew'
  rw [hcreate] at hcreate'
  cases hcreate'
  refine ⟨_, F, I, hlen, fun i => ?_, fun i k n hA hR => ?_⟩
  · by_cases hi : i = 0 <;> simp [hi]
  · obtain ⟨rfl, hk⟩ := (update_eq_some.mp hA).resolve_right fun h => nomatch h.2
    rw [update_self] at hR
    cases hk
    cases hR
    decide

def Returns {α : Type} (r : EStateM.Result Fault Heap α) : Prop :=
  (∃ a h', r = .ok a h') ∨ ∃ msg h', r = .error (.error msg) h'

theorem RunInv.returns (I : RunInv m h R A F) (hpage : pageSizeBytes ∣ m.len)
    (hmax : m.len ≤ 2 ^ 32) (h16 : 16 ≤ n) (h64 : n < 2 ^ 64) :
    Returns (Heap.allocateBlock n h) := by
  rcases Heap.allocateBlock_cases I.inv h16 (le_of_lt h64) (I.len ▸ hpage) (I.grows hmax) with
    ⟨i, h', _, _, hrun, -⟩ | ⟨msg, hrun, -⟩
  · exact .inl ⟨i, h', hrun⟩
  · exact .inr ⟨msg, h, hrun⟩

/-- In every state of every run of a heap, the walk over the blocks tiles the heap, the blocks
that are not free are the live ones, and the live ones are disjoint and as large as requested. -/
theorem live_blocks_tile {m : Mapping} (hpos : 0 < m.len) (hpage : pageSizeBytes ∣ m.len)
    (hmax : m.len < 2 ^ 32) {h : Heap} {R : Live} (hr : Reach (fun _ => False) (Started m) h R) :
    (∃ bs, h.blocks = some bs ∧
      (∀ i k, (i, k) ∈ bs → k < numOrders ∧ 2 ^ k ∣ i ∧ (¬ h.IsFree i ↔ R i ≠ none)) ∧
      ∀ i, R i ≠ none → ∃ k, (i, k) ∈ bs) ∧
    (∀ i n, R i = some n → n ≤ h.sizeAt i ∧ 16 * i + h.sizeAt i ≤ m.len) ∧
    (∀ i j, R i ≠ none → R j ≠ none → i ≠ j →
      16 * i + h.sizeAt i ≤ 16 * j ∨ 16 * j + h.sizeAt j ≤ 16 * i) ∧
    (∀ n, 16 ≤ n → n < 2 ^ 64 → Returns (Heap.allocateBlock n h)) ∧
    ∀ i, R i ≠ none → ∃ h', Heap.freeBlock i h = .ok () h' := by
  obtain ⟨A, F, I⟩ := RunInv.reach hpage (le_of_lt hmax)
    (fun h R hs => RunInv.of_started hpos hpage hs) hr
  have hused : ∀ {i}, R i ≠ none → ∃ k, A i = some k := fun hi =>
    let ⟨_, hn⟩ := Option.ne_none_iff_exists'.mp hi
    I.used hn
  obtain ⟨bs, hbs, hmem⟩ := I.inv.blocks
  refine ⟨⟨bs, hbs, ?_, ?_⟩, ?_, ?_, ?_, ?_⟩
  · intro i k hi
    have hs := (hmem i k).mp hi
    refine ⟨I.inv.layout.tiles.order_lt hs, I.inv.layout.tiles.aligned hs, ?_⟩
    rw [I.inv.isFree_iff_none hs, I.live i]
  · intro i hi
    obtain ⟨k, hA⟩ := hused hi
    exact ⟨k, (hmem i k).mpr (.inl hA)⟩
  · intro i n hi
    obtain ⟨k, hA⟩ := I.used hi
    have hb := I.inv.layout.bound (.inl hA)
    have hle := I.inv.layout.size_le
    rw [I.len] at hle
    rw [I.inv.sizeAt_eq (.inl hA)]
    exact ⟨I.fits i k n hA hi, le_trans hb hle⟩
  · intro i j hi hj hne
    obtain ⟨k, hA⟩ := hused hi
    obtain ⟨l, hB⟩ := hused hj
    exact I.inv.disjoint (.inl hA) (.inl hB) hne
  · intro n h16 h64
    exact I.returns hpage (le_of_lt hmax) h16 h64
  · intro i hi
    obtain ⟨n, hn⟩ := Option.ne_none_iff_exists'.mp hi
    obtain ⟨h', hrun, -⟩ := I.free hn
    exact ⟨h', hrun⟩

def onePage : Mapping := ⟨4096, fun _ => 0⟩

theorem exists_created : ∃ h, Created onePage h (update (fun _ => none) 0 (some 16)) := by
  obtain ⟨h0, h, F, hnew, hcreate, -⟩ := create_ok (m := onePage) (by decide) (by decide)
  exact ⟨h, h0, hnew, hcreate, rfl⟩

theorem exists_allocated : ∃ h i, Reach (fun _ => False) (Started onePage) h
    (update (fun _ => none) i (some 100)) := by
  obtain ⟨h, l, hnew, hl, I, hlen, -⟩ := Heap.new_ok (m := onePage) (by decide) (by decide)
  have hpage : pageSizeBytes ∣ h.mapping.len := by
    rw [hlen]
    exact dvd_refl _
  have hmax : min h.mapping.len (h.currentSizeBytes * 2) ≤ 2 ^ 32 := by
    rw [hlen]
    exact le_trans (min_le_left ..) (by decide)
  obtain ⟨i, h', F', hrun, -⟩ := Heap.allocateBlock_ok I (n := 100) (m := 3) rfl (by decide)
    (.inl ⟨7, by decide, by rw [update_self]; exact hl⟩) hpage fun _ => hmax
  exact ⟨h', i, .step (.start ⟨hnew, rfl⟩) (.allocate (by decide) (by decide) hrun)⟩

theorem live_blocks_tile_one_block : ∃ h i,
    Reach (fun _ => False) (Started onePage) h (update (fun _ => none) i (some 100)) ∧
    100 ≤ h.sizeAt i ∧ 16 * i + h.sizeAt i ≤ 4096 := by
  obtain ⟨h, i, hr⟩ := exists_allocated
  exact ⟨h, i, hr, (live_blocks_tile (by decide) (by decide) (by decide) hr).2.1 i 100
    (update_self ..)⟩

theorem pinned_live (hstart : ∀ {h R}, start h R → R 0 ≠ none)
    (hr : Reach (· = 0) start h R) : R 0 ≠ none := by
  induction hr with
  | start hs => exact hstart hs
  | step _ hstep ih =>
    cases hstep with
    | allocate _ _ _ =>
      rename_i i _ _ _
      by_cases hi : 0 = i
      · subst hi
        simp
      · rw [update_of_ne hi]
        exact ih
    | allocateErr _ _ _ => exact ih
    | free _ hp _ =>
      rw [update_of_ne (Ne.symm hp)]
      exact ih
    | freeErr _ _ _ | write _ _ => exact ih

/-- In every state of every run from `State::create` the links of each order lead through
exactly the free blocks of that order. -/
theorem free_lists_exact {m : Mapping} (hpos : 0 < m.len) (hpage : pageSizeBytes ∣ m.len)
    (hmax : m.len ≤ 2 ^ 32) {h : Heap} {R : Live} (hr : Reach (· = 0) (Created m) h R) :
    ∃ bs, h.blocks = some bs ∧
      (∀ k < numOrders, ∃ l, Linked 0 h.next (h.freeHeadPerOrder k) l ∧ 0 ∉ l ∧ l.Nodup ∧
        ∀ i, i ∈ l ↔ (i, k) ∈ bs ∧ h.IsFree i) ∧
      (∀ i k, (i, k) ∈ bs → h.IsFree i → ∃ h', Heap.removeFree i h = .ok true h') ∧
      (∀ n, 16 ≤ n → n < 2 ^ 64 → Returns (Heap.allocateBlock n h)) ∧
      ∀ i, R i ≠ none → ∃ h', Heap.freeBlock i h = .ok () h' := by
  obtain ⟨A, F, I⟩ := RunInv.reach hpage hmax (fun h R hs => RunInv.of_created hpos hpage hs) hr
  have h0 : R 0 ≠ none := pinned_live (fun hs => by obtain ⟨_, _, _, rfl⟩ := hs; simp) hr
  obtain ⟨bs, hbs, hmem⟩ := I.inv.blocks
  refine ⟨bs, hbs, ?_, ?_, fun n h16 h64 => I.returns hpage hmax h16 h64, ?_⟩
  · intro k hk
    refine ⟨F k, I.inv.layout.links k hk, ?_, I.inv.layout.nodup k, ?_⟩
    · intro hz
      exact h0 ((I.live 0).mp (I.inv.layout.apart hz))
    · intro i
      rw [hmem]
      refine ⟨fun hi => ⟨.inr hi, I.inv.layout.free_type hi⟩, ?_⟩
      rintro ⟨hs, hf⟩
      exact (I.inv.isFree_iff hs).mp hf
  · intro i k hi hf
    have hs := (hmem i k).mp hi
    obtain ⟨h', hrun, -⟩ := Heap.removeFree_ok I.inv.layout ((I.inv.isFree_iff hs).mp hf)
    exact ⟨h', hrun⟩
  · intro i hi
    obtain ⟨n, hn⟩ := Option.ne_none_iff_exists'.mp hi
    obtain ⟨h', hrun, -⟩ := I.free hn
    exact ⟨h', hrun⟩

theorem free_lists_exact_created : ∃ h bs,
    Created onePage h (update (fun _ => none) 0 (some 16)) ∧ h.blocks = some bs ∧
    ∀ k < numOrders, ∃ l, Linked 0 h.next (h.freeHeadPerOrder k) l ∧ 0 ∉ l ∧ l.Nodup ∧
      ∀ i, i ∈ l ↔ (i, k) ∈ bs ∧ h.IsFree i := by
  obtain ⟨h, hc⟩ := exists_created
  obtain ⟨bs, hbs, hlists, -⟩ := free_lists_exact (by decide) (by decide) (by decide) (.start hc)
  exact ⟨h, bs, hc, hbs, hlists⟩

/-- In every state of every run free buddies are merged, an allocation fails exactly when it
must, and a heap without live blocks has only free blocks of the largest order. -/
theorem coalescing_complete {m : Mapping} (hpos : 0 < m.len) (hpage : pageSizeBytes ∣ m.len)
    (hmax : m.len ≤ 2 ^ 32) {h : Heap} {R : Live} (hr : Reach (fun _ => False) (Started m) h R) :
    ∃ bs, h.blocks = some bs ∧
      (∀ i k b, k < 7 → (i, k) ∈ bs → Heap.buddy i k = .ok b → (b, k) ∈ bs →
        ¬ (h.IsFree i ∧ h.IsFree b)) ∧
      (∀ n, 16 ≤ n → n < 2 ^ 64 →
        ((∃ msg h', Heap.allocateBlock n h = .error (.error msg) h') ↔
          2048 < n ∨ ∃ f, fitOrder n = .ok f ∧
            (∀ i k, (i, k) ∈ bs → f ≤ k → ¬ h.IsFree i) ∧ h.currentSizeBytes = h.mapping.len)) ∧
      (∀ n e h', 16 ≤ n → n < 2 ^ 64 → Heap.allocateBlock n h = .error e h' → h' = h) ∧
      ((∀ i, R i = none) → ∀ i k, (i, k) ∈ bs → k = 7 ∧ h.IsFree i) := by
  obtain ⟨A, F, I⟩ := RunInv.reach hpage hmax (fun h R hs => RunInv.of_started hpos hpage hs) hr
  obtain ⟨bs, hbs, hmem⟩ := I.inv.blocks
  have L := I.inv.layout
  have hcases := fun {n} (h16 : 16 ≤ n) (h64 : n < 2 ^ 64) =>
    Heap.allocateBlock_cases I.inv h16 (le_of_lt h64) (I.len ▸ hpage) (I.grows hmax)
  have hfree : ∀ {f : Nat}, (∀ k, f ≤ k → k < numOrders → F k = []) ↔
      ∀ i k, (i, k) ∈ bs → f ≤ k → ¬ h.IsFree i := by
    intro f
    constructor
    · intro hF i k hi hfk hf
      have hs := (hmem i k).mp hi
      have hm := (I.inv.isFree_iff hs).mp hf
      rw [hF k hfk (L.order_lt_of_mem hm)] at hm
      cases hm
    · intro hno k hfk _
      refine eq_nil_iff_forall_not_mem.mpr fun i hi => ?_
      exact hno i k ((hmem i k).mpr (.inr hi)) hfk (L.free_type hi)
  have hexh : ∀ {n}, Heap.Exhausted h F n ↔ ∃ f, fitOrder n = .ok f ∧
      (∀ i k, (i, k) ∈ bs → f ≤ k → ¬ h.IsFree i) ∧ h.currentSizeBytes = h.mapping.len := by
    intro n
    simp only [Heap.Exhausted, hfree]
  refine ⟨bs, hbs, ?_, ?_, ?_, ?_⟩
  · rintro i k b hk hi hb hbm ⟨hfi, hfb⟩
    rw [Heap.buddy_ok (by omega)] at hb
    cases hb
    have hmi := (I.inv.isFree_iff ((hmem i k).mp hi)).mp hfi
    have hmb := (I.inv.isFree_iff ((hmem _ k).mp hbm)).mp hfb
    exact I.inv.coalesced k hk i hmi hmb
  · intro n h16 h64
    rw [← hexh]
    rcases hcases h16 h64 with ⟨i, h', _, _, hrun, -, -, -, hno⟩ | ⟨msg, hrun, hyes⟩
    · refine ⟨?_, fun hyes => absurd hyes hno⟩
      rintro ⟨msg, h1, herr⟩
      rw [hrun] at herr
      cases herr
    · exact ⟨fun _ => hyes, fun _ => ⟨msg, h, hrun⟩⟩
  · intro n e h' h16 h64 herr
    rcases hcases h16 h64 with ⟨i, h1, _, _, hrun, -⟩ | ⟨msg, hrun, -⟩ <;> rw [hrun] at herr <;>
      cases herr
    rfl
  · intro hnone i k hi
    have hA : ∀ i, A i = none := fun i => (I.live i).mpr (hnone i)
    have hin : ∀ {i k}, Starts A F i k → i ∈ F k := fun hs => hs.resolve_left (by simp [hA])
    have hs := (hmem i k).mp hi
    refine ⟨?_, L.free_type (hin hs)⟩
    refine L.tiles.order_eq_of_no_buddies L.cells_aligned ?_ hs
    intro j l hl hj hb
    exact I.inv.coalesced l hl j (hin hj) (hin hb)

/-- Blocks of 16 and of 100 bytes in a heap of one page. -/
def twoBlocks : Option (Nat × Nat × Heap) :=
  match Heap.new onePage with
  | .error _ => none
  | .ok h => match Heap.allocateBlock 16 h with
    | .error _ _ => none
    | .ok i h1 => match Heap.allocateBlock 100 h1 with
      | .error _ _ => none
      | .ok j h2 => some (i, j, h2)

theorem exists_two_blocks : ∃ h i j, h.sizeAt i = 16 ∧ h.sizeAt j = 128 ∧
    Reach (fun _ => False) (Started onePage) h
      (update (update (fun _ => none) i (some 16)) j (some 100)) := by
  have hsizes : twoBlocks.any (fun (i, j, h) => h.sizeAt i == 16 && h.sizeAt j == 128) = true := by
    decide +kernel
  obtain ⟨⟨i, j, h⟩, hsome, htest⟩ := (Option.any_eq_true _ _).mp hsizes
  simp only [Bool.and_eq_true, beq_iff_eq] at htest
  unfold twoBlocks at hsome
  split at hsome
  next => cases hsome
  next h0 hnew =>
    split at hsome
    next => cases hsome
    next i0 h1 hfirst =>
      split at hsome
      next => cases hsome
      next j0 h2 hsecond =>
        cases hsome
        exact ⟨_, _, _, htest.1, htest.2,
          ((Reach.start ⟨hnew, rfl⟩).step (.allocate (by decide) (by decide)
          hfirst)).step (.allocate (by decide) (by decide) hsecond)⟩

/-- The two blocks, of different orders, are freed, and the page is whole again. -/
theorem coalescing_complete_merged : ∃ h i j, h.sizeAt i = 16 ∧ h.sizeAt j = 128 ∧
    Reach (fun _ => False) (Started onePage) h
      (update (update (fun _ => none) i (some 16)) j (some 100)) ∧
    ∃ h1 h2 bs, Heap.freeBlock i h = .ok () h1 ∧ Heap.freeBlock j h1 = .ok () h2 ∧
      h2.blocks = some bs ∧
      ∀ i k, (i, k) ∈ bs → k = 7 ∧ h2.IsFree i := by
  obtain ⟨h, i, j, hi, hj, hr⟩ := exists_two_blocks
  have hne : i ≠ j := by
    rintro rfl
    exact nomatch hi.symm.trans hj
  obtain ⟨A, F, I⟩ := RunInv.reach (m := onePage) (by decide) (by decide)
    (fun h R hs => RunInv.of_started (by decide) (by decide) hs) hr
  obtain ⟨h1, hfirst, A1, F1, I1⟩ := I.free (i := i) (n := 16) (by rw [update_of_ne hne, update_self])
  obtain ⟨h2, hsecond, -⟩ := I1.free (i := j) (n := 100) (by rw [update_of_ne hne.symm, update_self])
  have hr2 := (hr.step (.free (by rw [update_of_ne hne, update_self]) id hfirst)).step
    (.free (by rw [update_of_ne hne.symm, update_self]) id hsecond)
  obtain ⟨bs, hbs, -, -, -, hall⟩ := coalescing_complete (by decide) (by decide) (by decide) hr2
  refine ⟨h, i, j, hi, hj, hr, h1, h2, bs, hfirst, hsecond, hbs, hall fun e => ?_⟩
  simp only [Function.update_apply]
  split_ifs <;> rfl

end Runs

end Garnet.Inspect
