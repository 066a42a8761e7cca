import Garnet.Inspect.HeapSpec

/-! The invariant of the heap between two calls, and that `allocate_block` and `free_block`
keep it. -/

namespace Garnet.Inspect
open List
open Function (update update_idem update_of_ne update_self)
open Tiling LinkedList BlockHeader

/-- Two free buddies are a pair with the block at `i`. -/
def CoalescedBut (i : Nat) (F : Lists) : Prop :=
  ∀ k < 7, ∀ j ∈ F k, Tiling.buddy j k ∈ F k → j = i ∨ Tiling.buddy j k = i

def Coalesced (F : Lists) : Prop := ∀ k < 7, ∀ j ∈ F k, Tiling.buddy j k ∉ F k

/-- The block has a type other than `FREE`. -/
def Typed (h : Heap) (i : Nat) : Prop := ∃ t : BlockType, t ≠ .free ∧ blockType (h.hdr i) = t.toU8

structure HeapInv (h : Heap) (A : Used) (F : Lists) : Prop where
  layout : Layout h A F
  size_pos : 0 < h.currentSizeBytes
  coalesced : Coalesced F
  typed : ∀ i k, A i = some k → Typed h i

variable {h h' : Heap} {A : Used} {F : Lists} {i j k l m : Nat}

theorem Typed.frame (hf : Frame A h h') (hi : A i = some k) (ht : Typed h i) : Typed h' i := by
  obtain ⟨t, hne, ht⟩ := ht
  exact ⟨t, hne, by rw [hf.hdr_eq hi, ht]⟩

section Lists

theorem CoalescedBut.split {b : Nat} (hb : Tiling.buddy i k = b) (hc : CoalescedBut i F) :
    CoalescedBut i (update (update F (k + 1) ((F (k + 1)).erase i)) k
      (i :: b :: F k)) := by
  intro l hl j hj hbj
  by_cases hlk : l = k
  · subst l
    rw [update_self, mem_cons, mem_cons] at hj hbj
    rcases hj with rfl | rfl | hj
    · exact .inl rfl
    · right
      rw [← hb, buddy_buddy]
    · rcases hbj with he | he | hbj
      · exact .inr he
      · left
        rw [← buddy_buddy j k, he, ← hb, buddy_buddy]
      · exact hc k hl j hj hbj
  · rw [update_of_ne hlk] at hj hbj
    by_cases hlk1 : l = k + 1
    · subst l
      rw [update_self] at hj hbj
      exact hc (k + 1) hl j (mem_of_mem_erase hj) (mem_of_mem_erase hbj)
    · rw [update_of_ne hlk1] at hj hbj
      exact hc l hl j hj hbj

theorem CoalescedBut.erase (L : Layout h A F) (hi : i ∈ F k) (hc : CoalescedBut i F) :
    Coalesced (update F k ((F k).erase i)) := by
  intro l hl j hj hbj
  obtain ⟨hj1, hj2⟩ := (L.mem_erase hi).mp hj
  obtain ⟨hb1, hb2⟩ := (L.mem_erase hi).mp hbj
  exact (hc l hl j hj1 hb1).elim hj2 hb2

theorem Coalesced.cons (hc : Coalesced F) (hb : k < 7 → Tiling.buddy i k ∉ F k) (ha : 2 ^ k ∣ i) :
    Coalesced (update F k (i :: F k)) := by
  intro l hl j hj hbj
  rcases mem_update_cons.mp hj with ⟨rfl, rfl⟩ | hF
  · rcases mem_update_cons.mp hbj with ⟨he, _⟩ | hbF
    · exact buddy_ne ha he
    · exact hb hl hbF
  · rcases mem_update_cons.mp hbj with ⟨he, rfl⟩ | hbF
    · refine hb hl ?_
      rw [← he, buddy_buddy]
      exact hF
    · exact hc l hl j hF hbF

end Lists

namespace Heap

section Allocate

theorem findOrder_ok (I : HeapInv h A F) (ks : List Nat) (hks : ∀ k ∈ ks, k < numOrders) :
    findOrder h ks = .ok (ks.find? fun k => !(F k).isEmpty) := by
  induction ks with
  | nil => rfl
  | cons k ks ih =>
    have hhead := (I.layout.links k (hks k mem_cons_self)).head_eq
    rw [findOrder, List.find?_cons, ih fun j hj => hks j (mem_cons_of_mem k hj)]
    cases hF : F k with
    | nil =>
      rw [hhead, hF]
      have hfree : isFreeBlock h 0 k = .ok false := by
        obtain ⟨l, hA | hl⟩ := I.layout.tiles.zero_start (I.layout.cells_pos I.size_pos)
        · obtain ⟨t, hne, ht⟩ := I.typed 0 l hA
          rw [isFreeBlock_ok I.layout (.inl hA) ht]
          simp [hne]
        · have hlk : l ≠ k := by
            rintro rfl
            rw [hF] at hl
            cases hl
          rw [isFreeBlock_ok I.layout (.inr hl) (I.layout.free_type hl)]
          simp [hlk]
      simp [hfree]
    | cons a l =>
      rw [hhead, hF, headD_cons, isFreeBlock_of_mem I.layout (hF ▸ mem_cons_self)]
      simp

theorem splitLoop_ok (L : Layout h A F) (hi : i ∈ F k) (hmk : m ≤ k) (hc : CoalescedBut i F)
    (fuel : Nat) (hf : k < m + fuel) : ∃ h' F', splitLoop fuel i m h = .ok () h' ∧ Layout h' A F' ∧
      i ∈ F' m ∧ CoalescedBut i F' ∧ Frame A h h' ∧ h'.currentSizeBytes = h.currentSizeBytes ∧
      (∀ j l, j ∈ F l → ∃ l', j ∈ F' l') ∧ (k = m → F' = F) ∧
      h.Writes (fun j => ∃ l, j ∈ F' l) h' := by
  induction fuel generalizing h F k with
  | zero => omega
  | succ fuel ih =>
    simp only [splitLoop, block_bind, order_ok L (.inr hi)]
    by_cases hlt : m < k
    · obtain ⟨k, rfl⟩ : ∃ l, k = l + 1 := ⟨k - 1, by omega⟩
      obtain ⟨h1, hrun, L1, fr1, hsize, hw1⟩ := splitBlock_ok L hi
      have hb : Tiling.buddy i k = i + 2 ^ k := buddy_of_aligned (L.tiles.aligned (.inr hi))
      obtain ⟨h2, F2, hrun2, L2, hi2, hc2, fr2, hsize2, hkeep, -, hw2⟩ := ih L1 (k := k)
        (by rw [update_self]; exact mem_cons_self) (by omega) (hc.split hb) (by omega)
      rw [if_pos hlt, bind_ok hrun]
      -- the blocks of the lists before the split are still in some list
      have hold : ∀ j l, j ∈ F l → ∃ l', j ∈ F2 l' := by
        intro j l hj
        by_cases hji : j = i
        · exact ⟨m, hji ▸ hi2⟩
        · refine hkeep j l ?_
          by_cases hlk : l = k
          · subst l
            rw [update_self]
            exact mem_cons_of_mem _ (mem_cons_of_mem _ hj)
          · rw [update_of_ne hlk]
            by_cases hlk1 : l = k + 1
            · subst l
              rw [update_self]
              exact (mem_erase_of_ne hji).mpr hj
            · rwa [update_of_ne hlk1]
      refine ⟨h2, F2, hrun2, L2, hi2, hc2, fr1.trans fr2, hsize2.trans hsize, hold, by omega, ?_⟩
      refine (hw1.mono ?_).trans hw2
      rintro j (hj | rfl)
      · exact hold j _ hj
      · refine hkeep _ k ?_
        rw [update_self]
        exact mem_cons_of_mem _ mem_cons_self
    · obtain rfl : m = k := by omega
      rw [if_neg hlt]
      exact ⟨h, F, rfl, L, hi, hc, Frame.refl A h, rfl, fun _ l hj => ⟨l, hj⟩, fun _ => rfl,
        Writes.refl _ h⟩

theorem becomeReserved_bind {β : Type} (hb : 16 * i + 8 ≤ h.mapping.len)
    (ht : blockType (h.hdr i) = BlockType.free.toU8) (g : Unit → HeapM β) :
    (unwrapS (onBlock (Block.becomeReserved · i)) >>= g) h =
      g () (h.putHdr i (setBlockType (h.hdr i) BlockType.reserved.toU8)) := by
  refine bind_ok (unwrapS_ok ?_) g
  simp only [onBlock, writing, Block.becomeReserved_eq hb ht]
  rfl

/-- What a successful `allocate_block` has done, for a block of order `m` at `i`. -/
structure Allocated (h : Heap) (A : Used) (F : Lists) (m i : Nat) (h' : Heap)
    (F' : Lists) : Prop where
  fresh : A i = none
  inv : HeapInv h' (update A i (some m)) F'
  frame : Frame A h h'
  reserved : blockType (h'.hdr i) = BlockType.reserved.toU8
  grown : h'.currentSizeBytes ≤ h.currentSizeBytes * 2
  starts : ∀ j l, j ∈ F l → j = i ∨ ∃ l', j ∈ F' l'
  top : m = 7 → ∃ l, F' = update F 7 ((l ++ F 7).erase i) ∧ i ∈ l ++ F 7 ∧
    h'.currentSizeBytes = h.currentSizeBytes + 2048 * l.length

theorem carve_ok (I : HeapInv h A F) (hF : F k ≠ []) (hmk : m ≤ k) :
    ∃ h' F', carve k m h = .ok (h.freeHeadPerOrder k) h' ∧
      Allocated h A F m (h.freeHeadPerOrder k) h' F' ∧ h'.currentSizeBytes = h.currentSizeBytes ∧
      h.Writes (fun j => ∃ l, Starts (update A (h.freeHeadPerOrder k) (some m)) F' j l) h' := by
  obtain ⟨i, rest, hFk⟩ := exists_cons_of_ne_nil hF
  have hi : i ∈ F k := hFk ▸ mem_cons_self
  have hk := I.layout.order_lt_of_mem hi
  have hhead : h.freeHeadPerOrder k = i := by
    rw [(I.layout.links k hk).head_eq, hFk, headD_cons]
  have hk8 : k < 8 := hk
  obtain ⟨h1, F1, hrun1, L1, hi1, hc1, fr1, hs1, hkeep, htop, hw1⟩ := splitLoop_ok I.layout hi hmk
    (fun l hl j hj hb => absurd hb (I.coalesced l hl j hj)) 16 (by omega)
  obtain ⟨h2, hrun2, L2, fr2, hs2, hhdr2, hw2⟩ := removeFree_ok L1 hi1
  have hi2 : update A i (some m) i = some m := update_self ..
  have hb2 := L2.bound_hdr (.inl hi2)
  have ht2 : blockType (h2.hdr i) = BlockType.free.toU8 := by
    rw [hhdr2]
    exact L1.free_type hi1
  have hAi := L1.apart hi1
  have hother : ∀ w j, j ≠ i → (h2.putHdr i w).hdr j = h2.hdr j :=
    fun w j hj => hdr_putHdr_ne _ _ _ hj
  have hfr :=
    (fr1.trans fr2).trans (Frame.putHdr (L2.clear (sub_update hAi _) (.inl hi2) hAi
      (covers_start i m))
    (setBlockType (h2.hdr i) BlockType.reserved.toU8))
  have hsize : h2.currentSizeBytes = h.currentSizeBytes := hs2.trans hs1
  rw [hhead]
  -- a block of the lists is either the one that is taken or still in some list
  have hleft : ∀ {j l}, j ∈ F1 l → j ≠ i → j ∈ update F1 m ((F1 m).erase i) l := fun hj hji =>
    (L1.mem_erase hi1).mpr ⟨hj, hji⟩
  have hstart : ∀ j, (∃ l, j ∈ F1 l) → ∃ l, Starts (update A i (some m))
      (update F1 m ((F1 m).erase i)) j l := by
    rintro j ⟨l, hj⟩
    by_cases hji : j = i
    · exact ⟨m, .inl (hji ▸ hi2)⟩
    · exact ⟨l, .inr (hleft hj hji)⟩
  refine ⟨_, _, ?_, ⟨hAi, ⟨?_, ?_, hc1.erase L1 hi1, ?_⟩, hfr, ?_, ?_, ?_, ?_⟩, ?_, ?_⟩
  · rw [carve, freeHead_bind hk, hhead]
    simp only [reading_bind, id, getBlock_ok I.layout (.inr hi), unwrap_ok]
    rw [bind_ok hrun1, bind_ok hrun2, becomeReserved_bind (by omega) ht2]
    rfl
  · refine L2.write rfl rfl rfl ?_ ?_
    · intro j l hj
      by_cases hji : j = i
      · subst j
        rw [hdr_putHdr_self, order_mod, order_setBlockType]
        exact L2.used_order hj
      · rw [hother _ j hji]
        exact L2.used_order hj
    · exact fun j l hj => hother _ j (L2.ne_of_mem hi2 hj)
  · rw [putHdr_size, hsize]
    exact I.size_pos
  · intro j l hj
    by_cases hji : j = i
    · subst j
      refine ⟨.reserved, by decide, ?_⟩
      rw [hdr_putHdr_self, blockType_mod, blockType_setBlockType]
    · rw [update_of_ne hji] at hj
      exact (I.typed j l hj).frame hfr hj
  · rw [hdr_putHdr_self, blockType_mod, blockType_setBlockType]
  · rw [putHdr_size, hsize]
    omega
  · intro j l hj
    by_cases hji : j = i
    · exact .inl hji
    · obtain ⟨l', hl'⟩ := hkeep j l hj
      exact .inr ⟨l', hleft hl' hji⟩
  · rintro rfl
    obtain rfl : k = 7 := by omega
    refine ⟨[], ?_, hi, hsize⟩
    rw [htop rfl, nil_append]
  · exact hsize
  · refine ((hw1.trans (hw2.mono fun j hj => ⟨m, hj⟩)).mono hstart).trans ?_
    exact Writes.putHdr ⟨m, .inl hi2⟩ h2 _

theorem HeapInv.grow (I : HeapInv h A F) {l : List Nat} (L : Layout h' A (update F 7 (l ++ F 7)))
    (hf : Frame A h h') : HeapInv h' A (update F 7 (l ++ F 7)) := by
  refine ⟨L, lt_of_lt_of_le I.size_pos hf.size, ?_, fun j k hj => (I.typed j k hj).frame hf hj⟩
  intro k hk
  rw [update_of_ne (by omega)]
  exact I.coalesced k hk

variable {n : Nat}

theorem fitOrder_lt (h16 : 16 ≤ n) (hn : n ≤ 2048) :
    ∃ m, fitOrder n = .ok m ∧ m < numOrders ∧ n ≤ 16 * 2 ^ m := by
  obtain ⟨m, hm, hle, hleast⟩ := fitOrder_spec h16 (by omega)
  refine ⟨m, hm, ?_, hle⟩
  by_contra hge
  have := hleast 7 (lt_of_lt_of_le (by decide) (Nat.not_lt.mp hge))
  omega

theorem fitOrder_ge (hn : 2048 < n) (hmax : n ≤ 2 ^ 64) :
    ∃ m, fitOrder n = .ok m ∧ numOrders ≤ m := by
  obtain ⟨m, hm, hle, -⟩ := fitOrder_spec (by omega) hmax
  refine ⟨m, hm, ?_⟩
  by_contra hlt
  have hp : 2 ^ m ≤ 2 ^ 7 := Nat.pow_le_pow_right (by decide) (Nat.le_of_lt_succ (Nat.not_le.mp hlt))
  omega

def firstOrder (F : Lists) (m : Nat) : Option Nat :=
  (List.range' m (numOrders - m)).find? fun k => !(F k).isEmpty

/-- No list from the order `m` on has a block. -/
def NoneFrom (F : Lists) (m : Nat) : Prop := ∀ k, m ≤ k → k < numOrders → F k = []

theorem find_free {F : Lists} {m : Nat} : firstOrder F m = none ↔ NoneFrom F m := by
  unfold firstOrder
  rw [List.find?_eq_none]
  constructor
  · intro h k hmk hk
    have := h k (List.mem_range'_1.mpr ⟨hmk, by omega⟩)
    simpa using this
  · intro h k hk
    obtain ⟨h1, h2⟩ := List.mem_range'_1.mp hk
    simpa using h k h1 (by omega)

theorem findOrder_range (I : HeapInv h A F) (m : Nat) :
    findOrder h (List.range' m (numOrders - m)) = .ok (firstOrder F m) :=
  findOrder_ok I _ fun k hk => by
    obtain ⟨h1, h2⟩ := List.mem_range'_1.mp hk
    omega

theorem allocateBlock_too_big (hn : 2048 < n) (hmax : n ≤ 2 ^ 64) (h : Heap) :
    allocateBlock n h = .error (.error "order is bigger than maximum order") h := by
  obtain ⟨m, hm, hge⟩ := fitOrder_ge hn hmax
  simp only [allocateBlock, compute_bind, hm, if_pos hge]
  rfl

section
variable (I : HeapInv h A F) (hm : fitOrder n = .ok m) (hlt : m < numOrders)
include I hm hlt

theorem allocateBlock_found (hfound : firstOrder F m = some k) :
    allocateBlock n h = carve k m h := by
  simp only [allocateBlock, compute_bind, hm, if_neg (Nat.not_le_of_lt hlt), reading_bind, id,
    findOrder_range I m, hfound]

theorem allocateBlock_full (hF : NoneFrom F m) (hfull : h.currentSizeBytes = h.mapping.len) :
    allocateBlock n h = .error (.error "Heap already at maxium size") h := by
  have hfind := findOrder_range I m
  rw [find_free.mpr hF] at hfind
  have hpos := I.size_pos
  simp only [allocateBlock, compute_bind, hm, if_neg (Nat.not_le_of_lt hlt), reading_bind, id,
    hfind, get_bind]
  refine bind_error ?_ _
  simp only [growHeap, get_bind]
  rw [if_pos ⟨hfull, by omega⟩]
  rfl

theorem allocateBlock_ok (hroom : (∃ k, m ≤ k ∧ F k ≠ []) ∨ h.currentSizeBytes < h.mapping.len)
    (hpage : pageSizeBytes ∣ h.mapping.len)
    (hmax : NoneFrom F m → min h.mapping.len (h.currentSizeBytes * 2) ≤ 2 ^ 32) :
    ∃ i h' F', allocateBlock n h = .ok i h' ∧ Allocated h A F m i h' F' ∧
      (h'.currentSizeBytes = h.currentSizeBytes ∨ NoneFrom F m ∧
        h'.currentSizeBytes = min h.mapping.len (h.currentSizeBytes * 2)) ∧
      (∃ found, findOrder h (List.range' m (numOrders - m)) = .ok found ∧
        i = (found.map h.freeHeadPerOrder).getD h.cells) ∧
      ∀ x, 16 * i + 8 ≤ x → x < 16 * (i + 2 ^ m) → h'.mapping.byte x = h.mapping.byte x := by
  have hfind := findOrder_range I m
  cases hres : firstOrder F m with
  | some k =>
    have hk := List.mem_range'_1.mp (mem_of_find?_eq_some hres)
    have hne : F k ≠ [] := by simpa using List.find?_some hres
    obtain ⟨h', F', hrun, hal, hs, hw⟩ := carve_ok I hne hk.1
    refine ⟨_, h', F', (allocateBlock_found I hm hlt hres).trans hrun, hal, .inl hs,
      ⟨some k, hfind.trans (congrArg _ hres), rfl⟩, fun x hx hxlt => ?_⟩
    exact hal.inv.layout.inner_bytes (.inl (update_self ..)) hw hx hxlt
  | none =>
    have hnone := find_free.mp hres
    have hsmall : h.currentSizeBytes < h.mapping.len := by
      rcases hroom with ⟨k, hmk, hne⟩ | hlt
      · obtain ⟨a, l, hFk⟩ := exists_cons_of_ne_nil hne
        exact absurd (hnone k hmk (I.layout.order_lt_of_mem (hFk ▸ mem_cons_self))) hne
      · exact hlt
    have hpos := I.size_pos
    have hp2 : pageSizeBytes ∣ min h.mapping.len (h.currentSizeBytes * 2) := by
      rcases le_total h.mapping.len (h.currentSizeBytes * 2) with hle | hle
      · rw [min_eq_left hle]
        exact hpage
      · rw [min_eq_right hle]
        exact Dvd.dvd.mul_right I.layout.size_page 2
    obtain ⟨h1, l, hrun1, L1, hl, fr1, hs1, hhead1, hlen1, hw1⟩ :=
      growHeap_ok I.layout (h.currentSizeBytes * 2)
      (by omega) hp2 (hmax hnone)
    have I1 := HeapInv.grow I L1 fr1
    obtain ⟨h', F', hrun, hal, hs, hw⟩ := carve_ok I1 (k := 7) (m := m)
      (by rw [update_self]; simp [hl]) (Nat.le_of_lt_succ hlt)
    refine ⟨_, h', F', ?_, ⟨hal.fresh, hal.inv, fr1.trans hal.frame, hal.reserved, by omega, ?_, ?_⟩,
      .inr ⟨hnone, hs.trans hs1⟩, ⟨none, hfind.trans (congrArg _ hres), hhead1⟩, fun x hx hxlt => ?_⟩
    · simp only [allocateBlock, compute_bind, hm, if_neg (Nat.not_le_of_lt hlt), reading_bind, id,
        hfind, hres, get_bind]
      rw [bind_ok hrun1]
      exact hrun
    · intro j q hj
      refine hal.starts j q ?_
      by_cases hq : q = 7
      · subst q
        rw [update_self]
        exact mem_append_right l hj
      · rwa [update_of_ne hq]
    · intro h7
      obtain ⟨l', hF', hmem, hlen'⟩ := hal.top h7
      rw [update_self, ← append_assoc] at hF' hmem
      rw [update_idem] at hF'
      refine ⟨l' ++ l, hF', hmem, ?_⟩
      rw [hlen', hlen1, length_append]
      omega
    · have hgrown := hw1.mono (T := fun j => ∃ l, Starts (update A (h1.freeHeadPerOrder 7)
          (some m)) F' j l) ?_
      · exact hal.inv.layout.inner_bytes (.inl (update_self ..)) (hgrown.trans hw) hx hxlt
      · intro j hj
        rcases hal.starts j 7 (by rw [update_self]; exact mem_append_left _ hj) with rfl | ⟨q, hq⟩
        · exact ⟨m, .inl (update_self ..)⟩
        · exact ⟨q, .inr hq⟩

end

def Exhausted (h : Heap) (F : Lists) (n : Nat) : Prop :=
  ∃ m, fitOrder n = .ok m ∧ (∀ k, m ≤ k → k < numOrders → F k = []) ∧
    h.currentSizeBytes = h.mapping.len

theorem allocateBlock_cases (I : HeapInv h A F) (h16 : 16 ≤ n) (h64 : n ≤ 2 ^ 64)
    (hpage : pageSizeBytes ∣ h.mapping.len)
    (hmax : min h.mapping.len (h.currentSizeBytes * 2) ≤ 2 ^ 32) :
    (∃ i h' F' m, allocateBlock n h = .ok i h' ∧ Allocated h A F m i h' F' ∧ fitOrder n = .ok m ∧
      n ≤ 16 * 2 ^ m ∧ ¬ (2048 < n ∨ Exhausted h F n)) ∨
    (∃ msg, allocateBlock n h = .error (.error msg) h ∧ (2048 < n ∨ Exhausted h F n)) := by
  by_cases hbig : 2048 < n
  · exact .inr ⟨_, allocateBlock_too_big hbig h64 h, .inl hbig⟩
  · obtain ⟨m, hm, hlt, hle⟩ := fitOrder_lt h16 (Nat.not_lt.mp hbig)
    by_cases hex : Exhausted h F n
    · obtain ⟨m', hm', hF, hfull⟩ := hex
      obtain rfl : m' = m := Except.ok.inj (hm'.symm.trans hm)
      exact .inr ⟨_, allocateBlock_full I hm hlt hF hfull, .inr ⟨m', hm', hF, hfull⟩⟩
    · left
      have hroom : (∃ k, m ≤ k ∧ F k ≠ []) ∨ h.currentSizeBytes < h.mapping.len := by
        by_contra hno
        simp only [not_or, not_exists, not_and, not_not, not_lt] at hno
        exact hex ⟨m, hm, fun k hk _ => hno.1 k hk, le_antisymm I.layout.size_le hno.2⟩
      obtain ⟨i, h', F', hrun, hal, -⟩ := allocateBlock_ok I hm hlt hroom hpage fun _ => hmax
      exact ⟨i, h', F', m, hrun, hal, hm, hle, fun hor => hor.elim hbig hex⟩

end Allocate

section Free

/-- What the merge loop has reached: a block `e` that still has to be put into its list. -/
structure Merged (h : Heap) (A : Used) (i e : Nat) (h' : Heap) (A' : Used) (F' : Lists) (l : Nat) :
    Prop where
  layout : Layout h' A' F'
  pending : A' e = some l
  coalesced : Coalesced F'
  buddy : l < 7 → Tiling.buddy e l ∉ F' l
  live : update A' e none = update A i none
  frame : Frame (update A i none) h h'
  size : h'.currentSizeBytes = h.currentSizeBytes

theorem buddy_pair (ha : 2 ^ k ∣ i) : ∃ e, 2 ^ (k + 1) ∣ e ∧
    ((e = i ∧ Tiling.buddy i k = e + 2 ^ k ∧ ¬ Tiling.buddy i k < i) ∨
      (e = Tiling.buddy i k ∧ i = e + 2 ^ k ∧ Tiling.buddy i k < i)) := by
  have hp := Nat.two_pow_pos k
  rcases buddy_halves ha with ⟨hd, he⟩ | ⟨hd, he⟩
  · exact ⟨i, hd, .inl ⟨rfl, he, by omega⟩⟩
  · exact ⟨Tiling.buddy i k, hd, .inr ⟨rfl, he, by omega⟩⟩

theorem join_buddy (L : Layout h A F) (hi : A i = some k) (hk : k < 7)
    (hb : Tiling.buddy i k ∈ F k) : ∃ e h' A' F',
      (∀ fuel, freeLoop (fuel + 1) i (Tiling.buddy i k) h =
        freeLoop fuel e (Tiling.buddy e (k + 1)) h') ∧
      Layout h' A' F' ∧ A' e = some (k + 1) ∧ (Coalesced F → Coalesced F') ∧
      update A' e none = update A i none ∧
      Frame (update A i none) h h' ∧ h'.currentSizeBytes = h.currentSizeBytes := by
  obtain ⟨h1, hrun1, L1, fr1, hs1, -⟩ := removeFree_ok L hb
  have hne := buddy_ne (L.tiles.aligned (.inl hi))
  have hAb := L.apart hb
  have hA1b : update A (Tiling.buddy i k) (some k) (Tiling.buddy i k) = some k :=
    update_self ..
  have hA1i : update A (Tiling.buddy i k) (some k) i = some k := by
    rw [update_of_ne hne.symm, hi]
  obtain ⟨e, hd, hcase⟩ := buddy_pair (L.tiles.aligned (.inl hi))
  have hpair : e = i ∧ Tiling.buddy i k = e + 2 ^ k ∨ e = Tiling.buddy i k ∧ i = e + 2 ^ k :=
    hcase.imp (fun hc => ⟨hc.1, hc.2.1⟩) (fun hc => ⟨hc.1, hc.2.1⟩)
  have hA1e : update A (Tiling.buddy i k) (some k) e = some k := by
    rcases hpair with ⟨rfl, _⟩ | ⟨rfl, _⟩
    · exact hA1i
    · exact hA1b
  have hA1o : update A (Tiling.buddy i k) (some k) (e + 2 ^ k) = some k := by
    rcases hpair with ⟨_, he⟩ | ⟨_, he⟩
    · rw [← he]
      exact hA1b
    · rw [← he]
      exact hA1i
  have hbd := L1.bound_hdr (.inl hA1e)
  have L2 := L1.join (g := h1.putHdr e (setOrder (h1.hdr e) (k + 1))) rfl rfl hA1e hA1o hd
    (by show k + 1 < 8; omega) (fun j hj => hdr_putHdr_ne _ _ _ hj)
    (by rw [hdr_putHdr_self, order_mod, order_setOrder (by omega)]) rfl
  refine ⟨e, _, _, _, ?_, L2, update_self .., ?_, ?_, ?_, hs1⟩
  · intro fuel
    have hswap : ∃ o, swapIfLower i (Tiling.buddy i k) h1 = .ok (e, o) h1 := by
      rcases hcase with ⟨rfl, _, hlt⟩ | ⟨rfl, _, hlt⟩
      · exact ⟨_, by simp only [swapIfLower, if_neg hlt]; rfl⟩
      · refine ⟨i, ?_⟩
        simp only [swapIfLower, if_pos hlt, block, reading, Block.swap, order_ok L1 (.inl hA1i),
          order_ok L1 (.inl hA1b), ok_bind, if_true, except_pure]
    obtain ⟨o, hswap⟩ := hswap
    obtain ⟨l, hbe⟩ := L2.buddy_starts (.inl (update_self ..))
    simp only [freeLoop, block_bind, blockType_ok L (.inr hb) (L.free_type hb), if_true,
      order_ok L (.inl hi), order_ok L (.inr hb), if_pos (show k < numOrders - 1 from hk),
      bind_ok hrun1, bind_ok hswap, order_ok L1 (.inl hA1e)]
    rw [onBlock_setOrder (by omega) (show k + 1 < 8 by omega)]
    simp only [block_bind, order_ok L2 (.inl (update_self ..)), compute_bind,
      buddy_ok (by omega : k + 1 < 16), reading_bind, id, getBlock_ok L2 hbe, unwrap_ok]
  · exact fun hc l hl j hj hbj => hc l hl j ((L.mem_erase hb).mp hj).1 ((L.mem_erase hb).mp hbj).1
  · funext j
    by_cases hje : j = e
    · subst j
      rw [update_self]
      rcases hpair with ⟨rfl, _⟩ | ⟨rfl, _⟩
      · rw [update_self]
      · rw [update_of_ne hne, hAb]
    · rw [update_of_ne hje, update_of_ne hje]
      by_cases hjo : j = e + 2 ^ k
      · subst j
        rw [update_self]
        rcases hpair with ⟨_, he⟩ | ⟨_, he⟩
        · rw [← he, update_of_ne hne, hAb]
        · rw [← he, update_self]
      · rw [update_of_ne hjo]
        rcases hpair with ⟨rfl, he⟩ | ⟨rfl, he⟩
        · rw [update_of_ne (he ▸ hjo), update_of_ne hje]
        · rw [update_of_ne hje, update_of_ne (he ▸ hjo)]
  · refine (fr1.mono fun _ _ hj => (of_update_none hj).2).trans (Frame.putHdr ?_ _)
    refine L1.clear (fun j l hj => sub_update hAb _ j l (of_update_none hj).2) (.inl hA1e) ?_
      (covers_start e k)
    rcases hpair with ⟨rfl, _⟩ | ⟨rfl, _⟩
    · exact update_self ..
    · rw [update_of_ne hne, hAb]

theorem freeLoop_ok (L : Layout h A F) (hi : A i = some k) (hc : Coalesced F)
    (ht : ∀ j l, A j = some l → j ≠ i → Typed h j) (fuel : Nat) (hf : 7 < k + fuel) :
    ∃ e h' A' F' l, freeLoop fuel i (Tiling.buddy i k) h = .ok e h' ∧
      Merged h A i e h' A' F' l := by
  induction fuel generalizing h A F i k with
  | zero =>
    have hk : k < 8 := L.tiles.order_lt (.inl hi)
    omega
  | succ fuel ih =>
    have hstop : (k < 7 → Tiling.buddy i k ∉ F k) → Merged h A i i h A F k := fun hb =>
      ⟨L, hi, hc, hb, rfl, Frame.refl _ h, rfl⟩
    have ha := L.tiles.aligned (.inl hi)
    obtain ⟨l, hs⟩ := L.buddy_starts (.inl hi)
    rcases hs with hA | hl
    · obtain ⟨t, hne, htype⟩ := ht _ l hA (buddy_ne ha)
      refine ⟨i, h, A, F, k, ?_, hstop fun _ hm => ?_⟩
      · simp only [freeLoop, block_bind, blockType_ok L (.inl hA) htype, if_neg hne]
        rfl
      · exact L.ne_of_mem hA hm rfl
    · by_cases hkl : k < 7 ∧ k = l
      · obtain ⟨hk, rfl⟩ := hkl
        obtain ⟨e, h1, A1, F1, hrun, L1, he, hc1, hlive, fr, hsize⟩ := join_buddy L hi hk hl
        have ht1 : ∀ j l, A1 j = some l → j ≠ e → Typed h1 j := by
          intro j l hj hne
          have hj' : update A i none j = some l := by
            rw [← hlive, update_of_ne hne, hj]
          obtain ⟨hji, hA⟩ := of_update_none hj'
          exact (ht j l hA hji).frame fr hj'
        obtain ⟨e', h', A', F', l, hrun', M⟩ := ih L1 he (hc1 hc) ht1 (by omega)
        refine ⟨e', h', A', F', l, (hrun fuel).trans hrun', ?_⟩
        exact ⟨M.layout, M.pending, M.coalesced, M.buddy, M.live.trans hlive,
          fr.trans (hlive ▸ M.frame), M.size.trans hsize⟩
      · refine ⟨i, h, A, F, k, ?_, hstop fun hk hm => ?_⟩
        · simp only [freeLoop, block_bind, blockType_ok L (.inr hl) (L.free_type hl), if_true,
            order_ok L (.inl hi)]
          by_cases hk : k < numOrders - 1
          · simp only [if_pos hk, block_bind, order_ok L (.inr hl), if_neg (fun he => hkl ⟨hk, he⟩)]
            rfl
          · rw [if_neg hk]
            rfl
        · exact hkl ⟨hk, (L.free_order hm).symm.trans (L.free_order hl)⟩

theorem freeBlock_ok (I : HeapInv h A F) (hi : A i = some k) : ∃ h' F', freeBlock i h = .ok () h' ∧
    HeapInv h' (update A i none) F' ∧ Frame (update A i none) h h' ∧
    h'.currentSizeBytes = h.currentSizeBytes := by
  have hs : Starts A F i k := .inl hi
  have hk : k < 8 := I.layout.tiles.order_lt hs
  obtain ⟨t, hne, ht⟩ := I.typed i k hi
  obtain ⟨l, hbs⟩ := I.layout.buddy_starts hs
  obtain ⟨e, h1, A1, F1, l1, hrun, M⟩ := freeLoop_ok I.layout hi I.coalesced
    (fun j l hj _ => I.typed j l hj) 16 (by omega)
  have he : Starts A1 F1 e l1 := .inl M.pending
  have hl1 : l1 < 8 := M.layout.tiles.order_lt he
  have hb := M.layout.bound_hdr he
  obtain ⟨w, hw⟩ : ∃ w, Block.freeWord (h1.hdr e) (h1.freeHeadPerOrder l1) = w := ⟨_, rfl⟩
  have hfree : FreeHdr ((h1.putHdr e w).hdr e) l1 (h1.freeHeadPerOrder l1) := by
    rw [hdr_putHdr_self, ← hw]
    simp only [FreeHdr, order_mod, blockType_mod, freeNextIndex_mod, order_freeWord,
      blockType_freeWord,
      freeNextIndex_freeWord, Nat.mod_eq_of_lt (M.layout.head_lt hl1),
        M.layout.used_order M.pending, and_self]
  have L2 :=
    M.layout.link (g := (h1.putHdr e w).withHead l1 e) rfl rfl M.pending
      (fun j hj => hdr_putHdr_ne _ _ _ hj) hfree rfl
  rw [M.live] at L2
  have hsub : ∀ j l, update A i none j = some l → A1 j = some l := by
    rw [← M.live]
    exact fun j l hj => (of_update_none hj).2
  have hfe : update A i none e = none := by
    rw [← M.live]
    exact update_self ..
  have fr2 : Frame (update A i none) h1 (h1.putHdr e w) :=
    Frame.putHdr (M.layout.clear hsub he hfe (covers_start e l1)) _
  have hfr := (M.frame.trans fr2).trans (Frame.withHead _ _ l1 e)
  refine ⟨_, _, ?_, ⟨L2, ?_, M.coalesced.cons M.buddy (M.layout.tiles.aligned he), ?_⟩, hfr, M.size⟩
  · simp only [freeBlock, block_bind, blockType_ok I.layout hs ht, if_neg hne,
      order_ok I.layout hs, compute_bind, buddy_ok (by omega : k < 16), reading_bind, id,
      getBlock_ok I.layout hbs, unwrap_ok, bind_ok hrun, order_ok M.layout he]
    rw [freeHead_bind hl1, onBlock_becomeFree (by omega), hw, block_bind,
      Block.order_eq (s := (h1.putHdr e _).mapping)
        (by simp only [ReadableBlockContainer.len, putHdr_mapping, Mapping.putHdr_len]; omega)]
    simp only [ReadableBlockContainer.byte]
    rw [hfree.1]
    exact setFreeHead_ok hl1 e _
  · show 0 < h1.currentSizeBytes
    rw [M.size]
    exact I.size_pos
  · exact fun j l hj => Typed.frame hfr hj (I.typed j l (of_update_none hj).2)

end Free

section New

theorem layout_empty (m : Mapping) : Layout ⟨m, 0, fun _ => 0⟩ (fun _ => none) (fun _ => []) where
  size_page := dvd_zero _
  size_le := Nat.zero_le _
  size_max := Nat.zero_le _
  tiles := by
    constructor <;> simp [Starts, Heap.cells]
  used_order := by simp
  free_order := by simp
  free_type := by simp
  links := by simp
  nodup := by simp
  apart := by simp

theorem new_ok {m : Mapping} (hpos : 0 < m.len) (hpage : pageSizeBytes ∣ m.len) :
    ∃ h l, Heap.new m = .ok h ∧ l ≠ [] ∧
      HeapInv h (fun _ => none) (update (fun _ => []) 7 l) ∧ h.mapping.len = m.len ∧
      h.currentSizeBytes = pageSizeBytes ∧ h.freeHeadPerOrder 7 = 0 ∧
      ∀ x, pageSizeBytes ≤ x → h.mapping.byte x = m.byte x := by
  have hle : 4096 ≤ m.len := Nat.le_of_dvd hpos hpage
  have hmin : min m.len pageSizeBytes = pageSizeBytes := min_eq_right hle
  obtain ⟨h, l, hrun, L, hl, fr, hs, hhead, -⟩ := growHeap_ok (layout_empty m)
    pageSizeBytes (by simp only [hmin]; decide)
    (by simp only [hmin]; exact dvd_refl _) (by simp only [hmin]; decide)
  simp only [hmin] at hs
  rw [append_nil] at L
  refine ⟨h, l, ?_, hl, ⟨L, by rw [hs]; decide, ?_, by simp⟩, fr.len, hs,
    hhead.trans (Nat.zero_div _), ?_⟩
  · simp only [Heap.new, hrun]
  · intro k hk j hj
    rw [update_of_ne (by omega)] at hj
    cases hj
  · intro x hx
    exact fr.tail (by rw [hs]; exact hx)

end New

end Heap

end Garnet.Inspect
