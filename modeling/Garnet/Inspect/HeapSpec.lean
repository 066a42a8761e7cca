import Garnet.Inspect.Layout

/-! What each operation of the heap does to the layout. -/

namespace Garnet.Inspect
open Function (update update_eq_self_iff update_idem update_of_ne update_self)
open Tiling LinkedList BlockHeader
open ReadableBlockContainer (len)

namespace Heap
variable {h h' : Heap} {A : Used} {F : Lists} {i j k l : Nat}

section Steps
variable {α : Type} {β : Type}

theorem block_bind (f : Mapping → Except Fault α) (g : α → HeapM β) (h : Heap) :
    (block f >>= g) h = match f h.mapping with
      | .ok a => g a h
      | .error e => .error e h := reading_bind Heap.mapping f g h

theorem onBlock_bind (f : Mapping → Except Fault Mapping) (g : Unit → HeapM β) (h : Heap) :
    (onBlock f >>= g) h = match f h.mapping with
      | .ok m => g () (h.withMapping m)
      | .error e => .error e h := by
  rw [onBlock, writing_bind]
  cases f h.mapping <;> rfl

theorem onBlock_setOrder (hb : 16 * i + 8 ≤ h.mapping.len) (hk : k < numOrders)
    (g : Unit → HeapM β) : (onBlock (Block.setOrder · i k) >>= g) h =
      g () (h.putHdr i (setOrder (h.hdr i) k)) := by
  rw [onBlock_bind, Block.setOrder_eq hb hk]
  rfl

theorem onBlock_becomeFree (hb : 16 * i + 8 ≤ h.mapping.len) (next : Nat)
    (g : Unit → HeapM β) : (onBlock (Block.becomeFree · i next) >>= g) h =
      g () (h.putHdr i (Block.freeWord (h.hdr i) next)) := by
  rw [onBlock_bind, Block.becomeFree_eq hb]
  rfl

theorem get_bind (g : Heap → HeapM β) (h : Heap) : (get >>= g) h = g h h := rfl

theorem compute_bind (r : Except Fault α) (g : α → HeapM β) (h : Heap) :
    (compute r >>= g) h = match r with
      | .ok a => g a h
      | .error e => .error e h := reading_bind id (fun _ => r) g h

theorem freeHead_bind (hk : k < numOrders) (g : Nat → HeapM β) (h : Heap) :
    (freeHead k >>= g) h = g (h.freeHeadPerOrder k) h :=
  bind_ok (by simp only [freeHead, if_pos hk]) g

theorem setFreeHead_ok (hk : k < numOrders) (i : Nat) (h : Heap) : setFreeHead k i h =
    .ok () (h.withHead k i) := by
  simp only [setFreeHead, if_pos hk]

theorem checkedSub_ok {a b : Nat} (hle : b ≤ a) : checkedSub a b = .ok (a - b) := by
  simp only [checkedSub, if_neg (Nat.not_lt_of_le hle)]

theorem buddy_ok (hk : k < 16) (i : Nat) : buddy i k = .ok (Tiling.buddy i k) := by
  simp only [buddy, indexForOffset_orderToSize hk, ok_bind, except_pure, Tiling.buddy]

end Steps

section Reads

theorem order_hdr (hb : 16 * i + 8 ≤ h.mapping.len) :
    Block.order h.mapping i = .ok (order (h.hdr i)) := Block.order_eq (s := h.mapping) hb

section
variable (L : Layout h A F) (hi : Starts A F i k)
include L hi

theorem order_ok : Block.order h.mapping i = .ok k := by
  have hb := L.bound_hdr hi
  rw [order_hdr (by omega), L.starts_order hi]

theorem blockType_ok {t : BlockType} (ht : blockType (h.hdr i) = t.toU8) :
    Block.blockType h.mapping i = .ok t := by
  have hb := L.bound_hdr hi
  exact Block.blockType_eq (s := h.mapping) (by simp only [len]; omega) ht

theorem freeNextIndex_ok (ht : blockType (h.hdr i) = BlockType.free.toU8) :
    Block.freeNextIndex h.mapping i = .ok (h.next i) := by
  have hb := L.bound_hdr hi
  exact Block.headerField_eq (s := h.mapping) (by simp only [len]; omega) ht

end

section
variable (hb : 16 * i + 16 * 2 ^ order (h.hdr i) ≤ h.currentSizeBytes)
  (hle : h.currentSizeBytes ≤ h.mapping.len)
include hb hle

theorem getBlock_eq : getBlock h i = .ok i := by
  have hp := Nat.two_pow_pos (order (h.hdr i))
  simp only [getBlock, offsetForIndex_eq]
  rw [if_neg (by omega), order_hdr (by omega), ok_bind, orderToSize_eq, if_neg (by omega),
    except_pure]

theorem isFreeBlock_eq {t : BlockType} (ht : blockType (h.hdr i) = t.toU8) (k : Nat) :
    isFreeBlock h i k = .ok (decide (t = .free ∧ order (h.hdr i) = k)) := by
  have hp := Nat.two_pow_pos (order (h.hdr i))
  have hlt : ¬ h.currentSizeBytes / minOrderSize ≤ i := by
    simp only [minOrderSize]
    omega
  simp only [isFreeBlock, if_neg hlt, getBlock_eq hb hle, Block.blockType_eq (s := h.mapping)
    (by simp only [len]; omega : 16 * i + 8 ≤ _) ht, ok_bind]
  by_cases hf : t = .free
  · rw [if_pos hf, order_hdr (by omega), ok_bind]
    simp [hf, beq_eq_decide]
  · simp [hf]

end

theorem getBlock_ok (L : Layout h A F) (hi : Starts A F i k) : getBlock h i = .ok i :=
  getBlock_eq (by rw [L.starts_order hi]; exact L.bound hi) L.size_le

theorem isFreeBlock_ok (L : Layout h A F) (hi : Starts A F i l) {t : BlockType}
    (ht : blockType (h.hdr i) = t.toU8) (k : Nat) :
    isFreeBlock h i k = .ok (decide (t = .free ∧ l = k)) := by
  have he := isFreeBlock_eq (by rw [L.starts_order hi]; exact L.bound hi) L.size_le ht k
  rwa [L.starts_order hi] at he

theorem isFreeBlock_of_mem (L : Layout h A F) (hi : i ∈ F k) : isFreeBlock h i k = .ok true := by
  rw [isFreeBlock_ok L (.inr hi) (L.free_type hi)]
  simp

end Reads

section RemoveFree

theorem removeFreeLoop_ok (L : Layout h A F) {xs ys : List Nat} {p : Nat}
    (hF : ∀ j ∈ xs ++ p :: i :: ys, j ∈ F k) (hnd : (xs ++ p :: i :: ys).Nodup) (fuel : Nat)
    {nextIndex : Nat} (hf : xs.length < fuel)
    (hl : Linked 0 h.next nextIndex (xs ++ p :: i :: ys)) :
    removeFreeLoop fuel k i nextIndex h =
      .ok true (h.putHdr p (setFreeNextIndex (h.hdr p) (h.next i))) := by
  obtain ⟨fuel, rfl⟩ : ∃ f, fuel = f + 1 := ⟨fuel - 1, by omega⟩
  have hread : ∀ {q}, q ∈ F k → Block.freeNextIndex h.mapping q = .ok (h.next q) := fun hq =>
    freeNextIndex_ok L (.inr hq) (L.free_type hq)
  have hget : ∀ {q}, q ∈ F k → getBlock h q = .ok q := fun hq => getBlock_ok L (.inr hq)
  induction xs generalizing nextIndex fuel with
  | nil =>
    obtain ⟨rfl, hnext, _⟩ := hl
    have hp : nextIndex ∈ F k := hF nextIndex (by simp)
    have hi : i ∈ F k := hF i (by simp)
    have hb := L.bound_hdr (.inr hp)
    have hset : Block.setFreeNextIndex h.mapping nextIndex (h.next i) = _ :=
      Block.rewriteHeader_eq (by omega) (L.free_type hp) (setFreeNextIndex · (h.next i))
    simp only [removeFreeLoop, reading_bind, block_bind, onBlock_bind, id, isFreeBlock_of_mem L hp,
      hget hp, hread hp, hread hi, unwrap_ok, if_true, if_pos hnext, hset]
    rfl
  | cons a xs ih =>
    obtain ⟨rfl, hrest⟩ := hl
    have hp : nextIndex ∈ F k := hF nextIndex (by simp)
    obtain ⟨fuel, rfl⟩ : ∃ f, fuel = f + 1 := ⟨fuel - 1, by simp at hf; omega⟩
    have hnd' := (List.nodup_cons.mp hnd).2
    have hne := hrest.head_ne hnd'
    rw [removeFreeLoop]
    simp only [reading_bind, block_bind, id, isFreeBlock_of_mem L hp, hget hp, hread hp, unwrap_ok,
      if_true, if_neg hne]
    exact ih (fun j hj => hF j (List.mem_cons_of_mem _ hj)) hnd' hrest fuel
      (by simp at hf; omega)

theorem removeFree_ok (L : Layout h A F) (hi : i ∈ F k) : ∃ h', removeFree i h = .ok true h' ∧
    Layout h' (update A i (some k)) (update F k ((F k).erase i)) ∧
    Frame A h h' ∧ h'.currentSizeBytes = h.currentSizeBytes ∧ h'.hdr i = h.hdr i ∧
    h.Writes (· ∈ F k) h' := by
  have hk := L.order_lt_of_mem hi
  have hl := L.links k hk
  have hs : Starts A F i k := .inr hi
  have hread := freeNextIndex_ok L hs (L.free_type hi)
  simp only [removeFree, block_bind, order_ok L hs, if_neg (Nat.not_le_of_lt hk), freeHead_bind hk]
  obtain ⟨xs, ys, hsplit⟩ := List.append_of_mem hi
  rcases List.eq_nil_or_concat xs with rfl | ⟨xs, p, rfl⟩
  · rw [hsplit] at hl
    obtain ⟨hhead, htail⟩ := hl
    simp only [if_pos hhead, block_bind, hread, bind_ok (setFreeHead_ok hk _ h)]
    refine ⟨_, rfl, ?_, Frame.withHead A h _ _, rfl, rfl, Heap.Writes.refl _ h⟩
    refine L.unlink rfl rfl hi (fun _ => rfl) (fun _ => rfl) ?_ ?_
    · rw [hsplit, List.nil_append, List.erase_cons_head, withHead_heads, update_self]
      exact htail
    · intro l hl hlk
      rw [withHead_heads, update_of_ne hlk]
      exact L.links l hl
  · rw [List.concat_eq_append, List.append_assoc, List.singleton_append] at hsplit
    have hnd := L.nodup k
    rw [hsplit] at hl hnd
    have hp : p ∈ F k := by simp [hsplit]
    have hne := hl.head_ne hnd
    have hlen := L.length_lt k
    rw [hsplit, List.length_append] at hlen
    have hloop := removeFreeLoop_ok L (fun j hj => hsplit ▸ hj) hnd (h.cells + 1) (by omega) hl
    rw [if_neg hne]
    refine ⟨_, hloop, ?_, ?_, rfl, ?_, Heap.Writes.putHdr hp h _⟩
    · have hself := hdr_putHdr_self h p (setFreeNextIndex (h.hdr p) (h.next i))
      have hother : ∀ j, j ≠ p → _ = h.hdr j := fun j hj =>
        hdr_putHdr_ne h p (setFreeNextIndex (h.hdr p) (h.next i)) hj
      have hnext : ∀ {l : List Nat}, p ∉ l → ∀ j ∈ l, freeNextIndex _ = h.next j := fun hp j hj =>
        congrArg freeNextIndex (hother j fun he => hp (he ▸ hj))
      refine L.unlink rfl rfl hi ?_ ?_ ?_ ?_
      · intro j
        by_cases hj : j = p
        · rw [hj, hself, order_mod, order_setFreeNextIndex]
        · rw [hother j hj]
      · intro j
        by_cases hj : j = p
        · rw [hj, hself, blockType_mod, blockType_setFreeNextIndex]
        · rw [hother j hj]
      · have hall := hnd
        simp only [List.nodup_append, List.nodup_cons, List.mem_cons, not_or] at hall
        obtain ⟨_, ⟨⟨hip, hy⟩, _⟩, hxs⟩ := hall
        have hx : p ∉ xs := fun hm => hxs p hm p (.inl rfl) rfl
        have hix : i ∉ xs := fun hm => hxs i hm i (.inr (.inl rfl)) rfl
        rw [hsplit, List.erase_append_right _ hix, List.erase_cons_tail (by simpa using hip),
          List.erase_cons_head]
        refine hl.unlink ?_ (hnext hx) (hnext hy)
        rw [Heap.next, hself, freeNextIndex_mod, freeNextIndex_setFreeNextIndex,
          Nat.mod_eq_of_lt (freeNextIndex_lt _)]
      · intro l hl hlk
        refine (L.links l hl).congr (hnext fun hm => hlk ?_)
        exact (L.free_order hm).symm.trans (L.free_order hp)
    · exact Frame.putHdr (L.clear (fun _ _ hA => hA) (.inr hp) (L.apart hp) (covers_start p k)) _
    · apply hdr_putHdr_ne
      rintro rfl
      simp [List.nodup_append] at hnd

end RemoveFree

section SplitBlock

/-- The header at `i` made that of a free block of order `k`. -/
def putFree (h : Heap) (i k next : Nat) : Heap :=
  (h.putHdr i (setOrder (h.hdr i) k)).putHdr i
    (Block.freeWord ((h.putHdr i (setOrder (h.hdr i) k)).hdr i) next)

theorem putFree_hdr (h : Heap) (i next : Nat) {k : Nat} (hk : k < 16) (hn : next < 2 ^ 28) :
    FreeHdr ((h.putFree i k next).hdr i) k next := by
  rw [putFree, hdr_putHdr_self, hdr_putHdr_self]
  simp only [FreeHdr, order_mod, blockType_mod, freeNextIndex_mod, order_freeWord,
    blockType_freeWord, freeNextIndex_freeWord, Nat.mod_eq_of_lt hn, order_setOrder hk, and_self]

theorem putFree_hdr_ne (h : Heap) {i j : Nat} (hj : j ≠ i) (k next : Nat) :
    (h.putFree i k next).hdr j = h.hdr j := by
  rw [putFree, hdr_putHdr_ne _ _ _ hj, hdr_putHdr_ne _ _ _ hj]

theorem putFree_frame (hc : Clear A h i) (k next : Nat) : Frame A h (h.putFree i k next) :=
  (Frame.putHdr hc _).trans (Frame.putHdr (h := h.putHdr i _) hc _)

theorem putFree_writes {S : Nat → Prop} (hi : S i) (h : Heap) (k next : Nat) :
    h.Writes S (h.putFree i k next) :=
  (Heap.Writes.putHdr hi h _).trans (Heap.Writes.putHdr hi _ _)

theorem splitBlock_ok (L : Layout h A F) (hi : i ∈ F (k + 1)) : ∃ h', splitBlock i h = .ok () h' ∧
    Layout h' A (update (update F (k + 1) ((F (k + 1)).erase i)) k
      (i :: (i + 2 ^ k) :: F k)) ∧
    Frame A h h' ∧ h'.currentSizeBytes = h.currentSizeBytes ∧
    h.Writes (fun j => j ∈ F (k + 1) ∨ j = i + 2 ^ k) h' := by
  obtain ⟨h1, hrun, L1, fr1, hsize, -, hw1⟩ := removeFree_ok L hi
  have hk := L.order_lt_of_mem hi
  have hk' : k < 8 := Nat.lt_of_succ_lt hk
  have hp := Nat.two_pow_pos k
  have hs1 : Starts (update A i (some (k + 1)))
      (update F (k + 1) ((F (k + 1)).erase i)) i (k + 1) := .inl (update_self ..)
  have hbud : Tiling.buddy i k = i + 2 ^ k := buddy_of_aligned (L1.tiles.aligned hs1)
  have hb := L1.bound hs1
  have hle := L1.size_le
  have hmax := L1.size_max
  have hpow : 2 ^ (k + 1) = 2 ^ k + 2 ^ k := by rw [pow_succ]; omega
  have hhead := L1.head_lt hk'
  have hlow := putFree_hdr h1 i (i + 2 ^ k) (k := k) (by omega) (by omega)
  have hhigh := putFree_hdr (h1.putFree i k (i + 2 ^ k)) (i + 2 ^ k) _ (k := k) (by omega) hhead
  have hclear : ∀ c, Covers i (k + 1) c → Clear A h1 c := fun c hc =>
    L1.clear (sub_update (L.apart hi) _) hs1 (L.apart hi) hc
  refine ⟨((h1.putFree i k (i + 2 ^ k)).putFree (i + 2 ^ k) k (h1.freeHeadPerOrder k)).withHead k i,
    ?_, ?_, ?_, hsize, ?_⟩
  · simp only [splitBlock, block_bind, order_ok L (.inr hi), if_neg (Nat.not_le_of_lt hk),
      bind_ok hrun, order_ok L1 hs1, compute_bind, checkedSub_ok (Nat.le_add_left 1 k),
      Nat.add_sub_cancel, buddy_ok (by omega : k < 16), hbud]
    rw [onBlock_setOrder (by omega) hk', onBlock_becomeFree (by simp; omega),
      onBlock_setOrder (by simp; omega) hk', freeHead_bind hk',
      onBlock_becomeFree (by simp; omega), setFreeHead_ok hk']
    rfl
  · have L2 := L1.split (g := ((h1.putFree i k (i + 2 ^ k)).putFree (i + 2 ^ k) k
      (h1.freeHeadPerOrder k)).withHead k i) rfl rfl (update_self ..) ?_ ?_ ?_ rfl
    · have hA : update A i none = A := by
        rw [update_eq_self_iff]
        exact (L.apart hi).symm
      rw [update_idem, hA, update_of_ne (by omega : k ≠ k + 1)] at L2
      exact L2
    · intro j hji hjb
      rw [withHead_hdr, putFree_hdr_ne _ hjb, putFree_hdr_ne _ hji]
    · rw [withHead_hdr, putFree_hdr_ne _ (by omega : i ≠ i + 2 ^ k)]
      exact hlow
    · exact hhigh
  · have c1 := hclear i (covers_start i (k + 1))
    have c2 := hclear (i + 2 ^ k) ⟨by omega, by omega⟩
    exact fr1.trans ((putFree_frame c1 _ _).trans
      ((putFree_frame (h := h1.putFree i k (i + 2 ^ k)) c2 _ _).trans
      (Frame.withHead A _ _ _)))
  · have hw := hw1.mono (T := fun j => j ∈ F (k + 1) ∨ j = i + 2 ^ k) fun _ hj => .inl hj
    have hlower := hw.trans (putFree_writes (.inl hi) h1 k (i + 2 ^ k))
    have hboth :=
      hlower.trans (putFree_writes (i := i + 2 ^ k) (.inr rfl) _ k (h1.freeHeadPerOrder k))
    exact fun x hx => hboth x hx

end SplitBlock

section GrowHeap

theorem newFree_bind {β : Type} (hb : 16 * i + 8 ≤ h.mapping.len) (hk : k < numOrders) (next : Nat)
    (g : Unit → HeapM β) : (unwrapS (onBlock (Block.newFree · i k next)) >>= g) h =
      g () (h.putHdr i (Block.freeWord (setOrder 0 k) next)) := by
  refine bind_ok (unwrapS_ok ?_) g
  simp only [onBlock, writing, Block.newFree_eq hb hk]
  rfl

theorem putHdr_newFree (h : Heap) (i last : Nat) :
    FreeHdr ((h.putHdr i (Block.freeWord (setOrder 0 7) last)).hdr i) 7 (last % 2 ^ 28) := by
  rw [hdr_putHdr_self]
  simp only [FreeHdr, order_mod, blockType_mod, freeNextIndex_mod, order_freeWord,
    blockType_freeWord, freeNextIndex_freeWord, order_setOrder (by decide : 7 < 16), and_self]

section
variable {N n : Nat} (hb : 16 * (N + (n + 1) * 2 ^ 7) ≤ h.mapping.len) (last fuel : Nat)
include hb last fuel

theorem growLoop_succ :
    growLoop (fuel + 1) N (N + (n + 1) * 2 ^ 7) last h =
      (if N + n * 2 ^ 7 ≤ N then pure (N + n * 2 ^ 7)
        else growLoop fuel N (N + n * 2 ^ 7) (N + n * 2 ^ 7))
        (h.putHdr (N + n * 2 ^ 7) (Block.freeWord (setOrder 0 7) last)) := by
  have hsub : N + (n + 1) * 2 ^ 7 - maxOrderSize / 16 = N + n * 2 ^ 7 := by
    simp only [maxOrderSize]
    lia
  have hle : maxOrderSize / 16 ≤ N + (n + 1) * 2 ^ 7 := by
    simp only [maxOrderSize]
    lia
  simp only [growLoop, compute_bind, indexForOffset_eq (by decide : maxOrderSize < 2 ^ 36),
    checkedSub_ok hle, hsub]
  rw [newFree_bind (by lia) (by decide)]
  rfl

/-- The loop writes the headers of `n + 1` blocks of the largest order from the end down. The
links are cut to the 28 bits of their field. -/
theorem growLoop_ok (hf : n < fuel) :
    ∃ m, growLoop fuel N (N + (n + 1) * 2 ^ 7) last h = .ok N (h.withMapping m) ∧
      m.len = h.mapping.len ∧
      (∀ x, x < 16 * N ∨ 16 * (N + (n + 1) * 2 ^ 7) ≤ x → m.byte x = h.mapping.byte x) ∧
      h.Writes (fun j => ∃ q < n + 1, j = N + q * 2 ^ 7) (h.withMapping m) ∧
      ∀ q < n + 1, FreeHdr (Inspect.hdr m.byte (N + q * 2 ^ 7)) 7
        ((if q + 1 < n + 1 then N + (q + 1) * 2 ^ 7 else last) % 2 ^ 28) := by
  induction n generalizing h last fuel with
  | zero =>
    obtain ⟨fuel, rfl⟩ : ∃ f, fuel = f + 1 := ⟨fuel - 1, by omega⟩
    refine ⟨h.mapping.putHdr N (Block.freeWord (setOrder 0 7) last), ?_, rfl, ?_,
      Heap.Writes.putHdr ⟨0, by omega, by omega⟩ h _, ?_⟩
    · rw [growLoop_succ hb, zero_mul, add_zero, if_pos (le_refl N)]
      rfl
    · intro x hx
      exact Mapping.putHdr_byte (by omega)
    · intro q hq
      obtain rfl : q = 0 := by omega
      rw [zero_mul, if_neg (by decide)]
      exact putHdr_newFree h N last
  | succ n ih =>
    obtain ⟨fuel, rfl⟩ : ∃ f, fuel = f + 1 := ⟨fuel - 1, by omega⟩
    have hb' : 16 * (N + (n + 1) * 2 ^ 7) ≤ h.mapping.len := by lia
    obtain ⟨m, hrun, hlen, hbytes, hw, hnew⟩ := ih
      (h := h.putHdr (N + (n + 1) * 2 ^ 7) (Block.freeWord (setOrder 0 7) last)) hb'
      (N + (n + 1) * 2 ^ 7) fuel (by omega)
    refine ⟨m, ?_, hlen, ?_, ?_, ?_⟩
    · rw [growLoop_succ hb, if_neg (by lia), hrun]
      rfl
    · intro x hx
      rw [hbytes x (by lia)]
      exact Mapping.putHdr_byte (by lia)
    · have hstep := hw.mono (T := fun j => ∃ q < n + 1 + 1, j = N + q * 2 ^ 7)
        fun _ ⟨q, hq, he⟩ => ⟨q, by omega, he⟩
      exact (Heap.Writes.putHdr ⟨n + 1, by omega, rfl⟩ h _).trans hstep
    · intro q hq
      by_cases hq' : q < n + 1
      · obtain ⟨h1, h2, h3⟩ := hnew q hq'
        refine ⟨h1, h2, ?_⟩
        rw [h3, if_pos (by omega : q + 1 < n + 1 + 1)]
        split
        · rfl
        · rw [show q = n by omega]
      · obtain rfl : q = n + 1 := by omega
        have he : Inspect.hdr m.byte (N + (n + 1) * 2 ^ 7) =
            (h.putHdr (N + (n + 1) * 2 ^ 7) (Block.freeWord (setOrder 0 7) last)).hdr _ :=
          word_congr fun x hl hr => hbytes x (by lia)
        rw [he, if_neg (by omega)]
        exact putHdr_newFree h _ last

end

theorem growHeap_run (requested : Nat) (hpage : pageSizeBytes ∣ h.currentSizeBytes)
    (hgrow : h.currentSizeBytes < min h.mapping.len requested)
    (hnew : pageSizeBytes ∣ min h.mapping.len requested)
    (hmax : min h.mapping.len requested < 2 ^ 36) :
    ∃ m n, growHeap requested h = .ok () ⟨m, min h.mapping.len requested,
        update h.freeHeadPerOrder 7 h.cells⟩ ∧
      min h.mapping.len requested = h.currentSizeBytes + 2048 * (n + 1) ∧
      m.len = h.mapping.len ∧
      (∀ x, x < h.currentSizeBytes ∨ min h.mapping.len requested ≤ x →
        m.byte x = h.mapping.byte x) ∧
      h.Writes (fun j => ∃ q < n + 1, j = h.cells + q * 2 ^ 7) (h.withMapping m) ∧
      ∀ q < n + 1, FreeHdr (Inspect.hdr m.byte (h.cells + q * 2 ^ 7)) 7
        ((if q + 1 < n + 1 then h.cells + (q + 1) * 2 ^ 7 else h.freeHeadPerOrder 7) % 2 ^ 28) := by
  have hlt : h.currentSizeBytes ≠ h.mapping.len := by omega
  obtain ⟨p, hp⟩ := hpage
  obtain ⟨q, hq⟩ := hnew
  simp only [pageSizeBytes] at hp hq
  obtain ⟨n, hn⟩ : ∃ n, 2 * q = 2 * p + (n + 1) := ⟨2 * q - 2 * p - 1, by omega⟩
  have hcells : h.cells = 256 * p := by
    simp only [Heap.cells, hp, minOrderSize]
    omega
  have hend : min h.mapping.len requested / 16 = h.cells + (n + 1) * 2 ^ 7 := by
    rw [hq, hcells]
    lia
  obtain ⟨m, hrun, hlen, hbytes, hw, hhdrs⟩ := growLoop_ok (h := h) (N := h.cells) (n := n)
    (by rw [← hend]; omega) (h.freeHeadPerOrder 7) (h.cells + (n + 1) * 2 ^ 7 + 1) (by lia)
  refine ⟨m, n, ?_, by rw [hq, hp]; lia, hlen, ?_, hw, hhdrs⟩
  · have hmin : min h.mapping.len requested - min h.mapping.len requested % pageSizeBytes =
        min h.mapping.len requested := by
      rw [hq, pageSizeBytes, Nat.mul_mod_right, Nat.sub_zero]
    simp only [growHeap, get_bind, if_neg (fun hc : _ ∧ _ => hlt hc.1), compute_bind, hmin,
      indexForOffset_eq (by omega : h.currentSizeBytes < 2 ^ 36), indexForOffset_eq hmax, hend]
    rw [freeHead_bind (by decide), compute_bind]
    refine (bind_ok hrun _).trans ?_
    exact bind_ok (setFreeHead_ok (by decide) h.cells (h.withMapping m)) _
  · intro x hx
    refine hbytes x (hx.imp (fun hx => ?_) fun hx => ?_)
    · omega
    · rw [← hend]
      omega

theorem growHeap_ok (L : Layout h A F) (requested : Nat)
    (hgrow : h.currentSizeBytes < min h.mapping.len requested)
    (hpage : pageSizeBytes ∣ min h.mapping.len requested)
    (hmax : min h.mapping.len requested ≤ 2 ^ 32) :
    ∃ h' l, growHeap requested h = .ok () h' ∧ Layout h' A (update F 7 (l ++ F 7)) ∧
      l ≠ [] ∧ Frame A h h' ∧ h'.currentSizeBytes = min h.mapping.len requested ∧
      h'.freeHeadPerOrder 7 = h.cells ∧
      h'.currentSizeBytes = h.currentSizeBytes + 2048 * l.length ∧ h.Writes (· ∈ l) h' := by
  obtain ⟨m, n, hrun, hsize, hlen, hbytes, hw, hhdrs⟩ := growHeap_run requested L.size_page hgrow
    hpage (by omega)
  have hcells : 16 * h.cells = h.currentSizeBytes := Nat.mul_div_cancel'
    ((by decide : minOrderSize ∣ pageSizeBytes).trans L.size_page)
  refine ⟨_, (List.range' 0 (n + 1)).map (fun q => h.cells + q * 2 ^ 7), hrun, ?_, ?_, ?_, rfl, ?_,
    ?_, ?_⟩
  · refine L.grow (Nat.succ_pos n) hsize hpage ?_ hmax ?_ ?_ rfl
    · rw [hlen]
      exact min_le_left ..
    · intro j hj
      exact word_congr fun x hl hr => hbytes x (.inl (by omega))
    · intro q hq
      obtain ⟨h1, h2, h3⟩ := hhdrs q hq
      refine ⟨h1, h2, h3.trans (Nat.mod_eq_of_lt ?_)⟩
      split
      · lia
      · exact L.head_lt (by decide)
  · rw [List.range'_succ]
    exact List.cons_ne_nil _ _
  · refine ⟨hlen, le_of_lt hgrow, ?_, fun hx => hbytes _ (.inr hx)⟩
    intro i k x hi hl hr
    have hb := L.bound (.inl hi)
    exact hbytes x (.inl (by omega))
  · simp
  · rw [List.length_map, List.length_range']
    exact hsize
  · refine fun x hx => hw x (hx.imp_left fun hno ⟨q, hq, he⟩ => hno ?_)
    exact List.mem_map.mpr ⟨q, List.mem_range'_1.mpr ⟨by omega, by omega⟩, he.symm⟩

end GrowHeap

end Heap

end Garnet.Inspect
