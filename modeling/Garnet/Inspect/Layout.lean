import Garnet.Inspect.Heap
import Garnet.Inspect.Memory
import Garnet.Lib.Assoc
import Garnet.Lib.LinkedList
import Garnet.Lib.Tiling
import Mathlib.Data.List.Nodup
import Mathlib.Data.List.Perm.Subperm

/-! The layout of the heap: which blocks there are and how the free ones are linked.
Each edit of headers and list heads that the heap makes is one lemma here. -/

namespace Garnet.Inspect
open List
open Function (forall_update_iff update update_comm update_eq_self_iff update_idem update_of_ne
  update_self)
open Tiling LinkedList BlockHeader

abbrev Used := Nat → Option Nat

abbrev Lists := Nat → List Nat

theorem mem_update_cons {F : Lists} {i j k l : Nat} :
    j ∈ update F k (i :: F k) l ↔ j = i ∧ l = k ∨ j ∈ F l := by
  by_cases hlk : l = k
  · simp [hlk]
  · simp [hlk]

/-- The header word of a free block of order `k`. -/
def FreeHdr (w k next : Nat) : Prop :=
  order w = k ∧ blockType w = BlockType.free.toU8 ∧ freeNextIndex w = next

/-- A block of order `k` starts at `i`. -/
def Starts (A : Used) (F : Lists) (i k : Nat) : Prop := A i = some k ∨ i ∈ F k

namespace Heap

abbrev hdr (h : Heap) (i : Nat) : Nat := Inspect.hdr h.mapping.byte i

abbrev next (h : Heap) (i : Nat) : Nat := freeNextIndex (h.hdr i)

abbrev cells (h : Heap) : Nat := h.currentSizeBytes / minOrderSize

section Fields
variable (h : Heap) (m : Mapping) (i k w : Nat)

@[simp] theorem withMapping_mapping : (h.withMapping m).mapping = m := rfl

@[simp] theorem withMapping_size : (h.withMapping m).currentSizeBytes = h.currentSizeBytes := rfl

@[simp] theorem withMapping_heads : (h.withMapping m).freeHeadPerOrder = h.freeHeadPerOrder := rfl

@[simp] theorem withHead_mapping : (h.withHead k i).mapping = h.mapping := rfl

@[simp] theorem withHead_size : (h.withHead k i).currentSizeBytes = h.currentSizeBytes := rfl

@[simp] theorem withHead_heads :
    (h.withHead k i).freeHeadPerOrder = update h.freeHeadPerOrder k i := rfl

@[simp] theorem withHead_hdr (j : Nat) : (h.withHead k i).hdr j = h.hdr j := rfl

def putHdr : Heap := h.withMapping (h.mapping.putHdr i w)

@[simp] theorem putHdr_mapping : (h.putHdr i w).mapping = h.mapping.putHdr i w := rfl

@[simp] theorem putHdr_size : (h.putHdr i w).currentSizeBytes = h.currentSizeBytes := rfl

@[simp] theorem putHdr_heads : (h.putHdr i w).freeHeadPerOrder = h.freeHeadPerOrder := rfl

theorem hdr_putHdr_self : (h.putHdr i w).hdr i = w % 2 ^ 64 := h.mapping.hdr_putHdr_self i w

theorem hdr_putHdr_ne {j : Nat} (hj : j ≠ i) : (h.putHdr i w).hdr j = h.hdr j :=
  Mapping.hdr_putHdr_ne hj w

end Fields

end Heap

/-- A mapping of more than `2 ^ 32` bytes has indices that the links cannot hold. -/
structure Layout (h : Heap) (A : Used) (F : Lists) : Prop where
  size_page : pageSizeBytes ∣ h.currentSizeBytes
  size_le : h.currentSizeBytes ≤ h.mapping.len
  size_max : h.currentSizeBytes ≤ 2 ^ 32
  tiles : Tiles numOrders h.cells (Starts A F)
  used_order : ∀ {i k}, A i = some k → order (h.hdr i) = k
  free_order : ∀ {i k}, i ∈ F k → order (h.hdr i) = k
  free_type : ∀ {i k}, i ∈ F k → blockType (h.hdr i) = BlockType.free.toU8
  links : ∀ k < numOrders, Linked 0 h.next (h.freeHeadPerOrder k) (F k)
  nodup : ∀ k, (F k).Nodup
  apart : ∀ {i k}, i ∈ F k → A i = none

/-- From `h` to `g` the blocks of `A` and the memory behind the heap keep their bytes. -/
structure Frame (A : Used) (h g : Heap) : Prop where
  len : g.mapping.len = h.mapping.len
  size : h.currentSizeBytes ≤ g.currentSizeBytes
  bytes : ∀ {i k x}, A i = some k → 16 * i ≤ x → x < 16 * (i + 2 ^ k) →
    g.mapping.byte x = h.mapping.byte x
  tail : ∀ {x}, g.currentSizeBytes ≤ x → g.mapping.byte x = h.mapping.byte x

/-- The bytes that differ lie in the header words of cells in `S`. -/
def Heap.Writes (S : Nat → Prop) (h g : Heap) : Prop :=
  ∀ x, ¬ S (x / 16) ∨ 8 ≤ x % 16 → g.mapping.byte x = h.mapping.byte x

section Writes
variable {S T : Nat → Prop} {h g u : Heap}

theorem Heap.Writes.refl (S : Nat → Prop) (h : Heap) : Heap.Writes S h h := fun _ _ => rfl

theorem Heap.Writes.trans (h1 : Heap.Writes S h g) (h2 : Heap.Writes S g u) : Heap.Writes S h u :=
  fun x hx => (h2 x hx).trans (h1 x hx)

theorem Heap.Writes.mono (h1 : Heap.Writes S h g) (hs : ∀ j, S j → T j) : Heap.Writes T h g :=
  fun x hx => h1 x (hx.imp_left fun ht hj => ht (hs _ hj))

theorem Heap.Writes.putHdr {c : Nat} (hc : S c) (h : Heap) (w : Nat) :
    Heap.Writes S h (h.putHdr c w) := by
  intro x hx
  apply Mapping.putHdr_byte
  rcases hx with hx | hx
  · have hne : x / 16 ≠ c := fun he => hx (he ▸ hc)
    omega
  · omega

end Writes

/-- The cell is in use and in no block of `A`. -/
def Clear (A : Used) (h : Heap) (c : Nat) : Prop :=
  (∀ i k, A i = some k → ¬ Covers i k c) ∧ 16 * c + 16 ≤ h.currentSizeBytes

theorem sub_update {A : Used} {i : Nat} (hi : A i = none) (v : Option Nat) (j l : Nat)
    (hj : A j = some l) : update A i v j = some l := by
  rw [update_of_ne (ne_of_none hi hj), hj]

namespace Frame
variable {A A' : Used} {h g u : Heap} {i k : Nat}

theorem refl (A : Used) (h : Heap) : Frame A h h := ⟨rfl, le_refl _, fun _ _ _ => rfl, fun _ => rfl⟩

theorem trans (h1 : Frame A h g) (h2 : Frame A g u) : Frame A h u where
  len := h2.len.trans h1.len
  size := h1.size.trans h2.size
  bytes hA hl hr := (h2.bytes hA hl hr).trans (h1.bytes hA hl hr)
  tail hx := (h2.tail hx).trans (h1.tail (h2.size.trans hx))

theorem mono (h1 : Frame A' h g) (hs : ∀ i k, A i = some k → A' i = some k) : Frame A h g :=
  ⟨h1.len, h1.size, fun hA => h1.bytes (hs _ _ hA), h1.tail⟩

theorem hdr_eq (h1 : Frame A h g) (hA : A i = some k) : g.hdr i = h.hdr i := by
  have hp := Nat.two_pow_pos k
  exact word_congr fun x hl hr => h1.bytes hA hl (by omega)

theorem withHead (A : Used) (h : Heap) (k i : Nat) : Frame A h (h.withHead k i) :=
  ⟨rfl, le_refl _, fun _ _ _ => rfl, fun _ => rfl⟩

theorem putHdr {c : Nat} (hc : Clear A h c) (w : Nat) : Frame A h (h.putHdr c w) where
  len := rfl
  size := le_refl _
  bytes {i k x} hi hl hr := by
    apply Mapping.putHdr_byte
    by_contra hcon
    exact hc.1 i k hi ⟨by omega, by omega⟩
  tail {x} hx := by
    have hb := hc.2
    rw [Heap.putHdr_size] at hx
    exact Mapping.putHdr_byte (by omega)

end Frame

namespace Layout
variable {h g : Heap} {A : Used} {F : Lists} {i j k l c : Nat}

section
variable (L : Layout h A F)
include L

section
variable (hi : Starts A F i k)
include hi

theorem starts_order : order (h.hdr i) = k :=
  hi.elim L.used_order L.free_order

theorem bound : 16 * i + 16 * 2 ^ k ≤ h.currentSizeBytes := by
  have hin := L.tiles.inside hi
  simp only [Heap.cells, minOrderSize] at hin
  omega

theorem bound_hdr : 16 * i + 16 ≤ h.mapping.len := by
  have hb := L.bound hi
  have hp := Nat.two_pow_pos k
  have hl := L.size_le
  omega

theorem index_lt : i < 2 ^ 28 := by
  have hb := L.bound hi
  have hp := Nat.two_pow_pos k
  have hm := L.size_max
  omega

end

theorem head_lt (hk : k < numOrders) : h.freeHeadPerOrder k < 2 ^ 28 := by
  have hhead := (L.links k hk).head_eq
  cases hF : F k with
  | nil =>
    rw [hhead, hF]
    decide
  | cons a l =>
    rw [hhead, hF]
    exact L.index_lt (.inr (hF ▸ mem_cons_self))

theorem order_lt_of_mem (hi : i ∈ F k) : k < numOrders :=
  L.tiles.order_lt (.inr hi)

theorem cells_aligned : 2 ^ 7 ∣ h.cells := by
  obtain ⟨q, hq⟩ := L.size_page
  simp only [Heap.cells, hq, pageSizeBytes, minOrderSize]
  exact ⟨2 * q, by omega⟩

theorem cells_pos (hp : 0 < h.currentSizeBytes) : 0 < h.cells := by
  obtain ⟨q, hq⟩ := L.size_page
  simp only [Heap.cells, hq, pageSizeBytes, minOrderSize] at *
  omega

theorem length_lt (k : Nat) : (F k).length < h.cells + 1 := by
  have hsub : F k ⊆ List.range h.cells := fun i hi =>
    mem_range.mpr (L.tiles.lt_cells (.inr hi))
  have hle := (List.Nodup.subperm (L.nodup k) hsub).length_le
  rw [length_range] at hle
  omega

theorem links_congr (hfree : ∀ {j l}, j ∈ F l → g.hdr j = h.hdr j) (hk : k < numOrders) :
    Linked 0 g.next (h.freeHeadPerOrder k) (F k) :=
  (L.links k hk).congr fun j hj => by simp only [Heap.next, hfree hj]

theorem not_starts_of_covers (hi : Starts A F i k) (hc : Covers i k c) (hne : c ≠ i)
    (l : Nat) : ¬ Starts A F c l := fun hs =>
  hne (L.tiles.unique hs hi (covers_start c l) hc).1

end

theorem inner_bytes (L : Layout g A F) (hi : Starts A F i k)
    (hw : Heap.Writes (fun j => ∃ l, Starts A F j l) h g) {x : Nat} (hx : 16 * i + 8 ≤ x)
    (hlt : x < 16 * (i + 2 ^ k)) : g.mapping.byte x = h.mapping.byte x := by
  apply hw
  by_cases hmod : 8 ≤ x % 16
  · exact .inr hmod
  · refine .inl ?_
    rintro ⟨l, hl⟩
    exact L.not_starts_of_covers hi ⟨by omega, by omega⟩ (by omega) l hl

theorem clear {A' : Used} (L : Layout h A' F) (hs : ∀ i k, A i = some k → A' i = some k)
    (hj : Starts A' F j l) (hA : A j = none) (hc : Covers j l c) : Clear A h c := by
  refine ⟨?_, ?_⟩
  · exact fun i k hi hci => L.tiles.disjoint (.inl (hs i k hi)) hj (ne_of_none hA hi) hci hc
  · have hb := L.bound hj
    obtain ⟨_, hc2⟩ := hc
    omega

theorem buddy_starts (L : Layout h A F) (hi : Starts A F i k) :
    ∃ l, Starts A F (Tiling.buddy i k) l := by
  have hk : k < 8 := L.tiles.order_lt hi
  rcases lt_or_ge k 7 with hlt | hge
  · obtain ⟨l, _, hl⟩ := L.tiles.buddy_start L.cells_aligned hi hlt
    exact ⟨l, hl⟩
  · obtain rfl : k = 7 := by omega
    have ha := L.tiles.aligned hi
    refine L.tiles.aligned_start ?_ (buddy_aligned ha)
    obtain ⟨q, hq⟩ := L.size_page
    have hlt := L.tiles.lt_cells hi
    have hcells : h.cells = 256 * q := by
      simp only [Heap.cells, hq, pageSizeBytes, minOrderSize]
      omega
    rcases buddy_halves ha with ⟨⟨r, hr⟩, he⟩ | ⟨_, he⟩ <;> omega

theorem mem_erase (L : Layout h A F) (hi : i ∈ F k) :
    j ∈ update F k ((F k).erase i) l ↔ j ∈ F l ∧ j ≠ i := by
  by_cases hlk : l = k
  · subst l
    rw [update_self, (L.nodup k).mem_erase_iff]
    exact And.comm
  · rw [update_of_ne hlk]
    refine ⟨fun hj => ⟨hj, ?_⟩, And.left⟩
    rintro rfl
    exact hlk ((L.free_order hj).symm.trans (L.free_order hi))

theorem upper_half (L : Layout h A F) (hi : Starts A F i (k + 1)) (l : Nat) :
    ¬ Starts A F (i + 2 ^ k) l := by
  have hp := Nat.two_pow_pos k
  exact L.not_starts_of_covers hi ⟨by omega, by rw [pow_succ]; omega⟩ (by omega) l

theorem ne_of_mem (L : Layout h A F) (hi : A i = some k) (hj : j ∈ F l) : j ≠ i :=
  (ne_of_none (L.apart hj) hi).symm

section Edits
variable (L : Layout h A F) (hsize : g.currentSizeBytes = h.currentSizeBytes)
  (hlen : g.mapping.len = h.mapping.len)
include L hsize hlen

theorem unlink (hi : i ∈ F k) (ho : ∀ j, order (g.hdr j) = order (h.hdr j))
    (ht : ∀ j, blockType (g.hdr j) = blockType (h.hdr j))
    (hk : Linked 0 g.next (g.freeHeadPerOrder k) ((F k).erase i))
    (hl : ∀ l < numOrders, l ≠ k → Linked 0 g.next (g.freeHeadPerOrder l) (F l)) :
    Layout g (update A i (some k)) (update F k ((F k).erase i)) := by
  refine ⟨hsize ▸ L.size_page, by rw [hsize, hlen]; exact L.size_le,
    hsize ▸ L.size_max, ?_, ?_, ?_, ?_, ?_, ?_, ?_⟩
  · have hc : g.cells = h.cells := by rw [Heap.cells, hsize]
    rw [hc]
    refine L.tiles.congr fun j l => ?_
    simp only [Starts, L.mem_erase hi, update_eq_some, Option.some.injEq]
    constructor
    · rintro ((⟨rfl, rfl⟩ | ⟨_, hA⟩) | ⟨hF, _⟩)
      · exact .inr hi
      · exact .inl hA
      · exact .inr hF
    · rintro (hA | hF)
      · exact .inl (.inr ⟨(L.ne_of_mem hA hi).symm, hA⟩)
      · by_cases hji : j = i
        · subst j
          exact .inl (.inl ⟨rfl, (L.free_order hi).symm.trans (L.free_order hF)⟩)
        · exact .inr ⟨hF, hji⟩
  · intro j l hj
    rw [ho]
    rcases update_eq_some.mp hj with ⟨rfl, hl⟩ | ⟨_, hA⟩
    · exact (L.free_order hi).trans (Option.some.inj hl)
    · exact L.used_order hA
  · intro j l hj
    rw [ho]
    exact L.free_order ((L.mem_erase hi).mp hj).1
  · intro j l hj
    rw [ht]
    exact L.free_type ((L.mem_erase hi).mp hj).1
  · exact (forall_update_iff F fun l is => l < numOrders → Linked 0 g.next
      (g.freeHeadPerOrder l) is).mpr
      ⟨fun _ => hk, fun l hlk hl8 => hl l hl8 hlk⟩
  · exact (forall_update_iff F fun _ is => is.Nodup).mpr ⟨(L.nodup k).erase i, fun l _ => L.nodup l⟩
  · intro j l hj
    obtain ⟨hF, hne⟩ := (L.mem_erase hi).mp hj
    rw [update_of_ne hne]
    exact L.apart hF

theorem link (hi : A i = some k) (hother : ∀ j, j ≠ i → g.hdr j = h.hdr j)
    (hfree : FreeHdr (g.hdr i) k (h.freeHeadPerOrder k))
    (hheads : g.freeHeadPerOrder = update h.freeHeadPerOrder k i) :
    Layout g (update A i none) (update F k (i :: F k)) := by
  have hnot : ∀ {l}, i ∉ F l := fun hl => L.ne_of_mem hi hl rfl
  have hhdr : ∀ {j l}, j ∈ F l → g.hdr j = h.hdr j := fun hj => hother _ (L.ne_of_mem hi hj)
  refine ⟨hsize ▸ L.size_page, by rw [hsize, hlen]; exact L.size_le,
    hsize ▸ L.size_max, ?_, ?_, ?_, ?_, ?_, ?_, ?_⟩
  · have hc : g.cells = h.cells := by rw [Heap.cells, hsize]
    rw [hc]
    refine L.tiles.congr fun j l => ?_
    by_cases hji : j = i
    · subst j
      simp only [Starts, mem_update_cons, hi, update_self, hnot, Option.some.injEq]
      simp [eq_comm]
    · simp [Starts, mem_update_cons, hji]
  · intro j l hj
    obtain ⟨hji, hA⟩ := of_update_none hj
    rw [hother j hji]
    exact L.used_order hA
  · intro j l hj
    rcases mem_update_cons.mp hj with ⟨rfl, rfl⟩ | hF
    · exact hfree.1
    · rw [hhdr hF]
      exact L.free_order hF
  · intro j l hj
    rcases mem_update_cons.mp hj with ⟨rfl, rfl⟩ | hF
    · exact hfree.2.1
    · rw [hhdr hF]
      exact L.free_type hF
  · intro l hl
    rw [hheads]
    by_cases hlk : l = k
    · subst l
      simp only [update_self, linked_cons, true_and, hfree.2.2]
      exact L.links_congr hhdr hl
    · rw [update_of_ne hlk, update_of_ne hlk]
      exact L.links_congr hhdr hl
  · exact (forall_update_iff F fun _ is => is.Nodup).mpr
      ⟨nodup_cons.mpr ⟨hnot, L.nodup k⟩, fun l _ => L.nodup l⟩
  · intro j l hj
    rcases mem_update_cons.mp hj with ⟨rfl, rfl⟩ | hF
    · exact update_self ..
    · rw [update_of_ne (L.ne_of_mem hi hF)]
      exact L.apart hF

theorem replace {A' : Used} (hheads : g.freeHeadPerOrder = h.freeHeadPerOrder)
    (hfree : ∀ j k, j ∈ F k → g.hdr j = h.hdr j) (htiles : Tiles numOrders h.cells (Starts A' F))
    (ho : ∀ j k, A' j = some k → order (g.hdr j) = k) (hapart : ∀ j k, j ∈ F k → A' j = none) :
    Layout g A' F := by
  refine ⟨hsize ▸ L.size_page, by rw [hsize, hlen]; exact L.size_le,
    hsize ▸ L.size_max, ?_, fun hj => ho _ _ hj, ?_, ?_, ?_, L.nodup, fun hj => hapart _ _ hj⟩
  · have hc : g.cells = h.cells := by rw [Heap.cells, hsize]
    exact hc ▸ htiles
  · intro j l hj
    rw [hfree j l hj]
    exact L.free_order hj
  · intro j l hj
    rw [hfree j l hj]
    exact L.free_type hj
  · intro l hl
    rw [hheads]
    exact L.links_congr (hfree _ _) hl

theorem write (hheads : g.freeHeadPerOrder = h.freeHeadPerOrder)
    (ho : ∀ j k, A j = some k → order (g.hdr j) = k)
    (hfree : ∀ j k, j ∈ F k → g.hdr j = h.hdr j) : Layout g A F :=
  L.replace hsize hlen hheads hfree L.tiles ho fun _ _ hj => L.apart hj

section
variable (hi : A i = some (k + 1)) (hother : ∀ j, j ≠ i → j ≠ i + 2 ^ k → g.hdr j = h.hdr j)
include hi hother

theorem halve (ho : order (g.hdr i) = k) (hob : order (g.hdr (i + 2 ^ k)) = k)
    (hheads : g.freeHeadPerOrder = h.freeHeadPerOrder) :
    Layout g (update (update A i (some k)) (i + 2 ^ k) (some k)) F := by
  have hfresh := L.upper_half (.inl hi)
  have hne : ∀ {j l}, j ∈ F l → j ≠ i ∧ j ≠ i + 2 ^ k := fun hj =>
    ⟨L.ne_of_mem hi hj, fun he => hfresh _ (.inr (he ▸ hj))⟩
  have hused : ∀ {j l}, update (update A i (some k)) (i + 2 ^ k) (some k) j = some l ↔
      (l = k ∧ (j = i ∨ j = i + 2 ^ k)) ∨ (j ≠ i ∧ j ≠ i + 2 ^ k ∧ A j = some l) := by
    intro j l
    simp only [update_eq_some, Option.some.injEq]
    grind
  refine L.replace hsize hlen hheads (fun j l hj => hother j (hne hj).1 (hne hj).2) ?_ ?_ ?_
  · refine (L.tiles.split (.inl hi)).congr fun j l => ?_
    simp only [Starts, Tiles.Split, hused]
    constructor
    · rintro ((hs | ⟨hji, _, hA⟩) | hF)
      · exact .inr hs
      · exact .inl ⟨.inl hA, hji⟩
      · exact .inl ⟨.inr hF, (hne hF).1⟩
    · rintro (⟨hA | hF, hji⟩ | hs)
      · refine .inl (.inr ⟨hji, ?_, hA⟩)
        rintro rfl
        exact hfresh l (.inl hA)
      · exact .inr hF
      · exact .inl (.inl hs)
  · intro j l hj
    rcases hused.mp hj with ⟨rfl, rfl | rfl⟩ | ⟨hji, hjb, hA⟩
    · exact ho
    · exact hob
    · rw [hother j hji hjb]
      exact L.used_order hA
  · intro j l hj
    rw [update_of_ne (hne hj).2, update_of_ne (hne hj).1]
    exact L.apart hj

/-- The two halves of a block outside the lists go to the front of their list. The heaps in
between have the new headers and the old list heads. -/
theorem split (hlow : FreeHdr (g.hdr i) k (i + 2 ^ k))
    (hhigh : FreeHdr (g.hdr (i + 2 ^ k)) k (h.freeHeadPerOrder k))
    (hheads : g.freeHeadPerOrder = update h.freeHeadPerOrder k i) :
    Layout g (update A i none) (update F k (i :: (i + 2 ^ k) :: F k)) := by
  have L1 := L.halve (g := { g with freeHeadPerOrder := h.freeHeadPerOrder }) hsize hlen hi hother
    hlow.1 hhigh.1 rfl
  have L2 := L1.link (i := i + 2 ^ k) (k := k)
    (g := { g with freeHeadPerOrder := update h.freeHeadPerOrder k (i + 2 ^ k) })
    rfl rfl (by simp) (fun _ _ => rfl) hhigh rfl
  have L3 := L2.link (i := i) (k := k) (g := g) rfl rfl (by simp) (fun _ _ => rfl)
    (by simpa using hlow) (by rw [hheads, update_idem])
  have hA : update (update (update (update A i (some k))
      (i + 2 ^ k) (some k)) (i + 2 ^ k) none) i none = update A i none := by
    have hne : i + 2 ^ k ≠ i := by simp
    have hnone : A (i + 2 ^ k) = none :=
      Option.eq_none_iff_forall_ne_some.mpr fun l hl => L.upper_half (.inl hi) l (.inl hl)
    rw [update_idem, update_comm hne, update_idem, update_eq_self_iff, update_of_ne hne, hnone]
  rw [hA, update_self, update_idem] at L3
  exact L3

end

theorem join (hi : A i = some k) (hb : A (i + 2 ^ k) = some k) (ha : 2 ^ (k + 1) ∣ i)
    (hk : k + 1 < numOrders) (hother : ∀ j, j ≠ i → g.hdr j = h.hdr j)
    (ho : order (g.hdr i) = k + 1) (hheads : g.freeHeadPerOrder = h.freeHeadPerOrder) :
    Layout g (update (update A (i + 2 ^ k) none) i (some (k + 1))) F := by
  have hp := Nat.two_pow_pos k
  have hne : ∀ {j l}, j ∈ F l → j ≠ i ∧ j ≠ i + 2 ^ k :=
    fun hj => ⟨L.ne_of_mem hi hj, L.ne_of_mem hb hj⟩
  have hused : ∀ {j l}, update (update A (i + 2 ^ k) none) i (some (k + 1)) j = some l ↔
      (j = i ∧ l = k + 1) ∨ (j ≠ i ∧ j ≠ i + 2 ^ k ∧ A j = some l) := by
    simp [update_eq_some, eq_comm (a := k + 1)]
  refine L.replace hsize hlen hheads (fun j l hj => hother j (hne hj).1) ?_ ?_ ?_
  · refine (L.tiles.merge (.inl hi) (.inl hb) ha hk).congr fun j l => ?_
    simp only [Starts, Tiles.Merge, hused]
    constructor
    · rintro ((hs | ⟨hji, hjb, hA⟩) | hF)
      · exact .inr hs
      · exact .inl ⟨.inl hA, hji, hjb⟩
      · exact .inl ⟨.inr hF, hne hF⟩
    · rintro (⟨hA | hF, hji, hjb⟩ | hs)
      · exact .inl (.inr ⟨hji, hjb, hA⟩)
      · exact .inr hF
      · exact .inl (.inl hs)
  · intro j l hj
    rcases hused.mp hj with ⟨rfl, rfl⟩ | ⟨hji, hjb, hA⟩
    · exact ho
    · rw [hother j hji]
      exact L.used_order hA
  · intro j l hj
    rw [update_of_ne (hne hj).1, update_of_ne (hne hj).2]
    exact L.apart hj

end Edits

theorem grow (L : Layout h A F) {n : Nat} (hn : 0 < n)
    (hsize : g.currentSizeBytes = h.currentSizeBytes + 2048 * n)
    (hpage : pageSizeBytes ∣ g.currentSizeBytes) (hle : g.currentSizeBytes ≤ g.mapping.len)
    (hmax : g.currentSizeBytes ≤ 2 ^ 32) (hold : ∀ j < h.cells, g.hdr j = h.hdr j)
    (hnew : ∀ q < n, FreeHdr (g.hdr (h.cells + q * 2 ^ 7)) 7
      (if q + 1 < n then h.cells + (q + 1) * 2 ^ 7 else h.freeHeadPerOrder 7))
    (hheads : g.freeHeadPerOrder = update h.freeHeadPerOrder 7 h.cells) :
    Layout g A (update F 7
      ((List.range' 0 n).map (fun q => h.cells + q * 2 ^ 7) ++ F 7)) := by
  have hin : ∀ {j l}, Starts A F j l → j < h.cells := fun hj => L.tiles.lt_cells hj
  have hhdr : ∀ {j l}, j ∈ F l → g.hdr j = h.hdr j := fun hj => hold _ (hin (.inr hj))
  have hmem : ∀ {j l}, j ∈ update F 7
      ((List.range' 0 n).map (fun q => h.cells + q * 2 ^ 7) ++ F 7) l ↔
      j ∈ F l ∨ (l = 7 ∧ ∃ q < n, j = h.cells + q * 2 ^ 7) := by
    intro j l
    by_cases hl : l = 7
    · subst l
      simp [or_comm, eq_comm]
    · simp [hl]
  refine ⟨hpage, hle, hmax, ?_, ?_, ?_, ?_, ?_, ?_, ?_⟩
  · have hc : g.cells = h.cells + n * 2 ^ 7 := by
      have hdvd : minOrderSize ∣ h.currentSizeBytes :=
        (by decide : minOrderSize ∣ pageSizeBytes).trans L.size_page
      simp only [Heap.cells, hsize, minOrderSize] at hdvd ⊢
      omega
    rw [hc]
    refine (L.tiles.grow L.cells_aligned n).congr fun j l => ?_
    simp only [Starts, hmem, or_assoc]
  · intro j l hj
    rw [hold j (hin (.inl hj))]
    exact L.used_order hj
  · intro j l hj
    rcases hmem.mp hj with hF | ⟨rfl, q, hq, rfl⟩
    · rw [hhdr hF]
      exact L.free_order hF
    · exact (hnew q hq).1
  · intro j l hj
    rcases hmem.mp hj with hF | ⟨rfl, q, hq, rfl⟩
    · rw [hhdr hF]
      exact L.free_type hF
    · exact (hnew q hq).2.1
  · intro l hl
    rw [hheads]
    by_cases hl7 : l = 7
    · subst l
      rw [update_self, update_self]
      refine linked_append.mpr ⟨h.freeHeadPerOrder 7, ?_, L.links_congr hhdr hl⟩
      have hchain : Linked (h.freeHeadPerOrder 7) g.next
          (if n = 0 then h.freeHeadPerOrder 7 else h.cells + 0 * 2 ^ 7)
          ((List.range' 0 n).map fun q => h.cells + q * 2 ^ 7) :=
        linked_range' (fun q => h.cells + q * 2 ^ 7) 0 n fun q _ hq => by
          rw [Heap.next, (hnew q (by omega)).2.2, zero_add]
      rw [if_neg (by omega)] at hchain
      simpa using hchain
    · rw [update_of_ne hl7, update_of_ne hl7]
      exact L.links_congr hhdr hl
  · refine (forall_update_iff F fun _ is => is.Nodup).mpr ⟨?_, fun l _ => L.nodup l⟩
    refine nodup_append.mpr ⟨?_, L.nodup 7, ?_⟩
    · refine List.Nodup.map_on ?_ nodup_range'
      intro a _ b _ hab
      omega
    · rintro a ha b hb rfl
      obtain ⟨q, _, rfl⟩ := mem_map.mp ha
      have := hin (.inr hb)
      omega
  · intro j l hj
    rcases hmem.mp hj with hF | ⟨rfl, q, hq, rfl⟩
    · exact L.apart hF
    · cases hA : A (h.cells + q * 2 ^ 7) with
      | none => rfl
      | some l =>
        have := hin (.inl hA)
        omega

end Layout

end Garnet.Inspect
