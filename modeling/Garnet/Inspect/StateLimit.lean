import Garnet.Inspect.Accounting
import Garnet.Inspect.HeapLimit

/-! The indices in the fields of blocks have 28 bits. In a heap that grows past `2 ^ 32` bytes there
can be an extent that no field can point to. -/

namespace Garnet.Inspect
open List
open Function (update_eq_self update_of_ne update_self)
open BlockHeader
open Heap (new onBlock)

/-- A heap of `2 ^ 33` bytes: its first half is laid out as a heap of its own, and the first block
of its second half is an extent. -/
structure Beyond (h : Heap) (R : Roles) (F : Lists) (g : Heap) : Prop where
  mapping : g.mapping = h.mapping
  view : View h.mapping g R F
  len : h.mapping.len = 2 ^ 33
  half : g.currentSizeBytes = 2 ^ 32
  size : h.currentSizeBytes = 2 ^ 33
  orders : ∀ q < 2 ^ 21, order (h.hdr (2 ^ 28 + q * 2 ^ 7)) = 7
  extent : blockType (h.hdr (2 ^ 28)) = BlockType.extent.toU8

section Beyond
variable {h g : Heap} {R S : Roles} {F : Lists} {f : Mapping → Except Fault Mapping} {g' : Heap}

theorem onBlock_withMapping (hm : g.mapping = h.mapping) (hg : onBlock f g = .ok () g') :
    onBlock f h = .ok () (h.withMapping g'.mapping) := by
  simp only [onBlock, writing] at *
  rw [hm] at hg
  cases hf : f h.mapping with
  | ok u =>
    rw [hf] at hg
    cases hg
    rfl
  | error e =>
    rw [hf] at hg
    cases hg

theorem Beyond.write (B : Beyond h R F g) (hrun : onBlock f g = .ok () g')
    (V : View h.mapping g' S F) (hsize : g'.currentSizeBytes = g.currentSizeBytes) :
    ∃ h', onBlock f h = .ok () h' ∧ Beyond h' S F g' := by
  have hhdr : ∀ j, 2 ^ 28 ≤ j → (h.withMapping g'.mapping).hdr j = h.hdr j := by
    intro j hj
    refine word_congr fun x hx _ => V.tail x ?_
    rw [hsize, B.half]
    omega
  refine ⟨_, onBlock_withMapping B.mapping hrun, rfl, ⟨V.inv, V.shows, rfl, fun _ _ => rfl⟩,
    V.len.trans B.len, hsize.trans B.half, B.size, ?_, ?_⟩
  · intro q hq
    rw [hhdr _ (by omega), B.orders q hq]
  · rw [hhdr _ (by omega), B.extent]

theorem Beyond.blocks (B : Beyond h R F g) : ∃ bs, h.blocks = some bs ∧ (2 ^ 28, 7) ∈ bs ∧
    Block.blockType h.mapping (2 ^ 28) = .ok .extent := by
  obtain ⟨bs, hbs, -, hnew⟩ := grown_blocks B.view.inv B.half B.size
    (fun j _ => by rw [Heap.hdr, Heap.hdr, B.mapping]) B.orders
  have hlen : 16 * 2 ^ 28 + 8 ≤ h.mapping.len := by
    rw [B.len]
    decide
  exact ⟨bs, hbs, hnew 0 (by decide), Block.blockType_eq (s := h.mapping) hlen B.extent⟩

theorem View.rebase {m : Mapping} (V : View m h R F) (hlen : g.mapping.len = h.mapping.len)
    (hsize : g.currentSizeBytes = h.currentSizeBytes)
    (hheads : g.freeHeadPerOrder = h.freeHeadPerOrder)
    (hbytes : ∀ x < h.currentSizeBytes, g.mapping.byte x = h.mapping.byte x) :
    View g.mapping g R F := by
  have L := V.inv.layout
  have hhdr : ∀ {j k}, Starts R.orders F j k → g.hdr j = h.hdr j := by
    intro j k hj
    have hb := L.bound hj
    have hp := Nat.two_pow_pos k
    exact word_congr fun x _ hx => hbytes x (by omega)
  refine ⟨⟨L.write hsize hlen hheads ?_ ?_, hsize ▸ V.inv.size_pos, V.inv.coalesced, ?_⟩, ?_, rfl,
    fun _ _ => rfl⟩
  · intro j k hj
    rw [hhdr (.inl hj), L.used_order hj]
  · exact fun j k hj => hhdr (.inr hj)
  · intro j k hj
    obtain ⟨t, hne, ht⟩ := V.inv.typed j k hj
    exact ⟨t, hne, by rw [hhdr (.inl hj), ht]⟩
  · intro j k b hj
    refine (V.shows hj).congr fun x _ hx => hbytes x ?_
    have hb := L.bound (View.starts hj)
    omega

end Beyond

section Fill
variable {m : Mapping} {h : Heap} {R : Roles} {F : Lists} {e : Nat} {bytes rest : List UInt8}

open State in
theorem write_beyond (V : View h.mapping h R F) (hlen : h.mapping.len = 2 ^ 33)
    (hsize : h.currentSizeBytes = 2 ^ 32) {h' : Heap} (hm : h'.mapping = h.mapping)
    (hsize' : h'.currentSizeBytes = 2 ^ 33)
    (horders : ∀ q < 2 ^ 21, order (h'.hdr (2 ^ 28 + q * 2 ^ 7)) = 7)
    (htype : blockType (h'.hdr (2 ^ 28)) = BlockType.reserved.toU8) (hrest : rest.length = 2040)
    (fuel : Nat) :
    ∃ h2 g, writeExtentsLoop (fuel + 1) (2 ^ 28) rest h' = .ok () h2 ∧ Beyond h2 R F g := by
  have hlen' : h'.mapping.len = 2 ^ 33 := by rw [hm, hlen]
  have hbe : Block.becomeExtent h'.mapping (2 ^ 28) 0 = .ok (h'.mapping.putHdr (2 ^ 28)
      (Block.extentWord (h'.hdr (2 ^ 28)) 0)) :=
    Block.becomeExtent_eq (by rw [hlen']; decide) htype 0
  generalize hu : h'.mapping.putHdr (2 ^ 28) (Block.extentWord (h'.hdr (2 ^ 28)) 0) = u at hbe
  have hulen : u.len = 2 ^ 33 := by rw [← hu]; exact hlen'
  have hufirst : hdr u.byte (2 ^ 28) = Block.extentWord (h'.hdr (2 ^ 28)) 0 % 2 ^ 64 := by
    rw [← hu, Mapping.hdr_putHdr_self]
  have huo : order (hdr u.byte (2 ^ 28)) = 7 := by
    rw [hufirst, order_mod, order_extentWord]
    exact horders 0 (by decide)
  have hut : blockType (hdr u.byte (2 ^ 28)) = BlockType.extent.toU8 := by
    rw [hufirst, blockType_mod, blockType_extentWord]
  have hset : setContents (2 ^ 28) rest (h'.withMapping u) =
      .ok 2040 (h'.withMapping (u.put (16 * 2 ^ 28 + 8) rest)) := by
    have hb : 16 * 2 ^ 28 + 8 ≤ u.len := by
      rw [hulen]
      decide
    have hput : Block.writePayloadFromBytes u (2 ^ 28) rest = .ok (u.put (16 * 2 ^ 28 + 8) rest) :=
      Block.writePayloadFromBytes_eq (by rw [hulen, hrest]; decide)
    have hk : Block.order u (2 ^ 28) = .ok 7 :=
      (Block.order_eq (s := u) hb).trans (congrArg Except.ok huo)
    simp only [setContents, Heap.withMapping_mapping, Block.extentSetContents,
      Block.checkType_eq (s := u) hb hut, hk, ok_bind, show payloadSizeForOrder 7 = 2040 from rfl,
      take_of_length_le (le_of_eq hrest), hput, except_pure, hrest]
    rfl
  have hbytes : ∀ x, x < 2 ^ 32 ∨ 2 ^ 32 + 2048 ≤ x →
      (u.put (16 * 2 ^ 28 + 8) rest).byte x = h'.mapping.byte x := by
    intro x hx
    rw [Mapping.put_byte_of_not_mem (by omega), ← hu, Mapping.putHdr_byte (by omega)]
  have hfirst : hdr (u.put (16 * 2 ^ 28 + 8) rest).byte (2 ^ 28) = hdr u.byte (2 ^ 28) :=
    Mapping.word_put_disjoint (by omega)
  refine ⟨h'.withMapping (u.put (16 * 2 ^ 28 + 8) rest),
    ⟨u.put (16 * 2 ^ 28 + 8) rest, 2 ^ 32,
      h.freeHeadPerOrder⟩, ?_, rfl, ?_, hulen, rfl, hsize', ?_, ?_⟩
  · have hrun : onBlock (Block.becomeExtent · (2 ^ 28) 0) h' = .ok () (h'.withMapping u) := by
      simp only [onBlock, writing, hbe]
    rw [writeExtentsLoop, if_neg (by omega), bind_ok hrun, bind_ok hset,
      drop_eq_nil_of_le (le_of_eq hrest)]
    rfl
  · refine V.rebase (g := ⟨u.put (16 * 2 ^ 28 + 8) rest, 2 ^ 32, h.freeHeadPerOrder⟩)
      (hulen.trans hlen.symm) hsize.symm rfl fun x hx => ?_
    rw [hbytes x (.inl (hsize ▸ hx)), hm]
  · intro q hq
    rcases Nat.eq_zero_or_pos q with rfl | hpos
    · exact (congrArg order hfirst).trans huo
    · exact (congrArg order (word_congr fun x hx _ => hbytes x (.inr (by omega)))).trans
        (horders q hq)
  · exact (congrArg blockType hfirst).trans hut

open State in
theorem last_extent (V : View m h R F) (hlen : m.len = 2 ^ 33) (hsize : h.currentSizeBytes = 2 ^ 32)
    (hF : F 7 = []) (he : R e = some (7, .extent 0 bytes)) (hrest : rest.length = 2040)
    (fuel : Nat) :
    ∃ h' g, (do
      let next ← Heap.allocateBlock (blockSizeForPayload rest.length)
      onBlock (Block.setExtentNextIndex · e next)
      writeExtentsLoop (fuel + 1) next rest : HeapM Unit) h = .ok () h' ∧ Beyond h' R F g := by
  obtain ⟨h1, hrun1, O⟩ := overgrow V.inv (V.len.trans hlen) hsize hF
  have V1 : View h1.mapping ⟨h1.mapping, 2 ^ 32, h.freeHeadPerOrder⟩ R F :=
    V.rebase (g := ⟨h1.mapping, 2 ^ 32, h.freeHeadPerOrder⟩) (O.len.trans (V.len.trans hlen).symm)
      hsize.symm rfl fun x hx => O.bytes x (hsize ▸ hx)
  obtain ⟨g2, hrun2, V2, hs2⟩ := V1.setExtentNextIndex he (2 ^ 28)
  have hs2 : g2.currentSizeBytes = 2 ^ 32 := hs2
  rw [show 2 ^ 28 % 2 ^ 28 = 0 from rfl, ← he, update_eq_self] at V2
  have hhdr : ∀ j, 2 ^ 28 ≤ j → (h1.withMapping g2.mapping).hdr j = h1.hdr j := by
    intro j hj
    refine word_congr fun x hx _ => V2.tail x ?_
    rw [hs2]
    omega
  obtain ⟨h3, g, hrun3, B⟩ := write_beyond (h := g2) (R := R) (F := F)
    ⟨V2.inv, V2.shows, rfl, fun _ _ => rfl⟩ (V2.len.trans O.len) hs2
    (rfl : (h1.withMapping g2.mapping).mapping = g2.mapping) O.size
    (fun q hq => by rw [hhdr _ (by omega), O.orders q hq]) (by rw [hhdr _ (le_refl _), O.reserved])
    hrest fuel
  refine ⟨h3, g, ?_, B⟩
  rw [hrest, show blockSizeForPayload 2040 = 2048 from rfl, bind_ok hrun1, 
    bind_ok (onBlock_withMapping (h := h1) (g := ⟨h1.mapping, 2 ^ 32, h.freeHeadPerOrder⟩) rfl hrun2)]
  exact hrun3

open State in
theorem fill (T : Nat) (V : View m h R F) (hlen : m.len = 2 ^ 33) (he : R e = some (7, .reserved))
    (hsize : ∃ j ≤ 20, h.currentSizeBytes = 4096 * 2 ^ j)
    (hT : (F 7).length + (2 ^ 32 - h.currentSizeBytes) / 2048 = T)
    (hrest : rest.length = 2040 * (T + 2)) (fuel : Nat) (hf : rest.length < fuel) :
    ∃ h' g S F', writeExtentsLoop fuel e rest h = .ok () h' ∧ Beyond h' S F' g ∧
      ∀ j b, j ≠ e → R j = some b → S j = some b := by
  induction T generalizing h R F e rest fuel with
  | zero =>
    obtain ⟨fuel, rfl⟩ : ∃ f, fuel = f + 2 := ⟨fuel - 2, by omega⟩
    obtain ⟨h0, h1, bytes, hrun0, hrun1, V1, hs1, -⟩ := writeExtent V he rest
    have he1 := update_self e (some (7, Role.extent 0 bytes)) R
    have hfull : h.currentSizeBytes = 2 ^ 32 := by
      obtain ⟨j, hj, hs⟩ := hsize
      have := V.inv.layout.size_max
      omega
    have hF : F 7 = [] := length_eq_zero_iff.mp (by omega)
    have hdrop : (rest.drop 2040).length = 2040 := by
      rw [length_drop]
      omega
    obtain ⟨h2, g, hrun2, B⟩ := last_extent V1 hlen (hs1.trans hfull) hF he1 hdrop fuel
    refine ⟨h2, g, _, F, ?_, B, fun j b hj hb => by rw [update_of_ne hj, hb]⟩
    rw [writeExtentsLoop, if_neg (by omega), bind_ok hrun0, bind_ok hrun1,
      show payloadSizeForOrder 7 = 2040 from rfl, min_eq_left (by omega), if_neg (by omega)]
    exact hrun2
  | succ T ih =>
    obtain ⟨fuel, rfl⟩ : ∃ f, fuel = f + 1 := ⟨fuel - 1, by omega⟩
    obtain ⟨h0, h1, bytes, hrun0, hrun1, V1, hs1, -⟩ := writeExtent V he rest
    have he1 := update_self e (some (7, Role.extent 0 bytes)) R
    have hroom : ¬ (F 7 = [] ∧ h1.currentSizeBytes = 2 ^ 32) := by
      rintro ⟨hF, hs⟩
      rw [hF, ← hs1, hs] at hT
      simp at hT
    obtain ⟨next, h2, F2, hrun2, hal, hsize2⟩ := allocate_top V1.inv (V1.len.trans hlen)
      (hs1 ▸ hsize) hroom
    have V2 := V1.allocated hal
    have hfresh := Roles.orders_eq_none.mp hal.fresh
    have hne : next ≠ e := (ne_of_none hfresh he1).symm
    obtain ⟨h3, hrun3, V3, hs3⟩ := V2.setExtentNextIndex (i := e)
      (by rw [update_of_ne hne.symm, he1]) next
    have hdrop : (rest.drop 2040).length = 2040 * (T + 2) := by
      rw [length_drop]
      omega
    have hT2 : (F2 7).length + (2 ^ 32 - h3.currentSizeBytes) / 2048 = T := by
      obtain ⟨l, hF2, hmem, hsz⟩ := hal.top rfl
      have herase := length_erase_of_mem hmem
      have hpos := length_pos_of_mem hmem
      have hmax := V2.inv.layout.size_max
      rw [length_append] at herase hpos
      rw [hF2, update_self, herase, hs3, hsz]
      omega
    obtain ⟨h4, g, S, F4, hrun4, B, hS⟩ := ih V3 (e := next)
      (by rw [update_of_ne hne, update_self]) (hs3 ▸ hsize2) hT2 hdrop fuel (by omega)
    refine ⟨h4, g, S, F4, ?_, B, ?_⟩
    · have hsz : blockSizeForPayload (rest.drop 2040).length = 2048 := by
        simp only [blockSizeForPayload, maxOrderSize, minOrderSize, headerSizeBytes]
        omega
      rw [writeExtentsLoop, if_neg (by omega), bind_ok hrun0, bind_ok hrun1,
        show payloadSizeForOrder 7 = 2040 from rfl, min_eq_left (by omega), if_neg (by omega), hsz,
        bind_ok hrun2, bind_ok hrun3]
      exact hrun4
    · intro j b hj hb
      have hjn : j ≠ next := ne_of_none hfresh (by rw [update_of_ne hj, hb])
      refine hS j b hjn ?_
      rw [update_of_ne hj, update_of_ne hjn, update_of_ne hj, hb]

end Fill

section Counterexample

variable {m : Mapping} {i j : Nat}

theorem nextExtent_lt (h : Block.nextExtent m i = .ok j) : j < 2 ^ 28 := by
  obtain ⟨_, -, h⟩ := ok_of_bind h
  obtain ⟨w, -, h⟩ := ok_of_bind h
  cases h
  exact LittleEndian.bits_lt w 8 28

theorem propertyExtentIndex_lt (h : Block.propertyExtentIndex m i = .ok j) : j < 2 ^ 28 := by
  obtain ⟨_, -, h⟩ := ok_of_bind h
  obtain ⟨w, -, h⟩ := ok_of_bind h
  cases h
  exact LittleEndian.bits_lt w 32 28

theorem not_reaches {x e : Nat} (hx : Block.propertyExtentIndex m i = .ok x)
    (he : 2 ^ 28 ≤ e) : ¬ Reaches m x e := by
  intro hr
  cases hr with
  | refl => exact absurd (propertyExtentIndex_lt hx) (Nat.not_lt.mpr he)
  | tail _ hnext => exact absurd (nextExtent_lt hnext) (Nat.not_lt.mpr he)

theorem onBlock_size {f : Mapping → Except Fault Mapping} {h h' : Heap}
    (hrun : onBlock f h = .ok () h') : h'.currentSizeBytes = h.currentSizeBytes := by
  simp only [onBlock, writing] at hrun
  split at hrun
  · cases hrun
    rfl
  · cases hrun

open State in
theorem set_beyond {m : Mapping} {h : Heap} {R : Roles} {F : Lists} {i k n g : Nat}
    {f : PropertyFormat} (V : View m h R F) (hlen : m.len = 2 ^ 33) (h0 : R 0 = some (0, .header g))
    (hi : R i = some (k, .property f n 0 0 0)) (hsize : h.currentSizeBytes = 4096) :
    ∃ value h' g' S F', innerSetPropertyValue i value h = .ok () h' ∧ Beyond h' S F' g' ∧
      S 0 = some (0, .header g) := by
  obtain ⟨e, h1, F1, hrun1, hal, hsize1⟩ := allocate_top V.inv (V.len.trans hlen)
    ⟨0, by decide, hsize⟩ (by rw [hsize]; simp)
  have V1 := V.allocated hal
  have he1 := update_self e (some (7, Role.reserved)) R
  have hfresh := Roles.orders_eq_none.mp hal.fresh
  obtain ⟨T, hT⟩ : ∃ T, (F1 7).length + (2 ^ 32 - h1.currentSizeBytes) / 2048 = T := ⟨_, rfl⟩
  have hTle : T ≤ 2 ^ 21 := by
    have := top_length_le V1
    have := V1.inv.layout.size_max
    omega
  obtain ⟨value, hvalue⟩ : ∃ value : List UInt8, value.length = 2040 * (T + 2) :=
    ⟨List.replicate _ 0, length_replicate⟩
  obtain ⟨h2, g2, S2, F2, hrun2, B2, hkeep⟩ := fill T V1 hlen he1 hsize1 hT hvalue (value.length + 1)
    (Nat.lt_succ_self _)
  have hne : ∀ {j b}, R j = some b → j ≠ e ∧ S2 j = some b := by
    intro j b hj
    have hje : j ≠ e := ne_of_none hfresh hj
    exact ⟨hje, hkeep j b hje (by rw [update_of_ne hje, hj])⟩
  have hi0 : i ≠ 0 := by
    rintro rfl
    rw [hi] at h0
    cases h0
  obtain ⟨g3, hrun3, V3, hs3⟩ :=
    B2.view.setPropertyTotalLength (hne hi).2 (x := value.length) (by omega)
  obtain ⟨h3, hrun3, B3⟩ := B2.write hrun3 V3 hs3
  obtain ⟨g4, hrun4, V4, hs4⟩ := B3.view.setPropertyExtentIndex (update_self ..) (V1.index_lt he1)
  obtain ⟨h4, hrun4, B4⟩ := B3.write hrun4 V4 hs4
  refine ⟨value, h4, g4, _, F2, ?_, B4, ?_⟩
  · have hsz : blockSizeForPayload value.length = 2048 := by
      simp only [blockSizeForPayload, maxOrderSize, minOrderSize, headerSizeBytes]
      omega
    have hfree : freeExtents 0 h = .ok () h := rfl
    have hwrite : writeExtents value h = .ok e h2 := by
      rw [writeExtents, if_neg (by omega), hsz, bind_ok hrun1, bind_ok hrun2]
      rfl
    have hu32 : lengthU32 value.length = .ok value.length := if_pos (by omega)
    simp only [innerSetPropertyValue, Heap.block_bind, (V.holds hi).propertyExtentIndex]
    rw [bind_ok hfree, bind_ok hwrite, Heap.compute_bind, hu32]
    exact (bind_ok hrun3 _).trans hrun4
  · rw [update_of_ne hi0.symm, update_of_ne hi0.symm]
    exact (hne h0).2

theorem huge_reserved : ∃ h0 h b h2, new hugeMapping = .ok h0 ∧ State.create h0 = .ok () h ∧
    State.reserveProperty [] 0 h = .ok b h2 ∧ h.currentSizeBytes = 4096 ∧
      h2.currentSizeBytes = 4096 := by
  have hrun : (new hugeMapping).toOption.any (fun h0 =>
      returned (fun _ h =>
        returned (fun _ h2 => h.currentSizeBytes == 4096 && h2.currentSizeBytes == 4096)
          (State.reserveProperty [] 0 h))
      (State.create h0)) = true := by decide +kernel
  obtain ⟨h0, hnew, hrun⟩ := (Option.any_eq_true _ _).mp hrun
  obtain ⟨_, h, hcreate, hrun⟩ := ok_of_returned hrun
  obtain ⟨b, h2, hreserve, hrun⟩ := ok_of_returned hrun
  exact ⟨h0, h, b, h2, ok_of_toOption hnew, hcreate, hreserve, by simpa using hrun⟩

open State in
theorem huge_property : ∃ h value i h' S F g, Opened hugeMapping h [] ∧
    createProperty [] value .bytes 0 h = .ok i h' ∧ Beyond h' S F g := by
  obtain ⟨h0, h, b, h2, hnew, hcreate, hres, hsize, hsize2⟩ := huge_reserved
  have ho : Opened hugeMapping h [] := ⟨⟨h0, hnew, hcreate⟩, rfl⟩
  obtain ⟨F, I⟩ := ho.inv (by decide) (by decide)
  have hz : onlyHeader 0 = some (0, .header 0) := update_self ..
  obtain ⟨h1, hlock, V1, -⟩ := I.view.lockHeader hz rfl
  rw [reserveProperty, bind_ok hlock] at hres
  rcases reserve_cases I (by decide) (.inl (by rw [hz]; simp)) hz
    (by rw [onBlock_size hlock, hsize]; decide) V1 (by decide : 16 ≤ minOrderSize) (by decide) [] with
    ⟨i, n, k, h2', F2, S, hrun2, -, r, V2⟩ | ⟨msg, h2', F2, hrun2, -⟩
  swap
  · rw [hrun2] at hres
    cases hres
  obtain ⟨-, rfl⟩ := result_ok hrun2 hres
  obtain ⟨hi0, -⟩ := r.ne_zero I.owns
  obtain ⟨l, hname⟩ := r.name
  obtain ⟨h3, hrun3, V3, hs3⟩ :=
    V2.becomeProperty r.value .bytes (V2.index_lt hname) (by decide : 0 < 2 ^ 28)
  obtain ⟨value, h4, g4, S4, F4, hrun4, B4, hz4⟩ := set_beyond (g := tick 0) V3 rfl
    (by rw [update_of_ne hi0.symm, r.header]) (update_self ..) (hs3.trans hsize2)
  obtain ⟨g5, hrun5, V5, -⟩ := B4.view.unlockHeader hz4 rfl
  obtain ⟨h5, hrun5, B5⟩ := B4.write hrun5 V5 (onBlock_size hrun5)
  refine ⟨h, value, i, h5, _, F4, g5, ho, ?_, B5⟩
  rw [createProperty, withHeaderLock, bind_ok hlock]
  refine (bind_ok (attempt_ok ((bind_ok hrun2 _).trans ((bind_ok hrun3 _).trans
    (bind_ok (attempt_ok hrun4) _)))) _).trans ?_
  exact (bind_ok hrun5 _).trans rfl

/-- In a huge mapping an extent can be without an owner. -/
theorem extent_unowned : ∃ a h items, Run a (successful hugeMapping) h items ∧
    ∃ bs e k, h.blocks = some bs ∧ (e, k) ∈ bs ∧ Block.blockType h.mapping e = .ok .extent ∧
      ¬ ∃ i, (∃ k, (i, k) ∈ bs) ∧
        ∃ x, Block.propertyExtentIndex h.mapping i = .ok x ∧ Reaches h.mapping x e := by
  obtain ⟨h, value, i, h', S, F, g, ho, hrun, B⟩ := huge_property
  obtain ⟨F0, I⟩ := ho.inv (by decide) (by decide)
  obtain ⟨bs0, hbs0, -⟩ := I.view.inv.blocks
  have hknown : h.Knows 0 :=
    .inl ⟨bs0, 0, hbs0, I.view.mem_blocks hbs0 (update_self ..)⟩
  obtain ⟨bs, hbs, hin, htype⟩ := B.blocks
  refine ⟨keepLeft, h', _,
    .call (c := .createProperty [] value .bytes 0) (.start ho) hknown trivial hrun,
    bs, 2 ^ 28, 7, hbs, hin, htype, ?_⟩
  rintro ⟨i, -, x, hx, hr⟩
  exact not_reaches hx (le_refl _) hr

end Counterexample

end Garnet.Inspect
