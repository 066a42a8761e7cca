import Garnet.Inspect.StateSpec

/-! The extents of a property: the chain that holds its value, how it is freed and written, and
when the heap has room for it. -/

namespace Garnet.Inspect
open List
open Function (update update_idem update_of_ne update_self)

namespace Roles

/-- The blocks of `es` are gone. -/
def without (R : Roles) (es : List Nat) : Roles := fun i => if i ∈ es then none else R i

theorem without_nil (R : Roles) : R.without [] = R := by
  funext i
  simp [without]

theorem without_cons (R : Roles) (e : Nat) (es : List Nat) :
    Roles.without (update R e none) es = R.without (e :: es) := by
  funext i
  by_cases hi : i = e
  · subst i
    simp [without]
  · simp [without, hi]

end Roles

/-- The extents `es`, linked in this order, hold the value. -/
def Chain (R : Roles) : List Nat → List UInt8 → Prop
  | [], value => value = []
  | e :: es, value => ∃ k bytes, R e = some (k, .extent (es.headD 0) bytes) ∧ value ≠ [] ∧
      value.take bytes.length = bytes.take value.length ∧ Chain R es (value.drop bytes.length)

variable {R : Roles} {es : List Nat} {value : List UInt8} {e : Nat}

theorem Chain.congr {S : Roles} (hc : Chain R es value) (h : ∀ e ∈ es, S e = R e) :
    Chain S es value := by
  induction es generalizing value with
  | nil => exact hc
  | cons e es ih =>
    obtain ⟨k, bytes, he, hne, hv, hrest⟩ := hc
    refine ⟨k, bytes, (h e mem_cons_self).trans he, hne, hv, ih hrest ?_⟩
    exact fun j hj => h j (mem_cons_of_mem e hj)

theorem Chain.extent (hc : Chain R es value) (he : e ∈ es) :
    ∃ k next bytes, R e = some (k, .extent next bytes) := by
  induction es generalizing value with
  | nil => cases he
  | cons a es ih =>
    obtain ⟨k, bytes, ha, -, -, hrest⟩ := hc
    rcases mem_cons.mp he with rfl | he
    · exact ⟨k, _, bytes, ha⟩
    · exact ih hrest he

theorem Chain.ne_zero (hc : Chain R es value) {g : Nat} (h0 : R 0 = some (0, .header g))
    (he : e ∈ es) : e ≠ 0 := by
  rintro rfl
  obtain ⟨k, next, bytes, hR⟩ := hc.extent he
  rw [h0] at hR
  cases hR

structure Wrote (R R' : Roles) (es : List Nat) (value : List UInt8) : Prop where
  chain : Chain R' es value
  nodup : es.Nodup
  fresh : ∀ j ∈ es, R j = none
  off : ∀ j, j ∉ es → R' j = R j

structure Leaked (R R' : Roles) (es : List Nat) : Prop where
  fresh : ∀ j ∈ es, R j = none
  used : ∀ j ∈ es, R' j ≠ none
  off : ∀ j, j ∉ es → R' j = R j

section Cons
variable {R S R' : Roles} {e k next : Nat} {es : List Nat} {bytes rest : List UInt8}

theorem Wrote.leaked {value : List UInt8} (hw : Wrote R R' es value) : Leaked R R' es := by
  refine ⟨hw.fresh, fun j hj hnone => ?_, hw.off⟩
  obtain ⟨k, next, bytes, hR⟩ := hw.chain.extent hj
  exact nomatch hnone.symm.trans hR

theorem Leaked.kept (hw : Leaked S R' es) (he : S e ≠ none) : e ∉ es ∧ R' e = S e :=
  have hnotin := fun hin => he (hw.fresh e hin)
  ⟨hnotin, hw.off e hnotin⟩

theorem Leaked.cons (hS : S e = some (k, .extent next bytes)) (hn : next ≠ e)
    (hrel : ∀ j, j ≠ e → update S next none j = update R e none j)
    (hw : Leaked (update S next none) R' (next :: es)) :
    Leaked (update R e none) R' (e :: next :: es) ∧
      e ∉ next :: es ∧ R' e = some (k, .extent next bytes) := by
  have hSe : update S next none e = some (k, .extent next bytes) := by
    rw [update_of_ne hn.symm, hS]
  obtain ⟨hnotin, he⟩ := hw.kept (e := e) (hSe ▸ nofun)
  rw [hSe] at he
  refine ⟨⟨?_, forall_mem_cons.mpr ⟨he ▸ nofun, hw.used⟩, ?_⟩, hnotin, he⟩
  · refine forall_mem_cons.mpr ⟨update_self .., fun j hj => ?_⟩
    rw [← hrel j fun he => hnotin (he ▸ hj)]
    exact hw.fresh j hj
  · intro j hj
    obtain ⟨hje, hj⟩ := ne_and_not_mem_of_not_mem_cons hj
    rw [hw.off j hj, hrel j hje]

theorem Wrote.cons (hS : S e = some (k, .extent next bytes)) (hn : next ≠ e)
    (hrel : ∀ j, j ≠ e → update S next none j = update R e none j)
    (hne : rest ≠ []) (htake : rest.take bytes.length = bytes.take rest.length)
    (hw : Wrote (update S next none) R' (next :: es) (rest.drop bytes.length)) :
    Wrote (update R e none) R' (e :: next :: es) rest := by
  obtain ⟨hl, hnotin, he⟩ := Leaked.cons hS hn hrel hw.leaked
  exact ⟨⟨k, bytes, he, hne, htake, hw.chain⟩, nodup_cons.mpr ⟨hnotin, hw.nodup⟩, hl.fresh, hl.off⟩

end Cons

namespace Heap

/-- The number of blocks of the largest order that are free or that the heap can still grow by. -/
def tops (h : Heap) (F : Lists) : Nat :=
  (F 7).length + (h.mapping.len - h.currentSizeBytes) / maxOrderSize

/-- There is room for the extents of a value of `n` bytes: blocks of the largest order for all of
them, or for all but the last one and some free block for that. -/
def Fits (h : Heap) (F : Lists) (n : Nat) : Prop :=
  n = 0 ∨ (n - 1) / 2040 < h.tops F ∨ (n - 1) / 2040 = h.tops F ∧
    ∃ f k, fitOrder (blockSizeForPayload (n - 2040 * ((n - 1) / 2040))) = .ok f ∧ f ≤ k ∧ k < 7 ∧
      F k ≠ []

end Heap

namespace State
variable {m : Mapping} {h h' : Heap} {R : Roles} {F F' : Lists} {i j k l n g : Nat}

section FreeExtents
variable {es : List Nat} {value : List UInt8}

section
variable (V : View m h R F) (h0 : R 0 = some (0, .header g)) (hc : Chain R es value) (hnd : es.Nodup)
include V h0 hc hnd

theorem freeExtentsLoop_ok (fuel : Nat) (hf : es.length < fuel) :
    ∃ h' F', freeExtentsLoop fuel (es.headD 0) h = .ok () h' ∧ View m h' (R.without es) F' := by
  induction es generalizing fuel h R F value with
  | nil =>
    obtain ⟨fuel, rfl⟩ : ∃ f, fuel = f + 1 := ⟨fuel - 1, by omega⟩
    exact ⟨h, F, rfl, by rwa [Roles.without_nil]⟩
  | cons e es ih =>
    obtain ⟨fuel, rfl⟩ : ∃ f, fuel = f + 1 := ⟨fuel - 1, by omega⟩
    have he0 : e ≠ 0 := Chain.ne_zero hc h0 mem_cons_self
    obtain ⟨k, bytes, he, -, -, hrest⟩ := hc
    obtain ⟨hnotin, hnd⟩ := nodup_cons.mp hnd
    obtain ⟨h1, F1, hfree, V1, -⟩ := V.free he
    have hne : ∀ j ∈ es, j ≠ e := fun j hj hje => hnotin (hje ▸ hj)
    obtain ⟨h2, F2, hrun, V2⟩ := ih V1 (by rw [update_of_ne he0.symm, h0])
      (hrest.congr fun j hj => update_of_ne (hne j hj) ..) hnd fuel
      (by simp only [length_cons] at hf; omega)
    refine ⟨h2, F2, ?_, Roles.without_cons R e es ▸ V2⟩
    rw [headD_cons, freeExtentsLoop, if_neg he0]
    simp only [reading_bind, id, V.getBlock he, unwrap_ok, Heap.block_bind, (V.holds he).nextExtent]
    rw [bind_ok hfree]
    exact hrun

theorem freeExtents_ok :
    ∃ h' F', freeExtents (es.headD 0) h = .ok () h' ∧ View m h' (R.without es) F' := by
  refine freeExtentsLoop_ok V h0 hc hnd _ ?_
  have hsub : es ⊆ List.range (h.currentSizeBytes / minOrderSize) := by
    intro e he
    obtain ⟨k, next, bytes, hR⟩ := hc.extent he
    exact mem_range.mpr (V.inv.layout.tiles.lt_cells (View.starts hR))
  have hlen := (hnd.subperm hsub).length_le
  rw [length_range] at hlen
  omega

end

end FreeExtents

section Room

theorem Fits.congr (hs : h'.currentSizeBytes = h.currentSizeBytes)
    (hl : h'.mapping.len = h.mapping.len) : h'.Fits F n ↔ h.Fits F n := by
  simp only [Heap.Fits, Heap.tops, hs, hl]

theorem perm_nil_iff {l l' : List Nat} (hl : l.Perm l') : l = [] ↔ l' = [] := by
  rw [← length_eq_zero_iff, hl.length_eq, length_eq_zero_iff]

theorem Fits.perm (hF : ∀ k, (F k).Perm (F' k)) : h.Fits F n ↔ h.Fits F' n := by
  have hnil : ∀ k, F k ≠ [] ↔ F' k ≠ [] := fun k => not_congr (perm_nil_iff (hF k))
  simp only [Heap.Fits, Heap.tops, (hF 7).length_eq, hnil]

theorem Exhausted.perm (hF : ∀ k, (F k).Perm (F' k)) : h.Exhausted F n ↔ h.Exhausted F' n := by
  have hnil : ∀ k, F k = [] ↔ F' k = [] := fun k => perm_nil_iff (hF k)
  simp only [Heap.Exhausted, hnil]

theorem tops_pos (V : View m h R F) (hm : Addressable m)
    (hlt : h.currentSizeBytes < h.mapping.len) : 0 < h.tops F := by
  have h1 := V.inv.layout.size_page
  have h2 : pageSizeBytes ∣ h.mapping.len := V.len ▸ hm.page
  have h3 := Nat.le_of_dvd (by omega) (Nat.dvd_sub h2 h1)
  have h4 : 0 < (h.mapping.len - h.currentSizeBytes) / maxOrderSize := by
    simp only [pageSizeBytes] at h3
    simp only [maxOrderSize]
    omega
  simp only [Heap.tops]
  omega

theorem fits_last (V : View m h R F) (hm : Addressable m) (hn : n ≠ 0) (hle : n ≤ 2040) :
    h.Fits F n ↔ ¬ Heap.Exhausted h F (blockSizeForPayload n) := by
  have hq : (n - 1) / 2040 = 0 := Nat.div_eq_of_lt (by omega)
  obtain ⟨f, hf, hlt, -⟩ := Heap.fitOrder_lt (blockSize_bounds n).1 (blockSize_bounds n).2
  have hf7 : f ≤ 7 := Nat.le_of_lt_succ hlt
  simp only [Heap.Fits, hq, mul_zero, Nat.sub_zero, hf]
  constructor
  · rintro hfits ⟨f', hf', hempty, hfull⟩
    rw [hf] at hf'
    cases hf'
    have htops : h.tops F = 0 := by
      simp only [Heap.tops, hempty 7 hf7 (by decide), hfull]
      simp
    rcases hfits with hz | hlt0 | ⟨-, f', k, he, hfk, hk, hne⟩
    · exact hn hz
    · omega
    · cases he
      exact hne (hempty k hfk (lt_trans hk (by decide)))
  · intro hno
    refine .inr ?_
    rcases Nat.eq_zero_or_pos (h.tops F) with hz | hpos
    · refine .inr ⟨hz.symm, f, ?_⟩
      have hsize : h.currentSizeBytes = h.mapping.len := by
        by_contra hne
        have := V.inv.layout.size_le
        have := tops_pos V hm (F := F) (by omega)
        omega
      have h7 : F 7 = [] := by
        simp only [Heap.tops, maxOrderSize] at hz
        exact length_eq_zero_iff.mp (by omega)
      by_contra hall
      refine hno ⟨f, hf, fun k hfk hk => ?_, hsize⟩
      by_contra hne
      have hk8 : k < 8 := hk
      have hk7 : k ≠ 7 := fun he => hne (he ▸ h7)
      exact hall ⟨k, rfl, hfk, by omega, hne⟩
    · exact .inl hpos

section
variable (hal : Heap.Allocated h R.orders F 7 i h' F') (hle : h'.currentSizeBytes ≤ h'.mapping.len)
include hal hle

theorem tops_allocated : h.tops F = h'.tops F' + 1 ∧ ∀ k < 7, F' k = F k := by
  obtain ⟨l, hF', hmem, hsize⟩ := hal.top rfl
  constructor
  · have hlen := hal.frame.len
    have herase := length_erase_of_mem hmem
    have hpos := length_pos_of_mem hmem
    simp only [Heap.tops, hF', update_self, maxOrderSize]
    rw [length_append] at herase hpos
    rw [herase, hlen, hsize]
    rw [hlen, hsize] at hle
    omega
  · intro k hk
    rw [hF', update_of_ne (by omega)]

theorem fits_more (hn : 2040 < n) : h.Fits F n ↔ h'.Fits F' (n - 2040) := by
  obtain ⟨htops, hlow⟩ := tops_allocated hal hle
  have hq : (n - 1) / 2040 = (n - 2040 - 1) / 2040 + 1 := by omega
  have hrest : n - 2040 * ((n - 2040 - 1) / 2040 + 1) =
      n - 2040 - 2040 * ((n - 2040 - 1) / 2040) := by omega
  have h1 : ¬ n = 0 := by omega
  have h2 : ¬ n - 2040 = 0 := by omega
  have hlists : (∃ f k, fitOrder (blockSizeForPayload (n - 2040 - 2040 * ((n - 2040 - 1) / 2040))) =
      .ok f ∧ f ≤ k ∧ k < 7 ∧ F k ≠ []) ↔ ∃ f k, fitOrder (blockSizeForPayload
      (n - 2040 - 2040 * ((n - 2040 - 1) / 2040))) = .ok f ∧ f ≤ k ∧ k < 7 ∧ F' k ≠ [] := by
    constructor
    · rintro ⟨f, k, hf, hfk, hk, hne⟩
      exact ⟨f, k, hf, hfk, hk, by rwa [hlow k hk]⟩
    · rintro ⟨f, k, hf, hfk, hk, hne⟩
      exact ⟨f, k, hf, hfk, hk, by rwa [← hlow k hk]⟩
  simp only [Heap.Fits, htops, hrest, hlists, hq, h1, h2, false_or, Nat.add_lt_add_iff_right,
    Nat.add_right_cancel_iff]

end

theorem not_fits_of_exhausted (hn : 2040 < n) (hex : Heap.Exhausted h F (blockSizeForPayload n)) :
    ¬ h.Fits F n := by
  obtain ⟨f, hf, hempty, hfull⟩ := hex
  have hsize : blockSizeForPayload n = 2048 := by
    simp only [blockSizeForPayload, maxOrderSize, minOrderSize, headerSizeBytes]
    omega
  rw [hsize, (by decide : fitOrder 2048 = .ok 7)] at hf
  cases hf
  have htops : h.tops F = 0 := by
    simp only [Heap.tops, hempty 7 (le_refl 7) (by decide), hfull]
    simp
  have hq : 1 ≤ (n - 1) / 2040 := by omega
  rintro (hz | hlt | ⟨he, -⟩) <;> omega

theorem top_length_le (V : View m h R F) : (F 7).length ≤ h.currentSizeBytes / 2048 := by
  have hinj : ((F 7).map (· / 128)).Nodup := by
    refine (nodup_map_iff_inj_on (V.inv.layout.nodup 7)).mpr ?_
    intro x hx y hy he
    obtain ⟨a, rfl⟩ := V.inv.layout.tiles.aligned (.inr hx)
    obtain ⟨c, rfl⟩ := V.inv.layout.tiles.aligned (.inr hy)
    omega
  have hsub : (F 7).map (· / 128) ⊆ List.range (h.currentSizeBytes / 2048) := by
    intro x hx
    obtain ⟨y, hy, rfl⟩ := mem_map.mp hx
    have hb := V.inv.layout.bound (.inr hy)
    exact mem_range.mpr (by omega)
  have hlen := (hinj.subperm hsub).length_le
  rwa [length_map, length_range] at hlen

theorem tops_le (V : View m h R F) (hm : Addressable m) : h.tops F ≤ 2 ^ 21 := by
  have htop := top_length_le V
  have h1 := V.inv.layout.size_le
  have h2 := V.len
  have h3 := hm.max
  simp only [Heap.tops, maxOrderSize]
  omega

theorem fits_lt (V : View m h R F) (hm : Addressable m) (hf : h.Fits F n) : n < 2 ^ 32 := by
  have htops := tops_le V hm
  rcases hf with hz | hlt | ⟨he, -⟩ <;> omega

theorem extent_size (hk : fitOrder (blockSizeForPayload n) = .ok k)
    (hle : blockSizeForPayload n ≤ 16 * 2 ^ k) :
    2040 < n ∧ k = 7 ∨ n ≤ 2040 ∧ n ≤ payloadSizeForOrder k := by
  rw [payloadSizeForOrder_eq]
  rcases lt_or_ge 2040 n with hlt | hge
  · refine .inl ⟨hlt, ?_⟩
    have hsize : blockSizeForPayload n = 2048 := by
      simp only [blockSizeForPayload, maxOrderSize, minOrderSize, headerSizeBytes]
      omega
    rw [hsize, (by decide : fitOrder 2048 = .ok 7)] at hk
    cases hk
    rfl
  · refine .inr ⟨hge, ?_⟩
    simp only [blockSizeForPayload, maxOrderSize, minOrderSize, headerSizeBytes] at hle
    omega

section
variable (V : View m h R F) (hm : Addressable m) (hn : n ≠ 0)
include V hm hn

theorem fits_allocated (hmore : 2040 < n ∧ k = 7 ∨ n ≤ 2040 ∧ n ≤ payloadSizeForOrder k)
    (hal : Heap.Allocated h R.orders F k i h' F') (hle : h'.currentSizeBytes ≤ h'.mapping.len)
    (hno : ¬ Heap.Exhausted h F (blockSizeForPayload n)) :
    h.Fits F n ↔ h'.Fits F' (n - payloadSizeForOrder k) := by
  rcases hmore with ⟨hgt, rfl⟩ | ⟨hlast, hcap⟩
  · exact fits_more hal hle hgt
  · rw [Nat.sub_eq_zero_of_le hcap, fits_last V hm hn hlast]
    exact ⟨fun _ => .inl rfl, fun _ => hno⟩

theorem not_fits (hex : Heap.Exhausted h F (blockSizeForPayload n)) : ¬ h.Fits F n := by
  rcases lt_or_ge 2040 n with hmore | hlast
  · exact not_fits_of_exhausted hmore hex
  · rw [fits_last V hm hn hlast]
    exact not_not_intro hex

end

end Room

section WriteExtents

variable {e : Nat} {rest value : List UInt8}

theorem writeExtent (V : View m h R F) (he : R e = some (k, .reserved)) (rest : List UInt8) :
    ∃ h1 h' bytes, Heap.onBlock (Block.becomeExtent · e 0) h = .ok () h1 ∧
      setContents e rest h1 = .ok (min (payloadSizeForOrder k) rest.length) h' ∧
      View m h' (update R e (some (k, .extent 0 bytes))) F ∧
      h'.currentSizeBytes = h.currentSizeBytes ∧ bytes.length = payloadSizeForOrder k ∧
      rest.take bytes.length = bytes.take rest.length := by
  obtain ⟨old, h1, hrun1, V1, hs1⟩ := V.becomeExtent he (by decide : 0 < 2 ^ 28)
  have he1 := update_self e (some (k, Role.extent 0 old)) R
  have hlen : old.length = payloadSizeForOrder k := by rw [← (V1.shows he1).body.2, bytesAt_length]
  obtain ⟨h2, hrun2, V2, hs2⟩ := V1.setContents he1 rest
  rw [hlen] at hrun2 V2
  rw [update_idem] at V2
  have hnew : (rest.take (payloadSizeForOrder k) ++
      old.drop (min (payloadSizeForOrder k) rest.length)).length = payloadSizeForOrder k := by
    simp only [length_append, length_take, length_drop, hlen]
    omega
  refine ⟨h1, h2, _, hrun1, hrun2, V2, hs2.trans hs1, hnew, ?_⟩
  rw [hnew]
  rcases le_total (payloadSizeForOrder k) rest.length with hle | hle
  · rw [min_eq_left hle, drop_eq_nil_of_le (le_of_eq hlen), append_nil,
      take_take, min_eq_right hle]
  · rw [take_of_length_le hle, take_left]

theorem writeExtentsLoop_cases (V : View m h R F) (hm : Addressable m)
    (he : R e = some (k, .reserved)) (hk : k = 7 ∨ rest.length ≤ payloadSizeForOrder k)
    (hne : rest ≠ []) (fuel : Nat) (hf : rest.length < fuel) :
    (∃ es h' F' R', writeExtentsLoop fuel e rest h = .ok () h' ∧ View m h' R' F' ∧
      Wrote (update R e none) R' (e :: es) rest ∧
      h.Fits F (rest.length - payloadSizeForOrder k)) ∨
    (∃ msg es h' F' R', writeExtentsLoop fuel e rest h = .error (.error msg) h' ∧ View m h' R' F' ∧
      Leaked (update R e none) R' (e :: es) ∧
      ¬ h.Fits F (rest.length - payloadSizeForOrder k)) := by
  induction fuel generalizing h R F e k rest with
  | zero => omega
  | succ fuel ih =>
    have hpos : 0 < rest.length := length_pos_iff.mpr hne
    have hcap := payloadSizeForOrder_eq k
    have hp := Nat.two_pow_pos k
    obtain ⟨h0, h1, bytes, hrun0, hrun1, V1, hs1, hlen, htake⟩ := writeExtent V he rest
    have he1 := update_self e (some (k, Role.extent 0 bytes)) R
    have hoff : ∀ j, j ∉ [e] → update R e (some (k, .extent 0 bytes)) j =
        update R e none j := by
      intro j hj
      have hje : j ≠ e := fun he => hj (he ▸ mem_cons_self)
      rw [update_of_ne hje, update_of_ne hje]
    rw [writeExtentsLoop, if_neg (by omega), bind_ok hrun0, bind_ok hrun1]
    rcases lt_or_ge (payloadSizeForOrder k) rest.length with hlt | hge
    swap
    · rw [min_eq_right hge, drop_length, if_pos length_nil]
      refine .inl ⟨[], h1, F, _, rfl, V1, ⟨?_, by simp, by simp, hoff⟩, ?_⟩
      · refine ⟨k, bytes, he1, hne, htake, ?_⟩
        exact drop_eq_nil_of_le (hlen ▸ hge)
      · rw [Nat.sub_eq_zero_of_le hge]
        exact .inl rfl
    · obtain rfl : k = 7 := hk.resolve_right (by omega)
      have hdrop : (rest.drop 2040).length = rest.length - 2040 := length_drop ..
      have hcap7 : payloadSizeForOrder 7 = 2040 := rfl
      rw [hcap7] at hlt hlen ⊢
      rw [min_eq_left (le_of_lt hlt), if_neg (by omega)]
      have hbs := blockSize_bounds (rest.drop 2040).length
      have hfits : h1.Fits F (rest.length - 2040) ↔ h.Fits F (rest.length - 2040) :=
        Fits.congr hs1 (V1.len.trans V.len.symm)
      rcases V1.allocate hm.page (grows V1 hm) hbs.1 hbs.2 with
          ⟨next, h2, F2, l, hrun2, hfresh, hfit, hle, V2, hal, hno⟩ |
        ⟨msg, hrun2, hex⟩
      · have hnext : next ≠ e := (ne_of_none hfresh he1).symm
        have he2 : update (update R e (some (7, .extent 0 bytes))) next
            (some (l, .reserved)) e = some (7, .extent 0 bytes) := by
          rw [update_of_ne hnext.symm, he1]
        have hn2 := update_self next (some (l, Role.reserved))
          (update R e (some (7, .extent 0 bytes)))
        obtain ⟨h3, hrun3, V3, hs3⟩ := V2.setExtentNextIndex he2 next
        rw [Nat.mod_eq_of_lt (V2.index_lt hn2)] at V3
        generalize hS : update (update (update R e
          (some (7, .extent 0 bytes))) next (some (l, .reserved))) e (some (7, .extent next bytes)) = S at V3
        have hSe : S e = some (7, .extent next bytes) := hS ▸ update_self ..
        have hSn : S next = some (l, .reserved) := by
          rw [← hS, update_of_ne hnext, hn2]
        have hrel : ∀ j, j ≠ e → update S next none j = update R e none j := by
          intro j hj
          by_cases hjn : j = next
          · subst j
            rw [update_self, update_of_ne hj]
            rw [update_of_ne hj] at hfresh
            exact hfresh.symm
          · rw [← hS, update_of_ne hjn, update_of_ne hj, update_of_ne hjn,
              update_of_ne hj, update_of_ne hj]
        have hmore := extent_size hfit hle
        have hfits' : h.Fits F (rest.length - 2040) ↔
            h3.Fits F2 ((rest.drop 2040).length - payloadSizeForOrder l) := by
          rw [← hfits, Fits.congr hs3 (V3.len.trans V2.len.symm), ← hdrop]
          exact fits_allocated V1 hm (by omega) hmore hal V2.inv.layout.size_le hno
        have hrest : rest.drop 2040 = rest.drop bytes.length := by rw [hlen]
        rw [bind_ok hrun2, bind_ok hrun3, hfits']
        rcases ih V3 hSn (hmore.imp And.right And.right) (ne_nil_of_length_pos (by omega))
          (by omega) with ⟨es, h4, F4, R4, hrun4, V4, hw, hfit4⟩ |
            ⟨msg, es, h4, F4, R4, hrun4, V4, hw, hfit4⟩
        · rw [hrest] at hw
          exact .inl ⟨next :: es, h4, F4, R4, hrun4, V4, hw.cons hSe hnext hrel hne htake, hfit4⟩
        · exact .inr ⟨msg, next :: es, h4, F4, R4, hrun4, V4, (hw.cons hSe hnext hrel).1, hfit4⟩
      · refine .inr ⟨msg, [], h1, F, _, by rw [bind_error hrun2], V1, ⟨by simp, ?_, hoff⟩, ?_⟩
        · exact forall_mem_singleton.mpr (by simp)
        · rw [← hfits, ← hdrop]
          exact not_fits V1 hm (by omega) hex

theorem writeExtents_cases (V : View m h R F) (hm : Addressable m) (value : List UInt8) :
    (∃ es h' F' R', writeExtents value h = .ok (es.headD 0) h' ∧ View m h' R' F' ∧
      Wrote R R' es value ∧ h.Fits F value.length) ∨
    (∃ msg es h' F' R', writeExtents value h = .error (.error msg) h' ∧ View m h' R' F' ∧
      Leaked R R' es ∧ ¬ h.Fits F value.length ∧
      (es = [] ↔ Heap.Exhausted h F (blockSizeForPayload value.length))) := by
  rw [writeExtents]
  rcases Nat.eq_zero_or_pos value.length with hz | hpos
  · rw [if_pos hz]
    obtain rfl := length_eq_zero_iff.mp hz
    exact .inl ⟨[], h, F, R, rfl, V, ⟨rfl, by simp, by simp, fun _ _ => rfl⟩, .inl rfl⟩
  have hne : value ≠ [] := length_pos_iff.mp hpos
  rw [if_neg (Nat.ne_of_gt hpos)]
  have hbs := blockSize_bounds value.length
  rcases V.allocate hm.page (grows V hm) hbs.1 hbs.2 with
      ⟨e, h1, F1, k, hrun1, hfresh, hfit, hle, V1, hal, hno⟩ |
    ⟨msg, hrun1, hex⟩
  · have he := update_self e (some (k, Role.reserved)) R
    have hmore := extent_size hfit hle
    have hfits := fits_allocated V hm (by omega) hmore hal V1.inv.layout.size_le hno
    have hold : update (update R e (some (k, Role.reserved))) e none = R :=
      Roles.restore hfresh _
    rw [bind_ok hrun1, hfits]
    rcases writeExtentsLoop_cases V1 hm he (hmore.imp And.right And.right) hne (value.length + 1)
      (by omega) with ⟨es, h2, F2, R2, hrun2, V2, hw, hfit2⟩ |
        ⟨msg, es, h2, F2, R2, hrun2, V2, hw, hfit2⟩
    · rw [hold] at hw
      exact .inl ⟨e :: es, h2, F2, R2, bind_ok hrun2 _, V2, hw, hfit2⟩
    · rw [hold] at hw
      refine .inr ⟨msg, e :: es, h2, F2, R2, bind_error hrun2 _, V2, hw, hfit2, ?_⟩
      exact ⟨fun he => absurd he (cons_ne_nil e es), fun hex => absurd hex hno⟩
  · exact .inr ⟨msg, [], h, F, R, bind_error hrun1 _, V, ⟨by simp, by simp, fun _ _ => rfl⟩,
      not_fits V hm (by omega) hex, fun _ => hex, fun _ => rfl⟩

end WriteExtents

section Property
variable {f : PropertyFormat} {es : List Nat} {old value : List UInt8} {a q x : Nat}

theorem innerSetPropertyValue_cases (V : View m h R F) (hm : Addressable m)
    (h0 : R 0 = some (0, .header g)) (hi : R i = some (k, .property f a q x (es.headD 0)))
    (hc : Chain R es old) (hnd : es.Nodup) (value : List UInt8) :
    ∃ h1 F1, freeExtents (es.headD 0) h = .ok () h1 ∧ View m h1 (R.without es) F1 ∧
    ((∃ new h' F' R', innerSetPropertyValue i value h = .ok () h' ∧
      View m h' (update R' i (some (k, .property f a q value.length (new.headD 0)))) F' ∧
      Wrote (R.without es) R' new value) ∨
    (∃ msg new h' F' R', innerSetPropertyValue i value h = .error (.error msg) h' ∧
      View m h' R' F' ∧
      Leaked (R.without es) R' new ∧ ¬ h1.Fits h1.freeBlocks value.length ∧
      (new = [] ↔ h1.Exhausted h1.freeBlocks (blockSizeForPayload value.length)))) := by
  obtain ⟨h1, F1, hfree, V1⟩ := freeExtents_ok V h0 hc hnd
  refine ⟨h1, F1, hfree, V1, ?_⟩
  have hie : i ∉ es := by
    intro hin
    obtain ⟨_, _, _, hR⟩ := hc.extent hin
    rw [hi] at hR
    cases hR
  have hi1 : R.without es i = some (k, .property f a q x (es.headD 0)) := by
    rw [Roles.without, if_neg hie, hi]
  have hstart : innerSetPropertyValue i value h = (do
      let extentIndex ← writeExtents value
      let length ← Heap.compute (lengthU32 value.length)
      Heap.onBlock (Block.setPropertyTotalLength · i length)
      Heap.onBlock (Block.setPropertyExtentIndex · i extentIndex) : HeapM Unit) h1 := by
    simp only [innerSetPropertyValue, Heap.block_bind, (V.holds hi).propertyExtentIndex]
    rw [bind_ok hfree]
  rw [hstart]
  rcases writeExtents_cases V1 hm value with ⟨new, h2, F2, R2, hrun2, V2, hw, hfit⟩ |
    ⟨msg, new, h2, F2, R2, hrun2, V2, hw, hfit⟩
  · have hv := fits_lt V1 hm hfit
    have hin : i ∉ new := by
      intro hin
      rw [hw.fresh i hin] at hi1
      cases hi1
    have hi2 : R2 i = some (k, .property f a q x (es.headD 0)) := (hw.off i hin).trans hi1
    have hlt : new.headD 0 < 2 ^ 28 := by
      cases new with
      | nil => decide
      | cons e new =>
        obtain ⟨_, _, _, hR⟩ := hw.chain.extent mem_cons_self
        exact V2.index_lt hR
    obtain ⟨h3, hrun3, V3, -⟩ := V2.setPropertyTotalLength hi2 hv
    have hi3 := update_self i (some (k, Role.property f a q value.length (es.headD 0))) R2
    obtain ⟨h4, hrun4, V4, -⟩ := V3.setPropertyExtentIndex hi3 hlt
    rw [update_idem] at V4
    refine .inl ⟨new, h4, F2, R2, ?_, V4, hw⟩
    rw [bind_ok hrun2, Heap.compute_bind, lengthU32, if_pos hv]
    exact (bind_ok hrun3 _).trans hrun4
  · rw [← Fits.perm V1.inv.freeBlocks_perm, ← Exhausted.perm V1.inv.freeBlocks_perm] at hfit
    exact .inr ⟨msg, new, h2, F2, R2, bind_error hrun2 _, V2, hw, hfit⟩

end Property

end State

end Garnet.Inspect
