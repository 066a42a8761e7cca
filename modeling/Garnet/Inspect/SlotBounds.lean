import Garnet.Inspect.Atomicity

/-! Where the writes to the slots of an array go. The test of the index lets the slot right behind
the last one pass, and that slot is the first word of the next block. -/

namespace Garnet.Inspect
open LittleEndian (ofLe toLe toLe_length)
open Heap (block_bind getBlock onBlock)

section Frames
variable {u u' : Mapping} {a : Nat} {bytes : List UInt8}

/-- The bytes that differ lie in `[lo, hi)`. -/
def Confined (lo hi : Nat) (u u' : Mapping) : Prop :=
  u'.len = u.len ∧ ∀ x, x < lo ∨ hi ≤ x → u'.byte x = u.byte x

theorem writeBytes_confined (hw : u.writeBytes a bytes = .ok u') :
    Confined a (a + bytes.length) u u' := by
  unfold Mapping.writeBytes at hw
  split at hw
  · cases hw
  · cases hw
    refine ⟨rfl, fun x hx => if_neg ?_⟩
    have hmin := min_le_left bytes.length (u.len - a)
    omega

theorem increment_confined (hw : Block.incrementGenerationCount u 0 = .ok u') :
    Confined 8 16 u u' := by
  obtain ⟨w, -, hw⟩ := ok_of_bind hw
  have hc := writeBytes_confined hw
  rwa [toLe_length] at hc

theorem lockHeader_confined (hw : Block.lockHeader u 0 = .ok u') : Confined 8 16 u u' := by
  obtain ⟨_, -, hw⟩ := ok_of_bind hw
  obtain ⟨_, -, hw⟩ := ok_of_bind hw
  exact increment_confined hw

theorem unlockHeader_confined (hw : Block.unlockHeader u 0 = .ok u') : Confined 8 16 u u' := by
  obtain ⟨_, -, hw⟩ := ok_of_bind hw
  obtain ⟨_, -, hw⟩ := ok_of_bind hw
  exact increment_confined hw

theorem onBlock_ok {f : Mapping → Except Fault Mapping} {h h' : Heap}
    (hrun : onBlock f h = .ok () h') : f h.mapping = .ok h'.mapping := by
  simp only [onBlock, writing] at hrun
  split at hrun
  next u hu =>
    cases hrun
    exact hu
  next => cases hrun

end Frames

section Checks
variable {c : Type} [ReadableBlockContainer c] {t' : Number}

theorem Number.type_injective {t t' : Number} (ht : t.type = t'.type) : t = t' := by
  cases t <;> cases t' <;> first | rfl | cases ht

end Checks

def Refused (t t' : Number) (k slot : Nat) : Prop := t' ≠ t ∨ arrayCapacity k < slot

section Blocks
variable {u : Mapping} {i k n p slots slot : Nat} {t t' : Number} {f : ArrayFormat} {data : List Nat}

theorem Lies.slot_refused {α : Type} (L : Lies u i k (.array t' f n p slots data))
    (hr : Refused t t' k slot) (rest : Except Fault α) : ∃ msg, (do
      Block.checkArrayEntryType u i t.type
      Block.checkSlot u i slot
      rest) = .error (.error msg) := by
  rw [L.checkArrayEntryType, L.checkSlot]
  by_cases ht : t'.type = t.type
  · rcases hr with hne | hlt
    · exact absurd (Number.type_injective ht) hne
    · rw [if_pos ht, if_pos hlt]
      exact ⟨_, rfl⟩
  · rw [if_neg ht]
    exact ⟨_, rfl⟩

section
variable (L : Lies u i k (.array t f n p slots data)) (hle : slot ≤ arrayCapacity k)
include L hle

theorem Lies.slot_passed {α : Type} (rest : Except Fault α) : (do
      Block.checkArrayEntryType u i t.type
      Block.checkSlot u i slot
      rest) = rest := by
  rw [L.checkArrayEntryType, L.checkSlot, if_pos rfl, if_neg (Nat.not_lt_of_le hle)]
  rfl

theorem Lies.slotOffset_le : Block.slotOffset i slot ≤ u.len := by
  have hb : 16 * i + 16 * 2 ^ k ≤ u.len := L.bound
  have hp := Nat.two_pow_pos k
  rw [arrayCapacity_eq] at hle
  rw [slotOffset_eq]
  omega

theorem Lies.arrayGetSlot_passed : ∃ x, Block.arrayGetSlot t.type u i slot = .ok x := by
  have hread : ReadableBlockContainer.readBytes u (Block.slotOffset i slot) 8 =
      .ok (copyOut u.len u.byte (Block.slotOffset i slot) 8) :=
    if_neg (Nat.not_lt_of_le (L.slotOffset_le hle))
  refine ⟨ofLe (copyOut u.len u.byte (Block.slotOffset i slot) 8),
    (L.slot_passed hle _).trans ?_⟩
  rw [hread]
  rfl

theorem Lies.arraySetSlot_passed (y : Nat) : ∃ u', Block.arraySetSlot t.type u i slot y = .ok u' ∧
      Confined (16 * i + 16 + 8 * slot) (16 * i + 16 + 8 * slot + 8) u u' := by
  have hoff := L.slotOffset_le hle
  have hw : ∃ u', u.writeBytes (Block.slotOffset i slot) (toLe 8 y) = .ok u' :=
    ⟨_, if_neg (Nat.not_lt_of_le hoff)⟩
  obtain ⟨u', hw⟩ := hw
  refine ⟨u', (L.slot_passed hle _).trans hw, ?_⟩
  have hc := writeBytes_confined hw
  rw [toLe_length, slotOffset_eq] at hc
  exact ⟨hc.1, fun x hx => hc.2 x (by omega)⟩

end

end Blocks

/-- The call returns and has changed no byte but those of the word at `off` and of the generation
count, or it ends in a panic. -/
def Passes (off : Nat) (x : HeapM Nat) (h : Heap) : Prop :=
  (∃ r h', x h = .ok r h' ∧ ∀ z, z < 8 ∨ 16 ≤ z → z < off ∨ off + 8 ≤ z →
    h'.mapping.byte z = h.mapping.byte z) ∨
  ∃ e h', x h = .error e h' ∧ ∀ msg, e ≠ .error msg

section Slots
open State
variable {m : Mapping} {h : Heap} {R : Roles} {F : Lists} {ts : List Nat} {v : Value}
  {vs : List Value}
variable {t t' : Number} {f : ArrayFormat} {xs : List Nat} {k slot y off : Nat} {code : HeapM Unit}
variable {op : BlockType → Nat → Nat → Except Fault Nat}

section
variable (I : StateInv m h R F ts (v :: vs)) (hv : v.content = .array t' f xs)
  (hk : Block.order h.mapping v.index = .ok k)
include I hv hk

theorem slot_locked : ∃ g h1, g % 2 = 1 ∧ onBlock (Block.lockHeader · headerIndex) h = .ok () h1 ∧
    Lies h1.mapping 0 0 (.header g) ∧ getBlock h1 v.index = .ok v.index ∧
      (∃ slots data, Lies h1.mapping v.index k (.array t' f v.nameIndex v.parent slots data)) ∧
        ∀ {code : HeapM Unit} {msg}, code h1 = .error (.error msg) h1 →
          ∃ h', withHeaderLock code h = .error (.error msg) h' := by
  obtain ⟨g, hg, h0⟩ := I.owns.header
  obtain ⟨h1, hlock, V1, hunlock⟩ := withHeaderLock_run I.view h0 hg
  obtain ⟨h3, -, -, herr⟩ := hunlock V1 (R.withGeneration_zero _)
  obtain ⟨-, l, slots, data, -, hl, hi⟩ := Value.array_role I hv
  obtain rfl : l = k := Except.ok.inj (hl.symm.trans hk)
  have hz := R.withGeneration_zero (tick g)
  exact ⟨tick g, h1, tick_odd hg, hlock, ⟨V1.shows hz, V1.bound hz⟩, V1.getBlock (hi _),
    ⟨slots, data, V1.shows (hi _), V1.bound (hi _)⟩, fun hcode => ⟨h3, herr hcode⟩⟩

theorem locked_passes (h16 : 16 ≤ off)
    (hcode : ∀ {h1 : Heap} {slots data}, getBlock h1 v.index = .ok v.index →
      Lies h1.mapping v.index k (.array t' f v.nameIndex v.parent slots data) →
      (∃ h2, code h1 = .ok () h2 ∧ Confined off (off + 8) h1.mapping h2.mapping) ∨
      ∃ e h2, code h1 = .error e h2 ∧ ∀ msg, e ≠ .error msg) :
    Passes off (withHeaderLock code >>= fun _ => pure v.index) h := by
  obtain ⟨g, h1, hg, hlock, hz, hget, ⟨slots, data, L⟩, -⟩ := slot_locked I hv hk
  have hc1 := lockHeader_confined (onBlock_ok hlock)
  rcases hcode hget L with ⟨h2, hrun, hc2⟩ | ⟨e, h2, hrun, he⟩
  · have hz2 : Lies h2.mapping 0 0 (.header g) := by
      have hb : 16 * 0 + 16 * 2 ^ 0 ≤ h1.mapping.len := hz.bound
      rw [← hc2.1] at hb
      exact ⟨hz.shows.congr fun x _ hx => hc2.2 x (.inl (by omega)), hb⟩
    obtain ⟨u, hunlock⟩ :=
      (⟨_, (hz2.unlockHeader hg).trans hz2.increment⟩ : ∃ u, Block.unlockHeader _ 0 = .ok u)
    have hc3 := unlockHeader_confined hunlock
    refine .inl ⟨v.index, h2.withMapping u, ?_, ?_⟩
    · have hblock : onBlock (Block.unlockHeader · headerIndex) h2 = .ok () (h2.withMapping u) := by
        simp only [onBlock, writing, headerIndex, hunlock]
      rw [withHeaderLock, bind_assoc, bind_ok hlock, bind_assoc, bind_ok (attempt_ok hrun),
        bind_assoc, bind_ok hblock]
      rfl
    · intro z hz8 hzoff
      exact (hc3.2 z hz8).trans ((hc2.2 z hzoff).trans (hc1.2 z hz8))
  · refine .inr ⟨e, h2, ?_, he⟩
    have hattempt : attempt code h1 = .error e h2 := by
      cases e with
      | error msg => exact absurd rfl (he msg)
      | _ => simp only [attempt, hrun]
    rw [withHeaderLock, bind_assoc, bind_ok hlock, bind_assoc, bind_error hattempt]

theorem locked_refused (hcode : ∀ {h1 : Heap} {slots data}, getBlock h1 v.index = .ok v.index →
      Lies h1.mapping v.index k (.array t' f v.nameIndex v.parent slots data) →
        ∃ msg, code h1 = .error (.error msg) h1) :
    ∃ msg h', (withHeaderLock code >>= fun _ => pure v.index) h = .error (.error msg) h' := by
  obtain ⟨_, h1, -, -, -, hget, ⟨slots, data, L⟩, herr⟩ := slot_locked I hv hk
  obtain ⟨msg, hrun⟩ := hcode hget L
  obtain ⟨h3, hall⟩ := herr hrun
  exact ⟨msg, h3, bind_error hall _⟩

theorem setArraySlot_refused (hr : Refused t t' k slot) :
    ∃ msg h', (setArraySlot t.type v.index slot y >>= fun _ => pure v.index) h =
      .error (.error msg) h' := by
  refine locked_refused I hv hk fun {h1 slots data} hget L => ?_
  obtain ⟨msg, hset⟩ := L.slot_refused hr (h1.mapping.writeBytes (Block.slotOffset v.index slot)
    (toLe 8 y))
  refine ⟨msg, ?_⟩
  simp only [getBlock_bind, hget, onBlock, writing]
  rw [Block.arraySetSlot, hset]

theorem updateArraySlot_refused (hr : Refused t t' k slot) :
    ∃ msg h', (updateArraySlot op t.type v.index slot y >>= fun _ => pure v.index) h =
      .error (.error msg) h' := by
  refine locked_refused I hv hk fun {h1 slots data} hget L => ?_
  obtain ⟨msg, hread⟩ := L.slot_refused hr (do
    let bytes ← ReadableBlockContainer.readBytes h1.mapping (Block.slotOffset v.index slot) 8
    pure (ofLe bytes))
  refine ⟨msg, ?_⟩
  simp only [getBlock_bind, hget, block_bind, Block.arrayGetSlot]
  rw [hread]

end

section
variable (I : StateInv m h R F ts (v :: vs)) (hv : v.content = .array t f xs)
  (hk : Block.order h.mapping v.index = .ok k)
  (hle : slot ≤ arrayCapacity k)
include I hv hk hle

theorem setArraySlot_passes : Passes (16 * v.index + 16 + 8 * slot)
      (setArraySlot t.type v.index slot y >>= fun _ => pure v.index) h := by
  refine locked_passes I hv hk (by omega) fun {h1 slots data} hget L => ?_
  obtain ⟨u, hset, hc⟩ := L.arraySetSlot_passed hle y
  refine .inl ⟨h1.withMapping u, ?_, hc⟩
  simp only [getBlock_bind, hget, onBlock, writing, hset]

theorem updateArraySlot_passes (hop : ∀ x y msg, op t.type x y ≠ .error (.error msg)) :
    Passes (16 * v.index + 16 + 8 * slot)
      (updateArraySlot op t.type v.index slot y >>= fun _ => pure v.index) h := by
  refine locked_passes I hv hk (by omega) fun {h1 slots data} hget L => ?_
  obtain ⟨x, hread⟩ := L.arrayGetSlot_passed hle
  cases hx : op t.type x y with
  | ok z =>
    obtain ⟨u, hset, hc⟩ := L.arraySetSlot_passed hle z
    refine .inl ⟨h1.withMapping u, ?_, hc⟩
    simp only [getBlock_bind, hget, block_bind, hread, Heap.compute_bind, hx, onBlock, writing,
      hset]
  | error e =>
    refine .inr ⟨e, h1, ?_, fun msg he => hop x y msg (he ▸ hx)⟩
    simp only [getBlock_bind, hget, block_bind, hread, Heap.compute_bind, hx]

end

end Slots

def Call.slotWrites (t : Number) (i slot y : Nat) : List Call :=
  [.setArraySlot t i slot y, .addArraySlot t i slot y, .subtractArraySlot t i slot y]

/-- An addition or subtraction gives a result or panics; none of them returns an `Err`. -/
def State.Arith.Machine (a : State.Arith) : Prop :=
  ∀ t x y msg, a.add t x y ≠ .error (.error msg) ∧ a.sub t x y ≠ .error (.error msg)

section Theorem
variable {m : Mapping} {h : Heap} {a : State.Arith} {items : List Item} {x : Item} {t t' : Number}
variable {f : ArrayFormat} {xs : List Nat} {k slot y : Nat} {c : Call}

theorem slotWrite_refused (H : Holds m h items) (hx : x ∈ items) (hc : x.content = .array t' f xs)
    (hk : Block.order h.mapping x.index = .ok k) (hcall : c ∈ Call.slotWrites t x.index slot y)
    (hr : Refused t t' k slot) : ∃ msg h', c.exec a h = .error (.error msg) h' := by
  obtain ⟨R, F, ts, vs, I, hp⟩ := H
  obtain ⟨v, ws, rfl, I', -, -⟩ := I.pick hp hx
  simp only [Call.slotWrites, List.mem_cons, List.not_mem_nil, or_false] at hcall
  rcases hcall with rfl | rfl | rfl
  · exact setArraySlot_refused I' hc hk hr
  · exact updateArraySlot_refused I' hc hk hr
  · exact updateArraySlot_refused I' hc hk hr

theorem slotWrite_passes (ha : a.Machine) (H : Holds m h items) (hx : x ∈ items)
    (hc : x.content = .array t f xs) (hk : Block.order h.mapping x.index = .ok k)
    (hcall : c ∈ Call.slotWrites t x.index slot y) (hle : slot ≤ arrayCapacity k) :
    Passes (16 * x.index + 16 + 8 * slot) (c.exec a) h := by
  obtain ⟨R, F, ts, vs, I, hp⟩ := H
  obtain ⟨v, ws, rfl, I', -, -⟩ := I.pick hp hx
  simp only [Call.slotWrites, List.mem_cons, List.not_mem_nil, or_false] at hcall
  rcases hcall with rfl | rfl | rfl
  · exact setArraySlot_passes I' hc hk hle
  · exact updateArraySlot_passes I' hc hk hle fun x y msg => (ha _ x y msg).1
  · exact updateArraySlot_passes I' hc hk hle fun x y msg => (ha _ x y msg).2

/-- A write to a slot of an array stays inside the block of the array, and is refused from the
capacity on, exactly if it is not one of the right type to the slot right behind the last. -/
theorem slot_writes_stay_inside_iff (hm : Addressable m) (ha : a.Machine)
    (hr : Run a (sparing m) h items) (hx : x ∈ items) (hc : x.content = .array t' f xs)
    (hk : Block.order h.mapping x.index = .ok k) (hcall : c ∈ Call.slotWrites t x.index slot y) :
    ((∀ r h', c.exec a h = .ok r h' → ∀ z, z < 8 ∨ 16 ≤ z →
        z < 16 * x.index ∨ 16 * (x.index + 2 ^ k) ≤ z → h'.mapping.byte z = h.mapping.byte z) ∧
      (arrayCapacity k ≤ slot → ∃ msg h', c.exec a h = .error (.error msg) h')) ↔
    (t ≠ t' ∨ slot ≠ arrayCapacity k) := by
  have H := hr.holds_sparing hm
  constructor
  · rintro ⟨-, hrefuse⟩
    by_contra hno
    simp only [not_or, not_not] at hno
    obtain ⟨rfl, rfl⟩ := hno
    obtain ⟨msg, h1, herr⟩ := hrefuse (le_refl _)
    rcases slotWrite_passes ha H hx hc hk hcall (le_refl _) with ⟨r, h', hok, -⟩ | ⟨e, h', hok, he⟩
    · rw [herr] at hok
      cases hok
    · rw [herr] at hok
      cases hok
      exact he msg rfl
  · intro hcond
    refine ⟨?_, fun hge => slotWrite_refused H hx hc hk hcall ?_⟩
    · intro r h' hok z hz hout
      have hpass : ¬ Refused t t' k slot := by
        intro hre
        obtain ⟨msg, h1, herr⟩ := slotWrite_refused (a := a) H hx hc hk hcall hre
        rw [herr] at hok
        cases hok
      simp only [Refused, not_or, not_not, not_lt] at hpass
      obtain ⟨rfl, hle⟩ := hpass
      have hlt : slot < arrayCapacity k :=
        Nat.lt_of_le_of_ne hle (hcond.resolve_left (fun hne => hne rfl))
      rcases slotWrite_passes ha H hx hc hk hcall hle with ⟨r1, h1, hok1, hframe⟩ | ⟨e, h1, herr, -⟩
      · obtain ⟨-, rfl⟩ := result_ok hok1 hok
        have hp := Nat.two_pow_pos k
        rw [arrayCapacity_eq] at hlt
        exact hframe z hz (by omega)
      · rw [herr] at hok
        cases hok
    · rcases hcond with hne | hne
      · exact .inl (Ne.symm hne)
      · exact .inr (Nat.lt_of_le_of_ne hge (Ne.symm hne))

def neighbourCalls : List Call :=
  [.createNode [110] 0, .createArray .int [97] 2 .default 0, .createNode [110] 0]

theorem exists_neighbours : ∃ s : Heap × List Item, Run keepLeft (sparing onePage) s.1 s.2 ∧
    (∃ x ∈ s.2, x.index = 4 ∧ x.content = .array .int .default [0, 0]) ∧
    Block.order s.1.mapping 4 = .ok 1 ∧ Block.blockType s.1.mapping 6 = .ok .nodeValue ∧
    ∃ h', (Call.setArraySlot .int 4 2 0).exec keepLeft s.1 = .ok 4 h' ∧
      Block.blockType h'.mapping 6 = .ok .free := by
  have hrun : (onPage neighbourCalls).any
      (fun s => decide (∃ x ∈ s.2, x.index = 4 ∧ x.content = .array .int .default [0, 0]) &&
        (Block.order s.1.mapping 4).toOption == some 1 &&
        (Block.blockType s.1.mapping 6).toOption == some .nodeValue &&
        returned (fun r h' => r == 4 && (Block.blockType h'.mapping 6).toOption == some .free)
          ((Call.setArraySlot .int 4 2 0).exec keepLeft s.1)) = true := by decide +kernel
  obtain ⟨s, hs, htest⟩ := (Option.any_eq_true _ _).mp hrun
  simp only [Bool.and_eq_true, decide_eq_true_eq, beq_iff_eq] at htest
  obtain ⟨⟨⟨hitem, horder⟩, htype⟩, hset⟩ := htest
  refine ⟨s, onPage_run hs, hitem, ok_of_toOption horder, ok_of_toOption htype, ?_⟩
  obtain ⟨r, h', hx, hset⟩ := ok_of_returned hset
  simp only [Bool.and_eq_true, beq_iff_eq] at hset
  obtain ⟨rfl, hfree⟩ := hset
  exact ⟨h', hx, ok_of_toOption hfree⟩

theorem slot_writes_stay_inside_sample : ∃ h items, Run keepLeft (sparing onePage) h items ∧
    ∃ x ∈ items, ∀ r h', (Call.addArraySlot .int x.index 1 5).exec keepLeft h = .ok r h' →
      ∀ z, 96 ≤ z → h'.mapping.byte z = h.mapping.byte z := by
  obtain ⟨s, hr, ⟨x, hx, hi, hc⟩, hk, -⟩ := exists_neighbours
  have hcall : Call.addArraySlot .int x.index 1 5 ∈ Call.slotWrites .int x.index 1 5 := by
    simp [Call.slotWrites]
  have hin := ((slot_writes_stay_inside_iff ⟨by decide, by decide, by decide⟩
    (show keepLeft.Machine from fun _ _ _ _ => ⟨nofun, nofun⟩) hr hx hc (hi.symm ▸ hk) hcall).mpr
      (.inr (by decide))).1
  exact ⟨s.1, s.2, hr, x, hx, fun r h' hx z hz => hin r h' hx z (by omega) (.inr (by omega))⟩

/-- A write to slot 2 of the array takes the node behind it off the blocks in use. -/
theorem boundary_slot_frees_neighbour : ∃ h items, Run keepLeft (sparing onePage) h items ∧
    (∃ x ∈ items, x.index = 4 ∧ x.content = .array .int .default [0, 0]) ∧
    Block.order h.mapping 4 = .ok 1 ∧ arrayCapacity 1 = 2 ∧
    Block.blockType h.mapping 6 = .ok .nodeValue ∧
    ∃ h', (Call.setArraySlot .int 4 2 0).exec keepLeft h = .ok 4 h' ∧
      Block.blockType h'.mapping 6 = .ok .free := by
  obtain ⟨s, hr, hitem, hk, htype, hset⟩ := exists_neighbours
  exact ⟨s.1, s.2, hr, hitem, hk, by decide, htype, hset⟩

end Theorem

end Garnet.Inspect
