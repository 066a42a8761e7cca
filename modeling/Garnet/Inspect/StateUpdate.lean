import Garnet.Inspect.StateCreate

/-! The calls that change and free live values. -/

namespace Garnet.Inspect
open List
open Function (update update_of_ne update_self)
open Roles (change_of_ne change_self withGeneration withGeneration_of_ne withGeneration_zero without
  without_nil)
open Value (Stored own)

section Blocks
variable {R S : Roles} {ts : List Nat} {v : Value} {vs : List Value} {i k n p g g' : Nat} {b : Role}
  {f : PropertyFormat}

/-- The blocks of a value are different ones, and none of them is the header. -/
structure Value.Apart (v : Value) : Prop where
  index : v.index ≠ 0
  name : v.nameIndex ≠ 0
  zero : 0 ∉ v.extents
  differ : v.index ≠ v.nameIndex
  indexOut : v.index ∉ v.extents
  nameOut : v.nameIndex ∉ v.extents
  nodup : v.extents.Nodup

theorem Owns.apart (O : Owns R ts (v :: vs)) : v.Apart := by
  have hz : ∀ {j}, j ∈ v.own → j ≠ 0 := O.own_ne_zero mem_cons_self
  have hnd := (nodup_append.mp (owned_cons_perm.nodup_iff.mp O.nodup)).1
  simp only [own, nodup_cons, mem_cons, not_or] at hnd
  obtain ⟨⟨hin, hie⟩, hne, hext⟩ := hnd
  exact ⟨hz (by simp [own]), hz (by simp [own]), fun h0 => hz (by simp [own, h0]) rfl, hin, hie,
    hne, hext⟩

theorem Owns.adopts_not_mem (O : Owns R ts vs) (hv : v ∈ vs) (hp : R.Adopts p) :
    p ≠ v.nameIndex ∧ p ∉ v.extents := by
  obtain ⟨k, b, hb, hgain⟩ := hp
  constructor
  · rintro rfl
    obtain ⟨l, hl⟩ := O.named v hv
    rw [hl] at hb
    cases hb
    exact hgain rfl
  · intro hin
    obtain ⟨l, next, bytes, hl⟩ := (O.stored v hv).extent hin
    rw [hl] at hb
    cases hb
    exact hgain rfl

theorem Owns.counted (O : Owns R ts (v :: vs)) : State.Counted R v.parent := by
  obtain ⟨k, b, hb, hgain⟩ := O.parent v mem_cons_self
  have hpos : 0 < children (v :: vs) v.parent := children_pos mem_cons_self rfl
  by_cases hp : v.parent = 0
  · obtain ⟨g, -, h0⟩ := O.header
    exact .inl ⟨hp, 0, g, h0⟩
  · have hcount : ∀ c, b.count = some c → State.Counted R v.parent := by
      intro c hc
      rw [← O.count hb hc] at hpos
      exact .inr ⟨hp, k, b, c - 1, hb, by rw [Nat.sub_add_cancel hpos, hc]⟩
    rcases O.cases hb with ⟨h0, -⟩ | ⟨-, c, rfl⟩ | ⟨u, hu, ⟨-, hrefs⟩ | ⟨-, rfl⟩ | ⟨-, e, bytes, rfl⟩⟩
    · exact absurd h0 hp
    · exact hcount _ rfl
    · cases b with
      | node => exact hcount _ rfl
      | header | tombstone => cases hrefs
      | _ => exact absurd rfl hgain
    · exact absurd rfl hgain
    · exact absurd rfl hgain

theorem Owns.value (O : Owns R ts vs) (hi : R i = some (k, b)) (hb : b.refs = some (n, p)) :
    ∃ v ∈ vs, v.index = i ∧ v.nameIndex = n ∧ v.parent = p := by
  rcases O.cases hi with
      ⟨-, g, rfl⟩ | ⟨-, c, rfl⟩ | ⟨v, hv, ⟨hvi, hrefs⟩ | ⟨-, rfl⟩ | ⟨-, e, bytes, rfl⟩⟩
  · cases hb
  · cases hb
  · cases hb.symm.trans hrefs
    exact ⟨v, hv, hvi.symm, rfl, rfl⟩
  · cases hb
  · cases hb

theorem Owns.property {a q x e : Nat} (O : Owns R ts vs)
    (hi : R i = some (k, .property f a q x e)) :
    ∃ v ∈ vs, v.index = i ∧ ∃ value, v.content = .property f value := by
  obtain ⟨v, hv, rfl, -⟩ := O.value hi rfl
  refine ⟨v, hv, rfl, ?_⟩
  have hs := O.stored v hv
  rw [Stored] at hs
  split at hs
  · simp [hi] at hs
  · simp [hi] at hs
  · simp [hi] at hs
  · obtain ⟨-, _, hR⟩ := hs
    cases hi.symm.trans hR
    exact ⟨_, ‹_›⟩

variable (O : Owns R ts (v :: vs))
include O

theorem Owns.property_role {value : List UInt8} (hv : v.content = .property f value) :
    Chain R v.extents value ∧ ∃ k, ∀ g, R.withGeneration g v.index =
      some (k, .property f v.nameIndex v.parent value.length (v.extents.headD 0)) ∧
        Chain (R.withGeneration g) v.extents value := by
  have hs := O.stored v mem_cons_self
  simp only [Stored, hv] at hs
  obtain ⟨hc, k, hi⟩ := hs
  refine ⟨hc, k, fun g => ⟨(withGeneration_of_ne O.apart.index g).trans hi, hc.congr fun e he => ?_⟩⟩
  exact withGeneration_of_ne (fun h0 => O.apart.zero (h0 ▸ he)) g

theorem Owns.rewrite {content : Content} (hv : v.content ≠ .node) (hc : content ≠ .node)
    (hext : v.extents = []) (hs : Stored (withGeneration (update (R.withGeneration g) v.index
      (some (k, b))) g') ⟨{v.toItem with content := content}, v.nameIndex, []⟩) (hg : g' % 2 = 0) :
    Owns (withGeneration (update (R.withGeneration g) v.index (some (k, b))) g') ts
      (⟨{v.toItem with content := content}, v.nameIndex, []⟩ :: vs) := by
  obtain ⟨l, hl⟩ := O.named v mem_cons_self
  have hn0 := O.apart.name
  refine O.replace hv hc rfl rfl rfl hs ⟨l, ?_⟩ ?_ (by simp) ⟨g', hg, withGeneration_zero ..⟩ ?_
  · rw [withGeneration_of_ne hn0, update_of_ne O.apart.differ.symm, withGeneration_of_ne hn0, hl]
  · simpa [own] using O.apart.differ
  · intro j hj0 hj
    simp only [own, mem_cons, not_or] at hj
    rw [withGeneration_of_ne hj0, update_of_ne hj.1, withGeneration_of_ne hj0, hext,
      without_nil]

theorem Owns.without_eq (g : Nat) : (R.withGeneration g).without v.extents 0 = some (0, .header g) ∧
    ∀ j, j ≠ 0 → (R.withGeneration g).without v.extents j = R.without v.extents j := by
  constructor
  · rw [without, if_neg O.apart.zero, withGeneration_zero]
  · intro j hj
    simp only [without, withGeneration_of_ne hj]

theorem Owns.rewrite_property {old value : List UInt8} {new : List Nat}
    (hv : v.content = .property f old)
    (hw : Wrote ((R.withGeneration g).without v.extents) S new value) (hg : g' % 2 = 0) :
    Owns (withGeneration (update S v.index
        (some (k, .property f v.nameIndex v.parent value.length (new.headD 0)))) g') ts
      (⟨{v.toItem with content := .property f value}, v.nameIndex, new⟩ :: vs) := by
  obtain ⟨hi0, hn0, -, hin, hie, hne, -⟩ := O.apart
  obtain ⟨hz1, hoff⟩ := O.without_eq g
  have hfresh : ∀ j ∈ new, j ≠ 0 ∧ R.without v.extents j = none := by
    intro j hj
    have hnone := hw.fresh j hj
    have hj0 : j ≠ 0 := (ne_of_none hnone hz1).symm
    exact ⟨hj0, hoff j hj0 ▸ hnone⟩
  have hown : ∀ j, R j ≠ none → j ∉ v.extents → j ∉ new := by
    intro j hj he hnew
    have := (hfresh j hnew).2
    rw [without, if_neg he] at this
    exact hj this
  have hinew : v.index ∉ new :=
    hown _ (O.own_ne_none mem_cons_self (by simp [own])) hie
  have hnnew : v.nameIndex ∉ new :=
    hown _ (O.own_ne_none mem_cons_self (by simp [own])) hne
  obtain ⟨l, hl⟩ := O.named v mem_cons_self
  refine O.replace (by simp [hv]) (by simp) rfl rfl rfl ⟨?_, k, ?_⟩ ⟨l, ?_⟩ ?_ ?_
    ⟨g', hg, withGeneration_zero ..⟩ ?_
  · refine hw.chain.congr fun j hj => ?_
    rw [withGeneration_of_ne (hfresh j hj).1, update_of_ne]
    rintro rfl
    exact hinew hj
  · rw [withGeneration_of_ne hi0, update_self]
  · rw [withGeneration_of_ne hn0, update_of_ne (Ne.symm hin), hw.off _ hnnew, hoff _ hn0,
      without, if_neg hne, hl]
  · simp only [own, nodup_cons, mem_cons, not_or]
    exact ⟨⟨hin, hinew⟩, hnnew, hw.nodup⟩
  · intro j hj
    have hnone := (hfresh j hj).2
    rw [without] at hnone
    split at hnone
    · exact .inl ‹_›
    · exact .inr hnone
  · intro j hj0 hj
    simp only [own, mem_cons, not_or] at hj
    rw [withGeneration_of_ne hj0, update_of_ne hj.1, hw.off j hj.2.2, hoff j hj0]

theorem Owns.deleted (hg : g' % 2 = 0) :
    ∃ ts', Owns (withGeneration (State.deleted ((R.withGeneration g).without v.extents) v.index
      v.nameIndex v.parent) g') ts' vs := by
  obtain ⟨hi0, -, -, hin, hie, hne, -⟩ := O.apart
  obtain ⟨hpn, hpe⟩ := O.adopts_not_mem mem_cons_self (O.parent v mem_cons_self)
  have hpi : v.index ≠ v.parent := (O.loop v mem_cons_self).symm
  obtain ⟨-, hoff⟩ := O.without_eq g
  have hrest : ∀ j, j ≠ v.index → j ≠ v.nameIndex → State.deleted
      ((R.withGeneration g).without v.extents) v.index v.nameIndex v.parent j =
        ((R.withGeneration g).without v.extents).change v.parent Role.lose j := by
    intro j hji hjn
    rw [State.deleted, change_of_ne hji, update_of_ne hjn]
  refine ⟨_, O.delete ?_ ?_ ⟨g', hg, withGeneration_zero ..⟩ ?_⟩
  · intro j hj
    have hj0 : j ≠ 0 := O.own_ne_zero mem_cons_self (mem_cons_of_mem _ hj)
    rw [withGeneration_of_ne hj0]
    rcases mem_cons.mp hj with rfl | hj
    · rw [State.deleted, change_of_ne (Ne.symm hin), update_self]
    · have hji : j ≠ v.index := fun h => hie (h ▸ hj)
      have hjn : j ≠ v.nameIndex := fun h => hne (h ▸ hj)
      have hjp : j ≠ v.parent := fun h => hpe (h ▸ hj)
      rw [hrest j hji hjn, change_of_ne hjp, without, if_pos hj]
  · have hval : update (((R.withGeneration g).without v.extents).change v.parent Role.lose)
        v.nameIndex none v.index = R v.index := by
      rw [update_of_ne hin, change_of_ne hpi, hoff _ hi0, without, if_neg hie]
    rw [withGeneration_of_ne hi0, State.deleted, change_self, change_self, hval]
  · intro j hj0 hj
    simp only [own, mem_cons, not_or] at hj
    rw [withGeneration_of_ne hj0, hrest j hj.1 hj.2.1]
    by_cases hjp : j = v.parent
    · subst hjp
      rw [change_self, change_self, hoff _ hj0, without, if_neg hpe]
    · rw [change_of_ne hjp, change_of_ne hjp, hoff j hj0, without, if_neg hj.2.2]

end Blocks

namespace State
variable {m : Mapping} {h h' : Heap} {R : Roles} {F : Lists} {i j k l n p g : Nat} {b : Role}
variable {ts : List Nat} {v : Value} {vs : List Value}

section SetProperty

/-- The part of `set_property` before the new extents are written. -/
def clearProperty (index : Nat) : HeapM Unit := do
  Heap.onBlock (Block.lockHeader · headerIndex)
  let old ← Heap.block (Block.propertyExtentIndex · index)
  freeExtents old

theorem setProperty_err (I : StateInv m h R F ts vs) (hi : Known m R F i)
    (hR : ∀ k f a q x e, R i ≠ some (k, .property f a q x e)) (value : List UInt8) :
    ∃ msg h', setProperty i value h = .error (.error msg) h' ∧ Unchanged m R ts vs h' := by
  obtain ⟨g, hg, h0⟩ := I.owns.header
  obtain ⟨h1, -, V1, hunlock⟩ := withHeaderLock_run I.view h0 hg
  obtain ⟨h2, V2, -, herr⟩ := hunlock V1 (R.withGeneration_zero _)
  rw [Roles.withGeneration_twice] at V2
  suffices hcode : ∃ msg, (getBlock i >>= (innerSetPropertyValue · value)) h1 =
    .error (.error msg) h1 by
    obtain ⟨msg, hcode⟩ := hcode
    exact ⟨msg, h2, herr hcode, I.unchanged (tick_even (tick_odd hg)) V2⟩
  rcases known_block V1 (Roles.known_withGeneration hi _) with hget | ⟨t, hget, htype, ht⟩
  · simp only [getBlock_bind, hget]
    exact ⟨_, rfl⟩
  · have hne : t ≠ .propertyValue := by
      rcases ht with rfl | ⟨k, b, hb, rfl⟩
      · decide
      · by_cases hi0 : i = 0
        · subst i
          rw [withGeneration_zero] at hb
          cases hb
          simp [Role.type]
        · rw [withGeneration_of_ne hi0] at hb
          cases b with
          | property f a q x e => exact absurd hb (hR k f a q x e)
          | number t => cases t <;> simp [Role.type, Number.type]
          | _ => simp [Role.type]
    simp only [getBlock_bind, hget, innerSetPropertyValue, Heap.block_bind, Block.propertyExtentIndex,
      Block.payloadField, Block.checkType, htype, ok_bind, if_neg hne, error_bind]
    exact ⟨_, rfl⟩

variable {f : PropertyFormat} {old value : List UInt8}

theorem setProperty_cases (I : StateInv m h R F ts (v :: vs)) (hm : Addressable m)
    (hv : v.content = .property f old) (value : List UInt8) :
    (∃ w h' R' F', setProperty v.index value h = .ok () h' ∧ StateInv m h' R' F' ts (w :: vs) ∧
      w.toItem = {v.toItem with content := .property f value}) ∨
    (∃ msg h', setProperty v.index value h = .error (.error msg) h' ∧
      ∃ h1, clearProperty v.index h = .ok () h1 ∧ ¬ h1.Fits h1.freeBlocks value.length ∧
        (h1.Exhausted h1.freeBlocks (blockSizeForPayload value.length) → old = [] →
          Unchanged m R ts (v :: vs) h')) := by
  obtain ⟨g, hg, h0⟩ := I.owns.header
  have hg2 : tick (tick g) % 2 = 0 := tick_even (tick_odd hg)
  obtain ⟨h1, hlock, V1, hunlock⟩ := withHeaderLock_run I.view h0 hg
  have hi0 := I.owns.apart.index
  obtain ⟨hc, k, hrole⟩ := I.owns.property_role hv
  obtain ⟨hi1, hc1⟩ := hrole (tick g)
  obtain ⟨h2, F2, hfree, V2, hset⟩ := innerSetPropertyValue_cases V1 hm (R.withGeneration_zero _) hi1
    hc1 I.owns.apart.nodup value
  obtain ⟨hz1, hoff⟩ := I.owns.without_eq (tick g)
  rcases hset with
      ⟨new, h3, F3, R3, hrun3, V3, hw⟩ | ⟨msg, new, h3, F3, R3, hrun3, V3, hl, hfit, hnil⟩
  · have h0new : 0 ∉ new := fun hin => by simp [hw.fresh 0 hin] at hz1
    obtain ⟨h4, V4, hok, -⟩ := hunlock V3 (by rw [update_of_ne hi0.symm, hw.off 0 h0new, hz1])
    exact .inl ⟨_, h4, _, F3, hok ((View.getBlock_bind V1 hi1 _).trans hrun3),
      ⟨V4, I.owns.rewrite_property hv hw hg2⟩, rfl⟩
  · have h0new : 0 ∉ new := fun hin => by simp [hl.fresh 0 hin] at hz1
    obtain ⟨h4, V4, -, herr⟩ := hunlock V3 (by rw [hl.off 0 h0new, hz1])
    refine .inr ⟨msg, h4, herr ((View.getBlock_bind V1 hi1 _).trans hrun3), h2, ?_, hfit, ?_⟩
    · rw [clearProperty, bind_ok hlock, Heap.block_bind, (V1.holds hi1).propertyExtentIndex]
      exact hfree
    · rintro hfull rfl
      have hes : v.extents = [] := by
        cases hext : v.extents with
        | nil => rfl
        | cons e es =>
          rw [hext] at hc
          obtain ⟨_, _, -, hne, -⟩ := hc
          exact absurd rfl hne
      have hR : R3 = R.withGeneration (tick g) := by
        funext j
        rw [hl.off j (by simp [hnil.mpr hfull]), hes, without_nil]
      rw [hR, Roles.withGeneration_twice] at V4
      exact I.unchanged hg2 V4

end SetProperty

section Free

theorem deleted_zero {R : Roles} (hi : i ≠ 0) (hn : n ≠ 0) (h0 : R 0 = some (0, .header g)) :
    deleted R i n p 0 = some (0, .header g) := by
  rw [deleted, change_of_ne hi.symm, update_of_ne hn.symm]
  exact Roles.change_zero (f := Role.lose) h0 rfl p

theorem delete_ok (O : Owns R ts (v :: vs)) {h1 : Heap}
    (V : View m h1 ((R.withGeneration g).without v.extents) F) :
    ∃ h2 F2, deleteValue v.index h1 = .ok () h2 ∧ View m h2 (deleted
      ((R.withGeneration g).without v.extents) v.index v.nameIndex v.parent) F2 ∧
      deleted ((R.withGeneration g).without v.extents) v.index v.nameIndex v.parent 0 =
        some (0, .header g) := by
  obtain ⟨hi0, hn0, -, hin, hie, hne, -⟩ := O.apart
  obtain ⟨-, hpe⟩ := O.adopts_not_mem mem_cons_self (O.parent v mem_cons_self)
  obtain ⟨hz1, hoff⟩ := O.without_eq g
  have hkeep : ∀ j, j ≠ 0 → j ∉ v.extents → (R.withGeneration g).without v.extents j = R j := by
    intro j hj0 hj
    rw [hoff j hj0, without, if_neg hj]
  obtain ⟨k, b, hb, hrefs⟩ := (O.stored v mem_cons_self).role
  obtain ⟨l, hl⟩ := O.named v mem_cons_self
  have hcount : Counted ((R.withGeneration g).without v.extents) v.parent := by
    rcases O.counted with ⟨hp0, -⟩ | ⟨hp0, k, b, c, hp, hc⟩
    · exact .inl ⟨hp0, 0, g, hz1⟩
    · exact .inr ⟨hp0, k, b, c, (hkeep _ hp0 hpe).trans hp, hc⟩
  obtain ⟨h2, F2, hrun, V2⟩ := deleteValue_ok V ((hkeep _ hi0 hie).trans hb) hrefs
    ((hkeep _ hn0 hne).trans hl) hcount (O.loop v mem_cons_self)
  exact ⟨h2, F2, hrun, V2, deleted_zero hi0 hn0 hz1⟩

theorem freeValue_ok (I : StateInv m h R F ts (v :: vs)) (hv : v.extents = []) :
    ∃ h' R' F' ts', freeValue v.index h = .ok () h' ∧ StateInv m h' R' F' ts' vs := by
  obtain ⟨g, hg, h0⟩ := I.owns.header
  obtain ⟨h1, -, V1, hunlock⟩ := withHeaderLock_run I.view h0 hg
  have hi0 : v.index ≠ 0 := I.owns.apart.index
  obtain ⟨k, b, hb, -⟩ := (I.owns.stored v mem_cons_self).role
  have hi1 : R.withGeneration (tick g) v.index = _ := (withGeneration_of_ne hi0 _).trans hb
  have V1' : View m h1 ((R.withGeneration (tick g)).without v.extents) F := by
    rwa [hv, without_nil]
  obtain ⟨h2, F2, hrun2, V2, hz⟩ := delete_ok I.owns V1'
  obtain ⟨h3, V3, hok, -⟩ := hunlock V2 hz
  obtain ⟨ts', O⟩ := I.owns.deleted (g := tick g) (tick_even (tick_odd hg))
  exact ⟨h3, _, F2, ts', hok ((View.getBlock_bind V1 hi1 _).trans (unwrapS_ok hrun2)), V3, O⟩

theorem freeProperty_ok {f : PropertyFormat} {value : List UInt8}
    (I : StateInv m h R F ts (v :: vs)) (hv : v.content = .property f value) :
    ∃ h' R' F' ts', freeProperty v.index h = .ok () h' ∧ StateInv m h' R' F' ts' vs := by
  obtain ⟨g, hg, h0⟩ := I.owns.header
  obtain ⟨h1, -, V1, hunlock⟩ := withHeaderLock_run I.view h0 hg
  obtain ⟨-, k, hrole⟩ := I.owns.property_role hv
  obtain ⟨hi1, hc1⟩ := hrole (tick g)
  obtain ⟨h2, F2, hfree, V2⟩ := freeExtents_ok V1 (R.withGeneration_zero _) hc1 I.owns.apart.nodup
  obtain ⟨h3, F3, hrun3, V3, hz3⟩ := delete_ok I.owns V2
  obtain ⟨h4, V4, hok, -⟩ := hunlock V3 hz3
  obtain ⟨ts', O⟩ := I.owns.deleted (g := tick g) (tick_even (tick_odd hg))
  refine ⟨h4, _, F3, ts', hok ((View.getBlock_bind V1 hi1 _).trans ?_), V4, O⟩
  simp only [Heap.block_bind, (V1.holds hi1).propertyExtentIndex]
  exact (bind_ok hfree _).trans hrun3

end Free

section Rewrite

def withContent (v : Value) (content : Content) : Value :=
  ⟨{v.toItem with content := content}, v.nameIndex, []⟩

section Lock
variable {α : Type} {code : HeapM α} {h1 : Heap}
  (hlock : Heap.onBlock (Block.lockHeader · headerIndex) h = .ok () h1)
include hlock

theorem withHeaderLock_congr {code' : HeapM α} (hcode : code h1 = code' h1) :
    withHeaderLock code h = withHeaderLock code' h := by
  rw [withHeaderLock, withHeaderLock, bind_ok hlock, bind_ok hlock]
  simp only [bind, EStateM.bind, attempt, hcode]

theorem withHeaderLock_ne_ok (h2 : Heap) {e : Fault} (hcode : code h1 = .error e h2) (a : α)
    (h' : Heap) : withHeaderLock code h ≠ .ok a h' := by
  rw [withHeaderLock, bind_ok hlock]
  cases e with
  | error msg =>
    rw [bind_ok (attempt_error hcode)]
    simp only [bind, EStateM.bind]
    cases Heap.onBlock (Block.unlockHeader · headerIndex) h2 <;> simp [Heap.compute, reading]
  | _ => simp [bind, EStateM.bind, attempt, hcode]

end Lock

theorem rewrite_ok (I : StateInv m h R F ts (v :: vs)) (content : Content) (hv : v.content ≠ .node)
    (hc : content ≠ .node) (hext : v.extents = []) (code : HeapM Unit)
    (hcode : ∀ {h1 g}, View m h1 (R.withGeneration g) F → ∃ h2, code h1 = .ok () h2 ∧
      View m h2 (update (R.withGeneration g) v.index (some (k, b))) F)
    (hs : ∀ S : Roles, S v.index = some (k, b) → (withContent v content).Stored S) :
    ∃ h' R' F', withHeaderLock code h = .ok () h' ∧
      StateInv m h' R' F' ts (withContent v content :: vs) := by
  obtain ⟨g, hg, h0⟩ := I.owns.header
  obtain ⟨h1, -, V1, hunlock⟩ := withHeaderLock_run I.view h0 hg
  obtain ⟨h2, hrun2, V2⟩ := hcode V1
  have hi0 : v.index ≠ 0 := I.owns.apart.index
  obtain ⟨h3, V3, hok, -⟩ := hunlock V2 (by rw [update_of_ne hi0.symm, withGeneration_zero])
  refine ⟨h3, _, F, hok hrun2, V3, I.owns.rewrite hv hc hext (hs _ ?_) (tick_even (tick_odd hg))⟩
  rw [withGeneration_of_ne hi0, update_self]

/-- A block that is read and rewritten under the lock: when the operation returns, only the write
counts. -/
theorem locked_update (I : StateInv m h R F ts (v :: vs)) {x : Nat}
    (read : Mapping → Nat → Except Fault Nat)
    (write : Mapping → Nat → Nat → Except Fault Mapping) (op : Nat → Except Fault Nat)
    (hi : ∀ g, R.withGeneration g v.index = some (k, b))
    (hread : ∀ {h1 : Heap} {g}, View m h1 (R.withGeneration g) F → read h1.mapping v.index = .ok x) :
    let code : HeapM Unit := withHeaderLock do
      let index ← getBlock v.index
      let current ← Heap.block (read · index)
      let result ← Heap.compute (op current)
      Heap.onBlock (write · index result)
    (∀ z, op x = .ok z → code h = withHeaderLock
      (getBlock v.index >>= fun index => Heap.onBlock (write · index z)) h) ∧
      ∀ e, op x = .error e → ∀ h', code h ≠ .ok () h' := by
  obtain ⟨g, hg, h0⟩ := I.owns.header
  obtain ⟨h1, hlock, V1, -⟩ := I.view.lockHeader h0 hg
  have hget := V1.getBlock (hi _)
  refine ⟨fun z hop => ?_, fun e hop h' => withHeaderLock_ne_ok hlock h1 (e := e) ?_ () h'⟩
  · refine withHeaderLock_congr hlock ?_
    simp only [getBlock_bind, hget, Heap.block_bind, hread V1, Heap.compute_bind, hop]
  · simp only [getBlock_bind, hget, Heap.block_bind, hread V1, Heap.compute_bind, hop]

section Metrics
variable {t : Number} {x : Nat}

variable (I : StateInv m h R F ts (v :: vs)) (hv : v.content = .number t x)
include I hv

theorem Value.number_role : v.extents = [] ∧ ∃ k, ∀ g, R.withGeneration g v.index =
      some (k, .number t v.nameIndex v.parent x) := by
  have hs := I.owns.stored v mem_cons_self
  simp only [Stored, hv] at hs
  obtain ⟨hext, k, hi⟩ := hs
  have hi0 : v.index ≠ 0 := I.owns.apart.index
  exact ⟨hext, k, fun g => (withGeneration_of_ne hi0 g).trans hi⟩

theorem setMetric_ok (y : Nat) : ∃ h' R' F', setMetric t.type v.index y h = .ok () h' ∧
      StateInv m h' R' F' ts (withContent v (.number t (y % 2 ^ 64)) :: vs) := by
  obtain ⟨hext, k, hi⟩ := Value.number_role I hv
  refine rewrite_ok (k := k) (b := .number t v.nameIndex v.parent (y % 2 ^ 64)) I _ (by simp [hv])
    (by simp) hext _ ?_ fun S hS => ⟨rfl, k, hS⟩
  intro h1 g V1
  obtain ⟨h2, hrun, V2, -⟩ := V1.setNumericValue (hi g) y
  exact ⟨h2, (View.getBlock_bind V1 (hi g) _).trans hrun, V2⟩

theorem updateMetric_cases (op : BlockType → Nat → Nat → Except Fault Nat) (y : Nat) :
    (∃ z h' R' F', op t.type x y = .ok z ∧ updateMetric op t.type v.index y h = .ok () h' ∧
      StateInv m h' R' F' ts (withContent v (.number t (z % 2 ^ 64)) :: vs)) ∨
    (∀ h', updateMetric op t.type v.index y h ≠ .ok () h') := by
  obtain ⟨hext, k, hi⟩ := Value.number_role I hv
  have hread : ∀ {h1 : Heap} {g}, View m h1 (R.withGeneration g) F →
      Block.payloadField t.type Payload.numericValue h1.mapping v.index = .ok x := by
    intro h1 g V1
    rw [(V1.holds (hi g)).payloadField (t := t.type) rfl, numericValue_pay]
    exact congrArg Except.ok (V1.shows (hi g)).body.2
  have hcode :=
    locked_update I (Block.payloadField t.type Payload.numericValue) (Block.setNumericValue t.type)
      (op t.type · y) hi hread
  cases hop : op t.type x y with
  | ok z =>
    obtain ⟨h', R', F', hrun, I'⟩ := setMetric_ok I hv z
    exact .inl ⟨z, h', R', F', rfl, (hcode.1 z hop).trans hrun, I'⟩
  | error e => exact .inr (hcode.2 e hop)

end Metrics

section Arrays
variable {t : Number} {f : ArrayFormat} {xs : List Nat}

variable (I : StateInv m h R F ts (v :: vs)) (hv : v.content = .array t f xs)
include I hv

theorem Value.array_role :
    v.extents = [] ∧ ∃ k s data, data.take s = xs ∧ Block.order h.mapping v.index = .ok k ∧
      ∀ g, R.withGeneration g v.index = some (k, .array t f v.nameIndex v.parent s data) := by
  have hs := I.owns.stored v mem_cons_self
  simp only [Stored, hv] at hs
  obtain ⟨hext, k, s, data, hi, hxs⟩ := hs
  have hi0 : v.index ≠ 0 := I.owns.apart.index
  exact ⟨hext, k, s, data, hxs, (I.view.holds hi).order,
    fun g => (withGeneration_of_ne hi0 g).trans hi⟩

section
variable {slot : Nat} (hk : Block.order h.mapping v.index = .ok k) (hslot : slot < arrayCapacity k)
include hk hslot

theorem setArraySlot_ok (y : Nat) :
    ∃ h' R' F', setArraySlot t.type v.index slot y h = .ok () h' ∧
      StateInv m h' R' F' ts (withContent v (.array t f (xs.set slot (y % 2 ^ 64))) :: vs) := by
  obtain ⟨hext, l, s, data, rfl, hl, hi⟩ := Value.array_role I hv
  obtain rfl : l = k := Except.ok.inj (hl.symm.trans hk)
  refine rewrite_ok (k := l) (b := .array t f v.nameIndex v.parent s (data.set slot (y % 2 ^ 64))) I
    _ (by simp [hv]) (by simp) hext _ ?_ fun S hS => ⟨rfl, l, s, _, hS, take_set ..⟩
  intro h1 g V1
  obtain ⟨h2, hrun, V2, -⟩ := V1.arraySetSlot (hi g) hslot y
  exact ⟨h2, (View.getBlock_bind V1 (hi g) _).trans hrun, V2⟩

theorem updateArraySlot_cases (op : BlockType → Nat → Nat → Except Fault Nat) (y : Nat) :
    (∃ z h' R' F', (slot < xs.length → op t.type (xs.getD slot 0) y = .ok z) ∧
      updateArraySlot op t.type v.index slot y h = .ok () h' ∧
      StateInv m h' R' F' ts (withContent v (.array t f (xs.set slot (z % 2 ^ 64))) :: vs)) ∨
    ((slot < xs.length → ∃ e, op t.type (xs.getD slot 0) y = .error e) ∧
      ∀ h', updateArraySlot op t.type v.index slot y h ≠ .ok () h') := by
  obtain ⟨hext, l, s, data, rfl, hl, hi⟩ := Value.array_role I hv
  obtain rfl : l = k := Except.ok.inj (hl.symm.trans hk)
  have hread : ∀ {h1 : Heap} {g}, View m h1 (R.withGeneration g) F →
      Block.arrayGetSlot t.type h1.mapping v.index slot = .ok (data.getD slot 0) :=
    fun V1 => V1.arrayGetSlot (hi _) hslot
  have hold : slot < (data.take s).length → (data.take s).getD slot 0 = data.getD slot 0 := by
    intro hlt
    rw [length_take] at hlt
    rw [getD_eq_getElem?_getD, getD_eq_getElem?_getD, List.getElem?_take_of_lt (by omega)]
  have hcode :=
    locked_update I (Block.arrayGetSlot t.type · · slot) (Block.arraySetSlot t.type · · slot)
      (op t.type · y) hi hread
  cases hop : op t.type (data.getD slot 0) y with
  | ok z =>
    obtain ⟨h', R', F', hrun, I'⟩ := setArraySlot_ok I hv hk hslot z
    exact .inl ⟨z, h', R', F', fun hlt => by rw [hold hlt, hop], (hcode.1 z hop).trans hrun, I'⟩
  | error e => exact .inr ⟨fun hlt => ⟨e, by rw [hold hlt, hop]⟩, hcode.2 e hop⟩

end

end Arrays

end Rewrite

end State

end Garnet.Inspect
