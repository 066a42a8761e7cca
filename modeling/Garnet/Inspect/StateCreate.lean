import Garnet.Inspect.Ownership

/-! The calls that create values: what they do to the live values, and what is left when they
fail. -/

namespace Garnet.Inspect
open List
open Function (update update_eq_self update_idem update_of_ne update_self)

structure StateInv (m : Mapping) (h : Heap) (R : Roles) (F : Lists) (ts : List Nat)
    (vs : List Value) :
    Prop where
  view : View m h R F
  owns : Owns R ts vs

namespace Roles
variable {m : Mapping} {R : Roles} {F : Lists} {j p g : Nat}

theorem withGeneration_of_ne (hj : j ≠ 0) (g : Nat) : R.withGeneration g j = R j :=
  update_of_ne hj ..

theorem withGeneration_zero (R : Roles) (g : Nat) : R.withGeneration g 0 = some (0, .header g) :=
  update_self ..

theorem withGeneration_twice (R : Roles) (g g' : Nat) :
    (R.withGeneration g).withGeneration g' = R.withGeneration g' := update_idem ..

theorem adopts_withGeneration (h0 : R 0 = some (0, .header g)) (g' : Nat) :
    (R.withGeneration g').Adopts p ↔ R.Adopts p := by
  by_cases hp : p = 0
  · subst p
    constructor
    · exact fun _ => ⟨0, _, h0, by simp [Role.gain]⟩
    · exact fun _ => ⟨0, _, withGeneration_zero R g', by simp [Role.gain]⟩
  · rw [Roles.Adopts, Roles.Adopts, withGeneration_of_ne hp]

theorem change_zero (h0 : R 0 = some (0, .header g)) {f : Role → Option Role}
    (hf : f (.header g) = some (.header g)) (p : Nat) : R.change p f 0 = some (0, .header g) := by
  by_cases hp : p = 0
  · subst p
    rw [change_eq h0, hf, update_self]
    rfl
  · rw [change_of_ne (Ne.symm hp), h0]

theorem known_withGeneration (hp : Known m R F p) (g : Nat) : Known m (R.withGeneration g) F p := by
  by_cases h0 : p = 0
  · subst p
    exact .inl (by simp [withGeneration_zero])
  · rwa [Known, withGeneration_of_ne h0]

end Roles

def Unchanged (m : Mapping) (R : Roles) (ts : List Nat) (vs : List Value) (h' : Heap) : Prop :=
  ∃ g' F', g' % 2 = 0 ∧ StateInv m h' (R.withGeneration g') F' ts vs

/-- What a call that creates a value does: a live value more, or an error. -/
def Creates (m : Mapping) (ts : List Nat) (vs : List Value) (h : Heap) (p : Nat) (name : List UInt8)
    (call : HeapM Nat) (made : Heap → Value → Prop) (failed : Heap → Prop) : Prop :=
  (∃ v h' R' F', call h = .ok v.index h' ∧ StateInv m h' R' F' ts (v :: vs) ∧ v.parent = p ∧
    v.name = name.take 2040 ∧ made h' v) ∨ ∃ msg h', call h = .error (.error msg) h' ∧ failed h'

namespace StateInv
variable {m : Mapping} {h h' : Heap} {R : Roles} {F F' : Lists} {j k g : Nat}
variable {ts : List Nat} {vs : List Value}

section
variable (I : StateInv m h R F ts vs)
include I

theorem count_lt {b : Role} {c : Nat} (hj : R j = some (k, b)) (hc : b.count = some c) :
    c + 1 < 2 ^ 64 := by
  have hlt : children vs j < 2 ^ 28 := by
    refine I.owns.children_lt (fun i hi => ?_) j
    obtain ⟨⟨k, b⟩, hb⟩ := Option.ne_none_iff_exists'.mp hi
    exact I.view.index_lt hb
  rw [I.owns.count hj hc]
  omega

theorem unchanged (hg : g % 2 = 0) (V : View m h' (R.withGeneration g) F') :
    Unchanged m R ts vs h' :=
  ⟨g, F', hg, V, I.owns.reheader ⟨g, hg, R.withGeneration_zero g⟩ fun _ hj =>
    Roles.withGeneration_of_ne hj g⟩

theorem self : Unchanged m R ts vs h := by
  obtain ⟨g, hg, h0⟩ := I.owns.header
  have hR : R.withGeneration g = R := by rw [Roles.withGeneration, ← h0, update_eq_self]
  exact ⟨g, F, hg, hR.symm ▸ I⟩

end

end StateInv

namespace State
variable {m : Mapping} {h h' : Heap} {R : Roles} {F : Lists} {i j k l n p g : Nat}
variable {ts : List Nat} {v : Value} {vs : List Value}

section Create

/-- `create_node`, `create_*_metric` and `create_*_array` reserve the blocks of a value and write
it. -/
def createValue (name : List UInt8) (parentIndex size : Nat)
    (become : Nat → Nat → Mapping → Except Fault Mapping) : HeapM Nat := withHeaderLock do
  let (value, nameBlock) ← allocateReservedValue name parentIndex size
  Heap.onBlock (become value nameBlock)
  pure value

variable {text : List UInt8} {S R' : Roles}

theorem reserve_change (f : Role → Option Role) (hj : j ≠ 0) (hji : j ≠ i) (hjn : j ≠ n) :
    ((R.withGeneration g).reserve i k n l text).change p f j = R.change p f j := by
  by_cases hjp : j = p
  · subst j
    simp [Roles.change, Roles.reserve, Roles.withGeneration, hj, hji, hjn]
  · rw [Roles.change_of_ne hjp, Roles.change_of_ne hjp, Roles.reserve, update_of_ne hjn,
      update_of_ne hji, Roles.withGeneration_of_ne hj]

/-- The roles after `allocate_reserved_value`: the value has its two blocks and its parent counts
it. -/
structure Reserved (R S : Roles) (g p i k n : Nat) (text : List UInt8) : Prop where
  value : S i = some (k, .reserved)
  name : ∃ l, S n = some (l, .name text)
  header : S 0 = some (0, .header g)
  fresh_value : R i = none
  fresh_name : R n = none
  ne : n ≠ i
  adopts : R.Adopts p
  off : ∀ j, j ≠ 0 → j ≠ i → j ≠ n → S j = R.change p Role.gain j

theorem reserve_cases (I : StateInv m h R F ts vs) (hpage : pageSizeBytes ∣ m.len)
    (hp : Known m R F p) (h0 : R 0 = some (0, .header g)) {h1 : Heap}
    (hmax : min m.len (h1.currentSizeBytes * 4) ≤ 2 ^ 32)
    (V1 : View m h1 (R.withGeneration (tick g)) F) {size : Nat} (h16 : 16 ≤ size)
    (hsize : size ≤ 2048) (name : List UInt8) :
    (∃ i n k h2 F2 S, allocateReservedValue name p size h1 = .ok (i, n) h2 ∧ size ≤ 16 * 2 ^ k ∧
      Reserved R S (tick g) p i k n (name.take 2040) ∧ View m h2 S F2) ∨
    (∃ msg h2 F2, allocateReservedValue name p size h1 = .error (.error msg) h2 ∧
      View m h2 (R.withGeneration (tick g)) F2) := by
  have hcount : ∀ j k b c, R.withGeneration (tick g) j = some (k, b) → b.count = some c →
      c + 1 < 2 ^ 64 := by
    intro j k b c hj hc
    by_cases hj0 : j = 0
    · subst j
      rw [Roles.withGeneration_zero] at hj
      cases hj
      cases hc
    · rw [Roles.withGeneration_of_ne hj0] at hj
      exact I.count_lt hj hc
  rcases allocateReservedValue_cases V1 hpage hmax (Roles.known_withGeneration hp _) hcount h16 hsize
    name with
    ⟨i, n, k, l, h2, F2, hrun2, hi, hn, hni, hk, hle, hadopt, V2⟩ | herr
  · obtain ⟨q, b, hq, -⟩ := id hadopt
    have hne0 : ∀ {j}, R.withGeneration (tick g) j = none → j ≠ 0 := fun hj =>
      (ne_of_none hj (R.withGeneration_zero _)).symm
    have hpne : ∀ {j}, R.withGeneration (tick g) j = none → j ≠ p := fun hj => (ne_of_none hj hq).symm
    refine .inl ⟨i, n, k, h2, F2, _, hrun2, hle, ⟨?_, ⟨l, ?_⟩, ?_, ?_, ?_, hni, ?_, ?_⟩, V2⟩
    · rw [Roles.change_of_ne (hpne hi), Roles.reserve, update_of_ne hni.symm,
        update_self]
    · rw [Roles.change_of_ne (hpne hn), Roles.reserve, update_self]
    · refine Roles.change_zero (f := Role.gain) ?_ rfl p
      rw [Roles.reserve, update_of_ne (hne0 hn).symm, update_of_ne (hne0 hi).symm,
        Roles.withGeneration_zero]
    · rwa [Roles.withGeneration_of_ne (hne0 hi)] at hi
    · rwa [Roles.withGeneration_of_ne (hne0 hn)] at hn
    · exact (Roles.adopts_withGeneration h0 (tick g)).mp hadopt
    · exact fun j hj0 hji hjn => reserve_change _ hj0 hji hjn
  · exact .inr herr

theorem Reserved.ne_zero (r : Reserved R S g p i k n text) (O : Owns R ts vs) : i ≠ 0 ∧ n ≠ 0 := by
  obtain ⟨_, -, h0⟩ := O.header
  exact ⟨(ne_of_none r.fresh_value h0).symm, (ne_of_none r.fresh_name h0).symm⟩

theorem Reserved.create {S' : Roles} (O : Owns R ts vs)
    (r : Reserved R S g v.parent v.index k v.nameIndex v.name) (hext : ∀ j ∈ v.extents, S j = none)
    (hnd : v.extents.Nodup) (hs : v.Stored S')
    (hzero : ∀ {k b c}, S' v.index = some (k, b) → b.count = some c → c = 0)
    (hhead : ∃ g, g % 2 = 0 ∧ S' 0 = some (0, .header g))
    (hoff : ∀ j, j ≠ 0 → j ≠ v.index → j ∉ v.extents → S' j = S j) : Owns S' ts (v :: vs) := by
  obtain ⟨hi0, hn0⟩ := r.ne_zero O
  obtain ⟨l, hname⟩ := r.name
  have hne : ∀ j ∈ v.extents, j ≠ 0 ∧ j ≠ v.index ∧ j ≠ v.nameIndex := by
    intro j hj
    have hne := fun {a l} (ha : S a = some l) => (ne_of_none (hext j hj) ha).symm
    exact ⟨hne r.header, hne r.value, hne hname⟩
  have hnm : v.Named S' := by
    refine ⟨l, ?_⟩
    rw [hoff _ hn0 r.ne fun hj => (hne _ hj).2.2 rfl, hname]
  refine O.create ?_ ?_ r.adopts hs hnm hzero hhead ?_
  · intro j hj
    simp only [Value.own, mem_cons] at hj
    rcases hj with rfl | rfl | hj
    · exact r.fresh_value
    · exact r.fresh_name
    · obtain ⟨hj0, hji, hjn⟩ := hne j hj
      have hR := hext j hj
      rw [r.off j hj0 hji hjn] at hR
      by_contra hj
      exact (Owns.change_gain_ne_none r.adopts).mpr hj hR
  · simp only [Value.own, nodup_cons, mem_cons, not_or]
    exact ⟨⟨r.ne.symm, fun hj => (hne _ hj).2.1 rfl⟩, fun hj => (hne _ hj).2.2 rfl, hnd⟩
  · intro j hj0 hj
    simp only [Value.own, mem_cons, not_or] at hj
    rw [hoff j hj0 hj.1 hj.2.2, r.off j hj0 hj.1 hj.2.1]

section
variable (I : StateInv m h R F ts vs) (hm : Addressable m) (hp : Known m R F p)
include I hm hp

theorem createValue_cases {size : Nat} (h16 : 16 ≤ size) (hsize : size ≤ 2048) (name : List UInt8)
    (become : Nat → Nat → Mapping → Except Fault Mapping) (Good : Content → Prop)
    (hbecome : ∀ {h R F i n k}, View m h R F → R i = some (k, .reserved) → n < 2 ^ 28 → p < 2 ^ 28 →
      size ≤ 16 * 2 ^ k → ∃ h' b, Heap.onBlock (become i n) h = .ok () h' ∧
        View m h' (update R i (some (k, b))) F ∧ (∀ c, b.count = some c → c = 0) ∧
        ∃ content, ∀ S, S i = some (k, b) →
          Value.Stored S ⟨⟨i, p, name.take 2040, content⟩, n, []⟩ ∧ Good content) :
    Creates m ts vs h p name (createValue name p size become) (fun _ v => Good v.content)
      (Unchanged m R ts vs) := by
  obtain ⟨g, hg, h0⟩ := I.owns.header
  obtain ⟨h1, -, V1, hunlock⟩ := withHeaderLock_run I.view h0 hg
  have hg2 : tick (tick g) % 2 = 0 := tick_even (tick_odd hg)
  rcases reserve_cases I hm.page hp h0 ((min_le_left ..).trans hm.max) V1 h16 hsize name with
    ⟨i, n, k, h2, F2, S, hrun2, hle, r, V2⟩ | ⟨msg, h2, F2, hrun2, V2⟩
  · obtain ⟨hi0, hn0⟩ := r.ne_zero I.owns
    obtain ⟨l, hname⟩ := r.name
    obtain ⟨q, b, hq, -⟩ := r.adopts
    obtain ⟨h3, c, hrun3, V3, hzero, content, hgood⟩ := hbecome V2 r.value (V2.index_lt hname)
      (I.view.index_lt hq) hle
    obtain ⟨h4, V4, hok, -⟩ := hunlock V3 (by rw [update_of_ne hi0.symm, r.header])
    have hidx : Roles.withGeneration (update S i (some (k, c))) (tick (tick g)) i =
        some (k, c) := by
      rw [Roles.withGeneration_of_ne hi0, update_self]
    obtain ⟨hstored, hgood⟩ := hgood _ hidx
    refine .inl ⟨⟨⟨i, p, name.take 2040, content⟩, n, []⟩, h4, _, F2,
      hok ((bind_ok hrun2 _).trans (bind_ok hrun3 _)), ⟨V4, ?_⟩, rfl, rfl, hgood⟩
    refine Reserved.create I.owns r (by simp) .nil hstored ?_
      ⟨_, hg2, Roles.withGeneration_zero ..⟩ ?_
    · intro k' b' c' hk' hc'
      rw [hidx] at hk'
      cases hk'
      exact hzero c' hc'
    · intro j hj0 hji _
      rw [Roles.withGeneration_of_ne hj0, update_of_ne hji]
  · obtain ⟨h3, V3, -, herr⟩ := hunlock V2 (R.withGeneration_zero _)
    rw [Roles.withGeneration_twice] at V3
    exact .inr ⟨msg, h3, herr (bind_error hrun2 _), I.unchanged hg2 V3⟩

theorem createNode_cases (name : List UInt8) :
    Creates m ts vs h p name (createNode name p) (fun _ v => v.content = .node)
      (Unchanged m R ts vs) := by
  refine createValue_cases I hm hp (by decide : 16 ≤ minOrderSize) (by decide) name
    (fun i n m => Block.becomeNode m i n p) (· = .node) ?_
  intro h R F i n k V hi hn hp _
  obtain ⟨h', hrun, V', -⟩ := V.becomeNode hi hn hp
  exact ⟨h', _, hrun, V', fun c hc => (Option.some.inj hc).symm, .node, fun S hS =>
    ⟨⟨rfl, k, 0, hS⟩, rfl⟩⟩

theorem createMetric_cases (t : Number) (name : List UInt8) (x : Nat) :
    Creates m ts vs h p name (createMetric t.type name x p)
      (fun _ v => v.content = .number t (x % 2 ^ 64))
      (Unchanged m R ts vs) := by
  refine createValue_cases I hm hp (by decide : 16 ≤ minOrderSize) (by decide) name
    (fun i n m => Block.becomeNumericValue t.type m i x n p)
    (· = .number t (x % 2 ^ 64)) ?_
  intro h R F i n k V hi hn hp _
  obtain ⟨h', hrun, V', -⟩ := V.becomeNumericValue hi t x hn hp
  exact ⟨h', _, hrun, V', (by rintro c ⟨⟩), .number t (x % 2 ^ 64), fun S hS =>
    ⟨⟨rfl, k, hS⟩, rfl⟩⟩

end

theorem array_slots (V : View m h R F) (hv : v.Stored R) {t : Number} {f : ArrayFormat}
    {xs : List Nat} (hc : v.content = .array t f xs) :
    xs = slotsAt h.mapping.byte v.index xs.length := by
  simp only [Value.Stored, hc] at hv
  obtain ⟨-, k, s, data, hi, rfl⟩ := hv
  obtain ⟨-, -, -, -, hs, hdata⟩ := (V.shows hi).body
  simp [← hdata, slotsAt, ← map_take, take_range, hs]

theorem createArray_cases (I : StateInv m h R F ts vs) (hm : Addressable m) (hp : Known m R F p)
    (t : Number) (name : List UInt8) {s : Nat} (hs : s < 2 ^ 8) (f : ArrayFormat) :
    Creates m ts vs h p name (createArray t.type name s f p)
      (fun h v => v.content = .array t f (slotsAt h.mapping.byte v.index s))
        (Unchanged m R ts vs) := by
  by_cases hbig : maxOrderSize < s * 8 + minOrderSize
  · refine .inr ⟨"cannot allocate block of size " ++ toString (s * 8 + minOrderSize), h, ?_, I.self⟩
    rw [createArray, if_pos hbig]
    rfl
  have hsize : s * 8 + minOrderSize ≤ 2048 := Nat.le_of_not_lt hbig
  have hcases := createValue_cases I hm hp (Nat.le_add_left 16 _) hsize name
    (fun i n m => Block.becomeArrayValue m i s f t.type n p)
    (fun c => ∃ xs : List Nat, c = .array t f xs ∧ xs.length = s) (by
      intro h R F i n k V hi hn hp hle
      have hsk : s ≤ arrayCapacity k := by
        have hle : s * 8 + 16 ≤ 16 * 2 ^ k := hle
        rw [arrayCapacity_eq]
        omega
      obtain ⟨data, h', hrun, V', -⟩ := V.becomeArrayValue hi t f hs hsk hn hp
      refine ⟨h', _, hrun, V', (by rintro c ⟨⟩), .array t f (data.take s), fun S hS =>
        ⟨⟨rfl, k, s, data, hS, rfl⟩, _, rfl, ?_⟩⟩
      rw [length_take, V'.data_length (update_self ..), min_eq_left hsk])
  rw [Creates, createArray, if_neg hbig]
  rcases hcases with ⟨v, h', R', F', hrun, I', hpar, hname, xs, hxs, rfl⟩ | herr
  · refine .inl ⟨v, h', R', F', hrun, I', hpar, hname, ?_⟩
    rw [← array_slots I'.view (I'.owns.stored v mem_cons_self) hxs, hxs]
  · exact .inr herr

theorem Reserved.create_property {value : List UInt8} {new : List Nat} {g' : Nat}
    {f : PropertyFormat} (r : Reserved R S g p i k n text) (O : Owns R ts vs)
    (hw : Wrote (update S i (some (k, .property f n p 0 0))) R' new value) (hg : g' % 2 = 0) :
    Owns (Roles.withGeneration (update R' i
        (some (k, .property f n p value.length (new.headD 0)))) g') ts
      (⟨⟨i, p, text, .property f value⟩, n, new⟩ :: vs) := by
  obtain ⟨hi0, -⟩ := r.ne_zero O
  have hfresh : ∀ j ∈ new, j ≠ 0 ∧ j ≠ i ∧ S j = none := by
    intro j hj
    have hnone := hw.fresh j hj
    have hji : j ≠ i := (ne_of_none hnone (update_self ..)).symm
    rw [update_of_ne hji] at hnone
    exact ⟨(ne_of_none hnone r.header).symm, hji, hnone⟩
  refine Reserved.create O r (fun j hj => (hfresh j hj).2.2) hw.nodup ⟨?_, k, ?_⟩ ?_
    ⟨g', hg, Roles.withGeneration_zero ..⟩ ?_
  · refine hw.chain.congr fun j hj => ?_
    rw [Roles.withGeneration_of_ne (hfresh j hj).1, update_of_ne (hfresh j hj).2.1]
  · rw [Roles.withGeneration_of_ne hi0, update_self]
  · intro k' b c hk hc
    rw [Roles.withGeneration_of_ne hi0, update_self] at hk
    cases hk
    cases hc
  · intro j hj0 hji hj
    rw [Roles.withGeneration_of_ne hj0, update_of_ne hji, hw.off j hj, update_of_ne hji]

theorem Reserved.restore (r : Reserved R S g p i k n text)
    (hp0 : p = 0) (hR : ∀ j, j ≠ i → R' j = S j) (g' : Nat) :
    Roles.withGeneration (update (update R' i none) n none) g' =
      R.withGeneration g' := by
  funext j
  by_cases hj0 : j = 0
  · rw [hj0, Roles.withGeneration_zero, Roles.withGeneration_zero]
  rw [Roles.withGeneration_of_ne hj0, Roles.withGeneration_of_ne hj0]
  by_cases hjn : j = n
  · rw [hjn, update_self, r.fresh_name]
  by_cases hji : j = i
  · rw [hji, update_of_ne r.ne.symm, update_self, r.fresh_value]
  rw [update_of_ne hjn, update_of_ne hji, hR j hji, r.off j hj0 hji hjn,
    Roles.change_of_ne (hp0 ▸ hj0)]

/-- The part of `create_property` before its extents are written. -/
def reserveProperty (name : List UInt8) (parentIndex : Nat) : HeapM (Nat × Nat) := do
  Heap.onBlock (Block.lockHeader · headerIndex)
  allocateReservedValue name parentIndex minOrderSize

theorem fits_mapping {h2 h3 : Heap} (V2 : View m h2 R F) (V3 : View m h3 S F)
    (hs : h3.currentSizeBytes = h2.currentSizeBytes) (n : Nat) :
    (h3.Fits h3.freeBlocks n ↔ h2.Fits h2.freeBlocks n) ∧
    (h3.Exhausted h3.freeBlocks n ↔ h2.Exhausted h2.freeBlocks n) := by
  have hl : h3.mapping.len = h2.mapping.len := V3.len.trans V2.len.symm
  constructor
  · rw [Fits.perm V3.inv.freeBlocks_perm, Fits.perm V2.inv.freeBlocks_perm, Fits.congr hs hl]
  · rw [Exhausted.perm V3.inv.freeBlocks_perm, Exhausted.perm V2.inv.freeBlocks_perm]
    simp only [Heap.Exhausted, hs, hl]

theorem createProperty_cases (I : StateInv m h R F ts vs) (hm : Addressable m) (hp : Known m R F p)
    (name value : List UInt8) (f : PropertyFormat) :
    Creates m ts vs h p name (createProperty name value f p)
      (fun _ v => v.content = .property f value)
      fun h' => Unchanged m R ts vs h' ∨ ∃ b h1, reserveProperty name p h = .ok b h1 ∧
        ¬ h1.Fits h1.freeBlocks value.length ∧
        (h1.Exhausted h1.freeBlocks (blockSizeForPayload value.length) → p = 0 →
          Unchanged m R ts vs h') := by
  obtain ⟨g, hg, h0⟩ := I.owns.header
  obtain ⟨h1, hlock, V1, hunlock⟩ := withHeaderLock_run I.view h0 hg
  have hg2 : tick (tick g) % 2 = 0 := tick_even (tick_odd hg)
  rcases reserve_cases I hm.page hp h0 ((min_le_left ..).trans hm.max) V1
    (by decide : 16 ≤ minOrderSize) (by decide) name with
    ⟨i, n, k, h2, F2, S, hrun2, hle, r, V2⟩ | ⟨msg, h2, F2, hrun2, V2⟩
  · obtain ⟨hi0, hn0⟩ := r.ne_zero I.owns
    obtain ⟨l, hname⟩ := r.name
    obtain ⟨q, b, hq, -⟩ := r.adopts
    obtain ⟨h3, hrun3, V3, hs3⟩ :=
      V2.becomeProperty r.value f (V2.index_lt hname) (I.view.index_lt hq)
    have hi3 := update_self i (some (k, Role.property f n p 0 (([] : List Nat).headD 0))) S
    have hchain : ∀ R : Roles, Chain R [] [] := fun _ => rfl
    obtain ⟨h4, F4, hfree, V4, hset⟩ := innerSetPropertyValue_cases V3 hm (g := tick g)
      (by rw [update_of_ne hi0.symm, r.header]) hi3 (hchain _) .nil value
    obtain rfl : h4 = h3 := by
      have : freeExtents 0 h3 = .ok () h3 := rfl
      rw [headD_nil, this] at hfree
      exact (EStateM.Result.ok.inj hfree).2.symm
    rw [Roles.without_nil] at hset
    have hS0 : update S i (some (k, Role.property f n p 0 0)) 0 = some (0, .header (tick g)) := by
      rw [update_of_ne hi0.symm, r.header]
    have hSn : update S i (some (k, Role.property f n p 0 0)) n =
        some (l, .name (name.take 2040)) := by
      rw [update_of_ne r.ne, hname]
    rcases hset with
        ⟨new, h5, F5, R5, hrun5, V5, hw⟩ | ⟨msg, new, h5, F5, R5, hrun5, V5, hl, hfit, hnil⟩
    · have hnew : ∀ {j b}, update S i (some (k, Role.property f n p 0 0)) j = some b →
          j ∉ new := fun hj hin => ne_of_none (hw.fresh _ hin) hj rfl
      obtain ⟨h6, V6, hok, -⟩ := hunlock V5 (by rw [update_of_ne hi0.symm, hw.off 0 (hnew hS0), hS0])
      refine .inl ⟨⟨⟨i, p, name.take 2040, .property f value⟩, n, new⟩, h6, _, F5, ?_,
        ⟨V6, r.create_property I.owns hw hg2⟩, rfl, rfl, rfl⟩
      exact hok ((bind_ok hrun2 _).trans ((bind_ok hrun3 _).trans (bind_ok (attempt_ok hrun5) _)))
    · have hold : ∀ {j b}, update S i (some (k, Role.property f n p 0 0)) j = some b →
          R5 j = some b := by
        intro j b hj
        rw [hl.off j fun hin => ne_of_none (hl.fresh j hin) hj rfl, hj]
      obtain ⟨h6, F6, hrun6, V6, -⟩ := V5.free (hold hi3)
      obtain ⟨h7, F7, hrun7, V7, -⟩ := V6.free (i := n)
        (by rw [update_of_ne r.ne]; exact hold hSn)
      obtain ⟨h8, V8, -, herr⟩ := hunlock V7 (by
        rw [update_of_ne hn0.symm, update_of_ne hi0.symm]
        exact hold hS0)
      obtain ⟨hfits, -⟩ := fits_mapping V2 V3 hs3 value.length
      obtain ⟨-, hexh⟩ := fits_mapping V2 V3 hs3 (blockSizeForPayload value.length)
      rw [hfits] at hfit
      rw [hexh] at hnil
      refine .inr ⟨msg, h8, herr ((bind_ok hrun2 _).trans ((bind_ok hrun3 _).trans
        ((bind_ok (attempt_error hrun5) _).trans ((bind_ok (unwrapS_ok hrun6) _).trans
          (bind_ok (unwrapS_ok hrun7) _))))),
            .inr ⟨(i, n), h2, (bind_ok hlock _).trans hrun2, hfit, ?_⟩⟩
      intro hfull hp0
      have hR5 : ∀ j, j ≠ i → R5 j = S j := fun j hji => by
        rw [hl.off j (by simp [hnil.mpr hfull]), update_of_ne hji]
      exact I.unchanged hg2 (r.restore hp0 hR5 _ ▸ V8)
  · obtain ⟨h3, V3, -, herr⟩ := hunlock V2 (R.withGeneration_zero _)
    rw [Roles.withGeneration_twice] at V3
    exact .inr ⟨msg, h3, herr (bind_error hrun2 _), .inl (I.unchanged hg2 V3)⟩

end Create

end State

end Garnet.Inspect
