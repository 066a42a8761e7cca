import Garnet.Inspect.StateRun

/-! What the blocks of an Inspect VMO say about one another: counts of children, and the owners of
names and extents. -/

namespace Garnet.Inspect
open List
open Block (blockType checkAnyValue checkType nameIndex parentIndex)

/-- The extents that follow `e`, `e` included. -/
def Reaches (m : Mapping) (e e' : Nat) : Prop :=
  Relation.ReflTransGen (fun i j => Block.nextExtent m i = .ok j) e e'

section Blocks
variable {m : Mapping} {h : Heap} {R : Roles} {F : Lists} {ts : List Nat} {u v : Value}
variable {vs : List Value} {i j k n p : Nat} {b : Role} {bs : List (Nat × Nat)}

theorem View.met (V : View m h R F) (hbs : h.blocks = some bs) (hi : (i, k) ∈ bs) :
    (h.IsFree i ∧ blockType h.mapping i = .ok .free) ∨ ∃ b, R i = some (k, b) := by
  obtain ⟨bs', hbs', hmem⟩ := V.inv.blocks
  obtain rfl : bs = bs' := Option.some.inj (hbs.symm.trans hbs')
  rcases (hmem i k).mp hi with hs | hs
  · right
    simp only [Roles.orders, Option.map_eq_some_iff] at hs
    obtain ⟨⟨l, b⟩, hb, rfl⟩ := hs
    exact ⟨b, hb⟩
  · have hfree := V.inv.layout.free_type hs
    exact .inl ⟨hfree, Heap.blockType_ok V.inv.layout (.inr hs) hfree⟩

theorem View.mem_blocks (V : View m h R F) (hbs : h.blocks = some bs) (hi : R i = some (k, b)) :
    (i, k) ∈ bs := by
  obtain ⟨bs', hbs', hmem⟩ := V.inv.blocks
  obtain rfl : bs = bs' := Option.some.inj (hbs.symm.trans hbs')
  exact (hmem i k).mpr (View.starts hi)

theorem refs_of_isAnyValue (hb : b.type.isAnyValue = true) : ∃ n p, b.refs = some (n, p) := by
  cases b with
  | node n p c | number t n p x | array t f n p s data | property f n p l e => exact ⟨n, p, rfl⟩
  | _ => cases hb

section
variable (I : StateInv m h R F ts vs)
include I

theorem StateInv.live (hbs : h.blocks = some bs) (hi : (i, k) ∈ bs)
    (hv : checkAnyValue h.mapping i = .ok ()) : ∃ v ∈ vs, v.index = i := by
  rcases I.view.met hbs hi with ⟨-, hfree⟩ | ⟨b, hb⟩
  · simp only [checkAnyValue, hfree, ok_bind] at hv
    cases hv
  · simp only [checkAnyValue, (I.view.holds hb).blockType, ok_bind] at hv
    split at hv
    · rename_i hany
      obtain ⟨n, p, hrefs⟩ := refs_of_isAnyValue hany
      obtain ⟨v, hv, hi, -⟩ := I.owns.value hb hrefs
      exact ⟨v, hv, hi⟩
    · cases hv

theorem StateInv.reads (hv : v ∈ vs) :
    nameIndex h.mapping v.index = .ok v.nameIndex ∧
    parentIndex h.mapping v.index = .ok v.parent := by
  obtain ⟨k, b, hb, hrefs⟩ := (I.owns.stored v hv).role
  exact ⟨(I.view.holds hb).nameIndex hrefs, (I.view.holds hb).parentIndex hrefs⟩

theorem StateInv.index_mem (hbs : h.blocks = some bs) (hv : v ∈ vs) : ∃ k, (v.index, k) ∈ bs := by
  obtain ⟨k, b, hb, -⟩ := (I.owns.stored v hv).role
  exact ⟨k, I.view.mem_blocks hbs hb⟩

end

theorem Owns.own_unique (O : Owns R ts vs) (hu : u ∈ vs) (hv : v ∈ vs) (hju : j ∈ u.own)
    (hjv : j ∈ v.own) : u = v := by
  obtain ⟨l₁, l₂, rfl⟩ := append_of_mem hv
  have hnd := (O.perm perm_middle).nodup
  have hnd := owned_cons_perm.nodup_iff.mp hnd
  rcases mem_cons.mp (perm_middle.mem_iff.mp hu) with rfl | hu
  · rfl
  · exact absurd rfl ((nodup_append.mp hnd).2.2 j hjv j
      (mem_owned.mpr (.inr (.inr ⟨u, hu, hju⟩))))

section
variable (I : StateInv m h R F ts vs) (hbs : h.blocks = some bs)
include I hbs

theorem StateInv.parent_iff : ((∃ k, (i, k) ∈ bs) ∧ parentIndex h.mapping i = .ok p) ↔
      ∃ v ∈ vs, v.index = i ∧ v.parent = p := by
  constructor
  · rintro ⟨⟨k, hi⟩, hp⟩
    obtain ⟨_, hany, -⟩ := ok_of_bind hp
    obtain ⟨v, hv, rfl⟩ := I.live hbs hi hany
    rw [(I.reads hv).2] at hp
    exact ⟨v, hv, rfl, Except.ok.inj hp⟩
  · rintro ⟨v, hv, rfl, rfl⟩
    exact ⟨I.index_mem hbs hv, (I.reads hv).2⟩

theorem StateInv.name_iff : ((∃ k, (i, k) ∈ bs) ∧ nameIndex h.mapping i = .ok n) ↔
      ∃ v ∈ vs, v.index = i ∧ v.nameIndex = n := by
  constructor
  · rintro ⟨⟨k, hi⟩, hn⟩
    obtain ⟨_, hany, -⟩ := ok_of_bind hn
    obtain ⟨v, hv, rfl⟩ := I.live hbs hi hany
    rw [(I.reads hv).1] at hn
    exact ⟨v, hv, rfl, Except.ok.inj hn⟩
  · rintro ⟨v, hv, rfl, rfl⟩
    exact ⟨I.index_mem hbs hv, (I.reads hv).1⟩

theorem StateInv.countP_eq (p : Nat) :
    (bs.countP fun b => (parentIndex h.mapping b.1).toOption = some p) = children vs p := by
  have hnd : (bs.map Prod.fst).Nodup := (I.view.inv.blocks_sorted hbs).imp ne_of_lt
  have hvs : (vs.map fun v => v.index).Nodup := by
    have hown := (nodup_append.mp (nodup_cons.mp I.owns.nodup).2).2.1
    refine pairwise_map.mpr ((nodup_flatMap.mp hown).2.imp ?_)
    intro u v hd he
    exact hd (mem_cons_self : u.index ∈ u.own) (he ▸ mem_cons_self)
  have hperm : ((bs.filter fun b => (parentIndex h.mapping b.1).toOption = some p).map Prod.fst).Perm
      ((vs.filter fun v => v.parent = p).map fun v => v.index) := by
    refine (perm_ext_iff_of_nodup (hnd.sublist (filter_sublist.map _))
      (hvs.sublist (filter_sublist.map _))).mpr fun i => ?_
    have htake : ∀ j, (parentIndex h.mapping j).toOption = some p ↔
        parentIndex h.mapping j = .ok p := by
      intro j
      cases parentIndex h.mapping j <;> simp [Except.toOption]
    simp only [mem_map, mem_filter, Prod.exists, exists_and_right, exists_eq_right,
      decide_eq_true_eq, htake]
    rw [I.parent_iff hbs]
    exact exists_congr fun v => by rw [and_assoc, and_comm (a := v.index = i)]
  simpa [countP_eq_length_filter, children] using hperm.length_eq

end

section Extents
variable {es : List Nat} {value : List UInt8} {e x g : Nat}

theorem Chain.reaches (V : View m h R F) (hc : Chain R es value) (he : e ∈ es) :
    Reaches h.mapping (es.headD 0) e := by
  induction es generalizing value with
  | nil => cases he
  | cons d es ih =>
    obtain ⟨k, bytes, hd, -, -, hrest⟩ := hc
    rcases mem_cons.mp he with rfl | he
    · exact .refl
    · exact .head ((V.holds hd).nextExtent) (ih hrest he)

theorem Chain.next (hc : Chain R es value) (he : e ∈ es) :
    ∃ k next bytes, R e = some (k, .extent next bytes) ∧ (next ∈ es ∨ next = 0) := by
  induction es generalizing value with
  | nil => cases he
  | cons d es ih =>
    obtain ⟨k, bytes, hd, -, -, hrest⟩ := hc
    rcases mem_cons.mp he with rfl | he
    · refine ⟨k, _, bytes, hd, ?_⟩
      cases es with
      | nil => exact .inr rfl
      | cons c es => exact .inl (by simp)
    · obtain ⟨k, next, bytes, hR, hnext⟩ := ih hrest he
      exact ⟨k, next, bytes, hR, hnext.imp_left (mem_cons_of_mem _)⟩

theorem Chain.mem_of_reaches (V : View m h R F) (h0 : R 0 = some (0, .header g))
    (hc : Chain R es value) (hr : Reaches h.mapping (es.headD 0) e) : e ∈ es ∨ e = 0 := by
  induction hr with
  | refl =>
    cases es with
    | nil => exact .inr rfl
    | cons d es => exact .inl (by simp)
  | tail _ hnext ih =>
    rcases ih with hin | rfl
    · obtain ⟨k, next, bytes, hR, hn⟩ := hc.next hin
      rw [(V.holds hR).nextExtent] at hnext
      cases hnext
      exact hn
    · obtain ⟨_, ht, -⟩ := ok_of_bind hnext
      simp only [checkType, (V.holds h0).blockType, ok_bind] at ht
      cases ht

theorem StateInv.property (I : StateInv m h R F ts vs) (hbs : h.blocks = some bs) (hi : (i, k) ∈ bs)
    (hx : Block.propertyExtentIndex h.mapping i = .ok x) :
    ∃ v ∈ vs, v.index = i ∧ ∃ f value, v.content = .property f value ∧ x = v.extents.headD 0 := by
  obtain ⟨_, ht, -⟩ := ok_of_bind hx
  rcases I.view.met hbs hi with ⟨-, hfree⟩ | ⟨b, hb⟩
  · simp only [checkType, hfree, ok_bind] at ht
    cases ht
  · simp only [checkType, (I.view.holds hb).blockType, ok_bind] at ht
    split at ht
    · rename_i htype
      cases b with
      | property f n p l e =>
        obtain ⟨v, hv, rfl, value, hc⟩ := I.owns.property hb
        refine ⟨v, hv, rfl, f, value, hc, ?_⟩
        have hs := I.owns.stored v hv
        simp only [Value.Stored, hc] at hs
        obtain ⟨-, l, hR⟩ := hs
        exact Except.ok.inj (hx.symm.trans (I.view.holds hR).propertyExtentIndex)
      | number t => cases t <;> cases htype
      | _ => cases htype
    · cases ht

theorem StateInv.extent_iff (I : StateInv m h R F ts vs) (hbs : h.blocks = some bs) (he : e ≠ 0) :
    ((∃ k, (i, k) ∈ bs) ∧ ∃ x, Block.propertyExtentIndex h.mapping i = .ok x ∧
      Reaches h.mapping x e) ↔
      ∃ v ∈ vs, v.index = i ∧ e ∈ v.extents := by
  constructor
  · rintro ⟨⟨k, hi⟩, x, hx, hr⟩
    obtain ⟨v, hv, rfl, f, value, hc, rfl⟩ := I.property hbs hi hx
    have hs := I.owns.stored v hv
    simp only [Value.Stored, hc] at hs
    obtain ⟨g, -, h0⟩ := I.owns.header
    exact ⟨v, hv, rfl, (hs.1.mem_of_reaches I.view h0 hr).resolve_right he⟩
  · rintro ⟨v, hv, rfl, hin⟩
    refine ⟨I.index_mem hbs hv, v.extents.headD 0, ?_⟩
    have hs := I.owns.stored v hv
    by_cases hc : ∃ f value, v.content = .property f value
    · obtain ⟨f, value, hc⟩ := hc
      simp only [Value.Stored, hc] at hs
      obtain ⟨hchain, k, hR⟩ := hs
      exact ⟨(I.view.holds hR).propertyExtentIndex, hchain.reaches I.view hin⟩
    · simp only [not_exists] at hc
      rw [hs.extents_nil hc] at hin
      cases hin

end Extents

end Blocks

/-- Runs from `State::create` in which every call succeeds. -/
def successful (m : Mapping) : Rules := ⟨Opened m, fun _ _ _ => True, fun _ _ => False⟩

section Theorem
variable {m : Mapping} {h : Heap} {R : Roles} {F : Lists} {ts : List Nat} {vs : List Value}
variable {bs : List (Nat × Nat)} {i k : Nat} {b : Role}

theorem View.role_of_type (V : View m h R F) (hbs : h.blocks = some bs) (hi : (i, k) ∈ bs)
    {t : BlockType} (ht : blockType h.mapping i = .ok t) (hne : t ≠ .free) :
    ∃ b, R i = some (k, b) ∧ b.type = t := by
  rcases V.met hbs hi with ⟨-, hfree⟩ | ⟨b, hb⟩
  · exact absurd (Except.ok.inj (ht.symm.trans hfree)) hne
  · exact ⟨b, hb, Except.ok.inj ((V.holds hb).blockType.symm.trans ht)⟩

section
variable (I : StateInv m h R F ts vs) (hi : R i = some (k, b))
include I hi

theorem StateInv.name_owner (hb : b.type = .name) : ∃ v ∈ vs, v.nameIndex = i := by
  rcases I.owns.cases hi with
      ⟨-, g, rfl⟩ | ⟨-, c, rfl⟩ | ⟨v, hv, ⟨-, hrefs⟩ | ⟨hn, -⟩ | ⟨-, e, bytes, rfl⟩⟩
  · cases hb
  · cases hb
  · cases b with
    | name => cases hrefs
    | number t => cases t <;> cases hb
    | _ => cases hb
  · exact ⟨v, hv, hn.symm⟩
  · cases hb

theorem StateInv.extent_owner (hb : b.type = .extent) : ∃ v ∈ vs, i ∈ v.extents := by
  rcases I.owns.cases hi with ⟨-, g, rfl⟩ | ⟨-, c, rfl⟩ | ⟨v, hv, ⟨-, hrefs⟩ | ⟨-, rfl⟩ | ⟨hin, -⟩⟩
  · cases hb
  · cases hb
  · cases b with
    | extent => cases hrefs
    | number t => cases t <;> cases hb
    | _ => cases hb
  · cases hb
  · exact ⟨v, hv, hin⟩

end

theorem count_of_type (hb : b.type.isNodeOrTombstone = true) : ∃ c, b.count = some c := by
  cases b with
  | node n p c | tombstone c => exact ⟨c, rfl⟩
  | number t => cases t <;> cases hb
  | _ => cases hb

theorem Owns.header_only (O : Owns R ts []) (hi : R i = some (k, b)) :
    i = 0 ∧ b.type = .header := by
  rcases O.cases hi with ⟨hi0, g, rfl⟩ | ⟨-, c, rfl⟩ | ⟨v, hv, -⟩
  · exact ⟨hi0, rfl⟩
  · cases O.count hi rfl
  · cases hv

/-- After any run of successful calls, counts of children are exact, tombstones have children, each
name and each extent has one owner, and freed values leave nothing behind. -/
theorem references_exact {m : Mapping} (hm : Addressable m) {a : State.Arith} {h : Heap}
    {items : List Item} (hr : Run a (successful m) h items) :
    ∃ bs, h.blocks = some bs ∧
      (∀ i k t, (i, k) ∈ bs → Block.blockType h.mapping i = .ok t → t.isNodeOrTombstone = true →
        Block.childCount h.mapping i =
          .ok (bs.countP fun b => (Block.parentIndex h.mapping b.1).toOption = some i)) ∧
      (∀ i k, (i, k) ∈ bs → Block.blockType h.mapping i = .ok .tombstone →
        ∃ c, Block.childCount h.mapping i = .ok (c + 1)) ∧
      (∀ n k, (n, k) ∈ bs → Block.blockType h.mapping n = .ok .name →
        ∃! i, (∃ k, (i, k) ∈ bs) ∧ Block.nameIndex h.mapping i = .ok n) ∧
      (∀ e k, (e, k) ∈ bs → Block.blockType h.mapping e = .ok .extent →
        ∃! i, (∃ k, (i, k) ∈ bs) ∧
          ∃ x, Block.propertyExtentIndex h.mapping i = .ok x ∧ Reaches h.mapping x e) ∧
      (items = [] → ∀ i k, (i, k) ∈ bs → ¬ h.IsFree i →
        i = 0 ∧ Block.blockType h.mapping i = .ok .header) := by
  obtain ⟨R, F, ts, vs, I, hp⟩ : Holds m h items :=
    Run.holds hm (fun ho => Opened.holds hm ho) (fun _ _ hf _ => False.elim hf) hr
  obtain ⟨bs, hbs, hmem⟩ := I.view.inv.blocks
  refine ⟨bs, hbs, ?_, ?_, ?_, ?_, ?_⟩
  · intro i k t hi ht hnode
    obtain ⟨b, hb, rfl⟩ := I.view.role_of_type hbs hi ht (by rintro rfl; cases hnode)
    obtain ⟨c, hc⟩ := count_of_type hnode
    rw [I.view.childCount hb hc, I.countP_eq hbs, I.owns.count hb hc]
  · intro i k hi ht
    obtain ⟨b, hb, htype⟩ := I.view.role_of_type hbs hi ht (by decide)
    rcases I.owns.cases hb with
        ⟨-, g, rfl⟩ | ⟨-, c, rfl⟩ | ⟨v, -, ⟨-, hrefs⟩ | ⟨-, rfl⟩ | ⟨-, e, x, rfl⟩⟩
    · cases htype
    · exact ⟨c, I.view.childCount hb rfl⟩
    · cases b with
      | tombstone => cases hrefs
      | number t => cases t <;> cases htype
      | _ => cases htype
    · cases htype
    · cases htype
  · intro n k hn ht
    obtain ⟨b, hb, htype⟩ := I.view.role_of_type hbs hn ht (by decide)
    obtain ⟨v, hv, rfl⟩ := I.name_owner hb htype
    refine ⟨v.index, (I.name_iff hbs).mpr ⟨v, hv, rfl, rfl⟩, ?_⟩
    intro i hi
    obtain ⟨u, hu, rfl, hname⟩ := (I.name_iff hbs).mp hi
    rw [I.owns.own_unique hu hv (j := v.nameIndex) (by simp [Value.own, hname]) (by simp [Value.own])]
  · intro e k he ht
    obtain ⟨b, hb, htype⟩ := I.view.role_of_type hbs he ht (by decide)
    obtain ⟨v, hv, hin⟩ := I.extent_owner hb htype
    have he0 : e ≠ 0 := I.owns.own_ne_zero hv (by simp [Value.own, hin])
    refine ⟨v.index, (I.extent_iff hbs he0).mpr ⟨v, hv, rfl, hin⟩, ?_⟩
    intro i hi
    obtain ⟨u, hu, rfl, hext⟩ := (I.extent_iff hbs he0).mp hi
    rw [I.owns.own_unique hu hv (j := e) (by simp [Value.own, hext]) (by simp [Value.own, hin])]
  · rintro rfl i k hi hfree
    obtain rfl : vs = [] := map_eq_nil_iff.mp (perm_nil.mp hp)
    rcases I.view.met hbs hi with ⟨hf, -⟩ | ⟨b, hb⟩
    · exact absurd hf hfree
    · obtain ⟨hi0, htype⟩ := I.owns.header_only hb
      exact ⟨hi0, htype ▸ (I.view.holds hb).blockType⟩

/-- A node with a number below it, a property with an extent, and the node freed first. -/
def orphanCalls : List Call :=
  [.createNode [110] 0, .createMetric .int [105] 5 1, .createProperty [112] [1, 2, 3] .bytes 0, .freeValue 1]

theorem references_exact_orphan :
    ∃ a h items bs, Run a (successful onePage) h items ∧ items.length = 2 ∧
    h.blocks = some bs ∧ ∀ i k, (i, k) ∈ bs → Block.blockType h.mapping i = .ok .tombstone →
      ∃ c, Block.childCount h.mapping i = .ok (c + 1) := by
  have hrun : (onPage orphanCalls).any (fun s => s.2.length == 2) = true := by decide +kernel
  obtain ⟨s, hs, hlen⟩ := (Option.any_eq_true _ _).mp hrun
  have hr : Run keepLeft (successful onePage) s.1 s.2 := onPage_run hs
  obtain ⟨bs, hbs, -, htomb, -⟩ := references_exact ⟨by decide, by decide, by decide⟩ hr
  exact ⟨_, s.1, s.2, bs, hr, beq_iff_eq.mp hlen, hbs, htomb⟩

end Theorem

end Garnet.Inspect
