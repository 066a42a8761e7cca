import Garnet.Inspect.SlotBounds

/-! A property reads back as the value it was given last, whatever is done to other values; so do
metrics. -/

namespace Garnet.Inspect
open List

def Call.Gives (value : List UInt8) : Call → Prop
  | createProperty _ v _ _ => v = value
  | setProperty _ v => v = value
  | _ => False

/-- The call does not set or free the value `r`. -/
def Call.Keeps (r : Nat) : Call → Prop
  | setProperty i _ | freeValue i | freeProperty i => i ≠ r
  | _ => True

instance (r : Nat) : (c : Call) → Decidable (c.Keeps r)
  | .setProperty i _ | .freeValue i | .freeProperty i => @instDecidableNot _ (Nat.decEq i r)
  | .createNode .. | .createMetric .. | .createArray .. | .createProperty .. | .setMetric ..
  | .addMetric .. | .subtractMetric .. | .setArraySlot .. | .addArraySlot ..
  | .subtractArraySlot .. => .isTrue trivial

/-- Runs from one state, with calls that keep the value `r`. -/
def keeping (r : Nat) (h0 : Heap) (items0 : List Item) : Rules :=
  ⟨fun h items => h = h0 ∧ items = items0, fun _ _ c => c.Keeps r, fun h c => c.Spared h⟩

/-- The extents that are linked from an index on, in this order; the last one links to 0. -/
def ExtentChain (s : Snapshot) : Nat → List Nat → Prop
  | i, [] => i = 0
  | i, e :: es =>
    i = e ∧ i ≠ 0 ∧ ∃ next, Block.nextExtent s.buffer i = .ok next ∧ ExtentChain s next es

def PropertyFormat.property (name value : List UInt8) : PropertyFormat → Property
  | .string => .string name value
  | .bytes => .bytes name value

/-- A snapshot of the VMO has a chain of extents for the property at the index, without a cycle, and
the parser gets the value from it. -/
structure ReadsBack (h : Heap) (x : Item) (f : PropertyFormat) (value : List UInt8) : Prop where
  snapshot : Snapshot.tryFrom h.image = .ok ⟨h.image⟩
  chain : ∃ head es, Block.propertyExtentIndex h.image x.index = .ok head ∧
    ExtentChain ⟨h.image⟩ head es ∧ es.Nodup
  parse : ∀ nodes, Reader.parseProperty ⟨h.image⟩ nodes x.index =
    .ok (nodes.update x.parent (.pushProperty (f.property x.name value)))

section Items
variable {a : State.Arith} {items : List Item} {r i : Nat} {value : List UInt8} {c : Call}

/-- One of the live values is the property `r` with this value. -/
def HasProperty (r : Nat) (value : List UInt8) (items : List Item) : Prop :=
  ∃ x ∈ items, x.index = r ∧ ∃ f, x.content = .property f value

theorem HasProperty.edited {f : Content → Content} (hp : HasProperty r value items)
    (hf : i = r → ∀ g, ∃ g', f (.property g value) = .property g' value) :
    HasProperty r value (items.map (edit i f)) := by
  obtain ⟨x, hx, hr, g, hc⟩ := hp
  refine ⟨edit i f x, mem_map_of_mem hx, ?_⟩
  by_cases hi : x.index = i
  · obtain ⟨g', hg⟩ := hf (hi.symm.trans hr) g
    rw [edit, if_pos hi]
    exact ⟨hr, g', by rw [hc]; exact hg⟩
  · rw [edit, if_neg hi]
    exact ⟨hr, g, hc⟩

theorem HasProperty.effect (hp : HasProperty r value items) (hc : c.Keeps r) (x : Nat) (h : Heap) :
    HasProperty r value (c.effect a x h items) := by
  have hcons : ∀ z : Item, HasProperty r value (z :: items) := by
    intro z
    obtain ⟨x, hx, hrest⟩ := hp
    exact ⟨x, mem_cons_of_mem z hx, hrest⟩
  have hfilter : ∀ i, i ≠ r → HasProperty r value (items.filter (·.index ≠ i)) := by
    intro i hi
    obtain ⟨x, hx, hr, hrest⟩ := hp
    exact ⟨x, mem_filter.mpr ⟨hx, decide_eq_true (fun he => hi (he.symm.trans hr))⟩, hr, hrest⟩
  cases c with
  | createNode | createMetric | createArray | createProperty => exact hcons _
  | setProperty => exact hp.edited fun hi => absurd hi hc
  | freeValue | freeProperty => exact hfilter _ hc
  | _ => exact hp.edited fun _ g => ⟨g, rfl⟩

end Items

section Reading
variable {m : Mapping} {h : Heap} {R : Roles} {F : Lists} {ts : List Nat} {v : Value}
  {vs : List Value}

theorem extentChain_of_chain (V : View m h R F) {g : Nat} (h0 : R 0 = some (0, .header g))
    {es : List Nat} {value : List UInt8} (hc : Chain R es value) :
    ExtentChain ⟨h.image⟩ (es.headD 0) es := by
  induction es generalizing value with
  | nil => rfl
  | cons e es ih =>
    have he0 := hc.ne_zero h0 mem_cons_self
    obtain ⟨k, bytes, he, -, -, hrest⟩ := hc
    exact ⟨rfl, he0, es.headD 0, (V.lies he).nextExtent, ih hrest⟩

theorem StateInv.readsBack {f : PropertyFormat} {value : List UInt8}
    (I : StateInv m h R F ts (v :: vs)) (hc : v.content = .property f value)
    (htext : f = .bytes ∨ Utf8.valid value = true) (hname : Utf8.valid v.name = true) :
    ReadsBack h v.toItem f value := by
  have hs := I.owns.stored v mem_cons_self
  simp only [Value.Stored, hc] at hs
  obtain ⟨hchain, k, hi⟩ := hs
  obtain ⟨g, -, h0⟩ := I.owns.header
  obtain ⟨l, hn⟩ := I.owns.named v mem_cons_self
  refine ⟨I.snapshot, ⟨_, v.extents, (I.view.lies hi).propertyExtentIndex,
    extentChain_of_chain I.view h0 hchain, I.owns.apart.nodup⟩, fun nodes => ?_⟩
  have hget : Reader.getName ⟨h.image⟩ v.nameIndex = .ok v.name :=
    (Reader.getName_of_lies (s := ⟨h.image⟩) (I.view.lies hn)).trans (if_pos hname)
  simp only [Reader.parseProperty, (I.view.lies hi).nameIndex rfl, hget,
    (I.view.lies hi).parentIndex rfl,
    Reader.extentsProperty_of_chain (s := ⟨h.image⟩) I.view.lies h0 hchain hi, ok_bind, except_pure]
  cases f with
  | string =>
    have hvalid := htext.resolve_left (by simp)
    rw [Utf8.lossy_of_valid hvalid]
    rfl
  | bytes => rfl

end Reading

section Theorem
variable {m : Mapping} {a : State.Arith} {h h' h2 : Heap} {items items2 : List Item} {r : Nat}
variable {value : List UInt8} {c : Call}

theorem Holds.gives (H : Holds m h items) (hl : c.Legal h items) (hv : c.Gives value)
    (hx : c.exec a h = .ok r h') : HasProperty r value (c.effect a r h' items) := by
  cases c with
  | createProperty name v f p =>
    obtain rfl : v = value := hv
    exact ⟨_, mem_cons_self, rfl, f, rfl⟩
  | setProperty i v =>
    obtain rfl : v = value := hv
    obtain ⟨hrun, rfl⟩ := pure_ok hx
    obtain ⟨R, F, ts, vs, I, hp⟩ := H
    -- an index that is not the one of a property is refused
    have hR : ∃ k f n q y e, R r = some (k, .property f n q y e) := by
      by_contra hno
      obtain ⟨msg, h1, herr, -⟩ := State.setProperty_err I (I.known hl)
        (fun k f n q y e hR => hno ⟨k, f, n, q, y, e, hR⟩) v
      rw [hrun] at herr
      cases herr
    obtain ⟨k, f, n, q, y, e, hR⟩ := hR
    obtain ⟨u, hu, rfl, old, hc⟩ := I.owns.property hR
    refine ⟨edit u.index (Call.onValue v) u.toItem, mem_map_of_mem (hp.subset
      (mem_map_of_mem hu)), ?_⟩
    rw [edit, if_pos rfl]
    exact ⟨rfl, f, by rw [hc]; rfl⟩
  | _ => exact hv.elim

theorem Run.keeps_property {h0 : Heap} {items0 : List Item} (hm : Addressable m)
    (H0 : Holds m h0 items0) (hp0 : HasProperty r value items0)
    (hr : Run a (keeping r h0 items0) h items) : Holds m h items ∧ HasProperty r value items := by
  induction hr with
  | start hs =>
    obtain ⟨rfl, rfl⟩ := hs
    exact ⟨H0, hp0⟩
  | call _ hl hk hx ih => exact ⟨ih.1.call hm hl hx, ih.2.effect hk _ _⟩
  | fail _ hl _ hs hx ih => exact ⟨(ih.1.spared hm hl hs hx).1, ih.2⟩

/-- A property reads back as the value that a successful call gave it, after any calls that keep
it. -/
theorem property_reads_back (hm : Addressable m) (hr : Run a (sparing m) h items)
    (hl : c.Legal h items) (hv : c.Gives value) (hx : c.exec a h = .ok r h')
    (hr2 : Run a (keeping r h' (c.effect a r h' items)) h2 items2) :
    ∃ x ∈ items2, x.index = r ∧ ∃ f, x.content = .property f value ∧
      (f = .bytes ∨ Utf8.valid value = true → Utf8.valid x.name = true →
        ReadsBack h2 x f value) := by
  have H := hr.holds_sparing hm
  obtain ⟨⟨R, F, ts, vs, I, hp⟩, x, hx2, hxr, f, hc⟩ :=
    hr2.keeps_property hm (H.call hm hl hx) (H.gives hl hv hx)
  refine ⟨x, hx2, hxr, f, hc, fun htext hname => ?_⟩
  obtain ⟨v, ws, rfl, I', -, -⟩ := I.pick hp hx2
  exact I'.readsBack hc htext hname

def arrayThenProperty : List Call :=
  [.createNode [110] 0, .createArray .int [97] 2 .default 0, .createProperty [112] [1, 2, 3] .bytes 0]

/-- A property whose value takes two extents. -/
def longProperty : Call := .createProperty [112] (List.replicate 2045 7) .bytes 0

/-- It is created behind another property, which is set afterwards. -/
theorem longProperty_run : (onPage [.createProperty [113] [5] .bytes 0]).any (fun s =>
    returned (fun r h' => decide (longProperty.Legal s.1 s.2) &&
      ([.setProperty 1 [6]].foldlM (Call.perform keepLeft fun _ _ c => c.Keeps r)
        (h', longProperty.effect keepLeft r h' s.2)).any fun t => t.2.all fun x => Utf8.valid x.name)
      (longProperty.exec keepLeft s.1)) = true := by
  decide +kernel

theorem property_reads_back_long :
    ∃ h items r h' h2 items2 x f, Run keepLeft (sparing onePage) h items ∧
    longProperty.exec keepLeft h = .ok r h' ∧
    Run keepLeft (keeping r h' (longProperty.effect keepLeft r h' items)) h2 items2 ∧
    ReadsBack h2 x f (List.replicate 2045 7) := by
  obtain ⟨s, hs, htest⟩ := (Option.any_eq_true _ _).mp longProperty_run
  have hr : Run keepLeft (sparing onePage) s.1 s.2 := onPage_run hs
  obtain ⟨r, h', hx, htest⟩ := ok_of_returned htest
  rw [Bool.and_eq_true, decide_eq_true_eq] at htest
  obtain ⟨hl, hlater⟩ := htest
  obtain ⟨t, ht, hnames⟩ := (Option.any_eq_true _ _).mp hlater
  have hr2 : Run keepLeft (keeping r h' (longProperty.effect keepLeft r h' s.2)) t.1 t.2 :=
    Run.performs (fun {_ _ c} hk => @of_decide_eq_true (c.Keeps r) _ hk) (.start ⟨rfl, rfl⟩) ht
  obtain ⟨x, hin, -, f, -, hread⟩ := property_reads_back ⟨by decide, by decide, by decide⟩ hr hl
    (show longProperty.Gives (List.replicate 2045 7) from rfl) hx hr2
  exact ⟨s.1, s.2, r, h', t.1, t.2, x, f, hr, hx, hr2,
    hread (.inr (by decide +kernel)) (all_eq_true.mp hnames x hin)⟩

/-- A write to the slot behind the last one of the array takes the property away from the reader. -/
theorem boundary_slot_hides_property : ∃ h items h', Run keepLeft (sparing onePage) h items ∧
    (∃ x ∈ items, x.index = 6 ∧ x.name = ([112] : List UInt8) ∧
      x.content = .property .bytes [1, 2, 3]) ∧
    (∃ x ∈ items, x.index = 4 ∧ x.content = .array .int .default [0, 0]) ∧
    (Call.setArraySlot .int 4 2 0).exec keepLeft h = .ok 4 h' ∧
    ∀ nodes, ∃ e, Reader.parseProperty ⟨h'.image⟩ nodes 6 = .error e := by
  have hrun : (onPage arrayThenProperty).any (fun s =>
      decide (∃ x ∈ s.2, x.index = 6 ∧ x.name = ([112] : List UInt8) ∧
        x.content = .property .bytes [1, 2, 3]) &&
      decide (∃ x ∈ s.2, x.index = 4 ∧ x.content = .array .int .default [0, 0]) &&
      returned (fun r h' => r == 4 && (Block.nameIndex h'.image 6).toOption.isNone)
        ((Call.setArraySlot .int 4 2 0).exec keepLeft s.1)) = true := by decide +kernel
  obtain ⟨s, hs, htest⟩ := (Option.any_eq_true _ _).mp hrun
  simp only [Bool.and_eq_true, decide_eq_true_eq] at htest
  obtain ⟨⟨hproperty, harray⟩, hset⟩ := htest
  obtain ⟨r, h', hx, hset⟩ := ok_of_returned hset
  rw [Bool.and_eq_true, beq_iff_eq] at hset
  obtain ⟨rfl, hnone⟩ := hset
  refine ⟨s.1, s.2, h', onPage_run hs, hproperty, harray, hx, fun nodes => ?_⟩
  cases hname : Block.nameIndex h'.image 6 with
  | ok n =>
    rw [hname] at hnone
    cases hnone
  | error e => exact ⟨e, by simp only [Reader.parseProperty, hname, error_bind]⟩

end Theorem

section Metrics
open State

/-- After any run, each live metric reads as what the calls made of it, and reading changes no
value. -/
theorem metrics_read_back {m : Mapping} (hm : Addressable m) {a : Arith} {h : Heap}
    {items : List Item} (hr : Run a (sparing m) h items) :
    ∀ x ∈ items, ∀ t y, x.content = .number t y →
      ∃ h', getMetric t.type x.index h = .ok y h' ∧ Holds m h' items := by
  intro x hx t y hc
  obtain ⟨R, F, ts, vs, I, hp⟩ := hr.holds_sparing hm
  obtain ⟨v, ws, rfl, I, hp, -⟩ := I.pick hp hx
  obtain ⟨-, k, hi⟩ := State.Value.number_role I hc
  obtain ⟨g, hg, h0⟩ := I.owns.header
  obtain ⟨h1, -, V1, hunlock⟩ := withHeaderLock_run I.view h0 hg
  obtain ⟨h2, V2, hok, -⟩ := hunlock V1 (Roles.withGeneration_zero _ _)
  rw [Roles.withGeneration_twice] at V2
  obtain ⟨g', F', -, I'⟩ := I.unchanged (tick_even (tick_odd hg)) V2
  refine ⟨h2, hok ?_, _, _, _, _, I', hp⟩
  rw [State.View.getBlock_bind V1 (hi _), Heap.block, reading,
    (V1.holds (hi _)).payloadField (t := t.type) rfl, numericValue_pay]
  exact congrArg (EStateM.Result.ok · h1) (V1.shows (hi _)).body.2

theorem metric_reads_five : ∃ h items x h', Run keepLeft (sparing onePage) h items ∧ x ∈ items ∧
    getMetric .intValue x.index h = .ok 5 h' := by
  have hrun : (onPage [.createMetric .int [105] 5 0]).any
      (fun s => s.2.any (·.content == .number .int 5)) = true := by
    decide +kernel
  obtain ⟨s, hs, htest⟩ := (Option.any_eq_true _ _).mp hrun
  obtain ⟨x, hx, hc⟩ := List.any_eq_true.mp htest
  obtain ⟨h', hget, -⟩ :=
    metrics_read_back ⟨by decide, by decide, by decide⟩ (onPage_run hs) x hx .int 5
      (beq_iff_eq.mp hc)
  exact ⟨s.1, s.2, x, h', onPage_run hs, hx, hget⟩

end Metrics

end Garnet.Inspect
