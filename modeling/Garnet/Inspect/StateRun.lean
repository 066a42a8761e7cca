import Garnet.Inspect.StateUpdate

/-! Runs of the Inspect state: calls of its functions by the holders of handles, and what the
holders know about their values. -/

namespace Garnet.Inspect
open List
open Value (own toItem)

/-- A call of one of the functions of `State`. -/
inductive Call where
  | createNode (name : List UInt8) (parent : Nat)
  | createMetric (type : Number) (name : List UInt8) (value parent : Nat)
  | createArray (entry : Number) (name : List UInt8) (slots : Nat) (format : ArrayFormat) (parent : Nat)
  | createProperty (name value : List UInt8) (format : PropertyFormat) (parent : Nat)
  | setProperty (index : Nat) (value : List UInt8)
  | setMetric (type : Number) (index value : Nat)
  | addMetric (type : Number) (index value : Nat)
  | subtractMetric (type : Number) (index value : Nat)
  | setArraySlot (entry : Number) (index slot value : Nat)
  | addArraySlot (entry : Number) (index slot value : Nat)
  | subtractArraySlot (entry : Number) (index slot value : Nat)
  | freeValue (index : Nat)
  | freeProperty (index : Nat)
  deriving Repr, DecidableEq

/-- The index is the one of a block, free or not, or it lies outside the mapping. -/
def Heap.Knows (h : Heap) (p : Nat) : Prop :=
  (∃ bs k, h.blocks = some bs ∧ (p, k) ∈ bs) ∨ h.mapping.len ≤ 16 * p

def edit (index : Nat) (f : Content → Content) (x : Item) : Item :=
  if x.index = index then { x with content := f x.content } else x

namespace Call
open State

def exec (a : Arith) : Call → HeapM Nat
  | createNode name parent => State.createNode name parent
  | createMetric t name value parent => State.createMetric t.type name value parent
  | createArray t name slots format parent => State.createArray t.type name slots format parent
  | createProperty name value format parent => State.createProperty name value format parent
  | setProperty i value => do
    State.setProperty i value
    pure i
  | setMetric t i value => do
    State.setMetric t.type i value
    pure i
  | addMetric t i value => do
    updateMetric a.add t.type i value
    pure i
  | subtractMetric t i value => do
    updateMetric a.sub t.type i value
    pure i
  | setArraySlot t i slot value => do
    State.setArraySlot t.type i slot value
    pure i
  | addArraySlot t i slot value => do
    updateArraySlot a.add t.type i slot value
    pure i
  | subtractArraySlot t i slot value => do
    updateArraySlot a.sub t.type i slot value
    pure i
  | freeValue i => do
    State.freeValue i
    pure i
  | freeProperty i => do
    State.freeProperty i
    pure i

/-- A handle is used by the calls for its kind of value only. A parent can be any index that the
code can tell to be a wrong one. -/
def Legal (h : Heap) (items : List Item) : Call → Prop
  | createNode _ p => h.Knows p
  | createMetric _ _ _ p => h.Knows p
  | createArray _ _ slots _ p => h.Knows p ∧ slots < 2 ^ 8
  | createProperty _ _ _ p => h.Knows p
  | setProperty i _ => h.Knows i
  | setMetric t i _ | addMetric t i _ | subtractMetric t i _ =>
    ∃ x ∈ items, x.index = i ∧ ∃ y, x.content = .number t y
  | setArraySlot t i slot _ | addArraySlot t i slot _ | subtractArraySlot t i slot _ =>
    ∃ x ∈ items, x.index = i ∧ (∃ f xs, x.content = .array t f xs) ∧
      ∃ k, Block.order h.mapping i = .ok k ∧ slot < arrayCapacity k
  | freeValue i => ∃ x ∈ items, x.index = i ∧ ∀ f value, x.content ≠ .property f value
  | freeProperty i => ∃ x ∈ items, x.index = i ∧ ∃ f value, x.content = .property f value

/-- The result of an operation on a number; the old value when there is none. -/
def outcome (op : BlockType → Nat → Nat → Except Fault Nat) (t : Number) (old value : Nat) : Nat :=
  match op t.type old value with
  | .ok z => z % 2 ^ 64
  | .error _ => old

def onNumber (f : Number → Nat → Nat) : Content → Content
  | .number t x => .number t (f t x)
  | content => content

def onSlot (slot : Nat) (f : Number → Nat → Nat) : Content → Content
  | .array t format xs => .array t format (xs.set slot (f t (xs.getD slot 0)))
  | content => content

def onValue (value : List UInt8) : Content → Content
  | .property f _ => .property f value
  | content => content

/-- The live values after the call, newest first, when it returned the handle `r` and left the
heap `h`. A name is kept up to 2040 bytes; a new array has what its memory held. -/
def effect (a : Arith) (r : Nat) (h : Heap) (items : List Item) : Call → List Item
  | createNode name p => ⟨r, p, name.take 2040, .node⟩ :: items
  | createMetric t name value p => ⟨r, p, name.take 2040, .number t (value % 2 ^ 64)⟩ :: items
  | createArray t name slots f p =>
    ⟨r, p, name.take 2040, .array t f (slotsAt h.mapping.byte r slots)⟩ :: items
  | createProperty name value f p => ⟨r, p, name.take 2040, .property f value⟩ :: items
  | setProperty i value => items.map (edit i (onValue value))
  | setMetric _ i value => items.map (edit i (onNumber fun _ _ => value % 2 ^ 64))
  | addMetric _ i value => items.map (edit i (onNumber fun t x => outcome a.add t x value))
  | subtractMetric _ i value => items.map (edit i (onNumber fun t x => outcome a.sub t x value))
  | setArraySlot _ i slot value => items.map (edit i (onSlot slot fun _ _ => value % 2 ^ 64))
  | addArraySlot _ i slot value => items.map (edit i (onSlot slot fun t x => outcome a.add t x value))
  | subtractArraySlot _ i slot value =>
    items.map (edit i (onSlot slot fun t x => outcome a.sub t x value))
  | freeValue i | freeProperty i => items.filter (·.index ≠ i)

end Call

/-- What a run may start from, which calls it may make, and which of them may fail. -/
structure Rules where
  start : Heap → List Item → Prop
  allows : Heap → List Item → Call → Prop
  fails : Heap → Call → Prop

inductive Run (a : State.Arith) (rules : Rules) : Heap → List Item → Prop
  | start {h items} : rules.start h items → Run a rules h items
  | call {h items c r h'} : Run a rules h items → c.Legal h items → rules.allows h items c →
      c.exec a h = .ok r h' → Run a rules h' (c.effect a r h' items)
  | fail {h items c msg h'} : Run a rules h items → c.Legal h items → rules.allows h items c →
      rules.fails h c → c.exec a h = .error (.error msg) h' → Run a rules h' items

/-- The heap holds the values that the callers know of, and nothing else. -/
def Holds (m : Mapping) (h : Heap) (items : List Item) : Prop :=
  ∃ R F ts vs, StateInv m h R F ts vs ∧ (vs.map Value.toItem).Perm items

section Steps
variable {m : Mapping} {h h' : Heap} {R : Roles} {F : Lists} {ts : List Nat} {v w : Value}
variable {vs : List Value} {items : List Item} {i k p r : Nat} {f : Content → Content}
  {x : HeapM Unit}

section
variable (I : StateInv m h R F ts vs)
include I

theorem StateInv.known (hp : h.Knows p) : Known m R F p := by
  rcases hp with ⟨bs, k, hbs, hin⟩ | hp
  · obtain ⟨bs', hbs', hmem⟩ := I.view.inv.blocks
    obtain rfl : bs = bs' := Option.some.inj (hbs.symm.trans hbs')
    rcases (hmem p k).mp hin with hs | hs
    · refine .inl fun hR => ?_
      rw [Roles.orders_eq_none.mpr hR] at hs
      cases hs
    · exact .inr (.inl ⟨k, hs⟩)
  · exact .inr (.inr (I.view.len ▸ hp))

theorem StateInv.perm {ws : List Value} (hp : vs.Perm ws) :
    StateInv m h R F ts ws := ⟨I.view, I.owns.perm hp⟩

theorem StateInv.pick (hp : (vs.map toItem).Perm items) {x : Item} (hx : x ∈ items) :
    ∃ v ws, v.toItem = x ∧ StateInv m h R F ts (v :: ws) ∧
      ((v :: ws).map toItem).Perm items ∧ ∀ u ∈ ws, u.index ≠ v.index := by
  obtain ⟨v, hv, rfl⟩ := mem_map.mp (hp.mem_iff.mpr hx)
  obtain ⟨l₁, l₂, rfl⟩ := append_of_mem hv
  have hperm : (l₁ ++ v :: l₂).Perm (v :: (l₁ ++ l₂)) := perm_middle
  have I' := I.perm hperm
  refine ⟨v, l₁ ++ l₂, rfl, I', (hperm.symm.map _).trans hp, ?_⟩
  intro u hu he
  have hnd := owned_cons_perm.nodup_iff.mp I'.owns.nodup
  refine (nodup_append.mp hnd).2.2 v.index (by simp [own]) u.index ?_ he.symm
  exact mem_owned.mpr (.inr (.inr ⟨u, hu, by simp [own]⟩))

end

theorem edit_perm (hp : ((v :: vs).map toItem).Perm items) (hne : ∀ u ∈ vs, u.index ≠ v.index)
    (hw : w.toItem = {v.toItem with content := f v.content}) :
    ((w :: vs).map toItem).Perm (items.map (edit v.index f)) := by
  refine List.Perm.trans ?_ (hp.map (edit v.index f))
  have hvs : vs.map (edit v.index f ∘ toItem) = vs.map toItem :=
    map_congr_left fun u hu => if_neg (hne u hu)
  rw [map_cons, map_cons, map_cons, map_map, hvs, hw, edit, if_pos rfl]

theorem filter_perm (hp : ((v :: vs).map toItem).Perm items) (hne : ∀ u ∈ vs, u.index ≠ v.index) :
    (vs.map toItem).Perm (items.filter (·.index ≠ v.index)) := by
  refine List.Perm.trans ?_ (hp.filter _)
  rw [map_cons, filter_cons_of_neg (by simp), filter_eq_self.mpr]
  intro x hx
  obtain ⟨u, hu, rfl⟩ := mem_map.mp hx
  exact decide_eq_true (hne u hu)

theorem pure_ok (hx : (x >>= fun _ => pure i) h = .ok r h') : x h = .ok () h' ∧ r = i := by
  simp only [bind, EStateM.bind] at hx
  cases hrun : x h with
  | ok u h1 =>
    rw [hrun] at hx
    cases hx
    exact ⟨rfl, rfl⟩
  | error e h1 =>
    rw [hrun] at hx
    cases hx

theorem result_ok {α : Type} {x : HeapM α} {b c : α} {h1 : Heap} (hb : x h = .ok b h1)
    (hc : x h = .ok c h') : b = c ∧ h1 = h' := by
  rw [hb] at hc
  cases hc
  exact ⟨rfl, rfl⟩

theorem Holds.created (content : Heap → Nat → Content) (hp : (vs.map toItem).Perm items)
    {x : HeapM Nat} {P : Heap → Prop} {name : List UInt8}
    (hcases : Creates m ts vs h p name x (fun h v => v.content = content h v.index) P)
    (hx : x h = .ok r h') : Holds m h' (⟨r, p, name.take 2040, content h' r⟩ :: items) := by
  rcases hcases with ⟨v, h1, R1, F1, hrun, I1, rfl, hname, hc⟩ | ⟨msg, h1, hrun, -⟩
  · obtain ⟨rfl, rfl⟩ := result_ok hrun hx
    exact ⟨R1, F1, ts, v :: vs, I1, hname ▸ hc ▸ hp.cons _⟩
  · rw [hrun] at hx
    cases hx

theorem Holds.edited (hp : ((v :: vs).map toItem).Perm items) (hne : ∀ u ∈ vs, u.index ≠ v.index)
    {content : Content} (hf : f v.content = content)
    (hcall : ∃ h1 R1 F1, x h = .ok () h1 ∧ StateInv m h1 R1 F1 ts (State.withContent v content :: vs))
    (hx : (x >>= fun _ => pure v.index) h = .ok r h') :
    Holds m h' (items.map (edit v.index f)) := by
  obtain ⟨hx, -⟩ := pure_ok hx
  obtain ⟨h1, R1, F1, hrun, I1⟩ := hcall
  obtain ⟨-, rfl⟩ := result_ok hrun hx
  exact ⟨R1, F1, ts, _, I1, edit_perm hp hne (by rw [hf]; rfl)⟩

open State in
theorem Holds.updateMetric {t : Number} {x y : Nat} {op : BlockType → Nat → Nat → Except Fault Nat}
    (I : StateInv m h R F ts (v :: vs)) (hp : ((v :: vs).map toItem).Perm items)
    (hne : ∀ u ∈ vs, u.index ≠ v.index) (hc : v.content = .number t x)
    (hx : (State.updateMetric op t.type v.index y >>= fun _ => pure v.index) h = .ok r h') :
    Holds m h' (items.map (edit v.index (Call.onNumber fun t x => Call.outcome op t x y))) := by
  rcases updateMetric_cases I hc op y with ⟨z, h1, R1, F1, hop, hrun, I1⟩ | hno
  · exact Holds.edited hp hne (by simp [hc, Call.onNumber, Call.outcome, hop])
      ⟨h1, R1, F1, hrun, I1⟩ hx
  · exact absurd (pure_ok hx).1 (hno h')

open State in
theorem Holds.updateArraySlot {t : Number} {f : ArrayFormat} {xs : List Nat} {slot y : Nat}
    {op : BlockType → Nat → Nat → Except Fault Nat} (I : StateInv m h R F ts (v :: vs))
    (hp : ((v :: vs).map toItem).Perm items) (hne : ∀ u ∈ vs, u.index ≠ v.index)
    (hc : v.content = .array t f xs) (hk : Block.order h.mapping v.index = .ok k)
    (hslot : slot < arrayCapacity k)
    (hx : (State.updateArraySlot op t.type v.index slot y >>= fun _ => pure v.index) h = .ok r h') :
    Holds m h' (items.map (edit v.index (Call.onSlot slot fun t x => Call.outcome op t x y))) := by
  rcases updateArraySlot_cases I hc hk hslot op y with ⟨z, h1, R1, F1, hop, hrun, I1⟩ | ⟨-, hno⟩
  · refine Holds.edited hp hne ?_ ⟨h1, R1, F1, hrun, I1⟩ hx
    rw [hc, Call.onSlot]
    rcases lt_or_ge slot xs.length with hlt | hge
    · rw [Call.outcome, hop hlt]
    · rw [set_eq_of_length_le hge, set_eq_of_length_le hge]
  · exact absurd (pure_ok hx).1 (hno h')

theorem Value.Stored.extents_nil (hs : v.Stored R) (hc : ∀ f value, v.content ≠ .property f value) :
    v.extents = [] := by
  rw [Value.Stored] at hs
  split at hs <;> rename_i hcontent
  · exact hs.1
  · exact hs.1
  · exact hs.1
  · exact absurd hcontent (hc _ _)

open State in
theorem Holds.call {a : Arith} {c : Call} (hm : Addressable m) (H : Holds m h items)
    (hl : c.Legal h items) (hx : c.exec a h = .ok r h') : Holds m h' (c.effect a r h' items) := by
  obtain ⟨R, F, ts, vs, I, hp⟩ := H
  cases c with
  | createNode name p =>
    exact Holds.created (fun _ _ => .node) hp (createNode_cases I hm (I.known hl) name) hx
  | createMetric t name x p =>
    exact Holds.created (fun _ _ => .number t (x % 2 ^ 64)) hp
      (createMetric_cases I hm (I.known hl) t name x) hx
  | createArray t name s f p =>
    exact Holds.created (fun h i => .array t f (slotsAt h.mapping.byte i s)) hp
      (createArray_cases I hm (I.known hl.1) t name hl.2 f) hx
  | createProperty name value f p =>
    exact Holds.created (fun _ _ => .property f value) hp
      (createProperty_cases I hm (I.known hl) name value f) hx
  | setProperty i value =>
    have hi := I.known hl
    by_cases hR : ∀ k f a q x e, R i ≠ some (k, .property f a q x e)
    · obtain ⟨msg, h1, hrun, -⟩ := setProperty_err I hi hR value
      rw [(pure_ok hx).1] at hrun
      cases hrun
    · simp only [not_forall, not_not] at hR
      obtain ⟨k, f, n, q, x, e, hR⟩ := hR
      obtain ⟨v, hv, rfl, old, hc⟩ := I.owns.property hR
      obtain ⟨u, ws, hu, I', hp', hne⟩ := I.pick hp (hp.subset (mem_map_of_mem hv))
      have huc : u.content = .property f old := by rw [← hc, ← hu]
      have hui : u.index = v.index := by rw [← hu]
      rcases setProperty_cases I' hm huc value with ⟨w, h1, R1, F1, hrun, I1, hw⟩ | ⟨msg, h1, hrun, -⟩
      · rw [hui] at hrun
        obtain ⟨-, rfl⟩ := result_ok hrun (pure_ok hx).1
        exact ⟨R1, F1, ts, _, I1, hui ▸ edit_perm hp' hne (by rw [hw, huc]; rfl)⟩
      · rw [hui, (pure_ok hx).1] at hrun
        cases hrun
  | setMetric t i y =>
    obtain ⟨x, hx', rfl, z, hc⟩ := hl
    obtain ⟨v, ws, rfl, I', hp', hne⟩ := I.pick hp hx'
    exact Holds.edited hp' hne (by rw [hc]; rfl) (setMetric_ok I' hc y) hx
  | addMetric t i y | subtractMetric t i y =>
    obtain ⟨x, hx', rfl, z, hc⟩ := hl
    obtain ⟨v, ws, rfl, I', hp', hne⟩ := I.pick hp hx'
    exact Holds.updateMetric I' hp' hne hc hx
  | setArraySlot t i slot y =>
    obtain ⟨x, hx', rfl, ⟨f, xs, hc⟩, k, hk, hslot⟩ := hl
    obtain ⟨v, ws, rfl, I', hp', hne⟩ := I.pick hp hx'
    exact Holds.edited hp' hne (by rw [hc]; rfl) (setArraySlot_ok I' hc hk hslot y) hx
  | addArraySlot t i slot y | subtractArraySlot t i slot y =>
    obtain ⟨x, hx', rfl, ⟨f, xs, hc⟩, k, hk, hslot⟩ := hl
    obtain ⟨v, ws, rfl, I', hp', hne⟩ := I.pick hp hx'
    exact Holds.updateArraySlot I' hp' hne hc hk hslot hx
  | freeValue i =>
    obtain ⟨x, hx', rfl, hc⟩ := hl
    obtain ⟨v, ws, rfl, I', hp', hne⟩ := I.pick hp hx'
    obtain ⟨h1, R1, F1, ts1, hrun, I1⟩ :=
      freeValue_ok I' ((I'.owns.stored v mem_cons_self).extents_nil hc)
    obtain ⟨-, rfl⟩ := result_ok hrun (pure_ok hx).1
    exact ⟨R1, F1, ts1, ws, I1, filter_perm hp' hne⟩
  | freeProperty i =>
    obtain ⟨x, hx', rfl, f, value, hc⟩ := hl
    obtain ⟨v, ws, rfl, I', hp', hne⟩ := I.pick hp hx'
    obtain ⟨h1, R1, F1, ts1, hrun, I1⟩ := freeProperty_ok I' hc
    obtain ⟨-, rfl⟩ := result_ok hrun (pure_ok hx).1
    exact ⟨R1, F1, ts1, ws, I1, filter_perm hp' hne⟩

end Steps

section Runs
variable {m : Mapping} {h : Heap} {items : List Item} {a : State.Arith} {rules : Rules}

/-- `State::create` on a new heap. -/
def Opened (m : Mapping) (h : Heap) (items : List Item) : Prop :=
  (∃ h0, Heap.new m = .ok h0 ∧ State.create h0 = .ok () h) ∧ items = []

def onlyHeader : Roles := Function.update (fun _ => none) 0 (some (0, .header 0))

theorem onlyHeader_eq_some {i k : Nat} {b : Role} (hi : onlyHeader i = some (k, b)) :
    i = 0 ∧ k = 0 ∧ b = .header 0 := by
  by_cases hi0 : i = 0
  · rw [hi0, onlyHeader, Function.update_self] at hi
    cases hi
    exact ⟨hi0, rfl, rfl⟩
  · rw [onlyHeader, Function.update_of_ne hi0] at hi
    cases hi

theorem owns_header : Owns onlyHeader [] [] := by
  refine ⟨⟨0, rfl, Function.update_self ..⟩,
    by simp [owned], ?_, by simp, by simp, ?_, by simp, by simp, by simp⟩
  · intro i
    by_cases hi : i = 0
    · simp [hi, owned, onlyHeader]
    · simp [hi, owned, onlyHeader]
  · intro p k b c hp hc
    obtain ⟨-, -, rfl⟩ := onlyHeader_eq_some hp
    cases hc

theorem Opened.inv (hpos : 0 < m.len) (hpage : pageSizeBytes ∣ m.len) (ho : Opened m h items) :
    ∃ F, StateInv m h onlyHeader F [] [] := by
  obtain ⟨h0, h1, F, hnew, hcreate, I, hlen, hsize, hhdr, hpay, htail⟩ := create_ok hpos hpage
  obtain ⟨⟨h0', hnew', hcreate'⟩, -⟩ := ho
  obtain rfl : h0 = h0' := Except.ok.inj (hnew.symm.trans hnew')
  obtain ⟨-, rfl⟩ := result_ok hcreate hcreate'
  refine ⟨F, ⟨?_, ?_, hlen, ?_⟩, owns_header⟩
  · rw [onlyHeader, Roles.orders_update]
    exact I
  · intro i k b hi
    obtain ⟨rfl, rfl, rfl⟩ := onlyHeader_eq_some hi
    exact ⟨(congrArg BlockHeader.order hhdr).trans order_headerWord,
      (congrArg BlockHeader.blockType hhdr).trans blockType_headerWord, hhdr, hpay⟩
  · exact fun x hx => htail x (hsize ▸ hx)

theorem Opened.holds (hm : Addressable m) (ho : Opened m h items) : Holds m h items := by
  obtain ⟨F, I⟩ := ho.inv hm.pos hm.page
  exact ⟨_, F, [], [], I, by rw [ho.2]; exact .nil⟩

theorem Run.holds (hm : Addressable m) (hstart : ∀ {h items}, rules.start h items → Holds m h items)
    (hfail : ∀ {h items c msg h'}, Holds m h items → c.Legal h items → rules.fails h c →
      c.exec a h = .error (.error msg) h' → Holds m h' items)
    (hr : Run a rules h items) : Holds m h items := by
  induction hr with
  | start hs => exact hstart hs
  | call _ hl _ hx ih => exact ih.call hm hl hx
  | fail _ hl _ hf hx ih => exact hfail ih hl hf hx

end Runs

section Execution

instance (h : Heap) (p : Nat) : Decidable (h.Knows p) :=
  decidable_of_iff ((h.blocks.getD []).any (fun b => b.1 == p) = true ∨ h.mapping.len ≤ 16 * p) <| by
    refine or_congr ?_ Iff.rfl
    cases h.blocks <;> simp

instance (c : Content) (t : Number) : Decidable (∃ y, c = .number t y) :=
  match c with
  | .number s y =>
    if hs : s = t then .isTrue ⟨y, hs ▸ rfl⟩ else .isFalse fun ⟨_, h⟩ => by cases h; exact hs rfl
  | .node => .isFalse fun ⟨_, h⟩ => nomatch h
  | .array _ _ _ => .isFalse fun ⟨_, h⟩ => nomatch h
  | .property _ _ => .isFalse fun ⟨_, h⟩ => nomatch h

instance (c : Content) (t : Number) : Decidable (∃ f xs, c = .array t f xs) :=
  match c with
  | .array s f xs =>
    if hs : s = t then .isTrue ⟨f, xs, hs ▸ rfl⟩ else .isFalse fun ⟨_, _, h⟩ => by cases h; exact hs rfl
  | .node => .isFalse fun ⟨_, _, h⟩ => nomatch h
  | .number _ _ => .isFalse fun ⟨_, _, h⟩ => nomatch h
  | .property _ _ => .isFalse fun ⟨_, _, h⟩ => nomatch h

instance (c : Content) : Decidable (∃ f value, c = .property f value) :=
  match c with
  | .property f value => .isTrue ⟨f, value, rfl⟩
  | .node => .isFalse fun ⟨_, _, h⟩ => nomatch h
  | .number _ _ => .isFalse fun ⟨_, _, h⟩ => nomatch h
  | .array _ _ _ => .isFalse fun ⟨_, _, h⟩ => nomatch h

instance (c : Content) : Decidable (∀ f value, c ≠ .property f value) :=
  decidable_of_iff (¬ ∃ f value, c = .property f value) (by simp)

instance (h : Heap) (i slot : Nat) :
    Decidable (∃ k, Block.order h.mapping i = .ok k ∧ slot < arrayCapacity k) :=
  match hk : Block.order h.mapping i with
  | .ok k => decidable_of_iff (slot < arrayCapacity k) (by simp)
  | .error _ => .isFalse fun ⟨_, h, _⟩ => nomatch h

instance (h : Heap) (items : List Item) (c : Call) : Decidable (c.Legal h items) := by
  cases c <;> (unfold Call.Legal; infer_instance)

variable {m : Mapping} {a : State.Arith} {rules : Rules} {ok : Heap → List Item → Call → Bool}

def openOn (m : Mapping) : Option (Heap × List Item) :=
  match Heap.new m with
  | .ok h0 =>
    match State.create h0 with
    | .ok _ h => some (h, [])
    | .error _ _ => none
  | .error _ => none

/-- The next state of a run, when the call is a legal one, passes the test and succeeds. -/
def Call.perform (a : State.Arith) (ok : Heap → List Item → Call → Bool) (s : Heap × List Item)
    (c : Call) : Option (Heap × List Item) :=
  if c.Legal s.1 s.2 ∧ ok s.1 s.2 c = true then
    match c.exec a s.1 with
    | .ok r h => some (h, c.effect a r h s.2)
    | .error _ _ => none
  else none

theorem opened_of_openOn {s : Heap × List Item} (hs : openOn m = some s) : Opened m s.1 s.2 := by
  unfold openOn at hs
  split at hs
  next h0 hnew =>
    split at hs
    next h hcreate =>
      cases hs
      exact ⟨⟨h0, hnew, hcreate⟩, rfl⟩
    next => cases hs
  next => cases hs

theorem Run.perform (hok : ∀ {h items c}, ok h items c = true → rules.allows h items c)
    {s s' : Heap × List Item} {c : Call} (hr : Run a rules s.1 s.2)
    (hs : c.perform a ok s = some s') : Run a rules s'.1 s'.2 := by
  unfold Call.perform at hs
  split at hs
  next hc =>
    split at hs
    next r h hx =>
      cases hs
      exact .call hr hc.1 (hok hc.2) hx
    next => cases hs
  next => cases hs

theorem Run.performs (hok : ∀ {h items c}, ok h items c = true → rules.allows h items c)
    {cs : List Call} : ∀ {s s' : Heap × List Item}, Run a rules s.1 s.2 →
      cs.foldlM (Call.perform a ok) s = some s' → Run a rules s'.1 s'.2 := by
  induction cs with
  | nil =>
    intro s s' hr hs
    cases hs
    exact hr
  | cons c cs ih =>
    intro s s' hr hs
    obtain ⟨t, ht, hs⟩ := Option.bind_eq_some_iff.mp hs
    exact ih (hr.perform hok ht) hs

def keepLeft : State.Arith := ⟨fun _ x _ => .ok x, fun _ x _ => .ok x⟩

def onPage (cs : List Call) : Option (Heap × List Item) :=
  (openOn onePage).bind fun s => cs.foldlM (Call.perform keepLeft fun _ _ _ => true) s

theorem onPage_run {fails : Heap → Call → Prop} {cs : List Call} {s : Heap × List Item}
    (hs : onPage cs = some s) :
    Run keepLeft ⟨Opened onePage, fun _ _ _ => True, fails⟩ s.1 s.2 := by
  obtain ⟨s0, hopen, hcalls⟩ := Option.bind_eq_some_iff.mp hs
  exact Run.performs (fun _ => trivial) (.start (opened_of_openOn hopen)) hcalls

end Execution

end Garnet.Inspect
