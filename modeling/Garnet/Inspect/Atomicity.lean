import Garnet.Inspect.ReadBack

/-! Calls of the Inspect state that fail: what they leave as it was, and which of them leave all of
it. -/

namespace Garnet.Inspect
open List

/-- The heap has a block of this order at this index, and it is not free. -/
def Heap.Allocates (h : Heap) (i k : Nat) : Prop :=
  ∃ bs, h.blocks = some bs ∧ (i, k) ∈ bs ∧ ¬ h.IsFree i

/-- The allocated blocks, the counts of children and the live values are those from before, and the
header is not locked. -/
structure Preserved (items : List Item) (h h' : Heap) : Prop where
  blocks : ∀ i k, h'.Allocates i k ↔ h.Allocates i k
  counts : ∀ i k, h.Allocates i k → Block.childCount h'.mapping i = Block.childCount h.mapping i
  names : ∀ x ∈ items, Reader.nameOf ⟨h'.image⟩ x.index = Reader.nameOf ⟨h.image⟩ x.index
  values : ∀ x ∈ items,
    Reader.propertyOf ⟨h'.image⟩ x.name x.index = Reader.propertyOf ⟨h.image⟩ x.name x.index
  unlocked : ∃ g, g % 2 = 0 ∧ Block.headerGenerationCount h'.mapping headerIndex = .ok g

/-- The extents of the value find room, or there is not even room for the first one and nothing else
was changed before. -/
def Heap.Spares (h : Heap) (n : Nat) (untouched : Prop) : Prop :=
  h.Fits h.freeBlocks n ∨ h.Exhausted h.freeBlocks (blockSizeForPayload n) ∧ untouched

/-- The call creates a value or sets a property, and there is room for its extents in what is left
of the heap: for a new property behind the blocks of the property and of its name, for an old one
with its extents given back. -/
def Call.Spared (h : Heap) : Call → Prop
  | createNode _ _ | createMetric _ _ _ _ | createArray _ _ _ _ _ => True
  | createProperty name value _ p =>
    ∀ b h1, State.reserveProperty name p h = .ok b h1 → h1.Spares value.length (p = 0)
  | setProperty i value => ∀ h1, State.clearProperty i h = .ok () h1 →
      h1.Spares value.length (Block.propertyTotalLength h.mapping i = .ok 0)
  | _ => False

section Views
variable {m : Mapping} {h h' : Heap} {R : Roles} {F F' : Lists} {ts : List Nat} {vs : List Value}
variable {items : List Item} {i k : Nat}

theorem View.allocates_iff (V : View m h R F) : h.Allocates i k ↔ ∃ b, R i = some (k, b) := by
  constructor
  · rintro ⟨bs, hbs, hin, hfree⟩
    rcases V.met hbs hin with ⟨hf, -⟩ | hb
    · exact absurd hf hfree
    · exact hb
  · rintro ⟨b, hb⟩
    obtain ⟨bs, hbs, -⟩ := V.inv.blocks
    refine ⟨bs, hbs, V.mem_blocks hbs hb, fun hf => ?_⟩
    exact b.type_ne_free (BlockType.toU8_injective ((V.shows hb).type.symm.trans hf))

theorem StateInv.preserved (I : StateInv m h R F ts vs) (hp : (vs.map Value.toItem).Perm items)
    (hu : Unchanged m R ts vs h') : Preserved items h h' := by
  obtain ⟨g, F', hg, I'⟩ := hu
  obtain ⟨g0, -, h0⟩ := I.owns.header
  have hrole : ∀ {i k b}, i ≠ 0 → (R.withGeneration g i = some (k, b) ↔ R i = some (k, b)) := by
    intro i k b hi
    rw [Roles.withGeneration_of_ne hi]
  have hval : ∀ x ∈ items, ∃ v ∈ vs, v.toItem = x := fun x hx =>
    mem_map.mp (hp.mem_iff.mpr hx)
  refine ⟨?_, ?_, ?_, ?_, g, hg, ?_⟩
  · intro i k
    rw [I'.view.allocates_iff, I.view.allocates_iff]
    by_cases hi : i = 0
    · subst i
      simp [h0, Roles.withGeneration_zero]
    · simp only [hrole hi]
  · intro i k hi
    obtain ⟨b, hb⟩ := I.view.allocates_iff.mp hi
    have L := I.view.holds hb
    by_cases hi0 : i = 0
    · subst i
      have hb' := R.withGeneration_zero g
      have L' := I'.view.holds hb'
      rw [h0] at hb
      cases hb
      rw [L.childCount, L'.childCount]
      rfl
    · have hb' := (hrole hi0).mpr hb
      have L' := I'.view.holds hb'
      rw [L.childCount, L'.childCount]
  · intro x hx
    obtain ⟨v, hv, rfl⟩ := hval x hx
    rw [I.read_name hv, I'.read_name hv]
  · intro x hx
    obtain ⟨v, hv, rfl⟩ := hval x hx
    rw [I.read_property hv, I'.read_property hv]
  · have hb' := R.withGeneration_zero g
    exact generation_header ⟨I'.view.shows hb', I'.view.bound hb'⟩

end Views

section Steps
variable {m : Mapping} {h h' : Heap} {a : State.Arith} {items : List Item} {c : Call} {msg : String}

theorem pure_error {x : HeapM Unit} {i : Nat}
    (hx : (x >>= fun _ => pure i) h = .error (.error msg) h') : x h = .error (.error msg) h' := by
  simp only [bind, EStateM.bind] at hx
  cases hrun : x h with
  | ok u h1 =>
    rw [hrun] at hx
    cases hx
  | error e h1 =>
    rw [hrun] at hx
    cases hx
    rfl

theorem result_error {α : Type} {x : HeapM α} {other : String} {h1 : Heap}
    (h1x : x h = .error (.error other) h1) (hx : x h = .error (.error msg) h') : h1 = h' := by
  rw [h1x] at hx
  cases hx
  rfl

variable {ts : List Nat} {vs : List Value}

theorem Creates.error {p : Nat} {name : List UInt8} {x : HeapM Nat} {made : Heap → Value → Prop}
    {failed : Heap → Prop} (hcases : Creates m ts vs h p name x made failed)
    (hx : x h = .error (.error msg) h') : failed h' := by
  rcases hcases with ⟨_, _, _, _, hrun, _⟩ | ⟨other, h1, hrun, hq⟩
  · rw [hrun] at hx
    cases hx
  · exact result_error hrun hx ▸ hq

variable {R : Roles} {F : Lists}

theorem StateInv.value_nil {v : Value} {f : PropertyFormat} {old : List UInt8}
    (I : StateInv m h R F ts (v :: vs)) (hc : v.content = .property f old)
    (hlen : Block.propertyTotalLength h.mapping v.index = .ok 0) : old = [] := by
  have hs := I.owns.stored v mem_cons_self
  simp only [Value.Stored, hc] at hs
  obtain ⟨-, k, hi⟩ := hs
  have L := I.view.holds hi
  rw [L.propertyTotalLength] at hlen
  exact eq_nil_of_length_eq_zero (Except.ok.inj hlen)

open State in
theorem StateInv.spared (I : StateInv m h R F ts vs) (hm : Addressable m) (hl : c.Legal h items)
    (hs : c.Spared h) (hx : c.exec a h = .error (.error msg) h') : Unchanged m R ts vs h' := by
  cases c with
  | createNode name p =>
    exact (createNode_cases I hm (I.known hl) name).error hx
  | createMetric t name y p =>
    exact (createMetric_cases I hm (I.known hl) t name y).error hx
  | createArray t name s f p =>
    exact (createArray_cases I hm (I.known hl.1) t name hl.2 f).error hx
  | createProperty name value f p =>
    rcases (createProperty_cases I hm (I.known hl) name value f).error hx with
        hu | ⟨b, h1, hres, hfit, hun⟩
    · exact hu
    · rcases hs b h1 hres with hf | ⟨hex, hp⟩
      · exact absurd hf hfit
      · exact hun hex hp
  | setProperty i value =>
    have hi := I.known hl
    have hrun := pure_error hx
    by_cases hR : ∀ k f n q y e, R i ≠ some (k, .property f n q y e)
    · obtain ⟨other, h1, herr, hu⟩ := setProperty_err I hi hR value
      exact result_error herr hrun ▸ hu
    · simp only [not_forall, not_not] at hR
      obtain ⟨k, f, n, q, y, e, hR⟩ := hR
      obtain ⟨v, hv, rfl, old, hc⟩ := I.owns.property hR
      obtain ⟨l₁, l₂, rfl⟩ := append_of_mem hv
      have hperm : (l₁ ++ v :: l₂).Perm (v :: (l₁ ++ l₂)) := perm_middle
      have I' := I.perm hperm
      obtain ⟨other, h1, herr, h2, hclear, hfit, hun⟩ :=
        (setProperty_cases I' hm hc value).resolve_left fun ⟨w, h1, _, _, hok, _⟩ => by
          rw [hok] at hrun
          cases hrun
      obtain rfl := result_error herr hrun
      rcases hs h2 hclear with hf | ⟨hex, hlen⟩
      · exact absurd hf hfit
      · obtain ⟨g, F', hg, J⟩ := hun hex (I'.value_nil hc hlen)
        exact ⟨g, F', hg, J.perm hperm.symm⟩
  | _ => exact hs.elim

end Steps

def sparing (m : Mapping) : Rules := ⟨Opened m, fun _ _ _ => True, fun h c => c.Spared h⟩

section Runs
variable {m : Mapping} {h h' : Heap} {a : State.Arith} {items : List Item} {c : Call} {msg : String}

theorem Holds.spared (hm : Addressable m) (H : Holds m h items) (hl : c.Legal h items)
    (hs : c.Spared h) (hx : c.exec a h = .error (.error msg) h') :
    Holds m h' items ∧ Preserved items h h' := by
  obtain ⟨R, F, ts, vs, I, hp⟩ := H
  have hu := I.spared hm hl hs hx
  obtain ⟨g, F', hg, J⟩ := hu
  exact ⟨⟨_, F', ts, vs, J, hp⟩, I.preserved hp ⟨g, F', hg, J⟩⟩

theorem Run.holds_sparing (hm : Addressable m) (hr : Run a (sparing m) h items) : Holds m h items :=
  hr.holds hm (fun ho => Opened.holds hm ho) fun H hl hs hx => (H.spared hm hl hs hx).1

/-- A call that creates a value or sets a property, and that fails, changes nothing but the
generation count, if it is a spared one. -/
theorem spared_failure_preserves (hm : Addressable m) (hr : Run a (sparing m) h items)
    (hl : c.Legal h items) (hs : c.Spared h) (hx : c.exec a h = .error (.error msg) h') :
    Preserved items h h' :=
  ((hr.holds_sparing hm).spared hm hl hs hx).2

def Call.failure (a : State.Arith) (c : Call) (s : Heap × List Item) : Option Heap :=
  if c.Legal s.1 s.2 then
    match c.exec a s.1 with
    | .error (.error _) h' => some h'
    | _ => none
  else none

theorem Call.of_failure {s : Heap × List Item} (hs : c.failure a s = some h') :
    c.Legal s.1 s.2 ∧ ∃ msg, c.exec a s.1 = .error (.error msg) h' := by
  unfold Call.failure at hs
  split at hs
  next hl =>
    split at hs
    next msg h1 hx =>
      cases hs
      exact ⟨hl, msg, hx⟩
    next => cases hs
  next => cases hs

theorem of_onPage_failure {cs : List Call} {test : Heap × List Item → Heap → Bool}
    (h : (onPage cs).any (fun s => (c.failure keepLeft s).any (test s)) = true) :
    ∃ s h' msg, Run keepLeft (sparing onePage) s.1 s.2 ∧ c.Legal s.1 s.2 ∧
      c.exec keepLeft s.1 = .error (.error msg) h' ∧ test s h' = true := by
  obtain ⟨s, hs, hany⟩ := (Option.any_eq_true _ _).mp h
  obtain ⟨h', hf, htest⟩ := (Option.any_eq_true _ _).mp hany
  obtain ⟨hl, msg, hx⟩ := Call.of_failure hf
  exact ⟨s, h', msg, onPage_run hs, hl, hx, htest⟩

def fullCalls : List Call := [.createNode [110] 0, .createArray .int [97] 254 .default 0]

/-- A second large array, for which there is no room beside a node with a property and the first
one. -/
theorem spared_failure_preserves_live : ∃ a h items, ∃ c : Call, ∃ msg h',
    Run a (sparing onePage) h items ∧ items.length = 3 ∧ c.exec a h = .error (.error msg) h' ∧
    Preserved items h h' := by
  have hfail : (onPage (fullCalls ++ [.createProperty [112] [1, 2, 3] .bytes 1])).any (fun s =>
      ((Call.createArray .int [98] 254 .default 1).failure keepLeft s).any
        fun _ => s.2.length == 3) = true := by decide +kernel
  obtain ⟨s, h', msg, hr, hl, hx, hlive⟩ := of_onPage_failure hfail
  exact ⟨_, s.1, s.2, _, msg, h', hr, beq_iff_eq.mp hlive, hx,
    spared_failure_preserves ⟨by decide, by decide, by decide⟩ hr hl trivial hx⟩

/-- A property of 1017 bytes under a node, which finds no room for its extent: the node keeps a
child that there is not. -/
theorem failed_property_counts_child : ∃ a h items, ∃ c : Call, ∃ msg h',
    Run a (sparing onePage) h items ∧ c.Legal h items ∧ c.exec a h = .error (.error msg) h' ∧
    (h.Allocates 1 0 ∧ Block.childCount h.mapping 1 = .ok 0 ∧
      Block.childCount h'.mapping 1 = .ok 1) ∧
    ¬ Preserved items h h' := by
  have hfail : (onPage fullCalls).any (fun s =>
      ((Call.createProperty [112] (List.replicate 1017 1) .bytes 1).failure keepLeft s).any
        fun h' => (match s.1.blocks with
          | some bs => decide ((1, 0) ∈ bs ∧ ¬ s.1.IsFree 1)
          | none => false) && (Block.childCount s.1.mapping 1).toOption == some 0 &&
          (Block.childCount h'.mapping 1).toOption == some 1) = true := by decide +kernel
  obtain ⟨s, h', msg, hr, hl, hx, htest⟩ := of_onPage_failure hfail
  simp only [Bool.and_eq_true, beq_iff_eq] at htest
  obtain ⟨⟨hblocks, hbefore⟩, hafter⟩ := htest
  have halloc : s.1.Allocates 1 0 := by
    split at hblocks
    next bs hbs =>
      obtain ⟨hin, hfree⟩ := of_decide_eq_true hblocks
      exact ⟨bs, hbs, hin, hfree⟩
    next => cases hblocks
  have hb := ok_of_toOption hbefore
  have ha := ok_of_toOption hafter
  refine ⟨_, s.1, s.2, _, msg, h', hr, hl, hx, ⟨halloc, hb, ha⟩, fun hP => ?_⟩
  have hsame := hP.counts 1 0 halloc
  rw [ha, hb] at hsame
  cases hsame

end Runs

end Garnet.Inspect
