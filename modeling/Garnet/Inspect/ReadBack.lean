import Garnet.Inspect.Reader
import Garnet.Inspect.Accounting

/-! What the reader gets from the blocks of a heap that nobody writes meanwhile. -/

namespace Garnet.Inspect
open List
open ReadableBlockContainer (byte)

def Heap.image (h : Heap) : Slice := ⟨h.mapping.len, h.mapping.byte⟩

/-- What the reader shows of a value under its name: a node is not a property. -/
def Item.property (x : Item) : Option Property :=
  match x.content with
  | .node => none
  | .number .int value => some (.int x.name value)
  | .number .uint value => some (.uint x.name value)
  | .number .double value => some (.double x.name value)
  | .array .int f values => some (.intArray x.name values f)
  | .array .uint f values => some (.uintArray x.name values f)
  | .array .double f values => some (.doubleArray x.name values f)
  | .property .string value => some (.string x.name (Utf8.lossy value))
  | .property .bytes value => some (.bytes x.name value)

namespace Reader

def nameOf (s : Snapshot) (block : Nat) : Except Fault (List UInt8) := do
  let nameIndex ← Block.nameIndex s.buffer block
  getName s nameIndex

def propertyOf (s : Snapshot) (name : List UInt8) (block : Nat) : Except Fault (Option Property) := do
  let type ← Block.blockType s.buffer block
  match type with
  | .intValue | .uintValue | .doubleValue => numericProperty s type name block
  | .arrayValue => do
    let property ← arrayProperty s name block
    pure (some property)
  | .propertyValue => do
    let property ← extentsProperty s name block
    pure (some property)
  | _ => pure none

section Blocks
variable {s : Snapshot} {i k : Nat} {b : Role} {n p g : Nat} {R : Roles} {es : List Nat}
  {value : List UInt8}

theorem getBlock_of_lies (L : Lies s.buffer i k b) : s.getBlock i = some i := by
  have hb := L.bound_cell
  simp only [Snapshot.getBlock, offsetForIndex_eq]
  exact if_pos (by simp only [ReadableBlockContainer.len] at hb; omega)

theorem getName_of_lies {text : List UInt8} (L : Lies s.buffer i k (.name text)) :
    getName s i = if Utf8.valid text then .ok text else .error .panic := by
  simp only [getName, getBlock_of_lies L, L.nameContents]
  cases Utf8.valid text <;> rfl

theorem arrayValues_of_lies {t : Number} {f : ArrayFormat} {slots : Nat} {data : List Nat}
    (L : Lies s.buffer i k (.array t f n p slots data)) :
    arrayValues s t.type i slots = .ok (data.take slots) := by
  obtain ⟨-, -, -, -, hle, -⟩ := L.shows.body
  rw [← L.slotsAt_eq]
  apply mapM_ok
  intro slot hslot
  rw [L.arrayGetSlot ((mem_range.mp hslot).trans_le hle), unwrap_ok]

section
variable (hR : ∀ {i k b}, R i = some (k, b) → Lies s.buffer i k b) (h0 : R 0 = some (0, .header g))
  (hc : Chain R es value)
include hR h0 hc

theorem readExtents_of_chain (read : List UInt8) {fuel : Nat} (hfuel : value.length < fuel) :
    readExtents s (read.length + value.length) fuel (es.headD 0) read = .ok (read ++ value) := by
  induction es generalizing value read fuel with
  | nil =>
    obtain rfl : value = [] := hc
    obtain ⟨fuel, rfl⟩ := Nat.exists_eq_succ_of_ne_zero (Nat.ne_of_gt hfuel)
    simp [readExtents, except_pure]
  | cons e es ih =>
    have he0 := hc.ne_zero h0 mem_cons_self
    obtain ⟨k, bytes, he, hne, htake, hrest⟩ := hc
    have L := hR he
    have hpos := length_pos_of_ne_nil hne
    have hb := L.extent_pos
    obtain ⟨fuel, rfl⟩ := Nat.exists_eq_succ_of_ne_zero (Nat.ne_of_gt (Nat.zero_lt_of_lt hfuel))
    have hcond : e ≠ 0 ∧ read.length < read.length + value.length := ⟨he0, by omega⟩
    -- the extent gives the front of what is left of the value
    have hleft : (value.drop bytes.length).length < fuel := by
      rw [length_drop]
      omega
    have hnext := ih hrest (read ++ value.take bytes.length) hleft
    have hlen : (read ++ value.take bytes.length).length + (value.drop bytes.length).length =
        read.length + value.length := by
      rw [length_append, length_take, length_drop]
      omega
    rw [hlen, append_assoc, take_append_drop] at hnext
    simp only [readExtents, headD_cons, if_pos hcond, getBlock_of_lies L, L.extentContents,
      L.nextExtent, ok_bind, Nat.add_sub_cancel_left, ← htake]
    exact hnext

theorem extentsProperty_of_chain {f : PropertyFormat}
    (hi : R i = some (k, .property f n p value.length (es.headD 0))) (name : List UInt8) :
    extentsProperty s name i = .ok (match f with
      | .string => .string name (Utf8.lossy value)
      | .bytes => .bytes name value) := by
  have hread := readExtents_of_chain hR h0 hc [] (Nat.lt_succ_self _)
  simp only [length_nil, zero_add, nil_append] at hread
  simp only [extentsProperty, (hR hi).propertyTotalLength, (hR hi).propertyExtentIndex, hread,
    (hR hi).propertyFormat, ok_bind, Nat.sub_self, replicate_zero, append_nil]
  cases f <;> rfl

end

end Blocks

end Reader

theorem generation_header {c : Type} [ReadableBlockContainer c] {s : c} {g : Nat}
    (L : Lies s 0 0 (.header g)) : Block.headerGenerationCount s 0 = .ok g := by
  have hg : Payload.headerGenerationCount (pay (byte s) 0) = g :=
    (numericValue_pay _ _).trans L.shows.body.2
  rw [← hg]
  exact L.payloadField rfl _

section Header
variable {s : Slice} {g : Nat}

theorem scanSlice_header (hlen : s.len = 16) (L : Lies s 0 0 (.header g)) :
    scanSlice s = .ok [0] := by
  have hindex : indexForOffset 0 = .ok 0 := rfl
  have hsize : orderToSize 0 = 16 := rfl
  have hend : scanFrom s 2 16 = .ok [] := by
    rw [scanFrom, if_pos (le_of_eq hlen), except_pure]
  have hfuel : s.len / minOrderSize + 2 = 3 := by rw [hlen]; rfl
  rw [scanSlice, hfuel, scanFrom, if_neg (by omega), hindex]
  simp only [ok_bind, L.order, hsize, Nat.sub_zero, hlen, lt_irrefl, if_false, zero_add,
    hend, except_pure]

theorem isHeader_header (L : Lies s 0 0 (.header g)) (test : Except Fault Bool) :
    isHeader s 0 test = test := by
  have hw : hdr s.byte 0 = headerWord := L.shows.body.1
  have hmagic : BlockHeader.headerMagic headerWord = headerMagicNumber := by decide
  have hversion : BlockHeader.headerVersion headerWord = headerVersionNumber := by decide
  have hm : Block.headerMagic s 0 = .ok headerMagicNumber := by
    rw [← hmagic, ← hw]
    exact L.headerField rfl _
  have hv : Block.headerVersion s 0 = .ok headerVersionNumber := by
    rw [← hversion, ← hw]
    exact L.headerField rfl _
  simp only [isHeader, L.blockType, Role.type, hm, hv, unwrap_ok, ok_bind, if_true]

theorem isLocked_header (L : Lies s 0 0 (.header g)) :
    Block.headerIsLocked s 0 = .ok (g % 2 == 1) := by
  have hg : Payload.headerGenerationCount (pay s.byte 0) = g :=
    (numericValue_pay _ _).trans L.shows.body.2
  simp only [Block.headerIsLocked, L.checkType (t := .header) rfl, L.readPayload, ok_bind,
    except_pure]
  exact congrArg (fun y => Except.ok (y % 2 == 1)) hg

theorem headerGenerationCount_even (hlen : s.len = 16) (L : Lies s 0 0 (.header g))
    (hg : g % 2 = 0) : headerGenerationCount s = .ok (some g) := by
  have hodd : (!(g % 2 == 1)) = true := by simp [hg]
  have hfind : ([0] : List Nat).findM? (fun block => isHeader s block do
      let locked ← unwrap (Block.headerIsLocked s block)
      pure !locked) = .ok (some 0) := by
    simp only [List.findM?, isHeader_header L, isLocked_header L, unwrap_ok, ok_bind, hodd,
      except_pure]
  simp only [headerGenerationCount, hlen, lt_irrefl, if_false, scanSlice_header hlen L,
    ok_bind]
  rw [hfind]
  simp only [ok_bind, generation_header L, except_pure]

theorem sameGeneration_header (hlen : (s.firstBytes 16).len = 16)
    (L : Lies (s.firstBytes 16) 0 0 (.header g)) : sameGeneration s g = .ok true := by
  have hfind : ([0] : List Nat).findM? (fun block => isHeader (s.firstBytes 16) block do
      let count ← unwrap (Block.headerGenerationCount (s.firstBytes 16) block)
      pure (count == g)) = .ok (some 0) := by
    simp only [List.findM?, isHeader_header L, generation_header L, unwrap_ok, ok_bind,
      beq_self_eq_true, except_pure]
  simp only [sameGeneration, scanSlice_header hlen L, ok_bind]
  rw [hfind]
  rfl

end Header

section Values
variable {m : Mapping} {h : Heap} {R : Roles} {F : Lists} {ts : List Nat} {v : Value}
  {vs : List Value}
variable {i k : Nat} {b : Role}

theorem View.lies (V : View m h R F) (hi : R i = some (k, b)) : Lies h.image i k b :=
  ⟨V.shows hi, V.bound hi⟩

section
variable (I : StateInv m h R F ts vs)
include I

theorem StateInv.read_name (hv : v ∈ vs) :
    Reader.nameOf ⟨h.image⟩ v.index = if Utf8.valid v.name then .ok v.name else .error .panic := by
  obtain ⟨k, b, hb, hrefs⟩ := (I.owns.stored v hv).role
  obtain ⟨l, hn⟩ := I.owns.named v hv
  simp only [Reader.nameOf, (I.view.lies hb).nameIndex hrefs, ok_bind]
  exact Reader.getName_of_lies (I.view.lies hn)

theorem StateInv.read_property (hv : v ∈ vs) :
    Reader.propertyOf ⟨h.image⟩ v.name v.index = .ok v.toItem.property := by
  have hs := I.owns.stored v hv
  rw [Value.Stored] at hs
  obtain ⟨g, -, h0⟩ := I.owns.header
  split at hs <;> rename_i hcontent
  · obtain ⟨-, k, c, hi⟩ := hs
    simp only [Reader.propertyOf, (I.view.lies hi).blockType, Role.type, ok_bind,
      Item.property, hcontent, except_pure]
  · obtain ⟨-, k, hi⟩ := hs
    have L := I.view.lies hi
    rename_i t x
    have hx : Payload.numericValue (pay h.image.byte v.index) = x :=
      (numericValue_pay _ _).trans L.shows.body.2
    cases t with
    | int =>
      simp only [Reader.propertyOf, L.blockType, Role.type, Number.type, ok_bind, Item.property,
        hcontent, Reader.numericProperty, Block.intValue, L.payloadField (t := .intValue) rfl,
          except_pure]
      exact congrArg (fun y => Except.ok (some (Property.int _ y))) hx
    | uint =>
      simp only [Reader.propertyOf, L.blockType, Role.type, Number.type, ok_bind, Item.property,
        hcontent, Reader.numericProperty, Block.uintValue, L.payloadField (t := .uintValue) rfl,
          except_pure]
      exact congrArg (fun y => Except.ok (some (Property.uint _ y))) hx
    | double =>
      simp only [Reader.propertyOf, L.blockType, Role.type, Number.type, ok_bind, Item.property,
        hcontent, Reader.numericProperty, Block.doubleValue, L.payloadField (t := .doubleValue) rfl,
        except_pure]
      exact congrArg (fun y => Except.ok (some (Property.double _ y))) hx
  · obtain ⟨-, k, slots, data, hi, rfl⟩ := hs
    have L := I.view.lies hi
    obtain ⟨-, -, -, -, hle, -⟩ := L.shows.body
    rename_i t f
    have hvalues := Reader.arrayValues_of_lies (s := ⟨h.image⟩) L
    have hparts : Reader.propertyOf ⟨h.image⟩ v.name v.index = (do
        let property ← Reader.arrayProperty ⟨h.image⟩ v.name v.index
        pure (some property)) := by
      simp only [Reader.propertyOf, L.blockType, Role.type, ok_bind]
    rw [hparts]
    simp only [Reader.arrayProperty, L.arraySlots, L.order, ok_bind,
      if_neg (Nat.not_lt_of_le hle), L.arrayEntryType, L.arrayFormat, unwrap_ok, Item.property,
        hcontent]
    cases t with
    | int | uint | double =>
      rw [Number.type] at hvalues
      simp only [Number.type, hvalues, ok_bind, except_pure]
  · obtain ⟨hc, k, hi⟩ := hs
    have L := I.view.lies hi
    rename_i f x
    simp only [Reader.propertyOf, L.blockType, Role.type, ok_bind, Item.property, hcontent,
      Reader.extentsProperty_of_chain (s := ⟨h.image⟩) I.view.lies h0 hc hi, except_pure]
    cases f <;> rfl

theorem StateInv.snapshot : Snapshot.tryFrom h.image = .ok ⟨h.image⟩ := by
  obtain ⟨g, hg, h0⟩ := I.owns.header
  have hlen : (h.image.firstBytes 16).len = 16 := min_eq_left (I.view.bound_cell h0)
  have L : Lies (h.image.firstBytes 16) 0 0 (.header g) := ⟨I.view.shows h0, le_of_eq hlen.symm⟩
  rw [Snapshot.tryFrom, Snapshot.tries, Snapshot.tryFromLoop]
  simp only [headerGenerationCount_even hlen L hg, sameGeneration_header hlen L, ok_bind,
    if_true, except_pure]

end

end Values

end Garnet.Inspect
