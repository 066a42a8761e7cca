import Garnet.Inspect.HeapRun

/-! What each allocated block is for: a view of the memory as a map from indices to roles.
A write to one block changes the role of that block and of no other. -/

namespace Garnet.Inspect
open List
open Function (update update_eq_self update_self)
open BlockHeader
open ReadableBlockContainer (byte len readBytes)
open Mapping (hdr_putHdr_self hdr_putPay pay_putPay_self putHdr_byte put_byte_of_not_mem
  word_put_disjoint)
open Block (arrayWord incrementGenerationCount nameWord readBytes_eq slotOffset valueWord
  writePayload_eq)
open LittleEndian (bits bits_setBits_above bits_setBits_self toLe toLe_length)
open Nat (mod_eq_of_lt two_pow_pos)

inductive Number where
  | int | uint | double
  deriving Repr, DecidableEq

def Number.type : Number → BlockType
  | int => .intValue | uint => .uintValue | double => .doubleValue

inductive Role where
  | header (generation : Nat)
  | reserved
  | node (nameIndex parentIndex childCount : Nat)
  | number (type : Number) (nameIndex parentIndex value : Nat)
  | array (entry : Number) (format : ArrayFormat) (nameIndex parentIndex slots : Nat) (data : List Nat)
  | property (format : PropertyFormat) (nameIndex parentIndex length extent : Nat)
  | extent (next : Nat) (contents : List UInt8)
  | name (text : List UInt8)
  | tombstone (childCount : Nat)
  deriving Repr, DecidableEq

/-- The `n` words behind the first cell of the block at `i`. -/
def slotsAt (byte : Nat → UInt8) (i n : Nat) : List Nat :=
  (List.range n).map fun s => word byte (16 * i + 16 + 8 * s)

namespace Role

def type : Role → BlockType
  | header _ => .header
  | reserved => .reserved
  | node _ _ _ => .nodeValue
  | number t _ _ _ => t.type
  | array _ _ _ _ _ _ => .arrayValue
  | property _ _ _ _ _ => .propertyValue
  | extent _ _ => .extent
  | name _ => .name
  | tombstone _ => .tombstone

def Refers (w nameIndex parentIndex : Nat) : Prop :=
  valueNameIndex w = nameIndex ∧ valueParentIndex w = parentIndex

/-- What the bytes of a block of order `k` at index `i` say beyond its type and order. -/
def Body (byte : Nat → UInt8) (i k : Nat) : Role → Prop
  | header g => hdr byte i = headerWord ∧ pay byte i = g
  | reserved => True
  | node n p c => Refers (hdr byte i) n p ∧ pay byte i = c
  | number _ n p x => Refers (hdr byte i) n p ∧ pay byte i = x
  | array t f n p s data => Refers (hdr byte i) n p ∧
      Payload.arrayEntryType (pay byte i) = t.type.toU8 ∧ Payload.arrayFlags (pay byte i) = f.toU8 ∧
      Payload.arraySlotsCount (pay byte i) = s ∧ s ≤ arrayCapacity k ∧
      slotsAt byte i (arrayCapacity k) = data
  | property f n p l e => Refers (hdr byte i) n p ∧ Payload.propertyFlags (pay byte i) = f.toU8 ∧
      Payload.propertyTotalLength (pay byte i) = l ∧ Payload.propertyExtentIndex (pay byte i) = e
  | extent e bytes => extentNextIndex (hdr byte i) = e ∧
      bytesAt byte (16 * i + 8) (payloadSizeForOrder k) = bytes
  | name text => nameLength (hdr byte i) = text.length ∧ text.length ≤ payloadSizeForOrder k ∧
      bytesAt byte (16 * i + 8) text.length = text
  | tombstone c => pay byte i = c

def refs : Role → Option (Nat × Nat)
  | node n p _ => some (n, p)
  | number _ n p _ => some (n, p)
  | array _ _ n p _ _ => some (n, p)
  | property _ n p _ _ => some (n, p)
  | _ => none

def count : Role → Option Nat
  | node _ _ c => some c
  | tombstone c => some c
  | _ => none

def withCount (c : Nat) : Role → Role
  | node n p _ => node n p c
  | tombstone _ => tombstone c
  | b => b

theorem type_ne_free (b : Role) : b.type ≠ .free := by
  cases b with
  | number t => cases t <;> simp [type, Number.type]
  | _ => simp [type]

end Role

/-- The bytes at `i` are a block of order `k` with the role `b`. -/
structure Shows (byte : Nat → UInt8) (i k : Nat) (b : Role) : Prop where
  order : order (hdr byte i) = k
  type : blockType (hdr byte i) = b.type.toU8
  body : b.Body byte i k

section Shows
variable {f g byte : Nat → UInt8} {i n k : Nat} {b : Role}

theorem slotsAt_congr (h : ∀ x, 16 * i + 16 ≤ x → x < 16 * i + 16 + 8 * n → f x = g x) :
    slotsAt f i n = slotsAt g i n := by
  apply map_congr_left
  intro s hs
  have hs := mem_range.mp hs
  exact word_congr fun x hl hr => h x (by omega) (by omega)

theorem arrayCapacity_eq (k : Nat) : arrayCapacity k = 2 * 2 ^ k - 2 := by
  simp only [arrayCapacity, orderToSize_eq, headerSizeBytes, arrayPayloadMetadataSizeBytes]
  omega

theorem Shows.congr (hs : Shows f i k b)
    (h : ∀ x, 16 * i ≤ x → x < 16 * (i + 2 ^ k) → g x = f x) : Shows g i k b := by
  have hp := two_pow_pos k
  have hhdr : hdr g i = hdr f i := word_congr fun x hl hr => h x hl (by omega)
  have hpay : pay g i = pay f i := word_congr fun x hl hr => h x (by omega) (by omega)
  have hbytes : ∀ n, n ≤ payloadSizeForOrder k →
      bytesAt g (16 * i + 8) n = bytesAt f (16 * i + 8) n := by
    intro n hn
    rw [payloadSizeForOrder_eq] at hn
    exact bytesAt_congr fun x hl hr => h x (by omega) (by omega)
  have hslots : slotsAt g i (arrayCapacity k) = slotsAt f i (arrayCapacity k) := by
    rw [arrayCapacity_eq]
    exact slotsAt_congr fun x hl hr => h x (by omega) (by omega)
  refine ⟨hhdr ▸ hs.order, hhdr ▸ hs.type, ?_⟩
  have hb := hs.body
  cases b with
  | reserved => trivial
  | name text =>
    obtain ⟨h1, h2, h3⟩ := hb
    exact ⟨hhdr ▸ h1, h2, (hbytes _ h2).trans h3⟩
  | extent e bytes => exact ⟨hhdr ▸ hb.1, (hbytes _ (le_refl _)).trans hb.2⟩
  | _ => simpa only [Role.Body, hhdr, hpay, hslots] using hb

theorem Shows.refers {p : Nat} (hs : Shows byte i k b) (hb : b.refs = some (n, p)) :
    b.type.isAnyValue = true ∧ Role.Refers (hdr byte i) n p := by
  have hbody := hs.body
  cases b with
  | number t =>
    cases hb
    cases t <;> exact ⟨rfl, hbody.1⟩
  | _ =>
    cases hb
    try exact ⟨rfl, hbody.1⟩

theorem Shows.counts {c : Nat} (hs : Shows byte i k b) (hb : b.count = some c) :
    b.type.isNodeOrTombstone = true ∧ pay byte i = c := by
  have hbody := hs.body
  cases b with
  | node =>
    cases hb
    exact ⟨rfl, hbody.2⟩
  | tombstone =>
    cases hb
    exact ⟨rfl, hbody⟩
  | _ => cases hb

theorem numericValue_pay (byte : Nat → UInt8) (i : Nat) :
    Payload.numericValue (pay byte i) = pay byte i := by
  rw [Payload.numericValue, bits, pow_zero, Nat.div_one]
  exact mod_eq_of_lt (word_lt _ _)

end Shows

theorem slotOffset_eq (i slot : Nat) : slotOffset i slot = 16 * i + 16 + 8 * slot := by
  simp only [slotOffset, offsetForIndex_eq]
  omega

theorem setNumericValue_mod (w v : Nat) : Payload.setNumericValue w v % 2 ^ 64 = v % 2 ^ 64 := by
  have hs := bits_setBits_self w 0 64 v
  rwa [bits, pow_zero, Nat.div_one] at hs

structure Lies {c : Type} [ReadableBlockContainer c] (s : c) (i k : Nat) (b : Role) : Prop where
  shows : Shows (byte s) i k b
  bound : 16 * i + 16 * 2 ^ k ≤ len s

def Role.countOr (b : Role) (other : Except Fault Nat) : Except Fault Nat :=
  match b.count with
  | some c => .ok c
  | none => other

namespace Lies
variable {c : Type} [ReadableBlockContainer c] {s : c} {i k : Nat} {b : Role} {next : Nat}
  {bytes : List UInt8}

section
variable (L : Lies s i k b)
include L

theorem bound_cell : 16 * i + 16 ≤ len s := by
  have hb := L.bound
  have hp := two_pow_pos k
  omega

theorem bound_header : 16 * i + 8 ≤ len s := by
  have hb := L.bound_cell
  omega

theorem order : Block.order s i = .ok k := by
  rw [Block.order_eq L.bound_header, L.shows.order]

theorem blockType : Block.blockType s i = .ok b.type :=
  Block.blockType_eq (L.bound_header) L.shows.type

theorem readHeader : Block.readHeader s i = .ok (hdr (byte s) i) :=
  Block.readHeader_eq (L.bound_header)

theorem readPayload : Block.readPayload s i = .ok (pay (byte s) i) :=
  Block.readPayload_eq L.bound_cell

variable {t : BlockType} {n p : Nat}

theorem checkType (ht : b.type = t) : Block.checkType s i t = .ok () :=
  Block.checkType_eq (L.bound_header) (ht ▸ L.shows.type)

theorem headerField (ht : b.type = t) (field : Nat → Nat) :
    Block.headerField t field s i = .ok (field (hdr (byte s) i)) :=
  Block.headerField_eq (L.bound_header) (ht ▸ L.shows.type)

theorem payloadField (ht : b.type = t) (field : Nat → Nat) :
    Block.payloadField t field s i = .ok (field (pay (byte s) i)) :=
  Block.payloadField_eq L.bound_cell (ht ▸ L.shows.type)

theorem checkSlot (slot : Nat) :
    Block.checkSlot s i slot = if arrayCapacity k < slot then
      .error (.error ("Index out of bounds: " ++ toString slot)) else .ok () := by
  simp only [Block.checkSlot, L.order, ok_bind, except_pure]

theorem nameIndex (hb : b.refs = some (n, p)) : Block.nameIndex s i = .ok n := by
  obtain ⟨ht, hr⟩ := L.shows.refers hb
  simp only [Block.nameIndex, Block.checkAnyValue, L.blockType, L.readHeader, ok_bind, ht,
    if_true, except_pure, hr.1]

theorem parentIndex (hb : b.refs = some (n, p)) : Block.parentIndex s i = .ok p := by
  obtain ⟨ht, hr⟩ := L.shows.refers hb
  simp only [Block.parentIndex, Block.checkAnyValue, L.blockType, L.readHeader, ok_bind, ht,
    if_true, except_pure, hr.2]

theorem childCount : Block.childCount s i = b.countOr
    (.error (.error ("Expected NODE|TOMBSTONE, got: " ++ b.type.display))) := by
  cases hb : b.count with
  | none =>
    have ht : b.type.isNodeOrTombstone = false := by
      cases b with
      | number t => cases t <;> rfl
      | node | tombstone => cases hb
      | _ => rfl
    simp only [Block.childCount, Block.checkNodeOrTombstone, L.blockType, ok_bind, ht,
      Bool.false_eq_true, if_false, error_bind, Role.countOr, hb]
  | some c =>
    obtain ⟨ht, rfl⟩ := L.shows.counts hb
    simp only [Block.childCount, Block.checkNodeOrTombstone, L.blockType, L.readPayload,
      ok_bind, ht, if_true, except_pure, numericValue_pay, Role.countOr, hb]

end

theorem nameContents {text : List UInt8} (L : Lies s i k (.name text)) :
    Block.nameContents s i = if Utf8.valid text then .ok text else .error .panic := by
  obtain ⟨hlen, hle, hbytes⟩ := L.shows.body
  have hb := L.bound
  have hp := two_pow_pos k
  rw [payloadSizeForOrder_eq] at hle
  have hread : readBytes s (16 * i + 8) text.length = .ok text :=
    (readBytes_eq (by omega)).trans (congrArg _ hbytes)
  simp only [Block.nameContents, Block.nameLength, L.checkType (t := .name) rfl,
    L.headerField (t := .name) rfl, hlen,
    ok_bind, payloadOffset, offsetForIndex_eq, headerSizeBytes, hread, except_pure]

section
variable (L : Lies s i k (.extent next bytes))
include L

theorem nextExtent : Block.nextExtent s i = .ok next := by
  rw [Block.nextExtent, L.headerField (t := .extent) rfl, L.shows.body.1]

theorem extentContents : Block.extentContents s i = .ok bytes := by
  have hb := L.bound
  have hp := two_pow_pos k
  have hread : readBytes s (16 * i + 8) (payloadSizeForOrder k) = .ok bytes := by
    rw [← L.shows.body.2]
    exact readBytes_eq (by rw [payloadSizeForOrder_eq]; omega)
  simp only [Block.extentContents, L.checkType (t := .extent) rfl, L.order, ok_bind,
    payloadOffset, offsetForIndex_eq, headerSizeBytes, hread]

theorem extent_pos : 0 < bytes.length := by
  have hp := two_pow_pos k
  rw [← L.shows.body.2, bytesAt_length, payloadSizeForOrder_eq]
  omega

end

section Arrays
variable {t : Number} {f : ArrayFormat} {n p slots : Nat} {data : List Nat}

variable (L : Lies s i k (.array t f n p slots data))
include L

theorem arrayEntryType : Block.arrayEntryType s i = .ok t.type := by
  obtain ⟨-, ht, -⟩ := L.shows.body
  simp only [Block.arrayEntryType, L.payloadField (t := .arrayValue) rfl, ok_bind, ht,
    BlockType.fromU8_toU8, except_pure]

theorem checkArrayEntryType (t' : Number) :
    Block.checkArrayEntryType s i t'.type = if t.type = t'.type then .ok () else
      .error (.error ("Invalid array entry type. Expected: " ++ t'.type.display ++ ", got: " ++
        t.type.display)) := by
  simp only [Block.checkArrayEntryType, L.arrayEntryType, ok_bind, except_pure]

theorem arrayFormat : Block.arrayFormat s i = .ok f := by
  obtain ⟨-, -, hf, -⟩ := L.shows.body
  simp only [Block.arrayFormat, L.payloadField (t := .arrayValue) rfl, ok_bind, hf,
    ArrayFormat.fromU8_toU8, except_pure]

theorem arraySlots : Block.arraySlots s i = .ok slots := by
  obtain ⟨-, -, -, hs, -⟩ := L.shows.body
  rw [Block.arraySlots, L.payloadField (t := .arrayValue) rfl, hs]

theorem arrayGetSlot {slot : Nat} (hslot : slot < arrayCapacity k) :
    Block.arrayGetSlot t.type s i slot = .ok (word (byte s) (16 * i + 16 + 8 * slot)) := by
  have hb := L.bound
  have hcap := arrayCapacity_eq k
  have hread := readBytes_eq (s := s) (a := 16 * i + 16 + 8 * slot) (n := 8) (by omega)
  simp only [Block.arrayGetSlot, L.checkArrayEntryType, L.checkSlot,
    if_neg (Nat.not_lt_of_lt hslot), if_true, slotOffset_eq, hread, ok_bind, except_pure]
  rw [word]

theorem slotsAt_eq : slotsAt (byte s) i slots = data.take slots := by
  obtain ⟨-, -, -, -, hle, rfl⟩ := L.shows.body
  rw [slotsAt, slotsAt, ← map_take, take_range, min_eq_left hle]

end Arrays

section Properties
variable {f : PropertyFormat} {n p length extent : Nat}

variable (L : Lies s i k (.property f n p length extent))
include L

theorem propertyFormat : Block.propertyFormat s i = .ok f := by
  obtain ⟨-, hf, -⟩ := L.shows.body
  simp only [Block.propertyFormat, L.payloadField (t := .propertyValue) rfl, ok_bind, hf,
    PropertyFormat.fromU8_toU8, except_pure]

theorem propertyTotalLength : Block.propertyTotalLength s i = .ok length := by
  obtain ⟨-, -, hl, -⟩ := L.shows.body
  rw [Block.propertyTotalLength, L.payloadField (t := .propertyValue) rfl, hl]

theorem propertyExtentIndex : Block.propertyExtentIndex s i = .ok extent := by
  obtain ⟨-, -, -, he⟩ := L.shows.body
  rw [Block.propertyExtentIndex, L.payloadField (t := .propertyValue) rfl, he]

end Properties

section Lock
variable {u : Mapping} {g : Nat}

variable (L : Lies u 0 0 (.header g))
include L

theorem generation : Payload.headerGenerationCount (pay u.byte 0) = g :=
  (numericValue_pay _ _).trans L.shows.body.2

theorem increment : incrementGenerationCount u 0 = .ok
    (u.putPay 0 (Payload.setHeaderGenerationCount (pay u.byte 0) ((g + 1) % 2 ^ 64))) := by
  have hlt : g < 2 ^ 64 := L.shows.body.2 ▸ word_lt _ _
  have hnew : (if g = 2 ^ 64 - 1 then 0 else g + 1) = (g + 1) % 2 ^ 64 := by
    split
    · omega
    · exact (mod_eq_of_lt (by omega)).symm
  have hread : Block.readPayload u 0 = .ok (pay u.byte 0) := L.readPayload
  simp only [incrementGenerationCount, hread, L.generation, ok_bind, hnew]
  exact writePayload_eq L.bound_cell _

theorem checkLocked {l : Bool} (hg : (g % 2 == 1) = l) : Block.checkLocked u 0 l = .ok () := by
  have hread : Block.readPayload u 0 = .ok (pay u.byte 0) := L.readPayload
  simp only [Block.checkLocked, hread, L.generation, ok_bind, hg, if_true, except_pure]

theorem lockHeader (hg : g % 2 = 0) : Block.lockHeader u 0 = incrementGenerationCount u 0 := by
  simp only [Block.lockHeader, L.checkType (t := .header) rfl,
    L.checkLocked (l := false) (by simp [hg]), ok_bind]

theorem unlockHeader (hg : g % 2 = 1) : Block.unlockHeader u 0 = incrementGenerationCount u 0 := by
  simp only [Block.unlockHeader, L.checkType (t := .header) rfl,
    L.checkLocked (l := true) (by simp [hg]), ok_bind]

end Lock

end Lies

abbrev Roles := Nat → Option (Nat × Role)

def Roles.orders (R : Roles) : Used := fun i => (R i).map Prod.fst

variable {i k : Nat} {b : Role} {R : Roles}

theorem Roles.orders_eq_some (h : R i = some (k, b)) : R.orders i = some k := by
  simp [orders, h]

theorem Roles.orders_eq_none : R.orders i = none ↔ R i = none := by
  simp [orders]

theorem Roles.orders_update (R : Roles) (i : Nat) (v : Option (Nat × Role)) :
    Roles.orders (update R i v) = update R.orders i (v.map Prod.fst) := by
  funext j
  by_cases hj : j = i
  · subst j
    simp [orders]
  · simp [orders, hj]

/-- The memory of a heap on the mapping `m` is a heap of blocks with the roles `R`, and nothing
has been written behind its end. -/
structure View (m : Mapping) (h : Heap) (R : Roles) (F : Lists) : Prop where
  inv : HeapInv h R.orders F
  shows : ∀ {i k b}, R i = some (k, b) → Shows h.mapping.byte i k b
  len : h.mapping.len = m.len
  tail : ∀ x, h.currentSizeBytes ≤ x → h.mapping.byte x = m.byte x

namespace View
variable {m : Mapping} {h h' : Heap} {R : Roles} {F : Lists} {i j k l : Nat} {b : Role}

theorem starts (hi : R i = some (k, b)) : Starts R.orders F i k := .inl (Roles.orders_eq_some hi)

section
variable {w x : Nat} (hx : x < 16 * i ∨ 16 * i + 16 * 2 ^ k ≤ x)
include hx

theorem putHdr_out : (m.putHdr i w).byte x = m.byte x := by
  have hp := two_pow_pos k
  exact putHdr_byte (by omega)

theorem putPay_out : (m.putPay i w).byte x = m.byte x := by
  have hp := two_pow_pos k
  exact Mapping.putPay_byte (by omega)

end

theorem refers_valueWord {n p : Nat} (hn : n < 2 ^ 28) (hp : p < 2 ^ 28) (t : BlockType)
    (w x : Nat) : Role.Refers (hdr ((m.putHdr i (valueWord w t n p)).putPay i x).byte i) n p := by
  constructor
  · rw [hdr_putPay, hdr_putHdr_self, valueNameIndex_mod, valueNameIndex_valueWord,
      mod_eq_of_lt hn]
  · rw [hdr_putPay, hdr_putHdr_self, valueParentIndex_mod, valueParentIndex_valueWord,
      mod_eq_of_lt hp]

/-- The write `f` gives the block at `i` the role `c`. -/
def Becomes (m : Mapping) (h : Heap) (R : Roles) (F : Lists) (f : Mapping → Except Fault Mapping)
    (i k : Nat) (c : Role) : Prop :=
  ∃ h', Heap.onBlock f h = .ok () h' ∧ View m h' (update R i (some (k, c))) F ∧
    h'.currentSizeBytes = h.currentSizeBytes

variable (V : View m h R F)
include V

section
variable (hi : R i = some (k, b))
include hi

theorem bound : 16 * i + 16 * 2 ^ k ≤ h.mapping.len :=
  (V.inv.layout.bound (starts hi)).trans V.inv.layout.size_le

theorem bound_cell : 16 * i + 16 ≤ h.mapping.len :=
  V.inv.layout.bound_hdr (starts hi)

theorem index_lt : i < 2 ^ 28 :=
  V.inv.layout.index_lt (starts hi)

theorem order_lt : k < 8 :=
  V.inv.layout.tiles.order_lt (starts hi)

theorem set (c : Role) {u : Mapping} (hlen : u.len = h.mapping.len)
    (hout : ∀ x, x < 16 * i ∨ 16 * i + 16 * 2 ^ k ≤ x → u.byte x = h.mapping.byte x)
    (hs : Shows u.byte i k c) : View m (h.withMapping u) (update R i (some (k, c))) F := by
  have W : OwnerWrite h i (h.withMapping u) := by
    refine ⟨rfl, hlen, rfl, ?_, ?_, .inr ⟨c.type, c.type_ne_free, hs.type⟩⟩
    · intro x hx
      rw [V.inv.sizeAt_eq (starts hi)] at hx
      exact hout x hx
    · rw [V.inv.layout.starts_order (starts hi)]
      exact hs.order
  refine ⟨?_, ?_, hlen.trans V.len, ?_⟩
  · have horders : Roles.orders (update R i (some (k, c))) = R.orders := by
      rw [Roles.orders_update, Option.map_some, ← Roles.orders_eq_some hi, update_eq_self]
    rw [horders]
    exact V.inv.write (Roles.orders_eq_some hi) W
  · intro j l d hj
    rcases update_eq_some.mp hj with ⟨rfl, hd⟩ | ⟨hji, hj⟩
    · cases hd
      exact hs
    · have hd := V.inv.disjoint (starts hj) (starts hi) hji
      rw [V.inv.sizeAt_eq (starts hj), V.inv.sizeAt_eq (starts hi)] at hd
      exact (V.shows hj).congr fun x hl hr => hout x (by omega)
  · intro x hx
    have hb := V.inv.layout.bound (starts hi)
    exact (hout x (.inr (hb.trans hx))).trans (V.tail x hx)

end

theorem frame {R' : Roles} {F' : Lists} (I : HeapInv h' (Roles.orders R') F')
    (hf : Frame (Roles.orders R) h h')
    (hR : ∀ j l c, R' j = some (l, c) → R j = some (l, c) ∨ Shows h'.mapping.byte j l c) :
    View m h' R' F' := by
  refine ⟨I, ?_, hf.len.trans V.len, ?_⟩
  · intro j l c hj
    rcases hR j l c hj with hold | hnew
    · exact (V.shows hold).congr fun x hl hr => hf.bytes (Roles.orders_eq_some hold) hl hr
    · exact hnew
  · intro x hx
    exact (hf.tail hx).trans (V.tail x (hf.size.trans hx))

section Operations

theorem allocated {F' : Lists} (hal : Heap.Allocated h R.orders F k i h' F') :
    View m h' (update R i (some (k, .reserved))) F' := by
  refine V.frame ?_ hal.frame ?_
  · rw [Roles.orders_update]
    exact hal.inv
  · intro j l c hj
    rcases update_eq_some.mp hj with ⟨rfl, hc⟩ | ⟨-, hj⟩
    · cases hc
      exact .inr ⟨hal.inv.layout.used_order (update_self ..), hal.reserved, trivial⟩
    · exact .inl hj

theorem allocate (hpage : pageSizeBytes ∣ m.len)
    (hmax : min h.mapping.len (h.currentSizeBytes * 2) ≤ 2 ^ 32) {n : Nat} (h16 : 16 ≤ n)
    (hn : n ≤ 2048) :
    (∃ i h' F' k, Heap.allocateBlock n h = .ok i h' ∧ R i = none ∧ fitOrder n = .ok k ∧
      n ≤ 16 * 2 ^ k ∧ View m h' (update R i (some (k, .reserved))) F' ∧
      Heap.Allocated h R.orders F k i h' F' ∧ ¬ Heap.Exhausted h F n) ∨
    (∃ msg, Heap.allocateBlock n h = .error (.error msg) h ∧ Heap.Exhausted h F n) := by
  rcases Heap.allocateBlock_cases V.inv h16 (hn.trans (by decide)) (V.len ▸ hpage) hmax with
    ⟨i, h', F', k, hrun, hal, hfit, hle, hno⟩ | ⟨msg, hrun, hbig | hex⟩
  · exact .inl ⟨i, h', F', k, hrun, Roles.orders_eq_none.mp hal.fresh, hfit, hle, V.allocated hal,
      hal, fun hex => hno (.inr hex)⟩
  · omega
  · exact .inr ⟨msg, hrun, hex⟩

theorem free (hi : R i = some (k, b)) : ∃ h' F', Heap.freeBlock i h = .ok () h' ∧
    View m h' (update R i none) F' ∧ h'.currentSizeBytes = h.currentSizeBytes := by
  obtain ⟨h', F', hrun, hinv, hfr, hsize⟩ := Heap.freeBlock_ok V.inv (Roles.orders_eq_some hi)
  have horders : Roles.orders (update R i none) = update R.orders i none := by
    rw [Roles.orders_update, Option.map_none]
  rw [← horders] at hinv hfr
  refine ⟨h', F', hrun, ⟨hinv, ?_, hfr.len.trans V.len, ?_⟩, hsize⟩
  · intro j l c hj
    exact (V.shows (of_update_none hj).2).congr fun x hl hr => hfr.bytes
      (Roles.orders_eq_some hj) hl hr
  · intro x hx
    exact (hfr.tail hx).trans (V.tail x (hfr.size.trans hx))

end Operations

section Reads
variable (hi : R i = some (k, b))
include hi

theorem getBlock : Heap.getBlock h i = .ok i :=
  Heap.getBlock_ok V.inv.layout (starts hi)

theorem holds : Lies h.mapping i k b := ⟨V.shows hi, V.bound hi⟩

theorem readPayload : Block.readPayload h.mapping i = .ok (pay h.mapping.byte i) :=
  (V.holds hi).readPayload

theorem childCount {c : Nat} (hb : b.count = some c) : Block.childCount h.mapping i = .ok c := by
  rw [(V.holds hi).childCount, Role.countOr, hb]

end Reads

section Writes

variable {c : Role} {f : Mapping → Except Fault Mapping} {w e n p x l : Nat} {bytes : List UInt8}

section
variable (hi : R i = some (k, b))
include hi

theorem wrote {u : Mapping} (hf : f h.mapping = .ok u) (hlen : u.len = h.mapping.len)
    (hout : ∀ x, x < 16 * i ∨ 16 * i + 16 * 2 ^ k ≤ x → u.byte x = h.mapping.byte x)
    (hs : Shows u.byte i k c) : Becomes m h R F f i k c := by
  have hrun : Heap.onBlock f h = .ok () (h.withMapping u) := by simp only [Heap.onBlock, writing, hf]
  exact ⟨_, hrun, V.set hi c hlen hout hs, rfl⟩

theorem wroteHdr (hf : f h.mapping = .ok (h.mapping.putHdr i w))
    (ho : BlockHeader.order w = BlockHeader.order (h.hdr i))
    (ht : BlockHeader.blockType w = c.type.toU8) (hb : c.Body (h.mapping.putHdr i w).byte i k) :
    Becomes m h R F f i k c := by
  refine V.wrote hi hf rfl (fun x => putHdr_out) ⟨?_, ?_, hb⟩
  · rw [hdr_putHdr_self, order_mod, ho]
    exact (V.shows hi).order
  · rw [hdr_putHdr_self, blockType_mod, ht]

/-- The body may refer to the header, which stays, and to the new payload. -/
theorem wrotePay (hf : f h.mapping = .ok (h.mapping.putPay i w)) (ht : c.type = b.type)
    (hb : ∀ byte, hdr byte i = hdr h.mapping.byte i → pay byte i = w % 2 ^ 64 → c.Body byte i k) :
    Becomes m h R F f i k c := by
  refine V.wrote hi hf rfl (fun x => putPay_out) ⟨?_, ?_, hb _ (hdr_putPay ..) (pay_putPay_self ..)⟩
  · rw [hdr_putPay]
    exact (V.shows hi).order
  · rw [hdr_putPay, ht]
    exact (V.shows hi).type

end

theorem becomeExtent (hi : R i = some (k, .reserved)) {next : Nat} (hn : next < 2 ^ 28) :
    ∃ bytes, Becomes m h R F (Block.becomeExtent · i next) i k (.extent next bytes) := by
  have hb := V.bound_cell hi
  have hf := Block.becomeExtent_eq (m := h.mapping) (i := i) (by omega) (V.shows hi).type next
  refine ⟨_, V.wroteHdr hi hf (order_extentWord _ _) (blockType_extentWord _ _) ⟨?_, rfl⟩⟩
  rw [hdr_putHdr_self, extentNextIndex_mod, Block.extentWord, extentNextIndex_setExtentNextIndex,
    mod_eq_of_lt hn]

theorem setExtentNextIndex (hi : R i = some (k, .extent e bytes)) (next : Nat) :
    Becomes m h R F (Block.setExtentNextIndex · i next) i k (.extent (next % 2 ^ 28) bytes) := by
  have hb := V.bound_cell hi
  have hf : Block.setExtentNextIndex h.mapping i next = _ :=
    Block.rewriteHeader_eq (by omega) (V.shows hi).type (BlockHeader.setExtentNextIndex · next)
  have hold := (V.shows hi).body.2
  refine V.wroteHdr hi hf (order_setExtentNextIndex _ _) ?_ ⟨?_, ?_⟩
  · rw [blockType_setExtentNextIndex]
    exact (V.shows hi).type
  · rw [hdr_putHdr_self, extentNextIndex_mod, extentNextIndex_setExtentNextIndex]
  · rw [← hold]
    exact bytesAt_congr fun x hl _ => putHdr_byte (by omega)

theorem setContents (hi : R i = some (k, .extent e bytes)) (value : List UInt8) :
    ∃ h', State.setContents i value h = .ok (min bytes.length value.length) h' ∧
      View m h' (update R i (some (k, .extent e
        (value.take bytes.length ++ bytes.drop (min bytes.length value.length))))) F ∧
      h'.currentSizeBytes = h.currentSizeBytes := by
  have hold := (V.shows hi).body
  have hlen : bytes.length = payloadSizeForOrder k := by rw [← hold.2, bytesAt_length]
  have hsize := payloadSizeForOrder_eq k
  have hp := two_pow_pos k
  have hb := V.bound hi
  have htake : (value.take (payloadSizeForOrder k)).length = min bytes.length value.length := by
    rw [length_take, hlen]
  have hw : Block.writePayloadFromBytes h.mapping i (value.take (payloadSizeForOrder k)) = .ok
      (h.mapping.put (16 * i + 8) (value.take (payloadSizeForOrder k))) :=
    Block.writePayloadFromBytes_eq (by omega)
  refine ⟨h.withMapping (h.mapping.put (16 * i + 8) (value.take (payloadSizeForOrder k))), ?_, ?_,
    rfl⟩
  · simp only [State.setContents, Block.extentSetContents, (V.holds hi).checkType (t := .extent) rfl,
      (V.holds hi).order, ok_bind, hw, except_pure, htake]
  · refine V.set hi _ rfl ?_ ⟨?_, ?_, ?_, ?_⟩
    · exact fun x hx => put_byte_of_not_mem (by omega)
    · exact (congrArg BlockHeader.order (word_put_disjoint (by omega))).trans (V.shows hi).order
    · exact (congrArg BlockHeader.blockType (word_put_disjoint (by omega))).trans
        (V.shows hi).type
    · exact (congrArg extentNextIndex (word_put_disjoint (by omega))).trans hold.1
    · rw [Mapping.bytesAt_put_front (by omega), htake, hold.2, hlen]

theorem becomeName (hi : R i = some (k, .reserved)) (name : List UInt8) :
    Becomes m h R F (Block.becomeName · i name) i k (.name (name.take (payloadSizeForOrder k))) := by
  have hsize := payloadSizeForOrder_eq k
  have hp := two_pow_pos k
  have hb := V.bound hi
  have hk : 2 ^ k ≤ 2 ^ 7 := Nat.pow_le_pow_right (by decide) (Nat.le_of_lt_succ (V.order_lt hi))
  have hlen : (name.take (payloadSizeForOrder k)).length ≤ payloadSizeForOrder k :=
    length_take_le ..
  generalize hn : name.take (payloadSizeForOrder k) = bytes at hlen ⊢
  have hn' : name.take (payloadSizeForOrder (BlockHeader.order (hdr h.mapping.byte i))) = bytes := by
    rw [← hn]
    exact congrArg (fun l => name.take (payloadSizeForOrder l)) (V.shows hi).order
  have hf := Block.becomeName_eq (m := h.mapping) (i := i) hn' (by omega) (V.shows hi).type
  have hhdr : hdr ((h.mapping.putHdr i (nameWord (h.hdr i) bytes.length)).put (16 * i + 8)
      bytes).byte i = nameWord (h.hdr i) bytes.length % 2 ^ 64 :=
    (word_put_disjoint (by omega)).trans (hdr_putHdr_self ..)
  refine V.wrote hi hf rfl ?_ ⟨?_, ?_, ?_, hlen, ?_⟩
  · intro x hx
    exact (put_byte_of_not_mem (by omega)).trans (putHdr_out hx)
  · rw [hhdr, order_mod, order_nameWord]
    exact (V.shows hi).order
  · rw [hhdr, blockType_mod, blockType_nameWord]
    rfl
  · rw [hhdr, nameLength_mod, nameLength_nameWord, mod_eq_of_lt (by omega)]
  · exact Mapping.bytesAt_put_self ..

section Values
variable {n p : Nat}

variable (hi : R i = some (k, .reserved))
include hi

variable {t : BlockType}

theorem wroteValue {c : Role} {f : Mapping → Except Fault Mapping} {x : Nat}
    (hf : f h.mapping = .ok ((h.mapping.putHdr i (valueWord (h.hdr i) t n p)).putPay i x))
    (ht : c.type = t)
    (hb : c.Body ((h.mapping.putHdr i (valueWord (h.hdr i) t n p)).putPay i x).byte i k) :
    Becomes m h R F f i k c := by
  refine V.wrote hi hf rfl (fun x hx => (putPay_out hx).trans (putHdr_out hx)) ⟨?_, ?_, hb⟩
  · rw [hdr_putPay, hdr_putHdr_self, order_mod, order_valueWord]
    exact (V.shows hi).order
  · rw [hdr_putPay, hdr_putHdr_self, blockType_mod, blockType_valueWord, ht]

theorem writeValueHeader (ht : t.isAnyValue = true) (n p : Nat) :
    Block.writeValueHeader h.mapping i t n p =
      .ok (h.mapping.putHdr i (valueWord (h.hdr i) t n p)) := by
  have hb := V.bound_cell hi
  exact Block.writeValueHeader_eq ht (by omega) (V.shows hi).type n p

theorem becomeNode (hn : n < 2 ^ 28) (hp : p < 2 ^ 28) :
    Becomes m h R F (Block.becomeNode · i n p) i k (.node n p 0) := by
  refine V.wroteValue hi (t := .nodeValue) (x := 0) ?_ rfl
    ⟨refers_valueWord hn hp _ _ _, ?_⟩
  · simp only [Block.becomeNode, V.writeValueHeader hi (t := .nodeValue) rfl, ok_bind]
    exact writePayload_eq (m := h.mapping.putHdr i _) (V.bound_cell hi) 0
  · rw [pay_putPay_self, Nat.zero_mod]

theorem becomeNumericValue (t : Number) (x : Nat) (hn : n < 2 ^ 28) (hp : p < 2 ^ 28) :
    Becomes m h R F (Block.becomeNumericValue t.type · i x n p) i k (.number t n p (x % 2 ^ 64)) := by
  have ht : t.type.isAnyValue = true := by cases t <;> rfl
  have hb := V.bound_cell hi
  have hct : Block.checkType (h.mapping.putHdr i (valueWord (h.hdr i) t.type n p)) i t.type =
      .ok () := Block.checkType_eq (s := h.mapping.putHdr i _)
    (by simp only [ReadableBlockContainer.len, Mapping.putHdr_len]; omega)
    (by simp only [ReadableBlockContainer.byte, hdr_putHdr_self, blockType_mod, blockType_valueWord])
  have hrp := Block.readPayload_eq (s := h.mapping.putHdr i (valueWord (h.hdr i) t.type n p))
    (i := i) hb
  refine V.wroteValue hi (t := t.type)
    (x := Payload.setNumericValue (pay (h.mapping.putHdr i (valueWord (h.hdr i) t.type n p)).byte i)
      x) ?_ rfl ⟨refers_valueWord hn hp _ _ _, ?_⟩
  · simp only [Block.becomeNumericValue, Block.setNumericValue, V.writeValueHeader hi ht,
      ok_bind, hct, hrp]
    exact writePayload_eq (m := h.mapping.putHdr i _) hb _
  · rw [pay_putPay_self, setNumericValue_mod]

theorem becomeProperty (f : PropertyFormat) (hn : n < 2 ^ 28) (hp : p < 2 ^ 28) :
    Becomes m h R F (Block.becomeProperty · i n p f) i k (.property f n p 0 0) := by
  have hword : Payload.setPropertyFlags 0 f.toU8 < 2 ^ 64 := by cases f <;> decide
  refine V.wroteValue hi (t := .propertyValue)
    (x := Payload.setPropertyFlags 0 f.toU8) ?_ rfl ⟨refers_valueWord hn hp _ _ _, ?_⟩
  · simp only [Block.becomeProperty, V.writeValueHeader hi (t := .propertyValue) rfl, ok_bind]
    exact writePayload_eq (m := h.mapping.putHdr i _) (V.bound_cell hi) _
  · rw [pay_putPay_self, mod_eq_of_lt hword]
    cases f <;> decide

theorem becomeArrayValue (t : Number)
    (f : ArrayFormat) {s : Nat} (hs : s < 2 ^ 8) (hsk : s ≤ arrayCapacity k) (hn : n < 2 ^ 28)
    (hp : p < 2 ^ 28) :
    ∃ data, Becomes m h R F (Block.becomeArrayValue · i s f t.type n p) i k
      (.array t f n p s data) := by
  have ht : t.type.isNumericValue = true := by cases t <;> rfl
  have hpay : ∀ m : Mapping, pay (m.putPay i (arrayWord t.type f s)).byte i =
      arrayWord t.type f s := fun m => by
    rw [pay_putPay_self, mod_eq_of_lt (arrayWord_lt s t.type f)]
  refine ⟨_, V.wroteValue hi (t := .arrayValue) (x := arrayWord t.type f s) ?_ rfl
    ⟨refers_valueWord hn hp _ _ _, ?_, ?_, ?_, hsk, rfl⟩⟩
  · simp only [Block.becomeArrayValue, ht, if_true, V.writeValueHeader hi (t := .arrayValue) rfl,
      ok_bind]
    exact writePayload_eq (m := h.mapping.putHdr i _) (V.bound_cell hi) _
  · rw [hpay, arrayEntryType_arrayWord]
  · rw [hpay, arrayFlags_arrayWord]
  · rw [hpay, arraySlotsCount_arrayWord, mod_eq_of_lt hs]

end Values

theorem setNumericValue {t : Number} (hi : R i = some (k, .number t n p x)) (y : Nat) :
    Becomes m h R F (Block.setNumericValue t.type · i y) i k (.number t n p (y % 2 ^ 64)) := by
  refine V.wrotePay hi (c := .number t n p _)
    (w := Payload.setNumericValue (pay h.mapping.byte i) y) ?_ rfl
    fun byte hhdr hpay => ⟨hhdr ▸ (V.shows hi).body.1, hpay.trans (setNumericValue_mod _ _)⟩
  simp only [Block.setNumericValue, (V.holds hi).checkType (t := t.type) rfl, V.readPayload hi,
    ok_bind]
  exact writePayload_eq (V.bound_cell hi) _

theorem setChildCount {c : Nat} (hi : R i = some (k, b)) (hb : b.count = some c)
    (hn : n < 2 ^ 64) : Becomes m h R F (Block.setChildCount · i n) i k (b.withCount n) := by
  obtain ⟨ht, -⟩ := (V.shows hi).counts hb
  have hbody := (V.shows hi).body
  refine V.wrotePay hi (w := n) ?_ ?_ fun byte hhdr hpay => ?_
  · simp only [Block.setChildCount, Block.checkNodeOrTombstone, (V.holds hi).blockType, ht,
      ok_bind, if_true, except_pure]
    exact writePayload_eq (V.bound_cell hi) _
  · cases b <;> rfl
  · rw [mod_eq_of_lt hn] at hpay
    cases b with
    | node => exact ⟨hhdr ▸ hbody.1, hpay⟩
    | tombstone => exact hpay
    | _ => cases hb

theorem becomeTombstone {c : Nat} (hi : R i = some (k, .node n p c)) :
    Becomes m h R F (Block.becomeTombstone · i) i k (.tombstone c) := by
  have hb := V.bound_cell hi
  refine V.wroteHdr hi (Block.rewriteHeader_eq (by omega) (V.shows hi).type
    (setBlockType · BlockType.tombstone.toU8))
    (order_setBlockType _ _) (blockType_setBlockType _ .tombstone) ?_
  rw [Role.Body, Mapping.pay_putHdr]
  exact (V.shows hi).body.2

section
variable {f : PropertyFormat} (hi : R i = some (k, .property f n p l e))
include hi

theorem setPropertyTotalLength (hx : x < 2 ^ 32) :
    Becomes m h R F (Block.setPropertyTotalLength · i x) i k (.property f n p x e) := by
  obtain ⟨hr, hf, -, he⟩ := (V.shows hi).body
  refine V.wrotePay hi (c := .property f n p x e)
    (w := Payload.setPropertyTotalLength (pay h.mapping.byte i) x) ?_ rfl
    fun byte hhdr hpay => ⟨hhdr ▸ hr, ?_⟩
  · simp only [Block.setPropertyTotalLength, (V.holds hi).checkType (t := .propertyValue) rfl,
      V.readPayload hi, ok_bind]
    exact writePayload_eq (V.bound_cell hi) _
  · simp (disch := decide) only [hpay, Payload.propertyFlags, Payload.propertyTotalLength,
      Payload.propertyExtentIndex, Payload.setPropertyTotalLength, bits_mod,
      bits_setBits_above, bits_setBits_self, mod_eq_of_lt hx]
    exact ⟨hf, trivial, he⟩

theorem setPropertyExtentIndex (hx : x < 2 ^ 28) :
    Becomes m h R F (Block.setPropertyExtentIndex · i x) i k (.property f n p l x) := by
  obtain ⟨hr, hf, hl, -⟩ := (V.shows hi).body
  refine V.wrotePay hi (c := .property f n p l x)
    (w := Payload.setPropertyExtentIndex (pay h.mapping.byte i) x) ?_ rfl
    fun byte hhdr hpay => ⟨hhdr ▸ hr, ?_⟩
  · simp only [Block.setPropertyExtentIndex, (V.holds hi).checkType (t := .propertyValue) rfl,
      V.readPayload hi, ok_bind]
    exact writePayload_eq (V.bound_cell hi) _
  · simp (disch := decide) only [hpay, Payload.propertyFlags, Payload.propertyTotalLength,
      Payload.propertyExtentIndex, Payload.setPropertyExtentIndex, bits_mod,
      bits_setBits_above, LittleEndian.bits_setBits_below, bits_setBits_self,
      mod_eq_of_lt hx]
    exact ⟨hf, hl, trivial⟩

end

section Arrays
variable {t : Number} {f : ArrayFormat} {n p s : Nat} {data : List Nat}

variable (hi : R i = some (k, .array t f n p s data))
include hi

theorem data_length : data.length = arrayCapacity k := by
  obtain ⟨-, -, -, -, -, hd⟩ := (V.shows hi).body
  simp [← hd, slotsAt]

variable {slot : Nat}

theorem arrayGetSlot (hslot : slot < arrayCapacity k) :
    Block.arrayGetSlot t.type h.mapping i slot = .ok (data.getD slot 0) := by
  obtain ⟨-, -, -, -, -, hd⟩ := (V.shows hi).body
  rw [(V.holds hi).arrayGetSlot hslot, ← hd, slotsAt, getD_eq_getElem _ _ (by simpa using hslot),
    getElem_map, getElem_range]
  rfl

theorem arraySetSlot (hslot : slot < arrayCapacity k) (x : Nat) :
    Becomes m h R F (Block.arraySetSlot t.type · i slot x) i k
      (.array t f n p s (data.set slot (x % 2 ^ 64))) := by
  have hb := V.bound hi
  have hcap := arrayCapacity_eq k
  have hp := two_pow_pos k
  obtain ⟨hr, ht, hf, hs, hle, hd⟩ := (V.shows hi).body
  have hlen : (toLe 8 x).length = 8 := toLe_length 8 x
  have hhdr : hdr (h.mapping.put (16 * i + 16 + 8 * slot) (toLe 8 x)).byte i = h.hdr i :=
    word_put_disjoint (by omega)
  have hpay : pay (h.mapping.put (16 * i + 16 + 8 * slot) (toLe 8 x)).byte i =
      pay h.mapping.byte i := word_put_disjoint (by omega)
  refine V.wrote hi (c := .array t f n p s _)
    (u := h.mapping.put (16 * i + 16 + 8 * slot) (toLe 8 x)) ?_ rfl ?_ ⟨?_, ?_, ?_⟩
  · simp only [Block.arraySetSlot, (V.holds hi).checkArrayEntryType, (V.holds hi).checkSlot,
      if_neg (Nat.not_lt_of_lt hslot), if_true, slotOffset_eq, ok_bind]
    exact Mapping.writeBytes_eq (by omega)
  · exact fun y hy => put_byte_of_not_mem (by omega)
  · rw [hhdr]
    exact (V.shows hi).order
  · rw [hhdr]
    exact (V.shows hi).type
  · rw [Role.Body, hhdr, hpay]
    refine ⟨hr, ht, hf, hs, hle, ?_⟩
    rw [← hd]
    refine ext_getElem (by simp [slotsAt]) fun j h1 h2 => ?_
    rw [getElem_set]
    simp only [slotsAt, getElem_map, getElem_range]
    split
    · subst j
      exact Mapping.word_put_self ..
    · exact word_put_disjoint (by omega)

end Arrays

section Lock
variable {g : Nat} (hi : R 0 = some (0, .header g))
include hi

theorem increment (hf : f h.mapping = incrementGenerationCount h.mapping 0) :
    Becomes m h R F f 0 0 (.header ((g + 1) % 2 ^ 64)) := by
  refine V.wrotePay hi (hf.trans (V.holds hi).increment) rfl fun byte hhdr hpay =>
    ⟨hhdr.trans (V.shows hi).body.1, ?_⟩
  rw [hpay]
  exact (setNumericValue_mod _ _).trans (Nat.mod_mod _ _)

theorem lockHeader (hg : g % 2 = 0) :
    Becomes m h R F (Block.lockHeader · headerIndex) 0 0 (.header ((g + 1) % 2 ^ 64)) :=
  V.increment hi ((V.holds hi).lockHeader hg)

theorem unlockHeader (hg : g % 2 = 1) :
    Becomes m h R F (Block.unlockHeader · headerIndex) 0 0 (.header ((g + 1) % 2 ^ 64)) :=
  V.increment hi ((V.holds hi).unlockHeader hg)

end Lock

end Writes

end View

end Garnet.Inspect
