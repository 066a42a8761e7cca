import Garnet.Inspect.Block
import Mathlib.Tactic.NormNum

/-! What the block accessors read and write, in terms of the words of the memory.
Inside the mapping no accessor panics on its offset, so each one is an equation. -/

namespace Garnet.Inspect
open List
open LittleEndian
open BlockType (extent free reserved)

/-- The `n` bytes at address `a`. -/
def bytesAt (byte : Nat → UInt8) (a n : Nat) : List UInt8 := (List.range n).map fun j => byte (a + j)

@[simp] theorem bytesAt_length (byte : Nat → UInt8) (a n : Nat) :
    (bytesAt byte a n).length = n := by
  simp [bytesAt]

variable {f g : Nat → UInt8} {a n : Nat}

theorem bytesAt_congr (h : ∀ x, a ≤ x → x < a + n → f x = g x) : bytesAt f a n = bytesAt g a n := by
  apply map_congr_left
  intro j hj
  have := mem_range.mp hj
  exact h _ (by omega) (by omega)

theorem bytesAt_add (byte : Nat → UInt8) (a n k : Nat) :
    bytesAt byte a (n + k) = bytesAt byte a n ++ bytesAt byte (a + n) k := by
  simp only [bytesAt, range_add, map_append, map_map]
  congr 1
  apply map_congr_left
  intro j _
  simp [add_assoc]

/-- The little-endian 64-bit word at address `a`. -/
@[irreducible] def word (byte : Nat → UInt8) (a : Nat) : Nat := ofLe (bytesAt byte a 8)

theorem word_lt (byte : Nat → UInt8) (a : Nat) : word byte a < 2 ^ 64 := by
  have h := ofLe_lt (bytesAt byte a 8)
  rw [bytesAt_length] at h
  rw [word]
  exact h

theorem word_congr (h : ∀ x, a ≤ x → x < a + 8 → f x = g x) : word f a = word g a := by
  rw [word, word, bytesAt_congr h]

def hdr (byte : Nat → UInt8) (i : Nat) : Nat := word byte (16 * i)

def pay (byte : Nat → UInt8) (i : Nat) : Nat := word byte (16 * i + 8)

theorem bits_mod {lo width : Nat} (h : lo + width ≤ n) (w : Nat) :
    bits (w % 2 ^ n) lo width = bits w lo width := by
  rw [bits_eq_mod, bits_eq_mod, Nat.mod_mod_of_dvd _ (pow_dvd_pow 2 h)]

namespace Mapping

def put (m : Mapping) (a : Nat) (bytes : List UInt8) : Mapping :=
  ⟨m.len, fun x => if a ≤ x ∧ x < a + bytes.length then bytes.getD (x - a) 0 else m.byte x⟩

@[simp] theorem put_len (m : Mapping) (a : Nat) (bytes : List UInt8) : (m.put a bytes).len =
    m.len := rfl

variable {m : Mapping} {a x b n i w : Nat} {bytes : List UInt8}

theorem writeBytes_eq (h : a + bytes.length ≤ m.len) :
    m.writeBytes a bytes = .ok (m.put a bytes) := by
  have hmin : min bytes.length (m.len - a) = bytes.length := by omega
  simp only [writeBytes, put, hmin, if_neg (by omega : ¬ m.len < a)]

theorem put_byte_of_not_mem (h : x < a ∨ a + bytes.length ≤ x) :
    (m.put a bytes).byte x = m.byte x := by
  simp only [put]
  rw [if_neg (by omega)]

theorem bytesAt_put_self (m : Mapping) (a : Nat) (bytes : List UInt8) :
    bytesAt (m.put a bytes).byte a bytes.length = bytes := by
  apply ext_getElem
  · simp
  · intro j h1 h2
    simp [bytesAt, put, h2]

theorem bytesAt_put_disjoint (h : b + n ≤ a ∨ a + bytes.length ≤ b) :
    bytesAt (m.put a bytes).byte b n = bytesAt m.byte b n :=
  bytesAt_congr fun x h1 h2 => put_byte_of_not_mem (by omega)

theorem bytesAt_put_front (h : bytes.length ≤ n) :
    bytesAt (m.put a bytes).byte a n = bytes ++ (bytesAt m.byte a n).drop bytes.length := by
  obtain ⟨d, rfl⟩ := Nat.le.dest h
  rw [bytesAt_add, bytesAt_put_self, bytesAt_put_disjoint (.inr (le_refl _)),
    bytesAt_add m.byte, drop_left' (bytesAt_length ..)]

/-- The memory after the header word of the block at `i` is written. -/
def putHdr (m : Mapping) (i w : Nat) : Mapping := m.put (16 * i) (toLe 8 w)

/-- The memory after the payload word of the block at `i` is written. -/
def putPay (m : Mapping) (i w : Nat) : Mapping := m.put (16 * i + 8) (toLe 8 w)

@[simp] theorem putHdr_len (m : Mapping) (i w : Nat) : (m.putHdr i w).len = m.len := rfl

@[simp] theorem putPay_len (m : Mapping) (i w : Nat) : (m.putPay i w).len = m.len := rfl

theorem word_put_self (m : Mapping) (a w : Nat) :
    word (m.put a (toLe 8 w)).byte a = w % 2 ^ 64 := by
  have h := bytesAt_put_self m a (toLe 8 w)
  rw [toLe_length] at h
  rw [word, h, ofLe_toLe]
  norm_num

theorem word_put_disjoint (h : b + 8 ≤ a ∨ a + bytes.length ≤ b) :
    word (m.put a bytes).byte b = word m.byte b := by
  rw [word, word, bytesAt_put_disjoint h]

theorem hdr_putHdr (m : Mapping) (i w j : Nat) :
    hdr (m.putHdr i w).byte j = if j = i then w % 2 ^ 64 else hdr m.byte j := by
  split
  · rename_i h
    subst h
    exact word_put_self m _ w
  · exact word_put_disjoint (by rw [toLe_length]; omega)

theorem hdr_putHdr_self (m : Mapping) (i w : Nat) :
    hdr (m.putHdr i w).byte i = w % 2 ^ 64 := by rw [hdr_putHdr, if_pos rfl]

theorem hdr_putHdr_ne {j : Nat} (h : j ≠ i) (w : Nat) :
    hdr (m.putHdr i w).byte j = hdr m.byte j := by rw [hdr_putHdr, if_neg h]

@[simp] theorem pay_putHdr (m : Mapping) (i w j : Nat) : pay (m.putHdr i w).byte j = pay m.byte j :=
  word_put_disjoint (by rw [toLe_length]; omega)

@[simp] theorem hdr_putPay (m : Mapping) (i w j : Nat) : hdr (m.putPay i w).byte j = hdr m.byte j :=
  word_put_disjoint (by rw [toLe_length]; omega)

theorem pay_putPay (m : Mapping) (i w j : Nat) :
    pay (m.putPay i w).byte j = if j = i then w % 2 ^ 64 else pay m.byte j := by
  split
  · rename_i h
    subst h
    exact word_put_self m _ w
  · exact word_put_disjoint (by rw [toLe_length]; omega)

theorem pay_putPay_self (m : Mapping) (i w : Nat) :
    pay (m.putPay i w).byte i = w % 2 ^ 64 := by rw [pay_putPay, if_pos rfl]

theorem putHdr_byte (h : x < 16 * i ∨ 16 * i + 8 ≤ x) : (m.putHdr i w).byte x = m.byte x :=
  put_byte_of_not_mem (by rw [toLe_length]; exact h)

theorem putPay_byte (h : x < 16 * i + 8 ∨ 16 * i + 16 ≤ x) : (m.putPay i w).byte x = m.byte x :=
  put_byte_of_not_mem (by rw [toLe_length]; exact h)

end Mapping

section Sizes

theorem offsetForIndex_eq (i : Nat) : offsetForIndex i = 16 * i := mul_comm i 16

theorem orderToSize_eq (k : Nat) : orderToSize k = 16 * 2 ^ k := by
  simp [orderToSize, Nat.shiftLeft_eq]

theorem payloadSizeForOrder_eq (k : Nat) : payloadSizeForOrder k = 16 * 2 ^ k - 8 := by
  simp [payloadSizeForOrder, orderToSize_eq]

theorem indexForOffset_eq {a : Nat} (h : a < 2 ^ 36) : indexForOffset a = .ok (a / 16) := by
  rw [indexForOffset, if_pos (by simp only [minOrderSize]; omega)]

theorem indexForOffset_orderToSize {k : Nat} (h : k < 16) :
    indexForOffset (orderToSize k) = .ok (2 ^ k) := by
  have hk : 2 ^ k < 2 ^ 16 := Nat.pow_lt_pow_right (by decide) h
  rw [orderToSize_eq, indexForOffset_eq (by omega), Nat.mul_div_cancel_left _ (by decide)]

theorem fitOrder_spec {n : Nat} (h : 16 ≤ n) (hn : n ≤ 2 ^ 64) :
    ∃ k, fitOrder n = .ok k ∧ n ≤ 16 * 2 ^ k ∧ ∀ l < k, 16 * 2 ^ l < n := by
  have hne : n - 1 ≠ 0 := by omega
  have hlog : n - 1 < 2 ^ ((n - 1).log2 + 1) := Nat.lt_log2_self
  have hself : 2 ^ (n - 1).log2 ≤ n - 1 := Nat.log2_self_le hne
  have h63 : (n - 1).log2 < 64 := (Nat.log2_lt hne).mpr (by omega)
  have h3 : 3 ≤ (n - 1).log2 := (Nat.le_log2 hne).mpr (by omega)
  have hused : 64 - leadingZeros (n - 1) = (n - 1).log2 + 1 := by
    simp only [leadingZeros, if_neg hne]
    omega
  obtain ⟨d, hd⟩ := Nat.le.dest h3
  refine ⟨(n - 1).log2 + 1 - 4, ?_, ?_, ?_⟩
  · simp only [fitOrder, if_neg (by omega : ¬ n = 0), hused, minOrderShift]
    rw [if_neg (by omega)]
  · have he : (n - 1).log2 + 1 = 4 + ((n - 1).log2 + 1 - 4) := by omega
    rw [he, pow_add] at hlog
    omega
  · intro l hl
    have hle : 2 ^ (4 + l) ≤ 2 ^ (n - 1).log2 := Nat.pow_le_pow_right (by decide) (by omega)
    rw [pow_add] at hle
    omega

end Sizes

variable (w next : Nat)

namespace Block
variable {c : Type} [ReadableBlockContainer c] {s : c} {i : Nat}
open ReadableBlockContainer (byte len readBytes)

theorem readBytes_eq {a n : Nat} (h : a + n ≤ len s) :
    readBytes s a n = .ok (bytesAt (byte s) a n) :=
  ReadableBlockContainer.readBytes_of_le s a n h

theorem readHeader_eq (h : 16 * i + 8 ≤ len s) : readHeader s i = .ok (hdr (byte s) i) := by
  simp only [readHeader, headerOffset, offsetForIndex_eq]
  rw [readBytes_eq h, hdr, word]
  rfl

theorem readPayload_eq (h : 16 * i + 16 ≤ len s) : readPayload s i = .ok (pay (byte s) i) := by
  simp only [readPayload, payloadOffset, offsetForIndex_eq]
  rw [readBytes_eq (by simpa using h), pay, word]
  rfl

section
variable (h : 16 * i + 8 ≤ len s)
include h

theorem order_eq : order s i = .ok (BlockHeader.order (hdr (byte s) i)) := by
  simp only [order, readHeader_eq h, ok_bind, except_pure]

variable {t : BlockType}

variable (ht : BlockHeader.blockType (hdr (byte s) i) = t.toU8)
include ht

theorem blockType_eq : blockType s i = .ok t := by
  simp only [blockType, readHeader_eq h, ok_bind, ht, BlockType.fromU8_toU8, except_pure]

theorem checkType_eq : checkType s i t = .ok () := by
  simp only [checkType, blockType_eq h ht, ok_bind, if_true, except_pure]

theorem headerField_eq {field : Nat → Nat} :
    headerField t field s i = .ok (field (hdr (byte s) i)) := by
  simp only [headerField, checkType_eq h ht, readHeader_eq h, ok_bind, except_pure]

end

theorem payloadField_eq {t : BlockType} {field : Nat → Nat} (h : 16 * i + 16 ≤ len s)
    (ht : BlockHeader.blockType (hdr (byte s) i) = t.toU8) :
    payloadField t field s i = .ok (field (pay (byte s) i)) := by
  simp only [payloadField, checkType_eq (by omega) ht, readPayload_eq h, ok_bind, except_pure]

section Writers
variable {m : Mapping}

theorem writeHeader_eq (h : 16 * i + 8 ≤ m.len) (w : Nat) :
    writeHeader m i w = .ok (m.putHdr i w) := by
  simp only [writeHeader, headerOffset, offsetForIndex_eq, Mapping.putHdr]
  exact Mapping.writeBytes_eq (by rw [toLe_length]; exact h)

theorem writePayloadFromBytes_eq {bytes : List UInt8} (h : 16 * i + 8 + bytes.length ≤ m.len) :
    writePayloadFromBytes m i bytes = .ok (m.put (16 * i + 8) bytes) := by
  simp only [writePayloadFromBytes, payloadOffset, offsetForIndex_eq, headerSizeBytes]
  exact Mapping.writeBytes_eq h

theorem writePayload_eq (h : 16 * i + 16 ≤ m.len) (w : Nat) :
    writePayload m i w = .ok (m.putPay i w) :=
  writePayloadFromBytes_eq (by rw [toLe_length]; omega)

theorem setOrder_eq {k : Nat} (h : 16 * i + 8 ≤ m.len) (hk : k < numOrders) :
    setOrder m i k = .ok (m.putHdr i (BlockHeader.setOrder (hdr m.byte i) k)) := by
  simp only [setOrder, if_neg (Nat.not_le_of_lt hk), readHeader_eq (s := m) h, ok_bind]
  exact writeHeader_eq h _

/-- The header word that `become_free` writes. -/
def freeWord : Nat :=
  BlockHeader.setFreeNextIndex (BlockHeader.setBlockType w BlockType.free.toU8) next

section
variable (h : 16 * i + 8 ≤ m.len)
include h

theorem becomeFree_eq (next : Nat) :
    becomeFree m i next = .ok (m.putHdr i (freeWord (hdr m.byte i) next)) := by
  simp only [becomeFree, readHeader_eq (s := m) h, ok_bind]
  exact writeHeader_eq h _

theorem newFree_eq {k : Nat} (hk : k < numOrders) (next : Nat) :
    newFree m i k next = .ok (m.putHdr i (freeWord (BlockHeader.setOrder 0 k) next)) := by
  simp only [newFree, if_neg (Nat.not_le_of_lt hk)]
  exact writeHeader_eq h _

variable {t : BlockType} (ht : BlockHeader.blockType (hdr m.byte i) = t.toU8)
include ht

theorem rewriteHeader_eq (f : Nat → Nat) : (do
    checkType m i t
    let header ← readHeader m i
    writeHeader m i (f header)) = .ok (m.putHdr i (f (hdr m.byte i))) := by
  simp only [checkType_eq (s := m) h ht, readHeader_eq (s := m) h, ok_bind]
  exact writeHeader_eq h _

end

theorem becomeReserved_eq (h : 16 * i + 8 ≤ m.len)
    (ht : BlockHeader.blockType (hdr m.byte i) = free.toU8) :
    becomeReserved m i = .ok (m.putHdr i (BlockHeader.setBlockType (hdr m.byte i) reserved.toU8)) :=
  rewriteHeader_eq h ht _

/-- The header word that `write_value_header` writes. -/
def valueWord (w : Nat) (type : BlockType) (nameIndex parentIndex : Nat) : Nat :=
  BlockHeader.setValueParentIndex (BlockHeader.setValueNameIndex
    (BlockHeader.setBlockType w type.toU8) nameIndex) parentIndex

theorem writeValueHeader_eq {t : BlockType} (ht : t.isAnyValue = true) (h : 16 * i + 8 ≤ m.len)
    (hr : BlockHeader.blockType (hdr m.byte i) = reserved.toU8) (n p : Nat) :
    writeValueHeader m i t n p = .ok (m.putHdr i (valueWord (hdr m.byte i) t n p)) := by
  rw [writeValueHeader, if_pos ht]
  exact rewriteHeader_eq h hr (valueWord · t n p)

/-- The header word that `become_extent` writes. -/
def extentWord : Nat :=
  BlockHeader.setExtentNextIndex (BlockHeader.setBlockType w BlockType.extent.toU8) next

theorem becomeExtent_eq (h : 16 * i + 8 ≤ m.len)
    (hr : BlockHeader.blockType (hdr m.byte i) = reserved.toU8) (next : Nat) :
    becomeExtent m i next = .ok (m.putHdr i (extentWord (hdr m.byte i) next)) :=
  rewriteHeader_eq h hr (extentWord · next)

/-- The header word that `become_name` writes. -/
def nameWord (w length : Nat) : Nat :=
  BlockHeader.setNameLength (BlockHeader.setBlockType w BlockType.name.toU8) length

/-- The payload word that `become_array_value` writes. -/
def arrayWord (entryType : BlockType) (format : ArrayFormat) (slots : Nat) : Nat :=
  Payload.setArraySlotsCount (Payload.setArrayFlags
    (Payload.setArrayEntryType 0 entryType.toU8) format.toU8) slots

theorem becomeName_eq {name bytes : List UInt8}
    (hn : name.take (payloadSizeForOrder (BlockHeader.order (hdr m.byte i))) = bytes)
    (h : 16 * i + 8 + bytes.length ≤ m.len)
    (hr : BlockHeader.blockType (hdr m.byte i) = reserved.toU8) :
    becomeName m i name =
      .ok ((m.putHdr i (nameWord (hdr m.byte i) bytes.length)).put (16 * i + 8) bytes) := by
  have hb : 16 * i + 8 ≤ m.len := by omega
  have horder : order m i = .ok (BlockHeader.order (hdr m.byte i)) := order_eq (s := m) hb
  have hread : readHeader m i = .ok (hdr m.byte i) := readHeader_eq (s := m) hb
  simp only [becomeName, checkType_eq (s := m) hb hr, horder, hread, ok_bind, hn]
  rw [writeHeader_eq hb, ok_bind]
  exact writePayloadFromBytes_eq h

end Writers

end Block

/-! Fields of the words that are written. A word in memory is cut to 64 bits, which no field
sees. -/
namespace BlockHeader

@[simp] theorem order_mod (w : Nat) : order (w % 2 ^ 64) = order w := bits_mod (by decide) w

@[simp] theorem blockType_mod (w : Nat) : blockType (w % 2 ^ 64) = blockType w :=
  bits_mod (by decide) w

@[simp] theorem freeNextIndex_mod (w : Nat) : freeNextIndex (w % 2 ^ 64) = freeNextIndex w :=
  bits_mod (by decide) w

theorem freeNextIndex_lt (w : Nat) : freeNextIndex w < 2 ^ 28 := bits_lt w 8 28

theorem order_setOrder {k : Nat} (h : k < 16) (w : Nat) : order (setOrder w k) = k := by
  rw [order, setOrder, bits_setBits_self]
  exact Nat.mod_eq_of_lt h

@[simp] theorem order_setBlockType (w t : Nat) : order (setBlockType w t) = order w :=
  bits_setBits_below (by decide) w t

@[simp] theorem blockType_setBlockType (w : Nat) (t : BlockType) :
    blockType (setBlockType w t.toU8) = t.toU8 := by
  rw [blockType, setBlockType, bits_setBits_self]
  exact Nat.mod_eq_of_lt t.toU8_lt

@[simp] theorem order_setFreeNextIndex (w v : Nat) : order (setFreeNextIndex w v) = order w :=
  bits_setBits_below (by decide) w v

@[simp] theorem blockType_setFreeNextIndex (w v : Nat) :
    blockType (setFreeNextIndex w v) = blockType w :=
  bits_setBits_below (by decide) w v

theorem freeNextIndex_setFreeNextIndex (w v : Nat) :
    freeNextIndex (setFreeNextIndex w v) = v % 2 ^ 28 := by
  rw [freeNextIndex, setFreeNextIndex, bits_setBits_self]

end BlockHeader

open BlockHeader
open Block (freeWord valueWord extentWord nameWord arrayWord)

section Fields
variable (w n p : Nat) (t : BlockType)

@[simp] theorem order_valueWord : order (valueWord w t n p) = order w := by
  simp (disch := decide) only [order, valueWord, setValueParentIndex, setValueNameIndex,
    setBlockType, bits_setBits_below]

@[simp] theorem blockType_valueWord : blockType (valueWord w t n p) = t.toU8 := by
  simp (disch := decide) only [blockType, valueWord, setValueParentIndex, setValueNameIndex,
    setBlockType, bits_setBits_below, bits_setBits_self]
  exact Nat.mod_eq_of_lt t.toU8_lt

theorem valueNameIndex_valueWord : valueNameIndex (valueWord w t n p) = n % 2 ^ 28 := by
  simp (disch := decide) only [valueNameIndex, valueWord, setValueParentIndex, setValueNameIndex,
    bits_setBits_above, bits_setBits_self]

theorem valueParentIndex_valueWord : valueParentIndex (valueWord w t n p) = p % 2 ^ 28 := by
  simp only [valueParentIndex, valueWord, setValueParentIndex, bits_setBits_self]

@[simp] theorem valueNameIndex_mod : valueNameIndex (w % 2 ^ 64) = valueNameIndex w :=
  bits_mod (by decide) w

@[simp] theorem valueParentIndex_mod : valueParentIndex (w % 2 ^ 64) = valueParentIndex w :=
  bits_mod (by decide) w

@[simp] theorem extentNextIndex_mod : extentNextIndex (w % 2 ^ 64) = extentNextIndex w :=
  bits_mod (by decide) w

@[simp] theorem nameLength_mod : nameLength (w % 2 ^ 64) = nameLength w := bits_mod (by decide) w

@[simp] theorem order_setExtentNextIndex : order (setExtentNextIndex w n) = order w :=
  bits_setBits_below (by decide) w n

@[simp] theorem blockType_setExtentNextIndex : blockType (setExtentNextIndex w n) = blockType w :=
  bits_setBits_below (by decide) w n

theorem extentNextIndex_setExtentNextIndex :
    extentNextIndex (setExtentNextIndex w n) = n % 2 ^ 28 := bits_setBits_self w 8 28 n

@[simp] theorem order_extentWord : order (extentWord w n) = order w := by
  simp [extentWord]

@[simp] theorem blockType_extentWord : blockType (extentWord w n) = extent.toU8 := by
  simp [extentWord]

@[simp] theorem order_nameWord : order (nameWord w n) = order w := by
  simp (disch := decide) only [order, nameWord, setNameLength, setBlockType, bits_setBits_below]

@[simp] theorem blockType_nameWord : blockType (nameWord w n) = BlockType.name.toU8 := by
  rw [nameWord, blockType, setNameLength, bits_setBits_below (by decide)]
  exact blockType_setBlockType w .name

theorem nameLength_nameWord : nameLength (nameWord w n) = n % 2 ^ 12 := bits_setBits_self _ 8 12 n

variable (f : ArrayFormat)

theorem arrayWord_lt : arrayWord t f n < 2 ^ 64 :=
  setBits_lt (setBits_lt (setBits_lt (by decide) (by decide) _) (by decide) _) (by decide) _

theorem arrayEntryType_arrayWord : Payload.arrayEntryType (arrayWord t f n) = t.toU8 := by
  simp (disch := decide) only [Payload.arrayEntryType, arrayWord, Payload.setArraySlotsCount,
    Payload.setArrayFlags, Payload.setArrayEntryType, bits_setBits_below, bits_setBits_self]
  exact Nat.mod_eq_of_lt t.toU8_lt

theorem arrayFlags_arrayWord : Payload.arrayFlags (arrayWord t f n) = f.toU8 := by
  simp (disch := decide) only [Payload.arrayFlags, arrayWord, Payload.setArraySlotsCount,
    Payload.setArrayFlags, bits_setBits_below, bits_setBits_self]
  exact Nat.mod_eq_of_lt f.toU8_lt

theorem arraySlotsCount_arrayWord :
    Payload.arraySlotsCount (arrayWord t f n) = n % 2 ^ 8 := bits_setBits_self _ 8 8 n

end Fields

@[simp] theorem order_freeWord : order (freeWord w next) = order w := by
  simp [freeWord]

@[simp] theorem blockType_freeWord : blockType (freeWord w next) = free.toU8 := by
  simp [freeWord]

theorem freeNextIndex_freeWord : freeNextIndex (freeWord w next) = next % 2 ^ 28 :=
  freeNextIndex_setFreeNextIndex _ _

end Garnet.Inspect
