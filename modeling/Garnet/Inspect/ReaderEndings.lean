import Garnet.Inspect.Reader

/-! How the reader of Inspect data ends on arbitrary bytes. Every link may point anywhere and every
cycle ends, but the codes of types and formats and the bytes of names are unwrapped: the blocks that
are read before the first refused one decide whether the reader crashes. -/

namespace Garnet.Inspect
open List
open Std (TreeMap)
open BlockHeader
open LittleEndian (ofLe)

section Codes
variable (s : Slice)

def headerAt (index : Nat) : Nat := ofLe (copyOut s.len s.byte (headerOffset index) 8)

def payloadAt (index : Nat) : Nat := ofLe (copyOut s.len s.byte (payloadOffset index) 8)

def typeAt (index : Nat) : Option BlockType := BlockType.fromU8 (blockType (headerAt s index))

/-- Reading the name at `index`: an unknown type code and bytes that are not UTF-8 are unwrapped. -/
def nameCodes (index : Nat) : Ending :=
  if s.len ≤ offsetForIndex index then .refuses
  else match typeAt s index with
    | none => .crashes
    | some .name =>
      if Utf8.valid (copyOut s.len s.byte (payloadOffset index) (nameLength (headerAt s index)))
      then .returns else .crashes
    | some _ => .refuses

/-- Reading an array: the codes of its entry type and of its format are unwrapped. -/
def arrayCodes (block : Nat) : Ending :=
  if arrayCapacity (order (headerAt s block)) < Payload.arraySlotsCount (payloadAt s block)
  then .refuses
  else match BlockType.fromU8 (Payload.arrayEntryType (payloadAt s block)) with
    | none => .crashes
    | some .intValue | some .uintValue | some .doubleValue =>
      if (ArrayFormat.fromU8 (Payload.arrayFlags (payloadAt s block))).isSome then .returns else .crashes
    | some _ => .refuses

/-- Reading `left` more bytes from the extents from `index` on: a type code on the way is
unwrapped. -/
def extentCodes : Nat → Nat → Nat → Ending
  | 0, _, _ => .returns
  | steps + 1, index, left =>
    if index = 0 ∨ left = 0 then .returns
    else if s.len ≤ offsetForIndex index then .refuses
    else match typeAt s index with
      | none => .crashes
      | some .extent => extentCodes steps (extentNextIndex (headerAt s index))
          (left - payloadSizeForOrder (order (headerAt s index)))
      | some _ => .refuses

/-- Reading a string or a byte vector: the code of its format is unwrapped after the extents. -/
def propertyCodes (block : Nat) : Ending :=
  (extentCodes s (Payload.propertyTotalLength (payloadAt s block))
    (Payload.propertyExtentIndex (payloadAt s block))
    (Payload.propertyTotalLength (payloadAt s block))).andThen
  (if (PropertyFormat.fromU8 (Payload.propertyFlags (payloadAt s block))).isSome then .returns else .crashes)

/-- What the codes in a block and in the blocks that it names make of the reader. -/
def blockCodes (block : Nat) : Ending :=
  match typeAt s block with
  | none => .crashes
  | some type =>
    if block = 0 ∧ type ≠ .header then .refuses
    else
      let name := nameCodes s (valueNameIndex (headerAt s block))
      match type with
      | .nodeValue | .intValue | .uintValue | .doubleValue => name
      | .arrayValue => name.andThen (arrayCodes s block)
      | .propertyValue => name.andThen (propertyCodes s block)
      | _ => .returns

/-- What the first 16 bytes make of the test for a header: a block of another size is none. -/
def headerCodes : Ending :=
  if order (headerAt s 0) ≠ 0 then .refuses
  else match typeAt s 0 with
    | none => .crashes
    | some .header =>
      if headerMagic (headerAt s 0) = headerMagicNumber ∧
          headerVersion (headerAt s 0) = headerVersionNumber ∧
          Payload.headerGenerationCount (payloadAt s 0) % 2 = 0 then .returns
      else .refuses
    | some _ => .refuses

end Codes

section Accessors
variable {s : Slice} {i : Nat} {t : BlockType}

theorem blockType_slice (s : Slice) (i : Nat) :
    Block.blockType s i = match typeAt s i with
      | some t => .ok t
      | none => .error .panic := by
  unfold Block.blockType typeAt
  exact rfl

theorem blockType_typed (h : typeAt s i = some t) : Block.blockType s i = .ok t := by
  rw [blockType_slice, h]

theorem blockType_unknown (h : typeAt s i = none) : Block.blockType s i = .error .panic := by
  rw [blockType_slice, h]

theorem checkType_typed (h : typeAt s i = some t) : Block.checkType s i t = .ok () := by
  simp [Block.checkType, blockType_typed h]

theorem checkType_other {t' : BlockType} (h : typeAt s i = some t) (hne : t ≠ t') :
    ∃ msg, Block.checkType s i t' = .error (.error msg) := by
  refine ⟨"Expected type " ++ t'.display ++ ", got type " ++ t.display, ?_⟩
  rw [Block.checkType, blockType_typed h, ok_bind, if_neg hne]

theorem checkType_unknown (h : typeAt s i = none) (t : BlockType) :
    Block.checkType s i t = .error .panic := by
  simp [Block.checkType, blockType_unknown h]

theorem headerField_typed (h : typeAt s i = some t) (field : Nat → Nat) :
    Block.headerField t field s i = .ok (field (headerAt s i)) := by
  simp only [Block.headerField, checkType_typed h]
  exact rfl

theorem payloadField_typed (h : typeAt s i = some t) (field : Nat → Nat) :
    Block.payloadField t field s i = .ok (field (payloadAt s i)) := by
  simp only [Block.payloadField, checkType_typed h]
  exact rfl

theorem order_slice (s : Slice) (i : Nat) : Block.order s i = .ok (order (headerAt s i)) := rfl

section
variable (h : typeAt s i = some t) (ht : t.isAnyValue = true)
include h ht

theorem nameIndex_typed : Block.nameIndex s i = .ok (valueNameIndex (headerAt s i)) := by
  simp only [Block.nameIndex, Block.checkAnyValue, blockType_typed h, ok_bind, ht]
  exact rfl

theorem parentIndex_typed : Block.parentIndex s i = .ok (valueParentIndex (headerAt s i)) := by
  simp only [Block.parentIndex, Block.checkAnyValue, blockType_typed h, ok_bind, ht]
  exact rfl

end

theorem extentContents_typed (h : typeAt s i = some .extent) : Block.extentContents s i =
    .ok (copyOut s.len s.byte (payloadOffset i) (payloadSizeForOrder (order (headerAt s i)))) := by
  simp only [Block.extentContents, checkType_typed h, order_slice]
  exact rfl

end Accessors

theorem minOrderSize_le_orderToSize (k : Nat) : 16 ≤ orderToSize k := by
  rw [orderToSize, Nat.shiftLeft_eq]
  exact Nat.le_mul_of_pos_right _ (Nat.two_pow_pos k)

namespace Reader
variable (s : Snapshot) {fuel b slots : Nat} {t : BlockType} {blocks : List Nat}

theorem ending_nameContents (i : Nat) : ending (Block.nameContents s.buffer i) =
    match typeAt s.buffer i with
    | none => .crashes
    | some .name =>
      if Utf8.valid (copyOut s.buffer.len s.buffer.byte (payloadOffset i)
        (nameLength (headerAt s.buffer i))) then .returns else .crashes
    | some _ => .refuses := by
  unfold Block.nameContents
  cases ht : typeAt s.buffer i with
  | none =>
    rw [checkType_unknown ht]
    rfl
  | some t =>
    by_cases hn : t = .name
    · subst hn
      simp only [checkType_typed ht, Block.nameLength, headerField_typed ht, ok_bind,
        ReadableBlockContainer.readBytes]
      split <;> rfl
    · obtain ⟨msg, hc⟩ := checkType_other ht hn
      rw [hc]
      cases t <;> first | rfl | exact absurd rfl hn

theorem ending_getName (i : Nat) : ending (getName s i) = nameCodes s.buffer i := by
  unfold getName Snapshot.getBlock nameCodes
  by_cases hi : s.buffer.len ≤ offsetForIndex i
  · rw [if_pos hi, if_neg (Nat.not_lt.mpr hi)]
    rfl
  · rw [if_neg hi, if_pos (Nat.lt_of_not_le hi), ← ending_nameContents]
    dsimp only
    cases Block.nameContents s.buffer i with
    | ok name => rfl
    | error e => cases e <;> rfl

theorem payloadSizeForOrder_pos (k : Nat) : 0 < payloadSizeForOrder k := by
  have h := minOrderSize_le_orderToSize k
  have h8 : headerSizeBytes = 8 := rfl
  unfold payloadSizeForOrder
  omega

theorem ending_readExtents (total : Nat) {steps : Nat} (i : Nat) (read : List UInt8)
    (hfuel : total - read.length < fuel) (hsteps : total - read.length ≤ steps) :
    ending (readExtents s total fuel i read) =
    extentCodes s.buffer steps i (total - read.length) := by
  induction fuel generalizing i read steps with
  | zero => exact absurd hfuel (Nat.not_lt_zero _)
  | succ fuel ih =>
    unfold readExtents
    by_cases hdone : i ≠ 0 ∧ read.length < total
    · obtain ⟨steps, rfl⟩ := Nat.exists_eq_succ_of_ne_zero (show steps ≠ 0 by omega)
      rw [if_pos hdone, extentCodes, if_neg (by omega)]
      unfold Snapshot.getBlock
      by_cases hi : s.buffer.len ≤ offsetForIndex i
      · rw [if_pos hi, if_neg (Nat.not_lt.mpr hi)]
        rfl
      rw [if_neg hi, if_pos (Nat.lt_of_not_le hi)]
      cases ht : typeAt s.buffer i with
      | none => simp [Block.extentContents, checkType_unknown ht]
      | some t =>
        by_cases hn : t = .extent
        · subst hn
          simp only [extentContents_typed ht, Block.nextExtent, headerField_typed ht, ok_bind]
          have hpos := payloadSizeForOrder_pos (order (headerAt s.buffer i))
          generalize payloadSizeForOrder (order (headerAt s.buffer i)) = size at *
          have hlen : total - (read ++ (copyOut s.buffer.len s.buffer.byte (payloadOffset i) size).take
              (total - read.length)).length = total - read.length - size := by
            simp only [copyOut, length_append, length_take, length_map, length_range]
            omega
          rw [ih _ _ (by omega) (le_trans (le_of_eq hlen) (show _ ≤ steps by omega)), hlen]
        · obtain ⟨msg, hc⟩ := checkType_other ht hn
          simp only [Block.extentContents, hc, error_bind]
          cases t <;> rfl
    · rw [if_neg hdone]
      cases steps with
      | zero => rfl
      | succ steps =>
        rw [extentCodes, if_pos (by omega)]
        rfl

theorem ending_extentsProperty (name : List UInt8) (ht : typeAt s.buffer b = some .propertyValue) :
    ending (extentsProperty s name b) = propertyCodes s.buffer b := by
  simp only [extentsProperty, Block.propertyTotalLength, Block.propertyExtentIndex,
    Block.propertyFormat, payloadField_typed ht, ok_bind, propertyCodes]
  generalize Payload.propertyExtentIndex (payloadAt s.buffer b) = first
  generalize htotal : Payload.propertyTotalLength (payloadAt s.buffer b) = total
  have hread : ending (readExtents s total (total + 1) first []) =
      extentCodes s.buffer total first total :=
    ending_readExtents s total first [] (Nat.lt_succ_self _) (le_refl _)
  rw [← hread]
  apply ending_bind
  intro read _
  cases PropertyFormat.fromU8 (Payload.propertyFlags (payloadAt s.buffer b)) with
  | none => rfl
  | some f => cases f <;> rfl

section
variable (ht : typeAt s.buffer b = some .arrayValue)
variable (he : BlockType.fromU8 (Payload.arrayEntryType (payloadAt s.buffer b)) = some t)
variable (hcap : slots ≤ arrayCapacity (order (headerAt s.buffer b)))
include ht he hcap

theorem arrayValues_typed : ∃ values, arrayValues s t b slots = .ok values := by
  refine ⟨_,
    mapM_ok (g := fun i => ofLe (copyOut s.buffer.len s.buffer.byte (Block.slotOffset b i) 8)) ?_⟩
  intro i hi
  have hslot : ¬ arrayCapacity (order (headerAt s.buffer b)) < i := by
    have := mem_range.mp hi
    omega
  simp only [Block.arrayGetSlot, Block.checkArrayEntryType, Block.arrayEntryType,
    payloadField_typed ht,
    ok_bind, he, except_pure, if_true, Block.checkSlot, order_slice, if_neg hslot]
  exact rfl

theorem ending_arrayNumbers {make : List Nat → ArrayFormat → Property} :
    ending (do
      let values ← arrayValues s t b slots
      let format ← unwrap (Block.arrayFormat s.buffer b)
      pure (make values format)) =
    if (ArrayFormat.fromU8 (Payload.arrayFlags (payloadAt s.buffer b))).isSome then .returns
      else .crashes := by
  obtain ⟨values, hv⟩ := arrayValues_typed s ht he hcap
  simp only [hv, ok_bind, Block.arrayFormat, payloadField_typed ht]
  cases ArrayFormat.fromU8 (Payload.arrayFlags (payloadAt s.buffer b)) <;> rfl

end

theorem ending_arrayProperty (name : List UInt8) (ht : typeAt s.buffer b = some .arrayValue) :
    ending (arrayProperty s name b) = arrayCodes s.buffer b := by
  simp only [arrayProperty, Block.arraySlots, payloadField_typed ht, order_slice, ok_bind,
    arrayCodes]
  by_cases hcap : arrayCapacity (order (headerAt s.buffer b)) <
      Payload.arraySlotsCount (payloadAt s.buffer b)
  · rw [if_pos hcap, if_pos hcap]
    rfl
  rw [if_neg hcap, if_neg hcap, Block.arrayEntryType, payloadField_typed ht, ok_bind]
  cases he : BlockType.fromU8 (Payload.arrayEntryType (payloadAt s.buffer b)) with
  | none => rfl
  | some t =>
    cases t with
    | intValue | uintValue | doubleValue => exact ending_arrayNumbers s ht he (Nat.le_of_not_lt hcap)
    | _ => rfl

theorem ending_value (ht : typeAt s.buffer b = some t) (hv : t.isAnyValue = true)
    {rest : List UInt8 → Nat → Except Fault Nodes} {e : Ending}
    (he : ∀ name p, ending (rest name p) = e) :
    ending (do
      let nameIndex ← Block.nameIndex s.buffer b
      let name ← getName s nameIndex
      let parentIndex ← Block.parentIndex s.buffer b
      rest name parentIndex) =
    (nameCodes s.buffer (valueNameIndex (headerAt s.buffer b))).andThen e := by
  simp only [nameIndex_typed ht hv, parentIndex_typed ht hv, ok_bind]
  rw [← ending_getName]
  apply ending_bind
  intro name _
  exact he name _

theorem ending_numericProperty (ht : typeAt s.buffer b = some t)
    (name : List UInt8) : ending (numericProperty s t name b) = .returns := by
  cases t with
  | intValue => simp [numericProperty, Block.intValue, payloadField_typed ht]
  | uintValue => simp [numericProperty, Block.uintValue, payloadField_typed ht]
  | doubleValue => simp [numericProperty, Block.doubleValue, payloadField_typed ht]
  | _ => rfl

theorem ending_parseNode (ht : typeAt s.buffer b = some .nodeValue) (nodes : Nodes) :
    ending (parseNode s nodes b) =
      nameCodes s.buffer (valueNameIndex (headerAt s.buffer b)) := by
  rw [← Ending.andThen_returns (nameCodes _ _)]
  apply ending_value s ht rfl
  intro name p
  dsimp only
  split <;> rfl

theorem ending_parseNumericProperty (ht : typeAt s.buffer b = some t)
    (hv : t.isAnyValue = true) (nodes : Nodes) : ending (parseNumericProperty s nodes b) =
      nameCodes s.buffer (valueNameIndex (headerAt s.buffer b)) := by
  rw [← Ending.andThen_returns (nameCodes _ _)]
  apply ending_value s ht hv
  intro name p
  rw [blockType_typed ht, ok_bind, ending_bind (e := .returns), ending_numericProperty s ht]
  · rfl
  · intro property _
    cases property <;> rfl

theorem ending_parseArrayProperty (ht : typeAt s.buffer b = some .arrayValue) (nodes : Nodes) :
    ending (parseArrayProperty s nodes b) =
      (nameCodes s.buffer (valueNameIndex (headerAt s.buffer b))).andThen
        (arrayCodes s.buffer b) := by
  apply ending_value s ht rfl
  intro name p
  rw [ending_bind (e := .returns) fun _ _ => rfl, Ending.andThen_returns,
    ending_arrayProperty s name ht]

theorem ending_parseProperty (ht : typeAt s.buffer b = some .propertyValue) (nodes : Nodes) :
    ending (parseProperty s nodes b) =
      (nameCodes s.buffer (valueNameIndex (headerAt s.buffer b))).andThen
        (propertyCodes s.buffer b) := by
  apply ending_value s ht rfl
  intro name p
  rw [ending_bind (e := .returns) fun _ _ => rfl, Ending.andThen_returns,
    ending_extentsProperty s name ht]

theorem ending_scanBlock (nodes : Nodes) (b : Nat) :
    ending (scanBlock s nodes b) = blockCodes s.buffer b := by
  unfold scanBlock blockCodes
  cases ht : typeAt s.buffer b with
  | none =>
    rw [blockType_unknown ht]
    rfl
  | some t =>
    simp only [blockType_typed ht, ok_bind]
    split
    · rfl
    · cases t with
      | nodeValue => exact ending_parseNode s ht nodes
      | intValue | uintValue | doubleValue => exact ending_parseNumericProperty s ht rfl nodes
      | arrayValue => exact ending_parseArrayProperty s ht nodes
      | propertyValue => exact ending_parseProperty s ht nodes
      | _ => rfl

theorem ending_reduceLoop {complete : List ScannedNode} {pending : Nodes}
    (h : complete.length + pending.size < fuel) :
    ending (reduceLoop fuel complete pending) ≠ .crashes := by
  induction fuel generalizing complete pending with
  | zero => exact absurd h (Nat.not_lt_zero _)
  | succ fuel ih =>
    cases complete with
    | nil => simp [reduceLoop]
    | cons node complete =>
      rw [length_cons] at h
      unfold reduceLoop
      split
      · simp
      split
      · simp
      next parent hparent =>
        have hmem : pending.contains node.parentIndex = true := by
          rw [TreeMap.contains_eq_isSome_getElem?, hparent]
          rfl
        dsimp only
        split
        · apply ih
          have hpos : pending.size ≠ 0 := by
            have hne := TreeMap.isEmpty_eq_false_of_contains hmem
            rwa [TreeMap.isEmpty_eq_size_eq_zero, beq_eq_false_iff_ne] at hne
          rw [length_cons, TreeMap.size_erase, if_pos hmem]
          omega
        · apply ih
          rw [TreeMap.size_insert, if_pos hmem]
          omega

theorem foldl_measure_le {α β : Type} (size : β → Nat) {f : β → α → β}
    (hf : ∀ b a, size (f b a) ≤ size b + 1) (l : List α) (b : β) :
    size (l.foldl f b) ≤ size b + l.length := by
  induction l generalizing b with
  | nil => exact le_refl _
  | cons a l ih =>
    have hstep := hf b a
    have hrest := ih (f b a)
    rw [foldl_cons, length_cons]
    omega

theorem split_size (nodes : Nodes) :
    (split nodes).1.length + (split nodes).2.size ≤ nodes.size := by
  have hle := foldl_measure_le (fun p : List ScannedNode × Nodes => p.1.length + p.2.size)
    (f := fun p x => if x.2.isComplete then (x.2 :: p.1, p.2) else (p.1, p.2.insert x.1 x.2))
    ?_ nodes.toList ([], ∅)
  · rw [TreeMap.length_toList] at hle
    exact hle.trans (by simp)
  · intro p x
    split <;> dsimp only
    · rw [length_cons]
      omega
    · have := TreeMap.size_insert_le (t := p.2) (k := x.1) (v := x.2)
      omega

theorem ending_scanBlocks (h : scanSlice s.buffer = .ok blocks) :
    ending (scanBlocks s) = .all (blocks.map (blockCodes s.buffer)) := by
  rw [scanBlocks, Snapshot.scan, h, ok_bind]
  exact ending_foldlM (ending_scanBlock s) blocks ∅

theorem ending_read (h : scanSlice s.buffer = .ok blocks) :
    ending (read s) = .crashes ↔ Ending.all (blocks.map (blockCodes s.buffer)) = .crashes := by
  rw [← ending_scanBlocks s h, read]
  cases scanBlocks s with
  | ok nodes =>
    have hreduce : ending (reduce nodes) ≠ .crashes :=
      ending_reduceLoop (Nat.lt_succ_of_le (split_size nodes))
    simp [hreduce]
  | error e => cases e <;> simp [ending]

end Reader

section Scan

theorem scanFrom_ok {s : Slice} (hlen : s.len ≤ 2 ^ 36) {fuel offset : Nat}
    (hfuel : s.len < 16 * fuel + offset) : ∃ blocks, scanFrom s (fuel + 1) offset = .ok blocks := by
  induction fuel generalizing offset with
  | zero =>
    refine ⟨[], ?_⟩
    rw [scanFrom, if_pos (by omega)]
    rfl
  | succ fuel ih =>
    unfold scanFrom
    split
    · exact ⟨[], rfl⟩
    next hlt =>
      have hindex : indexForOffset offset = .ok (offset / minOrderSize) := if_pos (by
        rw [show minOrderSize = 16 from rfl]
        omega)
      simp only [hindex, order_slice, ok_bind]
      split
      · exact ⟨[], rfl⟩
      · have hsize := minOrderSize_le_orderToSize (order (headerAt s (offset / minOrderSize)))
        obtain ⟨rest, hrest⟩ := ih (show s.len < 16 * fuel + (offset +
          orderToSize (order (headerAt s (offset / minOrderSize)))) by omega)
        exact ⟨_ :: rest, by rw [hrest]; rfl⟩

theorem scanSlice_ok {s : Slice} (hlen : s.len ≤ 2 ^ 36) : ∃ blocks, scanSlice s = .ok blocks := by
  apply scanFrom_ok hlen
  rw [show minOrderSize = 16 from rfl]
  omega

theorem scanSlice_sixteen {s : Slice} (hlen : s.len = 16) :
    scanSlice s = .ok (if order (headerAt s 0) = 0 then [0] else []) := by
  have hfuel : s.len / minOrderSize + 2 = 3 := by rw [hlen]; rfl
  have hend : scanFrom s 2 16 = .ok [] := by
    rw [scanFrom, if_pos (le_of_eq hlen), except_pure]
  rw [scanSlice, hfuel, scanFrom, if_neg (by omega), show indexForOffset 0 = .ok 0 from rfl]
  simp only [ok_bind, order_slice, Nat.sub_zero, hlen]
  by_cases hk : order (headerAt s 0) = 0
  · rw [hk, if_neg (by decide), show 0 + orderToSize 0 = 16 from rfl, hend]
    rfl
  · have hsize : 16 < orderToSize (order (headerAt s 0)) := by
      rw [orderToSize, Nat.shiftLeft_eq, show minOrderSize = 16 from rfl]
      have := Nat.one_lt_two_pow hk
      omega
    rw [if_pos hsize, if_neg hk]
    rfl

end Scan

section Header
variable {s : Slice}

theorem isHeader_typed (ht : typeAt s 0 = some .header) (test : Except Fault Bool) :
    isHeader s 0 test =
      if headerMagic (headerAt s 0) = headerMagicNumber ∧
        headerVersion (headerAt s 0) = headerVersionNumber then test else .ok false := by
  simp only [isHeader, blockType_typed ht, ok_bind, if_true, Block.headerMagic,
    Block.headerVersion, headerField_typed ht, unwrap_ok, except_pure, ite_and]

theorem isHeader_other {t : BlockType} (ht : typeAt s 0 = some t) (hne : t ≠ .header)
    (test : Except Fault Bool) : isHeader s 0 test = .ok false := by
  rw [isHeader, blockType_typed ht, ok_bind, if_neg hne]
  rfl

theorem headerGenerationCount_codes (hlen : s.len = 16) :
    headerGenerationCount s = match headerCodes s with
      | .returns => .ok (some (Payload.headerGenerationCount (payloadAt s 0)))
      | .refuses => .ok none
      | .crashes => .error .panic := by
  rw [headerGenerationCount, if_neg (by omega), scanSlice_sixteen hlen, ok_bind, headerCodes]
  by_cases hk : order (headerAt s 0) = 0
  · rw [if_pos hk, if_neg (not_not_intro hk), List.findM?]
    cases ht : typeAt s 0 with
    | none =>
      rw [isHeader, blockType_unknown ht]
      rfl
    | some t =>
      by_cases hn : t = .header
      · subst hn
        have hlocked : Block.headerIsLocked s 0 =
            .ok (Payload.headerGenerationCount (payloadAt s 0) % 2 == 1) := by
          simp only [Block.headerIsLocked, checkType_typed ht]
          exact rfl
        have hcount : Block.headerGenerationCount s 0 =
            .ok (Payload.headerGenerationCount (payloadAt s 0)) := payloadField_typed ht _
        rw [isHeader_typed ht, hlocked]
        dsimp only
        by_cases hknown : headerMagic (headerAt s 0) = headerMagicNumber ∧
            headerVersion (headerAt s 0) = headerVersionNumber
        · by_cases heven : Payload.headerGenerationCount (payloadAt s 0) % 2 = 0
          · rw [if_pos hknown, if_pos ⟨hknown.1, hknown.2, heven⟩, heven]
            simp only [unwrap_ok, ok_bind, except_pure, show (0 == 1) = false from rfl,
              Bool.not_false, hcount]
          · have hodd : Payload.headerGenerationCount (payloadAt s 0) % 2 = 1 := by omega
            rw [if_pos hknown, if_neg fun h => heven h.2.2, hodd]
            rfl
        · rw [if_neg hknown, if_neg fun h => hknown ⟨h.1, h.2.1⟩]
          rfl
      · rw [isHeader_other ht hn]
        cases t <;> first | rfl | exact absurd rfl hn
  · rw [if_neg hk, if_pos hk]
    rfl

section
variable (hlen : 16 ≤ s.len)
include hlen

theorem headerAt_firstBytes : headerAt (s.firstBytes 16) 0 = headerAt s 0 := by
  have hfirst : (s.firstBytes 16).len = 16 := min_eq_left hlen
  have h0 : headerOffset 0 = 0 := rfl
  rw [headerAt, headerAt, copyOut_of_le _ (by omega), copyOut_of_le _ (by omega)]
  rfl

theorem payloadAt_firstBytes : payloadAt (s.firstBytes 16) 0 = payloadAt s 0 := by
  have hfirst : (s.firstBytes 16).len = 16 := min_eq_left hlen
  have h0 : payloadOffset 0 = 8 := rfl
  rw [payloadAt, payloadAt, copyOut_of_le _ (by omega), copyOut_of_le _ (by omega)]
  rfl

theorem headerCodes_firstBytes : headerCodes (s.firstBytes 16) = headerCodes s := by
  simp only [headerCodes, typeAt, headerAt_firstBytes hlen, payloadAt_firstBytes hlen]

theorem tryFromBytes_codes :
    Snapshot.tryFromBytes s = match headerCodes s with
      | .returns => .ok ⟨s⟩
      | .refuses => .error (.error "expected block with at least a header")
      | .crashes => .error .panic := by
  rw [Snapshot.tryFromBytes, if_neg (by omega), headerGenerationCount_codes (min_eq_left hlen),
    headerCodes_firstBytes hlen]
  cases headerCodes s <;> rfl

end

/-- The codes that the reader unwraps are all known, up to the first block that it refuses. -/
def KnownCodes (bytes : Slice) : Prop :=
  headerCodes bytes ≠ .crashes ∧
  (headerCodes bytes = .returns → ∀ blocks, scanSlice bytes = .ok blocks →
    ∀ front b rest, blocks = front ++ b :: rest → (∀ c ∈ front, blockCodes bytes c = .returns) →
      blockCodes bytes b ≠ .crashes)

theorem knownCodes_blocks {bytes : Slice} {blocks : List Nat} :
    Ending.all (blocks.map (blockCodes bytes)) ≠ .crashes ↔
    ∀ front b rest, blocks = front ++ b :: rest → (∀ c ∈ front, blockCodes bytes c = .returns) →
      blockCodes bytes b ≠ .crashes := by
  rw [Ne, Ending.all_crashes_iff]
  constructor
  · rintro hno front b rest rfl hfront hb
    apply hno
    refine ⟨front.map (blockCodes bytes), rest.map (blockCodes bytes), ?_, ?_⟩
    · rw [map_append, map_cons, hb]
    · simpa using hfront
  · rintro hall ⟨front, rest, hsplit, hfront⟩
    obtain ⟨xs, ys, rfl, rfl, hys⟩ := map_eq_append_iff.mp hsplit
    obtain ⟨b, zs, rfl, hb, -⟩ := map_eq_cons_iff.mp hys
    exact hall xs b zs rfl (by simpa using hfront) hb

/-- The reader returns a hierarchy or an error exactly on bytes with known codes. -/
theorem reader_total_iff (bytes : Slice) (hlen : 16 ≤ bytes.len) (hmax : bytes.len ≤ 2 ^ 36) :
    (∀ e, NodeHierarchy.tryFromBytes bytes = .error e → e.IsError) ↔ KnownCodes bytes := by
  obtain ⟨blocks, hblocks⟩ := scanSlice_ok hmax
  rw [← ending_ne_crashes_iff, NodeHierarchy.tryFromBytes, tryFromBytes_codes hlen, KnownCodes]
  cases hcodes : headerCodes bytes with
  | returns =>
    rw [ok_bind, Ne, Reader.ending_read ⟨bytes⟩ hblocks, ← Ne, knownCodes_blocks]
    simp [hblocks]
  | refuses => simp
  | crashes => simp

def headed (rest : List UInt8) : Slice :=
  ⟨16 + rest.length,
    fun i => ([0x20, 0, 0, 0, 0x49, 0x4e, 0x53, 0x50, 0, 0, 0, 0, 0, 0, 0, 0] ++ rest).getD i 0⟩

/-- A node with a property of three bytes: the value, the name of each, and the extent of the
property. -/
def nodeWithProperty : Slice := headed <|
  [0x30, 0, 0, 0, 0x20, 0, 0, 0, 1, 0, 0, 0, 0, 0, 0, 0] ++
    [0x90, 1, 0, 0, 0, 0, 0, 0, 110, 0, 0, 0, 0, 0, 0, 0] ++
  [0x70, 1, 0, 0, 0x40, 0, 0, 0, 3, 0, 0, 0, 5, 0, 0, 0x10] ++
    [0x90, 1, 0, 0, 0, 0, 0, 0, 112, 0, 0, 0, 0, 0, 0, 0] ++
  [0x80, 0, 0, 0, 0, 0, 0, 0, 1, 2, 3, 0, 0, 0, 0, 0]

theorem knownCodes_nodeWithProperty : KnownCodes nodeWithProperty := by
  refine ⟨by decide, fun _ blocks hblocks front b rest hsplit _ => ?_⟩
  have hall : scanSlice nodeWithProperty = .ok [0, 1, 2, 3, 4, 5] := rfl
  obtain rfl := Except.ok.inj (hall.symm.trans hblocks)
  have hknown : ∀ b ∈ [0, 1, 2, 3, 4, 5], blockCodes nodeWithProperty b ≠ .crashes := by decide
  exact hknown b (by simp [hsplit])

theorem reader_total_nodeWithProperty : 16 ≤ nodeWithProperty.len ∧
    ∀ e, NodeHierarchy.tryFromBytes nodeWithProperty = .error e → e.IsError :=
  ⟨by decide, (reader_total_iff nodeWithProperty (by decide) (by decide)).mpr knownCodes_nodeWithProperty⟩

/-- A block whose type code is 15, behind a valid header. -/
theorem unknown_type_panics :
    NodeHierarchy.tryFromBytes (headed (0xf0 :: List.replicate 15 0)) = .error .panic := by
  rfl

end Header

end Garnet.Inspect
