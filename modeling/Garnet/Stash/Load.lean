import Garnet.Lib.Cursor
import Garnet.Lib.Utf8
import Garnet.Stash.Store

/-! Loading a store from its backing file, and the round trip through the file. -/

namespace Garnet.Stash
open List
open Cursor LittleEndian

def readU64 : EStateM Fault Cursor Nat := return ofLe (← readExact 8)

/-- `resize` of a vector followed by one `read` into it: what is missing stays zero. -/
def readInto (count : Nat) : EStateM Fault Cursor (List UInt8) := fun s =>
  if count < 2 ^ 63 then
    let data := (s.bytes.drop s.pos).take count
    .ok (data ++ List.replicate (count - data.length) 0) { s with pos := s.pos + data.length }
  else .error .panic s

def stringFromUtf8 (bytes : List UInt8) : Except Fault (List UInt8) :=
  if Utf8.valid bytes then .ok bytes else .error (.error "invalid utf-8 sequence")

/-- The first `n` bytes, as a read of exactly this length finds them. -/
def firstBytes (n : Nat) (bytes : List UInt8) : Except Fault (List UInt8) :=
  if n ≤ bytes.length then .ok (bytes.take n) else .error (.error "failed to fill whole buffer")

/-- `value_from_bytes`, the creation of a VMO being one that succeeds. -/
def valueFromBytes (typ : UInt8) (bytes : List UInt8) : Except Fault Value :=
  if typ = 0x00 then do pure (.intval (UInt64.ofNat (ofLe (← firstBytes 8 bytes))).toInt64)
  else if typ = 0x01 then do pure (.floatval (UInt64.ofNat (ofLe (← firstBytes 8 bytes))))
  else if typ = 0x02 then do
    let b ← firstBytes 1 bytes
    if b = [0x00] then pure (.boolval false)
    else if b = [0x01] then pure (.boolval true)
    else throw (.error ("unknown bool value: " ++ toString b))
  else if typ = 0x03 then do pure (.stringval (← stringFromUtf8 bytes))
  else if typ = 0x04 then pure (.bytesval ⟨bytes, bytes.length, le_rfl⟩)
  else .error (.error ("unknown type: " ++ toString typ))

def readEntry : EStateM Fault Cursor (Key × Value) := do
  let keyBytes ← readInto (← readU64)
  let valType ← readInto 1
  let valBytes ← readInto (← readU64)
  let key ← reading id fun _ => stringFromUtf8 keyBytes
  let val ← reading id fun _ => valueFromBytes (valType.headD 0) valBytes
  pure (key, val)

def readEntries : Nat → HashMap Key Value → EStateM Fault Cursor (HashMap Key Value)
  | 0, clientData => pure clientData
  | count + 1, clientData => do
    let (key, val) ← readEntry
    readEntries count (clientData.insert key val)

def readClient : EStateM Fault Cursor (ClientName × HashMap Key Value) := do
  let clientName ← readInto (← readU64)
  let clientEntries ← readU64
  let clientData ← readEntries clientEntries ∅
  let clientName ← reading id fun _ => stringFromUtf8 clientName
  pure (clientName, clientData)

/-- The loop of `deserialize`. Each round reads at least a length, so there are at most as many
rounds as bytes. -/
def readClients : Nat → HashMap ClientName (HashMap Key Value) →
    EStateM Fault Cursor (HashMap ClientName (HashMap Key Value))
  | 0, _ => throw .diverge
  | fuel + 1, data => fun s =>
    if s.pos < s.bytes.length then
      (do
        let (clientName, clientData) ← readClient
        readClients fuel (data.insert clientName clientData) : EStateM Fault Cursor _) s
    else .ok data s

def Store.deserialize (bytes : List UInt8) : Except Fault Store :=
  match readClients (bytes.length + 1) ∅ ⟨bytes, 0⟩ with
  | .ok data _ => .ok ⟨data⟩
  | .error e _ => .error e

/-- The store that `StoreManager::new` finds in the backing file. -/
def Store.load : Option (List UInt8) → Except Fault Store
  | some buf => Store.deserialize buf
  | none => .ok ⟨∅⟩

def Store.getValue (s : Store) (client : ClientName) (key : Key) : Option Value :=
  (s.data.lookup client).bind fun fields => fields.lookup key

/-- A value as it comes back from the file: a buffer is a VMO of its own with the same bytes. -/
def reload : Value → Value
  | .bytesval b => .bytesval ⟨b.vmo, b.vmo.length, le_rfl⟩
  | v => v

/-- What a `String` is. -/
def Text (s : List UInt8) : Prop := Utf8.valid s = true ∧ s.length < 2 ^ 63

/-- What a `Value` is: text is text, and a buffer lies in its VMO. -/
def Value.Storable : Value → Prop
  | .stringval s => Text s
  | .bytesval b => b.size ≤ b.vmo.length ∧ b.size < 2 ^ 63
  | _ => True

variable (fields : HashMap Key Value)

structure FieldsStorable : Prop where
  count : fields.entries.length < 2 ^ 64
  entries : ∀ e ∈ fields.entries, Text e.1 ∧ e.2.Storable

def Store.Storable (s : Store) : Prop := ∀ c ∈ s.data.entries, Text c.1 ∧ FieldsStorable c.2

section Entry

variable {bytes pre mid post : List UInt8} {β : Type} {pos : Nat} {v : Value}

section
variable (hb : bytes = pre ++ (mid ++ post)) (hlen : mid.length < 2 ^ 63)
include hb hlen

theorem readInto_append :
    readInto mid.length ⟨bytes, pre.length⟩ = .ok mid ⟨bytes, pre.length + mid.length⟩ := by
  subst hb
  simp only [readInto, if_pos hlen, drop_left, take_left, Nat.sub_self, replicate_zero, append_nil]

theorem readInto_bind {n : Nat} (hn : n = mid.length) (hpos : pos = pre.length)
    (f : List UInt8 → EStateM Fault Cursor β) :
    (readInto n >>= f) ⟨bytes, pos⟩ = f mid ⟨bytes, (pre ++ mid).length⟩ := by
  subst hn hpos
  rw [length_append]
  exact bind_ok (readInto_append hb hlen) f

end

theorem readU64_bind {v : Nat} (hb : bytes = pre ++ (toLe 8 v ++ post))
    (hv : v < 2 ^ 64) (hpos : pos = pre.length) (f : Nat → EStateM Fault Cursor β) :
    (readU64 >>= f) ⟨bytes, pos⟩ = f v ⟨bytes, (pre ++ toLe 8 v).length⟩ := by
  have hread : readU64 ⟨bytes, pos⟩ = .ok v ⟨bytes, (pre ++ toLe 8 v).length⟩ := by
    have hle : ofLe (toLe 8 v) = v := ofLe_toLe_of_lt hv
    rw [readU64, readExact_bind hb (toLe_length 8 v).symm hpos, hle, hpos, length_append, toLe_length]
    rfl
  exact bind_ok hread f

theorem stringFromUtf8_text {s : List UInt8} (h : Text s) : stringFromUtf8 s = .ok s := if_pos h.1

theorem valueTypeAsBytes_length (v : Value) : (valueTypeAsBytes v).length = 1 := by
  cases v <;> rfl

theorem valueIntoBytes_length (h : v.Storable) : (valueIntoBytes v).length < 2 ^ 63 := by
  cases v with
  | stringval s => exact h.2
  | bytesval b => exact lt_of_le_of_lt b.short h.2
  | boolval x => exact (by decide : 1 < 2 ^ 63)
  | _ => simp [valueIntoBytes]

theorem firstBytes_toLe (n : Nat) : firstBytes 8 (toLe 8 n) = .ok (toLe 8 n) := by
  rw [firstBytes, if_pos (by rw [toLe_length]), take_of_length_le (by rw [toLe_length])]

theorem toInt64_ofLe (x : Int64) : (UInt64.ofNat (ofLe (toLe 8 x.toUInt64.toNat))).toInt64 = x := by
  have hle : ofLe (toLe 8 x.toUInt64.toNat) = x.toUInt64.toNat := ofLe_toLe_of_lt x.toUInt64.toNat_lt
  rw [hle, UInt64.ofNat_toNat]
  rfl

theorem valueFromBytes_into (h : v.Storable) :
    valueFromBytes ((valueTypeAsBytes v).headD 0) (valueIntoBytes v) = .ok (reload v) := by
  cases v with
  | intval x =>
    change (do pure (Value.intval (UInt64.ofNat (ofLe (← firstBytes 8 (toLe 8 x.toUInt64.toNat)))).toInt64)) = _
    rw [firstBytes_toLe, ok_bind, toInt64_ofLe]
    rfl
  | floatval bits =>
    have hle : ofLe (toLe 8 bits.toNat) = bits.toNat := ofLe_toLe_of_lt bits.toNat_lt
    change (do pure (Value.floatval (UInt64.ofNat (ofLe (← firstBytes 8 (toLe 8 bits.toNat)))))) = _
    rw [firstBytes_toLe, ok_bind, hle, UInt64.ofNat_toNat]
    rfl
  | boolval x => cases x <;> rfl
  | stringval s =>
    change (do pure (Value.stringval (← stringFromUtf8 s))) = _
    rw [stringFromUtf8_text h]
    rfl
  | bytesval b => rfl

theorem reading_ok {α : Type} {f : Cursor → Except Fault α} {a : α} {s : Cursor} (h : f s = .ok a) :
    reading id f s = .ok a s := by
  simp only [reading, id, h]

theorem readEntry_serialize {e : Σ _ : Key, Value} (hkey : Text e.1) (hval : e.2.Storable)
    (hb : bytes = pre ++ (Store.serializeEntry e ++ post)) :
    readEntry ⟨bytes, pre.length⟩ =
    .ok (e.1, reload e.2) ⟨bytes, (pre ++ Store.serializeEntry e).length⟩ := by
  have hvlen := valueIntoBytes_length hval
  set t := valueTypeAsBytes e.2 with ht
  set v := valueIntoBytes e.2 with hv
  have hentry : Store.serializeEntry e = toLe 8 e.1.length ++ e.1 ++ t ++ toLe 8 v.length ++ v := rfl
  rw [hentry] at hb ⊢
  simp only [append_assoc] at hb
  have htlen : 1 = t.length := (valueTypeAsBytes_length e.2).symm
  have hk64 : e.1.length < 2 ^ 64 := lt_trans hkey.2 (by decide)
  have hv64 : v.length < 2 ^ 64 := lt_trans hvlen (by decide)
  rw [readEntry, readU64_bind hb hk64 rfl]
  rw [← append_assoc] at hb
  rw [readInto_bind hb hkey.2 rfl rfl]
  rw [← append_assoc] at hb
  rw [readInto_bind hb (by omega) htlen rfl]
  rw [← append_assoc] at hb
  rw [readU64_bind hb hv64 rfl]
  rw [← append_assoc] at hb
  rw [readInto_bind hb hvlen rfl rfl, bind_ok (reading_ok (stringFromUtf8_text hkey)),
    bind_ok (reading_ok (valueFromBytes_into hval))]
  simp only [append_assoc]
  rfl

end Entry

section Maps
variable {κ ν μ : Type} [DecidableEq κ]

/-- Insert all the entries of a list, read by `f`. -/
def insertAll (f : ν → μ) (es : List (Σ _ : κ, ν)) (h : HashMap κ μ) : HashMap κ μ :=
  es.foldl (fun h e => h.insert e.1 (f e.2)) h

theorem lookup_insertAll (f : ν → μ) {es : List (Σ _ : κ, ν)} (hes : es.NodupKeys) (h : HashMap κ μ)
    (k : κ) : (insertAll f es h).lookup k = ((es.dlookup k).map f).or (h.lookup k) := by
  induction es generalizing h with
  | nil => simp [insertAll]
  | cons e es ih =>
    obtain ⟨hnot, hes⟩ := nodupKeys_cons.mp hes
    have hstep : insertAll f (e :: es) h = insertAll f es (h.insert e.1 (f e.2)) := rfl
    rw [hstep, ih hes]
    by_cases hk : k = e.1
    · have hnone : es.dlookup k = none := dlookup_eq_none.mpr (hk ▸ hnot)
      obtain ⟨key, v⟩ := e
      obtain rfl : k = key := hk
      rw [hnone, dlookup_cons_eq, AList.lookup_insert]
      rfl
    · rw [AList.lookup_insert_ne hk, dlookup_cons_ne _ _ hk]

end Maps

section Client

variable {bytes pre post : List UInt8}

theorem readEntries_serialize {es : List (Σ _ : Key, Value)}
    (hes : ∀ e ∈ es, Text e.1 ∧ e.2.Storable)
    (hb : bytes = pre ++ (es.flatMap Store.serializeEntry ++ post)) (h : HashMap Key Value) :
    readEntries es.length h ⟨bytes, pre.length⟩ =
      .ok (insertAll reload es h) ⟨bytes, (pre ++ es.flatMap Store.serializeEntry).length⟩ := by
  induction es generalizing pre h with
  | nil =>
    rw [flatMap_nil, append_nil]
    rfl
  | cons e es ih =>
    rw [flatMap_cons, append_assoc] at hb
    have he := hes e mem_cons_self
    rw [length_cons, readEntries, bind_ok (readEntry_serialize he.1 he.2 hb)]
    rw [← append_assoc] at hb
    have hrest := ih (fun d hd => hes d (mem_cons_of_mem _ hd)) hb (h.insert e.1 (reload e.2))
    rw [append_assoc] at hrest
    exact hrest

def serializeClient (c : Σ _ : ClientName, HashMap Key Value) : List UInt8 :=
  toLe 8 c.1.length ++ c.1 ++ toLe 8 c.2.entries.length ++ c.2.entries.flatMap Store.serializeEntry

def reloadFields : HashMap Key Value := insertAll reload fields.entries ∅

theorem lookup_reloadFields (k : Key) :
    (reloadFields fields).lookup k = (fields.lookup k).map reload := by
  rw [reloadFields, lookup_insertAll reload fields.nodupKeys]
  simp [AList.lookup]

theorem readClient_serialize {c : Σ _ : ClientName, HashMap Key Value} (hname : Text c.1)
    (hfields : FieldsStorable c.2) (hb : bytes = pre ++ (serializeClient c ++ post)) :
    readClient ⟨bytes, pre.length⟩ =
    .ok (c.1, reloadFields c.2) ⟨bytes, (pre ++ serializeClient c).length⟩ := by
  rw [serializeClient] at hb ⊢
  set body := c.2.entries.flatMap Store.serializeEntry
  simp only [append_assoc] at hb
  have hn64 : c.1.length < 2 ^ 64 := lt_trans hname.2 (by decide)
  rw [readClient, readU64_bind hb hn64 rfl]
  rw [← append_assoc] at hb
  rw [readInto_bind hb hname.2 rfl rfl]
  rw [← append_assoc] at hb
  rw [readU64_bind hb hfields.count rfl]
  rw [← append_assoc] at hb
  rw [bind_ok (readEntries_serialize hfields.entries hb ∅),
    bind_ok (reading_ok (stringFromUtf8_text hname))]
  simp only [append_assoc]
  rfl

theorem serializeClient_pos (c : Σ _ : ClientName, HashMap Key Value) :
    0 < (serializeClient c).length := by
  rw [serializeClient, length_append, length_append, length_append, toLe_length]
  omega

theorem readClients_serialize {cs : List (Σ _ : ClientName, HashMap Key Value)}
    (hcs : ∀ c ∈ cs, Text c.1 ∧ FieldsStorable c.2) {bytes pre : List UInt8}
    (hb : bytes = pre ++ cs.flatMap serializeClient) (data : HashMap ClientName (HashMap Key Value))
    {fuel : Nat} (hfuel : (cs.flatMap serializeClient).length < fuel) :
    readClients fuel data ⟨bytes, pre.length⟩ =
    .ok (insertAll reloadFields cs data) ⟨bytes, bytes.length⟩ := by
  induction cs generalizing pre data fuel with
  | nil =>
    rw [flatMap_nil, append_nil] at hb
    subst hb
    obtain ⟨fuel, rfl⟩ := Nat.exists_eq_succ_of_ne_zero (Nat.ne_of_gt hfuel)
    exact if_neg (lt_irrefl _)
  | cons c cs ih =>
    obtain ⟨fuel, rfl⟩ :=
      Nat.exists_eq_succ_of_ne_zero (Nat.ne_of_gt (Nat.lt_of_le_of_lt (Nat.zero_le _) hfuel))
    rw [flatMap_cons] at hb hfuel
    rw [length_append] at hfuel
    have hpos := serializeClient_pos c
    have hmore : pre.length < bytes.length := by
      rw [hb, length_append, length_append]
      omega
    have hc := hcs c mem_cons_self
    refine (if_pos hmore).trans ?_
    rw [bind_ok (readClient_serialize hc.1 hc.2 hb)]
    rw [← append_assoc] at hb
    exact ih (fun d hd => hcs d (mem_cons_of_mem _ hd)) hb _ (by omega)

end Client

theorem Store.load_serialize {s : Store} (h : s.Storable) :
    ∃ s', Store.load (some s.serialize) = .ok s' ∧
    ∀ c k, s'.getValue c k = (s.getValue c k).map reload := by
  have hser : s.serialize = s.data.entries.flatMap serializeClient := rfl
  have hread := @readClients_serialize s.data.entries h s.serialize []
    (by rw [hser]; rfl) ∅ (s.serialize.length + 1)
    (by rw [← hser]; omega)
  refine ⟨⟨insertAll reloadFields s.data.entries ∅⟩, ?_, ?_⟩
  · rw [Store.load, Store.deserialize]
    rw [length_nil] at hread
    rw [hread]
  · intro c k
    rw [Store.getValue, Store.getValue, lookup_insertAll reloadFields s.data.nodupKeys]
    change ((Option.map reloadFields (s.data.lookup c)).or none).bind _ = _
    cases s.data.lookup c with
    | none => rfl
    | some fields => exact lookup_reloadFields fields k

end Garnet.Stash
