import Garnet.Stash.Prefix
import Garnet.Lib.Align
import Mathlib.Algebra.Order.BigOperators.Group.List
import Mathlib.Algebra.Group.Action.Defs

/-! The messages in which the iterators send their chunks, against the limit of a channel. -/

namespace Garnet.Stash
open List

section Messages
variable {α : Type}

/-- The bytes of a response: the headers of the message and of the vector, and the elements. -/
def messageBytes (element : α → Nat) (chunk : List α) : Nat := 16 + 16 + (chunk.map element).sum

/-- `responder.send` on a channel, which takes no message over its limit. -/
def respond (element : α → Nat) (next : List α → Except Fault (List α × List α)) (results : List α) :
    Except Fault (List α × List α) := do
  let (chunk, rest) ← next results
  if channelMaxMsgBytes < messageBytes element chunk then
    .error (.error "A server encountered an IO error writing a FIDL response to a channel: OUT_OF_RANGE")
  else pure (chunk, rest)

/-- What an iterator has left after some calls of `GetNext`. -/
inductive Pending (next : List α → Except Fault (List α × List α)) (results : List α) : List α → Prop
  | start : Pending next results results
  | next {rest chunk rest'} : Pending next results rest → next rest = .ok (chunk, rest') →
      Pending next results rest'

/-- Every response fits in a message, and a client that drains the iterator gets what it would get
from a channel without a limit. -/
structure Delivered (element : α → Nat) (next : List α → Except Fault (List α × List α))
    (results : List α) : Prop where
  fits : ∀ {rest chunk rest'}, Pending next results rest → next rest = .ok (chunk, rest') →
    messageBytes element chunk ≤ channelMaxMsgBytes
  drains : ∀ fuel, drain (respond element next) fuel results = drain next fuel results

variable {element : α → Nat} {next : List α → Except Fault (List α × List α)} {results : List α}
  {rest : List α} {b : Nat}

theorem drain_respond (hfits : ∀ {rest chunk rest'}, Pending next results rest →
      next rest = .ok (chunk, rest') → messageBytes element chunk ≤ channelMaxMsgBytes) (fuel : Nat)
    (hp : Pending next results rest) :
    drain (respond element next) fuel rest = drain next fuel rest := by
  induction fuel generalizing rest with
  | zero => rfl
  | succ fuel ih =>
    cases hnext : next rest with
    | error e => simp only [drain, respond, hnext, error_bind]
    | ok cr =>
      have hfit := Nat.not_lt_of_le (hfits hp hnext)
      simp only [drain, respond, hnext, ok_bind, if_neg hfit, except_pure, ih (hp.next hnext)]

theorem messageBytes_le {chunk : List α} (h : ∀ x ∈ chunk, element x ≤ b) :
    messageBytes element chunk ≤ 16 + 16 + chunk.length * b := by
  have hsum := sum_le_card_nsmul (chunk.map element) b (by simpa using h)
  rw [length_map, smul_eq_mul] at hsum
  exact Nat.add_le_add_left hsum _

/-- An iterator that sends the last `size` results, if it sends any. -/
theorem Pending.subset {size : Nat} (hnext : ∀ {rs cr}, next rs = .ok cr → cr = nextChunk size rs)
    (hp : Pending next results rest) : rest <+: results := by
  induction hp with
  | start => exact prefix_refl _
  | next _ hn ih =>
    obtain ⟨-, rfl⟩ := Prod.mk.inj (hnext hn)
    refine .trans ?_ ih
    exact List.take_prefix _ _

theorem delivered_of_le (size : Nat) (hnext : ∀ {rs cr}, next rs = .ok cr → cr = nextChunk size rs)
    (hb : ∀ x ∈ results, element x ≤ b)
    (hsize : 16 + 16 + min results.length size * b ≤ channelMaxMsgBytes) :
    Delivered element next results := by
  have hfits : ∀ {rest chunk rest'}, Pending next results rest → next rest = .ok (chunk, rest') →
      messageBytes element chunk ≤ channelMaxMsgBytes := by
    intro rest chunk rest' hp hn
    have hpre := hp.subset hnext
    have hlen := hpre.length_le
    obtain ⟨rfl, -⟩ := Prod.mk.inj (hnext hn)
    have hcount : (rest.drop (rest.length - min size rest.length)).length ≤
        min results.length size := by
      rw [length_drop]
      omega
    refine le_trans (messageBytes_le fun x hx => hb x (hpre.subset (mem_of_mem_drop hx))) ?_
    exact (Nat.add_le_add_left (Nat.mul_le_mul_right b hcount) _).trans hsize
  exact ⟨hfits, fun fuel => drain_respond hfits fuel .start⟩

end Messages

section Iterators
open Accessor (listNext getNext)

/-- A `ListItem`: the header of a string and a type of one byte, and the bytes of the string. -/
def listItemBytes (item : ListItem) : Nat := roundUp 8 (16 + 1) + roundUp 8 item.key.length

/-- The bytes of a value outside its union. -/
def valueBytes : Value → Nat
  | .stringval s => roundUp 8 s.length
  | _ => 0

/-- A `KeyValue`: the header of a string and a union of 24 bytes, and the bytes of the strings. -/
def keyValueBytes (item : KeyValue) : Nat :=
  roundUp 8 (16 + 24) + roundUp 8 item.key.length + valueBytes item.payload

theorem getNext_eq {enableBytes : Bool} {rs : List KeyValue} {cr : List KeyValue × List KeyValue}
    (h : getNext enableBytes rs = .ok cr) : cr = nextChunk getPrefixChunkSize rs := by
  unfold getNext at h
  dsimp only at h
  split at h
  · cases h
  · exact (Except.ok.inj h).symm

theorem listNext_replicate (n : Nat) (item : ListItem) : ∃ rest,
    listNext (List.replicate n item) =
      .ok (List.replicate (min n listPrefixChunkSize) item, rest) := by
  have hcount : n - (n - min listPrefixChunkSize n) = min n listPrefixChunkSize := by omega
  refine ⟨_, congrArg Except.ok (Prod.ext ?_ rfl)⟩
  rw [nextChunk, length_replicate, drop_replicate, hcount]

theorem list_delivered {results : List ListItem} {size : Nat}
    (hkeys : ∀ item ∈ results, item.key.length ≤ size)
    (hle : min results.length 240 * (24 + roundUp 8 size) ≤ 65504) :
    Delivered listItemBytes listNext results := by
  refine delivered_of_le listPrefixChunkSize (fun h => (Except.ok.inj h).symm)
    (fun x hx => Nat.add_le_add_left (roundUp_mono 8 (hkeys x hx)) _) ?_
  change 32 + min results.length 240 * (24 + roundUp 8 size) ≤ 65536
  omega

theorem get_delivered (enableBytes : Bool) {values : List KeyValue} (hsizes : ∀ item ∈ values,
    item.key.length ≤ maxKeySize ∧ ∀ s, item.payload = .stringval s → s.length ≤ maxStringSize) :
    Delivered keyValueBytes (getNext enableBytes) values := by
  refine delivered_of_le getPrefixChunkSize (b := 40 + 256 + 12000) getNext_eq (fun x hx => ?_) ?_
  · obtain ⟨hkey, hvalue⟩ := hsizes x hx
    have hval : valueBytes x.payload ≤ 12000 := by
      cases hp : x.payload with
      | stringval s => exact roundUp_mono 8 (hvalue s hp)
      | _ => exact Nat.zero_le _
    exact Nat.add_le_add (Nat.add_le_add_left (roundUp_mono 8 hkey) _) hval
  · have hmin : min values.length getPrefixChunkSize ≤ 5 := min_le_right ..
    exact (Nat.add_le_add_left (Nat.mul_le_mul_right _ hmin) _).trans (by decide)

/-- The responses of `get_prefix` always fit in a message. Those of `list_prefix` fit, for all lists
of `n` results with keys of up to `size` bytes, exactly when that many of the longest keys do. -/
theorem prefix_responses_fit_iff (n size : Nat) (enableBytes : Bool) (values : List KeyValue) :
    ((∀ results : List ListItem, results.length = n → (∀ item ∈ results, item.key.length ≤ size) →
        Delivered listItemBytes listNext results) ↔ min n 240 * (24 + roundUp 8 size) ≤ 65504) ∧
    ((∀ item ∈ values, item.key.length ≤ maxKeySize ∧
        ∀ s, item.payload = .stringval s → s.length ≤ maxStringSize) →
      Delivered keyValueBytes (getNext enableBytes) values) := by
  refine ⟨⟨fun h => ?_, ?_⟩, get_delivered enableBytes⟩
  · have hall := h (List.replicate n ⟨List.replicate size 97, .intVal⟩) (by simp) fun item hi => by
      rw [eq_of_mem_replicate hi, length_replicate]
    obtain ⟨rest, hnext⟩ := listNext_replicate n ⟨List.replicate size 97, .intVal⟩
    have hfit := hall.fits .start hnext
    rw [messageBytes, map_replicate, sum_replicate, smul_eq_mul, listItemBytes,
      length_replicate] at hfit
    change 32 + min n 240 * (24 + roundUp 8 size) ≤ 65536 at hfit
    omega
  · rintro hle results rfl hkeys
    exact list_delivered hkeys hle

def longKey (i : Nat) : Key :=
  UInt8.ofNat (97 + i / 16) :: UInt8.ofNat (97 + i % 16) :: List.replicate 254 97

theorem longKey_length (i : Nat) : (longKey i).length = 256 := by
  rw [longKey, length_cons, length_cons, length_replicate]

def longFields (n : Nat) : List (Σ _ : Key, Value) :=
  (List.range n).map fun i => ⟨longKey i, .boolval true⟩

def longItems (n : Nat) : List ListItem := (List.range n).map fun i => ⟨longKey i, .boolVal⟩

theorem longFields_nodupKeys {n : Nat} (hn : n ≤ 2048) : (longFields n).NodupKeys := by
  rw [List.NodupKeys, longFields, List.keys, map_map]
  refine List.Nodup.map_on (fun i hi j hj hij => ?_) nodup_range
  obtain ⟨h1, h2⟩ := List.cons.inj hij
  have h1 := congrArg UInt8.toNat h1
  have h2 := congrArg UInt8.toNat (List.cons.inj h2).1
  rw [mem_range] at hi hj
  simp only [UInt8.toNat_ofNat'] at h1 h2
  omega

/-- A client has 234 keys of the largest size. -/
def longKeys : StoreManager :=
  ⟨⟨AList.singleton [] ⟨longFields 234, longFields_nodupKeys (by decide)⟩⟩, none, none, []⟩

theorem listPrefix_longKeys :
    (Accessor.new true false []).listPrefix longKeys [] = longItems 234 := by
  have hunder : longKeys.under valueToType [] [] = longItems 234 := by
    have hlookup : longKeys.store.data.lookup [] =
        some ⟨longFields 234, longFields_nodupKeys (by decide)⟩ := rfl
    rw [StoreManager.under, hlookup]
    have hall : (longFields 234).filter (fun e => [].isPrefixOf e.1) = longFields 234 :=
      filter_eq_self.mpr fun _ _ => rfl
    rw [Option.getD_some, hall, longFields, map_map]
    rfl
  rw [Accessor.listPrefix, StoreManager.listPrefix, fieldsUnder_eq fun _ => rfl, ← hunder]
  rfl

theorem messageBytes_longItems (n : Nat) :
    messageBytes listItemBytes (longItems n) = 32 + n * 280 := by
  have hitem : listItemBytes ∘ (fun i => ⟨longKey i, .boolVal⟩) = fun _ => 280 := by
    funext i
    rw [Function.comp_apply, listItemBytes, longKey_length]
    rfl
  rw [messageBytes, longItems, map_map, hitem, map_const', sum_replicate, smul_eq_mul,
    length_range]

theorem listNext_longItems {n : Nat} (hn : n ≤ listPrefixChunkSize) :
    listNext (longItems n) = .ok (longItems n, []) := by
  rw [Accessor.listNext, nextChunk, longItems, length_map, length_range, min_eq_right hn,
    Nat.sub_self]
  rfl

/-- A client with 234 keys of 256 bytes cannot list them. -/
theorem long_keys_not_listed :
    ∃ results, (Accessor.new true false []).listPrefix longKeys [] = results ∧
    (∀ item ∈ results, item.key.length ≤ maxKeySize) ∧
    (∃ chunk rest, listNext results = .ok (chunk, rest) ∧
      channelMaxMsgBytes < messageBytes listItemBytes chunk) ∧
    ∀ fuel, ∃ e, drain (respond listItemBytes listNext) fuel results = .error e := by
  have hnext : listNext (longItems 234) = _ := listNext_longItems (by decide)
  have hlarge : channelMaxMsgBytes < messageBytes listItemBytes (longItems 234) := by
    rw [messageBytes_longItems]
    decide
  refine ⟨_, listPrefix_longKeys, fun item hi => ?_, ⟨_, _, hnext, hlarge⟩, fun fuel => ?_⟩
  · obtain ⟨i, -, rfl⟩ := mem_map.mp hi
    exact le_of_eq (longKey_length i)
  · cases fuel with
    | zero => exact ⟨_, rfl⟩
    | succ fuel =>
      simp only [drain, respond, hnext, ok_bind, if_pos hlarge, error_bind]
      exact ⟨_, rfl⟩

end Iterators

end Garnet.Stash
