import Garnet.Logger.Main
import Garnet.Lib.LittleEndian
import Garnet.Lib.Splice

/-! The datagrams of the log socket, and which of them are messages. -/

namespace Garnet.Logger
open List LittleEndian

def metadataSize : Nat := 32
def fxLogMaxTags : Nat := 5
def fxLogMaxTagLen : Nat := 64

variable (bytes : List UInt8)

def index (i : Nat) : Except Fault UInt8 :=
  (bytes[i]?).elim (.error .panic) .ok

/-- `&bytes[start..stop]` -/
def subslice (start stop : Nat) : Except Fault (List UInt8) :=
  if start ≤ stop ∧ stop ≤ bytes.length then .ok (slice (stop - start) start bytes) else .error .panic

def fromUtf8 : Option String := String.fromUTF8? ⟨bytes.toArray⟩

def readMetadata : Except Fault LogMessage := do
  return {
    pid := .ofNat (ofLe (← subslice bytes 0 8))
    tid := .ofNat (ofLe (← subslice bytes 8 16))
    time := (BitVec.ofNat 64 (ofLe (← subslice bytes 16 24))).toInt
    severity := (BitVec.ofNat 32 (ofLe (← subslice bytes 24 28))).toInt
    droppedLogs := .ofNat (ofLe (← subslice bytes 28 metadataSize))
    tags := []
    msg := "" }

/-- The loop over the tags, with room for this many more. -/
def tagLoop (bytes : List UInt8) (room : Nat) (tags : List String) (pos : Nat) :
    Except Fault (Option (List String × Nat)) := do
  let tagLen := (← index bytes pos).toNat
  if tagLen = 0 then .ok (some (tags, pos))
  else match room with
    | 0 => .ok none
    | room + 1 =>
      if fxLogMaxTagLen - 1 < tagLen then .ok none
      else if bytes.length < pos + tagLen + 1 then .ok none
      else do
        match fromUtf8 (← subslice bytes (pos + 1) (pos + tagLen + 1)) with
        | none => .ok none
        | some tag =>
          if bytes.length ≤ pos + tagLen + 1 then .ok none
          else tagLoop bytes room (tags ++ [tag]) (pos + tagLen + 1)

/-- The message behind the tags, up to the first zero. -/
def findMsg (pos : Nat) : Except Fault (Option String) :=
  match (bytes.drop (pos + 1)).findIdx? (· == 0) with
  | none => .ok none
  | some n => do return fromUtf8 (← subslice bytes (pos + 1) (pos + 1 + n))

def convertToLogMessage : Except Fault (Option (LogMessage × Nat)) := do
  if bytes.length < metadataSize + 1 then .ok none
  else if (← index bytes (bytes.length - 1)) ≠ 0 then .ok none
  else
    let l ← readMetadata bytes
    match ← tagLoop bytes fxLogMaxTags [] metadataSize with
    | none => .ok none
    | some (tags, pos) =>
      match ← findMsg bytes pos with
      | none => .ok none
      | some msg => .ok (some ({ l with tags, msg }, pos + msg.utf8ByteSize + 1))

def utf8 (s : String) : List UInt8 := s.toByteArray.data.toList

theorem fromUtf8_eq_some {bytes : List UInt8} {s : String} :
    fromUtf8 bytes = some s ↔ bytes = utf8 s := by
  rw [fromUtf8, String.fromUTF8?, Option.dite_none_right_eq_some]
  constructor
  · rintro ⟨h, he⟩
    cases he
    rfl
  · rintro rfl
    exact ⟨s.isValidUTF8, rfl⟩

theorem utf8_length (s : String) : (utf8 s).length = s.utf8ByteSize := rfl

def tagBytes (tag : String) : List UInt8 := .ofNat (utf8 tag).length :: utf8 tag

def ShortTags (n : Nat) (tags : List String) : Prop :=
  tags.length ≤ n ∧ ∀ t ∈ tags, 1 ≤ (utf8 t).length ∧ (utf8 t).length ≤ 63

/-- The call returns, and it returns just the values of which `P` holds. -/
def Exact {α : Type} (x : Except Fault (Option α)) (P : α → Prop) : Prop :=
  ∃ r, x = .ok r ∧ ∀ a, r = some a ↔ P a

section Exact
variable {α β : Type} {x : Except Fault (Option α)} {P : α → Prop}

theorem Exact.fails (h : ∀ a, ¬ P a) : Exact (.ok none) P :=
  ⟨_, rfl, fun a => ⟨nofun, fun ha => absurd ha (h a)⟩⟩

theorem Exact.returns {a : α} (h : ∀ b, P b ↔ a = b) : Exact (.ok (some a)) P :=
  ⟨_, rfl, fun b => Option.some_inj.trans (h b).symm⟩

theorem Exact.congr {P' : α → Prop} (hx : Exact x P) (h : ∀ a, P a ↔ P' a) : Exact x P' :=
  hx.imp fun _ hr => ⟨hr.1, fun a => (hr.2 a).trans (h a)⟩

/-- The values of a call whose result, if it has one, goes to `g`. -/
theorem Exact.bind {g : Option α → Except Fault (Option β)} {R : α → β → Prop} (hx : Exact x P)
    (hnone : g none = .ok none) (hsome : ∀ a, P a → Exact (g (some a)) (R a)) :
    Exact (x >>= g) fun b => ∃ a, P a ∧ R a b := by
  obtain ⟨r, rfl, hr⟩ := hx
  rw [ok_bind]
  cases r with
  | none =>
    rw [hnone]
    exact .fails fun b ⟨a, ha, _⟩ => nomatch (hr a).mpr ha
  | some a =>
    refine (hsome a ((hr a).mp rfl)).congr fun b => ⟨fun h => ⟨a, (hr a).mp rfl, h⟩, ?_⟩
    rintro ⟨a', ha, h⟩
    cases (hr a').mpr ha
    exact h

end Exact

variable {bytes l rest : List UInt8} {pos room : Nat} {b : UInt8} {tags : List String}

theorem index_eq (h : bytes.drop pos = b :: l) : index bytes pos = .ok b := by
  rw [index, ← head?_drop, h]
  rfl

theorem subslice_eq {n : Nat} (h : bytes.drop pos = l) (hpos : pos ≤ bytes.length)
    (hn : n ≤ l.length) : subslice bytes pos (pos + n) = .ok (l.take n) := by
  have hl := congrArg length h
  rw [length_drop] at hl
  rw [subslice, if_pos ⟨by omega, by omega⟩, slice, h, Nat.add_sub_cancel_left]

/-- The bytes are these tags, the zero behind them, and more. -/
def Tagged (room : Nat) (bytes : List UInt8) (tags : List String) (rest : List UInt8) : Prop :=
  ShortTags room tags ∧ bytes = tags.flatMap tagBytes ++ 0 :: rest

theorem tag_size {t : String} (h : (utf8 t).length ≤ 63) :
    (UInt8.ofNat (utf8 t).length).toNat = (utf8 t).length :=
  UInt8.toNat_ofNat_of_lt' (by change _ < 256; omega)

theorem tagged_zero : Tagged room (0 :: l) tags rest ↔ tags = [] ∧ l = rest := by
  constructor
  · rintro ⟨hs, h⟩
    cases tags with
    | nil => exact ⟨rfl, (cons.inj h).2⟩
    | cons t ts =>
      obtain ⟨ht, ht'⟩ := hs.2 t mem_cons_self
      have hsize := tag_size ht'
      rw [← (cons.inj h).1] at hsize
      change 0 = _ at hsize
      omega
  · rintro ⟨rfl, rfl⟩
    exact ⟨⟨Nat.zero_le _, nofun⟩, rfl⟩

theorem tagged_cons (hb : b.toNat ≠ 0) :
    Tagged room (b :: l) tags rest ↔ ∃ t ts n, tags = t :: ts ∧ room = n + 1 ∧
    b.toNat ≤ 63 ∧ b.toNat ≤ l.length ∧ l.take b.toNat = utf8 t ∧
      Tagged n (l.drop b.toNat) ts rest := by
  constructor
  · rintro ⟨⟨hlen, hsize⟩, h⟩
    cases tags with
    | nil => exact absurd (congrArg UInt8.toNat (cons.inj h).1) hb
    | cons t ts =>
      rw [flatMap_cons, append_assoc, tagBytes, cons_append] at h
      obtain ⟨rfl, rfl⟩ := cons.inj h
      obtain ⟨ht, ht'⟩ := hsize t mem_cons_self
      rw [length_cons] at hlen
      rw [tag_size ht']
      refine ⟨t, ts, room - 1, rfl, by omega, ht', ?_, take_left .., ⟨by omega, ?_⟩, drop_left ..⟩
      · rw [length_append]
        omega
      · exact fun u hu => hsize u (mem_cons_of_mem t hu)
  · rintro ⟨t, ts, n, rfl, rfl, hmax, hle, htake, ⟨hlen, hsize⟩, hdrop⟩
    have ht : (utf8 t).length = b.toNat := by rw [← htake, length_take, Nat.min_eq_left hle]
    refine ⟨⟨Nat.succ_le_succ hlen, forall_mem_cons.mpr ⟨by omega, hsize⟩⟩, ?_⟩
    rw [flatMap_cons, append_assoc, ← hdrop, tagBytes, ht, UInt8.ofNat_toNat, ← htake, cons_append,
      take_append_drop]

theorem Tagged.behind (h : Tagged room (bytes.drop pos) tags rest) :
    pos + (tags.flatMap tagBytes).length < bytes.length ∧
      bytes.drop (pos + (tags.flatMap tagBytes).length + 1) = rest := by
  constructor
  · have hlen := congrArg length h.2
    rw [length_drop, length_append, length_cons] at hlen
    omega
  · rw [Nat.add_assoc, ← drop_drop, h.2, ← drop_drop, drop_left, drop_succ_cons, drop_zero]

theorem tagLoop_exact (room : Nat) (tags : List String) (pos : Nat) (hpos : pos < bytes.length) :
    Exact (tagLoop bytes room tags pos) fun a => ∃ new rest, Tagged room (bytes.drop pos) new rest ∧
      a = (tags ++ new, pos + (new.flatMap tagBytes).length) := by
  obtain ⟨b, l, hdrop⟩ : ∃ b l, bytes.drop pos = b :: l := ⟨_, _, drop_eq_getElem_cons hpos⟩
  have hlen := congrArg length hdrop
  rw [length_drop, length_cons] at hlen
  rw [tagLoop, index_eq hdrop, ok_bind, hdrop]
  by_cases hb : b.toNat = 0
  · obtain rfl := UInt8.toNat_inj.mp (hb.trans UInt8.toNat_zero.symm)
    refine .returns fun a => ?_
    simp [tagged_zero, eq_comm]
  · dsimp only
    rw [if_neg hb]
    simp only [tagged_cons hb]
    cases room with
    | zero => exact .fails (by simp)
    | succ room =>
      dsimp only
      by_cases hmax : fxLogMaxTagLen - 1 < b.toNat
      · rw [if_pos hmax]
        refine .fails ?_
        rintro a ⟨new, rest, ⟨t, ts, n, -, -, h, -⟩, -⟩
        exact Nat.not_lt.mpr h hmax
      by_cases hshort : bytes.length < pos + b.toNat + 1
      · rw [if_neg hmax, if_pos hshort]
        refine .fails ?_
        rintro a ⟨new, rest, ⟨t, ts, n, -, -, -, h, -⟩, -⟩
        omega
      have hl : bytes.drop (pos + 1) = l := by rw [← drop_drop, hdrop, drop_succ_cons, drop_zero]
      have hrest : bytes.drop (pos + 1 + b.toNat) = l.drop b.toNat := by rw [← drop_drop, hl]
      rw [if_neg hmax, if_neg hshort, Nat.add_right_comm, subslice_eq hl hpos (by omega),
        ok_bind]
      cases htag : fromUtf8 (l.take b.toNat) with
      | none =>
        refine .fails ?_
        rintro a ⟨new, rest, ⟨t, ts, n, -, -, -, -, h, -⟩, -⟩
        rw [fromUtf8_eq_some.mpr h] at htag
        cases htag
      | some tag =>
        have htake := fromUtf8_eq_some.mp htag
        have hsize : (tagBytes tag).length = b.toNat + 1 := by
          rw [tagBytes, length_cons, ← htake, length_take, Nat.min_eq_left (by omega)]
        have hend' : ∀ ts, pos + 1 + b.toNat + (ts.flatMap tagBytes).length =
            pos + ((tag :: ts).flatMap tagBytes).length := by
          intro ts
          rw [flatMap_cons, length_append, hsize]
          omega
        dsimp only
        split
        next hend =>
          refine .fails ?_
          rintro a ⟨new, rest, ⟨t, ts, n, -, -, -, -, -, h⟩, -⟩
          have hd := congrArg length h.2
          rw [length_append, length_cons, length_drop] at hd
          omega
        next hend =>
          refine (tagLoop_exact room (tags ++ [tag]) _ (by omega)).congr fun a => ?_
          rw [hrest]
          constructor
          · rintro ⟨new, rest, h, rfl⟩
            refine ⟨tag :: new, rest,
              ⟨tag, new, room, rfl, rfl, Nat.not_lt.mp hmax, by omega, htake, h⟩, ?_⟩
            rw [append_assoc, hend']
            rfl
          · rintro ⟨new, rest, ⟨t, ts, n, rfl, hn, -, -, h, hrest⟩, rfl⟩
            obtain rfl := Option.some.inj (htag.symm.trans (fromUtf8_eq_some.mpr h))
            cases hn
            refine ⟨ts, rest, hrest, ?_⟩
            rw [append_assoc, hend']
            rfl

theorem findIdx?_zero {as : List UInt8} (h : 0 ∉ as) :
    (as ++ 0 :: rest).findIdx? (· == 0) = some as.length := by
  rw [findIdx?_append, findIdx?_eq_none_iff.mpr]
  · simp [findIdx?_cons]
  · intro x hx
    exact beq_false_of_ne fun h0 => h (h0 ▸ hx)

theorem findMsg_exact (hpos : pos < bytes.length) : Exact (findMsg bytes pos) fun msg =>
    ∃ rest, bytes.drop (pos + 1) = utf8 msg ++ 0 :: rest ∧ 0 ∉ utf8 msg := by
  rw [findMsg]
  cases hn : (bytes.drop (pos + 1)).findIdx? (· == 0) with
  | none =>
    refine .fails ?_
    rintro msg ⟨rest, h, h0⟩
    rw [h, findIdx?_zero h0] at hn
    cases hn
  | some n =>
    obtain ⟨hlt, hz, hbefore⟩ := findIdx?_eq_some_iff_getElem.mp hn
    dsimp only
    rw [subslice_eq rfl hpos (Nat.le_of_lt hlt), ok_bind]
    refine ⟨_, rfl, fun msg => fromUtf8_eq_some.trans ⟨fun h => ?_, ?_⟩⟩
    · refine ⟨drop (n + 1) (bytes.drop (pos + 1)), ?_, ?_⟩
      · rw [← h, ← eq_of_beq hz, ← drop_eq_getElem_cons, take_append_drop]
      · rw [← h]
        intro h0
        obtain ⟨i, hi, h0⟩ := mem_iff_getElem.mp h0
        rw [getElem_take] at h0
        exact hbefore i (by rw [length_take] at hi; omega) (beq_of_eq h0)
    · rintro ⟨rest, h, h0⟩
      rw [h, findIdx?_zero h0] at hn
      cases hn
      rw [h, take_left]

theorem readMetadata_ok (h : 32 ≤ bytes.length) :
    ∃ l, readMetadata bytes = .ok l ∧ l.tags = [] ∧ l.msg = "" := by
  have hslice : ∀ start stop, start ≤ stop → stop ≤ 32 →
      subslice bytes start stop = .ok (slice (stop - start) start bytes) :=
    fun start stop h1 h2 => if_pos ⟨h1, le_trans h2 h⟩
  rw [readMetadata, hslice 0 8 (by decide) (by decide), hslice 8 16 (by decide) (by decide),
    hslice 16 24 (by decide) (by decide), hslice 24 28 (by decide) (by decide),
      hslice 28 metadataSize (by decide) (by decide)]
  exact ⟨_, rfl, rfl, rfl⟩

/-- A datagram is a message exactly if it has metadata, at most five short tags, a zero, a text, its
zero, and what follows ends with a zero; `pos` is where the zero of the text stands. -/
theorem convertToLogMessage_exact : Exact (convertToLogMessage bytes) fun (l, pos) =>
    ∃ metadata rest, bytes =
      metadata ++ (l.tags.flatMap tagBytes ++ 0 :: (utf8 l.msg ++ 0 :: rest)) ∧
      metadata.length = 32 ∧ ShortTags 5 l.tags ∧ 0 ∉ utf8 l.msg ∧ bytes.getLast? = some 0 ∧
      readMetadata bytes = .ok { l with tags := [], msg := "" } ∧
      pos = 32 + (l.tags.flatMap tagBytes).length + 1 + (utf8 l.msg).length := by
  unfold convertToLogMessage
  by_cases hlen : bytes.length < metadataSize + 1
  · rw [if_pos hlen]
    refine .fails ?_
    rintro ⟨l, pos⟩ ⟨metadata, rest, rfl, hm, -⟩
    simp [metadataSize] at hlen
    omega
  rw [if_neg hlen, index, ← getLast?_eq_getElem?]
  cases hlast : bytes.getLast? with
  | none =>
    rw [getLast?_eq_none_iff.mp hlast] at hlen
    exact absurd (by decide) hlen
  | some last =>
    rw [Option.elim_some, ok_bind]
    by_cases h0 : last = 0
    · subst h0
      obtain ⟨L, hL, htags, hmsg⟩ := readMetadata_ok (Nat.le_of_succ_le (Nat.not_lt.mp hlen))
      rw [if_neg (by simp), hL, ok_bind]
      refine Exact.congr ((tagLoop_exact _ _ _ (Nat.not_lt.mp hlen)).bind rfl fun a ha =>
        (findMsg_exact ?_).bind rfl
        fun msg hmsg => .returns fun b => Iff.rfl) fun ⟨l, pos⟩ => ⟨?_, ?_⟩
      · obtain ⟨tags, rest, h, rfl⟩ := ha
        exact h.behind.1
      · rintro ⟨_, ⟨tags, _, h, rfl⟩, msg, ⟨rest, hrest, hz⟩, he⟩
        cases he
        rw [h.behind.2] at hrest
        subst hrest
        refine ⟨bytes.take 32, rest, ?_, length_take_of_le (Nat.le_of_succ_le (Nat.not_lt.mp hlen)),
          h.1, hz, rfl, ?_, ?_⟩
        · exact (take_append_drop 32 bytes).symm.trans (congrArg _ h.2)
        · rw [← htags, ← hmsg]
        · rw [← utf8_length]
          exact Nat.add_right_comm ..
      · rintro ⟨metadata, rest, h, hm, hs, hz, -, hL', rfl⟩
        have ht : Tagged 5 (bytes.drop 32) l.tags (utf8 l.msg ++ 0 :: rest) :=
          ⟨hs, by rw [h, ← hm, drop_left]⟩
        refine ⟨_, ⟨_, _, ht, rfl⟩, l.msg, ⟨rest, ht.behind.2, hz⟩, Prod.ext ?_ ?_⟩
        · rw [Except.ok.inj hL']
          rfl
        · rw [← utf8_length]
          exact Nat.add_right_comm ..
    · rw [if_pos h0]
      exact .fails fun _ ⟨_, _, _, _, _, _, h, _⟩ => h0 (Option.some.inj h)

end Garnet.Logger
