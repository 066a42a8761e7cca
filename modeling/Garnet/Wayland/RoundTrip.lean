import Garnet.Wayland.Message

/-! What is written to a message is read back. -/

namespace Garnet.Wayland
open List
open LittleEndian Message

variable {H : Type} {bytes pre post : List UInt8} {hs : List H}

theorem computePadding_eq (size : Nat) : computePadding size = (4 - size % 4) % 4 := by
  have hmask : (3#64).toNat = 2 ^ 2 - 1 := rfl
  unfold computePadding
  rw [BitVec.toNat_and, hmask, Nat.and_two_pow_sub_one_eq_mod, BitVec.toNat_neg, BitVec.toNat_ofNat]
  omega

def sliceBody (s : List UInt8) (nullTerm : Bool) : List UInt8 :=
  toLe 4 (s.length + if nullTerm then 1 else 0) ++ (s ++ if nullTerm then [0] else [])

def sliceBytes (s : List UInt8) (nullTerm : Bool) : List UInt8 :=
  sliceBody s nullTerm ++ toLe (computePadding (sliceBody s nullTerm).length) 0

theorem sliceBytes_dvd (s : List UInt8) (nullTerm : Bool) : 4 ∣ (sliceBytes s nullTerm).length := by
  unfold sliceBytes
  rw [length_append, toLe_length, computePadding_eq]
  omega

namespace Arg

def wire : Arg H → List UInt8
  | .int i => toLe 4 i.toUInt32.toNat
  | .uint i => toLe 4 i.toNat
  | .fixed i => toLe 4 i.bits.toUInt32.toNat
  | .object i => toLe 4 i.toNat
  | .newId i => toLe 4 i.toNat
  | .string s => sliceBytes s true
  | .array a => sliceBytes a false
  | .handle _ => []

def handles : Arg H → List H
  | .handle h => [h]
  | _ => []

/-- Strings are text, and strings and arrays are short enough for their length to be written. -/
def Valid : Arg H → Prop
  | .string s => Utf8.valid s = true ∧ s.length < 2 ^ 32 - 1
  | .array a => a.length < 2 ^ 32 - 1
  | _ => True

theorem wire_dvd (a : Arg H) : 4 ∣ a.wire.length := by
  cases a <;> first
    | exact sliceBytes_dvd _ _
    | (unfold wire; rw [toLe_length])
    | exact dvd_zero 4

theorem append_wire_dvd {bytes : List UInt8} (h : 4 ∣ bytes.length) (a : Arg H) :
    4 ∣ (bytes ++ a.wire).length := by
  rw [length_append]
  exact Nat.dvd_add h a.wire_dvd

end Arg

theorem position_bind {α : Type} (m : Message H) (f : Nat → EStateM Fault (Message H) α) :
    (position >>= f) m = f m.byteBuf.pos m := rfl

theorem assert_aligned {m : Message H} (h : 4 ∣ m.byteBuf.pos) :
    (position >>= fun p => assert (p % 4 = 0)) m = .ok () m := by
  rw [position_bind, assert, if_pos (Nat.mod_eq_zero_of_dvd h)]
  rfl

section Write

def atEnd (bytes : List UInt8) (hs : List H) : Message H := ⟨⟨bytes, bytes.length⟩, hs⟩

theorem writeAll_end (b : List UInt8) :
    writeAll b (atEnd bytes hs) = .ok () (atEnd (bytes ++ b) hs) := by
  unfold writeAll atEnd
  dsimp only
  by_cases hb : b = []
  · rw [if_pos hb, hb, append_nil]
  · rw [if_neg hb, take_length, Cursor.grow_of_le (le_refl _),
      drop_of_length_le (Nat.le_add_right _ _), append_nil, length_append]

theorem writeU32_end (v : UInt32) : writeU32 v (atEnd bytes hs) =
    .ok () (atEnd (bytes ++ toLe 4 v.toNat) hs) := writeAll_end _

theorem toNat_length {s : List UInt8} (nullTerm : Bool) (hs : s.length < 2 ^ 32 - 1) :
    (if nullTerm then UInt32.ofNat s.length + 1 else UInt32.ofNat s.length).toNat =
    s.length + if nullTerm then 1 else 0 := by
  have hlen : (UInt32.ofNat s.length).toNat = s.length :=
    UInt32.toNat_ofNat_of_lt' (by change _ < 2 ^ 32; omega)
  cases nullTerm with
  | false => exact hlen
  | true =>
    change (UInt32.ofNat s.length + 1).toNat = s.length + 1
    rw [UInt32.toNat_add, hlen]
    exact Nat.mod_eq_of_lt (by change s.length + 1 < 2 ^ 32; omega)

theorem writePadding_end {body : List UInt8} (hdvd : 4 ∣ bytes.length) :
    writePadding bytes.length (atEnd (bytes ++ body) hs) =
      .ok () (atEnd (bytes ++ (body ++ toLe (computePadding body.length) 0)) hs) := by
  have hpad := computePadding_eq body.length
  have hsize : (atEnd (bytes ++ body) hs).byteBuf.pos - bytes.length = body.length := by simp [atEnd]
  unfold writePadding
  rw [position_bind]
  dsimp only
  rw [hsize]
  by_cases hpos : 0 < computePadding body.length
  · rw [if_pos hpos, bind_ok (writeAll_end _), assert_aligned, append_assoc]
    simp only [atEnd, length_append, toLe_length]
    omega
  · have hzero : computePadding body.length = 0 := Nat.eq_zero_of_not_pos hpos
    rw [if_neg hpos, hzero, toLe, append_nil, assert_aligned]
    simp only [atEnd, length_append]
    omega

theorem writeSlice_end {s : List UInt8} (nullTerm : Bool) (hdvd : 4 ∣ bytes.length)
    (hs' : s.length < 2 ^ 32 - 1) :
    writeSlice s nullTerm (atEnd bytes hs) =
    .ok () (atEnd (bytes ++ sliceBytes s nullTerm) hs) := by
  unfold writeSlice
  dsimp only
  rw [position_bind, bind_ok (writeU32_end _), toNat_length nullTerm hs', bind_ok (writeAll_end s),
    append_assoc]
  cases nullTerm with
  | true =>
    rw [if_pos rfl, bind_ok (writeAll_end [0]), append_assoc, append_assoc]
    exact writePadding_end hdvd
  | false =>
    have hbody : toLe 4 (s.length + if false = true then 1 else 0) ++ s = sliceBody s false := by
      unfold sliceBody
      rw [if_neg (c := false = true) nofun, if_neg (c := false = true) nofun, append_nil]
    rw [if_neg nofun, hbody]
    exact writePadding_end hdvd

theorem writeArg_end {a : Arg H} (hdvd : 4 ∣ bytes.length) (ha : a.Valid) :
    writeArg a (atEnd bytes hs) = .ok () (atEnd (bytes ++ a.wire) (hs ++ a.handles)) := by
  cases a with
  | handle h =>
    rw [Arg.wire, append_nil]
    rfl
  | string s =>
    rw [Arg.handles, append_nil]
    · exact writeSlice_end true hdvd ha.2
    · exact nofun
  | array s =>
    rw [Arg.handles, append_nil]
    · exact writeSlice_end false hdvd ha
    · exact nofun
  | int i | uint i | fixed i | object i | newId i =>
    rw [Arg.handles, append_nil]
    · exact writeU32_end _
    · exact nofun

theorem writeArgs_end {args : List (Arg H)} (hdvd : 4 ∣ bytes.length)
    (hargs : ∀ a ∈ args, a.Valid) :
    writeArgs args (atEnd bytes hs) =
    .ok () (atEnd (bytes ++ args.flatMap Arg.wire) (hs ++ args.flatMap Arg.handles)) := by
  induction args generalizing bytes hs with
  | nil =>
    rw [flatMap_nil, flatMap_nil, append_nil, append_nil]
    rfl
  | cons a args ih =>
    unfold writeArgs
    rw [bind_ok (writeArg_end hdvd (hargs a mem_cons_self)),
      ih (a.append_wire_dvd hdvd) fun e he => hargs e (mem_cons_of_mem _ he),
      flatMap_cons, flatMap_cons, append_assoc, append_assoc]

end Write

section Read
variable {data mid : List UInt8} {pos : Nat}

/-- A message that is read from `pos` on. -/
def atPos (data : List UInt8) (pos : Nat) (hs : List H) : Message H := ⟨⟨data, pos⟩, hs⟩

theorem readExact_at {n : Nat} (hdata : data = pre ++ (mid ++ post)) (hpos : pos = pre.length)
    (hn : n = mid.length) :
    readExact n (atPos data pos hs) = .ok mid (atPos data (pos + n) hs) := by
  subst hpos hn
  unfold readExact atPos
  rw [Cursor.readExact_append hdata]

theorem readU32_at {v : UInt32} (hdata : data = pre ++ (toLe 4 v.toNat ++ post))
    (hpos : pos = pre.length) : readU32 (atPos data pos hs) = .ok v (atPos data (pos + 4) hs) := by
  have hlt : v.toNat < 256 ^ 4 := v.toNat_lt
  unfold readU32
  rw [bind_ok (readExact_at hdata hpos (toLe_length _ _).symm), ofLe_toLe_of_lt hlt,
    UInt32.ofNat_toNat]
  rfl

theorem readI32_at {v : Int32} (hdata : data = pre ++ (toLe 4 v.toUInt32.toNat ++ post))
    (hpos : pos = pre.length) : readI32 (atPos data pos hs) = .ok v (atPos data (pos + 4) hs) := by
  unfold readI32
  rw [bind_ok (readU32_at hdata hpos), Int32.toInt32_toUInt32]
  rfl

theorem readPadding_at {body : List UInt8}
    (hdata : data = pre ++ (body ++ toLe (computePadding body.length) 0 ++ post))
    (hdvd : 4 ∣ pre.length) :
    readPadding pre.length (atPos data (pre.length + body.length) hs) =
      .ok () (atPos data (pre.length + (body ++
        toLe (computePadding body.length) 0).length) hs) := by
  have hassert {pos : Nat} (hpos : 4 ∣ pos) := assert_aligned (m := atPos data pos hs) hpos
  have hpad := computePadding_eq body.length
  unfold readPadding
  rw [position_bind]
  dsimp only
  rw [show (atPos data (pre.length + body.length) hs).byteBuf.pos - pre.length = _
      from Nat.add_sub_cancel_left _ _,
    length_append, toLe_length]
  by_cases hpos : 0 < computePadding body.length
  · have hread : readExact (computePadding body.length) (atPos data (pre.length + body.length) hs) =
        .ok (toLe (computePadding body.length) 0)
          (atPos data (pre.length + body.length + computePadding body.length) hs) := by
      apply @readExact_at H (pre ++ body) post hs data _ _ _ _ (length_append).symm
        (toLe_length _ _).symm
      rw [hdata, append_assoc, append_assoc]
    rw [if_pos hpos, bind_ok hread, hassert (by omega), add_assoc]
  · rw [if_neg hpos, hassert (by omega), Nat.eq_zero_of_not_pos hpos, add_zero]

theorem popTerm_at (s : List UInt8) (m : Message H) : popTerm (s ++ [0]) m = .ok s m := by
  unfold popTerm
  rw [List.getLast?_concat, dropLast_concat]
  rfl

theorem readSlice_at {s : List UInt8} (nullTerm : Bool)
    (hdata : data = pre ++ (sliceBytes s nullTerm ++ post)) (hdvd : 4 ∣ pre.length)
    (hs' : s.length < 2 ^ 32 - 1) :
    readSlice nullTerm (atPos data pre.length hs) =
    .ok s (atPos data (pre.length + (sliceBytes s nullTerm).length) hs) := by
  obtain ⟨text, htext⟩ : ∃ text, (s ++ if nullTerm then [0] else []) = text := ⟨_, rfl⟩
  obtain ⟨v, hv⟩ : ∃ v : UInt32, v.toNat = s.length + if nullTerm then 1 else 0 :=
    ⟨_, toNat_length nullTerm hs'⟩
  have hlength : text.length = v.toNat := by
    rw [← htext, length_append, hv]
    cases nullTerm <;> rfl
  have hbody : sliceBody s nullTerm = toLe 4 v.toNat ++ text := by
    unfold sliceBody
    rw [hv, htext]
  have hpadding := @readPadding_at H pre post hs data (sliceBody s nullTerm) hdata hdvd
  have hword : data = pre ++ (toLe 4 v.toNat ++
      (text ++ (toLe (computePadding (sliceBody s nullTerm).length) 0 ++ post))) := by
    rw [hdata, sliceBytes, hbody, append_assoc, append_assoc]
  have hbodyLength : (sliceBody s nullTerm).length = 4 + v.toNat := by
    rw [hbody, length_append, toLe_length, hlength]
  unfold readSlice
  rw [position_bind, bind_ok (readU32_at hword rfl)]
  by_cases hzero : v = 0
  · -- Only an empty array has the length 0, and it has no padding.
    rw [if_pos hzero]
    rw [hzero] at hv hbodyLength
    have hs0 : s = [] := eq_nil_of_length_eq_zero (by change 0 = _ at hv; omega)
    have hnone : computePadding (sliceBody s nullTerm).length = 0 := by
      rw [hbodyLength]
      rfl
    unfold sliceBytes
    rw [hnone, toLe, append_nil, hbodyLength, hs0]
    rfl
  · have hread := @readExact_at H (pre ++ toLe 4 v.toNat) _ hs data text (pre.length + 4) v.toNat
      (hword.trans (append_assoc _ _ _).symm)
      (by rw [length_append, toLe_length]) hlength.symm
    rw [if_neg hzero, bind_ok hread]
    have hend : (readPadding pre.length >>= fun _ => pure s) (atPos data (pre.length + 4 + v.toNat) hs) =
        .ok s (atPos data (pre.length + (sliceBytes s nullTerm).length) hs) := by
      rw [add_assoc, ← hbodyLength]
      exact bind_ok hpadding _
    cases nullTerm with
    | true =>
      rw [if_pos rfl, ← htext]
      exact (bind_ok (popTerm_at s _) _).trans hend
    | false =>
      have hsame : text = s := by
        rw [← htext]
        exact append_nil s
      rw [if_neg Bool.false_ne_true, hsame]
      exact hend

theorem readArg_at {a : Arg H} (ha : a.Valid) (hdata : data = pre ++ (a.wire ++ post))
    (hdvd : 4 ∣ pre.length) :
    readArg a.kind (atPos data pre.length (a.handles ++ hs)) =
    .ok a (atPos data (pre.length + a.wire.length) hs) := by
  cases a with
  | string s =>
    have hread := @readSlice_at H pre post hs data s true hdata hdvd ha.2
    have hlossy : Utf8.lossy s = s := Utf8.lossy_of_valid ha.1
    refine (bind_ok hread _).trans ?_
    change EStateM.Result.ok (Arg.string (Utf8.lossy s)) _ = _
    rw [hlossy]
    rfl
  | array s => exact bind_ok (@readSlice_at H pre post hs data s false hdata hdvd ha) _
  | handle h => rfl
  | int i | fixed i => exact bind_ok (readI32_at hdata rfl) _
  | uint i | object i | newId i => exact bind_ok (readU32_at hdata rfl) _

theorem readArgs_at {args : List (Arg H)} (hargs : ∀ a ∈ args, a.Valid)
    (hdata : data = pre ++ (args.flatMap Arg.wire ++ post)) (hdvd : 4 ∣ pre.length) :
    readArgs (args.map Arg.kind) (atPos data pre.length (args.flatMap Arg.handles ++ hs)) =
      .ok args (atPos data (pre.length + (args.flatMap Arg.wire).length) hs) := by
  induction args generalizing pre with
  | nil => rfl
  | cons a args ih =>
    rw [flatMap_cons, append_assoc] at hdata
    have hmore :=
      ih (fun e he => hargs e (mem_cons_of_mem _ he)) (hdata.trans (append_assoc _ _ _).symm)
      (a.append_wire_dvd hdvd)
    rw [length_append] at hmore
    rw [map_cons, flatMap_cons, flatMap_cons, append_assoc, length_append, ← add_assoc]
    unfold readArgs
    rw [bind_ok (readArg_at (hargs a mem_cons_self) hdata hdvd), bind_ok hmore]
    rfl

end Read

section Header
variable (header : MessageHeader)

def MessageHeader.word : UInt32 := (header.length.toUInt32 <<< 16) ||| header.opcode.toUInt32

theorem word_toNat : header.word.toNat = 2 ^ 16 * header.length.toNat + header.opcode.toNat := by
  have hlength := header.length.toNat_lt
  have hopcode := header.opcode.toNat_lt
  have hshift : (header.length.toUInt32 <<< 16).toNat = 2 ^ 16 * header.length.toNat := by
    rw [UInt32.toNat_shiftLeft, UInt16.toNat_toUInt32]
    change header.length.toNat <<< 16 % 2 ^ 32 = _
    rw [Nat.shiftLeft_eq, mul_comm]
    exact Nat.mod_eq_of_lt (by omega)
  unfold MessageHeader.word
  rw [UInt32.toNat_or, hshift, UInt16.toNat_toUInt32, Nat.two_pow_add_eq_or_of_lt hopcode]

theorem word_opcode : header.word.toUInt16 = header.opcode := by
  have hopcode := header.opcode.toNat_lt
  apply UInt16.toNat.inj
  rw [UInt32.toNat_toUInt16, word_toNat]
  omega

theorem word_length : (header.word >>> 16).toUInt16 = header.length := by
  have hlength := header.length.toNat_lt
  have hopcode := header.opcode.toNat_lt
  apply UInt16.toNat.inj
  rw [UInt32.toNat_toUInt16, UInt32.toNat_shiftRight, word_toNat]
  change (2 ^ 16 * header.length.toNat + header.opcode.toNat) >>> 16 % 2 ^ 16 = _
  rw [Nat.shiftRight_eq_div_pow]
  omega

def headerWire : List UInt8 := toLe 4 header.sender.toNat ++ toLe 4 header.word.toNat

theorem writeHeader_end :
    writeHeader header (atEnd bytes hs) = .ok () (atEnd (bytes ++ headerWire header) hs) := by
  unfold writeHeader
  rw [bind_ok (writeU32_end _), headerWire, ← append_assoc]
  exact writeU32_end _

theorem readHeader_at {data : List UInt8} (hdata : data = headerWire header ++ post) :
    readHeader (atPos data 0 hs) = .ok header (atPos data 8 hs) := by
  have hfirst : data = [] ++ (toLe 4 header.sender.toNat ++ (toLe 4 header.word.toNat ++ post)) := by
    rw [hdata, headerWire, append_assoc, nil_append]
  have hsecond : data = toLe 4 header.sender.toNat ++ (toLe 4 header.word.toNat ++ post) :=
    hfirst.trans (nil_append _)
  unfold readHeader
  rw [bind_ok (@readU32_at H [] _ hs data 0 _ hfirst rfl),
    bind_ok (readU32_at hsecond (by rw [toLe_length])), word_opcode, word_length]
  rfl

end Header

variable (header : Option MessageHeader)

def writeMessage (args : List (Arg H)) : EStateM Fault (Message H) Unit :=
  match header with
  | none => writeArgs args
  | some header => do
    writeHeader header
    writeArgs args

def readMessage (hasHeader : Bool) (kinds : List ArgKind) :
    EStateM Fault (Message H) (Option MessageHeader × List (Arg H)) :=
  match hasHeader with
  | false => do
    let args ← readArgs kinds
    return (none, args)
  | true => do
    let header ← readHeader
    let args ← readArgs kinds
    return (some header, args)

def headWire : Option MessageHeader → List UInt8
  | none => []
  | some header => headerWire header

theorem headWire_dvd : 4 ∣ (headWire header).length := by
  cases header with
  | none => exact dvd_zero 4
  | some header =>
    unfold headWire headerWire
    rw [length_append, toLe_length, toLe_length]
    exact ⟨2, rfl⟩

theorem writeMessage_new {args : List (Arg H)} (hargs : ∀ a ∈ args, a.Valid) :
    writeMessage header args .new =
    .ok () (atEnd (headWire header ++ args.flatMap Arg.wire) (args.flatMap Arg.handles)) := by
  cases header with
  | none => exact writeArgs_end (dvd_zero 4) hargs
  | some header =>
    refine (bind_ok (@writeHeader_end H [] [] header) _).trans ?_
    exact writeArgs_end (headWire_dvd (some header)) hargs

/-- What `writeMessage` writes is read back whole, and every argument ends on a word boundary. -/
theorem message_roundTrip (args : List (Arg H)) (hargs : ∀ a ∈ args, a.Valid) :
    (∃ m m', writeMessage header args .new = .ok () m ∧
      readMessage header.isSome (args.map Arg.kind) m.rewind = .ok (header, args) m' ∧
        m'.isEmpty = true) ∧
      ∀ k, ∃ m, writeMessage header (args.take k) .new = .ok () m ∧ 4 ∣ m.byteBuf.pos := by
  refine ⟨?_, fun k => ?_⟩
  · obtain ⟨data, hdata⟩ : ∃ data, headWire header ++ args.flatMap Arg.wire = data := ⟨_, rfl⟩
    have hwire : data = headWire header ++ (args.flatMap Arg.wire ++ []) := by
      rw [← hdata, append_nil]
    have hread := @readArgs_at H (headWire header) [] [] data args hargs hwire (headWire_dvd header)
    rw [append_nil, ← length_append, hdata] at hread
    refine ⟨_, atPos data data.length [], writeMessage_new header hargs, ?_, ?_⟩
    · rw [hdata]
      change readMessage _ _ (atPos data 0 (args.flatMap Arg.handles)) = _
      cases header with
      | none => exact bind_ok hread _
      | some header =>
        refine (bind_ok (readHeader_at header hwire) _).trans ?_
        exact bind_ok hread _
    · exact Bool.and_eq_true_iff.mpr ⟨decide_eq_true rfl, rfl⟩
  · have hvalid : ∀ a ∈ args.take k, a.Valid := fun a ha => hargs a (mem_of_mem_take ha)
    refine ⟨_, writeMessage_new header hvalid, ?_⟩
    change 4 ∣ (headWire header ++ (args.take k).flatMap Arg.wire).length
    rw [length_append]
    refine Nat.dvd_add (headWire_dvd header) ?_
    induction args.take k with
    | nil => exact Nat.dvd_zero 4
    | cons a args ih =>
      rw [flatMap_cons, length_append]
      exact Nat.dvd_add a.wire_dvd ih

theorem message_roundTrip_mixed :
    ∃ m m' : Message Unit, writeMessage none [.string [0x31], .array [], .handle ()] .new =
      .ok () m ∧
      readMessage false [.string, .array, .handle] m.rewind =
        .ok (none, [.string [0x31], .array [], .handle ()]) m' ∧
        m'.isEmpty = true := by
  apply (message_roundTrip none [.string [0x31], .array [], .handle ()] _).1
  rw [forall_mem_cons, forall_mem_cons, forall_mem_cons]
  exact ⟨⟨by decide, by decide⟩, Nat.zero_lt_succ _, trivial, nofun⟩

end Garnet.Wayland
