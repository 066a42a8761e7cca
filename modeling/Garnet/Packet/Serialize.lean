import Garnet.Packet.Buffer

/-! Serializing nested packets into one buffer. Each layer tells the one inside it how much space to
leave around its body, up to which length the body will be padded, and how long it may be. -/

namespace Garnet.Packet

/-- A sum in a `usize`, which wraps around in a release build. -/
def usizeAdd (a b : Nat) : Nat := (a + b) % 2 ^ 64

/-- A change of a mutable slice. The slice keeps its length. -/
def SliceChange : Type :=
  { f : List UInt8 → Except Fault (List UInt8) // ∀ dst new, f dst = .ok new → new.length = dst.length }

def copyFromSlice (src : List UInt8) : SliceChange where
  val dst := if src.length = dst.length then .ok src else .error .panic
  property dst new h := by
    by_cases hlen : src.length = dst.length
    · cases (if_pos hlen).symm.trans h
      exact hlen
    · cases (if_neg hlen).symm.trans h

structure InnerPacketBuilder where
  bytesLen : Nat
  serialize : SliceChange

/-- The `InnerPacketBuilder` of slices and vectors. -/
def InnerPacketBuilder.ofBytes (bytes : List UInt8) : InnerPacketBuilder :=
  ⟨bytes.length, copyFromSlice bytes⟩

/-- `serialize` is given the place of the body between the header and the footer. -/
structure PacketBuilder where
  headerLen : Nat
  minBodyLen : Nat
  maxBodyLen : Nat
  footerLen : Nat
  serialize : Nat × Nat → SliceChange
  no_overflow : headerLen + footerLen < 2 ^ 64

namespace Buf

/-- `Buf::new` for a range of the bytes. -/
def new (bytes : List UInt8) (lo hi : Nat) : Except Fault Buf :=
  if h : lo ≤ hi ∧ hi ≤ bytes.length then .ok ⟨bytes, lo, hi, h.1, h.2⟩ else .error .panic

variable (b : Buf)

def capacity : Nat := b.bytes.length

def body : List UInt8 := (b.bytes.take b.stop).drop b.start

def shrink (lo hi : Nat) : Except Fault Buf :=
  if hi ≤ b.len then new b.bytes (b.start + lo) (b.start + hi) else .error .panic

def reset : Except Fault Buf := do
  let b ← b.growFront b.prefixLen
  b.growBack b.suffixLen

def growFrontZero (n : Nat) : Except Fault Buf := do
  let b ← b.growFront n
  pure (b.zero b.start (b.start + n))

def growBackZero (n : Nat) : Except Fault Buf := do
  let grown ← b.growBack n
  pure (grown.zero b.stop grown.stop)

/-- A change of the body through `as_mut`. -/
def change (f : SliceChange) : Except Fault Buf := do
  let body ← f.val b.body
  new (b.bytes.take b.start ++ body ++ b.bytes.drop b.stop) b.start b.stop

/-- `BufferMut::serialize`: the body is padded to the minimum of the packet. -/
def serialize (b : Buf) (builder : PacketBuilder) : Except Fault Buf := do
  let b ← if b.len < builder.minBodyLen then b.growBackZero (builder.minBodyLen - b.len) else pure b
  let bodyLen := b.len
  let b ← b.growFrontZero builder.headerLen
  let b ← b.growBackZero builder.footerLen
  b.change (builder.serialize (builder.headerLen, builder.headerLen + bodyLen))

end Buf

structure SerializeConstraints where
  prefixLen : Nat
  minBodyLen : Nat
  suffixLen : Nat
  deriving Repr, DecidableEq

def SerializeConstraints.totalLen (c : SerializeConstraints) (bodyLen : Nat) : Nat :=
  usizeAdd (usizeAdd c.prefixLen bodyLen) c.suffixLen

inductive TruncateDirection where
  | discardFront
  | discardBack
  | noTruncating
  deriving Repr, DecidableEq

/-- The buffer cut down to the MTU, or nothing if it may not be cut. -/
def TruncateDirection.fit (direction : TruncateDirection) (buf : Buf) (mtu : Nat) :
    Except Fault (Option Buf) :=
  if mtu < buf.len then
    match direction with
    | noTruncating => pure none
    | discardFront => some <$> buf.shrink (buf.len - mtu) buf.len
    | discardBack => some <$> buf.shrink 0 (buf.len - (buf.len - mtu))
  else pure (some buf)

/-- The first four are the serializers of inner packets. -/
inductive Serializer where
  | innerPacketBuilder (builder : InnerPacketBuilder)
  | innerSerializer (builder : InnerPacketBuilder) (buf : Buf) (getBuf : Nat → Buf)
  | fnSerializer (builder : InnerPacketBuilder) (getBuf : Nat → Buf)
  | bufferSerializer (buf : Buf) (getBuf : Nat → Buf) (direction : TruncateDirection)
  | mtuSerializer (mtu : Nat) (inner : Serializer)
  | encapsulatingSerializer (builder : PacketBuilder) (inner : Serializer)

section Inner
variable (builder : InnerPacketBuilder) (buf : Buf) (getBuf : Nat → Buf)

/-- The packet is written behind the prefix. -/
def InnerPacketBuilder.serializeInto (prefixLen : Nat) : Except Fault Buf := do
  let buf ← buf.shrink prefixLen (usizeAdd prefixLen builder.bytesLen)
  buf.change builder.serialize

/-- `InnerSerializer::serialize_inner`: the buffer at hand if it is large enough. -/
def InnerPacketBuilder.serializeInner (prefixLen totalLen : Nat) : Except Fault Buf := do
  let buf ← if totalLen ≤ buf.capacity then buf.reset else pure (getBuf totalLen)
  builder.serializeInto buf prefixLen

/-- `BufferSerializer::serialize_inner`: the buffer as it is, or a copy of its body. -/
def Buf.serializeInner (c : SerializeConstraints) (bodyAndPadding totalLen : Nat) :
    Except Fault Buf :=
  if c.prefixLen ≤ buf.prefixLen ∧ usizeAdd bodyAndPadding c.suffixLen ≤ buf.len + buf.suffixLen then pure buf
  else do
    let newBuf ← (getBuf totalLen).shrink c.prefixLen (usizeAdd c.prefixLen buf.len)
    newBuf.change (copyFromSlice buf.body)

end Inner

/-- The minimum of the body and the MTU for the layer inside this one. -/
def PacketBuilder.minBodyMtu (builder : PacketBuilder) (minBody mtu : Nat) : Option (Nat × Nat) :=
  let headerFooterTotal := builder.headerLen + builder.footerLen
  if mtu < headerFooterTotal then none
  else some (max builder.minBodyLen (minBody - headerFooterTotal),
    min (mtu - headerFooterTotal) builder.maxBodyLen)

namespace Serializer

/-- An inner packet whose body fits is serialized; otherwise the serializer comes back with
`Mtu`. -/
def within (s : Serializer) (bodyLen mtu : Nat) (serialized : Except Fault Buf) :
    Except Fault (Except Serializer Buf) :=
  if bodyLen ≤ mtu then return .ok (← serialized) else return .error s

/-- The only `Err` is `Mtu`, and gives the serializer back. -/
def serializeMtu : Serializer → Nat → SerializeConstraints → Except Fault (Except Serializer Buf)
  | innerPacketBuilder builder, mtu, c =>
    let bodyLen := max c.minBodyLen builder.bytesLen
    (innerPacketBuilder builder).within bodyLen mtu do
      let buf ← Buf.new (List.replicate (c.totalLen bodyLen) 0) c.prefixLen
        (usizeAdd c.prefixLen builder.bytesLen)
      buf.change builder.serialize
  | innerSerializer builder buf getBuf, mtu, c =>
    let bodyLen := max c.minBodyLen builder.bytesLen
    (innerSerializer builder buf getBuf).within bodyLen mtu
      (builder.serializeInner buf getBuf c.prefixLen (c.totalLen bodyLen))
  | fnSerializer builder getBuf, mtu, c =>
    let bodyLen := max c.minBodyLen builder.bytesLen
    (fnSerializer builder getBuf).within bodyLen mtu
      (builder.serializeInto (getBuf (c.totalLen bodyLen)) c.prefixLen)
  | bufferSerializer buf getBuf direction, mtu, c =>
    if mtu < c.minBodyLen then return .error (bufferSerializer buf getBuf direction)
    else do
      match ← direction.fit buf mtu with
      | none => return .error (bufferSerializer buf getBuf direction)
      | some buf =>
        let bodyAndPadding := max c.minBodyLen buf.len
        if bodyAndPadding ≤ mtu then
          return .ok (← buf.serializeInner getBuf c bodyAndPadding (c.totalLen bodyAndPadding))
        else throw .panic
  | mtuSerializer selfMtu inner, mtu, c => do
    match ← inner.serializeMtu (min mtu selfMtu) c with
    | .ok buf => return .ok buf
    | .error inner => return .error (mtuSerializer selfMtu inner)
  | encapsulatingSerializer builder inner, mtu, c =>
    match builder.minBodyMtu c.minBodyLen mtu with
    | none => return .error (encapsulatingSerializer builder inner)
    | some (minBodyLen, mtu) => do
      match ← inner.serializeMtu mtu
        ⟨usizeAdd c.prefixLen builder.headerLen, minBodyLen,
          usizeAdd c.suffixLen builder.footerLen⟩ with
      | .ok buf => return .ok (← buf.serialize builder)
      | .error inner => return .error (encapsulatingSerializer builder inner)

def NoTruncation : Serializer → Prop
  | bufferSerializer _ _ direction => direction = .noTruncating
  | mtuSerializer _ s => s.NoTruncation
  | encapsulatingSerializer _ s => s.NoTruncation
  | _ => True

/-- The length of the packet, with the padding of its own layers only. -/
def packetLen : Serializer → Nat
  | innerPacketBuilder builder => builder.bytesLen
  | innerSerializer builder _ _ => builder.bytesLen
  | fnSerializer builder _ => builder.bytesLen
  | bufferSerializer buf _ _ => buf.len
  | mtuSerializer _ s => s.packetLen
  | encapsulatingSerializer b s => b.headerLen + max b.minBodyLen s.packetLen + b.footerLen

/-- The body of some layer is too long for the layer. -/
def Exceeds : Serializer → Prop
  | mtuSerializer limit s => limit < s.packetLen ∨ s.Exceeds
  | encapsulatingSerializer b s => b.maxBodyLen < max b.minBodyLen s.packetLen ∨ s.Exceeds
  | _ => False

/-- The padding that a layer adds to reach its minimum, here `minBody`, is counted against the limit
of a layer inside it. -/
def Squeezed : Serializer → Nat → Prop
  | mtuSerializer limit s, minBody => limit < minBody ∨ s.Squeezed minBody
  | encapsulatingSerializer b s, minBody => b.maxBodyLen < minBody - (b.headerLen + b.footerLen) ∨
      s.Squeezed (max b.minBodyLen (minBody - (b.headerLen + b.footerLen)))
  | _, _ => False

section Rejects
variable {s s' : Serializer} {len mtu : Nat} {c : SerializeConstraints} {x : Except Fault Buf}
  {P : Prop}

theorem ok_ne : (do return .ok (← x) : Except Fault (Except Serializer Buf)) ≠ .ok (.error s') := by
  cases x <;> nofun

theorem error_iff (hP : P) :
    (pure (.error s) : Except Fault (Except Serializer Buf)) = .ok (.error s') ↔ s' = s ∧ P := by
  refine ⟨fun h => ?_, fun h => h.1 ▸ rfl⟩
  cases h
  exact ⟨rfl, hP⟩

theorem within_error_iff : s.within len mtu x = .ok (.error s') ↔ s' = s ∧ mtu < len := by
  unfold within
  split
  next h => exact iff_of_false ok_ne fun h' => Nat.not_lt.mpr h h'.2
  next h => exact error_iff (Nat.lt_of_not_le h)

/-- An error of the layer inside is passed on with the layer around it. -/
theorem wrapped_error_iff {x : Except Fault (Except Serializer Buf)} {f : Buf → Except Fault Buf}
    {wrap : Serializer → Serializer} (hx : ∀ t, x = .ok (.error t) ↔ t = s ∧ P) :
    (do match ← x with
        | .ok buf => return .ok (← f buf)
        | .error t => return .error (wrap t) : Except Fault (Except Serializer Buf)) =
          .ok (.error s') ↔
      s' = wrap s ∧ P := by
  rcases x with e | t | buf
  · exact iff_of_false nofun fun h => nomatch (hx s).mpr ⟨rfl, h.2⟩
  · obtain ⟨rfl, hP⟩ := (hx t).mp rfl
    exact error_iff hP
  · exact iff_of_false ok_ne fun h => nomatch (hx s).mpr ⟨rfl, h.2⟩

/-- What the limits and the minima of all layers come to at the innermost one. -/
theorem serializeMtu_error_iff (hs : s.NoTruncation) : s.serializeMtu mtu c = .ok (.error s') ↔
    s' = s ∧ (s.Exceeds ∨ mtu < max c.minBodyLen s.packetLen ∨ s.Squeezed c.minBodyLen) := by
  induction s generalizing mtu c s' with
  | bufferSerializer buf getBuf direction =>
    obtain rfl : direction = .noTruncating := hs
    simp only [Exceeds, Squeezed, packetLen, false_or, or_false]
    unfold serializeMtu TruncateDirection.fit
    by_cases hmin : mtu < c.minBodyLen
    · rw [if_pos hmin]
      exact error_iff (by omega)
    rw [if_neg hmin]
    by_cases hlen : mtu < buf.len
    · rw [if_pos hlen]
      exact error_iff (by omega)
    rw [if_neg hlen]
    have hfits : max c.minBodyLen buf.len ≤ mtu := by omega
    exact iff_of_false (fun h => ok_ne ((if_pos hfits).symm.trans h))
      fun h => Nat.not_lt.mpr hfits h.2
  | mtuSerializer limit s ih =>
    refine (wrapped_error_iff (f := pure) fun t => ih hs).trans (and_congr_right fun _ => ?_)
    simp only [Exceeds, Squeezed, packetLen]
    grind
  | encapsulatingSerializer b s ih =>
    simp only [Exceeds, Squeezed, packetLen]
    unfold serializeMtu PacketBuilder.minBodyMtu
    by_cases hmtu : mtu < b.headerLen + b.footerLen
    · simp only [if_pos hmtu]
      exact error_iff (by omega)
    · simp only [if_neg hmtu]
      refine (wrapped_error_iff fun t => ih hs).trans (and_congr_right fun _ => ?_)
      grind
  | _ =>
    simp only [Exceeds, Squeezed, false_or, or_false]
    exact within_error_iff

/-- A packet is rejected when it does not fit, and also when the padding of a layer does not fit
into a layer inside it, which the padding is not part of. -/
theorem serializeMtu_rejects_iff (s : Serializer) (hs : s.NoTruncation) (mtu : Nat) :
    (((∃ s', s.serializeMtu mtu ⟨0, 0, 0⟩ = .ok (.error s')) ↔ s.Exceeds ∨ mtu < s.packetLen) ∧
      ∀ s', s.serializeMtu mtu ⟨0, 0, 0⟩ = .ok (.error s') → s' = s) ↔
      (s.Squeezed 0 → s.Exceeds ∨ mtu < s.packetLen) := by
  have herr : ∀ s', s.serializeMtu mtu ⟨0, 0, 0⟩ = .ok (.error s') ↔ _ :=
    fun s' => serializeMtu_error_iff hs
  simp only [herr, Nat.zero_max, exists_eq_left]
  constructor
  · rintro ⟨hiff, -⟩ hsq
    exact hiff.mp (.inr (.inr hsq))
  · intro h
    refine ⟨⟨?_, fun he => he.imp_right .inl⟩, fun s' he => he.1⟩
    rintro (he | hlt | hsq)
    · exact .inl he
    · exact .inr hlt
    · exact h hsq

/-- One byte under a limit, in a packet whose body is padded to two. -/
def padded (limit : Nat) : Serializer :=
  encapsulatingSerializer ⟨0, 2, 2, 0, fun _ => ⟨pure, by simp⟩, by decide⟩
    (mtuSerializer limit (innerPacketBuilder (.ofBytes [7])))

/-- The padding fits within a limit of two bytes. -/
theorem padded_rejected_iff :
    ((∃ s', (padded 2).serializeMtu 2 ⟨0, 0, 0⟩ = .ok (.error s')) ↔ (padded 2).Exceeds ∨
      2 < (padded 2).packetLen) ∧
      ∀ s', (padded 2).serializeMtu 2 ⟨0, 0, 0⟩ = .ok (.error s') → s' = padded 2 := by
  refine (serializeMtu_rejects_iff (padded 2) trivial 2).mpr fun hsq => ?_
  simp [padded, Squeezed] at hsq

theorem padded_rejected : (padded 1).serializeMtu 2 ⟨0, 0, 0⟩ = .ok (.error (padded 1)) ∧
    ¬ (padded 1).Exceeds ∧ (padded 1).packetLen ≤ 2 := by
  refine ⟨rfl, ?_, by decide⟩
  simp [padded, Exceeds, packetLen]
  decide

end Rejects

end Serializer

end Garnet.Packet
