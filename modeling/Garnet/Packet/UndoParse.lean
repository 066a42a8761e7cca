import Garnet.Packet.Views

/-! Undoing the parses of nested packets. The metadata of a packet leaves out the padding behind it,
which is found again from the length of the body around it. -/

namespace Garnet.Packet

/-- A packet takes bytes from one side of the body. -/
inductive Consume where
  | front (n : Nat)
  | back (n : Nat)
  deriving Repr, DecidableEq

namespace Consume

def run (v : BufView) : Consume → Option BufView
  | front n => (v.takeFront n).map Prod.snd
  | back n => (v.takeBack n).map Prod.snd

def frontLen : List Consume → Nat
  | [] => 0
  | front n :: cs => n + frontLen cs
  | back _ :: cs => frontLen cs

def backLen : List Consume → Nat
  | [] => 0
  | front _ :: cs => backLen cs
  | back n :: cs => n + backLen cs

theorem run_spec {v v' : BufView} {c : Consume} (h : c.run v = some v') :
    v'.buf.bytes = v.buf.bytes ∧ v'.buf.start = v.buf.start + frontLen [c] ∧
      v'.buf.stop + backLen [c] = v.buf.stop := by
  cases c with
  | front n =>
    obtain ⟨⟨r, w⟩, htake, rfl⟩ := Option.map_eq_some_iff.mp h
    unfold BufView.takeFront at htake
    split at htake
    · cases htake
    · cases htake
      exact ⟨rfl, rfl, rfl⟩
  | back n =>
    obtain ⟨⟨r, w⟩, htake, rfl⟩ := Option.map_eq_some_iff.mp h
    unfold BufView.takeBack at htake
    split at htake
    · cases htake
    next hn =>
      have hlen := v.len_eq
      rw [Buf.len] at hlen
      cases htake
      exact ⟨rfl, rfl, Nat.sub_add_cancel (by omega)⟩

theorem runs_spec {cs : List Consume} {v v' : BufView} (h : cs.foldlM run v = some v') :
    v'.buf.bytes = v.buf.bytes ∧ v'.buf.start = v.buf.start + frontLen cs ∧
      v'.buf.stop + backLen cs = v.buf.stop := by
  induction cs generalizing v with
  | nil =>
    cases h
    exact ⟨rfl, rfl, rfl⟩
  | cons c cs ih =>
    obtain ⟨w, hc, hcs⟩ := Option.bind_eq_some_iff.mp ((List.foldlM_cons ..).symm.trans h)
    obtain ⟨hb1, hs1, he1⟩ := run_spec hc
    obtain ⟨hb2, hs2, he2⟩ := ih hcs
    refine ⟨hb2.trans hb1, ?_⟩
    cases c <;> simp only [frontLen, backLen] at * <;> omega

end Consume

/-- A packet is parsed from the body of the first buffer and leaves its own body in the second. It
discards `padding` bytes behind its footer. An inner packet has no body. -/
inductive Parsed (b : Buf) : Nat → ParseMetadata → Buf → Prop
  | packet {cs v padding} : cs.foldlM Consume.run b.bufferView = some v → padding ≤ Consume.backLen cs →
      Parsed b padding (.fromPacket (Consume.frontLen cs) v.buf.len (Consume.backLen cs - padding))
        v.buf
  | inner {cs v} : cs.foldlM Consume.run b.bufferView = some v → v.buf.len = 0 →
      Parsed b (Consume.backLen cs) (.fromInnerPacket (Consume.frontLen cs)) v.buf

/-- Packets parsed one inside the other, each with the padding behind it. -/
inductive Parses : Buf → List (Nat × ParseMetadata) → Buf → Prop
  | nil {b} : Parses b [] b
  | cons {b b' b'' padding m ms} : Parsed b padding m b' → Parses b' ms b'' →
      Parses b ((padding, m) :: ms) b''

/-- `undo_parse` on the metadata of several packets, the last one first. -/
def Buf.undoAll (ms : List (Nat × ParseMetadata)) (b : Buf) : Except Fault Buf :=
  ms.foldrM (fun m b => b.undoParse m.2) b

section Undo
variable {b b' b'' : Buf} {padding n : Nat} {m : ParseMetadata} {ms : List (Nat × ParseMetadata)}

theorem Parsed.spec (h : Parsed b padding m b') : b'.bytes = b.bytes ∧
    b'.start = b.start + m.headerLen ∧ b'.stop + m.footerLen + padding = b.stop ∧
      m.bodyLen = b'.len := by
  cases h with
  | packet h hp =>
    obtain ⟨hb, hs, he⟩ := Consume.runs_spec h
    refine ⟨hb, hs, ?_, rfl⟩
    change _ + (_ - padding) + padding = b.stop
    rw [Nat.add_assoc, Nat.sub_add_cancel hp]
    exact he
  | inner h h0 =>
    obtain ⟨hb, hs, he⟩ := Consume.runs_spec h
    exact ⟨hb, hs, he, h0.symm⟩

theorem growBack_ok (h : b.stop + n ≤ b.bytes.length) : ∃ u, b.growBack n = .ok u ∧
    u.bytes = b.bytes ∧ u.start = b.start ∧ u.stop = b.stop + n :=
  ⟨_, dif_pos (Nat.le_sub_of_add_le' h), rfl, rfl, rfl⟩

theorem growFront_ok (h : n ≤ b.start) : ∃ u, b.growFront n = .ok u ∧
    u.bytes = b.bytes ∧ u.start + n = b.start ∧ u.stop = b.stop :=
  ⟨_, if_pos h, rfl, Nat.sub_add_cancel h, rfl⟩

/-- One packet is undone, in a buffer whose body may lack the padding of the packet inside it. -/
theorem Parsed.undo (h : Parsed b padding m b') {u : Buf} (hbytes : u.bytes = b.bytes)
    (hstart : u.start = b'.start) (hstop : u.stop ≤ b'.stop) : ∃ w, u.undoParse m = .ok w ∧
      w.bytes = b.bytes ∧ w.start = b.start ∧ w.stop + padding = b.stop := by
  obtain ⟨-, hs, he, hlen⟩ := h.spec
  have hin := b.inside
  have hbody : ∃ w, u.addPadding m.bodyLen = .ok w ∧
      w.bytes = b.bytes ∧ w.start = b'.start ∧ w.stop = b'.stop := by
    have hu := u.ordered
    rw [Buf.addPadding, hlen, Buf.len, Buf.len, hstart]
    split
    next hlt =>
      have hroom : u.stop + (b'.stop - b'.start - (u.stop - b'.start)) = b'.stop := by omega
      obtain ⟨w, hw, hwb, hws, hwe⟩ :=
        growBack_ok (b := u) (n := b'.stop - b'.start - (u.stop - b'.start))
        (by rw [hroom, hbytes]; omega)
      exact ⟨w, hw, hwb.trans hbytes, hws.trans hstart, hwe.trans hroom⟩
    next hge => exact ⟨u, rfl, hbytes, hstart, by omega⟩
  obtain ⟨w1, hw1, hb1, hs1, he1⟩ := hbody
  obtain ⟨w2, hw2, hb2, hs2, he2⟩ := growFront_ok (b := w1) (n := m.headerLen) (by omega)
  obtain ⟨w3, hw3, hb3, hs3, he3⟩ :=
    growBack_ok (b := w2) (n := m.footerLen) (by rw [hb2, hb1]; omega)
  refine ⟨w3, ?_, hb3.trans (hb2.trans hb1), by omega, by omega⟩
  rw [Buf.undoParse, hw1, ok_bind, hw2, ok_bind, hw3]

theorem Parses.undoAll (h : Parses b ((padding, m) :: ms) b'') :
    ∃ u, b''.undoAll ((padding, m) :: ms) = .ok u ∧
    u.bytes = b.bytes ∧ u.start = b.start ∧ u.stop + padding = b.stop := by
  induction ms generalizing b padding m with
  | nil =>
    cases h with
    | cons hp hr =>
      cases hr
      obtain ⟨w, hw, hspec⟩ := hp.undo hp.spec.1 rfl (Nat.le_refl _)
      exact ⟨w, by simpa [Buf.undoAll] using hw, hspec⟩
  | cons m' ms ih =>
    cases h with
    | cons hp hr =>
      obtain ⟨u, hu, hbytes, hstart, hstop⟩ := ih hr
      obtain ⟨w, hw, hspec⟩ := hp.undo (hbytes.trans hp.spec.1) hstart (by omega)
      refine ⟨w, ?_, hspec⟩
      rw [Buf.undoAll] at hu ⊢
      rw [List.foldrM_cons, hu]
      exact hw

theorem Parses.bytes (h : Parses b ms b'') : b''.bytes = b.bytes := by
  induction h with
  | nil => rfl
  | cons hp _ ih => exact ih.trans hp.spec.1

theorem Parses.split {before : List (Nat × ParseMetadata)} (h : Parses b (before ++ ms) b'') :
    ∃ bk, Parses b before bk ∧ Parses bk ms b'' := by
  induction before generalizing b with
  | nil => exact ⟨b, .nil, h⟩
  | cons m' before ih =>
    cases h with
    | cons hp hr =>
      obtain ⟨bk, h1, h2⟩ := ih hr
      exact ⟨bk, .cons hp h1, h2⟩

/-- Undoing the packets from the last one back to any of them returns and makes the body the bytes
of that packet, without the padding behind it. -/
theorem undo_parse_restores {before after : List (Nat × ParseMetadata)}
    (h : Parses b (before ++ (padding, m) :: after) b'') :
    ∃ bk u, Parses b before bk ∧ (before = [] → bk = b) ∧ Parses bk ((padding, m) :: after) b'' ∧
      b''.undoAll ((padding, m) :: after) = .ok u ∧ u.bytes = b.bytes ∧ u.start = bk.start ∧
      u.stop + padding = bk.stop := by
  obtain ⟨bk, hbefore, hrest⟩ := h.split
  obtain ⟨u, hu, hbytes, hstart, hstop⟩ := hrest.undoAll
  refine ⟨bk, u, hbefore, ?_, hrest, hu, hbytes.trans hbefore.bytes, hstart, hstop⟩
  rintro rfl
  cases hbefore
  rfl

def eightBytes : Buf := ⟨[0, 1, 2, 3, 4, 5, 6, 7], 1, 8, by decide, by decide⟩

/-- A packet with a header, a footer and one byte of padding, and in it an inner packet with two
bytes of padding. -/
theorem eightBytes_parsed : ∃ b'', Parses eightBytes [(1, ⟨1, 4, 1⟩), (2, ⟨2, 0, 0⟩)] b'' := by
  have hpacket := @Parsed.packet eightBytes [.front 1, .back 2] _ 1 rfl (by decide)
  exact ⟨_, .cons hpacket (.cons (@Parsed.inner _ [.back 2, .front 2] _ rfl (by rfl)) .nil)⟩

theorem eightBytes_undone : ∃ b'' u, Parses eightBytes [(1, ⟨1, 4, 1⟩), (2, ⟨2, 0, 0⟩)] b'' ∧
    b''.undoAll [(1, ⟨1, 4, 1⟩), (2, ⟨2, 0, 0⟩)] = .ok u ∧ u.start = 1 ∧ u.stop = 7 := by
  obtain ⟨b'', h⟩ := eightBytes_parsed
  obtain ⟨bk, u, -, hbk, -, hu, -, hstart, hstop⟩ := @undo_parse_restores _ _ _ _ [] _ h
  obtain rfl := hbk rfl
  exact ⟨b'', u, h, hu, hstart, Nat.add_right_cancel hstop⟩

end Undo

end Garnet.Packet
