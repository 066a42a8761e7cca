import Garnet.Lib.LittleEndian

/-! Records of fixed size as bytes: a codec writes a value in `size` bytes and reads it back from
them, and every `size` bytes are a value. Larger records are put together from smaller ones. -/

namespace Garnet
open List
open LittleEndian

structure Codec (α : Type) where
  size : Nat
  encode : α → List UInt8
  decode : List UInt8 → α
  encode_length : ∀ a, (encode a).length = size
  decode_encode : ∀ a, decode (encode a) = a
  encode_decode : ∀ b, b.length = size → encode (decode b) = b

/-- An array of `n` bytes. -/
abbrev ByteArr (n : Nat) : Type := { b : List UInt8 // b.length = n }

def zeroBytes (n : Nat) : ByteArr n := ⟨List.replicate n 0, length_replicate⟩

namespace Codec
variable {α β : Type}

def uint8 : Codec UInt8 where
  size := 1
  encode v := [v]
  decode b := b.headD 0
  encode_length _ := rfl
  decode_encode _ := rfl
  encode_decode b hb := by
    obtain ⟨v, rfl⟩ := length_eq_one_iff.mp hb
    rfl

def uint16 : Codec UInt16 where
  size := 2
  encode v := toLe 2 v.toNat
  decode b := UInt16.ofNat (ofLe b)
  encode_length v := toLe_length 2 v.toNat
  decode_encode v := by rw [ofLe_toLe_of_lt v.toNat_lt, UInt16.ofNat_toNat]
  encode_decode b hb := by
    have hlt := ofLe_lt b
    rw [hb] at hlt
    rw [UInt16.toNat_ofNat_of_lt' hlt, ← hb, toLe_ofLe]

def uint32 : Codec UInt32 where
  size := 4
  encode v := toLe 4 v.toNat
  decode b := UInt32.ofNat (ofLe b)
  encode_length v := toLe_length 4 v.toNat
  decode_encode v := by rw [ofLe_toLe_of_lt v.toNat_lt, UInt32.ofNat_toNat]
  encode_decode b hb := by
    have hlt := ofLe_lt b
    rw [hb] at hlt
    rw [UInt32.toNat_ofNat_of_lt' hlt, ← hb, toLe_ofLe]

def uint64 : Codec UInt64 where
  size := 8
  encode v := toLe 8 v.toNat
  decode b := UInt64.ofNat (ofLe b)
  encode_length v := toLe_length 8 v.toNat
  decode_encode v := by rw [ofLe_toLe_of_lt v.toNat_lt, UInt64.ofNat_toNat]
  encode_decode b hb := by
    have hlt := ofLe_lt b
    rw [hb] at hlt
    rw [UInt64.toNat_ofNat_of_lt' hlt, ← hb, toLe_ofLe]

def bytes (n : Nat) : Codec (ByteArr n) where
  size := n
  encode v := v.val
  decode b := if h : b.length = n then ⟨b, h⟩ else zeroBytes n
  encode_length v := v.property
  decode_encode v := dif_pos v.property
  encode_decode b hb := by rw [dif_pos hb]

variable (c : Codec α)

def pair (d : Codec β) : Codec (α × β) where
  size := c.size + d.size
  encode v := c.encode v.1 ++ d.encode v.2
  decode b := (c.decode (b.take c.size), d.decode (b.drop c.size))
  encode_length v := by rw [length_append, c.encode_length, d.encode_length]
  decode_encode v := by
    rw [take_left' (c.encode_length v.1), drop_left' (c.encode_length v.1), c.decode_encode,
      d.decode_encode]
  encode_decode b hb := by
    rw [c.encode_decode _ (by rw [length_take]; omega),
      d.encode_decode _ (by rw [length_drop]; omega), take_append_drop]

def map (fields : β → α) (make : α → β) (h : ∀ b, make (fields b) = b)
    (h' : ∀ a, fields (make a) = a) : Codec β where
  size := c.size
  encode v := c.encode (fields v)
  decode b := make (c.decode b)
  encode_length v := c.encode_length (fields v)
  decode_encode v := by rw [c.decode_encode, h]
  encode_decode b hb := by rw [h', c.encode_decode b hb]

def encodeAll (l : List α) : List UInt8 := l.flatMap c.encode

theorem encodeAll_length (l : List α) : (c.encodeAll l).length = l.length * c.size := by
  induction l with
  | nil => exact (zero_mul _).symm
  | cons a l ih =>
    rw [encodeAll, flatMap_cons, length_append, c.encode_length, length_cons, Nat.succ_mul, add_comm]
    exact congrArg (· + c.size) ih

theorem encodeAll_append (l l' : List α) :
    c.encodeAll (l ++ l') = c.encodeAll l ++ c.encodeAll l' :=
  flatMap_append

end Codec
end Garnet
