import Garnet.Lib.Align
import Garnet.Lib.LittleEndian
import Garnet.Lib.Outcome

/-! The archive format: the records of the index and the directory as bytes, and the archive of
a list of files as one byte string. -/

namespace Garnet.Far
open List
open LittleEndian

abbrev Bytes := List UInt8

def magicIndexValue : Bytes := [0xc8, 0xbf, 0x0b, 0x48, 0xad, 0xab, 0xc5, 0x11]

def dirHashChunk : Nat := 0x2d48534148524944
def dirChunk : Nat := 0x2d2d2d2d2d524944
def dirNamesChunk : Nat := 0x53454d414e524944

def contentAlignment : Nat := 4096

structure Index where
  magic : Bytes
  length : Nat
  deriving DecidableEq

structure IndexEntry where
  chunkType : Nat
  offset : Nat
  length : Nat
  deriving DecidableEq

structure DirectoryEntry where
  nameOffset : Nat
  nameLength : Nat
  reserved : Nat
  dataOffset : Nat
  dataLength : Nat
  reserved2 : Nat
  deriving DecidableEq

def indexLen : Nat := 16
def indexEntryLen : Nat := 24
def directoryEntryLen : Nat := 32

namespace Index

def bytes (x : Index) : Bytes := x.magic ++ toLe 8 x.length

def ofBytes (b : Bytes) : Index := ⟨b.take 8, ofLe ((b.drop 8).take 8)⟩

structure Fits (x : Index) : Prop where
  magic : x.magic.length = 8
  length : x.length < 2 ^ 64

theorem Fits.bytes_length {x : Index} (h : x.Fits) : x.bytes.length = indexLen := by
  rw [bytes, length_append, h.magic, toLe_length]
  rfl

theorem Fits.ofBytes_bytes {x : Index} (h : x.Fits) : ofBytes x.bytes = x := by
  have hl : ofLe (toLe 8 x.length) = x.length := ofLe_toLe_of_lt h.length
  rw [ofBytes, bytes, take_left' h.magic, drop_left' h.magic, take_of_length_le (by simp), hl]

end Index

namespace IndexEntry

def bytes (x : IndexEntry) : Bytes := toLe 8 x.chunkType ++ (toLe 8 x.offset ++ toLe 8 x.length)

def ofBytes (b : Bytes) : IndexEntry :=
  ⟨ofLe (b.take 8), ofLe ((b.drop 8).take 8), ofLe ((b.drop 16).take 8)⟩

structure Fits (x : IndexEntry) : Prop where
  chunkType : x.chunkType < 2 ^ 64
  offset : x.offset < 2 ^ 64
  length : x.length < 2 ^ 64

@[simp] theorem bytes_length (x : IndexEntry) : x.bytes.length = indexEntryLen := by
  simp [bytes, indexEntryLen]

theorem Fits.ofBytes_bytes {x : IndexEntry} (h : x.Fits) : ofBytes x.bytes = x := by
  have hc : ofLe (toLe 8 x.chunkType) = x.chunkType := ofLe_toLe_of_lt h.chunkType
  have ho : ofLe (toLe 8 x.offset) = x.offset := ofLe_toLe_of_lt h.offset
  have hl : ofLe (toLe 8 x.length) = x.length := ofLe_toLe_of_lt h.length
  simp [ofBytes, bytes, drop_append, take_of_length_le, drop_of_length_le, hc, ho, hl]

end IndexEntry

namespace DirectoryEntry

def bytes (x : DirectoryEntry) : Bytes :=
  toLe 4 x.nameOffset ++ (toLe 2 x.nameLength ++ (toLe 2 x.reserved ++
    (toLe 8 x.dataOffset ++ (toLe 8 x.dataLength ++ toLe 8 x.reserved2))))

def ofBytes (b : Bytes) : DirectoryEntry :=
  ⟨ofLe (b.take 4), ofLe ((b.drop 4).take 2), ofLe ((b.drop 6).take 2),
    ofLe ((b.drop 8).take 8), ofLe ((b.drop 16).take 8), ofLe ((b.drop 24).take 8)⟩

structure Fits (x : DirectoryEntry) : Prop where
  nameOffset : x.nameOffset < 2 ^ 32
  nameLength : x.nameLength < 2 ^ 16
  reserved : x.reserved < 2 ^ 16
  dataOffset : x.dataOffset < 2 ^ 64
  dataLength : x.dataLength < 2 ^ 64
  reserved2 : x.reserved2 < 2 ^ 64

@[simp] theorem bytes_length (x : DirectoryEntry) : x.bytes.length = directoryEntryLen := by
  simp [bytes, directoryEntryLen]

theorem Fits.ofBytes_bytes {x : DirectoryEntry} (h : x.Fits) : ofBytes x.bytes = x := by
  have hno : ofLe (toLe 4 x.nameOffset) = x.nameOffset := ofLe_toLe_of_lt h.nameOffset
  have hnl : ofLe (toLe 2 x.nameLength) = x.nameLength := ofLe_toLe_of_lt h.nameLength
  have hr : ofLe (toLe 2 x.reserved) = x.reserved := ofLe_toLe_of_lt h.reserved
  have hdo : ofLe (toLe 8 x.dataOffset) = x.dataOffset := ofLe_toLe_of_lt h.dataOffset
  have hdl : ofLe (toLe 8 x.dataLength) = x.dataLength := ofLe_toLe_of_lt h.dataLength
  have hr2 : ofLe (toLe 8 x.reserved2) = x.reserved2 := ofLe_toLe_of_lt h.reserved2
  simp [ofBytes, bytes, drop_append, take_of_length_le, drop_of_length_le,
    hno, hnl, hr, hdo, hdl, hr2]

end DirectoryEntry

end Garnet.Far
