import Garnet.Lib.Cursor
import Garnet.Lib.Utf8
import Garnet.Far.Writer

/-! The archive reader of the Rust crate, over a source that can be read and sought. -/

namespace Garnet.Far
open Cursor

/-- `vec![0; count]`: a vector holds at most `isize::MAX` bytes. -/
def allocate (count : Nat) : EStateM Fault Cursor Unit :=
  if count < 2 ^ 63 then pure () else throw .panic

def deserializeIndex : EStateM Fault Cursor Index := return Index.ofBytes (← readExact indexLen)

def deserializeIndexEntry : EStateM Fault Cursor IndexEntry :=
  return IndexEntry.ofBytes (← readExact indexEntryLen)

def deserializeDirectoryEntry : EStateM Fault Cursor DirectoryEntry :=
  return DirectoryEntry.ofBytes (← readExact directoryEntryLen)

def readIndex : EStateM Fault Cursor Index := do
  let decodedIndex ← deserializeIndex
  if decodedIndex.magic ≠ magicIndexValue then throw (.error "Invalid archive, bad magic")
  else if decodedIndex.length % indexEntryLen ≠ 0 then throw (.error "Invalid archive, bad index length")
  else pure decodedIndex

/-- The entries of the index that are still to be read, with the chunk type of the last one read
and the two entries found so far. -/
def readIndexEntries (index : Index) : Nat → Option Nat → Option IndexEntry → Option IndexEntry →
    EStateM Fault Cursor (Option IndexEntry × Option IndexEntry)
  | 0, _, dirIndex, dirNameIndex => pure (dirIndex, dirNameIndex)
  | count + 1, lastChunkType, dirIndex, dirNameIndex => do
    let entry ← deserializeIndexEntry
    if lastChunkType.any (fun chunkType => entry.chunkType < chunkType) then
      throw (.error "Invalid archive, invalid index entry order")
    else if entry.offset < index.length then throw (.error "Invalid archive, short offset")
    else if entry.chunkType = dirHashChunk then
      readIndexEntries index count (some entry.chunkType) dirIndex dirNameIndex
    else if entry.chunkType = dirNamesChunk then
      readIndexEntries index count (some entry.chunkType) dirIndex (some entry)
    else if entry.chunkType = dirChunk then
      readIndexEntries index count (some entry.chunkType) (some entry) dirNameIndex
    else throw (.error "Invalid archive, invalid chunk type")

abbrev DirectoryEntries := Std.TreeMap Bytes DirectoryEntry

def readDirectoryEntries (pathData : Bytes) :
    Nat → DirectoryEntries → EStateM Fault Cursor DirectoryEntries
  | 0, directoryEntries => pure directoryEntries
  | count + 1, directoryEntries => do
    let entry ← deserializeDirectoryEntry
    let nameStart := entry.nameOffset
    let afterNameEnd := nameStart + entry.nameLength
    if pathData.length < afterNameEnd then throw .panic
    else
      let fileName := (pathData.take afterNameEnd).drop nameStart
      if Utf8.valid fileName then readDirectoryEntries pathData count (directoryEntries.insert fileName entry)
      else throw (.error "invalid utf-8 sequence")

/-- `ok_or`. -/
def required {α : Type} (message : String) : Option α → EStateM Fault Cursor α
  | some a => pure a
  | none => throw (.error message)

structure Reader where
  source : Cursor
  directoryEntries : DirectoryEntries

variable (r : Reader)

namespace Reader

/-- The part of `new` that reads from the source. -/
def readDirectory : EStateM Fault Cursor DirectoryEntries := do
  let index ← readIndex
  let (dirIndex, dirNameIndex) ← readIndexEntries index (index.length / indexEntryLen) none none none
  let dirIndex ← required "Invalid archive, missing directory index" dirIndex
  let dirNameIndex ← required "Invalid archive, missing directory name index" dirNameIndex
  seek dirNameIndex.offset
  allocate dirNameIndex.length
  let pathData ← readExact dirNameIndex.length
  seek dirIndex.offset
  readDirectoryEntries pathData (dirIndex.length / directoryEntryLen) ∅

def new (source : Cursor) : Except Fault Reader :=
  match readDirectory source with
  | .ok directoryEntries source => .ok ⟨source, directoryEntries⟩
  | .error e _ => .error e

def list : List Bytes := r.directoryEntries.keys

def findDirectoryEntry (archivePath : Bytes) : Except Fault DirectoryEntry :=
  match r.directoryEntries[archivePath]? with
  | some entry => .ok entry
  | none => .error (.error ("Path '" ++ text archivePath ++ "' not found in archive"))

end Reader

structure EntryReader where
  offset : Nat
  length : Nat
  source : Cursor

/-- `read_at`: the data, and the source with its new position. -/
def EntryReader.readAt (e : EntryReader) (offset : Nat) : EStateM.Result Fault Cursor Bytes :=
  if offset > e.length then .error (.error "Offset exceeds length of entry") e.source
  else
    match addU64 e.offset offset with
    | .error fault => .error fault e.source
    | .ok pos =>
      (do
        seek pos
        allocate (e.length - offset)
        readExact (e.length - offset) : EStateM Fault Cursor Bytes) e.source

namespace Reader

def «open» (archivePath : Bytes) : Except Fault EntryReader := do
  let directoryEntry ← r.findDirectoryEntry archivePath
  pure ⟨directoryEntry.dataOffset, directoryEntry.dataLength, r.source⟩

def readFile (archivePath : Bytes) : Except Fault Bytes × Reader :=
  match r.open archivePath with
  | .error e => (.error e, r)
  | .ok reader =>
    match reader.readAt 0 with
    | .ok data source => (.ok data, { r with source })
    | .error e source => (.error e, { r with source })

def getSize (archivePath : Bytes) : Except Fault Nat := do
  let directoryEntry ← r.findDirectoryEntry archivePath
  pure directoryEntry.dataLength

end Reader

end Garnet.Far
