import Std.Data.TreeMap
import Garnet.Lib.LittleEndian
import Garnet.Lib.Outcome
import Garnet.PseudoFs.Flags

/-!
Listing a simple directory: `encode_dirent`, `handle_read_dirents`, and the
changes that `add_entry` and `remove_entry` make under a listing
(`directory/simple.rs`, `directory/common.rs`).

A name is the bytes of its UTF-8 form, in the order `BTreeMap<String, _>` has.
-/

namespace Garnet.PseudoFs

open Std LittleEndian

abbrev Name := List UInt8

structure EntryInfo where
  inode : UInt64
  type : UInt8
  deriving DecidableEq

/-- What `fuchsia.io` fixes for a listing. A name shorter than `MAX_FILENAME`
has its length in one byte, and "." is such a name. -/
structure DirentIo where
  maxFilename : Nat
  dotFits : 1 < maxFilename
  byteFits : maxFilename ≤ 255
  inoUnknown : UInt64
  direntTypeDirectory : UInt8

/-- Names added to a directory are shorter than `MAX_FILENAME`. -/
structure SimpleDirectory (io : DirentIo) where
  entries : TreeMap Name EntryInfo
  short : ∀ name ∈ entries, name.length < io.maxFilename

inductive AlphabeticalTraversal where
  | start
  | dot
  | name (last : Name)
  | «end»
  deriving DecidableEq

variable {io : DirentIo}

/-- `encode_dirent`: `none` where the entry does not fit, the buffer being kept. -/
def encodeDirent (io : DirentIo) (buf : List UInt8) (maxBytes : Nat) (entry : EntryInfo)
    (name : Name) : Except Fault (Option (List UInt8)) :=
  let headerSize := 8 + 1 + 1
  if maxBytes < buf.length + headerSize + name.length then .ok none
  else if ¬ name.length < io.maxFilename then .error .panic
  else if ¬ io.maxFilename ≤ 255 then .error .panic
  else
    .ok (some (buf ++ toLe 8 entry.inode.toNat ++ [UInt8.ofNat name.length] ++ [entry.type]
      ++ name))

def dotName : Name := [46]

def dotInfo (io : DirentIo) : EntryInfo := ⟨io.inoUnknown, io.direntTypeDirectory⟩

/-- The loop of `handle_read_dirents` over the entries still to be returned. -/
def readEntries (io : DirentIo) (maxBytes : Nat) : List (Name × EntryInfo) → List UInt8 → Bool →
    AlphabeticalTraversal → Except Fault (Status × List UInt8 × AlphabeticalTraversal)
  | [], buf, _, _ => .ok (.ok, buf, .end)
  | (name, entry) :: rest, buf, fitOne, lastReturned => do
    match ← encodeDirent io buf maxBytes entry name with
    | none => .ok (if fitOne then .ok else .bufferTooSmall, buf, lastReturned)
    | some buf => readEntries io maxBytes rest buf true (.name name)

variable (dir : SimpleDirectory io)

def handleReadDirents (seek : AlphabeticalTraversal) (maxBytes : Nat) :
    Except Fault (Status × List UInt8 × AlphabeticalTraversal) :=
  match seek with
  | .start => do
    match ← encodeDirent io [] maxBytes (dotInfo io) dotName with
    | none => .ok (.bufferTooSmall, [], seek)
    | some buf => readEntries io maxBytes dir.entries.toList buf true .dot
  | .dot => readEntries io maxBytes dir.entries.toList [] false .dot
  | .name last =>
    readEntries io maxBytes (dir.entries.toList.filter fun e => compare last e.1 = .lt) [] false seek
  | .end => .ok (.ok, [], seek)

/-- The watchers refuse a name that is too long, which both callers take for a bug. -/
def sendEvent (io : DirentIo) (name : Name) : Except Fault Unit :=
  if io.maxFilename ≤ name.length then .error .panic else .ok ()

def addEntry (name : Name) (entry : EntryInfo) : Except Fault (Status × SimpleDirectory io) :=
  if h : io.maxFilename ≤ name.length then .ok (.invalidArgs, dir)
  else if dir.entries.contains name then .ok (.alreadyExists, dir)
  else do
    sendEvent io name
    .ok (.ok, ⟨dir.entries.insert name entry, by
      intro n hn
      rcases TreeMap.mem_insert.mp hn with heq | hmem
      · rw [← LawfulEqCmp.eq_of_compare heq]
        omega
      · exact dir.short n hmem⟩)

def removeEntry (name : Name) : Except Fault (Status × SimpleDirectory io) :=
  if io.maxFilename ≤ name.length then .ok (.invalidArgs, dir)
  else do
    sendEvent io name
    .ok (.ok, ⟨dir.entries.erase name, fun n hn => dir.short n (TreeMap.mem_of_mem_erase hn)⟩)

inductive DirectoryCall where
  | readDirents (maxBytes : Nat)
  | addEntry (name : Name) (entry : EntryInfo)
  | removeEntry (name : Name)

/-- One call: the directory and the position it met, what it replied, and the
position it left. -/
structure Record (io : DirentIo) where
  call : DirectoryCall
  directory : SimpleDirectory io
  seek : AlphabeticalTraversal
  status : Status
  bytes : List UInt8
  seekAfter : AlphabeticalTraversal

def serveCall (seek : AlphabeticalTraversal) (call : DirectoryCall) :
    Except Fault (Record io × SimpleDirectory io) :=
  match call with
  | .readDirents maxBytes => do
    let (status, bytes, seekAfter) ← handleReadDirents dir seek maxBytes
    .ok (⟨call, dir, seek, status, bytes, seekAfter⟩, dir)
  | .addEntry name entry => do
    let (status, dir') ← addEntry dir name entry
    .ok (⟨call, dir, seek, status, [], seek⟩, dir')
  | .removeEntry name => do
    let (status, dir') ← removeEntry dir name
    .ok (⟨call, dir, seek, status, [], seek⟩, dir')

def serveCalls : List DirectoryCall → SimpleDirectory io → AlphabeticalTraversal →
    Except Fault (List (Record io))
  | [], _, _ => .ok []
  | call :: rest, dir, seek => do
    let (record, dir') ← serveCall dir seek call
    let records ← serveCalls rest dir' record.seekAfter
    .ok (record :: records)

structure Dirent where
  name : Name
  info : EntryInfo
  deriving DecidableEq

/-- A reply taken apart by a client, at most `fuel` entries. -/
def decodeDirents : Nat → List UInt8 → Option (List Dirent)
  | 0, bytes => if bytes = [] then some [] else none
  | fuel + 1, bytes =>
    if bytes = [] then some []
    else
      match bytes.drop 8 with
      | length :: type :: rest =>
        if length.toNat ≤ rest.length then
          (decodeDirents fuel (rest.drop length.toNat)).map fun ds =>
            ⟨rest.take length.toNat, ⟨UInt64.ofNat (ofLe (bytes.take 8)), type⟩⟩ :: ds
        else none
      | _ => none

def decodeReply (bytes : List UInt8) : Option (List Dirent) := decodeDirents bytes.length bytes

end Garnet.PseudoFs
