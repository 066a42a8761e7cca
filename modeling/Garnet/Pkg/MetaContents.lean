import Std.Data.TreeMap
import Garnet.Lib.Hex
import Garnet.Lib.Lines
import Garnet.Lib.Utf8
import Garnet.Merkle.Builder

/-!
The resource paths of a package, and the file with the Merkle roots of its contents
that is generated for it (`path.rs`, `meta_contents.rs`).

A `String` is here by its UTF-8 bytes, so that maps have the order they have in
the source.
-/

namespace Garnet.Pkg
open Std Merkle

abbrev Bytes := List UInt8

def ascii (s : String) : Bytes := s.toList.map fun c => UInt8.ofNat c.toNat

inductive ResourcePathError where
  | nameEmpty | nameTooLong | nameContainsNull | nameIsDot | nameIsDotDot | pathStartsWithSlash
  | pathEndsWithSlash | pathIsEmpty | nameContainsNewline
  deriving DecidableEq, Repr

def slash : UInt8 := 47

def maxObjectBytes : Nat := 255

def checkSegment (segment : Bytes) : Except ResourcePathError Unit :=
  if 0 ∈ segment then .error .nameContainsNull
  else if segment = [46] then .error .nameIsDot
  else if segment = [46, 46] then .error .nameIsDotDot
  else if segment = [] then .error .nameEmpty
  else if maxObjectBytes < segment.length then .error .nameTooLong
  else if Lines.newline ∈ segment then .error .nameContainsNewline
  else .ok ()

def checkSegments : List Bytes → Except ResourcePathError Unit
  | [] => .ok ()
  | segment :: rest => do
    checkSegment segment
    checkSegments rest

def checkResourcePath (input : Bytes) : Except ResourcePathError Unit :=
  if input = [] then .error .pathIsEmpty
  else if input.head? = some slash then .error .pathStartsWithSlash
  else if input.getLast? = some slash then .error .pathEndsWithSlash
  else checkSegments (input.splitOn slash)

def metaDirectory : Bytes := ascii "meta/"

/-- `starts_with("meta/")`. -/
def inMetaDirectory (path : Bytes) : Bool := metaDirectory.isPrefixOf path

def checkAll {ε : Type} (check : Bytes → Except ε Unit) : List Bytes → Except ε Unit
  | [] => .ok ()
  | path :: rest => do
    check path
    checkAll check rest

inductive MetaContentsError where
  | resourcePath (cause : ResourcePathError) (path : Bytes)
  | externalContentInMetaDirectory (path : Bytes)
  | entryHasNoEqualsSign (entry : Bytes)
  | duplicateResourcePath (path : Bytes)
  | ioError
  | parseHash

/-- The "meta/contents" file: resource paths with the Merkle roots of their contents. -/
structure MetaContents where
  contents : TreeMap Bytes Hash

def equalsSign : UInt8 := 61

/-- `Display` of a hash. -/
def displayHash (hash : Hash) : Bytes := Hex.encode hash.bytes

/-- `FromStr` of a hash: the hexadecimal form of 32 bytes. -/
def hashFromStr (text : Bytes) : Option Hash :=
  match Hex.decode text with
  | some bytes => if h : bytes.length = hashSize then some ⟨bytes, h⟩ else none
  | none => none

namespace MetaContents

def fromMap (map : TreeMap Bytes Hash) : Except MetaContentsError MetaContents := do
  checkAll (fun path =>
    match checkResourcePath path with
    | .ok () => if inMetaDirectory path then .error (.externalContentInMetaDirectory path) else .ok ()
    | .error e => .error (.resourcePath e path)) map.keys
  .ok ⟨map⟩

def entryLine (entry : Bytes × Hash) : Bytes := entry.1 ++ equalsSign :: displayHash entry.2

def serialize (m : MetaContents) : Bytes :=
  m.contents.toList.flatMap fun entry => entryLine entry ++ [Lines.newline]

def deserializeLines : List Bytes → TreeMap Bytes Hash →
    Except MetaContentsError (TreeMap Bytes Hash)
  | [], contents => .ok contents
  | line :: rest, contents =>
    if Utf8.valid line then
      match Lines.splitLast equalsSign line with
      | none => .error (.entryHasNoEqualsSign line)
      | some (path, text) =>
        match hashFromStr text with
        | none => .error .parseHash
        | some hash =>
          if contents.contains path then .error (.duplicateResourcePath path)
          else deserializeLines rest (contents.insert path hash)
    else .error .ioError

def deserialize (bytes : Bytes) : Except MetaContentsError MetaContents := do
  let contents ← deserializeLines (Lines.lines bytes) ∅
  .ok ⟨contents⟩

end MetaContents

end Garnet.Pkg
