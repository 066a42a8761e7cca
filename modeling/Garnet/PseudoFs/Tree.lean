import Garnet.PseudoFs.FileConnection

/-!
A tree of simple directories and pseudo files, and the connections that Open and
Clone requests make to its nodes (`directory/simple.rs`, `file/simple.rs`).
-/

namespace Garnet.PseudoFs

open Bits

inductive Entry where
  | file (file : PseudoFile)
  | directory (entries : List (String × Entry))

structure Connection where
  node : Entry
  flags : Word

inductive NodeRequest where
  | clone (flags : Word)
  | «open» (flags mode : Word) (path : String)

/-- `validate_and_split_path`. -/
def validateAndSplitPath (path : String) : Except Status (List String × Bool) :=
  let isDir : Bool := path.toList.getLast? = some '/'
  let names := (path.toList.splitOn '/').map String.ofList
  let names := if isDir then names.dropLast else names
  if names.any fun c => c == "" || c == ".." || c == "." then .error .invalidArgs
  else .ok (names, isDir)

variable (io : Io) (onRead : Except Status (List UInt8))

/-- `add_connection` of either kind of node. -/
def addConnection (node : Entry) (flags mode : Word) : Except Status Connection :=
  match node with
  | .directory _ => do
    let flags ← Directory.newConnectionValidateFlags io flags mode
    .ok ⟨node, flags⟩
  | .file file => do
    let connection ← file.connect io onRead flags mode
    .ok ⟨node, connection.flags⟩

/-- `DirectoryEntry::open`, over the rest of the path. -/
def openEntry (flags mode : Word) : List String → Entry → Except Status Connection
  | [], node => addConnection io onRead node flags mode
  | _ :: _, .file _ => .error .notDir
  | name :: path, .directory entries =>
    match entries.lookup name with
    | none => .error .notFound
    | some entry => openEntry flags mode path entry

def handleClone (c : Connection) (flags mode : Word) : Except Status Connection := do
  let flags ← inheritRightsForClone io c.flags flags
  addConnection io onRead c.node flags mode

def isSelf (path : String) : Bool := path == "." || path == "./"

def handleOpen (c : Connection) (flags mode : Word) (path : String) : Except Status Connection :=
  if path == "/" || path == "" then .error .badPath
  else if isSelf path then handleClone io onRead c flags mode
  else do
    let (names, isDir) ← validateAndSplitPath path
    let mode := if isDir then mode ||| io.modeTypeDirectory else mode
    let flags ← checkChildConnectionFlags io c.flags flags
    openEntry io onRead flags mode names c.node

/-- The connection a request makes. A file connection has no Open request. -/
def serve (c : Connection) (r : NodeRequest) : Option (Except Status Connection) :=
  match r, c.node with
  | .clone flags, _ => some (handleClone io onRead c flags 0)
  | .open flags mode path, .directory _ => some (handleOpen io onRead c flags mode path)
  | .open .., .file _ => none

/-- A request on one of the connections held, and what the read handler returns
if a file is connected to. -/
structure Command where
  target : Nat
  request : NodeRequest
  onRead : Except Status (List UInt8)

structure Obtained where
  parent : Connection
  request : NodeRequest
  child : Connection

def obtain? (held : List Connection) (cmd : Command) : Option Obtained :=
  match held[cmd.target]? with
  | none => none
  | some parent =>
    match serve io cmd.onRead parent cmd.request with
    | some (.ok child) => some ⟨parent, cmd.request, child⟩
    | _ => none

def session : List Command → List Connection → List Obtained
  | [], _ => []
  | cmd :: rest, held =>
    match obtain? io held cmd with
    | none => session rest held
    | some o => o :: session rest (held ++ [o.child])

end Garnet.PseudoFs
