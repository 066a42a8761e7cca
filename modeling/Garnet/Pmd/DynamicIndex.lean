import Garnet.Lib.Assoc
import Mathlib.Data.Finset.Card

/-! The index of packages that are being installed. The files of activated packages are kept by name
and version; the cache of `GetRoot` is left out. Go's maps have no order: where a loop goes over
one, the order is an argument. -/

namespace Garnet.Pmd
open Assoc

structure Package where
  name : String
  version : String
  deriving DecidableEq

/-- `os.ErrExist`, or another error of the file system. -/
inductive IndexError where
  | exist
  | io
  deriving DecidableEq

/-- The step of `addLocked` at which the file system fails. -/
inductive DiskFault where
  | mkdir
  | read
  | write
  deriving DecidableEq

structure StaticIndex where
  roots : AList fun _ : Package => String
  updates : AList fun _ : Package => String

variable (root : String)

namespace StaticIndex

def get (p : Package) (idx : StaticIndex) : Option String :=
  (idx.updates.lookup p).or (idx.roots.lookup p)

def getRoot (idx : StaticIndex) : Option Package :=
  ((idx.updates.entries.find? fun e => e.2 = root).or
    (idx.roots.entries.find? fun e => e.2 = root)).map Sigma.fst

def set (p : Package) (root : String) (idx : StaticIndex) : Option IndexError × StaticIndex :=
  if (idx.roots.lookup p).getD "" = root ∨ (idx.updates.lookup p).getD "" = root then (some .exist, idx)
  else (none, { idx with updates := idx.updates.insert p root })

def packageBlobs (idx : StaticIndex) : List String :=
  ((idx.updates.entries ++ idx.roots.entries).map Sigma.snd).dedup

end StaticIndex

structure DynamicIndex where
  static : StaticIndex
  files : AList fun _ : Package => String
  installing : AList fun _ : String => Package
  /-- From a blob to the packages that need it. -/
  needs : AList fun _ : String => Finset String
  /-- From a package to the blobs that it waits for. -/
  waiting : AList fun _ : String => Finset String

namespace DynamicIndex

def newDynamic (static : StaticIndex) (files : AList fun _ : Package => String) : DynamicIndex :=
  ⟨static, files, ∅, ∅, ∅⟩

def get (p : Package) (idx : DynamicIndex) : Option String := idx.files.lookup p

def addLocked (fault : Option DiskFault) (p : Package) (root : String) (idx : DynamicIndex) :
    Option IndexError × DynamicIndex :=
  let idx := { idx with
    installing := idx.installing.erase root
    waiting := idx.waiting.erase root
    needs := mapValues (fun needs : Finset String => needs.erase root) idx.needs }
  if (idx.static.getRoot root).isSome then (some .exist, idx)
  else if (idx.static.get p).isSome then
    let (err, static) := idx.static.set p root
    (err, { idx with static := static })
  else if fault = some DiskFault.mkdir then (some .io, idx)
  else if fault ≠ some DiskFault.read ∧ idx.files.lookup p = some root then (some .exist, idx)
  else if fault = some DiskFault.write then (some .io, idx)
  else (none, { idx with files := idx.files.insert p root })

def add (fault : Option DiskFault) (p : Package) (root : String) (idx : DynamicIndex) :
    Option IndexError × DynamicIndex :=
  idx.addLocked fault p root

/-- `Installing`. The name is not known yet. -/
def install (idx : DynamicIndex) : DynamicIndex :=
  { idx with installing := idx.installing.insert root ⟨"", ""⟩ }

def updateInstalling (p : Package) (idx : DynamicIndex) : DynamicIndex :=
  { idx with installing := idx.installing.insert root p }

def installingFailedForPackage (pkgRoot : String) (idx : DynamicIndex) : DynamicIndex :=
  { idx with installing := idx.installing.erase pkgRoot }

def addNeed (m : AList fun _ : String => Finset String) (blob : String) :
    AList fun _ : String => Finset String :=
  match m.lookup blob with
  | some roots => m.insert blob (insert root roots)
  | none => m.insert blob {root}

/-- `AddNeeds` with the keys of the caller's map, which the index keeps. -/
def addNeeds (needs : List String) (idx : DynamicIndex) : Option IndexError × DynamicIndex :=
  if (idx.installing.lookup root).isNone then (some .exist, idx)
  else (none, { idx with
    needs := needs.foldl (addNeed root) idx.needs,
    waiting := idx.waiting.insert root needs.toFinset })

/-- One package of `Fulfill`: it is activated if it waits for nothing else. -/
def fulfillOne (fault : String → Option DiskFault) (need pkgRoot : String) (idx : DynamicIndex) :
    DynamicIndex :=
  let waiting := ((idx.waiting.lookup pkgRoot).getD ∅).erase need
  if waiting.card = 0 then
    let idx := { idx with waiting := idx.waiting.erase pkgRoot }
    (idx.addLocked (fault pkgRoot) ((idx.installing.lookup pkgRoot).getD ⟨"", ""⟩) pkgRoot).2
  else { idx with waiting := idx.waiting.insert pkgRoot waiting }

/-- `Fulfill`, which goes over the packages that need the blob in the order `packageRoots`. -/
def fulfill (fault : String → Option DiskFault) (packageRoots : List String) (need : String)
    (idx : DynamicIndex) : DynamicIndex :=
  packageRoots.foldl (fun idx pkgRoot => idx.fulfillOne fault need pkgRoot)
    { idx with needs := idx.needs.erase need }

def hasNeed (idx : DynamicIndex) : Bool := (idx.needs.lookup root).isSome

def pkgHasNeed (pkg root : String) (idx : DynamicIndex) : Bool :=
  match idx.needs.lookup pkg with
  | none => false
  | some needs => root ∈ needs

def needsList (idx : DynamicIndex) : List String := idx.needs.keys

def pkgNeedsList (pkgRoot : String) (idx : DynamicIndex) : Finset String :=
  (idx.waiting.lookup pkgRoot).getD ∅

def isInstalling (merkle : String) (idx : DynamicIndex) : Bool :=
  (idx.installing.lookup merkle).isSome

/-- `PackageBlobs`. The file of a package without a name is `packages/version`, and the pattern
`packages/*/*` does not match it. -/
def packageBlobs (idx : DynamicIndex) : List String :=
  idx.static.packageBlobs ++ (idx.files.entries.filter fun e => e.1.name ≠ "").map Sigma.snd

/-- `AllPackageBlobs`. The packages that are being installed are listed under the lock, and the
others from the index as it is later. -/
def allPackageBlobs (idx later : DynamicIndex) : List String :=
  (idx.installing.keys ++ later.packageBlobs).dedup

end DynamicIndex

end Garnet.Pmd
