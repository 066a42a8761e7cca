import Garnet.Lib.Bits

/-!
The flag arithmetic of the pseudo file system: what a request may ask for, and
which flags the connection it opens ends up with (`common.rs`,
`directory/common.rs`, `file/common.rs`).

The values of the `fuchsia.io` constants are not part of the repository. They
are parameters here: single, different bits for the flags, any masks for the
rest.
-/

namespace Garnet.PseudoFs

open Bits

abbrev Word := BitVec 32

/-- The constants of `fuchsia.io`: the bit of each flag, and the masks. -/
structure Io where
  readable : Fin 32
  writable : Fin 32
  admin : Fin 32
  create : Fin 32
  createIfAbsent : Fin 32
  truncate : Fin 32
  directory : Fin 32
  append : Fin 32
  nodeReference : Fin 32
  describe : Fin 32
  posix : Fin 32
  sameRights : Fin 32
  distinct : [readable, writable, admin, create, createIfAbsent, truncate, directory, append,
    nodeReference, describe, posix, sameRights].Nodup
  openFlagsAllowedWithNodeReference : Word
  modeProtectionMask : Word
  modeTypeDirectory : Word
  modeTypeFile : Word

def sampleIo : Io where
  readable := 0
  writable := 1
  admin := 2
  create := 16
  createIfAbsent := 17
  truncate := 18
  directory := 19
  append := 20
  nodeReference := 22
  describe := 23
  posix := 24
  sameRights := 26
  distinct := by decide
  openFlagsAllowedWithNodeReference := bit 19 ||| bit 23
  modeProtectionMask := 0xFFF
  modeTypeDirectory := 0x4000
  modeTypeFile := 0x8000

inductive Status where
  | ok | notFile | notDir | notFound | badPath | invalidArgs | accessDenied | notSupported
  | alreadyExists | outOfRange | bufferTooSmall | other (raw : Int)
  deriving DecidableEq, Repr

variable (io : Io)

def fsRights : Word := bit io.readable ||| bit io.writable ||| bit io.admin

variable (parentFlags flags : Word)

def stricterOrSameRights : Bool :=
  let parentRights := parentFlags &&& fsRights io
  let rights := flags &&& fsRights io
  rights &&& ~~~parentRights == 0

/-- The flags of a clone, before its rights are compared with the parent's. -/
def inheritedFlags : Word :=
  -- APPEND is kept for the POSIX emulation, NODE_REFERENCE is enforced.
  let flags := flags ||| parentFlags &&& (bit io.append ||| bit io.nodeReference)
  if flags &&& bit io.sameRights ≠ 0 then
    flags &&& ~~~bit io.sameRights ||| parentFlags &&& fsRights io
  else flags

def inheritRightsForClone : Except Status Word :=
  if flags &&& bit io.sameRights ≠ 0 ∧ flags &&& fsRights io ≠ 0 then .error .invalidArgs
  else
    let flags := inheritedFlags io parentFlags flags
    if stricterOrSameRights io parentFlags flags then .ok flags else .error .accessDenied

/-- `check_child_connection_flags`: POSIX is WRITABLE with a soft failure, so it
is dropped where the parent is not writable. -/
def checkChildConnectionFlags : Except Status Word :=
  let flags :=
    if parentFlags &&& bit io.writable = 0 then flags &&& ~~~bit io.posix else flags
  if stricterOrSameRights io parentFlags flags then .ok flags else .error .accessDenied

namespace Directory

/-- The mode check of `new_connection_validate_flags`. -/
def checkMode (mode : Word) : Except Status Unit :=
  if mode &&& ~~~io.modeProtectionMask &&& ~~~io.modeTypeDirectory ≠ 0 then
    if mode &&& ~~~io.modeProtectionMask &&& io.modeTypeFile ≠ 0 then .error .notFile
    else .error .invalidArgs
  else .ok ()

def applyNodeReference (flags : Word) : Word :=
  if flags &&& bit io.nodeReference ≠ 0 then
    flags &&& ~~~bit io.nodeReference &&& io.openFlagsAllowedWithNodeReference
  else flags

/-- POSIX becomes WRITABLE: the parent connection is taken to have checked it. -/
def applyPosix (flags : Word) : Word :=
  if flags &&& bit io.posix ≠ 0 then flags &&& ~~~bit io.posix ||| bit io.writable else flags

def allowedFlags : Word :=
  bit io.describe ||| bit io.directory ||| bit io.readable ||| bit io.writable

def prohibitedFlags : Word :=
  bit io.append ||| bit io.create ||| bit io.createIfAbsent ||| bit io.truncate

def newConnectionValidateFlags (flags mode : Word) : Except Status Word := do
  checkMode io mode
  let flags := applyPosix io (applyNodeReference io flags)
  if flags &&& bit io.admin ≠ 0 then .error .accessDenied
  else if flags &&& prohibitedFlags io ≠ 0 then .error .invalidArgs
  else if flags &&& ~~~allowedFlags io ≠ 0 then .error .notSupported
  else .ok flags

end Directory

namespace File

def checkMode (mode : Word) : Except Status Unit :=
  if mode &&& ~~~io.modeProtectionMask &&& ~~~io.modeTypeFile ≠ 0 then
    if mode &&& ~~~io.modeProtectionMask &&& io.modeTypeDirectory ≠ 0 then .error .notDir
    else .error .invalidArgs
  else .ok ()

def applyNodeReference (flags : Word) : Word :=
  if flags &&& bit io.nodeReference ≠ 0 then
    flags &&& ~~~bit io.nodeReference &&& (bit io.directory ||| bit io.describe)
  else flags

def allowedFlags (readable writable : Bool) : Word :=
  bit io.describe ||| (if readable then bit io.readable else 0)
    ||| (if writable then bit io.writable ||| bit io.truncate else 0)

def prohibitedFlags (readable writable : Bool) : Word :=
  (0 ||| (if readable then bit io.truncate else 0) ||| (if writable then bit io.append else 0))
    &&& ~~~allowedFlags io readable writable

def newConnectionValidateFlags (flags mode : Word) (readable writable : Bool) :
    Except Status Word := do
  checkMode io mode
  let flags := applyNodeReference io flags
  if flags &&& bit io.directory ≠ 0 then .error .notDir
  else
    -- For files POSIX is ignored.
    let flags := flags &&& ~~~bit io.posix
    if readable = false ∧ flags &&& bit io.readable ≠ 0 then .error .accessDenied
    else if writable = false ∧ flags &&& bit io.writable ≠ 0 then .error .accessDenied
    else if flags &&& prohibitedFlags io readable writable ≠ 0 then .error .invalidArgs
    else if flags &&& ~~~allowedFlags io readable writable ≠ 0 then .error .notSupported
    else .ok flags

end File

end Garnet.PseudoFs
