import Mathlib.Logic.Function.Basic

/-! The manager of the rewrite rules and the transactions that edit its dynamic rules. How rules are
written as JSON is a parameter; the objects for inspection are left out. -/

namespace Garnet.PkgResolver

abbrev Bytes := List UInt8

structure RuleFormat (Rule : Type) where
  toWriter : List Rule → Bytes
  fromReader : Bytes → Option (List Rule)
  roundTrip : ∀ rules, fromReader (toWriter rules) = some rules

abbrev Disk := String → Option Bytes

/-- Where saving fails; the temporary file may have been written in part. -/
inductive SaveFault where
  | create
  | write (written : Bytes)
  | rename

inductive CommitError where
  | tooLate
  deriving DecidableEq

structure RewriteManager (Rule : Type) where
  staticRules : List Rule
  dynamicRules : List Rule
  generation : UInt32
  dynamicRulesPath : String

structure Transaction (Rule : Type) where
  dynamicRules : List Rule
  generation : UInt32

variable {Rule : Type}

namespace Transaction

def resetAll (t : Transaction Rule) : Transaction Rule := { t with dynamicRules := [] }

def add (rule : Rule) (t : Transaction Rule) : Transaction Rule :=
  { t with dynamicRules := rule :: t.dynamicRules }

end Transaction

structure Store (Rule : Type) where
  manager : RewriteManager Rule
  disk : Disk

variable (format : RuleFormat Rule) (fault : Option SaveFault)

namespace RewriteManager

def loadRules (path : String) (disk : Disk) : Option (List Rule) := disk path >>= format.fromReader

/-- `RewriteManagerBuilder::new` and `build`: without a file that can be read there are no rules. -/
def build (staticRules : List Rule) (dynamicRulesPath : String) (disk : Disk) :
    RewriteManager Rule :=
  ⟨staticRules, (loadRules format dynamicRulesPath disk).getD [], 0, dynamicRulesPath⟩

/-- The files after the rules were written to `path`, and whether that succeeded. -/
def writeRules (config : List Rule) (path : String) (disk : Disk) : Bool × Disk :=
  let tempPath := path ++ ".new"
  match fault with
  | some .create => (false, disk)
  | some (.write written) => (false, Function.update disk tempPath (some written))
  | some .rename => (false, Function.update disk tempPath (some (format.toWriter config)))
  | none =>
    (true, Function.update (Function.update disk tempPath none) path
      (some (format.toWriter config)))

/-- `save`. The rules are taken out of the manager and put back. -/
def save (s : Store Rule) : Bool × Store Rule :=
  let config := s.manager.dynamicRules
  let manager := { s.manager with dynamicRules := [] }
  let (result, disk) := writeRules format fault config manager.dynamicRulesPath s.disk
  (result, ⟨{ manager with dynamicRules := config }, disk⟩)

def transaction (m : RewriteManager Rule) : Transaction Rule := ⟨m.dynamicRules, m.generation⟩

/-- `apply`. Failing to save is only logged. -/
def apply (t : Transaction Rule) : EStateM CommitError (Store Rule) Unit := fun s =>
  if s.manager.generation ≠ t.generation then .error .tooLate s
  else
    let manager :=
      { s.manager with dynamicRules := t.dynamicRules, generation := s.manager.generation + 1 }
    .ok () (save format fault { s with manager := manager }).2

end RewriteManager

end Garnet.PkgResolver
