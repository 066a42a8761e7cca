import Garnet.Lib.Outcome

/-! The update service: the state machine behind a `RefCell`, its background loop, the FIDL server
behind another one, and the update checks that `CheckNow` spawns. They run on one thread and give
way to each other where they await. The monitors of the server are left out. -/

namespace Garnet.OmahaClient

inductive State where
  | idle | checkingForUpdates | updateAvailable | performingUpdate | waitingForReboot | finalizingUpdate
  | encounteredError
  deriving DecidableEq, Repr

inductive ManagerState where
  | idle | checkingForUpdates | updateAvailable | performingUpdate | waitingForReboot | finalizingUpdate
  | encounteredError
  deriving DecidableEq, Repr

inductive OmahaStatus where
  | ok | noUpdate | other
  deriving DecidableEq, Repr

/-- What comes of the request of an update check. -/
inductive Answer where
  | failed
  | unparsable
  | parsed (statuses : List OmahaStatus) (plan : Bool)
  deriving DecidableEq, Repr

inductive UpdateDecision where
  | ok | deferredByPolicy | deniedByPolicy
  deriving DecidableEq, Repr

/-- What the future that a task awaits resolves to: only the field for that future is read. -/
structure Reply where
  /-- `next_update_time` is not in the past. -/
  future : Bool := true
  checkAllowed : Bool := true
  answer : Answer := .failed
  canStart : UpdateDecision := .ok
  installed : Bool := true

/-- What follows the report of an event. -/
inductive AfterReport where
  | returns (ok : Bool) | install | finalize | reboot
  deriving DecidableEq, Repr

/-- Where an update check awaits. -/
inductive Await where
  | checkAllowed | request | canStart | install
  | report (next : AfterReport)
  deriving DecidableEq, Repr

/-- `perform_update_check` from one await to the next: the states that it sets, and where it awaits
then or whether it has returned `Ok`. -/
def performUpdateCheck (r : Reply) : Await → List State × (Await ⊕ Bool)
  | .checkAllowed =>
    if r.checkAllowed then ([.checkingForUpdates], .inl .request) else ([], .inr false)
  | .request =>
    match r.answer with
    | .failed => ([.encounteredError], .inr false)
    | .unparsable => ([.encounteredError], .inl (.report (.returns false)))
    | .parsed statuses plan =>
      if !statuses.any (· == .ok) then ([], .inr true)
      else if plan then ([.updateAvailable], .inl .canStart)
      else ([.updateAvailable, .encounteredError], .inl (.report (.returns false)))
  | .canStart =>
    match r.canStart with
    | .ok => ([.performingUpdate], .inl (.report .install))
    | .deferredByPolicy => ([], .inl (.report (.returns true)))
    | .deniedByPolicy => ([.encounteredError], .inl (.report (.returns true)))
  | .install =>
    if r.installed then ([], .inl (.report .finalize)) else ([.encounteredError], .inl (.report (.returns true)))
  | .report (.returns ok) => ([], .inr ok)
  | .report .install => ([], .inl .install)
  | .report .finalize => ([.finalizingUpdate], .inl (.report .reboot))
  | .report .reboot => ([.waitingForReboot], .inr true)

/-- Where `StateMachine::start` is. -/
inductive Loop where
  | top | computing | waiting | checking (point : Await)
  deriving DecidableEq, Repr

/-- A task that `CheckNow` has spawned. -/
inductive Check where
  | spawned | checking (point : Await)
  deriving DecidableEq, Repr

structure Service where
  state : State
  managerState : ManagerState
  hasCallback : Bool
  consecutiveFailedUpdateChecks : Nat
  machineBorrowed : Bool
  serverBorrowed : Bool
  loop : Loop
  checks : List Check
  deriving DecidableEq, Repr

inductive Initiator where
  | user | service
  deriving DecidableEq, Repr

/-- A request, and whether the monitor that it has brings an error. -/
inductive ManagerRequest where
  | checkNow (initiator : Option Initiator) (monitorFails : Bool)
  | getState
  | addMonitor (monitorFails : Bool)
  deriving DecidableEq, Repr

inductive Response where
  | started | inProgress
  | state (state : ManagerState)
  deriving DecidableEq, Repr

def onStateChange : State → ManagerState
  | .idle => .idle
  | .checkingForUpdates => .checkingForUpdates
  | .updateAvailable => .updateAvailable
  | .performingUpdate => .performingUpdate
  | .waitingForReboot => .waitingForReboot
  | .finalizingUpdate => .finalizingUpdate
  | .encounteredError => .encounteredError

variable (s : Service)

namespace Service

def new : Service := ⟨.idle, .idle, false, 0, false, false, .top, []⟩

def borrowMachine : Except Fault Service :=
  if s.machineBorrowed then .error .panic else .ok { s with machineBorrowed := true }

def borrowServer : Except Fault Service :=
  if s.serverBorrowed then .error .panic else .ok { s with serverBorrowed := true }

def dropMachine : Service := { s with machineBorrowed := false }

def dropServer : Service := { s with serverBorrowed := false }

def setState (state : State) (s : Service) : Except Fault Service :=
  let s := { s with state := state }
  if s.hasCallback then do
    let s ← s.borrowServer
    pure { s with managerState := onStateChange state }.dropServer
  else pure s

/-- `start_update_check` from one await to the next. It awaits nothing when it has returned. -/
def startUpdateCheck (r : Reply) (point : Await) (s : Service) : Except Fault (Service × Option Await) := do
  let (states, next) := performUpdateCheck r point
  let s ← states.foldlM (fun s state => s.setState state) s
  match next with
  | .inl point => pure (s, some point)
  | .inr ok =>
    let s := { s with consecutiveFailedUpdateChecks := if ok then 0 else s.consecutiveFailedUpdateChecks + 1 }
    if s.state ≠ .waitingForReboot then
      let s ← s.setState .idle
      pure (s, none)
    else pure (s, none)

/-- `StateMachine::start` from one await to the next. -/
def pollLoop (r : Reply) (s : Service) : Except Fault Service :=
  match s.loop with
  | .top => do
    let s ← s.borrowMachine
    pure { s with loop := .computing }
  | .computing =>
    if r.future then pure { s.dropMachine with loop := .waiting }
    else do
      let s ← s.dropMachine.borrowMachine
      pure { s with loop := .checking .checkAllowed }
  | .waiting => do
    let s ← s.borrowMachine
    pure { s with loop := .checking .checkAllowed }
  | .checking point => do
    let (s, next) ← s.startUpdateCheck r point
    match next with
    | some point => pure { s with loop := .checking point }
    | none =>
      let s ← s.dropMachine.borrowMachine
      pure { s with loop := .computing }

def pollCheck (i : Nat) (r : Reply) (s : Service) : Except Fault Service :=
  match s.checks[i]? with
  | none => pure s
  | some .spawned => do
    let s ← s.borrowMachine
    pure { s with checks := s.checks.set i (.checking .checkAllowed) }
  | some (.checking point) => do
    let (s, next) ← s.startUpdateCheck r point
    match next with
    | some point => pure { s with checks := s.checks.set i (.checking point) }
    | none => pure { s.dropMachine with checks := s.checks.eraseIdx i }

def setupStateCallback : Except Fault Service := do
  let s ← s.borrowServer
  let s ← s.dropServer.borrowMachine
  pure { s.dropMachine with hasCallback := true }

def handleManagerRequest (request : ManagerRequest) (s : Service) :
    Except Fault (Service × Option Response) := do
  let s ← s.borrowServer
  match request with
  | .checkNow initiator monitorFails =>
    if monitorFails then pure (s.dropServer, none)
    else if s.managerState = .idle then
      if initiator.isNone then pure (s.dropServer, none)
      else pure ({ s.dropServer with checks := s.checks ++ [.spawned] }, some .started)
    else pure (s.dropServer, some .inProgress)
  | .getState => pure (s.dropServer, some (.state s.managerState))
  | .addMonitor _ => pure (s.dropServer, none)

end Service

/-- A step between two awaits. -/
inductive Event where
  | setup
  | loop (reply : Reply)
  | check (i : Nat) (reply : Reply)
  | request (q : ManagerRequest)

namespace Event

def exec : Event → Except Fault (Service × Option Response)
  | .setup => (·, none) <$> s.setupStateCallback
  | .loop r => (·, none) <$> s.pollLoop r
  | .check i r => (·, none) <$> s.pollCheck i r
  | .request q => s.handleManagerRequest q

/-- The server sets the callback once, before it takes requests. -/
def Enabled : Event → Prop
  | .setup => s.hasCallback = false
  | .loop _ => True
  | .check i _ => i < s.checks.length
  | .request _ => s.hasCallback = true

end Event

inductive Run (meets : Service → Event → Prop) : Service → Prop where
  | start : Run meets .new
  | step {s s' : Service} {e : Event} {response : Option Response} : Run meets s → e.Enabled s → meets s e →
    e.exec s = .ok (s', response) → Run meets s'

namespace Service

def checksInProgress : Nat :=
  (match s.loop with | .checking _ => 1 | _ => 0) +
    s.checks.countP fun c => match c with | .checking _ => true | .spawned => false

/-- A check is in progress or pending, or a reboot is awaited. -/
def Engaged : Prop :=
  0 < s.checksInProgress ∨ Check.spawned ∈ s.checks ∨ s.state = .waitingForReboot

end Service

end Garnet.OmahaClient
