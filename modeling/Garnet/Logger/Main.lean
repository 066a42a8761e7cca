import Garnet.Logger.Buffer
import Mathlib.Data.Finset.Card

/-! The log manager: its listeners, and the three requests that take its lock. The limits of the
listener's protocol are parameters. -/

namespace Garnet.Logger

structure LogMessage where
  pid : UInt64
  tid : UInt64
  time : Int
  severity : Int
  droppedLogs : UInt32
  tags : List String
  msg : String
  deriving DecidableEq

/-- `LogLevelFilter`, with its value. -/
inductive LogLevelFilter where
  | none
  | level (value : Int)

structure LogFilterOptions where
  filterByPid : Bool
  pid : UInt64
  filterByTid : Bool
  tid : UInt64
  verbosity : UInt8
  minSeverity : LogLevelFilter
  tags : List String

structure Limits where
  maxTags : Nat
  maxTagLenBytes : Nat
  maxLogManySizeBytes : Nat

inductive ListenerCall where
  | log (message : LogMessage)
  | logMany (messages : List LogMessage)
  | done

def ListenerCall.messages : ListenerCall → List LogMessage
  | .log message => [message]
  | .logMany messages => messages
  | .done => []

inductive CallResult where
  | ok
  | peerClosed
  | other
  deriving DecidableEq

/-- What the next call to a channel comes to, after the calls that it was sent before. -/
abbrev Outcome := Nat → List (ListenerCall × CallResult) → ListenerCall → CallResult

/-- The calls that each channel was sent, with what they came to. -/
abbrev World := Nat → List (ListenerCall × CallResult)

inductive ListenerStatus where
  | fine
  | stale
  deriving DecidableEq

variable (outcome : Outcome)

/-- A call to a channel. Errors other than a closed channel are only reported. -/
def call (channel : Nat) (c : ListenerCall) (w : World) : ListenerStatus × World :=
  let result := outcome channel (w channel) c
  (if result = .peerClosed then .stale else .fine,
    Function.update w channel (w channel ++ [(c, result)]))

structure ListenerWrapper where
  listener : Nat
  minSeverity : Option Int
  pid : Option UInt64
  tid : Option UInt64
  tags : Finset String

namespace ListenerWrapper

def filter (l : ListenerWrapper) (message : LogMessage) : Bool :=
  if (l.pid.map fun pid => decide (pid ≠ message.pid)).getD false ||
      (l.tid.map fun tid => decide (tid ≠ message.tid)).getD false ||
      (l.minSeverity.map fun minSev => decide (message.severity < minSev)).getD false then false
  else if l.tags.card ≠ 0 ∧ ¬ message.tags.any fun tag => decide (tag ∈ l.tags) then false
  else true

def sendFilteredLogs (messages : List LogMessage) (l : ListenerWrapper) (w : World) :
    ListenerStatus × World :=
  call outcome l.listener (.logMany messages) w

def sendLog (message : LogMessage) (l : ListenerWrapper) (w : World) : ListenerStatus × World :=
  if ¬ l.filter message then (.fine, w) else call outcome l.listener (.log message) w

/-- The listener that `log_manager_helper` makes of the options, unless they are refused. -/
def new (limits : Limits) (listener : Nat) (options : Option LogFilterOptions) :
    Option ListenerWrapper :=
  match options with
  | none => some ⟨listener, none, none, none, ∅⟩
  | some options =>
    let tags := options.tags.toFinset
    if limits.maxTags < tags.card then none
    else if options.tags.any fun tag => decide (limits.maxTagLenBytes < tag.utf8ByteSize) then none
    else
      let minSeverity := if 0 < options.verbosity then some (-(options.verbosity.toNat : Int))
        else match options.minSeverity with
          | .none => none
          | .level value => some value
      some ⟨listener, minSeverity, if options.filterByPid then some options.pid else none,
        if options.filterByTid then some options.tid else none, tags⟩

end ListenerWrapper

structure LogManagerShared where
  listeners : List ListenerWrapper
  logMsgBuffer : MemoryBoundedBuffer LogMessage

/-- `run_listeners`: those whose channel is closed are dropped. -/
def runListeners (outcome : Outcome) (message : LogMessage) :
    List ListenerWrapper → World → List ListenerWrapper × World
  | [], w => ([], w)
  | l :: listeners, w =>
    let (status, w) := l.sendLog outcome message w
    let (listeners, w) := runListeners outcome message listeners w
    (if status = .fine then l :: listeners else listeners, w)

/-- The loop of `log_manager_helper` over the buffer, with the batch so far and its size. -/
def sendBacklog (outcome : Outcome) (limits : Limits) (lw : ListenerWrapper) :
    List (LogMessage × Nat) → List LogMessage → Nat → World → ListenerStatus × World
  | [], v, _, w => if 0 < v.length then lw.sendFilteredLogs outcome v w else (.fine, w)
  | (msg, size) :: buffer, v, logLength, w =>
    if lw.filter msg then
      if limits.maxLogManySizeBytes < logLength + size then
        match lw.sendFilteredLogs outcome v w with
        | (.stale, w) => (.stale, w)
        | (.fine, w) => sendBacklog outcome limits lw buffer [msg] size w
      else sendBacklog outcome limits lw buffer (v ++ [msg]) (logLength + size) w
    else sendBacklog outcome limits lw buffer v logLength w

structure Logger where
  shared : LogManagerShared
  sent : World

/-- `log_manager_helper`. The channel may fail to become a proxy. -/
def logManagerHelper (limits : Limits) (logListener : Option Nat)
    (options : Option LogFilterOptions) (dumpLogs : Bool) (s : Logger) : Logger :=
  match logListener.bind fun listener => ListenerWrapper.new limits listener options with
  | none => s
  | some lw =>
    match sendBacklog outcome limits lw s.shared.logMsgBuffer.inner [] 0 s.sent with
    | (.stale, w) => { s with sent := w }
    | (.fine, w) =>
      if dumpLogs then { s with sent := (call outcome lw.listener .done w).2 }
      else ⟨{ s.shared with listeners := s.shared.listeners ++ [lw] }, w⟩

def processLog (message : LogMessage) (size : Nat) (s : Logger) : Except Fault Logger := do
  let (listeners, w) := runListeners outcome message s.shared.listeners s.sent
  let buffer ← s.shared.logMsgBuffer.push message size
  return ⟨⟨listeners, buffer⟩, w⟩

inductive Request where
  | processLog (message : LogMessage) (size : Nat)
  | listen (logListener : Option Nat) (options : Option LogFilterOptions)
  | dumpLogs (logListener : Option Nat) (options : Option LogFilterOptions)

def Request.exec (limits : Limits) (s : Logger) : Request → Except Fault Logger
  | .processLog message size => Logger.processLog outcome message size s
  | .listen logListener options => .ok (logManagerHelper outcome limits logListener options false s)
  | .dumpLogs logListener options => .ok (logManagerHelper outcome limits logListener options true s)

end Garnet.Logger
