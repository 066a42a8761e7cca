import Mathlib.Logic.Function.Basic
import Garnet.Lib.Outcome

/-! The asynchronous client of a channel: the interests in replies that it keeps, and what its calls
do to them, one step for each time that a lock is held. -/

namespace Garnet.Fidl
open Function (update)

/-- A message from the server. The request that a reply answers is known to the server only. -/
structure MessageBuf where
  txId : Nat
  request : Option Nat
  deriving Repr, DecidableEq

/-- `Waiting` has the waker of a task as well. -/
inductive MessageInterest where
  | willPoll
  | waiting
  | received (buf : MessageBuf)
  | discard
  deriving Repr, DecidableEq

inductive EventListener where
  | none
  | willPoll
  | some
  deriving Repr, DecidableEq

/-- `Txid::from_interest_id`, a `u32`. -/
def txidOf (interestId : Nat) : Nat := (interestId + 1) % 2 ^ 32

/-- `InterestId::from_txid`. -/
def interestIdOf (txid : Nat) : Nat := txid - 1

abbrev Slab := Nat → Option MessageInterest

variable (interests : Slab)

namespace Slab

/-- The start of `poll_recv_msg_response`. -/
def startPoll (id : Nat) : Except Fault Slab :=
  match interests id with
  | .none => .error .panic
  | .some (.received _) => .ok interests
  | .some _ => .ok (update interests id (some .waiting))

/-- The end of `poll_recv_msg_response`: the reply, if it is there. -/
def endPoll (id : Nat) : Except Fault (Option MessageBuf × Slab) :=
  match interests id with
  | .none => .error .panic
  | .some (.received buf) => .ok (some buf, update interests id none)
  | .some _ => .ok (none, interests)

def deregisterMsgInterest (id : Nat) : Except Fault Slab :=
  match interests id with
  | .none => .error .panic
  | .some (.received _) => .ok (update interests id none)
  | .some _ => .ok (update interests id (some .discard))

/-- What `recv_all` does with a reply. -/
def store (buf : MessageBuf) : Slab :=
  let id := interestIdOf buf.txId
  match interests id with
  | .none => interests
  | .some .discard => update interests id none
  | .some _ => update interests id (some (.received buf))

end Slab

/-- How far a query has come: its interest is registered, its future is live, has returned a reply,
or was dropped, or the request could not be encoded or written. -/
inductive Stage where
  | unsent
  | registered (id : Nat)
  | live (id : Nat)
  | done (buf : MessageBuf)
  | dropped (id : Nat)
  | failed (id : Nat)
  deriving Repr, DecidableEq

def Stage.id? : Stage → Option Nat
  | registered id | live id | dropped id | failed id => some id
  | _ => none

/-- The client, its queries, and the channel: the requests that the server has not answered, the
messages on their way, and those that a `recv_all` has read and not stored yet. The futures of the
queries in `erred` have returned an error of `recv_all`, which leaves them as they were. -/
structure Client where
  interests : Slab
  listener : EventListener
  queue : List MessageBuf
  stage : Nat → Stage
  requests : List (Nat × Nat)
  channel : List MessageBuf
  inHand : List MessageBuf
  erred : List Nat

namespace Client

def new : Client := ⟨fun _ => none, .none, [], fun _ => .unsent, [], [], [], []⟩

/-- `get_pending_waker` finds one. -/
def HasWaker (c : Client) : Prop := (∃ id, c.interests id = some .waiting) ∨ c.listener = .some

def setStage (c : Client) (q : Nat) (interests : Slab) (stage : Stage) : Client :=
  { c with interests, stage := update c.stage q stage }

/-- The rest of a round of `recv_all`, for a message that was read. -/
def storeMessage (c : Client) (buf : MessageBuf) : Client :=
  let c := { c with inHand := c.inHand.erase buf }
  if buf.txId = 0 then
    { c with queue := c.queue ++ [buf], listener := if c.listener = .some then .willPoll else c.listener }
  else { c with interests := c.interests.store buf }

end Client

/-- A step of the client or the server. Interest ids are keys of a slab, which gives out any that is
vacant; `bound` is one more than the largest. -/
inductive Step (bound : Nat) : Client → Client → Prop
  | register {c q id} : c.stage q = .unsent → c.interests id = none → id < bound →
      Step bound c (c.setStage q (update c.interests id (some .willPoll)) (.registered id))
  | write {c q id} : c.stage q = .registered id →
      Step bound c { c.setStage q c.interests (.live id) with requests := (q, txidOf id) :: c.requests }
  | fail {c q id} : c.stage q = .registered id → Step bound c (c.setStage q c.interests (.failed id))
  | reply {c q t} : (q, t) ∈ c.requests →
      Step bound c { c with requests := c.requests.erase (q, t), channel := c.channel ++ [⟨t, some q⟩] }
  | event {c} : Step bound c { c with channel := c.channel ++ [⟨0, none⟩] }
  | startPoll {c q id interests} : c.stage q = .live id → c.interests.startPoll id = .ok interests →
      Step bound c { c with interests }
  | recv {c buf rest} : c.HasWaker → c.channel = buf :: rest →
      Step bound c { c with channel := rest, inHand := buf :: c.inHand }
  | store {c buf} : buf ∈ c.inHand → Step bound c (c.storeMessage buf)
  | endPoll {c q id buf interests} : c.stage q = .live id →
      c.interests.endPoll id = .ok (some buf, interests) →
        Step bound c (c.setStage q interests (.done buf))
  | error {c q id} : c.stage q = .live id → Step bound c { c with erred := q :: c.erred }
  | drop {c q id interests} : c.stage q = .live id → c.interests.deregisterMsgInterest id = .ok interests →
      Step bound c (c.setStage q interests (.dropped id))
  | listen {c listener} : Step bound c { c with listener }
  | takeEvent {c buf rest} : c.queue = buf :: rest → Step bound c { c with queue := rest }

inductive Run (bound : Nat) : Client → Prop
  | new : Run bound .new
  | step {c c'} : Run bound c → Step bound c c' → Run bound c'

end Garnet.Fidl
