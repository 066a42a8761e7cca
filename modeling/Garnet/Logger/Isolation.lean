import Garnet.Logger.Delivery

/-! Listeners that fail. What a channel is sent depends on its own answers only, whatever the calls
to the other channels come to. -/

namespace Garnet.Logger
open List
open Function (update)
open ListenerWrapper (new sendFilteredLogs sendLog)

/-- The requests one after another, each with what the calls made meanwhile come to. -/
def runWith (limits : Limits) : List (Request × Outcome) → Logger → Except Fault Logger
  | [], s => .ok s
  | (r, outcome) :: requests, s => r.exec outcome limits s >>= runWith limits requests

/-- The calls go to the channel, and are those that its answers lead to. -/
def Confined (channel : Nat) (x : Outcome → World → ListenerStatus × World) : Prop :=
  ∀ o w, x o w = ((x (fun _ => o channel) fun _ => w channel).1,
    update w channel ((x (fun _ => o channel) fun _ => w channel).2 channel))

section Confined
variable {channel : Nat} {limits : Limits} {lw : ListenerWrapper}

theorem confined_fine : Confined channel fun _ w => (.fine, w) := fun _ _ => by simp

theorem confined_call (c : ListenerCall) : Confined channel fun o w => call o channel c w := by
  intro o w
  simp [call]

theorem confined_sendBacklog (buffer : List (LogMessage × Nat)) (v : List LogMessage)
    (logLength : Nat) :
    Confined lw.listener fun o w => sendBacklog o limits lw buffer v logLength w := by
  induction buffer generalizing v logLength with
  | nil =>
    unfold sendBacklog
    split
    · exact confined_call _
    · exact confined_fine
  | cons entry buffer ih =>
    unfold sendBacklog
    split
    · split
      · intro o w
        have hcall := @confined_call lw.listener (.logMany v) o w
        dsimp only [sendFilteredLogs] at hcall ⊢
        rw [hcall]
        rcases call (fun _ => o lw.listener) lw.listener (.logMany v) fun _ => w lw.listener with
            ⟨_ | _, w'⟩
        · have hrest := ih [entry.1] entry.2
          dsimp only [Confined] at hrest ⊢
          rw [hrest o, hrest _ w']
          simp
        · rfl
      · exact ih _ _
    · exact ih _ _

theorem confined_sendLog (message : LogMessage) :
    Confined lw.listener fun o w => lw.sendLog o message w := by
  unfold sendLog
  split
  · exact confined_fine
  · exact confined_call _

end Confined

def own (channel : Nat) (listeners : List ListenerWrapper) : List ListenerWrapper :=
  listeners.filter (·.listener = channel)

/-- A channel cannot tell the two apart: the buffer, its listeners and the calls it was sent. -/
@[mk_iff] structure Alike (channel : Nat) (s t : Logger) : Prop where
  buffer : s.shared.logMsgBuffer = t.shared.logMsgBuffer
  listeners : own channel s.shared.listeners = own channel t.shared.listeners
  sent : s.sent channel = t.sent channel

section Alike
variable {limits : Limits} {channel : Nat} {o o' : Outcome} (ho : o channel = o' channel)
  {s t : Logger}
include ho

/-- The others among the listeners change nothing for the channel. -/
theorem runListeners_own (message : LogMessage) (listeners : List ListenerWrapper) {w w' : World}
    (hw : w channel = w' channel) :
    own channel (runListeners o message listeners w).1 =
      (runListeners o' message (own channel listeners) w').1 ∧
      (runListeners o message listeners w).2 channel =
        (runListeners o' message (own channel listeners) w').2 channel := by
  induction listeners generalizing w w' with
  | nil => exact ⟨rfl, hw⟩
  | cons l listeners ih =>
    have hl := @confined_sendLog l message
    dsimp only [Confined, own] at hl ih ⊢
    by_cases hc : l.listener = channel
    · subst hc
      have hrest := fun l' => @ih (update w l.listener l') (update w' l.listener l') (by simp)
      simp only [runListeners, hl o w, hl o' w', ho, hw, filter_cons_of_pos, decide_true,
        apply_ite (filter _), hrest, and_self]
    · have hrest := fun v => @ih (update w l.listener v) w' (by simp [hw, Ne.symm hc])
      simp only [runListeners, hl o w, filter_cons, hc, decide_false, Bool.false_eq_true, if_false,
        apply_ite (filter _), ite_self, hrest, and_self]

theorem logManagerHelper_alike (h : Alike channel s t) (logListener : Option Nat)
    (options : Option LogFilterOptions) (dumpLogs : Bool) :
    Alike channel (logManagerHelper o limits logListener options dumpLogs s)
      (logManagerHelper o' limits logListener options dumpLogs t) ∧
      (logManagerHelper o limits logListener options dumpLogs s).shared.logMsgBuffer =
        s.shared.logMsgBuffer := by
  obtain ⟨hbuffer, hlisteners, hbefore⟩ := h
  unfold logManagerHelper
  cases logListener.bind fun listener => new limits listener options with
  | none => exact ⟨⟨hbuffer, hlisteners, hbefore⟩, rfl⟩
  | some lw =>
    have hbacklog := @confined_sendBacklog limits lw t.shared.logMsgBuffer.inner [] 0
    have hdone := @confined_call lw.listener .done
    dsimp only [Confined, own] at hbacklog hdone hlisteners ⊢
    rw [hbuffer, hbacklog o, hbacklog o']
    generalize hsent : sendBacklog (fun _ => o lw.listener) _ _ _ _ _ _ = sent
    by_cases hl : lw.listener = channel
    · rw [hl] at hdone
      rw [hl, ho, hbefore] at hsent
      rw [hl, hsent]
      cases dumpLogs <;> rcases sent with ⟨_ | _, _⟩ <;>
        simp [alike_iff, own, hbuffer, hlisteners, hdone o, hdone o', ho]
    · generalize sendBacklog (fun _ => o' lw.listener) _ _ _ _ _ _ = sent'
      cases dumpLogs <;> rcases sent with ⟨_ | _, _⟩ <;> rcases sent' with ⟨_ | _, _⟩ <;>
        simp [alike_iff, own, hbuffer, hlisteners, hbefore, hdone o, hdone o', hl, Ne.symm hl]

theorem exec_alike {capacity : Nat} {processed : List (LogMessage × Nat)} (h : Alike channel s t)
    (hbuffer : Holds capacity processed s.shared.logMsgBuffer) (r : Request) :
    ∃ s' t', r.exec o limits s = .ok s' ∧ r.exec o' limits t = .ok t' ∧ Alike channel s' t' ∧
      Holds capacity (processed ++ r.processed) s'.shared.logMsgBuffer := by
  cases r with
  | processLog message size =>
    obtain ⟨b, hpush, hholds⟩ := push_spec hbuffer message size
    obtain ⟨hkept, hseen⟩ := runListeners_own ho message s.shared.listeners h.sent
    obtain ⟨hkept', hseen'⟩ :=
      @runListeners_own channel o' o' rfl message t.shared.listeners t.sent _ rfl
    rw [h.listeners, ← hkept'] at hkept
    rw [h.listeners, ← hseen'] at hseen
    simp only [Request.exec, processLog, ← h.buffer, hpush]
    exact ⟨_, _, rfl, rfl, ⟨rfl, hkept, hseen⟩, hholds⟩
  | listen logListener options | dumpLogs logListener options =>
    obtain ⟨halike, hsame⟩ := logManagerHelper_alike ho h logListener options _
    exact ⟨_, _, rfl, rfl, halike, by simpa [Request.processed, hsame] using hbuffer⟩

end Alike

theorem runWith_alike {limits : Limits} {capacity channel : Nat}
    (requests : List (Request × Outcome)) {processed : List (LogMessage × Nat)} {s t : Logger}
    (h : Alike channel s t) (hbuffer : Holds capacity processed s.shared.logMsgBuffer) :
    ∃ s' t', runWith limits requests s = .ok s' ∧
      runWith limits (requests.map fun r => (r.1, fun _ => r.2 channel)) t = .ok t' ∧
      Alike channel s' t' ∧
        Holds capacity (processed ++ requests.flatMap (·.1.processed)) s'.shared.logMsgBuffer := by
  induction requests generalizing processed s t with
  | nil => exact ⟨s, t, rfl, rfl, h, by rwa [flatMap_nil, append_nil]⟩
  | cons r requests ih =>
    obtain ⟨s', t', hs, ht, halike, hholds⟩ :=
      @exec_alike limits channel r.2 (fun _ => r.2 channel) rfl s t _ _ h hbuffer r.1
    rw [map_cons, runWith, runWith, hs, ht, flatMap_cons, ← append_assoc]
    exact ih halike hholds

/-- A channel receives what it would receive if every channel answered as it does. -/
theorem listener_isolated (limits : Limits) (capacity channel : Nat)
    (requests : List (Request × Outcome)) :
    ∃ s s', runWith limits requests (.start capacity) = .ok s ∧
      runWith limits (requests.map fun r => (r.1, fun _ => r.2 channel)) (.start capacity) =
        .ok s' ∧
        s.sent channel = s'.sent channel ∧
          Holds capacity (requests.flatMap (·.1.processed)) s.shared.logMsgBuffer := by
  obtain ⟨s, s', hs, hs', halike, hbuffer⟩ :=
    @runWith_alike limits capacity channel requests [] (.start capacity) _
    ⟨rfl, rfl, rfl⟩ (holds_new capacity)
  exact ⟨s, s', hs, hs', halike.sent, hbuffer⟩

end Garnet.Logger
