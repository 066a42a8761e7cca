import Garnet.Logger.Main

/-! What arrives at the listeners when all calls to them succeed. -/

namespace Garnet.Logger
open List
open ListenerWrapper (new sendLog)

def succeed : Outcome := fun _ _ _ => .ok

/-- The messages that have arrived at a channel. -/
def World.messages (w : World) (channel : Nat) : List LogMessage :=
  (w channel).flatMap fun (c, result) => if result = .ok then c.messages else []

def matching (lw : ListenerWrapper) (l : List (LogMessage × Nat)) : List LogMessage :=
  (l.map Prod.fst).filter lw.filter

theorem matching_append (lw : ListenerWrapper) (l l' : List (LogMessage × Nat)) :
    matching lw (l ++ l') = matching lw l ++ matching lw l' := by
  unfold matching
  rw [map_append, filter_append]

theorem matching_cons (lw : ListenerWrapper) (msg : LogMessage) (size : Nat)
    (l : List (LogMessage × Nat)) :
    matching lw ((msg, size) :: l) =
    if lw.filter msg then msg :: matching lw l else matching lw l := by
  unfold matching
  rw [map_cons, filter_cons]

theorem call_succeed (channel : Nat) (c : ListenerCall) (w : World) :
    call succeed channel c w = (.fine, Function.update w channel (w channel ++ [(c, .ok)])) := rfl

theorem messages_update (w : World) (channel channel' : Nat) (c : ListenerCall) :
    World.messages (Function.update w channel (w channel ++ [(c, .ok)])) channel' =
      if channel' = channel then w.messages channel' ++ c.messages else w.messages channel' := by
  unfold World.messages
  split
  next h =>
    rw [h, Function.update_self, flatMap_append, flatMap_singleton]
    rfl
  next h =>
    rw [Function.update_of_ne h]

def gets (owner : Option ListenerWrapper) (l : List (LogMessage × Nat)) : List LogMessage :=
  match owner with
  | some lw => matching lw l
  | none => []

theorem gets_append (owner : Option ListenerWrapper) (l l' : List (LogMessage × Nat)) :
    gets owner (l ++ l') = gets owner l ++ gets owner l' := by
  cases owner with
  | none => rfl
  | some lw => exact matching_append lw l l'

def owner (channel : Nat) (listeners : List ListenerWrapper) : Option ListenerWrapper :=
  listeners.find? fun l => l.listener = channel

variable {channel : Nat} {listeners : List ListenerWrapper} {limits : Limits} {lw : ListenerWrapper}

theorem owner_none (h : channel ∉ listeners.map ListenerWrapper.listener) :
    owner channel listeners = none := by
  apply List.find?_eq_none.mpr
  intro l hl heq
  exact h (mem_map.mpr ⟨l, hl, of_decide_eq_true heq⟩)

theorem runListeners_spec (msg : LogMessage) (size : Nat)
    (hnodup : (listeners.map ListenerWrapper.listener).Nodup) (w : World) :
    ∃ w', runListeners succeed msg listeners w = (listeners, w') ∧
      ∀ channel, World.messages w' channel =
      w.messages channel ++ gets (owner channel listeners) [(msg, size)] := by
  induction listeners generalizing w with
  | nil => exact ⟨w, rfl, fun channel => (append_nil _).symm⟩
  | cons l listeners ih =>
    rw [map_cons, nodup_cons] at hnodup
    have hsend : ∃ w', l.sendLog succeed msg w = (.fine, w') ∧ ∀ channel, World.messages w' channel =
        w.messages channel ++ if channel = l.listener then matching l [(msg, size)] else [] := by
      unfold sendLog
      by_cases hfilter : l.filter msg = true
      · rw [if_neg (fun h => h hfilter), call_succeed]
        refine ⟨_, rfl, fun channel => ?_⟩
        rw [messages_update, matching_cons, if_pos hfilter]
        split
        · rfl
        · rw [append_nil]
      · rw [if_pos hfilter]
        refine ⟨w, rfl, fun channel => ?_⟩
        rw [matching_cons, if_neg hfilter]
        split <;> exact (append_nil _).symm
    obtain ⟨w', hrun, hmessages⟩ := hsend
    obtain ⟨w₁, hrest, hlater⟩ := ih hnodup.2 w'
    refine ⟨w₁, ?_, fun channel => ?_⟩
    · simp only [runListeners, hrun, hrest, if_true]
    · rw [hlater, hmessages]
      unfold owner
      rw [List.find?_cons]
      by_cases hch : channel = l.listener
      · have hnone : owner channel listeners = none := owner_none (hch ▸ hnodup.1)
        unfold owner at hnone
        rw [if_pos hch, hnone, decide_eq_true hch.symm]
        exact append_nil _
      · rw [if_neg hch, decide_eq_false fun h => hch h.symm, append_nil]

theorem sendBacklog_spec (limits : Limits) (lw : ListenerWrapper) (buffer : List (LogMessage × Nat))
    (v : List LogMessage) (logLength : Nat) (w : World) :
    ∃ w', sendBacklog succeed limits lw buffer v logLength w = (.fine, w') ∧
      ∀ channel, World.messages w' channel =
        w.messages channel ++ if channel = lw.listener then v ++ matching lw buffer else [] := by
  induction buffer generalizing v logLength w with
  | nil =>
    unfold sendBacklog
    split
    next =>
      refine ⟨_, call_succeed lw.listener (.logMany v) w, fun channel => ?_⟩
      rw [messages_update]
      split
      · rw [show matching lw [] = [] from rfl, append_nil]
        rfl
      · rw [append_nil]
    next hv =>
      rw [eq_nil_of_length_eq_zero (Nat.eq_zero_of_not_pos hv)]
      refine ⟨w, rfl, fun channel => ?_⟩
      split <;> exact (append_nil _).symm
  | cons entry buffer ih =>
    obtain ⟨msg, size⟩ := entry
    unfold sendBacklog
    rw [matching_cons]
    by_cases hfilter : lw.filter msg = true
    · rw [if_pos hfilter, if_pos hfilter]
      by_cases hfull : limits.maxLogManySizeBytes < logLength + size
      · obtain ⟨w', hrun, hmessages⟩ :=
          ih [msg] size (Function.update w lw.listener (w lw.listener ++ [(.logMany v, .ok)]))
        rw [if_pos hfull]
        refine ⟨w', hrun, fun channel => ?_⟩
        rw [hmessages, messages_update]
        split
        · rw [append_assoc]
          rfl
        · rfl
      · obtain ⟨w', hrun, hmessages⟩ := ih (v ++ [msg]) (logLength + size) w
        rw [if_neg hfull]
        refine ⟨w', hrun, fun channel => ?_⟩
        rw [hmessages, append_assoc]
        rfl
    · rw [if_neg hfilter, if_neg hfilter]
      exact ih v logLength w

/-- The requests one after another, in the order in which they take the lock. -/
def run (limits : Limits) : List Request → Logger → Except Fault Logger
  | [], s => .ok s
  | r :: requests, s => r.exec succeed limits s >>= run limits requests

namespace Request

def processed : Request → List (LogMessage × Nat)
  | .processLog message size => [(message, size)]
  | _ => []

def channels : Request → List Nat
  | .processLog _ _ => []
  | .listen logListener _ => logListener.toList
  | .dumpLogs logListener _ => logListener.toList

def registered (limits : Limits) : Request → List ListenerWrapper
  | .listen logListener options =>
    (logListener.bind fun listener => ListenerWrapper.new limits listener options).toList
  | _ => []

end Request

theorem new_listener {options : Option LogFilterOptions}
    (h : new limits channel options = some lw) : lw.listener = channel := by
  unfold new at h
  cases options with
  | none =>
    cases h
    rfl
  | some options =>
    dsimp only at h
    split_ifs at h <;> cases h <;> rfl

theorem registered_listener {r : Request} (h : lw ∈ r.registered limits) :
    lw.listener ∈ r.channels := by
  cases r with
  | processLog message size | dumpLogs logListener options => cases h
  | listen logListener options =>
    obtain ⟨channel, hchannel, hnew⟩ := Option.bind_eq_some_iff.mp (Option.mem_toList.mp h)
    rw [new_listener hnew, hchannel]
    exact mem_singleton_self _

/-- The buffer holds what fits of the processed messages, and the listeners have channels of their
own. -/
structure Serving (capacity : Nat) (processed : List (LogMessage × Nat)) (s : Logger) : Prop where
  buffer : Holds capacity processed s.shared.logMsgBuffer
  distinct : (s.shared.listeners.map ListenerWrapper.listener).Nodup

section Step
variable {limits : Limits} {capacity : Nat} {processed : List (LogMessage × Nat)} {s : Logger}

theorem logManagerHelper_spec (s : Logger) {lw : ListenerWrapper} {logListener : Option Nat}
    {options : Option LogFilterOptions}
    (hlw : (logListener.bind fun listener => new limits listener options) = some lw)
    (dumpLogs : Bool) :
    ∃ w, logManagerHelper succeed limits logListener options dumpLogs s =
        ⟨{ s.shared with listeners := s.shared.listeners ++ if dumpLogs then [] else [lw] }, w⟩ ∧
      ∀ channel, World.messages w channel =
        s.sent.messages channel ++
          if channel = lw.listener then matching lw s.shared.logMsgBuffer.inner else [] := by
  obtain ⟨w, hrun, hmessages⟩ := sendBacklog_spec limits lw s.shared.logMsgBuffer.inner [] 0 s.sent
  unfold logManagerHelper
  rw [hlw]
  dsimp only
  rw [hrun]
  cases dumpLogs with
  | false => exact ⟨w, rfl, hmessages⟩
  | true =>
    refine ⟨(call succeed lw.listener .done w).2, ?_, fun channel => ?_⟩
    · simp only [if_true, append_nil]
    · rw [call_succeed, messages_update, hmessages]
      split
      · exact append_nil _
      · rfl

theorem gets_nil (owner : Option ListenerWrapper) : gets owner [] = [] := by
  cases owner <;> rfl

theorem helper_spec (h : Serving capacity processed s) (logListener : Option Nat)
    (options : Option LogFilterOptions) (dumpLogs : Bool)
    (hfresh : ∀ channel ∈ logListener.toList,
      channel ∉ s.shared.listeners.map ListenerWrapper.listener) :
    ∃ s', logManagerHelper succeed limits logListener options dumpLogs s = s' ∧
      Serving capacity (processed ++ []) s' ∧
      s'.shared.listeners = s.shared.listeners ++
        (if dumpLogs then [] else (logListener.bind
          fun listener => new limits listener options).toList) ∧
      ∀ channel, channel ∉ logListener.toList →
        s'.sent.messages channel =
          s.sent.messages channel ++ gets (owner channel s.shared.listeners) [] := by
  rw [append_nil]
  cases hlw : logListener.bind fun listener => new limits listener options with
  | none =>
    refine ⟨s, ?_, h, ?_, fun channel _ => ?_⟩
    · unfold logManagerHelper
      rw [hlw]
    · rw [Option.toList_none, ite_self, append_nil]
    · rw [gets_nil, append_nil]
  | some lw =>
    obtain ⟨w, hrun, hmessages⟩ := logManagerHelper_spec s hlw dumpLogs
    obtain ⟨own, hown, hnew⟩ := Option.bind_eq_some_iff.mp hlw
    have hmem : lw.listener ∈ logListener.toList := by
      rw [new_listener hnew, hown]
      exact mem_singleton_self _
    refine ⟨_, hrun, ⟨h.buffer, ?_⟩, ?_, fun channel hchannel => ?_⟩
    · cases dumpLogs with
      | true => simpa only [if_true, append_nil] using h.distinct
      | false =>
        simp only [Bool.false_eq_true, if_false, map_append]
        refine List.Nodup.append h.distinct (nodup_singleton _) ?_
        intro x hx hx'
        rw [map_singleton, mem_singleton] at hx'
        rw [hx'] at hx
        exact hfresh _ hmem hx
    · rw [Option.toList_some]
    · rw [hmessages, gets_nil, if_neg fun heq : channel = lw.listener => hchannel (heq ▸ hmem)]

theorem exec_spec (h : Serving capacity processed s) (r : Request)
    (hfresh : ∀ channel ∈ r.channels, channel ∉ s.shared.listeners.map ListenerWrapper.listener) :
    ∃ s', r.exec succeed limits s = .ok s' ∧ Serving capacity (processed ++ r.processed) s' ∧
      s'.shared.listeners = s.shared.listeners ++ r.registered limits ∧
        ∀ channel, channel ∉ r.channels →
          s'.sent.messages channel =
            s.sent.messages channel ++ gets (owner channel s.shared.listeners) r.processed := by
  cases r with
  | processLog message size =>
    obtain ⟨b, hpush, hholds⟩ := push_spec h.buffer message size
    obtain ⟨w, hlisten, hmessages⟩ := runListeners_spec message size h.distinct s.sent
    refine ⟨⟨⟨s.shared.listeners, b⟩, w⟩, ?_, ⟨hholds, h.distinct⟩, (append_nil _).symm,
      fun channel _ => hmessages channel⟩
    simp only [Request.exec, Logger.processLog, hlisten, hpush]
    rfl
  | listen logListener options =>
    obtain ⟨s', hrun, hs'⟩ := helper_spec h logListener options false hfresh
    exact ⟨s', congrArg Except.ok hrun, hs'⟩
  | dumpLogs logListener options =>
    obtain ⟨s', hrun, hs'⟩ := helper_spec h logListener options true hfresh
    exact ⟨s', congrArg Except.ok hrun, hs'⟩

end Step

section Run
variable {limits : Limits} {capacity : Nat} {processed : List (LogMessage × Nat)} {s : Logger}

theorem owner_append {channel : Nat} {l l' : List ListenerWrapper}
    (h : ∀ lw ∈ l', lw.listener ≠ channel) : owner channel (l ++ l') = owner channel l := by
  have hnone : owner channel l' = none := by
    apply owner_none
    intro hmem
    obtain ⟨lw, hlw, heq⟩ := mem_map.mp hmem
    exact h lw hlw heq
  unfold owner at hnone ⊢
  rw [List.find?_append, hnone, Option.or_none]

theorem run_spec (h : Serving capacity processed s) (requests : List Request)
    (hfresh : (s.shared.listeners.map ListenerWrapper.listener ++
      requests.flatMap Request.channels).Nodup) :
    ∃ s', run limits requests s = .ok s' ∧
      Serving capacity (processed ++ requests.flatMap Request.processed) s' ∧
      (∀ channel ∈ s'.shared.listeners.map ListenerWrapper.listener,
        channel ∈ s.shared.listeners.map ListenerWrapper.listener ++
          requests.flatMap Request.channels) ∧
      ∀ channel, channel ∉ requests.flatMap Request.channels →
        s'.sent.messages channel =
          s.sent.messages channel ++
            gets (owner channel s.shared.listeners) (requests.flatMap Request.processed) := by
  induction requests generalizing s processed with
  | nil =>
    refine ⟨s, rfl, ?_, fun channel hchannel => mem_append_left _ hchannel, fun channel _ => ?_⟩
    · rw [flatMap_nil, append_nil]
      exact h
    · rw [flatMap_nil, gets_nil, append_nil]
  | cons r requests ih =>
    rw [flatMap_cons] at hfresh
    have hr : ∀ channel ∈ r.channels, channel ∉ s.shared.listeners.map ListenerWrapper.listener := by
      intro channel hchannel hmem
      exact (nodup_append.mp hfresh).2.2 channel hmem channel (mem_append_left _ hchannel) rfl
    obtain ⟨s₁, hexec, hserving, hlisteners, hmessages⟩ :=
      @exec_spec limits capacity processed s h r hr
    have hsub : ∀ channel ∈ s₁.shared.listeners.map ListenerWrapper.listener,
        channel ∈ s.shared.listeners.map ListenerWrapper.listener ++ r.channels := by
      intro channel hchannel
      rw [hlisteners, map_append, mem_append] at hchannel
      apply mem_append.mpr
      refine hchannel.imp id fun hnew => ?_
      obtain ⟨lw, hlw, rfl⟩ := mem_map.mp hnew
      exact registered_listener hlw
    have hfresh₁ : (s₁.shared.listeners.map ListenerWrapper.listener ++
        requests.flatMap Request.channels).Nodup := by
      rw [← append_assoc, nodup_append] at hfresh
      refine nodup_append.mpr ⟨hserving.distinct, hfresh.2.1, fun a ha b hb => hfresh.2.2 a
        (hsub a ha) b hb⟩
    obtain ⟨s', hrun, hserving', hsub', hmessages'⟩ := ih hserving hfresh₁
    refine ⟨s', ?_, ?_, fun channel hchannel => ?_, fun channel hchannel => ?_⟩
    · unfold run
      rw [hexec]
      exact hrun
    · rw [flatMap_cons, ← append_assoc]
      exact hserving'
    · rw [flatMap_cons, ← append_assoc]
      exact (mem_append.mp (hsub' channel hchannel)).elim
        (fun hold => mem_append_left _ (hsub channel hold))
        (mem_append_right _)
    · rw [flatMap_cons, mem_append, not_or] at hchannel
      have hsame : owner channel s₁.shared.listeners = owner channel s.shared.listeners := by
        rw [hlisteners]
        apply owner_append
        intro lw hlw heq
        exact hchannel.1 (heq ▸ registered_listener hlw)
      rw [hmessages' channel hchannel.2, hmessages channel hchannel.1, hsame, flatMap_cons,
        gets_append, append_assoc]

def Logger.start (capacity : Nat) : Logger := ⟨⟨[], ⟨[], 0, capacity⟩⟩, fun _ => []⟩

theorem run_append (limits : Limits) (l l' : List Request) (s : Logger) :
    run limits (l ++ l') s = run limits l s >>= run limits l' := by
  induction l generalizing s with
  | nil => rfl
  | cons r l ih =>
    rw [cons_append, run, run]
    cases r.exec succeed limits s with
    | error e => rfl
    | ok s => exact ih s

theorem run_channel {channel : Nat} {options : Option LogFilterOptions} {lw : ListenerWrapper}
    (h : Serving capacity processed s) (hlw : new limits channel options = some lw)
    (hempty : s.sent.messages channel = []) (dumpLogs : Bool) {after : List Request}
    (hfresh : (s.shared.listeners.map ListenerWrapper.listener ++
      channel :: after.flatMap Request.channels).Nodup) :
    ∃ s', run limits after (logManagerHelper succeed limits channel options dumpLogs s) = .ok s' ∧
      s'.sent.messages channel = matching lw s.shared.logMsgBuffer.inner ++
        if dumpLogs then [] else matching lw (after.flatMap Request.processed) := by
  have hchannel := new_listener hlw
  have hnew : channel ∉ s.shared.listeners.map ListenerWrapper.listener := fun hmem =>
    (nodup_append.mp hfresh).2.2 channel hmem channel mem_cons_self rfl
  have hlater : channel ∉ after.flatMap Request.channels :=
    (nodup_cons.mp (nodup_append.mp hfresh).2.1).1
  obtain ⟨s₁, hs₁, hserving, hlisteners, -⟩ :=
    @helper_spec limits capacity processed s h (some channel) options dumpLogs
    (fun c hc => mem_singleton.mp hc ▸ hnew)
  obtain ⟨w, hrun, hmessages⟩ :=
    @logManagerHelper_spec limits s lw (some channel) options hlw dumpLogs
  rw [Option.bind_some, hlw, Option.toList_some] at hlisteners
  rw [hs₁] at hrun ⊢
  have hfresh' : (s₁.shared.listeners.map ListenerWrapper.listener ++
      after.flatMap Request.channels).Nodup := by
    rw [hlisteners]
    cases dumpLogs with
    | true =>
      rw [if_pos rfl, append_nil]
      exact hfresh.sublist (List.Sublist.append_left (sublist_cons_self _ _) _)
    | false =>
      rw [if_neg nofun, map_append, append_assoc, map_singleton, hchannel]
      exact hfresh
  have howner : owner channel s₁.shared.listeners = if dumpLogs then none else some lw := by
    have hnone := owner_none hnew
    unfold owner at hnone ⊢
    rw [hlisteners, List.find?_append, hnone, Option.none_or]
    cases dumpLogs with
    | true => rfl
    | false => exact List.find?_cons_of_pos (decide_eq_true hchannel)
  obtain ⟨s', hrun', -, -, hmessages'⟩ := @run_spec limits capacity _ _ hserving after hfresh'
  refine ⟨s', hrun', ?_⟩
  rw [hmessages' channel hlater, howner, hrun, hmessages, hempty, if_pos hchannel.symm, nil_append]
  cases dumpLogs <;> rfl

/-- A listener gets each matching message once: the buffered ones, then those processed later. -/
theorem listener_receives_once (limits : Limits) (capacity : Nat) (before after : List Request)
    (channel : Nat) (options : Option LogFilterOptions)
    (hchannels : (before.flatMap Request.channels ++
      channel :: after.flatMap Request.channels).Nodup) :
    ∃ s, run limits before (.start capacity) = .ok s ∧
      LongestSuffix capacity (before.flatMap Request.processed) s.shared.logMsgBuffer.inner ∧
      ∀ lw, ListenerWrapper.new limits channel options = some lw →
        (∃ s', run limits (before ++ .listen channel options :: after) (.start capacity) = .ok s' ∧
          s'.sent.messages channel =
            matching lw s.shared.logMsgBuffer.inner ++
              matching lw (after.flatMap Request.processed)) ∧
        ∃ s', run limits (before ++ .dumpLogs channel options :: after) (.start capacity) = .ok s' ∧
          s'.sent.messages channel = matching lw s.shared.logMsgBuffer.inner := by
  have hstart : Serving capacity [] (.start capacity) := ⟨holds_new capacity, nodup_nil⟩
  obtain ⟨s, hrun, hserving, hsub, hmessages⟩ :=
    @run_spec limits capacity [] _ hstart before (nodup_append.mp hchannels).1
  have hempty : s.sent.messages channel = [] :=
    hmessages channel fun hmem => (nodup_append.mp hchannels).2.2 channel hmem channel mem_cons_self rfl
  have hfresh : (s.shared.listeners.map ListenerWrapper.listener ++
      channel :: after.flatMap Request.channels).Nodup := by
    have hparts := nodup_append.mp hchannels
    exact nodup_append.mpr ⟨hserving.distinct, hparts.2.1, fun a ha b hb => hparts.2.2 a
      (hsub a ha) b hb⟩
  refine ⟨s, hrun, hserving.buffer.inner, fun lw hlw => ⟨?_, ?_⟩⟩
  · obtain ⟨s', hrun', hmessages'⟩ := run_channel hserving hlw hempty false hfresh
    refine ⟨s', ?_, hmessages'⟩
    rw [run_append, hrun]
    exact hrun'
  · obtain ⟨s', hrun', hmessages'⟩ := run_channel hserving hlw hempty true hfresh
    refine ⟨s', ?_, hmessages'.trans (append_nil _)⟩
    rw [run_append, hrun]
    exact hrun'

/-- One message before the listener and one after it. -/
theorem listener_receives_two :
    ∃ s', run ⟨4, 63, 1000⟩ [.processLog ⟨1, 2, 0, 0, 0, [], "a"⟩ 10, .listen (some 1) none,
      .processLog ⟨1, 2, 1, 0, 0, [], "b"⟩ 10]
        (.start 100) = .ok s' ∧
      s'.sent.messages 1 = [⟨1, 2, 0, 0, 0, [], "a"⟩, ⟨1, 2, 1, 0, 0, [], "b"⟩] := by
  obtain ⟨s, hrun, -, hall⟩ :=
    listener_receives_once ⟨4, 63, 1000⟩ 100 [.processLog ⟨1, 2, 0, 0, 0, [], "a"⟩ 10]
    [.processLog ⟨1, 2, 1, 0, 0, [], "b"⟩ 10] 1 none (by decide)
  obtain ⟨s', hrun', hmessages⟩ := (hall ⟨1, none, none, none, ∅⟩ rfl).1
  cases hrun
  exact ⟨s', hrun', hmessages⟩

end Run

end Garnet.Logger
