import Garnet.Lib.Outcome
import Mathlib.Data.Finset.Option
import Mathlib.Order.Bounds.Basic

/-! The ephemeral ports of the vsock service: the tracker that hands them out, and the service,
which takes a port back when its holder is dropped. A drop that finds the lock held leaves the port
in a channel, for whoever takes the lock next. -/

namespace Garnet.Vsock
open List

-- EPHEMERAL_PORT_RANGE, whose end is not in it
def ephemeralStart : Nat := 49152
def ephemeralEnd : Nat := 65535

structure Tracker where
  used : Finset Nat
  nextAllocation : Nat

namespace Tracker

def new : Tracker := ⟨∅, ephemeralStart⟩

def candidates (t : Tracker) : List Nat :=
  List.range' t.nextAllocation (ephemeralEnd - t.nextAllocation) ++
    List.range' ephemeralStart (t.nextAllocation - ephemeralStart)

/-- `find(|&p| self.used.insert(p))`: an insertion of a port in use fails and changes nothing. -/
def allocate (t : Tracker) : Option Nat × Tracker :=
  match t.candidates.find? (· ∉ t.used) with
  | some p => (some p, ⟨insert p t.used, p + 1⟩)
  | none => (none, t)

def free (t : Tracker) (port : Nat) : Except Fault Tracker :=
  if port ∈ t.used then .ok ⟨t.used.erase port, min t.nextAllocation port⟩ else .error .panic

/-- The calls made so far, each `free` of an allocated port, have left the ports `held`
allocated. -/
inductive Run : Tracker → Finset Nat → Prop where
  | new : Run new ∅
  | allocate {t held} : Run t held → Run t.allocate.2 (held ∪ t.allocate.1.toFinset)
  | free {t held p t'} : Run t held → p ∈ held → t.free p = .ok t' → Run t' (held.erase p)

/-- Every port below the hint is in use. -/
structure Valid (t : Tracker) : Prop where
  start : ephemeralStart ≤ t.nextAllocation
  stop : t.nextAllocation ≤ ephemeralEnd
  range : ∀ p ∈ t.used, ephemeralStart ≤ p ∧ p < ephemeralEnd
  below : ∀ p, ephemeralStart ≤ p → p < t.nextAllocation → p ∈ t.used

variable {t t' : Tracker} {p : Nat} {l : List Nat}

theorem allocate_cases (V : Valid t) :
    (∃ p, t.allocate = (some p, ⟨insert p t.used, p + 1⟩) ∧
      IsLeast {p | ephemeralStart ≤ p ∧ p < ephemeralEnd ∧ p ∉ t.used} p) ∨
    t.allocate = (none, t) ∧ ∀ p, ephemeralStart ≤ p → p < ephemeralEnd → p ∈ t.used := by
  have hstart := V.start
  have hstop := V.stop
  -- the second part of the search is over ports below the hint
  have hwrap : (List.range' ephemeralStart (t.nextAllocation - ephemeralStart)).find? (· ∉ t.used) =
      none := by
    refine List.find?_eq_none.mpr fun q hq => ?_
    rw [List.mem_range'_1] at hq
    simpa using V.below q hq.1 (by omega)
  unfold allocate candidates
  rw [List.find?_append, hwrap, Option.or_none]
  cases hfind : (List.range' t.nextAllocation (ephemeralEnd - t.nextAllocation)).find? (· ∉ t.used) with
  | none =>
    refine .inr ⟨rfl, fun q h1 h2 => ?_⟩
    rcases lt_or_ge q t.nextAllocation with hlt | hge
    · exact V.below q h1 hlt
    · simpa using List.find?_eq_none.mp hfind q (List.mem_range'_1.mpr (by omega))
  | some p =>
    rw [List.find?_range'_eq_some] at hfind
    obtain ⟨hp, hmem, hless⟩ := hfind
    rw [List.mem_range'_1] at hmem
    refine .inl ⟨p, rfl, ⟨by omega, by omega, by simpa using hp⟩, ?_⟩
    rintro q ⟨h1, h2, hq⟩
    by_contra hlt
    rcases lt_or_ge q t.nextAllocation with hbelow | hge
    · exact hq (V.below q h1 hbelow)
    · exact hq (by simpa using hless q hge (by omega))

theorem Valid.allocate (V : Valid t) : Valid t.allocate.2 := by
  rcases allocate_cases V with ⟨p, he, ⟨h1, h2, -⟩, hleast⟩ | ⟨he, -⟩
  · rw [he]
    refine ⟨Nat.le_succ_of_le h1, h2, ?_, ?_⟩
    · intro q hq
      rcases Finset.mem_insert.mp hq with rfl | hq
      · exact ⟨h1, h2⟩
      · exact V.range q hq
    · intro q hq hlt
      have hle : q ≤ p := Nat.le_of_lt_succ hlt
      by_contra hno
      rw [Finset.mem_insert, not_or] at hno
      exact hno.1 (le_antisymm hle (hleast ⟨hq, lt_of_le_of_lt hle h2, hno.2⟩))
  · rwa [he]

theorem free_ok (h : t.free p = .ok t') :
    p ∈ t.used ∧ t' = ⟨t.used.erase p, min t.nextAllocation p⟩ := by
  obtain ⟨hp, h⟩ := ok_of_guard h
  exact ⟨hp, (Except.ok.inj h).symm⟩

theorem Valid.free (V : Valid t) (h : t.free p = .ok t') : Valid t' := by
  obtain ⟨hp, rfl⟩ := free_ok h
  obtain ⟨h1, h2⟩ := V.range p hp
  have hstart := V.start
  refine ⟨le_min hstart h1, (min_le_left ..).trans V.stop,
    fun q hq => V.range q (Finset.mem_of_mem_erase hq), ?_⟩
  intro q hq hlt
  rw [lt_min_iff] at hlt
  exact Finset.mem_erase.mpr ⟨ne_of_lt hlt.2, V.below q hq hlt.1⟩

theorem Run.used {held : Finset Nat} (hr : Run t held) : Valid t ∧ t.used = held := by
  induction hr with
  | new =>
    refine ⟨⟨le_refl _, by decide, ?_, ?_⟩, rfl⟩
    · exact fun p hp => absurd hp (Finset.notMem_empty p)
    · exact fun p h1 h2 => absurd h1 (Nat.not_le_of_lt h2)
  | @allocate t held _ ih =>
    obtain ⟨V, rfl⟩ := ih
    refine ⟨V.allocate, ?_⟩
    rcases allocate_cases V with ⟨p, he, -⟩ | ⟨he, -⟩
    · simp [he]
    · simp [he]
  | @free t held p t' _ hp h ih =>
    obtain ⟨V, rfl⟩ := ih
    exact ⟨V.free h, by rw [(free_ok h).2]⟩

/-- The ports in use are those of `l`, each there once. -/
def Owned (t : Tracker) (l : List Nat) : Prop := ∀ p, l.count p = if p ∈ t.used then 1 else 0

theorem Owned.congr {l' : List Nat} (h : Owned t l) (hc : ∀ p, l'.count p = l.count p) :
    Owned t l' :=
  fun p => (hc p).trans (h p)

theorem Owned.free (h : Owned t (p :: l)) : ∃ t', t.free p = .ok t' ∧ Owned t' l := by
  have hp : p ∈ t.used := by
    by_contra hno
    have hcount := h p
    rw [count_cons_self, if_neg hno] at hcount
    cases hcount
  refine ⟨_, if_pos hp, fun q => ?_⟩
  have hcount := h q
  by_cases hq : q = p
  · subst q
    rw [count_cons_self, if_pos hp] at hcount
    simpa using hcount
  · rw [count_cons_of_ne (Ne.symm hq)] at hcount
    simpa [hq] using hcount

theorem Owned.allocate (h : Owned t l) : Owned t.allocate.2 (t.allocate.1.toList ++ l) := by
  unfold Tracker.allocate
  split
  next p hfind =>
    have hp : p ∉ t.used := by simpa using List.find?_some hfind
    intro q
    have hcount := h q
    by_cases hq : q = p
    · subst q
      simpa [hp] using hcount
    · simpa [hq, count_cons_of_ne (Ne.symm hq)] using hcount
  next => exact h

end Tracker

variable {E : Type} [DecidableEq E]

inductive Deregister (E : Type) where
  | event (e : E)
  | listen (port : Nat)
  | port (port : Nat)

/-- What is behind the lock; of the events and listeners, the keys. -/
structure State (E : Type) where
  events : Finset E
  usedPorts : Tracker
  listens : Finset Nat

def State.deregister (s : State E) : Deregister E → Except Fault (State E)
  | .event e => .ok { s with events := s.events.erase e }
  | .listen p => .ok { s with listens := s.listens.erase p }
  | .port p => do
    let usedPorts ← s.usedPorts.free p
    .ok { s with usedPorts }

/-- What a thread takes the lock for. -/
inductive Task (E : Type) where
  | allocEphemeralPort
  | deregister (event : Deregister E)
  | other

/-- A thread with the lock first works off the channel. -/
inductive Lock (E : Type) where
  | free
  | draining (task : Task E)
  | drained (task : Task E)

structure LockedState (E : Type) where
  inner : State E
  lock : Lock E
  /-- The channel of `deregister_tx` and `deregister_rx`. -/
  deregisterRx : List (Deregister E)
  /-- Events of threads whose `try_lock` has failed and that have not sent them yet. -/
  sending : List (Deregister E)
  /-- The ports of the live `AllocatedPort`s. -/
  holders : List Nat

namespace LockedState

/-- A drop deregisters `event`; a port's comes from its holder. -/
def drop (s : LockedState E) : Deregister E → Option (LockedState E)
  | .port p => if p ∈ s.holders then some { s with holders := s.holders.erase p } else none
  | _ => some s

/-- One step of one thread; a panic is its result. -/
inductive Step : LockedState E → Except Fault (LockedState E) → Prop where
  | lock {s task} : s.lock = .free → (∀ event, task ≠ .deregister event) →
      Step s (.ok { s with lock := .draining task })
  | tryLock {s s' event} : s.lock = .free → s.drop event = some s' →
      Step s (.ok { s' with lock := .draining (.deregister event) })
  | tryLockFails {s s' event} : s.lock ≠ .free → s.drop event = some s' →
      Step s (.ok { s' with sending := event :: s'.sending })
  | trySend {s event before after} : s.sending = before ++ event :: after →
      Step s (.ok { s with
        sending := before ++ after
        deregisterRx := s.deregisterRx ++ [event] })
  | tryIter {s task event rest} : s.lock = .draining task → s.deregisterRx = event :: rest →
      Step s (do
        let inner ← s.inner.deregister event
        .ok { s with inner, deregisterRx := rest })
  | tryIterEnds {s task} : s.lock = .draining task → s.deregisterRx = [] →
      Step s (.ok { s with lock := .drained task })
  | allocEphemeralPort {s} : s.lock = .drained .allocEphemeralPort →
      Step s (.ok { s with
        inner := { s.inner with usedPorts := s.inner.usedPorts.allocate.2 }
        lock := .free
        holders := s.inner.usedPorts.allocate.1.toList ++ s.holders })
  | deregister {s event} : s.lock = .drained (.deregister event) →
      Step s (do
        let inner ← s.inner.deregister event
        .ok { s with inner, lock := .free })
  | other {s inner} : s.lock = .drained .other → inner.usedPorts = s.inner.usedPorts →
      Step s (.ok { s with inner, lock := .free })

inductive Reachable : LockedState E → Prop where
  | new (events : Finset E) (listens : Finset Nat) :
      Reachable ⟨⟨events, .new, listens⟩, .free, [], [], []⟩
  | step {s s'} : Reachable s → Step s (.ok s') → Reachable s'

end LockedState

def Deregister.ports : Deregister E → List Nat
  | .port p => [p]
  | _ => []

def Task.ports : Task E → List Nat
  | .deregister event => event.ports
  | _ => []

def Lock.ports : Lock E → List Nat
  | .free => []
  | .draining task | .drained task => task.ports

/-- The ports that are held or on their way back. -/
def LockedState.ports (s : LockedState E) : List Nat :=
  s.lock.ports ++ (s.deregisterRx.flatMap Deregister.ports ++
    (s.sending.flatMap Deregister.ports ++ s.holders))

theorem State.deregister_owned {s : State E} {event : Deregister E} {l : List Nat}
    (h : s.usedPorts.Owned (event.ports ++ l)) :
    ∃ s', s.deregister event = .ok s' ∧ s'.usedPorts.Owned l := by
  cases event with
  | event e => exact ⟨_, rfl, h⟩
  | listen p => exact ⟨_, rfl, h⟩
  | port p =>
    obtain ⟨t, hfree, ht⟩ := Tracker.Owned.free h
    exact ⟨{ s with usedPorts := t }, by rw [State.deregister, hfree]; rfl, ht⟩

namespace LockedState
variable {s s' : LockedState E} {r : Except Fault (LockedState E)}

omit [DecidableEq E] in
theorem drop_ports {event : Deregister E} (h : s.drop event = some s') :
    s'.inner = s.inner ∧ s'.lock = s.lock ∧ s'.deregisterRx = s.deregisterRx ∧
      s'.sending = s.sending ∧
      ∀ p, s.holders.count p = event.ports.count p + s'.holders.count p := by
  cases event with
  | port p =>
    rw [drop, Option.ite_none_right_eq_some] at h
    obtain ⟨hp, h⟩ := h
    obtain rfl := Option.some.inj h
    refine ⟨rfl, rfl, rfl, rfl, fun q => ?_⟩
    rw [(perm_cons_erase hp).count_eq, ← singleton_append, count_append]
    rfl
  | _ =>
    cases h
    simp [Deregister.ports]

omit [DecidableEq E] in
theorem count_ports (s : LockedState E) (p : Nat) : s.ports.count p = s.lock.ports.count p +
    ((s.deregisterRx.flatMap Deregister.ports).count p +
      ((s.sending.flatMap Deregister.ports).count p + s.holders.count p)) := by
  simp only [ports, count_append]

theorem Step.owned (hstep : Step s r) (h : s.inner.usedPorts.Owned s.ports) :
    ∃ s', r = .ok s' ∧ s'.inner.usedPorts.Owned s'.ports := by
  cases hstep with
  | @lock task hl htask =>
    refine ⟨_, rfl, h.congr fun p => ?_⟩
    rw [count_ports, count_ports, hl]
    cases task with
    | deregister event => exact absurd rfl (htask event)
    | _ => rfl
  | tryLock hl hd =>
    obtain ⟨hi, -, hrx, hs, hcount⟩ := drop_ports hd
    refine ⟨_, rfl, hi ▸ h.congr fun p => ?_⟩
    simp only [count_ports, hl, hrx, hs, hcount, Lock.ports, Task.ports, count_nil]
    omega
  | tryLockFails _ hd =>
    obtain ⟨hi, hl, hrx, hs, hcount⟩ := drop_ports hd
    refine ⟨_, rfl, hi ▸ h.congr fun p => ?_⟩
    simp only [count_ports, hl, hrx, hs, hcount, flatMap_cons, count_append]
    omega
  | @trySend event before after hs =>
    refine ⟨_, rfl, h.congr fun p => ?_⟩
    simp only [count_ports, hs, flatMap_append, flatMap_cons, flatMap_nil, count_append,
      append_nil]
    omega
  | @tryIter task event rest hl hrx =>
    obtain ⟨inner, hrun, h'⟩ :=
      @State.deregister_owned E _ s.inner event { s with deregisterRx := rest }.ports
      (h.congr fun p => by
        simp only [count_ports, hrx, flatMap_cons, count_append]
        omega)
    exact ⟨_, by rw [hrun]; rfl, h'⟩
  | tryIterEnds hl hrx =>
    refine ⟨_, rfl, h.congr fun p => ?_⟩
    rw [count_ports, count_ports, hl]
    rfl
  | allocEphemeralPort hl =>
    refine ⟨_, rfl, h.allocate.congr fun p => ?_⟩
    simp only [count_ports, hl, Lock.ports, Task.ports, count_append, count_nil]
    omega
  | @deregister event hl =>
    obtain ⟨inner, hrun, h'⟩ :=
      @State.deregister_owned E _ s.inner event { s with lock := .free }.ports
      (h.congr fun p => by
        simp only [count_ports, hl, Lock.ports, Task.ports, count_append, count_nil]
        omega)
    exact ⟨_, by rw [hrun]; rfl, h'⟩
  | other hl hinner =>
    refine ⟨_, rfl, hinner ▸ h.congr fun p => ?_⟩
    rw [count_ports, count_ports, hl]
    rfl

theorem Reachable.owned (hr : Reachable s) : s.inner.usedPorts.Owned s.ports := by
  induction hr with
  | new => exact fun p => rfl
  | step _ hstep ih =>
    obtain ⟨_, he, h⟩ := hstep.owned ih
    exact Except.ok.inj he ▸ h

end LockedState

/-- The tracker hands out the lowest free port; through the service no port has two holders and
no `free` panics. -/
theorem ephemeral_ports {t : Tracker} {held : Finset Nat} (ht : t.Run held) {s : LockedState E}
    (hs : s.Reachable) :
    (∀ p, t.allocate.1 = some p ↔ IsLeast {p | 49152 ≤ p ∧ p ≤ 65534 ∧ p ∉ held} p) ∧
    (t.allocate.1 = none ↔ ∀ p, 49152 ≤ p → p ≤ 65534 → p ∈ held) ∧
    (∀ p ∈ held, ∃ t', t.free p = .ok t') ∧
    s.holders.Nodup ∧ ∀ r, s.Step r → ∃ s', r = .ok s' := by
  obtain ⟨V, rfl⟩ := ht.used
  have howned := hs.owned
  have hend : ∀ p, p ≤ 65534 ↔ p < ephemeralEnd := fun p => Nat.lt_succ_iff.symm
  simp only [hend]
  refine and_assoc.mp ⟨?_, fun p hp => ⟨_, if_pos hp⟩, ?_, ?_⟩
  · rcases Tracker.allocate_cases V with ⟨p, he, hp⟩ | ⟨he, hall⟩
    · rw [he]
      refine ⟨fun q => ⟨fun h => Option.some.inj h ▸ hp, fun h => congrArg some (hp.unique h)⟩,
        nofun, ?_⟩
      exact fun h => absurd (h p hp.1.1 hp.1.2.1) hp.1.2.2
    · rw [he]
      refine ⟨fun q => ⟨nofun, fun h => absurd (hall q h.1.1 h.1.2.1) h.1.2.2⟩, fun _ => hall,
        fun _ => rfl⟩
  · refine nodup_iff_count_le_one.mpr fun p => ?_
    have hp := howned p
    rw [LockedState.count_ports] at hp
    split at hp <;> omega
  · intro r hr
    obtain ⟨s', he, -⟩ := hr.owned howned
    exact ⟨s', he⟩

/-- Two ports are allocated, and the first is dropped while another thread has the lock. -/
theorem LockedState.drop_deferred : (⟨⟨∅, ⟨{49153, 49152}, 49154⟩, ∅⟩, .draining .other,
    [.port 49152], [], [49153]⟩ : LockedState Nat).Reachable := by
  have hfirst :=
    (((Reachable.new (∅ : Finset Nat) ∅).step (@Step.lock _ _ _ .allocEphemeralPort rfl nofun)).step
    (.tryIterEnds rfl rfl)).step (.allocEphemeralPort rfl)
  have hsecond := ((hfirst.step (@Step.lock _ _ _ .allocEphemeralPort rfl nofun)).step
    (.tryIterEnds rfl rfl)).step (.allocEphemeralPort rfl)
  exact ((hsecond.step (@Step.lock _ _ _ .other rfl nofun)).step
    (@Step.tryLockFails _ _ _ _ (.port 49152) nofun rfl)).step (@Step.trySend _ _ _ _ [] [] rfl)

theorem ephemeral_ports_deferred : (⟨{49153}, 49152⟩ : Tracker).allocate.1 = some 49152 ∧
    ∀ r, (⟨⟨∅, ⟨{49153, 49152}, 49154⟩, ∅⟩, .draining .other, [.port 49152], [], [49153]⟩ :
      LockedState Nat).Step r → ∃ s, r = .ok s := by
  have hrun := Tracker.Run.free (.allocate (.allocate .new)) (by decide)
    (show (⟨{49153, 49152}, 49154⟩ : Tracker).free 49152 = .ok ⟨{49153}, 49152⟩ from rfl)
  have h := ephemeral_ports hrun LockedState.drop_deferred
  exact ⟨(h.1 49152).mpr ⟨⟨by decide, by decide, by decide⟩, fun p hp => hp.1⟩, h.2.2.2.2⟩

end Garnet.Vsock
