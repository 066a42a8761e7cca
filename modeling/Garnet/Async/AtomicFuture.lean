import Mathlib.Data.List.Basic

/-! A future that many threads poll through one atomic word. Every step below is one sequentially
consistent access to the word or to the future; a schedule says whose step is next and what the
inner future answers. -/

namespace Garnet.Async
open List
open Function (forall_update_iff update update_of_ne update_self)
def INACTIVE : Nat := 0
def ACTIVE : Nat := 1
def NOTIFIED : Nat := 2
def DONE : Nat := 3

inductive AttemptPollResult where
  | busy
  | pending
  | iFinished
  | someoneElseFinished
  deriving Repr, DecidableEq

/-- What has happened. A moment is the number of events before it; a call and a poll are known by
the moments at which they began. -/
inductive Event where
  | called (at_ : Nat)
  | began (at_ : Nat)
  | ended (at_ : Nat) (ready : Bool)
  | returned (since : Nat) (result : AttemptPollResult)
  deriving Repr, DecidableEq

def Event.moment : Event → Nat
  | .called n | .began n | .ended n _ | .returned n _ => n

def Event.finishes : Event → Bool
  | .returned _ .iFinished => true
  | _ => false

/-- Where a thread stands in `try_poll`; `since` is the moment of its call. -/
inductive Pc where
  | idle
  /-- before the swap from INACTIVE to ACTIVE -/
  | attempt (since : Nat)
  /-- before the swap from ACTIVE to NOTIFIED -/
  | notify (since : Nat)
  /-- before the future is taken out of its cell -/
  | access (since : Nat)
  | polling (since at_ : Nat)
  /-- the poll gave `Ready` -/
  | complete (since : Nat)
  /-- before DONE is stored -/
  | store (since : Nat)
  /-- before the swap from ACTIVE to INACTIVE -/
  | release (since : Nat)
  /-- before ACTIVE is stored over NOTIFIED -/
  | renew (since : Nat)
  | panicked
  deriving Repr, DecidableEq

/-- The thread is between its swap to ACTIVE and its last access to the word. -/
def Pc.owns : Pc → Bool
  | .access _ | .polling _ _ | .complete _ | .store _ | .release _ | .renew _ => true
  | _ => false

/-- The thread will return `IFinished`. -/
def Pc.finishing : Pc → Bool
  | .complete _ | .store _ => true
  | _ => false

def Pc.since : Pc → Option Nat
  | .idle | .panicked => none
  | .attempt n | .notify n | .access n | .polling n _ | .complete n | .store n | .release n | .renew n => some n

theorem Pc.owns_of_finishing {p : Pc} (h : p.finishing = true) : p.owns = true := by
  cases p with
  | complete n | store n => rfl
  | idle | attempt n | notify n | access n | polling n a | release n | renew n | panicked =>
    exact nomatch h

section
variable {p : Pc} {n : Nat} (h : p = .attempt n ∨ p = .notify n)
include h

theorem Pc.owns_of_swap : p.owns = false := by
  rcases h with rfl | rfl <;> rfl

theorem Pc.since_of_swap : p.since = some n := by
  rcases h with rfl | rfl <;> rfl

theorem Pc.finishing_of_swap : p.finishing = false := by
  rcases h with rfl | rfl <;> rfl

end

structure AtomicFuture (τ : Type) where
  state : Nat
  /-- whether the cell holds the future -/
  future : Bool
  pc : τ → Pc
  /-- the events so far, the last one first -/
  log : List Event

variable (f : AtomicFuture τ)

namespace AtomicFuture
variable {τ : Type} [DecidableEq τ] {f : AtomicFuture τ} {t : τ} {n : Nat}

def new : AtomicFuture τ := ⟨INACTIVE, true, fun _ => .idle, []⟩

def goto (t : τ) (pc : Pc) : AtomicFuture τ := { f with pc := update f.pc t pc }

def give (t : τ) (since : Nat) (result : AttemptPollResult) : AtomicFuture τ :=
  { f with pc := update f.pc t .idle, log := .returned since result :: f.log }

/-- The next step of one thread in `try_poll`. A thread that is in no call makes one. -/
def step (t : τ) (ready : Bool) (f : AtomicFuture τ) : AtomicFuture τ :=
  match f.pc t with
  | .idle => { f.goto t (.attempt f.log.length) with log := .called f.log.length :: f.log }
  | .attempt since =>
    if f.state = INACTIVE then { f.goto t (.access since) with state := ACTIVE }
    else if f.state = ACTIVE then f.goto t (.notify since)
    else if f.state = NOTIFIED then f.give t since .busy
    else if f.state = DONE then f.give t since .someoneElseFinished
    else f.goto t .panicked
  | .notify since =>
    -- the worker may have finished in the meantime: start over
    if f.state = INACTIVE then f.goto t (.attempt since)
    else if f.state = ACTIVE then { f.give t since .busy with state := NOTIFIED }
    else if f.state = NOTIFIED then f.give t since .busy
    else if f.state = DONE then f.give t since .someoneElseFinished
    else f.goto t .panicked
  | .access since =>
    if f.future then { f.goto t (.polling since f.log.length) with log := .began f.log.length :: f.log }
    else f.goto t .panicked
  | .polling since at_ =>
    { f.goto t (if ready then .complete since else .release since) with log := .ended at_ ready :: f.log }
  | .complete since => { f.goto t (.store since) with future := false }
  | .store since => { f.give t since .iFinished with state := DONE }
  | .release since =>
    if f.state = ACTIVE then { f.give t since .pending with state := INACTIVE }
    else if f.state = NOTIFIED then f.goto t (.renew since)
    else f.goto t .panicked
  | .renew since => { f.goto t (.access since) with state := ACTIVE }
  | .panicked => f

def run (schedule : List (τ × Bool)) : AtomicFuture τ :=
  schedule.foldl (fun f s => step s.1 s.2 f) new

/-- The inner future has returned `Ready`. -/
def Completed : Prop := ∃ at_, Event.ended at_ true ∈ f.log

def PolledSince (since : Nat) : Prop := ∃ at_ ready, Event.ended at_ ready ∈ f.log ∧ since < at_

/-- The owner of the future will begin a poll, or has begun one, after the moment. -/
def Owed (since : Nat) : Prop :=
  ∃ t, (f.pc t).owns = true ∧ (f.state = NOTIFIED ∨ (∃ n, f.pc t = .access n) ∨
    ∃ n at_, f.pc t = .polling n at_ ∧ since < at_)

structure Free : Prop where
  word : f.state = INACTIVE ∧ f.future = true ∨ f.state = DONE
  unowned : ∀ u, (f.pc u).owns = false

structure Held (t : τ) : Prop where
  owns : (f.pc t).owns = true
  alone : ∀ u, u ≠ t → (f.pc u).owns = false
  word : f.state = ACTIVE ∨ f.state = NOTIFIED
  present : (∃ n, f.pc t = .store n) ∨ f.future = true
  renewed : ∀ n, f.pc t = .renew n → f.state = NOTIFIED

structure Exclusive : Prop where
  used : f.Free ∨ ∃ t, f.Held t
  sound : ∀ t, f.pc t ≠ .panicked

inductive Move (f : AtomicFuture τ) (t : τ) : AtomicFuture τ → Prop where
  | call (hpc : f.pc t = .idle) :
    Move f t { f.goto t (.attempt f.log.length) with log := .called f.log.length :: f.log }
  | acquire {n : Nat} (hpc : f.pc t = .attempt n) (hstate : f.state = INACTIVE) (hfree : f.Free) :
    Move f t { f.goto t (.access n) with state := ACTIVE }
  /-- from one swap to the other -/
  | wait {n : Nat} {p : Pc} (hpc : f.pc t = .attempt n ∨ f.pc t = .notify n)
      (hp : p = .attempt n ∨ p = .notify n) :
    Move f t (f.goto t p)
  | busy {n : Nat} {u : τ} (hpc : f.pc t = .attempt n ∨ f.pc t = .notify n) (hheld : f.Held u) :
    Move f t { f.give t n .busy with state := NOTIFIED }
  | late {n : Nat} (hpc : f.pc t = .attempt n ∨ f.pc t = .notify n) (hstate : f.state = DONE) :
    Move f t (f.give t n .someoneElseFinished)
  | start {n : Nat} (hpc : f.pc t = .access n) (hheld : f.Held t) :
    Move f t { f.goto t (.polling n f.log.length) with log := .began f.log.length :: f.log }
  | ready {n a : Nat} (hpc : f.pc t = .polling n a) (hheld : f.Held t) :
    Move f t { f.goto t (.complete n) with log := .ended a true :: f.log }
  | notReady {n a : Nat} (hpc : f.pc t = .polling n a) (hheld : f.Held t) :
    Move f t { f.goto t (.release n) with log := .ended a false :: f.log }
  | take {n : Nat} (hpc : f.pc t = .complete n) (hheld : f.Held t) :
    Move f t { f.goto t (.store n) with future := false }
  | finish {n : Nat} (hpc : f.pc t = .store n) (hheld : f.Held t) :
    Move f t { f.give t n .iFinished with state := DONE }
  | release {n : Nat} (hpc : f.pc t = .release n) (hheld : f.Held t) (hstate : f.state = ACTIVE) :
    Move f t { f.give t n .pending with state := INACTIVE }
  | again {n : Nat} (hpc : f.pc t = .release n) (hheld : f.Held t) (hstate : f.state = NOTIFIED) :
    Move f t (f.goto t (.renew n))
  | renew {n : Nat} (hpc : f.pc t = .renew n) (hheld : f.Held t) :
    Move f t { f.goto t (.access n) with state := ACTIVE }

section
variable (h : f.Exclusive)
include h

theorem Exclusive.held (ht : (f.pc t).owns = true) : f.Held t := by
  rcases h.used with hfree | ⟨u, hheld⟩
  · exact absurd ht (by rw [hfree.unowned t]; exact Bool.false_ne_true)
  · by_cases htu : t = u
    · exact htu ▸ hheld
    · exact absurd ht (by rw [hheld.alone t htu]; exact Bool.false_ne_true)

theorem Exclusive.step_attempt (hpc : f.pc t = .attempt n) (ready : Bool) :
    f.Move t (step t ready f) := by
  simp only [step, hpc]
  rcases h.used with hfree | ⟨u, hheld⟩
  · rcases hfree.word with ⟨hstate, _⟩ | hstate
    · rw [if_pos hstate]
      exact Move.acquire hpc hstate hfree
    · rw [hstate]
      exact Move.late (.inl hpc) hstate
  · rcases hheld.word with hstate | hstate
    · rw [hstate]
      exact Move.wait (.inl hpc) (.inr rfl)
    · have hmove := Move.busy (.inl hpc) hheld
      rw [← hstate] at hmove
      rw [hstate]
      exact hmove

theorem Exclusive.step_notify (hpc : f.pc t = .notify n) (ready : Bool) :
    f.Move t (step t ready f) := by
  simp only [step, hpc]
  rcases h.used with hfree | ⟨u, hheld⟩
  · rcases hfree.word with ⟨hstate, _⟩ | hstate
    · rw [if_pos hstate]
      exact Move.wait (.inr hpc) (.inl rfl)
    · rw [hstate]
      exact Move.late (.inr hpc) hstate
  · have hmove := Move.busy (.inr hpc) hheld
    rcases hheld.word with hstate | hstate
    · rw [hstate]
      exact hmove
    · rw [← hstate] at hmove
      rw [hstate]
      exact hmove

theorem Exclusive.step_move (t : τ) (ready : Bool) : f.Move t (step t ready f) := by
  have hheld : (f.pc t).owns = true → f.Held t := h.held
  cases hpc : f.pc t with
  | idle =>
    rw [step, hpc]
    exact Move.call hpc
  | attempt n => exact h.step_attempt hpc ready
  | notify n => exact h.step_notify hpc ready
  | access n =>
    have hheld := hheld (by rw [hpc]; rfl)
    have hfuture : f.future = true := hheld.present.resolve_left fun ⟨k, hk⟩ => by simp [hpc] at hk
    simp only [step, hpc, hfuture, if_true]
    exact Move.start hpc hheld
  | polling n a =>
    have hheld := hheld (by rw [hpc]; rfl)
    simp only [step, hpc]
    cases ready with
    | true => exact Move.ready hpc hheld
    | false => exact Move.notReady hpc hheld
  | complete n =>
    simp only [step, hpc]
    exact Move.take hpc (hheld (by rw [hpc]; rfl))
  | store n =>
    simp only [step, hpc]
    exact Move.finish hpc (hheld (by rw [hpc]; rfl))
  | release n =>
    have hheld := hheld (by rw [hpc]; rfl)
    simp only [step, hpc]
    rcases hheld.word with hstate | hstate
    · rw [if_pos hstate]
      exact Move.release hpc hheld hstate
    · rw [if_neg (by rw [hstate]; decide), if_pos hstate]
      exact Move.again hpc hheld hstate
  | renew n =>
    simp only [step, hpc]
    exact Move.renew hpc (hheld (by rw [hpc]; rfl))
  | panicked => exact absurd hpc (h.sound t)

end

section Exclusion
variable {f f' : AtomicFuture τ} {t u : τ} {p : Pc}

theorem unowned_update (hpc : f'.pc = update f.pc t p) (hp : p.owns = false) {q : τ → Prop}
    (h : ∀ v, q v → v ≠ t → (f.pc v).owns = false) : ∀ v, q v → (f'.pc v).owns = false := by
  rw [hpc]
  exact (forall_update_iff f.pc fun v p => q v → p.owns = false).mpr
    ⟨fun _ => hp, fun v hv hq => h v hq hv⟩

theorem Free.other (h : f.Free) (hpc : f'.pc = update f.pc t p) (hp : p.owns = false)
    (hstate : f'.state = f.state) (hfuture : f'.future = f.future) : f'.Free := by
  refine ⟨by rw [hstate, hfuture]; exact h.word, fun v => ?_⟩
  exact unowned_update hpc hp (q := fun _ => True) (fun v _ _ => h.unowned v) v trivial

theorem Held.other (h : f.Held u) (hne : u ≠ t) (hpc : f'.pc = update f.pc t p)
    (hp : p.owns = false) (hstate : f'.state = f.state ∨ f'.state = NOTIFIED)
    (hfuture : f'.future = f.future) : f'.Held u := by
  have hu : f'.pc u = f.pc u := by rw [hpc, update_of_ne hne]
  refine ⟨by rw [hu]; exact h.owns, ?_, ?_, by rw [hu, hfuture]; exact h.present, fun n hn => ?_⟩
  · exact unowned_update hpc hp fun v hv _ => h.alone v hv
  · rcases hstate with hstate | hstate
    · rw [hstate]
      exact h.word
    · exact .inr hstate
  · rcases hstate with hstate | hstate
    · rw [hstate]
      exact h.renewed n (hu ▸ hn)
    · exact hstate

theorem Held.self (h : f.Held t) (hpc : f'.pc = update f.pc t p) (hp : p.owns = true)
    (hword : f'.state = ACTIVE ∨ f'.state = NOTIFIED)
    (hpresent : (∃ n, p = .store n) ∨ f'.future = true)
    (hrenewed : ∀ n, p = .renew n → f'.state = NOTIFIED) : f'.Held t := by
  have ht : f'.pc t = p := by rw [hpc, update_self]
  refine ⟨by rw [ht]; exact hp, fun v hv => ?_, hword, by rw [ht]; exact hpresent, by rw [ht]; exact hrenewed⟩
  rw [hpc, update_of_ne hv]
  exact h.alone v hv

theorem Held.leave (h : f.Held t) (hpc : f'.pc = update f.pc t p) (hp : p.owns = false)
    (hword : f'.state = INACTIVE ∧ f'.future = true ∨ f'.state = DONE) : f'.Free := by
  refine ⟨hword, fun v => ?_⟩
  exact unowned_update hpc hp (q := fun _ => True) (fun v _ hv => h.alone v hv) v trivial

omit [DecidableEq τ] in
theorem Held.present_of (h : f.Held t) (hp : ∀ n, f.pc t ≠ .store n) : f.future = true :=
  h.present.resolve_left fun ⟨n, hn⟩ => hp n hn

omit [DecidableEq τ] in
theorem Held.ne_of (h : f.Held u) (hp : (f.pc t).owns = false) : u ≠ t := by
  rintro rfl
  rw [h.owns] at hp
  exact absurd hp Bool.noConfusion

theorem Exclusive.outside (h : f.Exclusive) (ht : (f.pc t).owns = false)
    (hpc : f'.pc = update f.pc t p) (hp : p.owns = false) (hstate : f'.state = f.state)
    (hfuture : f'.future = f.future) : f'.Free ∨ ∃ t, f'.Held t := by
  rcases h.used with hfree | ⟨u, hheld⟩
  · exact .inl (hfree.other hpc hp hstate hfuture)
  · exact .inr ⟨u, hheld.other (hheld.ne_of ht) hpc hp (.inl hstate) hfuture⟩

theorem Move.used (h : f.Exclusive) (m : f.Move t f') : f'.Free ∨ ∃ t, f'.Held t := by
  cases m with
  | call hpc => exact h.outside (by rw [hpc]; rfl) rfl rfl rfl rfl
  | acquire hpc hstate hfree =>
    refine .inr ⟨t, ?_, fun v hv => ?_, .inl rfl, ?_, fun n hn => ?_⟩
    · change (update f.pc t _ t).owns = true
      rw [update_self]
      rfl
    · change (update f.pc t _ v).owns = false
      rw [update_of_ne hv]
      exact hfree.unowned v
    · exact .inr ((hfree.word.resolve_right (by rw [hstate]; decide)).2)
    · change update f.pc t _ t = _ at hn
      rw [update_self] at hn
      exact nomatch hn
  | wait hpc hp => exact h.outside (Pc.owns_of_swap hpc) rfl (Pc.owns_of_swap hp) rfl rfl
  | busy hpc hheld =>
    exact .inr ⟨_, hheld.other (hheld.ne_of (Pc.owns_of_swap hpc)) rfl rfl (.inr rfl) rfl⟩
  | late hpc hstate => exact h.outside (Pc.owns_of_swap hpc) rfl rfl rfl rfl
  | start hpc hheld | ready hpc hheld | notReady hpc hheld =>
    exact .inr ⟨t, hheld.self rfl rfl hheld.word
      (.inr (hheld.present_of (by rw [hpc]; exact nofun))) nofun⟩
  | take hpc hheld => exact .inr ⟨t, hheld.self rfl rfl hheld.word (.inl ⟨_, rfl⟩) nofun⟩
  | finish hpc hheld => exact .inl (hheld.leave rfl rfl (.inr rfl))
  | release hpc hheld hstate =>
    exact .inl (hheld.leave rfl rfl (.inl ⟨rfl, hheld.present_of (by rw [hpc]; exact nofun)⟩))
  | again hpc hheld hstate =>
    exact .inr ⟨t, hheld.self rfl rfl hheld.word (.inr (hheld.present_of (by rw [hpc]; exact nofun)))
      fun _ _ => hstate⟩
  | renew hpc hheld =>
    exact .inr ⟨t, hheld.self rfl rfl (.inl rfl)
      (.inr (hheld.present_of (by rw [hpc]; exact nofun))) nofun⟩

theorem Move.pc_eq (m : f.Move t f') : ∃ p, f'.pc = update f.pc t p ∧ p ≠ .panicked := by
  cases m with
  | wait hpc hp => exact ⟨_, rfl, by rcases hp with rfl | rfl <;> exact nofun⟩
  | call | acquire | busy | late | start | ready | notReady | take | finish | release | again | renew =>
    exact ⟨_, rfl, nofun⟩

theorem Exclusive.move (h : f.Exclusive) (m : f.Move t f') : f'.Exclusive := by
  obtain ⟨p, hpc, hp⟩ := m.pc_eq
  refine ⟨m.used h, ?_⟩
  rw [hpc]
  exact (forall_update_iff f.pc fun _ p => p ≠ .panicked).mpr ⟨hp, fun v _ => h.sound v⟩

end Exclusion

structure History : Prop where
  past : ∀ e ∈ f.log, e.moment < f.log.length
  current : ∀ t n, (f.pc t).since = some n → n < f.log.length
  poll : ∀ t n a, f.pc t = .polling n a → n < a ∧ a < f.log.length
  polled : ∀ t n, f.pc t = .release n → f.PolledSince n
  completed : f.Completed ↔ f.state = DONE ∨ ∃ t, (f.pc t).finishing = true
  finished : f.log.countP Event.finishes = if f.state = DONE then 1 else 0
  owed : ∀ n r, Event.returned n r ∈ f.log → f.PolledSince n ∨ f.Completed ∨ f.Owed n
  answered : ∀ n, Event.called n ∈ f.log → (∃ t, (f.pc t).since = some n) ∨
    ∃ r, Event.returned n r ∈ f.log

section History
variable {f f' : AtomicFuture τ} {t u : τ} {n : Nat}

theorem Move.pc_other (m : f.Move t f') {v : τ} (hv : v ≠ t) : f'.pc v = f.pc v := by
  obtain ⟨p, hpc, _⟩ := m.pc_eq
  rw [hpc, update_of_ne hv]

theorem Move.since_cases (m : f.Move t f') :
    (f'.pc t).since = (f.pc t).since ∧ f.log.length ≤ f'.log.length ∨
    (∃ n r, (f'.pc t).since = none ∧ (f.pc t).since = some n ∧ f'.log = .returned n r :: f.log) ∨
      (f'.pc t).since = some f.log.length ∧ (f.pc t).since = none ∧
        f'.log = .called f.log.length :: f.log := by
  cases m with
  | call hpc =>
    refine .inr (.inr ⟨?_, by rw [hpc]; rfl, rfl⟩)
    exact congrArg Pc.since (update_self t _ f.pc)
  | wait hpc hp =>
    refine .inl ⟨(congrArg Pc.since (update_self t _ f.pc)).trans ?_, Nat.le_refl _⟩
    rw [Pc.since_of_swap hp, Pc.since_of_swap hpc]
  | busy hpc | late hpc =>
    exact .inr (.inl ⟨_, _, congrArg Pc.since (update_self t _ f.pc), Pc.since_of_swap hpc, rfl⟩)
  | finish hpc | release hpc =>
    exact .inr (.inl ⟨_, _, congrArg Pc.since (update_self t _ f.pc), by rw [hpc]; rfl, rfl⟩)
  | acquire hpc | take hpc | again hpc | renew hpc =>
    exact .inl ⟨(congrArg Pc.since (update_self t _ f.pc)).trans (by rw [hpc]; rfl), Nat.le_refl _⟩
  | start hpc | ready hpc | notReady hpc =>
    exact .inl ⟨(congrArg Pc.since (update_self t _ f.pc)).trans (by rw [hpc]; rfl), Nat.le_succ _⟩

section
variable (h : f.History) (m : f.Move t f')
include h m

theorem History.log_cases :
    f'.log = f.log ∨ ∃ e, f'.log = e :: f.log ∧ e.moment ≤ f.log.length := by
  cases m with
  | acquire | wait | take | again | renew => exact .inl rfl
  | call | start => exact .inr ⟨_, rfl, Nat.le_refl _⟩
  | ready hpc | notReady hpc => exact .inr ⟨_, rfl, Nat.le_of_lt (h.poll _ _ _ hpc).2⟩
  | finish hpc | release hpc => exact .inr ⟨_, rfl, Nat.le_of_lt (h.current t _ (by rw [hpc]; rfl))⟩
  | busy hpc | late hpc => exact .inr ⟨_, rfl, Nat.le_of_lt (h.current t _ (Pc.since_of_swap hpc))⟩

theorem History.mem_log {e : Event} (he : e ∈ f.log) : e ∈ f'.log := by
  rcases h.log_cases m with hlog | ⟨e', hlog, _⟩
  · rw [hlog]
    exact he
  · rw [hlog]
    exact mem_cons_of_mem _ he

theorem History.log_le : f.log.length ≤ f'.log.length := by
  rcases h.log_cases m with hlog | ⟨e', hlog, _⟩
  · exact Nat.le_of_eq (by rw [hlog])
  · rw [hlog]
    exact Nat.le_succ _

theorem History.polledSince (hp : f.PolledSince n) : f'.PolledSince n := by
  obtain ⟨a, r, hended, hlt⟩ := hp
  exact ⟨a, r, h.mem_log m hended, hlt⟩

theorem History.completed_mono (hc : f.Completed) : f'.Completed := by
  obtain ⟨a, hended⟩ := hc
  exact ⟨a, h.mem_log m hended⟩

theorem History.past_move : ∀ e ∈ f'.log, e.moment < f'.log.length := by
  intro e he
  rcases h.log_cases m with hlog | ⟨e', hlog, hmoment⟩
  · rw [hlog] at he ⊢
    exact h.past e he
  · rw [hlog] at he ⊢
    rcases mem_cons.mp he with rfl | he
    · exact Nat.lt_succ_of_le hmoment
    · exact Nat.lt_succ_of_lt (h.past e he)

theorem History.current_move : ∀ v n, (f'.pc v).since = some n → n < f'.log.length := by
  intro v n hn
  have hle := h.log_le m
  by_cases hv : v = t
  · subst hv
    rcases m.since_cases with ⟨hsame, _⟩ | ⟨_, _, hnone, _⟩ | ⟨hnew, _, hlog⟩
    · exact Nat.lt_of_lt_of_le (h.current v n (hsame ▸ hn)) hle
    · rw [hnone] at hn
      exact nomatch hn
    · rw [hnew] at hn
      cases hn
      rw [hlog]
      exact Nat.lt_succ_self _
  · rw [m.pc_other hv] at hn
    exact Nat.lt_of_lt_of_le (h.current v n hn) hle

theorem History.poll_move : ∀ v n a, f'.pc v = .polling n a → n < a ∧ a < f'.log.length := by
  intro v n a hpoll
  by_cases hv : v = t
  · subst hv
    cases m with
    | start hpc =>
      cases (update_self v _ f.pc).symm.trans hpoll
      exact ⟨h.current v _ (by rw [hpc]; rfl), Nat.lt_succ_self _⟩
    | wait hpc hp =>
      rcases hp with rfl | rfl <;> exact nomatch (update_self v _ f.pc).symm.trans hpoll
    | call | acquire | busy | late | ready | notReady | take | finish | release | again | renew =>
      exact nomatch (update_self v _ f.pc).symm.trans hpoll
  · rw [m.pc_other hv] at hpoll
    obtain ⟨hlt, hlog⟩ := h.poll v n a hpoll
    exact ⟨hlt, Nat.lt_of_lt_of_le hlog (h.log_le m)⟩

theorem History.polled_move : ∀ v n, f'.pc v = .release n → f'.PolledSince n := by
  intro v n hrelease
  by_cases hv : v = t
  · subst hv
    cases m with
    | notReady hpc =>
      cases (update_self v _ f.pc).symm.trans hrelease
      exact ⟨_, _, mem_cons_self, (h.poll v _ _ hpc).1⟩
    | wait hpc hp =>
      rcases hp with rfl | rfl <;> exact nomatch (update_self v _ f.pc).symm.trans hrelease
    | call | acquire | busy | late | start | ready | take | finish | release | again | renew =>
      exact nomatch (update_self v _ f.pc).symm.trans hrelease
  · rw [m.pc_other hv] at hrelease
    exact h.polledSince m (h.polled v n hrelease)

end

theorem History.completed_same (h : f.History) {p : Pc} (hpc : f'.pc = update f.pc t p)
    (hp : p.finishing = (f.pc t).finishing)
    (hlog : ∀ a, Event.ended a true ∈ f'.log ↔ Event.ended a true ∈ f.log)
    (hstate : f'.state = DONE ↔ f.state = DONE) :
    f'.Completed ↔ f'.state = DONE ∨ ∃ t, (f'.pc t).finishing = true := by
  have hfinishing : ∀ v, (f'.pc v).finishing = (f.pc v).finishing := by
    rw [hpc]
    exact (forall_update_iff f.pc fun v p => p.finishing = (f.pc v).finishing).mpr
      ⟨hp, fun _ _ => rfl⟩
  have hcompleted : f'.Completed ↔ f.Completed := exists_congr hlog
  rw [hcompleted, h.completed, hstate]
  exact or_congr_right (exists_congr fun v => by rw [hfinishing v])

theorem ended_cons {a : Nat} {e : Event} {l : List Event} (he : ∀ a, e ≠ .ended a true) :
    Event.ended a true ∈ e :: l ↔ Event.ended a true ∈ l := by
  rw [mem_cons]
  exact or_iff_right fun heq => he a heq.symm

omit [DecidableEq τ] in
theorem Held.not_done (h : f.Held u) : f.state ≠ DONE := by
  rcases h.word with hstate | hstate <;> rw [hstate] <;> decide

section
variable (h : f.History) (m : f.Move t f')
include h m

theorem History.completed_move :
    f'.Completed ↔ f'.state = DONE ∨ ∃ t, (f'.pc t).finishing = true := by
  cases m with
  | call hpc | start hpc | notReady hpc =>
    exact h.completed_same rfl (by rw [hpc]; rfl) (fun a => ended_cons nofun) Iff.rfl
  | acquire hpc hstate =>
    exact h.completed_same rfl (by rw [hpc]; rfl) (fun a => Iff.rfl)
      (iff_of_false (show ACTIVE ≠ DONE by decide) (by rw [hstate]; decide))
  | wait hpc hp =>
    refine h.completed_same rfl ?_ (fun a => Iff.rfl) Iff.rfl
    rw [Pc.finishing_of_swap hp, Pc.finishing_of_swap hpc]
  | busy hpc hheld =>
    exact h.completed_same rfl (Pc.finishing_of_swap hpc).symm (fun a => ended_cons nofun)
      (iff_of_false (show NOTIFIED ≠ DONE by decide) hheld.not_done)
  | late hpc =>
    exact h.completed_same rfl (Pc.finishing_of_swap hpc).symm (fun a => ended_cons nofun) Iff.rfl
  | ready hpc =>
    refine iff_of_true ⟨_, mem_cons_self⟩ (.inr ⟨t, ?_⟩)
    exact congrArg Pc.finishing (update_self t _ f.pc)
  | take hpc | again hpc => exact h.completed_same rfl (by rw [hpc]; rfl) (fun a => Iff.rfl) Iff.rfl
  | finish hpc hheld =>
    refine iff_of_true (h.completed_mono (Move.finish hpc hheld) ?_) (.inl rfl)
    exact h.completed.mpr (.inr ⟨t, by rw [hpc]; rfl⟩)
  | release hpc hheld =>
    exact h.completed_same rfl (by rw [hpc]; rfl) (fun a => ended_cons nofun)
      (iff_of_false (show INACTIVE ≠ DONE by decide) hheld.not_done)
  | renew hpc hheld =>
    exact h.completed_same rfl (by rw [hpc]; rfl) (fun a => Iff.rfl)
      (iff_of_false (show ACTIVE ≠ DONE by decide) hheld.not_done)

theorem History.finished_move :
    f'.log.countP Event.finishes = if f'.state = DONE then 1 else 0 := by
  have hcount := h.finished
  cases m with
  | call | wait | late | start | ready | notReady | take | again =>
    exact hcount
  | acquire hpc hstate =>
    rw [hstate, if_neg (by decide)] at hcount
    exact hcount
  | busy hpc hheld | release hpc hheld | renew hpc hheld =>
    rw [if_neg hheld.not_done] at hcount
    exact hcount
  | finish hpc hheld =>
    rw [if_neg hheld.not_done] at hcount
    change (Event.returned _ .iFinished :: f.log).countP Event.finishes = 1
    rw [countP_cons_of_pos rfl, hcount]

theorem History.owed_move (hn : n < f.log.length) (ho : f.Owed n) :
    f'.PolledSince n ∨ f'.Completed ∨ f'.Owed n := by
  obtain ⟨u, howns, hcase⟩ := ho
  by_cases hu : u = t
  · subst hu
    have hself : ∀ p, (update f.pc u p) u = p := fun p => update_self u p f.pc
    cases m with
    | call hpc | acquire hpc =>
      rw [hpc] at howns
      exact nomatch howns
    | wait hpc | busy hpc | late hpc =>
      rw [Pc.owns_of_swap hpc] at howns
      exact nomatch howns
    | start hpc hheld =>
      exact .inr (.inr ⟨u, congrArg Pc.owns (hself _), .inr (.inr ⟨_, _, hself _, hn⟩)⟩)
    | ready hpc hheld => exact .inr (.inl ⟨_, mem_cons_self⟩)
    | notReady hpc hheld =>
      rcases hcase with hnotified | ⟨k, hk⟩ | ⟨k, a, hk, hlt⟩
      · exact .inr (.inr ⟨u, congrArg Pc.owns (hself _), .inl hnotified⟩)
      · rw [hpc] at hk
        exact nomatch hk
      · rw [hpc] at hk
        cases hk
        exact .inl ⟨_, _, mem_cons_self, hlt⟩
    | take hpc hheld | finish hpc hheld =>
      obtain ⟨a, ha⟩ := h.completed.mpr (.inr ⟨u, by rw [hpc]; rfl⟩)
      exact .inr (.inl ⟨a, by simp [goto, give, ha]⟩)
    | release hpc hheld hstate =>
      rcases hcase with hnotified | ⟨k, hk⟩ | ⟨k, a, hk, hlt⟩
      · rw [hstate] at hnotified
        exact absurd hnotified (by decide)
      · rw [hpc] at hk
        exact nomatch hk
      · rw [hpc] at hk
        exact nomatch hk
    | again hpc hheld hstate => exact .inr (.inr ⟨u, congrArg Pc.owns (hself _), .inl hstate⟩)
    | renew hpc hheld => exact .inr (.inr ⟨u, congrArg Pc.owns (hself _), .inr (.inl ⟨_, hself _⟩)⟩)
  · refine .inr (.inr ⟨u, by rw [m.pc_other hu]; exact howns, ?_⟩)
    have hpcs : (∃ k, f.pc u = .access k) ∨ (∃ k a, f.pc u = .polling k a ∧ n < a) →
        (∃ k, f'.pc u = .access k) ∨ ∃ k a, f'.pc u = .polling k a ∧ n < a := by
      rw [m.pc_other hu]
      exact id
    -- the word changes only to NOTIFIED while another thread owns the future
    have hword : f'.state = f.state ∨ f'.state = NOTIFIED := by
      cases m with
      | call | wait | late => exact .inl rfl
      | busy => exact .inr rfl
      | acquire _ _ hfree =>
        rw [hfree.unowned u] at howns
        exact nomatch howns
      | start _ hheld | ready _ hheld | notReady _ hheld | take _ hheld | finish _ hheld | release _ hheld
      | again _ hheld | renew _ hheld =>
        rw [hheld.alone u hu] at howns
        exact nomatch howns
    rcases hcase with hnotified | hpc
    · rcases hword with hsame | hnew
      · exact .inl (hsame.trans hnotified)
      · exact .inl hnew
    · exact .inr (hpcs hpc)

theorem History.owed_returned {n : Nat} {r : AttemptPollResult}
    (hret : Event.returned n r ∈ f'.log) : f'.PolledSince n ∨ f'.Completed ∨ f'.Owed n := by
  have hold : Event.returned n r ∈ f.log → f'.PolledSince n ∨ f'.Completed ∨ f'.Owed n := by
    intro hmem
    rcases h.owed n r hmem with hp | hc | ho
    · exact .inl (h.polledSince m hp)
    · exact .inr (.inl (h.completed_mono m hc))
    · exact h.owed_move m (h.past _ hmem) ho
  cases m with
  | acquire | wait | take | again | renew => exact hold hret
  | call | start | ready | notReady => exact hold ((mem_cons.mp hret).resolve_left nofun)
  | @busy n' u hpc hheld =>
    rcases mem_cons.mp hret with heq | hmem
    · cases heq
      have hne : u ≠ t := hheld.ne_of (Pc.owns_of_swap hpc)
      refine .inr (.inr ⟨u, ?_, .inl rfl⟩)
      rw [(Move.busy hpc hheld).pc_other hne]
      exact hheld.owns
    · exact hold hmem
  | late hpc hstate =>
    rcases mem_cons.mp hret with heq | hmem
    · exact .inr (.inl (h.completed_mono (Move.late hpc hstate) (h.completed.mpr (.inl hstate))))
    · exact hold hmem
  | finish hpc hheld =>
    rcases mem_cons.mp hret with heq | hmem
    · refine .inr (.inl (h.completed_mono (Move.finish hpc hheld) (h.completed.mpr (.inr ⟨t, ?_⟩))))
      rw [hpc]
      rfl
    · exact hold hmem
  | release hpc hheld hstate =>
    rcases mem_cons.mp hret with heq | hmem
    · cases heq
      exact .inl (h.polledSince (Move.release hpc hheld hstate) (h.polled t _ hpc))
    · exact hold hmem

end

theorem Move.called_cases (m : f.Move t f') (hcall : Event.called n ∈ f'.log) :
    Event.called n ∈ f.log ∨ (f'.pc t).since = some n := by
  cases m with
  | acquire | wait | take | again | renew => exact .inl hcall
  | busy | late | start | ready | notReady | finish | release =>
    exact .inl ((mem_cons.mp hcall).resolve_left nofun)
  | call hpc =>
    rcases mem_cons.mp hcall with heq | hmem
    · cases heq
      exact .inr (congrArg Pc.since (update_self t _ f.pc))
    · exact .inl hmem

theorem History.answered_move (h : f.History) (m : f.Move t f') (hcall : Event.called n ∈ f'.log) :
    (∃ t, (f'.pc t).since = some n) ∨ ∃ r, Event.returned n r ∈ f'.log := by
  rcases m.called_cases hcall with hmem | hnew
  · rcases h.answered n hmem with ⟨v, hv⟩ | ⟨r, hr⟩
    · by_cases hvt : v = t
      · subst hvt
        rcases m.since_cases with ⟨hsame, _⟩ | ⟨k, r, _, hk, hlog⟩ | ⟨_, hnone, _⟩
        · exact .inl ⟨v, hsame.trans hv⟩
        · rw [hv] at hk
          cases hk
          exact .inr ⟨r, by rw [hlog]; exact mem_cons_self⟩
        · rw [hv] at hnone
          exact nomatch hnone
      · exact .inl ⟨v, by rw [m.pc_other hvt]; exact hv⟩
    · exact .inr ⟨r, h.mem_log m hr⟩
  · exact .inl ⟨t, hnew⟩

theorem History.move (h : f.History) (m : f.Move t f') : f'.History where
  past := h.past_move m
  current := h.current_move m
  poll := h.poll_move m
  polled := h.polled_move m
  completed := h.completed_move m
  finished := h.finished_move m
  owed := fun _ _ hret => h.owed_returned m hret
  answered := fun _ hcall => h.answered_move m hcall

omit [DecidableEq τ] in
theorem history_new : (new : AtomicFuture τ).History where
  past := nofun
  current := nofun
  poll := nofun
  polled := nofun
  completed := iff_of_false nofun (by rintro (h | ⟨t, h⟩) <;> exact nomatch h)
  finished := rfl
  owed := nofun
  answered := nofun

structure Invariant : Prop where
  exclusive : f.Exclusive
  history : f.History

theorem Invariant.step (h : f.Invariant) (t : τ) (ready : Bool) :
    (AtomicFuture.step t ready f).Invariant :=
  ⟨h.exclusive.move (h.exclusive.step_move t ready), h.history.move (h.exclusive.step_move t ready)⟩

omit [DecidableEq τ] in
theorem invariant_new : (new : AtomicFuture τ).Invariant :=
  ⟨⟨.inl ⟨.inl ⟨rfl, rfl⟩, fun _ => rfl⟩, fun _ => nofun⟩, history_new⟩

theorem invariant_run (schedule : List (τ × Bool)) : (run schedule).Invariant := by
  suffices hfold : ∀ f : AtomicFuture τ, f.Invariant →
      (schedule.foldl (fun f s => AtomicFuture.step s.1 s.2 f) f).Invariant from hfold
        new invariant_new
  induction schedule with
  | nil => exact fun f h => h
  | cons s schedule ih => exact fun f h => ih _ (h.step s.1 s.2)

variable (h : f.Invariant)
include h

theorem Invariant.same (ht : (f.pc t).owns = true) (hu : (f.pc u).owns = true) : t = u := by
  by_contra hne
  have halone := (h.exclusive.held hu).alone t hne
  rw [ht] at halone
  exact nomatch halone

omit [DecidableEq τ] in
theorem Invariant.free (hstate : f.state = INACTIVE ∨ f.state = DONE) : f.Free := by
  rcases h.exclusive.used with hfree | ⟨t, hheld⟩
  · exact hfree
  · rcases hheld.word with hword | hword <;> rcases hstate with
        hstate | hstate <;> rw [hstate] at hword <;>
      exact absurd hword (by decide)

omit [DecidableEq τ] in
theorem Invariant.served (hfree : f.Free) {r : AttemptPollResult}
    (hret : Event.returned n r ∈ f.log) : f.PolledSince n ∨ f.Completed := by
  rcases h.history.owed n r hret with hp | hc | ⟨t, howns, _⟩
  · exact .inl hp
  · exact .inr hc
  · rw [hfree.unowned t] at howns
    exact nomatch howns

theorem Invariant.finisher (hc : f.Completed) :
    (f.log.countP Event.finishes = 1 ∧ ∀ t, (f.pc t).finishing = false) ∨
      (f.log.countP Event.finishes = 0 ∧ ∃ t, (f.pc t).finishing = true ∧
        ∀ u, (f.pc u).finishing = true → u = t) := by
  have hcount := h.history.finished
  by_cases hdone : f.state = DONE
  · rw [if_pos hdone] at hcount
    refine .inl ⟨hcount, fun t => ?_⟩
    by_contra hfin
    have howns := Pc.owns_of_finishing (Bool.not_eq_false _ ▸ hfin)
    rw [(h.free (.inr hdone)).unowned t] at howns
    exact nomatch howns
  · rw [if_neg hdone] at hcount
    obtain ⟨t, ht⟩ := (h.history.completed.mp hc).resolve_left hdone
    exact .inr ⟨hcount, t, ht, fun u hu => h.same (Pc.owns_of_finishing hu) (Pc.owns_of_finishing ht)⟩

theorem Invariant.returns (ht : (f.pc t).finishing = true) (r r' : Bool) :
    (AtomicFuture.step t r' (AtomicFuture.step t r f)).log.countP Event.finishes = 1 := by
  have hheld := h.exclusive.held (Pc.owns_of_finishing ht)
  have hcount := h.history.finished
  rw [if_neg hheld.not_done] at hcount
  cases hpc : f.pc t with
  | complete n =>
    simp only [AtomicFuture.step, hpc, goto, give, update_self]
    rw [countP_cons_of_pos rfl, hcount]
  | store n =>
    simp only [AtomicFuture.step, hpc, goto, give, update_self]
    rw [countP_cons_of_neg Bool.false_ne_true, countP_cons_of_pos rfl, hcount]
  | idle | attempt n | notify n | access n | polling n a | release n | renew n | panicked =>
    rw [hpc] at ht
    exact nomatch ht

end History

/-- In every interleaving of any threads: one thread at a time polls the future, none after `Ready`;
no call panics; a completed future has exactly one call that returns `IFinished`; and when the word
is INACTIVE or DONE, every call that returned `Busy` or `Pending` has been followed by a whole
poll. -/
theorem tryPoll_exclusive_and_notified {τ : Type} [DecidableEq τ] (schedule : List (τ × Bool)) :
    let f : AtomicFuture τ := run schedule
    (∀ t u n a m b, f.pc t = .polling n a → f.pc u = .polling m b → t = u) ∧
      (f.Completed → ∀ t n a, f.pc t ≠ .polling n a) ∧
        (∀ t, f.pc t ≠ .panicked) ∧
          ((f.Completed → (f.log.countP Event.finishes = 1 ∧ ∀ t, (f.pc t).finishing = false) ∨
              (f.log.countP Event.finishes = 0 ∧ ∃ t, (f.pc t).finishing = true ∧
                (∀ u, (f.pc u).finishing = true → u = t) ∧
                  ∀ r r', (step t r' (step t r f)).log.countP Event.finishes = 1)) ∧
            (¬ f.Completed → f.log.countP Event.finishes = 0)) ∧
          (f.state = INACTIVE ∨ f.state = DONE → ∀ n r, Event.returned n r ∈ f.log → r = .busy ∨
            r = .pending →
            f.PolledSince n ∨ f.Completed) := by
  intro f
  have h : f.Invariant := invariant_run schedule
  refine ⟨?_, ?_, h.exclusive.sound, ⟨?_, ?_⟩, ?_⟩
  · intro t u n a m b ht hu
    exact h.same (by rw [ht]; rfl) (by rw [hu]; rfl)
  · intro hc t n a ht
    have howns : (f.pc t).owns = true := by
      rw [ht]
      rfl
    rcases h.history.completed.mp hc with hdone | ⟨u, hu⟩
    · rw [(h.free (.inr hdone)).unowned t] at howns
      exact nomatch howns
    · obtain rfl := h.same howns (Pc.owns_of_finishing hu)
      rw [ht] at hu
      exact nomatch hu
  · intro hc
    rcases h.finisher hc with hdone | ⟨hcount, t, ht, hunique⟩
    · exact .inl hdone
    · exact .inr ⟨hcount, t, ht, hunique, fun r r' => h.returns ht r r'⟩
  · intro hc
    have hcount := h.history.finished
    rw [if_neg fun hdone => hc (h.history.completed.mpr (.inl hdone))] at hcount
    exact hcount
  · intro hstate n r hret _
    exact h.served (h.free hstate) hret

end AtomicFuture

end Garnet.Async
