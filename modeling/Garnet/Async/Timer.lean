import Mathlib.Data.List.Basic

/-! A timer: a flag and the waker slot of `AtomicWaker`. One thread polls and resets it; other
threads run `TimeWaker::wake`, which stores the flag and then wakes what the slot holds.
`AtomicWaker` is taken at its word: `register` replaces the waker in the slot, `wake` takes it out
and wakes it, each in one step. -/

namespace Garnet.Async
open List

inductive TimerEvent (W : Type) where
  /-- a poll that read `false` has registered its waker; it returns Pending -/
  | pending (waker : W)
  /-- one of the other registrations of `Interval::poll_next` -/
  | registered (waker : W)
  | woken (waker : W)

/-- The `TimeWaker` of the current deadline. -/
inductive TimerStage where
  /-- not in a heap yet: `reset` is on its way to `register_timer` -/
  | unarmed
  | armed
  /-- it has stored the flag and not yet woken the slot -/
  | stored
  | completed
  deriving DecidableEq

inductive TimerCall (W : Type) where
  | poll (waker : W)
  /-- `Interval::poll_next` -/
  | pollNext (waker : W)
  | reset

inductive TimerPc (W : Type) where
  | idle
  /-- `did_fire` was false; with the kind of the call, to know what follows -/
  | checked (waker : W) (interval : Bool)
  /-- the second registration of a pending `poll_next` -/
  | again (waker : W)
  /-- the registration of a ready `poll_next`, before its reset -/
  | renew (waker : W)
  | asserting
  | clearing
  | arming
  | panicked

structure Timer (W : Type) where
  fired : Bool
  slot : Option W
  stage : TimerStage
  /-- the `TimeWaker`s of earlier deadlines that have stored the flag and not yet woken the slot -/
  stale : Nat
  pc : TimerPc W
  log : List (TimerEvent W)

inductive TimerAction (W : Type) where
  | call (c : TimerCall W)
  | next
  /-- the two halves of the current `TimeWaker::wake` -/
  | store
  | wake
  /-- the second half of an earlier one -/
  | wakeStale

namespace Timer
variable {W : Type}

def new : Timer W := ⟨false, none, .armed, 0, .idle, []⟩

def register (waker : W) (event : TimerEvent W) (pc : TimerPc W) (t : Timer W) : Timer W :=
  { t with slot := some waker, pc := pc, log := event :: t.log }

variable (t : Timer W)

/-- `AtomicWaker::wake`. -/
def wakeSlot : Timer W :=
  match t.slot with
  | none => t
  | some waker => { t with slot := none, log := .woken waker :: t.log }

def call : TimerCall W → Timer W → Timer W
  | .poll waker, t => { t with pc := if t.fired then .idle else .checked waker false }
  | .pollNext waker, t => { t with pc := if t.fired then .renew waker else .checked waker true }
  | .reset, t => { t with pc := .asserting }

def next : Timer W :=
  match t.pc with
  | .idle => t
  | .checked waker interval =>
    t.register waker (.pending waker) (if interval then .again waker else .idle)
  | .again waker => t.register waker (.registered waker) .idle
  | .renew waker => t.register waker (.registered waker) .asserting
  | .asserting => { t with pc := if t.fired then .clearing else .panicked }
  | .clearing =>
    { t with
      fired := false
      stage := .unarmed
      stale := if t.stage = .stored then t.stale + 1 else t.stale
      pc := .arming }
  | .arming => { t with stage := .armed, pc := .idle }
  | .panicked => t

def step : TimerAction W → Timer W
  | .call c =>
    match t.pc with
    | .idle => t.call c
    | _ => t
  | .next => t.next
  | .store => if t.stage = .armed then { t with fired := true, stage := .stored } else t
  | .wake => if t.stage = .stored then { t.wakeSlot with stage := .completed } else t
  | .wakeStale => if t.stale = 0 then t else { t.wakeSlot with stale := t.stale - 1 }

def run (schedule : List (TimerAction W)) (t : Timer W) : Timer W := schedule.foldl step t

/-- A poll has returned Pending with `waker`, and the waker has not been woken since. -/
def Waits (waker : W) : List (TimerEvent W) → Prop
  | [] => False
  | event :: before => event = .pending waker ∨ event ≠ .woken waker ∧ Waits waker before

/-- Once the wake of the current deadline is complete, nobody waits. -/
def NoLostWake : Prop := t.stage = .completed → ∀ waker, ¬ Waits waker t.log

def Checking : Prop := ∃ waker interval, t.pc = .checked waker interval

/-- The waker that the polling thread registers next. -/
def registers : Option W :=
  match t.pc with
  | .checked waker _ | .again waker | .renew waker => some waker
  | _ => none

/-- A registration of `waker` takes the place of no other waker that waits. -/
def OnlyWaits (waker : W) : Prop := ∀ other, Waits other t.log → other = waker

/-- No wake of the current deadline reaches the slot while a poll is between its check and its
registration, and no poll registers its waker while a different one waits. -/
def Unraced : List (TimerAction W) → Timer W → Prop
  | [], _ => True
  | a :: schedule, t =>
    (a = .wake → ¬ t.Checking) ∧ (a = .next → ∀ waker ∈ t.registers, t.OnlyWaits waker) ∧
      Unraced schedule (t.step a)

structure Invariant : Prop where
  flag : t.fired = true ↔ t.stage = .stored ∨ t.stage = .completed
  unarmed : t.stage = .unarmed ↔ t.pc = .arming
  cleared : t.pc = .clearing → t.fired = true
  checked : t.Checking → t.stage = .armed ∨ t.stage = .stored
  /-- a waker that waits is in the slot, and its wake is to come -/
  waiting : ∀ waker, Waits waker t.log → t.slot = some waker ∧ t.stage ≠ .completed

namespace Invariant
variable {t : Timer W} {event : TimerEvent W} {waker : W}

theorem new : (Timer.new : Timer W).Invariant where
  flag := ⟨nofun, nofun⟩
  unarmed := ⟨nofun, nofun⟩
  cleared := nofun
  checked := fun _ => .inl rfl
  waiting := nofun

theorem waiting_register (h : t.Invariant) (pc : TimerPc W) (honly : t.OnlyWaits waker)
    (hevent : event = .pending waker ∧ t.stage ≠ .completed ∨ event = .registered waker) (other : W)
    (hwaits : Waits other (t.register waker event pc).log) :
    (t.register waker event pc).slot = some other ∧
    (t.register waker event pc).stage ≠ .completed := by
  rcases hwaits with hnew | ⟨_, hold⟩
  · rcases hevent with ⟨hpending, hstage⟩ | hregistered
    · cases hnew.symm.trans hpending
      exact ⟨rfl, hstage⟩
    · exact nomatch hnew.symm.trans hregistered
  · exact ⟨congrArg some (honly other hold).symm, (h.waiting other hold).2⟩

theorem waiting_wake (h : t.Invariant) (waker : W) : ¬ Waits waker t.wakeSlot.log := by
  intro hwaits
  unfold wakeSlot at hwaits
  cases hslot : t.slot with
  | none =>
    rw [hslot] at hwaits
    exact nomatch hslot.symm.trans (h.waiting waker hwaits).1
  | some taken =>
    rw [hslot] at hwaits
    rcases hwaits with hnew | ⟨hne, hold⟩
    · exact nomatch hnew
    · cases hslot.symm.trans (h.waiting waker hold).1
      exact hne rfl

theorem wakeSlot_fired (t : Timer W) : t.wakeSlot.fired = t.fired := by
  unfold wakeSlot
  split <;> rfl

theorem wakeSlot_stage (t : Timer W) : t.wakeSlot.stage = t.stage := by
  unfold wakeSlot
  split <;> rfl

theorem wakeSlot_pc (t : Timer W) : t.wakeSlot.pc = t.pc := by
  unfold wakeSlot
  split <;> rfl

section
variable (h : t.Invariant)
include h

theorem call (hpc : t.pc = .idle) (c : TimerCall W) : (t.call c).Invariant := by
  have harmed : t.stage ≠ .unarmed := by
    intro hstage
    exact nomatch hpc.symm.trans (h.unarmed.mp hstage)
  -- a poll that reads `false` finds the deadline armed
  have hfalse : t.fired = false → t.stage = .armed := by
    intro hfired
    have hflag := h.flag
    rw [hfired] at hflag
    cases hstage : t.stage with
    | unarmed => exact absurd hstage harmed
    | armed => rfl
    | stored => exact nomatch hflag.mpr (.inl hstage)
    | completed => exact nomatch hflag.mpr (.inr hstage)
  cases c with
  | poll waker | pollNext waker =>
    refine ⟨h.flag, ⟨fun hstage => absurd hstage harmed, ?_⟩, ?_, ?_, h.waiting⟩
    · intro harming
      simp only [Timer.call] at harming
      split at harming <;> exact nomatch harming
    · intro hclear
      simp only [Timer.call] at hclear
      split at hclear <;> exact nomatch hclear
    · rintro ⟨w, i, hw⟩
      simp only [Timer.call] at hw
      split at hw
      · exact nomatch hw
      next hfired => exact .inl (hfalse (Bool.not_eq_true _ ▸ hfired))
  | reset => exact ⟨h.flag, ⟨fun hstage => absurd hstage harmed, nofun⟩, nofun, nofun, h.waiting⟩

theorem register {waker : W} {event : TimerEvent W} {pc : TimerPc W} (honly : t.OnlyWaits waker)
    (hevent : event = .pending waker ∧ t.stage ≠ .completed ∨ event = .registered waker)
    (hbefore : t.pc ≠ .arming) (harming : pc ≠ .arming) (hclear : pc ≠ .clearing)
    (hcheck : ∀ w i, pc ≠ .checked w i) : (t.register waker event pc).Invariant where
  flag := h.flag
  unarmed := ⟨fun hstage => absurd (h.unarmed.mp hstage) hbefore, fun hpc => absurd hpc harming⟩
  cleared := fun hpc => absurd hpc hclear
  checked := fun ⟨w, i, hw⟩ => absurd hw (hcheck w i)
  waiting := h.waiting_register pc honly hevent

theorem next (honly : ∀ waker ∈ t.registers, t.OnlyWaits waker) : t.next.Invariant := by
  unfold Timer.next
  unfold registers at honly
  cases hpc : t.pc with
  | idle | panicked => exact h
  | checked waker interval =>
    have hstage : t.stage ≠ .completed := by
      rcases h.checked ⟨waker, interval, hpc⟩ with hstage | hstage <;> rw [hstage] <;> exact nofun
    rw [hpc] at honly
    apply h.register (honly waker rfl) (.inl ⟨rfl, hstage⟩) (by rw [hpc]; exact nofun)
    · cases interval <;> exact nofun
    · cases interval <;> exact nofun
    · cases interval <;> exact nofun
  | again waker | renew waker =>
    rw [hpc] at honly
    exact h.register (honly waker rfl) (.inr rfl) (by rw [hpc]; exact nofun) nofun nofun nofun
  | asserting =>
    have hne : t.stage ≠ .unarmed := fun hstage => nomatch hpc.symm.trans (h.unarmed.mp hstage)
    refine ⟨h.flag, ⟨fun hstage => absurd hstage hne, ?_⟩, ?_, ?_, h.waiting⟩
    · intro harming
      dsimp only at harming
      split at harming <;> exact nomatch harming
    · intro hclear
      dsimp only at hclear
      split at hclear
      · assumption
      · exact nomatch hclear
    · rintro ⟨w, i, hw⟩
      dsimp only at hw
      split at hw <;> exact nomatch hw
  | clearing =>
    refine ⟨⟨nofun, nofun⟩, ⟨fun _ => rfl, fun _ => rfl⟩, nofun, nofun,
      fun waker hwaits => ⟨(h.waiting waker hwaits).1, nofun⟩⟩
  | arming =>
    have hfired : t.fired ≠ true := by
      intro hfired
      have hstage := h.unarmed.mpr hpc
      rcases h.flag.mp hfired with hstored | hcompleted
      · exact nomatch hstage.symm.trans hstored
      · exact nomatch hstage.symm.trans hcompleted
    refine ⟨⟨fun hf => absurd hf hfired, nofun⟩, ⟨nofun, nofun⟩, nofun, nofun,
      fun waker hwaits => ⟨(h.waiting waker hwaits).1, nofun⟩⟩

theorem store (hstage : t.stage = .armed) :
    Invariant { t with fired := true, stage := .stored } where
  flag := ⟨fun _ => .inl rfl, fun _ => rfl⟩
  unarmed := ⟨nofun, fun harming => nomatch hstage.symm.trans (h.unarmed.mpr harming)⟩
  cleared := fun _ => rfl
  checked := fun _ => .inr rfl
  waiting := fun waker hwaits => ⟨(h.waiting waker hwaits).1, nofun⟩

theorem wake (hstage : t.stage = .stored) (hrace : ¬ t.Checking) :
    Invariant { t.wakeSlot with stage := .completed } where
  flag := by
    rw [wakeSlot_fired]
    exact ⟨fun _ => .inr rfl, fun _ => h.flag.mpr (.inl hstage)⟩
  unarmed := by
    rw [wakeSlot_pc]
    exact ⟨nofun, fun harming => nomatch hstage.symm.trans (h.unarmed.mpr harming)⟩
  cleared := by
    rw [wakeSlot_pc, wakeSlot_fired]
    exact h.cleared
  checked := by
    rintro ⟨w, i, hw⟩
    exact absurd ⟨w, i, (wakeSlot_pc t).symm.trans hw⟩ hrace
  waiting := fun waker hwaits => absurd hwaits (h.waiting_wake waker)

theorem wakeStale : Invariant { t.wakeSlot with stale := t.stale - 1 } where
  flag := by
    rw [wakeSlot_fired, wakeSlot_stage]
    exact h.flag
  unarmed := by
    rw [wakeSlot_pc, wakeSlot_stage]
    exact h.unarmed
  cleared := by
    rw [wakeSlot_pc, wakeSlot_fired]
    exact h.cleared
  checked := by
    rintro ⟨w, i, hw⟩
    rw [wakeSlot_stage]
    exact h.checked ⟨w, i, (wakeSlot_pc t).symm.trans hw⟩
  waiting := fun waker hwaits => absurd hwaits (h.waiting_wake waker)

theorem step {a : TimerAction W} (hrace : a = .wake → ¬ t.Checking)
    (honly : a = .next → ∀ waker ∈ t.registers, t.OnlyWaits waker) : (t.step a).Invariant := by
  cases a with
  | call c =>
    simp only [Timer.step]
    split
    next hpc => exact h.call hpc c
    next => exact h
  | next => exact h.next (honly rfl)
  | store =>
    simp only [Timer.step]
    split
    next hstage => exact h.store hstage
    next => exact h
  | wake =>
    simp only [Timer.step]
    split
    next hstage => exact h.wake hstage (hrace rfl)
    next => exact h
  | wakeStale =>
    simp only [Timer.step]
    split
    next => exact h
    next => exact h.wakeStale

end

theorem run (schedule : List (TimerAction W)) (h : t.Invariant) (hrace : Unraced schedule t) :
    (t.run schedule).Invariant := by
  induction schedule generalizing t with
  | nil => exact h
  | cons a schedule ih => exact ih (h.step hrace.1 hrace.2.1) hrace.2.2

end Invariant

/-- In every interleaving in which no wake of the current deadline reaches the slot between the
check and the registration of a poll, and no poll replaces another waker that waits, no poll that
returned Pending loses its wake-up. -/
theorem timer_no_lost_wake {W : Type} (schedule : List (TimerAction W))
    (hrace : Unraced schedule new) : NoLostWake (run schedule new) := by
  intro hstage waker hwaits
  have h : (run schedule new).Invariant := Invariant.new.run schedule hrace
  exact (h.waiting waker hwaits).2 hstage

/-- An interval that is polled twice, fires in between, and fires again after its reset. -/
theorem interval_no_lost_wake : let schedule : List (TimerAction Nat) :=
      [.call (.pollNext 7), .next, .store, .next, .wake, .call (.pollNext 7), .next, .next, .next, .next,
        .call (.pollNext 8), .next, .next, .store, .wake]
    Unraced schedule new ∧ (run schedule new).stage = .completed ∧ NoLostWake (run schedule new) := by
  have hrace : Unraced (W := Nat)
      [.call (.pollNext 7), .next, .store, .next, .wake, .call (.pollNext 7), .next, .next, .next, .next,
        .call (.pollNext 8), .next, .next, .store, .wake] new := by
    simp +contextual [Unraced, step, Timer.call, Timer.next, new, Timer.register, registers, OnlyWaits,
      Waits, Checking, wakeSlot]
  exact ⟨hrace, rfl, timer_no_lost_wake _ hrace⟩

/-- The deadline passes after the poll has read the flag and before it registers: the wake finds the
slot empty, and the poll returns Pending with nobody left to wake it. -/
theorem raced_poll_not_woken :
    let t : Timer Nat := run [.call (.poll 7), .store, .wake, .next] new
    t.pc = .idle ∧ t.stage = .completed ∧ t.stale = 0 ∧ t.log = [.pending 7] ∧ ¬ NoLostWake t := by
  exact ⟨rfl, rfl, rfl, rfl, fun h => h rfl 7 (.inl rfl)⟩

end Timer
end Garnet.Async
