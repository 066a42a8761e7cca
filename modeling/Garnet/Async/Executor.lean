import Garnet.Async.AtomicFuture
import Mathlib.Data.Fintype.Card

/-! Worker threads that poll the tasks of a ready queue, woken by packets of a port. A spawn and a
wake-up first push the task and then queue a packet; a worker takes a packet, pops whichever task is
first, and polls it. Wake-ups may come from anywhere, also from inside a poll. -/

namespace Garnet.Async
open List
open Function (forall_update_iff update update_eq_self update_of_ne update_self)
/-- Where a worker stands in `worker_lifecycle`. -/
inductive Worker (κ : Type) where
  /-- in `port.wait` -/
  | waiting
  /-- it has a TASK_READY packet and has not yet popped -/
  | received
  /-- it has popped the task and not yet called `try_poll` -/
  | popped (task : κ)
  | polling (task : κ)
  deriving DecidableEq

structure Executor (ω κ : Type) where
  /-- the future of each task -/
  future : κ → AtomicFuture ω
  readyTasks : List κ
  /-- the TASK_READY packets in the port -/
  port : Nat
  /-- the threads that have pushed a task and not yet queued its packet -/
  pushing : Nat
  worker : ω → Worker κ
  /-- every spawn and wake-up so far, with the moment of the task at which it happened -/
  wakes : List (κ × Nat)

inductive Action (ω κ : Type) where
  /-- the first half of `spawn` and of `wake_by_ref` -/
  | push (task : κ)
  /-- the second half, `notify_task_ready` -/
  | notify
  /-- a step of a worker, with the answer of the future if it is polled -/
  | work (worker : ω) (ready : Bool)

namespace Executor
variable {ω κ : Type} [DecidableEq ω] [DecidableEq κ]

def new : Executor ω κ := ⟨fun _ => .new, [], 0, 0, fun _ => .waiting, []⟩

def goto (e : Executor ω κ) (w : ω) (p : Worker κ) : Executor ω κ :=
  { e with worker := update e.worker w p }

def poll (e : Executor ω κ) (w : ω) (ready : Bool) (task : κ) : Executor ω κ :=
  { e with future := update e.future task ((e.future task).step w ready) }

def step : Action ω κ → Executor ω κ → Executor ω κ
  | .push task, e =>
    { e with
      readyTasks := e.readyTasks ++ [task]
      pushing := e.pushing + 1
      wakes := (task, (e.future task).log.length) :: e.wakes }
  | .notify, e => if e.pushing = 0 then e else { e with pushing := e.pushing - 1, port := e.port + 1 }
  | .work w ready, e =>
    match e.worker w with
    | .waiting => if e.port = 0 then e else { e.goto w .received with port := e.port - 1 }
    | .received =>
      match e.readyTasks with
      | [] => e.goto w .waiting
      | task :: rest => { e.goto w (.popped task) with readyTasks := rest }
    | .popped task => (e.poll w ready task).goto w (.polling task)
    | .polling task =>
      -- the call has returned when the worker is idle in the future
      if ((e.future task).step w ready).pc w = .idle then (e.poll w ready task).goto w .waiting
      else e.poll w ready task

def run (schedule : List (Action ω κ)) : Executor ω κ := schedule.foldl (fun e a => step a e) new

variable [Fintype ω]

def receivers (e : Executor ω κ) : Finset ω := Finset.univ.filter fun w => e.worker w = .received

structure Invariant (e : Executor ω κ) : Prop where
  futures : ∀ x, (e.future x).Invariant
  enough : e.readyTasks.length ≤ e.port + e.receivers.card + e.pushing
  calls : ∀ x w, (e.future x).pc w ≠ .idle → e.worker w = .polling x
  moments : ∀ x p, (x, p) ∈ e.wakes → p ≤ (e.future x).log.length
  /-- a task that was woken is in the queue, or popped, or has been called since -/
  woken : ∀ x p, (x, p) ∈ e.wakes →
    x ∈ e.readyTasks ∨ (∃ w, e.worker w = .popped x) ∨ ∃ n, Event.called n ∈ (e.future x).log ∧ p ≤ n

section Steps
variable {e : Executor ω κ} {w : ω} {p : Worker κ} {x task : κ}

omit [DecidableEq ω] in
theorem mem_receivers : w ∈ e.receivers ↔ e.worker w = .received := by
  simp [receivers]

theorem receivers_insert (e : Executor ω κ) (w : ω) :
    (e.goto w .received).receivers = insert w e.receivers := by
  ext v
  rw [mem_receivers, Finset.mem_insert, mem_receivers]
  by_cases hv : v = w
  · simp [goto, hv]
  · simp [goto, hv]

theorem receivers_erase (e : Executor ω κ) (w : ω) (hp : p ≠ .received) :
    (e.goto w p).receivers = e.receivers.erase w := by
  ext v
  rw [mem_receivers, Finset.mem_erase, mem_receivers]
  by_cases hv : v = w
  · simp [goto, hv, hp]
  · simp [goto, hv]

theorem receivers_of_ne (h : e.worker w ≠ .received) (hp : p ≠ .received) :
    (e.goto w p).receivers = e.receivers := by
  rw [receivers_erase e w hp, Finset.erase_eq_of_notMem (mt mem_receivers.mp h)]

theorem Invariant.calls_goto (h : e.Invariant) (p : Worker κ) (hw : ∀ x, e.worker w ≠ .polling x)
    (x : κ) (v : ω) (hpc : (e.future x).pc v ≠ .idle) : (e.goto w p).worker v = .polling x := by
  have hv := h.calls x v hpc
  have hne : v ≠ w := by
    rintro rfl
    exact hw x hv
  change update e.worker w p v = _
  rw [update_of_ne hne, hv]

omit [DecidableEq κ] [Fintype ω] in
theorem popped_goto (p : Worker κ) (hw : e.worker w ≠ .popped x) (h : ∃ v, e.worker v = .popped x) :
    ∃ v, (e.goto w p).worker v = .popped x := by
  obtain ⟨v, hv⟩ := h
  have hne : v ≠ w := by
    rintro rfl
    exact hw hv
  exact ⟨v, (update_of_ne hne _ _).trans hv⟩

section
variable (h : e.Invariant)
include h

theorem Invariant.push (task : κ) : (step (.push task : Action ω κ) e).Invariant where
  futures := h.futures
  enough := by
    have hle := h.enough
    change (e.readyTasks ++ [task]).length ≤ e.port + e.receivers.card + (e.pushing + 1)
    rw [length_append, length_singleton]
    omega
  calls := h.calls
  moments := by
    intro x p hmem
    rcases mem_cons.mp hmem with heq | hmem
    · cases heq
      exact le_refl _
    · exact h.moments x p hmem
  woken := by
    intro x p hmem
    rcases mem_cons.mp hmem with heq | hmem
    · cases heq
      exact .inl (mem_append_right _ (mem_singleton_self _))
    · rcases h.woken x p hmem with hready | hrest
      · exact .inl (mem_append_left _ hready)
      · exact .inr hrest

theorem Invariant.notify : (step (.notify : Action ω κ) e).Invariant := by
  simp only [Executor.step]
  split
  · exact h
  next hpushing =>
    refine ⟨h.futures, ?_, h.calls, h.moments, h.woken⟩
    have hle := h.enough
    change e.readyTasks.length ≤ e.port + 1 + e.receivers.card + (e.pushing - 1)
    omega

theorem Invariant.receive (hw : e.worker w = .waiting) :
    Invariant { e.goto w .received with port := e.port - 1 } where
  futures := h.futures
  enough := by
    have hle := h.enough
    change e.readyTasks.length ≤ e.port - 1 + (e.goto w .received).receivers.card + e.pushing
    rw [receivers_insert,
      Finset.card_insert_of_notMem (mt mem_receivers.mp (by rw [hw]; exact nofun))]
    omega
  calls := h.calls_goto _ (by rw [hw]; exact nofun)
  moments := h.moments
  woken := by
    intro x p hmem
    exact (h.woken x p hmem).imp_right (Or.imp_left (popped_goto _ (by rw [hw]; exact nofun)))

theorem Invariant.pop (hw : e.worker w = .received) : Invariant (match e.readyTasks with
      | [] => e.goto w .waiting
      | task :: rest => { e.goto w (.popped task) with readyTasks := rest }) := by
  have hcard := Finset.card_erase_add_one (mem_receivers.mpr hw)
  have hle := h.enough
  cases hready : e.readyTasks with
  | nil =>
    refine ⟨h.futures, ?_, h.calls_goto _ (by rw [hw]; exact nofun), h.moments, ?_⟩
    · change e.readyTasks.length ≤ _
      rw [hready]
      exact Nat.zero_le _
    · intro x p hmem
      exact (h.woken x p hmem).imp_right (Or.imp_left (popped_goto _ (by rw [hw]; exact nofun)))
  | cons task rest =>
    refine ⟨h.futures, ?_, h.calls_goto _ (by rw [hw]; exact nofun), h.moments, ?_⟩
    · change rest.length ≤ e.port + (e.goto w (.popped task)).receivers.card + e.pushing
      rw [receivers_erase e w (p := .popped task) nofun]
      rw [hready, length_cons] at hle
      omega
    · intro x p hmem
      rcases h.woken x p hmem with hin | hrest
      · rw [hready] at hin
        rcases mem_cons.mp hin with rfl | hin
        · exact .inr (.inl ⟨w, update_self w _ e.worker⟩)
        · exact .inl hin
      · exact .inr (hrest.imp_left (popped_goto _ (by rw [hw]; exact nofun)))

omit [DecidableEq ω] in
theorem Invariant.other_call (hw : e.worker w = p) (hx : p ≠ .polling x) :
    (e.future x).pc w = .idle := by
  by_contra hpc
  exact hx (hw.symm.trans (h.calls x w hpc))

theorem Invariant.poll_pc {ready : Bool} {v : ω} (hv : v ≠ w) :
    ((e.poll w ready task).future x).pc v = (e.future x).pc v := by
  change (update e.future task _ x).pc v = _
  by_cases hx : x = task
  · subst hx
    rw [update_self]
    exact ((h.futures x).exclusive.step_move w ready).pc_other hv
  · rw [update_of_ne hx]

theorem Invariant.poll_futures (ready : Bool) (task x : κ) :
    ((e.poll w ready task).future x).Invariant := by
  exact (forall_update_iff e.future fun _ f => f.Invariant).mpr
    ⟨(h.futures task).step w ready, fun x _ => h.futures x⟩ x

theorem Invariant.poll_log (ready : Bool) (task x : κ) :
    (e.future x).log.length ≤ ((e.poll w ready task).future x).log.length ∧
      ∀ event ∈ (e.future x).log, event ∈ ((e.poll w ready task).future x).log := by
  change _ ≤ (update e.future task _ x).log.length ∧
    ∀ event ∈ _, event ∈ (update e.future task _ x).log
  by_cases hx : x = task
  · subst hx
    rw [update_self]
    have hmove := (h.futures x).exclusive.step_move w ready
    exact ⟨(h.futures x).history.log_le hmove, fun event => (h.futures x).history.mem_log hmove⟩
  · rw [update_of_ne hx]
    exact ⟨le_refl _, fun _ => id⟩

end

omit [Fintype ω] in
theorem step_idle {f : AtomicFuture ω} (hpc : f.pc w = .idle) (ready : Bool) :
    (f.step w ready).log = .called f.log.length :: f.log := by
  simp only [AtomicFuture.step, hpc]

theorem Invariant.work (h : e.Invariant)
    (hw : e.worker w = .popped task ∨ e.worker w = .polling task) (ready : Bool)
    (hp : p = .polling task ∨ p = .waiting ∧ ((e.future task).step w ready).pc w = .idle) :
    Invariant ((e.poll w ready task).goto w p) where
  futures := h.poll_futures ready task
  enough := by
    have hle := h.enough
    have hsame : (e.goto w p).receivers = e.receivers :=
      receivers_of_ne (by rcases hw with hw | hw <;> rw [hw] <;> exact nofun)
        (by rcases hp with rfl | ⟨rfl, _⟩ <;> exact nofun)
    change e.readyTasks.length ≤ e.port + (e.goto w p).receivers.card + e.pushing
    rw [hsame]
    exact hle
  calls := by
    intro x v hpc
    change ((e.poll w ready task).future x).pc v ≠ .idle at hpc
    change update e.worker w _ v = _
    by_cases hv : v = w
    · subst hv
      rw [update_self]
      by_cases hx : x = task
      · subst hx
        have hself : (e.poll v ready x).future x = (e.future x).step v ready :=
          update_self x _ e.future
        rcases hp with rfl | ⟨_, hidle⟩
        · rfl
        · rw [hself] at hpc
          exact absurd hidle hpc
      · -- the worker is in no other future
        have hother : (e.poll v ready task).future x = e.future x := update_of_ne hx _ _
        rw [hother] at hpc
        rcases hw with hw | hw
        · exact absurd (h.other_call hw nofun) hpc
        · exact absurd (h.other_call hw fun heq => hx (by cases heq; rfl)) hpc
    · rw [update_of_ne hv]
      rw [h.poll_pc hv] at hpc
      exact h.calls x v hpc
  moments := fun x q hmem => le_trans (h.moments x q hmem) (h.poll_log ready task x).1
  woken := by
    intro x q hmem
    rcases h.woken x q hmem with hready | ⟨v, hv⟩ | ⟨n, hcalled, hle⟩
    · exact .inl hready
    · by_cases hvw : v = w
      · -- the worker calls the task it has popped
        subst hvw
        obtain rfl : x = task := by
          rcases hw with hw | hw
          · cases hv.symm.trans hw
            rfl
          · exact nomatch hv.symm.trans hw
        refine .inr (.inr ⟨(e.future x).log.length, ?_, h.moments x q hmem⟩)
        change _ ∈ (update e.future x _ x).log
        rw [update_self, step_idle (h.other_call hv nofun)]
        exact mem_cons_self
      · exact .inr (.inl ⟨v, (update_of_ne hvw _ _).trans hv⟩)
    · exact .inr (.inr ⟨n, (h.poll_log ready task x).2 _ hcalled, hle⟩)

theorem Invariant.step (h : e.Invariant) (a : Action ω κ) : (Executor.step a e).Invariant := by
  cases a with
  | push task => exact h.push task
  | notify => exact h.notify
  | work w ready =>
    simp only [Executor.step]
    cases hw : e.worker w with
    | waiting =>
      dsimp only
      split
      · exact h
      next => exact h.receive hw
    | received => exact h.pop hw
    | popped task => exact h.work (.inl hw) ready (.inl rfl)
    | polling task =>
      dsimp only
      split
      next hidle => exact h.work (.inr hw) ready (.inr ⟨rfl, hidle⟩)
      next =>
        have hwork := h.work (.inr hw) ready (.inl rfl)
        have hsame : update e.worker w (.polling task) = e.worker := by
          rw [← hw]
          exact update_eq_self w e.worker
        rw [goto, show (e.poll w ready task).worker = e.worker from rfl, hsame] at hwork
        exact hwork

omit [DecidableEq ω] in
theorem invariant_new : (new : Executor ω κ).Invariant where
  futures := fun _ => AtomicFuture.invariant_new
  enough := Nat.zero_le _
  calls := fun _ _ hpc => absurd rfl hpc
  moments := nofun
  woken := nofun

theorem invariant_run (schedule : List (Action ω κ)) : (run schedule).Invariant := by
  suffices hfold : ∀ e : Executor ω κ, e.Invariant →
    (schedule.foldl (fun e a => Executor.step a e) e).Invariant from
    hfold new invariant_new
  induction schedule with
  | nil => exact fun e h => h
  | cons a schedule ih => exact fun e h => ih _ (h.step a)

omit [DecidableEq ω] in
theorem Invariant.settled (h : e.Invariant) (hport : e.port = 0) (hpush : e.pushing = 0)
    (hwait : ∀ w, e.worker w = .waiting) {p : Nat} (hmem : (x, p) ∈ e.wakes) :
    (e.future x).PolledSince p ∨ (e.future x).Completed := by
  have hnone : e.receivers = ∅ :=
    Finset.filter_eq_empty_iff.mpr fun w _ => by rw [hwait w]; exact nofun
  have hempty : e.readyTasks = [] := by
    have hle := h.enough
    rw [hport, hpush, hnone, Finset.card_empty] at hle
    exact eq_nil_of_length_eq_zero (Nat.le_zero.mp hle)
  rcases h.woken x p hmem with hready | ⟨w, hpopped⟩ | ⟨n, hcalled, hle⟩
  · rw [hempty] at hready
    exact absurd hready not_mem_nil
  · rw [hwait w] at hpopped
    exact nomatch hpopped
  · have hfuture := h.futures x
    have hidle (v : ω) : (e.future x).pc v = .idle := h.other_call (hwait v) nofun
    rcases hfuture.history.answered n hcalled with ⟨v, hv⟩ | ⟨r, hret⟩
    · rw [hidle v] at hv
      exact nomatch hv
    · have hfree : (e.future x).Free := by
        rcases hfuture.exclusive.used with hfree | ⟨v, hheld⟩
        · exact hfree
        · have howns := hheld.owns
          rw [hidle v] at howns
          exact nomatch howns
      rcases hfuture.served hfree hret with ⟨a, r, hended, hlt⟩ | hcompleted
      · exact .inl ⟨a, r, hended, lt_of_le_of_lt hle hlt⟩
      · exact .inr hcompleted

end Steps

/-- In every interleaving the packets, the workers that have received one and the threads about to
queue one are enough for the queue; and when there are none of them and all workers wait, every task
has been polled since each of its wake-ups, or has finished. -/
theorem executor_strands_no_task {ω κ : Type} [DecidableEq ω] [Fintype ω] [DecidableEq κ]
    (schedule : List (Action ω κ)) :
    let e := run schedule
    e.readyTasks.length ≤ e.port + e.receivers.card + e.pushing ∧
      (e.port = 0 → e.pushing = 0 → (∀ w, e.worker w = .waiting) →
        ∀ x p, (x, p) ∈ e.wakes → (e.future x).PolledSince p ∨ (e.future x).Completed) := by
  intro e
  have h : e.Invariant := invariant_run schedule
  exact ⟨h.enough, fun hport hpush hwait x p hmem => h.settled hport hpush hwait hmem⟩

/-- Between the push and the packet there is a task in the queue and nothing else. -/
theorem pushed_without_packet :
    let e : Executor Unit Unit := run [.push ()]
    ¬ e.readyTasks.length ≤ e.port + e.receivers.card ∧ e.port = 0 ∧ (∀ w, e.worker w = .waiting) ∧
      ((), 0) ∈ e.wakes ∧ ¬ ((e.future ()).PolledSince 0 ∨ (e.future ()).Completed) := by
  refine ⟨by decide, rfl, fun _ => rfl, mem_cons_self, ?_⟩
  rintro (⟨a, r, hended, _⟩ | ⟨a, hended⟩)
  · exact absurd hended not_mem_nil
  · exact absurd hended not_mem_nil

end Executor

end Garnet.Async
