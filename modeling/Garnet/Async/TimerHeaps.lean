import Mathlib.Data.Finset.Basic
import Mathlib.Data.Finset.Range
import Mathlib.Data.List.Sort

/-! The timer heaps of an executor, one in the thread local `EXECUTOR` of each thread. `run` hands
the heap of the calling thread to its first worker; `run_singlethreaded` serves it in place. A
worker that ends drops the heap it has. -/

namespace Garnet.Async
open Function (update update_of_ne)

inductive Thread where
  /-- the one that made the executor and calls it -/
  | main
  | worker (index : Nat)
  deriving DecidableEq

structure TimeWaker (τ : Type) where
  time : Nat
  timer : τ

inductive TimerLife where
  | unborn
  /-- neither fired since it was created or reset, nor dropped -/
  | pending
  | fired
  | dropped
  deriving DecidableEq

inductive Phase where
  | idle
  | singlethreaded
  | run (done : Bool)
  deriving DecidableEq

structure TimerHeaps (τ : Type) where
  heap : Thread → List (TimeWaker τ)
  /-- the workers that have not yet left `worker_lifecycle` -/
  workers : Finset Nat
  phase : Phase
  life : τ → TimerLife

inductive HeapAction (τ : Type) where
  /-- `register_timer`, called by `Timer::new` and by `Timer::reset` -/
  | register (thread : Thread) (time : Nat) (timer : τ)
  | nextDeadline (thread : Thread)
  /-- `port.wait` has timed out; also `wake_next_timer` -/
  | timedOut (thread : Thread)
  | drop (timer : τ)
  | runSinglethreaded
  | run (numThreads : Nat)
  /-- a worker completes the future of `run`, whose thread then sets `done` -/
  | complete (worker : Nat)
  /-- a worker sees `done` and removes its `EXECUTOR` -/
  | exit (worker : Nat)
  | finish

namespace TimerHeaps
variable {τ : Type} [DecidableEq τ]

def new : TimerHeaps τ := ⟨fun _ => [], ∅, .idle, fun _ => .unborn⟩

variable (s : TimerHeaps τ)

/-- A thread that calls `run` sleeps until it returns. -/
def runs : Thread → Bool
  | .main => s.phase = .idle ∨ s.phase = .singlethreaded
  | .worker i => i ∈ s.workers

/-- The heaps after `create_worker_threads`, where the first worker takes the timers. -/
def handOver (numThreads : Nat) : Thread → List (TimeWaker τ)
  | .main => []
  | .worker i => if i = 0 ∧ 0 < numThreads then s.heap .main else []

def step : HeapAction τ → TimerHeaps τ
  | .register th time t =>
    -- `reset` asserts that the timer has fired
    if s.runs th ∧ (s.life t = .unborn ∨ s.life t = .fired) then
      { s with
        heap := update s.heap th ((s.heap th).orderedInsert (fun a b => a.time ≤ b.time) ⟨time, t⟩)
        life := update s.life t .pending }
    else s
  | .nextDeadline th =>
    if s.runs th then
      { s with heap := update s.heap th ((s.heap th).dropWhile fun w => s.life w.timer = .dropped) }
    else s
  | .timedOut th =>
    match s.heap th with
    | [] => s
    | w :: rest =>
      if s.runs th then
        { s with
          heap := update s.heap th rest
          life := if s.life w.timer = .dropped then s.life else update s.life w.timer .fired }
      else s
  | .drop t => { s with life := update s.life t .dropped }
  | .runSinglethreaded => if s.phase = .idle then { s with phase := .singlethreaded } else s
  | .run n =>
    if s.phase = .idle then { s with heap := s.handOver n, workers := .range n, phase := .run false } else s
  | .complete i => if s.phase = .run false ∧ i ∈ s.workers then { s with phase := .run true } else s
  | .exit i =>
    if s.phase = .run true ∧ i ∈ s.workers then
      { s with heap := update s.heap (.worker i) [], workers := s.workers.erase i }
    else s
  | .finish =>
    if s.phase = .singlethreaded ∨ s.phase = .run true ∧ s.workers = ∅ then { s with phase := .idle } else s

def run (actions : List (HeapAction τ)) : TimerHeaps τ := actions.foldl step new

def timers (heap : List (TimeWaker τ)) : List τ := heap.map TimeWaker.timer

/-- Between two calls every pending timer is in the heap that the next call will serve. -/
def Survives : Prop := s.phase = .idle → ∀ t, s.life t = .pending → t ∈ timers (s.heap .main)

/-- No worker exits with a pending timer in its heap. -/
def ExitsDrained : List (HeapAction τ) → TimerHeaps τ → Prop
  | [], _ => True
  | a :: actions, s =>
    (∀ i, a = .exit i → ∀ t ∈ timers (s.heap (.worker i)), s.life t ≠ .pending) ∧ ExitsDrained actions (s.step a)

structure Invariant : Prop where
  left : ∀ i ∉ s.workers, s.heap (.worker i) = []
  calls : s.runs .main = true → s.workers = ∅
  /-- `run` without a thread drops the heap, and never returns -/
  kept : s.phase = .run false ∧ s.workers = ∅ ∨ ∀ t, s.life t = .pending → ∃ th, t ∈ timers (s.heap th)

section Steps
variable {s s' : TimerHeaps τ} {th : Thread} {t : τ}

omit [DecidableEq τ] in
theorem Invariant.kept_of_runs (h : s.Invariant) (th : Thread) (hth : s.runs th = true)
    (ht : s.life t = .pending) : ∃ th, t ∈ timers (s.heap th) := by
  rcases h.kept with ⟨hphase, hnone⟩ | hkept
  · cases th with
    | main => simp [runs, hphase] at hth
    | worker i => simp [runs, hnone] at hth
  · exact hkept t ht

omit [DecidableEq τ] in
/-- When the main thread runs, no other thread has a heap. -/
theorem Invariant.main (h : s.Invariant) (hmain : s.runs .main = true) (ht : s.life t = .pending) :
    t ∈ timers (s.heap .main) := by
  obtain ⟨th, hmem⟩ := h.kept_of_runs .main hmain ht
  cases th with
  | main => exact hmem
  | worker i =>
    rw [h.left i (by simp [h.calls hmain])] at hmem
    exact nomatch hmem

omit [DecidableEq τ] in
/-- A step of one thread on its heap. -/
theorem Invariant.local (h : s.Invariant) (hth : s.runs th = true) (heap : List (TimeWaker τ))
    (life : τ → TimerLife) (hlife : ∀ t, life t = .pending → t ∈ timers heap ∨
      s.life t = .pending ∧ (t ∈ timers (s.heap th) → t ∈ timers heap)) :
    Invariant { s with heap := update s.heap th heap, life := life } where
  left := by
    intro i hi
    have hne : Thread.worker i ≠ th := by
      rintro rfl
      exact hi (of_decide_eq_true hth)
    exact (update_of_ne hne _ _).trans (h.left i hi)
  calls := h.calls
  kept := by
    refine .inr fun t ht => ?_
    rcases hlife t ht with hmem | ⟨hold, hmove⟩
    · exact ⟨th, by simpa using hmem⟩
    · obtain ⟨other, hother⟩ := h.kept_of_runs th hth hold
      by_cases heq : other = th
      · subst heq
        exact ⟨other, by simpa using hmove hother⟩
      · exact ⟨other, by simpa [update_of_ne heq] using hother⟩

omit [DecidableEq τ] in
theorem mem_timers_dropWhile (heap : List (TimeWaker τ)) (hlive : s.life t ≠ .dropped)
    (ht : t ∈ timers heap) : t ∈ timers (heap.dropWhile fun w => s.life w.timer = .dropped) := by
  induction heap with
  | nil => exact ht
  | cons w rest ih =>
    rw [List.dropWhile_cons]
    split
    next hdropped =>
      rcases List.mem_cons.mp ht with rfl | hrest
      · exact absurd (of_decide_eq_true hdropped) hlive
      · exact ih hrest
    · exact ht

omit [DecidableEq τ] in
theorem Invariant.guarded {c : Prop} [Decidable c] (h : s.Invariant) (hs : c → s'.Invariant) :
    (if c then s' else s).Invariant := by
  split
  next hc => exact hs hc
  · exact h

theorem Invariant.step (h : s.Invariant) (a : HeapAction τ)
    (hexit : ∀ i, a = .exit i → ∀ t ∈ timers (s.heap (.worker i)), s.life t ≠ .pending) :
    (s.step a).Invariant := by
  cases a with
  | register th time t =>
    refine h.guarded fun hth => h.local hth.1 _ _ fun u hu => ?_
    by_cases hut : u = t
    · exact .inl (by simp [timers, hut])
    · rw [update_of_ne hut] at hu
      exact .inr ⟨hu, fun hmem => by simp_all [timers]⟩
  | nextDeadline th =>
    refine h.guarded fun hth => h.local hth _ _ fun u hu => .inr ⟨hu, ?_⟩
    exact mem_timers_dropWhile _ (by simp [hu])
  | timedOut th =>
    simp only [TimerHeaps.step]
    split
    · exact h
    next w rest hheap =>
      refine h.guarded fun hth => h.local hth _ _ fun u hu => ?_
      have hne : u ≠ w.timer ∧ s.life u = .pending := by grind
      exact .inr ⟨hne.2, by simp [hheap, timers, hne.1]⟩
  | drop t =>
    refine ⟨h.left, h.calls, h.kept.imp_right fun hkept u hu => hkept u ?_⟩
    simp only [TimerHeaps.step] at hu
    grind
  | runSinglethreaded =>
    refine h.guarded fun hidle => ?_
    have hmain : s.runs .main = true := by simp [runs, hidle]
    exact ⟨h.left, fun _ => h.calls hmain, .inr fun t ht => h.kept_of_runs .main hmain ht⟩
  | run n =>
    refine h.guarded fun hidle => ⟨fun i hi => ?_, by simp [runs], ?_⟩
    · simp only [handOver, ite_eq_right_iff]
      rintro ⟨rfl, hn⟩
      exact absurd (Finset.mem_range.mpr hn) hi
    · rcases Nat.eq_zero_or_pos n with rfl | hn
      · exact .inl ⟨rfl, rfl⟩
      · refine .inr fun t ht => ⟨.worker 0, ?_⟩
        simpa [handOver, hn] using h.main (by simp [runs, hidle]) ht
  | complete i =>
    refine h.guarded fun hrun => ⟨h.left, by simp [runs], .inr fun t ht => ?_⟩
    exact h.kept_of_runs (.worker i) (decide_eq_true hrun.2) ht
  | exit i =>
    refine h.guarded fun hrun => ⟨fun j hj => ?_, by simp [runs, hrun.1], .inr fun t ht => ?_⟩
    · by_cases hji : j = i
      · simp [hji]
      · simpa [hji] using h.left j (by simpa [hji] using hj)
    · obtain ⟨th, hmem⟩ := h.kept_of_runs (.worker i) (decide_eq_true hrun.2) ht
      have hne : th ≠ .worker i := by
        rintro rfl
        exact hexit i rfl t hmem ht
      exact ⟨th, by simpa [update_of_ne hne] using hmem⟩
  | finish =>
    refine h.guarded fun hdone => ⟨h.left, fun _ => ?_, ?_⟩
    · rcases hdone with hsingle | hjoined
      · exact h.calls (by simp [runs, hsingle])
      · exact hjoined.2
    · refine .inr (h.kept.resolve_left ?_)
      rintro ⟨hphase, _⟩
      simp [hphase] at hdone

end Steps

theorem invariant_foldl : ∀ (actions : List (HeapAction τ)) (s : TimerHeaps τ), s.Invariant →
    ExitsDrained actions s → (actions.foldl step s).Invariant
  | [], _, h, _ => h
  | a :: actions, s, h, hexits => invariant_foldl actions (s.step a) (h.step a hexits.1) hexits.2

/-- Every pending timer survives in a sequence of calls whose workers exit only with drained
heaps. -/
theorem timers_survive (actions : List (HeapAction τ)) (h : ExitsDrained actions new) :
    (run actions).Survives := by
  intro hidle t ht
  have hnew : (new : TimerHeaps τ).Invariant := ⟨fun _ _ => rfl, fun _ => rfl, .inr nofun⟩
  have hmain : (run actions).runs .main = true := by simp [runs, hidle]
  exact (invariant_foldl actions new hnew h).main hmain ht

/-- A timer that a task of `run` creates and that fires before the run ends, one of the main thread
after it. -/
theorem timers_survive_drained :
    (run [.run 1, .register (.worker 0) 5 false, .timedOut (.worker 0), .complete 0, .exit 0, .finish,
      .register .main 9 true]).Survives := by
  apply timers_survive
  simp [ExitsDrained, step, new, runs, handOver, timers]

/-- A timer of the main thread is lost in a `run` that ends before its deadline. -/
theorem timer_lost :
    ¬ (run [.register .main 5 (), .run 1, .complete 0, .exit 0, .finish]).Survives := by
  simp [Survives, run, step, new, runs, handOver, timers]

end TimerHeaps
end Garnet.Async
