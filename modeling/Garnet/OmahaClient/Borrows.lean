import Garnet.OmahaClient.Service

/-! The state machine is borrowed while a task awaits, so another task that wants it then panics. It
does not happen when checks are asked for, and the timer ends, only while nothing else is under
way. -/

namespace Garnet.OmahaClient

variable (s : Service)

namespace Service

/-- The server shows the state of the machine from the moment that it has set the callback. -/
def Shown : Prop := s.managerState = if s.hasCallback then onStateChange s.state else .idle

def Rested : Prop := s.state = .idle ∨ s.state = .waitingForReboot

/-- A part of an update check has led from `s` to `s'`. -/
structure Follows (s s' : Service) : Prop where
  loop : s'.loop = s.loop
  checks : s'.checks = s.checks
  machine : s'.machineBorrowed = s.machineBorrowed
  server : s'.serverBorrowed = s.serverBorrowed
  callback : s'.hasCallback = s.hasCallback
  shown : s.Shown → s'.Shown

theorem Follows.refl : s.Follows s := ⟨rfl, rfl, rfl, rfl, rfl, id⟩

theorem Follows.trans {s t u : Service} (h1 : s.Follows t) (h2 : t.Follows u) : s.Follows u :=
  ⟨h2.loop.trans h1.loop, h2.checks.trans h1.checks, h2.machine.trans h1.machine,
    h2.server.trans h1.server, h2.callback.trans h1.callback, h2.shown ∘ h1.shown⟩

variable {s : Service}

theorem setState_ok (hs : s.serverBorrowed = false) (state : State) :
    ∃ s', s.setState state = .ok s' ∧ s.Follows s' ∧ s'.state = state := by
  obtain ⟨_, _, callback, _, _, _, _, _⟩ := s
  cases hs
  cases callback with
  | false => exact ⟨_, rfl, ⟨rfl, rfl, rfl, rfl, rfl, id⟩, rfl⟩
  | true => exact ⟨_, rfl, ⟨rfl, rfl, rfl, rfl, rfl, fun _ => rfl⟩, rfl⟩

theorem setStates_ok (states : List State) (hs : s.serverBorrowed = false) :
    ∃ s', states.foldlM (fun s state => s.setState state) s = .ok s' ∧ s.Follows s' := by
  induction states generalizing s with
  | nil => exact ⟨s, rfl, .refl s⟩
  | cons state states ih =>
    obtain ⟨t, ht, hfirst, -⟩ := setState_ok hs state
    obtain ⟨u, hu, hrest⟩ := ih (hfirst.server.trans hs)
    refine ⟨u, ?_, hfirst.trans hrest⟩
    rw [List.foldlM_cons, ht]
    exact hu

/-- A part of an update check never panics, and it leaves a settled state when it is the last. -/
theorem startUpdateCheck_ok (hs : s.serverBorrowed = false) (r : Reply) (point : Await) :
    ∃ s' next, s.startUpdateCheck r point = .ok (s', next) ∧ s.Follows s' ∧
    (next = none → s'.Rested) := by
  obtain ⟨t, ht, hfollows⟩ := setStates_ok (performUpdateCheck r point).1 hs
  unfold startUpdateCheck
  dsimp only
  rw [ht, ok_bind]
  cases (performUpdateCheck r point).2 with
  | inl point => exact ⟨t, some point, rfl, hfollows, nofun⟩
  | inr ok =>
    dsimp only
    by_cases hreboot : t.state = .waitingForReboot
    · rw [if_neg (not_not.mpr hreboot)]
      exact ⟨_, none, rfl, hfollows.trans ⟨rfl, rfl, rfl, rfl, rfl, id⟩, fun _ => .inr hreboot⟩
    · rw [if_pos hreboot]
      obtain ⟨u, hu, hidle, hstate⟩ := @setState_ok { t with consecutiveFailedUpdateChecks :=
        if ok then 0 else t.consecutiveFailedUpdateChecks + 1 } (hfollows.server.trans hs) .idle
      rw [hu]
      refine ⟨u, none, rfl, (hfollows.trans ?_).trans hidle, fun _ => .inl hstate⟩
      exact ⟨rfl, rfl, rfl, rfl, rfl, id⟩

end Service

/-- The tasks that there are, and whether one of them has borrowed the machine. -/
inductive Shape : Loop → List Check → Bool → Prop where
  | top : Shape .top [] false
  | computing : Shape .computing [] true
  | waiting : Shape .waiting [] false
  | spawned : Shape .waiting [.spawned] false
  | check (point : Await) : Shape .waiting [.checking point] true
  | checking (point : Await) : Shape (.checking point) [] true

structure Inv : Prop where
  server : s.serverBorrowed = false
  shown : s.Shown
  early : s.hasCallback = false → s.checks = []
  shape : Shape s.loop s.checks s.machineBorrowed
  rested : s.checksInProgress = 0 → s.Rested

/-- The server starts, `CheckNow` starts a check and the timer ends only while no check is under
way. -/
def Spaced : Event → Prop
  | .setup => (s.loop = .top ∨ s.loop = .waiting) ∧ s.state = .idle
  | .loop _ => s.loop = .waiting → s.checks = []
  | .request (.checkNow (some _) false) => s.managerState = .idle → s.loop = .waiting ∧ s.checks = []
  | _ => True

namespace Inv
open Service
variable {s : Service}

theorem pollLoop (I : Inv s) (r : Reply) (hspaced : s.loop = .waiting → s.checks = []) :
    ∃ s', s.pollLoop r = .ok s' ∧ Inv s' := by
  have hcheck := fun point => startUpdateCheck_ok I.server r point
  obtain ⟨hserver, hshown, hearly, hshape, hrested⟩ := I
  obtain ⟨state, managerState, callback, failed, machine, server, loop, checks⟩ := s
  cases hserver
  cases hshape with
  | top => exact ⟨_, rfl, rfl, hshown, hearly, .computing, hrested⟩
  | computing =>
    obtain ⟨future, _, _, _, _⟩ := r
    cases future with
    | true => exact ⟨_, rfl, rfl, hshown, hearly, .waiting, hrested⟩
    | false => exact ⟨_, rfl, rfl, hshown, hearly, .checking .checkAllowed, nofun⟩
  | waiting => exact ⟨_, rfl, rfl, hshown, hearly, .checking .checkAllowed, nofun⟩
  | spawned | check point => cases hspaced rfl
  | checking point =>
    obtain ⟨t, next, hrun, hf, hdone⟩ := hcheck point
    obtain ⟨state', managerState', callback', failed', machine', server', loop', checks'⟩ := t
    obtain ⟨⟨⟩, ⟨⟩, ⟨⟩, ⟨⟩, ⟨⟩, hshown'⟩ := hf
    simp only [Service.pollLoop, hrun, ok_bind]
    cases next with
    | some point => exact ⟨_, rfl, rfl, hshown' hshown, hearly, .checking point, nofun⟩
    | none => exact ⟨_, rfl, rfl, hshown' hshown, hearly, .computing, fun _ => hdone rfl⟩

theorem pollCheck (I : Inv s) {i : Nat} (hi : i < s.checks.length) (r : Reply) :
    ∃ s', s.pollCheck i r = .ok s' ∧ Inv s' := by
  have hcheck := fun point => startUpdateCheck_ok I.server r point
  obtain ⟨hserver, hshown, hearly, hshape, hrested⟩ := I
  obtain ⟨state, managerState, callback, failed, machine, server, loop, checks⟩ := s
  cases hserver
  have hcallback : callback = true := by
    cases callback with
    | true => rfl
    | false =>
      cases hearly rfl
      exact absurd hi (Nat.not_lt_zero i)
  subst hcallback
  cases hshape with
  | spawned =>
    obtain rfl := Nat.lt_one_iff.mp hi
    exact ⟨_, rfl, rfl, hshown, nofun, .check .checkAllowed, nofun⟩
  | check point =>
    obtain rfl := Nat.lt_one_iff.mp hi
    obtain ⟨t, next, hrun, hf, hdone⟩ := hcheck point
    obtain ⟨state', managerState', callback', failed', machine', server', loop', checks'⟩ := t
    obtain ⟨⟨⟩, ⟨⟩, ⟨⟩, ⟨⟩, ⟨⟩, hshown'⟩ := hf
    simp only [Service.pollCheck, List.getElem?_cons_zero, hrun, ok_bind]
    cases next with
    | some point => exact ⟨_, rfl, rfl, hshown' hshown, nofun, .check point, nofun⟩
    | none => exact ⟨_, rfl, rfl, hshown' hshown, nofun, .waiting, fun _ => hdone rfl⟩
  | _ => exact absurd hi (Nat.not_lt_zero i)

theorem setup (I : Inv s) (hoff : s.hasCallback = false)
    (hspaced : (s.loop = .top ∨ s.loop = .waiting) ∧ s.state = .idle) :
    ∃ s', s.setupStateCallback = .ok s' ∧ Inv s' := by
  obtain ⟨hserver, hshown, hearly, hshape, hrested⟩ := I
  obtain ⟨state, managerState, callback, failed, machine, server, loop, checks⟩ := s
  cases hserver
  cases hoff
  cases hearly rfl
  obtain ⟨hloop, rfl⟩ := hspaced
  cases hshape with
  | top => exact ⟨_, rfl, rfl, hshown, nofun, .top, hrested⟩
  | waiting => exact ⟨_, rfl, rfl, hshown, nofun, .waiting, hrested⟩
  | _ => rcases hloop with hloop | hloop <;> cases hloop

theorem onStateChange_idle {state : State} : onStateChange state = .idle ↔ state = .idle := by
  cases state <;> decide

/-- No request panics, and `CheckNow` finds the server idle exactly if nothing is under way. -/
theorem request (I : Inv s) (hon : s.hasCallback = true) (q : ManagerRequest)
    (hspaced : Spaced s (.request q)) :
    ∃ s' response, s.handleManagerRequest q = .ok (s', response) ∧ Inv s' ∧
      ∀ initiator fails, q = .checkNow initiator fails → response ≠ none →
        (response = some .inProgress ↔ s.Engaged) := by
  obtain ⟨hserver, hshown, hearly, hshape, hrested⟩ := I
  obtain ⟨state, managerState, callback, failed, machine, server, loop, checks⟩ := s
  cases hserver
  cases hon
  obtain rfl : managerState = onStateChange state := hshown
  cases q with
  | getState | addMonitor fails => exact ⟨_, _, rfl, ⟨rfl, rfl, nofun, hshape, hrested⟩, nofun⟩
  | checkNow initiator fails =>
    cases fails with
    | true =>
      exact ⟨_, _, rfl, ⟨rfl, rfl, nofun, hshape, hrested⟩, fun _ _ _ hnone => absurd rfl hnone⟩
    | false =>
      by_cases hidle : state = .idle
      · subst hidle
        cases initiator with
        | none =>
          exact ⟨_, _, rfl, ⟨rfl, rfl, nofun, hshape, hrested⟩, fun _ _ _ hnone => absurd rfl hnone⟩
        | some initiator =>
          obtain ⟨hloop, hchecks⟩ := hspaced rfl
          cases hchecks
          cases hshape with
          | waiting =>
            refine ⟨_, _, rfl, ⟨rfl, rfl, nofun, .spawned, hrested⟩,
              fun _ _ _ _ => iff_of_false nofun ?_⟩
            rintro (hbusy | hpending | hreboot)
            · exact Nat.lt_irrefl 0 hbusy
            · cases hpending
            · cases hreboot
          | _ => cases hloop
      · generalize hs : Service.mk state (onStateChange state) true failed machine false loop checks =
          s at hrested ⊢
        have hrun : s.handleManagerRequest (.checkNow initiator false) =
            .ok (s, some .inProgress) := by
          rw [← hs]
          exact if_neg (mt onStateChange_idle.mp hidle)
        refine ⟨s, some .inProgress, hrun, ?_, fun _ _ _ _ => iff_of_true rfl ?_⟩
        · subst hs
          exact ⟨rfl, rfl, nofun, hshape, hrested⟩
        · rcases Nat.eq_zero_or_pos s.checksInProgress with hnone | hsome
          · subst hs
            exact .inr (.inr ((hrested hnone).resolve_left hidle))
          · exact .inl hsome

theorem checksInProgress_le (I : Inv s) : s.checksInProgress ≤ 1 := by
  obtain ⟨-, -, -, hshape, -⟩ := I
  obtain ⟨_, _, _, _, _, _, _, _⟩ := s
  cases hshape <;> simp [checksInProgress]

/-- A step that is spaced does not panic. -/
theorem step (I : Inv s) {e : Event} (henabled : e.Enabled s) (hspaced : Spaced s e) :
    ∃ s' response, e.exec s = .ok (s', response) ∧ Inv s' ∧ ∀ initiator fails,
      e = .request (.checkNow initiator fails) → response ≠ none →
        (response = some .inProgress ↔ s.Engaged) := by
  have hquiet : ∀ {x : Except Fault Service}, (∃ s', x = .ok s' ∧ Inv s') →
      ∃ s' response, (·, none) <$> x = .ok (s', response) ∧ Inv s' ∧
        (response : Option Response) = none := by
    rintro x ⟨s', rfl, hs'⟩
    exact ⟨s', none, rfl, hs', rfl⟩
  cases e with
  | setup =>
    obtain ⟨s', response, hrun, hs', -⟩ := hquiet (I.setup henabled hspaced)
    exact ⟨s', response, hrun, hs', nofun⟩
  | loop r =>
    obtain ⟨s', response, hrun, hs', -⟩ := hquiet (I.pollLoop r hspaced)
    exact ⟨s', response, hrun, hs', nofun⟩
  | check i r =>
    obtain ⟨s', response, hrun, hs', -⟩ := hquiet (I.pollCheck henabled r)
    exact ⟨s', response, hrun, hs', nofun⟩
  | request q =>
    obtain ⟨s', response, hrun, hs', hanswer⟩ := I.request henabled q hspaced
    exact ⟨s', response, hrun, hs',
      fun initiator fails he => hanswer initiator fails (Event.request.inj he)⟩

end Inv

theorem Run.inv {s : Service} (hr : Run Spaced s) : Inv s := by
  induction hr with
  | start => exact ⟨rfl, rfl, fun _ => rfl, .top, fun _ => .inl rfl⟩
  | step _ henabled hspaced hrun ih =>
    obtain ⟨s', response, hrun', hinv, -⟩ := ih.step henabled hspaced
    cases hrun'.symm.trans hrun
    exact hinv

/-- In a spaced run no `RefCell` is borrowed twice, there is one check at a time, and `CheckNow`
answers that one is in progress exactly if one is in progress or pending or a reboot is awaited. -/
theorem spaced_requests_safe {s : Service} (hr : Run Spaced s) : s.checksInProgress ≤ 1 ∧
    ∀ e : Event, e.Enabled s → Spaced s e → ∃ s' response, e.exec s = .ok (s', response) ∧
      ∀ initiator fails, e = .request (.checkNow initiator fails) → response ≠ none →
        (response = some .inProgress ↔ s.Engaged) := by
  refine ⟨hr.inv.checksInProgress_le, fun e henabled hspaced => ?_⟩
  obtain ⟨s', response, hrun, -, hanswer⟩ := hr.inv.step henabled hspaced
  exact ⟨s', response, hrun, hanswer⟩

def execs (es : List Event) : Except Fault (Service × Option Response) :=
  es.foldlM (fun s e => e.exec s.1) (s, none)

/-- A check is started while the loop waits for its timer. -/
theorem spaced_check_now : ∃ s, Run Spaced s ∧ s.loop = .waiting ∧ ∃ s' response,
    (Event.request (.checkNow (some .user) false)).exec s = .ok (s', response) ∧
      response = some .started := by
  have h1 : Run Spaced _ := .step (e := .loop {}) .start trivial nofun rfl
  have h2 : Run Spaced _ := .step (e := .loop {}) h1 trivial nofun rfl
  have h3 : Run Spaced _ := .step (e := .setup) h2 rfl ⟨.inr rfl, rfl⟩ rfl
  obtain ⟨s', response, hrun, hanswer⟩ :=
    (spaced_requests_safe h3).2 (.request (.checkNow (some .user) false)) rfl
    fun _ => ⟨rfl, rfl⟩
  cases hrun
  exact ⟨_, h3, rfl, _, _, rfl, rfl⟩

/-- Two calls of `CheckNow` in a row are both told that a check has started, and the second check
panics. -/
theorem second_check_panics :
    ∃ s s', execs .new [.loop {}, .loop {}, .setup, .request (.checkNow (some .user) false)] =
      .ok (s, some .started) ∧ s.Engaged ∧
    execs s [.request (.checkNow (some .user) false)] = .ok (s', some .started) ∧
    execs s' [.check 0 {}, .check 1 {}] = .error .panic :=
  ⟨_, _, rfl, .inr (.inl (by decide)), rfl, rfl⟩

end Garnet.OmahaClient
