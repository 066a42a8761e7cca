import Mathlib.Algebra.Order.Ring.Int

/-! How a call of fallible, stateful code ends, and the rules by which proofs run
such code forward. `EStateM` keeps the state reached when a call fails. -/

namespace Garnet
open List

/-- A call that returns no value. `error` is an `Err` of the source, `panic` an unwinding or
aborting end, `diverge` a loop that has not ended within the bound given to it. -/
inductive Fault where
  | error (message : String)
  | panic
  | diverge
  deriving Repr, DecidableEq

/-- The call ended in an `Err`, not in a panic and not in an endless loop. -/
def Fault.IsError : Fault → Prop
  | .error _ => True
  | _ => False

def Fault.message : Fault → String
  | .error msg => msg
  | _ => ""

/-- `Result::unwrap` and `Result::expect`: an `Err` becomes a panic. -/
def unwrap {α : Type} : Except Fault α → Except Fault α
  | .error (.error _) => .error .panic
  | r => r

/-- `unwrap` of a call that also changes the state. -/
def unwrapS {σ α : Type} (x : EStateM Fault σ α) : EStateM Fault σ α := fun s =>
  match x s with
  | .error (.error _) s' => .error .panic s'
  | r => r

/-- A call that only reads the part `get s` of the state. -/
def reading {σ ρ α : Type} (get : σ → ρ) (f : ρ → Except Fault α) : EStateM Fault σ α := fun s =>
  match f (get s) with
  | .ok a => .ok a s
  | .error e => .error e s

/-- A call that replaces the part of the state that `set` writes. -/
def writing {σ ρ : Type} (get : σ → ρ) (set : ρ → σ → σ) (f : ρ → Except Fault ρ) :
    EStateM Fault σ Unit := fun s =>
  match f (get s) with
  | .ok r => .ok () (set r s)
  | .error e => .error e s

/-- Whether a call returned, with a value and a state that pass the test. -/
def returned {ε σ α : Type} (test : α → σ → Bool) : EStateM.Result ε σ α → Bool
  | .ok a s => test a s
  | .error _ _ => false

section Rules
variable {ε σ ρ α β : Type} {x : EStateM ε σ α} {s s' : σ} {a : α}

theorem ok_of_returned {test : α → σ → Bool} {r : EStateM.Result ε σ α}
    (h : returned test r = true) : ∃ a s, r = .ok a s ∧ test a s = true := by
  cases r with
  | ok a s => exact ⟨a, s, rfl, h⟩
  | error e s => cases h

theorem bind_ok (h : x s = .ok a s') (f : α → EStateM ε σ β) : (x >>= f) s = f a s' := by
  simp only [bind, EStateM.bind, h]

theorem bind_error {e : ε} (h : x s = .error e s') (f : α → EStateM ε σ β) :
    (x >>= f) s = .error e s' := by
  simp only [bind, EStateM.bind, h]

theorem reading_bind (get : σ → ρ) (f : ρ → Except Fault α) (g : α → EStateM Fault σ β) (s : σ) :
    (reading get f >>= g) s = match f (get s) with
      | .ok a => g a s
      | .error e => .error e s := by
  simp only [bind, EStateM.bind, reading]
  cases f (get s) <;> rfl

theorem writing_bind (get : σ → ρ) (set : ρ → σ → σ) (f : ρ → Except Fault ρ)
    (g : Unit → EStateM Fault σ β) (s : σ) :
    (writing get set f >>= g) s = match f (get s) with
      | .ok r => g () (set r s)
      | .error e => .error e s := by
  simp only [bind, EStateM.bind, writing]
  cases f (get s) <;> rfl

@[simp] theorem unwrap_ok (a : α) : unwrap (.ok a) = .ok a := rfl

theorem unwrapS_ok {x : EStateM Fault σ α} (h : x s = .ok a s') : unwrapS x s = .ok a s' := by
  simp only [unwrapS, h]

@[simp] theorem ok_bind (a : α) (f : α → Except ε β) : (Except.ok a >>= f) = f a := rfl

@[simp] theorem error_bind (e : ε) (f : α → Except ε β) :
    ((Except.error e : Except ε α) >>= f) = .error e := rfl

@[simp] theorem except_pure (a : α) : (pure a : Except ε α) = .ok a := rfl

variable {f : α → Except ε β}

theorem ok_of_bind {x : Except ε α} {y : β} (h : (x >>= f) = .ok y) :
    ∃ a, x = .ok a ∧ f a = .ok y := by
  cases x with
  | ok a => exact ⟨a, rfl, h⟩
  | error e => cases h

section
variable {c : Prop} [Decidable c] {e : ε} {x : Except ε α}

theorem ok_of_check (h : (if c then .error e else x) = .ok a) : ¬ c ∧ x = .ok a := by
  split at h
  · exact nomatch h
  · exact ⟨‹¬ c›, h⟩

theorem ok_of_guard (h : (if c then x else .error e) = .ok a) : c ∧ x = .ok a := by
  split at h
  · exact ⟨‹c›, h⟩
  · exact nomatch h

end

theorem ok_of_toOption {x : Except ε α} {y : α} (hx : x.toOption = some y) : x = .ok y := by
  cases x with
  | ok z =>
    cases hx
    rfl
  | error e => cases hx

theorem mapM_ok {g : α → β} {l : List α} (h : ∀ x ∈ l, f x = .ok (g x)) :
    l.mapM f = .ok (l.map g) := by
  induction l with
  | nil => rfl
  | cons x l ih =>
    rw [mapM_cons, h x mem_cons_self, ih fun y hy => h y (mem_cons_of_mem x hy)]
    rfl

end Rules

section Keeps
variable {ε σ α β : Type} {I : σ → Prop}

/-- Every successful run of `x` from a state with `I` ends in a state with `I`. -/
def Keeps (I : σ → Prop) (x : EStateM ε σ α) : Prop := ∀ s a s', I s → x s = .ok a s' → I s'

theorem Keeps.pure (a : α) : Keeps I (pure a : EStateM ε σ α) := by
  intro s b s' hs h
  cases h
  exact hs

theorem Keeps.throw (e : ε) : Keeps I (throw e : EStateM ε σ α) := by
  intro s b s' hs h
  cases h

theorem Keeps.bind {x : EStateM ε σ α} {f : α → EStateM ε σ β} (hx : Keeps I x)
    (hf : ∀ a, Keeps I (f a)) : Keeps I (x >>= f) := by
  intro s b s' hs h
  simp only [Bind.bind, EStateM.bind] at h
  split at h
  next a s₁ hx₁ => exact hf a s₁ b s' (hx s a s₁ hs hx₁) h
  next => cases h

end Keeps

/-! How a call ends, without its value: what is left of a call whose control flow its data
decides. -/

/-- A call returns, fails with an `Err`, or crashes: it panics or never ends. -/
inductive Ending where
  | returns | refuses | crashes
  deriving Repr, DecidableEq

namespace Ending

def andThen : Ending → Ending → Ending
  | returns, e => e
  | e, _ => e

@[simp] theorem returns_andThen (e : Ending) : returns.andThen e = e := rfl

theorem andThen_returns (e : Ending) : e.andThen returns = e := by
  cases e <;> rfl

def all : List Ending → Ending := List.foldr andThen returns

theorem all_crashes_iff (es : List Ending) :
    all es = crashes ↔ ∃ front rest, es = front ++ crashes :: rest ∧ ∀ e ∈ front, e = returns := by
  induction es with
  | nil => simp [all]
  | cons e es ih =>
    have hall : all (e :: es) = e.andThen (all es) := rfl
    constructor
    · intro h
      cases e with
      | returns =>
        obtain ⟨front, rest, rfl, hf⟩ := ih.mp h
        exact ⟨returns :: front, rest, rfl, by simpa using hf⟩
      | refuses => cases h
      | crashes => exact ⟨[], es, rfl, by simp⟩
    · rintro ⟨front, rest, he, hf⟩
      cases front with
      | nil =>
        obtain ⟨rfl, -⟩ := List.cons.inj he
        rfl
      | cons f front =>
        obtain ⟨rfl, rfl⟩ := List.cons.inj he
        obtain rfl := hf e mem_cons_self
        exact ih.mpr ⟨front, rest, rfl, fun x hx => hf x (mem_cons_of_mem _ hx)⟩

end Ending

section Endings
variable {α β : Type}

def ending : Except Fault α → Ending
  | .ok _ => .returns
  | .error (.error _) => .refuses
  | .error _ => .crashes

@[simp] theorem ending_ok (a : α) : ending (.ok a) = .returns := rfl
@[simp] theorem ending_err (msg : String) : ending (.error (.error msg) : Except Fault α) =
    .refuses := rfl
@[simp] theorem ending_panic : ending (.error .panic : Except Fault α) = .crashes := rfl

variable {x : Except Fault α}

theorem ending_ne_crashes_iff : ending x ≠ .crashes ↔ ∀ e, x = .error e → e.IsError := by
  cases x with
  | ok a => simp
  | error e => cases e <;> simp [ending, Fault.IsError]

theorem ending_bind {f : α → Except Fault β} {e : Ending} (h : ∀ a, x = .ok a → ending (f a) = e) :
    ending (x >>= f) = (ending x).andThen e := by
  cases x with
  | ok a => exact h a rfl
  | error err => cases err <;> rfl

theorem ending_foldlM {σ : Type} {step : σ → α → Except Fault σ} {e : α → Ending}
    (h : ∀ s a, ending (step s a) = e a) (xs : List α) (s : σ) :
    ending (xs.foldlM step s) = .all (xs.map e) := by
  induction xs generalizing s with
  | nil => rfl
  | cons a xs ih =>
    rw [foldlM_cons, ending_bind fun s' _ => ih s', h]
    rfl

end Endings

end Garnet
