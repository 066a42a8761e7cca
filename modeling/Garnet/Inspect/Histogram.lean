import Garnet.Lib.Machine
import Mathlib.Algebra.Order.BigOperators.Group.Finset
import Mathlib.Tactic.Ring

/-! Which slot of a histogram a value belongs to. -/

namespace Garnet.Inspect

abbrev linearHistogramExtraSlots : Nat := 4
abbrev exponentialHistogramExtraSlots : Nat := 5

/-- The loop of both `get_index`. `left` is the number of slots from `index` to the last one;
`grow` is what is done to the step in each round. -/
def searchSlot (t : IntType) (b : Build) (grow : Int → Except Fault Int) (value : Int) :
    Nat → Int → Int → Nat → Except Fault Nat
  | 0, _, _, index => .ok index
  | left + 1, currentFloor, currentStep, index =>
    if currentFloor ≤ value then do
      let currentFloor ← t.fit b (currentFloor + currentStep)
      let currentStep ← grow currentStep
      searchSlot t b grow value left currentFloor currentStep (index + 1)
    else .ok index

/-- `get_index` of a linear histogram with `slots` slots. -/
def linearGetIndex (t : IntType) (b : Build) (floor stepSize : Int) (slots : Nat) (value : Int) :
    Except Fault Nat :=
  let index := linearHistogramExtraSlots - 2
  searchSlot t b (fun step => .ok step) value (slots - 1 - index) floor stepSize index

/-- `get_index` of an exponential histogram. -/
def exponentialGetIndex (t : IntType) (b : Build) (floor initialStep stepMultiplier : Int)
    (slots : Nat) (value : Int) : Except Fault Nat :=
  let index := exponentialHistogramExtraSlots - 2
  searchSlot t b (fun step => t.fit b (step * stepMultiplier)) value (slots - 1 - index) floor
    initialStep index

/-- The slot of a value among `n` buckets with the given lower bounds: `underflow`, the bucket, or
the slot behind the buckets. -/
def IsSlot (underflow n : Nat) (bound : Nat → Int) (value : Int) (slot : Nat) : Prop :=
  (value < bound 0 → slot = underflow) ∧
  (∀ i < n, bound i ≤ value → value < bound (i + 1) → slot = underflow + 1 + i) ∧
  (bound n ≤ value → slot = underflow + 1 + n)

section Search
variable {t : IntType} {b : Build} {grow : Int → Except Fault Int} {value : Int} {n underflow : Nat}
variable {bound step : Nat → Int}

theorem searchSlot_ok (hbound : ∀ k, bound (k + 1) = bound k + step k) {left k : Nat}
    (hk : k + left = n + 1) (hfit : ∀ j, k ≤ j → j ≤ n → bound j ≤ value →
      t.InRange (bound (j + 1)) ∧ grow (step j) = .ok (step (j + 1))) :
    ∃ j, k ≤ j ∧ j ≤ n + 1 ∧
      searchSlot t b grow value left (bound k) (step k) (underflow + k) = .ok (underflow + j) ∧
      (∀ i, k ≤ i → i < j → bound i ≤ value) ∧ (j ≤ n → value < bound j) := by
  induction left generalizing k with
  | zero =>
    refine ⟨k, le_refl k, by omega, rfl, fun i hi hlt => ?_, fun hle => ?_⟩
    · omega
    · omega
  | succ left ih =>
    by_cases hreached : bound k ≤ value
    · obtain ⟨hrange, hgrow⟩ := hfit k (le_refl k) (by omega) hreached
      obtain ⟨j, hkj, hjn, hrun, hbelow, habove⟩ := @ih (k + 1) (by omega)
        (fun j hj hjn hval => hfit j (by omega) hjn hval)
      refine ⟨j, by omega, hjn, ?_, fun i hi hlt => ?_, habove⟩
      · rw [searchSlot, if_pos hreached, ← hbound k, IntType.fit_ok hrange, ok_bind, hgrow,
          ok_bind]
        exact hrun
      · rcases Nat.eq_or_lt_of_le hi with rfl | hlt'
        · exact hreached
        · exact hbelow i hlt' hlt
    · refine ⟨k, le_refl k, by omega, ?_, fun i hi hlt => ?_, fun _ => ?_⟩
      · rw [searchSlot, if_neg hreached]
      · omega
      · exact Int.lt_of_not_ge hreached

theorem isSlot_of_first {j : Nat} (hmono : ∀ i k, i ≤ k → bound i ≤ bound k) (hjn : j ≤ n + 1)
    (hbelow : ∀ i < j, bound i ≤ value) (habove : j ≤ n → value < bound j) :
    IsSlot underflow n bound value (underflow + j) := by
  refine ⟨fun hlt => ?_, fun i hi hle hlt => ?_, fun hle => ?_⟩
  · have hzero : ¬ 0 < j := fun hpos => absurd (hbelow 0 hpos) (Int.not_le.mpr hlt)
    omega
  · have hij : i < j := by
      by_contra hji
      have hlow := hmono j i (by omega)
      have hj := habove (by omega)
      omega
    have hji : ¬ i + 1 < j := fun hlt' => by
      have hup := hbelow (i + 1) hlt'
      omega
    omega
  · have hjgt : ¬ j ≤ n := fun hle' => by
      have hup := habove hle'
      have hlow := hmono j n hle'
      omega
    omega

theorem searchSlot_debug_fit (hbound : ∀ k, bound (k + 1) = bound k + step k)
    (hmono : ∀ i k, i ≤ k → bound i ≤ bound k)
    (hgrow : ∀ k s, grow (step k) = .ok s → s = step (k + 1)) {left k slot : Nat}
    (hk : k + left = n + 1)
    (hrun : searchSlot t .debug grow value left (bound k) (step k) (underflow + k) = .ok slot) :
    ∀ j, k ≤ j → j ≤ n → bound j ≤ value →
      t.InRange (bound (j + 1)) ∧ grow (step j) = .ok (step (j + 1)) := by
  induction left generalizing k with
  | zero =>
    intro j hj hjn
    omega
  | succ left ih =>
    intro j hj hjn hval
    have hreached : bound k ≤ value := Int.le_trans (hmono k j hj) hval
    rw [searchSlot, if_pos hreached, ← hbound k] at hrun
    by_cases hrange : t.InRange (bound (k + 1))
    · rw [IntType.fit_ok hrange, ok_bind] at hrun
      obtain ⟨s, hg, hrun⟩ := ok_of_bind hrun
      obtain rfl := hgrow k s hg
      rcases Nat.eq_or_lt_of_le hj with rfl | hlt
      · exact ⟨hrange, hg⟩
      · exact @ih (k + 1) (by omega) hrun j hlt hjn hval
    · rw [IntType.fit_debug_panic hrange] at hrun
      cases hrun

end Search

section Exact

def linearBound (floor stepSize : Int) (i : Nat) : Int := floor + i * stepSize

def exponentialBound (floor initialStep stepMultiplier : Int) (i : Nat) : Int :=
  floor + initialStep * ∑ j ∈ Finset.range i, stepMultiplier ^ j

variable {floor stepSize initialStep stepMultiplier : Int}

theorem linearBound_succ (floor stepSize : Int) (k : Nat) :
    linearBound floor stepSize (k + 1) = linearBound floor stepSize k + stepSize := by
  unfold linearBound
  push_cast
  ring

theorem exponentialBound_succ (floor initialStep stepMultiplier : Int) (k : Nat) :
    exponentialBound floor initialStep stepMultiplier (k + 1) =
      exponentialBound floor initialStep stepMultiplier k + initialStep * stepMultiplier ^ k := by
  unfold exponentialBound
  rw [Finset.sum_range_succ]
  ring

theorem bound_mono {bound step : Nat → Int} (hbound : ∀ k, bound (k + 1) = bound k + step k)
    (hstep : ∀ k, 0 ≤ step k) (i k : Nat) (hik : i ≤ k) : bound i ≤ bound k := by
  induction k, hik using Nat.le_induction with
  | base => exact Int.le_refl _
  | succ k _ ih =>
    have := hstep k
    rw [hbound k]
    omega

/-- Both histograms: the slot is exact in every build if and only if every step that the loop
takes fits the type. -/
theorem searchSlot_exact_iff {t : IntType} {value : Int} {n underflow : Nat}
    {bound step : Nat → Int} {grow : Build → Int → Except Fault Int}
    (hbound : ∀ k, bound (k + 1) = bound k + step k) (hstep : ∀ k, 0 ≤ step k)
    (hfloor : t.InRange (bound 0))
    (hgrow : ∀ b k, step (k + 1) ≤ t.hi → grow b (step k) = .ok (step (k + 1)))
    (hover : ∀ k s, grow .debug (step k) = .ok s → s = step (k + 1) ∧ step (k + 1) ≤ t.hi) :
    (∀ b, ∃ s, searchSlot t b (grow b) value (n + 1) (bound 0) (step 0) underflow = .ok s ∧
        IsSlot underflow n bound value s) ↔
      ∀ k ≤ n, bound k ≤ value → bound (k + 1) ≤ t.hi ∧ step (k + 1) ≤ t.hi := by
  have hmono := bound_mono hbound hstep
  constructor
  · intro hall k hk hval
    obtain ⟨slot, hrun, -⟩ := hall .debug
    obtain ⟨hrange, hg⟩ :=
      @searchSlot_debug_fit t (grow .debug) value n underflow bound step hbound hmono
      (fun k s hs => (hover k s hs).1) (n + 1) 0 slot (Nat.zero_add _) hrun k (Nat.zero_le k) hk hval
    exact ⟨hrange.2, (hover k _ hg).2⟩
  · intro hfits b
    have hlow : ∀ k, t.lo ≤ bound k := fun k => Int.le_trans hfloor.1 (hmono 0 k (Nat.zero_le k))
    obtain ⟨j, -, hjn, hrun, hbelow, habove⟩ :=
      @searchSlot_ok t b (grow b) value n underflow bound step
      hbound (n + 1) 0 (zero_add _)
      (fun j _ hjn hval => ⟨⟨hlow _, (hfits j hjn hval).1⟩, hgrow b j (hfits j hjn hval).2⟩)
    refine ⟨underflow + j, hrun,
      isSlot_of_first hmono hjn (fun i hi => hbelow i (Nat.zero_le i) hi) habove⟩

/-- A value reaches its slot with exact bounds if and only if, for every bucket whose lower bound
it reaches, the upper bound (and the next step of an exponential histogram) fits the type. -/
theorem histogram_slot_exact_iff (t : IntType) (floor value : Int) (hfloor : t.InRange floor)
    (n : Nat) :
    (∀ stepSize : Int, t.InRange stepSize → 0 < stepSize →
      ((∀ b, ∃ s, linearGetIndex t b floor stepSize (n + linearHistogramExtraSlots) value = .ok s ∧
          IsSlot 2 n (linearBound floor stepSize) value s) ↔
        ∀ k ≤ n, linearBound floor stepSize k ≤ value →
          linearBound floor stepSize (k + 1) ≤ t.hi)) ∧
    (∀ initialStep stepMultiplier : Int, 0 < initialStep → 0 ≤ stepMultiplier →
      ((∀ b, ∃ s, exponentialGetIndex t b floor initialStep stepMultiplier
            (n + exponentialHistogramExtraSlots) value = .ok s ∧
          IsSlot 3 n (exponentialBound floor initialStep stepMultiplier) value s) ↔
        ∀ k ≤ n, exponentialBound floor initialStep stepMultiplier k ≤ value →
          exponentialBound floor initialStep stepMultiplier (k + 1) ≤ t.hi ∧
            initialStep * stepMultiplier ^ (k + 1) ≤ t.hi)) := by
  constructor
  · intro stepSize hrange hpos
    have hzero : linearBound floor stepSize 0 = floor := by
      unfold linearBound
      simp
    have hiff := @searchSlot_exact_iff t value n 2 (linearBound floor stepSize) (fun _ => stepSize)
      (fun _ step => .ok step) (linearBound_succ floor stepSize) (fun _ => Int.le_of_lt hpos)
      (by rw [hzero]; exact hfloor) (fun _ _ _ => rfl)
      (fun _ s hs => by
        cases hs
        exact ⟨rfl, hrange.2⟩)
    rw [hzero] at hiff
    have hleft : n + linearHistogramExtraSlots - 1 - (linearHistogramExtraSlots - 2) = n + 1 := rfl
    unfold linearGetIndex
    dsimp only
    rw [hleft]
    refine hiff.trans ⟨fun h k hk hval => (h k hk hval).1, fun h k hk hval => ⟨h k hk hval, hrange.2⟩⟩
  · intro initialStep stepMultiplier hpos hmult
    have hstep : ∀ k : Nat, 0 ≤ initialStep * stepMultiplier ^ k := fun k =>
      Int.mul_nonneg (Int.le_of_lt hpos) (Int.pow_nonneg hmult)
    have hnext : ∀ k : Nat, initialStep * stepMultiplier ^ k * stepMultiplier
        = initialStep * stepMultiplier ^ (k + 1) := fun k => by
      rw [pow_succ, mul_assoc]
    have hzero : exponentialBound floor initialStep stepMultiplier 0 = floor := by
      unfold exponentialBound
      simp
    have hiff := @searchSlot_exact_iff t value n 3 (exponentialBound floor initialStep stepMultiplier)
      (fun k => initialStep * stepMultiplier ^ k) (fun b step => t.fit b (step * stepMultiplier))
      (exponentialBound_succ floor initialStep stepMultiplier) hstep
      (by rw [hzero]; exact hfloor)
      (fun b k hle => by
        rw [hnext k]
        exact IntType.fit_ok ⟨Int.le_trans t.lo_nonpos (hstep (k + 1)), hle⟩)
      (fun k s hs => by
        rw [hnext k] at hs
        by_cases hin : t.InRange (initialStep * stepMultiplier ^ (k + 1))
        · rw [IntType.fit_ok hin] at hs
          cases hs
          exact ⟨rfl, hin.2⟩
        · rw [IntType.fit_debug_panic hin] at hs
          cases hs)
    rw [hzero] at hiff
    have hleft : n + exponentialHistogramExtraSlots - 1 - (exponentialHistogramExtraSlots - 2) =
        n + 1 := rfl
    have hfirst : initialStep * stepMultiplier ^ 0 = initialStep := by
      rw [pow_zero, mul_one]
    unfold exponentialGetIndex
    dsimp only
    rw [hleft]
    rw [hfirst] at hiff
    exact hiff

/-- One bucket from just below the largest number on: a debug build panics, and a release build
puts the value into the overflow slot. -/
theorem linear_bound_overflows :
    linearGetIndex .i64 .debug (2 ^ 63 - 2) 10 (1 + 4) (2 ^ 63 - 1) = .error .panic ∧
      linearGetIndex .i64 .release (2 ^ 63 - 2) 10 (1 + 4) (2 ^ 63 - 1) = .ok 4 ∧
        linearBound (2 ^ 63 - 2) 10 0 ≤ 2 ^ 63 - 1 ∧
          (2 ^ 63 - 1 : Int) < linearBound (2 ^ 63 - 2) 10 1 :=
  ⟨rfl, rfl, by decide, by decide⟩

theorem histogram_slot_exact_sample : (10 : Int) ≤ 25 ∧
    ∀ b, ∃ s, linearGetIndex .i64 b 10 5 (5 + linearHistogramExtraSlots) 25 = .ok s ∧
      IsSlot 2 5 (linearBound 10 5) 25 s := by
  refine ⟨by decide, ?_⟩
  refine (((histogram_slot_exact_iff .i64 10 25 ⟨by decide, by decide⟩ 5).1 5 ⟨by decide, by decide⟩
    (by decide)).mpr ?_)
  decide

end Exact

end Garnet.Inspect
