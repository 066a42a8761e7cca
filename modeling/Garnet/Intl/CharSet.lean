import Garnet.Intl.CharCollection
import Garnet.Lib.Intervals
import Mathlib.Data.Set.Basic

/-! A collection of characters is a canonical list of intervals of places, and its operations are
those of sets. -/

namespace Garnet.Intl
open List
open Intervals
open CharCollection (coalesceLeft coalesceRight findContainingRange replaceRanges sameRange)

section Places
variable {c d : Char}

theorem lt_iff_ord : c < d ↔ ord c < ord d := Char.lt_iff_ordinal_lt

theorem ord_lt (c : Char) : ord c < Char.numCodePoints := c.ordinal.isLt

theorem ord_injective (h : ord c = ord d) : c = d := Char.ordinal_injective (Fin.ext h)

theorem ord_ofOrd {n : Nat} (h : n < Char.numCodePoints) : ord (ofOrd n) = n := by
  rw [ord, ofOrd, Char.ordinal_ofOrdinal, Fin.val_ofNat, Nat.mod_eq_of_lt h]

theorem ord_forward (h : c < d) : ord (forward c) = ord c + 1 := by
  have hlt := lt_iff_ord.mp h
  have hmax := ord_lt d
  exact ord_ofOrd (by omega)

theorem ord_backward (c : Char) : ord (backward c) = ord c - 1 := by
  have hmax := ord_lt c
  exact ord_ofOrd (by omega)

@[simp] theorem ord_charMin : ord charMin = 0 := by decide

@[simp] theorem ord_charMax : ord charMax + 1 = Char.numCodePoints := by decide

end Places

namespace CharRange
variable {r s : CharRange} {c d : Char}

def lo (r : CharRange) : Nat := ord r.low
def hi (r : CharRange) : Nat := ord r.high

theorem ext_places (hlo : r.lo = s.lo) (hhi : r.hi = s.hi) : r = s := by
  obtain ⟨low, high⟩ := r
  obtain ⟨low', high'⟩ := s
  obtain rfl : low = low' := ord_injective hlo
  obtain rfl : high = high' := ord_injective hhi
  rfl

theorem isEmpty_iff : r.isEmpty = true ↔ r.hi < r.lo := by
  rw [isEmpty, decide_eq_true_iff, lt_iff_ord]
  rfl

theorem isEmpty_eq_false : r.isEmpty = false ↔ r.lo ≤ r.hi := by
  rw [← Bool.not_eq_true, isEmpty_iff, not_lt]

theorem beq_iff (hr : r.lo ≤ r.hi) : (r == s) = true ↔ r = s := by
  have hr' := isEmpty_eq_false.mpr hr
  change ((r.isEmpty && s.isEmpty) || (r.low == s.low && r.high == s.high)) = true ↔ r = s
  rw [hr', Bool.false_and, Bool.false_or, Bool.and_eq_true, beq_iff_eq, beq_iff_eq]
  constructor
  · rintro ⟨hlow, hhigh⟩
    exact ext_places (congrArg ord hlow) (congrArg ord hhigh)
  · rintro rfl
    exact ⟨rfl, rfl⟩

theorem openRight_places (h : ord c < ord d) :
    (openRight c d).lo = ord c ∧ (openRight c d).hi = ord d - 1 := by
  rw [openRight, if_pos (lt_iff_ord.mpr h)]
  exact ⟨rfl, ord_backward d⟩

theorem openLeft_places (h : ord c < ord d) :
    (openLeft c d).lo = ord c + 1 ∧ (openLeft c d).hi = ord d := by
  have hlt := lt_iff_ord.mpr h
  rw [openLeft, if_pos hlt]
  exact ⟨ord_forward hlt, rfl⟩

theorem open_places (h : ord c + 1 < ord d) :
    (CharRange.open c d).lo = ord c + 1 ∧ (CharRange.open c d).hi = ord d - 1 := by
  have hlt : c < d := lt_iff_ord.mpr (by omega)
  have hnext : forward c < d := lt_iff_ord.mpr (by rw [ord_forward hlt]; exact h)
  rw [CharRange.open, if_pos ⟨hlt, hnext⟩]
  exact ⟨ord_forward hlt, ord_backward d⟩

theorem empty_isEmpty : empty.isEmpty = true := rfl

theorem cmpChar_cases (hr : r.lo ≤ r.hi) (c : Char) :
    (r.hi < ord c ∧ r.cmpChar c = .ok .lt) ∨ (ord c < r.lo ∧ r.cmpChar c = .ok .gt) ∨
      (r.lo ≤ ord c ∧ ord c ≤ r.hi ∧ r.cmpChar c = .ok .eq) := by
  unfold cmpChar
  rw [isEmpty_eq_false.mpr hr, if_neg Bool.false_ne_true]
  by_cases hlt : r.high < c
  · exact .inl ⟨lt_iff_ord.mp hlt, if_pos hlt⟩
  · rw [if_neg hlt]
    have hle : ord c ≤ r.hi := Nat.not_lt.mp fun h => hlt (lt_iff_ord.mpr h)
    by_cases hgt : c < r.low
    · exact .inr (.inl ⟨lt_iff_ord.mp hgt, if_pos hgt⟩)
    · exact .inr (.inr ⟨Nat.not_lt.mp fun h => hgt (lt_iff_ord.mpr h), hle, if_neg hgt⟩)

end CharRange

theorem areCharsAdjacent_iff {c d : Char} : areCharsAdjacent c d = true ↔ ord c + 1 = ord d := by
  unfold areCharsAdjacent CharRange.nextBack
  by_cases h : ord c < ord d
  · obtain ⟨hlo, hhi⟩ := CharRange.openRight_places h
    have hne : (CharRange.openRight c d).isEmpty = false := CharRange.isEmpty_eq_false.mpr (by omega)
    simp only [hne, Bool.false_eq_true, if_false, beq_iff_eq]
    constructor
    · intro heq
      have hhi' : ord (CharRange.openRight c d).high = ord d - 1 := hhi
      rw [← heq] at hhi'
      omega
    · intro heq
      apply ord_injective
      change ord c = (CharRange.openRight c d).hi
      omega
  · have hempty : CharRange.openRight c d = CharRange.empty := if_neg fun hlt => h (lt_iff_ord.mp hlt)
    rw [hempty, CharRange.empty_isEmpty]
    simp only [if_true, Bool.false_eq_true, false_iff]
    omega

abbrev Canon (rs : List CharRange) : Prop := Canonical CharRange.lo CharRange.hi rs

abbrev Cov (rs : List CharRange) (n : Nat) : Prop := Covers CharRange.lo CharRange.hi rs n

theorem not_cov_nil {n : Nat} : ¬ Cov [] n := not_covers_nil

theorem cov_cons {r : CharRange} {rs : List CharRange} {n : Nat} :
    Cov (r :: rs) n ↔ (r.lo ≤ n ∧ n ≤ r.hi) ∨ Cov rs n :=
  covers_cons

theorem cov_append {rs rs' : List CharRange} {n : Nat} : Cov (rs ++ rs') n ↔ Cov rs n ∨ Cov rs' n :=
  covers_append

section Search
variable {rs pre mid post front tail : List CharRange} {a b q low high : Char}

theorem search_cases (h : Canon rs) (q : Char) (i : Nat) :
    ∃ pre post, rs = pre ++ post ∧ (∀ r ∈ pre, r.hi < ord q) ∧
    ((∃ r post', post = r :: post' ∧ r.lo ≤ ord q ∧ ord q ≤ r.hi ∧
        binarySearchBy (fun range => range.cmpChar q) rs i = .ok (.ok (i + pre.length, r))) ∨
      ((∀ r ∈ post, ord q < r.lo) ∧
        binarySearchBy (fun range => range.cmpChar q) rs i = .ok (.error (i + pre.length)))) := by
  induction rs generalizing i with
  | nil => exact ⟨[], [], rfl, nofun, .inr ⟨nofun, rfl⟩⟩
  | cons r rs ih =>
    obtain ⟨hr, hrs, hbetween⟩ := canonical_cons.mp h
    rcases CharRange.cmpChar_cases hr q with ⟨hlt, hcmp⟩ | ⟨hgt, hcmp⟩ | ⟨hlo, hhi, hcmp⟩
    · obtain ⟨pre, post, hsplit, hpre, hcases⟩ := ih hrs (i + 1)
      have hfront : binarySearchBy (fun range => range.cmpChar q) (r :: rs) i =
          binarySearchBy (fun range => range.cmpChar q) rs (i + 1) := by
        simp only [binarySearchBy, hcmp, ok_bind]
      have hidx : i + 1 + pre.length = i + (r :: pre).length := by
        rw [length_cons]
        omega
      refine ⟨r :: pre, post, by rw [hsplit, cons_append], ?_, ?_⟩
      · exact forall_mem_cons.mpr ⟨hlt, hpre⟩
      · rw [hfront, ← hidx]
        exact hcases
    · refine ⟨[], r :: rs, rfl, nofun, .inr ⟨forall_mem_cons.mpr ⟨hgt, fun s hs => ?_⟩, ?_⟩⟩
      · have hlt := hbetween s hs
        omega
      · simp only [binarySearchBy, hcmp, ok_bind, except_pure, length_nil, Nat.add_zero]
    · refine ⟨[], r :: rs, rfl, nofun, .inl ⟨r, rs, rfl, hlo, hhi, ?_⟩⟩
      simp only [binarySearchBy, hcmp, ok_bind, except_pure, length_nil, Nat.add_zero]

/-- The ranges before and behind the lower end `a` of a range, where `low` is the lower end of the
range that contains it, if there is one. -/
structure LowerPart (low a : Char) (pre post : List CharRange) : Prop where
  le : ord low ≤ ord a
  before : ∀ r ∈ pre, r.hi < ord low
  gap : ord low < ord a → ∀ r ∈ pre, r.hi + 1 < ord low
  behind : ∀ r ∈ post, ord low ≤ r.lo
  covered : ∀ n, ord low ≤ n → n < ord a → Cov post n

/-- The same for the upper end `b`. -/
structure UpperPart (high b : Char) (front tail : List CharRange) : Prop where
  ge : ord b ≤ ord high
  behind : ∀ r ∈ tail, ord high < r.lo
  gap : ord b < ord high → ∀ r ∈ tail, ord high + 1 < r.lo
  before : ∀ r ∈ front, r.hi ≤ ord high
  covered : ∀ n, ord b < n → n ≤ ord high → Cov front n

theorem lower_cases (h : Canon rs) (a : Char) : ∃ res low pre post,
    findContainingRange ⟨rs⟩ a = .ok res ∧ rs = pre ++ post ∧ LowerPart low a pre post ∧
      ((∃ r, res = .ok (pre.length, r) ∧ low = r.low ∧ r ∈ rs ∧ r.lo ≤ ord a ∧ ord a ≤ r.hi) ∨
        (res = .error pre.length ∧ low = a)) := by
  obtain ⟨pre, post, rfl, hpre, ⟨r, post', rfl, hlo, hhi, hfind⟩ | ⟨hpost, hfind⟩⟩ :=
    search_cases h a 0
  · rw [Nat.zero_add] at hfind
    obtain ⟨_, htail, hbetween⟩ := canonical_append.mp h
    obtain ⟨_, _, hbehind⟩ := canonical_cons.mp htail
    refine ⟨_, r.low, pre, r :: post', hfind, rfl, ⟨hlo, ?_, ?_, ?_, ?_⟩,
      .inl ⟨r, rfl, rfl, ?_, hlo, hhi⟩⟩
    · intro s hs
      have hlt := hbetween s hs r mem_cons_self
      exact Nat.lt_of_succ_lt hlt
    · exact fun _ s hs => hbetween s hs r mem_cons_self
    · refine forall_mem_cons.mpr ⟨le_refl _, fun s hs => ?_⟩
      have hlt := hbehind s hs
      have hr := htail.nonempty r mem_cons_self
      change r.lo ≤ s.lo
      omega
    · intro n hn hna
      exact cov_cons.mpr (.inl ⟨hn, by omega⟩)
    · exact mem_append_right _ mem_cons_self
  · rw [Nat.zero_add] at hfind
    refine ⟨_, a, pre, post, hfind, rfl, ⟨le_refl _, hpre, ?_, ?_, ?_⟩, .inr ⟨rfl, rfl⟩⟩
    · exact fun hlt => absurd hlt (lt_irrefl _)
    · exact fun s hs => le_of_lt (hpost s hs)
    · exact fun n hn hna => absurd hna (Nat.not_lt.mpr hn)

theorem upper_cases (h : Canon rs) (b : Char) : ∃ res high front tail,
    findContainingRange ⟨rs⟩ b = .ok res ∧ rs = front ++ tail ∧ UpperPart high b front tail ∧
      ((∃ k r, res = .ok (k, r) ∧ k + 1 = front.length ∧ high = r.high ∧ r ∈ rs ∧ r.lo ≤ ord b ∧
        ord b ≤ r.hi) ∨
        (res = .error front.length ∧ high = b)) := by
  obtain ⟨pre, post, rfl, hpre, ⟨r, post', rfl, hlo, hhi, hfind⟩ | ⟨hpost, hfind⟩⟩ :=
    search_cases h b 0
  · rw [Nat.zero_add] at hfind
    obtain ⟨_, htail, hbetween⟩ := canonical_append.mp h
    obtain ⟨hr, _, hbehind⟩ := canonical_cons.mp htail
    refine ⟨_, r.high, pre ++ [r], post', hfind, by rw [append_assoc]; rfl, ⟨hhi, ?_, ?_, ?_, ?_⟩,
      .inl ⟨pre.length, r, rfl, ?_, rfl, ?_, hlo, hhi⟩⟩
    · exact fun s hs => Nat.lt_of_succ_lt (hbehind s hs)
    · exact fun _ s hs => hbehind s hs
    · refine forall_mem_append.mpr ⟨fun s hs => ?_, forall_mem_singleton.mpr (le_refl _)⟩
      have hlt := hbetween s hs r mem_cons_self
      change s.hi ≤ r.hi
      omega
    · intro n hn hnh
      exact cov_append.mpr (.inr (cov_cons.mpr (.inl ⟨by omega, hnh⟩)))
    · rw [length_append, length_singleton]
    · exact mem_append_right _ mem_cons_self
  · rw [Nat.zero_add] at hfind
    refine ⟨_, b, pre, post, hfind, rfl, ⟨le_refl _, hpost, ?_, ?_, ?_⟩, .inr ⟨rfl, rfl⟩⟩
    · exact fun hlt => absurd hlt (lt_irrefl _)
    · exact fun s hs => le_of_lt (hpre s hs)
    · exact fun n hn hnb => absurd hn (Nat.not_lt.mpr hnb)

theorem middle_cases (h : Canon rs) (hab : ord a ≤ ord b) (hl : LowerPart low a pre post)
    (hrs : rs = pre ++ post) (hu : UpperPart high b front tail) (hrs' : rs = front ++ tail) :
    ∃ mid, front = pre ++ mid ∧ post = mid ++ tail := by
  rcases append_eq_append_iff.mp (hrs.symm.trans hrs') with ⟨mid, hfront, hpost⟩ | ⟨mid, hpre, htail⟩
  · exact ⟨mid, hfront, hpost⟩
  · cases mid with
    | nil => exact ⟨[], by simpa using hpre.symm, by simpa using htail.symm⟩
    | cons r mid =>
      -- a range cannot lie both before the lower and behind the upper end
      have hr := h.nonempty r (by rw [hrs, hpre]; simp)
      have hbefore := hl.before r (by rw [hpre]; simp)
      have hbehind := hu.behind r (by rw [htail]; simp)
      have hle := hl.le
      have hge := hu.ge
      omega

end Search

section Replace
variable {rs pre mid post : List CharRange} {x : CharRange}

theorem coalesceLeft_cases (hpre : Canon pre) (hx : x.lo ≤ x.hi) (hbefore : ∀ r ∈ pre, r.hi < x.lo)
    (rest : List CharRange) :
    ∃ x' pre' gone, pre = pre' ++ gone ∧
      coalesceLeft (pre ++ rest) x pre.length = .ok (x', pre'.length) ∧
      x'.lo ≤ x'.hi ∧ x'.high = x.high ∧ (∀ r ∈ pre', r.hi + 1 < x'.lo) ∧
      ∀ n, Cov pre n ∨ (x.lo ≤ n ∧ n ≤ x.hi) ↔ Cov pre' n ∨ (x'.lo ≤ n ∧ n ≤ x'.hi) := by
  unfold coalesceLeft
  rcases eq_nil_or_concat pre with rfl | ⟨pre', prev, rfl⟩
  · exact ⟨x, [], [], rfl, rfl, hx, rfl, nofun, fun n => Iff.rfl⟩
  · rw [concat_eq_append] at *
    obtain ⟨hpre', hprev, hbetween⟩ := canonical_append.mp hpre
    have hprev := hprev.nonempty prev mem_cons_self
    have hlast := hbefore prev (by simp)
    have hpos : 0 < (pre' ++ [prev]).length := by simp
    have hget : (pre' ++ [prev] ++ rest)[(pre' ++ [prev]).length - 1]? = some prev := by simp
    rw [if_pos hpos, hget]
    by_cases hadj : areCharsAdjacent prev.high x.low = true
    · have htouch : prev.hi + 1 = x.lo := areCharsAdjacent_iff.mp hadj
      refine ⟨⟨prev.low, x.high⟩, pre', [prev], rfl, ?_, ?_, rfl, ?_, ?_⟩
      · simp only [hadj, if_true, length_append, length_singleton, Nat.add_sub_cancel]
      · change prev.lo ≤ x.hi
        omega
      · exact fun r hr => hbetween r hr prev mem_cons_self
      · intro n
        change Cov (pre' ++ [prev]) n ∨ _ ↔ Cov pre' n ∨ (prev.lo ≤ n ∧ n ≤ x.hi)
        rw [cov_append, cov_cons, or_assoc]
        simp only [not_cov_nil, or_false]
        apply or_congr_right
        omega
    · refine ⟨x, pre' ++ [prev], [], by rw [append_nil], ?_, hx, rfl, ?_, fun n => Iff.rfl⟩
      · simp only [hadj, Bool.false_eq_true, if_false]
      · have hapart : prev.hi + 1 ≠ x.lo := fun h => hadj (areCharsAdjacent_iff.mpr h)
        intro r hr
        rcases mem_append.mp hr with hr | hr
        · have hlt := hbetween r hr prev mem_cons_self
          omega
        · rw [mem_singleton.mp hr]
          omega

theorem coalesceRight_cases (hpost : Canon post) (hx : x.lo ≤ x.hi)
    (hbehind : ∀ r ∈ post, x.hi < r.lo) (rest : List CharRange) :
    ∃ x' post' gone, post = gone ++ post' ∧
      coalesceRight (rest ++ post) x rest.length = .ok (x', rest.length + gone.length) ∧
      x'.lo ≤ x'.hi ∧ x'.low = x.low ∧ (∀ r ∈ post', x'.hi + 1 < r.lo) ∧
      ∀ n, (x.lo ≤ n ∧ n ≤ x.hi) ∨ Cov post n ↔ (x'.lo ≤ n ∧ n ≤ x'.hi) ∨ Cov post' n := by
  unfold coalesceRight
  cases post with
  | nil =>
    refine ⟨x, [], [], rfl, ?_, hx, rfl, nofun, fun n => Iff.rfl⟩
    rw [if_neg (by simp)]
    rfl
  | cons next post' =>
    obtain ⟨hnext, _, hbetween⟩ := canonical_cons.mp hpost
    have hfirst := hbehind next mem_cons_self
    have hlt : rest.length < (rest ++ next :: post').length := by simp
    have hget : (rest ++ next :: post')[rest.length]? = some next := by simp
    rw [if_pos hlt, hget]
    by_cases hadj : areCharsAdjacent x.high next.low = true
    · have htouch : x.hi + 1 = next.lo := areCharsAdjacent_iff.mp hadj
      refine ⟨⟨x.low, next.high⟩, post', [next], rfl, ?_, ?_, rfl, hbetween, ?_⟩
      · simp only [hadj, if_true, length_singleton]
      · change x.lo ≤ next.hi
        omega
      · intro n
        change _ ∨ Cov (next :: post') n ↔ (x.lo ≤ n ∧ n ≤ next.hi) ∨ Cov post' n
        rw [cov_cons, ← or_assoc]
        apply or_congr_left
        omega
    · refine ⟨x, next :: post', [], rfl, ?_, hx, rfl, ?_, fun n => Iff.rfl⟩
      · simp only [hadj, Bool.false_eq_true, if_false, length_nil, Nat.add_zero]
      · have hapart : x.hi + 1 ≠ next.lo := fun h => hadj (areCharsAdjacent_iff.mpr h)
        intro r hr
        rcases mem_cons.mp hr with rfl | hr
        · omega
        · have hlt := hbetween r hr
          omega

theorem spliceVec_ok {α : Type} (pre mid post new : List α) :
    spliceVec (pre ++ mid ++ post) pre.length (pre ++ mid).length new =
    .ok (pre ++ new ++ post) := by
  rw [spliceVec, if_pos (by simp), drop_left, append_assoc pre mid, take_left]

theorem replaceRanges_spec (h : Canon (pre ++ mid ++ post)) (hx : x.lo ≤ x.hi)
    (hbefore : ∀ r ∈ pre, r.hi < x.lo) (hbehind : ∀ r ∈ post, x.hi < r.lo) : ∃ rs,
      replaceRanges ⟨pre ++ mid ++ post⟩ x pre.length (pre ++ mid).length = .ok ⟨rs⟩ ∧ Canon rs ∧
      ∀ n, Cov rs n ↔ Cov pre n ∨ (x.lo ≤ n ∧ n ≤ x.hi) ∨ Cov post n := by
  obtain ⟨hfront, hpost, _⟩ := canonical_append.mp h
  obtain ⟨hpre, _, _⟩ := canonical_append.mp hfront
  obtain ⟨x₁, pre', gone, hsplit, hleft, hx₁, hhigh, hbefore', hcov⟩ :=
    coalesceLeft_cases hpre hx hbefore (mid ++ post)
  have hhi : x₁.hi = x.hi := congrArg ord hhigh
  obtain ⟨x₂, post', gone', hsplit', hright, hx₂, hlow, hbehind', hcov'⟩ :=
    coalesceRight_cases hpost hx₁ (fun r hr => by rw [hhi]; exact hbehind r hr) (pre ++ mid)
  have hlo : x₂.lo = x₁.lo := congrArg ord hlow
  refine ⟨pre' ++ [x₂] ++ post', ?_, ?_, ?_⟩
  · have hshape : pre ++ mid ++ post = pre' ++ (gone ++ mid ++ gone') ++ post' := by
      rw [hsplit, hsplit']
      simp only [append_assoc]
    have hstop : (pre ++ mid).length + gone'.length = (pre' ++ (gone ++ mid ++ gone')).length := by
      rw [hsplit]
      simp only [length_append]
      omega
    have hleft' : coalesceLeft (pre ++ mid ++ post) x pre.length = .ok (x₁, pre'.length) := by
      rw [append_assoc]
      exact hleft
    simp only [replaceRanges, hleft', hright, ok_bind, except_pure]
    rw [hshape, hstop, spliceVec_ok]
    rfl
  · rw [append_assoc]
    have hpre' : Canon pre' := by
      rw [hsplit] at hpre
      exact (canonical_append.mp hpre).1
    have hpost' : Canon post' := by
      rw [hsplit'] at hpost
      exact (canonical_append.mp hpost).2.1
    refine canonical_append.mpr ⟨hpre', canonical_cons.mpr ⟨hx₂, hpost', hbehind'⟩, ?_⟩
    intro r hr s hs
    have hlt := hbefore' r hr
    rcases mem_cons.mp hs with rfl | hs
    · omega
    · have hlt' := hbehind' s hs
      omega
  · intro n
    have hleft := hcov n
    have hright := hcov' n
    have hmid : Cov [x₂] n ↔ x₂.lo ≤ n ∧ n ≤ x₂.hi := by
      rw [cov_cons, or_iff_left not_cov_nil]
    rw [cov_append, cov_append, hmid, or_assoc, ← hright, ← or_assoc, ← hleft, or_assoc]

end Replace

section Change
variable {c : CharCollection} {rs pre mid post front tail : List CharRange} {a b low high : Char}

theorem sameRange_cases {i j : Nat} {r s : CharRange} (hr : r.lo ≤ r.hi)
    (h : sameRange (.ok (i, r)) (.ok (j, s)) = true) : r = s := by
  rw [sameRange, Bool.and_eq_true] at h
  exact (CharRange.beq_iff hr).mp h.2

def leftPiece (low a : Char) : List CharRange := if low < a then [CharRange.openRight low a] else []

def rightPiece (b high : Char) : List CharRange :=
  if b < high then [CharRange.openLeft b high] else []

theorem leftPiece_self : leftPiece a a = [] := if_neg fun h => lt_irrefl _ (lt_iff_ord.mp h)

theorem rightPiece_self : rightPiece b b = [] := if_neg fun h => lt_irrefl _ (lt_iff_ord.mp h)

/-- The list is one range, from `m` up to `n`, or empty if there is none. -/
structure IsPiece (m n : Nat) (l : List CharRange) : Prop where
  canonical : Canon l
  mem : ∀ r ∈ l, m < n ∧ r.lo = m ∧ r.hi + 1 = n
  covers : ∀ k, Cov l k ↔ m ≤ k ∧ k < n

theorem isPiece_ite {p : Prop} [Decidable p] {x : CharRange} {m n : Nat} (hp : p ↔ m < n)
    (hx : m < n → x.lo = m ∧ x.hi + 1 = n) : IsPiece m n (if p then [x] else []) := by
  split
  next h =>
    have hlt := hp.mp h
    obtain ⟨hlo, hhi⟩ := hx hlt
    refine ⟨canonical_singleton (by omega), fun r hr => ?_, fun k => ?_⟩
    · rw [mem_singleton.mp hr]
      exact ⟨hlt, hlo, hhi⟩
    · rw [cov_cons, or_iff_left not_cov_nil]
      omega
  next h =>
    rw [hp] at h
    exact ⟨canonical_nil, nofun, fun k => iff_of_false not_cov_nil (by omega)⟩

theorem leftPiece_isPiece : IsPiece (ord low) (ord a) (leftPiece low a) := by
  refine isPiece_ite lt_iff_ord fun h => ?_
  obtain ⟨hlo, hhi⟩ := CharRange.openRight_places h
  omega

theorem rightPiece_isPiece : IsPiece (ord b + 1) (ord high + 1) (rightPiece b high) := by
  refine isPiece_ite (lt_iff_ord.trans Nat.succ_lt_succ_iff.symm) fun h => ?_
  obtain ⟨hlo, hhi⟩ := CharRange.openLeft_places (Nat.lt_of_succ_lt_succ h)
  omega

section Cut
variable (hab : ord a ≤ ord b) (hl : LowerPart low a pre (mid ++ tail))
  (hu : UpperPart high b (pre ++ mid) tail)
include hab hl hu

theorem covered_low (n : Nat) (hn : ord low ≤ n) (hna : n < ord a) : Cov mid n := by
  rcases cov_append.mp (hl.covered n hn hna) with hcov | ⟨r, hr, hlo, _⟩
  · exact hcov
  · have hbehind := hu.behind r hr
    have hge := hu.ge
    omega

theorem covered_high (n : Nat) (hbn : ord b < n) (hn : n ≤ ord high) : Cov mid n := by
  rcases cov_append.mp (hu.covered n hbn hn) with ⟨r, hr, _, hhi⟩ | hcov
  · have hbefore := hl.before r hr
    have hle := hl.le
    omega
  · exact hcov

/-- The ranges around the new one, and the new one grown to the ends of the ranges it touches, cover
the old characters and the new ones. -/
theorem grown_covers (n : Nat) : Cov pre n ∨ (ord low ≤ n ∧ n ≤ ord high) ∨ Cov tail n ↔
    Cov (pre ++ mid ++ tail) n ∨ (ord a ≤ n ∧ n ≤ ord b) := by
  rw [cov_append, cov_append]
  have hle := hl.le
  have hge := hu.ge
  constructor
  · rintro (hpre | ⟨hlo, hhi⟩ | htail)
    · exact .inl (.inl (.inl hpre))
    · by_cases hna : n < ord a
      · exact .inl (.inl (.inr (covered_low hab hl hu n hlo hna)))
      · by_cases hbn : ord b < n
        · exact .inl (.inl (.inr (covered_high hab hl hu n hbn hhi)))
        · exact .inr ⟨by omega, by omega⟩
    · exact .inl (.inr htail)
  · rintro (((hpre | ⟨r, hr, hlo, hhi⟩) | htail) | ⟨han, hnb⟩)
    · exact .inl hpre
    · have hrlo := hl.behind r (mem_append_left _ hr)
      have hrhi := hu.before r (mem_append_right _ hr)
      exact .inr (.inl ⟨by omega, by omega⟩)
    · exact .inr (.inr htail)
    · exact .inr (.inl ⟨by omega, by omega⟩)

theorem cut_canonical (h : Canon (pre ++ mid ++ tail)) :
    Canon (pre ++ (leftPiece low a ++ rightPiece b high) ++ tail) := by
  obtain ⟨hfront, htail, hbetween⟩ := canonical_append.mp h
  obtain ⟨hpre, _, _⟩ := canonical_append.mp hfront
  have hpieces : Canon (leftPiece low a ++ rightPiece b high) := by
    refine canonical_append.mpr ⟨leftPiece_isPiece.canonical, rightPiece_isPiece.canonical, ?_⟩
    intro r hr s hs
    obtain ⟨_, _, hrhi⟩ := leftPiece_isPiece.mem _ hr
    obtain ⟨_, hslo, _⟩ := rightPiece_isPiece.mem _ hs
    omega
  refine canonical_append.mpr ⟨canonical_append.mpr ⟨hpre, hpieces, ?_⟩, htail, ?_⟩
  · intro r hr s hs
    rcases mem_append.mp hs with hs | hs
    · obtain ⟨hlt, hslo, _⟩ := leftPiece_isPiece.mem _ hs
      rw [hslo]
      exact hl.gap hlt r hr
    · obtain ⟨_, hslo, _⟩ := rightPiece_isPiece.mem _ hs
      have hlt := hl.before r hr
      have hle := hl.le
      omega
  · intro r hr s hs
    rcases mem_append.mp hr with hr | hr
    · exact hbetween r (mem_append_left _ hr) s hs
    · rcases mem_append.mp hr with hr | hr
      · obtain ⟨_, _, hrhi⟩ := leftPiece_isPiece.mem _ hr
        have hlt := hu.behind s hs
        have hge := hu.ge
        omega
      · obtain ⟨hlt, _, hrhi⟩ := rightPiece_isPiece.mem _ hr
        rw [hrhi]
        exact hu.gap (Nat.lt_of_succ_lt_succ hlt) s hs

theorem cut_covers (n : Nat) : Cov (pre ++ (leftPiece low a ++ rightPiece b high) ++ tail) n ↔
    Cov (pre ++ mid ++ tail) n ∧ ¬ (ord a ≤ n ∧ n ≤ ord b) := by
  rw [cov_append, cov_append, cov_append, cov_append, cov_append, leftPiece_isPiece.covers,
    rightPiece_isPiece.covers]
  have hle := hl.le
  have hge := hu.ge
  constructor
  · rintro ((⟨r, hr, hlo, hhi⟩ | ⟨hlo, hhi⟩ | ⟨hlo, hhi⟩) | ⟨r, hr, hlo, hhi⟩)
    · have hlt := hl.before r hr
      exact ⟨.inl (.inl ⟨r, hr, hlo, hhi⟩), by omega⟩
    · exact ⟨.inl (.inr (covered_low hab hl hu n hlo hhi)), by omega⟩
    · exact ⟨.inl (.inr (covered_high hab hl hu n hlo (Nat.le_of_lt_succ hhi))), by omega⟩
    · have hlt := hu.behind r hr
      exact ⟨.inr ⟨r, hr, hlo, hhi⟩, by omega⟩
  · rintro ⟨(hpre | ⟨r, hr, hlo, hhi⟩) | htail, hout⟩
    · exact .inl (.inl hpre)
    · have hrlo := hl.behind r (mem_append_left _ hr)
      have hrhi := hu.before r (mem_append_right _ hr)
      exact .inl (.inr (by omega))
    · exact .inr htail

end Cut

theorem insertCharRange_spec (h : Canon c.ranges) (x : CharRange) :
    ∃ c', c.insertCharRange x = .ok c' ∧
    Canon c'.ranges ∧ ∀ n, Cov c'.ranges n ↔ Cov c.ranges n ∨ (x.lo ≤ n ∧ n ≤ x.hi) := by
  obtain ⟨rs⟩ := c
  change Canon rs at h
  unfold CharCollection.insertCharRange
  cases hempty : x.isEmpty with
  | true =>
    have hlt := CharRange.isEmpty_iff.mp hempty
    refine ⟨⟨rs⟩, rfl, h, fun n => (or_iff_left ?_).symm⟩
    omega
  | false =>
    have hx := CharRange.isEmpty_eq_false.mp hempty
    obtain ⟨lower, low, pre, post, hfind, hsplit, hl, hlower⟩ := lower_cases h x.low
    obtain ⟨upper, high, front, tail, hfind', hsplit', hu, hupper⟩ := upper_cases h x.high
    obtain ⟨mid, rfl, rfl⟩ := middle_cases h hx hl hsplit hu hsplit'
    simp only [hfind, hfind', ok_bind, Bool.false_eq_true, if_false]
    by_cases hsame : sameRange lower upper = true
    · -- one range holds both ends
      rw [if_pos hsame]
      refine ⟨⟨rs⟩, rfl, h, fun n => (or_iff_left_of_imp ?_).symm⟩
      rintro ⟨hlo, hhi⟩
      rcases hlower with ⟨r, rfl, _, hr, hrlo, _⟩ | ⟨rfl, _⟩
      · rcases hupper with ⟨k, s, rfl, _, _, _, _, hshi⟩ | ⟨rfl, _⟩
        · obtain rfl := sameRange_cases (h.nonempty r hr) hsame
          refine ⟨r, hr, ?_, ?_⟩
          · exact le_trans hrlo hlo
          · exact le_trans hhi hshi
        · exact absurd hsame Bool.false_ne_true
      · exact absurd hsame Bool.false_ne_true
    · rw [if_neg hsame]
      have hgrown : (CharRange.closed low high).lo ≤ (CharRange.closed low high).hi :=
        le_trans hl.le (le_trans hx hu.ge)
      rw [hsplit'] at h
      obtain ⟨rs', hreplace, hcanon, hcov⟩ :=
        @replaceRanges_spec pre mid tail (CharRange.closed low high) h hgrown
        hl.before hu.behind
      refine ⟨⟨rs'⟩, ?_, hcanon, ?_⟩
      · rw [hsplit', ← hreplace]
        rcases hlower with ⟨r, rfl, rfl, _⟩ | ⟨rfl, rfl⟩
        · rcases hupper with ⟨k, s, rfl, hk, rfl, _⟩ | ⟨rfl, rfl⟩
          · simp only [hk]
          · rfl
        · rcases hupper with ⟨k, s, rfl, hk, rfl, _⟩ | ⟨rfl, rfl⟩
          · simp only [hk]
          · rfl
      · intro n
        rw [hcov n, hsplit']
        exact grown_covers hx hl hu n

theorem removeCharRange_spec (h : Canon c.ranges) (x : CharRange) :
    ∃ c', c.removeCharRange x = .ok c' ∧
    Canon c'.ranges ∧ ∀ n, Cov c'.ranges n ↔ Cov c.ranges n ∧ ¬ (x.lo ≤ n ∧ n ≤ x.hi) := by
  obtain ⟨rs⟩ := c
  change Canon rs at h
  unfold CharCollection.removeCharRange
  cases hempty : x.isEmpty with
  | true =>
    have hlt := CharRange.isEmpty_iff.mp hempty
    refine ⟨⟨rs⟩, rfl, h, fun n => (and_iff_left ?_).symm⟩
    omega
  | false =>
    have hx := CharRange.isEmpty_eq_false.mp hempty
    obtain ⟨lower, low, pre, post, hfind, hsplit, hl, hlower⟩ := lower_cases h x.low
    obtain ⟨upper, high, front, tail, hfind', hsplit', hu, hupper⟩ := upper_cases h x.high
    obtain ⟨mid, rfl, rfl⟩ := middle_cases h hx hl hsplit hu hsplit'
    simp only [hfind, hfind', ok_bind, Bool.false_eq_true, if_false]
    rw [hsplit'] at h
    refine ⟨⟨pre ++ (leftPiece low x.low ++ rightPiece x.high high) ++ tail⟩, ?_,
      cut_canonical hx hl hu h, ?_⟩
    · have hsplice := spliceVec_ok pre mid tail (leftPiece low x.low ++ rightPiece x.high high)
      rw [hsplit']
      rcases hlower with ⟨r, rfl, rfl, _⟩ | ⟨rfl, rfl⟩
      · rcases hupper with ⟨k, s, rfl, hk, rfl, _⟩ | ⟨rfl, rfl⟩
        · simp only [hk]
          exact congrArg (· >>= _) hsplice
        · rw [rightPiece_self] at hsplice ⊢
          exact congrArg (· >>= _) hsplice
      · rw [leftPiece_self] at hsplice ⊢
        rcases hupper with ⟨k, s, rfl, hk, rfl, _⟩ | ⟨rfl, rfl⟩
        · simp only [hk]
          exact congrArg (· >>= _) hsplice
        · rw [rightPiece_self] at hsplice ⊢
          exact congrArg (· >>= _) hsplice
    · intro n
      rw [hsplit']
      exact cut_covers hx hl hu n

end Change

end Garnet.Intl
