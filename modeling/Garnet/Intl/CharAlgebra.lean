import Garnet.Intl.CharSet
import Mathlib.Order.BooleanAlgebra.Set

/-! The operations of a collection compute those of sets, and a set has one collection. -/

namespace Garnet.Intl
open List
open Intervals
open CharCollection (findContainingRange gaps)

section Complement
variable {rs : List CharRange} {p : Char}

theorem gaps_nil : gaps p [] = rightPiece p charMax := by
  have hmax := ord_charMax
  have hp := ord_lt p
  by_cases h : p = charMax
  · rw [h, rightPiece_self, gaps, if_neg (not_not_intro rfl)]
  · have hne : ord p ≠ ord charMax := fun heq => h (ord_injective heq)
    have hlt : p < charMax := lt_iff_ord.mpr (by omega)
    rw [gaps, if_pos h, rightPiece, if_pos hlt]

theorem gaps_spec (h : Canon rs) (hp : ∀ r ∈ rs, ord p + 1 < r.lo) : Canon (gaps p rs) ∧
    (∀ r ∈ gaps p rs, ord p < r.lo) ∧
      ∀ n, Cov (gaps p rs) n ↔ ord p < n ∧ n < Char.numCodePoints ∧ ¬ Cov rs n := by
  induction rs generalizing p with
  | nil =>
    rw [gaps_nil]
    refine ⟨rightPiece_isPiece.canonical, ?_, ?_⟩
    · intro r hr
      obtain ⟨_, hlo, _⟩ := rightPiece_isPiece.mem _ hr
      omega
    · intro n
      have hmax := ord_charMax
      rw [rightPiece_isPiece.covers]
      constructor
      · rintro ⟨hlo, hhi⟩
        exact ⟨hlo, by omega, not_cov_nil⟩
      · rintro ⟨hlo, hlt, _⟩
        exact ⟨hlo, by omega⟩
  | cons r rs ih =>
    obtain ⟨hr, hrs, hbetween⟩ := canonical_cons.mp h
    obtain ⟨hcanon, hbehind, hcov⟩ := ih hrs hbetween
    have hpr := hp r mem_cons_self
    obtain ⟨hlo, hhi⟩ := CharRange.open_places hpr
    have hrhi : r.hi < Char.numCodePoints := ord_lt r.high
    have hrlow : ord r.low = r.lo := rfl
    have hrhigh : ord r.high = r.hi := rfl
    refine ⟨canonical_cons.mpr ⟨by omega, hcanon, ?_⟩, ?_, ?_⟩
    · intro s hs
      have hlt := hbehind s hs
      omega
    · intro s hs
      rcases mem_cons.mp hs with rfl | hs
      · omega
      · have hlt := hbehind s hs
        omega
    · intro n
      rw [gaps, cov_cons, cov_cons, hcov n, hlo, hhi]
      constructor
      · rintro (⟨hlow, hhigh⟩ | ⟨hlow, hlt, hnot⟩)
        · refine ⟨by omega, by omega, ?_⟩
          rintro (⟨_, _⟩ | ⟨s, hs, hslo, _⟩)
          · omega
          · have hlt := hbetween s hs
            omega
        · refine ⟨by omega, hlt, ?_⟩
          rintro (⟨_, _⟩ | hin)
          · omega
          · exact hnot hin
      · rintro ⟨hlow, hlt, hnot⟩
        rw [not_or] at hnot
        by_cases hn : n < r.lo
        · exact .inl ⟨by omega, by omega⟩
        · exact .inr ⟨by omega, hlt, hnot.2⟩

end Complement

def CharRange.chars (r : CharRange) : Set Char := {ch | r.low ≤ ch ∧ ch ≤ r.high}

def MultiCharRange.chars (m : MultiCharRange) : Set Char := {ch | ∃ r ∈ m.iterRanges, ch ∈ r.chars}

theorem le_iff_ord {c d : Char} : c ≤ d ↔ ord c ≤ ord d := by
  rw [← Char.not_lt, lt_iff_ord, not_lt]

theorem CharRange.mem_chars {r : CharRange} {ch : Char} :
    ch ∈ r.chars ↔ r.lo ≤ ord ch ∧ ord ch ≤ r.hi := by
  change r.low ≤ ch ∧ ch ≤ r.high ↔ _
  rw [le_iff_ord, le_iff_ord]
  rfl

structure Denotes (c : CharCollection) (s : Set Char) : Prop where
  canonical : Canon c.ranges
  covers : ∀ ch, Cov c.ranges (ord ch) ↔ ch ∈ s

namespace Denotes
variable {c c' : CharCollection} {s s' : Set Char}

theorem new : Denotes CharCollection.new ∅ :=
  ⟨canonical_nil, fun _ => iff_of_false not_cov_nil (Set.notMem_empty _)⟩

theorem insertCharRange (h : Denotes c s) (x : CharRange) :
    ∃ c', c.insertCharRange x = .ok c' ∧ Denotes c' (s ∪ x.chars) := by
  obtain ⟨c', hinsert, hcanon, hcov⟩ := insertCharRange_spec h.canonical x
  refine ⟨c', hinsert, hcanon, fun ch => ?_⟩
  rw [hcov, h.covers, Set.mem_union, CharRange.mem_chars]

theorem removeCharRange (h : Denotes c s) (x : CharRange) :
    ∃ c', c.removeCharRange x = .ok c' ∧ Denotes c' (s \ x.chars) := by
  obtain ⟨c', hremove, hcanon, hcov⟩ := removeCharRange_spec h.canonical x
  refine ⟨c', hremove, hcanon, fun ch => ?_⟩
  rw [hcov, h.covers, Set.mem_sdiff, CharRange.mem_chars]

theorem multi_chars_nil (k : Nat) : MultiCharRange.chars ⟨[], k⟩ = ∅ := by
  ext ch
  simp [MultiCharRange.chars]

theorem multi_chars_cons (x : CharRange) (xs : List CharRange) (k : Nat) :
    MultiCharRange.chars ⟨x :: xs, k⟩ = x.chars ∪ MultiCharRange.chars ⟨xs, k⟩ := by
  ext ch
  simp [MultiCharRange.chars]

theorem insert (h : Denotes c s) (m : MultiCharRange) :
    ∃ c', c.insert m = .ok c' ∧ Denotes c' (s ∪ m.chars) := by
  obtain ⟨xs, k⟩ := m
  induction xs generalizing c s with
  | nil =>
    refine ⟨c, rfl, ?_⟩
    rw [multi_chars_nil, Set.union_empty]
    exact h
  | cons x xs ih =>
    obtain ⟨c₁, hfirst, h₁⟩ := h.insertCharRange x
    obtain ⟨c₂, hrest, h₂⟩ := ih h₁
    refine ⟨c₂, ?_, ?_⟩
    · rw [CharCollection.insert, foldlM_cons, hfirst]
      exact hrest
    · rw [multi_chars_cons, ← Set.union_assoc]
      exact h₂

theorem remove (h : Denotes c s) (m : MultiCharRange) :
    ∃ c', c.remove m = .ok c' ∧ Denotes c' (s \ m.chars) := by
  obtain ⟨xs, k⟩ := m
  induction xs generalizing c s with
  | nil =>
    refine ⟨c, rfl, ?_⟩
    rw [multi_chars_nil, Set.sdiff_empty]
    exact h
  | cons x xs ih =>
    obtain ⟨c₁, hfirst, h₁⟩ := h.removeCharRange x
    obtain ⟨c₂, hrest, h₂⟩ := ih h₁
    refine ⟨c₂, ?_, ?_⟩
    · rw [CharCollection.remove, foldlM_cons, hfirst]
      exact hrest
    · rw [multi_chars_cons, ← Set.sdiff_sdiff]
      exact h₂

theorem ofMulti (m : MultiCharRange) :
    ∃ c, CharCollection.ofMulti m = .ok c ∧ Denotes c m.chars := by
  obtain ⟨c, hinsert, h⟩ := new.insert m
  rw [Set.empty_union] at h
  exact ⟨c, hinsert, h⟩

section
variable (h : Denotes c s)
include h

theorem toMulti_chars : c.toMulti.chars = s := by
  ext ch
  rw [← h.covers ch]
  constructor
  · rintro ⟨r, hr, hin⟩
    exact ⟨r, hr, CharRange.mem_chars.mp hin⟩
  · rintro ⟨r, hr, hin⟩
    exact ⟨r, hr, CharRange.mem_chars.mpr hin⟩

theorem union (m : MultiCharRange) : ∃ c', c.union m = .ok c' ∧ Denotes c' (s ∪ m.chars) := by
  unfold CharCollection.union
  split
  · exact h.insert m
  · obtain ⟨c₁, hsource, h₁⟩ := ofMulti m
    obtain ⟨c₂, hinsert, h₂⟩ := h₁.insert c.toMulti
    rw [h.toMulti_chars, Set.union_comm] at h₂
    refine ⟨c₂, ?_, h₂⟩
    rw [hsource]
    exact hinsert

theorem complement : ∃ c', c.complement = .ok c' ∧ Denotes c' sᶜ := by
  obtain ⟨rs⟩ := c
  unfold CharCollection.complement
  cases rs with
  | nil =>
    obtain ⟨c', hall, hdenotes⟩ := ofMulti (.ofRange CharRange.all)
    have hempty : s = ∅ :=
      Set.eq_empty_of_forall_notMem fun ch hin => not_cov_nil ((h.covers ch).mpr hin)
    have huniv : (MultiCharRange.ofRange CharRange.all).chars = Set.univ := by
      refine Set.eq_univ_of_forall fun ch => ⟨CharRange.all, mem_singleton_self _, ?_⟩
      have hmin : CharRange.all.lo = 0 := ord_charMin
      have hmax : CharRange.all.hi + 1 = Char.numCodePoints := ord_charMax
      have hlt := ord_lt ch
      exact CharRange.mem_chars.mpr ⟨by omega, by omega⟩
    rw [huniv] at hdenotes
    rw [hempty, Set.compl_empty]
    exact ⟨c', hall, hdenotes⟩
  | cons r rs =>
    obtain ⟨hr, hrs, hbetween⟩ := canonical_cons.mp h.canonical
    obtain ⟨hcanon, hbehind, hcov⟩ := gaps_spec hrs hbetween
    have hfirst : (if r.low ≠ charMin then [CharRange.openRight charMin r.low] else []) =
        leftPiece charMin r.low := by
      by_cases hmin : r.low = charMin
      · rw [hmin, leftPiece_self, if_neg (not_not_intro rfl)]
      · have hne : ord r.low ≠ ord charMin := fun heq => hmin (ord_injective heq)
        have hlt : charMin < r.low := lt_iff_ord.mpr (by rw [ord_charMin] at *; omega)
        rw [if_pos hmin, leftPiece, if_pos hlt]
    refine ⟨_, rfl, ?_, ?_⟩
    · change Canon (_ ++ _)
      rw [hfirst]
      refine canonical_append.mpr ⟨leftPiece_isPiece.canonical, hcanon, ?_⟩
      intro x hx y hy
      obtain ⟨hpos, _, hhi⟩ := leftPiece_isPiece.mem _ hx
      have hlt : r.hi < y.lo := hbehind y hy
      have hlow : ord r.low = r.lo := rfl
      omega
    · intro ch
      have hlt := ord_lt ch
      have hlow : ord r.low = r.lo := rfl
      have hhigh : ord r.high = r.hi := rfl
      change Cov (_ ++ _) _ ↔ _
      rw [hfirst, cov_append, leftPiece_isPiece.covers, hcov, Set.mem_compl_iff, ← h.covers ch,
        cov_cons, not_or, ord_charMin]
      constructor
      · rintro (⟨_, hbelow⟩ | ⟨habove, _, hnot⟩)
        · refine ⟨by omega, ?_⟩
          rintro ⟨x, hx, hxlo, _⟩
          have hlt := hbetween x hx
          omega
        · exact ⟨by omega, hnot⟩
      · rintro ⟨hout, hnot⟩
        by_cases hbelow : ord ch < r.lo
        · exact .inl ⟨by omega, by omega⟩
        · exact .inr ⟨by omega, hlt, hnot⟩

theorem intersection (m : MultiCharRange) :
    ∃ c', c.intersection m = .ok c' ∧ Denotes c' (s ∩ m.chars) := by
  obtain ⟨c₁, hsource, h₁⟩ := ofMulti m
  unfold CharCollection.intersection
  split
  · obtain ⟨c₂, hcompl, h₂⟩ := h₁.complement
    obtain ⟨c₃, hremove, h₃⟩ := h.remove c₂.toMulti
    rw [h₂.toMulti_chars, Set.sdiff_compl] at h₃
    refine ⟨c₃, ?_, h₃⟩
    rw [hsource, ok_bind, hcompl]
    exact hremove
  · obtain ⟨c₂, hcompl, h₂⟩ := h.complement
    obtain ⟨c₃, hremove, h₃⟩ := h₁.remove c₂.toMulti
    rw [h₂.toMulti_chars, Set.sdiff_compl, Set.inter_comm] at h₃
    refine ⟨c₃, ?_, h₃⟩
    rw [hsource, ok_bind, hcompl]
    exact hremove

theorem contains (ch : Char) : ∃ found, c.contains ch = .ok found ∧ (found = true ↔ ch ∈ s) := by
  obtain ⟨rs⟩ := c
  have hcov := h.covers ch
  have hcanon : Canon rs := h.canonical
  obtain ⟨pre, post, rfl, hpre, ⟨r, post', rfl, hlo, hhi, hfind⟩ | ⟨hpost, hfind⟩⟩ :=
    search_cases hcanon ch 0
  · refine ⟨true, ?_, iff_of_true rfl (hcov.mp ?_)⟩
    · rw [CharCollection.contains, findContainingRange, hfind]
      rfl
    · exact ⟨r, mem_append_right _ mem_cons_self, hlo, hhi⟩
  · refine ⟨false, ?_, iff_of_false Bool.false_ne_true fun hin => ?_⟩
    · rw [CharCollection.contains, findContainingRange, hfind]
      rfl
    · rcases cov_append.mp (hcov.mpr hin) with ⟨r, hr, _, hhi⟩ | ⟨r, hr, hlo, _⟩
      · have hlt := hpre r hr
        omega
      · have hlt := hpost r hr
        omega

theorem ranges_eq (h' : Denotes c' s) : c.ranges = c'.ranges := by
  refine eq_of_covers (fun _ _ => CharRange.ext_places) h.canonical h'.canonical fun n => ?_
  by_cases hn : n < Char.numCodePoints
  · rw [← ord_ofOrd hn]
    exact (h.covers _).trans (h'.covers _).symm
  · -- no range reaches beyond the last character
    have hbeyond : ∀ rs, ¬ Cov rs n := by
      rintro rs ⟨r, _, _, hhi⟩
      exact hn (lt_of_le_of_lt hhi (ord_lt r.high))
    exact iff_of_false (hbeyond _) (hbeyond _)

end

theorem ranges_beq_iff {rs rs' : List CharRange} (h : ∀ r ∈ rs, r.lo ≤ r.hi) :
    (rs == rs') = true ↔ rs = rs' := by
  induction rs generalizing rs' with
  | nil => cases rs' <;> simp
  | cons r rs ih =>
    cases rs' with
    | nil => simp
    | cons r' rs' =>
      have hr := h r mem_cons_self
      have hrs := @ih rs' fun x hx => h x (mem_cons_of_mem _ hx)
      change (r == r' && rs == rs') = true ↔ _
      rw [Bool.and_eq_true, CharRange.beq_iff hr, hrs, List.cons.injEq]

theorem beq_iff (h : Denotes c s) (h' : Denotes c' s') : (c == c') = true ↔ s = s' := by
  change (c.ranges == c'.ranges) = true ↔ s = s'
  rw [ranges_beq_iff h.canonical.nonempty]
  constructor
  · intro heq
    ext ch
    rw [← h.covers ch, ← h'.covers ch, heq]
  · rintro rfl
    exact h.ranges_eq h'

end Denotes

inductive Binary where
  | insert
  | remove
  | union
  | intersection
  | difference
  | bitor
  | add
  | bitorAssign
  | addAssign
  | sub
  | subAssign
  | bitand
  | bitandAssign
  deriving Repr, DecidableEq

inductive Unary where
  | clear
  | complement
  | not
  deriving Repr, DecidableEq

def Binary.call : Binary → CharCollection → MultiCharRange → Except Fault CharCollection
  | .insert => CharCollection.insert
  | .remove => CharCollection.remove
  | .union => CharCollection.union
  | .intersection => CharCollection.intersection
  | .difference => CharCollection.difference
  | .bitor => CharCollection.bitor
  | .add => CharCollection.add
  | .bitorAssign => CharCollection.bitorAssign
  | .addAssign => CharCollection.addAssign
  | .sub => CharCollection.sub
  | .subAssign => CharCollection.subAssign
  | .bitand => CharCollection.bitand
  | .bitandAssign => CharCollection.bitandAssign

def Unary.call : Unary → CharCollection → Except Fault CharCollection
  | .clear => fun c => .ok c.clear
  | .complement => CharCollection.complement
  | .not => CharCollection.not

def Binary.onSets : Binary → Set Char → Set Char → Set Char
  | .insert | .union | .bitor | .add | .bitorAssign | .addAssign => fun s t => s ∪ t
  | .remove | .difference | .sub | .subAssign => fun s t => s \ t
  | .intersection | .bitand | .bitandAssign => fun s t => s ∩ t

def Unary.onSets : Unary → Set Char → Set Char
  | .clear => fun _ => ∅
  | .complement | .not => fun s => sᶜ

section
variable {c : CharCollection} {s : Set Char} (h : Denotes c s)
include h

theorem Denotes.binary (op : Binary) (m : MultiCharRange) :
    ∃ c', op.call c m = .ok c' ∧ Denotes c' (op.onSets s m.chars) := by
  cases op with
  | insert => exact h.insert m
  | remove => exact h.remove m
  | union => exact h.union m
  | intersection => exact h.intersection m
  | difference => exact h.remove m
  | bitor | add => exact h.union m
  | bitorAssign | addAssign => exact h.insert m
  | sub | subAssign => exact h.remove m
  | bitand | bitandAssign => exact h.intersection m

theorem Denotes.unary (op : Unary) : ∃ c', op.call c = .ok c' ∧ Denotes c' (op.onSets s) := by
  cases op with
  | clear => exact ⟨_, rfl, Denotes.new⟩
  | complement | not => exact h.complement

end

/-- How a collection was made: the calls in order, with what they were given. -/
inductive Made where
  | new
  | ofMulti (source : MultiCharRange)
  | unary (op : Unary) (on : Made)
  | withMulti (op : Binary) (on : Made) (operand : MultiCharRange)
  | withCollection (op : Binary) (on operand : Made)

def Made.call : Made → Except Fault CharCollection
  | .new => .ok CharCollection.new
  | .ofMulti source => CharCollection.ofMulti source
  | .unary op on => do op.call (← on.call)
  | .withMulti op on operand => do op.call (← on.call) operand
  | .withCollection op on operand => do op.call (← on.call) (← operand.call).toMulti

def Made.chars : Made → Set Char
  | .new => ∅
  | .ofMulti source => source.chars
  | .unary op on => op.onSets on.chars
  | .withMulti op on operand => op.onSets on.chars operand.chars
  | .withCollection op on operand => op.onSets on.chars operand.chars

theorem Made.denotes (e : Made) : ∃ c, e.call = .ok c ∧ Denotes c e.chars := by
  induction e with
  | new => exact ⟨_, rfl, Denotes.new⟩
  | ofMulti source => exact Denotes.ofMulti source
  | unary op on ih =>
    obtain ⟨c, hon, h⟩ := ih
    obtain ⟨c', hcall, h'⟩ := h.unary op
    refine ⟨c', ?_, h'⟩
    rw [Made.call, hon]
    exact hcall
  | withMulti op on operand ih =>
    obtain ⟨c, hon, h⟩ := ih
    obtain ⟨c', hcall, h'⟩ := h.binary op operand
    refine ⟨c', ?_, h'⟩
    rw [Made.call, hon]
    exact hcall
  | withCollection op on operand ihOn ihOperand =>
    obtain ⟨c, hon, h⟩ := ihOn
    obtain ⟨d, hoperand, hd⟩ := ihOperand
    obtain ⟨c', hcall, h'⟩ := h.binary op d.toMulti
    rw [hd.toMulti_chars] at h'
    refine ⟨c', ?_, h'⟩
    rw [Made.call, hon, hoperand]
    exact hcall

/-- However a collection was made, no call panicked, it is canonical, it holds exactly the
characters of its set, and it equals the collections of the same set and no others. -/
theorem charCollection_canonical_set (e : Made) : ∃ c, e.call = .ok c ∧
    Canonical CharRange.lo CharRange.hi c.ranges ∧
      (∀ ch, ∃ found, c.contains ch = .ok found ∧ (found = true ↔ ch ∈ e.chars)) ∧
        ∀ e' : Made, ∃ c', e'.call = .ok c' ∧ ((c == c') = true ↔ e.chars = e'.chars) := by
  obtain ⟨c, hcall, h⟩ := e.denotes
  refine ⟨c, hcall, h.canonical, h.contains, fun e' => ?_⟩
  obtain ⟨c', hcall', h'⟩ := e'.denotes
  exact ⟨c', hcall', h.beq_iff h'⟩

end Garnet.Intl
