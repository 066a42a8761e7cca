import Mathlib.Data.List.Nodup
import Mathlib.Data.List.Perm.Basic

/-! Chains threaded through a table: the entry of a member is the next member, and that of the last
one is an end mark. A table of which all allocated members are in chains is described by the list of
its chains, and the changes of a table by the changes of that list. -/

namespace Garnet
open List

variable {α : Type} {eof : α → Prop} {next next' : α → α}

def Chain (eof : α → Prop) (next : α → α) : List α → Prop
  | [] => False
  | [c] => eof (next c)
  | c :: d :: l => next c = d ∧ ¬ eof d ∧ Chain eof next (d :: l)

namespace Chain
variable {c d : α} {l xs ys : List α}

theorem congr (h : Chain eof next l) (hn : ∀ c ∈ l, next' c = next c) : Chain eof next' l := by
  induction l with
  | nil => exact h
  | cons c l ih =>
    cases l with
    | nil =>
      change eof (next' c)
      rw [hn c mem_cons_self]
      exact h
    | cons d l =>
      refine ⟨?_, h.2.1, ih h.2.2 fun e he => hn e (mem_cons_of_mem c he)⟩
      rw [hn c mem_cons_self]
      exact h.1

theorem eof_last (h : Chain eof next (xs ++ [c])) : eof (next c) := by
  induction xs with
  | nil => exact h
  | cons x xs ih =>
    cases xs with
    | nil | cons y xs => exact ih h.2.2

theorem append (h : Chain eof next (xs ++ [c])) (hxs : ∀ x ∈ xs, next' x = next x)
    (hc : next' c = d) (hd : ¬ eof d) (heof : eof (next' d)) :
    Chain eof next' (xs ++ [c] ++ [d]) := by
  induction xs with
  | nil => exact ⟨hc, hd, heof⟩
  | cons x xs ih =>
    have hrest := fun e he => hxs e (mem_cons_of_mem x he)
    cases xs with
    | nil | cons y xs =>
      refine ⟨?_, h.2.1, ih h.2.2 hrest⟩
      rw [hxs x mem_cons_self]
      exact h.1

theorem cut (h : Chain eof next (xs ++ c :: ys)) (hxs : ∀ x ∈ xs, next' x = next x)
    (hc : eof (next' c)) : Chain eof next' (xs ++ [c]) := by
  induction xs with
  | nil => exact hc
  | cons x xs ih =>
    have hrest := fun e he => hxs e (mem_cons_of_mem x he)
    cases xs with
    | nil | cons y xs =>
      refine ⟨?_, h.2.1, ih h.2.2 hrest⟩
      rw [hxs x mem_cons_self]
      exact h.1

theorem tail (h : Chain eof next (xs ++ c :: ys)) :
    ys = [] ∧ eof (next c) ∨ ys ≠ [] ∧ ys.head? = some (next c) ∧ Chain eof next ys := by
  induction xs with
  | nil =>
    cases ys with
    | nil => exact .inl ⟨rfl, h⟩
    | cons y ys =>
      refine .inr ⟨cons_ne_nil _ _, ?_, h.2.2⟩
      rw [h.1]
      rfl
  | cons x xs ih =>
    cases xs with
    | nil | cons y xs => exact ih h.2.2

end Chain

/-- The allocated members of the table are those of the chains, each in one place of one chain. -/
structure Chains (eof : α → Prop) (next : α → α) (alloc : α → Prop) (cs : List (List α)) : Prop where
  chain : ∀ l ∈ cs, Chain eof next l
  nodup : cs.flatten.Nodup
  members : ∀ c, c ∈ cs.flatten ↔ alloc c

namespace Chains
variable {alloc alloc' : α → Prop} {cs cs' rest : List (List α)} {c d : α} {l xs ys : List α}

theorem perm (h : Chains eof next alloc cs) (hp : cs.Perm cs') : Chains eof next alloc cs' where
  chain l hl := h.chain l (hp.mem_iff.mpr hl)
  nodup := hp.flatten.nodup_iff.mp h.nodup
  members c := by rw [← h.members, hp.flatten.mem_iff]

theorem chain_rest (h : Chains eof next alloc (l :: rest))
    (hkeep : ∀ c ∉ l, alloc c → next' c = next c) : ∀ k ∈ rest, Chain eof next' k := by
  intro k hk
  apply (h.chain k (mem_cons_of_mem _ hk)).congr
  intro c hc
  have hmem : c ∈ rest.flatten := mem_flatten.mpr ⟨k, hk, hc⟩
  have hnodup := h.nodup
  rw [flatten_cons, nodup_append] at hnodup
  apply hkeep c
  · intro hl
    exact hnodup.2.2 c hl c hmem rfl
  · rw [← h.members, flatten_cons]
    exact mem_append_right _ hmem

theorem start (h : Chains eof next alloc cs) (hd : ¬ alloc d) (heof : eof (next' d))
    (hkeep : ∀ c, alloc c → next' c = next c) (halloc : ∀ c, alloc' c ↔ c = d ∨ alloc c) :
    Chains eof next' alloc' ([d] :: cs) where
  chain k hk := by
    cases mem_cons.mp hk with
    | inl heq =>
      rw [heq]
      exact heof
    | inr hmem =>
      apply (h.chain k hmem).congr
      intro c hc
      exact hkeep c ((h.members c).mp (mem_flatten.mpr ⟨k, hmem, hc⟩))
  nodup := by
    rw [flatten_cons, singleton_append, nodup_cons]
    exact ⟨fun hmem => hd ((h.members d).mp hmem), h.nodup⟩
  members c := by
    rw [flatten_cons, singleton_append, mem_cons, halloc, h.members]

theorem extend (h : Chains eof next alloc ((xs ++ [c]) :: rest)) (hd : ¬ alloc d) (hmark : ¬ eof d)
    (hc : next' c = d) (heof : eof (next' d)) (hkeep : ∀ e, e ≠ c → alloc e → next' e = next e)
    (halloc : ∀ e, alloc' e ↔ e = d ∨ alloc e) :
    Chains eof next' alloc' ((xs ++ [c] ++ [d]) :: rest) where
  chain k hk := by
    have hnodup := h.nodup
    rw [flatten_cons, nodup_append, nodup_append] at hnodup
    cases mem_cons.mp hk with
    | inl heq =>
      rw [heq]
      apply (h.chain _ mem_cons_self).append ?_ hc hmark heof
      intro x hx
      apply hkeep x
      · intro heq
        exact hnodup.1.2.2 x hx c mem_cons_self heq
      · rw [← h.members, flatten_cons]
        exact mem_append_left _ (mem_append_left _ hx)
    | inr hmem =>
      apply h.chain_rest ?_ k hmem
      intro e he
      apply hkeep e
      intro heq
      apply he
      rw [heq]
      exact mem_append_right _ mem_cons_self
  nodup := by
    have hperm : ((xs ++ [c] ++ [d]) :: rest).flatten.Perm (d :: ((xs ++ [c]) :: rest).flatten) := by
      rw [flatten_cons, flatten_cons, append_assoc _ [d], singleton_append]
      exact perm_middle
    rw [hperm.nodup_iff, nodup_cons]
    exact ⟨fun hmem => hd ((h.members d).mp hmem), h.nodup⟩
  members e := by
    rw [halloc, ← h.members]
    simp only [flatten_cons, mem_append, mem_cons, not_mem_nil, or_false]
    tauto

theorem truncate (h : Chains eof next alloc ((xs ++ c :: ys) :: rest)) (hc : eof (next' c))
    (hkeep : ∀ e, e ≠ c → e ∉ ys → alloc e → next' e = next e)
    (halloc : ∀ e, alloc' e ↔ alloc e ∧ e ∉ ys) :
    Chains eof next' alloc' ((xs ++ [c]) :: rest) := by
  have hnodup := h.nodup
  rw [flatten_cons, nodup_append, nodup_append, nodup_cons] at hnodup
  obtain ⟨⟨hxs, ⟨hcys, hys⟩, hapart⟩, hrest, hother⟩ := hnodup
  refine ⟨?_, ?_, ?_⟩
  · intro k hk
    cases mem_cons.mp hk with
    | inl heq =>
      rw [heq]
      apply (h.chain _ mem_cons_self).cut ?_ hc
      intro x hx
      apply hkeep x
      · exact fun heq => hapart x hx c mem_cons_self heq
      · exact fun hmem => hapart x hx x (mem_cons_of_mem _ hmem) rfl
      · rw [← h.members, flatten_cons]
        exact mem_append_left _ (mem_append_left _ hx)
    | inr hmem =>
      apply h.chain_rest ?_ k hmem
      intro e he
      apply hkeep e
      · intro heq
        apply he
        rw [heq]
        exact mem_append_right _ mem_cons_self
      · exact fun hmem => he (mem_append_right _ (mem_cons_of_mem _ hmem))
  · rw [flatten_cons, nodup_append, nodup_append]
    refine ⟨⟨hxs, nodup_singleton c, ?_⟩, hrest, ?_⟩
    · intro x hx y hy
      rw [mem_singleton.mp hy]
      exact hapart x hx c mem_cons_self
    · intro x hx
      apply hother x
      simp only [mem_append, mem_cons, not_mem_nil, or_false] at hx ⊢
      tauto
  · intro e
    have hin : e ∈ ys → e ∉ xs ∧ e ≠ c ∧ e ∉ rest.flatten := by
      intro hmem
      refine ⟨fun hx => hapart e hx e (mem_cons_of_mem _ hmem) rfl, ?_, ?_⟩
      · intro heq
        rw [heq] at hmem
        exact hcys hmem
      · exact fun hr => hother e (mem_append_right _ (mem_cons_of_mem _ hmem)) e hr rfl
    rw [halloc, ← h.members]
    simp only [flatten_cons, mem_append, mem_cons, not_mem_nil, or_false]
    tauto

theorem delete (h : Chains eof next alloc (l :: rest))
    (hkeep : ∀ e, e ∉ l → alloc e → next' e = next e) (halloc : ∀ e, alloc' e ↔ alloc e ∧ e ∉ l) :
    Chains eof next' alloc' rest where
  chain := h.chain_rest hkeep
  nodup := by
    have hnodup := h.nodup
    rw [flatten_cons] at hnodup
    exact hnodup.of_append_right
  members e := by
    have hnodup := h.nodup
    rw [flatten_cons, nodup_append] at hnodup
    rw [halloc, ← h.members, flatten_cons, mem_append]
    constructor
    · intro hmem
      exact ⟨.inr hmem, fun hl => hnodup.2.2 e hl e hmem rfl⟩
    · intro hmem
      exact hmem.1.resolve_left hmem.2

end Chains

end Garnet
