import Garnet.Fidl.Client
import Mathlib.Data.List.Nodup

/-! Each interest belongs to one query, and each reply that can still arrive finds the interest of
the query that it answers. -/

namespace Garnet.Fidl
open List
open Function (forall_update_iff update update_eq_self update_of_ne update_self)

section Invariant
variable {I I' : Slab} {st : Nat → Stage} {O O' : List (Nat × Nat)} {q p k j t : Nat} {x : Stage}

/-- The query has the interest `k`. `O` are the replies that can still arrive, with their ids. -/
def Owns (st : Nat → Stage) (O : List (Nat × Nat)) (q k : Nat) : Prop :=
  st q = .registered k ∨ st q = .failed k ∨ st q = .live k ∨ (st q = .dropped k ∧ (q, k + 1) ∈ O)

/-- The interest `k` says how far the query is. -/
def Fits (st : Nat → Stage) (O : List (Nat × Nat)) (q k : Nat) : MessageInterest → Prop
  | .willPoll => st q = .registered k ∨ st q = .failed k ∨ (st q = .live k ∧ (q, k + 1) ∈ O)
  | .waiting => st q = .live k ∧ (q, k + 1) ∈ O
  | .received buf => st q = .live k ∧ buf = ⟨k + 1, some q⟩ ∧ ∀ t, (q, t) ∉ O
  | .discard => st q = .dropped k ∧ (q, k + 1) ∈ O

theorem Owns.id (h : Owns st O q k) : (st q).id? = some k := by
  rcases h with h | h | h | ⟨h, -⟩ <;> rw [h] <;> rfl

theorem Owns.live (h : st q = .live k) : Owns st O q k := .inr (.inr (.inl h))

theorem owns_dropped (hq : st q = .dropped k) : Owns st O q k ↔ (q, k + 1) ∈ O := by
  simp [Owns, hq]

structure Inv (I : Slab) (st : Nat → Stage) (O : List (Nat × Nat)) : Prop where
  slot : ∀ q k, Owns st O q k → ∃ i, I k = some i ∧ Fits st O q k i
  one : ∀ p q k, Owns st O p k → Owns st O q k → p = q
  owner : ∀ k i, I k = some i → ∃ q, Owns st O q k
  owed : ∀ q t, (q, t) ∈ O → ∃ k, t = k + 1 ∧ (st q = .live k ∨ st q = .dropped k)
  nodup : (O.map Prod.fst).Nodup
  own : ∀ q buf, st q = .done buf → buf.request = some q
  bound : ∀ q k, (st q).id? = some k → k + 1 < 2 ^ 32

namespace Inv

section
variable (h : Inv I st O)
include h

theorem perm (hp : O.Perm O') : Inv I st O' := by
  have howns : ∀ q k, Owns st O' q k ↔ Owns st O q k := by
    intro q k
    rw [Owns, Owns, hp.mem_iff]
  have hfits : ∀ q k i, Fits st O' q k i ↔ Fits st O q k i := by
    intro q k i
    cases i <;> simp only [Fits, hp.mem_iff]
  refine ⟨?_, ?_, ?_, ?_, (hp.map _).nodup_iff.mp h.nodup, h.own, h.bound⟩
  · simpa only [howns, hfits] using h.slot
  · simpa only [howns] using h.one
  · simpa only [howns] using h.owner
  · simpa only [← hp.mem_iff] using h.owed

section
variable (hI : ∀ j, j ≠ k → I' j = I j) (hO : ∀ p t, p ≠ q → ((p, t) ∈ O' ↔ (p, t) ∈ O))
  (hx : ∀ j, x.id? = some j → j = k) (howed : ∀ t, (q, t) ∈ O' → t = k + 1 ∧
    (x = .live k ∨ x = .dropped k))
  (hnodup : (O'.map Prod.fst).Nodup) (hown : ∀ buf, x = .done buf → buf.request = some q)
  (hbound : ∀ k, x.id? = some k → k + 1 < 2 ^ 32)
include hI hO hx howed hnodup hown hbound

/-- Only the query `q` and the interest `k` change. -/
theorem change (hfree : ∀ p, p ≠ q → ¬ Owns st O p k) (hmine : ∀ j, (st q).id? = some j → j = k)
    (hslot : Owns (update st q x) O' q k → ∃ i, I' k = some i ∧ Fits (update st q x) O' q k i)
    (howner : ∀ i, I' k = some i → Owns (update st q x) O' q k) : Inv I' (update st q x) O' := by
  have hst : ∀ {p}, p ≠ q → update st q x p = st p := fun hp => update_of_ne hp ..
  have howns : ∀ {p j}, p ≠ q → (Owns (update st q x) O' p j ↔ Owns st O p j) := by
    intro p j hp
    rw [Owns, Owns, hst hp, hO p _ hp]
  have hfits : ∀ {p j i}, p ≠ q → Fits st O p j i → Fits (update st q x) O' p j i := by
    intro p j i hp hf
    cases i <;> simpa only [Fits, hst hp, hO p _ hp] using hf
  have hkey : ∀ {j}, Owns (update st q x) O' q j → j = k := by
    intro j hj
    have hid := hj.id
    rw [update_self] at hid
    exact hx j hid
  refine ⟨?_, ?_, ?_, ?_, hnodup, ?_, ?_⟩
  · intro p j hp
    by_cases hpq : p = q
    · subst p
      obtain rfl := hkey hp
      exact hslot hp
    · have hp := (howns hpq).mp hp
      have hjk : j ≠ k := fun hjk => hfree p hpq (hjk ▸ hp)
      obtain ⟨i, hi, hf⟩ := h.slot p j hp
      exact ⟨i, (hI j hjk).trans hi, hfits hpq hf⟩
  · intro p p' j hp hp'
    by_cases hpq : p = q <;> by_cases hpq' : p' = q
    · rw [hpq, hpq']
    · subst p
      exact absurd ((howns hpq').mp hp') (hkey hp ▸ hfree p' hpq')
    · subst p'
      exact absurd ((howns hpq).mp hp) (hkey hp' ▸ hfree p hpq)
    · exact h.one p p' j ((howns hpq).mp hp) ((howns hpq').mp hp')
  · intro j i hi
    by_cases hjk : j = k
    · subst j
      exact ⟨q, howner i hi⟩
    · obtain ⟨p, hp⟩ := h.owner j i ((hI j hjk).symm.trans hi)
      have hpq : p ≠ q := fun hpq => hjk (hmine j (hpq ▸ hp.id))
      exact ⟨p, (howns hpq).mpr hp⟩
  · intro p t hp
    by_cases hpq : p = q
    · subst p
      rw [update_self]
      exact ⟨k, howed t hp⟩
    · rw [hst hpq]
      exact h.owed p t ((hO p t hpq).mp hp)
  · exact (forall_update_iff st fun p x => ∀ buf, x = .done buf → buf.request = some p).mpr
      ⟨hown, fun p _ => h.own p⟩
  · exact (forall_update_iff st fun _ x => ∀ j, x.id? = some j → j + 1 < 2 ^ 32).mpr
      ⟨hbound, fun p _ => h.bound p⟩

/-- A query that has its interest goes on to the stage `x`. -/
theorem advance (hq : Owns st O q k)
    (hslot : ∀ i, I k = some i → Fits st O q k i →
      (∃ i', I' k = some i' ∧ Fits (update st q x) O' q k i' ∧
      Owns (update st q x) O' q k) ∨ (I' k = none ∧ ¬ Owns (update st q x) O' q k)) :
    Inv I' (update st q x) O' := by
  obtain ⟨i, hi, hf⟩ := h.slot q k hq
  have hmine : ∀ j, (st q).id? = some j → j = k := fun j hj => Option.some.inj (hj.symm.trans hq.id)
  have hfree : ∀ p, p ≠ q → ¬ Owns st O p k := fun p hp hown => hp (h.one p q k hown hq)
  have hchange := h.change hI hO hx howed hnodup hown hbound hfree hmine
  rcases hslot i hi hf with ⟨i', hi', hf', ho⟩ | ⟨hnone, hno⟩
  · exact hchange (fun _ => ⟨i', hi', hf'⟩) fun _ _ => ho
  · refine hchange (fun ho => absurd ho hno) fun i hi => ?_
    rw [hnone] at hi
    cases hi

end

theorem not_owed (hq : ∀ k, st q ≠ .live k ∧ st q ≠ .dropped k) (t : Nat) : (q, t) ∉ O := by
  intro ht
  obtain ⟨k, -, hk | hk⟩ := h.owed q t ht
  · exact (hq k).1 hk
  · exact (hq k).2 hk

theorem owed_live (hq : st q = .live k) (ht : (q, t) ∈ O) : t = k + 1 := by
  obtain ⟨j, rfl, hj | hj⟩ := h.owed q t ht
  · cases hq.symm.trans hj
    rfl
  · cases hq.symm.trans hj

theorem bound_of (hq : Owns st O q k) (j : Nat) (hj : some k = some j) : j + 1 < 2 ^ 32 := by
  cases hj
  exact h.bound q k hq.id

theorem register (hq : st q = .unsent) (hk : I k = none) (hsmall : k + 1 < 2 ^ 32) :
    Inv (update I k (some .willPoll)) (update st q (.registered k)) O := by
  have howns : Owns (update st q (.registered k)) O q k := .inl (update_self ..)
  refine h.change (fun j hj => update_of_ne hj ..) (fun _ _ _ => Iff.rfl) (by rintro j ⟨⟩; rfl)
    (fun t ht => ?_) h.nodup nofun (by rintro j ⟨⟩; exact hsmall) (fun p _ hp => ?_) ?_
    (fun _ => ⟨_, update_self .., .inl (update_self ..)⟩) fun _ _ => howns
  · exact absurd ht (h.not_owed (fun k => by simp [hq]) t)
  · obtain ⟨i, hi, -⟩ := h.slot p k hp
    rw [hk] at hi
    cases hi
  · rw [hq]
    exact nofun

end

theorem fits_registered {i : MessageInterest} (hq : st q = .registered k) (hf : Fits st O q k i) :
    i = .willPoll := by
  cases i with
  | willPoll => rfl
  | waiting | received buf | discard => exact nomatch hq.symm.trans hf.1

section
variable (h : Inv I st O)
include h

theorem write (hq : st q = .registered k) : Inv I (update st q (.live k)) ((q, k + 1) :: O) := by
  have hnot : ∀ t, (q, t) ∉ O := h.not_owed fun k => by simp [hq]
  refine h.advance (fun _ _ => rfl) (fun p t hp => by simp [hp]) (by rintro j ⟨⟩; rfl)
    (fun t ht => ?_) ?_ nofun
    (h.bound_of (.inl hq)) (.inl hq) fun i hi hf => ?_
  · rcases mem_cons.mp ht with ht | ht
    · cases ht
      exact ⟨rfl, .inl rfl⟩
    · exact absurd ht (hnot t)
  · rw [map_cons, nodup_cons]
    refine ⟨fun hin => ?_, h.nodup⟩
    obtain ⟨⟨p, t⟩, ht, rfl⟩ := mem_map.mp hin
    exact hnot t ht
  · obtain rfl := fits_registered hq hf
    exact .inl ⟨_, hi, .inr (.inr ⟨update_self .., mem_cons_self⟩), .live (update_self ..)⟩

theorem fail (hq : st q = .registered k) : Inv I (update st q (.failed k)) O := by
  refine h.advance (fun _ _ => rfl) (fun _ _ _ => Iff.rfl) (by rintro j ⟨⟩; rfl)
    (fun t ht => ?_) h.nodup nofun
    (h.bound_of (.inl hq)) (.inl hq) fun i hi hf => ?_
  · exact absurd ht (h.not_owed (fun k => by simp [hq]) t)
  · obtain rfl := fits_registered hq hf
    exact .inl ⟨_, hi, .inr (.inl (update_self ..)), .inr (.inl (update_self ..))⟩

variable (hq : st q = .live k)
include hq

/-- The interest of a live future waits for the reply or has it. -/
theorem live : ((q, k + 1) ∈ O ∧ (I k = some .willPoll ∨ I k = some .waiting)) ∨
      (I k = some (.received ⟨k + 1, some q⟩) ∧ ∀ t, (q, t) ∉ O) := by
  obtain ⟨i, hi, hf⟩ := h.slot q k (Owns.live hq)
  cases i with
  | willPoll =>
    rcases hf with hf | hf | ⟨-, hf⟩
    · exact nomatch hq.symm.trans hf
    · exact nomatch hq.symm.trans hf
    · exact .inl ⟨hf, .inl hi⟩
  | waiting => exact .inl ⟨hf.2, .inr hi⟩
  | received buf =>
    obtain ⟨-, rfl, hnot⟩ := hf
    exact .inr ⟨hi, hnot⟩
  | discard => exact nomatch hq.symm.trans hf.1

theorem startPoll (hp : I.startPoll k = .ok I') : Inv I' st O := by
  have hlive : Owns st O q k := .live hq
  rcases h.live hq with ⟨howed, hi⟩ | ⟨hi, -⟩
  · obtain rfl : update I k (some .waiting) = I' := by
      rcases hi with hi | hi <;> simpa [Slab.startPoll, hi] using hp
    rw [← update_eq_self q st]
    refine h.advance (fun j hj => update_of_ne hj ..) (fun _ _ _ => Iff.rfl) ?_
      (fun t ht => ⟨h.owed_live hq ht, .inl hq⟩) h.nodup (h.own q) (h.bound q) hlive
      fun _ _ _ => .inl ⟨_, update_self .., ?_, ?_⟩
    · rw [hq]
      rintro j ⟨⟩
      rfl
    · rw [update_eq_self]
      exact ⟨hq, howed⟩
    · rw [update_eq_self]
      exact hlive
  · simp only [Slab.startPoll, hi] at hp
    cases hp
    exact h

theorem endPoll {buf : MessageBuf} (hp : I.endPoll k = .ok (some buf, I')) :
    Inv I' (update st q (.done buf)) O := by
  rcases h.live hq with ⟨-, hi⟩ | ⟨hi, hnot⟩
  · rcases hi with hi | hi <;> simp [Slab.endPoll, hi] at hp
  · simp only [Slab.endPoll, hi] at hp
    cases hp
    refine h.advance (fun j hj => update_of_ne hj ..)
      (fun _ _ _ => Iff.rfl) nofun (fun t ht => absurd ht (hnot t))
      h.nodup (by rintro b ⟨⟩; rfl) nofun (Owns.live hq) fun _ _ _ => .inr ⟨update_self .., fun ho => ?_⟩
    have hid := ho.id
    rw [update_self] at hid
    cases hid

theorem drop (hp : I.deregisterMsgInterest k = .ok I') : Inv I' (update st q (.dropped k)) O := by
  have hstage := update_self q (Stage.dropped k) st
  have hgo : ∀ {v}, (∀ i, I k = some i → Fits st O q k i → (∃ i', v = some i' ∧
        Fits (update st q (.dropped k)) O q k i' ∧ Owns (update st q (.dropped k)) O q k) ∨
        (v = none ∧ ¬ Owns (update st q (.dropped k)) O q k)) →
      Inv (update I k v) (update st q (.dropped k)) O := by
    intro v hv
    refine h.advance (fun j hj => update_of_ne hj ..) (fun _ _ _ => Iff.rfl) (by rintro j ⟨⟩; rfl)
      (fun t ht => ⟨h.owed_live hq ht, .inr rfl⟩) h.nodup
        nofun (h.bound_of (Owns.live hq)) (Owns.live hq) ?_
    simpa only [update_self] using hv
  rcases h.live hq with ⟨howed, hi⟩ | ⟨hi, hnot⟩
  · obtain rfl : update I k (some .discard) = I' := by
      rcases hi with hi | hi <;> simpa [Slab.deregisterMsgInterest, hi] using hp
    exact hgo fun _ _ _ => .inl ⟨_, rfl, ⟨hstage, howed⟩, (owns_dropped hstage).mpr howed⟩
  · simp only [Slab.deregisterMsgInterest, hi] at hp
    cases hp
    exact hgo fun _ _ _ => .inr ⟨rfl, fun ho => hnot _ ((owns_dropped hstage).mp ho)⟩

end

/-- A reply arrives. -/
theorem store (h : Inv I st ((q, t) :: O)) : t ≠ 0 ∧ Inv (I.store ⟨t, some q⟩) st O := by
  have hnot : ∀ t, (q, t) ∉ O := fun t ht =>
    (nodup_cons.mp h.nodup).1 (mem_map.mpr ⟨(q, t), ht, rfl⟩)
  obtain ⟨k, rfl, hk⟩ := h.owed q t mem_cons_self
  refine ⟨Nat.succ_ne_zero k, ?_⟩
  have hO : ∀ p t, p ≠ q → ((p, t) ∈ O ↔ (p, t) ∈ (q, k + 1) :: O) := fun p t hp => by simp [hp]
  have hid : (st q).id? = some k := by rcases hk with hk | hk <;> rw [hk] <;> rfl
  have hx : ∀ j, (st q).id? = some j → j = k := fun j hj => Option.some.inj (hj.symm.trans hid)
  have hadvance :=
    fun i => h.advance (fun j hj => update_of_ne hj i I) hO hx (fun t ht => absurd ht (hnot t))
    (nodup_cons.mp h.nodup).2 (h.own q) (h.bound q)
  rcases hk with hk | hk
  · obtain ⟨-, hi⟩ | ⟨-, hno⟩ := h.live hk
    swap
    · exact absurd mem_cons_self (hno _)
    have hstore : I.store ⟨k + 1, some q⟩ = update I k (some (.received ⟨k + 1, some q⟩)) := by
      rcases hi with hi | hi <;> simp [Slab.store, interestIdOf, hi]
    have hlive : ∀ {O}, Owns st O q k := .live hk
    rw [hstore, ← update_eq_self q st]
    refine hadvance _ hlive fun _ _ _ => .inl ⟨_, update_self .., ?_, ?_⟩
    · rw [update_eq_self]
      exact ⟨hk, rfl, hnot⟩
    · rw [update_eq_self]
      exact hlive
  · have hown : Owns st ((q, k + 1) :: O) q k := (owns_dropped hk).mpr mem_cons_self
    have hi : I k = some .discard := by
      obtain ⟨i, hi, hf⟩ := h.slot q k hown
      cases i with
      | willPoll => rcases hf with hf | hf | ⟨hf, -⟩ <;> exact nomatch hk.symm.trans hf
      | waiting | received buf => exact nomatch hk.symm.trans hf.1
      | discard => exact hi
    have hstore : I.store ⟨k + 1, some q⟩ = update I k none := by simp [Slab.store, interestIdOf, hi]
    rw [hstore, ← update_eq_self q st]
    refine hadvance _ hown fun _ _ _ => .inr ⟨update_self .., ?_⟩
    rw [update_eq_self, owns_dropped hk]
    exact hnot _

end Inv

end Invariant

end Garnet.Fidl
