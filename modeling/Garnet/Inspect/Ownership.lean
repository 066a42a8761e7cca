import Garnet.Inspect.Extents

/-! Which value owns which block, and how many children each parent has. This is about the roles
of the blocks only: no bytes and no heap. -/

namespace Garnet.Inspect
open List
open Function (update_self)
open Roles (Adopts change change_eq change_of_ne without)
open Role (gain lose)

/-- What a value holds, by the calls that made it. Numbers are bit patterns. -/
inductive Content where
  | node
  | number (type : Number) (value : Nat)
  | array (entry : Number) (format : ArrayFormat) (values : List Nat)
  | property (format : PropertyFormat) (value : List UInt8)
  deriving Repr, DecidableEq

/-- A live value as its owner sees it: the handle, the parent, the name and the content. -/
structure Item where
  index : Nat
  parent : Nat
  name : List UInt8
  content : Content
  deriving Repr, DecidableEq

structure Value extends Item where
  nameIndex : Nat
  extents : List Nat

namespace Value

def own (v : Value) : List Nat := v.index :: v.nameIndex :: v.extents

def Stored (R : Roles) (v : Value) : Prop :=
  match v.content with
  | .node => v.extents = [] ∧ ∃ k c, R v.index = some (k, .node v.nameIndex v.parent c)
  | .number t x => v.extents = [] ∧ ∃ k, R v.index = some (k, .number t v.nameIndex v.parent x)
  | .array t f xs => v.extents = [] ∧ ∃ k s data,
      R v.index = some (k, .array t f v.nameIndex v.parent s data) ∧ data.take s = xs
  | .property f x => Chain R v.extents x ∧ ∃ k, R v.index =
      some (k, .property f v.nameIndex v.parent x.length (v.extents.headD 0))

def Named (R : Roles) (v : Value) : Prop := ∃ l, R v.nameIndex = some (l, .name v.name)

end Value

/-- The number of values with the parent `p`. -/
def children (vs : List Value) (p : Nat) : Nat := vs.countP fun v => v.parent = p

def owned (ts : List Nat) (vs : List Value) : List Nat := 0 :: (ts ++ vs.flatMap Value.own)

abbrev Headed (R : Roles) : Prop := ∃ g, g % 2 = 0 ∧ R 0 = some (0, .header g)

structure Owns (R : Roles) (ts : List Nat) (vs : List Value) : Prop where
  header : ∃ g, g % 2 = 0 ∧ R 0 = some (0, .header g)
  nodup : (owned ts vs).Nodup
  mem : ∀ i, R i ≠ none ↔ i ∈ owned ts vs
  stored : ∀ v ∈ vs, v.Stored R
  named : ∀ v ∈ vs, v.Named R
  count : ∀ {p k b c}, R p = some (k, b) → b.count = some c → c = children vs p
  tomb : ∀ t ∈ ts, ∃ k c, R t = some (k, .tombstone (c + 1))
  parent : ∀ v ∈ vs, R.Adopts v.parent
  loop : ∀ v ∈ vs, v.parent ≠ v.index

section Lists
variable {ts : List Nat} {v : Value} {vs : List Value}

theorem mem_owned {i : Nat} : i ∈ owned ts vs ↔ i = 0 ∨ i ∈ ts ∨ ∃ v ∈ vs, i ∈ v.own := by
  simp [owned]

theorem owned_cons_perm : (owned ts (v :: vs)).Perm (v.own ++ owned ts vs) := by
  simp only [owned, flatMap_cons]
  have h1 : (ts ++ (v.own ++ vs.flatMap Value.own)).Perm (v.own ++ (ts ++ vs.flatMap Value.own)) := by
    rw [← append_assoc, ← append_assoc]
    exact perm_append_comm.append_right _
  exact (h1.cons 0).trans perm_middle.symm

theorem children_cons (p : Nat) :
    children (v :: vs) p = children vs p + if v.parent = p then 1 else 0 := by
  simp only [children, countP_cons, decide_eq_true_eq]

theorem children_pos {p : Nat} (hv : v ∈ vs) (hp : v.parent = p) : 0 < children vs p :=
  countP_pos_iff.mpr ⟨v, hv, by simpa using hp⟩

end Lists

section Roles
variable {R S : Roles} {v : Value} {j k q c : Nat} {b : Role}

def Same (R S : Roles) (j : Nat) : Prop :=
  S j = R j ∨ ∃ k n p c d, R j = some (k, .node n p c) ∧ S j = some (k, .node n p d)

theorem Same.eq (h : Same R S j) (hj : R j = some (k, b)) (hb : b.count = none) :
    S j = some (k, b) := by
  rcases h with h | ⟨_, _, _, _, _, hR, -⟩
  · rw [h, hj]
  · rw [hj] at hR
    cases hR
    cases hb

theorem Value.Named.congr (hv : v.Named R) (h : ∀ j ∈ v.own, Same R S j) : v.Named S := by
  obtain ⟨l, hl⟩ := hv
  exact ⟨l, (h _ (by simp [Value.own])).eq hl rfl⟩

theorem Value.Stored.congr (hv : v.Stored R) (h : ∀ j ∈ v.own, Same R S j) : v.Stored S := by
  have hi := h v.index (by simp [Value.own])
  unfold Value.Stored at hv ⊢
  split at hv
  · obtain ⟨he, k, c, hR⟩ := hv
    refine ⟨he, ?_⟩
    rcases hi with hi | ⟨k', n, p, c', d, hR', hS⟩
    · exact ⟨k, c, hi.trans hR⟩
    · rw [hR] at hR'
      cases hR'
      exact ⟨k, d, hS⟩
  · obtain ⟨he, k, hR⟩ := hv
    exact ⟨he, k, hi.eq hR rfl⟩
  · obtain ⟨he, k, s, data, hR, hd⟩ := hv
    exact ⟨he, k, s, data, hi.eq hR rfl, hd⟩
  · obtain ⟨hc, k, hR⟩ := hv
    refine ⟨hc.congr fun e he => ?_, k, hi.eq hR rfl⟩
    obtain ⟨l, next, bytes, hl⟩ := hc.extent he
    rw [hl]
    exact (h e (by simp [Value.own, he])).eq hl rfl

theorem Value.Stored.role (hv : v.Stored R) :
    ∃ k b, R v.index = some (k, b) ∧ b.refs = some (v.nameIndex, v.parent) := by
  unfold Value.Stored at hv
  split at hv
  · obtain ⟨-, k, c, hR⟩ := hv
    exact ⟨k, _, hR, rfl⟩
  · obtain ⟨-, k, hR⟩ := hv
    exact ⟨k, _, hR, rfl⟩
  · obtain ⟨-, k, s, data, hR, -⟩ := hv
    exact ⟨k, _, hR, rfl⟩
  · obtain ⟨-, k, hR⟩ := hv
    exact ⟨k, _, hR, rfl⟩

theorem Value.Stored.extent (hv : v.Stored R) {e : Nat} (he : e ∈ v.extents) :
    ∃ k next bytes, R e = some (k, .extent next bytes) := by
  unfold Value.Stored at hv
  split at hv
  · rw [hv.1] at he
    cases he
  · rw [hv.1] at he
    cases he
  · rw [hv.1] at he
    cases he
  · exact hv.1.extent he

theorem Value.own_role (hs : v.Stored R) (hn : v.Named R) (hj : j ∈ v.own) :
    ∃ k b, R j = some (k, b) ∧
    (b.gain ≠ none → ∃ c, j = v.index ∧ b = .node v.nameIndex v.parent c) := by
  simp only [Value.own, mem_cons] at hj
  rcases hj with rfl | rfl | hj
  · obtain ⟨k, b, hR, hb⟩ := hs.role
    refine ⟨k, b, hR, fun hg => ?_⟩
    cases b with
    | node n p c =>
      cases hb
      exact ⟨c, rfl, rfl⟩
    | number | array | property => exact absurd rfl hg
    | _ => cases hb
  · obtain ⟨l, hl⟩ := hn
    exact ⟨l, _, hl, fun hg => absurd rfl hg⟩
  · obtain ⟨l, next, bytes, hl⟩ := hs.extent hj
    exact ⟨l, _, hl, fun hg => absurd rfl hg⟩

theorem Value.own_gain (hs : v.Stored R) (hn : v.Named R) (hc : v.content ≠ .node)
    (hj : j ∈ v.own) (hR : R j = some (k, b)) : b.gain = none := by
  obtain ⟨k', b', hR', hb⟩ := Value.own_role hs hn hj
  rw [hR] at hR'
  cases hR'
  by_contra hg
  obtain ⟨c, rfl, rfl⟩ := hb hg
  unfold Value.Stored at hs
  split at hs
  · contradiction
  · simp [hR] at hs
  · simp [hR] at hs
  · simp [hR] at hs

theorem Headed.ne_none (h : Headed S) : S 0 ≠ none := by
  obtain ⟨g, -, hg⟩ := h
  simp [hg]

theorem Headed.adopts (h : Headed S) (hq : q ≠ 0 → S.Adopts q) : S.Adopts q := by
  obtain rfl | h0 := eq_or_ne q 0
  · obtain ⟨g, -, hg⟩ := h
    exact ⟨0, _, hg, by simp [gain]⟩
  · exact hq h0

theorem Headed.count_ne_zero (h : Headed S) (hq : S q = some (k, b)) (hc : b.count = some c) :
    q ≠ 0 := by
  rintro rfl
  obtain ⟨g, -, hg⟩ := h
  rw [hg] at hq
  cases hq
  cases hc

theorem gain_count (hb : b.count = some c) : b.gain = some (b.withCount (c + 1)) := by
  cases b <;> cases hb <;> rfl

end Roles

namespace Owns
variable {R S : Roles} {ts : List Nat} {v : Value} {vs ws : List Value} {i p : Nat}

section
variable (O : Owns R ts vs)
include O

theorem perm (h : vs.Perm ws) : Owns R ts ws := by
  have hown : (owned ts vs).Perm (owned ts ws) := ((h.flatMap_right _).append_left ts).cons 0
  refine ⟨O.header, hown.nodup_iff.mp O.nodup, fun i => (O.mem i).trans hown.mem_iff, ?_, ?_, ?_,
    O.tomb, ?_, ?_⟩
  · exact fun v hv => O.stored v (h.mem_iff.mpr hv)
  · exact fun v hv => O.named v (h.mem_iff.mpr hv)
  · intro p k b c hp hb
    rw [O.count hp hb]
    exact h.countP_eq _
  · exact fun v hv => O.parent v (h.mem_iff.mpr hv)
  · exact fun v hv => O.loop v (h.mem_iff.mpr hv)

theorem own_ne_none (hv : v ∈ vs) (hi : i ∈ v.own) : R i ≠ none :=
  (O.mem i).mpr (mem_owned.mpr (.inr (.inr ⟨v, hv, hi⟩)))

theorem own_ne_zero (hv : v ∈ vs) (hi : i ∈ v.own) : i ≠ 0 := by
  rintro rfl
  obtain ⟨h0, -⟩ := nodup_cons.mp O.nodup
  exact h0 (mem_append_right _ (mem_flatMap.mpr ⟨v, hv, hi⟩))

theorem tomb_ne_zero (ht : i ∈ ts) : i ≠ 0 := by
  rintro rfl
  obtain ⟨h0, -⟩ := nodup_cons.mp O.nodup
  exact h0 (mem_append_left _ ht)

theorem cases {k : Nat} {b : Role} (hi : R i = some (k, b)) :
    (i = 0 ∧ ∃ g, b = .header g) ∨ (i ∈ ts ∧ ∃ c, b = .tombstone (c + 1)) ∨
    ∃ v ∈ vs, (i = v.index ∧ b.refs = some (v.nameIndex, v.parent)) ∨
      (i = v.nameIndex ∧ b = .name v.name) ∨ (i ∈ v.extents ∧ ∃ e bytes, b = .extent e bytes) := by
  rcases mem_owned.mp ((O.mem i).mp (by simp [hi])) with rfl | ht | ⟨v, hv, hown⟩
  · obtain ⟨g, -, h0⟩ := O.header
    cases hi.symm.trans h0
    exact .inl ⟨rfl, g, rfl⟩
  · obtain ⟨_, c, hR⟩ := O.tomb i ht
    cases hi.symm.trans hR
    exact .inr (.inl ⟨ht, c, rfl⟩)
  · refine .inr (.inr ⟨v, hv, ?_⟩)
    simp only [Value.own, mem_cons] at hown
    rcases hown with rfl | rfl | hin
    · obtain ⟨_, _, hR, hrefs⟩ := (O.stored v hv).role
      cases hi.symm.trans hR
      exact .inl ⟨rfl, hrefs⟩
    · obtain ⟨_, hR⟩ := O.named v hv
      cases hi.symm.trans hR
      exact .inr (.inl ⟨rfl, rfl⟩)
    · obtain ⟨_, e, bytes, hR⟩ := (O.stored v hv).extent hin
      cases hi.symm.trans hR
      exact .inr (.inr ⟨hin, e, bytes, rfl⟩)

theorem reheader (hhead : Headed S) (hold : ∀ j, j ≠ 0 → S j = R j) : Owns S ts vs := by
  have hown : ∀ u ∈ vs, ∀ j ∈ u.own, Same R S j := fun u hu j hj =>
    .inl (hold j (O.own_ne_zero hu hj))
  refine ⟨hhead, O.nodup, ?_, fun u hu => (O.stored u hu).congr (hown u hu),
    fun u hu => (O.named u hu).congr (hown u hu), ?_, ?_, ?_, O.loop⟩
  · intro i
    by_cases h0 : i = 0
    · subst i
      exact ⟨fun _ => mem_cons_self, fun _ => hhead.ne_none⟩
    · rw [hold i h0]
      exact O.mem i
  · intro q k b c hq hc
    rw [hold q (hhead.count_ne_zero hq hc)] at hq
    exact O.count hq hc
  · intro t ht
    rw [hold t (O.tomb_ne_zero ht)]
    exact O.tomb t ht
  · intro u hu
    refine hhead.adopts fun h0 => ?_
    obtain ⟨k, b, hR, hb⟩ := O.parent u hu
    exact ⟨k, b, (hold _ h0).trans hR, hb⟩

end

theorem adopts_gain {q : Nat} (hq : R.Adopts q) : (R.change p gain).Adopts q := by
  obtain ⟨k, b, hR, hb⟩ := hq
  by_cases hqp : q = p
  · subst q
    rw [Adopts, change_eq hR, update_self]
    cases b with
    | header | node | tombstone => exact ⟨k, _, rfl, by simp [gain]⟩
    | _ => exact absurd rfl hb
  · exact ⟨k, b, (change_of_ne hqp _).trans hR, hb⟩

theorem change_gain_ne_none (hp : R.Adopts p) : R.change p gain i ≠ none ↔ R i ≠ none := by
  by_cases hip : i = p
  · subst i
    obtain ⟨k, b, hR, hb⟩ := hp
    rw [change_eq hR, update_self, hR]
    simpa using hb
  · rw [change_of_ne hip]

theorem same_change (O : Owns R ts vs) (hp : R.Adopts p) (hv : v ∈ vs) {f : Role → Option Role}
    (hf : ∀ n q c, ∃ d, f (.node n q c) = some (.node n q d)) {j : Nat} (hj : j ∈ v.own) :
    Same R (R.change p f) j := by
  by_cases hjp : j = p
  · subst j
    obtain ⟨k, b, hR, hb⟩ := Value.own_role (O.stored v hv) (O.named v hv) hj
    obtain ⟨k', b', hR', hb'⟩ := hp
    rw [hR] at hR'
    cases hR'
    obtain ⟨c, -, rfl⟩ := hb hb'
    obtain ⟨d, hd⟩ := hf v.nameIndex v.parent c
    refine .inr ⟨k, _, _, c, d, hR, ?_⟩
    rw [change_eq hR, hd, update_self, Option.map_some]
  · exact .inl (change_of_ne hjp _)

theorem count_gain (O : Owns R ts vs) {q k c : Nat} {b : Role}
    (hq : R.change p gain q = some (k, b)) (hc : b.count = some c) :
    c = children vs q + if p = q then 1 else 0 := by
  by_cases hqp : q = p
  · subst q
    cases hR : R p with
    | none => simp [change, hR] at hq
    | some kb =>
      obtain ⟨l, d⟩ := kb
      rw [change_eq hR, update_self] at hq
      cases d with
      | node n r x | tombstone x =>
        have hx := O.count hR rfl
        cases hq
        cases hc
        simp [hx]
      | header =>
        cases hq
        cases hc
      | _ => cases hq
  · rw [change_of_ne hqp] at hq
    rw [O.count hq hc, if_neg (Ne.symm hqp), add_zero]

theorem create (O : Owns R ts vs) (hfresh : ∀ j ∈ v.own, R j = none) (hnd : v.own.Nodup)
    (hp : R.Adopts v.parent) (hs : v.Stored S) (hn : v.Named S)
    (hzero : ∀ {k b c}, S v.index = some (k, b) → b.count = some c → c = 0) (hhead : Headed S)
    (hold : ∀ j, j ≠ 0 → j ∉ v.own → S j = R.change v.parent gain j) : Owns S ts (v :: vs) := by
  have hnot : ∀ {j}, R j ≠ none → j ∉ v.own := fun hj hin => hj (hfresh _ hin)
  have hpne : ∀ {q}, R.Adopts q → q ∉ v.own := by
    rintro q ⟨k, b, hR, -⟩
    exact hnot (by simp [hR])
  have hown : ∀ u ∈ vs, ∀ j ∈ u.own, Same R S j := by
    intro u hu j hj
    have hS := hold j (O.own_ne_zero hu hj) (hnot (O.own_ne_none hu hj))
    rw [Same, hS]
    exact O.same_change hp hu (fun n q c => ⟨c + 1, rfl⟩) hj
  have hnone : ∀ j ∈ v.own, S j ≠ none := by
    intro j hj
    obtain ⟨k, b, hb, -⟩ := Value.own_role hs hn hj
    simp [hb]
  refine ⟨hhead, ?_, ?_, ?_, ?_, ?_, ?_, ?_, ?_⟩
  · refine owned_cons_perm.nodup_iff.mpr (nodup_append'.mpr ⟨hnd, O.nodup, ?_⟩)
    exact fun j hj hin => (O.mem j).mpr hin (hfresh j hj)
  · intro i
    rw [owned_cons_perm.mem_iff, mem_append]
    by_cases hi : i ∈ v.own
    · exact ⟨fun _ => .inl hi, fun _ => hnone i hi⟩
    · by_cases h0 : i = 0
      · subst i
        exact ⟨fun _ => .inr mem_cons_self, fun _ => hhead.ne_none⟩
      · rw [hold i h0 hi, change_gain_ne_none hp, O.mem i]
        exact ⟨.inr, fun h => h.resolve_left hi⟩
  · exact forall_mem_cons.mpr ⟨hs, fun u hu => (O.stored u hu).congr (hown u hu)⟩
  · exact forall_mem_cons.mpr ⟨hn, fun u hu => (O.named u hu).congr (hown u hu)⟩
  · intro q k b c hq hc
    rw [children_cons]
    by_cases hqv : q ∈ v.own
    · have hnochild : children vs q = 0 := by
        refine countP_eq_zero.mpr fun u hu hpar => ?_
        have hpar : u.parent = q := by simpa using hpar
        exact hpne (O.parent u hu) (hpar ▸ hqv)
      have hnotpar : v.parent ≠ q := by
        rintro rfl
        exact hpne hp hqv
      rw [hnochild, if_neg hnotpar]
      obtain ⟨k', b', hR, hb⟩ := Value.own_role hs hn hqv
      rw [hq] at hR
      cases hR
      obtain ⟨d, rfl, -⟩ := hb (by rw [gain_count hc]; simp)
      exact hzero hq hc
    · rw [hold q (hhead.count_ne_zero hq hc) hqv] at hq
      exact O.count_gain hq hc
  · intro t ht
    obtain ⟨k, c, hR⟩ := O.tomb t ht
    rw [hold t (O.tomb_ne_zero ht) (hnot (by simp [hR]))]
    by_cases htp : t = v.parent
    · subst htp
      exact ⟨k, c + 1, by rw [change_eq hR, update_self]; rfl⟩
    · exact ⟨k, c, (change_of_ne htp _).trans hR⟩
  · intro u hu
    have hq := (forall_mem_cons (p := fun u => R.Adopts u.parent)).mpr ⟨hp, O.parent⟩ u hu
    refine hhead.adopts fun h0 => ?_
    obtain ⟨k, b, hR, hb⟩ := adopts_gain (p := v.parent) hq
    exact ⟨k, b, (hold _ h0 (hpne hq)).trans hR, hb⟩
  · exact forall_mem_cons.mpr ⟨fun he => hpne hp (he ▸ mem_cons_self), O.loop⟩

section
variable (O : Owns R ts (v :: vs))
include O

theorem count_lose {q k c : Nat} {b : Role} (hq : R.change v.parent lose q = some (k, b))
    (hc : b.count = some c) : c = children vs q := by
  by_cases hqp : q = v.parent
  · subst q
    have hone : children (v :: vs) v.parent = children vs v.parent + 1 := by
      rw [children_cons, if_pos rfl]
    cases hR : R v.parent with
    | none => simp [change, hR] at hq
    | some kb =>
      obtain ⟨l, d⟩ := kb
      rw [change_eq hR, update_self] at hq
      cases d with
      | node n r x =>
        have hx := O.count hR rfl
        cases hq
        cases hc
        omega
      | tombstone x =>
        have hx := O.count hR rfl
        obtain _ | _ | x := x <;> cases hq
        cases hc
        omega
      | header =>
        cases hq
        cases hc
      | _ => cases hq
  · rw [change_of_ne hqp] at hq
    rw [O.count hq hc, children_cons, if_neg (Ne.symm hqp), add_zero]

theorem adopts_lose {q : Nat} (hq : R.Adopts q) (hc : 0 < children vs q) :
    (R.change v.parent lose).Adopts q := by
  obtain ⟨k, b, hR, hb⟩ := hq
  by_cases hqp : q = v.parent
  · subst q
    rw [Adopts, change_eq hR, update_self]
    cases b with
    | header g | node n r x => exact ⟨k, _, rfl, by simp [gain]⟩
    | tombstone x =>
      have hx := O.count hR rfl
      rw [children_cons, if_pos rfl] at hx
      obtain ⟨y, rfl⟩ : ∃ y, x = y + 2 := ⟨x - 2, by omega⟩
      exact ⟨k, _, rfl, by simp [gain]⟩
    | _ => exact absurd rfl hb
  · exact ⟨k, b, (change_of_ne hqp _).trans hR, hb⟩

/-- A value is deleted: its name and its extents go, its parent loses a child, and its own block
stays as a tombstone if it has children. -/
theorem delete (hgone : ∀ j ∈ v.nameIndex :: v.extents, S j = none)
    (hidx : S v.index = R.change v.index Role.grave v.index) (hhead : Headed S)
    (hold : ∀ j, j ≠ 0 → j ∉ v.own → S j = R.change v.parent lose j) :
    Owns S ((v.index :: ts).filter fun t => (S t).isSome) vs := by
  have hperm : (owned ts (v :: vs)).Perm (v.own ++ owned ts vs) := owned_cons_perm
  obtain ⟨hnd1, hnd2, hdis⟩ := nodup_append'.mp (hperm.nodup_iff.mp O.nodup)
  have hnot : ∀ {j}, j ∈ owned ts vs → j ∉ v.own := fun hj hin => hdis hin hj
  have hself : v ∈ v :: vs := mem_cons_self
  have hmem : ∀ {u}, u ∈ vs → u ∈ v :: vs := fun hu => mem_cons_of_mem v hu
  have hin : ∀ {u j}, u ∈ vs → j ∈ u.own → j ∈ owned ts vs :=
    fun hu hj => mem_owned.mpr (.inr (.inr ⟨_, hu, hj⟩))
  have hown : ∀ u ∈ vs, ∀ j ∈ u.own, Same R S j := by
    intro u hu j hj
    rw [Same, hold j (O.own_ne_zero (hmem hu) hj) (hnot (hin hu hj))]
    exact O.same_change (O.parent v hself) (hmem hu) (fun n q c => ⟨c - 1, rfl⟩) hj
  obtain ⟨ki, bi, hRi, hbi⟩ := (O.stored v hself).role
  rw [change_eq hRi, update_self] at hidx
  -- the block of the handle is gone, or it is a tombstone that counts the children left
  have hgrave : S v.index = none ∧ (bi.gain ≠ none → children vs v.index = 0) ∨
      ∃ c, S v.index = some (ki, .tombstone (c + 1)) ∧ c + 1 = children vs v.index := by
    rw [hidx]
    cases bi with
    | node n r x =>
      have hx := O.count hRi rfl
      rw [children_cons, if_neg (O.loop v hself), add_zero] at hx
      cases x with
      | zero => exact .inl ⟨rfl, fun _ => hx.symm⟩
      | succ x => exact .inr ⟨x, rfl, hx⟩
    | number | array | property => exact .inl ⟨rfl, fun hg => absurd rfl hg⟩
    | _ => cases hbi
  have hsome : ∀ {u j}, u ∈ vs → j ∈ u.own → S j ≠ none := by
    intro u j hu hj
    rcases hown u hu j hj with he | ⟨_, _, _, _, _, -, he⟩
    · rw [he]
      exact O.own_ne_none (hmem hu) hj
    · simp [he]
  refine ⟨hhead, ?_, ?_, ?_, ?_, ?_, ?_, ?_, ?_⟩
  · have hbig : (v.index :: owned ts vs).Nodup :=
      nodup_cons.mpr ⟨fun hin => hdis mem_cons_self hin, hnd2⟩
    refine ((List.Perm.swap 0 v.index _).nodup_iff.mp hbig).sublist ?_
    exact ((filter_sublist (l := v.index :: ts)).append_right _).cons_cons 0
  · intro i
    rw [mem_owned, mem_filter]
    constructor
    · intro hS
      by_cases h0 : i = 0
      · exact .inl h0
      by_cases hii : i = v.index
      · subst hii
        exact .inr (.inl ⟨mem_cons_self, Option.isSome_iff_ne_none.mpr hS⟩)
      by_cases hio : i ∈ v.nameIndex :: v.extents
      · exact absurd (hgone i hio) hS
      have hnotin := not_mem_cons_of_ne_of_not_mem hii hio
      have hR : R i ≠ none := by
        intro hR
        rw [hold i h0 hnotin] at hS
        by_cases hip : i = v.parent
        · subst hip
          exact hS (by simp [change, hR])
        · rw [change_of_ne hip] at hS
          exact hS hR
      rcases mem_owned.mp ((O.mem i).mp hR) with h | h | ⟨u, hu, hj⟩
      · exact absurd h h0
      · exact .inr (.inl ⟨mem_cons_of_mem _ h, Option.isSome_iff_ne_none.mpr hS⟩)
      · rcases mem_cons.mp hu with rfl | hu
        · exact absurd hj hnotin
        · exact .inr (.inr ⟨u, hu, hj⟩)
    · rintro (rfl | ⟨-, hi⟩ | ⟨u, hu, hj⟩)
      · exact hhead.ne_none
      · exact Option.isSome_iff_ne_none.mp hi
      · exact hsome hu hj
  · exact fun u hu => (O.stored u (hmem hu)).congr (hown u hu)
  · exact fun u hu => (O.named u (hmem hu)).congr (hown u hu)
  · intro q k b c hq hc
    by_cases hqi : q = v.index
    · subst q
      rcases hgrave with ⟨hn, -⟩ | ⟨x, hx, hcx⟩
      · rw [hn] at hq
        cases hq
      · rw [hx] at hq
        cases hq
        cases hc
        exact hcx
    · by_cases hqn : q ∈ v.nameIndex :: v.extents
      · rw [hgone q hqn] at hq
        cases hq
      · rw [hold q (hhead.count_ne_zero hq hc) (not_mem_cons_of_ne_of_not_mem hqi hqn)] at hq
        exact O.count_lose hq hc
  · intro t ht
    obtain ⟨ht, hS⟩ := mem_filter.mp ht
    rcases mem_cons.mp ht with rfl | ht
    · rcases hgrave with ⟨hn, -⟩ | ⟨x, hx, -⟩
      · simp [hn] at hS
      · exact ⟨ki, x, hx⟩
    · obtain ⟨k, c, hR⟩ := O.tomb t ht
      have htn : t ∉ v.own := hnot (mem_owned.mpr (.inr (.inl ht)))
      rw [hold t (O.tomb_ne_zero ht) htn] at hS ⊢
      by_cases htp : t = v.parent
      · subst htp
        rw [change_eq hR, update_self] at hS ⊢
        cases c with
        | zero => simp [lose] at hS
        | succ c => exact ⟨k, c, rfl⟩
      · exact ⟨k, c, (change_of_ne htp _).trans hR⟩
  · intro u hu
    have hq := O.parent u (hmem hu)
    have hpos := children_pos hu rfl
    refine hhead.adopts fun h0 => ?_
    by_cases hui : u.parent = v.index
    · rw [hui] at hq hpos ⊢
      obtain ⟨k, b, hR, hb⟩ := hq
      rw [hRi] at hR
      cases hR
      rcases hgrave with ⟨-, hz⟩ | ⟨x, hx, -⟩
      · rw [hz hb] at hpos
        omega
      · exact ⟨ki, _, hx, by simp [gain]⟩
    · have hun : u.parent ∉ v.own := by
        intro hin
        obtain ⟨k, b, hR, hb⟩ := Value.own_role (O.stored v hself) (O.named v hself) hin
        obtain ⟨k', b', hR', hb'⟩ := hq
        rw [hR] at hR'
        cases hR'
        exact hui (hb hb').choose_spec.1
      obtain ⟨k, b, hR, hb⟩ := O.adopts_lose hq hpos
      exact ⟨k, b, (hold _ h0 hun).trans hR, hb⟩
  · exact fun u hu => O.loop u (hmem hu)

theorem replace {w : Value} (hv : v.content ≠ .node) (hw : w.content ≠ .node)
    (hi : w.index = v.index) (hp : w.parent = v.parent) (hni : w.nameIndex = v.nameIndex)
    (hs : w.Stored S) (hn : w.Named S) (hnd : w.own.Nodup)
    (hfresh : ∀ j ∈ w.extents, j ∈ v.extents ∨ R j = none) (hhead : Headed S)
    (hold : ∀ j, j ≠ 0 → j ∉ w.own → S j = R.without v.extents j) : Owns S ts (w :: vs) := by
  obtain ⟨-, hnd2, hdis⟩ := nodup_append'.mp (owned_cons_perm.nodup_iff.mp O.nodup)
  have hself : v ∈ v :: vs := mem_cons_self
  have hmem : ∀ {u}, u ∈ vs → u ∈ v :: vs := fun hu => mem_cons_of_mem v hu
  have hwv : ∀ {j}, j ∈ w.own → j ∈ v.own ∨ R j = none := by
    intro j hj
    simp only [Value.own, mem_cons, hi, hni] at hj ⊢
    rcases hj with h | h | h
    · exact .inl (.inl h)
    · exact .inl (.inr (.inl h))
    · exact (hfresh j h).imp (fun h => .inr (.inr h)) id
  have hkeep : ∀ {j}, j ∈ owned ts vs → j ∉ w.own ∧ j ∉ v.extents := by
    intro j hj
    have hR : R j ≠ none := (O.mem j).mpr (owned_cons_perm.mem_iff.mpr (mem_append_right _ hj))
    refine ⟨fun hin => ?_, fun hin => hdis (by simp [Value.own, hin]) hj⟩
    exact (hwv hin).elim (fun h => hdis h hj) hR
  have hsame : ∀ {j}, j ∈ owned ts vs → j ≠ 0 → S j = R j := by
    intro j hj h0
    rw [hold j h0 (hkeep hj).1, without, if_neg (hkeep hj).2]
  have hin : ∀ {u j}, u ∈ vs → j ∈ u.own → j ∈ owned ts vs :=
    fun hu hj => mem_owned.mpr (.inr (.inr ⟨_, hu, hj⟩))
  have hown : ∀ u ∈ vs, ∀ j ∈ u.own, Same R S j := fun u hu j hj =>
    .inl (hsame (hin hu hj) (O.own_ne_zero (hmem hu) hj))
  have hadopts : ∀ {q}, R.Adopts q → q ∈ owned ts vs := by
    rintro q ⟨k, b, hR, hb⟩
    have hq := owned_cons_perm.mem_iff.mp ((O.mem q).mp (by simp [hR]))
    refine (mem_append.mp hq).resolve_left fun hq => hb ?_
    exact Value.own_gain (O.stored v hself) (O.named v hself) hv hq hR
  refine ⟨hhead, ?_, ?_, ?_, ?_, ?_, ?_, ?_, ?_⟩
  · refine owned_cons_perm.nodup_iff.mpr (nodup_append'.mpr ⟨hnd, hnd2, ?_⟩)
    exact fun j hj hjo => (hkeep hjo).1 hj
  · intro i
    rw [owned_cons_perm.mem_iff, mem_append]
    by_cases hiw : i ∈ w.own
    · obtain ⟨k, b, hb, -⟩ := Value.own_role hs hn hiw
      exact ⟨fun _ => .inl hiw, fun _ => by simp [hb]⟩
    by_cases h0 : i = 0
    · subst i
      exact ⟨fun _ => .inr mem_cons_self, fun _ => hhead.ne_none⟩
    · constructor
      · intro hS
        rw [hold i h0 hiw, without] at hS
        split at hS
        · exact absurd rfl hS
        · rename_i hie
          refine .inr ((mem_append.mp (owned_cons_perm.mem_iff.mp ((O.mem i).mp hS))).resolve_left ?_)
          intro hiv
          simp only [Value.own, mem_cons, hi, hni] at hiv hiw
          exact hiw (hiv.imp_right (Or.imp_right fun h => absurd h hie))
      · intro hio
        have hio := hio.resolve_left hiw
        rw [hsame hio h0]
        exact (O.mem i).mpr (owned_cons_perm.mem_iff.mpr (mem_append_right _ hio))
  · exact forall_mem_cons.mpr ⟨hs, fun u hu => (O.stored u (hmem hu)).congr (hown u hu)⟩
  · exact forall_mem_cons.mpr ⟨hn, fun u hu => (O.named u (hmem hu)).congr (hown u hu)⟩
  · intro q k b c hq hc
    have hg : b.gain ≠ none := by
      rw [gain_count hc]
      simp
    have hqw : q ∉ w.own := fun hin => hg (Value.own_gain hs hn hw hin hq)
    rw [hold q (hhead.count_ne_zero hq hc) hqw, without] at hq
    split at hq
    · cases hq
    · rw [children_cons, hp, ← children_cons]
      exact O.count hq hc
  · intro t ht
    obtain ⟨k, c, hR⟩ := O.tomb t ht
    exact ⟨k, c, (hsame (mem_owned.mpr (.inr (.inl ht))) (O.tomb_ne_zero ht)).trans hR⟩
  · intro u hu
    refine hhead.adopts fun h0 => ?_
    obtain ⟨k, b, hR, hb⟩ : R.Adopts u.parent := by
      rcases mem_cons.mp hu with rfl | hu
      · rw [hp]
        exact O.parent v hself
      · exact O.parent u (hmem hu)
    exact ⟨k, b, (hsame (hadopts ⟨k, b, hR, hb⟩) h0).trans hR, hb⟩
  · refine forall_mem_cons.mpr ⟨?_, fun u hu => O.loop u (hmem hu)⟩
    rw [hp, hi]
    exact O.loop v hself

end

theorem children_lt (O : Owns R ts vs) (hlt : ∀ i, R i ≠ none → i < 2 ^ 28) (p : Nat) :
    children vs p < 2 ^ 28 := by
  have hsub : owned ts vs ⊆ List.range (2 ^ 28) :=
    fun i hi => mem_range.mpr (hlt i ((O.mem i).mpr hi))
  have hlen := (O.nodup.subperm hsub).length_le
  have hvs : vs.length ≤ (vs.flatMap Value.own).length := by
    clear O hsub hlen
    induction vs with
    | nil => exact le_refl _
    | cons v vs ih =>
      simp only [length_cons, flatMap_cons, length_append, Value.own]
      omega
  have hcount : children vs p ≤ vs.length := countP_le_length
  rw [length_range, owned, length_cons, length_append] at hlen
  omega

end Owns

end Garnet.Inspect
