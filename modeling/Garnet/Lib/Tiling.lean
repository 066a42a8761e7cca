import Mathlib.Data.Nat.Bitwise
import Mathlib.Tactic.Ring

/-! Tilings of the cells below a bound by blocks of power-of-two size that are aligned
to their size, as a buddy allocator keeps them. A tiling is a relation `T start order`. -/

namespace Garnet.Tiling
open List

/-- The block of order `k` at `i` contains the cell `c`. -/
def Covers (i k c : Nat) : Prop := i ≤ c ∧ c < i + 2 ^ k

structure Tiles (orders cells : Nat) (T : Nat → Nat → Prop) : Prop where
  order_lt : ∀ {i k}, T i k → k < orders
  aligned : ∀ {i k}, T i k → 2 ^ k ∣ i
  inside : ∀ {i k}, T i k → i + 2 ^ k ≤ cells
  cover : ∀ c < cells, ∃ i k, T i k ∧ Covers i k c
  unique : ∀ {i k j l c}, T i k → T j l → Covers i k c → Covers j l c → i = j ∧ k = l

theorem covers_start (i k : Nat) : Covers i k i :=
  ⟨le_refl i, Nat.lt_add_of_pos_right (Nat.two_pow_pos k)⟩

namespace Tiles
variable {n N : Nat} {T T' : Nat → Nat → Prop} {i j k l c : Nat}

section
variable (h : Tiles n N T)
include h

theorem congr (he : ∀ i k, T' i k ↔ T i k) : Tiles n N T' := by
  have heq : T' = T := by
    funext i k
    exact propext (he i k)
  exact heq ▸ h

theorem start_unique (hk : T i k) (hl : T i l) : k = l :=
  (h.unique hk hl (covers_start i k) (covers_start i l)).2

theorem disjoint (hk : T i k) (hl : T j l) (hne : i ≠ j) (hc : Covers i k c) : ¬ Covers j l c :=
  fun hc' => hne (h.unique hk hl hc hc').1

theorem lt_cells (hk : T i k) : i < N :=
  lt_of_lt_of_le (covers_start i k).2 (h.inside hk)

theorem zero_start (hN : 0 < N) : ∃ k, T 0 k := by
  obtain ⟨i, k, ht, hi, _⟩ := h.cover 0 hN
  obtain rfl : i = 0 := Nat.le_zero.mp hi
  exact ⟨k, ht⟩

theorem next_start (hi : T i k) (hN : i + 2 ^ k < N) : ∃ l, T (i + 2 ^ k) l := by
  obtain ⟨j, l, hj, hle, hlt⟩ := h.cover _ hN
  have hp := Nat.two_pow_pos k
  rcases lt_or_ge j (i + 2 ^ k) with hjc | hjc
  · obtain ⟨rfl, rfl⟩ := h.unique (c := i + 2 ^ k - 1) hi hj ⟨by omega, by omega⟩ ⟨by omega, by omega⟩
    omega
  · obtain rfl : j = i + 2 ^ k := by omega
    exact ⟨l, hj⟩

end

/-- The block of order `k + 1` at `i` replaced by its two halves. -/
def Split (T : Nat → Nat → Prop) (i k j l : Nat) : Prop :=
  (T j l ∧ j ≠ i) ∨ (l = k ∧ (j = i ∨ j = i + 2 ^ k))

theorem split_covers (hi : T i (k + 1)) (hs : Split T i k j l) (hc : Covers j l c) :
    ∃ j' l', T j' l' ∧ Covers j' l' c ∧
      (j' = i → l = k ∧ (j = i ∨ j = i + 2 ^ k)) ∧ (j' ≠ i → j = j' ∧ l = l') := by
  have hp : 2 ^ (k + 1) = 2 ^ k + 2 ^ k := by ring
  obtain ⟨hc1, hc2⟩ := hc
  rcases hs with ⟨hj, hne⟩ | ⟨rfl, hj⟩
  · exact ⟨j, l, hj, ⟨hc1, hc2⟩, fun he => absurd he hne, fun _ => ⟨rfl, rfl⟩⟩
  · exact ⟨i, l + 1, hi, ⟨by omega, by omega⟩, fun _ => ⟨rfl, hj⟩, fun hne => absurd rfl hne⟩

theorem split (h : Tiles n N T) (hi : T i (k + 1)) : Tiles n N (Split T i k) := by
  have hp : 2 ^ (k + 1) = 2 ^ k + 2 ^ k := by ring
  have ha : 2 ^ k ∣ i := (pow_dvd_pow 2 (Nat.le_succ k)).trans (h.aligned hi)
  have hin := h.inside hi
  have hk := h.order_lt hi
  constructor
  · rintro j l (⟨hj, _⟩ | ⟨rfl, _⟩)
    · exact h.order_lt hj
    · omega
  · rintro j l (⟨hj, _⟩ | ⟨rfl, rfl | rfl⟩)
    · exact h.aligned hj
    · exact ha
    · exact Nat.dvd_add ha (Nat.dvd_refl _)
  · rintro j l (⟨hj, _⟩ | ⟨rfl, rfl | rfl⟩)
    · exact h.inside hj
    · omega
    · omega
  · intro c hc
    obtain ⟨j, l, hj, hc1, hc2⟩ := h.cover c hc
    by_cases hne : j = i
    · subst j
      obtain rfl := h.start_unique hj hi
      by_cases hlow : c < i + 2 ^ k
      · exact ⟨i, k, .inr ⟨rfl, .inl rfl⟩, hc1, hlow⟩
      · exact ⟨i + 2 ^ k, k, .inr ⟨rfl, .inr rfl⟩, by omega, by omega⟩
    · exact ⟨j, l, .inl ⟨hj, hne⟩, hc1, hc2⟩
  · intro a x b y c ha hb hca hcb
    obtain ⟨a', x', ta, ca, ea, na⟩ := split_covers hi ha hca
    obtain ⟨b', y', tb, cb, eb, nb⟩ := split_covers hi hb hcb
    obtain ⟨rfl, rfl⟩ := h.unique ta tb ca cb
    by_cases hne : a' = i
    · obtain ⟨rfl, hja⟩ := ea hne
      obtain ⟨rfl, hjb⟩ := eb hne
      obtain ⟨hca1, hca2⟩ := hca
      obtain ⟨hcb1, hcb2⟩ := hcb
      omega
    · obtain ⟨rfl, rfl⟩ := na hne
      obtain ⟨rfl, rfl⟩ := nb hne
      exact ⟨rfl, rfl⟩

/-- The blocks of order `k` at `i` and behind it replaced by one of order `k + 1`. -/
def Merge (T : Nat → Nat → Prop) (i k j l : Nat) : Prop :=
  (T j l ∧ j ≠ i ∧ j ≠ i + 2 ^ k) ∨ (j = i ∧ l = k + 1)

theorem merge (h : Tiles n N T) (hi : T i k) (hb : T (i + 2 ^ k) k) (ha : 2 ^ (k + 1) ∣ i)
    (hk : k + 1 < n) : Tiles n N (Merge T i k) := by
  have hp : 2 ^ (k + 1) = 2 ^ k + 2 ^ k := by ring
  have hin := h.inside hb
  constructor
  · rintro j l (⟨hj, _⟩ | ⟨_, rfl⟩)
    · exact h.order_lt hj
    · exact hk
  · rintro j l (⟨hj, _⟩ | ⟨rfl, rfl⟩)
    · exact h.aligned hj
    · exact ha
  · rintro j l (⟨hj, _⟩ | ⟨rfl, rfl⟩)
    · exact h.inside hj
    · omega
  · intro c hc
    obtain ⟨j, l, hj, hc1, hc2⟩ := h.cover c hc
    by_cases hji : j = i
    · subst j
      obtain rfl := h.start_unique hj hi
      exact ⟨i, l + 1, .inr ⟨rfl, rfl⟩, hc1, by omega⟩
    by_cases hjb : j = i + 2 ^ k
    · subst j
      obtain rfl := h.start_unique hj hb
      exact ⟨i, l + 1, .inr ⟨rfl, rfl⟩, by omega, by omega⟩
    · exact ⟨j, l, .inl ⟨hj, hji, hjb⟩, hc1, hc2⟩
  · have key : ∀ {j l c}, T j l → j ≠ i → j ≠ i + 2 ^ k → Covers j l c → ¬ Covers i (k + 1) c := by
      rintro j l c hj hji hjb hc ⟨h1, h2⟩
      by_cases hlow : c < i + 2 ^ k
      · exact h.disjoint hj hi hji hc ⟨h1, hlow⟩
      · exact h.disjoint hj hb hjb hc ⟨by omega, by omega⟩
    rintro a x b y c (⟨ta, ha1, ha2⟩ | ⟨rfl, rfl⟩) (⟨tb, hb1, hb2⟩ | ⟨rfl, rfl⟩) hca hcb
    · exact h.unique ta tb hca hcb
    · exact absurd hcb (key ta ha1 ha2 hca)
    · exact absurd hca (key tb hb1 hb2 hcb)
    · exact ⟨rfl, rfl⟩

theorem grow (h : Tiles (n + 1) N T) (hN : 2 ^ n ∣ N) (c : Nat) :
    Tiles (n + 1) (N + c * 2 ^ n) fun j l => T j l ∨ (l = n ∧ ∃ q < c, j = N + q * 2 ^ n) := by
  have hp := Nat.two_pow_pos n
  have hmul : ∀ {q d : Nat}, q < d → q * 2 ^ n + 2 ^ n ≤ d * 2 ^ n := by
    intro q d hq
    have := Nat.mul_le_mul_right (2 ^ n) hq
    rwa [Nat.succ_mul] at this
  constructor
  · rintro j l (hj | ⟨rfl, _⟩)
    · exact h.order_lt hj
    · exact Nat.lt_succ_self _
  · rintro j l (hj | ⟨rfl, q, _, rfl⟩)
    · exact h.aligned hj
    · exact Nat.dvd_add hN (Nat.dvd_mul_left _ _)
  · rintro j l (hj | ⟨rfl, q, hq, rfl⟩)
    · exact Nat.le_add_right_of_le (h.inside hj)
    · have := hmul hq
      omega
  · intro x hx
    by_cases hxN : x < N
    · obtain ⟨j, l, hj, hc⟩ := h.cover x hxN
      exact ⟨j, l, .inl hj, hc⟩
    · have hdm := Nat.div_add_mod (x - N) (2 ^ n)
      have hm := Nat.mod_lt (x - N) hp
      have hq : (x - N) / 2 ^ n < c := by
        rw [Nat.div_lt_iff_lt_mul hp]
        omega
      rw [mul_comm] at hdm
      exact ⟨N + (x - N) / 2 ^ n * 2 ^ n, n, .inr ⟨rfl, _, hq, rfl⟩, by omega, by omega⟩
  · rintro a x b y z (ta | ⟨rfl, q, hq, rfl⟩) (tb | ⟨rfl, r, hr, rfl⟩) ⟨ha1, ha2⟩ ⟨hb1, hb2⟩
    · exact h.unique ta tb ⟨ha1, ha2⟩ ⟨hb1, hb2⟩
    · have := h.inside ta
      omega
    · have := h.inside tb
      omega
    · have hqr : q = r := by
        rcases Nat.lt_trichotomy q r with hlt | heq | hlt
        · have := hmul hlt
          omega
        · exact heq
        · have := hmul hlt
          omega
      exact ⟨by rw [hqr], rfl⟩

end Tiles

/-- The other half of the block of order `k + 1` that contains the block of order `k` at `i`. -/
def buddy (i k : Nat) : Nat := i ^^^ 2 ^ k

theorem buddy_eq (k q : Nat) : buddy (q * 2 ^ k) k = (q ^^^ 1) * 2 ^ k := by
  have h := @Nat.shiftLeft_xor_distrib k q 1
  simpa [buddy, Nat.shiftLeft_eq] using h.symm

variable {i k : Nat}

theorem buddy_halves (h : 2 ^ k ∣ i) : (2 ^ (k + 1) ∣ i ∧ buddy i k = i + 2 ^ k) ∨
    (2 ^ (k + 1) ∣ buddy i k ∧ i = buddy i k + 2 ^ k) := by
  obtain ⟨q, rfl⟩ := h
  rw [mul_comm, buddy_eq]
  rcases Nat.even_or_odd q with he | ho
  · left
    obtain ⟨r, rfl⟩ := he
    refine ⟨⟨r, by ring⟩, ?_⟩
    rw [Nat.xor_one_of_even ⟨r, rfl⟩]
    ring
  · right
    obtain ⟨r, rfl⟩ := ho
    have hx : (2 * r + 1) ^^^ 1 = 2 * r := by
      rw [Nat.xor_one_of_odd ⟨r, rfl⟩]
      omega
    rw [hx]
    exact ⟨⟨r, by ring⟩, by ring⟩

theorem buddy_of_aligned (h : 2 ^ (k + 1) ∣ i) : buddy i k = i + 2 ^ k := by
  obtain ⟨r, rfl⟩ := h
  have he : 2 ^ (k + 1) * r = (r + r) * 2 ^ k := by ring
  rw [he, buddy_eq, Nat.xor_one_of_even ⟨r, rfl⟩]
  ring

theorem buddy_buddy (i k : Nat) : buddy (buddy i k) k = i := by
  simp [buddy]

theorem buddy_aligned (h : 2 ^ k ∣ i) : 2 ^ k ∣ buddy i k := by
  have hd : 2 ^ k ∣ 2 ^ (k + 1) := pow_dvd_pow 2 (Nat.le_succ k)
  rcases buddy_halves h with ⟨_, he⟩ | ⟨hb, _⟩
  · rw [he]
    exact Nat.dvd_add h (Nat.dvd_refl _)
  · exact hd.trans hb

theorem buddy_ne (h : 2 ^ k ∣ i) : buddy i k ≠ i := by
  have hp := Nat.two_pow_pos k
  rcases buddy_halves h with ⟨_, he⟩ | ⟨_, he⟩ <;> omega

namespace Tiles
variable {n N : Nat} {T : Nat → Nat → Prop} {i k : Nat}

theorem buddy_start (h : Tiles (n + 1) N T) (hN : 2 ^ n ∣ N) (hi : T i k) (hk : k < n) :
    ∃ l ≤ k, T (buddy i k) l := by
  have hp : 2 ^ (k + 1) = 2 ^ k + 2 ^ k := by ring
  have hpos := Nat.two_pow_pos k
  have ha := h.aligned hi
  have hin := h.inside hi
  obtain ⟨e, he, hei, heb⟩ : ∃ e, 2 ^ (k + 1) ∣ e ∧ (i = e ∨ i = e + 2 ^ k) ∧
      (buddy i k = e ∨ buddy i k = e + 2 ^ k) := by
    rcases buddy_halves ha with ⟨hd, hb⟩ | ⟨hd, hb⟩
    · exact ⟨i, hd, .inl rfl, .inr hb⟩
    · exact ⟨buddy i k, hd, .inr hb, .inl rfl⟩
  have hcells : e + 2 ^ (k + 1) ≤ N := by
    have hNk : 2 ^ (k + 1) ∣ N := (pow_dvd_pow 2 hk).trans hN
    exact Nat.le_of_lt_add_of_dvd (by omega) (Nat.dvd_add he (Nat.dvd_refl _)) hNk
  obtain ⟨j, l, hj, hj1, hj2⟩ := h.cover (buddy i k) (by omega)
  have hl : l ≤ k := by
    by_contra hgt
    have hdvd : 2 ^ (k + 1) ∣ 2 ^ l := pow_dvd_pow 2 (by omega)
    have hdj : 2 ^ (k + 1) ∣ j := hdvd.trans (h.aligned hj)
    have hje : j ≤ e := Nat.le_of_lt_add_of_dvd (by omega) hdj he
    have hend : e + 2 ^ (k + 1) ≤ j + 2 ^ l :=
      Nat.le_of_lt_add_of_dvd (by omega) (Nat.dvd_add he (Nat.dvd_refl _)) (Nat.dvd_add hdj hdvd)
    obtain ⟨_, rfl⟩ := h.unique hi hj (covers_start i k) ⟨by omega, by omega⟩
    omega
  have hlb : 2 ^ l ∣ buddy i k := (pow_dvd_pow 2 hl).trans (buddy_aligned ha)
  have hle : buddy i k ≤ j := Nat.le_of_lt_add_of_dvd hj2 hlb (h.aligned hj)
  obtain rfl : j = buddy i k := by omega
  exact ⟨l, hl, hj⟩

theorem aligned_start (h : Tiles (n + 1) N T) {c : Nat} (hc : c < N) (ha : 2 ^ n ∣ c) :
    ∃ l, T c l := by
  obtain ⟨j, l, hj, hj1, hj2⟩ := h.cover c hc
  have hl := h.order_lt hj
  have hlc : 2 ^ l ∣ c := (pow_dvd_pow 2 (by omega)).trans ha
  have hle : c ≤ j := Nat.le_of_lt_add_of_dvd hj2 hlc (h.aligned hj)
  obtain rfl : j = c := by omega
  exact ⟨l, hj⟩

theorem order_eq_of_no_buddies (h : Tiles (n + 1) N T) (hN : 2 ^ n ∣ N)
    (hno : ∀ i k, k < n → T i k → ¬ T (buddy i k) k) (hi : T i k) : k = n := by
  have hlt : ∀ k i, T i k → ¬ k < n := by
    intro k
    induction k using Nat.strong_induction_on with
    | _ k ih =>
      intro i hi hk
      obtain ⟨l, hl, hb⟩ := h.buddy_start hN hi hk
      rcases Nat.lt_or_eq_of_le hl with hl | rfl
      · exact ih l hl _ hb (by omega)
      · exact hno i l hk hi hb
  have := hlt k i hi
  have := h.order_lt hi
  omega

end Tiles

/-- Walk over the cells from `c`, stepping over a block of order `ord c`; `none` when the
walk does not end exactly at `N`. -/
def walk (ord : Nat → Nat) (N : Nat) : Nat → Nat → Option (List (Nat × Nat))
  | 0, _ => none
  | fuel + 1, c =>
    if c = N then some []
    else if N < c then none
    else (walk ord N fuel (c + 2 ^ ord c)).map ((c, ord c) :: ·)

namespace Tiles
variable {n N : Nat} {T : Nat → Nat → Prop}

section
variable (h : Tiles n N T) (ord : Nat → Nat) (ho : ∀ {i k}, T i k → ord i = k)
include h ord ho

theorem walk_eq (fuel c : Nat) (hf : N < c + fuel) (hc : c = N ∨ ∃ k, T c k) :
    ∃ bs, walk ord N fuel c = some bs ∧ (bs.map Prod.fst).Pairwise (· < ·) ∧
      ∀ i k, (i, k) ∈ bs ↔ T i k ∧ c ≤ i := by
  induction fuel generalizing c with
  | zero =>
    rcases hc with rfl | ⟨k, hk⟩
    · omega
    · have := h.lt_cells hk
      omega
  | succ fuel ih =>
    by_cases heq : c = N
    · refine ⟨[], by simp [walk, heq], by simp, ?_⟩
      intro i k
      simp only [not_mem_nil, false_iff, not_and]
      intro hi
      have := h.lt_cells hi
      omega
    · obtain ⟨k, hk⟩ := hc.resolve_left heq
      have hlt := h.lt_cells hk
      have hin := h.inside hk
      have hp := Nat.two_pow_pos k
      have hnext : c + 2 ^ k = N ∨ ∃ l, T (c + 2 ^ k) l := by
        rcases Nat.lt_or_eq_of_le hin with hl | he
        · exact .inr (h.next_start hk hl)
        · exact .inl he
      obtain ⟨bs, hw, hs, hm⟩ := ih (c + 2 ^ k) (by omega) hnext
      refine ⟨(c, k) :: bs, ?_, ?_, ?_⟩
      · simp only [walk, if_neg heq, if_neg (by omega : ¬ N < c), ho hk, hw, Option.map_some]
      · rw [map_cons, pairwise_cons]
        refine ⟨?_, hs⟩
        intro x hx
        obtain ⟨⟨i, l⟩, hb, rfl⟩ := mem_map.mp hx
        have := ((hm i l).mp hb).2
        simp only
        omega
      · intro i l
        rw [mem_cons, hm i l, Prod.mk.injEq]
        constructor
        · rintro (⟨rfl, rfl⟩ | ⟨ht, hle⟩)
          · exact ⟨hk, le_refl _⟩
          · exact ⟨ht, by omega⟩
        · rintro ⟨ht, hle⟩
          by_cases hic : i = c
          · subst i
            exact .inl ⟨rfl, h.start_unique ht hk⟩
          · right
            refine ⟨ht, ?_⟩
            by_contra hlow
            exact h.disjoint hk ht (Ne.symm hic) (c := i) ⟨by omega, by omega⟩ (covers_start i l)

theorem walk_zero :
    ∃ bs, walk ord N (N + 1) 0 = some bs ∧ (bs.map Prod.fst).Pairwise (· < ·) ∧
      ∀ i k, (i, k) ∈ bs ↔ T i k := by
  have h0 : 0 = N ∨ ∃ k, T 0 k := by
    rcases Nat.eq_zero_or_pos N with he | hpos
    · exact .inl he.symm
    · exact .inr (h.zero_start hpos)
  obtain ⟨bs, hw, hs, hm⟩ := h.walk_eq ord ho (N + 1) 0 (by omega) h0
  exact ⟨bs, hw, hs, fun i k => by simpa using hm i k⟩

end

end Tiles

end Garnet.Tiling
