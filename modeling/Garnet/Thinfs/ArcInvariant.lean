import Garnet.Thinfs.Arc
import Garnet.Lib.Assoc
import Mathlib.Order.MinMax
import Mathlib.Order.BooleanAlgebra.Set

/-! The lists of the cache and their lengths. Every call takes the entries that it makes room for
out of their lists, and puts the entry that it was called for in front of one. -/

namespace Garnet.Arc
open List
open Assoc (lookup_insert_cases lookup_erase_cases)
open Relation (ReflTransGen)
open AList (lookup_erase_ne lookup_insert lookup_insert_ne)
variable {κ ν σ ε : Type} [DecidableEq κ] (c : C κ ν σ)

def C.unlist (l : ListName) (el : Element κ) : C κ ν σ :=
  { c with lists := Function.update c.lists l ((c.lists l).erase el) }

def C.enlist (l : ListName) (k : κ) (e : Entry κ ν) : C κ ν σ :=
  { c with
    lists := Function.update c.lists l (⟨c.fresh, k⟩ :: c.lists l)
    entries := c.entries.insert k { e with elem := some ⟨c.fresh, k⟩, list := some l }
    fresh := c.fresh + 1 }

def C.unmap (k : κ) : C κ ν σ := { c with entries := c.entries.erase k }

def C.withEntry (k : κ) (e : Entry κ ν) : C κ ν σ := { c with entries := c.entries.insert k e }

def C.withStore (s : σ) : C κ ν σ := { c with bs := s }

def C.len (l : ListName) : Nat := (c.lists l).length

/-- Entries and list elements point at each other, but for the loose entries, which are in no
list. -/
structure Linked (loose : Set κ) (c : C κ ν σ) : Prop where
  entry : ∀ k e, c.entries.lookup k = some e → k ∉ loose →
    ∃ l el, e.list = some l ∧ e.elem = some el ∧ el.key = k ∧ el ∈ c.lists l
  listed : ∀ l, ∀ el ∈ c.lists l, el.key ∉ loose ∧
    ∃ e, c.entries.lookup el.key = some e ∧ e.list = some l ∧ e.elem = some el
  nodup : ∀ l, (c.lists l).Nodup
  old : ∀ l, ∀ el ∈ c.lists l, el.id < c.fresh

section Linked
variable {c : C κ ν σ} {loose : Set κ} {k : κ} {e : Entry κ ν} {l : ListName} {el : Element κ}
  {l' : ListName} {el' : Element κ}

theorem Linked.mem (h : Linked loose c) (he : c.entries.lookup k = some e) (hk : k ∉ loose)
    (hl : e.list = some l) (hel : e.elem = some el) : el.key = k ∧ el ∈ c.lists l := by
  obtain ⟨l', el', hl', hel', hkey, hmem⟩ := h.entry k e he hk
  obtain rfl := Option.some.inj (hl.symm.trans hl')
  obtain rfl := Option.some.inj (hel.symm.trans hel')
  exact ⟨hkey, hmem⟩

theorem lists_unlist (l' : ListName) :
    (c.unlist l el).lists l' =
      if l' = l then (c.lists l).erase el else c.lists l' := Function.update_apply ..

theorem lists_enlist (l' : ListName) :
    (c.enlist l k e).lists l' =
      if l' = l then ⟨c.fresh, k⟩ :: c.lists l else c.lists l' := Function.update_apply ..

theorem mem_unlist (hne : el' ≠ el) (h : el' ∈ c.lists l') : el' ∈ (c.unlist l el).lists l' := by
  rw [lists_unlist]
  split
  next hl => exact (mem_erase_of_ne hne).mpr (hl ▸ h)
  next => exact h

theorem Linked.of_mem_unlist (h : Linked loose c)
    (hmem : el' ∈ (c.unlist l el).lists l') : el' ∈ c.lists l' ∧ (l' = l → el' ≠ el) := by
  rw [lists_unlist] at hmem
  split at hmem
  next hl =>
    have hboth := (h.nodup l).mem_erase_iff.mp hmem
    exact ⟨hl ▸ hboth.2, fun _ => hboth.1⟩
  next hl => exact ⟨hmem, fun heq => absurd heq hl⟩

theorem Linked.unlist (h : Linked loose c) (he : c.entries.lookup k = some e) (hk : k ∉ loose)
    (hl : e.list = some l) (hel : e.elem = some el) : Linked (insert k loose) (c.unlist l el) := by
  obtain ⟨hkey, hmem⟩ := h.mem he hk hl hel
  refine ⟨?_, ?_, ?_, ?_⟩
  · intro j e' he' hj
    rw [Set.mem_insert_iff, not_or] at hj
    obtain ⟨l', el', hl', hel', hkey', hmem'⟩ := h.entry j e' he' hj.2
    refine ⟨l', el', hl', hel', hkey', mem_unlist ?_ hmem'⟩
    intro heq
    exact hj.1 (by rw [← hkey', ← hkey, heq])
  · intro l' el' hmem'
    obtain ⟨hold, hne⟩ := h.of_mem_unlist hmem'
    obtain ⟨hnot, e', he', hl', hel'⟩ := h.listed l' el' hold
    refine ⟨?_, e', he', hl', hel'⟩
    rw [Set.mem_insert_iff, not_or]
    refine ⟨?_, hnot⟩
    -- the entry of the key points at the element that was taken out
    intro heq
    rw [heq, he] at he'
    obtain rfl := Option.some.inj he'
    exact hne (Option.some.inj (hl'.symm.trans hl)) (Option.some.inj (hel'.symm.trans hel))
  · intro l'
    rw [lists_unlist]
    split
    next => exact (h.nodup l).erase el
    next => exact h.nodup l'
  · intro l' el' hmem'
    exact h.old l' el' (h.of_mem_unlist hmem').1

theorem mem_enlist :
    el' ∈ (c.enlist l k e).lists l' ↔ (l' = l ∧ el' = ⟨c.fresh, k⟩) ∨ el' ∈ c.lists l' := by
  rw [lists_enlist]
  split
  next hl => simp [hl]
  next hl => simp [hl]

variable (h : Linked loose c)
include h

theorem Linked.enlist (hk : k ∈ loose) (l : ListName) (e : Entry κ ν) :
    Linked (loose \ {k}) (c.enlist l k e) := by
  have hlookup (j : κ) (hj : j ≠ k) : (c.enlist l k e).entries.lookup j = c.entries.lookup j :=
    lookup_insert_ne hj
  refine ⟨?_, ?_, ?_, ?_⟩
  · intro j e' he' hj
    by_cases hjk : j = k
    · subst hjk
      have hsame := (lookup_insert _).symm.trans he'
      obtain rfl := Option.some.inj hsame
      exact ⟨l, _, rfl, rfl, rfl, mem_enlist.mpr (.inl ⟨rfl, rfl⟩)⟩
    · rw [hlookup j hjk] at he'
      obtain ⟨l', el', hl', hel', hkey, hmem⟩ := h.entry j e' he' (fun hin => hj ⟨hin, hjk⟩)
      exact ⟨l', el', hl', hel', hkey, mem_enlist.mpr (.inr hmem)⟩
  · intro l' el' hmem
    rcases mem_enlist.mp hmem with ⟨rfl, rfl⟩ | hold
    · exact ⟨fun hin => hin.2 rfl, _, lookup_insert _, rfl, rfl⟩
    · obtain ⟨hnot, e', he', hl', hel'⟩ := h.listed l' el' hold
      refine ⟨fun hin => hnot hin.1, e', ?_, hl', hel'⟩
      have hne : el'.key ≠ k := fun heq => hnot (heq ▸ hk)
      exact (hlookup _ hne).trans he'
  · intro l'
    rw [lists_enlist]
    split
    next => exact nodup_cons.mpr ⟨fun hin => lt_irrefl _ (h.old l _ hin), h.nodup l⟩
    next => exact h.nodup l'
  · intro l' el' hmem
    rcases mem_enlist.mp hmem with ⟨rfl, rfl⟩ | hold
    · exact Nat.lt_succ_self _
    · exact Nat.lt_succ_of_lt (h.old l' el' hold)

theorem Linked.unmap (hk : k ∈ loose) : Linked (loose \ {k}) (c.unmap k) := by
  refine ⟨?_, ?_, h.nodup, h.old⟩
  · intro j e' he' hj
    by_cases hjk : j = k
    · subst hjk
      cases (AList.lookup_erase j c.entries).symm.trans he'
    · have he' : c.entries.lookup j = some e' := (lookup_erase_ne hjk).symm.trans he'
      exact h.entry j e' he' (fun hin => hj ⟨hin, hjk⟩)
  · intro l' el' hmem
    obtain ⟨hnot, e', he', hl', hel'⟩ := h.listed l' el' hmem
    refine ⟨fun hin => hnot hin.1, e', ?_, hl', hel'⟩
    have hne : el'.key ≠ k := fun heq => hnot (heq ▸ hk)
    exact (lookup_erase_ne hne).trans he'

theorem Linked.withEntry (he : c.entries.lookup k = some e) {e' : Entry κ ν}
    (hl : e'.list = e.list) (hel : e'.elem = e.elem) : Linked loose (c.withEntry k e') := by
  refine ⟨?_, ?_, h.nodup, h.old⟩
  · intro j e₁ he₁ hj
    rcases lookup_insert_cases he₁ with ⟨rfl, rfl⟩ | ⟨_, he₁⟩
    · rw [hl, hel]
      exact h.entry j e he hj
    · exact h.entry j e₁ he₁ hj
  · intro l' el' hmem
    obtain ⟨hnot, e₁, he₁, hl', hel'⟩ := h.listed l' el' hmem
    refine ⟨hnot, ?_⟩
    by_cases hkey : el'.key = k
    · rw [hkey, he] at he₁
      obtain rfl := Option.some.inj he₁
      rw [hkey]
      exact ⟨e', lookup_insert _, hl.trans hl', hel.trans hel'⟩
    · exact ⟨e₁, (lookup_insert_ne hkey).trans he₁, hl', hel'⟩

theorem Linked.newEntry (hk : c.entries.lookup k = none) (e : Entry κ ν) :
    Linked (insert k loose) (c.withEntry k e) := by
  refine ⟨?_, ?_, h.nodup, h.old⟩
  · intro j e₁ he₁ hj
    rw [Set.mem_insert_iff, not_or] at hj
    exact h.entry j e₁ ((lookup_insert_ne hj.1).symm.trans he₁) hj.2
  · intro l' el' hmem
    obtain ⟨hnot, e₁, he₁, hl', hel'⟩ := h.listed l' el' hmem
    have hkey : el'.key ≠ k := by
      intro heq
      rw [heq, hk] at he₁
      cases he₁
    refine ⟨?_, e₁, (lookup_insert_ne hkey).trans he₁, hl', hel'⟩
    rw [Set.mem_insert_iff, not_or]
    exact ⟨hkey, hnot⟩

theorem Linked.withStore (s : σ) : Linked loose (c.withStore s) := ⟨h.entry, h.listed, h.nodup, h.old⟩

end Linked

section Lengths
variable {c : C κ ν σ} {k : κ} {e : Entry κ ν} {l : ListName} {el : Element κ}

omit [DecidableEq κ] in
theorem length_lists (l : ListName) : (c.lists l).length = c.len l := rfl

theorem len_unlist (hmem : el ∈ c.lists l) (l' : ListName) :
    (c.unlist l el).len l' = if l' = l then c.len l - 1 else c.len l' := by
  rw [C.len, lists_unlist]
  split
  next => exact length_erase_of_mem hmem
  next => rfl

@[simp] theorem len_enlist (l' : ListName) :
    (c.enlist l k e).len l' = if l' = l then c.len l + 1 else c.len l' := by
  rw [C.len, lists_enlist]
  split
  next => rfl
  next => rfl

@[simp] theorem size_enlist : (c.enlist l k e).size = c.size := rfl
@[simp] theorem p_enlist : (c.enlist l k e).p = c.p := rfl

omit [DecidableEq κ] in
theorem len_pos (hmem : el ∈ c.lists l) : 0 < c.len l := length_pos_of_mem hmem

end Lengths

/-- The lengths of the lists: the cache is full before anything goes to the history. -/
structure Sizes : Prop where
  pos : 1 ≤ c.size
  top : c.len .lru + c.len .lfu = min c.size (c.len .lru + c.len .lruhist + c.len .lfu +
    c.len .lfuhist)
  recent : c.len .lru + c.len .lruhist ≤ c.size
  all : c.len .lru + c.len .lruhist + c.len .lfu + c.len .lfuhist ≤ 2 * c.size
  low : 0 ≤ c.p
  high : c.p ≤ c.size

omit [DecidableEq κ] in
theorem Sizes.congr {c c' : C κ ν σ} (h : Sizes c) (hlists : c'.lists = c.lists)
    (hsize : c'.size = c.size) (hp : c'.p = c.p) : Sizes c' := by
  have hlen (l : ListName) : c'.len l = c.len l := by rw [C.len, hlists, C.len]
  refine ⟨?_, ?_, ?_, ?_, ?_, ?_⟩
  · exact hsize ▸ h.pos
  · simpa only [hlen, hsize] using h.top
  · simpa only [hlen, hsize] using h.recent
  · simpa only [hlen, hsize] using h.all
  · exact hp ▸ h.low
  · simpa only [hp, hsize] using h.high

/-- The entries have a property, but for those that are excepted. -/
def Each (P : Entry κ ν → Prop) (except : Set κ) (c : C κ ν σ) : Prop :=
  ∀ k e, c.entries.lookup k = some e → k ∉ except → P e

/-- An entry in the history has no value to write back, but for the entry that is excepted. -/
def Blank (except : Set κ) (c : C κ ν σ) : Prop :=
  ∀ k e, c.entries.lookup k = some e → k ∉ except → e.inHistory = true → e.value = none ∧
    e.isDirty = false

/-- An entry outside the history has a value, but for the entry that is excepted. -/
def Valued (except : Set κ) (c : C κ ν σ) : Prop :=
  ∀ k e, c.entries.lookup k = some e → k ∉ except → e.inHistory = false → e.value ≠ none

def Committed (store : BackingStore κ ν σ ε) (s : σ) (k : κ) (e : Entry κ ν) (s' : σ) : Prop :=
  (e.isDirty = false ∧ s' = s) ∨ (e.isDirty = true ∧ store.put k e.value s = .ok () s')

def StoreFails {α : Type} (x : CacheM κ ν σ ε α) (c : C κ ν σ) : Prop :=
  ∃ e c', x c = .error (.store e) c'

/-- The call fails in the backing store, and then `F` holds, or it returns with `G`. -/
def Ends {α : Type} (x : CacheM κ ν σ ε α) (c : C κ ν σ) (F : Prop) (G : α → C κ ν σ → Prop) :
    Prop :=
  (StoreFails x c ∧ F) ∨ ∃ a c', x c = .ok a c' ∧ G a c'

/-- An entry other than that of `k` loses its value: it goes to the history or away. -/
inductive Drops (store : BackingStore κ ν σ ε) (k : κ) (c : C κ ν σ) : C κ ν σ → Prop
  | evict {j : κ} {e : Entry κ ν} {el : Element κ} {top bottom : ListName} {s' : σ} (hj : j ≠ k)
      (he : c.entries.lookup j = some e) (hl : e.list = some top) (hel : e.elem = some el)
      (hb : bottom = .lruhist ∨ bottom = .lfuhist) (hs : Committed store c.bs j e s') :
      Drops store k c (((c.withStore s').unlist top el).enlist bottom j
        ⟨some el, some top, none, false⟩)
  | remove {j : κ} {e : Entry κ ν} {el : Element κ} {l : ListName} {s' : σ} (hj : j ≠ k)
      (he : c.entries.lookup j = some e) (hl : e.list = some l) (hel : e.elem = some el)
      (hs : Committed store c.bs j e s') :
      Drops store k c (((c.withStore s').unlist l el).unmap j)

/-- Some entry, perhaps after others were dropped, cannot be written back. -/
def Stuck (store : BackingStore κ ν σ ε) (k : κ) (c : C κ ν σ) : Prop :=
  ∃ c' j e, ReflTransGen (Drops store k) c c' ∧ c'.entries.lookup j = some e ∧
    ∀ s', ¬ Committed store c'.bs j e s'

section Drops
variable {store : BackingStore κ ν σ ε} {c c' : C κ ν σ} {loose : Set κ} {k : κ}

theorem Stuck.of_drops (h : Stuck store k c') (hdrop : Drops store k c c') : Stuck store k c := by
  obtain ⟨c'', j, e, hdrops, he, hno⟩ := h
  exact ⟨c'', j, e, .head hdrop hdrops, he, hno⟩

section
variable (h : Drops store k c c')
include h

theorem Drops.lookup : c'.entries.lookup k = c.entries.lookup k := by
  cases h with
  | evict hj => exact lookup_insert_ne (Ne.symm hj)
  | remove hj => exact lookup_erase_ne (Ne.symm hj)

theorem Drops.linked (hloose : loose ⊆ {k}) (hc : Linked loose c) : Linked loose c' := by
  have hdiff (j : κ) (hj : j ≠ k) : j ∉ loose := fun hin => hj (hloose hin)
  cases h with
  | @evict j e el top bottom s' hj he hl hel hb hs =>
    have hnot := hdiff j hj
    have hnext :=
      ((hc.withStore s').unlist he hnot hl hel).enlist (Set.mem_insert j loose) bottom
        ⟨some el, some top, none, false⟩
    rwa [Set.insert_sdiff_self_of_notMem hnot] at hnext
  | @remove j e el l s' hj he hl hel hs =>
    have hnot := hdiff j hj
    have hnext := ((hc.withStore s').unlist he hnot hl hel).unmap (Set.mem_insert j loose)
    rwa [Set.insert_sdiff_self_of_notMem hnot] at hnext

theorem Drops.each {P : Entry κ ν → Prop} (hc : Each P {k} c)
    (hP : ∀ el l, l = .lruhist ∨ l = .lfuhist → P ⟨el, some l, none, false⟩) : Each P {k} c' := by
  intro j e he hj
  cases h with
  | evict _ _ _ _ hb =>
    rcases lookup_insert_cases he with ⟨rfl, rfl⟩ | ⟨_, he⟩
    · exact hP _ _ hb
    · exact hc j e he hj
  | remove => exact hc j e (lookup_erase_cases he).2 hj

theorem Drops.blank (hc : Blank {k} c) : Blank {k} c' := h.each hc fun _ _ _ _ => ⟨rfl, rfl⟩

theorem Drops.valued (hc : Valued {k} c) : Valued {k} c' :=
  h.each hc fun _ l hl hhist => by rcases hl with rfl | rfl <;> cases hhist

end

variable (h : ReflTransGen (Drops store k) c c')
include h

theorem drops_linked (hloose : loose ⊆ {k}) (hc : Linked loose c) : Linked loose c' := by
  induction h with
  | refl => exact hc
  | tail _ hstep ih => exact hstep.linked hloose ih

theorem drops_blank (hc : Blank {k} c) : Blank {k} c' := by
  induction h with
  | refl => exact hc
  | tail _ hstep ih => exact hstep.blank ih

theorem drops_valued (hc : Valued {k} c) : Valued {k} c' := by
  induction h with
  | refl => exact hc
  | tail _ hstep ih => exact hstep.valued ih

theorem drops_lookup : c'.entries.lookup k = c.entries.lookup k := by
  induction h with
  | refl => rfl
  | tail _ hstep ih => exact hstep.lookup.trans ih

theorem drops_size : c'.size = c.size := by
  induction h with
  | refl => rfl
  | tail _ hstep ih =>
    refine Eq.trans ?_ ih
    cases hstep <;> rfl

end Drops

/-- The entry of `k` is not in the list. -/
def Apart (k : κ) (l : ListName) : Prop := ∀ el ∈ c.lists l, el.key ≠ k

section Calls
variable (store : BackingStore κ ν σ ε) {c : C κ ν σ} {loose : Set κ} {k : κ} {e : Entry κ ν}
  {l : ListName} {α β : Type} {x : CacheM κ ν σ ε α} {c' c : C κ ν σ}

theorem Linked.apart (hc : Linked {k} c) (l : ListName) : Apart c k l :=
  fun el hel heq => (hc.listed l el hel).1 heq

theorem Linked.apart_of_ne (hc : Linked loose c) (he : c.entries.lookup k = some e)
    (hl : e.list ≠ some l) : Apart c k l := by
  intro el hel heq
  obtain ⟨_, e', he', hl', _⟩ := hc.listed l el hel
  rw [heq, he] at he'
  obtain rfl := Option.some.inj he'
  exact hl hl'

section Ends
variable {a : α} {f : α → CacheM κ ν σ ε β} {F F' : Prop} {G : α → C κ ν σ → Prop}
  {G' : β → C κ ν σ → Prop}

omit [DecidableEq κ] in
theorem Ends.ok (h : x c = .ok a c') (hG : G a c') : Ends x c F G := .inr ⟨a, c', h, hG⟩

omit [DecidableEq κ] in
theorem Ends.imp {G' : α → C κ ν σ → Prop} (h : Ends x c F G) (hF : F → F')
    (hG : ∀ a c', G a c' → G' a c') : Ends x c F' G' := by
  rcases h with ⟨hfails, h⟩ | ⟨a, c', hok, h⟩
  · exact .inl ⟨hfails, hF h⟩
  · exact .inr ⟨a, c', hok, hG a c' h⟩

omit [DecidableEq κ] in
theorem Ends.step (hx : x c = .ok a c') (hf : Ends (f a) c' F G') : Ends (x >>= f) c F G' := by
  unfold Ends StoreFails
  rw [bind_ok hx]
  exact hf

omit [DecidableEq κ] in
theorem Ends.bind (hx : Ends x c F G) (hF : F → F') (hf : ∀ a c', G a c' → Ends (f a) c' F' G') :
    Ends (x >>= f) c F' G' := by
  rcases hx with ⟨⟨err, c', hx⟩, h⟩ | ⟨a, c', hx, h⟩
  · exact .inl ⟨⟨err, c', bind_error hx f⟩, hF h⟩
  · exact (hf a c' h).step hx

end Ends

omit [DecidableEq κ] in
theorem commit_ends (c : C κ ν σ) (k : κ) (e : Entry κ ν) :
    Ends (commit store k e) c (∀ s', ¬ Committed store c.bs k e s') fun _ c' =>
      ∃ s', Committed store c.bs k e s' ∧ c' = c.withStore s' := by
  unfold commit
  rcases hd : e.isDirty with _ | _
  · exact .ok rfl ⟨c.bs, .inl ⟨hd, rfl⟩, rfl⟩
  · rw [if_pos rfl]
    rcases hput : store.put k e.value c.bs with ⟨⟨⟩, s'⟩ | ⟨err, s'⟩
    · exact .ok (a := ()) (by rw [onStore, hput]; rfl) ⟨s', .inr ⟨hd, hput⟩, rfl⟩
    · refine .inl ⟨⟨err, c.withStore s', by rw [onStore, hput]; rfl⟩, ?_⟩
      rintro s'' (⟨hclean, _⟩ | ⟨_, hput'⟩)
      · cases hd.symm.trans hclean
      · cases hput.symm.trans hput'

theorem entryOf_ok (he : c.entries.lookup k = some e) :
    (entryOf k : CacheM κ ν σ ε _) c = .ok e c := by
  simp only [entryOf, he]

omit [DecidableEq κ] in
theorem get_ok : (get : CacheM κ ν σ ε _) c = .ok c c := rfl

omit [DecidableEq κ] in
theorem get_bind (f : C κ ν σ → CacheM κ ν σ ε α) : (get >>= f) c = f c c := rfl

theorem back_cases (hc : Linked loose c) (hne : c.len l ≠ 0) : ∃ el e, el ∈ c.lists l ∧
    (back l : CacheM κ ν σ ε κ) c = .ok el.key c ∧ c.entries.lookup el.key = some e ∧
      e.list = some l ∧ e.elem = some el := by
  have hnil : c.lists l ≠ [] := fun h => hne (length_eq_zero_iff.mpr h)
  have hmem := getLast_mem hnil
  obtain ⟨_, e, he, hl, hel⟩ := hc.listed l _ hmem
  refine ⟨_, e, hmem, ?_, he, hl, hel⟩
  simp only [back, List.getLast?_eq_some_getLast hnil]

theorem evict_ends (hc : Linked loose c) {top bottom : ListName} (hne : c.len top ≠ 0)
    (hk : Apart c k top) (hb : bottom = .lruhist ∨ bottom = .lfuhist) :
    Ends (evict store top bottom) c (Stuck store k c) fun _ c' => Drops store k c c' ∧
      c'.size = c.size ∧ c'.p = c.p ∧
      ∀ l, c'.len l = if l = bottom then (if bottom = top then c.len top - 1 else c.len bottom) + 1
        else if l = top then c.len top - 1 else c.len l := by
  obtain ⟨el, e, hmem, hback, he, hl, hel⟩ := back_cases (ε := ε) hc hne
  refine .step hback (.step (entryOf_ok he) ((commit_ends store c el.key e).bind
    (fun hstuck => ⟨c, el.key, e, .refl, he, hstuck⟩) ?_))
  rintro _ _ ⟨s', hs, rfl⟩
  refine .ok (a := ()) ?_ ⟨.evict (hk el hmem) he hl hel hb hs, rfl, rfl, fun l => ?_⟩
  · rw [hel]
    rfl
  · have hlen := len_unlist (c := c.withStore s') hmem
    rw [len_enlist, hlen, hlen]
    rfl

theorem remove_ends (hc : Linked loose c) (hne : c.len l ≠ 0) (hk : Apart c k l) :
    Ends (back l >>= remove store) c (Stuck store k c) fun _ c' => Drops store k c c' ∧
      c'.size = c.size ∧ c'.p = c.p ∧
        ∀ l', c'.len l' = if l' = l then c.len l - 1 else c.len l' := by
  obtain ⟨el, e, hmem, hback, he, hl, hel⟩ := back_cases (ε := ε) hc hne
  refine .step hback (.step (entryOf_ok he) ((commit_ends store c el.key e).bind
    (fun hstuck => ⟨c, el.key, e, .refl, he, hstuck⟩) ?_))
  rintro _ _ ⟨s', hs, rfl⟩
  refine .ok (a := ()) ?_ ⟨.remove (hk el hmem) he hl hel hs, rfl, rfl, fun l => ?_⟩
  · rw [hl, hel]
    rfl
  · exact len_unlist (c := c.withStore s') hmem l

def Shifts (c c' : C κ ν σ) (top bottom : ListName) : Prop :=
  c.len top ≠ 0 ∧ c'.size = c.size ∧ c'.p = c.p ∧ ∀ l, c'.len l =
    if l = bottom then c.len bottom + 1 else if l = top then c.len top - 1 else c.len l

theorem replace_ends (e : Entry κ ν) (hc : Linked loose c) (hlru : Apart c k .lru)
    (hlfu : Apart c k .lfu) (hne : c.len .lfu ≠ 0 ∨
      (c.len .lru ≥ 1 ∧ ((e.list = some .lfuhist ∧ (c.len .lru : Int) = c.p) ∨
        (c.len .lru : Int) > c.p))) :
    Ends (replace store e) c (Stuck store k c) fun _ c' => Drops store k c c' ∧
      (Shifts c c' .lru .lruhist ∨ Shifts c c' .lfu .lfuhist) := by
  refine .step get_ok ?_
  dsimp only
  split
  next hcond =>
    have hpos : c.len .lru ≠ 0 := Nat.ne_of_gt hcond.1
    refine (evict_ends store hc hpos hlru (.inl rfl)).imp id ?_
    exact fun _ c' ⟨hdrops, hshift⟩ => ⟨hdrops, .inl ⟨hpos, hshift⟩⟩
  next hcond =>
    have hpos : c.len .lfu ≠ 0 := hne.resolve_right hcond
    refine (evict_ends store hc hpos hlfu (.inr rfl)).imp id ?_
    exact fun _ c' ⟨hdrops, hshift⟩ => ⟨hdrops, .inr ⟨hpos, hshift⟩⟩

theorem remove_replace_ends (e : Entry κ ν) (hc : Linked {k} c) (hl : l = .lruhist ∨ l = .lfuhist)
    (hne : c.len l ≠ 0) (hlfu : c.len .lfu ≠ 0) :
    Ends (do remove store (← back l); replace store e) c (Stuck store k c) fun _ c' =>
      ReflTransGen (Drops store k) c c' ∧ ∃ c₁ : C κ ν σ,
        (c₁.size = c.size ∧ c₁.p = c.p ∧ ∀ l',
          c₁.len l' = if l' = l then c.len l - 1 else c.len l') ∧
        (Shifts c₁ c' .lru .lruhist ∨ Shifts c₁ c' .lfu .lfuhist) := by
  have hfront : (do remove store (← back l); replace store e : CacheM κ ν σ ε Unit) =
      ((back l >>= remove store) >>= fun _ => replace store e) := (bind_assoc _ _ _).symm
  rw [hfront]
  refine (remove_ends store hc hne (hc.apart l)).bind id ?_
  rintro _ c₁ ⟨hdrop₁, hsize, hp, hlen⟩
  have hc₁ : Linked {k} c₁ := hdrop₁.linked (Set.Subset.refl _) hc
  have hlfu₁ : c₁.len .lfu ≠ 0 := by
    have hnot : ListName.lfu ≠ l := by
      rcases hl with rfl | rfl <;> exact nofun
    rw [hlen, if_neg hnot]
    exact hlfu
  refine (replace_ends store e hc₁ (hc₁.apart .lru) (hc₁.apart .lfu) (.inl hlfu₁)).imp
    (·.of_drops hdrop₁) ?_
  exact fun _ c' ⟨hdrop', hshifts⟩ => ⟨(ReflTransGen.single hdrop₁).tail hdrop', c₁,
    ⟨hsize, hp, hlen⟩, hshifts⟩

theorem Shifts.room (h : Shifts c c' .lru .lruhist ∨ Shifts c c' .lfu .lfuhist) (hpos : 1 ≤ c.size)
    (hlow : 0 ≤ c.p) (hhigh : c.p ≤ c.size) (hfull : c.len .lru + c.len .lfu = c.size)
    (hrecent : c.len .lru + c.len .lruhist < c.size)
    (hall : c.len .lru + c.len .lruhist + c.len .lfu + c.len .lfuhist < 2 * c.size)
    (e : Entry κ ν) : Sizes (c'.enlist .lru k e) := by
  rcases h with ⟨hne, hsize, hp, hlen⟩ | ⟨hne, hsize, hp, hlen⟩
  all_goals
    refine ⟨?_, ?_, ?_, ?_, ?_, ?_⟩ <;>
      simp only [len_enlist, size_enlist, p_enlist, hlen, hsize, hp, reduceCtorEq, if_true,
        if_false] <;> omega

theorem makeRoom_ends (e : Entry κ ν) (hc : Linked {k} c) (hsizes : Sizes c) :
    Ends (makeRoom store e) c (Stuck store k c) fun _ c' =>
      ReflTransGen (Drops store k) c c' ∧ ∀ e', Sizes (c'.enlist .lru k e') := by
  obtain ⟨hpos, htop, hrecent, hall, hlow, hhigh⟩ := hsizes
  refine .step get_ok ?_
  dsimp only
  have hlru := length_lists (c := c) .lru
  have hlruhist := length_lists (c := c) .lruhist
  have hlfu := length_lists (c := c) .lfu
  have hlfuhist := length_lists (c := c) .lfuhist
  split
  next hfull =>
    split
    next hroom =>
      refine (remove_replace_ends store e hc (.inl rfl) (by omega) (by omega)).imp id ?_
      rintro _ c' ⟨hdrops, c₁, ⟨hsize, hp, hlen⟩, hshifts⟩
      refine ⟨hdrops, Shifts.room hshifts ?_ ?_ ?_ ?_ ?_ ?_⟩
      all_goals simp only [hlen, hsize, hp, reduceCtorEq, if_true, if_false]; omega
    next hroom =>
      refine (remove_ends store hc (by omega) (hc.apart .lru)).imp id ?_
      rintro _ c' ⟨hdrop, hsize, hp, hlen⟩
      refine ⟨.single hdrop, fun e' => ⟨?_, ?_, ?_, ?_, ?_, ?_⟩⟩
      all_goals simp only [len_enlist, size_enlist, p_enlist, hlen, hsize, hp, reduceCtorEq, if_true, if_false]; omega
  next hnot =>
    split
    next hmany =>
      split
      next htwice =>
        refine (remove_replace_ends store e hc (.inr rfl) (by omega) (by omega)).imp id ?_
        rintro _ c' ⟨hdrops, c₁, ⟨hsize, hp, hlen⟩, hshifts⟩
        refine ⟨hdrops, Shifts.room hshifts ?_ ?_ ?_ ?_ ?_ ?_⟩
        all_goals simp only [hlen, hsize, hp, reduceCtorEq, if_true, if_false]; omega
      next htwice =>
        refine (replace_ends store e hc (hc.apart .lru) (hc.apart .lfu) (.inl (by omega))).imp id ?_
        rintro _ c' ⟨hdrop, hshifts⟩
        refine ⟨.single hdrop, Shifts.room hshifts hpos hlow hhigh ?_ ?_ ?_⟩
        all_goals omega
    next hfew =>
      refine .ok rfl ⟨.refl, fun e' => ⟨?_, ?_, ?_, ?_, ?_, ?_⟩⟩
      all_goals simp only [len_enlist, size_enlist, p_enlist, reduceCtorEq, if_true, if_false]; omega

theorem handleMiss_ends (hc : Linked {k} c) (hsizes : Sizes c) (he : c.entries.lookup k = some e)
    (hl : e.list = some .lru) :
    Ends (handleMiss store k) c (Stuck store k c) fun _ c₂ => ∃ c',
      ReflTransGen (Drops store k) c c' ∧
      c₂ = c'.enlist .lru k e ∧ Sizes c₂ := by
  refine .step (entryOf_ok he) ((makeRoom_ends store e hc hsizes).bind id ?_)
  rintro _ c' ⟨hdrops, hroom⟩
  refine .ok (a := ()) ?_ ⟨c', hdrops, rfl, hroom e⟩
  obtain ⟨elem, list, value, isDirty⟩ := e
  obtain rfl : list = some .lru := hl
  rfl

theorem handleHit_ok {el : Element κ} (he : c.entries.lookup k = some e) (hl : e.list = some l)
    (hel : e.elem = some el) :
    (handleHit k : CacheM κ ν σ ε Unit) c = .ok () ((c.unlist l el).enlist .lfu k e) := by
  refine (bind_ok (entryOf_ok he) _).trans ?_
  rw [hl, hel]
  rfl

def C.withP (c : C κ ν σ) (p : Int) : C κ ν σ := { c with p := p }

omit [DecidableEq κ] in
theorem adapt_ok (hsizes : Sizes c) (hlen : ∀ l, e.list = some l → c.len l ≠ 0)
    (hhist : e.inHistory = true) :
    ∃ p, (adapt e : CacheM κ ν σ ε Unit) c = .ok () (c.withP p) ∧ 0 ≤ p ∧ p ≤ c.size := by
  have hlow := hsizes.low
  have hhigh := hsizes.high
  have hquot (a b : Nat) (hb : b ≠ 0) : (quotient a b : CacheM κ ν σ ε Int) =
      pure ((a / b : Nat) : Int) := if_neg hb
  unfold adapt
  simp only [get_bind, length_lists]
  split
  next hl =>
    rw [hquot _ _ (hlen _ hl)]
    refine ⟨_, rfl, ?_, ?_⟩ <;> omega
  next hl =>
    have hl' : e.list = some .lfuhist := by simpa [Entry.inHistory, hl] using hhist
    rw [hquot _ _ (hlen _ hl')]
    refine ⟨_, rfl, ?_, ?_⟩ <;> omega

theorem handleFakeHit_ends (hc : Linked ∅ c) (hsizes : Sizes c) (he : c.entries.lookup k = some e)
    (hhist : e.inHistory = true) :
    Ends (handleFakeHit store k) c (∃ p, Stuck store k (c.withP p)) fun _ c₂ =>
      ∃ p c' l el, e.list = some l ∧ e.elem = some el ∧
        ReflTransGen (Drops store k) (c.withP p) c' ∧
        c₂ = (c'.unlist l el).enlist .lfu k e ∧ Sizes c₂ := by
  obtain ⟨l, el, hl, hel, hkey, hmem⟩ := hc.entry k e he (Set.notMem_empty k)
  have hlen (l' : ListName) (hl' : e.list = some l') : c.len l' ≠ 0 := by
    obtain rfl := Option.some.inj (hl.symm.trans hl')
    exact Nat.ne_of_gt (len_pos hmem)
  have hname : l = .lruhist ∨ l = .lfuhist := by simpa [Entry.inHistory, hl] using hhist
  obtain ⟨p, hadapt, hp0, hp1⟩ := adapt_ok (ε := ε) hsizes hlen hhist
  obtain ⟨hpos, htop, hrecent, hall, hlow, hhigh⟩ := hsizes
  have hcp : Linked ∅ (c.withP p) := ⟨hc.entry, hc.listed, hc.nodup, hc.old⟩
  have hapart (l' : ListName) (hl' : l ≠ l') : Apart (c.withP p) k l' :=
    hcp.apart_of_ne he (by rw [hl]; exact fun h => hl' (Option.some.inj h))
  have hlpos := hlen l hl
  have hne : c.len .lfu ≠ 0 ∨
      (c.len .lru ≥ 1 ∧ ((e.list = some .lfuhist ∧ (c.len .lru : Int) = p) ∨
        (c.len .lru : Int) > p)) := by
    rcases hname with rfl | rfl
    · exact .inl (by omega)
    · by_cases hlfu : c.len .lfu = 0
      · -- all the entries with values are recently used ones, and the parameter is at most their number
        have hlru : c.len .lru = c.size := by omega
        refine .inr ⟨by omega, ?_⟩
        rcases Int.lt_or_eq_of_le hp1 with hlt | heq
        · exact .inr (by omega)
        · exact .inl ⟨hl, by omega⟩
      · exact .inl hlfu
  refine .step (entryOf_ok he) (.step hadapt ((replace_ends store e hcp
    (hapart _ (by rcases hname with rfl | rfl <;> exact nofun))
    (hapart _ (by rcases hname with rfl | rfl <;> exact nofun)) hne).bind (⟨p, ·⟩) ?_))
  rintro _ c' ⟨hdrop, hshifts⟩
  have he' : c'.entries.lookup k = some e := hdrop.lookup.trans he
  have hmem' : el ∈ c'.lists l :=
    ((hdrop.linked (Set.empty_subset _) hcp).mem he' (Set.notMem_empty k) hl hel).2
  refine .ok (handleHit_ok he' hl hel) ⟨p, c', l, el, hl, hel, .single hdrop, rfl, ?_⟩
  have hpl (l' : ListName) : (c.withP p).len l' = c.len l' := rfl
  have hps : (c.withP p).size = c.size := rfl
  have hpp : (c.withP p).p = p := rfl
  have hsame : ((c'.unlist l el).enlist .lfu k e).size = c'.size ∧
      ((c'.unlist l el).enlist .lfu k e).p = c'.p := ⟨rfl, rfl⟩
  rcases hname with rfl | rfl <;> rcases hshifts with
      ⟨hn, hsize', hp', hlen'⟩ | ⟨hn, hsize', hp', hlen'⟩ <;>
    refine ⟨?_, ?_, ?_, ?_, ?_, ?_⟩ <;>
    simp only [hsame.1, hsame.2, len_enlist, len_unlist hmem', hlen', hsize', hp', hpl, hps, hpp,
      reduceCtorEq, if_true, if_false] at hn ⊢ <;> omega

end Calls

def C.holding (k : κ) : Option (Option ν × Bool) :=
  (c.entries.lookup k).map fun e => (e.value, e.isDirty)

structure Invariant : Prop where
  linked : Linked ∅ c
  blank : Blank ∅ c
  sizes : Sizes c

section Access
variable (store : BackingStore κ ν σ ε) {c : C κ ν σ} {k : κ} {e : Entry κ ν}
  {l : ListName} {P : Entry κ ν → Prop} {el : Element κ}

theorem holding_enlist (j : κ) :
    (c.enlist l k e).holding j = if j = k then some (e.value, e.isDirty) else c.holding j := by
  unfold C.holding
  split
  next h => rw [h, C.enlist, lookup_insert, Option.map_some]
  next h =>
    congr 1
    exact lookup_insert_ne h

theorem holding_withEntry (j : κ) :
    (c.withEntry k e).holding j = if j = k then some (e.value, e.isDirty) else c.holding j := by
  unfold C.holding
  split
  next h => rw [h, C.withEntry, lookup_insert, Option.map_some]
  next h =>
    congr 1
    exact lookup_insert_ne h

theorem Each.insert (h : Each P {k} c) {c' : C κ ν σ}
    (hc' : c'.entries = c.entries.insert k e) (he : P e) : Each P ∅ c' := by
  intro j e' he' _
  rw [hc'] at he'
  rcases lookup_insert_cases he' with ⟨rfl, rfl⟩ | ⟨hj, he'⟩
  · exact he
  · exact h j e' he' hj

theorem Each.withEntry (h : Each P ∅ c) (e : Entry κ ν) : Each P {k} (c.withEntry k e) := by
  intro j e' he' hj
  exact h j e' ((lookup_insert_ne hj).symm.trans he') (Set.notMem_empty j)

theorem Each.only (h : Each P ∅ c) : Each P {k} c := fun j e he _ => h j e he (Set.notMem_empty j)

theorem Blank.enlist (h : Blank {k} c) (hl : l = .lru ∨ l = .lfu) : Blank ∅ (c.enlist l k e) :=
  Each.insert h rfl fun hhist => by rcases hl with rfl | rfl <;> cases hhist

theorem Blank.withEntry (h : Blank ∅ c) (e : Entry κ ν) : Blank {k} (c.withEntry k e) :=
  Each.withEntry h e

theorem Valued.enlist (h : Valued {k} c) (he : e.value ≠ none) (l : ListName) :
    Valued ∅ (c.enlist l k e) :=
  Each.insert h rfl fun _ => he

theorem Valued.withEntry (h : Valued ∅ c) (e : Entry κ ν) : Valued {k} (c.withEntry k e) :=
  Each.withEntry h e

theorem Linked.relink (hc : Linked ∅ c) (he : c.entries.lookup k = some e)
    (hl : e.list = some l) (hel : e.elem = some el) (l' : ListName) (e' : Entry κ ν) :
    Linked ∅ ((c.unlist l el).enlist l' k e') := by
  have hnext := (hc.unlist he (Set.notMem_empty k) hl hel).enlist (Set.mem_insert k ∅) l' e'
  rwa [Set.insert_sdiff_self_of_notMem (Set.notMem_empty k)] at hnext

/-- The entry of `k` has got a value, and others may have lost theirs to make room. -/
def Served (store : BackingStore κ ν σ ε) (k : κ) (r : Option ν × Bool) (c c' : C κ ν σ) : Prop :=
  ∃ c₁ c₂, c₁.bs = c.bs ∧ (∀ j, c₁.holding j = if j = k then some r else c.holding j) ∧
    ReflTransGen (Drops store k) c₁ c₂ ∧ c'.bs = c₂.bs ∧ (∀ j, c'.holding j = c₂.holding j) ∧
    (∃ e, c'.entries.lookup k = some e ∧ e.inHistory = false) ∧ c'.size = c.size ∧
    (Valued ∅ c → r.1 ≠ none → Valued ∅ c') ∧ Invariant c'

/-- The entry of `k` has got a value, and then some entry cannot be written back. -/
def Starved (store : BackingStore κ ν σ ε) (k : κ) (r : Option ν × Bool) (c : C κ ν σ) : Prop :=
  ∃ c₁, c₁.bs = c.bs ∧ (∀ j, c₁.holding j = if j = k then some r else c.holding j) ∧ Stuck store k c₁

theorem served_miss (h : Invariant c) (he : c.entries.lookup k = none) (r : Option ν × Bool) :
    Ends (handleMiss store k) (c.withEntry k ⟨none, some .lru, r.1, r.2⟩) (Starved store k r c)
      fun _ c' =>
      Served store k r c c' := by
  set e₁ : Entry κ ν := ⟨none, some .lru, r.1, r.2⟩
  have hlinked : Linked {k} (c.withEntry k e₁) := by
    have hnew := h.linked.newEntry he e₁
    rwa [insert_empty_eq] at hnew
  have hsizes : Sizes (c.withEntry k e₁) := h.sizes.congr rfl rfl rfl
  have he₁ : (c.withEntry k e₁).entries.lookup k = some e₁ := lookup_insert _
  refine (handleMiss_ends store hlinked hsizes he₁ rfl).imp
    (fun hstuck => ⟨c.withEntry k e₁, rfl, fun j => holding_withEntry j, hstuck⟩) ?_
  rintro _ _ ⟨c₂, hdrops, rfl, hsizes'⟩
  have hlinked' : Linked ∅ (c₂.enlist .lru k e₁) := by
    have hnext :=
      (drops_linked hdrops (Set.Subset.refl _) hlinked).enlist (Set.mem_singleton k) .lru e₁
    rwa [Set.sdiff_self] at hnext
  refine ⟨c.withEntry k e₁, c₂, rfl, fun j => holding_withEntry j, hdrops, rfl, ?_,
    ⟨_, lookup_insert _, rfl⟩, (drops_size hdrops :),
    fun hv hr => (drops_valued hdrops (hv.withEntry e₁)).enlist hr .lru, hlinked',
    (drops_blank hdrops (h.blank.withEntry e₁)).enlist (.inl rfl), hsizes'⟩
  intro j
  rw [holding_enlist]
  split
  next hj => rw [hj, C.holding, drops_lookup hdrops, he₁, Option.map_some]
  next => rfl

theorem relink_invariant (hlinked : Linked ∅ c) (hblank : Blank {k} c)
    (he : c.entries.lookup k = some e) (hl : e.list = some l) (hel : e.elem = some el)
    (hsizes : Sizes ((c.unlist l el).enlist .lfu k e)) :
    (∀ j, ((c.unlist l el).enlist .lfu k e).holding j = c.holding j) ∧
    Invariant ((c.unlist l el).enlist .lfu k e) := by
  refine ⟨fun j => ?_, hlinked.relink he hl hel .lfu e, ?_, hsizes⟩
  · rw [holding_enlist]
    split
    next hj => rw [hj, C.holding, he, Option.map_some]
    next => rfl
  · exact Blank.enlist (c := c.unlist l el) hblank (.inr rfl)

theorem sizes_hit (hsizes : Sizes c) (hl : l = .lru ∨ l = .lfu) (hmem : el ∈ c.lists l) :
    Sizes ((c.unlist l el).enlist .lfu k e) := by
  have hpos := len_pos hmem
  obtain ⟨hsize, htop, hrecent, hall, hlow, hhigh⟩ := hsizes
  have hsame : ((c.unlist l el).enlist .lfu k e).size = c.size ∧
      ((c.unlist l el).enlist .lfu k e).p = c.p := ⟨rfl, rfl⟩
  rcases hl with rfl | rfl <;> refine ⟨?_, ?_, ?_, ?_, ?_, ?_⟩ <;>
    simp only [hsame.1, hsame.2, len_enlist, len_unlist hmem, reduceCtorEq, if_true,
      if_false] <;> omega

theorem served_hit (h : Invariant c) (he : c.entries.lookup k = some e) (r : Option ν × Bool) :
    Ends (if e.inHistory then handleFakeHit store k else handleHit k)
      (c.withEntry k { e with value := r.1, isDirty := r.2 }) (Starved store k r c) fun _ c' =>
        Served store k r c c' := by
  set e₁ : Entry κ ν := { e with value := r.1, isDirty := r.2 }
  have hlinked : Linked ∅ (c.withEntry k e₁) := h.linked.withEntry he rfl rfl
  have hblank : Blank {k} (c.withEntry k e₁) := h.blank.withEntry e₁
  have hsizes : Sizes (c.withEntry k e₁) := h.sizes.congr rfl rfl rfl
  have he₁ : (c.withEntry k e₁).entries.lookup k = some e₁ := lookup_insert _
  split
  next hhist =>
    refine (handleFakeHit_ends store hlinked hsizes he₁ hhist).imp
      (fun ⟨p, hstuck⟩ => ⟨(c.withEntry k e₁).withP p, rfl, fun j => holding_withEntry j, hstuck⟩) ?_
    rintro _ _ ⟨p, c₂, l, el, hl, hel, hdrops, rfl, hsizes'⟩
    have hlinked₁ : Linked ∅ ((c.withEntry k e₁).withP p) :=
      ⟨hlinked.entry, hlinked.listed, hlinked.nodup, hlinked.old⟩
    obtain ⟨hholding, hinv⟩ := relink_invariant (drops_linked hdrops (Set.empty_subset _) hlinked₁)
      (drops_blank hdrops (c := (c.withEntry k e₁).withP p) hblank)
        ((drops_lookup hdrops).trans he₁) hl hel hsizes'
    refine ⟨(c.withEntry k e₁).withP p, c₂, rfl, fun j => holding_withEntry j, hdrops, rfl,
      hholding, ⟨_, lookup_insert _, rfl⟩, (drops_size hdrops :),
      fun hv hr => ?_, hinv⟩
    have hvalued := drops_valued hdrops (c := (c.withEntry k e₁).withP p) (hv.withEntry (c := c) e₁)
    exact Valued.enlist (c := c₂.unlist l el) hvalued hr .lfu
  next hhist =>
    obtain ⟨l, el, hl, hel, _, hmem⟩ := hlinked.entry k e₁ he₁ (Set.notMem_empty k)
    have hname : l = .lru ∨ l = .lfu := by
      have hlist : e.list = some l := hl
      cases l <;> simp [Entry.inHistory, hlist] at hhist ⊢
    obtain ⟨hholding, hinv⟩ :=
      relink_invariant hlinked hblank he₁ hl hel (sizes_hit hsizes hname hmem)
    exact .ok (handleHit_ok he₁ hl hel) ⟨c.withEntry k e₁, _, rfl,
      fun j => holding_withEntry j, .refl, rfl, hholding, ⟨_, lookup_insert _, rfl⟩, rfl,
      fun hv hr => Valued.enlist (c := (c.withEntry k e₁).unlist l el) (hv.withEntry e₁) hr .lfu, hinv⟩

/-- What `Get` gives the entry: the value it has, or the one in the store. -/
def Fetched (store : BackingStore κ ν σ ε) (k : κ) (c : C κ ν σ) (r : Option ν × Bool) (s' : σ) :
    Prop :=
  (∃ e, c.entries.lookup k = some e ∧ e.inHistory = false ∧ r = (e.value, e.isDirty) ∧ s' = c.bs) ∨
    ((∀ e, c.entries.lookup k = some e → e.inHistory = true) ∧ r.2 = false ∧
      store.get k c.bs = .ok r.1 s')

omit [DecidableEq κ] in
theorem onStore_ends {α : Type} (x : EStateM ε σ α) (c : C κ ν σ) :
    Ends (onStore x) c (∃ e s', x c.bs = .error e s') fun a c' => ∃ s', c' = c.withStore s' ∧
    x c.bs = .ok a s' := by
  unfold Ends StoreFails onStore
  rcases x c.bs with ⟨a, s'⟩ | ⟨e, s'⟩
  · exact .inr ⟨a, _, rfl, s', rfl, rfl⟩
  · exact .inl ⟨⟨e, _, rfl⟩, e, s', rfl⟩

variable (h : Invariant c)
include h

theorem access_ends (load : Option (Entry κ ν) → CacheM κ ν σ ε (Option ν × Bool)) {F : Prop}
    {G : Option ν × Bool → σ → Prop}
    (hload : Ends (load (c.entries.lookup k)) c F fun r c' => ∃ s', c' = c.withStore s' ∧ G r s') :
    Ends (access store k load) c (F ∨ ∃ r s', G r s' ∧
      Starved store k r (c.withStore s')) fun _ c' =>
      ∃ r s', G r s' ∧ Served store k r (c.withStore s') c' := by
  refine .step get_ok ?_
  have hinv (s' : σ) : Invariant (c.withStore s') :=
    ⟨h.linked.withStore s', h.blank, h.sizes.congr rfl rfl rfl⟩
  rcases he : c.entries.lookup k with _ | e
  · rw [he] at hload
    refine hload.bind .inl ?_
    rintro r _ ⟨s', rfl, hG⟩
    refine .step rfl ((served_miss store (hinv s') he r).imp
      (fun hstarved => .inr ⟨r, s', hG, hstarved⟩) ?_)
    exact fun _ c' hserved => ⟨r, s', hG, hserved⟩
  · rw [he] at hload
    refine hload.bind .inl ?_
    rintro r _ ⟨s', rfl, hG⟩
    refine .step rfl ((served_hit store (hinv s') he r).imp
      (fun hstarved => .inr ⟨r, s', hG, hstarved⟩) ?_)
    exact fun _ c' hserved => ⟨r, s', hG, hserved⟩

theorem fetch_ends :
    Ends (fetch store k (c.entries.lookup k)) c (∃ err s', store.get k c.bs = .error err s')
    fun r c' => ∃ s', c' = c.withStore s' ∧ Fetched store k c r s' := by
  unfold Fetched
  rcases he : c.entries.lookup k with _ | e
  · refine (onStore_ends (store.get k) c).bind id ?_
    rintro v _ ⟨s', rfl, hget⟩
    exact .ok rfl ⟨s', rfl, .inr ⟨nofun, rfl, hget⟩⟩
  · rw [fetch]
    split
    next hhist =>
      refine (onStore_ends (store.get k) c).bind id ?_
      rintro v _ ⟨s', rfl, hget⟩
      refine .ok rfl ⟨s', rfl, .inr ⟨?_, (h.blank k e he (Set.notMem_empty k) hhist).2, hget⟩⟩
      exact fun e' he' => Option.some.inj he' ▸ hhist
    next hhist => exact .ok rfl ⟨c.bs, rfl, .inl ⟨e, rfl, Bool.not_eq_true _ ▸ hhist, rfl, rfl⟩⟩

theorem getEntry_ends : Ends (getEntry store k) c ((∃ err s', store.get k c.bs = .error err s') ∨
      ∃ r s', Fetched store k c r s' ∧ Starved store k r (c.withStore s'))
    fun _ c' => ∃ r s', Fetched store k c r s' ∧ Served store k r (c.withStore s') c' :=
  access_ends store h _ (fetch_ends store h)

theorem put_ends (v : Option ν) :
    Ends (put store k v) c (Starved store k (v, true) c) fun _ c' => Served store k (v,
    true) c c' := by
  refine (access_ends store h (fun _ => pure (v, true)) (F := False)
    (G := fun r s' => r = (v, true) ∧ s' = c.bs)
    (.ok rfl ⟨c.bs, rfl, rfl, rfl⟩)).imp ?_ ?_
  · rintro (hno | ⟨_, _, ⟨rfl, rfl⟩, hstarved⟩)
    · cases hno
    · exact hstarved
  · rintro _ c' ⟨_, _, ⟨rfl, rfl⟩, hserved⟩
    exact hserved

theorem Invariant.cleaned (he : c.entries.lookup k = some e) (s' : σ) :
    Invariant ((c.withStore s').withEntry k { e with isDirty := false }) := by
  refine ⟨(h.linked.withStore s').withEntry he rfl rfl, ?_, h.sizes.congr rfl rfl rfl⟩
  exact Each.insert (Each.only h.blank) rfl fun hhist =>
    ⟨(h.blank k e he (Set.notMem_empty k) hhist).1, rfl⟩

theorem flush_ends {ks : List κ} (hks : ∀ k ∈ ks, k ∈ c.entries) :
    Ends (flush store ks) c True fun _ c' => c'.size = c.size ∧ Invariant c' := by
  induction ks generalizing c with
  | nil => exact .ok rfl ⟨rfl, h⟩
  | cons k ks ih =>
    obtain ⟨e, he⟩ := Option.isSome_iff_exists.mp (AList.lookup_isSome.mpr (hks k mem_cons_self))
    refine .step (entryOf_ok he) ((commit_ends store c k e).bind (fun _ => trivial) ?_)
    rintro _ _ ⟨s', _, rfl⟩
    set c₁ := (c.withStore s').withEntry k { e with isDirty := false }
    have hmem : ∀ j ∈ ks, j ∈ c₁.entries :=
      fun j hj => (AList.mem_insert _).mpr (.inr (hks j (mem_cons_of_mem k hj)))
    have hinv : Invariant c₁ := h.cleaned he s'
    exact (ih hinv hmem).step rfl

end Access

section Runs

/-- A call from outside: `Get`, with what the caller may write to the entry that it got, `Put`, or
`Flush`, with the order of its iteration. -/
inductive Call (κ ν : Type) where
  | get (k : κ) (write : Option (Option ν × Bool))
  | put (k : κ) (v : Option ν)
  | flush (order : List κ)

def Call.perform (store : BackingStore κ ν σ ε) : Call κ ν → CacheM κ ν σ ε Unit
  | .get k none => getEntry store k
  | .get k (some r) => do
    getEntry store k
    setValue k r.1 r.2
  | .put k v => Arc.put store k v
  | .flush order => Arc.flush store order

def Call.Allowed : Call κ ν → Prop
  | .flush order => order.Perm c.entries.keys
  | _ => True

inductive Run (store : BackingStore κ ν σ ε) (c₀ : C κ ν σ) : List (Call κ ν) → C κ ν σ → Prop
  | start : Run store c₀ [] c₀
  | step {calls : List (Call κ ν)} {c c' : C κ ν σ} (h : Run store c₀ calls c)
      (call : Call κ ν) (hcall : call.Allowed c)
      (hok : call.perform store c = .ok () c') : Run store c₀ (call :: calls) c'

variable {store : BackingStore κ ν σ ε} {c : C κ ν σ} {k : κ} {r : Option ν × Bool} {c' : C κ ν σ}

theorem Invariant.new {size : Nat} (hsize : 1 ≤ size) (s : σ) :
    Invariant (new size s : C κ ν σ) := by
  refine ⟨⟨?_, ?_, ?_, ?_⟩, ?_, ?_⟩
  · intro k e he
    cases he
  · exact fun l el hel => nomatch hel
  · exact fun l => nodup_nil
  · exact fun l el hel => nomatch hel
  · intro k e he
    cases he
  · refine ⟨hsize, ?_, ?_, ?_, Int.le_refl 0, ?_⟩
    · exact (Nat.min_eq_right (Nat.zero_le size)).symm
    · exact Nat.zero_le size
    · exact Nat.zero_le (2 * size)
    · exact Int.natCast_nonneg size

theorem setValue_ok (h : Invariant c) {e : Entry κ ν} (he : c.entries.lookup k = some e)
    (hhist : e.inHistory = false) (v : Option ν) (dirty : Bool) :
    (setValue k v dirty : CacheM κ ν σ ε Unit) c =
      .ok () (c.withEntry k { e with value := v, isDirty := dirty }) ∧
    Invariant (c.withEntry k { e with value := v, isDirty := dirty }) := by
  refine ⟨bind_ok (entryOf_ok he) _, h.linked.withEntry he rfl rfl, ?_, h.sizes.congr rfl rfl rfl⟩
  exact Each.insert (Each.only h.blank) rfl fun hhist' => nomatch hhist.symm.trans hhist'

section
variable (h : Served store k r c c')
include h

theorem Served.invariant : Invariant c' := by
  obtain ⟨_, _, _, _, _, _, _, _, _, _, hinv⟩ := h
  exact hinv

theorem Served.size : c'.size = c.size := by
  obtain ⟨_, _, _, _, _, _, _, _, hsize, _, _⟩ := h
  exact hsize

theorem Served.resident : ∃ e, c'.entries.lookup k = some e ∧ e.inHistory = false := by
  obtain ⟨_, _, _, _, _, _, _, he, _, _, _⟩ := h
  exact he

end

theorem perform_ends (store : BackingStore κ ν σ ε) (h : Invariant c) (call : Call κ ν)
    (hcall : call.Allowed c) :
    Ends (call.perform store) c True fun _ c' => c'.size = c.size ∧ Invariant c' := by
  cases call with
  | get k write =>
    have hget := getEntry_ends store h (k := k)
    cases write with
    | none =>
      exact hget.imp (fun _ => trivial) fun _ c' ⟨_, _, _, hserved⟩ =>
        ⟨hserved.size, hserved.invariant⟩
    | some r =>
      refine hget.bind (fun _ => trivial) ?_
      rintro _ c' ⟨_, _, _, hserved⟩
      obtain ⟨e, he, hhist⟩ := hserved.resident
      obtain ⟨hset, hinv⟩ := setValue_ok (ε := ε) hserved.invariant he hhist r.1 r.2
      exact .ok hset ⟨hserved.size, hinv⟩
  | put k v =>
    exact (put_ends store h v).imp (fun _ => trivial) fun _ c' hserved =>
      ⟨hserved.size, hserved.invariant⟩
  | flush order => exact flush_ends store h fun k hk => AList.mem_keys.mpr (hcall.mem_iff.mp hk)

theorem Run.invariant {c₀ : C κ ν σ} (h₀ : Invariant c₀) {calls : List (Call κ ν)}
    (h : Run store c₀ calls c) : c.size = c₀.size ∧ Invariant c := by
  induction h with
  | start => exact ⟨rfl, h₀⟩
  | step _ call hcall hok ih =>
    rcases perform_ends store ih.2 call hcall with ⟨⟨_, _, hfails⟩, _⟩ | ⟨_, c', hok', hsize, hinv⟩
    · cases hfails.symm.trans hok
    · obtain ⟨_, rfl⟩ := EStateM.Result.ok.inj (hok'.symm.trans hok)
      exact ⟨hsize.trans ih.1, hinv⟩

structure Structural (size : Nat) (c : C κ ν σ) : Prop where
  /-- Each entry is in exactly one list, once, and its fields say where. -/
  placed : ∀ k e, c.entries.lookup k = some e → ∃ l el, e.list = some l ∧ e.elem = some el ∧
    ∀ l' el', el' ∈ c.lists l' ∧ el'.key = k ↔ l' = l ∧ el' = el
  once : ∀ l, (c.lists l).Nodup
  resident : c.len .lru + c.len .lfu ≤ size
  recent : c.len .lru + c.len .lruhist ≤ size
  all : c.len .lru + c.len .lruhist + c.len .lfu + c.len .lfuhist ≤ 2 * size
  parameter : 0 ≤ c.p ∧ c.p ≤ size
  /-- An entry in a history list has no value and is not dirty. -/
  history : ∀ k e, c.entries.lookup k = some e → e.list = some .lruhist ∨ e.list = some .lfuhist →
    e.value = none ∧ e.isDirty = false
  full : c.len .lru + c.len .lruhist + c.len .lfu + c.len .lfuhist ≥ size →
    c.len .lru + c.len .lfu = size

theorem Invariant.structural (h : Invariant c) : Structural c.size c := by
  obtain ⟨hlinked, hblank, hpos, htop, hrecent, hall, hlow, hhigh⟩ := h
  refine ⟨?_, hlinked.nodup, by omega, hrecent, hall, ⟨hlow, hhigh⟩, ?_, by omega⟩
  · intro k e he
    obtain ⟨l, el, hl, hel, hkey, hmem⟩ := hlinked.entry k e he (Set.notMem_empty k)
    refine ⟨l, el, hl, hel, fun l' el' => ⟨?_, ?_⟩⟩
    · rintro ⟨hmem', hkey'⟩
      obtain ⟨_, e', he', hl', hel'⟩ := hlinked.listed l' el' hmem'
      rw [hkey', he] at he'
      obtain rfl := Option.some.inj he'
      exact ⟨Option.some.inj (hl'.symm.trans hl), Option.some.inj (hel'.symm.trans hel)⟩
    · rintro ⟨rfl, rfl⟩
      exact ⟨hmem, hkey⟩
  · intro k e he hl
    apply hblank k e he (Set.notMem_empty k)
    simpa [Entry.inHistory] using hl

/-- Along every sequence of calls the cache keeps its structure, and no call panics but in the
backing store: no list is empty when its last element is taken. -/
theorem cache_structural {size : Nat} (hsize : 1 ≤ size) {s : σ} {calls : List (Call κ ν)}
    (hrun : Run store (new size s) calls c) :
    Structural size c ∧ ∀ call : Call κ ν, call.Allowed c →
      StoreFails (call.perform store) c ∨ ∃ c', call.perform store c = .ok () c' ∧
        Structural size c' := by
  obtain ⟨hsame, hinv⟩ := hrun.invariant (Invariant.new hsize s)
  have hsame : c.size = size := hsame
  refine ⟨hsame ▸ hinv.structural, fun call hcall => ?_⟩
  rcases perform_ends store hinv call hcall with ⟨hfails, _⟩ | ⟨_, c', hok, hsize', hinv'⟩
  · exact .inl hfails
  · exact .inr ⟨c', hok, (hsize'.trans hsame) ▸ hinv'.structural⟩

def zeros : BackingStore Nat Nat (Nat → Nat) Empty where
  get k := fun s => .ok (some (s k)) s
  put k v := fun s => .ok () (Function.update s k (v.getD 0))

/-- The second key takes the place of the first, which comes back from its history list. -/
theorem cache_structural_evicted : ∃ c,
    Run zeros (new 1 fun _ => 0) [.get 0 none, .put 1 (some 8), .put 0 (some 7)] c ∧
      Structural 1 c := by
  have hput :=
    ((@Run.start Nat Nat _ _ _ zeros (new 1 fun _ => 0)).step (.put 0 (some 7)) trivial rfl).step
    (.put 1 (some 8)) trivial rfl
  have hrun := hput.step (.get 0 none) trivial rfl
  exact ⟨_, hrun, (cache_structural (le_refl 1) hrun).1⟩

end Runs

end Garnet.Arc
