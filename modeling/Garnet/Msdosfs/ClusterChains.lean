import Mathlib.Data.List.Range
import Garnet.Lib.Chains
import Garnet.Msdosfs.Change

/-! The allocated clusters as chains, and what the calls of the cluster manager do to them. -/

namespace Garnet.Msdosfs
open Manager (checkTail clearCluster clusterExtend extensionRequested onFAT)

variable (b : Bootrecord)

def Allocated (f : FAT) (c : Nat) : Prop :=
  b.clusterInValidRange c = true ∧ value b f c ≠ freeValue ∧ value b f c ≠ b.badValue

def Chained (f : FAT) (cs : List (List Nat)) : Prop :=
  Chains (fun e => b.isEOF e = true) (value b f) (Allocated b f) cs

def Allocatable (c : Nat) : Prop := 2 ≤ c ∧ c < b.maxCluster ∧ c ≠ b.badValue

instance (c : Nat) : Decidable (Allocatable b c) := inferInstanceAs (Decidable (_ ∧ _))

structure FAT.Writable (f : FAT) : Prop where
  closed : f.closed = false
  readonly : f.readonly = false

variable {v : Volume} {f f' : FAT} {c d : Nat}

theorem Change.writable {x : Nat → Option Nat} (h : Change v x f f') (hf : f.Writable) :
    f'.Writable :=
  ⟨h.closed.trans hf.closed, h.readonly.trans hf.readonly⟩

theorem isEOF_iff (e : Nat) : b.isEOF e = true ↔ b.eofValue ≤ e := decide_eq_true_iff

theorem isFree_iff (e : Nat) : isFree e = true ↔ e = freeValue := decide_eq_true_iff

section Allocate

theorem isFreeAt_eq (hf : f.Writable) (hc : v.b.clusterInValidRange c = true) :
    f.isFreeAt v.b c = .ok (isFree (value v.b f c) && !v.b.isBad c) := by
  unfold FAT.isFreeAt
  rw [get_ok hf.closed hc]

theorem free_here_iff :
    (isFree (value v.b f c) && !v.b.isBad c) = true ↔ value v.b f c = freeValue ∧
    c ≠ v.b.badValue := by
  rw [Bool.and_eq_true, isFree_iff, Bool.not_eq_true', Bootrecord.isBad, decide_eq_false_iff_not]

theorem findFree_spec (hf : f.Writable) {n : Nat} (hlow : 2 ≤ c)
    (hhigh : ∀ d, c ≤ d → d < c + n → d ≤ v.b.maxCluster) :
    (∃ d, f.findFree v.b c n = .ok (some d) ∧ c ≤ d ∧ d < c + n ∧ value v.b f d = freeValue ∧
      d ≠ v.b.badValue) ∨
      f.findFree v.b c n = .ok none ∧
        ∀ d, c ≤ d → d < c + n → d ≠ v.b.badValue → value v.b f d ≠ freeValue := by
  induction n generalizing c with
  | zero => exact .inr ⟨rfl, fun d _ _ => by omega⟩
  | succ n ih =>
    have hvalid : v.b.clusterInValidRange c = true :=
      (valid_iff _ _).mpr ⟨hlow, hhigh c (le_refl _) (by omega)⟩
    unfold FAT.findFree
    simp only [isFreeAt_eq hf hvalid, ok_bind, free_here_iff]
    split
    next hfree => exact .inl ⟨c, rfl, le_refl _, by omega, hfree⟩
    next hfree =>
      rcases ih (c := c + 1) (by omega) (fun d hle hlt => hhigh d (by omega) (by omega)) with
        ⟨d, hd, hle, hlt, hfound⟩ | ⟨hrun, hnone⟩
      · exact .inl ⟨d, hd, by omega, by omega, hfound⟩
      · refine .inr ⟨hrun, fun d hle hlt hbad => ?_⟩
        by_cases heq : d = c
        · rw [heq] at hbad ⊢
          exact fun hvalue => hfree ⟨hvalue, hbad⟩
        · exact hnone d (by omega) (by omega) hbad

theorem Allocatable.valid (h : Allocatable v.b c) : v.b.clusterInValidRange c = true :=
  (valid_iff _ _).mpr ⟨h.1, le_of_lt h.2.1⟩

theorem take_change (hf : f.Writable) (hmark : v.b.maxCluster < v.b.eofValue)
    (hc : Allocatable v.b c) (hfree : value v.b f c = freeValue) :
    ∃ f', FAT.take v.b c f = .ok c f' ∧ Change v (only c v.b.eofValue) f f' ∧ SameData v f f' := by
  have hmax := hc.2.1
  have hbad := badValue_lt_eof v.b
  obtain ⟨f', hset, hchange, hdata⟩ :=
    set_change (v := v) (f := { f with nextFree := c }) (x := v.b.eofValue) hf.closed
    hf.readonly hc.valid (by omega) (eofValue_le_mask v.b) (fun heq => by
      have hzero : value v.b f c = v.b.badValue := heq
      rw [hfree] at hzero
      unfold freeValue at hzero
      omega)
  refine ⟨f', ?_,
    ⟨hchange.closed, hchange.readonly, hchange.value, hchange.top, hchange.kept,
      hchange.agree⟩, hdata⟩
  unfold FAT.take
  rw [hset]

theorem allocate_spec (hf : f.Writable) (hmark : v.b.maxCluster < v.b.eofValue) :
    (∃ d f', FAT.allocate v.b f = .ok d f' ∧ Allocatable v.b d ∧ value v.b f d = freeValue ∧
      Change v (only d v.b.eofValue) f f' ∧ SameData v f f') ∨
    (∃ hint, FAT.allocate v.b f = .error ErrNoSpace { f with nextFree := hint }) ∧
      ∀ d, Allocatable v.b d → value v.b f d ≠ freeValue := by
  obtain ⟨start, hstart, hbounds⟩ : ∃ start,
    (if v.b.clusterInValidRange f.nextFree then f.nextFree else numReservedClusters) = start ∧
      2 ≤ start ∧ (start ≤ v.b.maxCluster ∨ start = 2) := by
    refine ⟨_, rfl, ?_⟩
    split
    next hvalid =>
      exact ⟨((valid_iff _ _).mp hvalid).1, .inl ((valid_iff _ _).mp hvalid).2⟩
    next =>
      exact ⟨le_refl _, .inr rfl⟩
  unfold FAT.allocate
  rw [if_neg (ne_true_of_eq_false hf.closed), if_neg (ne_true_of_eq_false hf.readonly), hstart]
  dsimp only
  rcases findFree_spec (v := v) hf (c := start) (n := v.b.maxCluster - start) hbounds.1
    (fun d _ _ => by omega) with
    ⟨d, hd, hle, hlt, hvalue, hbad⟩ | ⟨hfirst, hnone⟩
  · have hd' : Allocatable v.b d := ⟨by omega, by omega, hbad⟩
    obtain ⟨f', htake, hchange⟩ := take_change hf hmark hd' hvalue
    rw [hd]
    exact .inl ⟨d, f', htake, hd', hvalue, hchange⟩
  · rw [hfirst]
    dsimp only [numReservedClusters]
    rcases findFree_spec (v := v) hf (c := 2) (n := start - 2) (le_refl 2)
      (fun d _ _ => by omega) with
      ⟨d, hd, hle, hlt, hvalue, hbad⟩ | ⟨hsecond, hnone'⟩
    · have hd' : Allocatable v.b d := ⟨hle, by omega, hbad⟩
      obtain ⟨f', htake, hchange⟩ := take_change hf hmark hd' hvalue
      rw [hd]
      exact .inl ⟨d, f', htake, hd', hvalue, hchange⟩
    · rw [hsecond]
      refine .inr ⟨⟨start, rfl⟩, fun d hd => ?_⟩
      by_cases hle : start ≤ d
      · exact hnone d hle (by have := hd.2.1; omega) hd.2.2
      · exact hnone' d hd.1 (by omega) hd.2.2

end Allocate

structure Manager.Ready (m : Manager) : Prop where
  writable : m.fat.Writable
  mounted : m.unmounted = false

section OnFAT
variable {α : Type} {x : EStateM Fault FAT α} {m : Manager}

theorem onFAT_ok {a : α} (h : x m.fat = .ok a f) : onFAT x m = .ok a { m with fat := f } := by
  unfold onFAT
  rw [h]

theorem onFAT_error {e : Fault} (h : x m.fat = .error e f) :
    onFAT x m = .error e { m with fat := f } := by
  unfold onFAT
  rw [h]

end OnFAT

section Extend

theorem clear_change (hd : v.b.clusterInValidRange d = true) :
    Change v (fun _ => none) f (clearCluster v.b d f) := by
  obtain ⟨htwo, hmax⟩ := (valid_iff _ _).mp hd
  unfold clearCluster
  apply Change.of_device
  intro i hi c hc
  exact v.entry_writeData (le_trans htwo hmax) hi hc (v.consistent.data d hd).1

/-- Behind the FATs only the cluster `d` changes, which is filled with zeros. -/
def Cleared (v : Volume) (d : Nat) (f f' : FAT) : Prop :=
  ∀ k, v.dataStart ≤ k → f'.device k =
    if v.b.clusterLocationData d ≤ k ∧ k < v.b.clusterLocationData d + v.b.clusterSize then 0 else f.device k

theorem clear_cleared : Cleared v d f (clearCluster v.b d f) := by
  intro k _
  change f.device.writeAt _ _ k = _
  split
  next hin =>
    obtain ⟨j, rfl⟩ := Nat.exists_eq_add_of_le hin.1
    rw [Device.writeAt_inside (by rw [List.length_replicate]; omega), List.get_eq_getElem,
      List.getElem_replicate]
  next =>
    rw [Device.writeAt_outside]
    rw [List.length_replicate]
    omega

theorem Cleared.of_same {f₁ f₂ : FAT} (h : SameData v f f₁) (h' : Cleared v d f₁ f₂)
    (h'' : SameData v f₂ f') : Cleared v d f f' := by
  intro k hk
  rw [h'' k hk, h' k hk, h k hk]

/-- The new cluster is the last one of its chain, and the former last one, if any, points to it. -/
def linked (c d : Nat) : Nat → Option Nat :=
  fun e => if c ≠ 0 ∧ c = e then some d else if d = e then some b.eofValue else none

theorem linked_zero (d : Nat) : linked b 0 d = only d b.eofValue := by
  funext e
  unfold linked only
  rw [if_neg (fun h : (0 : Nat) ≠ 0 ∧ 0 = e => h.1 rfl)]

theorem clusterExtend_spec {m : Manager} (hm : m.Ready) (hmark : v.b.maxCluster < v.b.eofValue)
    (hc : c = 0 ∨ v.b.clusterInValidRange c = true ∧ v.b.isEOF (value v.b m.fat c) = true) :
    (∃ d f', clusterExtend v.b c m = .ok d { m with fat := f' } ∧ Allocatable v.b d ∧
      value v.b m.fat d = freeValue ∧
      Change v (linked v.b c d) m.fat f' ∧ Cleared v d m.fat f') ∨
    (∃ hint, clusterExtend v.b c m = .error ErrNoSpace
      { m with fat := { m.fat with nextFree := hint } }) ∧
      ∀ d, Allocatable v.b d → value v.b m.fat d ≠ freeValue := by
  have hcheck : (if extensionRequested v.b c then checkTail v.b c m.fat else .ok ()) = .ok () := by
    cases hc with
    | inl hzero =>
      rw [hzero]
      rfl
    | inr hlast =>
      have hbad := badValue_lt_eof v.b
      have hle := (isEOF_iff _ _).mp hlast.2
      have hfree : isFree (value v.b m.fat c) = false := by
        apply decide_eq_false
        unfold freeValue
        omega
      have htail : checkTail v.b c m.fat = .ok () := by
        unfold checkTail
        rw [get_ok hm.writable.closed hlast.1, ok_bind, hfree, hlast.2]
        rfl
      rw [htail, ite_self]
  unfold clusterExtend
  rw [if_neg (ne_true_of_eq_false hm.writable.readonly), if_neg (ne_true_of_eq_false hm.mounted),
    hcheck]
  rcases allocate_spec (v := v) hm.writable hmark with
    ⟨d, f₁, halloc, hd, hfree, hchange, hdata⟩ | ⟨⟨hint, halloc⟩, hall⟩
  case inr =>
    refine .inr ⟨⟨hint, ?_⟩, hall⟩
    apply onFAT_error
    rw [halloc]
  case inl =>
    have hclear := hchange.trans (clear_change (f := f₁) hd.valid)
    cases hc with
    | inl hzero =>
      subst hzero
      refine .inl ⟨d, clearCluster v.b d f₁, ?_, hd, hfree, ?_, ?_⟩
      · apply onFAT_ok
        rw [halloc]
        rfl
      · rw [linked_zero]
        exact hclear
      · exact Cleared.of_same hdata clear_cleared fun _ _ => rfl
    | inr hlast =>
      have hbad := badValue_lt_eof v.b
      have hle := (isEOF_iff _ _).mp hlast.2
      have hne : d ≠ c := by
        intro heq
        rw [heq] at hfree
        unfold freeValue at hfree
        omega
      have hsame : value v.b (clearCluster v.b d f₁) c = value v.b m.fat c := by
        rw [hclear.value c hlast.1]
        unfold only
        rw [if_neg hne]
        rfl
      obtain ⟨f₂, hset, hchange₂, hdata₂⟩ :=
        set_change (v := v) (x := d) (c := c) (hclear.writable hm.writable).closed
        (hclear.writable hm.writable).readonly hlast.1 hne
        (by have hmask := eofValue_le_mask v.b; have hlt := hd.2.1; omega) (by rw [hsame]; omega)
      have hrequested : extensionRequested v.b c = true := by
        obtain ⟨htwo, hmax⟩ := (valid_iff _ _).mp hlast.1
        unfold extensionRequested Bootrecord.isEOF
        rw [Bool.and_eq_true, decide_eq_true_iff, Bool.not_eq_true', decide_eq_false_iff_not]
        omega
      refine .inl ⟨d, f₂, ?_, hd, hfree, ?_, ?_⟩
      · apply onFAT_ok
        rw [halloc]
        dsimp only
        rw [if_pos hrequested]
        unfold Manager.linkTail
        rw [hset]
      · have heq : (fun e => (only c d e).or ((none : Option Nat).or (only d v.b.eofValue e))) =
            linked v.b c d := by
          have hzero : c ≠ 0 := by
            have htwo := ((valid_iff _ _).mp hlast.1).1
            omega
          funext e
          unfold linked only
          by_cases hce : c = e
          · have hboth : c ≠ 0 ∧ c = e := ⟨hzero, hce⟩
            rw [if_pos hce, if_pos hboth]
            rfl
          · rw [if_neg hce, if_neg (fun h : c ≠ 0 ∧ c = e => hce h.2), Option.none_or, Option.none_or]
        rw [← heq]
        exact hclear.trans hchange₂
      · exact Cleared.of_same hdata clear_cleared hdata₂

end Extend

end Garnet.Msdosfs
