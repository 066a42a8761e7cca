import Garnet.Msdosfs.ClusterChains

/-! Removing clusters, and runs of the calls of the cluster manager. -/

namespace Garnet.Msdosfs
open List

variable {v : Volume} {f f' : FAT} {c d : Nat}

/-- The clusters of `l` become free. -/
def zeroed (l : List Nat) : Nat → Option Nat := fun e => if e ∈ l then some freeValue else none

theorem Allocated.lt_eof (h : Allocated v.b f c) (hmark : v.b.maxCluster < v.b.eofValue) :
    v.b.isEOF c = false := by
  have hle := ((valid_iff _ _).mp h.1).2
  apply decide_eq_false
  omega

theorem only_value {w e : Nat} (h : Change v (only c w) f f')
    (he : v.b.clusterInValidRange e = true) (hne : c ≠ e) : value v.b f' e = value v.b f e := by
  rw [h.value e he, only, if_neg hne]
  rfl

variable {l : List Nat}

/-- A cluster that was written is not among those whose entries are not. -/
theorem only_outside {w : Nat} (h : Change v (only c w) f f') (hnotin : c ∉ l)
    (halloc : ∀ e ∈ l, Allocated v.b f e) :
    (∀ e ∈ l, value v.b f' e = value v.b f e) ∧ ∀ e ∈ l, Allocated v.b f' e := by
  have hother : ∀ e ∈ l, value v.b f' e = value v.b f e := fun e he =>
    only_value h (halloc e he).1 fun heq => hnotin (heq ▸ he)
  refine ⟨hother, fun e he => ?_⟩
  unfold Allocated
  rw [hother e he]
  exact halloc e he

theorem freeTail_spec {t fuel : Nat} (hf : f.Writable) (hmark : v.b.maxCluster < v.b.eofValue)
    (hl : l = [] ∧ v.b.isEOF t = true ∨ l ≠ [] ∧ l.head? = some t ∧
      Chain (fun e => v.b.isEOF e = true) (value v.b f) l)
    (halloc : ∀ c ∈ l, Allocated v.b f c) (hnodup : l.Nodup) (hfuel : l.length < fuel) :
    ∃ f', Manager.freeTail v.b fuel t f = .ok () f' ∧ Change v (zeroed l) f f' ∧ SameData v f f' := by
  induction l generalizing f t fuel with
  | nil =>
    obtain ⟨fuel, rfl⟩ : ∃ k, fuel = k + 1 := ⟨fuel - 1, by omega⟩
    have heof : v.b.isEOF t = true := by
      cases hl with
      | inl h => exact h.2
      | inr h => exact absurd rfl h.1
    refine ⟨f, ?_, Change.refl v f, fun _ _ => rfl⟩
    unfold Manager.freeTail
    rw [heof]
    rfl
  | cons c l ih =>
    obtain ⟨fuel, rfl⟩ : ∃ k, fuel = k + 1 := ⟨fuel - 1, by omega⟩
    obtain ⟨hhead, hchain⟩ : some c = some t ∧
        Chain (fun e => v.b.isEOF e = true) (value v.b f) (c :: l) := by
      cases hl with
      | inl h => exact nomatch h.1
      | inr h => exact h.2
    cases hhead
    have hc := halloc c mem_cons_self
    obtain ⟨hnotin, hnodup'⟩ := nodup_cons.mp hnodup
    have htwo := ((valid_iff _ _).mp hc.1).1
    obtain ⟨f₁, hset, hchange, hdata⟩ :=
      set_change (v := v) (x := freeValue) hf.closed hf.readonly hc.1
      (by unfold freeValue; omega) (Nat.zero_le _) hc.2.2
    obtain ⟨hother, hallocated⟩ :=
      only_outside hchange hnotin fun e he => halloc e (mem_cons_of_mem _ he)
    have htail : l = [] ∧ v.b.isEOF (value v.b f c) = true ∨ l ≠ [] ∧ l.head? = some (value v.b f c) ∧
        Chain (fun e => v.b.isEOF e = true) (value v.b f₁) l :=
      (@Chain.tail _ _ _ c [] l hchain).imp id fun h => ⟨h.1, h.2.1, h.2.2.congr hother⟩
    obtain ⟨f₂, hrun, hchange₂, hdata₂⟩ :=
      @ih f₁ (value v.b f c) fuel (hchange.writable hf) htail hallocated hnodup'
      (by rw [length_cons] at hfuel; omega)
    refine ⟨f₂, ?_, ?_, hdata.trans hdata₂⟩
    · have hfree : isFree (value v.b f c) = false := decide_eq_false hc.2.1
      unfold Manager.freeTail
      rw [hc.lt_eof hmark, get_ok hf.closed hc.1]
      dsimp only
      rw [hfree, hset]
      exact hrun
    · have heq : (fun e => (zeroed l e).or (only c freeValue e)) = zeroed (c :: l) := by
        funext e
        unfold zeroed only
        by_cases hmem : e ∈ l
        · rw [if_pos hmem, if_pos (mem_cons_of_mem _ hmem)]
          rfl
        · by_cases hce : c = e
          · rw [if_neg hmem, if_pos hce, if_pos (by rw [hce]; exact mem_cons_self)]
            rfl
          · rw [if_neg hmem, if_neg hce,
              if_neg (fun h => (mem_cons.mp h).elim (fun h => hce h.symm) hmem)]
            rfl
      rw [← heq]
      exact hchange.trans hchange₂

theorem clusters_length (hvalid : ∀ c ∈ l, v.b.clusterInValidRange c = true) (hnodup : l.Nodup) :
    l.length < v.b.maxCluster + 2 := by
  have hsub : l ⊆ List.range (v.b.maxCluster + 1) := by
    intro c hc
    rw [mem_range]
    have hle := ((valid_iff _ _).mp (hvalid c hc)).2
    omega
  have hle := (subperm_of_subset hnodup hsub).length_le
  rw [length_range] at hle
  omega

theorem removeAllAfter_eq {m : Manager} (hm : m.Ready) (hmark : (v.b.isEOF c || isFree c) = false)
    (hc : v.b.clusterInValidRange c = true) (removeStart : Bool) :
    Manager.removeAllAfter v.b c removeStart m = Manager.onFAT (fun f =>
      match FAT.set v.b (if removeStart then freeValue else v.b.eofValue) c f with
      | .error e f => .error e f
      | .ok _ f => Manager.freeTail v.b (v.b.maxCluster + 1) (value v.b m.fat c) f) m := by
  unfold Manager.removeAllAfter
  rw [hm.writable.readonly, hmark, hm.mounted, get_ok hm.writable.closed hc]
  rfl

theorem removeAllAfter_spec {m : Manager} {xs ys : List Nat} {rest : List (List Nat)} (hm : m.Ready)
    (hmark : v.b.maxCluster < v.b.eofValue) (hcs : Chained v.b m.fat ((xs ++ c :: ys) :: rest))
    (removeStart : Bool) :
    ∃ f', Manager.removeAllAfter v.b c removeStart m = .ok () { m with fat := f' } ∧
      Change v (fun e => (zeroed ys e).or (only c (if removeStart then freeValue
        else v.b.eofValue) e)) m.fat f' ∧
        SameData v m.fat f' := by
  have hmem : ∀ e ∈ xs ++ c :: ys, Allocated v.b m.fat e := fun e he =>
    (hcs.members e).mp (mem_flatten.mpr ⟨_, mem_cons_self, he⟩)
  have hc := hmem c (mem_append_right _ mem_cons_self)
  obtain ⟨htwo, hmax⟩ := (valid_iff _ _).mp hc.1
  have hnodup := hcs.nodup
  rw [flatten_cons, nodup_append, nodup_append, nodup_cons] at hnodup
  obtain ⟨⟨_, ⟨hcys, hys⟩, _⟩, _, _⟩ := hnodup
  obtain ⟨f₁, hset, hchange, hdata⟩ :=
    set_change (v := v) (c := c) (x := if removeStart then freeValue else v.b.eofValue)
    hm.writable.closed hm.writable.readonly hc.1 (by unfold freeValue; split <;> omega)
    (by have hmask := eofValue_le_mask v.b; unfold freeValue; split <;> omega) hc.2.2
  obtain ⟨hother, hallocated⟩ := only_outside hchange hcys fun e he =>
    hmem e (mem_append_right _ (mem_cons_of_mem _ he))
  have hlength : ys.length < v.b.maxCluster + 1 := by
    have hlt := clusters_length (v := v) (l := c :: ys)
      (fun e he => (hmem e (mem_append_right _ he)).1) (nodup_cons.mpr ⟨hcys, hys⟩)
    rw [length_cons] at hlt
    omega
  have htail := (hcs.chain _ mem_cons_self).tail
  obtain ⟨f₂, hrun, hchange₂, hdata₂⟩ := freeTail_spec (hchange.writable hm.writable) hmark
    (htail.imp id fun h => ⟨h.1, h.2.1, h.2.2.congr hother⟩) hallocated hys hlength
  refine ⟨f₂, ?_, hchange.trans hchange₂, hdata.trans hdata₂⟩
  have hstart : (v.b.isEOF c || isFree c) = false := by
    rw [hc.lt_eof hmark, Bool.false_or]
    apply decide_eq_false
    unfold freeValue
    omega
  apply (removeAllAfter_eq hm hstart hc.1 removeStart).trans
  apply onFAT_ok
  rw [hset]
  exact hrun

structure Kept (v : Volume) (f f' : FAT) : Prop where
  closed : f'.closed = f.closed
  readonly : f'.readonly = f.readonly
  top : ∀ i < v.b.numFATs, ∀ c ≤ v.b.maxCluster,
    topBits v.b (entry v.b i c f'.device) = topBits v.b (entry v.b i c f.device)
  bad : ∀ c, v.b.clusterInValidRange c = true →
    (value v.b f' c = v.b.badValue ↔ value v.b f c = v.b.badValue)
  agree : f.Agree v.b → f'.Agree v.b

namespace Kept

theorem refl (v : Volume) (f : FAT) : Kept v f f :=
  ⟨rfl, rfl, fun _ _ _ _ => rfl, fun _ _ => Iff.rfl, id⟩

theorem trans {f'' : FAT} (h : Kept v f f') (h' : Kept v f' f'') : Kept v f f'' :=
  ⟨h'.closed.trans h.closed, h'.readonly.trans h.readonly,
    fun i hi c hc => (h'.top i hi c hc).trans (h.top i hi c hc),
    fun c hc => (h'.bad c hc).trans (h.bad c hc), fun hagree => h'.agree (h.agree hagree)⟩

theorem of_change {x : Nat → Option Nat} (h : Change v x f f')
    (hx : ∀ c w, v.b.clusterInValidRange c = true → x c = some w → w ≠ v.b.badValue ∧
      value v.b f c ≠ v.b.badValue) : Kept v f f' := by
  refine ⟨h.closed, h.readonly, h.top, fun c hc => ?_, h.agree⟩
  rw [h.value c hc]
  cases hw : x c with
  | none => exact Iff.rfl
  | some w =>
    obtain ⟨hnew, hold⟩ := hx c w hc hw
    exact ⟨fun h => absurd h hnew, fun h => absurd h hold⟩

end Kept

section Chains
variable {cs rest : List (List Nat)} {xs ys : List Nat}

theorem linked_value (hchange : Change v (linked v.b c d) f f') {e : Nat}
    (he : v.b.clusterInValidRange e = true) :
    value v.b f' e = if c ≠ 0 ∧
    c = e then d else if d = e then v.b.eofValue else value v.b f e := by
  rw [hchange.value e he, linked, apply_ite (Option.getD · _), apply_ite (Option.getD · _)]
  rfl

theorem linked_allocated (hchange : Change v (linked v.b c d) f f')
    (hvalid : v.b.clusterInValidRange d = true) (hc : c = 0 ∨ Allocated v.b f c ∧ d ≠ v.b.badValue)
    (e : Nat) : Allocated v.b f' e ↔ e = d ∨ Allocated v.b f e := by
  have hbad := badValue_lt_eof v.b
  by_cases he : v.b.clusterInValidRange e = true
  · unfold Allocated
    rw [linked_value hchange he]
    by_cases hce : c ≠ 0 ∧ c = e
    · obtain ⟨halloc, hnot⟩ := hc.resolve_left hce.1
      rw [if_pos hce]
      refine ⟨fun _ => .inr (hce.2 ▸ halloc), fun _ => ⟨he, ?_, hnot⟩⟩
      have htwo := ((valid_iff _ _).mp hvalid).1
      unfold freeValue
      omega
    · rw [if_neg hce]
      split
      next hde =>
        refine ⟨fun _ => .inl hde.symm, fun _ => ⟨he, ?_, by omega⟩⟩
        unfold freeValue
        omega
      next hde =>
        exact ⟨.inr, fun h => h.resolve_left fun heq => hde heq.symm⟩
  · constructor
    · exact fun h => absurd h.1 he
    · intro h
      cases h with
      | inl heq =>
        rw [heq] at he
        exact absurd hvalid he
      | inr h => exact absurd h.1 he

theorem chained_start (hcs : Chained v.b f cs) (hchange : Change v (linked v.b 0 d) f f')
    (hvalid : v.b.clusterInValidRange d = true) (hfree : value v.b f d = freeValue) :
    Chained v.b f' ([d] :: cs) := by
  apply hcs.start (fun h => h.2.1 hfree)
  · rw [linked_value hchange hvalid, if_neg (fun h => h.1 rfl), if_pos rfl, isEOF_iff]
  · intro e he
    have hde : d ≠ e := by
      intro heq
      rw [← heq] at he
      exact he.2.1 hfree
    rw [linked_value hchange he.1, if_neg (fun h => h.1 rfl), if_neg hde]
  · exact linked_allocated hchange hvalid (.inl rfl)

theorem chained_extend (hmark : v.b.maxCluster < v.b.eofValue)
    (hcs : Chained v.b f ((xs ++ [c]) :: rest)) (hchange : Change v (linked v.b c d) f f')
    (hd : Allocatable v.b d) (hfree : value v.b f d = freeValue) :
    Chained v.b f' ((xs ++ [c] ++ [d]) :: rest) := by
  have hvalid := hd.valid
  have hc : Allocated v.b f c :=
    (hcs.members c).mp (mem_flatten.mpr ⟨_, mem_cons_self, mem_append_right _ mem_cons_self⟩)
  have hzero : c ≠ 0 := by
    have htwo := ((valid_iff _ _).mp hc.1).1
    omega
  have hne : c ≠ d := by
    intro heq
    rw [heq] at hc
    exact hc.2.1 hfree
  apply hcs.extend (fun h => h.2.1 hfree)
  · rw [isEOF_iff]
    have hlt := hd.2.1
    omega
  · rw [linked_value hchange hc.1, if_pos ⟨hzero, rfl⟩]
  · rw [linked_value hchange hvalid, if_neg (fun h => hne h.2), if_pos rfl, isEOF_iff]
  · intro e hec he
    have hde : d ≠ e := by
      intro heq
      rw [← heq] at he
      exact he.2.1 hfree
    rw [linked_value hchange he.1, if_neg (fun h => hec h.2.symm), if_neg hde]
  · exact linked_allocated hchange hvalid (.inr ⟨hc, hd.2.2⟩)

theorem removed_value {w : Nat} (hchange : Change v (fun e => (zeroed ys e).or (only c w e)) f f')
    {e : Nat} (he : v.b.clusterInValidRange e = true) :
    value v.b f' e = if e ∈ ys then freeValue else if c = e then w else value v.b f e := by
  rw [hchange.value e he, zeroed, only, apply_ite (Option.or · _), Option.none_or,
    apply_ite (Option.getD · _), apply_ite (Option.getD · _)]
  rfl

theorem chained_truncate (hcs : Chained v.b f ((xs ++ c :: ys) :: rest))
    (hchange : Change v (fun e => (zeroed ys e).or (only c v.b.eofValue e)) f f') :
    Chained v.b f' ((xs ++ [c]) :: rest) := by
  have hc : Allocated v.b f c :=
    (hcs.members c).mp (mem_flatten.mpr ⟨_, mem_cons_self, mem_append_right _ mem_cons_self⟩)
  have hnodup := hcs.nodup
  rw [flatten_cons, nodup_append, nodup_append, nodup_cons] at hnodup
  have hcys := hnodup.1.2.1.1
  have hbad := badValue_lt_eof v.b
  apply hcs.truncate
  · rw [removed_value hchange hc.1, if_neg hcys, if_pos rfl, isEOF_iff]
  · intro e hec hys he
    rw [removed_value hchange he.1, if_neg hys, if_neg fun h => hec h.symm]
  · intro e
    by_cases he : v.b.clusterInValidRange e = true
    · unfold Allocated
      rw [removed_value hchange he]
      split
      next hys =>
        exact ⟨fun h => absurd rfl h.2.1, fun h => absurd hys h.2⟩
      next hys =>
        split
        next hce =>
          refine ⟨fun _ => ⟨hce ▸ hc, hys⟩, fun _ => ⟨he, ?_, by omega⟩⟩
          unfold freeValue
          omega
        next =>
          exact ⟨fun h => ⟨h, hys⟩, fun h => h.1⟩
    · exact ⟨fun h => absurd h.1 he, fun h => absurd h.1.1 he⟩

theorem chained_delete (hcs : Chained v.b f ((c :: ys) :: rest))
    (hchange : Change v (fun e => (zeroed ys e).or (only c freeValue e)) f f') :
    Chained v.b f' rest := by
  apply hcs.delete
  · intro e hnot he
    rw [removed_value hchange he.1, if_neg fun h => hnot (mem_cons_of_mem _ h),
      if_neg fun h => hnot (by rw [h]; exact mem_cons_self)]
  · intro e
    by_cases he : v.b.clusterInValidRange e = true
    · unfold Allocated
      rw [removed_value hchange he]
      split
      next hys =>
        exact ⟨fun h => absurd rfl h.2.1, fun h => absurd (mem_cons_of_mem _ hys) h.2⟩
      next hys =>
        split
        next hce =>
          exact ⟨fun h => absurd rfl h.2.1, fun h => absurd (by rw [hce]; exact mem_cons_self) h.2⟩
        next hce =>
          exact ⟨fun h => ⟨h, fun hmem => (mem_cons.mp hmem).elim (fun h => hce h.symm) hys⟩,
            fun h => h.1⟩
    · exact ⟨fun h => absurd h.1 he, fun h => absurd h.1.1 he⟩

end Chains

end Garnet.Msdosfs
