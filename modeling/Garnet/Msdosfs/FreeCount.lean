import Garnet.Msdosfs.ClusterRun
import Mathlib.Algebra.BigOperators.Intervals

/-! The number of free clusters that the table keeps, against the entries that are free. -/

namespace Garnet.Msdosfs
open Manager (checkTail clearCluster clusterExtend freeTail linkTail onFAT removeAllAfter)
open Relation (ReflTransGen)

def unknownFlag : Nat := 0xFFFFFFFF
def ErrNotFound : Fault := .error "file does not exist"

/-- The end of `ReadHints`. -/
def readHints (freeCount nextFree : Nat) : Option (Nat × Nat) :=
  if freeCount = unknownFlag then none
  else if nextFree = unknownFlag then none
  else some (freeCount, nextFree)

/-- The end of `Open`, with the two numbers of the FSInfo block if there is a valid one. -/
def FAT.gather (fsInfo : Option (Nat × Nat)) (f : FAT) : FAT :=
  match fsInfo.bind fun h => readHints h.1 h.2 with
  | some (freeCount, nextFree) => { f with freeCount := freeCount, nextFree := nextFree }
  | none => { f with freeCount := unknownFlag, nextFree := numReservedClusters }

/-- `FreeCount`. -/
def FAT.reportFreeCount (f : FAT) : Nat × Option Fault :=
  (f.freeCount, if f.freeCount = unknownFlag then some ErrNotFound else none)

/-- How many of the clusters from 2 on and before `k` are free. -/
def freeBelow (b : Bootrecord) (k : Nat) (f : FAT) : Nat :=
  ((Finset.Ico 2 k).filter fun c => value b f c = freeValue).card

/-- The count and the number of free entries change together, as 32-bit numbers. -/
def Counted (b : Bootrecord) (f f' : FAT) : Prop :=
  (f'.freeCount + freeBelow b b.maxCluster f) % 2 ^ 32 =
    (f.freeCount + freeBelow b b.maxCluster f') % 2 ^ 32 ∧
    (f.freeCount < 2 ^ 32 → f'.freeCount < 2 ^ 32)

/-- The chain from `c` on leads to `d`. -/
def Leads (b : Bootrecord) (f : FAT) (c d : Nat) : Prop :=
  ReflTransGen (fun e e' => b.clusterInValidRange e = true ∧ value b f e = e') c d

/-- The number behind the usable clusters, whose entry `Set` accepts and nobody counts, is not
freed. -/
def Call.Spares (b : Bootrecord) (f : FAT) : Call → Prop
  | .extend _ => True
  | .truncate c | .delete c => ¬ Leads b f c b.maxCluster

def stateOf {σ α : Type} : EStateM.Result Fault σ α → σ
  | .ok _ s => s
  | .error _ s => s

variable {α : Type} {v : Volume} {b : Bootrecord} {f f' f'' : FAT} {c d k x : Nat}
  {r : EStateM.Result Fault FAT α}

theorem Counted.refl (b : Bootrecord) (f : FAT) : Counted b f f := ⟨rfl, id⟩

theorem Counted.ok {a : α} (h : Counted b f (stateOf r)) (hr : r = .ok a f') : Counted b f f' := by
  rw [hr] at h
  exact h

theorem Counted.error {e : Fault} (h : Counted b f (stateOf r)) (hr : r = .error e f') :
    Counted b f f' := by
  rw [hr] at h
  exact h

theorem Counted.trans (h : Counted b f f') (h' : Counted b f' f'') : Counted b f f'' := by
  have heq := h.1
  have heq' := h'.1
  exact ⟨by omega, fun hlt => h'.2 (h.2 hlt)⟩

theorem freeBelow_le (b : Bootrecord) (k : Nat) (f : FAT) : freeBelow b k f ≤ k - 2 := by
  rw [← Nat.card_Ico]
  exact Finset.card_filter_le _ _

/-- One entry changes. -/
theorem freeBelow_set (hc : b.clusterInValidRange c = true)
    (h : ∀ e, b.clusterInValidRange e = true → e ≠ c → value b f' e = value b f e)
    (hlast : c = b.maxCluster → (value b f' c = freeValue ↔ value b f c = freeValue)) :
    freeBelow b b.maxCluster f' + (if value b f c = freeValue then 1 else 0) =
      freeBelow b b.maxCluster f + if value b f' c = freeValue then 1 else 0 := by
  have hrest : ∀ s ⊆ Finset.Ico 2 b.maxCluster, c ∉ s →
    ∑ e ∈ s, (if value b f' e = freeValue then 1 else 0) =
      ∑ e ∈ s, if value b f e = freeValue then 1 else 0 := by
    intro s hs hnot
    refine Finset.sum_congr rfl fun e he => ?_
    obtain ⟨hlow, hhigh⟩ := Finset.mem_Ico.mp (hs he)
    rw [h e ((valid_iff _ _).mpr ⟨hlow, le_of_lt hhigh⟩) fun heq => hnot (heq ▸ he)]
  unfold freeBelow
  rw [Finset.card_filter, Finset.card_filter]
  by_cases hmem : c ∈ Finset.Ico 2 b.maxCluster
  · rw [← Finset.add_sum_erase _ _ hmem, ← Finset.add_sum_erase _ _ hmem,
      hrest _ (Finset.erase_subset _ _) (Finset.notMem_erase _ _)]
    omega
  · have hmax : c = b.maxCluster := by
      have hvalid := (valid_iff _ _).mp hc
      rw [Finset.mem_Ico] at hmem
      omega
    rw [hrest _ (Finset.Subset.refl _) hmem]
    simp only [hlast hmax]

theorem Counted.of_change (hc : v.b.clusterInValidRange c = true)
    (hchange : Change v (only c x) f f')
    (hlast : c = v.b.maxCluster → (x = freeValue ↔ value v.b f c = freeValue))
    (hcount : f'.freeCount = if value v.b f c = freeValue ∧ x ≠ freeValue then sub32 f.freeCount 1
      else if value v.b f c ≠ freeValue ∧
        x = freeValue then u32 (f.freeCount + 1) else f.freeCount) : Counted v.b f f' := by
  have hnew : value v.b f' c = x := by
    rw [hchange.value c hc, only, if_pos rfl, Option.getD_some]
  have hsame : ∀ e, v.b.clusterInValidRange e = true → e ≠ c → value v.b f' e = value v.b f e := by
    intro e he hne
    rw [hchange.value e he, only, if_neg hne.symm, Option.getD_none]
  have hfree := freeBelow_set hc hsame (hnew.symm ▸ hlast)
  rw [hnew] at hfree
  unfold Counted
  unfold sub32 u32 at hcount
  rw [hcount]
  by_cases hold : value v.b f c = freeValue <;> by_cases hx : x = freeValue <;>
    simp only [hold, hx, if_true, if_false, ne_eq, not_true_eq_false, not_false_eq_true, and_true,
      and_false] at hfree ⊢ <;>
    omega

theorem set_cases (hx : x ≤ v.b.clusterMask) (c : Nat) (f : FAT) : stateOf (FAT.set v.b x c f) = f ∨
    v.b.clusterInValidRange c = true ∧ Change v (only c x) f (stateOf (FAT.set v.b x c f)) ∧
      (stateOf (FAT.set v.b x c f)).freeCount = if value v.b f c = freeValue ∧
        x ≠ freeValue then sub32 f.freeCount 1
        else if value v.b f c ≠ freeValue ∧
          x = freeValue then u32 (f.freeCount + 1) else f.freeCount := by
  unfold FAT.set
  iterate 4 (split; · exact .inl rfl)
  rename_i hvalid _
  have hc : v.b.clusterInValidRange c = true := by simpa using hvalid
  unfold Bootrecord.clusterLocationFATPrimary
  by_cases hbad : value v.b f c = v.b.badValue
  · rw [setValueAt_bad hbad]
    exact .inl rfl
  · have hset : setValueAt v.b x (v.b.clusterLocationFAT v.b.primaryFAT c) f.device = .ok (_, _) :=
      if_neg fun h => hbad (of_decide_eq_true h)
    rw [hset]
    refine .inr ⟨hc, change_written hc hx hbad rfl rfl rfl, ?_⟩
    have hbefore : isFree (getRawEntry v.b (v.b.clusterLocationFAT v.b.primaryFAT c)
      f.device &&& v.b.clusterMask) = true ↔
      value v.b f c = freeValue := decide_eq_true_iff
    dsimp only [stateOf]
    simp only [hbefore, isFree_iff, ne_eq]
    split_ifs
    · rfl
    · rfl
    · rfl

theorem set_counted (hx : x ≤ v.b.clusterMask) (c : Nat) (f : FAT)
    (hlast : c = v.b.maxCluster → (x = freeValue ↔ value v.b f c = freeValue)) :
    Counted v.b f (stateOf (FAT.set v.b x c f)) := by
  rcases set_cases hx c f with hsame | ⟨hc, hchange, hcount⟩
  · rw [hsame]
    exact .refl _ _
  · exact .of_change hc hchange hlast hcount

/-- An entry that gets a mark leads nowhere. -/
theorem leads_of_set (hx : x ≤ v.b.clusterMask) (hmark : v.b.clusterInValidRange x = false)
    {e : Nat} (h : Leads v.b (stateOf (FAT.set v.b x c f)) e v.b.maxCluster) :
    Leads v.b f e v.b.maxCluster := by
  rcases set_cases hx c f with hsame | ⟨hc, hchange, -⟩
  · rwa [hsame] at h
  · induction h using ReflTransGen.head_induction_on with
    | refl => exact .refl
    | @head a a' hstep _ ih =>
      obtain ⟨ha, hvalue⟩ := hstep
      rw [hchange.value a ha, only] at hvalue
      by_cases hac : c = a
      · rw [if_pos hac, Option.getD_some] at hvalue
        subst hvalue
        rcases ih.cases_head with hend | ⟨_, ⟨hvalid, -⟩, -⟩
        · obtain ⟨hlow, hhigh⟩ := (valid_iff _ _).mp hc
          rw [hend, (valid_iff _ _).mpr ⟨le_trans hlow hhigh, le_refl _⟩] at hmark
          cases hmark
        · rw [hvalid] at hmark
          cases hmark
      · rw [if_neg hac, Option.getD_none] at hvalue
        exact .head ⟨ha, hvalue⟩ ih

theorem get_value (h : f.get b c = .ok x) : b.clusterInValidRange c = true ∧ value b f c = x := by
  unfold FAT.get at h
  split at h
  · cases h
  split at h
  · cases h
  next hvalid => exact ⟨by simpa using hvalid, Except.ok.inj h⟩

/-- A cluster of a chain that does not lead to the last number is freed or becomes the end. -/
theorem mark_counted (hx : x ≤ v.b.clusterMask) (hmark : v.b.clusterInValidRange x = false)
    (hspares : ¬ Leads v.b f c v.b.maxCluster) (hget : f.get v.b c = .ok d) :
    Counted v.b f (stateOf (FAT.set v.b x c f)) ∧
    ¬ Leads v.b (stateOf (FAT.set v.b x c f)) d v.b.maxCluster :=
  ⟨set_counted hx c f fun heq => absurd (heq ▸ .refl) hspares,
    fun hleads => hspares (.head (get_value hget) (leads_of_set hx hmark hleads))⟩

theorem take_counted (hc : c < v.b.maxCluster) (f : FAT) :
    Counted v.b f (stateOf (FAT.take v.b c f)) := by
  have hset := set_counted (v := v) (eofValue_le_mask v.b) c { f with nextFree := c }
    fun heq => absurd heq (ne_of_lt hc)
  unfold FAT.take
  split
  next hrun => exact hset.ok hrun
  next hrun => exact hset.error hrun

theorem findFree_bounds {n : Nat} (h : f.findFree b c n = .ok (some d)) : c ≤ d ∧ d < c + n := by
  induction n generalizing c with
  | zero => cases h
  | succ n ih =>
    unfold FAT.findFree at h
    obtain ⟨free, -, h⟩ := ok_of_bind h
    split at h
    · cases h
      omega
    · have hrest := ih h
      omega

theorem allocate_counted (f : FAT) : Counted v.b f (stateOf (FAT.allocate v.b f)) := by
  unfold FAT.allocate
  iterate 2 (split; · exact .refl _ _)
  dsimp only
  split
  · exact .refl _ _
  next hfind =>
    have hbounds := findFree_bounds hfind
    exact take_counted (by omega) f
  split
  · exact .refl _ _
  next hfind =>
    have hbounds := findFree_bounds hfind
    refine take_counted ?_ f
    split at hbounds
    next hvalid =>
      have hmax := ((valid_iff _ _).mp hvalid).2
      omega
    next => omega
  · exact .refl _ _

theorem freeTail_counted (fuel : Nat) {c : Nat} {f : FAT}
    (hspares : ¬ Leads v.b f c v.b.maxCluster) :
    Counted v.b f (stateOf (freeTail v.b fuel c f)) := by
  induction fuel generalizing c f with
  | zero => exact .refl _ _
  | succ fuel ih =>
    unfold freeTail
    iterate 2 (split; · exact .refl _ _)
    next hget =>
    obtain ⟨hset, hrest⟩ := mark_counted (x := freeValue) (Nat.zero_le _) rfl hspares hget
    split
    · exact .refl _ _
    split
    next hrun => exact hset.error hrun
    next f' hrun =>
      rw [hrun] at hrest
      exact (hset.ok hrun).trans (ih hrest)

theorem clear_counted (hd : v.b.clusterInValidRange d = true) (f : FAT) :
    Counted v.b f (clearCluster v.b d f) := by
  have hvalue : ∀ e, v.b.clusterInValidRange e = true →
      value v.b (clearCluster v.b d f) e = value v.b f e :=
    fun e he => (clear_change hd).value e he
  have hsame := freeBelow_set hd (fun e he _ => hvalue e he) fun _ => by rw [hvalue d hd]
  have hcount : (clearCluster v.b d f).freeCount = f.freeCount := by
    cases f
    rfl
  rw [hvalue d hd] at hsame
  unfold Counted
  rw [hcount, Nat.add_right_cancel hsame]
  exact ⟨rfl, id⟩

theorem linkTail_counted (hd : Allocatable v.b d) (hmask : d ≤ v.b.clusterMask)
    (hc : value v.b f c ≠ freeValue) : Counted v.b f (stateOf (linkTail v.b d c f)) := by
  have hlow := hd.1
  have hset := set_counted (v := v) hmask c f fun _ => iff_of_false (by unfold freeValue; omega) hc
  unfold linkTail
  split
  next hrun => exact hset.ok hrun
  next f' hrun =>
    have hfree := set_counted (v := v) (x := freeValue) (Nat.zero_le _) d f'
      fun heq => absurd heq (ne_of_lt hd.2.1)
    split
    next hrun' => exact (hset.error hrun).trans (hfree.ok hrun')
    next hrun' => exact (hset.error hrun).trans (hfree.error hrun')

theorem onFAT_counted {x : EStateM Fault FAT α} {m : Manager}
    (h : Counted b m.fat (stateOf (x m.fat))) : Counted b m.fat (stateOf (onFAT x m)).fat := by
  unfold onFAT
  cases hx : x m.fat <;> rw [hx] at h <;> exact h

theorem allocate_change (hmark : v.b.maxCluster < v.b.eofValue)
    (h : FAT.allocate v.b f = .ok d f') :
    Allocatable v.b d ∧ Change v (only d v.b.eofValue) f f' := by
  by_cases hf : f.Writable
  · rcases allocate_spec hf hmark with ⟨e, f₁, hrun, he, -, hchange, -⟩ | ⟨⟨_, hrun⟩, -⟩
    · obtain ⟨rfl, rfl⟩ := EStateM.Result.ok.inj (h.symm.trans hrun)
      exact ⟨he, hchange⟩
    · rw [h] at hrun
      cases hrun
  · unfold FAT.allocate at h
    split at h
    · cases h
    split at h
    · cases h
    rename_i hclosed hreadonly
    exact absurd ⟨by simpa using hclosed, by simpa using hreadonly⟩ hf

theorem checkTail_ok (h : checkTail b c f = .ok ()) :
    b.clusterInValidRange c = true ∧ value b f c ≠ freeValue := by
  obtain ⟨tail, hget, h⟩ := ok_of_bind h
  obtain ⟨hvalid, rfl⟩ := get_value hget
  split at h
  · cases h
  next hfree => exact ⟨hvalid, fun heq => hfree ((isFree_iff _).mpr heq)⟩

theorem extend_counted (hmark : v.b.maxCluster < v.b.eofValue) (c : Nat) (m : Manager) :
    Counted v.b m.fat (stateOf (clusterExtend v.b c m)).fat := by
  unfold clusterExtend
  iterate 3 (split; · exact .refl _ _)
  next hcheck =>
  apply onFAT_counted
  have halloc := allocate_counted (v := v) m.fat
  split
  next hrun => exact halloc.error hrun
  next d f' hrun =>
    obtain ⟨hd, hchange⟩ := allocate_change hmark hrun
    have hclear := (halloc.ok hrun).trans (clear_counted hd.valid f')
    split
    next hrequested =>
      rw [if_pos hrequested] at hcheck
      obtain ⟨hvalid, htail⟩ := checkTail_ok hcheck
      have hmax := hd.2.1
      have hmask := eofValue_le_mask v.b
      refine hclear.trans (linkTail_counted hd (by omega) ?_)
      -- neither the allocation nor the clearing frees the old end
      rw [(clear_change hd.valid).value c hvalid, Option.getD_none, hchange.value c hvalid, only]
      split
      · unfold freeValue
        rw [Option.getD_some]
        omega
      · exact htail
    next => exact hclear

theorem remove_counted (hmark : v.b.maxCluster < v.b.eofValue) (start : Bool) {m : Manager}
    (hspares : ¬ Leads v.b m.fat c v.b.maxCluster) :
    Counted v.b m.fat (stateOf (removeAllAfter v.b c start m)).fat := by
  have hx : (if start then freeValue else v.b.eofValue) ≤ v.b.clusterMask := by
    cases start
    · exact eofValue_le_mask v.b
    · exact Nat.zero_le _
  have hend : v.b.clusterInValidRange (if start then freeValue else v.b.eofValue) = false := by
    rw [← Bool.not_eq_true, valid_iff]
    cases start <;> simp [freeValue]
    omega
  unfold removeAllAfter
  iterate 4 (split; · exact .refl _ _)
  next hget =>
  obtain ⟨hset, hrest⟩ := mark_counted hx hend hspares hget
  apply onFAT_counted
  split
  next hrun => exact hset.error hrun
  next f' hrun =>
    rw [hrun] at hrest
    exact (hset.ok hrun).trans (freeTail_counted _ hrest)

theorem call_counted (hmark : v.b.maxCluster < v.b.eofValue) (call : Call) (m : Manager)
    (hspares : call.Spares v.b m.fat) : Counted v.b m.fat (after (call.exec v.b m)).fat := by
  have hunit : ∀ x : EStateM Fault Manager Unit, (after ((x >>= fun _ => pure 0) m)).fat =
      (stateOf (x m)).fat := by
    intro x
    cases hx : x m with
    | ok a m' => rw [bind_ok hx]; rfl
    | error e m' => rw [bind_error hx]; rfl
  cases call with
  | extend c =>
    have hextend := extend_counted hmark c m
    change Counted v.b m.fat (after (clusterExtend v.b c m)).fat
    cases hrun : clusterExtend v.b c m <;> rw [hrun] at hextend <;> exact hextend
  | truncate c => exact hunit (Manager.clusterTruncate v.b c) ▸ remove_counted hmark false hspares
  | delete c => exact hunit (Manager.clusterDelete v.b c) ▸ remove_counted hmark true hspares

def runCalls (b : Bootrecord) (calls : List Call) (m : Manager) : Manager :=
  calls.foldl (fun m call => after (call.exec b m)) m

/-- Each call of the run spares the last number, in the state before it. -/
def Sparing (b : Bootrecord) : List Call → Manager → Prop
  | [], _ => True
  | call :: calls, m => call.Spares b m.fat ∧ Sparing b calls (after (call.exec b m))

theorem run_counted (hmark : v.b.maxCluster < v.b.eofValue) (calls : List Call) (m : Manager)
    (hspares : Sparing v.b calls m) : Counted v.b m.fat (runCalls v.b calls m).fat := by
  induction calls generalizing m with
  | nil => exact .refl _ _
  | cons call calls ih => exact (call_counted hmark call m hspares.1).trans (ih _ hspares.2)

/-- A count that `FreeCount` returns without an error is the number of free clusters. -/
def CountRight (b : Bootrecord) (f : FAT) : Prop :=
  f.reportFreeCount.2 = none → f.reportFreeCount.1 = freeBelow b b.maxCluster f

theorem gather_cases (fsInfo : Option (Nat × Nat)) (f : FAT) :
    (∃ n k, fsInfo = some (n, k) ∧ n ≠ unknownFlag ∧
      f.gather fsInfo = { f with freeCount := n, nextFree := k }) ∨
      f.gather fsInfo = { f with freeCount := unknownFlag, nextFree := numReservedClusters } := by
  unfold FAT.gather
  rcases fsInfo with _ | ⟨n, k⟩
  · exact .inr rfl
  · rw [Option.bind_some]
    unfold readHints
    split_ifs with hn hk
    · exact .inr rfl
    · exact .inr rfl
    · exact .inl ⟨n, k, rfl, hn, rfl⟩

/-- If the count is known at first, and no call truncates or deletes a chain that leads to the last
number that `Set` accepts, which is not the number of a usable cluster, the count stays right. -/
theorem free_count_right (v : Volume) (hmark : v.b.maxCluster < v.b.eofValue) (f : FAT)
    (fsInfo : Option (Nat × Nat)) (calls : List Call)
    (hcorrect : ∀ h, fsInfo = some h → h.1 ≠ unknownFlag → h.1 = freeBelow v.b v.b.maxCluster f)
    (hknown : (f.gather fsInfo).freeCount ≠ unknownFlag)
    (hspares : Sparing v.b calls ⟨f.gather fsInfo, false⟩) :
    CountRight v.b (runCalls v.b calls ⟨f.gather fsInfo, false⟩).fat := by
  have hcounted := run_counted hmark calls ⟨f.gather fsInfo, false⟩ hspares
  generalize runCalls v.b calls ⟨f.gather fsInfo, false⟩ = m at hcounted ⊢
  rcases gather_cases fsInfo f with ⟨n, k, hinfo, hn, hgather⟩ | hgather
  · have hcount := hcorrect _ hinfo hn
    have hle := freeBelow_le v.b v.b.maxCluster f
    have hle' := freeBelow_le v.b v.b.maxCluster m.fat
    have hmax : v.b.maxCluster < 2 ^ 32 := u32_lt _
    obtain ⟨heq, hlt⟩ := hcounted
    have hfree : freeBelow v.b v.b.maxCluster (f.gather fsInfo) = freeBelow v.b v.b.maxCluster f := by
      rw [hgather]
      cases f
      rfl
    have hstart : (f.gather fsInfo).freeCount = n := by
      rw [hgather]
    rw [hfree, hstart] at heq
    rw [hstart] at hlt
    have hlt := hlt (by omega)
    intro _
    change m.fat.freeCount = _
    dsimp only at hcount
    omega
  · exact absurd (by rw [hgather]) hknown

/-- A chain of one cluster is made and deleted. -/
theorem free_count_after_delete :
    CountRight longFAT.cachedSmall (runCalls longFAT.cachedSmall [.extend 0, .delete 2]
    ⟨emptyManager.fat.gather (some (4083, 2)), false⟩).fat := by
  obtain ⟨v, hv, hmark⟩ := longFAT_volume
  rw [← hv]
  refine free_count_right v hmark emptyManager.fat _ _ ?_ (by decide) ⟨trivial, ?_, trivial⟩
  · rintro h ⟨⟩ -
    unfold freeBelow
    rw [Finset.filter_true_of_mem fun c _ => ?_, Nat.card_Ico, hv]
    · decide +kernel
    · unfold value emptyManager
      rw [entry_zero]
      exact Nat.zero_and _
  · rw [hv]
    intro hleads
    rcases hleads.cases_head with hend | ⟨_, ⟨-, rfl⟩, hleads⟩
    · exact absurd hend (by decide +kernel)
    rcases hleads.cases_head with hend | ⟨_, ⟨hvalid, -⟩, -⟩
    · exact absurd hend (by decide +kernel)
    · exact absurd hvalid (by decide +kernel)

/-- FAT16 has no FSInfo block. The first allocation makes the unknown count a number. -/
theorem free_count_unknown : ¬ CountRight longFAT.cachedSmall
    (runCalls longFAT.cachedSmall [.extend 0] ⟨emptyManager.fat.gather none, false⟩).fat := by
  have hcount : (runCalls longFAT.cachedSmall [.extend 0] ⟨emptyManager.fat.gather none, false⟩).fat.freeCount =
      0xFFFFFFFE := by
    decide +kernel
  intro hright
  have hle := freeBelow_le longFAT.cachedSmall longFAT.cachedSmall.maxCluster
    (runCalls longFAT.cachedSmall [.extend 0] ⟨emptyManager.fat.gather none, false⟩).fat
  unfold CountRight FAT.reportFreeCount at hright
  rw [hcount] at hright
  have hmax : longFAT.cachedSmall.maxCluster < 0xFFFFFFFE := by decide +kernel
  have heq := hright rfl
  omega

end Garnet.Msdosfs
