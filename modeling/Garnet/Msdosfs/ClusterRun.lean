import Garnet.Msdosfs.ChainRun

/-! Runs of the calls of the cluster manager: the allocated clusters stay chains, and each call
changes the chains as it should. -/

namespace Garnet.Msdosfs
open List

inductive Call where
  | extend (cluster : Nat)
  | truncate (cluster : Nat)
  | delete (cluster : Nat)

def Call.exec (b : Bootrecord) : Call → EStateM Fault Manager Nat
  | .extend c => Manager.clusterExtend b c
  | .truncate c => do
    Manager.clusterTruncate b c
    return 0
  | .delete c => do
    Manager.clusterDelete b c
    return 0

def after : EStateM.Result Fault Manager Nat → Manager
  | .ok _ m => m
  | .error _ m => m

/-- The arguments of the calls: an extension behind no cluster or behind the last one of a chain,
and the deletion of a chain from its first cluster. -/
def Call.Allowed (cs : List (List Nat)) : Call → Prop
  | .extend c => c = 0 ∨ ∃ xs, xs ++ [c] ∈ cs
  | .truncate _ => True
  | .delete c => ∃ ys, c :: ys ∈ cs

/-- What a call does to the chains `cs`. A cluster that is in no chain is not changed by a
truncation, unless it was free: then it is a chain of its own afterwards. -/
def Call.Effect (b : Bootrecord) (m : Manager) (cs : List (List Nat))
    (r : EStateM.Result Fault Manager Nat) : Call → Prop
  | .extend c =>
    (∃ d, r = .ok d (after r) ∧ Allocatable b d ∧ value b m.fat d = freeValue ∧
      (c = 0 ∧ Chained b (after r).fat ([d] :: cs) ∨
        ∃ xs rest, cs.Perm ((xs ++ [c]) :: rest) ∧
          Chained b (after r).fat ((xs ++ [c] ++ [d]) :: rest))) ∨
    r = .error ErrNoSpace (after r) ∧ (∀ d, Allocatable b d → value b m.fat d ≠ freeValue) ∧
      Chained b (after r).fat cs
  | .truncate c =>
    (∃ xs ys rest, cs.Perm ((xs ++ c :: ys) :: rest) ∧ r = .ok 0 (after r) ∧
      Chained b (after r).fat ((xs ++ [c]) :: rest)) ∨
      c ∉ cs.flatten ∧ (Chained b (after r).fat cs ∨ value b m.fat c = freeValue ∧
        Chained b (after r).fat ([c] :: cs))
  | .delete c =>
    ∃ ys rest, cs.Perm ((c :: ys) :: rest) ∧ r = .ok 0 (after r) ∧ Chained b (after r).fat rest

structure Call.Outcome (v : Volume) (m : Manager) (cs : List (List Nat)) (call : Call)
    (r : EStateM.Result Fault Manager Nat) : Prop where
  effect : call.Effect v.b m cs r
  kept : Kept v m.fat (after r).fat
  ready : (after r).Ready
  form : ∃ cs', Chained v.b (after r).fat cs'

variable {v : Volume} {m m' : Manager} {c : Nat} {cs : List (List Nat)} {f f' : FAT}

theorem ready_of_kept (hm : m.Ready) (hkept : Kept v m.fat f) : Manager.Ready { m with fat := f } :=
  ⟨⟨hkept.closed.trans hm.writable.closed, hkept.readonly.trans hm.writable.readonly⟩, hm.mounted⟩

theorem perm_of_mem {l : List Nat} (hl : l ∈ cs) : ∃ rest, cs.Perm (l :: rest) := by
  obtain ⟨s, t, rfl⟩ := append_of_mem hl
  exact ⟨s ++ t, perm_middle⟩

theorem kept_hint (v : Volume) (f : FAT) (hint : Nat) : Kept v f { f with nextFree := hint } :=
  ⟨rfl, rfl, fun _ _ _ _ => rfl, fun _ _ => Iff.rfl, id⟩

theorem kept_linked {d : Nat} (hchange : Change v (linked v.b c d) f f')
    (hbad : c = 0 ∨ d ≠ v.b.badValue) (hfree : value v.b f d = freeValue)
    (hc : c = 0 ∨ Allocated v.b f c) : Kept v f f' := by
  have hmarks := badValue_lt_eof v.b
  apply Kept.of_change hchange
  intro e w he hw
  unfold linked at hw
  split at hw
  next hce =>
    cases hw
    exact ⟨hbad.resolve_left hce.1, hce.2 ▸ (hc.resolve_left hce.1).2.2⟩
  next =>
    split at hw
    next hde =>
      cases hw
      rw [← hde, hfree]
      unfold freeValue
      omega
    next => cases hw

theorem kept_removed {ys : List Nat} {w : Nat}
    (hchange : Change v (fun e => (zeroed ys e).or (only c w e)) f f') (hw : w ≠ v.b.badValue)
    (hall : ∀ e ∈ c :: ys, Allocated v.b f e) : Kept v f f' := by
  have hmarks := badValue_lt_eof v.b
  apply Kept.of_change hchange
  intro e x he hx
  unfold zeroed only at hx
  split at hx
  next hys =>
    cases hx
    refine ⟨?_, (hall e (mem_cons_of_mem _ hys)).2.2⟩
    unfold freeValue
    omega
  next =>
    rw [Option.none_or] at hx
    split at hx
    next hce =>
      cases hx
      exact ⟨hw, hce ▸ (hall c mem_cons_self).2.2⟩
    next => cases hx

section
variable (hm : m.Ready) (hmark : v.b.maxCluster < v.b.eofValue)
include hm hmark

theorem extend_outcome (hcs : Chained v.b m.fat cs) (hallowed : (Call.extend c).Allowed cs) :
    (Call.extend c).Outcome v m cs ((Call.extend c).exec v.b m) := by
  change Call.Outcome v m cs (.extend c) (Manager.clusterExtend v.b c m)
  have halloc : ∀ xs, xs ++ [c] ∈ cs → Allocated v.b m.fat c := fun xs hxs =>
    (hcs.members c).mp (mem_flatten.mpr ⟨_, hxs, mem_append_right _ mem_cons_self⟩)
  have hpre : c = 0 ∨ v.b.clusterInValidRange c = true ∧ v.b.isEOF (value v.b m.fat c) = true := by
    cases hallowed with
    | inl hzero => exact .inl hzero
    | inr hlast =>
      obtain ⟨xs, hxs⟩ := hlast
      exact .inr ⟨(halloc xs hxs).1, (hcs.chain _ hxs).eof_last⟩
  cases clusterExtend_spec hm hmark hpre with
  | inr hnone =>
    obtain ⟨⟨hint, hrun⟩, hall⟩ := hnone
    rw [hrun]
    have hkept := kept_hint v m.fat hint
    exact ⟨.inr ⟨rfl, hall, hcs⟩, hkept, ready_of_kept hm hkept, ⟨cs, hcs⟩⟩
  | inl hsome =>
    obtain ⟨d, f', hrun, hd, hfree, hchange, _⟩ := hsome
    have hvalid := hd.valid
    rw [hrun]
    cases hallowed with
    | inl hzero =>
      subst hzero
      have hkept := kept_linked hchange (.inl rfl) hfree (.inl rfl)
      have hchained := chained_start hcs hchange hvalid hfree
      exact ⟨.inl ⟨d, rfl, hd, hfree, .inl ⟨rfl, hchained⟩⟩, hkept, ready_of_kept hm hkept,
        ⟨_, hchained⟩⟩
    | inr hlast =>
      obtain ⟨xs, hxs⟩ := hlast
      obtain ⟨rest, hperm⟩ := perm_of_mem hxs
      have hkept := kept_linked hchange (.inr hd.2.2) hfree (.inr (halloc xs hxs))
      have hchained := chained_extend hmark (hcs.perm hperm) hchange hd hfree
      exact ⟨.inl ⟨d, rfl, hd, hfree, .inr ⟨xs, rest, hperm, hchained⟩⟩, hkept,
        ready_of_kept hm hkept, ⟨_, hchained⟩⟩

theorem delete_outcome (hcs : Chained v.b m.fat cs) (hallowed : (Call.delete c).Allowed cs) :
    (Call.delete c).Outcome v m cs ((Call.delete c).exec v.b m) := by
  obtain ⟨ys, hys⟩ := hallowed
  obtain ⟨rest, hperm⟩ := perm_of_mem hys
  have hchains := hcs.perm hperm
  obtain ⟨f', hrun, hchange, _⟩ := @removeAllAfter_spec v c m [] ys rest hm hmark hchains true
  have hexec : (Call.delete c).exec v.b m = .ok 0 { m with fat := f' } := bind_ok hrun _
  have hmarks := badValue_lt_eof v.b
  have hkept := kept_removed hchange (by rw [if_pos rfl]; unfold freeValue; omega) fun e he =>
    (hcs.members e).mp (mem_flatten.mpr ⟨_, hys, he⟩)
  have hchained := chained_delete hchains hchange
  rw [hexec]
  exact ⟨⟨ys, rest, hperm, rfl, hchained⟩, hkept, ready_of_kept hm hkept, ⟨_, hchained⟩⟩

/-- A cluster that is in no chain: the call fails or does nothing, but a free cluster is marked as
the end of a file before it fails. -/
theorem truncate_other (hc : ¬ Allocated v.b m.fat c) :
    Manager.clusterTruncate v.b c m = .ok () m ∨
      (∃ e, Manager.clusterTruncate v.b c m = .error e m) ∨
      v.b.clusterInValidRange c = true ∧ value v.b m.fat c = freeValue ∧
        ∃ e f', Manager.clusterTruncate v.b c m = .error e { m with fat := f' } ∧
          Change v (linked v.b 0 c) m.fat f' := by
  unfold Manager.clusterTruncate
  by_cases hskip : (v.b.isEOF c || isFree c) = true
  · unfold Manager.removeAllAfter
    rw [hm.writable.readonly, hskip]
    exact .inl rfl
  rw [Bool.not_eq_true] at hskip
  by_cases hvalid : v.b.clusterInValidRange c = true
  · obtain ⟨htwo, hmax⟩ := (valid_iff _ _).mp hvalid
    rw [removeAllAfter_eq hm hskip hvalid false]
    by_cases hbad : value v.b m.fat c = v.b.badValue
    · obtain ⟨e, hset⟩ :=
        set_bad (v := v) (x := v.b.eofValue) hm.writable.closed hm.writable.readonly hbad
      refine .inr (.inl ⟨e, ?_⟩)
      apply onFAT_error
      rw [if_neg nofun, hset]
    · have hfree : value v.b m.fat c = freeValue := by
        apply Classical.byContradiction
        exact fun hne => hc ⟨hvalid, hne, hbad⟩
      obtain ⟨f₁, hset, hchange, _⟩ :=
        set_change (v := v) (x := v.b.eofValue) (c := c) hm.writable.closed hm.writable.readonly
        hvalid (by omega) (eofValue_le_mask v.b) hbad
      refine .inr (.inr ⟨hvalid, hfree, ErrInvalidCluster, f₁, ?_, ?_⟩)
      · have hzero : v.b.isEOF freeValue = false := by
          have hmarks := badValue_lt_eof v.b
          apply decide_eq_false
          unfold freeValue
          omega
        have hget : f₁.get v.b freeValue = .error ErrInvalidCluster := by
          have hclosed := (hchange.writable hm.writable).closed
          unfold FAT.get
          rw [hclosed]
          rfl
        apply onFAT_error
        rw [if_neg nofun, hset, hfree]
        unfold Manager.freeTail
        dsimp only
        rw [hzero, hget]
        rfl
      · rw [linked_zero]
        exact hchange
  · refine .inr (.inl ⟨ErrInvalidCluster, ?_⟩)
    have hget : m.fat.get v.b c = .error ErrInvalidCluster := by
      unfold FAT.get
      rw [hm.writable.closed, if_neg nofun, if_pos hvalid]
    unfold Manager.removeAllAfter
    rw [hm.writable.readonly, hskip, hm.mounted, hget]
    rfl

theorem truncate_outcome (hcs : Chained v.b m.fat cs) :
    (Call.truncate c).Outcome v m cs ((Call.truncate c).exec v.b m) := by
  by_cases hmem : c ∈ cs.flatten
  · obtain ⟨l, hl, hc⟩ := mem_flatten.mp hmem
    obtain ⟨xs, ys, rfl⟩ := append_of_mem hc
    obtain ⟨rest, hperm⟩ := perm_of_mem hl
    have hchains := hcs.perm hperm
    obtain ⟨f', hrun, hchange, _⟩ := removeAllAfter_spec hm hmark hchains false
    have hexec : (Call.truncate c).exec v.b m = .ok 0 { m with fat := f' } := bind_ok hrun _
    have hmarks := badValue_lt_eof v.b
    have hkept := kept_removed hchange (by rw [if_neg nofun]; omega) fun e he =>
      (hcs.members e).mp (mem_flatten.mpr ⟨_, hl, mem_append_right _ he⟩)
    have hchained := chained_truncate hchains hchange
    rw [hexec]
    exact ⟨.inl ⟨xs, ys, rest, hperm, rfl, hchained⟩, hkept, ready_of_kept hm hkept, ⟨_, hchained⟩⟩
  · have hsame {r : EStateM.Result Fault Manager Nat} (heq : after r =
        m) : (Call.truncate c).Outcome v m cs r := by
      subst heq
      exact ⟨.inr ⟨hmem, .inl hcs⟩, Kept.refl v _, hm, cs, hcs⟩
    rcases truncate_other hm hmark fun h => hmem ((hcs.members c).mpr h) with
        hok | ⟨e, herror⟩ | ⟨hvalid, hfree, e, f', herror, hchange⟩
    · have hexec : (Call.truncate c).exec v.b m = .ok 0 m := bind_ok hok _
      rw [hexec]
      exact hsame rfl
    · have hexec : (Call.truncate c).exec v.b m = .error e m := bind_error herror _
      rw [hexec]
      exact hsame rfl
    · have hexec : (Call.truncate c).exec v.b m = .error e { m with fat := f' } := bind_error herror _
      have hkept := kept_linked hchange (.inl rfl) hfree (.inl rfl)
      have hchained := chained_start hcs hchange hvalid hfree
      rw [hexec]
      exact ⟨.inr ⟨hmem, .inr ⟨hfree, hchained⟩⟩, hkept, ready_of_kept hm hkept, ⟨_, hchained⟩⟩

theorem call_outcome (hcs : Chained v.b m.fat cs) {call : Call}
    (hallowed : call.Allowed cs) : call.Outcome v m cs (call.exec v.b m) := by
  cases call with
  | extend c => exact extend_outcome hm hmark hcs hallowed
  | truncate c => exact truncate_outcome hm hmark hcs
  | delete c => exact delete_outcome hm hmark hcs hallowed

end

inductive Reach (b : Bootrecord) (m : Manager) : Manager → Prop where
  | start : Reach b m m
  | call {m' : Manager} {cs : List (List Nat)} (call : Call) :
      Reach b m m' → Chained b m'.fat cs → call.Allowed cs →
    Reach b m (after (call.exec b m'))

theorem reach_kept (hm : m.Ready) (hmark : v.b.maxCluster < v.b.eofValue)
    (hform : ∃ cs, Chained v.b m.fat cs) (hreach : Reach v.b m m') :
    m'.Ready ∧ (∃ cs, Chained v.b m'.fat cs) ∧ Kept v m.fat m'.fat := by
  induction hreach with
  | start => exact ⟨hm, hform, Kept.refl v m.fat⟩
  | call call _ hcs hallowed ih =>
    obtain ⟨hready, _, hkept⟩ := ih
    have hout := call_outcome hready hmark hcs hallowed
    exact ⟨hout.ready, hout.form, hkept.trans hout.kept⟩

/-- On a volume of consistent layout whose cluster numbers are below the end marks, the allocated
clusters are chains after any calls, and each call does to the chains what it should and nothing
else. -/
theorem cluster_chains_hold (v : Volume) (hmark : v.b.maxCluster < v.b.eofValue) (m m' : Manager)
    (hm : m.Ready) (hform : ∃ cs, Chained v.b m.fat cs) (hreach : Reach v.b m m') :
    (∃ cs, Chained v.b m'.fat cs) ∧ Kept v m.fat m'.fat ∧
      ∀ (cs : List (List Nat)) (call : Call), Chained v.b m'.fat cs → call.Allowed cs →
        call.Effect v.b m' cs (call.exec v.b m') ∧
          Kept v m'.fat (after (call.exec v.b m')).fat := by
  obtain ⟨hready, hform', hkept⟩ := reach_kept hm hmark hform hreach
  refine ⟨hform', hkept, fun cs call hcs hallowed => ?_⟩
  have hout := call_outcome hready hmark hcs hallowed
  exact ⟨hout.effect, hout.kept⟩

theorem exists_volume {dev : BootDevice} {b : Bootrecord} {s : Sector}
    (h : Bootrecord.new dev = .ok b) (hs : dev.first = .ok s) (hsound : s.Sound) :
    ∃ v : Volume, v.b = b := by
  obtain ⟨s', hs', hcached, hsize, hprimary⟩ := Bootrecord.new_cases h
  cases hs.symm.trans hs'
  have hcluster := hcached.clusterSize
  have hsector := hcached.bytesPos
  have hper := hcached.clusterPos
  refine ⟨⟨b, dev.deviceSize, hcached.consistent_of_sound hsize hsound, hprimary, ?_, ?_⟩, rfl⟩
  · rw [hcluster, hcached.sectorsPerCluster, hcached.sectorSize]
  · rw [hcluster]
    exact Nat.mul_pos hper hsector

theorem longFAT_volume :
    ∃ v : Volume, v.b = longFAT.cachedSmall ∧ v.b.maxCluster < v.b.eofValue := by
  obtain ⟨v, hv⟩ :=
    @exists_volume ⟨.ok longFAT, 4103 * 512⟩ longFAT.cachedSmall _ (by decide +kernel) rfl
    ⟨by decide +kernel, by decide +kernel, by decide +kernel, by decide +kernel⟩
  exact ⟨v, hv, hv ▸ by decide +kernel⟩

def emptyManager : Manager := ⟨⟨fun _ => 0, false, false, 0, 2⟩, false⟩

theorem entry_zero (b : Bootrecord) (i c : Nat) : entry b i c (fun _ => 0) = 0 := by
  unfold entry getRawEntry Device.readAt
  induction List.range b.fatEntrySize with
  | nil => rfl
  | cons i l ih =>
    rw [map_cons, LittleEndian.ofLe, ih]
    rfl

theorem emptyManager_chained (b : Bootrecord) : Chained b emptyManager.fat [] := by
  refine ⟨nofun, nodup_nil, fun c => ⟨nofun, fun h => absurd ?_ h.2.1⟩⟩
  unfold value emptyManager
  rw [entry_zero]
  exact Nat.zero_and _

theorem emptyManager_extended :
    ∃ cs, Chained longFAT.cachedSmall (after ((Call.extend 0).exec longFAT.cachedSmall emptyManager)).fat cs := by
  obtain ⟨v, hv, hmark⟩ := longFAT_volume
  have hempty := emptyManager_chained v.b
  have hreach := Reach.call (.extend 0) Reach.start hempty (.inl rfl)
  rw [← hv]
  exact (cluster_chains_hold v hmark emptyManager _ ⟨⟨rfl, rfl⟩, rfl⟩ ⟨_, hempty⟩ hreach).1

def hugeFAT : Sector where
  bytes := [0xE9, 0, 0] ++ List.replicate 8 0 ++ [0, 2, 1, 3, 0, 1, 0, 0, 0, 0, 0xF8, 0, 0] ++
    List.replicate 8 0 ++
    [0x04, 0, 0x20, 0x10, 0x01, 0, 0x20, 0, 0, 0, 0, 0, 2, 0, 0, 0, 1, 0, 2, 0] ++
      List.replicate 12 0 ++ [0x80, 0, 0x29] ++
      List.replicate 443 0 ++ [0x55, 0xAA]
  length := by simp only [length_append, length_replicate, length_cons, length_nil]

/-- A table with one chain of one cluster, and the search about to start at a number that is an end
mark. -/
def hugeManager : Manager :=
  ⟨⟨setRawEntry hugeFAT.cachedLarge 0x0FFFFFF8 (hugeFAT.cachedLarge.clusterLocationFAT 0 2)
      fun _ => 0, false, false, 0, 0x0FFFFFF9⟩, false⟩

/-- The new cluster is not appended: the entry that points to it reads as the end of the chain. -/
theorem high_cluster_not_appended :
    Bootrecord.new ⟨.ok hugeFAT, 0x10200004 * 512⟩ = .ok hugeFAT.cachedLarge ∧
      Chained hugeFAT.cachedLarge hugeManager.fat [[2]] ∧
        ∃ m', Manager.clusterExtend hugeFAT.cachedLarge 2 hugeManager = .ok 0x0FFFFFF9 m' ∧
          ∀ cs, Chained hugeFAT.cachedLarge m'.fat cs → [2, 0x0FFFFFF9] ∉ cs := by
  have hnew : Bootrecord.new ⟨.ok hugeFAT, 0x10200004 * 512⟩ = .ok hugeFAT.cachedLarge := by
    decide +kernel
  obtain ⟨v, hv⟩ := exists_volume hnew rfl
    ⟨by decide +kernel, by decide +kernel, by decide +kernel, by decide +kernel⟩
  refine ⟨hnew, ?_, ?_⟩
  · have hvalue : ∀ c, hugeFAT.cachedLarge.clusterInValidRange c = true → c ≠ 2 →
        value hugeFAT.cachedLarge hugeManager.fat c = freeValue := by
      intro c hc hne
      have hmax := ((valid_iff _ _).mp hc).2
      have hentry := @Volume.entry_setRaw v 0 0 2 c (fun _ => 0)
        (by rw [hv]; decide +kernel) (by rw [hv]; decide +kernel) 0x0FFFFFF8
        (by rw [hv]; decide +kernel) (by rw [hv]; decide +kernel)
        (by rw [hv]; exact hmax) (by rw [hv]; decide +kernel)
      rw [if_neg (fun h => hne h.2.symm), hv] at hentry
      have hprimary : hugeFAT.cachedLarge.primaryFAT = 0 := by decide +kernel
      unfold value hugeManager
      rw [hprimary, hentry, entry_zero]
      exact Nat.zero_and _
    refine ⟨?_, nodup_singleton 2, fun c => ?_⟩
    · intro l hl
      rw [mem_singleton] at hl
      rw [hl]
      change hugeFAT.cachedLarge.isEOF (value hugeFAT.cachedLarge hugeManager.fat 2) = true
      decide +kernel
    · change c ∈ [2] ↔ _
      rw [mem_singleton]
      constructor
      · intro heq
        rw [heq]
        exact ⟨by decide +kernel, by decide +kernel, by decide +kernel⟩
      · intro halloc
        apply Classical.byContradiction
        intro hne
        exact halloc.2.1 (hvalue c halloc.1 hne)
  · have hreturn : (match Manager.clusterExtend hugeFAT.cachedLarge 2 hugeManager with
        | .ok d _ => some d
        | .error _ _ => none) = some 0x0FFFFFF9 := by decide +kernel
    cases hrun : Manager.clusterExtend hugeFAT.cachedLarge 2 hugeManager with
    | error e m' =>
      rw [hrun] at hreturn
      exact nomatch hreturn
    | ok d m' =>
      rw [hrun] at hreturn
      cases hreturn
      refine ⟨m', rfl, fun cs hcs hmem => ?_⟩
      exact (hcs.chain _ hmem).2.1 (by decide +kernel)

end Garnet.Msdosfs
