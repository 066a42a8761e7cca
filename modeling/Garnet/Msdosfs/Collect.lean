import Garnet.Msdosfs.ClusterRun

/-! `ClusterCollect` on any table: it returns exactly the chains, and stops on the others. -/

namespace Garnet.Msdosfs
open List
open Manager (clusterCollect collectFrom)

/-- The clusters of the chain from `c` on, none of them among those met before. -/
def Listed (b : Bootrecord) (f : FAT) (met : List Nat) (c : Nat) (l : List Nat) : Prop :=
  if (b.isEOF c || isFree c) = true then l = []
  else l.head? = some c ∧ l.Nodup ∧ (∀ d ∈ l, b.clusterInValidRange d = true ∧ d ∉ met) ∧
    Chain (fun e => b.isEOF e = true) (value b f) l

variable {b : Bootrecord} {f : FAT} {met : List Nat} {c fuel : Nat}

theorem eof_not_free (b : Bootrecord) : b.isEOF freeValue = false := by
  unfold Bootrecord.isEOF Bootrecord.eofValue
  cases b.t <;> rfl

theorem valid_not_free (h : b.clusterInValidRange c = true) : c ≠ freeValue := by
  rintro rfl
  exact absurd ((valid_iff _ _).mp h).1 (by decide)

theorem listed_cons (hc : ¬ (b.isEOF c || isFree c) = true)
    (hvalid : b.clusterInValidRange c = true)
    (hmet : ∀ d ∈ met, b.clusterInValidRange d = true ∧ b.isEOF d = false) (hnew : c ∉ met)
    (l : List Nat) :
    Listed b f met c l ↔ ∃ rest, l = c :: rest ∧ isFree (value b f c) = false ∧
      value b f c ∉ c :: met ∧
      Listed b f (c :: met) (value b f c) rest := by
  have hfree := eof_not_free b
  have hnone := @valid_not_free b
  unfold Listed
  rw [if_neg hc]
  constructor
  · rintro ⟨hhead, hnodup, hall, hchain⟩
    cases l with
    | nil => exact nomatch hhead
    | cons d l => cases l <;> grind [Chain, isFree]
  · rintro ⟨rest, rfl, hlink, hloop, hrest⟩
    cases rest <;> grind [Chain, isFree]

theorem collectFrom_exact (hopen : f.closed = false)
    (hmet : ∀ d ∈ met, b.clusterInValidRange d = true ∧ b.isEOF d = false) (hnodup : met.Nodup)
    (hnew : c ∉ met) (hfuel : b.maxCluster < met.length + fuel) :
    (∀ e, collectFrom b f fuel met c = .error e → ∃ msg, e = .error msg) ∧
      ∀ l, collectFrom b f fuel met c = .ok l ↔ Listed b f met c l := by
  induction fuel generalizing met c with
  | zero =>
    have hsub : met ⊆ range' 2 (b.maxCluster - 1) := by
      intro d hd
      have hvalid := (valid_iff _ _).mp (hmet d hd).1
      rw [mem_range'_1]
      omega
    have hle := (subperm_of_subset hnodup hsub).length_le
    rw [length_range'] at hle
    omega
  | succ fuel ih =>
    unfold collectFrom
    split
    · next hstop => simp [Listed, hstop, eq_comm]
    · next hstop =>
      by_cases hvalid : b.clusterInValidRange c = true
      · have hget : f.get b c = .ok (value b f c) := by simp only [FAT.get, hopen, hvalid]; rfl
        simp only [hget, listed_cons hstop hvalid hmet hnew, bind, Except.bind, pure, Except.pure]
        split
        · grind
        · split
          · grind
          · next hfree hloop =>
            have hend : b.isEOF c = false := by grind
            have hmet' : ∀ d ∈ c :: met, b.clusterInValidRange d = true ∧ b.isEOF d = false := by grind
            obtain ⟨hstops, hexact⟩ :=
              ih hmet' (nodup_cons.mpr ⟨hnew, hnodup⟩) hloop (by rw [length_cons]; omega)
            cases hrest : collectFrom b f fuel (c :: met) (value b f c) <;> grind
      · have hget : f.get b c = .error ErrInvalidCluster := by simp [FAT.get, hopen, hvalid]
        simp only [hget, bind, Except.bind, Listed, if_neg hstop]
        refine ⟨fun e he => ⟨_, (Except.error.inj he).symm⟩, fun l => ⟨nofun, fun hl => ?_⟩⟩
        exact absurd (hl.2.2.1 c (mem_of_mem_head? hl.1)).1 hvalid

/-- On any table the loop ends with an error or with a list, which is the chain from `c` on. -/
theorem clusterCollect_exact (b : Bootrecord) (m : Manager) (hmounted : m.unmounted = false)
    (hopen : m.fat.closed = false) (c : Nat) :
    (∀ e, clusterCollect b c m = .error e → ∃ msg, e = .error msg) ∧
      ∀ l, clusterCollect b c m = .ok l ↔ Listed b m.fat [] c l := by
  rw [clusterCollect, hmounted, if_neg Bool.false_ne_true]
  exact collectFrom_exact hopen (forall_mem_nil _) nodup_nil not_mem_nil (by simp)

/-- Cluster 2 points to 3, the last of its chain; 4 and 5 point to each other. -/
def chainManager : Manager :=
  ⟨{ emptyManager.fat with
    device := emptyManager.fat.device.writeAt [3, 0, 0xFF, 0xFF, 5, 0, 4, 0]
      (longFAT.cachedSmall.clusterLocationFATPrimary 2) }, false⟩

theorem chainManager_listed : clusterCollect longFAT.cachedSmall 2 chainManager = .ok [2, 3] ∧
    ∃ msg, clusterCollect longFAT.cachedSmall 4 chainManager = .error (.error msg) := by
  have h := clusterCollect_exact longFAT.cachedSmall chainManager rfl rfl
  have hnext : value longFAT.cachedSmall chainManager.fat 2 = 3 := by decide +kernel
  have hlast : longFAT.cachedSmall.isEOF (value longFAT.cachedSmall chainManager.fat 3) = true := by
    decide +kernel
  have hvalid : ∀ c ∈ [2, 3], longFAT.cachedSmall.clusterInValidRange c = true ∧ c ∉ [] := by
    decide +kernel
  refine ⟨((h 2).2 [2, 3]).mpr ⟨rfl, by decide, hvalid, hnext, by decide +kernel, hlast⟩, ?_⟩
  cases hloop : clusterCollect longFAT.cachedSmall 4 chainManager with
  | error e =>
    obtain ⟨msg, rfl⟩ := (h 4).1 e hloop
    exact ⟨msg, rfl⟩
  | ok l =>
    have hfails : (clusterCollect longFAT.cachedSmall 4 chainManager).toOption = none := by
      decide +kernel
    exact nomatch (congrArg Except.toOption hloop).symm.trans hfails

/-- After any calls, each chain is what `ClusterCollect` returns from its first cluster. -/
theorem collect_reads_chains (v : Volume) (hmark : v.b.maxCluster < v.b.eofValue) (m m' : Manager)
    (hm : m.Ready) (hform : ∃ cs, Chained v.b m.fat cs) (hreach : Reach v.b m m') :
    (∃ cs, Chained v.b m'.fat cs) ∧
      ∀ cs, Chained v.b m'.fat cs → ∀ l ∈ cs, ∀ c, l.head? = some c →
        clusterCollect v.b c m' = .ok l := by
  obtain ⟨hready, hform', -⟩ := reach_kept hm hmark hform hreach
  refine ⟨hform', fun cs hcs l hl c hhead => ?_⟩
  have halloc : ∀ d ∈ l, Allocated v.b m'.fat d :=
    fun d hd => (hcs.members d).mp (mem_flatten.mpr ⟨l, hl, hd⟩)
  have hc := halloc c (mem_of_mem_head? hhead)
  have hnot : ¬ (v.b.isEOF c || isFree c) = true := by
    simp [hc.lt_eof hmark, isFree, valid_not_free hc.1]
  rw [clusterCollect, hready.mounted, if_neg Bool.false_ne_true]
  refine ((collectFrom_exact hready.writable.closed (forall_mem_nil _) nodup_nil not_mem_nil
    (by simp)).2 l).mpr ?_
  rw [Listed, if_neg hnot]
  exact ⟨hhead, (nodup_flatten.mp hcs.nodup).1 l hl, fun d hd => ⟨(halloc d hd).1, not_mem_nil⟩,
    hcs.chain l hl⟩

theorem emptyManager_collected :
    ∃ m' cs, m' = after ((Call.extend 0).exec longFAT.cachedSmall emptyManager) ∧
    Chained longFAT.cachedSmall m'.fat cs ∧
      ∀ l ∈ cs, ∀ c, l.head? = some c → clusterCollect longFAT.cachedSmall c m' = .ok l := by
  obtain ⟨v, hv, hmark⟩ := longFAT_volume
  have hempty := emptyManager_chained v.b
  obtain ⟨⟨cs, hcs⟩, hread⟩ :=
    collect_reads_chains v hmark emptyManager _ ⟨⟨rfl, rfl⟩, rfl⟩ ⟨_, hempty⟩
    (.call (.extend 0) .start hempty (.inl rfl))
  rw [← hv]
  exact ⟨_, cs, rfl, hcs, hread cs hcs⟩

end Garnet.Msdosfs
