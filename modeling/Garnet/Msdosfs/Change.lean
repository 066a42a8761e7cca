import Garnet.Msdosfs.Entries

/-! What the calls of the FAT do to its entries. A change says for each cluster which value it gets,
if any; everything else about the table that the calls keep is in the same record. -/

namespace Garnet.Msdosfs
open List

variable (b : Bootrecord)

def FAT.Agree (f : FAT) : Prop :=
  b.mirroringActive = true → ∀ i < b.numFATs, ∀ c, b.clusterInValidRange c = true →
    valueBits b (entry b i c f.device) = value b f c

/-- The table changes by giving the clusters the values of `x`. -/
structure Change (v : Volume) (x : Nat → Option Nat) (f f' : FAT) : Prop where
  closed : f'.closed = f.closed
  readonly : f'.readonly = f.readonly
  value : ∀ c, v.b.clusterInValidRange c = true → value v.b f' c = (x c).getD (value v.b f c)
  top : ∀ i < v.b.numFATs, ∀ c ≤ v.b.maxCluster,
    topBits v.b (entry v.b i c f'.device) = topBits v.b (entry v.b i c f.device)
  kept : ∀ i < v.b.numFATs, ∀ c ≤ v.b.maxCluster, x c = none →
    entry v.b i c f'.device = entry v.b i c f.device
  agree : f.Agree v.b → f'.Agree v.b

def SameData (v : Volume) (f f' : FAT) : Prop := ∀ k, v.dataStart ≤ k → f'.device k = f.device k

theorem SameData.trans {v : Volume} {f f' f'' : FAT} (h : SameData v f f')
    (h' : SameData v f' f'') : SameData v f f'' :=
  fun k hk => (h' k hk).trans (h k hk)

namespace Change
variable {v : Volume} {x y : Nat → Option Nat} {f f' f'' : FAT}

theorem refl (v : Volume) (f : FAT) : Change v (fun _ => none) f f :=
  ⟨rfl, rfl, fun _ _ => rfl, fun _ _ _ _ => rfl, fun _ _ _ _ _ => rfl, id⟩

theorem trans (h : Change v x f f') (h' : Change v y f' f'') :
    Change v (fun c => (y c).or (x c)) f f'' where
  closed := h'.closed.trans h.closed
  readonly := h'.readonly.trans h.readonly
  value c hc := by
    rw [h'.value c hc, h.value c hc]
    cases y c <;> rfl
  top i hi c hc := (h'.top i hi c hc).trans (h.top i hi c hc)
  kept i hi c hc hnone := by
    rw [Option.or_eq_none_iff] at hnone
    exact (h'.kept i hi c hc hnone.1).trans (h.kept i hi c hc hnone.2)
  agree hagree := h'.agree (h.agree hagree)

theorem of_device {d : Device}
    (h : ∀ i < v.b.numFATs, ∀ c ≤ v.b.maxCluster, entry v.b i c d = entry v.b i c f.device) :
    Change v (fun _ => none) f { f with device := d } := by
  have hvalue : ∀ c, v.b.clusterInValidRange c = true →
      Msdosfs.value v.b { f with device := d } c = Msdosfs.value v.b f c := by
    intro c hc
    unfold Msdosfs.value
    rw [← h _ v.primary c ((Sector.Cached.valid_iff _ _).mp hc).2]
  refine ⟨rfl, rfl, hvalue,
    fun i hi c hc => by rw [← h i hi c hc], fun i hi c hc _ => h i hi c hc, ?_⟩
  intro hagree hmirror i hi c hc
  rw [hvalue c hc, ← hagree hmirror i hi c hc, ← h i hi c ((Sector.Cached.valid_iff _ _).mp hc).2]

end Change

section Set
variable {v : Volume} {x c i e : Nat} {d : Device} {j k : Nat} {l : List Nat} {f : FAT}

theorem valid_iff (c : Nat) : b.clusterInValidRange c = true ↔ 2 ≤ c ∧ c ≤ b.maxCluster :=
  Sector.Cached.valid_iff b c

def mirrorStep (x c : Nat) (d : Device) (i : Nat) : Device :=
  if i = b.primaryFAT then d
  else match setValueAt b x (b.clusterLocationFAT i c) d with
    | .ok (_, d) => d
    | .error _ => d

def Mirrored (c : Nat) (d : Device) (i : Nat) : Prop :=
  i ≠ b.primaryFAT ∧ valueBits b (entry b i c d) ≠ b.badValue

instance (c : Nat) (d : Device) (i : Nat) : Decidable (Mirrored b c d i) := inferInstanceAs (Decidable (_ ∧ _))

theorem setValueAt_bad (hbad : valueBits v.b (entry v.b i c d) = v.b.badValue) :
    setValueAt v.b x (v.b.clusterLocationFAT i c) d = .error ErrInvalidCluster :=
  if_pos (decide_eq_true hbad)

theorem setValueAt_good (hgood : valueBits v.b (entry v.b i c d) ≠ v.b.badValue) :
    ∃ status, setValueAt v.b x (v.b.clusterLocationFAT i c) d =
      .ok (status, setRawEntry v.b (mergeEntry v.b (entry v.b i c d) x)
        (v.b.clusterLocationFAT i c) d) :=
  ⟨_, if_neg fun hbad => hgood (of_decide_eq_true hbad)⟩

theorem mirrorStep_eq : mirrorStep v.b x c d i =
    if Mirrored v.b c d i then
      setRawEntry v.b (mergeEntry v.b (entry v.b i c d) x) (v.b.clusterLocationFAT i c) d else d := by
  unfold mirrorStep
  split
  next hi =>
    rw [if_neg (fun h : Mirrored v.b c d i => h.1 hi)]
  next hi =>
    by_cases hbad : valueBits v.b (entry v.b i c d) = v.b.badValue
    · rw [setValueAt_bad hbad, if_neg (fun h : Mirrored v.b c d i => h.2 hbad)]
    · obtain ⟨status, heq⟩ := setValueAt_good (x := x) hbad
      have hm : Mirrored v.b c d i := ⟨hi, hbad⟩
      rw [heq, if_pos hm]

section
variable (hc : v.b.clusterInValidRange c = true)
include hc

theorem mirrorStep_entry (hi : i < v.b.numFATs) (hj : j < v.b.numFATs) (he : e ≤ v.b.maxCluster) :
    entry v.b j e (mirrorStep v.b x c d i) =
      if i = j ∧ c = e ∧ Mirrored v.b c d i then mergeEntry v.b (entry v.b j e d) x
        else entry v.b j e d := by
  obtain ⟨htwo, hmax⟩ := (valid_iff _ _).mp hc
  rw [mirrorStep_eq]
  split
  next hm =>
    rw [v.entry_setRaw (by omega) hi hj hmax he (mergeEntry_lt _ _ _ (entry_lt _ _ _ _))]
    by_cases heq : i = j ∧ c = e
    · obtain ⟨rfl, rfl⟩ := heq
      rw [if_pos ⟨rfl, rfl⟩, if_pos ⟨rfl, rfl, hm⟩]
    · rw [if_neg heq, if_neg (fun h => heq ⟨h.1, h.2.1⟩)]
  next hm =>
    rw [if_neg (fun h => hm h.2.2)]

theorem mirrorFold_entry (hl : ∀ i ∈ l, i < v.b.numFATs) (hnodup : l.Nodup) (hj : j < v.b.numFATs)
    (he : e ≤ v.b.maxCluster) :
    entry v.b j e (l.foldl (mirrorStep v.b x c) d) =
      if j ∈ l ∧ c = e ∧ Mirrored v.b c d j then mergeEntry v.b (entry v.b j e d) x
        else entry v.b j e d := by
  induction l generalizing d with
  | nil => rw [if_neg (fun h => nomatch h.1)]; rfl
  | cons i l ih =>
    obtain ⟨hnotin, hnodup⟩ := nodup_cons.mp hnodup
    have hi := hl i mem_cons_self
    have hmax := ((valid_iff _ _).mp hc).2
    rw [foldl_cons, ih (fun k hk => hl k (mem_cons_of_mem _ hk)) hnodup]
    by_cases hij : i = j
    · subst hij
      rw [if_neg (fun h => hnotin h.1), mirrorStep_entry hc hi hj he]
      by_cases hm : c = e ∧ Mirrored v.b c d i
      · rw [if_pos ⟨rfl, hm⟩, if_pos ⟨mem_cons_self, hm⟩]
      · rw [if_neg (fun h => hm h.2), if_neg (fun h => hm h.2)]
    · -- the turn for another FAT leaves the entry and what is known of it
      have hother : ∀ e ≤ v.b.maxCluster, entry v.b j e (mirrorStep v.b x c d i) =
          entry v.b j e d := by
        intro e he
        rw [mirrorStep_entry hc hi hj he, if_neg (fun h => hij h.1)]
      have hsame : Mirrored v.b c (mirrorStep v.b x c d i) j ↔ Mirrored v.b c d j := by
        unfold Mirrored
        rw [hother c hmax]
      have hmem : j ∈ i :: l ↔ j ∈ l := by
        rw [mem_cons]
        exact ⟨fun h => h.resolve_left fun heq => hij heq.symm, .inr⟩
      rw [hother e he]
      simp only [hsame, hmem]

theorem mirrorFold_data (hl : ∀ i ∈ l, i < v.b.numFATs) (hk : v.dataStart ≤ k) :
    l.foldl (mirrorStep v.b x c) d k = d k := by
  obtain ⟨htwo, hmax⟩ := (valid_iff _ _).mp hc
  induction l generalizing d with
  | nil => rfl
  | cons i l ih =>
    rw [foldl_cons, ih fun k hk => hl k (mem_cons_of_mem _ hk), mirrorStep_eq]
    split
    · rw [v.data_setRaw (by omega) (hl i mem_cons_self) hmax hk]
    · rfl

/-- The device after the entry was written, in the FAT that is read and then in the others. -/
def written (x c : Nat) (d : Device) : Device :=
  let d :=
    setRawEntry b (mergeEntry b (entry b b.primaryFAT c d) x)
      (b.clusterLocationFAT b.primaryFAT c) d
  if b.mirroringActive then (List.range b.numFATs).foldl (mirrorStep b x c) d else d

def Written (c : Nat) (d : Device) (i : Nat) : Prop :=
  i = b.primaryFAT ∨ b.mirroringActive = true ∧ Mirrored b c d i

instance (c : Nat) (d : Device) (i : Nat) : Decidable (Written b c d i) := inferInstanceAs (Decidable (_ ∨ _))

theorem written_entry (hj : j < v.b.numFATs) (he : e ≤ v.b.maxCluster) :
    entry v.b j e (written v.b x c d) =
      if c = e ∧ Written v.b c d j then mergeEntry v.b (entry v.b j e d) x
        else entry v.b j e d := by
  obtain ⟨htwo, hmax⟩ := (valid_iff _ _).mp hc
  unfold written
  dsimp only
  set d' := setRawEntry v.b (mergeEntry v.b (entry v.b v.b.primaryFAT c d) x)
    (v.b.clusterLocationFAT v.b.primaryFAT c) d with hd'
  have hprimary : ∀ e ≤ v.b.maxCluster, entry v.b j e d' =
      if v.b.primaryFAT = j ∧ c = e then mergeEntry v.b (entry v.b j e d) x else entry v.b j e d := by
    intro e he
    rw [hd', v.entry_setRaw (by omega) v.primary hj hmax he (mergeEntry_lt _ _ _ (entry_lt _ _ _ _))]
    by_cases heq : v.b.primaryFAT = j ∧ c = e
    · rw [if_pos heq, if_pos heq, heq.1, heq.2]
    · rw [if_neg heq, if_neg heq]
  have hold : v.b.primaryFAT ≠ j → ∀ e ≤ v.b.maxCluster, entry v.b j e d' = entry v.b j e d := by
    intro hne e he
    rw [hprimary e he, if_neg fun h => hne h.1]
  cases hmirror : v.b.mirroringActive with
  | false =>
    have hiff : v.b.primaryFAT = j ∧ c = e ↔ c = e ∧ Written v.b c d j := by
      unfold Written
      rw [hmirror]
      constructor
      · exact fun h => ⟨h.2, .inl h.1.symm⟩
      · exact fun h => ⟨(h.2.resolve_right fun h => nomatch h.1).symm, h.1⟩
    rw [if_neg nofun, hprimary e he]
    simp only [hiff]
  | true =>
    rw [if_pos rfl, mirrorFold_entry hc (fun i hi => mem_range.mp hi) nodup_range hj he]
    by_cases hj' : v.b.primaryFAT = j
    · have hiff : c = e ∧ Written v.b c d j ↔ v.b.primaryFAT = j ∧ c = e :=
        ⟨fun h => ⟨hj', h.1⟩, fun h => ⟨h.2, .inl hj'.symm⟩⟩
      rw [if_neg (fun h => h.2.2.1 hj'.symm), hprimary e he]
      simp only [hiff]
    · have hiff : c = e ∧ Written v.b c d j ↔ j ∈ List.range v.b.numFATs ∧ c = e ∧
          Mirrored v.b c d j := by
        unfold Written
        rw [hmirror, mem_range]
        constructor
        · exact fun h => ⟨hj, h.1, (h.2.resolve_left fun heq => hj' heq.symm).2⟩
        · exact fun h => ⟨h.2.1, .inr ⟨rfl, h.2.2⟩⟩
      have hsame : Mirrored v.b c d' j ↔ Mirrored v.b c d j := by
        unfold Mirrored
        rw [hold hj' c hmax]
      rw [hold hj' e he]
      simp only [hiff, hsame]

theorem written_data (hk : v.dataStart ≤ k) : written v.b x c d k = d k := by
  obtain ⟨htwo, hmax⟩ := (valid_iff _ _).mp hc
  unfold written
  cases v.b.mirroringActive with
  | false => exact v.data_setRaw (by omega) v.primary hmax hk
  | true =>
    exact (mirrorFold_data hc (fun i hi => mem_range.mp hi) hk).trans
      (v.data_setRaw (by omega) v.primary hmax hk)

def only (c x : Nat) : Nat → Option Nat := fun e => if c = e then some x else none

theorem change_written {f' : FAT} (hmask : x ≤ v.b.clusterMask)
    (hgood : value v.b f c ≠ v.b.badValue) (hclosed : f'.closed = f.closed)
    (hreadonly : f'.readonly = f.readonly) (hdevice : f'.device = written v.b x c f.device) :
    Change v (only c x) f f' where
  closed := hclosed
  readonly := hreadonly
  value e he := by
    unfold value
    rw [hdevice, written_entry hc v.primary ((valid_iff _ _).mp he).2]
    unfold only
    by_cases heq : c = e
    · rw [if_pos heq, if_pos ⟨heq, .inl rfl⟩, valueBits_merge, and_mask _ hmask]
      rfl
    · rw [if_neg heq, if_neg fun h => heq h.1]
      rfl
  top i hi e he := by
    rw [hdevice, written_entry hc hi he]
    split
    · exact topBits_merge _ _ _
    · rfl
  kept i hi e he hnone := by
    have hne : c ≠ e := by
      intro heq
      unfold only at hnone
      rw [if_pos heq] at hnone
      exact nomatch hnone
    rw [hdevice, written_entry hc hi he, if_neg fun h => hne h.1]
  agree hagree hmirror i hi e he := by
    have hle := ((valid_iff _ _).mp he).2
    unfold value
    rw [hdevice, written_entry hc hi hle, written_entry hc v.primary hle]
    by_cases heq : c = e
    · have hwritten : Written v.b c f.device i := by
        by_cases hprimary : i = v.b.primaryFAT
        · exact .inl hprimary
        · refine .inr ⟨hmirror, hprimary, ?_⟩
          rw [hagree hmirror i hi c hc]
          exact hgood
      rw [if_pos ⟨heq, hwritten⟩, if_pos ⟨heq, .inl rfl⟩, valueBits_merge, valueBits_merge]
    · rw [if_neg fun h => heq h.1, if_neg fun h => heq h.1]
      exact hagree hmirror i hi e he

end

theorem set_change (hclosed : f.closed = false) (hwritable : f.readonly = false)
    (hc : v.b.clusterInValidRange c = true) (hx : x ≠ c) (hmask : x ≤ v.b.clusterMask)
    (hgood : value v.b f c ≠ v.b.badValue) :
    ∃ f', FAT.set v.b x c f = .ok () f' ∧ Change v (only c x) f f' ∧ SameData v f f' := by
  obtain ⟨status, hset⟩ := setValueAt_good (x := x) hgood
  have hrun : ∃ count, FAT.set v.b x c f =
      .ok () { f with device := written v.b x c f.device, freeCount := count } := by
    unfold FAT.set Bootrecord.clusterLocationFATPrimary
    rw [hclosed, hwritable, hc, hset]
    dsimp only
    rw [if_neg nofun, if_neg nofun, if_neg (by decide), if_neg hx]
    exact ⟨_, rfl⟩
  obtain ⟨count, hrun⟩ := hrun
  exact ⟨_, hrun, change_written hc hmask hgood rfl rfl rfl, fun k hk => written_data hc hk⟩

theorem set_bad (hclosed : f.closed = false) (hwritable : f.readonly = false)
    (hbad : value v.b f c = v.b.badValue) : ∃ e, FAT.set v.b x c f = .error e f := by
  unfold FAT.set Bootrecord.clusterLocationFATPrimary
  rw [hclosed, hwritable, setValueAt_bad hbad, if_neg nofun, if_neg nofun]
  dsimp only
  split
  · exact ⟨_, rfl⟩
  · split
    · exact ⟨_, rfl⟩
    · exact ⟨_, rfl⟩

theorem get_ok (hclosed : f.closed = false) (hc : v.b.clusterInValidRange c = true) :
    f.get v.b c = .ok (value v.b f c) := by
  unfold FAT.get
  rw [hclosed, hc, if_neg nofun, if_neg (by decide)]
  rfl

end Set

end Garnet.Msdosfs
