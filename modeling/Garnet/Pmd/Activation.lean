import Garnet.Pmd.Needs

/-! When an installed package becomes visible, and what the garbage collector sees of it before. -/

namespace Garnet.Pmd
open List
open Function (update update_of_ne update_self)
open Assoc

/-- The calls that an installation has made. -/
inductive Stage where
  | absent | announced | named | needing
  deriving DecidableEq

/-- Installations of different packages, none of which is in the static index. -/
structure Plan (static : StaticIndex) where
  roots : Set String
  ident : String → Package
  needs : String → List String
  nonempty : ∀ r ∈ roots, needs r ≠ []
  distinct : Set.InjOn ident roots
  outside : ∀ r ∈ roots, static.get (ident r) = none ∧ static.getRoot r = none

/-- The index, with what every installation has done and the blobs that it still lacks. -/
structure Moment where
  idx : DynamicIndex
  stage : String → Stage
  missing : String → Finset String

def Moment.Complete (s : Moment) (r : String) : Prop := s.stage r = .needing ∧ s.missing r = ∅

namespace Plan
variable {static : StaticIndex} (P : Plan static)

inductive Step : Moment → Moment → Prop where
  | installing {s : Moment} {r : String} : r ∈ P.roots → s.stage r = .absent →
    Step s ⟨(Call.installing r).exec s.idx, update s.stage r .announced, s.missing⟩
  | updateInstalling {s : Moment} {r : String} : s.stage r = .announced →
    Step s ⟨(Call.updateInstalling r (P.ident r)).exec s.idx, update s.stage r .named, s.missing⟩
  | addNeeds {s : Moment} {r : String} : s.stage r = .named →
    Step s ⟨(Call.addNeeds r (P.needs r)).exec s.idx, update s.stage r .needing,
      update s.missing r (P.needs r).toFinset⟩
  | fulfill {s : Moment} (need : String) (packageRoots : List String) : packageRoots.Nodup →
    packageRoots.toFinset = s.idx.needers need →
    Step s ⟨(Call.fulfill need packageRoots fun _ => none).exec s.idx, s.stage,
      fun r => (s.missing r).erase need⟩

def start (static : StaticIndex) (files : AList fun _ : Package => String) : Moment :=
  ⟨.newDynamic static files, fun _ => .absent, fun _ => ∅⟩

/-- The entry of `installing`. -/
def entry (stage : String → Stage) (held : String → Finset String) (r : String) : Option Package :=
  match stage r with
  | .absent => none
  | .announced => some ⟨"", ""⟩
  | .named => some (P.ident r)
  | .needing => if held r = ∅ then none else some (P.ident r)

structure Inv (files : AList fun _ : Package => String) (stage : String → Stage)
    (held wanted : String → Finset String)
    (idx : DynamicIndex) : Prop where
  tracked : Tracked held wanted idx
  static : idx.static = static
  known : ∀ r, stage r ≠ .absent → r ∈ P.roots
  early : ∀ r, stage r ≠ .needing → held r = ∅
  installing : ∀ r, idx.installing.lookup r = P.entry stage held r
  files : ∀ r ∈ P.roots, idx.get (P.ident r) =
    if stage r = .needing ∧ held r = ∅ then some r else files.lookup (P.ident r)

end Plan

theorem DynamicIndex.addLocked_new {idx : DynamicIndex} {p : Package} {root : String}
    (hroot : idx.static.getRoot root = none) (hp : idx.static.get p = none) :
    (idx.addLocked none p root).2.static = idx.static ∧
      ∀ q, (idx.addLocked none p root).2.get q = if q = p then some root else idx.get q := by
  unfold addLocked get
  dsimp only
  rw [hroot, hp]
  simp only [Option.isSome_none, Bool.false_eq_true, if_false, reduceCtorEq, ne_eq,
    not_false_eq_true, true_and]
  split
  next hfile =>
    refine ⟨rfl, fun q => ?_⟩
    split
    next hq =>
      rw [hq, hfile]
    next =>
      rfl
  next => exact ⟨rfl, fun q => lookup_insert _ _ _ _⟩

namespace Plan
variable {static : StaticIndex} {P : Plan static} {files : AList fun _ : Package => String}
  {stage : String → Stage}
variable {held wanted : String → Finset String} {idx : DynamicIndex} {r need : String} {s s' : Moment}

theorem entry_of_ne {stage' : String → Stage} {held' : String → Finset String} {e : String}
    (hstage : stage' e = stage e) (hheld : held' e = ∅ ↔ held e = ∅) :
    P.entry stage' held' e = P.entry stage held e := by
  simp only [entry, hstage, hheld]

namespace Inv

theorem needing (I : P.Inv files stage held wanted idx) (hr : held r ≠ ∅) : stage r = .needing := by
  by_contra hstage
  exact hr (I.early r hstage)

theorem fulfillOne (I : P.Inv files stage held wanted idx) (hneed : need ∉ wanted r)
    (hheld : held r = insert need (wanted r)) :
    P.Inv files stage (update held r (wanted r)) wanted (idx.fulfillOne (fun _ => none) need r) := by
  have hne : held r ≠ ∅ := hheld ▸ Finset.insert_ne_empty _ _
  have hstage := I.needing hne
  have hmem : r ∈ P.roots := I.known r (hstage ▸ nofun)
  have htracked := I.tracked.fulfillOne (fun _ => none) hneed hheld
  have hleft : ((idx.waiting.lookup r).getD ∅).erase need = wanted r := by
    have hwaiting : (idx.waiting.lookup r).getD ∅ = held r := I.tracked.waiting r
    rw [hwaiting, hheld, Finset.erase_insert hneed]
  have hearly : ∀ e, stage e ≠ .needing → update held r (wanted r) e = ∅ := by
    intro e he
    have her : e ≠ r := fun heq => he (heq ▸ hstage)
    rw [update_of_ne her]
    exact I.early e he
  unfold DynamicIndex.fulfillOne at htracked ⊢
  dsimp only at htracked ⊢
  rw [hleft] at htracked ⊢
  by_cases hdone : (wanted r).card = 0
  · -- the last blob: the package leaves `installing` and its file is written
    have hnone : wanted r = ∅ := Finset.card_eq_zero.mp hdone
    have hlookup : idx.installing.lookup r = some (P.ident r) := by
      rw [I.installing, entry, hstage]
      exact if_neg hne
    obtain ⟨hget, hroot⟩ := P.outside r hmem
    have hnew := @DynamicIndex.addLocked_new { idx with waiting := idx.waiting.erase r } _ _
      ((congrArg (StaticIndex.getRoot r) I.static).trans hroot)
      ((congrArg (StaticIndex.get (P.ident r)) I.static).trans hget)
    rw [if_pos hdone] at htracked ⊢
    rw [hlookup] at htracked ⊢
    refine ⟨htracked, hnew.1.trans I.static, I.known, hearly, fun e => ?_, fun e he => ?_⟩
    · rw [DynamicIndex.addLocked_installing, lookup_erase]
      split
      next her =>
        rw [her, entry, hstage, update_self]
        exact (if_pos hnone).symm
      next her =>
        rw [I.installing, entry_of_ne rfl]
        rw [update_of_ne her]
    · rw [Option.getD_some, hnew.2]
      by_cases her : e = r
      · rw [her, if_pos rfl, if_pos ⟨hstage, (update_self ..).trans hnone⟩]
      · rw [if_neg fun heq => her (P.distinct he hmem heq), update_of_ne her]
        exact I.files e he
  · have hsame : ∀ e, update held r (wanted r) e = ∅ ↔ held e = ∅ := by
      intro e
      by_cases her : e = r
      · rw [her, update_self]
        exact iff_of_false (fun h => hdone (Finset.card_eq_zero.mpr h)) hne
      · rw [update_of_ne her]
    rw [if_neg hdone] at htracked ⊢
    refine ⟨htracked, I.static, I.known, hearly, fun e => ?_, fun e he => ?_⟩
    · rw [entry_of_ne rfl (hsame e)]
      exact I.installing e
    · simp only [hsame]
      exact I.files e he

variable (I : P.Inv files stage wanted wanted idx)
include I

theorem fulfill {packageRoots : List String} (hnodup : packageRoots.Nodup)
    (horder : packageRoots.toFinset = idx.needers need) :
    P.Inv files stage (fun r => (wanted r).erase need) (fun r => (wanted r).erase need)
      (idx.fulfill (fun _ => none) packageRoots need) := by
  refine Tracked.fulfillAll (Q := fun held idx => P.Inv files stage held
    (fun r => (wanted r).erase need) idx) _ ?_ hnodup ?_
  · exact fun held idx r hheld h => h.fulfillOne (Finset.notMem_erase _ _) hheld
  · rw [I.tracked.held_eq horder]
    exact ⟨I.tracked.arrive, I.static, I.known, I.early, I.installing, I.files⟩

/-- An installation takes its next call, which writes its entry of `installing`. -/
theorem enter (hr : r ∈ P.roots) (hstage : stage r ≠ .needing) {next : Stage}
    {p : Package} (hnext : next = .announced ∧ p = ⟨"", ""⟩ ∨ next = .named ∧ p = P.ident r) :
    P.Inv files (update stage r next) wanted wanted
      { idx with installing := idx.installing.insert r p } := by
  have hnot : next ≠ .needing := by
    rcases hnext with ⟨rfl, -⟩ | ⟨rfl, -⟩ <;> nofun
  refine ⟨I.tracked.install p, I.static, fun e he => ?_, fun e he => ?_, fun e => ?_,
    fun e he => ?_⟩ <;>
    by_cases her : e = r
  · exact her ▸ hr
  · rw [update_of_ne her] at he
    exact I.known e he
  · exact her ▸ I.early r hstage
  · rw [update_of_ne her] at he
    exact I.early e he
  · rw [lookup_insert, if_pos her, entry, her, update_self]
    rcases hnext with ⟨rfl, rfl⟩ | ⟨rfl, rfl⟩ <;> rfl
  · rw [lookup_insert, if_neg her, I.installing]
    exact (entry_of_ne (update_of_ne her ..) Iff.rfl).symm
  · rw [her, update_self, if_neg fun h => hnot h.1]
    exact (I.files r hr).trans (if_neg fun h => hstage h.1)
  · rw [update_of_ne her]
    exact I.files e he

theorem addNeeds (hstage : stage r = .named) :
    P.Inv files (update stage r .needing) (update wanted r (P.needs r).toFinset)
      (update wanted r (P.needs r).toFinset) (idx.addNeeds r (P.needs r)).2 := by
  have hr : r ∈ P.roots := I.known r (hstage ▸ nofun)
  have hempty : wanted r = ∅ := I.early r (hstage ▸ nofun)
  have hlookup : idx.installing.lookup r = some (P.ident r) := by rw [I.installing, entry, hstage]
  have hneeds : (P.needs r).toFinset ≠ ∅ := fun h => P.nonempty r hr (toFinset_eq_empty_iff _ |>.mp h)
  have hinstalling : idx.isInstalling r = true := by
    rw [DynamicIndex.isInstalling, hlookup]
    rfl
  have htracked : Tracked _ _ (idx.addNeeds r (P.needs r)).2 :=
    I.tracked.addNeeds hinstalling (hempty ▸ Finset.empty_subset _)
  unfold DynamicIndex.addNeeds at htracked ⊢
  simp only [hlookup, Option.isNone_some, Bool.false_eq_true, if_false] at htracked ⊢
  refine ⟨htracked, I.static, fun e he => ?_, fun e he => ?_, fun e => ?_,
    fun e he => ?_⟩ <;> by_cases her : e = r
  · exact her ▸ hr
  · rw [update_of_ne her] at he
    exact I.known e he
  · rw [her, update_self] at he
    exact absurd rfl he
  · rw [update_of_ne her] at he ⊢
    exact I.early e he
  · rw [her, entry, update_self, update_self]
    exact hlookup.trans (if_neg hneeds).symm
  · rw [entry_of_ne (update_of_ne her ..) (by rw [update_of_ne her])]
    exact I.installing e
  · rw [her, update_self, update_self, if_neg fun h => hneeds h.2]
    exact (I.files r hr).trans (if_neg fun h => Stage.noConfusion (hstage.symm.trans h.1))
  · rw [update_of_ne her, update_of_ne her]
    exact I.files e he

end Inv

theorem Step.inv (h : P.Step s s') (I : P.Inv files s.stage s.missing s.missing s.idx) :
    P.Inv files s'.stage s'.missing s'.missing s'.idx := by
  cases h with
  | installing hr hstage => exact I.enter hr (hstage ▸ nofun) (.inl ⟨rfl, rfl⟩)
  | @updateInstalling r hstage =>
    exact I.enter (I.known r (hstage ▸ nofun)) (hstage ▸ nofun) (.inr ⟨rfl, rfl⟩)
  | addNeeds hstage => exact I.addNeeds hstage
  | fulfill need packageRoots hnodup horder => exact I.fulfill hnodup horder

theorem Step.stays_complete (h : P.Step s s') (hr : s.Complete r) : s'.Complete r := by
  obtain ⟨hstage, hmissing⟩ := hr
  cases h with
  | @installing e _ he | @updateInstalling e he =>
    have hne : r ≠ e := fun h => Stage.noConfusion (hstage.symm.trans (h ▸ he))
    exact ⟨(update_of_ne hne ..).trans hstage, hmissing⟩
  | @addNeeds e he =>
    have hne : r ≠ e := fun h => Stage.noConfusion (hstage.symm.trans (h ▸ he))
    exact ⟨(update_of_ne hne ..).trans hstage, (update_of_ne hne ..).trans hmissing⟩
  | fulfill need packageRoots _ _ => exact ⟨hstage, hmissing.symm ▸ Finset.erase_empty need⟩

/-- An installation becomes complete with the last blob that it lacks. -/
theorem Step.completes (h : P.Step s s') (I : P.Inv files s.stage s.missing s.missing s.idx)
    (hbefore : ¬ s.Complete r) (hafter : s'.Complete r) :
    ∃ need packageRoots, s.missing r = {need} ∧
      s'.idx = s.idx.fulfill (fun _ => none) packageRoots need := by
  obtain ⟨hstage, hmissing⟩ := hafter
  cases h with
  | @installing e _ he | @updateInstalling e he =>
    by_cases hre : r = e
    · subst hre
      exact Stage.noConfusion ((update_self ..).symm.trans hstage)
    · exact absurd ⟨(update_of_ne hre ..).symm.trans hstage, hmissing⟩ hbefore
  | @addNeeds e he =>
    by_cases hre : r = e
    · subst hre
      have hneeds := (update_self ..).symm.trans hmissing
      exact absurd (toFinset_eq_empty_iff _ |>.mp hneeds) (P.nonempty r (I.known r (he ▸ nofun)))
    · exact absurd ⟨(update_of_ne hre ..).symm.trans hstage, (update_of_ne hre ..).symm.trans hmissing⟩
        hbefore
  | fulfill need packageRoots _ _ =>
    refine ⟨need, packageRoots, ?_, rfl⟩
    exact ((Finset.erase_eq_empty_iff _ _).mp hmissing).resolve_left fun h => hbefore ⟨hstage, h⟩

theorem run_inv (hrun : Relation.ReflTransGen P.Step (start static files) s) :
    P.Inv files s.stage s.missing s.missing s.idx := by
  induction hrun with
  | refl =>
    exact ⟨Reach.start.tracked, rfl, fun r hr => absurd rfl hr, fun _ _ => rfl, fun _ => rfl,
      fun r _ => (if_neg nofun).symm⟩
  | tail _ hstep ih => exact hstep.inv ih

section
variable (I : P.Inv files s.stage s.missing s.missing s.idx)
include I

theorem Inv.get_complete (hr : s.Complete r) : s.idx.get (P.ident r) = some r :=
  (I.files r (I.known r (hr.1 ▸ nofun))).trans (if_pos hr)

theorem Inv.mem_allPackageBlobs (hrun : Relation.ReflTransGen P.Step s s')
    (I' : P.Inv files s'.stage s'.missing s'.missing s'.idx) (hr : s.stage r ≠ .absent)
    (hname : (P.ident r).name ≠ "") : r ∈ s.idx.allPackageBlobs s'.idx := by
  rw [DynamicIndex.allPackageBlobs, mem_dedup, mem_append]
  by_cases hc : s.Complete r
  · -- its file has been written, and it stays
    have hc' : s'.Complete r := by
      clear I'
      induction hrun with
      | refl => exact hc
      | tail _ hstep ih => exact hstep.stays_complete ih
    have hfile := AList.mem_lookup_iff.mp (I'.get_complete hc')
    exact .inr (mem_append_right _ (mem_map.mpr
      ⟨_, mem_filter.mpr ⟨hfile, decide_eq_true hname⟩, rfl⟩))
  · refine .inl (AList.mem_keys.mpr (AList.lookup_isSome.mp ?_))
    rw [I.installing, entry]
    cases hstage : s.stage r with
    | absent => exact absurd hstage hr
    | announced => rfl
    | named => rfl
    | needing =>
      dsimp only
      rw [if_neg fun h => hc ⟨hstage, h⟩]
      rfl

end

/-- A package is found in the index from the `Fulfill` call on that brings the last blob which it
lacks, and not before. From `Installing` on `AllPackageBlobs` has its root, if the package has a
name. -/
theorem activated_with_last_blob {s : Moment}
    (hrun : Relation.ReflTransGen P.Step (start static files) s) :
    (∀ r ∈ P.roots, (s.Complete r → s.idx.get (P.ident r) = some r) ∧
      (¬ s.Complete r → s.idx.get (P.ident r) = files.lookup (P.ident r))) ∧
    (∀ s', P.Step s s' → ∀ r, ¬ s.Complete r → s'.Complete r →
      ∃ need packageRoots, s.missing r = {need} ∧
      s'.idx = s.idx.fulfill (fun _ => none) packageRoots need) ∧
    (∀ r need packageRoots, s.stage r = .needing → s.missing r = {need} → packageRoots.Nodup →
      packageRoots.toFinset = s.idx.needers need →
      (s.idx.fulfill (fun _ => none) packageRoots need).get (P.ident r) = some r) ∧
    ∀ s', Relation.ReflTransGen P.Step s s' → ∀ r, s.stage r ≠ .absent → (P.ident r).name ≠ "" →
      r ∈ s.idx.allPackageBlobs s'.idx := by
  have I := run_inv hrun
  refine ⟨fun r hr => ⟨I.get_complete, fun hc => (I.files r hr).trans (if_neg hc)⟩,
    fun s' hstep r hbefore hafter => hstep.completes I hbefore hafter, ?_, ?_⟩
  · intro r need packageRoots hstage hmissing hnodup horder
    have hstep := Step.fulfill (P := P) need packageRoots hnodup horder
    exact (hstep.inv I).get_complete ⟨hstage, (congrArg (Finset.erase · need) hmissing).trans
      (Finset.erase_singleton need)⟩
  · exact fun s' hlater r hr => I.mem_allPackageBlobs hlater (run_inv (hrun.trans hlater)) hr

def onePackage (name : String) : Plan ⟨∅, ∅⟩ where
  roots := {"root1"}
  ident _ := ⟨name, "1"⟩
  needs _ := ["blob1"]
  nonempty _ _ := nofun
  distinct _ hr _ hr' _ := hr.trans hr'.symm
  outside _ _ := ⟨rfl, rfl⟩

theorem onePackage_run (name : String) :
    ∃ s, Relation.ReflTransGen (onePackage name).Step (start ⟨∅, ∅⟩ ∅) s ∧
    s.Complete "root1" ∧ s.idx.installing.entries = [] ∧
      s.idx.files.entries = [⟨⟨name, "1"⟩, "root1"⟩] ∧
    s.idx.static = ⟨∅, ∅⟩ := by
  have h1 := Step.installing (P := onePackage name) (s := start ⟨∅, ∅⟩ ∅) (r := "root1") rfl rfl
  have hrun := (((Relation.ReflTransGen.single h1).tail (.updateInstalling (r := "root1") rfl)).tail
    (.addNeeds (r := "root1") rfl)).tail (.fulfill "blob1" ["root1"] (nodup_singleton _) rfl)
  exact ⟨_, hrun, ⟨rfl, rfl⟩, rfl, rfl, rfl⟩

theorem onePackage_activated :
    ∃ s, Relation.ReflTransGen (onePackage "foo").Step (start ⟨∅, ∅⟩ ∅) s ∧
    s.idx.get ⟨"foo", "1"⟩ = some "root1" ∧ "root1" ∈ s.idx.allPackageBlobs s.idx := by
  obtain ⟨s, hrun, hcomplete, -⟩ := onePackage_run "foo"
  have h := activated_with_last_blob hrun
  exact ⟨s, hrun, (h.1 "root1" rfl).1 hcomplete, h.2.2.2 s .refl "root1" (hcomplete.1 ▸ nofun) nofun⟩

/-- The package is activated, and the garbage collector does not see it. -/
theorem nameless_package_not_listed :
    ∃ s, Relation.ReflTransGen (onePackage "").Step (start ⟨∅, ∅⟩ ∅) s ∧
    s.Complete "root1" ∧ "root1" ∉ s.idx.allPackageBlobs s.idx := by
  obtain ⟨s, hrun, hcomplete, hinstalling, hfiles, hstatic⟩ := onePackage_run ""
  refine ⟨s, hrun, hcomplete, ?_⟩
  rw [DynamicIndex.allPackageBlobs, DynamicIndex.packageBlobs, AList.keys, hinstalling, hfiles,
    hstatic]
  decide

end Plan

end Garnet.Pmd
