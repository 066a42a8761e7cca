import Garnet.Pmd.DynamicIndex

/-! The two maps of the index against what every package has been told to wait for. -/

namespace Garnet.Pmd
open List
open Function (update update_apply update_of_ne update_self)
open Assoc

namespace DynamicIndex

def needers (blob : String) (idx : DynamicIndex) : Finset String := (idx.needs.lookup blob).getD ∅

variable (idx : DynamicIndex) (fault : Option DiskFault) (p : Package) (root b : String)

theorem addLocked_installing :
    (idx.addLocked fault p root).2.installing = idx.installing.erase root := by
  unfold addLocked
  dsimp only
  split_ifs <;> rfl

theorem addLocked_waiting : (idx.addLocked fault p root).2.waiting = idx.waiting.erase root := by
  unfold addLocked
  dsimp only
  split_ifs <;> rfl

theorem addLocked_needs :
    (idx.addLocked fault p root).2.needs =
    mapValues (fun needs : Finset String => needs.erase root) idx.needs := by
  unfold addLocked
  dsimp only
  split_ifs <;> rfl

theorem lookup_addNeed (m : AList fun _ : String => Finset String) (blob : String) :
    (addNeed root m blob).lookup b =
      if b = blob then some (insert root ((m.lookup blob).getD ∅)) else m.lookup b := by
  unfold addNeed
  cases m.lookup blob <;> exact lookup_insert _ _ _ _

theorem lookup_addNeeds (needs : List String) (m : AList fun _ : String => Finset String) :
    (needs.foldl (addNeed root) m).lookup b =
    if b ∈ needs then some (insert root ((m.lookup b).getD ∅)) else m.lookup b := by
  induction needs generalizing m with
  | nil => rfl
  | cons blob needs ih =>
    rw [foldl_cons, ih, lookup_addNeed]
    by_cases hb : b = blob
    · rw [if_pos hb, if_pos (mem_cons.mpr (.inl hb)), hb, Option.getD_some, Finset.insert_idem,
        ite_self]
    · rw [if_neg hb]
      split
      next hmem =>
        rw [if_pos (mem_cons_of_mem _ hmem)]
      next hmem =>
        rw [if_neg fun h => (mem_cons.mp h).elim hb hmem]

end DynamicIndex

/-- Every package waits for `held`, the packages that need a blob are those with it in `wanted`, and
a package that is not being installed waits for nothing. -/
structure Tracked (held wanted : String → Finset String) (idx : DynamicIndex) : Prop where
  waiting : ∀ r, idx.pkgNeedsList r = held r
  needs : ∀ b r, r ∈ idx.needers b ↔ b ∈ wanted r
  nonempty : ∀ b roots, idx.needs.lookup b = some roots → roots ≠ ∅
  idle : ∀ r, idx.isInstalling r = false → held r = ∅

namespace Tracked
variable {held wanted : String → Finset String} {idx : DynamicIndex} {r b : String}

section
variable (h : Tracked held wanted idx)
include h

theorem leave (fault : Option DiskFault) (p : Package) (hheld : held r = ∅)
    (hwanted : wanted r = ∅) : Tracked held wanted (idx.addLocked fault p r).2 := by
  have hnot : ∀ b, r ∉ idx.needers b := by
    intro b hmem
    rw [h.needs, hwanted] at hmem
    exact Finset.notMem_empty _ hmem
  have hlookup : ∀ b, (idx.addLocked fault p r).2.needs.lookup b = idx.needs.lookup b := by
    intro b
    rw [DynamicIndex.addLocked_needs, lookup_mapValues]
    have hb := hnot b
    unfold DynamicIndex.needers at hb
    cases hroots : idx.needs.lookup b with
    | none => rfl
    | some roots =>
      rw [hroots] at hb
      exact congrArg some (Finset.erase_eq_of_notMem hb)
  refine ⟨?_, ?_, ?_, ?_⟩
  · intro e
    unfold DynamicIndex.pkgNeedsList
    rw [DynamicIndex.addLocked_waiting, lookup_erase]
    split
    next he =>
      rw [he, hheld]
      rfl
    next =>
      exact h.waiting e
  · intro b e
    unfold DynamicIndex.needers
    rw [hlookup]
    exact h.needs b e
  · intro b roots
    rw [hlookup]
    exact h.nonempty b roots
  · intro e
    unfold DynamicIndex.isInstalling
    rw [DynamicIndex.addLocked_installing, lookup_erase]
    by_cases he : e = r
    · intro _
      rw [he, hheld]
    · rw [if_neg he]
      exact h.idle e

theorem wait {waiting : AList fun _ : String => Finset String} {blobs : Finset String}
    (hwaiting : ∀ e, (waiting.lookup e).getD ∅ = if e = r then blobs else idx.pkgNeedsList e)
    (hidle : idx.isInstalling r = false → blobs = ∅) :
    Tracked (update held r blobs) wanted { idx with waiting := waiting } := by
  refine ⟨?_, h.needs, h.nonempty, ?_⟩
  · intro e
    change (waiting.lookup e).getD ∅ = _
    rw [hwaiting, update_apply, h.waiting]
  · intro e he
    rw [update_apply]
    split
    next her =>
      exact hidle (her ▸ he)
    next =>
      exact h.idle e he

theorem fulfillOne (fault : String → Option DiskFault) {need : String} (hneed : need ∉ wanted r)
    (hheld : held r = insert need (wanted r)) :
    Tracked (update held r (wanted r)) wanted (idx.fulfillOne fault need r) := by
  have hleft : ((idx.waiting.lookup r).getD ∅).erase need = wanted r := by
    have hwaiting : (idx.waiting.lookup r).getD ∅ = held r := h.waiting r
    rw [hwaiting, hheld, Finset.erase_insert hneed]
  have hbusy : idx.isInstalling r = false → wanted r = ∅ := by
    intro hidle
    have hempty := h.idle r hidle
    rw [hheld] at hempty
    exact absurd hempty (Finset.insert_ne_empty _ _)
  unfold DynamicIndex.fulfillOne
  dsimp only
  rw [hleft]
  by_cases hdone : (wanted r).card = 0
  · have hnone : wanted r = ∅ := Finset.card_eq_zero.mp hdone
    rw [if_pos hdone]
    have hwait :
        Tracked (update held r (wanted r)) wanted { idx with waiting := idx.waiting.erase r } := by
      apply h.wait _ hbusy
      intro e
      rw [lookup_erase, hnone]
      by_cases he : e = r
      · rw [if_pos he, if_pos he]
        rfl
      · rw [if_neg he, if_neg he]
        rfl
    apply hwait.leave _ _ _ hnone
    rw [update_self, hnone]
  · rw [if_neg hdone]
    apply h.wait _ hbusy
    intro e
    rw [lookup_insert]
    by_cases he : e = r
    · rw [if_pos he, if_pos he]
      rfl
    · rw [if_neg he, if_neg he]
      rfl

end

/-- The loop of `Fulfill`: a package of the list waits for the blob until its turn has come. -/
theorem fulfillAll {Q : (String → Finset String) → DynamicIndex → Prop}
    (fault : String → Option DiskFault) {need : String}
    (hstep : ∀ held idx r, held r = insert need (wanted r) → Q held idx →
      Q (update held r (wanted r)) (idx.fulfillOne fault need r)) {todo : List String}
    (hnodup : todo.Nodup)
    (h : Q (fun r => if r ∈ todo then insert need (wanted r) else wanted r) idx) :
    Q wanted (todo.foldl (fun idx r => idx.fulfillOne fault need r) idx) := by
  induction todo generalizing idx with
  | nil => exact h
  | cons r todo ih =>
    obtain ⟨hr, hnodup⟩ := nodup_cons.mp hnodup
    have hone := hstep _ _ r (if_pos mem_cons_self) h
    apply ih hnodup
    have hheld : update (fun e => if e ∈ r :: todo then insert need (wanted e) else wanted e) r
      (wanted r) =
        fun e => if e ∈ todo then insert need (wanted e) else wanted e := by
      funext e
      rw [update_apply]
      split
      next her =>
        rw [her, if_neg hr]
      next her =>
        simp only [mem_cons, her, false_or]
    rw [← hheld]
    exact hone

section Fulfill
variable {need : String} {packageRoots : List String}

variable (h : Tracked wanted wanted idx)
include h

theorem held_eq (horder : packageRoots.toFinset = idx.needers need) :
    (fun r => if r ∈ packageRoots then insert need ((wanted r).erase need)
    else (wanted r).erase need) = wanted := by
  funext r
  have hmem : r ∈ packageRoots ↔ need ∈ wanted r := by rw [← h.needs, ← horder, mem_toFinset]
  by_cases hr : need ∈ wanted r
  · rw [if_pos (hmem.mpr hr), Finset.insert_erase hr]
  · rw [if_neg fun hp => hr (hmem.mp hp), Finset.erase_eq_of_notMem hr]

theorem arrive :
    Tracked wanted (fun r => (wanted r).erase need) { idx with needs := idx.needs.erase need } := by
  refine ⟨h.waiting, ?_, ?_, h.idle⟩
  · intro b r
    unfold DynamicIndex.needers
    rw [lookup_erase, Finset.mem_erase]
    split
    next hb =>
      exact iff_of_false (Finset.notMem_empty _) fun hand => hand.1 hb
    next hb =>
      rw [← h.needs]
      exact ⟨fun hr => ⟨hb, hr⟩, And.right⟩
  · intro b roots
    change (idx.needs.erase need).lookup b = _ → _
    rw [lookup_erase]
    split
    · exact nofun
    · exact h.nonempty b roots

theorem fulfill (fault : String → Option DiskFault) (hnodup : packageRoots.Nodup)
    (horder : packageRoots.toFinset = idx.needers need) :
    Tracked (fun r => (wanted r).erase need) (fun r => (wanted r).erase need)
      (idx.fulfill fault packageRoots need) := by
  refine fulfillAll (Q := fun held idx => Tracked held (fun r => (wanted r).erase need) idx)
    fault ?_ hnodup ?_
  · exact fun held idx r hheld h => h.fulfillOne fault (Finset.notMem_erase _ _) hheld
  · rw [h.held_eq horder]
    exact h.arrive

end Fulfill

theorem addNeeds (h : Tracked wanted wanted idx) {needs : List String}
    (hinstalling : idx.isInstalling r = true) (hmore : wanted r ⊆ needs.toFinset) :
    Tracked (update wanted r needs.toFinset) (update wanted r needs.toFinset)
      (idx.addNeeds r needs).2 := by
  have hfound : (idx.installing.lookup r).isNone = false := Option.isNone_eq_false_iff.mpr hinstalling
  have hrun : (idx.addNeeds r needs).2 =
      { idx with
        needs := needs.foldl (DynamicIndex.addNeed r) idx.needs,
        waiting := idx.waiting.insert r needs.toFinset } := by
    unfold DynamicIndex.addNeeds
    rw [hfound]
    rfl
  rw [hrun]
  refine ⟨?_, ?_, ?_, ?_⟩
  · intro e
    unfold DynamicIndex.pkgNeedsList
    rw [lookup_insert, update_apply]
    by_cases he : e = r
    · rw [if_pos he, if_pos he]
      rfl
    · rw [if_neg he, if_neg he]
      exact h.waiting e
  · intro b e
    unfold DynamicIndex.needers
    rw [DynamicIndex.lookup_addNeeds, update_apply]
    have hold : e ∈ (idx.needs.lookup b).getD ∅ ↔ b ∈ wanted e := h.needs b e
    split
    next hb =>
      rw [Option.getD_some, Finset.mem_insert, hold]
      split
      next he =>
        rw [mem_toFinset]
        exact iff_of_true (.inl he) hb
      next he =>
        exact or_iff_right he
    next hb =>
      rw [hold]
      split
      next he =>
        rw [he, mem_toFinset]
        exact iff_of_false (fun hw => hb (mem_toFinset.mp (hmore hw))) hb
      next =>
        rfl
  · intro b roots
    change (needs.foldl (DynamicIndex.addNeed r) idx.needs).lookup b = _ → _
    rw [DynamicIndex.lookup_addNeeds]
    split
    · rintro ⟨⟩
      exact Finset.insert_ne_empty _ _
    · exact h.nonempty b roots
  · intro e he
    have hne : e ≠ r := by
      intro heq
      rw [heq] at he
      exact Bool.noConfusion (hinstalling.symm.trans he)
    rw [update_of_ne hne]
    exact h.idle e he

theorem withInstalling (h : Tracked held wanted idx) {installing : AList fun _ : String => Package}
    (hidle : ∀ e, (installing.lookup e).isSome = false → idx.isInstalling e = false ∨ held e = ∅) :
    Tracked held wanted { idx with installing := installing } :=
  ⟨h.waiting, h.needs, h.nonempty, fun e he => (hidle e he).elim (h.idle e) id⟩

theorem install (h : Tracked held wanted idx) (p : Package) :
    Tracked held wanted { idx with installing := idx.installing.insert r p } := by
  apply h.withInstalling
  intro e
  rw [lookup_insert]
  split
  · exact nofun
  · exact .inl

theorem fail (h : Tracked held wanted idx) (hheld : held r = ∅) :
    Tracked held wanted { idx with installing := idx.installing.erase r } := by
  apply h.withInstalling
  intro e
  rw [lookup_erase]
  by_cases he : e = r
  · intro _
    exact .inr (he ▸ hheld)
  · rw [if_neg he]
    exact .inl

end Tracked

inductive Call where
  | installing (root : String)
  | updateInstalling (root : String) (p : Package)
  | addNeeds (root : String) (needs : List String)
  | fulfill (need : String) (packageRoots : List String) (fault : String → Option DiskFault)
  | add (p : Package) (root : String) (fault : Option DiskFault)
  | installingFailedForPackage (root : String)

variable (idx : DynamicIndex)

namespace Call

def exec : Call → DynamicIndex
  | .installing root => idx.install root
  | .updateInstalling root p => idx.updateInstalling root p
  | .addNeeds root needs => (idx.addNeeds root needs).2
  | .fulfill need packageRoots fault => idx.fulfill fault packageRoots need
  | .add p root fault => (idx.add fault p root).2
  | .installingFailedForPackage root => idx.installingFailedForPackage root

/-- `Fulfill` goes over the packages that need the blob, in any order. -/
def Ordered : Call → Prop
  | .fulfill need packageRoots _ => packageRoots.Nodup ∧ packageRoots.toFinset = idx.needers need
  | _ => True

/-- What every package has been told to wait for and has not been fulfilled since. -/
def note (wanted : String → Finset String) : Call → String → Finset String
  | .addNeeds root needs =>
    if idx.isInstalling root then update wanted root needs.toFinset else wanted
  | .fulfill need _ _ => fun r => (wanted r).erase need
  | _ => wanted

/-- A package leaves the index only when it waits for nothing, and needs that it is still waiting
for are given again. -/
def Meets : Call → Prop
  | .addNeeds root needs => idx.pkgNeedsList root ⊆ needs.toFinset
  | .add _ root _ => idx.pkgNeedsList root = ∅
  | .installingFailedForPackage root => idx.pkgNeedsList root = ∅
  | _ => True

theorem note_addNeeds (wanted : String → Finset String) (root : String) (needs : List String) :
    note idx wanted (.addNeeds root needs) =
      if idx.isInstalling root then update wanted root needs.toFinset else wanted := rfl

theorem tracked {wanted : String → Finset String} {idx : DynamicIndex} (c : Call)
    (h : Tracked wanted wanted idx) (hordered : c.Ordered idx) (hmeets : c.Meets idx) :
    Tracked (c.note idx wanted) (c.note idx wanted) (c.exec idx) := by
  cases c with
  | installing root => exact h.install _
  | updateInstalling root p => exact h.install p
  | addNeeds root needs =>
    have hmore : wanted root ⊆ needs.toFinset := by
      rw [← h.waiting]
      exact hmeets
    by_cases hinstalling : idx.isInstalling root = true
    · rw [note_addNeeds, if_pos hinstalling]
      exact h.addNeeds hinstalling hmore
    · have hsame : (idx.addNeeds root needs).2 = idx := by
        unfold DynamicIndex.addNeeds
        rw [if_pos (Option.not_isSome_iff_eq_none.mp hinstalling ▸ rfl)]
      rw [note_addNeeds, if_neg hinstalling]
      change Tracked wanted wanted (idx.addNeeds root needs).2
      rw [hsame]
      exact h
  | fulfill need packageRoots fault => exact h.fulfill fault hordered.1 hordered.2
  | add p root fault =>
    have hnone : wanted root = ∅ := (h.waiting root).symm.trans hmeets
    exact h.leave fault p hnone hnone
  | installingFailedForPackage root => exact h.fail ((h.waiting root).symm.trans hmeets)

end Call

/-- The states after sequences of calls on a new index that all meet the condition. -/
inductive Reach (start : DynamicIndex) : List Call → DynamicIndex →
    (String → Finset String) → Prop where
  | start : Reach start [] start fun _ => ∅
  | call {calls : List Call} {idx : DynamicIndex} {wanted : String → Finset String} (c : Call) :
    Reach start calls idx wanted → c.Ordered idx → c.Meets idx →
      Reach start (calls ++ [c]) (c.exec idx) (c.note idx wanted)

def Apart (calls : List Call) (r b : String) : Prop :=
  ∀ needs, (Call.addNeeds r needs ∈ calls → b ∉ needs) ∧ (Call.addNeeds b needs ∈ calls → r ∉ needs)

section
variable {static : StaticIndex} {files : AList fun _ : Package => String} {calls : List Call}
  {idx : DynamicIndex}
  {wanted : String → Finset String}

theorem Reach.tracked (h : Reach (.newDynamic static files) calls idx wanted) :
    Tracked wanted wanted idx := by
  induction h with
  | start =>
    refine ⟨fun _ => rfl, fun b r => iff_of_false (Finset.notMem_empty _) (Finset.notMem_empty _),
      fun b roots hb => ?_, fun _ _ => rfl⟩
    cases hb
  | call c _ hordered hmeets ih => exact c.tracked ih hordered hmeets

theorem Reach.given {start : DynamicIndex} (h : Reach start calls idx wanted) {r b : String}
    (hb : b ∈ wanted r) : ∃ needs, Call.addNeeds r needs ∈ calls ∧ b ∈ needs := by
  induction h with
  | start => exact absurd hb (Finset.notMem_empty _)
  | @call calls idx wanted c _ _ _ ih =>
    have hold : b ∈ wanted r → ∃ needs, Call.addNeeds r needs ∈ calls ++ [c] ∧ b ∈ needs := by
      intro hw
      obtain ⟨needs, hmem, hneeds⟩ := ih hw
      exact ⟨needs, mem_append_left _ hmem, hneeds⟩
    cases c with
    | addNeeds root needs =>
      rw [Call.note_addNeeds] at hb
      by_cases hinstalling : idx.isInstalling root = true
      · rw [if_pos hinstalling, update_apply] at hb
        by_cases hr : r = root
        · rw [if_pos hr, mem_toFinset] at hb
          exact ⟨needs, mem_append_right _ (hr ▸ mem_singleton_self _), hb⟩
        · rw [if_neg hr] at hb
          exact hold hb
      · rw [if_neg hinstalling] at hb
        exact hold hb
    | fulfill need packageRoots fault => exact hold (Finset.mem_of_mem_erase hb)
    | installing root | updateInstalling root p | add p root fault | installingFailedForPackage root =>
      exact hold hb

theorem Tracked.pkgHasNeed {held : String → Finset String} (h : Tracked held wanted idx)
    (r b : String) : idx.pkgHasNeed r b = true ↔ r ∈ wanted b := by
  rw [← h.needs]
  unfold DynamicIndex.pkgHasNeed DynamicIndex.needers
  cases idx.needs.lookup r with
  | none => exact iff_of_false nofun (Finset.notMem_empty _)
  | some roots => exact decide_eq_true_iff

/-- The four queries of the index agree on which blobs are still needed and by whom. -/
theorem needs_consistent (h : Reach (.newDynamic static files) calls idx wanted) :
    (∀ r b, b ∈ idx.pkgNeedsList r ↔ idx.isInstalling r = true ∧ b ∈ wanted r) ∧
      (∀ r b, r = b ∨ Apart calls r b → (idx.pkgHasNeed r b = true ↔ b ∈ idx.pkgNeedsList r)) ∧
        ∀ b, (b ∈ idx.needsList ↔ idx.hasNeed b = true) ∧
          (idx.hasNeed b = true ↔ ∃ r, b ∈ idx.pkgNeedsList r) := by
  have htracked := h.tracked
  refine ⟨?_, ?_, ?_⟩
  · intro r b
    rw [htracked.waiting]
    refine ⟨fun hb => ⟨?_, hb⟩, And.right⟩
    by_contra hnot
    rw [htracked.idle r (Bool.eq_false_of_not_eq_true hnot)] at hb
    exact Finset.notMem_empty _ hb
  · intro r b hpair
    rw [htracked.pkgHasNeed, htracked.waiting]
    cases hpair with
    | inl heq => rw [heq]
    | inr hapart =>
      refine iff_of_false (fun hb => ?_) fun hb => ?_
      · obtain ⟨needs, hmem, hneeds⟩ := h.given hb
        exact (hapart needs).2 hmem hneeds
      · obtain ⟨needs, hmem, hneeds⟩ := h.given hb
        exact (hapart needs).1 hmem hneeds
  · intro b
    have hlist : b ∈ idx.needsList ↔ idx.hasNeed b = true :=
      AList.mem_keys.symm.trans AList.lookup_isSome.symm
    refine ⟨hlist, ?_⟩
    have hneeders : idx.hasNeed b = true ↔ ∃ r, r ∈ idx.needers b := by
      unfold DynamicIndex.hasNeed DynamicIndex.needers
      cases hroots : idx.needs.lookup b with
      | none => exact iff_of_false nofun fun hr => hr.elim fun r hr => Finset.notMem_empty _ hr
      | some roots =>
        exact iff_of_true rfl (Finset.nonempty_iff_ne_empty.mpr (htracked.nonempty b roots hroots))
    rw [hneeders]
    constructor <;> rintro ⟨r, hr⟩ <;> refine ⟨r, ?_⟩
    · rw [htracked.waiting, ← htracked.needs]
      exact hr
    · rw [htracked.needs, ← htracked.waiting]
      exact hr

end

def oneNeed : DynamicIndex :=
  (((DynamicIndex.newDynamic ⟨∅, ∅⟩ ∅).install "root1").addNeeds "root1" ["blob1"]).2

theorem oneNeed_consistent :
    oneNeed.hasNeed "blob1" = true ↔ ∃ r, "blob1" ∈ oneNeed.pkgNeedsList r := by
  have hstart :=
    Reach.call (.installing "root1") (@Reach.start (.newDynamic ⟨∅, ∅⟩ ∅)) trivial trivial
  have hreach := Reach.call (.addNeeds "root1" ["blob1"]) hstart trivial (Finset.empty_subset _)
  exact ((needs_consistent hreach).2.2 "blob1").2

/-- The package waits for the blob, but `PkgHasNeed` does not find it. -/
theorem oneNeed_not_found :
    "blob1" ∈ oneNeed.pkgNeedsList "root1" ∧ oneNeed.pkgHasNeed "root1" "blob1" = false := by
  decide +kernel

-- The defensive clean-up of `Add` leaves a blob that no package needs.
example : (oneNeed.add none ⟨"foo", "1"⟩ "root1").2.hasNeed "blob1" = true ∧
    (oneNeed.add none ⟨"foo", "1"⟩ "root1").2.needers "blob1" = ∅ := by
  decide +kernel

-- A package that has failed still waits.
example : (oneNeed.installingFailedForPackage "root1").isInstalling "root1" = false ∧
    "blob1" ∈ (oneNeed.installingFailedForPackage "root1").pkgNeedsList "root1" := by
  decide +kernel

end Garnet.Pmd
