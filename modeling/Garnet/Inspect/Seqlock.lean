import Garnet.Inspect.ReaderEndings
import Garnet.Inspect.SlotBounds

/-! A snapshot while the VMO is written. The header is copied first and compared after the copy, so
a writer that takes the lock during the copy is not noticed. -/

namespace Garnet.Inspect
open List

def Mapping.slice (m : Mapping) : Slice := ⟨m.len, m.byte⟩

def Mapping.Unlocked (m : Mapping) : Prop := pay m.byte 0 % 2 = 0

/-- Where `try_from_with_callback` is: before a read of the header, with `left` tries left; in the
copy of the VMO, with `k` chunks of 16 bytes done; or at its end. -/
inductive Phase where
  | start (left : Nat)
  | copying (left generation k : Nat) (buffer : Nat → UInt8)
  | done (snapshot : Snapshot)

structure Race where
  vmo : Mapping
  reader : Phase

/-- One step of the writer or of the reader. Blocks are written behind the header, under the
lock. -/
inductive Race.Step : Race → Race → Prop
  | lock {s : Race} {m : Mapping} : Block.lockHeader s.vmo 0 = .ok m → Step s { s with vmo := m }
  | write {s : Race} {m : Mapping} : ¬ s.vmo.Unlocked → m.len = s.vmo.len →
      (∀ x < 16, m.byte x = s.vmo.byte x) → Step s { s with vmo := m }
  | unlock {s : Race} {m : Mapping} : Block.unlockHeader s.vmo 0 = .ok m → Step s { s with vmo := m }
  | check {s : Race} {left : Nat} {generation : Option Nat} : s.reader = .start (left + 1) →
      headerGenerationCount (s.vmo.slice.firstBytes 16) = .ok generation →
      Step s { s with reader := match generation with
        | none => .start left
        | some gen => .copying left gen 0 fun _ => 0 }
  | copy {s : Race} {left gen k : Nat} {buffer : Nat → UInt8} : s.reader = .copying left gen k buffer →
      16 * k < s.vmo.len →
      Step s { s with reader := .copying left gen (k + 1) fun x =>
        if 16 * k ≤ x ∧ x < 16 * k + 16 then s.vmo.byte x else buffer x }
  | compare {s : Race} {left gen k : Nat} {buffer : Nat → UInt8} {same : Bool} :
      s.reader = .copying left gen k buffer → s.vmo.len ≤ 16 * k →
      sameGeneration ⟨s.vmo.len, buffer⟩ gen = .ok same →
      Step s { s with reader := if same then .done ⟨⟨s.vmo.len, buffer⟩⟩ else .start left }

def Race.MidCopy (s : Race) : Prop :=
  ∃ left gen k buffer, s.reader = .copying left gen k buffer ∧ 0 < k ∧ 16 * k < s.vmo.len

/-- Nobody takes the lock in the middle of a copy: what is not locked stays as it is. -/
def Race.Quiet (s s' : Race) : Prop := s.MidCopy → s.vmo.Unlocked → s'.vmo = s.vmo

/-- A race whose steps all meet `rule`, with the contents that the VMO has had. -/
inductive Race.Run (rule : Race → Race → Prop) : List Mapping → Race → Prop
  | start (m : Mapping) : Run rule [m] ⟨m, .start Snapshot.tries⟩
  | step {ms : List Mapping} {s s' : Race} : Run rule ms s → rule s s' → s.Step s' →
      Run rule (s'.vmo :: ms) s'

/-- The bytes are those of the VMO at a moment at which it was not locked. -/
def Consistent (ms : List Mapping) (bytes : Slice) : Prop :=
  ∃ m ∈ ms, m.Unlocked ∧ bytes.len = m.len ∧ ∀ x < m.len, bytes.byte x = m.byte x

section Facts
variable {s : Slice} {gen : Nat}

theorem payloadAt_eq (h : 16 ≤ s.len) : payloadAt s 0 = pay s.byte 0 :=
  Except.ok.inj (Block.readPayload_eq (s := s) (i := 0) h)

theorem headerCodes_even (h : headerCodes s = .returns) :
    Payload.headerGenerationCount (payloadAt s 0) % 2 = 0 := by
  unfold headerCodes at h
  split at h
  · cases h
  split at h
  · cases h
  · split at h
    next hvalid => exact hvalid.2.2
    next => cases h
  · cases h

theorem generation_even (h : headerGenerationCount (s.firstBytes 16) = .ok (some gen)) :
    gen % 2 = 0 ∧ 16 ≤ s.len := by
  have hlen : 16 ≤ s.len := by
    by_contra hshort
    have hfirst : (s.firstBytes 16).len < 16 := lt_of_le_of_lt (min_le_right ..) (by omega)
    rw [headerGenerationCount, if_pos hfirst] at h
    cases h
  rw [headerGenerationCount_codes (min_eq_left hlen)] at h
  cases hcodes : headerCodes (s.firstBytes 16) with
  | returns =>
    rw [hcodes] at h
    obtain rfl := Option.some.inj (Except.ok.inj h)
    exact ⟨headerCodes_even hcodes, hlen⟩
  | refuses | crashes =>
    rw [hcodes] at h
    cases h

theorem generation_same (h : sameGeneration s gen = .ok true) (hlen : 16 ≤ s.len) :
    pay s.byte 0 = gen := by
  have hfirst : (s.firstBytes 16).len = 16 := min_eq_left hlen
  rw [sameGeneration, scanSlice_sixteen hfirst, ok_bind] at h
  split at h
  · rw [List.findM?] at h
    cases ht : typeAt (s.firstBytes 16) 0 with
    | none =>
      rw [isHeader, blockType_unknown ht] at h
      cases h
    | some t =>
      by_cases hn : t = .header
      · subst hn
        rw [isHeader_typed ht, Block.headerGenerationCount, payloadField_typed ht,
          payloadAt_firstBytes hlen,
          payloadAt_eq hlen,
          show Payload.headerGenerationCount (pay s.byte 0) = _ from numericValue_pay s.byte 0] at h
        by_contra hne
        have htest : (pay s.byte 0 == gen) = false := beq_eq_false_iff_ne.mpr hne
        simp only [unwrap_ok, ok_bind, htest, except_pure, ite_self] at h
        cases h
      · rw [isHeader_other ht hn] at h
        cases h
  · cases h

end Facts

namespace Race
variable {ms : List Mapping} {s s' : Race} {vmo : Mapping}

/-- A buffer that shows the generation of the first read has been copied from one unlocked VMO,
which is still there until the copy is complete. -/
def Sound (ms : List Mapping) (vmo : Mapping) : Phase → Prop
  | .start _ => True
  | .copying _ gen k buffer => gen % 2 = 0 ∧ 16 ≤ vmo.len ∧ (0 < k → pay buffer 0 = gen →
      ∃ m ∈ ms, m.Unlocked ∧ (∀ x < 16 * k, buffer x = m.byte x) ∧ (16 * k < vmo.len → vmo = m))
  | .done snapshot => Consistent ms snapshot.buffer

theorem Step.len_eq (h : s.Step s') : s'.vmo.len = s.vmo.len := by
  cases h with
  | lock h => exact (lockHeader_confined h).1
  | unlock h => exact (unlockHeader_confined h).1
  | write _ h _ => exact h
  | _ => rfl

theorem Step.sound_write (hv : s'.vmo.len = s.vmo.len) (hr : s'.reader = s.reader) (hq : s.Quiet s')
    (h : Sound ms s.vmo s.reader) : Sound (s'.vmo :: ms) s'.vmo s'.reader := by
  rw [hr]
  cases hreader : s.reader with
  | start left => trivial
  | done snapshot =>
    rw [hreader] at h
    obtain ⟨m, hm, hrest⟩ := h
    exact ⟨m, mem_cons_of_mem _ hm, hrest⟩
  | copying left gen k buffer =>
    rw [hreader] at h
    obtain ⟨heven, hlen, hcopy⟩ := h
    refine ⟨heven, hv ▸ hlen, fun hk hgen => ?_⟩
    obtain ⟨m, hm, hun, hbytes, hnow⟩ := hcopy hk hgen
    refine ⟨m, mem_cons_of_mem _ hm, hun, hbytes, fun hmid => ?_⟩
    rw [hv] at hmid
    have hsame := hnow hmid
    exact (hq ⟨left, gen, k, buffer, hreader, hk, hmid⟩ (hsame ▸ hun)).trans hsame

theorem Step.sound (hs : s.Step s') (hq : s.Quiet s')
    (hlens : ∀ m ∈ ms, m.len = s.vmo.len) (h : Sound ms s.vmo s.reader) :
    Sound (s'.vmo :: ms) s'.vmo s'.reader := by
  have hv := hs.len_eq
  cases hs with
  | lock | write | unlock => exact sound_write hv rfl hq h
  | @check left generation _ hread =>
    cases generation with
    | none => trivial
    | some gen =>
      obtain ⟨heven, hlen⟩ := generation_even hread
      exact ⟨heven, hlen, fun hk => absurd hk (lt_irrefl 0)⟩
  | @copy left gen k buffer hreader hmid =>
    rw [hreader] at h
    obtain ⟨heven, hlen, hcopy⟩ := h
    refine ⟨heven, hlen, fun _ hgen => ?_⟩
    by_cases hk : k = 0
    · -- the header itself: it shows an even count, so the VMO is not locked now
      subst hk
      have hpay : pay s.vmo.byte 0 = gen := by
        rw [← hgen]
        exact word_congr fun x _ hx => (if_pos (by omega)).symm
      have hun : s.vmo.Unlocked := by
        rw [Mapping.Unlocked, hpay]
        exact heven
      exact ⟨s.vmo, mem_cons_self, hun, fun x hx => if_pos (by omega), fun _ => rfl⟩
    · have hpay : pay buffer 0 = gen := by
        rw [← hgen]
        exact word_congr fun x _ hx => (if_neg (by omega)).symm
      obtain ⟨m, hm, hun, hbytes, hsame⟩ := hcopy (Nat.pos_of_ne_zero hk) hpay
      refine ⟨m, mem_cons_of_mem _ hm, hun, fun x hx => ?_, fun _ => hsame hmid⟩
      dsimp only
      split
      · rw [hsame hmid]
      · exact hbytes x (by omega)
  | @compare left gen k buffer same hreader hall hcmp =>
    rw [hreader] at h
    obtain ⟨heven, hlen, hcopy⟩ := h
    cases same with
    | false => trivial
    | true =>
      obtain ⟨m, hm, hun, hbytes, -⟩ := hcopy (by omega) (generation_same hcmp hlen)
      have hmlen := hlens m hm
      exact ⟨m, mem_cons_of_mem _ hm, hun, hmlen.symm, fun x hx => hbytes x (by omega)⟩

theorem Run.sound (hr : Run Quiet ms s) :
    (∀ m ∈ ms, m.len = s.vmo.len) ∧ Sound ms s.vmo s.reader := by
  induction hr with
  | start m => exact ⟨by simp, trivial⟩
  | step _ hq hs ih =>
    obtain ⟨hlens, h⟩ := ih
    refine ⟨forall_mem_cons.mpr ⟨rfl, ?_⟩, hs.sound hq hlens h⟩
    exact fun m hm => (hlens m hm).trans hs.len_eq.symm

/-- A snapshot taken while nobody takes the lock in the middle of the copy is the VMO at one
moment. -/
theorem quiet_snapshot_consistent {snapshot : Snapshot} (hr : Run Quiet ms s)
    (hd : s.reader = .done snapshot) : Consistent ms snapshot.buffer := by
  have h := hr.sound.2
  rwa [hd] at h

section Runs
variable {rule : Race → Race → Prop} {left gen : Nat} {buffer : Nat → UInt8}

section
variable (hrule : ∀ s s' : Race, s'.vmo = s.vmo → rule s s')
include hrule

/-- A reader that is alone copies the rest of the VMO. -/
theorem Run.copies (k j : Nat) (hr : Run rule ms ⟨vmo, .copying left gen k buffer⟩)
    (hlen : vmo.len = 16 * (k + j)) :
    ∃ ms', Run rule ms' ⟨vmo, .copying left gen (k + j) fun x =>
        if 16 * k ≤ x ∧ x < 16 * (k + j) then vmo.byte x else buffer x⟩ ∧
          ∀ m ∈ ms', m ∈ vmo :: ms := by
  induction j generalizing k ms buffer with
  | zero =>
    refine ⟨ms, ?_, fun m => mem_cons_of_mem _⟩
    have hsame : (fun x => if 16 * k ≤ x ∧ x < 16 * (k + 0) then vmo.byte x else buffer x) = buffer :=
      funext fun x => if_neg (by omega)
    rw [hsame]
    exact hr
  | succ j ih =>
    have hcopy :=
      Step.copy (s := ⟨vmo, .copying left gen k buffer⟩) rfl (show 16 * k < vmo.len by omega)
    have hstep := Run.step hr (hrule _ _ (by rfl)) hcopy
    obtain ⟨ms', hr', hms⟩ := ih (k + 1) hstep (by omega)
    refine ⟨ms', ?_, fun m hm => by simpa using hms m hm⟩
    rw [show k + 1 + j = k + (j + 1) by omega] at hr'
    convert hr' using 4
    next x =>
    by_cases h1 : 16 * (k + 1) ≤ x ∧ x < 16 * (k + (j + 1))
    · rw [if_pos h1, if_pos (by omega)]
    · rw [if_neg h1]
      exact if_congr (by omega) rfl rfl

theorem Run.finish {k : Nat} (hr : Run rule ms ⟨vmo, .copying left gen k buffer⟩)
    (hlen : vmo.len ≤ 16 * k) (hsame : sameGeneration ⟨vmo.len, buffer⟩ gen = .ok true) :
    Run rule (vmo :: ms) ⟨vmo, .done ⟨⟨vmo.len, buffer⟩⟩⟩ :=
  .step hr (hrule _ _ (by rfl)) (.compare rfl hlen hsame)

end

def headerOf (m : Mapping) : Nat → UInt8 :=
  fun x => if 16 * 0 ≤ x ∧ x < 16 * 0 + 16 then m.byte x else 0

theorem Run.header (hrule : ∀ s s' : Race, s'.vmo = s.vmo → rule s s')
    (hr : Run rule ms ⟨vmo, .start (left + 1)⟩) (hlen : 0 < vmo.len)
    (hread : headerGenerationCount (vmo.slice.firstBytes 16) = .ok (some gen)) :
    Run rule (vmo :: vmo :: ms) ⟨vmo, .copying left gen 1 (headerOf vmo)⟩ := by
  have hcheck : Step ⟨vmo, .start (left + 1)⟩ ⟨vmo, .copying left gen 0 fun _ => 0⟩ :=
    @Step.check ⟨vmo, .start (left + 1)⟩ left (some gen) rfl hread
  have hcopy : Step ⟨vmo, .copying left gen 0 fun _ => 0⟩ ⟨vmo, .copying left gen 1 (headerOf vmo)⟩ :=
    .copy rfl (show 16 * 0 < vmo.len by omega)
  exact .step (.step hr (hrule _ _ (by rfl)) hcheck) (hrule _ _ (by rfl)) hcopy

def page : Mapping := ⟨4096, (headed []).byte⟩

def scribbled (m : Mapping) : Mapping := ⟨4096, fun x => if x = 16 then 1 else m.byte x⟩

/-- The header of `m` with the blocks of `m'`. -/
def copied (m m' : Mapping) : Slice :=
  ⟨4096, fun x => if 16 * 1 ≤ x ∧ x < 16 * (1 + 255) then m'.byte x else headerOf m x⟩

/-- The page while a writer has it locked, and when it is unlocked again. -/
theorem exists_scribble : ∃ m m', Block.lockHeader page 0 = .ok m ∧ pay m.byte 0 % 2 = 1 ∧
    sameGeneration (copied page (scribbled m)) 0 = .ok true ∧
      Block.unlockHeader (scribbled m) 0 = .ok m' ∧
    headerGenerationCount (m'.slice.firstBytes 16) = .ok (some 2) ∧
      sameGeneration (copied m' m') 2 = .ok true := by
  have h : (Block.lockHeader page 0).toOption.any (fun m => decide (pay m.byte 0 % 2 = 1) &&
      (sameGeneration (copied page (scribbled m)) 0).toOption == some true &&
      (Block.unlockHeader (scribbled m) 0).toOption.any fun m' =>
        (headerGenerationCount (m'.slice.firstBytes 16)).toOption == some (some 2) &&
        (sameGeneration (copied m' m') 2).toOption == some true) = true := by decide +kernel
  obtain ⟨m, hm, htest⟩ := (Option.any_eq_true _ _).mp h
  simp only [Bool.and_eq_true, decide_eq_true_eq, beq_iff_eq] at htest
  obtain ⟨⟨hodd, htorn⟩, hthen⟩ := htest
  obtain ⟨m', hm', htest⟩ := (Option.any_eq_true _ _).mp hthen
  simp only [Bool.and_eq_true, beq_iff_eq] at htest
  exact ⟨m, m', ok_of_toOption hm, hodd, ok_of_toOption htorn, ok_of_toOption hm',
    ok_of_toOption htest.1, ok_of_toOption htest.2⟩

theorem locked_scribble {m : Mapping} (hlen : m.len = 4096) (hodd : pay m.byte 0 % 2 = 1)
    (reader : Phase) : Step ⟨m, reader⟩ ⟨scribbled m, reader⟩ := by
  refine .write ?_ hlen.symm fun x hx => if_neg (by omega)
  rw [Mapping.Unlocked, hodd]
  decide

/-- A writer changes a block before the reader looks at the header. -/
theorem quiet_snapshot_written : ∃ ms m snapshot, Run Quiet ms ⟨m, .done snapshot⟩ ∧ m.byte 16 = 1 ∧
    Consistent ms snapshot.buffer := by
  have hquiet : ∀ s s' : Race, s'.vmo = s.vmo → Quiet s s' := fun s s' h _ _ => h
  have hfree : ∀ vmo m left, Quiet ⟨vmo, .start left⟩ ⟨m, .start left⟩ :=
    fun _ _ _ ⟨_, _, _, _, h, _⟩ => nomatch h
  obtain ⟨m, m', hlock, hodd, -, hunlock, hread, hsame⟩ := exists_scribble
  have hlen : m.len = 4096 := (lockHeader_confined hlock).1
  obtain ⟨hlen', hbytes⟩ := unlockHeader_confined hunlock
  have hr : Run Quiet [m', scribbled m, m, page] ⟨m', .start 1024⟩ :=
    .step (.step (.step (.start page) (hfree _ _ _) (.lock hlock)) (hfree _ _ _)
      (locked_scribble hlen hodd _))
      (hfree _ _ _) (.unlock hunlock)
  obtain ⟨ms, hr', -⟩ :=
    (hr.header hquiet (hlen' ▸ Nat.zero_lt_succ 4095) hread).copies hquiet 1 255 hlen'
  have hdone := hr'.finish hquiet (le_of_eq hlen') (hlen'.symm ▸ hsame)
  exact ⟨_, _, _, hdone, hbytes 16 (.inr (by decide)), quiet_snapshot_consistent hdone rfl⟩

/-- A writer that locks after the copy of the header and writes a block changes a snapshot
unnoticed. -/
theorem torn_snapshot : ∃ ms s snapshot, Run (fun _ _ => True) ms s ∧ s.reader = .done snapshot ∧
    ¬ Consistent ms snapshot.buffer := by
  obtain ⟨m, -, hlock, hodd, hsame, -⟩ := exists_scribble
  have hr : Run (fun _ _ => True) [page, page, page] ⟨page, .copying 1023 0 1 (headerOf page)⟩ :=
    (Run.start page).header (fun _ _ _ => trivial) (by decide) rfl
  have hwritten : Run (fun _ _ => True) [scribbled m, m, page, page, page]
      ⟨scribbled m, .copying 1023 0 1 (headerOf page)⟩ :=
    .step (.step hr trivial (.lock hlock)) trivial
      (locked_scribble (lockHeader_confined hlock).1 hodd _)
  obtain ⟨ms', hr', hms'⟩ := hwritten.copies (fun _ _ _ => trivial) 1 255 rfl
  refine ⟨_, _, _, hr'.finish (fun _ _ _ => trivial) (le_refl 4096) hsame, rfl, ?_⟩
  rintro ⟨m', hm', hun, -, hbytes⟩
  have hpay : pay (scribbled m).byte 0 = pay m.byte 0 := word_congr fun x _ hx => if_neg (by omega)
  have hcases : m' = scribbled m ∨ m' = m ∨ m' = page := by
    rcases mem_cons.mp hm' with rfl | hm'
    · exact .inl rfl
    · simpa using hms' m' hm'
  rcases hcases with rfl | rfl | rfl
  · rw [Mapping.Unlocked, hpay, hodd] at hun
    cases hun
  · rw [Mapping.Unlocked, hodd] at hun
    cases hun
  · -- the page has never had the new byte and an even count together
    have h16 : (1 : UInt8) = page.byte 16 := hbytes 16 (by decide)
    exact absurd h16 (by decide)

end Runs

end Race

end Garnet.Inspect
