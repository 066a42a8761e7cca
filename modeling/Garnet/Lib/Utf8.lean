import Mathlib.Data.List.Basic

/-! UTF-8 as the standard library of the source reads it: validity of a byte list, and the
lossy reading that replaces each maximal invalid piece by U+FFFD. -/

namespace Garnet.Utf8
open List

def isCont (b : UInt8) : Bool := 0x80 ≤ b && b ≤ 0xBF

/-- Second bytes allowed after the first byte of a three or four byte character. -/
def secondOk (first second : UInt8) : Bool :=
  if first = 0xE0 then 0xA0 ≤ second && second ≤ 0xBF
  else if first = 0xED then 0x80 ≤ second && second ≤ 0x9F
  else if first = 0xF0 then 0x90 ≤ second && second ≤ 0xBF
  else if first = 0xF4 then 0x80 ≤ second && second ≤ 0x8F
  else isCont second

/-- Continuation bytes that are present, up to `n` of them. -/
def contCount : Nat → List UInt8 → Nat
  | n + 1, b :: bs => if isCont b then 1 + contCount n bs else 0
  | _, _ => 0

/-- The first piece of the bytes behind `first`: whether it is a character, and its length. -/
def piece (first : UInt8) (rest : List UInt8) : Bool × Nat :=
  if first < 0x80 then (true, 1)
  else if 0xC2 ≤ first && first ≤ 0xDF then
    if contCount 1 rest = 1 then (true, 2) else (false, 1)
  else
    let more :=
      if 0xE0 ≤ first && first ≤ 0xEF then 2 else if 0xF0 ≤ first && first ≤ 0xF4 then 3 else 0
    match rest with
    | second :: tail =>
      if more = 0 || !secondOk first second then (false, 1)
      else
        let n := contCount (more - 1) tail
        if n = more - 1 then (true, more + 1) else (false, 2 + n)
    | [] => (false, 1)

/-- `str::from_utf8` succeeds; `fuel` bounds the number of pieces. -/
def validFrom : Nat → List UInt8 → Bool
  | _, [] => true
  | 0, _ :: _ => false
  | fuel + 1, b :: bs =>
    let p := piece b bs
    p.1 && validFrom fuel ((b :: bs).drop p.2)

def valid (bs : List UInt8) : Bool := validFrom bs.length bs

def replacement : List UInt8 := [0xEF, 0xBF, 0xBD]

/-- `String::from_utf8_lossy`. -/
def lossyFrom : Nat → List UInt8 → List UInt8
  | _, [] => []
  | 0, _ :: _ => []
  | fuel + 1, b :: bs =>
    let p := piece b bs
    (if p.1 then (b :: bs).take p.2 else replacement) ++ lossyFrom fuel ((b :: bs).drop p.2)

def lossy (bs : List UInt8) : List UInt8 := lossyFrom bs.length bs

theorem lossyFrom_of_valid (fuel : Nat) (bs : List UInt8) (h : validFrom fuel bs = true) :
    lossyFrom fuel bs = bs := by
  induction fuel generalizing bs with
  | zero => cases bs <;> simp_all [validFrom, lossyFrom]
  | succ fuel ih =>
    cases bs with
    | nil => rfl
    | cons b bs =>
      simp only [validFrom, Bool.and_eq_true] at h
      simp only [lossyFrom, h.1, if_true, ih _ h.2, take_append_drop]

variable {bs cs rest as : List UInt8} {first : UInt8} {fuel : Nat}

theorem lossy_of_valid (h : valid bs = true) : lossy bs = bs :=
  lossyFrom_of_valid _ _ h

theorem contCount_split {n : Nat} (h : contCount n bs = n) :
    ∃ cs tail, bs = cs ++ tail ∧ cs.length = n ∧ ∀ b ∈ cs, isCont b = true := by
  induction n generalizing bs with
  | zero => exact ⟨[], bs, rfl, rfl, by simp⟩
  | succ n ih =>
    cases bs with
    | nil => cases h
    | cons b bs =>
      unfold contCount at h
      split at h
      next hb =>
        have hn : contCount n bs = n := by omega
        obtain ⟨cs, tail, rfl, hlen, hcs⟩ := ih hn
        exact ⟨b :: cs, tail, rfl, by rw [length_cons, hlen], forall_mem_cons.mpr ⟨hb, hcs⟩⟩
      next => cases h

theorem contCount_conts (h : ∀ b ∈ cs, isCont b = true) (tail : List UInt8) :
    contCount cs.length (cs ++ tail) = cs.length := by
  induction cs with
  | nil => cases tail <;> rfl
  | cons c cs ih =>
    obtain ⟨hc, hcs⟩ := forall_mem_cons.mp h
    rw [length_cons, cons_append, contCount, if_pos hc, ih hcs, Nat.add_comm]

theorem secondOk_isCont {second : UInt8} (h : secondOk first second = true) :
    isCont second = true := by
  unfold secondOk isCont at *
  split at h
  · grind
  · split at h
    · grind
    · split at h
      · grind
      · split at h
        · grind
        · exact h

section
variable (h : (piece first rest).1 = true)
include h

/-- A character is its first byte and its continuation bytes, whatever follows them. -/
theorem piece_char :
    ∃ cs tail, rest = cs ++ tail ∧ isCont first = false ∧ (∀ b ∈ cs, isCont b = true) ∧
      ∀ tail', piece first (cs ++ tail') = (true, cs.length + 1) := by
  unfold piece at h
  by_cases h1 : first < 0x80
  · refine ⟨[], rest, rfl, ?_, by simp, fun tail => by simp only [piece, if_pos h1]; rfl⟩
    unfold isCont
    grind
  · rw [if_neg h1] at h
    by_cases h2 : (0xC2 ≤ first && first ≤ 0xDF) = true
    · rw [if_pos h2] at h
      by_cases hcount : contCount 1 rest = 1
      · obtain ⟨cs, tail, rfl, hlen, hcs⟩ := contCount_split hcount
        refine ⟨cs, tail, rfl, ?_, hcs, fun tail => ?_⟩
        · unfold isCont
          grind
        · have hc := contCount_conts hcs tail
          rw [hlen] at hc
          rw [piece, if_neg h1, if_pos h2, if_pos hc, hlen]
      · rw [if_neg hcount] at h
        cases h
    · rw [if_neg h2] at h
      have hmore : ∀ tail, piece first tail = _ := fun tail => (if_neg h1).trans (if_neg h2)
      dsimp only at h hmore
      have hfirst : (if (0xE0 ≤ first && first ≤ 0xEF) = true then 2
          else if (0xF0 ≤ first && first ≤ 0xF4) = true then 3 else 0) ≠ 0 → isCont first = false := by
        unfold isCont
        grind
      generalize (if (0xE0 ≤ first && first ≤ 0xEF) = true then 2
        else if (0xF0 ≤ first && first ≤ 0xF4) = true then 3 else 0) = more at h hmore hfirst
      cases rest with
      | nil => cases h
      | cons second rest =>
        dsimp only at h
        by_cases h3 : (decide (more = 0) || !secondOk first second) = true
        · rw [if_pos h3] at h
          cases h
        · rw [if_neg h3] at h
          by_cases hcount : contCount (more - 1) rest = more - 1
          · obtain ⟨cs, tail, rfl, hlen, hcs⟩ := contCount_split hcount
            simp only [Bool.or_eq_true, decide_eq_true_eq, Bool.not_eq_true', not_or,
              Bool.not_eq_false] at h3
            refine ⟨second :: cs, tail, rfl, hfirst h3.1,
              forall_mem_cons.mpr ⟨secondOk_isCont h3.2, hcs⟩, fun tail => ?_⟩
            have hc := contCount_conts hcs tail
            rw [hlen] at hc
            rw [cons_append, hmore]
            dsimp only
            rw [if_neg (by simp [h3]), if_pos hc, length_cons, hlen]
            congr 1
            omega
          · rw [if_neg hcount] at h
            cases h

theorem piece_append (cs : List UInt8) : piece first (rest ++ cs) = piece first rest := by
  obtain ⟨conts, tail, rfl, -, -, hpiece⟩ := piece_char h
  rw [append_assoc, hpiece, hpiece]

theorem piece_le : (piece first rest).2 ≤ (first :: rest).length := by
  obtain ⟨conts, tail, rfl, -, -, hpiece⟩ := piece_char h
  rw [hpiece, length_cons, length_append]
  exact Nat.succ_le_succ (Nat.le_add_right ..)

end

theorem validFrom_add (h : validFrom fuel bs = true) (k : Nat) :
    validFrom (fuel + k) bs = true := by
  induction fuel generalizing bs with
  | zero =>
    cases bs with
    | nil => cases k <;> rfl
    | cons b bs => cases h
  | succ fuel ih =>
    cases bs with
    | nil => cases k <;> rfl
    | cons b bs =>
      unfold validFrom at h
      rw [Bool.and_eq_true] at h
      rw [Nat.succ_add]
      unfold validFrom
      dsimp only
      rw [h.1, Bool.true_and]
      exact ih h.2

theorem validFrom_append {fuel' : Nat} (ha : validFrom fuel as = true)
    (hb : validFrom fuel' bs = true) : validFrom (fuel + fuel') (as ++ bs) = true := by
  induction fuel generalizing as with
  | zero =>
    cases as with
    | nil =>
      rw [Nat.zero_add]
      exact hb
    | cons a as => cases ha
  | succ fuel ih =>
    cases as with
    | nil =>
      rw [nil_append, Nat.add_comm]
      exact validFrom_add hb _
    | cons a as =>
      unfold validFrom at ha
      rw [Bool.and_eq_true] at ha
      rw [cons_append, Nat.succ_add]
      unfold validFrom
      dsimp only
      rw [piece_append ha.1, ha.1, Bool.true_and, ← cons_append,
        drop_append_of_le_length (piece_le ha.1)]
      exact ih ha.2

theorem valid_append (ha : valid as = true) (hb : valid bs = true) : valid (as ++ bs) = true := by
  unfold valid
  rw [length_append]
  exact validFrom_append ha hb

theorem valid_of_ascii (h : ∀ b ∈ bs, b < 0x80) : valid bs = true := by
  unfold valid
  induction bs with
  | nil => rfl
  | cons b bs ih =>
    have hb := h b mem_cons_self
    rw [length_cons]
    unfold validFrom piece
    rw [if_pos hb]
    exact ih fun c hc => h c (mem_cons_of_mem b hc)

theorem valid_of_validFrom (h : validFrom fuel bs = true) : valid bs = true := by
  induction fuel generalizing bs with
  | zero =>
    cases bs with
    | nil => rfl
    | cons b bs => cases h
  | succ fuel ih =>
    cases bs with
    | nil => rfl
    | cons b bs =>
      unfold validFrom at h
      rw [Bool.and_eq_true] at h
      obtain ⟨cs, tail, rfl, -, -, hpiece⟩ := piece_char h.1
      have htail := ih h.2
      rw [hpiece, drop_succ_cons, drop_left] at htail
      unfold valid
      rw [length_cons, validFrom, hpiece, Bool.true_and, drop_succ_cons, drop_left,
        length_append, Nat.add_comm]
      exact validFrom_add htail _

theorem valid_char (hpiece : ∀ tail, piece first (cs ++ tail) = (true, cs.length + 1))
    (tail : List UInt8) : valid (first :: (cs ++ tail)) = true ↔ valid tail = true := by
  unfold valid
  rw [length_cons, validFrom, hpiece, Bool.true_and, drop_succ_cons, drop_left]
  constructor
  · exact valid_of_validFrom
  · intro h
    rw [length_append, Nat.add_comm]
    exact validFrom_add h _

/-- `str::is_char_boundary`. -/
def isCharBoundary (bs : List UInt8) (i : Nat) : Bool :=
  i == bs.length || bs[i]?.any fun b => !isCont b

theorem valid_take_iff (h : valid bs = true) {i : Nat} (hi : i ≤ bs.length) :
    valid (bs.take i) = true ↔ isCharBoundary bs i = true := by
  unfold valid at h
  generalize bs.length = fuel at h
  induction fuel generalizing bs i with
  | zero =>
    cases bs with
    | nil => simp [isCharBoundary, valid, validFrom] at hi ⊢; exact hi
    | cons b bs => cases h
  | succ fuel ih =>
    cases bs with
    | nil => simp [isCharBoundary, valid, validFrom] at hi ⊢; exact hi
    | cons b rest =>
      unfold validFrom at h
      rw [Bool.and_eq_true] at h
      obtain ⟨cs, tail, rfl, hb, hcs, hpiece⟩ := piece_char h.1
      have htail := h.2
      rw [hpiece, drop_succ_cons, drop_left] at htail
      cases i with
      | zero => simp [isCharBoundary, valid, validFrom, hb]
      | succ i =>
        rw [length_cons, length_append] at hi
        rcases Nat.lt_or_ge i cs.length with hlt | hge
        · -- a cut inside the character leaves a piece that is too short
          have hcut : valid ((b :: (cs ++ tail)).take (i + 1)) = false := by
            rw [take_succ_cons, take_append_of_le_length (Nat.le_of_lt hlt)]
            by_contra hv
            rw [Bool.not_eq_false, valid, length_cons, validFrom, Bool.and_eq_true] at hv
            have hle := piece_le hv.1
            have happ := piece_append hv.1 (cs.drop i ++ [])
            rw [← append_assoc, take_append_drop, hpiece] at happ
            rw [← happ, length_cons, length_take] at hle
            omega
          have hget : (b :: (cs ++ tail))[i + 1]? = some cs[i] := by
            rw [List.getElem?_cons_succ, List.getElem?_append_left hlt, List.getElem?_eq_getElem hlt]
          have hend : (i + 1 == (b :: (cs ++ tail)).length) = false := by
            rw [length_cons, length_append]
            exact beq_false_of_ne (by omega)
          rw [hcut, isCharBoundary, hget, hend]
          simp [hcs _ (getElem_mem hlt)]
        · have htake : (b :: (cs ++ tail)).take (i + 1) = b :: (cs ++ tail.take (i - cs.length)) := by
            rw [take_succ_cons, take_append, take_of_length_le hge]
          rw [htake, valid_char hpiece, ih (by omega) htail, isCharBoundary, isCharBoundary,
            List.getElem?_cons_succ, List.getElem?_append_right hge, length_cons, length_append]
          have hend : (i - cs.length == tail.length) = (i + 1 == cs.length + tail.length + 1) := by
            rw [Bool.eq_iff_iff, beq_iff_eq, beq_iff_eq]
            omega
          rw [hend]

end Garnet.Utf8
