import Mathlib.Data.List.Basic

/-! Text as lines, and a line cut at the last of its separators. -/

namespace Garnet.Lines
open List

def newline : UInt8 := 10

def carriageReturn : UInt8 := 13

def chop (line : List UInt8) : List UInt8 :=
  if line.getLast? = some carriageReturn then line.dropLast else line

/-- The lines of a text, `current` being what was read of the first one. What
follows the last newline is a line if there is anything. -/
def linesFrom : List UInt8 → List UInt8 → List (List UInt8)
  | current, [] => if current = [] then [] else [current]
  | current, b :: rest =>
    if b = newline then chop current :: linesFrom [] rest else linesFrom (current ++ [b]) rest

def lines (text : List UInt8) : List (List UInt8) := linesFrom [] text

/-- The two sides of the last `c`. -/
def splitLast (c : UInt8) (line : List UInt8) : Option (List UInt8 × List UInt8) :=
  match line with
  | [] => none
  | b :: rest =>
    match splitLast c rest with
    | some (left, right) => some (b :: left, right)
    | none => if b = c then some ([], rest) else none

variable {line : List UInt8} {c : UInt8}

theorem linesFrom_newline (h : newline ∉ line) (current rest : List UInt8) :
    linesFrom current (line ++ newline :: rest) = chop (current ++ line) :: linesFrom [] rest := by
  induction line generalizing current with
  | nil =>
    rw [nil_append, append_nil]
    conv_lhs => unfold linesFrom
    rw [if_pos rfl]
  | cons b line ih =>
    have hb : b ≠ newline := fun heq => h (heq ▸ mem_cons_self)
    rw [cons_append]
    conv_lhs => unfold linesFrom
    rw [if_neg hb, ih (fun hmem => h (mem_cons_of_mem b hmem)), append_assoc]
    rfl

theorem lines_flatMap {ls : List (List UInt8)} (h : ∀ l ∈ ls, newline ∉ l)
    (hcr : ∀ l ∈ ls, l.getLast? ≠ some carriageReturn) :
    lines (ls.flatMap fun l => l ++ [newline]) = ls := by
  unfold lines
  induction ls with
  | nil => rfl
  | cons l rest ih =>
    rw [flatMap_cons, append_assoc, singleton_append,
      linesFrom_newline (h l mem_cons_self), nil_append, chop, if_neg (hcr l mem_cons_self),
      ih (fun m hm => h m (mem_cons_of_mem l hm)) (fun m hm => hcr m (mem_cons_of_mem l hm))]

theorem splitLast_none (h : c ∉ line) : splitLast c line = none := by
  induction line with
  | nil => rfl
  | cons b rest ih =>
    unfold splitLast
    rw [ih (fun hmem => h (mem_cons_of_mem b hmem))]
    have hb : b ≠ c := fun heq => h (heq ▸ mem_cons_self)
    exact if_neg hb

theorem splitLast_append (left : List UInt8) {right : List UInt8} (h : c ∉ right) :
    splitLast c (left ++ c :: right) = some (left, right) := by
  induction left with
  | nil =>
    rw [nil_append]
    unfold splitLast
    rw [splitLast_none h]
    exact if_pos rfl
  | cons b left ih =>
    rw [cons_append]
    unfold splitLast
    rw [ih]

theorem splitLast_eq {left right : List UInt8} (h : splitLast c line = some (left, right)) :
    line = left ++ c :: right := by
  induction line generalizing left with
  | nil => cases h
  | cons b rest ih =>
    unfold splitLast at h
    split at h
    next left' right' hrest =>
      cases h
      rw [ih hrest, cons_append]
    next =>
      split at h
      next hb =>
        cases h
        rw [hb, nil_append]
      next => cases h

end Garnet.Lines
