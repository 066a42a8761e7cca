import Garnet.SystemMonitor.Dockyard
import Mathlib.Algebra.BigOperators.Group.Finset.Basic
import Mathlib.Data.List.TakeWhile

/-! The responses to requests for columns. Each column is characterised by the samples that were
added; the responses share one object, so only a request before which no stream was requested gets
its own. -/

namespace Garnet.SystemMonitor
open List
open Function (update update_eq_self update_idem update_of_ne update_self)
open Std (TreeMap)

section Walk
variable {a b : Nat} {l : Entries}

/-- The entries with times from `a` on and before `b`, of a list in order. -/
def within (a b : Nat) (l : Entries) : Entries :=
  (l.dropWhile fun e => e.1 < a).takeWhile fun e => e.1 < b

section
variable {e : Nat × Nat} (h : l.Pairwise fun x y => x.1 < y.1)
include h

end

end Walk

section Picks
variable {l : Entries}

end Picks

/-- A request without flags for the lowest, highest or average values, whose times do not
overflow. -/
structure Plain (r : StreamSetsRequest) : Prop where
  flags : r.normalize = false ∧ r.slope = false
  style : r.renderStyle = .lowestPerColumn ∨ r.renderStyle = .highestPerColumn ∨
    r.renderStyle = .averagePerColumn
  count : 0 < r.sampleCount
  order : r.startTimeNs < r.endTimeNs
  word : r.endTimeNs < 2 ^ 64
  product : (r.endTimeNs - r.startTimeNs) * r.sampleCount < 2 ^ 63

namespace Plain
variable {r : StreamSetsRequest}

theorem small (h : Plain r) : r.endTimeNs - r.startTimeNs < 2 ^ 63 ∧ r.sampleCount < 2 ^ 63 := by
  have hd : 0 < r.endTimeNs - r.startTimeNs := Nat.sub_pos_of_lt h.order
  have h1 := Nat.le_mul_of_pos_right (r.endTimeNs - r.startTimeNs) h.count
  have h2 := Nat.le_mul_of_pos_left r.sampleCount hd
  have h3 := h.product
  omega

end Plain

section Loop
variable {pick : Nat → Nat → Entries → Nat × Nat} {stream : SampleStream} {r : StreamSetsRequest}

end Loop

inductive Call where
  | addSample (id : Nat) (sample : Sample)
  | addSamples (id : Nat) (samples : List Sample)
  deriving Repr, DecidableEq

def Call.id : Call → Nat
  | addSample id _ => id
  | addSamples id _ => id

def Call.samples : Call → List Sample
  | addSample _ sample => [sample]
  | addSamples _ samples => samples

def Call.exec (d : Dockyard) : Call → Dockyard
  | addSample id sample => d.addSample id sample
  | addSamples id samples => d.addSamples id samples

/-- The samples that streams were given, in order; a stream is there once it was named. -/
abbrev History := Nat → Option (List Sample)

def History.add (h : History) (c : Call) : History :=
  update h c.id (some ((h c.id).getD [] ++ c.samples))

def history (calls : List Call) : History := calls.foldl History.add fun _ => none

def first (samples : List Sample) (t : Nat) : Option Nat := (samples.find? (·.time = t)).map (·.value)

def Tracks (h : History) (d : Dockyard) : Prop := ∀ id,
  match d.sampleStreams[id]?, h id with
  | some m, some samples => ∀ t, m[t]? = first samples t
  | none, none => True
  | _, _ => False

namespace Tracks
variable {h : History} {d : Dockyard}

theorem first_concat (samples : List Sample) (s : Sample) (t : Nat) :
    first (samples ++ [s]) t =
    (first samples t).or (if s.time = t then some s.value else none) := by
  unfold first
  rw [List.find?_append, Option.map_or]
  by_cases hs : s.time = t
  · simp [hs]
  · simp [hs]

theorem put (hd : Tracks h d) (id : Nat) (s : Sample) :
    Tracks (update h id (some ((h id).getD [] ++ [s]))) (d.put id s) := by
  intro id'
  by_cases hid : id' = id
  · subst hid
    have hold := hd id'
    have hkeep : ∀ (m : SampleStream) (samples : List Sample), (∀ t, m[t]? = first samples t) →
        ∀ t, (m.insertIfNew s.time s.value)[t]? = first (samples ++ [s]) t := by
      intro m samples hm t
      rw [TreeMap.getElem?_insertIfNew, first_concat, ← hm]
      by_cases ht : s.time = t
      · subst ht
        by_cases hmem : s.time ∈ m
        · simp [hmem]
        · simp [hmem]
      · simp [ht]
    simp only [Dockyard.put, update_self, TreeMap.getElem?_insert_self, TreeMap.getD_eq_getD_getElem?]
    revert hold
    cases d.sampleStreams[id']? <;> cases h id' <;> intro hold
    · exact hkeep ∅ [] fun t => by simp [first]
    · exact hold.elim
    · exact hold.elim
    · exact hkeep _ _ hold
  · have hold := hd id'
    simpa only [Dockyard.put, update_of_ne hid, TreeMap.getElem?_insert, compare_eq_iff_eq,
      Ne.symm hid, if_false] using hold

theorem puts (hd : Tracks h d) (id : Nat) (samples : List Sample) (hid : (h id).isSome = true) :
    Tracks (update h id (some ((h id).getD [] ++
    samples))) (samples.foldl (Dockyard.put id) d) := by
  induction samples generalizing h d with
  | nil =>
    obtain ⟨l, hl⟩ := Option.isSome_iff_exists.mp hid
    have hsame : update h id (some ((h id).getD [] ++ [])) = h := by
      rw [append_nil, hl, Option.getD_some, ← hl, update_eq_self]
    rw [hsame]
    exact hd
  | cons s samples ih =>
    have hnext := ih (hd.put id s) (by rw [update_self]; rfl)
    rwa [update_self, update_idem, Option.getD_some, append_assoc, singleton_append] at hnext

theorem call (hd : Tracks h d) (c : Call) : Tracks (h.add c) (c.exec d) := by
  cases c with
  | addSample id s => exact hd.put id s
  | addSamples id samples =>
    have hopen : Tracks (update h id (some ((h id).getD [])))
        { d with
          sampleStreams := d.sampleStreams.insertIfNew id ∅
          sampleStreamLowHigh := d.sampleStreamLowHigh.insertIfNew id (sampleMaxValue, 0) } := by
      intro id'
      have hold := hd id'
      simp only [TreeMap.getElem?_insertIfNew]
      by_cases hid : id' = id
      · subst hid
        rw [update_self]
        revert hold
        cases hs : d.sampleStreams[id']? <;> cases h id' <;> intro hold
        · have hmem : ¬ id' ∈ d.sampleStreams := fun hm => by
            rw [TreeMap.mem_iff_isSome_getElem?, hs] at hm
            cases hm
          simp [hmem, first]
        · exact hold.elim
        · exact hold.elim
        · have hmem : id' ∈ d.sampleStreams := TreeMap.mem_iff_isSome_getElem?.mpr (by rw [hs]; rfl)
          simpa [hmem] using hold
      · simpa [update_of_ne hid, Ne.symm hid] using hold
    have hall := hopen.puts id samples (by rw [update_self]; rfl)
    rwa [update_self, update_idem, Option.getD_some] at hall

theorem calls (calls : List Call) : Tracks (history calls) (calls.foldl Call.exec .new) := by
  have hfrom : ∀ (l : List Call) (h : History) (d : Dockyard), Tracks h d →
      Tracks (l.foldl History.add h) (l.foldl Call.exec d) := by
    intro l
    induction l with
    | nil => exact fun _ _ hd => hd
    | cons c l ih => exact fun h d hd => ih _ _ (hd.call c)
  apply hfrom
  intro id
  simp [Dockyard.new]

end Tracks

end Garnet.SystemMonitor
