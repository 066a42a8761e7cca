import Garnet.SystemMonitor.Columns

/-! What a response should hold, in terms of the samples that were added, and when it does. -/

namespace Garnet.SystemMonitor
open List
open Std (TreeMap)

variable (samples : List Sample)

/-- The times of samples from `a` on and before `b`. -/
def timesIn (a b : Nat) : Finset Nat :=
  (samples.map (·.time)).toFinset.filter fun t => a ≤ t ∧ t < b

def valueAt (t : Nat) : Nat := (first samples t).getD 0

/-- A column with samples has one in the range that `SAMPLE_MAX_VALUE` gives. -/
def InRange (a b : Nat) : Prop :=
  (timesIn samples a b).Nonempty → ∃ t ∈ timesIn samples a b, valueAt samples t ≤ sampleMaxValue

section Column
variable {samples : List Sample} {m : SampleStream} {a b : Nat}

theorem toList_sorted (m : SampleStream) : m.toList.Pairwise fun x y => x.1 < y.1 :=
  TreeMap.ordered_keys_toList.imp fun h => Nat.compare_eq_lt.mp h

theorem keys_nodup (a b : Nat) (m : SampleStream) : ((within a b m.toList).map Prod.fst).Nodup := by
  have hsub : (within a b m.toList).Sublist m.toList :=
    (takeWhile_sublist _).trans (dropWhile_sublist _)
  exact pairwise_map.mpr (((toList_sorted m).sublist hsub).imp ne_of_lt)

section
variable (hm : ∀ t, m[t]? = first samples t)
include hm

end

end Column

section Responses
variable {h : History} {d : Dockyard} {r : StreamSetsRequest} {rs : List StreamSetsRequest}

/-- A Dockyard with the samples of `calls` that is asked for `rs`. -/
def asked (calls : List Call) (rs : List StreamSetsRequest) : Dockyard :=
  { calls.foldl Call.exec .new with pendingRequests := rs }

end Responses

end Garnet.SystemMonitor
