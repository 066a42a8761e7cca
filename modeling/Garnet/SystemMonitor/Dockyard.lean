import Garnet.Lib.Outcome
import Std.Data.TreeMap

/-! The Dockyard of the system monitor: streams of samples, and requests for columns of them. Times
and values are 64-bit words. -/

namespace Garnet.SystemMonitor
open Std (TreeMap)

def noStream : Nat := 2 ^ 64 - 1
def noData : Nat := 2 ^ 64 - 2
def sampleMaxValue : Nat := 2 ^ 64 - 3
def slopeLimit : Nat := 1000000
def normalizationRange : Nat := 1000000

structure Sample where
  time : Nat
  value : Nat
  deriving Repr, DecidableEq

abbrev SampleStream := TreeMap Nat Nat

abbrev Entries := List (Nat × Nat)

inductive RenderStyle where
  | wideSmoothing | sculpting | lowestPerColumn | highestPerColumn | averagePerColumn | recent
  deriving Repr, DecidableEq

structure StreamSetsRequest where
  requestId : Nat
  startTimeNs : Nat
  endTimeNs : Nat
  sampleCount : Nat
  renderStyle : RenderStyle
  normalize : Bool
  slope : Bool
  dockyardIds : List Nat
  deriving Repr, DecidableEq

structure StreamSetsResponse where
  requestId : Nat
  lowestValue : Nat
  highestValue : Nat
  dataSets : List (List Nat)
  deriving Repr, DecidableEq

structure Dockyard where
  sampleStreams : TreeMap Nat SampleStream
  sampleStreamLowHigh : TreeMap Nat (Nat × Nat)
  latestSampleTimeNs : Nat
  pendingRequests : List StreamSetsRequest

namespace Dockyard

def new : Dockyard := ⟨∅, ∅, 0, []⟩

/-- The stream and the extremes with one more sample. `emplace` keeps the sample that is there. -/
def put (id : Nat) (d : Dockyard) (s : Sample) : Dockyard :=
  let (lowest, highest) := d.sampleStreamLowHigh.getD id (sampleMaxValue, 0)
  { d with
    sampleStreams := d.sampleStreams.insert id
      ((d.sampleStreams.getD id ∅).insertIfNew s.time s.value)
    sampleStreamLowHigh := d.sampleStreamLowHigh.insert id (min lowest s.value, max highest s.value) }

def addSample (d : Dockyard) (id : Nat) (s : Sample) : Dockyard :=
  { d.put id s with latestSampleTimeNs := s.time }

def addSamples (d : Dockyard) (id : Nat) (samples : List Sample) : Dockyard :=
  samples.foldl (put id)
    { d with
      sampleStreams := d.sampleStreams.insertIfNew id ∅
      sampleStreamLowHigh := d.sampleStreamLowHigh.insertIfNew id (sampleMaxValue, 0) }

def getStreamSets (d : Dockyard) (request : StreamSetsRequest) : Dockyard :=
  { d with pendingRequests := d.pendingRequests ++ [request] }

end Dockyard

/-- A word as an `int64_t`. -/
def toI64 (n : Nat) : Int := if n < 2 ^ 63 then n else n - 2 ^ 64

/-- The time of the edge of a column. A division by zero and a signed overflow are undefined. -/
def calcTimeForStride (r : StreamSetsRequest) (index : Int) : Except Fault Nat :=
  let delta := toI64 ((r.endTimeNs + 2 ^ 64 - r.startTimeNs) % 2 ^ 64)
  let count := toI64 r.sampleCount
  if count = 0 ∨ delta * index < -2 ^ 63 ∨ 2 ^ 63 ≤ delta * index then .error .panic
  else .ok ((r.startTimeNs + (delta * index).tdiv count) % 2 ^ 64).toNat

def calculateSlope (value time : Nat) (prior : Nat × Nat) : Except Fault (Nat × Nat × Nat) :=
  let value := max value prior.1
  if time < prior.2 then .error .panic
  else if time = prior.2 then .ok (0, value, time)
  else .ok ((value - prior.1) * slopeLimit % 2 ^ 64 / (time - prior.2), value, time)

def SampleStream.lowerBound (stream : SampleStream) (time : Nat) : Entries :=
  stream.toList.dropWhile fun e => e.1 < time

/-- The loop `for (i = begin; i != end; ++i)`, where `stop` entries are left at `end`. It runs off
the map if `end` comes first. -/
def walk : Entries → Nat → Except Fault Entries
  | [], stop => if stop = 0 then .ok [] else .error .panic
  | e :: rest, stop =>
    if rest.length + 1 = stop then .ok []
    else do
      let entries ← walk rest stop
      pure (e :: entries)

def average (entries : Entries) : Nat :=
  entries.foldl (fun sum e => (sum + e.2) % 2 ^ 64) 0 / entries.length

def highest (startTime : Nat) (entries : Entries) : Nat × Nat :=
  entries.foldl (fun best e => if best.1 < e.2 then (e.2, e.1) else best) (0, startTime)

def lowest (startTime : Nat) (entries : Entries) : Nat × Nat :=
  entries.foldl (fun best e => if e.2 < best.1 then (e.2, e.1) else best) (sampleMaxValue, startTime)

section Columns
variable (before after : Int) (pick : Nat → Nat → Entries → Nat × Nat)
variable (stream : SampleStream) (r : StreamSetsRequest)

/-- One round of the loops over the columns. The column before the first is only there for its
slope. -/
def columnStep (state : (Nat × Nat) × List Nat) (n : Int) :
    Except Fault ((Nat × Nat) × List Nat) := do
  let (prior, samples) := state
  let push (value : Nat) := if 0 ≤ n then samples ++ [value] else samples
  let startTime ← calcTimeForStride r (n - before)
  let endTime ← calcTimeForStride r (n + after)
  if stream.lowerBound startTime = [] then pure (prior, push noData)
  else
    let entries ← walk (stream.lowerBound startTime) (stream.lowerBound endTime).length
    if entries = [] then pure (prior, push noData)
    else
      let (value, time) := pick startTime endTime entries
      if r.slope then
        let (slope, prior) ← calculateSlope value time prior
        pure (prior, push slope)
      else pure (prior, push value)

def computeColumns : Except Fault (List Nat) := do
  let priorTime ← calcTimeForStride r (-1)
  let (_, samples) ← ((List.range (toI64 r.sampleCount + 1).toNat).map fun (i : Nat) => (i : Int) - 1).foldlM
    (columnStep before after pick stream r) ((0, priorTime), [])
  pure samples

def computeAveragePerColumn : Except Fault (List Nat) :=
  computeColumns 0 1 (fun startTime _ entries => (average entries, startTime)) stream r

def computeHighestPerColumn : Except Fault (List Nat) :=
  computeColumns 0 1 (fun _ _ entries => highest r.startTimeNs entries) stream r

def computeLowestPerColumn : Except Fault (List Nat) :=
  computeColumns 0 1 (fun _ _ entries => lowest r.startTimeNs entries) stream r

def computeRecent : Except Fault (List Nat) :=
  computeColumns 0 1 (fun _ _ entries => (entries.getLastD (0, 0)).swap) stream r

def computeSculpted (overallAverage : Nat) : Except Fault (List Nat) :=
  computeColumns 0 1 (fun _ endTime entries =>
    (if overallAverage ≤ average entries then (highest 0 entries).1 else (lowest 0 entries).1,
      endTime)) stream r

def computeSmoothed : Except Fault (List Nat) :=
  computeColumns 1 2 (fun _ endTime entries => (average entries, endTime)) stream r

end Columns

def normalizeResponse (lowHigh : Nat × Nat) (samples : List Nat) : List Nat :=
  let range := (lowHigh.2 + 2 ^ 64 - lowHigh.1) % 2 ^ 64
  if range = 0 then samples.map fun _ => 0
  else samples.map fun v => (v + 2 ^ 64 - lowHigh.1) % 2 ^ 64 * normalizationRange % 2 ^ 64 / range

namespace Dockyard
variable (d : Dockyard) (r : StreamSetsRequest)

def overallAverageForStream (id : Nat) : Nat :=
  match d.sampleStreamLowHigh[id]? with
  | none => noData
  | some (lowest, highest) => (lowest + highest) % 2 ^ 64 / 2

def dataSet (id : Nat) : Except Fault (List Nat) :=
  match d.sampleStreams[id]? with
  | none => pure [noStream]
  | some stream => do
    let samples ← match r.renderStyle with
      | .sculpting => computeSculpted stream r (d.overallAverageForStream id)
      | .wideSmoothing => computeSmoothed stream r
      | .lowestPerColumn => computeLowestPerColumn stream r
      | .highestPerColumn => computeHighestPerColumn stream r
      | .averagePerColumn => computeAveragePerColumn stream r
      | .recent => computeRecent stream r
    if r.normalize then
      match d.sampleStreamLowHigh[id]? with
      | none => .error .panic
      | some lowHigh => pure (normalizeResponse lowHigh samples)
    else pure samples

def computeLowestHighestForRequest : Nat × Nat :=
  if r.slope then (0, slopeLimit)
  else r.dockyardIds.foldl (fun (lowest, highest) id =>
    match d.sampleStreamLowHigh[id]? with
    | none => (lowest, highest)
    | some (low, high) => (min lowest low, max highest high)) (sampleMaxValue, 0)

def processSingleRequest (response : StreamSetsResponse) : Except Fault StreamSetsResponse := do
  let dataSets ← r.dockyardIds.mapM (d.dataSet r)
  let (lowest, highest) := d.computeLowestHighestForRequest r
  pure ⟨r.requestId, lowest, highest, response.dataSets ++ dataSets⟩

/-- The loop of `ProcessRequests`, with the responses that the handler gets. -/
def respond : List StreamSetsRequest → StreamSetsResponse → Except Fault (List StreamSetsResponse)
  | [], _ => pure []
  | r :: rest, response => do
    let response ← d.processSingleRequest r response
    let responses ← respond rest response
    pure (response :: responses)

end Dockyard

end Garnet.SystemMonitor
