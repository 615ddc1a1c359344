import Colama.Lib.Locks

namespace Colama.Ganglia

open Lib (Locks.Event)

abbrev Mutex := ℕ

inductive TypeTag
  | int | uint | float | timestamp | string
  deriving DecidableEq

/-- The start tags that have to do with the sums. HOST has the outcome of its test for a live host, METRIC the
result of `in_type_list` for its TYPE. -/
inductive Start
  | grid (name : String)
  | cluster (name : String)
  | host (alive : Bool)
  | metric (type : Option TypeTag)
  | metrics
  | other

inductive Tag
  | grid | cluster | other
  deriving DecidableEq

def Start.tag : Start → Tag
  | .grid _ => .grid
  | .cluster _ => .cluster
  | _ => .other

/-- The calls that the parser makes. -/
inductive Call
  | start (el : Start)
  | finish (tag : Tag)

inductive Element
  | mk (el : Start) (children : List Element)

mutual

def Element.calls : Element → List Call
  | .mk el children => .start el :: callsOf children ++ [.finish el.tag]

def callsOf : List Element → List Call
  | [] => []
  | e :: es => e.calls ++ callsOf es

end

/-- What the handlers keep of `xmldata_t`, with the mutex of each source in `root.authority` and the number of
the next mutex. `sumFinished` is the pointer in the source buffer. -/
structure XmlData where
  sourcename : Option String
  gridDepth : ℤ
  hostAlive : Bool
  sumFinished : Option Mutex
  root : String → Option Mutex
  mutexes : Mutex

abbrev LockEvent := Locks.Event (Option Mutex)

variable (scalable : Bool) (s : XmlData)

def XmlData.authorityMode : Bool := decide (s.gridDepth = 0)

/-- What `startElement_GRID` and `startElement_CLUSTER` do with the source of their name. The sums of a source
that is found are zeroed. -/
def openSource (name : String) : List LockEvent × XmlData :=
  match s.root name with
  | none =>
    ([.lock (some s.mutexes)],
      { s with sourcename := some name, sumFinished := some s.mutexes, mutexes := s.mutexes + 1 })
  | some m => ([.lock (some m), .use (some m)], { s with sourcename := some name, sumFinished := some m })

def startGrid (name : String) : List LockEvent × XmlData :=
  if !scalable then ([], s)
  else if s.authorityMode then
    ((openSource s name).1, { (openSource s name).2 with gridDepth := s.gridDepth + 1 })
  else ([], { s with gridDepth := s.gridDepth + 1 })

def startCluster (name : String) : List LockEvent × XmlData :=
  if !s.authorityMode then ([], s) else openSource s name

def doSummary : Option TypeTag → Bool
  | some .int | some .uint | some .float => true
  | _ => false

def startMetric (type : Option TypeTag) : List LockEvent × XmlData :=
  if !s.hostAlive then ([], s) else if doSummary type then ([.use s.sumFinished], s) else ([], s)

def startMetrics : List LockEvent × XmlData :=
  if !scalable then ([], s) else ([.use s.sumFinished], s)

def start : Start → List LockEvent × XmlData
  | .grid name => startGrid scalable s name
  | .cluster name => startCluster s name
  | .host alive => ([], { s with hostAlive := alive })
  | .metric type => startMetric s type
  | .metrics => startMetrics scalable s
  | .other => ([], s)

def endGrid : List LockEvent × XmlData :=
  ([.unlock s.sumFinished], if scalable then { s with gridDepth := s.gridDepth - 1 } else s)

/-- The source goes to the table under `sourcename`. -/
def endCluster : List LockEvent × XmlData :=
  if s.authorityMode then
    ([.unlock s.sumFinished],
      match s.sourcename with
      | some name => { s with root := Function.update s.root name s.sumFinished }
      | none => s)
  else ([], s)

/-- The case of GRID has no break and goes on with that of CLUSTER. -/
def finish : Tag → List LockEvent × XmlData
  | .grid => ((endGrid scalable s).1 ++ (endCluster (endGrid scalable s).2).1, (endCluster (endGrid scalable s).2).2)
  | .cluster => endCluster s
  | .other => ([], s)

@[grind] def XmlData.call : Call → List LockEvent × XmlData
  | .start el => start scalable s el
  | .finish tag => finish scalable s tag

def XmlData.trace (s : XmlData) : List Call → List LockEvent
  | [] => []
  | c :: cs => (s.call scalable c).1 ++ trace (s.call scalable c).2 cs

/-- What `process_xml` does with the mutexes if the parser makes these calls. -/
def processXml (root : String → Option Mutex) (mutexes : Mutex) (calls : List Call) : List LockEvent :=
  XmlData.trace scalable ⟨none, 0, false, none, root, mutexes⟩ calls

/-- Where the parser is, for the mutexes: outside of the sources, in a CLUSTER, in a GRID with some inner GRIDs
open, or in a GRID of which an inner one has ended. -/
inductive Place
  | outside
  | cluster
  | grid (inner : ℕ)
  | left

def Place.Holds : Place → Bool
  | .cluster | .grid _ => true
  | _ => false

def Place.start (alive : Bool) : Place → Start → Option Place
  | .outside, .grid _ => some (if scalable then .grid 0 else .outside)
  | .outside, .cluster _ => some .cluster
  | .cluster, .grid _ => if scalable then none else some .cluster
  | .cluster, .cluster _ => none
  | .grid inner, .grid _ => some (.grid (inner + 1))
  | p, .metric type => if alive && doSummary type && !p.Holds then none else some p
  | p, .metrics => if scalable && !p.Holds then none else some p
  | p, _ => some p

def Place.finish : Place → Tag → Option Place
  | .grid (_ + 1), .grid => some .left
  | _, .grid => none
  | .outside, .cluster => none
  | .cluster, .cluster => some .outside
  | p, _ => some p

def Place.call (alive : Bool) (p : Place) : Call → Option Place
  | .start el => p.start scalable alive el
  | .finish tag => p.finish tag

def Call.alive (before : Bool) : Call → Bool
  | .start (.host alive) => alive
  | _ => before

/-- The document keeps to CLUSTERs, and ends outside of them: no CLUSTER in a CLUSTER, no sums elsewhere, and no
GRID but one that is cut off after one inner GRID, with no sums in between. A GRID that does not count, because
of the mode, may start but not end. -/
def Orderly (p : Place) (alive : Bool) : List Call → Prop
  | [] => p.Holds = false
  | c :: cs => ∃ q, p.call scalable alive c = some q ∧ Orderly q (c.alive alive) cs

end Colama.Ganglia
