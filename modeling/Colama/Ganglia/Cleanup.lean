import Colama.Lib.Tables

namespace Colama.Ganglia

open Lib (Table)

/-- Of the metadata, `dmax`. -/
structure Metadata where
  dmax : UInt32
  lastHeardFrom : ℤ

/-- The metadata and the values of the metrics. Of a value, the time that it was heard. -/
structure GangliaHost where
  lastHeardFrom : ℤ
  metrics : Table String Metadata
  gmetrics : Table String ℤ

structure MetricId where
  host : String
  name : String
  spoof : Bool

inductive Message
  | request (id : MetricId)
  | full (id : MetricId) (dmax : UInt32)
  | value (id : MetricId)

def Message.metricId : Message → MetricId
  | .request id | .full id _ | .value id => id

/-- The address in a spoofed host, `address:name`. The search for the colon begins at the second character. -/
def spoofIp (host : String) : Option String :=
  match host.toList with
  | [] => none
  | c :: rest =>
    match rest.dropWhile (· ≠ ':') with
    | _ :: _ :: _ => some (String.ofList (c :: rest.takeWhile (· ≠ ':')))
    | _ => none

def hostKey (remoteIp : String) (id : MetricId) : Option String :=
  if id.spoof then spoofIp id.host else some remoteIp

variable (t now : ℤ) (hosts : Table String GangliaHost)

/-- `Ganglia_host_get`, for a key. -/
def gangliaHostGet (key : String) : GangliaHost :=
  match hosts.lookup key with
  | some host => { host with lastHeardFrom := t }
  | none => { lastHeardFrom := t, metrics := ∅, gmetrics := ∅ }

def gangliaMetadataSave (host : GangliaHost) (id : MetricId) (dmax : UInt32) : GangliaHost :=
  { host with metrics := host.metrics.insert id.name { dmax, lastHeardFrom := t } }

def gangliaValueSave (host : GangliaHost) (id : MetricId) : GangliaHost :=
  { host with gmetrics := host.gmetrics.insert id.name t }

/-- The part of `process_udp_recv_channel` that saves the message. -/
def processMessage (remoteIp : String) (msg : Message) : Table String GangliaHost :=
  match hostKey remoteIp msg.metricId with
  | none => hosts
  | some key =>
    hosts.insert key <|
      match msg with
      | .request _ => gangliaHostGet t hosts key
      | .full id dmax => gangliaMetadataSave t (gangliaHostGet t hosts key) id dmax
      | .value id => gangliaValueSave t (gangliaHostGet t hosts key) id

def aprUsecPerSec : ℤ := 1000000

/-- The test for a stale metric. `dmax` goes into an `int`. -/
def Metadata.stale (metric : Metadata) : Bool :=
  decide (metric.dmax.toInt32 ≠ 0 ∧ metric.dmax.toInt32.toInt * aprUsecPerSec < now - metric.lastHeardFrom)

def cleanupMetric (host : GangliaHost) (metric : Σ _ : String, Metadata) : GangliaHost :=
  if metric.2.stale now then
    { host with metrics := host.metrics.erase metric.1, gmetrics := host.gmetrics.erase metric.1 }
  else host

/-- The walk over the metrics of a host. -/
def cleanupHost (host : GangliaHost) : GangliaHost := host.metrics.entries.foldl (cleanupMetric now) host

def GangliaHost.stale (hostDmax : Int32) (host : GangliaHost) : Bool :=
  decide (hostDmax ≠ 0 ∧ hostDmax.toInt * aprUsecPerSec < now - host.lastHeardFrom)

/-- The walk over the hosts. -/
def cleanupData (hostDmax : Int32) : Table String GangliaHost :=
  hosts.entries.foldl (fun hosts host =>
    if host.2.stale now hostDmax then hosts.erase host.1 else hosts.insert host.1 (cleanupHost now host.2)) hosts

inductive Event
  | message (time : ℤ) (remoteIp : String) (msg : Message)
  | cleanup (now : ℤ)

def Event.time : Event → ℤ
  | .message time _ _ => time
  | .cleanup now => now

def Event.run (hostDmax : Int32) (hosts : Table String GangliaHost) : Event → Table String GangliaHost
  | .message time remoteIp msg => processMessage time hosts remoteIp msg
  | .cleanup now => cleanupData now hosts hostDmax

/-- The hosts after some events. -/
def hostsAfter (hostDmax : Int32) (events : List Event) : Table String GangliaHost :=
  events.foldl (Event.run hostDmax) ∅

end Colama.Ganglia
