import Mathlib.Data.List.TakeWhile
import Colama.Ganglia.Hash
import Colama.Ganglia.SumLocks
import Colama.Ganglia.Udp

namespace Colama.Ganglia.Records

open Lib (Table)
open Udp (Bytes lower)

def gmetadFramesize : ℕ := 1572

def maxExtraElements : ℕ := 32

/-- An offset into the strings of a record, with the text of the attribute that it was set from. -/
structure Offset where
  value : ℤ
  text : Option CString

/-- The fields of a record that are offsets, but for the extra elements. -/
inductive Field
  | name | valstr | type | units | slope | source
  deriving DecidableEq

/-- A `Metric_t`, of its buffer the first `stringslen` bytes, and of its arrays the first `ednameslen` and
`edvalueslen`. -/
structure Metric where
  offset : Field → Offset
  ednames : List Offset
  edvalues : List Offset
  strings : Bytes

/-- What `memset` leaves. -/
def Metric.zero : Metric := ⟨fun _ => ⟨0, none⟩, [], [], []⟩

/-- A record in a buffer of full size, with what is left behind its strings. -/
structure Buffer where
  metric : Metric
  behind : Bytes

def Buffer.bytes (buffer : Buffer) : Bytes := buffer.metric.strings ++ buffer.behind

/-- `memcpy`, of a stored record. -/
def Buffer.copy (buffer : Buffer) (metric : Metric) : Buffer := ⟨metric, buffer.bytes.drop metric.strings.length⟩

/-- `addstring`, with the offset that it gives. -/
def addstring (strings : Bytes) (s : CString) : ℤ × Bytes :=
  if strings.length + s.key.length ≤ gmetadFramesize then (strings.length, strings ++ s.key) else (-1, strings)

/-- The name of a string, as `getfield` gives it. -/
def getfield (buf : Bytes) (index : ℤ) : Bytes :=
  if index < 0 then [117, 110, 115, 112, 101, 99, 105, 102, 105, 101, 100] else (buf.drop index.toNat).takeWhile (· ≠ 0)

inductive AttrTag
  | name | val | sum | num | type | units | slope | source
  deriving DecidableEq

/-- The field that `fillmetric` sets from an attribute. -/
def AttrTag.field : AttrTag → Option Field
  | .val | .sum => some .valstr
  | .type => some .type
  | .units => some .units
  | .slope => some .slope
  | .source => some .source
  | .name | .num => none

/-- The attributes of an element that are names, numbers or strings of a record. No attribute is there twice. -/
structure Attributes where
  list : List (AttrTag × CString)
  nodup : (list.map Prod.fst).Nodup

def Attributes.get (attrs : Attributes) (tag : AttrTag) : Option CString :=
  (attrs.list.find? fun a => decide (a.1 = tag)).map Prod.snd

def bytesOf (s : String) : Bytes := s.toList.map fun c => UInt8.ofNat c.toNat

def inTypeList (type : CString) : Option TypeTag :=
  (([("int8", .int), ("uint8", .uint), ("int16", .int), ("uint16", .uint), ("int32", .int), ("uint32", .uint),
    ("float", .float), ("double", .float), ("timestamp", .timestamp), ("string", .string)] : List (String × TypeTag)).find?
      fun t => decide (bytesOf t.1 = type.chars)).map Prod.snd

/-- The loop of `fillmetric`, with whether it got to its end. A value of a type that is not known ends it. -/
@[grind]
def fillLoop (known : Bool) : List (AttrTag × CString) → (Field → Offset) → Bytes → (Field → Offset) × Bytes × Bool
  | [], offset, strings => (offset, strings, true)
  | (tag, s) :: attrs, offset, strings =>
    match tag.field with
    | none => fillLoop known attrs offset strings
    | some field =>
      if field = .valstr ∧ known = false then (offset, strings, false)
      else
        let (value, strings) := addstring strings s
        fillLoop known attrs (Function.update offset field ⟨value, some s⟩) strings

def startOffset : Field → Offset := Function.update Metric.zero.offset .slope ⟨-1, none⟩

/-- `fillmetric`, of a record that is all zeros. `stringslen` is set at its end alone. -/
def fillmetric (attrs : Attributes) (known : Bool) : Buffer :=
  let (offset, strings, finished) := fillLoop known attrs.list startOffset []
  if finished then ⟨{ Metric.zero with offset, strings }, []⟩ else ⟨{ Metric.zero with offset }, strings⟩

def Metric.setName (metric : Metric) (name : CString) : Metric :=
  let (value, strings) := addstring metric.strings name
  { metric with offset := Function.update metric.offset .name ⟨value, some name⟩, strings }

/-- An extra element at the end of a record. -/
def Metric.extend (metric : Metric) (name value : CString) : Metric :=
  let (nameOffset, strings) := addstring metric.strings name
  let (valueOffset, strings) := addstring strings value
  { metric with
    ednames := metric.ednames ++ [⟨nameOffset, some name⟩]
    edvalues := metric.edvalues ++ [⟨valueOffset, some value⟩]
    strings }

def Metric.hasElement (metric : Metric) (name value : CString) : Bool :=
  (metric.ednames.zip metric.edvalues).any fun o =>
    decide ((getfield metric.strings o.1.value).map lower = name.chars.map lower) &&
      decide ((getfield metric.strings o.2.value).map lower = value.chars.map lower)

/-- There is no room for another extra element. -/
def Metric.Full (metric : Metric) : Prop :=
  maxExtraElements ≤ metric.ednames.length ∨ maxExtraElements ≤ metric.edvalues.length

instance (metric : Metric) : Decidable metric.Full := inferInstanceAs (Decidable (_ ∨ _))

/-- Of a `Source_t`, the addresses of its tables. -/
structure Source where
  authority : Option ℕ
  metricSummary : ℕ

/-- Of the `xmldata_t` of a document, what the records depend on. -/
structure XmlData where
  source : Option (Bytes × Source)
  metrics : Option ℕ
  hostAlive : Bool
  gridDepth : ℤ
  metric : Buffer

def XmlData.zero : XmlData := ⟨none, none, false, 0, ⟨.zero, []⟩⟩

/-- The hash tables by their addresses: the metrics of hosts, the summaries (at 0 that of the root) and the hosts of
clusters. -/
structure State where
  metrics : ℕ → Table Bytes Metric
  summaries : ℕ → Table Bytes Metric
  hosts : ℕ → Table Bytes ℕ
  next : ℕ
  root : Table Bytes Source
  xml : XmlData

/-- `null`: a pointer is not set. `overrun`: a write behind the end of an array. -/
inductive Fault
  | null
  | overrun

abbrev Step := Except Fault

def need {α : Type} : Option α → Step α
  | some a => .ok a
  | none => .error .null

namespace State

variable (scalable : Bool) (s : State)

def insertMetric (table : ℕ) (key : Bytes) (metric : Metric) : State :=
  { s with metrics := Function.update s.metrics table ((s.metrics table).insert key metric) }

def insertSummary (table : ℕ) (key : Bytes) (metric : Metric) : State :=
  { s with summaries := Function.update s.summaries table ((s.summaries table).insert key metric) }

/-- `hash_create`, of a summary. -/
def createSummary : State × ℕ :=
  ({ s with summaries := Function.update s.summaries s.next ∅, next := s.next + 1 }, s.next)

def createMetrics : State × ℕ :=
  ({ s with metrics := Function.update s.metrics s.next ∅, next := s.next + 1 }, s.next)

def createHosts : State × ℕ :=
  ({ s with hosts := Function.update s.hosts s.next ∅, next := s.next + 1 }, s.next)

def authorityMode : Bool := decide (s.xml.gridDepth = 0)

def setXml (xml : XmlData) : State := { s with xml }

/-- The source of a grid or a cluster: one of the root, or a new one. -/
def openSource (name : Bytes) (cluster : Bool) : State :=
  match s.root.lookup name with
  | some source => s.setXml { s.xml with source := some (name, source) }
  | none =>
    let (s, authority) := if cluster then s.createHosts.map id some else (s, none)
    let (s, metricSummary) := s.createSummary
    s.setXml { s.xml with source := some (name, ⟨authority, metricSummary⟩) }

def startGrid (name : Option CString) : Step State := do
  if !scalable then return s
  let s ← if s.authorityMode then do
      let name ← need name
      pure (s.openSource name.chars false)
    else pure s
  return s.setXml { s.xml with gridDepth := s.xml.gridDepth + 1 }

def startCluster (name : Option CString) : Step State := do
  if !s.authorityMode then return s
  let name ← need name
  return s.openSource name.chars true

/-- `startElement_HOST`, with the outcome of its test for a live host. -/
def startHost (name : Option CString) (alive : Bool) : Step State := do
  let s := s.setXml { s.xml with hostAlive := alive }
  if !s.authorityMode then return s
  let name ← need name
  let (_, source) ← need s.xml.source
  let hosts ← need source.authority
  match (s.hosts hosts).lookup name.chars with
  | some metrics => return s.setXml { s.xml with metrics := some metrics }
  | none =>
    let (s, metrics) := s.createMetrics
    let s := { s with hosts := Function.update s.hosts hosts ((s.hosts hosts).insert name.chars metrics) }
    return s.setXml { s.xml with metrics := some metrics }

/-- The part of `startElement_METRIC` that updates the summary, for the record in the buffer. -/
def summarize (attrs : Attributes) : Step State := do
  let name ← need (attrs.get .name)
  let (_, source) ← need s.xml.source
  match (s.summaries source.metricSummary).lookup name.chars with
  | none =>
    let buffer := if s.authorityMode then s.xml.metric else fillmetric attrs true
    return (s.setXml { s.xml with metric := buffer }).insertSummary source.metricSummary name.chars buffer.metric
  | some metric =>
    let _ ← need (attrs.get .val)
    return (s.setXml { s.xml with metric := s.xml.metric.copy metric }).insertSummary source.metricSummary name.chars metric

/-- The part that updates the table of the host. -/
def storeMetric (attrs : Attributes) : Step State := do
  if !s.authorityMode then return s
  let name ← need (attrs.get .name)
  let metric := (fillmetric attrs true).metric.setName name
  let metrics ← need s.xml.metrics
  return (s.setXml { s.xml with metric := ⟨metric, []⟩ }).insertMetric metrics name.chars metric

def startMetric (attrs : Attributes) : Step State := do
  if !s.xml.hostAlive then return s
  let s := s.setXml { s.xml with metric := ⟨.zero, []⟩ }
  let type ← need (attrs.get .type)
  match inTypeList type with
  | none => return s
  | some tt =>
    let s ← s.storeMetric attrs
    match tt with
    | .int | .uint | .float => s.summarize attrs
    | .timestamp | .string => return s

/-- The update of the summary in `startElement_EXTRA_ELEMENT`. -/
def extendSummary (key : Bytes) (name value : CString) : Step State := do
  let (_, source) ← need s.xml.source
  match (s.summaries source.metricSummary).lookup key with
  | none => return s
  | some metric =>
    if metric.hasElement name value then return s.insertSummary source.metricSummary key metric
    else if metric.Full then throw .overrun
    else return s.insertSummary source.metricSummary key (metric.extend name value)

/-- The name of the record in the buffer. -/
def metricName : Bytes := getfield s.xml.metric.bytes (s.xml.metric.metric.offset .name).value

def startExtraElement (attrs : Attributes) : Step State := do
  if !s.xml.hostAlive then return s
  if !s.authorityMode then return s
  let metrics ← need s.xml.metrics
  match (s.metrics metrics).lookup s.metricName with
  | none => return s
  | some metric =>
    if maxExtraElements ≤ metric.ednames.length then return s
    match attrs.get .name, attrs.get .val with
    | some name, some value =>
      if metric.Full then throw .overrun
      (s.insertMetric metrics s.metricName (metric.extend name value)).extendSummary s.metricName name value
    | _, _ => return s

def startMetrics (attrs : Attributes) : Step State := do
  if !scalable then return s
  let name ← need (attrs.get .name)
  let (_, source) ← need s.xml.source
  match (s.summaries source.metricSummary).lookup name.chars with
  | none =>
    if (attrs.get .type).isNone ∧ attrs.list.any (fun a => decide (a.1.field = some .valstr)) then throw .null
    let buffer := fillmetric attrs ((attrs.get .type).bind inTypeList).isSome
    return (s.setXml { s.xml with metric := buffer }).insertSummary source.metricSummary name.chars buffer.metric
  | some metric =>
    let s := s.setXml { s.xml with metric := s.xml.metric.copy metric }
    let type ← need (attrs.get .type)
    match inTypeList type with
    | none => return s
    | some tt =>
      if tt ≠ .string ∧ tt ≠ .timestamp then
        let _ ← need (attrs.get .sum)
      let _ ← need (attrs.get .num)
      return s.insertSummary source.metricSummary name.chars metric

def endCluster : Step State := do
  if !s.authorityMode then return s
  let (name, source) ← need s.xml.source
  return { s with root := s.root.insert name source }

def endGrid : Step State := do
  let _ ← need s.xml.source
  (if scalable then s.setXml { s.xml with gridDepth := s.xml.gridDepth - 1 } else s).endCluster

/-- `sum_metrics`, for a record of a summary: a record that the root does not have is copied. -/
def sumMetrics (s : State) (entry : Σ _ : Bytes, Metric) : State :=
  match (s.summaries 0).lookup entry.1 with
  | some _ => s
  | none => s.insertSummary 0 entry.1 entry.2

def doRootSummary (s : State) (name : Bytes) : State :=
  match s.root.lookup name with
  | none => s
  | some source => (s.summaries source.metricSummary).entries.foldl sumMetrics s

end State

/-- What happens: a document begins, the parser calls a handler, a record is too old and is deleted, or the root is
summed up from these sources. -/
inductive Event
  | document
  | grid (name : Option CString)
  | cluster (name : Option CString)
  | host (name : Option CString) (alive : Bool)
  | metric (attrs : Attributes)
  | extraElement (attrs : Attributes)
  | metrics (attrs : Attributes)
  | endGrid
  | endCluster
  | expireMetric (table : ℕ) (key : Bytes)
  | expireSummary (table : ℕ) (key : Bytes)
  | rootSummary (sources : List Bytes)

def State.step (scalable : Bool) (s : State) : Event → Step State
  | .document => .ok (s.setXml .zero)
  | .grid name => s.startGrid scalable name
  | .cluster name => s.startCluster name
  | .host name alive => s.startHost name alive
  | .metric attrs => s.startMetric attrs
  | .extraElement attrs => s.startExtraElement attrs
  | .metrics attrs => s.startMetrics scalable attrs
  | .endGrid => s.endGrid scalable
  | .endCluster => s.endCluster
  | .expireMetric table key => .ok { s with metrics := Function.update s.metrics table ((s.metrics table).erase key) }
  | .expireSummary table key =>
    .ok { s with summaries := Function.update s.summaries table ((s.summaries table).erase key) }
  | .rootSummary sources => .ok (sources.foldl State.doRootSummary s)

def State.initial : State := ⟨fun _ => ∅, fun _ => ∅, fun _ => ∅, 1, ∅, .zero⟩

/-- An offset that was set from an attribute is -1 or the start of its text. -/
def Offset.At (strings : Bytes) (o : Offset) : Prop :=
  ∀ t, o.text = some t → o.value = -1 ∨ ∃ before after, strings = before ++ (t.key ++ after) ∧ o.value = before.length

structure Metric.Bounded (metric : Metric) : Prop where
  lengths : metric.ednames.length = metric.edvalues.length
  elements_le : metric.ednames.length ≤ maxExtraElements
  strings_le : metric.strings.length ≤ gmetadFramesize
  field : ∀ field, (metric.offset field).At metric.strings
  edname : ∀ o ∈ metric.ednames, o.At metric.strings
  edvalue : ∀ o ∈ metric.edvalues, o.At metric.strings

/-- Every record that is stored is in bounds. -/
structure State.Bounded (s : State) : Prop where
  metrics : ∀ table key metric, (s.metrics table).lookup key = some metric → metric.Bounded
  summaries : ∀ table key metric, (s.summaries table).lookup key = some metric → metric.Bounded

/-- The attributes before the first that is a value. -/
def Attributes.early (attrs : Attributes) : List (AttrTag × CString) :=
  attrs.list.takeWhile fun a => decide (a.1.field ≠ some .valstr)

/-- An extra element is in a summary that has no room for another, or is not put into it; and a METRICS element of a
type that is not known, which makes a record of a summary, has no string that fits before its value. -/
def Event.Fits (scalable : Bool) (s : State) : Event → Prop
  | .extraElement attrs =>
    ∀ metrics metric name value source summary, s.xml.hostAlive = true → s.authorityMode = true →
      s.xml.metrics = some metrics → (s.metrics metrics).lookup s.metricName = some metric →
      metric.ednames.length < maxExtraElements → attrs.get .name = some name → attrs.get .val = some value →
      s.xml.source = some source → (s.summaries source.2.metricSummary).lookup s.metricName = some summary →
      summary.ednames.length = maxExtraElements → summary.hasElement name value = true
  | .metrics attrs =>
    ∀ name source type, scalable = true → attrs.get .name = some name → s.xml.source = some source →
      (s.summaries source.2.metricSummary).lookup name.chars = none → attrs.get .type = some type →
      inTypeList type = none → attrs.early ≠ attrs.list → ∀ a ∈ attrs.early, a.1.field ≠ none →
        gmetadFramesize < a.2.key.length
  | _ => True

section Strings

variable {strings : Bytes}

theorem Offset.At.append {o : Offset} (h : o.At strings) (more : Bytes) : o.At (strings ++ more) := by
  intro t ht
  refine (h t ht).imp_right ?_
  rintro ⟨before, after, rfl, hvalue⟩
  exact ⟨before, after ++ more, by simp only [List.append_assoc], hvalue⟩

theorem addstring_spec (s : CString) (hle : strings.length ≤ gmetadFramesize) :
    (∃ more, (addstring strings s).2 = strings ++ more) ∧ (addstring strings s).2.length ≤ gmetadFramesize ∧
      (⟨(addstring strings s).1, some s⟩ : Offset).At (addstring strings s).2 := by
  rw [addstring]
  split
  · rename_i hfit
    refine ⟨⟨s.key, rfl⟩, by rw [List.length_append]; exact hfit, ?_⟩
    rintro t ⟨⟩
    exact .inr ⟨strings, [], by rw [List.append_nil], rfl⟩
  · refine ⟨⟨[], (List.append_nil _).symm⟩, hle, ?_⟩
    rintro t ⟨⟩
    exact .inl rfl

theorem at_update {offset : Field → Offset} {more : Bytes} {o : Offset} (h : ∀ field, (offset field).At strings)
    (ho : o.At (strings ++ more)) (field field' : Field) : (Function.update offset field o field').At (strings ++ more) := by
  rw [Function.update_apply]
  split
  · exact ho
  · exact (h field').append more

theorem Metric.Bounded.setName {metric : Metric} (h : metric.Bounded) (name : CString) : (metric.setName name).Bounded := by
  obtain ⟨⟨more, hmore⟩, hlen, ho⟩ := addstring_spec name h.strings_le
  refine ⟨h.lengths, h.elements_le, hlen, ?_, ?_, ?_⟩
  all_goals rw [Metric.setName]; dsimp only; rw [hmore] at ho ⊢
  · exact at_update h.field ho .name
  · exact fun o hmem => (h.edname o hmem).append more
  · exact fun o hmem => (h.edvalue o hmem).append more

theorem Metric.Bounded.extend {metric : Metric} (h : metric.Bounded) (hfull : ¬metric.Full) (name value : CString) :
    (metric.extend name value).Bounded := by
  obtain ⟨⟨more, hmore⟩, hlen, ho⟩ := addstring_spec name h.strings_le
  obtain ⟨⟨more', hmore'⟩, hlen', ho'⟩ := addstring_spec value hlen
  rw [Metric.Full, not_or, not_le, not_le] at hfull
  have hstrings : (metric.extend name value).strings = metric.strings ++ (more ++ more') := by
    rw [Metric.extend]
    dsimp only
    rw [hmore', hmore, List.append_assoc]
  have hname : (⟨(addstring metric.strings name).1, some name⟩ : Offset).At (metric.strings ++ (more ++ more')) := by
    rw [hmore] at ho
    rw [← List.append_assoc]
    exact ho.append more'
  have hvalue : (⟨(addstring (addstring metric.strings name).2 value).1, some value⟩ : Offset).At
      (metric.strings ++ (more ++ more')) := by
    have hall : metric.strings ++ (more ++ more') = (addstring (addstring metric.strings name).2 value).2 := by
      rw [hmore', hmore, List.append_assoc]
    rw [hall]
    exact ho'
  refine ⟨?_, ?_, hlen', fun field => ?_, fun o hmem => ?_, fun o hmem => ?_⟩
  · show (metric.ednames ++ [_]).length = (metric.edvalues ++ [_]).length
    rw [List.length_append, List.length_append, h.lengths]
    rfl
  · show (metric.ednames ++ [_]).length ≤ maxExtraElements
    rw [List.length_append]
    exact hfull.1
  · rw [hstrings]
    exact (h.field field).append _
  · rw [hstrings]
    rcases List.mem_append.mp hmem with hmem | hmem
    · exact (h.edname o hmem).append _
    · cases List.mem_singleton.mp hmem
      exact hname
  · rw [hstrings]
    rcases List.mem_append.mp hmem with hmem | hmem
    · exact (h.edvalue o hmem).append _
    · cases List.mem_singleton.mp hmem
      exact hvalue

theorem fillLoop_spec (known : Bool) (attrs : List (AttrTag × CString)) {offset : Field → Offset}
    (hle : strings.length ≤ gmetadFramesize) (h : ∀ field, (offset field).At strings) :
    (fillLoop known attrs offset strings).2.1.length ≤ gmetadFramesize ∧
      ∀ field, ((fillLoop known attrs offset strings).1 field).At (fillLoop known attrs offset strings).2.1 := by
  induction attrs generalizing offset strings with
  | nil => exact ⟨hle, h⟩
  | cons a attrs ih =>
    obtain ⟨tag, s⟩ := a
    rw [fillLoop]
    split
    · exact ih hle h
    · rename_i field _
      split
      · exact ⟨hle, h⟩
      · obtain ⟨⟨more, hmore⟩, hlen, ho⟩ := addstring_spec s hle
        dsimp only
        rw [hmore] at hlen ho ⊢
        exact ih hlen (at_update h ho field)

end Strings

section Fill

variable {attrs : List (AttrTag × CString)} {offset : Field → Offset} {strings : Bytes}

theorem zero_at (field : Field) : (startOffset field).At [] := by
  intro t ht
  rw [startOffset, Function.update_apply] at ht
  split at ht <;> cases ht

theorem fillLoop_finished {known : Bool} (h : known = true ∨ ∀ a ∈ attrs, a.1.field ≠ some .valstr) :
    (fillLoop known attrs offset strings).2.2 = true := by
  induction attrs generalizing offset strings with
  | nil => rfl
  | cons a attrs ih =>
    obtain ⟨tag, s⟩ := a
    have h' : known = true ∨ ∀ a ∈ attrs, a.1.field ≠ some .valstr :=
      h.imp_right fun hall a ha => hall a (List.mem_cons_of_mem _ ha)
    rw [fillLoop]
    split
    · exact ih h'
    · rename_i field hfield
      split
      · rename_i hvalue
        rcases h with hknown | hall
        · rw [hvalue.2] at hknown
          cases hknown
        · exact absurd (hvalue.1 ▸ hfield) (hall _ List.mem_cons_self)
      · exact ih h'

theorem fillmetric_bounded {attrs : Attributes} {known : Bool}
    (h : known = true ∨ ∀ a ∈ attrs.list, a.1.field ≠ some .valstr) : (fillmetric attrs known).metric.Bounded := by
  obtain ⟨hlen, hat⟩ := fillLoop_spec known attrs.list (Nat.zero_le _) zero_at
  rw [fillmetric]
  dsimp only
  rw [if_pos (fillLoop_finished h)]
  exact ⟨rfl, Nat.zero_le _, hlen, hat, nofun, nofun⟩

/-- A value of a type that is not known ends the loop. -/
theorem fillLoop_unknown (h : ∃ a ∈ attrs, a.1.field = some .valstr) :
    (fillLoop false attrs offset strings).2.2 = false := by
  induction attrs generalizing offset strings with
  | nil =>
    obtain ⟨a, ha, -⟩ := h
    cases ha
  | cons a attrs ih =>
    obtain ⟨tag, s⟩ := a
    rw [fillLoop]
    split
    · rename_i hnone
      refine ih ?_
      obtain ⟨a, ha, hvalue⟩ := h
      rcases List.mem_cons.mp ha with rfl | ha
      · exact nomatch hnone.symm.trans hvalue
      · exact ⟨a, ha, hvalue⟩
    · rename_i field hfield
      split
      · rfl
      · rename_i hnot
        refine ih ?_
        obtain ⟨a, ha, hvalue⟩ := h
        rcases List.mem_cons.mp ha with rfl | ha
        · cases hfield.symm.trans hvalue
          exact absurd ⟨rfl, rfl⟩ hnot
        · exact ⟨a, ha, hvalue⟩

/-- The attributes before the first value. -/
abbrev earlyOf (attrs : List (AttrTag × CString)) : List (AttrTag × CString) :=
  attrs.takeWhile fun a => decide (a.1.field ≠ some .valstr)

/-- But for the values, no two attributes are of one field. -/
theorem AttrTag.field_inj {tag tag' : AttrTag} {field : Field} (hne : field ≠ .valstr) (h : tag.field = some field)
    (h' : tag'.field = some field) : tag = tag' := by
  cases field with
  | valstr => exact absurd rfl hne
  | name => cases tag <;> cases h
  | type =>
    cases tag <;> cases h
    cases tag' <;> cases h'
    rfl
  | units =>
    cases tag <;> cases h
    cases tag' <;> cases h'
    rfl
  | slope =>
    cases tag <;> cases h
    cases tag' <;> cases h'
    rfl
  | source =>
    cases tag <;> cases h
    cases tag' <;> cases h'
    rfl

/-- A field of no attribute before the first value is as it was. -/
theorem fillLoop_other {field : Field} (h : ∀ a ∈ earlyOf attrs, a.1.field ≠ some field) :
    (fillLoop false attrs offset strings).1 field = offset field := by
  induction attrs generalizing offset strings with
  | nil => rfl
  | cons a attrs ih =>
    obtain ⟨tag, s⟩ := a
    rw [fillLoop]
    split
    · rename_i hnone
      rw [earlyOf, List.takeWhile_cons_of_pos (by simp [hnone])] at h
      exact ih fun a ha => h a (List.mem_cons_of_mem _ ha)
    · rename_i field' hfield
      split
      · rfl
      · rename_i hnot
        have hne : field' ≠ .valstr := fun heq => hnot ⟨heq, rfl⟩
        rw [earlyOf, List.takeWhile_cons_of_pos (by simp [hfield, hne])] at h
        dsimp only
        rw [ih fun a ha => h a (List.mem_cons_of_mem _ ha), Function.update_of_ne]
        rintro rfl
        exact h _ List.mem_cons_self hfield

/-- If no text before the first value fits, no field points to one. -/
theorem fillLoop_none (hfit : ∀ a ∈ earlyOf attrs, a.1.field ≠ none → gmetadFramesize < a.2.key.length)
    (h : ∀ field t, (offset field).text = some t → (offset field).value = -1) (field : Field) (t : CString)
    (ht : ((fillLoop false attrs offset strings).1 field).text = some t) :
    ((fillLoop false attrs offset strings).1 field).value = -1 := by
  induction attrs generalizing offset strings with
  | nil => exact h field t ht
  | cons a attrs ih =>
    obtain ⟨tag, s⟩ := a
    rw [fillLoop] at ht ⊢
    split at ht
    · rename_i hnone
      rw [earlyOf, List.takeWhile_cons_of_pos (by simp [hnone])] at hfit
      exact ih (fun a ha => hfit a (List.mem_cons_of_mem _ ha)) h ht
    · rename_i field' hfield
      split at ht
      · rename_i hvalue
        dsimp only
        rw [if_pos hvalue]
        exact h field t ht
      · rename_i hnot
        have hne : field' ≠ .valstr := fun heq => hnot ⟨heq, rfl⟩
        rw [earlyOf, List.takeWhile_cons_of_pos (by simp [hfield, hne])] at hfit
        dsimp only
        rw [if_neg hnot]
        have hlong := hfit _ List.mem_cons_self (by rw [hfield]; exact nofun)
        have hadd : addstring strings s = (-1, strings) := by
          rw [addstring, if_neg]
          dsimp only at hlong
          omega
        rw [hadd] at ht ⊢
        refine ih (fun a ha => hfit a (List.mem_cons_of_mem _ ha)) (fun field'' t' => ?_) ht
        rw [Function.update_apply]
        split
        · exact fun _ => rfl
        · exact h field'' t'

/-- If one does, a field points to it. -/
theorem fillLoop_some (offset : Field → Offset) (hnodup : (attrs.map Prod.fst).Nodup)
    (hfit : ∃ a ∈ earlyOf attrs, a.1.field ≠ none ∧ a.2.key.length ≤ gmetadFramesize) :
    ∃ field t, (fillLoop false attrs offset []).1 field = ⟨0, some t⟩ := by
  induction attrs generalizing offset with
  | nil =>
    obtain ⟨a, ha, -⟩ := hfit
    cases ha
  | cons a attrs ih =>
    obtain ⟨tag, s⟩ := a
    rw [List.map_cons, List.nodup_cons] at hnodup
    rw [fillLoop]
    split
    · rename_i hnone
      rw [earlyOf, List.takeWhile_cons_of_pos (by simp [hnone])] at hfit
      obtain ⟨a, ha, hsome, hle⟩ := hfit
      rcases List.mem_cons.mp ha with rfl | ha
      · exact absurd hnone hsome
      · exact ih _ hnodup.2 ⟨a, ha, hsome, hle⟩
    · rename_i field hfield
      split
      · rename_i hvalue
        rw [earlyOf, List.takeWhile_cons_of_neg (by simp [hfield, hvalue.1])] at hfit
        obtain ⟨a, ha, -⟩ := hfit
        cases ha
      · rename_i hnot
        have hne : field ≠ .valstr := fun heq => hnot ⟨heq, rfl⟩
        rw [earlyOf, List.takeWhile_cons_of_pos (by simp [hfield, hne])] at hfit
        dsimp only
        by_cases hle : s.key.length ≤ gmetadFramesize
        · -- the text is put at the start, and no other attribute has its field
          have hadd : addstring [] s = (0, s.key) := by
            rw [addstring, if_pos (by simpa using hle)]
            rfl
          refine ⟨field, s, ?_⟩
          rw [hadd, fillLoop_other, Function.update_self]
          intro a ha heq
          have hmem : a.1 ∈ attrs.map Prod.fst := List.mem_map_of_mem ((List.takeWhile_sublist _).subset ha)
          rw [AttrTag.field_inj hne heq hfield] at hmem
          exact hnodup.1 hmem
        · have hadd : addstring [] s = (-1, []) := by
            rw [addstring, if_neg (by simpa using hle)]
          rw [hadd]
          obtain ⟨a, ha, hsome, hle'⟩ := hfit
          rcases List.mem_cons.mp ha with rfl | ha
          · exact absurd hle' hle
          · exact ih _ hnodup.2 ⟨a, ha, hsome, hle'⟩

theorem fillmetric_early {attrs : Attributes} (h : ∃ a ∈ attrs.list, a.1.field = some .valstr) :
    (fillmetric attrs false).metric = { Metric.zero with offset := (fillLoop false attrs.list startOffset []).1 } := by
  rw [fillmetric]
  dsimp only
  rw [if_neg]
  rw [fillLoop_unknown h]
  exact Bool.false_ne_true

theorem startOffset_text (field : Field) (t : CString) (ht : (startOffset field).text = some t) :
    (startOffset field).value = -1 := by
  rw [startOffset, Function.update_apply] at ht
  split at ht <;> cases ht

/-- A record that a value of a type that is not known ends is in bounds if no string before fits. -/
theorem fillmetric_early_bounded {attrs : Attributes} (h : ∃ a ∈ attrs.list, a.1.field = some .valstr) :
    (fillmetric attrs false).metric.Bounded ↔ ∀ a ∈ attrs.early, a.1.field ≠ none → gmetadFramesize < a.2.key.length := by
  rw [fillmetric_early h]
  constructor
  · intro hb
    by_contra hfit
    push Not at hfit
    obtain ⟨field, t, hfield⟩ := fillLoop_some startOffset attrs.nodup hfit
    have hat : ((fillLoop false attrs.list startOffset []).1 field).At [] := hb.field field
    rw [hfield] at hat
    rcases hat t rfl with hvalue | ⟨before, after, hnil, -⟩
    · cases hvalue
    · have hlen := congrArg List.length hnil
      simp [CString.key] at hlen
  · intro hfit
    refine ⟨rfl, Nat.zero_le _, Nat.zero_le _, fun field t ht => .inl ?_, nofun, nofun⟩
    exact fillLoop_none hfit startOffset_text field t ht

theorem early_eq_list {attrs : Attributes} : attrs.early = attrs.list ↔ ¬∃ a ∈ attrs.list, a.1.field = some .valstr := by
  rw [Attributes.early, List.takeWhile_eq_self_iff]
  simp only [decide_eq_true_eq, not_exists, not_and, ne_eq]

end Fill

/-- A step that does not fail by writing behind an array and, if it does not fail, leaves all records in bounds. -/
structure Fine (r : Step State) : Prop where
  not_overrun : r ≠ .error .overrun
  bounded : ∀ s, r = .ok s → s.Bounded

theorem Fine.ok {s : State} (h : s.Bounded) : Fine (.ok s) :=
  ⟨nofun, fun s' hs' => by cases hs'; exact h⟩

theorem fine_null : Fine (.error .null) := ⟨nofun, nofun⟩

theorem fine_bind {r : Step State} {f : State → Step State} (hr : Fine r) (hf : ∀ s, r = .ok s → Fine (f s)) :
    Fine (r >>= f) := by
  cases r with
  | error fault =>
    cases fault with
    | null => exact fine_null
    | overrun => exact absurd rfl hr.not_overrun
  | ok s => exact hf s rfl

theorem fine_need {α : Type} {o : Option α} {f : α → Step State} (h : ∀ a, o = some a → Fine (f a)) :
    Fine (need o >>= f) := by
  cases o with
  | none => exact fine_null
  | some a => exact h a rfl

namespace State

variable {scalable : Bool} {s : State} {table : ℕ} {key : Bytes} {metric : Metric}

theorem Bounded.setXml (h : s.Bounded) (xml : XmlData) : (s.setXml xml).Bounded := ⟨h.metrics, h.summaries⟩

theorem lookup_insert_bounded {t : Table Bytes Metric} (h : ∀ key metric, t.lookup key = some metric → metric.Bounded)
    (hm : metric.Bounded) : ∀ key' metric', (t.insert key metric).lookup key' = some metric' → metric'.Bounded := by
  intro key' metric' hlookup
  by_cases hkey : key' = key
  · subst hkey
    rw [AList.lookup_insert] at hlookup
    cases hlookup
    exact hm
  · rw [AList.lookup_insert_ne hkey] at hlookup
    exact h key' metric' hlookup

theorem lookup_erase_bounded {t : Table Bytes Metric} (h : ∀ key metric, t.lookup key = some metric → metric.Bounded) :
    ∀ key' metric', (t.erase key).lookup key' = some metric' → metric'.Bounded := by
  intro key' metric' hlookup
  by_cases hkey : key' = key
  · subst hkey
    rw [AList.lookup_erase] at hlookup
    cases hlookup
  · rw [AList.lookup_erase_ne hkey] at hlookup
    exact h key' metric' hlookup

theorem update_bounded {tables : ℕ → Table Bytes Metric} {t : Table Bytes Metric}
    (h : ∀ table key metric, (tables table).lookup key = some metric → metric.Bounded)
    (ht : ∀ key metric, t.lookup key = some metric → metric.Bounded) (table : ℕ) :
    ∀ table' key metric, (Function.update tables table t table').lookup key = some metric → metric.Bounded := by
  intro table'
  rw [Function.update_apply]
  split
  · exact ht
  · exact h table'

theorem empty_bounded : ∀ key metric, (∅ : Table Bytes Metric).lookup key = some metric → metric.Bounded := by
  intro key metric hlookup
  rw [AList.lookup_empty] at hlookup
  cases hlookup

theorem Bounded.insertMetric (h : s.Bounded) (hm : metric.Bounded) : (s.insertMetric table key metric).Bounded :=
  ⟨update_bounded h.metrics (lookup_insert_bounded (h.metrics table) hm) table, h.summaries⟩

theorem Bounded.insertSummary (h : s.Bounded) (hm : metric.Bounded) : (s.insertSummary table key metric).Bounded :=
  ⟨h.metrics, update_bounded h.summaries (lookup_insert_bounded (h.summaries table) hm) table⟩

theorem Bounded.openSource (h : s.Bounded) (name : Bytes) (cluster : Bool) : (s.openSource name cluster).Bounded := by
  rw [State.openSource]
  split
  · exact h.setXml _
  · cases cluster with
    | true => exact ⟨h.metrics, update_bounded h.summaries empty_bounded _⟩
    | false => exact ⟨h.metrics, update_bounded h.summaries empty_bounded _⟩

theorem startGrid_fine (h : s.Bounded) (name : Option CString) : Fine (s.startGrid scalable name) := by
  rw [startGrid]
  split
  · exact .ok h
  · split
    · simp only
      exact fine_need fun name _ => .ok ((h.openSource _ _).setXml _)
    · exact .ok (h.setXml _)

theorem startCluster_fine (h : s.Bounded) (name : Option CString) : Fine (s.startCluster name) := by
  rw [startCluster]
  split
  · exact .ok h
  · exact fine_need fun name _ => .ok (h.openSource _ _)

theorem startHost_fine (h : s.Bounded) (name : Option CString) (alive : Bool) : Fine (s.startHost name alive) := by
  rw [startHost]
  dsimp only
  split
  · exact .ok (h.setXml _)
  · refine fine_need fun name _ => fine_need fun source _ => fine_need fun hosts _ => ?_
    split
    · exact .ok ((h.setXml _).setXml _)
    · exact .ok ⟨update_bounded h.metrics empty_bounded _, h.summaries⟩

theorem summarize_fine (h : s.Bounded) (attrs : Attributes)
    (hm : s.authorityMode = true → s.xml.metric.metric.Bounded) : Fine (s.summarize attrs) := by
  rw [summarize]
  refine fine_need fun name _ => fine_need fun source _ => ?_
  obtain ⟨_, source⟩ := source
  dsimp only
  split
  · refine .ok ((h.setXml _).insertSummary ?_)
    split
    · rename_i hauthority
      exact hm hauthority
    · exact fillmetric_bounded (.inl rfl)
  · rename_i metric hlookup
    exact fine_need fun _ _ => .ok ((h.setXml _).insertSummary (h.summaries _ _ _ hlookup))

theorem storeMetric_fine (h : s.Bounded) (attrs : Attributes) : Fine (s.storeMetric attrs) := by
  rw [storeMetric]
  split
  · exact .ok h
  · refine fine_need fun name _ => fine_need fun metrics _ => .ok ?_
    exact (h.setXml _).insertMetric ((fillmetric_bounded (.inl rfl)).setName name)

theorem storeMetric_buffer {attrs : Attributes} {s' : State} (hs' : s.storeMetric attrs = .ok s')
    (hauthority : s'.authorityMode = true) : s'.xml.metric.metric.Bounded := by
  rw [storeMetric] at hs'
  split at hs'
  · rename_i hnot
    cases hs'
    rw [hauthority] at hnot
    cases hnot
  · cases hname : attrs.get .name with
    | none =>
      rw [hname] at hs'
      cases hs'
    | some name =>
      cases hmetrics : s.xml.metrics with
      | none =>
        rw [hname, hmetrics] at hs'
        cases hs'
      | some metrics =>
        rw [hname, hmetrics] at hs'
        cases hs'
        exact (fillmetric_bounded (.inl rfl)).setName name

theorem startMetric_fine (h : s.Bounded) (attrs : Attributes) : Fine (s.startMetric attrs) := by
  rw [startMetric]
  split
  · exact .ok h
  · refine fine_need fun type _ => ?_
    split
    · exact .ok (h.setXml _)
    · refine fine_bind (storeMetric_fine (h.setXml _) attrs) fun s' hs' => ?_
      have hb := (storeMetric_fine (h.setXml _) attrs).bounded s' hs'
      split
      · exact summarize_fine hb attrs (storeMetric_buffer hs')
      · exact summarize_fine hb attrs (storeMetric_buffer hs')
      · exact summarize_fine hb attrs (storeMetric_buffer hs')
      · exact .ok hb
      · exact .ok hb

theorem extendSummary_fine (h : s.Bounded) (name value : CString)
    (hfits : ∀ source summary, s.xml.source = some source → (s.summaries source.2.metricSummary).lookup key = some summary →
      summary.ednames.length = maxExtraElements → summary.hasElement name value = true) :
    Fine (s.extendSummary key name value) := by
  rw [extendSummary]
  refine fine_need fun source hsource => ?_
  obtain ⟨_, source⟩ := source
  dsimp only
  split
  · exact .ok h
  · rename_i summary hsummary
    have hb := h.summaries _ _ _ hsummary
    split
    · exact .ok (h.insertSummary hb)
    · rename_i hhas
      have hnotFull : ¬summary.Full := by
        intro hfull
        rw [Metric.Full, ← hb.lengths, or_self] at hfull
        exact hhas (hfits _ _ hsource hsummary (le_antisymm hb.elements_le hfull))
      rw [if_neg hnotFull]
      exact .ok (h.insertSummary (hb.extend hnotFull name value))

theorem startExtraElement_fine (h : s.Bounded) {attrs : Attributes} (hfits : (Event.extraElement attrs).Fits scalable s) :
    Fine (s.startExtraElement attrs) := by
  rw [startExtraElement]
  split
  · exact .ok h
  · rename_i halive
    split
    · exact .ok h
    · rename_i hauthority
      refine fine_need fun metrics hmetrics => ?_
      split
      · exact .ok h
      · rename_i metric hmetric
        have hb := h.metrics _ _ _ hmetric
        split
        · exact .ok h
        · rename_i hroom
          split
          · rename_i name value hname hvalue
            have hnotFull : ¬metric.Full := by
              rw [Metric.Full, ← hb.lengths, or_self]
              exact hroom
            rw [if_neg hnotFull]
            refine extendSummary_fine (h.insertMetric (hb.extend hnotFull name value)) name value ?_
            intro source summary hsource hsummary hfull
            exact hfits metrics metric name value source summary (by simpa using halive) (by simpa using hauthority) hmetrics
              hmetric (not_le.mp hroom) hname hvalue hsource hsummary hfull
          · exact .ok h

theorem startMetrics_fine (h : s.Bounded) {attrs : Attributes} (hfits : (Event.metrics attrs).Fits scalable s) :
    Fine (s.startMetrics scalable attrs) := by
  rw [startMetrics]
  split
  · exact .ok h
  · rename_i hscalable
    refine fine_need fun name hname => fine_need fun source hsource => ?_
    obtain ⟨_, source⟩ := source
    dsimp only
    split
    · rename_i hlookup
      split
      · exact fine_null
      · rename_i htype
        refine .ok ((h.setXml _).insertSummary ?_)
        cases hknown : ((attrs.get .type).bind inTypeList).isSome with
        | true => exact fillmetric_bounded (.inl rfl)
        | false =>
          by_cases hval : ∃ a ∈ attrs.list, a.1.field = some .valstr
          · have hany : attrs.list.any (fun a => decide (a.1.field = some .valstr)) = true := by
              simpa using hval
            cases htypeOf : attrs.get .type with
            | none => exact absurd ⟨by rw [htypeOf]; rfl, hany⟩ htype
            | some type =>
              rw [htypeOf, Option.bind_some, Option.isSome_eq_false_iff, Option.isNone_iff_eq_none] at hknown
              exact (fillmetric_early_bounded hval).mpr (hfits name _ type (by simpa using hscalable) hname hsource hlookup
                htypeOf hknown fun heq => early_eq_list.mp heq hval)
          · push Not at hval
            exact fillmetric_bounded (.inr hval)
    · rename_i metric hlookup
      have hb := h.summaries _ _ _ hlookup
      refine fine_need fun type _ => ?_
      split
      · exact .ok (h.setXml _)
      · split
        · exact fine_need fun _ _ => fine_need fun _ _ => .ok ((h.setXml _).insertSummary hb)
        · exact fine_need fun _ _ => .ok ((h.setXml _).insertSummary hb)

theorem endCluster_fine (h : s.Bounded) : Fine s.endCluster := by
  rw [endCluster]
  split
  · exact .ok h
  · exact fine_need fun source _ => .ok ⟨h.metrics, h.summaries⟩

theorem endGrid_fine (h : s.Bounded) : Fine (s.endGrid scalable) := by
  rw [endGrid]
  refine fine_need fun source _ => ?_
  split
  · exact endCluster_fine (h.setXml _)
  · exact endCluster_fine h

theorem Bounded.doRootSummary (h : s.Bounded) (name : Bytes) : (s.doRootSummary name).Bounded := by
  have hfold : ∀ (entries : List (Σ _ : Bytes, Metric)) (s : State), s.Bounded → (∀ e ∈ entries, e.2.Bounded) →
      (entries.foldl sumMetrics s).Bounded := by
    intro entries
    induction entries with
    | nil => exact fun s hs _ => hs
    | cons e entries ih =>
      intro s hs hentries
      obtain ⟨he, hentries'⟩ := List.forall_mem_cons.mp hentries
      refine ih _ ?_ hentries'
      rw [sumMetrics]
      split
      · exact hs
      · exact hs.insertSummary he
  rw [State.doRootSummary]
  split
  · exact h
  · refine hfold _ s h fun e he => ?_
    exact h.summaries _ e.1 e.2 (AList.mem_lookup_iff.mpr he)

theorem Bounded.rootSummary (h : s.Bounded) (sources : List Bytes) : (sources.foldl State.doRootSummary s).Bounded := by
  induction sources generalizing s with
  | nil => exact h
  | cons name sources ih => exact ih (h.doRootSummary name)

/-- An event that fits keeps the records in bounds. -/
theorem step_fine (h : s.Bounded) {event : Event} (hfits : event.Fits scalable s) : Fine (s.step scalable event) := by
  cases event with
  | document => exact .ok (h.setXml _)
  | grid name => exact startGrid_fine h name
  | cluster name => exact startCluster_fine h name
  | host name alive => exact startHost_fine h name alive
  | metric attrs => exact startMetric_fine h attrs
  | extraElement attrs => exact startExtraElement_fine h hfits
  | metrics attrs => exact startMetrics_fine h hfits
  | endGrid => exact endGrid_fine h
  | endCluster => exact endCluster_fine h
  | expireMetric table key => exact .ok ⟨update_bounded h.metrics (lookup_erase_bounded (h.metrics table)) table, h.summaries⟩
  | expireSummary table key =>
    exact .ok ⟨h.metrics, update_bounded h.summaries (lookup_erase_bounded (h.summaries table)) table⟩
  | rootSummary sources => exact .ok (h.rootSummary sources)

theorem need_some {α : Type} (a : α) (f : α → Step State) : (need (some a) >>= f) = f a := rfl

theorem startExtraElement_overrun (h : s.Bounded) {attrs : Attributes}
    (hfits : ¬(Event.extraElement attrs).Fits scalable s) : s.startExtraElement attrs = .error .overrun := by
  rw [Event.Fits] at hfits
  push Not at hfits
  obtain ⟨metrics, metric, name, value, source, summary, halive, hauthority, hmetrics, hmetric, hroom, hname, hvalue, hsource,
    hsummary, hfull, hhas⟩ := hfits
  obtain ⟨_, source⟩ := source
  have hb := h.metrics _ _ _ hmetric
  have hnotFull : ¬metric.Full := by
    rw [Metric.Full, ← hb.lengths, or_self]
    exact not_le.mpr hroom
  have hsummaryFull : summary.Full := .inl hfull.ge
  rw [startExtraElement, halive, hauthority, if_neg (by decide), if_neg (by decide), hmetrics, need_some, hmetric]
  dsimp only
  rw [if_neg (not_le.mpr hroom), hname, hvalue]
  dsimp only
  rw [if_neg hnotFull, extendSummary]
  show (need s.xml.source >>= _) = _
  rw [hsource, need_some]
  show (match (s.summaries source.metricSummary).lookup s.metricName with
    | none => _
    | some metric => _) = _
  rw [hsummary]
  dsimp only
  rw [if_neg hhas, if_pos hsummaryFull]
  rfl

theorem startMetrics_not_bounded {attrs : Attributes} (hfits : ¬(Event.metrics attrs).Fits scalable s) :
    ∃ s', s.startMetrics scalable attrs = .ok s' ∧ ¬s'.Bounded := by
  rw [Event.Fits] at hfits
  push Not at hfits
  obtain ⟨name, source, type, hscalable, hname, hsource, hlookup, htype, hunknown, hearly, a, ha, hfield, hfit⟩ := hfits
  obtain ⟨_, source⟩ := source
  have hval : ∃ a ∈ attrs.list, a.1.field = some .valstr := by
    by_contra hnot
    exact hearly (early_eq_list.mpr hnot)
  rw [startMetrics, hscalable, if_neg (by decide), hname, need_some, hsource, need_some]
  dsimp only
  rw [hlookup]
  dsimp only
  rw [htype, Option.bind_some, hunknown, if_neg (by simp)]
  refine ⟨_, rfl, fun hb => ?_⟩
  have hlookup' := hb.summaries source.metricSummary name.chars (fillmetric attrs false).metric (by
    show (Function.update s.summaries source.metricSummary _ source.metricSummary).lookup name.chars = _
    rw [Function.update_self, AList.lookup_insert]
    rfl)
  exact absurd ((fillmetric_early_bounded hval).mp hlookup' a ha hfield) (not_lt.mpr hfit)

end State

/-- All records are in bounds as long as the events fit. -/
theorem records_safe_iff (scalable : Bool) (events : List Event) :
    Lib.Safe (State.step scalable) State.Bounded .overrun events .initial ↔
      Lib.Along (State.step scalable) (fun s event => event.Fits scalable s) events .initial := by
  refine Lib.safe_iff_along_of_bad State.Bounded (fun _ h => h) (fun s event h hfits => ?_) (fun s event h hfits => ?_) ?_
  · exact ⟨(State.step_fine h hfits).not_overrun, (State.step_fine h hfits).bounded⟩
  · cases event with
    | extraElement attrs => exact .inl (State.startExtraElement_overrun h hfits)
    | metrics attrs => exact .inr (State.startMetrics_not_bounded hfits)
    | _ => exact absurd trivial hfits
  · exact ⟨fun _ => State.empty_bounded, fun _ => State.empty_bounded⟩

def text (s : String) (h : ∀ c ∈ bytesOf s, c ≠ 0) : CString := ⟨bytesOf s, h⟩

def nameAndValue (name value : CString) : Attributes := ⟨[(.name, name), (.val, value)], by simp⟩

/-- As many times the character `a`. -/
def times (n : ℕ) : CString where
  chars := List.replicate n 97
  nonzero c hc := by
    rw [List.eq_of_mem_replicate hc]
    decide

def int32Metric : Attributes where
  list := [(.name, text "m" (by decide +kernel)), (.val, text "1" (by decide +kernel)), (.type, text "int32" (by decide +kernel))]
  nodup := by decide

/-- Two hosts of a cluster with one metric, which has `n` extra elements at the first and another one at the second. -/
def twoHosts (n : ℕ) : List Event :=
  [.document, .cluster (some (text "c" (by decide +kernel))), .host (some (text "h" (by decide +kernel))) true, .metric int32Metric] ++
    (List.range n).map (fun i => .extraElement (nameAndValue (text "n" (by decide +kernel)) (times i))) ++
    [.host (some (text "i" (by decide +kernel))) true, .metric int32Metric, .extraElement (nameAndValue (text "n" (by decide +kernel)) (times n))]

def overruns : Step State → Bool
  | .error .overrun => true
  | _ => false

theorem eq_overrun {r : Step State} (h : overruns r = true) : r = .error .overrun := by
  cases r with
  | ok s => cases h
  | error fault =>
    cases fault with
    | null => cases h
    | overrun => rfl

/-- The summary of the metric gets 33 extra elements, of which a host has 32 and the other one. -/
theorem not_records_safe : ¬Lib.Safe (State.step false) State.Bounded .overrun (twoHosts 32) .initial :=
  fun hsafe => hsafe.foldlM_ne (eq_overrun (by decide +kernel))

end Colama.Ganglia.Records
