import Colama.Ganglia.HashSpec

namespace Colama.Ganglia.Server

abbrev Bytes := List UInt8

def bytesOf (s : String) : Bytes := s.toList.map fun c => UInt8.ofNat c.toNat

/-- `%u`. -/
def decimal (n : ℕ) : Bytes := bytesOf (toString n)

inductive Tag
  | grid | cluster | host | metric
  deriving DecidableEq

def Tag.name : Tag → Bytes
  | .grid => bytesOf "GRID"
  | .cluster => bytesOf "CLUSTER"
  | .host => bytesOf "HOST"
  | .metric => bytesOf "METRIC"

abbrev Attributes := List (String × Bytes)

/-- The bytes between the name of a start tag and its end. Nothing in a value is escaped. -/
def Attributes.bytes (attrs : Attributes) : Bytes :=
  attrs.flatMap fun a => bytesOf (" " ++ a.1 ++ "=\"") ++ a.2 ++ bytesOf "\""

/-- What a print is made of: the tags of the four elements, and all the rest. -/
inductive Item
  | opening (tag : Tag) (attrs : Attributes)
  | closing (tag : Tag)
  | text (bytes : Bytes)

def Item.bytes : Item → Bytes
  | .opening tag attrs => bytesOf "<" ++ tag.name ++ attrs.bytes ++ bytesOf ">\n"
  | .closing tag => bytesOf "</" ++ tag.name ++ bytesOf ">\n"
  | .text bytes => bytes

def Item.empty (name : String) (attrs : Attributes) : Item :=
  .text (bytesOf ("<" ++ name) ++ attrs.bytes ++ bytesOf "/>\n")

/-- How a `write` of the socket ends. A short one takes that many bytes, if there are more. -/
inductive Write
  | complete
  | short (n : ℕ)
  | failing

/-- The bytes that a `write` takes. -/
def Write.taken : Write → Bytes → Bytes
  | .complete, buf => buf
  | .short n, buf => buf.take n
  | .failing, _ => []

inductive Filter
  | noFilter
  | summary
  deriving DecidableEq

/-- A `client_t`, with the bytes that the client has received and the number of writes. The behaviour is undefined if a
number did not fit in `sum` or if `sum` was printed without one. -/
structure Client where
  valid : Bool
  filter : Filter
  now : ℤ
  received : Bytes
  writes : ℕ
  undefined : Bool

abbrev Pattern := ℕ → Write

/-- `xml_print`. What `vsnprintf` cuts off is not noticed, and a short write is no error. -/
def xmlPrint (w : Pattern) (items : List Item) (client : Client) : Client × Bool :=
  if client.valid = false then (client, true)
  else
    let buf := (items.flatMap Item.bytes).take 4095
    match w client.writes with
    | .failing => ({ client with valid := false, writes := client.writes + 1 }, true)
    | write => ({ client with received := client.received ++ write.taken buf, writes := client.writes + 1 }, false)

/-- The 256 bytes of `sum` do not hold the text with its NUL, or there is no text. -/
def badSum (text : Option Bytes) : Bool := text.all fun text => decide (256 < text.length + 1)

/-- The `switch` that sets `sum`. -/
def setSum (text : Option Bytes) (client : Client) : Client :=
  { client with undefined := client.undefined || badSum text }

abbrev Action := Client → Client × Bool

/-- A table of the tree. -/
structure Children (V : Type) where
  table : Hash V
  placed : table.Placed

/-- `hash_foreach`, of a function that leaves the values alone. -/
def hashForeach {V : Type} (h : Hash V) (func : Datum → V → Action) : Action := fun client =>
  ((h.foreach (fun key val client => some (val, func key val client)) client).map fun r => r.2).getD (client, false)

inductive MetricType
  | int | uint | float | timestamp | string
  deriving DecidableEq

def inTypeList (type : Bytes) : Option MetricType :=
  (([("int8", .int), ("uint8", .uint), ("int16", .int), ("uint16", .uint), ("int32", .int), ("uint32", .uint),
    ("float", .float), ("double", .float), ("timestamp", .timestamp), ("string", .string)] :
      List (String × MetricType)).find? fun t => decide (bytesOf t.1 = type)).map Prod.snd

/-- A `Metric_t`, its strings as `getfield` gives them. `val` is the text of the number, without decimals or with
`precision` of them. -/
structure Metric where
  t0 : ℤ
  val : Bool → Bytes
  valstr : Bytes
  num : UInt32
  type : Bytes
  units : Bytes
  tmax : UInt32
  dmax : UInt32
  slope : Bytes
  source : Bytes
  extra : List (Bytes × Bytes)

structure Host where
  metrics : Children Metric
  t0 : ℤ
  ip : Bytes
  tmax : UInt32
  dmax : UInt32
  location : Bytes
  reported : UInt32
  started : UInt32

structure Summary where
  hostsUp : UInt32
  hostsDown : UInt32
  metricSummary : Hash Metric

inductive NodeType
  | root | grid | cluster | host | metric
  deriving DecidableEq

/-- A `Source_t` of a grid or a cluster. -/
structure Source where
  cluster : Bool
  authority : Option (Children Host)
  authorityPtr : Bytes
  summary : Summary
  localtime : UInt32
  owner : Bytes
  latlong : Bytes
  url : Bytes

structure Root where
  authority : Children Source
  authorityPtr : Bytes
  summary : Summary

/-- The name in a key. -/
def nameOf (key : Datum) : Bytes := key.takeWhile (· ≠ 0)

/-- `tn`, printed as an unsigned number. -/
def tnOf (now t0 : ℤ) : Bytes := decimal ((max 0 (now - t0)) % 2 ^ 32).toNat

def extraElement (element : Bytes × Bytes) : Item := .empty "EXTRA_ELEMENT" [("NAME", element.1), ("VAL", element.2)]

/-- The loop over the extra elements. -/
def printExtra (w : Pattern) : List (Bytes × Bytes) → Bool → Client → Client
  | [], _, client => client
  | element :: elements, rc, client =>
    if rc then client
    else
      let (client, rc) := xmlPrint w [extraElement element] client
      printExtra w elements rc client

def extraData (w : Pattern) (metric : Metric) (closing : Item) : Action := fun client =>
  let (client, rc) := xmlPrint w [.text (bytesOf "<EXTRA_DATA>\n")] client
  let client := printExtra w metric.extra rc client
  let (client, _) := xmlPrint w [.text (bytesOf "</EXTRA_DATA>\n")] client
  xmlPrint w [closing] client

def Metric.sumText (metric : Metric) : MetricType → Option Bytes
  | .int | .uint => some (metric.val false)
  | .float => some (metric.val true)
  | .timestamp | .string => none

def metricsItem (key : Datum) (metric : Metric) (sum : Bytes) : Item :=
  .text (bytesOf "<METRICS" ++ Attributes.bytes [("NAME", nameOf key), ("SUM", sum), ("NUM", decimal metric.num.toNat),
    ("TYPE", bytesOf "double"), ("UNITS", metric.units), ("SLOPE", metric.slope), ("SOURCE", metric.source)] ++
    bytesOf ">\n")

def metricSummary (w : Pattern) (key : Datum) (metric : Metric) : Action := fun client =>
  match inTypeList metric.type with
  | none => (client, false)
  | some type =>
    let sum := metric.sumText type
    let client := setSum sum client
    let (client, _) := xmlPrint w [metricsItem key metric (sum.getD [])] client
    extraData w metric (.text (bytesOf "</METRICS>\n")) client

def hostsItem (summary : Summary) : Item :=
  .empty "HOSTS" [("UP", decimal summary.hostsUp.toNat), ("DOWN", decimal summary.hostsDown.toNat),
    ("SOURCE", bytesOf "gmetad")]

def sourceSummary (w : Pattern) (summary : Summary) : Action := fun client =>
  let (client, rc) := xmlPrint w [hostsItem summary] client
  if rc then (client, true) else hashForeach summary.metricSummary (metricSummary w) client

def metricAttributes (now : ℤ) (key : Datum) (metric : Metric) : Attributes :=
  [("NAME", nameOf key), ("VAL", metric.valstr), ("TYPE", metric.type), ("UNITS", metric.units),
    ("TN", tnOf now metric.t0), ("TMAX", decimal metric.tmax.toNat), ("DMAX", decimal metric.dmax.toNat),
    ("SLOPE", metric.slope), ("SOURCE", metric.source)]

def metricReportStart (w : Pattern) (key : Datum) (metric : Metric) : Action := fun client =>
  let (client, _) := xmlPrint w [.opening .metric (metricAttributes client.now key metric)] client
  extraData w metric (.closing .metric) client

def hostAttributes (now : ℤ) (key : Datum) (host : Host) : Attributes :=
  [("NAME", nameOf key), ("IP", host.ip), ("REPORTED", decimal host.reported.toNat), ("TN", tnOf now host.t0),
    ("TMAX", decimal host.tmax.toNat), ("DMAX", decimal host.dmax.toNat), ("LOCATION", host.location),
    ("GMOND_STARTED", decimal host.started.toNat)]

def hostReportStart (w : Pattern) (key : Datum) (host : Host) : Action := fun client =>
  xmlPrint w [.opening .host (hostAttributes client.now key host)] client

def Source.tag (source : Source) : Tag := if source.cluster then .cluster else .grid

def sourceAttributes (key : Datum) (source : Source) : Attributes :=
  if source.cluster then
    [("NAME", nameOf key), ("LOCALTIME", decimal source.localtime.toNat), ("OWNER", source.owner),
      ("LATLONG", source.latlong), ("URL", source.url)]
  else
    [("NAME", nameOf key), ("AUTHORITY", source.authorityPtr), ("LOCALTIME", decimal source.localtime.toNat)]

def sourceReportStart (w : Pattern) (key : Datum) (source : Source) : Action :=
  xmlPrint w [.opening source.tag (sourceAttributes key source)]

/-- What a node of a level is, as a `Generic_t` has it. Those of the root have no functions for their tags. -/
structure Methods (α β : Type) where
  id : α → NodeType
  reportStart : Datum → α → Option Action
  reportEnd : α → Option Action
  summary : α → Option Summary
  children : α → Option (Children β)

def metricMethods (w : Pattern) : Methods Metric PEmpty where
  id _ := .metric
  reportStart key metric := some (metricReportStart w key metric)
  reportEnd _ := some fun client => (client, false)
  summary _ := none
  children _ := none

def hostMethods (w : Pattern) : Methods Host Metric where
  id _ := .host
  reportStart key host := some (hostReportStart w key host)
  reportEnd _ := some (xmlPrint w [.closing .host])
  summary _ := none
  children host := some host.metrics

def sourceMethods (w : Pattern) : Methods Source Host where
  id source := if source.cluster then .cluster else .grid
  reportStart key source := some (sourceReportStart w key source)
  reportEnd source := some (xmlPrint w [.closing source.tag])
  summary source := some source.summary
  children source := source.authority

def rootMethods : Methods Root Source where
  id _ := .root
  reportStart _ _ := none
  reportEnd _ := none
  summary root := some root.summary
  children root := some root.authority

def applicable : Filter → NodeType → Bool
  | .noFilter, _ => true
  | .summary, id => decide (id = .root) || decide (id = .cluster) || decide (id = .grid)

/-- The filter of a node. Grids are always summarized. -/
def filterFor (filter : Filter) (id : NodeType) : Filter := if id = .grid then .summary else filter

section

variable {α β : Type} (w : Pattern) (methods : Methods α β)

/-- `applyfilter`. Only the nodes to which the summary applies are a `Source_t`. -/
def applyfilter (node : α) : Action := fun client =>
  let f := filterFor client.filter (methods.id node)
  if applicable f (methods.id node) = false then (client, true)
  else match f with
    | .noFilter => (client, false)
    | .summary => (methods.summary node).elim (client, false) fun summary => sourceSummary w summary client

/-- The walk over the children of a node, with what is done with each of them. -/
def reportChildren (report : Datum → β → Action) (node : α) : Action := fun client =>
  match methods.children node with
  | some children => hashForeach children.table report client
  | none => (client, false)

/-- A function of a node, if there is one. -/
def perform : Option Action → Action
  | some action => action
  | none => fun client => (client, false)

/-- `tree_report`, with what it does for the nodes below. -/
def treeReport (report : Datum → β → Action) (key : Datum) (node : α) : Action := fun client =>
  if client.filter ≠ .noFilter ∧ applicable client.filter (methods.id node) = false then (client, true)
  else
    let (client, rc) := perform (methods.reportStart key node) client
    if rc then (client, true)
    else
      let (client, _) := applyfilter w methods node client
      let (client, _) := reportChildren methods report node client
      perform (methods.reportEnd node) client

/-- The base case of `process_path`. -/
def showSubtree (report : Datum → β → Action) (node : α) : Action := fun client =>
  let (client, _) := applyfilter w methods node client
  let (client, _) := reportChildren methods report node client
  (client, false)

/-- The subtree body of `process_path`. -/
def processBody (report : Datum → β → Action) (descend : Bytes → Datum → β → Action) (path : Bytes) (node : α) :
    Action := fun client =>
  match methods.children node, path.tail with
  | some children, p@(_ :: _) =>
    let element := p.takeWhile (· ≠ 47)
    match children.table.lookup (element ++ [0]) with
    | some found => descend (p.dropWhile (· ≠ 47)) (element ++ [0]) found client
    | none => showSubtree w methods report node client
  | _, _ => showSubtree w methods report node client

/-- `process_path`, with what it does at the node that it has found. -/
def processPath (report : Datum → β → Action) (descend : Bytes → Datum → β → Action) (path : Bytes) (key : Datum)
    (node : α) : Action := fun client =>
  let (client, rc) := perform (methods.reportStart key node) client
  if rc then (client, true)
  else
    let (client, rc) := processBody w methods report descend path node client
    if rc then (client, true) else perform (methods.reportEnd node) client

end

section

variable (w : Pattern)

def reportMetric : Datum → Metric → Action := treeReport w (metricMethods w) fun _ => nofun

def reportHost : Datum → Host → Action := treeReport w (hostMethods w) (reportMetric w)

def reportSource : Datum → Source → Action := treeReport w (sourceMethods w) (reportHost w)

def metricPath : Bytes → Datum → Metric → Action :=
  processPath w (metricMethods w) (fun _ => nofun) fun _ _ => nofun

def hostPath : Bytes → Datum → Host → Action := processPath w (hostMethods w) (reportMetric w) (metricPath w)

def sourcePath : Bytes → Datum → Source → Action := processPath w (sourceMethods w) (reportHost w) (hostPath w)

def rootPath (path : Bytes) (root : Root) : Action :=
  processPath w rootMethods (reportSource w) (sourcePath w) path [] root

end

/-- What the reply depends on beside the tree: the constants `DTD` and `VERSION`, the name of the grid, and `time`. -/
structure Config where
  dtd : Bytes
  version : Bytes
  gridname : Bytes
  time : UInt32

def preambleItem (config : Config) : Item :=
  .text (bytesOf "<GANGLIA_XML" ++ Attributes.bytes [("VERSION", config.version), ("SOURCE", bytesOf "gmetad")] ++
    bytesOf ">\n")

def rootAttributes (config : Config) (root : Root) : Attributes :=
  [("NAME", config.gridname), ("AUTHORITY", root.authorityPtr), ("LOCALTIME", decimal config.time.toNat)]

def rootReportStart (w : Pattern) (config : Config) (root : Root) : Action := fun client =>
  let (client, rc) := xmlPrint w [.text config.dtd] client
  if rc then (client, true)
  else
    let (client, _) := xmlPrint w [preambleItem config] client
    xmlPrint w [.opening .grid (rootAttributes config root)] client

def rootReportEnd (w : Pattern) : Action :=
  xmlPrint w [.closing .grid, .text (bytesOf "</GANGLIA_XML>\n")]

/-- `processfilter`, of what is behind the question mark. There is no result if there is no equals sign. -/
def processfilter (filter : Bytes) : Option Filter :=
  match filter.dropWhile (· ≠ 61) with
  | [] => none
  | _ :: p => some (if p = bytesOf "summary" then .summary else .noFilter)

/-- `process_request`: the path and the filter of a request that is not malformed. -/
def processRequest (path : Bytes) : Option (Bytes × Filter) :=
  if path.head? ≠ some 47 then none
  else if path.any fun b => decide (b ∈ bytesOf ">!@#$%`;|\"\\'<") then none
  else match path.dropWhile (· ≠ 63) with
    | [] => some (path, .noFilter)
    | _ :: filter => (processfilter filter).map fun f => (path.takeWhile (· ≠ 63), f)

def requestlen : ℕ := 2048

/-- `readline`, of the bytes that come until the end, or none if the line is too long. -/
def readline (input : Bytes) : Option Bytes :=
  let line := (input.take requestlen).takeWhile fun c => decide (c ≠ 10 ∧ c ≠ 13)
  if line.length = requestlen then none else some line

/-- What a client asks for. At the socket that is not interactive nothing is read. -/
inductive Request
  | everything
  | line (input : Bytes)

/-- The path and the filter of a request, if it is served. -/
def Request.parse : Request → Option (Bytes × Filter)
  | .everything => some ([47], .noFilter)
  | .line input => (readline input).bind fun line => processRequest (line.takeWhile (· ≠ 0))

/-- What `server_thread` does for a client that it trusts. -/
def serve (config : Config) (root : Root) (request : Request) (now : ℤ) (w : Pattern) : Client :=
  let client : Client := ⟨true, .noFilter, now, [], 0, false⟩
  match request.parse with
  | none => client
  | some (path, filter) =>
    let (client, rc) := rootReportStart w config root { client with filter }
    if rc then client
    else
      let (client, rc) := rootPath w path root client
      if rc then client else (rootReportEnd w client).1

/-- What a reply is printed by. -/
inductive Step
  | sum (text : Option Bytes)
  | print (items : List Item)

def Step.items : Step → List Item
  | .sum _ => []
  | .print items => items

def Step.bytes (step : Step) : Bytes := step.items.flatMap Item.bytes

/-- A node with its key. -/
inductive Node
  | root (root : Root)
  | source (key : Datum) (source : Source)
  | host (key : Datum) (host : Host)
  | metric (key : Datum) (metric : Metric)

namespace Node

@[grind] def key : Node → Datum
  | .root _ => []
  | .source key _ | .host key _ | .metric key _ => key

def id : Node → NodeType
  | .root _ => .root
  | .source _ val => if val.cluster then .cluster else .grid
  | .host _ _ => .host
  | .metric _ _ => .metric

def children : Node → List Node
  | .root val => val.authority.table.pairs.map fun p => .source p.1 p.2
  | .source _ val => val.authority.elim [] fun hosts => hosts.table.pairs.map fun p => .host p.1 p.2
  | .host _ val => val.metrics.table.pairs.map fun p => .metric p.1 p.2
  | .metric _ _ => []

/-- The child of a node with that name. -/
def child? (node : Node) (name : Bytes) : Option Node := node.children.find? fun c => decide (c.key = name ++ [0])

/-- The nodes from one down to that of the longest prefix of a path which is in the tree. -/
def chain : Node → List Bytes → List Node
  | node, [] => [node]
  | node, name :: names => node :: ((node.child? name).elim [] fun c => c.chain names)

end Node

/-- The elements of a path, which a slash at its end adds none to. -/
def elements (path : Bytes) : List Bytes :=
  let parts := path.tail.splitOn 47
  if parts.getLast? = some [] then parts.dropLast else parts

def extraSteps (metric : Metric) : List Step :=
  .print [.text (bytesOf "<EXTRA_DATA>\n")] ::
    (metric.extra.map fun element => .print [extraElement element]) ++ [.print [.text (bytesOf "</EXTRA_DATA>\n")]]

def metricSummarySteps (key : Datum) (metric : Metric) : List Step :=
  (inTypeList metric.type).elim [] fun type =>
    .sum (metric.sumText type) :: .print [metricsItem key metric ((metric.sumText type).getD [])] ::
      extraSteps metric ++ [.print [.text (bytesOf "</METRICS>\n")]]

def summarySteps (summary : Summary) : List Step :=
  .print [hostsItem summary] :: summary.metricSummary.pairs.flatMap fun p => metricSummarySteps p.1 p.2

section

variable (filter : Filter) (now : ℤ)

namespace Node

def start : Node → List Step
  | .root _ => []
  | .source key val => [.print [.opening val.tag (sourceAttributes key val)]]
  | .host key val => [.print [.opening .host (hostAttributes now key val)]]
  | .metric key val => .print [.opening .metric (metricAttributes now key val)] :: extraSteps val

def finish : Node → List Step
  | .root _ => []
  | .source _ val => [.print [.closing val.tag]]
  | .host _ _ => [.print [.closing .host]]
  | .metric _ _ => [.print [.closing .metric]]

/-- The tags of a node around what is in it. -/
def wrap (node : Node) (inner : List Step) : List Step := node.start now ++ inner ++ node.finish

def summary : Node → List Step
  | .root val => if filter = .summary then summarySteps val.summary else []
  | .source key val => if filterFor filter (Node.source key val).id = .summary then summarySteps val.summary else []
  | .host _ _ | .metric _ _ => []

/-- An element of the reply, if the filter lets it through. -/
def element (node : Node) (inner : List Step) : List Step :=
  if applicable filter node.id then node.wrap now inner else []

end Node

def insideHost (host : Host) : List Step :=
  host.metrics.table.pairs.flatMap fun p => (Node.metric p.1 p.2).element filter now []

def insideSource (source : Source) : List Step :=
  (Node.source [] source).summary filter ++ source.authority.elim [] fun hosts =>
    hosts.table.pairs.flatMap fun p => (Node.host p.1 p.2).element filter now (insideHost filter now p.2)

def insideRoot (root : Root) : List Step :=
  (Node.root root).summary filter ++ root.authority.table.pairs.flatMap fun p =>
    (Node.source p.1 p.2).element filter now (insideSource filter now p.2)

/-- The filtered subtree below a node. -/
def Node.inside : Node → List Step
  | .root val => insideRoot filter now val
  | .source _ val => insideSource filter now val
  | .host _ val => insideHost filter now val
  | .metric _ _ => []

/-- The chain of elements, and in the last of them all that is below it. -/
def chainSteps : List Node → List Step
  | [] => []
  | [node] => node.wrap now (node.inside filter now)
  | node :: nodes => node.wrap now (chainSteps nodes)

end

/-- The reply to a request. -/
def replySteps (config : Config) (root : Root) (request : Request) (now : ℤ) : List Step :=
  request.parse.elim [] fun (path, filter) =>
    .print [.text config.dtd] :: .print [preambleItem config] :: .print [.opening .grid (rootAttributes config root)] ::
      (chainSteps filter now ((Node.root root).chain (elements path)) ++
        [.print [.closing .grid, .text (bytesOf "</GANGLIA_XML>\n")]])

def items (steps : List Step) : List Item := steps.flatMap Step.items

def bytes (steps : List Step) : Bytes := steps.flatMap Step.bytes

/-- The tags are balanced and properly nested. -/
inductive Nested : List Item → Prop
  | nil : Nested []
  | text (bytes : Bytes) : Nested [.text bytes]
  | element (tag : Tag) (attrs : Attributes) {items : List Item} :
      Nested items → Nested (.opening tag attrs :: items ++ [.closing tag])
  | append {items items' : List Item} : Nested items → Nested items' → Nested (items ++ items')

/-- What a client gets, which is what it should get. -/
structure Right (config : Config) (root : Root) (request : Request) (now : ℤ) (w : Pattern) : Prop where
  isPrefix : (serve config root request now w).received <+:
    (serve config root request now fun _ => .complete).received
  reply : (serve config root request now fun _ => .complete).received = bytes (replySteps config root request now)
  nested : Nested (items (replySteps config root request now))
  defined : (serve config root request now w).undefined = false
  defined_complete : (serve config root request now fun _ => .complete).undefined = false

/-- A number fits in `sum`, and a print in `buf`. -/
def Step.Fits : Step → Prop
  | .sum text => badSum text = false
  | .print items => (items.flatMap Item.bytes).length ≤ 4095

/-- The bytes that the socket takes of the prints, from the write of that number on. -/
@[grind] def sent (w : Pattern) : ℕ → List Bytes → Bytes
  | _, [] => []
  | i, buf :: bufs =>
    match w i with
    | .failing => []
    | write => write.taken buf ++ sent w (i + 1) bufs

/-- The prints of a reply. -/
def prints : List Step → List Bytes
  | [] => []
  | .sum _ :: steps => prints steps
  | .print items :: steps => items.flatMap Item.bytes :: prints steps

end Colama.Ganglia.Server
