import Mathlib.Tactic
import Colama.Lib.Runs

namespace Colama.Spice.AgentTokens

/-- `REDS_AGENT_WINDOW_SIZE`. -/
def redsAgentWindowSize : Nat := 10

/-- `REDS_TOKENS_TO_SEND`. -/
def redsTokensToSend : Nat := 5

/-- `SPICE_AGENT_MAX_DATA_SIZE`. -/
def spiceAgentMaxDataSize : Nat := 2048

/-- The messages of the main channel that are queued here. -/
inductive MsgType
  | init
  | ping (size : Nat)
  | mouseMode
  | agentConnected
  | agentDisconnected
  | agentToken (numTokens : Nat)
  deriving DecidableEq

/-- The bytes of a message with its `SpiceDataHeader`. -/
def MsgType.size : MsgType → Nat
  | .init => 18 + 32
  | .ping size => 18 + 12 + size
  | .mouseMode => 18 + 4
  | .agentConnected => 18
  | .agentDisconnected => 18 + 4
  | .agentToken _ => 18 + 4

/-- A message, the main link it was queued for, and how many of its bytes have not been taken yet. -/
structure OutItem where
  type : MsgType
  link : Nat
  left : Nat
  deriving DecidableEq

/-- What `cb_writev` answers. -/
inductive Answer
  | took (n : Nat)
  | again
  | intr
  | fail
  deriving DecidableEq

/-- Bytes that went out on a link, with the item as it was before. -/
structure Piece where
  link : Nat
  item : OutItem
  deriving DecidableEq

inductive MouseMode
  | server
  | client
  deriving DecidableEq

/-- What the main channel and the agent port use of `reds`. `links` counts the main links; `pipe` and `writeQueue`,
of which only the `write_len` of the buffers is kept, have the oldest first. `socket` are the answers of the socket
in the call at hand, after which it takes everything, and `device` those of `sif->write`, after which it takes
nothing. `sent` records what went out; `fault` is a failed assertion or an access through a null pointer. -/
structure Reds where
  tabletAllowed : Bool
  dispatcherAllowsClientMouse : Bool
  peer : Bool
  links : Nat
  disconnecting : Bool
  item : Option OutItem
  pipe : List OutItem
  vdagent : Bool
  connected : Bool
  numTokens : Nat
  numClientTokens : Nat
  externalBufs : Nat
  writeQueue : List Nat
  clientAgentStarted : Bool
  isClientMouseAllowed : Bool
  mouseMode : MouseMode
  socket : List Answer
  device : List Nat
  sent : List Piece
  fault : Bool

namespace Reds

def init (tabletAllowed dispatcherAllowsClientMouse : Bool) : Reds where
  tabletAllowed := tabletAllowed
  dispatcherAllowsClientMouse := dispatcherAllowsClientMouse
  peer := false
  links := 0
  disconnecting := false
  item := none
  pipe := []
  vdagent := false
  connected := false
  numTokens := 0
  numClientTokens := 0
  externalBufs := redsAgentWindowSize
  writeQueue := []
  clientAgentStarted := false
  isClientMouseAllowed := false
  mouseMode := .server
  socket := []
  device := []
  sent := []
  fault := false

def newOutItem (s : Reds) (type : MsgType) : OutItem := ⟨type, s.links, type.size⟩

def stopAgent (s : Reds) : Reds := { s with clientAgentStarted := false }

def closePeer (s : Reds) : Reds := { s with peer := false, disconnecting := false }

section Push

-- `disc` is `reds_disconnect`, or nothing while that is running already
variable (disc : Reds → Reds)

/-- The loop of `reds_send_data` for the item at hand. -/
def sendLoop : List Answer → OutItem → Reds → Bool × Reds
  | [], item, s => (true, { s with item := none, socket := [], sent := s.sent ++ [⟨s.links, item⟩] })
  | .took n :: socket, item, s =>
    if item.left ≤ n then
      (true, { s with item := none, socket := socket, sent := s.sent ++ [⟨s.links, item⟩] })
    else
      sendLoop socket { item with left := item.left - n }
        { s with sent := if n = 0 then s.sent else s.sent ++ [⟨s.links, item⟩] }
  | .again :: socket, item, s => (false, { s with item := some item, socket := socket })
  | .intr :: socket, item, s => sendLoop socket item s
  | .fail :: socket, item, s => (false, disc { s with item := some item, socket := socket })

def redsSendData (s : Reds) : Bool × Reds :=
  match s.item with
  | none => (true, s)
  | some item => if s.peer then sendLoop disc s.socket item s else (false, { s with fault := true })

/-- The loop of `reds_push`, as often as there are items in the pipe. -/
@[grind] def pushLoop : Nat → Reds → Reds
  | 0, s => s
  | n + 1, s =>
    match s.peer, s.item, s.pipe with
    | true, none, item :: pipe => pushLoop n (redsSendData disc { s with item := some item, pipe := pipe }).2
    | _, _, _ => s

def redsPush (s : Reds) : Reds := pushLoop disc s.pipe.length s

def redsPushPipeItem (s : Reds) (item : OutItem) : Reds := redsPush disc { s with pipe := s.pipe ++ [item] }

def redsSendTokens (s : Reds) : Reds :=
  if s.peer then
    let item := s.newOutItem (.agentToken s.numTokens)
    redsPushPipeItem disc
      { s with
        numClientTokens := s.numClientTokens + s.numTokens
        fault := s.fault || redsAgentWindowSize < s.numClientTokens + s.numTokens
        numTokens := 0 } item
  else s

def addToken (s : Reds) : Reds :=
  let s := { s with numTokens := s.numTokens + 1 }
  if s.numTokens = redsTokensToSend then redsSendTokens disc s else s

def freeExternalAgentBuff (s : Reds) : Reds := addToken disc { s with externalBufs := s.externalBufs + 1 }

/-- The loop of `reds_reset_vdp`, as often as there are buffers in the queue. -/
@[grind] def resetQueue : Nat → Reds → Reds
  | 0, s => s
  | n + 1, s =>
    match s.writeQueue with
    | [] => s
    | _ :: writeQueue => resetQueue n (freeExternalAgentBuff disc { s with writeQueue := writeQueue })

def redsResetVdp (s : Reds) : Reds := (resetQueue disc s.writeQueue.length s).stopAgent

end Push

def redsResetOutgoing (s : Reds) : Reds := { s with item := none, pipe := [] }

/-- What `reds_disconnect` does to a connected agent. -/
def disconnectAgent (s : Reds) : Reds :=
  if s.connected then redsResetVdp id { s with connected := false, fault := s.fault || !s.vdagent } else s

def redsDisconnect (s : Reds) : Reds :=
  if ¬ s.peer ∨ s.disconnecting then s
  else (disconnectAgent { s with disconnecting := true }.redsResetOutgoing).closePeer

/-- The loop of `write_to_vdi_port`. -/
@[grind] def writeLoop : List Nat → Reds → Reds
  | [], s => { s with device := [] }
  | n :: device, s =>
    match s.connected, s.writeQueue with
    | true, len :: writeQueue =>
      if n = 0 then { s with device := device }
      else if len ≤ n then writeLoop device (freeExternalAgentBuff redsDisconnect { s with writeQueue := writeQueue })
      else writeLoop device { s with writeQueue := (len - n) :: writeQueue }
    | _, _ => s

def writeToVdiPort (s : Reds) : Reds := writeLoop s.device s

def redsSendMouseMode (s : Reds) : Reds :=
  if s.peer then redsPushPipeItem redsDisconnect s (s.newOutItem .mouseMode) else s

def redsSetMouseMode (s : Reds) (mode : MouseMode) : Reds :=
  if s.mouseMode = mode then s else { s with mouseMode := mode }.redsSendMouseMode

def redsUpdateMouseMode (s : Reds) : Reds :=
  let allowed := (s.vdagent || s.tabletAllowed) && s.dispatcherAllowsClientMouse
  if allowed = s.isClientMouseAllowed then s
  else
    let s := { s with isClientMouseAllowed := allowed }
    if s.mouseMode = .client ∧ ¬ allowed then s.redsSetMouseMode .server else s.redsSendMouseMode

/-- The message at the end goes out with the answers `last`. -/
def redsAgentRemove (s : Reds) (last : List Answer) : Reds :=
  let sin := s.vdagent
  let s := { s with vdagent := false }.redsUpdateMouseMode
  if ¬ s.peer ∨ ¬ sin then s
  else
    let s := redsResetVdp redsDisconnect { s with fault := s.fault || !s.connected, connected := false }
    let s := { s with socket := last }
    redsPushPipeItem redsDisconnect s (s.newOutItem .agentDisconnected)

/-- `attach_to_red_agent`, where no agent is attached. -/
def attachToRedAgent (s : Reds) : Reds :=
  let s := { s with vdagent := true }.redsUpdateMouseMode
  if s.peer then
    let s := { s with connected := true }
    redsPushPipeItem redsDisconnect s (s.newOutItem .agentConnected)
  else s

def sendPing (s : Reds) (size : Nat) : Reds :=
  if s.peer then redsPushPipeItem redsDisconnect s (s.newOutItem (.ping size)) else s

/-- `NET_TEST_WARMUP_BYTES` and `NET_TEST_BYTES` are 0 and 1024 * 250. -/
def redsStartNetTest (s : Reds) : Reds := ((s.sendPing 0).sendPing 0).sendPing (1024 * 250)

/-- A link that is no migration. The new socket gives the answers `answers`. -/
def redsHandleMainLink (s : Reds) (answers : List Answer) : Reds :=
  let s := s.redsDisconnect
  let s := { s with
    numTokens := 0
    peer := true
    links := s.links + 1
    connected := s.vdagent || s.connected
    numClientTokens := redsAgentWindowSize
    socket := answers }
  (redsPushPipeItem redsDisconnect s (s.newOutItem .init)).redsStartNetTest

/-- `SPICE_MSGC_MAIN_AGENT_START`. -/
def mainAgentStart (s : Reds) : Reds := if s.peer then { s with clientAgentStarted := true } else s

/-- `SPICE_MSGC_MAIN_AGENT_DATA`. -/
def mainAgentData (s : Reds) (size : Nat) : Reds :=
  if s.numClientTokens = 0 then s.redsDisconnect
  else
    let s := { s with numClientTokens := s.numClientTokens - 1 }
    if ¬ s.vdagent then addToken redsDisconnect s
    else if ¬ s.clientAgentStarted then addToken redsDisconnect s
    else if spiceAgentMaxDataSize < size then s.redsDisconnect
    else if s.externalBufs = 0 then s.redsDisconnect
    else { s with externalBufs := s.externalBufs - 1, writeQueue := s.writeQueue ++ [size + 8] }.writeToVdiPort

/-- `reds_main_event` for `SPICE_WATCH_EVENT_WRITE`. -/
def mainEventWrite (s : Reds) : Reds :=
  match redsSendData redsDisconnect s with
  | (true, s) => redsPush redsDisconnect s
  | (false, s) => s

end Reds

/-- The calls, each with what the sockets and the device answer meanwhile. -/
inductive Act
  | link (old answers : List Answer)
  | disconnect (socket : List Answer)
  | agentStart
  | agentData (size : Nat) (device : List Nat) (socket : List Answer)
  | attach (socket : List Answer)
  | remove (socket last : List Answer)
  | writeTimer (device : List Nat) (socket : List Answer)
  | eventWrite (socket : List Answer)

namespace Reds

def step (s : Reds) : Act → Reds
  | .link old answers => { s with socket := old }.redsHandleMainLink answers
  | .disconnect socket => { s with socket := socket }.redsDisconnect
  | .agentStart => s.mainAgentStart
  | .agentData size device socket =>
    if s.peer then { s with device := device, socket := socket }.mainAgentData size else s
  | .attach socket => if s.vdagent then s else { s with socket := socket }.attachToRedAgent
  | .remove socket last => if s.vdagent then { s with socket := socket }.redsAgentRemove last else s
  | .writeTimer device socket => { s with device := device, socket := socket }.writeToVdiPort
  | .eventWrite socket => { s with socket := socket }.mainEventWrite

end Reds

end Colama.Spice.AgentTokens
