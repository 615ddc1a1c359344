import Mathlib.Tactic
import Colama.Lib.Runs

namespace Colama.Spice.AckWindow

def narrowClientAckWindow : UInt32 := 20

def wideClientAckWindow : UInt32 := 40

/-- What the pipe holds: the item of type `SET_ACK`, or one that is sent as another message. -/
inductive PipeItem
  | setAck
  | message
  deriving DecidableEq

/-- The messages to the client; those other than `SET_ACK` are only counted. -/
inductive ToClient
  | setAck (generation window : UInt32)
  | message
  deriving DecidableEq

inductive ToServer
  | ackSync (generation : UInt32)
  | ack
  | disconnecting
  deriving DecidableEq

/-- The channel of the server. The oldest item of `pipe`, the next to be sent, comes first. -/
structure RedChannel where
  pipe : List PipeItem
  blocked : Bool
  clientAckWindow : UInt32
  ackGeneration : UInt32
  clientAckGeneration : UInt32
  messagesWindow : UInt32
  deriving DecidableEq

namespace RedChannel

/-- `__new_channel`, then `red_pipe_add_type` of `on_new_display_channel` and `on_new_cursor_channel`. -/
def newChannel (lowBandwidth : Bool) : RedChannel where
  pipe := [.setAck]
  blocked := false
  clientAckWindow := if lowBandwidth then wideClientAckWindow else narrowClientAckWindow
  ackGeneration := 0
  clientAckGeneration := ~~~0
  messagesWindow := ~~~0

def windowFull (ch : RedChannel) : Prop := ch.clientAckWindow * 2 < ch.messagesWindow

instance (ch : RedChannel) : Decidable ch.windowFull := inferInstanceAs (Decidable (_ < _))

/-- `red_pipe_get`: the item, if one may be sent, and the channel. -/
def pipeGet (ch : RedChannel) : Option PipeItem × RedChannel :=
  if ch.blocked then (none, ch)
  else
    match ch.pipe with
    | [] => (none, ch)
    | item :: pipe =>
      if ch.windowFull then (none, { ch with blocked := true })
      else (some item, { ch with pipe := pipe })

/-- `red_begin_send_message`; the socket may take only a part and block the channel. -/
def beginSendMessage (ch : RedChannel) (socketFull : Bool) : RedChannel :=
  { ch with messagesWindow := ch.messagesWindow + 1, blocked := socketFull }

def sendSetAck (ch : RedChannel) (socketFull : Bool) : ToClient × RedChannel :=
  let ch := { ch with ackGeneration := ch.ackGeneration + 1 }
  (.setAck ch.ackGeneration ch.clientAckWindow,
    { ch with messagesWindow := 0 }.beginSendMessage socketFull)

def handleMessage (ch : RedChannel) : ToServer → RedChannel
  | .ackSync generation => { ch with clientAckGeneration := generation }
  | .ack =>
    if ch.clientAckGeneration = ch.ackGeneration then
      { ch with messagesWindow := ch.messagesWindow - ch.clientAckWindow }
    else ch
  | .disconnecting => ch

end RedChannel

/-- The counters of the channel of the client. -/
structure ClientChannel where
  messageAckCount : UInt32
  messageAckWindow : UInt32
  deriving DecidableEq

namespace ClientChannel

def onMessageRecived (cl : ClientChannel) : List ToServer × ClientChannel :=
  if cl.messageAckCount = 0 then ([], cl)
  else if cl.messageAckCount - 1 = 0 then ([.ack], { cl with messageAckCount := cl.messageAckWindow })
  else ([], { cl with messageAckCount := cl.messageAckCount - 1 })

def handleMessage (cl : ClientChannel) : ToClient → List ToServer × ClientChannel
  | .setAck generation window => ([.ackSync generation], ⟨window, window⟩)
  | .message => ([], cl)

/-- What `recive_messages` does with a message that has come in, and what it posts. -/
def recive (cl : ClientChannel) (m : ToClient) : List ToServer × ClientChannel :=
  let (acks, cl) := cl.onMessageRecived
  let (syncs, cl) := cl.handleMessage m
  (acks ++ syncs, cl)

end ClientChannel

/-- The two ends and the links between them, the oldest message first. `opened` says that the channel is set up
and its window cleared, `taken` that an item has been taken out of the pipe. The last three fields record the
run: the generations sent, the messages sent from the last `SET_ACK` on and the ACKs taken off the window since. -/
structure Flow where
  server : RedChannel
  client : ClientChannel
  toClient : List ToClient
  toServer : List ToServer
  opened : Bool
  taken : Bool
  generations : List UInt32
  sentSince : Nat
  accepted : Nat

inductive Act
  | open
  | pipeAdd (k : Nat) (item : PipeItem)
  | pipeRemove (k : Nat)
  | push (socketFull : Bool)
  | pushNothing
  | unblock
  | clientRecive
  | clientDisconnecting
  | serverRecive

namespace Flow

def init (lowBandwidth : Bool) : Flow where
  server := .newChannel lowBandwidth
  client := ⟨0, 0⟩
  toClient := []
  toServer := []
  opened := false
  taken := false
  generations := []
  sentSince := 0
  accepted := 0

@[grind] def send (f : Flow) (socketFull : Bool) (ch : RedChannel) : PipeItem → Flow
  | .setAck =>
    let (m, ch) := ch.sendSetAck socketFull
    { f with
      server := ch
      toClient := f.toClient ++ [m]
      taken := true
      generations := ch.ackGeneration :: f.generations
      sentSince := 1
      accepted := 0 }
  | .message =>
    { f with
      server := ch.beginSendMessage socketFull
      toClient := f.toClient ++ [.message]
      taken := true
      sentSince := f.sentSince + 1 }

/-- A step of one of the parties; `none` where it cannot be taken. Items go in at the new end of the pipe or beside
a drawable, and in front of the oldest item only while the one taken last is being sent. -/
@[grind] def step (f : Flow) : Act → Option Flow
  | .open =>
    if f.opened then none
    else some { f with server := { f.server with messagesWindow := 0 }, opened := true }
  | .pipeAdd k item =>
    if 0 < k ∨ f.taken then some { f with server := { f.server with pipe := f.server.pipe.insertIdx k item } }
    else none
  | .pipeRemove k =>
    if f.server.pipe[k]? = some .message then
      some { f with server := { f.server with pipe := f.server.pipe.eraseIdx k } }
    else none
  | .push socketFull =>
    match f.server.pipeGet with
    | (none, ch) => some { f with server := ch }
    | (some item, ch) => some (f.send socketFull ch item)
  | .pushNothing =>
    match f.server.pipeGet with
    | (none, ch) => some { f with server := ch }
    | (some item, ch) => if item = .message then some { f with server := ch, taken := true } else none
  | .unblock => some { f with server := { f.server with blocked := false } }
  | .clientRecive =>
    match f.toClient with
    | [] => none
    | m :: toClient =>
      let (posted, cl) := f.client.recive m
      some { f with client := cl, toClient := toClient, toServer := f.toServer ++ posted }
  | .clientDisconnecting => some { f with toServer := f.toServer ++ [.disconnecting] }
  | .serverRecive =>
    match f.toServer with
    | [] => none
    | m :: toServer =>
      some { f with
        server := f.server.handleMessage m
        toServer := toServer
        accepted :=
          if m = .ack ∧ f.server.clientAckGeneration = f.server.ackGeneration then f.accepted + 1
          else f.accepted }

/-- A `SET_ACK` that the step sends has a generation that none before it had. -/
def NewGeneration (f : Flow) : Act → Prop
  | .push _ => f.server.pipeGet.1 = some .setAck → f.server.ackGeneration + 1 ∉ f.generations
  | _ => True

abbrev Run (lowBandwidth : Bool) : Flow → Prop :=
  Lib.Reachable (fun f a f' => f.step a = some f') NewGeneration (init lowBandwidth)

end Flow

end Colama.Spice.AckWindow
