import Mathlib.Tactic
import Colama.Spice.RedChannel.Outgoing

namespace Colama.Spice.RedChannel

def clientAckWindow : Nat := 20

inductive Status
  | alive
  | destroyed
  | aborted
  deriving DecidableEq

/-- A channel with its pipe, the head first. All items that were added and all that were removed from the
pipe are kept. -/
structure RedChannel (ι : Type*) where
  channel : Channel ι
  pipe : List ι
  pipeSize : Nat
  handleAcks : Bool
  generation : Nat
  clientGeneration : Nat
  messagesWindow : Nat
  duringSend : Bool
  shutdown : Bool
  status : Status
  added : List ι
  removed : List ι

variable {ι : Type*}

/-- `red_channel_pipe_clear`: the item of the message at hand and all items of the pipe are released. -/
def redChannelPipeClear (s : RedChannel ι) : RedChannel ι :=
  { s with
    channel := { s.channel with
      released := s.channel.released ++ (s.channel.sendData.item.toList ++ s.pipe) }
    pipe := [] }

def redChannelDestroy (s : RedChannel ι) : RedChannel ι :=
  { redChannelPipeClear s with status := .destroyed }

def redChannelShutdown (s : RedChannel ι) : RedChannel ι :=
  if s.shutdown then s else { redChannelPipeClear s with shutdown := true }

/-- The loop of `red_peer_handle_outgoing`. Behind the last answer the socket is full. -/
def outgoingLoop : Channel ι → List Answer → Outcome ι × List Answer
  | ch, [] => (.returned (redChannelPeerOnOutBlock ch), [])
  | ch, a :: as =>
    match outgoingTurn ch a with
    | .writing ch => outgoingLoop ch as
    | o => (o, as)

/-- What a call of `red_peer_handle_outgoing` leaves of the channel, and the answers of the next call.
`disconnect` destroys the channel. -/
def afterOutgoing (s : RedChannel ι) (o : Outcome ι) (as : List Answer) : RedChannel ι × List Answer :=
  match o with
  | .writing ch =>
    match outgoingLoop ch as with
    | (.returned ch, as) => ({ s with channel := ch }, as)
    | (.disconnected ch, as) => (redChannelDestroy { s with channel := ch }, as)
    | (.writing ch, as) | (.aborted ch, as) => ({ s with channel := ch, status := .aborted }, as)
  | .returned ch => ({ s with channel := ch }, as)
  | .disconnected ch => (redChannelDestroy { s with channel := ch }, as)
  | .aborted ch => ({ s with channel := ch, status := .aborted }, as)

def redChannelSend (s : RedChannel ι) (as : List Answer) : RedChannel ι × List Answer :=
  afterOutgoing s (redPeerHandleOutgoing s.channel) as

/-- The item at the tail, unless nothing may be sent now. -/
def redChannelPipeGet (s : RedChannel ι) : Option (ι × RedChannel ι) :=
  if s.channel.sendData.blocked ∨ s.handleAcks ∧ clientAckWindow * 2 < s.messagesWindow then none
  else
    match s.pipe.getLast? with
    | none => none
    | some item =>
      some (item, { s with pipe := s.pipe.dropLast, pipeSize := (s.pipeSize + (2 ^ 32 - 1)) % 2 ^ 32 })

/-- What an item is sent as: the type of its message and the buffers behind the header. -/
structure Message where
  type : Nat
  bufs : List (List UInt8)

variable (message : ι → Message)

/-- `send_item`: a message is reset, initialized with the item, filled and begun. -/
def sendItem (s : RedChannel ι) (item : ι) (as : List Answer) : RedChannel ι × List Answer :=
  match fillMessage s.channel.sendData (message item).type (some item) (message item).bufs with
  | none => ({ s with status := .aborted }, as)
  | some d =>
    afterOutgoing { s with messagesWindow := (s.messagesWindow + 1) % 2 ^ 32 }
      (redChannelBeginSendMessage { s.channel with sendData := d }) as

/-- The loop of `red_channel_push`, a round for each item of the pipe. -/
def pushLoop : Nat → RedChannel ι → List Answer → RedChannel ι
  | 0, s, _ => s
  | n + 1, s, as =>
    if s.status ≠ .alive then s
    else
      match redChannelPipeGet s with
      | none => s
      | some (item, s) =>
        let (s, as) := sendItem message s item as
        pushLoop n s as

def redChannelPush (s : RedChannel ι) (as : List Answer) : RedChannel ι :=
  if s.duringSend then s
  else
    let s := { s with duringSend := true }
    let (s, as) := if s.channel.sendData.blocked then redChannelSend s as else (s, as)
    let s := pushLoop message s.pipe.length s as
    { s with duringSend := false }

def redChannelPipeAdd (s : RedChannel ι) (item : ι) (as : List Answer) : RedChannel ι :=
  redChannelPush message { s with
    pipeSize := (s.pipeSize + 1) % 2 ^ 32
    pipe := item :: s.pipe
    added := item :: s.added } as

def redChannelPipeAddTail (s : RedChannel ι) (item : ι) (as : List Answer) : RedChannel ι :=
  redChannelPush message { s with
    pipeSize := (s.pipeSize + 1) % 2 ^ 32
    pipe := s.pipe ++ [item]
    added := item :: s.added } as

/-- `item` is the new item; the second push has answers of its own. -/
def redChannelPipeAddType (s : RedChannel ι) (item : ι) (as as' : List Answer) : RedChannel ι :=
  let s := redChannelPipeAdd message s item as
  if s.status = .alive then redChannelPush message s as' else s

def redChannelPipeItemRemove [DecidableEq ι] (s : RedChannel ι) (item : ι) : RedChannel ι :=
  { s with pipe := s.pipe.erase item, removed := item :: s.removed }

def redChannelInitOutgoingMessagesWindow (s : RedChannel ι) (as : List Answer) : RedChannel ι :=
  redChannelPush message { s with messagesWindow := 0 } as

/-- `SPICE_MSGC_ACK` in `red_channel_handle_message`. -/
def handleAck (s : RedChannel ι) (as : List Answer) : RedChannel ι :=
  if s.clientGeneration = s.generation then
    redChannelPush message { s with
      messagesWindow := (s.messagesWindow + (2 ^ 32 - clientAckWindow)) % 2 ^ 32 } as
  else s

/-- `SPICE_MSGC_ACK_SYNC` in `red_channel_handle_message`. -/
def handleAckSync (s : RedChannel ι) (generation : Nat) : RedChannel ι :=
  { s with clientGeneration := generation }

def redChannelCreate (handleAcks : Bool) : RedChannel ι where
  channel := .create
  pipe := []
  pipeSize := 0
  handleAcks := handleAcks
  generation := 0
  clientGeneration := 2 ^ 32 - 1
  messagesWindow := 2 ^ 32 - 1
  duringSend := false
  shutdown := false
  status := .alive
  added := []
  removed := []

/-- What is called on a channel, with the answers of the socket meanwhile. -/
inductive Op (ι : Type*)
  | pipeAdd (item : ι) (as : List Answer)
  | pipeAddTail (item : ι) (as : List Answer)
  | pipeAddType (item : ι) (as as' : List Answer)
  | pipeItemRemove (item : ι)
  | push (as : List Answer)
  | initWindow (as : List Answer)
  | ack (as : List Answer)
  | ackSync (generation : Nat)
  | shutdown
  | destroy

def RedChannel.perform [DecidableEq ι] (s : RedChannel ι) : Op ι → RedChannel ι
  | .pipeAdd item as => redChannelPipeAdd message s item as
  | .pipeAddTail item as => redChannelPipeAddTail message s item as
  | .pipeAddType item as as' => redChannelPipeAddType message s item as as'
  | .pipeItemRemove item => redChannelPipeItemRemove s item
  | .push as => redChannelPush message s as
  | .initWindow as => redChannelInitOutgoingMessagesWindow message s as
  | .ack as => handleAck message s as
  | .ackSync generation => handleAckSync s generation
  | .shutdown => redChannelShutdown s
  | .destroy => redChannelDestroy s

/-- An item that is added is not in the pipe, one that is removed is. -/
def Op.Valid (s : RedChannel ι) : Op ι → Prop
  | .pipeAdd item _ | .pipeAddTail item _ | .pipeAddType item _ _ => item ∉ s.pipe
  | .pipeItemRemove item => item ∈ s.pipe
  | _ => True

instance [DecidableEq ι] (s : RedChannel ι) : (op : Op ι) → Decidable (op.Valid s)
  | .pipeAdd item _ | .pipeAddTail item _ | .pipeAddType item _ _ =>
    inferInstanceAs (Decidable (item ∉ s.pipe))
  | .pipeItemRemove item => inferInstanceAs (Decidable (item ∈ s.pipe))
  | .push _ | .initWindow _ | .ack _ | .ackSync _ | .shutdown | .destroy => inferInstanceAs (Decidable True)

inductive Step [DecidableEq ι] : RedChannel ι → Op ι → RedChannel ι → Prop
  | perform {s : RedChannel ι} {op : Op ι} (alive : s.status = .alive) (valid : op.Valid s) :
    Step s op (s.perform message op)

end Colama.Spice.RedChannel
