import Mathlib.Tactic
import Colama.Lib.Memory
import Colama.Spice.RedChannel.Incoming

namespace Colama.Spice.RedChannel

open Lib

def maxSendBufs : Nat := 1000

def maxSendVec : Nat := 50

/-- `SpiceDataHeader`; the struct is packed. -/
structure DataHeader where
  serial : Nat
  type : Nat
  size : Nat
  subList : Nat

def DataHeader.bytes (h : DataHeader) : List UInt8 :=
  littleEndian h.serial 8 ++ (littleEndian h.type 2 ++ (littleEndian h.size 4 ++
    littleEndian h.subList 4))

/-- A buffer of a message: the header of the channel, or data with its size. -/
inductive BufDescriptor
  | header
  | data (bs : List UInt8)

def BufDescriptor.bytes (h : DataHeader) : BufDescriptor → List UInt8
  | .header => h.bytes
  | .data bs => bs

structure SendData (ι : Type*) where
  header : DataHeader
  bufs : List BufDescriptor
  size : Nat
  notSentBufHead : Nat
  item : Option ι
  blocked : Bool

/-- `vec` holds what is left of each buffer. The integers `pos` and `size` are only added up and compared,
so that their 32 bits are enough. -/
structure OutgoingHandler where
  vec : List (List UInt8)
  pos : Nat
  size : Nat

/-- The sending side of a channel, with the bytes that the socket has accepted, how often
`on_msg_done` was called, and the items that were released. -/
structure Channel (ι : Type*) where
  sendData : SendData ι
  outgoing : OutgoingHandler
  written : List UInt8
  done : Nat
  released : List ι

/-- What `cb_writev` answers: the socket has room for some bytes, or an error. -/
inductive Answer
  | room (n : Nat)
  | eagain
  | eintr
  | failed
  deriving DecidableEq

/-- Where `red_peer_handle_outgoing` is: before a `cb_writev`, back at its caller, behind `on_error`, or
behind a failed assertion. -/
inductive Outcome (ι : Type*)
  | writing (ch : Channel ι)
  | returned (ch : Channel ι)
  | disconnected (ch : Channel ι)
  | aborted (ch : Channel ι)

def Outcome.channel {ι : Type*} : Outcome ι → Channel ι
  | .writing ch | .returned ch | .disconnected ch | .aborted ch => ch

/-- `__iovec_skip`. -/
@[grind] def iovecSkip : List (List UInt8) → Nat → List (List UInt8)
  | [], _ => []
  | v :: vec, skip =>
    if skip ≠ 0 ∧ v.length ≤ skip then iovecSkip vec (skip - v.length) else v.drop skip :: vec

variable {ι : Type*}

/-- `red_channel_fill_iovec`: the next buffers, `none` where there are none. -/
def redChannelFillIovec (d : SendData ι) : Option (List (List UInt8) × SendData ι) :=
  if d.notSentBufHead < d.bufs.length then
    let vec := ((d.bufs.drop d.notSentBufHead).take maxSendVec).map (·.bytes d.header)
    some (vec, { d with notSentBufHead := d.notSentBufHead + vec.length })
  else none

def redChannelPeerOnOutBlock (ch : Channel ι) : Channel ι :=
  { ch with sendData := { ch.sendData with blocked := true } }

def redChannelPeerOnOutMsgDone (ch : Channel ι) : Channel ι :=
  { ch with
    sendData := { ch.sendData with
      size := 0
      bufs := []
      notSentBufHead := 0
      item := none
      blocked := false }
    done := ch.done + 1
    released := ch.released ++ ch.sendData.item.toList }

def prepare (ch : Channel ι) : Outcome ι :=
  match redChannelFillIovec ch.sendData with
  | none => .aborted ch
  | some (vec, d) => .writing { ch with sendData := d, outgoing := { ch.outgoing with vec := vec } }

/-- The largest number that `cb_writev` returns. -/
def intMax : Nat := 2 ^ 31 - 1

/-- The number of bytes that `cb_writev` takes when the socket has room for `k`. -/
def accepted (vec : List (List UInt8)) (k : Nat) : Nat := min (min k intMax) vec.flatten.length

/-- The socket takes `n` bytes. -/
def Channel.accept (ch : Channel ι) (n : Nat) : Channel ι :=
  { ch with
    outgoing := { ch.outgoing with
      pos := (ch.outgoing.pos + n) % 2 ^ 32
      vec := iovecSkip ch.outgoing.vec n }
    written := ch.written ++ ch.outgoing.vec.flatten.take n }

def Channel.finish (ch : Channel ι) : Channel ι :=
  { redChannelPeerOnOutMsgDone ch with outgoing := ⟨[], 0, 0⟩ }

/-- What `red_peer_handle_outgoing` does behind a `cb_writev` that took some bytes. -/
def afterWrite (ch : Channel ι) : Outcome ι :=
  if ch.outgoing.vec = [] then
    if ch.outgoing.pos = ch.outgoing.size then .returned ch.finish else prepare ch
  else .writing ch

/-- One pass through the loop of `red_peer_handle_outgoing`. -/
def outgoingTurn (ch : Channel ι) : Answer → Outcome ι
  | .eagain => .returned (redChannelPeerOnOutBlock ch)
  | .eintr => .writing ch
  | .failed => .disconnected ch
  | .room k => afterWrite (ch.accept (accepted ch.outgoing.vec k))

/-- `red_peer_handle_outgoing` up to its loop. -/
def redPeerHandleOutgoing (ch : Channel ι) : Outcome ι :=
  if ch.outgoing.size = 0 then
    if ch.sendData.size = 0 then .returned { ch with outgoing := { ch.outgoing with vec := [] } }
    else prepare { ch with outgoing := { ch.outgoing with vec := [], size := ch.sendData.size } }
  else .writing ch

/-- The next answer of `cb_writev`. A blocked channel is sent again by `red_channel_push`. -/
def resume (o : Outcome ι) (a : Answer) : Outcome ι :=
  match o with
  | .writing ch => outgoingTurn ch a
  | .returned ch =>
    if ch.sendData.blocked then
      match redPeerHandleOutgoing ch with
      | .writing ch => outgoingTurn ch a
      | o => o
    else .returned ch
  | o => o

/-- `__red_channel_add_buf`, `none` when there is no place left. -/
def addBuf (d : SendData ι) (b : BufDescriptor) : Option (SendData ι) :=
  if d.bufs.length < maxSendBufs then some { d with bufs := d.bufs ++ [b] } else none

def redChannelAddBuf (d : SendData ι) (bs : List UInt8) : Option (SendData ι) := do
  let d ← addBuf d (.data bs)
  return { d with header := { d.header with size := (d.header.size + bs.length) % 2 ^ 32 } }

def redChannelResetSendData (d : SendData ι) : Option (SendData ι) :=
  addBuf { d with
    bufs := []
    header := { d.header with size := 0, subList := 0, serial := (d.header.serial + 1) % 2 ^ 64 } } .header

def redChannelInitSendData (d : SendData ι) (type : Nat) (item : Option ι) : SendData ι :=
  { d with header := { d.header with type := type }, item := item }

def redChannelBeginSendMessage (ch : Channel ι) : Outcome ι :=
  redPeerHandleOutgoing { ch with
    sendData := { ch.sendData with
      size := (ch.sendData.header.size + sizeofDataHeader) % 2 ^ 32 } }

/-- A message with the buffers `bufs` behind its header. -/
def fillMessage (d : SendData ι) (type : Nat) (item : Option ι) (bufs : List (List UInt8)) :
    Option (SendData ι) := do
  let d ← redChannelResetSendData d
  bufs.foldlM redChannelAddBuf (redChannelInitSendData d type item)

/-- `red_channel_create` clears the channel. -/
def Channel.create : Channel ι where
  sendData := ⟨⟨0, 0, 0, 0⟩, [], 0, 0, none, false⟩
  outgoing := ⟨[], 0, 0⟩
  written := []
  done := 0
  released := []

end Colama.Spice.RedChannel
