import Mathlib.Tactic
import Colama.Lib.Memory
import Colama.Lib.Runs

namespace Colama.Spice.VdiPort

open Lib

/-- `VDP_CLIENT_PORT`. -/
def vdpClientPort : UInt32 := 1

/-- `VDP_SERVER_PORT`. -/
def vdpServerPort : UInt32 := 2

/-- `SPICE_AGENT_MAX_DATA_SIZE`. -/
def spiceAgentMaxDataSize : Nat := 2048

/-- `REDS_VDI_PORT_NUM_RECIVE_BUFFS`. -/
def redsVdiPortNumReciveBuffs : Nat := 5

structure VDIChunkHeader where
  port : UInt32
  size : UInt32
  deriving DecidableEq

/-- `sizeof(VDIChunkHeader)`. -/
def sizeofChunkHeader : Nat := 8

def VDIChunkHeader.bytes (h : VDIChunkHeader) : List UInt8 :=
  littleEndian h.port.toNat 4 ++ littleEndian h.size.toNat 4

def VDIChunkHeader.ofBytes (l : List UInt8) : VDIChunkHeader :=
  ⟨.ofNat (ofLittleEndian (l.take 4)), .ofNat (ofLittleEndian (l.drop 4))⟩

/-- A `VDIReadBuf`. `data` has the bytes that have been read into it. -/
structure VDIReadBuf where
  len : Nat
  data : List UInt8
  deriving DecidableEq

inductive ReadState
  | readHader
  | getBuff
  | readData
  deriving DecidableEq

/-- The reading side of `VDIPortState`. Where `recive_pos` points is the end of the bytes read so far, in
`headerBytes` or in the data of the current buffer. `outgoing` are the buffers in the `AGENT_DATA` messages that
are not sent yet, the oldest first; `available` is what the device has to be read. `call` is the total of the
call of `read_from_vdi_port` that is running, in a loop that goes on until a call returns 0. `written` and `sent`
record what the agent has written and the payload that has gone out. -/
structure Port where
  connected : Bool
  migTarget : Bool
  readBufs : List Nat
  readState : ReadState
  messageReciveLen : Nat
  headerBytes : List UInt8
  reciveLen : Nat
  currentReadBuf : Option Nat
  vdiChunkHeader : VDIChunkHeader
  bufs : Nat → VDIReadBuf
  outgoing : List Nat
  available : List UInt8
  call : Option Nat
  written : List UInt8
  sent : List UInt8

namespace Port

/-- `init_vd_agent_resources`, with a client and the agent connected. -/
def init : Port where
  connected := true
  migTarget := false
  readBufs := (List.range redsVdiPortNumReciveBuffs).reverse
  readState := .readHader
  messageReciveLen := 0
  headerBytes := []
  reciveLen := sizeofChunkHeader
  currentReadBuf := none
  vdiChunkHeader := ⟨0, 0⟩
  bufs := fun _ => ⟨0, []⟩
  outgoing := []
  available := []
  call := none
  written := []
  sent := []

/-- `buf->data` up to `buf->len`, the payload of the message. -/
def payload (s : Port) (buf : Nat) : List UInt8 := (s.bufs buf).data.take (s.bufs buf).len

/-- The payloads of the `AGENT_DATA` messages queued so far, those sent included. -/
def queued (s : Port) : List UInt8 := s.sent ++ s.outgoing.flatMap s.payload

/-- `quit_loop`: the call returns, and the loop around it calls again unless it has returned 0. -/
@[grind] def quitLoop (s : Port) : Port :=
  match s.call with
  | some 0 => { s with call := none }
  | some _ => { s with call := some 0 }
  | none => s

/-- The reading part of `reds_reset_vdp`. -/
def resetVdp (s : Port) : Port :=
  { s with
    readState := .readHader
    headerBytes := []
    reciveLen := sizeofChunkHeader
    messageReciveLen := 0
    readBufs := s.currentReadBuf.toList ++ s.readBufs
    currentReadBuf := none }

/-- What `reds_agent_remove` does to the port. -/
def agentRemove (s : Port) : Port := { s with connected := false }.resetVdp

def dispatchVdiPortData (s : Port) (port : UInt32) (buf : Nat) : Port :=
  if port = vdpClientPort then { s with outgoing := s.outgoing ++ [buf] }
  else if port = vdpServerPort then { s with readBufs := buf :: s.readBufs }
  else { s with readBufs := buf :: s.readBufs }.agentRemove

/-- `sif->read` has put `n` bytes where `recive_pos` points: in the header. -/
def readHeader (s : Port) (n : Nat) : Port :=
  let s := { s with
    headerBytes := s.headerBytes ++ s.available.take n
    available := s.available.drop n
    reciveLen := s.reciveLen - n
    call := s.call.map (· + n) }
  if s.reciveLen ≠ 0 then s.quitLoop
  else
    let header := VDIChunkHeader.ofBytes s.headerBytes
    { s with vdiChunkHeader := header, messageReciveLen := header.size.toNat, readState := .getBuff }

def getBuff (s : Port) : Port :=
  match s.readBufs with
  | [] => s.quitLoop
  | buf :: readBufs =>
    let reciveLen := min s.messageReciveLen spiceAgentMaxDataSize
    { s with
      readBufs := readBufs
      currentReadBuf := some buf
      reciveLen := reciveLen
      bufs := Function.update s.bufs buf ⟨reciveLen, []⟩
      messageReciveLen := s.messageReciveLen - reciveLen
      readState := .readData }

/-- `sif->read` has put `n` bytes into the current buffer. -/
def readData (s : Port) (buf n : Nat) : Port :=
  let s := { s with
    bufs := Function.update s.bufs buf { s.bufs buf with data := (s.bufs buf).data ++ s.available.take n }
    available := s.available.drop n
    reciveLen := s.reciveLen - n
    call := s.call.map (· + n) }
  if s.reciveLen ≠ 0 then s
  else
    let s := { s with currentReadBuf := none }
    let s := if s.messageReciveLen = 0 then
        { s with readState := .readHader, headerBytes := [], reciveLen := sizeofChunkHeader }
      else { s with readState := .getBuff }
    s.dispatchVdiPortData s.vdiChunkHeader.port buf

/-- What `sif->read` may return: not more than it was asked for and has, and 0 only if there is no other way. -/
def MayRead (s : Port) (n : Nat) : Prop :=
  n ≤ s.reciveLen ∧ n ≤ s.available.length ∧ (n = 0 → s.reciveLen = 0 ∨ s.available = [])

instance (s : Port) (n : Nat) : Decidable (s.MayRead n) := inferInstanceAs (Decidable (_ ∧ _ ∧ (_ → _)))

end Port

/-- The agent writes; the device wakes the server up; the oldest `AGENT_DATA` message is sent and its buffer
released; a round of the loop of `read_from_vdi_port`, in which `sif->read` returns `n` where it is called. -/
inductive Act
  | agentWrite (bytes : List UInt8)
  | wakeup
  | readBufRelease
  | round (n : Nat)

namespace Port

/-- A case that falls through to the next one is followed by a round of that one. A call that finds another one
running returns 0, which is the end of the loop it is made in. -/
def step (s : Port) : Act → Option Port
  | .agentWrite bytes => some { s with available := s.available ++ bytes, written := s.written ++ bytes }
  | .wakeup => some (if s.call = none then { s with call := some 0 } else s)
  | .readBufRelease =>
    match s.outgoing with
    | [] => none
    | buf :: outgoing =>
      let s := { s with sent := s.sent ++ s.payload buf, outgoing := outgoing, readBufs := buf :: s.readBufs }
      some (if s.call = none then { s with call := some 0 } else s)
  | .round n =>
    if s.call = none then none
    else if ¬ s.connected ∨ s.migTarget then some s.quitLoop
    else
      match s.readState, s.currentReadBuf with
      | .readHader, _ =>
        if s.MayRead n then some (if n = 0 then s.quitLoop else s.readHeader n) else none
      | .getBuff, _ => some s.getBuff
      | .readData, some buf =>
        if s.MayRead n then some (if n = 0 then s.quitLoop else s.readData buf n) else none
      | .readData, none => none

end Port

end Colama.Spice.VdiPort
