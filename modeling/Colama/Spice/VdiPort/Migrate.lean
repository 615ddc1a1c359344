import Mathlib.Tactic
import Colama.Spice.VdiPort.Read

namespace Colama.Spice.VdiPort.Migrate

open Lib

/-- `REDS_AGENT_WINDOW_SIZE`. -/
def redsAgentWindowSize : UInt32 := 10

/-- `REDS_TOKENS_TO_SEND`. -/
def redsTokensToSend : UInt32 := 5

/-- `REDS_NUM_INTERNAL_AGENT_MESSAGES`. -/
def redsNumInternalAgentMessages : UInt32 := 1

/-- `MAIN_CHANNEL_MIG_DATA_VERSION`. -/
def mainChannelMigDataVersion : UInt32 := 1

/-- `sizeof(MainMigrateData)`. -/
def sizeofMainMigrateData : Nat := 56

/-- `sizeof(WriteQueueInfo)`. -/
def sizeofWriteQueueInfo : Nat := 8

/-- From `header` in a `VDInternalBuf` to its end: a `VDAgentMessage`, a `VDAgentMouseState` and `migrate_overflow`. -/
def internalHeaderSpace : Nat := 20 + 13 + sizeofChunkHeader

/-- From `buf` in a `VDAgentExtBuf` to its end: the data and `migrate_overflow`. -/
def externalBufSpace : Nat := spiceAgentMaxDataSize + sizeofChunkHeader

/-- The memory from the start of a message on, the first `size` bytes of which are the message. -/
structure Mem where
  bytes : Nat → UInt8
  size : Nat

def Mem.slice (m : Mem) (pos n : Nat) : List UInt8 := Memory.readFrom m.bytes pos n

def Mem.word (m : Mem) (pos : Nat) : UInt32 := .ofNat (ofLittleEndian (m.slice pos 4))

/-- The message is `l`. -/
def Mem.Holds (m : Mem) (l : List UInt8) : Prop := m.size = l.length ∧ m.slice 0 l.length = l

def le32 (x : UInt32) : List UInt8 := littleEndian x.toNat 4

/-- `len` bytes of the message are read from `pos` on; `len` bytes are written to the start of an object of `size`
bytes; the next `sif->read` is to write `len` bytes from `pos` on into an object of `size` bytes. -/
inductive Access
  | read (pos len : Nat)
  | write (size len : Nat)
  | range (size : Nat) (pos : Int) (len : Nat)
  deriving DecidableEq

/-- The `free` function of a buffer. -/
inductive BufKind
  | external
  | internal
  | tmp
  deriving DecidableEq

/-- A buffer of the write queue: its `chunk_header.port` and the `write_len` bytes at `now`. -/
structure VDIPortBuf where
  kind : BufKind
  port : UInt32
  now : List UInt8
  deriving DecidableEq

/-- A `VDIReadBuf` with its data up to where `recive_pos` points. -/
structure ReadBuf where
  len : UInt32
  data : List UInt8
  deriving DecidableEq

/-- The reading side of `VDIPortState`. `recivePos` counts from the start of the header or of the data. -/
@[ext]
structure Reader where
  readState : ReadState
  vdiChunkHeader : List UInt8
  recivePos : Int
  reciveLen : UInt32
  messageReciveLen : UInt32
  currentReadBuf : Option ReadBuf
  deriving DecidableEq

/-- What migration uses of `reds`. Free buffers are counted; `writeQueue` has the oldest buffer first; `outgoing`
counts the read buffers in messages not sent yet. `aborted` is a failed assertion. -/
structure Reds where
  serial : UInt64
  pingId : UInt32
  peer : Bool
  connected : Bool
  plugGeneration : UInt32
  numTokens : UInt32
  numClientTokens : UInt32
  externalBufs : Nat
  internalBufs : Nat
  writeQueue : List VDIPortBuf
  readBufs : Nat
  outgoing : Nat
  reader : Reader
  clientAgentStarted : UInt32
  aborted : Bool
  deriving DecidableEq

namespace Reader

def init : Reader := ⟨.readHader, List.replicate sizeofChunkHeader 0, 0, 8, 0, none⟩

/-- The reading part of `reds_reset_vdp`. -/
def reset (r : Reader) : Reader :=
  { r with readState := .readHader, recivePos := 0, reciveLen := 8, messageReciveLen := 0, currentReadBuf := none }

def port (r : Reader) : UInt32 := .ofNat (ofLittleEndian (r.vdiChunkHeader.take 4))

def size (r : Reader) : UInt32 := .ofNat (ofLittleEndian (r.vdiChunkHeader.drop 4))

/-- `sif->read` has put `bytes` into the header. -/
def readHeader (r : Reader) (bytes : List UInt8) : Reader :=
  let pos := r.recivePos.toNat
  let r := { r with
    vdiChunkHeader := r.vdiChunkHeader.take pos ++ bytes ++ r.vdiChunkHeader.drop (pos + bytes.length)
    reciveLen := r.reciveLen - UInt32.ofNat bytes.length }
  if r.reciveLen ≠ 0 then { r with recivePos := r.recivePos + bytes.length }
  else { r with messageReciveLen := r.size, readState := .getBuff }

def getBuff (r : Reader) : Reader :=
  let max := UInt32.ofNat spiceAgentMaxDataSize
  let reciveLen := if r.messageReciveLen ≤ max then r.messageReciveLen else max
  { r with
    currentReadBuf := some ⟨reciveLen, []⟩
    recivePos := 0
    reciveLen := reciveLen
    messageReciveLen := r.messageReciveLen - reciveLen
    readState := .readData }

/-- `sif->read` has put `bytes` into the current buffer. -/
def readData (r : Reader) (buf : ReadBuf) (bytes : List UInt8) : Reader × Option ReadBuf :=
  let buf := { buf with data := buf.data ++ bytes }
  let r := { r with reciveLen := r.reciveLen - UInt32.ofNat bytes.length }
  if r.reciveLen ≠ 0 then
    ({ r with recivePos := r.recivePos + bytes.length, currentReadBuf := some buf }, none)
  else if r.messageReciveLen = 0 then
    ({ r with readState := .readHader, recivePos := 0, reciveLen := 8, currentReadBuf := none }, some buf)
  else ({ r with readState := .getBuff, recivePos := 0, currentReadBuf := none }, some buf)

/-- The next byte of the agent, where there is a free buffer. -/
def feed (r : Reader) (byte : UInt8) : Reader × Option ReadBuf :=
  let r := if r.readState = .getBuff then r.getBuff else r
  match r.readState, r.currentReadBuf with
  | .readData, some buf => if r.reciveLen = 0 then (r, none) else r.readData buf [byte]
  | .readHader, _ => (r.readHeader [byte], none)
  | _, _ => (r, none)

/-- What is dispatched from a stream, with the ports. A wrong port ends it. -/
def parse : Reader → List UInt8 → List (UInt32 × List UInt8)
  | _, [] => []
  | r, byte :: stream =>
    match r.feed byte with
    | (r, none) => r.parse stream
    | (r', some buf) => (r'.port, buf.data) :: if r'.port = vdpClientPort ∨ r'.port = vdpServerPort then r'.parse stream else []

end Reader

namespace Reds

/-- A server with a client and no agent. -/
def linked : Reds where
  serial := 0
  pingId := 0
  peer := true
  connected := false
  plugGeneration := 0
  numTokens := 0
  numClientTokens := redsAgentWindowSize
  externalBufs := redsAgentWindowSize.toNat
  internalBufs := redsNumInternalAgentMessages.toNat
  writeQueue := []
  readBufs := redsVdiPortNumReciveBuffs
  outgoing := 0
  reader := .init
  clientAgentStarted := 0
  aborted := false

/-- A fresh server with the agent connected once and the client linked as migration target. -/
def target : Reds := { linked with connected := true, plugGeneration := 1, numClientTokens := 0 }

def redsSendTokens (s : Reds) : Reds :=
  if s.peer then
    { s with
      numClientTokens := s.numClientTokens + s.numTokens
      aborted := s.aborted || redsAgentWindowSize < s.numClientTokens + s.numTokens
      numTokens := 0 }
  else s

def addToken (s : Reds) : Reds :=
  let s := { s with numTokens := s.numTokens + 1 }
  if s.numTokens = redsTokensToSend then s.redsSendTokens else s

/-- `buf->free`. A pending mouse event is one that comes right after. -/
def free (s : Reds) (buf : VDIPortBuf) : Reds :=
  match buf.kind with
  | .external => { s with externalBufs := s.externalBufs + 1 }.addToken
  | .internal => { s with internalBufs := s.internalBufs + 1 }
  | .tmp => s

def redsResetVdp (s : Reds) : Reds :=
  let s := s.writeQueue.foldl free { s with writeQueue := [] }
  { s with
    readBufs := s.reader.currentReadBuf.toList.length + s.readBufs
    reader := s.reader.reset
    clientAgentStarted := 0 }

def redsDisconnect (s : Reds) : Reds :=
  if ¬ s.peer then s
  else
    let s := if s.connected then { s with connected := false }.redsResetVdp else s
    { s with peer := false, serial := 0, pingId := 0 }

/-- `main_channel_push_migrate_data_item`, the bytes of the message. -/
def mainChannelPushMigrateDataItem (s : Reds) : List UInt8 :=
  let r := s.reader
  let readBufLen := match r.currentReadBuf with | none => 0 | some buf => buf.len
  let readBuf := match r.currentReadBuf with | none => [] | some buf => buf.data.take (readBufLen - r.reciveLen).toNat
  le32 mainChannelMigDataVersion ++ (le32 s.serial.toUInt32 ++ (le32 s.pingId ++ (le32 (if s.connected then 1 else 0) ++
    (le32 s.clientAgentStarted ++ (le32 s.numClientTokens ++ (le32 (-1) ++
    (le32 (match r.readState with | .readHader => 0 | .getBuff => 1 | .readData => 2) ++ (r.vdiChunkHeader ++
    (le32 r.reciveLen ++ (le32 r.messageReciveLen ++ (le32 readBufLen ++ (le32 (.ofNat s.writeQueue.length) ++
    (readBuf ++ (s.writeQueue.flatMap (fun buf => le32 buf.port ++ le32 (.ofNat buf.now.length)) ++
    s.writeQueue.flatMap (·.now)))))))))))))))

/-- `main_channel_restore_vdi_read_state`: the state, the position behind what was read of the message where it
returns `TRUE`, and the accesses. -/
def mainChannelRestoreVdiReadState (m : Mem) (s : Reds) : Reds × Option Nat × List Access :=
  let readBufLen := m.word 48
  let r : Reader := { s.reader with
    vdiChunkHeader := m.slice 32 sizeofChunkHeader
    reciveLen := m.word 40
    messageReciveLen := m.word 44 }
  let header := Access.write sizeofChunkHeader sizeofChunkHeader
  if m.word 28 = 0 then
    let s := { s with reader := { r with readState := .readHader } }
    if readBufLen ≠ 0 then (s.redsDisconnect, none, [header])
    else
      ({ s with reader := { s.reader with recivePos := sizeofChunkHeader - r.reciveLen.toNat } },
        some sizeofMainMigrateData,
        [header, .range sizeofChunkHeader (sizeofChunkHeader - r.reciveLen.toNat) r.reciveLen.toNat])
  else if m.word 28 = 1 then
    let s := { s with reader := { r with readState := .getBuff } }
    if r.size < r.messageReciveLen then (s.redsDisconnect, none, [header])
    else if readBufLen ≠ 0 then (s.redsDisconnect, none, [header])
    else (s, some sizeofMainMigrateData, [header])
  else if m.word 28 = 2 then
    let s := { s with reader := { r with readState := .readData } }
    if readBufLen = 0 then (s.redsDisconnect, none, [header])
    else if r.size < r.messageReciveLen then (s.redsDisconnect, none, [header])
    else if s.readBufs = 0 then (s.redsDisconnect, none, [header])
    else
      let n := readBufLen - r.reciveLen
      let buff : ReadBuf := ⟨readBufLen, m.slice sizeofMainMigrateData n.toNat⟩
      let s := { s with readBufs := s.readBufs - 1, reader := { s.reader with currentReadBuf := some buff } }
      -- `len` is an int, `n` is not
      if (spiceAgentMaxDataSize : Int) < readBufLen.toInt32.toInt ∨ spiceAgentMaxDataSize < n.toNat then
        (s.redsDisconnect, none, [header])
      else
        ({ s with reader := { s.reader with recivePos := n.toNat } }, some (sizeofMainMigrateData + n.toNat),
          [header, .read sizeofMainMigrateData n.toNat, .write spiceAgentMaxDataSize n.toNat,
            .range spiceAgentMaxDataSize n.toNat r.reciveLen.toNat])
  else (s.redsDisconnect, none, [header])

/-- `chunk_header.port` in a new buffer to which `bytes` were copied. -/
def copiedPort (bytes : List UInt8) (junk : Nat → UInt8) : UInt32 :=
  .ofNat (ofLittleEndian ((List.range 4).map fun i => bytes.getD i (junk i)))

/-- The loop of `main_channel_restore_vdi_wqueue` for the rest of the infos. `junk` is what `malloc` leaves in a new
buffer. -/
def restoreWqueueLoop (m : Mem) (junk : Nat → Nat → UInt8) : Nat → Nat → Nat → Reds → Reds × List Access
  | 0, _, _, s => (s, [])
  | n + 1, inf, pos, s =>
    let port := m.word inf
    let len := (m.word (inf + 4)).toNat
    let info := Access.read inf sizeofWriteQueueInfo
    if m.size < pos + len then (s.redsDisconnect, [info])
    else if port = vdpServerPort then
      if internalHeaderSpace < len then (s.redsDisconnect, [info])
      else
        let bytes := m.slice pos len
        let rest := restoreWqueueLoop m junk n (inf + sizeofWriteQueueInfo) (pos + len)
          { s with writeQueue := s.writeQueue ++ [⟨.tmp, copiedPort bytes (junk n), bytes⟩] }
        (rest.1, info :: .read pos len :: .write (sizeofChunkHeader + internalHeaderSpace) len :: rest.2)
    else if port = vdpClientPort then
      let s := { s with numTokens := s.numTokens - 1 }
      if externalBufSpace < len then (s.redsDisconnect, [info])
      else if s.externalBufs = 0 then (s.redsDisconnect, [info])
      else
        let rest := restoreWqueueLoop m junk n (inf + sizeofWriteQueueInfo) (pos + len)
          { s with
            externalBufs := s.externalBufs - 1
            writeQueue := s.writeQueue ++ [⟨.external, vdpClientPort, m.slice pos len⟩] }
        (rest.1, info :: .read pos len :: .write externalBufSpace len :: rest.2)
    else (s.redsDisconnect, [info])

/-- `main_channel_restore_vdi_wqueue`. What it returns is not looked at. -/
def mainChannelRestoreVdiWqueue (m : Mem) (junk : Nat → Nat → UInt8) (pos : Nat) (s : Reds) : Reds × List Access :=
  let n := (m.word 52).toNat
  if n = 0 then (s, [])
  else
    let infEnd := pos + n * sizeofWriteQueueInfo
    if m.size < infEnd then (s.redsDisconnect, []) else restoreWqueueLoop m junk n pos infEnd s

def assert (s : Reds) (p : Bool) : Reds := { s with aborted := s.aborted || !p }

/-- `main_channel_recive_migrate_data`. The messages to the client about the agent are left out. -/
def mainChannelReciveMigrateData (s : Reds) (m : Mem) (junk : Nat → Nat → UInt8) : Reds × List Access :=
  let version := Access.read 0 4
  if m.word 0 ≠ mainChannelMigDataVersion then (s.redsDisconnect, [version])
  else
    let data := Access.read 4 (sizeofMainMigrateData - 4)
    let s := { s with
      serial := (m.word 4).toUInt64
      pingId := m.word 8
      numClientTokens := m.word 20 }
    let s := s.assert (s.numClientTokens + m.word 52 ≤ redsAgentWindowSize + redsNumInternalAgentMessages)
    if s.aborted then (s, [version, data])
    else
      let s := { s with numTokens := redsAgentWindowSize - s.numClientTokens }
      if m.word 12 = 0 then (s, [version, data])
      else if ¬ s.connected then (s, [version, data])
      else if 1 < s.plugGeneration then (s, [version, data])
      else
        let s := { s with clientAgentStarted := m.word 16 }
        match mainChannelRestoreVdiReadState m s with
        | (s, none, read) => (s, version :: data :: read)
        | (s, some pos, read) =>
          let (s, write) := mainChannelRestoreVdiWqueue m junk pos s
          (s.assert (s.numClientTokens + s.numTokens = redsAgentWindowSize), version :: data :: (read ++ write))

/-- `SPICE_MSGC_MAIN_AGENT_DATA`. `none` is a disconnection. -/
def mainAgentData (s : Reds) (message : List UInt8) : Option Reds :=
  if s.numClientTokens = 0 then none
  else
    let s := { s with numClientTokens := s.numClientTokens - 1 }
    if ¬ s.connected then some s.addToken
    else if s.clientAgentStarted = 0 then some s.addToken
    else if spiceAgentMaxDataSize < message.length then none
    else if s.externalBufs = 0 then none
    else
      let header : VDIChunkHeader := ⟨vdpClientPort, .ofNat message.length⟩
      some { s with
        externalBufs := s.externalBufs - 1
        writeQueue := s.writeQueue ++ [⟨.external, vdpClientPort, header.bytes ++ message⟩] }

/-- `reds_handle_agent_mouse_event` with the `VDAgentMouseState` at hand. -/
def redsHandleAgentMouseEvent (s : Reds) (mouseState : List.Vector UInt8 13) : Reds :=
  if s.internalBufs = 0 then s
  else
    let chunkHeader : VDIChunkHeader := ⟨vdpServerPort, 20 + 13⟩
    -- `VD_AGENT_PROTOCOL`, `VD_AGENT_MOUSE_STATE`, the 64 bits of `opaque` and the size
    let header := le32 1 ++ le32 1 ++ littleEndian 0 8 ++ le32 13
    { s with
      internalBufs := s.internalBufs - 1
      writeQueue := s.writeQueue ++ [⟨.internal, vdpServerPort, chunkHeader.bytes ++ header ++ mouseState.toList⟩] }

/-- A round of `write_to_vdi_port` in which the device takes `n` bytes. -/
def writeToVdiPort (s : Reds) (n : Nat) : Reds :=
  match s.writeQueue with
  | [] => s
  | buf :: writeQueue =>
    if ¬ s.connected ∨ n = 0 then s
    else if buf.now.length ≤ n then { s with writeQueue := writeQueue }.free buf
    else { s with writeQueue := { buf with now := buf.now.drop n } :: writeQueue }

def redsAgentRemove (s : Reds) : Reds := if s.connected then { s with connected := false }.redsResetVdp else s

/-- The agent is attached, or attached again. -/
def attachToRedAgent (s : Reds) : Reds :=
  if s.connected then s else { s with connected := true, plugGeneration := s.plugGeneration + 1 }

def dispatchVdiPortData (s : Reds) : Reds :=
  if s.reader.port = vdpClientPort then { s with outgoing := s.outgoing + 1 }
  else if s.reader.port = vdpServerPort then { s with readBufs := s.readBufs + 1 }
  else { s with readBufs := s.readBufs + 1 }.redsAgentRemove

/-- A round of `read_from_vdi_port` in which `sif->read` gives `bytes` where it is called. -/
def readFromVdiPort (s : Reds) (bytes : List UInt8) : Reds :=
  if ¬ s.connected then s
  else
    match s.reader.readState, s.reader.currentReadBuf with
    | .readHader, _ =>
      if bytes = [] ∨ s.reader.reciveLen.toNat < bytes.length then s
      else { s with reader := s.reader.readHeader bytes }
    | .getBuff, _ =>
      if s.readBufs = 0 then s else { s with readBufs := s.readBufs - 1, reader := s.reader.getBuff }
    | .readData, some buf =>
      if bytes = [] ∨ s.reader.reciveLen.toNat < bytes.length then s
      else
        match s.reader.readData buf bytes with
        | (r, none) => { s with reader := r }
        | (r, some _) => { s with reader := r }.dispatchVdiPortData
    | .readData, none => s

/-- `vdi_read_buf_release`. -/
def vdiReadBufRelease (s : Reds) : Reds :=
  if s.outgoing = 0 then s else { s with outgoing := s.outgoing - 1, readBufs := s.readBufs + 1 }

end Reds

/-- The steps of a server with a client. -/
inductive Act
  | agentStart
  | agentData (message : List UInt8)
  | mouseEvent (mouseState : List.Vector UInt8 13)
  | write (n : Nat)
  | read (bytes : List UInt8)
  | readBufRelease
  | attach
  | remove

/-- A step after which the client is still there. -/
def Reds.step (s : Reds) : Act → Option Reds
  | .agentStart => some { s with clientAgentStarted := 1 }
  | .agentData message => s.mainAgentData message
  | .mouseEvent mouseState => some (if s.connected then s.redsHandleAgentMouseEvent mouseState else s)
  | .write n => some (s.writeToVdiPort n)
  | .read bytes => some (s.readFromVdiPort bytes)
  | .readBufRelease => some s.vdiReadBufRelease
  | .attach => some s.attachToRedAgent
  | .remove => some s.redsAgentRemove

end Colama.Spice.VdiPort.Migrate
