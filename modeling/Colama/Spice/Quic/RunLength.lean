import Colama.Spice.Quic.BitIo

namespace Colama.Spice.Quic

open Lib

def melcStates : Nat := 32

def J : List Nat :=
  [0, 0, 0, 0, 1, 1, 1, 1, 2, 2, 2, 2, 3, 3, 3, 3, 4, 4, 5, 5, 6, 6, 7, 7, 8, 9, 10, 11, 12, 13, 14, 15]

/-- One entry of `init_zeroLUT`, with its `j`, `k` and `l`. -/
def initZeroLUT : Nat → Nat → Nat → Nat → List Nat
  | 0, _, _, _ => []
  | i + 1, j, k, l => l :: if k - 1 = 0 then initZeroLUT i (j * 2) j (l - 1) else initZeroLUT i j (k - 1) l

def zeroLUT : List Nat := initZeroLUT 256 1 1 8

/-- The run-length part of `CommonState`. -/
structure RleState where
  melcstate : Nat
  melclen : Nat
  melcorder : Nat
  deriving DecidableEq

def encoderInitRle : RleState := ⟨0, J.getD 0 0, 1 <<< J.getD 0 0⟩

namespace RleState

variable (s : RleState)

/-- The state for another index into `J`. -/
def moveTo (i : Nat) : Except QuicError RleState :=
  match J[i]? with
  | some len => .ok ⟨i, len, 1 <<< len⟩
  | none => .error .outsideJ

def hit : Except QuicError RleState := if s.melcstate < melcStates then moveTo (s.melcstate + 1) else .ok s

/-- The parameters are adjusted after a run. -/
def adjust : Except QuicError RleState := if s.melcstate ≠ 0 then moveTo (s.melcstate - 1) else .ok s

end RleState

/-- The loop of `encode_run`. A hit that does not leave `J` is one of 31. -/
def encodeHits : Nat → Nat → RleState → Nat → Except QuicError (Nat × RleState × Nat)
  | 0, _, _, _ => .error .outOfFuel
  | fuel + 1, hits, s, runlen =>
    if s.melcorder ≤ runlen then do
      let s' ← s.hit
      encodeHits fuel (hits + 1) s' (runlen - s.melcorder)
    else .ok (hits, s, runlen)

def encodeAllOnes : Nat → BitWriter → Except QuicError BitWriter
  | 0, e => .ok e
  | count + 1, e => do
    let e ← e.encode 0xffffffff 32
    encodeAllOnes count e

def encodeOnes (e : BitWriter) (n : Nat) : Except QuicError BitWriter := do
  let e ← encodeAllOnes (n >>> 5) e
  if n &&& 0x1f ≠ 0 then e.encode (UInt32.ofNat (1 <<< (n &&& 0x1f) - 1)) (n &&& 0x1f) else return e

/-- What `encode_run` and `encode_channel_run` do with a state. -/
def encodeWith (s : RleState) (e : BitWriter) (runlen : UInt32) : Except QuicError (RleState × BitWriter) := do
  let (hits, s, runlen) ← encodeHits (melcStates + 1) 0 s runlen.toNat
  let e ← encodeOnes e hits
  let e ← e.encode (UInt32.ofNat runlen) (s.melclen + 1)
  let s ← s.adjust
  return (s, e)

/-- The inner loop of `decode_run`. -/
def climb : Nat → Nat → RleState → Except QuicError (Nat × RleState)
  | 0, runlen, s => .ok (runlen, s)
  | hits + 1, runlen, s => do
    let s' ← s.hit
    climb hits (runlen + s.melcorder) s'

/-- `zeroLUT[(BYTE)(~(encoder->io_word >> 24))]` -/
def BitReader.lookup (e : BitReader) : Nat := zeroLUT.getD (~~~(e.ioWord >>> 24)).toUInt8.toNat 0

/-- The outer loop. Each round but the last one takes eight bits of what is left. -/
def decodeHits : Nat → Nat → RleState → BitReader → Except QuicError (Nat × RleState × BitReader)
  | 0, _, _, _ => .error .outOfFuel
  | fuel + 1, runlen, s, e => do
    let (runlen, s) ← climb e.lookup runlen s
    if e.lookup ≠ 8 then
      let e ← e.decodeEatbits (e.lookup + 1)
      return (runlen, s, e)
    else
      let e ← e.decodeEatbits 8
      decodeHits fuel runlen s e

/-- The remainder of a run. -/
def decodeRest (len runlen : Nat) (e : BitReader) : Except QuicError (Nat × BitReader) :=
  if len ≠ 0 then do
    let e' ← e.decodeEatbits len
    return (runlen + (e.ioWord >>> UInt32.ofNat (32 - len)).toNat, e')
  else .ok (runlen, e)

/-- What `decode_run` and `decode_channel_run` do with a state. A run length that `J` has states for is
below 2^17, so the `int` does not overflow. -/
def decodeWith (s : RleState) (e : BitReader) : Except QuicError (Nat × RleState × BitReader) := do
  let (runlen, s, e) ← decodeHits (4 * (e.left.length + 2)) 0 s e
  let (runlen, e) ← decodeRest s.melclen runlen e
  let s ← s.adjust
  return (runlen, s, e)

/-- The run-length states of `Encoder`, one for the image and one for each of the `MAX_CHANNELS` channels. -/
structure RunStates where
  rgbState : RleState
  channels : Fin 4 → RleState

structure RunEncoder (Io : Type) extends RunStates where
  io : Io

def RunEncoder.init {Io : Type} (io : Io) : RunEncoder Io := ⟨⟨encoderInitRle, fun _ => encoderInitRle⟩, io⟩

inductive StateId
  | rgb
  | channel (c : Fin 4)

namespace RunStates

variable (r : RunStates)

def get : StateId → RleState
  | .rgb => r.rgbState
  | .channel c => r.channels c

def set (s : RleState) : StateId → RunStates
  | .rgb => { r with rgbState := s }
  | .channel c => { r with channels := Function.update r.channels c s }

end RunStates

section Calls

variable (e : RunEncoder BitWriter) (d : RunEncoder BitReader)

def encodeAt (id : StateId) (runlen : UInt32) : Except QuicError (RunEncoder BitWriter) := do
  let (s, io) ← encodeWith (e.get id) e.io runlen
  return ⟨e.set s id, io⟩

def decodeAt (id : StateId) : Except QuicError (Nat × RunEncoder BitReader) := do
  let (runlen, s, io) ← decodeWith (d.get id) d.io
  return (runlen, ⟨d.set s id, io⟩)

def encodeRun (runlen : UInt32) : Except QuicError (RunEncoder BitWriter) := encodeAt e .rgb runlen

def encodeChannelRun (channel : Fin 4) (runlen : UInt32) : Except QuicError (RunEncoder BitWriter) :=
  encodeAt e (.channel channel) runlen

def decodeRun : Except QuicError (Nat × RunEncoder BitReader) := decodeAt d .rgb

def decodeChannelRun (channel : Fin 4) : Except QuicError (Nat × RunEncoder BitReader) := decodeAt d (.channel channel)

end Calls

inductive EncodeCall
  | run (runlen : UInt32)
  | channelRun (channel : Fin 4) (runlen : UInt32)

inductive DecodeCall
  | run
  | channelRun (channel : Fin 4)

def EncodeCall.apply (e : RunEncoder BitWriter) : EncodeCall → Except QuicError (RunEncoder BitWriter)
  | run runlen => encodeRun e runlen
  | channelRun channel runlen => encodeChannelRun e channel runlen

def DecodeCall.apply (d : RunEncoder BitReader) : DecodeCall → Except QuicError (Nat × RunEncoder BitReader)
  | run => decodeRun d
  | channelRun channel => decodeChannelRun d channel

/-- The call without its result. -/
def DecodeCall.next (d : RunEncoder BitReader) (call : DecodeCall) : Except QuicError (RunEncoder BitReader) := do
  let (_, d) ← call.apply d
  return d

end Colama.Spice.Quic
