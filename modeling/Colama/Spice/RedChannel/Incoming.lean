import Mathlib.Tactic
import Colama.Lib.Frames

namespace Colama.Spice.RedChannel

open Lib

/-- `sizeof(SpiceDataHeader)`; the struct is packed. -/
def sizeofDataHeader : Nat := 18

/-- The field `size` of a header, which lies behind `serial` and `type`. -/
def headerSize (header : List UInt8) : Nat :=
  (header.getD 10 0).toNat + 256 * ((header.getD 11 0).toNat + 256 * ((header.getD 12 0).toNat +
    256 * (header.getD 13 0).toNat))

theorem headerSize_lt (header : List UInt8) : headerSize header < 2 ^ 32 := by
  have h₀ := (header.getD 10 0).toNat_lt
  have h₁ := (header.getD 11 0).toNat_lt
  have h₂ := (header.getD 12 0).toNat_lt
  have h₃ := (header.getD 13 0).toNat_lt
  rw [headerSize]
  omega

/-- What happens on the socket while `red_peer_handle_incoming` runs: bytes that a read returns, as many
of them as fit, an interrupted read, or a read that fails. Behind the last one there is nothing to
read until the next call. -/
inductive Arrival
  | bytes (bs : List UInt8)
  | eintr
  | failed

structure IncomingHandler where
  header : List UInt8
  headerPos : Nat
  msg : Option (List UInt8)
  msgPos : Nat

/-- The loop of `red_peer_receive`: what it stores, and what is still to arrive. -/
def receive : List Arrival → Nat → List UInt8 → Option (List UInt8 × List Arrival)
  | as, 0, got => some (got, as)
  | [], _ + 1, got => some (got, [])
  | .eintr :: as, n + 1, got => receive as (n + 1) got
  | .failed :: _, _ + 1, _ => none
  | .bytes bs :: as, n + 1, got =>
    if bs = [] then none
    else if bs.length ≤ n + 1 then receive as (n + 1 - bs.length) (got ++ bs)
    else some (got ++ bs.take (n + 1), .bytes (bs.drop (n + 1)) :: as)

/-- The number of bytes is returned as an `int`, -1 is an error. -/
def redPeerReceive (as : List Arrival) (size : Nat) : Int × List UInt8 × List Arrival :=
  match receive as size [] with
  | none => (-1, [], [])
  | some (got, as) => ((got.length : Int).bmod (2 ^ 32), got, as)

/-- `bs` stored into `buf` from `pos` on. -/
def store (buf : List UInt8) (pos : Nat) (bs : List UInt8) : List UInt8 :=
  buf.take pos ++ (bs ++ buf.drop (pos + bs.length))

/-- How a part of a message was received. -/
inductive Progress
  | failed
  | waiting (h : IncomingHandler)
  | ready (h : IncomingHandler) (as : List Arrival)

/-- A position in `uint32_t` moved on by an `int`. -/
def advance (pos : Nat) (n : Int) : Nat := ((pos + n) % 2 ^ 32).toNat

def readHeader (h : IncomingHandler) (as : List Arrival) : Progress :=
  if h.headerPos < sizeofDataHeader then
    let (bytesRead, got, as) := redPeerReceive as (sizeofDataHeader - h.headerPos)
    if bytesRead = -1 then .failed
    else
      let h := { h with
        header := store h.header h.headerPos got
        headerPos := advance h.headerPos bytesRead }
      if h.headerPos ≠ sizeofDataHeader then .waiting h else .ready h as
  else .ready h as

/-- `fill` is what the buffer of `alloc_msg_buf` for a header holds at first. -/
def allocMsgBuf (fill : List UInt8 → Nat → UInt8) (header : List UInt8) : List UInt8 :=
  (List.range (headerSize header)).map (fill header)

variable (fill : List UInt8 → Nat → UInt8)

def readBody (h : IncomingHandler) (as : List Arrival) : Progress :=
  if h.msgPos < headerSize h.header then
    let msg := h.msg.getD (allocMsgBuf fill h.header)
    let (bytesRead, got, as) := redPeerReceive as (headerSize h.header - h.msgPos)
    if bytesRead = -1 then .failed
    else
      let h := { h with msg := some (store msg h.msgPos got), msgPos := advance h.msgPos bytesRead }
      if h.msgPos ≠ headerSize h.header then .waiting h else .ready h as
  else .ready h as

/-- Where a call ended: `none` after `on_error`. The messages that were handled are kept in order. -/
structure Incoming where
  handler : Option IncomingHandler
  handled : List (List UInt8 × List UInt8)

/-- `red_peer_handle_incoming`; `handle` is what `handle_message` returns for a header and its body. -/
@[grind] def redPeerHandleIncoming (handle : List UInt8 → List UInt8 → Bool) :
    Nat → IncomingHandler → List Arrival → List (List UInt8 × List UInt8) → Incoming
  | 0, _, _, handled => ⟨none, handled⟩
  | fuel + 1, h, as, handled =>
    match readHeader h as with
    | .failed => ⟨none, handled⟩
    | .waiting h => ⟨some h, handled⟩
    | .ready h as =>
      match readBody fill h as with
      | .failed => ⟨none, handled⟩
      | .waiting h => ⟨some h, handled⟩
      | .ready h as =>
        let body := (h.msg.getD []).take (headerSize h.header)
        let handled := handled ++ [(h.header, body)]
        if handle h.header body then
          redPeerHandleIncoming handle fuel ⟨h.header, 0, none, 0⟩ as handled
        else ⟨none, handled⟩

def arrivedBytes (as : List Arrival) : List UInt8 :=
  as.flatMap fun
    | .bytes bs => bs
    | _ => []

/-- A call handles at most one message for every byte that arrives. -/
def handleIncoming (handle : List UInt8 → List UInt8 → Bool) (s : Incoming) (as : List Arrival) :
    Incoming :=
  match s.handler with
  | none => s
  | some h => redPeerHandleIncoming fill handle ((arrivedBytes as).length + 1) h as s.handled

/-- `channel` is allocated with zeros. -/
def IncomingHandler.create : IncomingHandler := ⟨List.replicate sizeofDataHeader 0, 0, none, 0⟩

/-- All calls of `red_peer_handle_incoming`, with what arrives during each of them. -/
def handleAll (handle : List UInt8 → List UInt8 → Bool) (calls : List (List Arrival)) : Incoming :=
  calls.foldl (handleIncoming fill handle) ⟨some .create, []⟩

end Colama.Spice.RedChannel
