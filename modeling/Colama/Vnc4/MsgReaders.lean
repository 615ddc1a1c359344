import Mathlib
import Colama.Lib.Runs
import Colama.Lib.Triples

namespace Colama.Vnc4.MsgReaders

open Lib

abbrev Bytes := List UInt8

/-- `thrown`: an exception, also that of the end of the stream. `overrun`: an access outside of an array. -/
inductive Stop
  | thrown
  | overrun
  deriving DecidableEq

/-- What a reader works on. The server's reader has no rectangles. -/
structure Reading (H : Type) where
  stream : Bytes
  handler : H
  nUpdateRectsLeft : ℕ
  decoders : ℕ → Bool

abbrev Read (H α : Type) := EStateM Stop (Reading H) α

/-- A handler of messages, with the parts of its `cp` that the readers look at. A message may make it throw. -/
structure Handler (H C : Type) where
  width : H → ℤ
  height : H → ℤ
  bpp : H → ℤ
  call : C → H → Option H

structure Rect where
  x : ℤ
  y : ℤ
  brX : ℤ
  brY : ℤ
  deriving DecidableEq

structure PixelFormat where
  bpp : ℕ
  depth : ℕ
  bigEndian : Bool
  trueColour : Bool
  redMax : ℕ
  greenMax : ℕ
  blueMax : ℕ
  redShift : ℕ
  greenShift : ℕ
  blueShift : ℕ
  deriving DecidableEq

/-- The calls for a `SMsgHandler`. -/
inductive ServerCall
  | setPixelFormat (pf : PixelFormat)
  | setEncodings (nEncodings : ℤ) (encodings : List ℕ)
  | framebufferUpdateRequest (r : Rect) (incremental : Bool)
  | keyEvent (key : ℕ) (down : Bool)
  | pointerEvent (x y : ℤ) (mask : ℤ)
  | clientCutText (str : Bytes) (len : ℤ)

/-- The calls for a `CMsgHandler`. -/
inductive ClientCall
  | setDesktopSize (w h : ℤ)
  | setCursor (width height x y : ℤ) (data mask : Bytes)
  | framebufferUpdateStart
  | framebufferUpdateEnd
  | beginRect (r : Rect) (encoding : ℕ)
  | endRect (r : Rect) (encoding : ℕ)
  | setColourMapEntries (firstColour nColours : ℤ) (rgbs : List ℕ)
  | bell
  | serverCutText (str : Bytes) (len : ℤ)
  | copyRect (r : Rect) (srcX srcY : ℤ)

section

variable {H C α : Type}

def readU8 : Read H ℕ := do
  let s ← get
  match s.stream with
  | [] => throw .thrown
  | b :: rest =>
    set { s with stream := rest }
    return b.toNat

def readU16 : Read H ℕ := do
  let b0 ← readU8
  let b1 ← readU8
  return b0 * 2 ^ 8 + b1

def readU32 : Read H ℕ := do
  let hi ← readU16
  let lo ← readU16
  return hi * 2 ^ 16 + lo

/-- A number as an `int`. -/
@[irreducible] def toInt (n : ℤ) : ℤ := n.bmod (2 ^ 32)

def skip (bytes : ℤ) : Read H Unit := do
  let s ← get
  if s.stream.length < bytes.toNat then throw .thrown else set { s with stream := s.stream.drop bytes.toNat }

/-- `new`, of an array for `len` items. -/
def newArray [Inhabited α] (len : ℤ) : Read H (List α) :=
  if len < 0 then throw .thrown else return List.replicate len.toNat default

def store (buf : List α) (i : ℤ) (a : α) : Read H (List α) :=
  if 0 ≤ i ∧ i < buf.length then return buf.set i.toNat a else throw .overrun

/-- `readBytes`, which copies what there is before it finds that there is no more. -/
def readBytes (buf : Bytes) (length : ℤ) : Read H Bytes := do
  let s ← get
  if buf.length < min length.toNat s.stream.length then throw .overrun
  else if s.stream.length < length.toNat then throw .thrown
  else
    set { s with stream := s.stream.drop length.toNat }
    return s.stream.take length.toNat ++ buf.drop length.toNat

/-- The loop that reads `n` items, the first of them to the place `i`. -/
def readItems (readItem : Read H α) : ℕ → ℕ → List α → Read H (List α)
  | 0, _, buf => return buf
  | n + 1, i, buf => do
    let a ← readItem
    let buf ← store buf i a
    readItems readItem n (i + 1) buf

def tell (handler : Handler H C) (c : C) : Read H Unit := do
  let s ← get
  match handler.call c s.handler with
  | none => throw .thrown
  | some h => set { s with handler := h }

def readPixelFormat : Read H PixelFormat := do
  let bpp ← readU8
  let depth ← readU8
  let bigEndian ← readU8
  let trueColour ← readU8
  let redMax ← readU16
  let greenMax ← readU16
  let blueMax ← readU16
  let redShift ← readU8
  let greenShift ← readU8
  let blueShift ← readU8
  skip 3
  return ⟨bpp, depth, bigEndian ≠ 0, trueColour ≠ 0, redMax, greenMax, blueMax, redShift, greenShift, blueShift⟩

/-- The reading of a cut text, of at most `limit` bytes. -/
def readCutText (handler : Handler H C) (limit : ℤ) (cutText : Bytes → ℤ → C) : Read H Unit := do
  skip 3
  let len ← readU32
  let len := toInt len
  if len > limit then skip len
  else do
    let ca ← newArray (toInt (len + 1))
    let ca ← store ca len 0
    let ca ← readBytes ca len
    tell handler (cutText ca len)

end

section Server

variable {H : Type} (handler : Handler H ServerCall) (maxCutText : ℤ)

def readSetPixelFormat : Read H Unit := do
  skip 3
  let pf ← readPixelFormat
  tell handler (.setPixelFormat pf)

def readSetEncodings : Read H Unit := do
  skip 1
  let nEncodings ← readU16
  let encodings ← newArray nEncodings
  let encodings ← readItems readU32 nEncodings 0 encodings
  tell handler (.setEncodings nEncodings encodings)

def readFramebufferUpdateRequest : Read H Unit := do
  let inc ← readU8
  let x ← readU16
  let y ← readU16
  let w ← readU16
  let h ← readU16
  tell handler (.framebufferUpdateRequest ⟨x, y, x + w, y + h⟩ (inc ≠ 0))

def readKeyEvent : Read H Unit := do
  let down ← readU8
  skip 2
  let key ← readU32
  tell handler (.keyEvent key (down ≠ 0))

def readPointerEvent : Read H Unit := do
  let mask ← readU8
  let x ← readU16
  let y ← readU16
  tell handler (.pointerEvent x y mask)

def readClientCutText : Read H Unit := readCutText handler maxCutText .clientCutText

/-- `SMsgReaderV3::readMsg`. -/
def serverReadMsg : Read H Unit := do
  let msgType ← readU8
  match msgType with
  | 0 => readSetPixelFormat handler
  | 2 => readSetEncodings handler
  | 3 => readFramebufferUpdateRequest handler
  | 4 => readKeyEvent handler
  | 5 => readPointerEvent handler
  | 6 => readClientCutText handler maxCutText
  | _ => throw .thrown

end Server

def encodingCopyRect : ℕ := 1

def encodingMax : ℕ := 255

def pseudoEncodingCursor : ℕ := 0xffffff11

def pseudoEncodingDesktopSize : ℕ := 0xffffff21

/-- The encodings that `DecoderInit` registers: raw, RRE, hextile and ZRLE. -/
def createFns : List ℕ := [0, 2, 5, 16]

section Client

variable {H : Type} (handler : Handler H ClientCall)

/-- What the decoder of an encoding makes of the stream and the handler, if it does not throw. -/
abbrev Decode (H : Type) := ℕ → Rect → Bytes → H → Option (Bytes × H)

variable (decode : Decode H)

def readSetColourMapEntries : Read H Unit := do
  skip 1
  let firstColour ← readU16
  let nColours ← readU16
  let rgbs ← newArray (nColours * 3 : ℕ)
  let rgbs ← readItems readU16 (nColours * 3) 0 rgbs
  tell handler (.setColourMapEntries firstColour nColours rgbs)

def readServerCutText : Read H Unit := readCutText handler (256 * 1024) .serverCutText

def readCopyRect (r : Rect) : Read H Unit := do
  let srcX ← readU16
  let srcY ← readU16
  tell handler (.copyRect r srcX srcY)

/-- The decoder at that place of `decoders`, which is made if it is not there. -/
def decoderFor (encoding : ℕ) : Read H Unit := do
  let s ← get
  if encodingMax < encoding then throw .overrun
  else if s.decoders encoding then return
  else if encoding ∈ createFns then set { s with decoders := Function.update s.decoders encoding true }
  else throw .thrown

def runDecoder (encoding : ℕ) (r : Rect) : Read H Unit := do
  let s ← get
  match decode encoding r s.stream s.handler with
  | none => throw .thrown
  | some (stream, h) => set { s with stream, handler := h }

/-- The rectangle is not in the framebuffer. -/
def tooBig (r : Rect) (h : H) : Bool := decide (handler.width h < r.brX ∨ handler.height h < r.brY)

def readRect (r : Rect) (encoding : ℕ) : Read H Unit := do
  let s ← get
  if tooBig handler r s.handler then throw .thrown
  else do
    tell handler (.beginRect r encoding)
    if encoding = encodingCopyRect then readCopyRect handler r
    else do
      decoderFor encoding
      runDecoder decode encoding r
    tell handler (.endRect r encoding)

def readSetCursor (width height x y : ℕ) : Read H Unit := do
  let s ← get
  let dataLen := toInt (width * height * (handler.bpp s.handler).tdiv 8)
  let maskLen : ℤ := (width + 7) / 8 * height
  let data ← newArray dataLen
  let mask ← newArray maskLen
  let data ← readBytes data dataLen
  let mask ← readBytes mask maskLen
  tell handler (.setCursor width height x y data mask)

def readFramebufferUpdate : Read H Unit := do
  skip 1
  let nUpdateRectsLeft ← readU16
  modify fun s => { s with nUpdateRectsLeft }
  tell handler .framebufferUpdateStart

/-- The part of `readMsg` for a message. -/
def readMessage : Read H Unit := do
  let type ← readU8
  match type with
  | 0 => readFramebufferUpdate handler
  | 1 => readSetColourMapEntries handler
  | 2 => tell handler .bell
  | 3 => readServerCutText handler
  | _ => throw .thrown

/-- What `readMsg` does with the header of a rectangle of an update. -/
def readUpdateRect (x y w h encoding : ℕ) : Read H Unit := do
  if encoding = pseudoEncodingDesktopSize then tell handler (.setDesktopSize w h)
  else if encoding = pseudoEncodingCursor then readSetCursor handler w h x y
  else readRect handler decode ⟨x, y, x + w, y + h⟩ encoding
  modify fun s => { s with nUpdateRectsLeft := s.nUpdateRectsLeft - 1 }
  let s ← get
  if s.nUpdateRectsLeft = 0 then tell handler .framebufferUpdateEnd

/-- The part of `readMsg` for a rectangle of an update. -/
def readRectangle : Read H Unit := do
  let x ← readU16
  let y ← readU16
  let w ← readU16
  let h ← readU16
  let encoding ← readU32
  readUpdateRect handler decode x y w h encoding

/-- `CMsgReaderV3::readMsg`. -/
def clientReadMsg : Read H Unit := do
  let s ← get
  if s.nUpdateRectsLeft = 0 then readMessage handler else readRectangle handler decode

end Client

/-- A call of `readMsg`. None is left to do after an exception. -/
def step {H : Type} (readMsg : Read H Unit) (s : Option (Reading H)) (_ : Unit) : Except Stop (Option (Reading H)) :=
  match s with
  | none => .ok none
  | some reading =>
    match readMsg reading with
    | .ok _ reading => .ok (some reading)
    | .error .thrown _ => .ok none
    | .error .overrun _ => .error .overrun

/-- However often a reader is called, it accesses no array outside of its bounds. -/
def ReadsSafely {H : Type} (readMsg : Read H Unit) (calls : ℕ) (reading : Reading H) : Prop :=
  Safe (step readMsg) (fun _ => True) .overrun (List.replicate calls ()) (some reading)

/-- A message of that type at the front of a stream that is a cut text of length 2^32 - 1, which is -1 as an `int`. -/
def CutTextMinusOne (type : UInt8) (stream : Bytes) : Prop :=
  ∃ a b c rest, stream = type :: a :: b :: c :: 255 :: 255 :: 255 :: 255 :: rest

/-- The message that the server's reader finds is no cut text of length -1, or that is too long. -/
def ServerFits (maxCutText : ℤ) {H : Type} (s : Option (Reading H)) (_ : Unit) : Prop :=
  ∀ reading, s = some reading → -1 ≤ maxCutText → ¬CutTextMinusOne 6 reading.stream

/-- A rectangle header at the front of a stream. -/
structure Header where
  x : ℕ
  y : ℕ
  w : ℕ
  h : ℕ
  encoding : ℕ

def Header.rect (header : Header) : Rect := ⟨header.x, header.y, header.x + header.w, header.y + header.h⟩

def header? : Bytes → Option Header
  | x₁ :: x₀ :: y₁ :: y₀ :: w₁ :: w₀ :: h₁ :: h₀ :: e₃ :: e₂ :: e₁ :: e₀ :: _ =>
    some ⟨x₁.toNat * 2 ^ 8 + x₀.toNat, y₁.toNat * 2 ^ 8 + y₀.toNat, w₁.toNat * 2 ^ 8 + w₀.toNat,
      h₁.toNat * 2 ^ 8 + h₀.toNat, (e₃.toNat * 2 ^ 8 + e₂.toNat) * 2 ^ 16 + (e₁.toNat * 2 ^ 8 + e₀.toNat)⟩
  | _ => none

/-- The encoding of a header is used as an index, and is none: it is above `encodingMax` and no pseudo encoding, and the
rectangle is in the framebuffer and begun. -/
def BadIndex {H : Type} (handler : Handler H ClientCall) (h : H) (header : Header) : Prop :=
  encodingMax < header.encoding ∧ header.encoding ≠ pseudoEncodingDesktopSize ∧
    header.encoding ≠ pseudoEncodingCursor ∧ tooBig handler header.rect h = false ∧
      (handler.call (.beginRect header.rect header.encoding) h).isSome = true

/-- What the client's reader finds: no cut text of length -1, and no header with a bad index. -/
def ClientFits {H : Type} (handler : Handler H ClientCall) (s : Option (Reading H)) (_ : Unit) : Prop :=
  ∀ reading, s = some reading →
    if reading.nUpdateRectsLeft = 0 then ¬CutTextMinusOne 3 reading.stream
    else ∀ header, header? reading.stream = some header → ¬BadIndex handler reading.handler header

section

variable {H C α : Type} {s : Reading H} {P : Reading H → Prop} {Q : α → Reading H → Prop} {n : ℤ}

/-- The program accesses no array outside of its bounds, from the states in `P`. -/
abbrev Sound (P : Reading H → Prop) (x : Read H α) (Q : α → Reading H → Prop) : Prop :=
  Triple P x Q fun e _ => e ≠ .overrun

theorem bind_eq {β : Type} {x : Read H α} {f : α → Read H β} {a : α} {s' : Reading H} (h : x s = .ok a s') :
    (x >>= f) s = f a s' := by
  simp only [bind, EStateM.bind, h]

theorem readU8_eq {b : UInt8} {rest : Bytes} (h : s.stream = b :: rest) :
    readU8 s = .ok b.toNat { s with stream := rest } := by
  simp only [readU8, bind, EStateM.bind, get, getThe, MonadStateOf.get, EStateM.get, h]
  rfl

theorem readU8_nil (h : s.stream = []) : readU8 s = .error .thrown s := by
  simp only [readU8, bind, EStateM.bind, get, getThe, MonadStateOf.get, EStateM.get, h]
  rfl

theorem readU16_eq {b₁ b₀ : UInt8} {rest : Bytes} (h : s.stream = b₁ :: b₀ :: rest) :
    readU16 s = .ok (b₁.toNat * 2 ^ 8 + b₀.toNat) { s with stream := rest } := by
  simp only [readU16, bind, EStateM.bind, readU8_eq h]
  rfl

theorem readU32_eq {b₃ b₂ b₁ b₀ : UInt8} {rest : Bytes} (h : s.stream = b₃ :: b₂ :: b₁ :: b₀ :: rest) :
    readU32 s = .ok ((b₃.toNat * 2 ^ 8 + b₂.toNat) * 2 ^ 16 + (b₁.toNat * 2 ^ 8 + b₀.toNat)) { s with stream := rest } := by
  simp only [readU32, bind, EStateM.bind, readU16_eq h]
  rfl

theorem sound_readU8 {Q : ℕ → Reading H → Prop}
    (h : ∀ s b rest, P s → s.stream = b :: rest → Q b.toNat { s with stream := rest }) : Sound P readU8 Q := by
  intro s hs
  cases hstream : s.stream with
  | nil =>
    rw [readU8_nil hstream]
    exact fun h => nomatch h
  | cons b rest =>
    rw [readU8_eq hstream]
    exact h s b rest hs hstream

theorem sound_readU16 {Q : ℕ → Reading H → Prop}
    (h : ∀ s b₁ b₀ rest, P s → s.stream = b₁ :: b₀ :: rest → Q (b₁.toNat * 2 ^ 8 + b₀.toNat) { s with stream := rest }) :
    Sound P readU16 Q := by
  refine Triple.seq (Q := fun n s' => ∃ s b, P s ∧ s.stream = b :: s'.stream ∧ n = b.toNat ∧
    s' = { s with stream := s'.stream }) (sound_readU8 fun s b rest hs hstream => ⟨s, b, hs, hstream, rfl, rfl⟩) ?_
  intro n
  refine Triple.seq (sound_readU8 ?_) fun m => Triple.ret fun s' hs' => hs'
  rintro s' b₀ rest ⟨s, b₁, hs, hstream, rfl, heq⟩ hrest
  rw [heq]
  exact h s b₁ b₀ rest hs (by rw [hstream, hrest])

theorem sound_readU32 {Q : ℕ → Reading H → Prop}
    (h : ∀ s b₃ b₂ b₁ b₀ rest, P s → s.stream = b₃ :: b₂ :: b₁ :: b₀ :: rest →
      Q ((b₃.toNat * 2 ^ 8 + b₂.toNat) * 2 ^ 16 + (b₁.toNat * 2 ^ 8 + b₀.toNat)) { s with stream := rest }) :
    Sound P readU32 Q := by
  refine Triple.seq (Q := fun n s' => ∃ s b₃ b₂, P s ∧ s.stream = b₃ :: b₂ :: s'.stream ∧
    n = b₃.toNat * 2 ^ 8 + b₂.toNat ∧ s' = { s with stream := s'.stream })
    (sound_readU16 fun s b₃ b₂ rest hs hstream => ⟨s, b₃, b₂, hs, hstream, rfl, rfl⟩) ?_
  intro n
  refine Triple.seq (sound_readU16 ?_) fun m => Triple.ret fun s' hs' => hs'
  rintro s' b₁ b₀ rest ⟨s, b₃, b₂, hs, hstream, rfl, heq⟩ hrest
  rw [heq]
  exact h s b₃ b₂ b₁ b₀ rest hs (by rw [hstream, hrest])

theorem sound_skip {Q : Unit → Reading H → Prop}
    (h : ∀ s, P s → n.toNat ≤ s.stream.length → Q () { s with stream := s.stream.drop n.toNat }) :
    Sound P (skip n) Q := by
  intro s hs
  simp only [skip, bind, EStateM.bind, get, getThe, MonadStateOf.get, EStateM.get]
  by_cases hn : s.stream.length < n.toNat
  · rw [if_pos hn]
    intro h; cases h
  · rw [if_neg hn]
    exact h s hs (by omega)

theorem sound_newArray [Inhabited α] :
    Sound P (newArray n : Read H (List α)) fun buf s => (0 ≤ n ∧ buf.length = n.toNat) ∧ P s := by
  unfold newArray
  refine Triple.split (fun _ => Triple.raise fun _ _ h => nomatch h) fun hn => Triple.ret fun s hs => ?_
  exact ⟨⟨by omega, List.length_replicate ..⟩, hs⟩

theorem sound_store {buf : List α} {a : α} (h : 0 ≤ n ∧ n < buf.length) :
    Sound P (store buf n a) fun buf' s => buf'.length = buf.length ∧ P s := by
  unfold store
  rw [if_pos h]
  exact Triple.ret fun s hs => ⟨List.length_set .., hs⟩

theorem sound_readItems {readItem : Read H α} (hitem : Sound (fun _ => True) readItem fun _ _ => True) {k i : ℕ}
    {buf : List α} (h : i + k ≤ buf.length) :
    Sound (fun _ => True) (readItems readItem k i buf) fun _ _ => True := by
  induction k generalizing i buf with
  | zero => exact Triple.ret fun _ _ => trivial
  | succ k ih =>
    refine hitem.seq fun a => ?_
    refine (sound_store ⟨by omega, by omega⟩).seq fun buf' => Triple.of_pre fun hlen => ?_
    exact ih (by omega)

theorem sound_readBytes {buf : Bytes} (h : n.toNat ≤ buf.length) :
    Sound (fun _ : Reading H => True) (readBytes buf n) fun _ _ => True := by
  intro s _
  simp only [readBytes, bind, EStateM.bind, get, getThe, MonadStateOf.get, EStateM.get]
  rw [if_neg (by omega)]
  by_cases hn : s.stream.length < n.toNat
  · rw [if_pos hn]
    intro h; cases h
  · rw [if_neg hn]
    trivial

theorem sound_tell (handler : Handler H C) (c : C) : Sound P (tell handler c) fun _ _ => True := by
  intro s _
  simp only [tell, bind, EStateM.bind, get, getThe, MonadStateOf.get, EStateM.get]
  cases handler.call c s.handler with
  | none => intro h; cases h
  | some h => trivial

/-- The length of a cut text of which the `int` is not -1, or is above the limit. -/
def FitsCut (limit : ℤ) (len : ℕ) : Prop := len < 2 ^ 32 ∧ (-1 ≤ limit → len ≠ 2 ^ 32 - 1)

theorem sound_readCutText (handler : Handler H C) {limit : ℤ} (cutText : Bytes → ℤ → C) :
    Sound (fun s => -1 ≤ limit → ∀ a b c rest, s.stream ≠ a :: b :: c :: 255 :: 255 :: 255 :: 255 :: rest)
      (readCutText handler limit cutText) fun _ _ => True := by
  refine Triple.seq (Q := fun _ s => -1 ≤ limit → ∀ rest, s.stream ≠ 255 :: 255 :: 255 :: 255 :: rest) ?_ fun _ => ?_
  · refine sound_skip fun s hs hlen hlimit rest hrest => ?_
    match hstream : s.stream, hs hlimit, hlen with
    | a :: b :: c :: rest', hs, _ =>
      rw [hstream] at hrest
      obtain rfl : rest' = _ := hrest
      exact hs a b c rest rfl
  refine Triple.seq (Q := fun n _ => FitsCut limit n ∧ True) ?_ fun n => ?_
  · refine sound_readU32 fun s b₃ b₂ b₁ b₀ rest hs hstream => ?_
    have h₃ := b₃.toNat_lt
    have h₂ := b₂.toNat_lt
    have h₁ := b₁.toNat_lt
    have h₀ := b₀.toNat_lt
    refine ⟨⟨by omega, fun hlimit heq => hs hlimit rest ?_⟩, trivial⟩
    have hbyte {b : UInt8} (hb : b.toNat = 255) : b = 255 := UInt8.toNat.inj hb
    rw [hstream, hbyte (by omega : b₃.toNat = 255), hbyte (by omega : b₂.toNat = 255),
      hbyte (by omega : b₁.toNat = 255), hbyte (by omega : b₀.toNat = 255)]
  refine Triple.of_pre fun hn => ?_
  have hlen : toInt n < 2 ^ 31 ∧ -2 ^ 31 ≤ toInt n ∧ (toInt n = -1 → n = 2 ^ 32 - 1) := by
    have hlt := hn.1
    simp only [toInt, Int.bmod_def]
    omega
  refine Triple.split (fun _ => sound_skip fun _ _ _ => trivial) fun hlimit => ?_
  refine sound_newArray.seq fun ca => Triple.of_pre fun hca => ?_
  have hsucc : toInt (toInt n + 1) = toInt n + 1 := by
    have hpos := hca.1
    simp only [toInt, Int.bmod_def] at hpos hlen ⊢
    omega
  rw [hsucc] at hca
  have hne : toInt n ≠ -1 := fun heq => hn.2 (by omega) (hlen.2.2 heq)
  refine (sound_store ⟨by omega, by omega⟩).seq fun ca' => Triple.of_pre fun hca' => ?_
  refine (sound_readBytes (by omega)).seq fun ca'' => ?_
  exact sound_tell handler _

theorem sound_trivial_readU8 : Sound P readU8 fun _ _ => True := sound_readU8 fun _ _ _ _ _ => trivial

theorem sound_trivial_readU16 : Sound P readU16 fun _ _ => True := sound_readU16 fun _ _ _ _ _ _ => trivial

theorem sound_trivial_readU32 : Sound P readU32 fun _ _ => True := sound_readU32 fun _ _ _ _ _ _ _ _ => trivial

theorem sound_trivial_skip : Sound P (skip n) fun _ _ => True := sound_skip fun _ _ _ => trivial

theorem sound_readPixelFormat : Sound (fun _ : Reading H => True) readPixelFormat fun _ _ => True := by
  refine sound_trivial_readU8.seq fun bpp => sound_trivial_readU8.seq fun depth => ?_
  refine sound_trivial_readU8.seq fun bigEndian => sound_trivial_readU8.seq fun trueColour => ?_
  refine sound_trivial_readU16.seq fun redMax => sound_trivial_readU16.seq fun greenMax => ?_
  refine sound_trivial_readU16.seq fun blueMax => sound_trivial_readU8.seq fun redShift => ?_
  refine sound_trivial_readU8.seq fun greenShift => sound_trivial_readU8.seq fun blueShift => ?_
  exact sound_trivial_skip.seq fun _ => Triple.ret fun _ _ => trivial

end

section Server

variable {H : Type} {handler : Handler H ServerCall} {maxCutText : ℤ}

theorem sound_readSetEncodings : Sound (fun _ => True) (readSetEncodings handler) fun _ _ => True := by
  refine sound_trivial_skip.seq fun _ => sound_trivial_readU16.seq fun nEncodings => ?_
  refine sound_newArray.seq fun encodings => Triple.of_pre fun hlen => ?_
  exact (sound_readItems sound_trivial_readU32 (by omega)).seq fun _ => sound_tell handler _

theorem sound_readFramebufferUpdateRequest :
    Sound (fun _ => True) (readFramebufferUpdateRequest handler) fun _ _ => True := by
  refine sound_trivial_readU8.seq fun inc => sound_trivial_readU16.seq fun x => sound_trivial_readU16.seq fun y => ?_
  exact sound_trivial_readU16.seq fun w => sound_trivial_readU16.seq fun h => sound_tell handler _

theorem sound_serverReadMsg :
    Sound (fun s => -1 ≤ maxCutText → ¬CutTextMinusOne 6 s.stream) (serverReadMsg handler maxCutText) fun _ _ => True := by
  refine Triple.seq (Q := fun n s => n = 6 → -1 ≤ maxCutText → ∀ a b c rest,
    s.stream ≠ a :: b :: c :: 255 :: 255 :: 255 :: 255 :: rest) ?_ fun msgType => ?_
  · refine sound_readU8 fun s type rest hs hstream htype hlimit a b c rest' hrest => hs hlimit ⟨a, b, c, rest', ?_⟩
    rw [hstream, ← show rest = _ from hrest, show type = 6 from UInt8.toNat.inj htype]
  · split
    · refine sound_trivial_skip.seq fun _ => ?_
      exact sound_readPixelFormat.seq fun pf => sound_tell handler _
    · exact sound_readSetEncodings.weaken fun _ _ => trivial
    · exact sound_readFramebufferUpdateRequest.weaken fun _ _ => trivial
    · exact sound_trivial_readU8.seq fun down => sound_trivial_skip.seq fun _ =>
        sound_trivial_readU32.seq fun key => sound_tell handler _
    · exact sound_trivial_readU8.seq fun mask => sound_trivial_readU16.seq fun x =>
        sound_trivial_readU16.seq fun y => sound_tell handler _
    · exact (sound_readCutText handler _).weaken fun s hs => hs rfl
    · exact Triple.raise fun _ _ h => nomatch h

end Server

section Client

variable {H : Type} {handler : Handler H ClientCall} {decode : Decode H}

theorem sound_readSetColourMapEntries :
    Sound (fun _ => True) (readSetColourMapEntries handler) fun _ _ => True := by
  refine sound_trivial_skip.seq fun _ => sound_trivial_readU16.seq fun firstColour => ?_
  refine sound_trivial_readU16.seq fun nColours => ?_
  refine sound_newArray.seq fun rgbs => Triple.of_pre fun hlen => ?_
  exact (sound_readItems sound_trivial_readU16 (by omega)).seq fun _ => sound_tell handler _

theorem sound_readMessage :
    Sound (fun s => ¬CutTextMinusOne 3 s.stream) (readMessage handler) fun _ _ => True := by
  refine Triple.seq (Q := fun n s => n = 3 → ∀ a b c rest,
    s.stream ≠ a :: b :: c :: 255 :: 255 :: 255 :: 255 :: rest) ?_ fun type => ?_
  · refine sound_readU8 fun s type rest hs hstream htype a b c rest' hrest => hs ⟨a, b, c, rest', ?_⟩
    rw [hstream, ← show rest = _ from hrest, show type = 3 from UInt8.toNat.inj htype]
  · split
    · refine sound_trivial_skip.seq fun _ => sound_trivial_readU16.seq fun nUpdateRectsLeft => ?_
      exact (Triple.update (R := fun _ _ => True) fun _ _ => trivial).seq fun _ => sound_tell handler _
    · exact sound_readSetColourMapEntries.weaken fun _ _ => trivial
    · exact sound_tell handler _
    · exact (sound_readCutText handler _).weaken fun s hs _ => hs rfl
    · exact Triple.raise fun _ _ h => nomatch h

theorem sound_readSetCursor (width height x y : ℕ) :
    Sound (fun _ => True) (readSetCursor handler width height x y) fun _ _ => True := by
  refine Triple.seq (Triple.read (R := fun _ _ => True) fun _ _ => trivial) fun s => ?_
  refine sound_newArray.seq fun data => Triple.of_pre fun hdata => ?_
  refine sound_newArray.seq fun mask => Triple.of_pre fun hmask => ?_
  refine (sound_readBytes (by omega)).seq fun _ => (sound_readBytes (by omega)).seq fun _ => ?_
  exact sound_tell handler _

/-- The encoding may be used as an index. -/
theorem sound_decoderFor {P : Reading H → Prop} {encoding : ℕ} (h : encoding ≤ encodingMax) :
    Sound P (decoderFor encoding) fun _ _ => True := by
  intro s _
  simp only [decoderFor, bind, EStateM.bind, get, getThe, MonadStateOf.get, EStateM.get]
  rw [if_neg (by omega)]
  by_cases hmade : s.decoders encoding = true
  · rw [if_pos hmade]
    trivial
  by_cases hfn : encoding ∈ createFns
  · rw [if_neg hmade, if_pos hfn]
    trivial
  · rw [if_neg hmade, if_neg hfn]
    intro h; cases h

theorem sound_runDecoder {P : Reading H → Prop} (encoding : ℕ) (r : Rect) :
    Sound P (runDecoder decode encoding r) fun _ _ => True := by
  intro s _
  simp only [runDecoder, bind, EStateM.bind, get, getThe, MonadStateOf.get, EStateM.get]
  cases decode encoding r s.stream s.handler with
  | none => intro h; cases h
  | some res => trivial

theorem sound_readRect {r : Rect} {encoding : ℕ} :
    Sound (fun s => encoding ≤ encodingMax ∨ tooBig handler r s.handler = true ∨
      (handler.call (.beginRect r encoding) s.handler).isSome = false)
      (readRect handler decode r encoding) fun _ _ => True := by
  refine Triple.seq (Triple.read (R := fun s s' => s = s' ∧ (encoding ≤ encodingMax ∨ tooBig handler r s.handler = true ∨
    (handler.call (.beginRect r encoding) s.handler).isSome = false)) fun _ h => ⟨rfl, h⟩) fun s => ?_
  refine Triple.split (fun _ => Triple.raise fun _ _ h => by cases h) fun hbig => ?_
  refine Triple.seq (Q := fun _ _ => encoding ≤ encodingMax ∧ True) ?_ fun _ => Triple.of_pre fun henc => ?_
  · rintro s' ⟨rfl, henc⟩
    simp only [tell, bind, EStateM.bind, get, getThe, MonadStateOf.get, EStateM.get]
    cases hcall : handler.call (.beginRect r encoding) s.handler with
    | none => intro h; cases h
    | some h =>
      rw [hcall] at henc
      exact ⟨(henc.resolve_right fun hor => hor.elim hbig (by rintro ⟨⟩)), trivial⟩
  · refine Triple.split (fun _ => ?_) fun _ => ?_
    · refine Triple.seq (Q := fun _ _ => True) ?_ fun _ => sound_tell handler _
      exact sound_trivial_readU16.seq fun srcX => sound_trivial_readU16.seq fun srcY => sound_tell handler _
    · refine (sound_decoderFor henc).seq fun _ => ?_
      exact (sound_runDecoder encoding r).seq fun _ => sound_tell handler _

theorem sound_readUpdateRect {x y w h encoding : ℕ} :
    Sound (fun s => ¬BadIndex handler s.handler ⟨x, y, w, h, encoding⟩)
      (readUpdateRect handler decode x y w h encoding) fun _ _ => True := by
  have hleft : Sound (fun _ => True) (do
      modify fun s : Reading H => { s with nUpdateRectsLeft := s.nUpdateRectsLeft - 1 }
      let s ← get
      if s.nUpdateRectsLeft = 0 then tell handler .framebufferUpdateEnd) fun _ _ => True := by
    refine (Triple.update (R := fun _ _ => True) fun _ _ => trivial).seq fun _ => ?_
    refine Triple.seq (Triple.read (R := fun _ _ => True) fun _ _ => trivial) fun s => ?_
    exact Triple.split (fun _ => sound_tell handler _) fun _ => Triple.ret fun _ _ => trivial
  refine Triple.split (fun _ => (sound_tell handler _).seq fun _ => hleft) fun hsize => ?_
  refine Triple.split (fun _ => ?_) fun hcursor => ?_
  · exact (sound_readSetCursor w h x y).seq (fun _ => hleft) |>.weaken fun _ _ => trivial
  · refine (sound_readRect.weaken fun s hs => ?_).seq fun _ => hleft
    by_contra hbad
    simp only [not_or, Bool.not_eq_true, Bool.not_eq_false] at hbad
    exact hs ⟨not_le.mp hbad.1, hsize, hcursor, hbad.2.1, hbad.2.2⟩

theorem readRectangle_eq {s : Reading H} {header : Header} (h : header? s.stream = some header) :
    readRectangle handler decode s = readUpdateRect handler decode header.x header.y header.w header.h header.encoding
      { s with stream := s.stream.drop 12 } := by
  match hstream : s.stream, h with
  | x₁ :: x₀ :: y₁ :: y₀ :: w₁ :: w₀ :: h₁ :: h₀ :: e₃ :: e₂ :: e₁ :: e₀ :: rest, h =>
    obtain rfl := Option.some.inj h
    refine (bind_eq (readU16_eq hstream)).trans ?_
    refine (bind_eq (readU16_eq rfl)).trans ((bind_eq (readU16_eq rfl)).trans ((bind_eq (readU16_eq rfl)).trans ?_))
    exact bind_eq (readU32_eq rfl)

theorem header?_none {stream : Bytes} (h : header? stream = none) : stream.length < 12 := by
  rcases stream with _ | ⟨_, _ | ⟨_, _ | ⟨_, _ | ⟨_, _ | ⟨_, _ | ⟨_, _ | ⟨_, _ | ⟨_, _ | ⟨_, _ | ⟨_, _ | ⟨_, _ | ⟨_, _⟩⟩⟩⟩⟩⟩⟩⟩⟩⟩⟩⟩
    <;> simp_all [header?]

theorem sound_readRectangle :
    Sound (fun s => ∀ header, header? s.stream = some header → ¬BadIndex handler s.handler header)
      (readRectangle handler decode) fun _ _ => True := by
  intro s hs
  cases hheader : header? s.stream with
  | some header =>
    rw [readRectangle_eq hheader]
    exact sound_readUpdateRect _ (hs header hheader)
  | none =>
    have hlen := header?_none hheader
    have hU16 (k : ℕ) : Sound (fun s : Reading H => s.stream.length < k + 2) readU16 fun _ s => s.stream.length < k :=
      sound_readU16 fun s b₁ b₀ rest hs hstream => by
        rw [hstream, List.length_cons, List.length_cons] at hs
        exact Nat.lt_of_add_lt_add_right hs
    refine Triple.seq (hU16 10) (fun x => (hU16 8).seq fun y => (hU16 6).seq fun w => (hU16 4).seq fun h => ?_) s hlen
    refine Triple.seq (Q := fun _ _ => False) ?_ fun _ => fun _ h => h.elim
    refine sound_readU32 fun s b₃ b₂ b₁ b₀ rest hs hstream => ?_
    rw [hstream] at hs
    simp at hs
    omega

theorem sound_clientReadMsg :
    Sound (fun s => if s.nUpdateRectsLeft = 0 then ¬CutTextMinusOne 3 s.stream
      else ∀ header, header? s.stream = some header → ¬BadIndex handler s.handler header)
      (clientReadMsg handler decode) fun _ _ => True := by
  intro s hs
  simp only [clientReadMsg, bind, EStateM.bind, get, getThe, MonadStateOf.get, EStateM.get]
  by_cases hleft : s.nUpdateRectsLeft = 0
  · rw [if_pos hleft] at hs ⊢
    exact sound_readMessage s hs
  · rw [if_neg hleft] at hs ⊢
    exact sound_readRectangle s hs

end Client

section Overrun

variable {H C α β : Type} {s : Reading H}

def Overruns (x : Read H α) (s : Reading H) : Prop := ∃ s', x s = .error .overrun s'

theorem Overruns.bind {x : Read H α} (h : Overruns x s) (f : α → Read H β) : Overruns (x >>= f) s := by
  obtain ⟨s', h⟩ := h
  exact ⟨s', by simp only [Bind.bind, EStateM.bind, h]⟩

theorem Overruns.of_bind {x : Read H α} {f : α → Read H β} {a : α} {s' : Reading H} (hx : x s = .ok a s')
    (h : Overruns (f a) s') : Overruns (x >>= f) s := by
  obtain ⟨s'', h⟩ := h
  exact ⟨s'', (bind_eq hx).trans h⟩

theorem overruns_store {a : α} {buf : List α} {i : ℤ} (h : i < 0) : Overruns (store buf i a) s := by
  unfold store
  rw [if_neg (by omega)]
  exact ⟨s, rfl⟩

theorem overruns_readCutText (handler : Handler H C) {limit : ℤ} (hlimit : -1 ≤ limit) {cutText : Bytes → ℤ → C}
    {a b c : UInt8} {rest : Bytes} (h : s.stream = a :: b :: c :: 255 :: 255 :: 255 :: 255 :: rest) :
    Overruns (readCutText handler limit cutText) s := by
  have hskip : skip 3 s = .ok () { s with stream := 255 :: 255 :: 255 :: 255 :: rest } := by
    simp only [skip, bind, EStateM.bind, get, getThe, MonadStateOf.get, EStateM.get, h]
    rfl
  have hlen : toInt (((255 : UInt8).toNat * 2 ^ 8 + (255 : UInt8).toNat) * 2 ^ 16 +
      ((255 : UInt8).toNat * 2 ^ 8 + (255 : UInt8).toNat) : ℕ) = -1 := by with_unfolding_all decide
  have hzero : toInt (-1 + 1) = 0 := by with_unfolding_all decide
  refine .of_bind hskip (.of_bind (readU32_eq rfl) ?_)
  rw [hlen]
  dsimp only
  rw [if_neg (by omega), hzero]
  exact .of_bind (x := newArray 0) rfl ((overruns_store (by omega)).bind _)

theorem overruns_serverReadMsg {handler : Handler H ServerCall} {maxCutText : ℤ} (hlimit : -1 ≤ maxCutText)
    (h : CutTextMinusOne 6 s.stream) : Overruns (serverReadMsg handler maxCutText) s := by
  obtain ⟨a, b, c, rest, h⟩ := h
  exact .of_bind (readU8_eq h) (overruns_readCutText handler hlimit rfl)

theorem overruns_readMessage {handler : Handler H ClientCall} (h : CutTextMinusOne 3 s.stream) :
    Overruns (readMessage handler) s := by
  obtain ⟨a, b, c, rest, h⟩ := h
  exact .of_bind (readU8_eq h) (overruns_readCutText handler (by decide) rfl)

theorem overruns_readRectangle {handler : Handler H ClientCall} {decode : Decode H} {header : Header}
    (h : header? s.stream = some header) (hbad : BadIndex handler s.handler header) :
    Overruns (readRectangle handler decode) s := by
  obtain ⟨henc, hsize, hcursor, hbig, hbegin⟩ := hbad
  obtain ⟨h', hcall⟩ := Option.isSome_iff_exists.mp hbegin
  have hrect : Overruns (readRect handler decode header.rect header.encoding) { s with stream := s.stream.drop 12 } := by
    refine .of_bind (x := get) rfl ?_
    rw [if_neg (by rw [hbig]; intro h; cases h)]
    have htell : tell handler (.beginRect header.rect header.encoding) { s with stream := s.stream.drop 12 } =
        .ok () { s with stream := s.stream.drop 12, handler := h' } := by
      simp only [tell, bind, EStateM.bind, get, getThe, MonadStateOf.get, EStateM.get, hcall]
      rfl
    refine .of_bind htell ?_
    rw [if_neg (by unfold encodingMax at henc; unfold encodingCopyRect; omega)]
    refine Overruns.bind (x := decoderFor header.encoding) ?_ _
    refine .of_bind (x := get) rfl ?_
    rw [if_pos henc]
    exact ⟨_, rfl⟩
  have hrest : Overruns (readUpdateRect handler decode header.x header.y header.w header.h header.encoding)
      { s with stream := s.stream.drop 12 } := by
    unfold readUpdateRect
    dsimp only
    rw [if_neg hsize, if_neg hcursor]
    exact hrect.bind _
  obtain ⟨s', hrest⟩ := hrest
  exact ⟨s', (readRectangle_eq h).trans hrest⟩

theorem overruns_clientReadMsg {handler : Handler H ClientCall} {decode : Decode H}
    (h : ¬ClientFits handler (some s) ()) : Overruns (clientReadMsg handler decode) s := by
  simp only [ClientFits, Option.some.injEq, forall_eq'] at h
  refine .of_bind (x := get) rfl ?_
  by_cases hleft : s.nUpdateRectsLeft = 0
  · rw [if_pos hleft] at h ⊢
    exact overruns_readMessage (not_not.mp h)
  · rw [if_neg hleft] at h ⊢
    push Not at h
    obtain ⟨header, hheader, hbad⟩ := h
    exact overruns_readRectangle hheader hbad

end Overrun

section Runs

variable {H : Type} {readMsg : Read H Unit} {s : Reading H}

theorem step_ne_overrun {P : Reading H → Prop} (h : Sound P readMsg fun _ _ => True) (hs : P s) :
    step readMsg (some s) () ≠ .error .overrun := by
  have h := h s hs
  simp only [step]
  split
  · exact nofun
  · exact nofun
  · rename_i heq
    rw [heq] at h
    exact absurd rfl h

theorem step_overrun (h : Overruns readMsg s) : step readMsg (some s) () = .error .overrun := by
  obtain ⟨s', h⟩ := h
  simp only [step, h]

/-- Where the messages that a reader reads without an access outside of an array are known, so are its runs. -/
theorem readsSafely_iff {Fits : Reading H → Prop} (hok : Sound Fits readMsg fun _ _ => True)
    (hbad : ∀ s, ¬Fits s → Overruns readMsg s) (calls : ℕ) (s : Reading H) :
    ReadsSafely readMsg calls s ↔
      Along (step readMsg) (fun s _ => ∀ reading, s = some reading → Fits reading) (List.replicate calls ()) (some s) := by
  refine safe_iff_along (fun _ => True) (fun _ _ => trivial) (fun s _ _ hs => ⟨?_, fun _ _ => trivial⟩)
    (fun s _ _ hs => ?_) trivial
  · cases s with
    | none => exact nofun
    | some reading => exact step_ne_overrun hok (hs reading rfl)
  · push Not at hs
    obtain ⟨reading, rfl, hreading⟩ := hs
    exact step_overrun (hbad reading hreading)

/-- A run of the server's reader and one of the client's stay in their arrays if and only if no message of it has a cut
text of length -1, and no header an encoding above `encodingMax` that is used as an index. -/
theorem readers_safe_iff (server : Handler H ServerCall) (maxCutText : ℤ) (client : Handler H ClientCall)
    (decode : Decode H) (calls : ℕ) (s : Reading H) :
    (ReadsSafely (serverReadMsg server maxCutText) calls s ↔
      Along (step (serverReadMsg server maxCutText)) (ServerFits maxCutText) (List.replicate calls ()) (some s)) ∧
    (ReadsSafely (clientReadMsg client decode) calls s ↔
      Along (step (clientReadMsg client decode)) (ClientFits client) (List.replicate calls ()) (some s)) := by
  constructor
  · refine readsSafely_iff sound_serverReadMsg (fun s hs => ?_) calls s
    push Not at hs
    exact overruns_serverReadMsg hs.1 hs.2
  · refine readsSafely_iff sound_clientReadMsg (fun s hs => overruns_clientReadMsg fun h => hs (h s rfl)) calls s

/-- A cut text of length 0xffffffff, of a server with the default limit, and of a client. -/
theorem not_readers_safe :
    ¬∀ (calls : ℕ) (s : Reading Unit),
      ReadsSafely (serverReadMsg ⟨fun _ => 0, fun _ => 0, fun _ => 8, fun _ h => some h⟩ (256 * 1024)) calls s ∧
        ReadsSafely (clientReadMsg ⟨fun _ => 0, fun _ => 0, fun _ => 8, fun _ h => some h⟩ fun _ _ _ _ => none) calls s := by
  intro h
  refine (h 1 ⟨[6, 0, 0, 0, 255, 255, 255, 255], (), 0, fun _ => false⟩).1.2.1 ?_
  exact step_overrun (overruns_serverReadMsg (by decide) ⟨0, 0, 0, [], rfl⟩)

end Runs

end Colama.Vnc4.MsgReaders
