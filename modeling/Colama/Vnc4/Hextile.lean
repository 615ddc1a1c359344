import Colama.Xvnc.Hextile

namespace Colama.Vnc4.Hextile

open Lib
open Xvnc (Bpp Card TileData tileCells tileList hextiles)

variable {bpp : Bpp}

def hextileRaw : UInt8 := 1
def hextileBgSpecified : UInt8 := 2
def hextileFgSpecified : UInt8 := 4
def hextileAnySubrects : UInt8 := 8
def hextileSubrectsColoured : UInt8 := 16

structure TileTest (bpp : Bpp) where
  tileType : UInt8
  bg : Card bpp
  fg : Card bpp

/-- What is behind the loop of `TEST_TILE_TYPE`. -/
def tileTest (tileType : UInt8) (pix1 pix2 : Card bpp) (count1 count2 : Nat) : TileTest bpp :=
  if count1 ≥ count2 then ⟨tileType, pix1, pix2⟩ else ⟨tileType, pix2, pix1⟩

/-- The loop of `TEST_TILE_TYPE`, where `data` is the first pixel of the tile. -/
def testTileTypeLoop (data pix1 : Card bpp) :
    List (Card bpp) → (tileType : UInt8) → (pix2 : Card bpp) → (count1 count2 : Nat) → TileTest bpp
  | [], tileType, pix2, count1, count2 => tileTest tileType pix1 pix2 count1 count2
  | ptr :: rest, tileType, pix2, count1, count2 =>
    if ptr = pix1 then testTileTypeLoop data pix1 rest tileType pix2 (count1 + 1) count2
    else
      let (tileType, pix2) := if count2 = 0 then (tileType ||| hextileAnySubrects, ptr) else (tileType, pix2)
      if data = pix2 then testTileTypeLoop data pix1 rest tileType pix2 count1 (count2 + 1)
      else tileTest (tileType ||| hextileSubrectsColoured) pix1 pix2 count1 count2

/-- `TEST_TILE_TYPE`, on the pixels of a tile row by row. -/
def testTileType (data : List (Card bpp)) : TileTest bpp :=
  testTileTypeLoop (data.headD 0) (data.headD 0) data 0 0 0 0

/-- How many of `n` numbers from `i` on there are before one that is not good. -/
def countWhile (good : Nat → Prop) [DecidablePred good] : (n i : Nat) → Nat
  | 0, _ => 0
  | n + 1, i => if good i then countWhile good n (i + 1) + 1 else 0

/-- The width and the height of the subrectangle at `x`, `y`: the one that grows to the right first, or the one that
grows down first if that is bigger. -/
def findSubrect (data : TileData bpp) (w h x y : Nat) : Nat × Nat :=
  let pix := data x y
  let sw := countWhile (fun i => data i y = pix) (w - x - 1) (x + 1) + 1
  let sh := countWhile (fun j => ∀ i < sw, data (x + i) j = pix) (h - y - 1) (y + 1) + 1
  let vh := sh + countWhile (fun j => data x j = pix) (h - y - sh) (y + sh)
  if vh ≠ sh then
    let vw := countWhile (fun i => ∀ j < vh, data i (y + j) = pix) (sw - 1) (x + 1) + 1
    if sw * sh < vw * vh then (vw, vh) else (sw, sh)
  else (sw, sh)

/-- `PIXEL_T buf[256]`. -/
def encodeBufSize : Nat := 256

/-- The background is put under the first row of a subrectangle. There is no result if that is past the end of the
buffer, of which the tile is `w` pixels wide. -/
def eraseBelow (data : TileData bpp) (w x y sw sh : Nat) (bg : Card bpp) : Option (TileData bpp) :=
  if ∀ j < sh, 0 < j → ∀ i < sw, (y + j) * w + (x + i) < encodeBufSize then
    some fun i j => if x ≤ i ∧ i < x + sw ∧ y < j ∧ j < y + sh then bg else data i j
  else none

/-- How `HEXTILE_ENCODE_TILE` ends early: it returns -1, it writes past the end of one of its buffers, or the count of the
subrectangles wraps. -/
inductive TileError
  | tooLong
  | overrun
  | wrapped
  deriving DecidableEq

/-- The tile, and what is in `encoded` so far behind the count of the subrectangles. -/
structure TileState (bpp : Bpp) where
  data : TileData bpp
  nSubrects : UInt8
  encoded : List UInt8

/-- `*encoded++ = b`; the count is in the first of the bytes. -/
def TileState.put (s : TileState bpp) (bs : List UInt8) : Except TileError (TileState bpp) :=
  if 1 + s.encoded.length + bs.length ≤ 256 * bpp.size then .ok { s with encoded := s.encoded ++ bs } else .error .overrun

/-- `(*nSubrectsPtr)++`. -/
def TileState.addSubrect (s : TileState bpp) : Except TileError (TileState bpp) :=
  if s.nSubrects = 255 then .error .wrapped else .ok { s with nSubrects := s.nSubrects + 1 }

/-- The bytes are put unless the tile gets longer than its pixels. -/
def TileState.putInside (w h : Nat) (bs : List UInt8) (s : TileState bpp) : Except TileError (TileState bpp) :=
  if 1 + s.encoded.length + bs.length > w * h * bpp.size then .error .tooLong else s.put bs

/-- A subrectangle at `x`, `y`, and its width. -/
def encodeSubrect (w h : Nat) (tileType : UInt8) (bg : Card bpp) (x y : Nat) (s : TileState bpp) :
    Except TileError (Nat × TileState bpp) := do
  let pix := s.data x y
  let (sw, sh) := findSubrect s.data w h x y
  let s ← s.addSubrect
  let s ← if tileType &&& hextileSubrectsColoured ≠ 0 then s.putInside w h pix.bytes else .ok s
  let s ← s.putInside w h [UInt8.ofNat (x <<< 4 ||| y), UInt8.ofNat ((sw - 1) <<< 4 ||| (sh - 1))]
  match eraseBelow s.data w x y sw sh bg with
  | none => .error .overrun
  | some data => .ok (sw, { s with data })

/-- The loop over the pixels of a row from `x` on, at most `n` of them. -/
def encodeRow (w h : Nat) (tileType : UInt8) (bg : Card bpp) (y : Nat) :
    (n x : Nat) → TileState bpp → Except TileError (TileState bpp)
  | 0, _, s => .ok s
  | n + 1, x, s =>
    if x < w then
      if s.data x y = bg then encodeRow w h tileType bg y n (x + 1) s
      else do
        let (sw, s) ← encodeSubrect w h tileType bg x y s
        encodeRow w h tileType bg y n (x + sw) s
    else .ok s

/-- `HEXTILE_ENCODE_TILE`. Each turn of the inner loop takes one pixel of the row or more. -/
def encodeTile (data : TileData bpp) (w h : Nat) (tileType : UInt8) (bg : Card bpp) : Except TileError (List UInt8) := do
  let s ← (List.range h).foldlM (fun s y => encodeRow w h tileType bg y w 0 s) ⟨data, 0, []⟩
  return s.nSubrects :: s.encoded

/-- The colours that the encoder remembers from tile to tile. -/
structure Colours (bpp : Bpp) where
  oldBg : Card bpp
  oldFg : Card bpp
  oldBgValid : Bool
  oldFgValid : Bool

/-- The bytes of a tile, of which `data` are the pixels. There are none if a buffer is written past its end or the count
of the subrectangles wraps. -/
def encodeOne (data : TileData bpp) (w h : Nat) (c : Colours bpp) : Option (Colours bpp × List UInt8) :=
  if encodeBufSize < w * h then none else
  let t := testTileType (tileList data w h)
  let bgSpecified := !c.oldBgValid || decide (c.oldBg ≠ t.bg)
  let tileType := if bgSpecified then t.tileType ||| hextileBgSpecified else t.tileType
  let c := if bgSpecified then { c with oldBg := t.bg, oldBgValid := true } else c
  let bgBytes := if tileType &&& hextileBgSpecified ≠ 0 then t.bg.bytes else []
  if tileType &&& hextileAnySubrects = 0 then some (c, tileType :: bgBytes)
  else
    let coloured := decide (tileType &&& hextileSubrectsColoured ≠ 0)
    let fgSpecified := !coloured && (!c.oldFgValid || decide (c.oldFg ≠ t.fg))
    let tileType := if fgSpecified then tileType ||| hextileFgSpecified else tileType
    let c := if coloured then { c with oldFgValid := false }
      else if fgSpecified then { c with oldFg := t.fg, oldFgValid := true } else c
    match encodeTile data w h tileType t.bg with
    | .error .tooLong =>
      some ({ c with oldBgValid := false, oldFgValid := false },
        hextileRaw :: (tileList data w h).flatMap Card.bytes)
    | .error _ => none
    | .ok encoded =>
      some (c, tileType :: bgBytes ++ (if tileType &&& hextileFgSpecified ≠ 0 then t.fg.bytes else []) ++ encoded)

/-- `HEXTILE_ENCODE`, of a rectangle of a picture. -/
def encode (picture : Nat → Nat → Card bpp) (rx ry rw rh : Nat) : Option (List UInt8) := do
  let (_, os) ← (hextiles rw rh).foldlM (fun (c, os) (x, y, w, h) => do
    let (c, bytes) ← encodeOne (fun i j => picture (rx + x + i) (ry + y + j)) w h c
    some (c, os ++ bytes)) ((⟨0, 0, false, false⟩ : Colours bpp), [])
  some os

/-- How `HEXTILE_DECODE` ends early: the stream throws, or there is a write past the end of the buffer. -/
inductive DecodeError
  | endOfStream
  | overrun
  deriving DecidableEq

/-- The pixels of the buffer that `HextileDecoder` gets from `getImageBuf(16 * 16 * 4)`. -/
def imageBufSize : Nat := 1024

structure Decoding (bpp : Bpp) where
  is : List UInt8
  bg : Card bpp
  fg : Card bpp
  buf : Nat → Card bpp

def readU8 (is : List UInt8) : Except DecodeError (UInt8 × List UInt8) :=
  match is with
  | [] => .error .endOfStream
  | b :: is => .ok (b, is)

/-- `READ_PIXEL`. -/
def readPixel (is : List UInt8) : Except DecodeError (Card bpp × List UInt8) :=
  match readBytes bpp.size is with
  | none => .error .endOfStream
  | some (bs, is) => .ok (Card.ofBytes bs, is)

/-- The background or the foreground of a tile, or the one before if it has none of its own. -/
def readColour (specified : Bool) (colour : Card bpp) (is : List UInt8) : Except DecodeError (Card bpp × List UInt8) :=
  if specified then readPixel is else .ok (colour, is)

/-- A pixel is put to each of the places. -/
def fill (pix : Card bpp) : List Nat → (Nat → Card bpp) → Except DecodeError (Nat → Card bpp)
  | [], buf => .ok buf
  | i :: places, buf => if i < imageBufSize then fill pix places (Function.update buf i pix) else .error .overrun

/-- The places of a rectangle in a buffer of which a row has `tw` pixels. A rectangle that does not end inside its rows
goes on in the next ones. -/
def rectPlaces (tw x y w h : Nat) : List Nat :=
  (List.range h).flatMap fun j => (List.range w).map fun i => y * tw + x + j * tw + i

/-- The pixels of a raw tile, in the order of their bytes. -/
def readRaw : (n i : Nat) → List UInt8 → (Nat → Card bpp) → Except DecodeError ((Nat → Card bpp) × List UInt8)
  | 0, _, is, buf => .ok (buf, is)
  | n + 1, i, is, buf => do
    let (pix, is) ← readPixel is
    let buf ← fill pix [i] buf
    readRaw n (i + 1) is buf

def decodeSubrects (tileType : UInt8) (tw : Nat) : (nSubrects : Nat) → Decoding bpp → Except DecodeError (Decoding bpp)
  | 0, d => .ok d
  | n + 1, d => do
    let (fg, is) ← readColour (decide (tileType &&& hextileSubrectsColoured ≠ 0)) d.fg d.is
    let (xy, is) ← readU8 is
    let (wh, is) ← readU8 is
    let places := rectPlaces tw ((xy.toNat >>> 4) &&& 15) (xy.toNat &&& 15) (((wh.toNat >>> 4) &&& 15) + 1)
      ((wh.toNat &&& 15) + 1)
    let buf ← fill fg places d.buf
    decodeSubrects tileType tw n { d with is, fg, buf }

/-- A tile, up to the `IMAGE_RECT` of its pixels. -/
def decodeTile (w h : Nat) (d : Decoding bpp) : Except DecodeError (Decoding bpp) := do
  let (tileType, is) ← readU8 d.is
  if tileType &&& hextileRaw ≠ 0 then do
    let (buf, is) ← readRaw (w * h) 0 is d.buf
    return { d with is, buf }
  else do
    let (bg, is) ← readColour (decide (tileType &&& hextileBgSpecified ≠ 0)) d.bg is
    let buf ← fill bg (List.range (w * h)) d.buf
    let (fg, is) ← readColour (decide (tileType &&& hextileFgSpecified ≠ 0)) d.fg is
    if tileType &&& hextileAnySubrects = 0 then return ⟨is, bg, fg, buf⟩
    else do
      let (nSubrects, is) ← readU8 is
      decodeSubrects tileType w nSubrects.toNat ⟨is, bg, fg, buf⟩

/-- `imageRect`: the pixels of a tile are shown. -/
def imageRect (screen : Nat × Nat → Card bpp) (x y w h : Nat) (buf : Nat → Card bpp) : Nat × Nat → Card bpp := fun p =>
  if x ≤ p.1 ∧ p.1 < x + w ∧ y ≤ p.2 ∧ p.2 < y + h then buf ((p.2 - y) * w + (p.1 - x)) else screen p

/-- `HEXTILE_DECODE`, with what is shown so far and what is left of the stream; `buf` is what the buffer holds. -/
def decode (rx ry rw rh : Nat) (screen : Nat × Nat → Card bpp) (buf : Nat → Card bpp) (is : List UInt8) :
    Except DecodeError ((Nat × Nat → Card bpp) × List UInt8) := do
  let (screen, d) ← (hextiles rw rh).foldlM (fun (screen, d) (x, y, w, h) => do
    let d ← decodeTile w h d
    return (imageRect screen (rx + x) (ry + y) w h d.buf, d)) (screen, (⟨is, 0, 0, buf⟩ : Decoding bpp))
  return (screen, d.is)

end Colama.Vnc4.Hextile
