import Colama.Xvnc.Pixels
import Colama.Xvnc.Tight

namespace Colama.Xvnc

open Lib

variable {bpp : Bpp}

def updateBufSize : Nat := 30000

/-- What has been sent, and the `ublen` bytes that are in `updateBuf`. -/
structure UpdateBuf where
  sent : List UInt8
  updateBuf : List UInt8

namespace UpdateBuf

/-- `updateBuf[ublen++] = b`. There is no result if that is past the end. -/
def put (u : UpdateBuf) (b : UInt8) : Option UpdateBuf :=
  if u.updateBuf.length < updateBufSize then some { u with updateBuf := u.updateBuf ++ [b] } else none

/-- A successful `rfbSendUpdateBuf`. -/
def send (u : UpdateBuf) : UpdateBuf where
  sent := u.sent ++ u.updateBuf
  updateBuf := []

/-- All that the client gets. -/
def stream (u : UpdateBuf) : List UInt8 := u.sent ++ u.updateBuf

end UpdateBuf

def hextileRaw : UInt8 := 1
def hextileBackgroundSpecified : UInt8 := 2
def hextileForegroundSpecified : UInt8 := 4
def hextileAnySubrects : UInt8 := 8
def hextileSubrectsColoured : UInt8 := 16

def hextilePackXY (x y : Nat) : UInt8 := UInt8.ofNat (x <<< 4 ||| y)
def hextilePackWH (w h : Nat) : UInt8 := UInt8.ofNat ((w - 1) <<< 4 ||| (h - 1))
def hextileExtractX (b : UInt8) : Nat := b.toNat >>> 4
def hextileExtractY (b : UInt8) : Nat := b.toNat &&& 0xf
def hextileExtractW (b : UInt8) : Nat := (b.toNat >>> 4) + 1
def hextileExtractH (b : UInt8) : Nat := (b.toNat &&& 0xf) + 1

/-- The pixels of a tile, by column and row. -/
abbrev TileData (bpp : Bpp) := Nat → Nat → Card bpp

/-- The columns and rows of a tile in the order of its pixels. -/
def tileCells (w h : Nat) : List (Nat × Nat) :=
  (List.range h).flatMap fun y => (List.range w).map fun x => (x, y)

/-- How many of the next `n` pixels of the row from `x` on have the colour. -/
def runLength (row : Nat → Card bpp) (cl : Card bpp) : (n x : Nat) → Nat
  | 0, _ => 0
  | n + 1, x => if row x = cl then runLength row cl n (x + 1) + 1 else 0

/-- The two rectangles that `subrectEncode` chooses from, `hw` by `hh` and `vw` by `vh`, and whether the
first still grows. -/
structure Subrects where
  hw : Nat
  hh : Nat
  vw : Nat
  vh : Nat
  hyflag : Bool

/-- The loop over the rows from `j` on, of which `n` are left. -/
def growSubrects (data : TileData bpp) (w x : Nat) (cl : Card bpp) : (n j : Nat) → Subrects → Subrects
  | 0, _, s => s
  | n + 1, j, s =>
    if data x j ≠ cl then s
    else
      let i := runLength (fun i => data i j) cl (w - x) x
      let hw := if s.vh = 0 then i else s.hw
      let vw := if s.vh = 0 then i else s.vw
      let grows := s.hyflag && decide (i ≥ hw)
      growSubrects data w x cl n (j + 1)
        { hw, hh := if grows then s.hh + 1 else s.hh, vw := if i < vw then i else vw, vh := s.vh + 1, hyflag := grows }

/-- The width and height of the bigger of the two. -/
def biggerSubrect (data : TileData bpp) (w h x y : Nat) : Nat × Nat :=
  let s := growSubrects data w x (data x y) (h - y) y { hw := 0, hh := 0, vw := 0, vh := 0, hyflag := true }
  if s.hw * s.hh > s.vw * s.vh then (s.hw, s.hh) else (s.vw, s.vh)

def markDone (data : TileData bpp) (x y w h : Nat) (bg : Card bpp) : TileData bpp := fun i j =>
  if x ≤ i ∧ i < x + w ∧ y ≤ j ∧ j < y + h then bg else data i j

/-- The colours that `sendHextiles` remembers from tile to tile. -/
structure HextileColours (bpp : Bpp) where
  validBg : Bool
  validFg : Bool
  bg : Card bpp
  fg : Card bpp

def tileList (data : TileData bpp) (w h : Nat) : List (Card bpp) :=
  (tileCells w h).map fun (x, y) => data x y

/-- The tiles of a rectangle in steps both ways, each with its place in it and its size. -/
def tilesOf (step rw rh : Nat) : List (Nat × Nat × Nat × Nat) :=
  (steps rh step).flatMap fun y => (steps rw step).map fun x =>
    (x, y, if x + step < rw then step else rw - x, if y + step < rh then step else rh - y)

def hextiles (rw rh : Nat) : List (Nat × Nat × Nat × Nat) := tilesOf 16 rw rh

/-- The pixels of a viewer, of type `β`, and the colours it remembers from tile to tile. -/
structure HextileViewer (β : Type*) where
  screen : Nat × Nat → β
  bg : β
  fg : β

variable {β : Type}

def fillRectangle (screen : Nat × Nat → β) (x y w h : Nat) (colour : β) : Nat × Nat → β := fun p =>
  if x ≤ p.1 ∧ p.1 < x + w ∧ y ≤ p.2 ∧ p.2 < y + h then colour else screen p

/-- Rows of pixels, with the colour that `raw` makes of the bytes of each. -/
def copyDataToScreen (size : Nat) (raw : List UInt8 → β) (screen : Nat × Nat → β) (buf : List UInt8)
    (x y w h : Nat) : Nat × Nat → β := fun p =>
  if x ≤ p.1 ∧ p.1 < x + w ∧ y ≤ p.2 ∧ p.2 < y + h then
    raw ((buf.drop (((p.2 - y) * w + (p.1 - x)) * size)).take size)
  else screen p

/-- The loop over the subrectangles, with the colour that `fill` makes of the bytes of a pixel. -/
def drawSubrects (size : Nat) (fill : List UInt8 → β) (coloured : Bool) (x y : Nat) :
    (nSubrects : Nat) → List UInt8 → HextileViewer β → HextileViewer β
  | 0, _, v => v
  | n + 1, buf, v =>
    let v := if coloured then { v with fg := fill (buf.take size) } else v
    let buf := if coloured then buf.drop size else buf
    let xy := buf.getD 0 0
    let wh := buf.getD 1 0
    drawSubrects size fill coloured x y n (buf.drop 2)
      { v with
        screen := fillRectangle v.screen (x + hextileExtractX xy) (y + hextileExtractY xy)
          (hextileExtractW wh) (hextileExtractH wh) v.fg }

/-- The background or foreground of a tile, which stays as it was if it is not specified. -/
def readColour (size : Nat) (fill : List UInt8 → β) (specified : Bool) (colour : β) (input : List UInt8) :
    Option (β × List UInt8) :=
  if specified then (readBytes size input).map fun (pix, input) => (fill pix, input) else some (colour, input)

/-- A tile as both viewers handle it. -/
def handleHextile (size : Nat) (fill raw : List UInt8 → β) (x y w h : Nat) (v : HextileViewer β)
    (input : List UInt8) : Option (HextileViewer β × List UInt8) := do
  let (head, input) ← readBytes 1 input
  let subencoding := head.getD 0 0
  if subencoding &&& hextileRaw ≠ 0 then do
    let (buf, input) ← readBytes (w * h * size) input
    some ({ v with screen := copyDataToScreen size raw v.screen buf x y w h }, input)
  else do
    let (bg, input) ← readColour size fill (decide (subencoding &&& hextileBackgroundSpecified ≠ 0)) v.bg input
    let screen := fillRectangle v.screen x y w h bg
    let (fg, input) ← readColour size fill (decide (subencoding &&& hextileForegroundSpecified ≠ 0)) v.fg input
    if subencoding &&& hextileAnySubrects = 0 then some ({ screen, bg, fg }, input)
    else do
      let (count, input) ← readBytes 1 input
      let nSubrects := (count.getD 0 0).toNat
      let coloured := decide (subencoding &&& hextileSubrectsColoured ≠ 0)
      let (buf, input) ← readBytes (nSubrects * (2 + if coloured then size else 0)) input
      some (drawSubrects size fill coloured x y nSubrects buf { screen, bg, fg }, input)

/-- The pixel of the window for one of the client format: the same one, or that of its table if vncviewer
uses BGR233, which has 8 bits. -/
def windowPixel (bgr233ToPixel : Option (Nat → Nat)) (pix : Card bpp) : Nat :=
  match bpp, bgr233ToPixel with
  | .bpp8, some toPixel => toPixel pix.toNat
  | _, _ => pix.toNat

end Colama.Xvnc
