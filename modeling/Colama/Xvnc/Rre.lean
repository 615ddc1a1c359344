import Colama.Xvnc.Hextile

namespace Colama.Xvnc

open Lib

variable {bpp : Bpp}

/-- The two encodings by subrectangles, which differ in how they send the place and the sides of one. -/
inductive RreKind
  | corre | rre
  deriving DecidableEq

namespace RreKind

/-- The bytes of a coordinate. -/
def coordSize : RreKind → Nat
  | .corre => 1
  | .rre => 2

/-- `sz_rfbCoRRERectangle` or `sz_rfbRectangle`. -/
def size (kind : RreKind) : Nat := 4 * kind.coordSize

def maxSide : RreKind → Nat
  | .corre => 255
  | .rre => 65535

end RreKind

/-- A picture in `rreBeforeBuf`, with the sizes of the two buffers, which are ints. -/
structure RreInput (kind : RreKind) (bpp : Bpp) where
  data : TileData bpp
  w : Nat
  h : Nat
  rreBeforeBufSize : Nat
  rreAfterBufSize : Nat
  w_le : w ≤ kind.maxSide
  h_le : h ≤ kind.maxSide
  fits : w * h * bpp.size ≤ rreBeforeBufSize
  fits_after : w * h * bpp.size ≤ rreAfterBufSize
  isInt : rreBeforeBufSize < 2 ^ 31

/-- `seg[i]` for the `seg` of row `j`. There is no result if that is none of the `w * h` pixels. -/
def seg (data : TileData bpp) (w h j i : Nat) : Option (Card bpp) :=
  if j * w + i < w * h then some (data ((j * w + i) % w) ((j * w + i) / w)) else none

/-- The loop of `getBgColour` for 8 bits per pixel. -/
def mostPrevalent : List (Card bpp) → (counts : Card bpp → Nat) → (maxcount : Nat) → (maxclr : Card bpp) → Card bpp
  | [], _, _, maxclr => maxclr
  | k :: data, counts, maxcount, maxclr =>
    let counts := Function.update counts k (counts k + 1)
    if counts k > maxcount then mostPrevalent data counts (counts k) k else mostPrevalent data counts maxcount maxclr

def getBgColour (data : TileData bpp) (w h : Nat) : Option (Card bpp) :=
  match bpp with
  | .bpp8 => some (mostPrevalent (tileList data w h) (fun _ => 0) 0 0)
  | _ => seg data w h 0 0

/-- `while ((seg[i] == cl) && (i < w)) i += 1`, where the bound is `n` steps away: the pixel is examined
before the bound is tested. -/
def scanRow (data : TileData bpp) (w h j : Nat) (cl : Card bpp) : (n i : Nat) → Option Nat
  | 0, i => (seg data w h j i).map fun _ => i
  | n + 1, i => do
    if (← seg data w h j i) = cl then scanRow data w h j cl n (i + 1) else some i

/-- The two rectangles after a row of which the pixels from `x` up to `x + i` have the colour. -/
def Subrects.addRow (s : Subrects) (i : Nat) : Subrects :=
  let hw := if s.vh = 0 then i else s.hw
  let vw := if s.vh = 0 then i else s.vw
  let grows := s.hyflag && decide (i ≥ hw)
  { hw, hh := if grows then s.hh + 1 else s.hh, vw := if i < vw then i else vw, vh := s.vh + 1, hyflag := grows }

/-- The loop over the rows from `j` on, of which `n` are left. -/
def scanRows (data : TileData bpp) (w h x : Nat) (cl : Card bpp) : (n j : Nat) → Subrects → Option Subrects
  | 0, _, s => some s
  | n + 1, j, s => do
    if (← seg data w h j x) ≠ cl then some s
    else
      let i ← scanRow data w h j cl (w - x) x
      scanRows data w h x cl n (j + 1) (s.addRow (i - x))

/-- `subrect`, in the order of its bytes. -/
def rreRectangle (kind : RreKind) (x y w h : Nat) : List UInt8 :=
  beBytes kind.coordSize x ++ beBytes kind.coordSize y ++ beBytes kind.coordSize w ++ beBytes kind.coordSize h

/-- The loops of `subrectEncode` over the pixels that are left, with what is in `rreAfterBuf`. There is no
result where a pixel outside is examined, and the inner result is `none` where `-1` is returned. -/
@[grind] def rreLoop (kind : RreKind) (w h : Nat) (bg : Card bpp) (rreAfterBufSize : Nat) :
    List (Nat × Nat) → TileData bpp → (rreAfterBuf : List UInt8) → (numsubs : Nat) → Option (Option (Nat × List UInt8))
  | [], _, rreAfterBuf, numsubs => some (some (numsubs, rreAfterBuf))
  | (x, y) :: cells, data, rreAfterBuf, numsubs => do
    let cl ← seg data w h y x
    if cl = bg then rreLoop kind w h bg rreAfterBufSize cells data rreAfterBuf numsubs
    else
      let s ← scanRows data w h x cl (h - y) y { hw := 0, hh := 0, vw := 0, vh := 0, hyflag := true }
      let (thew, theh) := if s.hw * s.hh > s.vw * s.vh then (s.hw, s.hh) else (s.vw, s.vh)
      let newLen := rreAfterBuf.length + bpp.size + kind.size
      if newLen > w * h * bpp.size ∨ newLen > rreAfterBufSize then some none
      else
        rreLoop kind w h bg rreAfterBufSize cells (markDone data x y thew theh bg)
          (rreAfterBuf ++ (cl.bytes ++ rreRectangle kind x y thew theh)) (numsubs + 1)

/-- The `subrectEncode` of either encoding: the number of subrectangles and what is in `rreAfterBuf`. -/
def rreSubrectEncode {kind : RreKind} (p : RreInput kind bpp) : Option (Option (Nat × List UInt8)) := do
  let bg ← getBgColour p.data p.w p.h
  rreLoop kind p.w p.h bg p.rreAfterBufSize (tileCells p.w p.h) p.data bg.bytes 0

variable {β : Type}

/-- The loop over the subrectangles of either handler, with the colour `shown` of the bytes of a pixel. -/
def drawRreSubrects (kind : RreKind) (size : Nat) (shown : List UInt8 → β) (rx ry : Nat) :
    (nSubrects : Nat) → (screen : Nat × Nat → β) → List UInt8 → Option ((Nat × Nat → β) × List UInt8)
  | 0, screen, input => some (screen, input)
  | n + 1, screen, input => do
    let (pix, input) ← readBytes size input
    let (x, input) ← readBytes kind.coordSize input
    let (y, input) ← readBytes kind.coordSize input
    let (w, input) ← readBytes kind.coordSize input
    let (h, input) ← readBytes kind.coordSize input
    drawRreSubrects kind size shown rx ry n
      (fillRectangle screen (rx + ofBeBytes x) (ry + ofBeBytes y) (ofBeBytes w) (ofBeBytes h) (shown pix)) input

/-- `HandleRRE` reads one subrectangle after the other, `HandleCoRRE` reads all of them first. -/
def handleRre (kind : RreKind) (size : Nat) (shown : List UInt8 → β) (rx ry rw rh : Nat) (screen : Nat × Nat → β)
    (input : List UInt8) : Option ((Nat × Nat → β) × List UInt8) := do
  let (hdr, input) ← readBytes 4 input
  let nSubrects := ofBeBytes hdr
  let (pix, input) ← readBytes size input
  let screen := fillRectangle screen rx ry rw rh (shown pix)
  match kind with
  | .rre => drawRreSubrects kind size shown rx ry nSubrects screen input
  | .corre =>
    let (buffer, input) ← readBytes (nSubrects * (4 + size)) input
    let (screen, _) ← drawRreSubrects kind size shown rx ry nSubrects screen buffer
    some (screen, input)

/-- The `HandleRRE` or `HandleCoRRE` of vncviewer. -/
def viewerHandleRre (kind : RreKind) (bpp : Bpp) (bgr233ToPixel : Option (Nat → Nat)) :
    (rx ry rw rh : Nat) → (Nat × Nat → Nat) → List UInt8 → Option ((Nat × Nat → Nat) × List UInt8) :=
  handleRre kind bpp.size fun pix => windowPixel bgr233ToPixel (Card.ofBytes pix : Card bpp)

/-- What the server sends of a rectangle after its header. -/
def rreRect (nSubrects : Nat) (rreAfterBuf : List UInt8) : List UInt8 := beBytes 4 nSubrects ++ rreAfterBuf

end Colama.Xvnc
