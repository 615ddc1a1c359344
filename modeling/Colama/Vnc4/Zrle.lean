import Colama.Lib.Probing
import Colama.Vnc4.SecurityResult
import Colama.Xvnc.Hextile

namespace Colama.Vnc4.Zrle

open Lib
open Xvnc (Bpp Card steps tilesOf tileList)

variable {bpp : Bpp}

/-- The fields of a true colour `PixelFormat` that ZRLE looks at. -/
structure PixelFormat where
  bpp : Bpp
  bigEndian : Bool
  redMax : Nat
  greenMax : Nat
  blueMax : Nat
  redShift : Nat
  greenShift : Nat
  blueShift : Nat

namespace PixelFormat

/-- `(max << shift) < (1<<24)`, on numbers of type `int`. -/
def fits24 (max shift : Nat) : Bool := decide ((BitVec.ofNat 32 max <<< shift).toInt < 2 ^ 24)

def fitsInLS3Bytes (pf : PixelFormat) : Bool :=
  fits24 pf.redMax pf.redShift && fits24 pf.greenMax pf.greenShift && fits24 pf.blueMax pf.blueShift

def fitsInMS3Bytes (pf : PixelFormat) : Bool :=
  decide (pf.redShift > 7) && decide (pf.greenShift > 7) && decide (pf.blueShift > 7)

end PixelFormat

/-- Which bytes of a pixel are written: all of them, the first three or the last three of four. -/
inductive CPixel
  | whole | cpixel24A | cpixel24B
  deriving DecidableEq

namespace CPixel

/-- `BPPOUT/8`. -/
def size (bpp : Bpp) : CPixel → Nat
  | whole => bpp.size
  | cpixel24A => 3
  | cpixel24B => 3

/-- `WRITE_PIXEL`. -/
def write (pix : Card bpp) : CPixel → List UInt8
  | whole => pix.bytes
  | cpixel24A => pix.bytes.take 3
  | cpixel24B => pix.bytes.drop 1

/-- The pixel that `READ_PIXEL` makes of the bytes. -/
def ofBytes (bpp : Bpp) (bs : List UInt8) : CPixel → Card bpp
  | whole => Card.ofBytes bs
  | cpixel24A => Card.ofBytes (bs ++ [0])
  | cpixel24B => Card.ofBytes (0 :: bs)

def read (bpp : Bpp) (cp : CPixel) (input : List UInt8) : Option (Card bpp × List UInt8) :=
  (readBytes (cp.size bpp) input).map fun (bs, input) => (cp.ofBytes bpp bs, input)

end CPixel

/-- The choice between the packings, which `writeRect` and `readRect` make in the same words. -/
def PixelFormat.cpixel (pf : PixelFormat) : CPixel :=
  match pf.bpp with
  | .bpp8 => .whole
  | .bpp16 => .whole
  | .bpp32 =>
    if (pf.fitsInLS3Bytes && !pf.bigEndian) || (pf.fitsInMS3Bytes && pf.bigEndian) then .cpixel24A
    else if (pf.fitsInLS3Bytes && pf.bigEndian) || (pf.fitsInMS3Bytes && !pf.bigEndian) then .cpixel24B
    else .whole

structure PaletteHelper (bpp : Bpp) where
  palette : List (Card bpp)
  index : Nat → Nat
  key : Nat → Card bpp
  size : Nat

namespace PaletteHelper

def MAX_SIZE : Nat := 127

def empty (bpp : Bpp) : PaletteHelper bpp where
  palette := []
  index := fun _ => 255
  key := fun _ => 0
  size := 0

def hash (pix : Card bpp) : Nat := (pix.toNat ^^^ pix.toNat >>> 17) &&& 4095

/-- The keys by slot, where an index of 255 stands for no key. -/
def slots (ph : PaletteHelper bpp) (i : Nat) : Option (Card bpp) :=
  if ph.index i = 255 then none else some (ph.key i)

/-- Where the loops of `insert` and `lookup` stop. There is no result if that is past the end. -/
def slot (ph : PaletteHelper bpp) (pix : Card bpp) : Option Nat :=
  Probing.probe ph.slots pix (4096 + MAX_SIZE - hash pix) (hash pix)

def insert (ph : PaletteHelper bpp) (pix : Card bpp) : Option (PaletteHelper bpp) :=
  if ph.size < MAX_SIZE then
    (ph.slot pix).map fun i =>
      if ph.index i ≠ 255 then ph
      else
        { palette := ph.palette ++ [pix]
          index := Function.update ph.index i ph.size
          key := Function.update ph.key i pix
          size := ph.size + 1 }
  else some { ph with size := ph.size + 1 }

/-- There is no result where the code returns -1. -/
def lookup (ph : PaletteHelper bpp) (pix : Card bpp) : Option Nat := do
  let i ← ph.slot pix
  if ph.index i ≠ 255 then some (ph.index i) else none

end PaletteHelper

/-- The first loop over the pixels, at a pixel that has been seen once or more often. The last element of
the list is the one past the end, which is different. -/
def countRuns (pix : Card bpp) (again : Bool) :
    List (Card bpp) → PaletteHelper bpp → (runs singlePixels : Nat) → Option (PaletteHelper bpp × Nat × Nat)
  | [], ph, runs, singlePixels => some (ph, runs, singlePixels)
  | next :: ptr, ph, runs, singlePixels =>
    if next = pix then countRuns pix true ptr ph runs singlePixels
    else do
      let ph ← ph.insert pix
      if again then countRuns next false ptr ph (runs + 1) singlePixels
      else countRuns next false ptr ph runs (singlePixels + 1)

def bitsPerPackedPixel (i : Nat) : Nat :=
  [0, 1, 2, 2, 4, 4, 4, 4, 4, 4, 4, 4, 4, 4, 4, 4].getD i 0

/-- The estimates for a tile: whether to use RLE, and whether to use the palette. -/
def chooseForm (size paletteSize area runs singlePixels : Nat) : Bool × Bool :=
  let estimatedBytes := area * size
  let plainRleBytes := (size + 1) * (runs + singlePixels)
  let useRle := decide (plainRleBytes < estimatedBytes)
  let estimatedBytes := if plainRleBytes < estimatedBytes then plainRleBytes else estimatedBytes
  if paletteSize < 128 then
    let paletteRleBytes := size * paletteSize + 2 * runs + singlePixels
    let usePalette := decide (paletteRleBytes < estimatedBytes)
    let useRle := useRle || usePalette
    let estimatedBytes := if paletteRleBytes < estimatedBytes then paletteRleBytes else estimatedBytes
    if paletteSize < 17 then
      let packedBytes := size * paletteSize + area * bitsPerPackedPixel (paletteSize - 1) / 8
      if packedBytes < estimatedBytes then (false, true) else (useRle, usePalette)
    else (useRle, usePalette)
  else (useRle, false)

/-- A length in bytes of 255 and a last one that is less. -/
def writeLength (len : Nat) : List UInt8 := List.replicate (len / 255) 255 ++ [UInt8.ofNat (len % 255)]

def writeRun (cp : CPixel) (ph : PaletteHelper bpp) (usePalette : Bool) (pix : Card bpp) (len : Nat) :
    Option (List UInt8) :=
  if usePalette then
    (ph.lookup pix).map fun index =>
      if len ≤ 2 then (if len = 2 then [UInt8.ofNat index] else []) ++ [UInt8.ofNat index]
      else UInt8.ofNat (index ||| 128) :: writeLength (len - 1)
  else some (cp.write pix ++ writeLength (len - 1))

/-- The loop over the runs, in one of `len` pixels so far. -/
def writeRuns (cp : CPixel) (ph : PaletteHelper bpp) (usePalette : Bool) (pix : Card bpp) (len : Nat) :
    List (Card bpp) → Option (List UInt8)
  | [] => writeRun cp ph usePalette pix len
  | next :: ptr =>
    if next = pix then writeRuns cp ph usePalette pix (len + 1) ptr
    else do
      let run ← writeRun cp ph usePalette pix len
      let rest ← writeRuns cp ph usePalette next 1 ptr
      some (run ++ rest)

/-- The loop over a row of packed pixels. -/
def packRow (ph : PaletteHelper bpp) (bppp : Nat) : List (Card bpp) → (byte nbits : Nat) → Option (List UInt8)
  | [], byte, nbits => some (if nbits > 0 then [UInt8.ofNat (byte <<< (8 - nbits))] else [])
  | pix :: ptr, byte, nbits => do
    let index ← ph.lookup pix
    let byte := (byte <<< bppp ||| index) % 256
    if nbits + bppp ≥ 8 then (packRow ph bppp ptr byte 0).map (UInt8.ofNat byte :: ·)
    else packRow ph bppp ptr byte (nbits + bppp)

def packRows (ph : PaletteHelper bpp) (bppp w : Nat) : (h : Nat) → List (Card bpp) → Option (List UInt8)
  | 0, _ => some []
  | h + 1, data => do
    let row ← packRow ph bppp (data.take w) 0 0
    let rest ← packRows ph bppp w h (data.drop w)
    some (row ++ rest)

/-- What follows the palette of a tile. -/
def writePixels (cp : CPixel) (ph : PaletteHelper bpp) (useRle usePalette : Bool) (data : List (Card bpp)) (w h : Nat) :
    Option (List UInt8) :=
  if useRle then
    match data with
    | [] => some []
    | pix :: ptr => writeRuns cp ph usePalette pix 1 ptr
  else if usePalette then packRows ph (bitsPerPackedPixel (ph.size - 1)) w h data
  else some (data.flatMap cp.write)

/-- `ZRLE_ENCODE_TILE`. -/
def zrleEncodeTile (cp : CPixel) (data : List (Card bpp)) (w h : Nat) : Option (List UInt8) :=
  match data with
  | [] => none
  | first :: ptr => do
    let pastEnd := ~~~ (first :: ptr).getLast (List.cons_ne_nil first ptr)
    let (ph, runs, singlePixels) ← countRuns first false (ptr ++ [pastEnd]) (PaletteHelper.empty bpp) 0 0
    if ph.size = 1 then (ph.palette.head?).map fun pix => 1 :: cp.write pix
    else do
      let (useRle, usePalette) := chooseForm (cp.size bpp) ph.size (w * h) runs singlePixels
      let size := if usePalette then ph.size else 0
      let pixels ← writePixels cp ph useRle usePalette data w h
      some (UInt8.ofNat ((if useRle then 128 else 0) ||| size) ::
        ((ph.palette.take size).flatMap cp.write ++ pixels))

structure Rect where
  x : Nat
  y : Nat
  w : Nat
  h : Nat

/-- The zlib streams of a connection. `deflate` gives what is written for some bytes up to a flush, `inflate`
what comes out of some compressed bytes. -/
structure Zlib (σ τ : Type) where
  deflate : σ → List UInt8 → List UInt8 × σ
  inflate : τ → List UInt8 → List UInt8 × τ

variable {σ τ : Type}

def worstCaseLine (size width : Nat) : Nat :=
  let line := width * 64 * size + 1 + width / 64
  line + (11 + 5 * (line >>> 15))

/-- The tiles of one line of tiles. -/
def encodeLine (cp : CPixel) (image : Nat → Nat → Card bpp) (r : Rect) (dy : Nat) : List Nat → Option (List UInt8)
  | [] => some []
  | dx :: dxs => do
    let w := if dx + 64 < r.w then 64 else r.w - dx
    let h := if dy + 64 < r.h then 64 else r.h - dy
    let tile ← zrleEncodeTile cp (tileList (fun i j => image (r.x + dx + i) (r.y + dy + j)) w h) w h
    let rest ← encodeLine cp image r dy dxs
    some (tile ++ rest)

/-- The outer loop of `ZRLE_ENCODE`. The result is the height of `actual`, whether that is all, and the streams.
There is no result if the first line does not fit. -/
def zrleEncode (zlib : Zlib σ τ) (cp : CPixel) (image : Nat → Nat → Card bpp) (r : Rect) (maxLen : Nat) :
    List Nat → σ → List UInt8 → Option (Nat × Bool × σ × List UInt8)
  | [], zos, os => some (r.h, true, zos, os)
  | dy :: dys, zos, os =>
    if os.length + worstCaseLine (cp.size bpp) r.w > maxLen then
      if dy = 0 then none else some (dy, false, zos, os)
    else do
      let line ← encodeLine cp image r dy (steps r.w 64)
      let (bytes, zos) := zlib.deflate zos line
      zrleEncode zlib cp image r maxLen dys zos (os ++ bytes)

/-- Enough for width 16384 32-bit pixels. -/
def maxLen : Nat := 4097 * 1024

/-- What `writeRect` leaves: the rectangle it starts, the bytes after that, and whether it wrote all. -/
structure Written (σ : Type) where
  actual : Rect
  bytes : List UInt8
  wroteAll : Bool
  zos : σ

def writeRect (zlib : Zlib σ τ) (pf : PixelFormat) (image : Nat → Nat → Card pf.bpp) (r : Rect) (zos : σ) :
    Option (Written σ) := do
  let (height, wroteAll, zos, mos) ← zrleEncode zlib pf.cpixel image r maxLen (steps r.h 64) zos []
  some { actual := { r with h := height }, bytes := writeU32 mos.length ++ mos, wroteAll, zos }

def readU8 (input : List UInt8) : Option (Nat × List UInt8) :=
  match input with
  | [] => none
  | b :: input => some (b.toNat, input)

/-- As many pixels, one after another. -/
def readPixels (bpp : Bpp) (cp : CPixel) : Nat → List UInt8 → Option (List (Card bpp) × List UInt8)
  | 0, input => some ([], input)
  | n + 1, input => do
    let (pix, input) ← cp.read bpp input
    let (pixels, input) ← readPixels bpp cp n input
    some (pix :: pixels, input)

/-- `bppp` as the decoder finds it. -/
def packedBits (palSize : Nat) : Nat :=
  if palSize > 16 then 8 else if palSize > 4 then 4 else if palSize > 2 then 2 else 1

/-- The byte that the next index is in, and how many of its bits are left. -/
def currentByte (byte nbits : Nat) (input : List UInt8) : Option (Nat × Nat × List UInt8) :=
  if nbits = 0 then (readU8 input).map fun (byte, input) => (byte, 8, input) else some (byte, nbits, input)

/-- A row of packed pixels. -/
def unpackRow (palette : List (Card bpp)) (bppp : Nat) :
    (n byte nbits : Nat) → List UInt8 → Option (List (Card bpp) × List UInt8)
  | 0, _, _, input => some ([], input)
  | n + 1, byte, nbits, input => do
    let (byte, nbits, input) ← currentByte byte nbits input
    let nbits := nbits - bppp
    let index := (byte >>> nbits) &&& (1 <<< bppp - 1) &&& 127
    let pix ← palette[index]?
    let (pixels, input) ← unpackRow palette bppp n byte nbits input
    some (pix :: pixels, input)

def unpackRows (palette : List (Card bpp)) (bppp w : Nat) :
    (h : Nat) → List UInt8 → Option (List (Card bpp) × List UInt8)
  | 0, input => some ([], input)
  | h + 1, input => do
    let (row, input) ← unpackRow palette bppp w 0 0 input
    let (rows, input) ← unpackRows palette bppp w h input
    some (row ++ rows, input)

/-- The sum of the bytes up to one that is not 255. -/
def readLength : List UInt8 → Option (Nat × List UInt8)
  | [] => none
  | b :: input => if b = 255 then (readLength input).map fun (len, input) => (255 + len, input)
    else some (b.toNat, input)

/-- The length that follows an index, if one does. -/
def indexLength (index : Nat) (input : List UInt8) : Option (Nat × List UInt8) :=
  if index &&& 128 ≠ 0 then readLength input else some (0, input)

/-- A run of plain RLE. -/
def readPlainRun (bpp : Bpp) (cp : CPixel) (input : List UInt8) : Option ((Card bpp × Nat) × List UInt8) := do
  let (pix, input) ← cp.read bpp input
  let (len, input) ← readLength input
  some ((pix, 1 + len), input)

/-- A run of palette RLE. An index that is not in the palette gives no result. -/
def readPaletteRun (palette : List (Card bpp)) (input : List UInt8) : Option ((Card bpp × Nat) × List UInt8) := do
  let (index, input) ← readU8 input
  let (len, input) ← indexLength index input
  let pix ← palette[index &&& 127]?
  some ((pix, 1 + len), input)

/-- The loops over runs, with `n` pixels left. A run is not longer than that. -/
def readRuns (readRun : List UInt8 → Option ((Card bpp × Nat) × List UInt8)) :
    (fuel n : Nat) → List UInt8 → Option (List (Card bpp) × List UInt8)
  | 0, _, input => some ([], input)
  | fuel + 1, n, input =>
    if n = 0 then some ([], input)
    else do
      let ((pix, len), input) ← readRun input
      if len ≤ n then
        (readRuns readRun fuel (n - len) input).map fun (pixels, input) => (List.replicate len pix ++ pixels, input)
      else none

/-- The pixels of a tile after its mode and palette. -/
def readForm (bpp : Bpp) (cp : CPixel) (rle : Bool) (palette : List (Card bpp)) (w h : Nat) (input : List UInt8) :
    Option (List (Card bpp) × List UInt8) :=
  if palette.length = 1 then some ((palette.take 1).flatMap (List.replicate (w * h)), input)
  else if !rle then
    if palette.length = 0 then readPixels bpp cp (w * h) input
    else unpackRows palette (packedBits palette.length) w h input
  else if palette.length = 0 then readRuns (readPlainRun bpp cp) (w * h) (w * h) input
  else readRuns (readPaletteRun palette) (w * h) (w * h) input

/-- What `ZRLE_DECODE` reads for a tile. -/
def zrleDecodeTile (bpp : Bpp) (cp : CPixel) (w h : Nat) (input : List UInt8) :
    Option (List (Card bpp) × List UInt8) := do
  let (mode, input) ← readU8 input
  let (palette, input) ← readPixels bpp cp (mode &&& 127) input
  readForm bpp cp (decide (mode &&& 128 ≠ 0)) palette w h input

/-- `imageRect`, on the pixels of the window. -/
def imageRect (buf : List (Card bpp)) (x y w h : Nat) (window : Nat × Nat → Card bpp) : Nat × Nat → Card bpp :=
  fun p => if x ≤ p.1 ∧ p.1 < x + w ∧ y ≤ p.2 ∧ p.2 < y + h then buf.getD ((p.2 - y) * w + (p.1 - x)) 0 else window p

/-- A tile of a rectangle, from the bytes that come out of `zis`. -/
def showTile (cp : CPixel) (r : Rect) (s : (Nat × Nat → Card bpp) × List UInt8) (tile : Nat × Nat × Nat × Nat) :
    Option ((Nat × Nat → Card bpp) × List UInt8) := do
  let (window, plain) := s
  let (dx, dy, w, h) := tile
  let (buf, plain) ← zrleDecodeTile bpp cp w h plain
  some (imageRect buf (r.x + dx) (r.y + dy) w h window, plain)

/-- The loops of `ZRLE_DECODE`. -/
def zrleDecode (cp : CPixel) (r : Rect) (window : Nat × Nat → Card bpp) (plain : List UInt8) :
    Option ((Nat × Nat → Card bpp) × List UInt8) :=
  (tilesOf 64 r.w r.h).foldlM (showTile cp r) (window, plain)

/-- `readRect`. What is left of the compressed bytes after the tiles is thrown away. The length is an `int`. -/
def readRect (zlib : Zlib σ τ) (pf : PixelFormat) (r : Rect) (window : Nat × Nat → Card pf.bpp) (zis : τ)
    (input : List UInt8) : Option ((Nat × Nat → Card pf.bpp) × τ × List UInt8) := do
  let (length, input) ← readU32 input
  if length < 2 ^ 31 then do
    let (compressed, input) ← readBytes length input
    let (plain, zis) := zlib.inflate zis compressed
    let (window, _) ← zrleDecode pf.cpixel r window plain
    some (window, zis, input)
  else none

end Colama.Vnc4.Zrle
