import Mathlib.Tactic
import Colama.Lib.Copy
import Colama.Spice.Lz.Compress

namespace Colama.Spice.Lz

open Lib

/-- A product of two `int`, wrapped as the machine wraps it. -/
def mulInt (a b : Int) : Int := (a * b).bmod (2 ^ 32)

/-- A word that is stored into an `int`. -/
def toInt (w : Nat) : Int := (w : Int).bmod (2 ^ 32)

variable (k : PixelKind)

/-- The codes that extend a length, up to the first that is not 255. -/
def decodeLen : Nat → Nat → In → Except Error (Nat × In)
  | 0, _, _ => .error .outOfFuel
  | fuel + 1, len, i => do
    let (code, i) ← decode i
    if code = 255 then decodeLen fuel (len + 255) i else .ok (len + code.toNat, i)

/-- The distance of a match, still biased; `hi` are its high bits from the control byte. -/
def decodeDistance (hi : Nat) (i : In) : Except Error (Nat × In) := do
  let (code, i) ← decode i
  if code = 255 ∧ hi = 31 * 256 then
    let (a, i) ← decode i
    let (b, i) ← decode i
    .ok (a.toNat * 256 + b.toNat + maxDistance, i)
  else .ok (hi + code.toNat, i)

/-- The length of a match, still biased. -/
def decodeMatchLen (len : Nat) (i : In) : Except Error (Nat × In) :=
  if len = 7 - 1 then decodeLen (i.bytes.length + 1) len i else .ok (len, i)

/-- The length and the distance of a match, the biases taken off. -/
def decodeRef (ctrl : UInt8) (i : In) : Except Error (Nat × Nat × In) := do
  let (len, i) ← decodeMatchLen (ctrl.toNat / 32 - 1) i
  let (ofs, i) ← decodeDistance (ctrl.toNat % 32 * 256) i
  .ok (len + k.minLen, ofs + 1, i)

/-- Copies `len` pixels from `ofs` pixels before; `out` are the pixels from `out_buf` to `op` and
`old` is what the buffer held before. -/
def copyRef (old : Nat → k.Pixel) (limit : Int) (len ofs : Nat) (out : List k.Pixel) :
    Except Error (List k.Pixel) :=
  if limit < (out.length + len : Nat) ∨ out.length < ofs then .error .assertFailed
  else if ofs = 1 then
    match out[out.length - 1]? with
    | none => .error .assertFailed
    | some b => .ok (copyRun (fun i b => k.copyPixel (old i) b) b len out)
  else .ok (copyBack (fun i b => k.copyPixel (old i) b) ofs len out)

/-- `n` times `COPY_COMP_PIXEL`. -/
def copyComp (old : Nat → k.Pixel) : Nat → List k.Pixel → In → Except Error (List k.Pixel × In)
  | 0, out, i => .ok (out, i)
  | n + 1, out, i => do
    let (bs, i) ← decodeBytes k.compSize i
    copyComp old n (out ++ [k.compPixel (old out.length) bs]) i

def copyLiterals (old : Nat → k.Pixel) (limit : Int) (n : Nat) (out : List k.Pixel) (i : In) :
    Except Error (List k.Pixel × In) :=
  if limit < (out.length + n : Nat) then .error .assertFailed else copyComp k old n out i

/-- What one control byte stands for. -/
def copyToken (old : Nat → k.Pixel) (limit : Int) (ctrl : UInt8) (out : List k.Pixel) (i : In) :
    Except Error (List k.Pixel × In) :=
  if maxCopy ≤ ctrl.toNat then do
    let (len, ofs, i) ← decodeRef k ctrl i
    let out ← copyRef k old limit len ofs out
    .ok (out, i)
  else copyLiterals k old limit (ctrl.toNat + 1) out i

/-- The loop of `decompress`. -/
def decompressLoop (old : Nat → k.Pixel) (limit : Int) :
    Nat → UInt8 → List k.Pixel → In → Except Error (List k.Pixel × In)
  | 0, _, _, _ => .error .outOfFuel
  | fuel + 1, ctrl, out, i => do
    let (out, i) ← copyToken k old limit ctrl out i
    if (out.length : Int) < limit then
      let (ctrl, i) ← decode i
      decompressLoop old limit fuel ctrl out i
    else .ok (out, i)

def decompress (old : Nat → k.Pixel) (size : Int) (i : In) : Except Error (List k.Pixel × In) := do
  let (ctrl, i) ← decode i
  decompressLoop k old size (i.bytes.length + 1) ctrl [] i

/-- What `lz_decode_begin` leaves in the encoder, and its `out_top_down`. -/
structure Decoder where
  type : LzImageType
  width : Int
  height : Int
  stride : Int
  topDown : Nat
  input : In

def lzDecodeBegin (i : In) : Except Error Decoder := do
  let (magic, i) ← decode32 i
  if magic ≠ lzMagic then .error .badMagic
  else do
    let (version, i) ← decode32 i
    if version ≠ lzVersion then .error .badVersion
    else do
      let (type, i) ← decode32 i
      let (width, i) ← decode32 i
      let (height, i) ← decode32 i
      let (stride, i) ← decode32 i
      let (topDown, i) ← decode32 i
      match LzImageType.ofCode type with
      | none => .error .fault
      | some type => .ok ⟨type, toInt width, toInt height, toInt stride, topDown, i⟩

/-- The pixel type that an image type is compressed as; an image with alpha is first compressed as
one without. -/
def LzImageType.kind : LzImageType → PixelKind
  | invalid | plt1Le | plt1Be | plt4Le | plt4Be | plt8 => .plt
  | rgb16 => .rgb16
  | rgb24 => .rgb24
  | rgb32 | rgba => .rgb32
  | xxxa => .rgbAlpha

/-- The first pass of `lz_decode`; `buf` are the bytes that the buffer held. -/
def decodePass (buf : Nat → UInt8) (size : Int) (i : In) : Except Error (List k.Pixel × In) :=
  decompress k (fun p => k.load ((List.range k.size).map fun j => buf (p * k.size + j))) size i

/-- The assertions at the end of `lz_decode`. -/
def decodeEnd {P : Type} (size : Int) (out : List P) (i : In) (store : P → List UInt8) :
    Except Error (List UInt8 × In) :=
  if isIoToDecodeEnd i = false then .error .assertFailed
  else if (out.length : Int) ≠ size then .error .assertFailed
  else .ok (out.flatMap store, i)

/-- `lz_decode` to the type of the image: the bytes that it leaves in the buffer. -/
def lzDecode (d : Decoder) (buf : Nat → UInt8) : Except Error (List UInt8 × In) :=
  let size := mulInt d.height (if d.type.isPlt then d.stride else d.width)
  match d.type with
  | .plt1Le | .plt1Be | .plt4Le | .plt4Be | .plt8 | .rgb16 | .rgb24 | .rgb32 | .xxxa => do
    let (out, i) ← decodePass d.type.kind buf size d.input
    decodeEnd size out i d.type.kind.store
  | .rgba => do
    let (rgb, i) ← decodePass .rgb32 buf size d.input
    let (out, i) ← decompress .rgbAlpha (fun p => rgb.getD p ⟨0, 0, 0, 0⟩) size i
    if (rgb.length : Int) ≠ size then .error .assertFailed
    else decodeEnd size out i PixelKind.rgbAlpha.store
  | .invalid => .error .badImageType

end Colama.Spice.Lz
