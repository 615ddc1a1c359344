import Mathlib
import Colama.Spice.Qxl.Parse

namespace Colama.Spice.Qxl

open Memslots DataChunks Lib

structure SpiceChunk where
  data : UInt64
  len : UInt32
  deriving DecidableEq

structure SpiceChunks where
  dataSize : UInt32
  flags : UInt32
  chunk : List SpiceChunk
  deriving DecidableEq

structure SpicePalette where
  unique : UInt64
  numEnts : UInt16
  ents : List UInt32
  deriving DecidableEq

structure SpiceBitmap where
  format : UInt8
  flags : UInt8
  x : UInt32
  y : UInt32
  stride : UInt32
  palette : Option SpicePalette
  paletteId : UInt64
  data : SpiceChunks
  deriving DecidableEq

structure SpiceImageDescriptor where
  id : UInt64
  type : UInt8
  flags : UInt8
  width : UInt32
  height : UInt32
  deriving DecidableEq

/-- The `union` of a `SpiceImage`. -/
inductive ImageData
  | bitmap (b : SpiceBitmap)
  | surface (surfaceId : UInt32)
  | quic (dataSize : UInt32) (data : SpiceChunks)
  deriving DecidableEq

structure SpiceImage where
  descriptor : SpiceImageDescriptor
  u : ImageData
  deriving DecidableEq

def imageTypeBitmap : UInt8 := 0
def imageTypeQuic : UInt8 := 1
def imageTypeSurface : UInt8 := 104

def imageFlagsCacheMe : UInt8 := 1
def imageFlagsHighBitsSet : UInt8 := 2
def bitmapFlagsTopDown : UInt8 := 4
def chunksFlagsUnstable : UInt32 := 1

def qxlImageCache : UInt8 := 1
def qxlImageHighBitsSet : UInt8 := 2
def qxlBitmapDirect : UInt8 := 1
def qxlBitmapUnstable : UInt8 := 2
def qxlBitmapTopDown : UInt8 := 4

/-- `QXLImage` is packed, and as long as its longest variant, the bitmap. -/
def sizeofImage : UInt32 := 48

def sizeofPalette : UInt32 := 10

/-- `abs` of the stride as the `int` it is passed as; the `int` result is converted back for the product. -/
def absStride (stride : UInt32) : UInt32 := if stride.toInt32 < 0 then 0 - stride else stride

variable (info : RedMemSlotInfo) (host : HostMemory) (groupId : Int32)

def redGetImageDataFlat (addr size : UInt64) : Parse SpiceChunks := do
  let data ← Parse.checked (getVirt info addr size.toUInt32 groupId)
  return ⟨size.toUInt32, 0, [⟨data, size.toUInt32⟩]⟩

/-- The chunks are counted in an `int`, and no more of them than the count are taken over. -/
def redGetImageDataChunked (head : List RedDataChunk) : SpiceChunks :=
  let chunk := head.take (UInt32.ofNat head.length).toNat
  ⟨(chunk.map (·.dataSize)).sum, 0, chunk.map fun c => ⟨c.data, c.dataSize⟩⟩

def redGetPalette (addr : UInt64) : Parse (Option SpicePalette) :=
  if addr = 0 then pure none
  else do
    let qp ← Parse.checked (getVirt info addr sizeofPalette groupId)
    let numEnts := host.u16 (qp + 8)
    Parse.checked (validateVirt info (qp + 10) (getMemslotId info addr) (numEnts.toUInt32 * 4) groupId.toUInt32)
    return some ⟨host.u64 qp, numEnts, (List.range numEnts.toNat).map fun i => host.u32 (qp + 10 + 4 * UInt64.ofNat i)⟩

def redGetBitmapData (qxlFlags : UInt8) (data bitmapSize : UInt64) (rounds : Nat) : Parse SpiceChunks :=
  if qxlFlags &&& qxlBitmapDirect ≠ 0 then redGetImageDataFlat info groupId data bitmapSize
  else do
    let (chunks, size) ← redGetDataChunks info host groupId data rounds
    Parse.assert (size = bitmapSize)
    return redGetImageDataChunked chunks

def bitmapSize (y stride : UInt32) : UInt64 := (y * absStride stride).toUInt64

def redGetBitmap (qxl : UInt64) (rounds : Nat) : Parse SpiceBitmap := do
  let qxlFlags := host (qxl + 19)
  let y := host.u32 (qxl + 24)
  let stride := host.u32 (qxl + 28)
  let palette ← redGetPalette info host groupId (host.u64 (qxl + 32))
  let data ← redGetBitmapData info host groupId qxlFlags (host.u64 (qxl + 40)) (bitmapSize y stride) rounds
  return {
    format := host (qxl + 18)
    flags := if qxlFlags &&& qxlBitmapTopDown ≠ 0 then bitmapFlagsTopDown else 0
    x := host.u32 (qxl + 20)
    y := y
    stride := stride
    palette := palette
    paletteId := (palette.map (·.unique)).getD 0
    data := if qxlFlags &&& qxlBitmapUnstable ≠ 0 then { data with flags := data.flags ||| chunksFlagsUnstable }
      else data }

def redGetQuic (addr qxl : UInt64) (rounds : Nat) : Parse ImageData := do
  let dataSize := host.u32 (qxl + 18)
  let (chunks, size) ← Parse.looping
    (redGetDataChunksPtr info host.chunks groupId (getMemslotId info addr) (qxl + 22) rounds)
  Parse.assert (size = dataSize.toUInt64)
  return .quic dataSize (redGetImageDataChunked chunks)

def redGetDescriptor (qxl : UInt64) : SpiceImageDescriptor :=
  let qxlFlags := host (qxl + 9)
  ⟨host.u64 qxl, host (qxl + 8),
    (if qxlFlags &&& qxlImageHighBitsSet ≠ 0 then imageFlagsHighBitsSet else 0) |||
      (if qxlFlags &&& qxlImageCache ≠ 0 then imageFlagsCacheMe else 0),
    host.u32 (qxl + 10), host.u32 (qxl + 14)⟩

/-- The `switch` over the type. -/
def redGetImageData (type : UInt8) (addr qxl : UInt64) (rounds : Nat) : Parse ImageData :=
  if type = imageTypeBitmap then .bitmap <$> redGetBitmap info host groupId qxl rounds
  else if type = imageTypeSurface then pure (.surface (host.u32 (qxl + 18)))
  else if type = imageTypeQuic then redGetQuic info host groupId addr qxl rounds
  else throw .unknownType

/-- `none` in the result is the null that is returned for the null address. -/
def redGetImage (addr : UInt64) (rounds : Nat) : Parse (Option SpiceImage) :=
  if addr = 0 then pure none
  else do
    let qxl ← Parse.checked (getVirt info addr sizeofImage groupId)
    let descriptor := redGetDescriptor host qxl
    let u ← redGetImageData info host groupId descriptor.type addr qxl rounds
    return some ⟨descriptor, u⟩

end Colama.Spice.Qxl
