import Mathlib.Tactic
import Colama.Spice.Lz.Pixel

namespace Colama.Spice.Lz

def maxCopy : Nat := 32

def boundOffset : Nat := 2

def limitOffset : Nat := 6

def maxDistance : Nat := 8191

def maxFarDistance : Nat := 65535 + maxDistance - 1

/-- `lines` are the bytes from `lines` on and `size` is `lines_end - lines`. -/
structure LzImageSegment where
  lines : List UInt8
  size : Nat
  sizeDelta : Nat

structure HashEntry where
  imageSeg : LzImageSegment
  ref : Nat

abbrev HashTable := Nat → HashEntry

/-- A match when the first pixels are compared: `distance` is not yet biased, and `ip` and `ref` are
the next pixels to compare. -/
structure Match where
  distance : Nat
  ip : Nat
  refSeg : LzImageSegment
  ref : Nat

variable (k : PixelKind)

namespace LzImageSegment

def px (seg : LzImageSegment) (i : Nat) : k.Pixel := k.pixel seg.lines i

/-- `lines_end` as an index of pixels. -/
def pixels (seg : LzImageSegment) : Nat := seg.size / k.size

/-- `PIXEL_ID`. -/
def pixelId (seg : LzImageSegment) (i : Nat) : Nat := i + seg.sizeDelta

/-- `HASH_FUNC`; only the low 13 bits matter, which a signed and an unsigned `hval` share. -/
def hashFunc (seg : LzImageSegment) (ip : Nat) : Nat :=
  let bytes := [seg.px k ip, seg.px k (ip + 1), seg.px k (ip + 2)].flatMap k.hashBytes
  let hash : UInt32 := bytes.foldl (fun hash c => ((hash <<< 5) + hash) ^^^ c.toUInt32) 5381
  (hash &&& 8191).toNat

/-- The pixels from `ref` on are compared with those from `ip` on, `n` of them. -/
def samePixels (refSeg : LzImageSegment) (ref : Nat) (seg : LzImageSegment) (ip : Nat) : Nat → Bool
  | 0 => true
  | n + 1 => k.samePixel (refSeg.px k ref) (seg.px k ip) && samePixels refSeg (ref + 1) seg (ip + 1) n

def isRun (seg : LzImageSegment) (ip : Nat) : Bool :=
  decide (0 < ip) && k.samePixel (seg.px k (ip - 1)) (seg.px k ip) &&
    k.samePixel (seg.px k ip) (seg.px k (ip + 1)) &&
    k.samePixel (seg.px k (ip + 1)) (seg.px k (ip + 2))

/-- The difference of two pixel ids as a `size_t`. -/
def distance (seg : LzImageSegment) (ip : Nat) (e : HashEntry) : Nat :=
  (seg.pixelId ip + (2 ^ 64 - e.imageSeg.pixelId e.ref % 2 ^ 64)) % 2 ^ 64

def hashMatch (seg : LzImageSegment) (ip : Nat) (e : HashEntry) : Option Match :=
  let d := seg.distance ip e
  if d = 0 ∨ maxFarDistance ≤ d then none
  else if !samePixels k e.imageSeg e.ref seg ip k.minLen then none
  else if d < maxDistance then some ⟨d, ip + k.minLen, e.imageSeg, e.ref + k.minLen⟩
  else if e.imageSeg.pixels k < e.ref + k.minLen + k.farLen then none
  else if !samePixels k e.imageSeg (e.ref + k.minLen) seg (ip + k.minLen) k.farLen then none
  else some ⟨d, ip + k.minLen + k.farLen, e.imageSeg, e.ref + k.minLen + k.farLen⟩

/-- What one round of `compress_seg` finds at `ip`: a run is looked for first, and only a look into
the hash table enters `ip` there. -/
def findMatch (seg : LzImageSegment) (htab : HashTable) (ip : Nat) : HashTable × Option Match :=
  if seg.isRun k ip then (htab, some ⟨1, ip + 3, seg, ip + 2⟩)
  else
    let hval := seg.hashFunc k ip
    (Function.update htab hval ⟨seg, ip⟩, seg.hashMatch k ip (htab hval))

/-- Where `ip` stops in a run of `x`; `n` rounds are left to the bounds of the two segments. -/
def extendRun (refSeg : LzImageSegment) (x : k.Pixel) (ref ip : Nat) : Nat → Nat
  | 0 => ip
  | n + 1 => if k.samePixel (refSeg.px k ref) x then extendRun refSeg x (ref + 1) (ip + 1) n else ip

def extendRef (refSeg seg : LzImageSegment) (ref ip : Nat) : Nat → Nat
  | 0 => ip
  | n + 1 =>
    if k.samePixel (refSeg.px k ref) (seg.px k ip) then extendRef refSeg seg (ref + 1) (ip + 1) n
    else ip + 1

def extend (seg : LzImageSegment) (m : Match) : Nat :=
  let n := min (seg.pixels k - boundOffset - m.ip) (m.refSeg.pixels k - m.ref)
  if m.distance - 1 = 0 then m.refSeg.extendRun k (m.refSeg.px k m.ref) m.ref m.ip n
  else m.refSeg.extendRef k seg m.ref m.ip n

end LzImageSegment

/-- The bytes of a length from 7 on: 255 for every 255 that are left. -/
def lenBytes (len : Nat) : List UInt8 :=
  if 255 ≤ len then 255 :: lenBytes (len - 255) else [.ofNat len]

/-- The bytes of a match; `len` and `distance` are biased. -/
def matchBytes (len distance : Nat) : List UInt8 :=
  if distance < maxDistance then
    if len < 7 then [.ofNat (len * 32 + distance / 256), .ofNat (distance % 256)]
    else .ofNat (7 * 32 + distance / 256) :: (lenBytes (len - 7) ++ [.ofNat (distance % 256)])
  else
    let far := distance - maxDistance
    if len < 7 then [.ofNat (len * 32 + 31), 255, .ofNat (far / 256), .ofNat (far % 256)]
    else .ofNat (7 * 32 + 31) :: (lenBytes (len - 7) ++ [255, .ofNat (far / 256), .ofNat (far % 256)])

/-- The variables of `compress_seg` and the state it shares. -/
structure SegState where
  io : Io
  htab : HashTable
  ip : Nat
  copy : Nat

variable (space : Nat → Nat)

/-- Adjusts the copy count of the literals that came before, or takes it back if there are none. -/
def endCopy (copy : Nat) (io : Io) : Except Error Io :=
  if copy ≠ 0 then updateCopyCount (.ofNat (copy - 1)) io else compressOutputPrev io

def literal (seg : LzImageSegment) (s : SegState) : Except Error SegState := do
  let io ← encodeBytes space (k.encodePixel (seg.px k s.ip)) s.io
  if s.copy + 1 = maxCopy then
    let io ← encodeCopyCount space (.ofNat (maxCopy - 1)) io
    .ok ⟨io, s.htab, s.ip + 1, 0⟩
  else .ok ⟨io, s.htab, s.ip + 1, s.copy + 1⟩

/-- The updates of the hash table at the end of a match. A pixel type with a short minimal match
checks first that the place lies behind the first pixel of the match. -/
def updateHash (seg : LzImageSegment) (anchor ip : Nat) (htab : HashTable) : HashTable :=
  let htab := if k.minLen = 3 ∨ anchor + 3 < ip then
    Function.update htab (seg.hashFunc k (ip - 3)) ⟨seg, ip - 3⟩ else htab
  if 2 ≤ k.minLen ∨ anchor + 2 < ip then
    Function.update htab (seg.hashFunc k (ip - 2)) ⟨seg, ip - 2⟩ else htab

/-- `len` is `ip - 3 - anchor` and one or two more for the pixel types with a short minimal match. -/
def encodeMatch (seg : LzImageSegment) (m : Match) (s : SegState) : Except Error SegState := do
  let ip := seg.extend k m
  let io ← endCopy s.copy s.io
  let io ← encodeBytes space (matchBytes (ip - s.ip - k.minLen) (m.distance - 1)) io
  let io ← encodeCopyCount space (.ofNat (maxCopy - 1)) io
  .ok ⟨io, updateHash k seg s.ip ip s.htab, ip - 1, 0⟩

/-- One round of the loop of `compress_seg`. -/
def compressRound (seg : LzImageSegment) (s : SegState) : Except Error SegState :=
  match seg.findMatch k s.htab s.ip with
  | (htab, none) => literal k space seg { s with htab := htab }
  | (htab, some m) => encodeMatch k space seg m { s with htab := htab }

/-- The loop over the pixels before `ip_limit`. -/
def compressLoop (seg : LzImageSegment) : Nat → SegState → Except Error SegState
  | 0, _ => .error .outOfFuel
  | fuel + 1, s =>
    if s.ip + limitOffset < seg.pixels k then do compressLoop seg fuel (← compressRound k space seg s)
    else .ok s

/-- The left-over pixels, `n` of them. -/
def leftOver (seg : LzImageSegment) : Nat → SegState → Except Error SegState
  | 0, s => .ok s
  | n + 1, s => do leftOver seg n (← literal k space seg s)

/-- `compress_seg` behind the first copy count. -/
def compressPixels (seg : LzImageSegment) (s : SegState) : Except Error (HashTable × Io) := do
  let s ← compressLoop k space seg (seg.pixels k + 1) s
  let s ← leftOver k space seg (seg.pixels k - s.ip) s
  let io ← endCopy s.copy s.io
  .ok (s.htab, io)

def compressSeg (seg : LzImageSegment) (start copied : Nat) (htab : HashTable) (io : Io) :
    Except Error (HashTable × Io) :=
  if copied = 0 then do
    let io ← encodeCopyCount space (.ofNat (maxCopy - 1)) io
    compressPixels k space seg ⟨io, htab, start, copied⟩
  else compressPixels k space seg ⟨io, htab, start, copied⟩

def compressSegs : List LzImageSegment → HashTable → Io → Except Error Io
  | [], _, io => .ok io
  | seg :: segs, htab, io => do
    let (htab, io) ← compressSeg k space seg 0 0 htab io
    compressSegs segs htab io

/-- Copies the segments of less than 4 pixels at the start. Here the pixels of a segment are counted
by a difference of `PIXEL` pointers, which must be a whole number. -/
def copySmall : List LzImageSegment → Io → Except Error (List LzImageSegment × Io)
  | [], io => .ok ([], io)
  | seg :: segs, io =>
    if seg.size % k.size ≠ 0 then .error .fault
    else if seg.pixels k < 4 then
      if seg.size = 0 then copySmall segs io
      else do
        let io ← encodeCopyCount space (.ofNat (seg.pixels k - 1)) io
        let bytes := (List.range (seg.pixels k)).flatMap fun i => k.encodePixel (seg.px k i)
        copySmall segs (← encodeBytes space bytes io)
    else .ok (seg :: segs, io)

def compress (segs : List LzImageSegment) (io : Io) : Except Error Io := do
  match ← copySmall k space segs io with
  | ([], io) => .ok io
  | (seg :: segs, io) =>
    let io ← encodeCopyCount space (.ofNat (maxCopy - 1)) io
    let io ← encodeBytes space (k.encodePixel (seg.px k 0)) io
    let io ← encodeBytes space (k.encodePixel (seg.px k 1)) io
    let (htab, io) ← compressSeg k space seg 2 2 (fun _ => ⟨seg, 0⟩) io
    compressSegs k space segs htab io

/-- One segment; `num_lines * stride` is unsigned, and a segment that reaches past its lines is read
there. -/
def imageSegment (stride : Int) (c : Chunk) (sizeDelta : Nat) : Except Error LzImageSegment :=
  let size := (c.numLines * stride % 2 ^ 32).toNat
  if c.lines.length < size then .error .fault else .ok ⟨c.lines, size, sizeDelta⟩

/-- The segments that `more_lines` delivers until all lines are there. -/
def readMoreSegments (stride : Int) (bytesPerPixel height : Nat) :
    List Chunk → Nat → Nat → Except Error (List LzImageSegment)
  | [], row, _ => if row < height then .error .moreLinesFailed else .ok []
  | c :: cs, row, sizeDelta =>
    if row < height then
      if c.numLines = 0 then .error .moreLinesFailed
      else do
        let seg ← imageSegment stride c sizeDelta
        let segs ← readMoreSegments stride bytesPerPixel height cs (row + c.numLines)
          ((sizeDelta + seg.size / bytesPerPixel) % 2 ^ 32)
        .ok (seg :: segs)
    else .ok []

def lzReadImageSegments (stride : Int) (bytesPerPixel height : Nat) (first : Chunk)
    (more : List Chunk) : Except Error (List LzImageSegment) := do
  let seg ← imageSegment stride first 0
  let segs ← readMoreSegments stride bytesPerPixel height more first.numLines
    (seg.size / bytesPerPixel % 2 ^ 32)
  .ok (seg :: segs)

/-- The arguments of `lz_encode` but for the output, and what `more_lines` will return. -/
structure LzInput where
  type : LzImageType
  width : Nat
  height : Nat
  topDown : Nat
  stride : Int
  first : Chunk
  more : List Chunk

/-- The checks of the stride; a `width * RGB_BYTES_PER_PIXEL` that is no `int` is undefined. -/
def checkStride (x : LzInput) : Except Error Unit :=
  if x.type.isPlt then
    let line : Int := ↑(x.width / x.type.pltPixelsPerByte)
    if line < x.stride ∧ (x.width % x.type.pltPixelsPerByte = 0 ∨ 1 < x.stride - line) then
      .error .strideOverflows
    else .ok ()
  else if 2 ^ 31 ≤ x.width * x.type.rgbBytesPerPixel then .error .fault
  else if x.stride ≠ ↑(x.width * x.type.rgbBytesPerPixel) then .error .strideMismatch
  else .ok ()

def compressType (type : LzImageType) (segs : List LzImageSegment) (io : Io) : Except Error Io :=
  match type with
  | .plt1Le | .plt1Be | .plt4Le | .plt4Be | .plt8 => compress .plt space segs io
  | .rgb16 => compress .rgb16 space segs io
  | .rgb24 => compress .rgb24 space segs io
  | .rgb32 => compress .rgb32 space segs io
  | .rgba => do compress .rgbAlpha space segs (← compress .rgb32 space segs io)
  | .xxxa => compress .rgbAlpha space segs io
  | .invalid => .error .badImageType

/-- `lz_encode` on a first buffer of `numIoBytes` bytes: the output when it returns. -/
def lzEncode (numIoBytes : Nat) (x : LzInput) : Except Error Io := do
  checkStride x
  let segs ← lzReadImageSegments x.stride x.type.rgbBytesPerPixel x.height x.first x.more
  let io ← encode32 space lzMagic (Io.reset numIoBytes)
  let io ← encode32 space lzVersion io
  let io ← encode32 space x.type.code io
  let io ← encode32 space x.width io
  let io ← encode32 space x.height io
  let io ← encode32 space (x.stride % 2 ^ 32).toNat io
  let io ← encode32 space x.topDown io
  compressType space x.type segs io

end Colama.Spice.Lz
