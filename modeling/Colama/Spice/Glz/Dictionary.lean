import Mathlib.Tactic
import Colama.Lib.Linked
import Colama.Spice.Lz.Common

namespace Colama.Spice.Glz

open Lib Lz

/-- `MAX_IMAGE_SEGS_NUM`, which as an index is `NULL_IMAGE_SEG_ID`. -/
def nullImageSegId : Nat := 2 ^ 32 - 1

def initImageSegsNum : Nat := 1000

def lzMaxWindowSize : Nat := 2 ^ 25

structure WindowImage where
  id : Nat
  type : LzImageType
  size : Nat
  firstSeg : Nat
  next : Option Nat
  isAlive : Bool

structure WindowImageSegment where
  image : Option Nat
  lines : List UInt8
  pixelsNum : Nat
  pixelsSoFar : Nat
  next : Nat

/-- An image record is known by its number in the order in which they were allocated; `images` holds
the records up to `nRecords`, and `segs` the segments up to `segsQuota`. -/
structure SharedDictionary where
  segs : Nat → WindowImageSegment
  segsQuota : Nat
  usedSegsHead : Nat
  usedSegsTail : Nat
  freeSegsHead : Nat
  encodersHeads : Nat → Nat
  images : Nat → WindowImage
  nRecords : Nat
  usedImagesTail : Option Nat
  usedImagesHead : Option Nat
  freeImages : Option Nat
  pixelsSoFar : Nat
  sizeLimit : Nat
  lastImageId : Nat
  maxEncoders : Nat

/-- The call of `usr->error` that ends a run, a pointer that leads nowhere, or a loop without end. -/
inductive DictError
  | imageTooBig
  | segsOverflow
  | moreLinesFailed
  | assertFailed
  | fault
  | loops
  deriving DecidableEq

namespace SharedDictionary

/-- The state that `glz_enc_dictionary_create` leaves, after its reset. -/
def create (size maxEncoders : Nat) : SharedDictionary where
  segs := fun i => ⟨none, [], 0, 0, if i + 1 = initImageSegsNum then nullImageSegId else i + 1⟩
  segsQuota := initImageSegsNum
  usedSegsHead := nullImageSegId
  usedSegsTail := nullImageSegId
  freeSegsHead := 0
  encodersHeads := fun _ => nullImageSegId
  images := fun _ => ⟨0, .invalid, 0, 0, none, false⟩
  nRecords := 0
  usedImagesTail := none
  usedImagesHead := none
  freeImages := none
  pixelsSoFar := 0
  sizeLimit := size
  lastImageId := 0
  maxEncoders := maxEncoders

def glzEncDictionaryCreate (size maxEncoders : Nat) : Option SharedDictionary :=
  if size > lzMaxWindowSize then none else some (create size maxEncoders)

def setSeg (d : SharedDictionary) (i : Nat) (seg : WindowImageSegment) : SharedDictionary :=
  { d with segs := Function.update d.segs i seg }

def setSegNext (d : SharedDictionary) (i next : Nat) : SharedDictionary :=
  d.setSeg i { d.segs i with next := next }

def setImage (d : SharedDictionary) (p : Nat) (image : WindowImage) : SharedDictionary :=
  { d with images := Function.update d.images p image }

/-- `glz_enc_dictionary_remove_image`: the image stays in the window. -/
def removeImage (d : SharedDictionary) (p : Nat) : SharedDictionary :=
  d.setImage p { d.images p with isAlive := false }

/-- `num_lines * stride` is unsigned. -/
def getPixelsNum (type : LzImageType) (numLines stride : Nat) : Nat :=
  if type.isRgb then numLines * stride % 2 ^ 32 / type.rgbBytesPerPixel
  else numLines * stride * type.pltPixelsPerByte % 2 ^ 32

/-- The copy of the old segments into an array that came out smaller is a fault. -/
def segsRealloc (d : SharedDictionary) : Except DictError SharedDictionary :=
  let newQuota := if nullImageSegId < d.segsQuota * 2 % 2 ^ 32 then nullImageSegId
    else d.segsQuota * 2 % 2 ^ 32
  if d.segsQuota = nullImageSegId then .error .segsOverflow
  else if newQuota < d.segsQuota then .error .fault
  else .ok { d with
    segs := fun i =>
      if i < d.segsQuota then d.segs i
      else ⟨none, [], 0, 0, if i + 1 = newQuota then d.freeSegsHead else i + 1⟩
    freeSegsHead := d.segsQuota
    segsQuota := newQuota }

/-- Enters a record at the tail of the used images. -/
def appendImage (d : SharedDictionary) (p : Nat) : SharedDictionary :=
  let d := d.setImage p { d.images p with next := none }
  let d := match d.usedImagesTail with
    | some t => d.setImage t { d.images t with next := some p }
    | none => d
  { d with
    usedImagesTail := some p
    usedImagesHead := d.usedImagesHead.or (some p) }

def allocImage (d : SharedDictionary) : SharedDictionary × Nat :=
  match d.freeImages with
  | some p => ({ d with freeImages := (d.images p).next }.appendImage p, p)
  | none => ({ d with nRecords := d.nRecords + 1 }.appendImage d.nRecords, d.nRecords)

/-- Takes a segment from the free list. -/
def allocSegId (d : SharedDictionary) : Except DictError (SharedDictionary × Nat) := do
  let d ← (if d.freeSegsHead = nullImageSegId then d.segsRealloc else .ok d)
  if d.freeSegsHead = nullImageSegId then .error .assertFailed
  else .ok ({ d with freeSegsHead := (d.segs d.freeSegsHead).next }, d.freeSegsHead)

def allocImageSeg (d : SharedDictionary) (p size : Nat) (lines : List UInt8) :
    Except DictError (SharedDictionary × Nat) := do
  let (d, seg) ← d.allocSegId
  let d := d.setSeg seg ⟨some p, lines, size, d.pixelsSoFar, nullImageSegId⟩
  return ({ d with pixelsSoFar := (d.pixelsSoFar + size) % 2 ^ 64 }, seg)

/-- The record goes to the free list. -/
def freeImage (d : SharedDictionary) (p : Nat) : SharedDictionary :=
  { d.setImage p { d.images p with isAlive := false, next := d.freeImages } with
    freeImages := some p }

/-- The last segment of an image, from one of its segments on. -/
def lastSeg (d : SharedDictionary) (p : Nat) : Nat → Nat → Except DictError Nat
  | 0, _ => .error .loops
  | n + 1, seg =>
    let next := (d.segs seg).next
    if next ≠ nullImageSegId ∧ (d.segs next).image = some p then d.lastSeg p n next else .ok seg

def freeImageSegs (d : SharedDictionary) (p : Nat) : Except DictError SharedDictionary := do
  let seg ← d.lastSeg p d.segsQuota (d.images p).firstSeg
  return { d.setSegNext seg d.freeSegsHead with freeSegsHead := (d.images p).firstSeg }

/-- The loop that looks for the head of the window that an image of `size` pixels has. -/
def newHeadFrom (d : SharedDictionary) (size : Nat) :
    Nat → Nat → Option Nat → Except DictError (Option Nat)
  | 0, _, _ => .error .loops
  | n + 1, curWinSize, curHead =>
    if (curWinSize + size) % 2 ^ 32 > d.sizeLimit then
      match curHead with
      | none => .error .assertFailed
      | some p =>
        d.newHeadFrom size n ((curWinSize + 2 ^ 32 - (d.images p).size) % 2 ^ 32) (d.images p).next
    else .ok curHead

/-- The pixels between the head and the tail of the used segments, as a `uint32_t`. -/
def curWinSize (d : SharedDictionary) : Nat :=
  ((d.segs d.usedSegsTail).pixelsNum + (d.segs d.usedSegsTail).pixelsSoFar + 2 ^ 64 -
    (d.segs d.usedSegsHead).pixelsSoFar) % 2 ^ 64 % 2 ^ 32

def getNewHead (d : SharedDictionary) (size : Nat) : Except DictError (Option Nat) :=
  if size > d.sizeLimit then .error .imageTooBig
  else if ¬size < d.sizeLimit then .error .assertFailed
  else match d.usedImagesHead with
    | none => .ok none
    | some _ =>
      if d.usedSegsHead = nullImageSegId ∨ d.usedSegsTail = nullImageSegId then .error .assertFailed
      else d.newHeadFrom size (d.nRecords + 1) d.curWinSize (d.segs d.usedSegsHead).image

def isInUse (d : SharedDictionary) : Bool :=
  (List.range d.maxEncoders).any fun e => d.encodersHeads e ≠ nullImageSegId

/-- The loop of `remove_head`. -/
def removeImages (d : SharedDictionary) (endImage : Option Nat) :
    Nat → Except DictError SharedDictionary
  | 0 => if d.usedImagesHead = endImage then .ok d else .error .loops
  | n + 1 =>
    if d.usedImagesHead = endImage then .ok d
    else match d.usedImagesHead with
      | none => .error .fault
      | some p => do
        let d ← d.freeImageSegs p
        ({ d with usedImagesHead := (d.images p).next }.freeImage p).removeImages endImage n

def windowRemoveHead (d : SharedDictionary) (endImage : Option Nat) :
    Except DictError SharedDictionary := do
  let d ← d.removeImages endImage d.nRecords
  match endImage with
  | none => return { d with
      usedSegsHead := nullImageSegId
      usedSegsTail := nullImageSegId
      usedImagesTail := none }
  | some p => return { d with usedSegsHead := (d.images p).firstSeg }

/-- The loop of `add_image` over the lines that arrive; it returns the last segment. -/
def addSegs (p size height : Nat) :
    SharedDictionary → Nat → Nat → List Chunk → Except DictError (SharedDictionary × Nat)
  | _, _, _, [] => .error .moreLinesFailed
  | d, row, prev, c :: cs => do
    if c.numLines = 0 then throw .moreLinesFailed
    let (d, seg) ← d.allocImageSeg p (size * c.numLines % 2 ^ 32 / height) c.lines
    let d := if row = 0 then d.setImage p { d.images p with firstSeg := seg } else d.setSegNext prev seg
    if row + c.numLines < height then addSegs p size height d (row + c.numLines) seg cs
    else return (d, seg)

/-- The segments of the new image are linked behind those of the window. -/
def linkSegs (d : SharedDictionary) (first last : Nat) : SharedDictionary :=
  let d := if d.usedSegsTail = nullImageSegId then { d with usedSegsHead := first }
    else d.setSegNext d.usedSegsTail first
  { d with usedSegsTail := last }

def addImage (d : SharedDictionary) (type : LzImageType) (size height : Nat) (chunks : List Chunk) :
    Except DictError (SharedDictionary × Nat) := do
  let (d, p) := d.allocImage
  let d := d.setImage p { d.images p with id := d.lastImageId, size := size, type := type }
  let d := { d with lastImageId := (d.lastImageId + 1) % 2 ^ 64 }
  let (d, seg) ← addSegs p size height d 0 nullImageSegId chunks
  let d := d.linkSegs (d.images p).firstSeg seg
  return (d.setImage p { d.images p with isAlive := true }, p)

/-- The encoder is given the head of its window; the distance to it is returned with the image. -/
def setEncoderHead (d : SharedDictionary) (e p : Nat) : Option Nat → SharedDictionary × Nat × Nat
  | some h =>
    ({ d with encodersHeads := Function.update d.encodersHeads e (d.images h).firstSeg }, p,
      ((d.images p).id + 2 ^ 64 - (d.images h).id) % 2 ^ 64 % 2 ^ 32)
  | none => ({ d with encodersHeads := Function.update d.encodersHeads e (d.images p).firstSeg }, p, 0)

def preEncode (d : SharedDictionary) (e : Nat) (type : LzImageType) (height stride : Nat)
    (chunks : List Chunk) : Except DictError (SharedDictionary × Nat × Nat) := do
  if d.encodersHeads e ≠ nullImageSegId then throw .assertFailed
  let size := getPixelsNum type height stride
  let newWinHead ← d.getNewHead size
  let d ← (if d.isInUse then .ok d else d.windowRemoveHead newWinHead)
  let (d, p) ← d.addImage type size height chunks
  return d.setEncoderHead e p newWinHead

def imageSegIsEarlier (d : SharedDictionary) (dst src : Nat) : Bool :=
  src = nullImageSegId ∨
    (dst ≠ nullImageSegId ∧ (d.segs dst).pixelsSoFar < (d.segs src).pixelsSoFar)

/-- The earliest of the heads of the other encoders. -/
def earlyHeadSeg (d : SharedDictionary) (e : Nat) : Nat :=
  ((List.range d.maxEncoders).filter (· ≠ e)).foldl
    (fun early i => if d.imageSegIsEarlier (d.encodersHeads i) early then d.encodersHeads i else early)
    nullImageSegId

def postEncode (d : SharedDictionary) (e : Nat) : Except DictError SharedDictionary := do
  if d.encodersHeads e = nullImageSegId then throw .assertFailed
  let early := if d.imageSegIsEarlier d.usedSegsHead (d.earlyHeadSeg e) then d.usedSegsHead
    else d.earlyHeadSeg e
  if early = nullImageSegId then throw .assertFailed
  let d ← (if d.imageSegIsEarlier (d.encodersHeads e) early then
      match d.usedImagesHead with
      | none => .error .fault
      | some h =>
        if d.encodersHeads e ≠ (d.images h).firstSeg then .error .assertFailed
        else d.windowRemoveHead (d.segs early).image
    else .ok d)
  return { d with encodersHeads := Function.update d.encodersHeads e nullImageSegId }

end SharedDictionary

/-- An image that `glz_encode` accepts, and the chunks in which its lines arrive. -/
structure GlzImage where
  type : LzImageType
  width : Nat
  height : Nat
  stride : Nat
  chunks : List Chunk
  type_ok : type.isRgb ∨ type.isPlt
  stride_pos : 0 < stride
  stride_rgb : type.isRgb → stride = width * type.rgbBytesPerPixel
  stride_plt : type.isPlt →
    stride ≤ width / type.pltPixelsPerByte + if width % type.pltPixelsPerByte = 0 then 0 else 1
  height_pos : 0 < height
  numLines_pos : ∀ c ∈ chunks, 0 < c.numLines
  numLines_sum : (chunks.map Chunk.numLines).sum = height
  lines_length : ∀ c ∈ chunks, c.lines.length = c.numLines * stride

def GlzImage.pixels (image : GlzImage) : Nat :=
  if image.type.isRgb then image.height * image.width
  else image.height * image.stride * image.type.pltPixelsPerByte

/-- What an encoder keeps between `pre_encode` and `post_encode`. -/
structure Encoding where
  imageId : Nat
  headDist : Nat

/-- The dictionary, the encoders, and the ids of the window heads that were handed out, the latest
first. -/
structure DictState where
  dict : SharedDictionary
  encoding : Nat → Option Encoding
  heads : List Nat

inductive DictAction
  | preEncode (e : Nat) (image : GlzImage)
  | postEncode (e : Nat)
  | removeImage (p : Nat)

namespace DictState

def init (d : SharedDictionary) : DictState := ⟨d, fun _ => none, []⟩

/-- Both calls work on the window under the lock of the dictionary. -/
@[grind] def step (s : DictState) : DictAction → Except DictError DictState
  | .preEncode e image => do
    let (d, p, headDist) ← s.dict.preEncode e image.type image.height image.stride image.chunks
    let id := (d.images p).id
    return ⟨d, Function.update s.encoding e (some ⟨id, headDist⟩), (id - headDist) :: s.heads⟩
  | .postEncode e => do
    let d ← s.dict.postEncode e
    return { s with dict := d, encoding := Function.update s.encoding e none }
  | .removeImage p => return { s with dict := s.dict.removeImage p }

end DictState

end Colama.Spice.Glz
