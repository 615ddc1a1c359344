import Colama.Spice.Glz.DecoderWindow
import Colama.Spice.Lz.Template

namespace Colama.Spice.Glz.Decoder

open Lz.Decoder (Template)

/-- Why a call of `decode` ends early. Without the assertions a pointer that leaves its buffer ends it. -/
inductive DecodeError
  | assertFailed
  | endOfInput
  | outsideBuffer
  | outsideWindow
  | missingImage
  | outsidePalette
  | outOfFuel
  deriving DecidableEq

/-- What `decode` refers to: the window, the index of its own image there, and the pixels of the others. -/
structure RefImages (Pixel : Type) where
  window : GlzDecoderWindow
  imageWinId : Nat
  data : GlzDecodedImage → List Pixel

/-- Where a reference goes: `len` pixels, `pixelOfs` from the start of the image that is `imageDist` before, or back
from here when that is 0. -/
structure Reference where
  len : UInt32
  pixelOfs : UInt32
  imageDist : UInt32
  deriving DecidableEq

/-- The codes that are added to a length, up to the first that is not 255. -/
def lengthCodes : UInt32 → List UInt8 → Option (UInt32 × List UInt8)
  | _, [] => none
  | len, code :: ip => if code = 255 then lengthCodes (len + code.toUInt32) ip else some (len + code.toUInt32, ip)

/-- `imageFlag` bytes of a distance, the first of them shifted by `shift`. -/
def distCodes : Nat → UInt32 → UInt32 → List UInt8 → Option (UInt32 × List UInt8)
  | 0, _, dist, ip => some (dist, ip)
  | _ + 1, _, _, [] => none
  | n + 1, shift, dist, code :: ip => distCodes n (shift + 8) (dist + code.toUInt32 <<< shift) ip

/-- The offset and the distance, from the low bits of the control byte on. -/
def decodeDistance (ctrl : UInt32) : List UInt8 → Option (UInt32 × UInt32 × List UInt8)
  | low :: code :: ip => do
    let pixelOfs := (ctrl &&& (0x0f : UInt32)) + low.toUInt32 <<< 4
    let imageFlag := ((code >>> 6) &&& 0x03).toNat
    if (ctrl >>> 4) &&& 1 = 0 then do
      let (imageDist, ip) ← distCodes imageFlag 6 (code &&& 0x3f).toUInt32 ip
      some (pixelOfs, imageDist, ip)
    else do
      let pixelOfs := pixelOfs + (code &&& 0x1f).toUInt32 <<< 12
      let (imageDist, ip) ← distCodes imageFlag 0 0 ip
      if (code >>> 5) &&& 1 = 0 then some (pixelOfs, imageDist, ip)
      else match ip with
        | [] => none
        | high :: ip => some (pixelOfs + high.toUInt32 <<< 17, imageDist, ip)
  | _ => none

def decodeLength (ctrl : UInt32) (ip : List UInt8) : Option (UInt32 × List UInt8) :=
  if ctrl >>> 5 = 7 then lengthCodes 7 ip else some (ctrl >>> 5, ip)

def decodeReference (lenBias scale ctrl : UInt32) (ip : List UInt8) : Option (Reference × List UInt8) := do
  let (len, ip) ← decodeLength ctrl ip
  let (pixelOfs, imageDist, ip) ← decodeDistance ctrl ip
  let pixelOfs := if imageDist = 0 then pixelOfs + 1 else pixelOfs
  some (⟨(len + lenBias) * scale, pixelOfs * scale, imageDist⟩, ip)

/-- `out` are the pixels from `out_pix_buf` to `op`. -/
structure DecodeState (Pixel : Type) where
  ip : List UInt8
  out : List Pixel

variable (t : Template)

abbrev Dec := EStateM DecodeError (DecodeState t.Pixel)

-- `old` is what the buffer of the image holds at the call
variable (debug : Bool) (size : Int) (old : Nat → t.Pixel) (images : RefImages t.Pixel)

/-- `GLZ_ASSERT`. -/
def glzAssert (p : Prop) [Decidable p] : Dec t Unit := if debug ∧ ¬p then throw .assertFailed else pure ()

/-- A pointer stays in its buffer. -/
def inBuffer (p : Prop) [Decidable p] : Dec t Unit := if p then pure () else throw .outsideBuffer

def decodeByte : Dec t UInt8 := fun s =>
  match s.ip with
  | [] => .error .endOfInput s
  | b :: ip => .ok b { s with ip := ip }

def decodeBytes : Nat → Dec t (List UInt8)
  | 0 => pure []
  | n + 1 => do
    let b ← decodeByte t
    return b :: (← decodeBytes n)

def store (p : t.Pixel) : Dec t Unit := fun s =>
  if (s.out.length : Int) < size then .ok ⟨⟩ { s with out := s.out ++ [t.put (old s.out.length) p] }
  else .error .outsideBuffer s

/-- `op <= op_limit`. -/
def assertLimit : Dec t Unit := do glzAssert t debug (((← get).out.length : Int) ≤ size)

/-- `COPY_COMP_PIXEL`. -/
def copyCompPixel : Dec t Unit := do
  match t.comp (← decodeBytes t t.bytes) with
  | none => throw .outsidePalette
  | some ps => ps.forM (store t size old)

def copyComps : Nat → Dec t Unit
  | 0 => pure ()
  | n + 1 => do
    copyCompPixel t size old
    assertLimit t debug size
    copyComps n

/-- `get_ref_pixel`, for the pixels of the image. The wait for an image that does not come ends in an exception. -/
def getRefPixels (imageDist : UInt32) : Dec t (List t.Pixel) :=
  if images.window.imagesCapacity + images.imageWinId < imageDist.toNat then throw .outsideWindow
  else match images.window.images (images.window.refImageIndex images.imageWinId imageDist.toNat) with
    | none => throw .missingImage
    | some image => pure (images.data image)

/-- `*ref`, in the pixels of another image or in those of this one. -/
def readRef (image : Option (List t.Pixel)) (ref : Nat) : Dec t t.Pixel := fun s =>
  match (image.getD s.out)[ref]? with
  | none => .error .outsideBuffer s
  | some b => .ok b s

def copyRunOf (b : t.Pixel) : Nat → Dec t Unit
  | 0 => pure ()
  | n + 1 => do
    store t size old b
    assertLimit t debug size
    copyRunOf b n

def copyFrom (image : Option (List t.Pixel)) : Nat → Nat → Dec t Unit
  | 0, _ => pure ()
  | n + 1, ref => do
    let b ← readRef t image ref
    store t size old b
    assertLimit t debug size
    copyFrom image n (ref + 1)

/-- A reference inside the same image. -/
def copyHere (len ofs : Nat) : Dec t Unit := do
  let op := (← get).out.length
  glzAssert t debug ((op : Int) - ofs + len ≤ size)
  glzAssert t debug (ofs ≤ op)
  inBuffer t (ofs ≤ op)
  glzAssert t debug ((op : Int) + len ≤ size)
  if ofs = 1 then do
    let b ← readRef t none (op - ofs)
    copyRunOf t debug size old b len
  else copyFrom t debug size old none len (op - ofs)

/-- A reference to another image. -/
def copyThere (pixels : List t.Pixel) (len ofs : Nat) : Dec t Unit := do
  let op := (← get).out.length
  inBuffer t (ofs ≤ pixels.length)
  glzAssert t debug ((op : Int) + len ≤ size)
  copyFrom t debug size old (some pixels) len ofs

/-- The lengths are biased by one less than those of `lz`. -/
def reference (ctrl : UInt32) : Dec t Unit := do
  let s ← get
  match decodeReference (t.lenBias - 1) t.scale ctrl s.ip with
  | none => throw .endOfInput
  | some (r, ip) => do
    set { s with ip := ip }
    if r.imageDist = 0 then copyHere t debug size old r.len.toNat r.pixelOfs.toNat
    else do
      let pixels ← getRefPixels t images r.imageDist
      copyThere t debug size old pixels r.len.toNat r.pixelOfs.toNat

/-- `ctrl + 1` units that follow as they are. -/
def literals (ctrl : UInt32) : Dec t Unit := do
  let op := (← get).out.length
  glzAssert t debug ((op : Int) + ((ctrl + 1) * t.scale).toNat ≤ size)
  copyComps t debug size old (ctrl + 1).toNat

def decodeRounds : Nat → UInt32 → Dec t Unit
  | 0, _ => throw .outOfFuel
  | n + 1, ctrl => do
    if ctrl ≥ 32 then reference t debug size old images ctrl else literals t debug size old ctrl
    let s ← get
    if (s.out.length : Int) < size then do
      let next ← decodeByte t
      decodeRounds n next.toUInt32
    else pure ()

/-- What is returned is `ip - in_buf`. -/
def decode : Dec t Nat := do
  let s ← get
  let ctrl ← decodeByte t
  decodeRounds t debug size old images (s.ip.length + 1) ctrl.toUInt32
  return s.ip.length - (← get).ip.length

end Colama.Spice.Glz.Decoder
